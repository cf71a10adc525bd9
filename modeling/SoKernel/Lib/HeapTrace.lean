import Mathlib.Data.Option.Basic
import Mathlib.Logic.Function.Basic

/-!
# Traces of heap calls

What a program that manages named blocks may do to them: allocate a block, give an address
inside it to `free`, write bytes at an offset. A trace is disciplined when every address freed
is the first of a live block and every byte written lies in one.

Results:
1. `run_append`: a trace runs as its parts do, one after the other.
2. `free_start`: only the first address of a block is freed.
3. `run_free_twice`: a block freed twice with no allocation of it in between breaks the
   discipline.
-/

namespace SoKernel

universe u

/-- One call on the heap; a write is of so many bytes at an offset. -/
inductive HeapAct (β : Type u)
  | malloc (b : β) (size : Nat)
  | free (b : β) (off : Int)
  | write (b : β) (off : Int) (count : Nat)
deriving DecidableEq, Repr

/-- The live blocks with their sizes. -/
abbrev LiveBlocks (β : Type u) := β → Option Nat

namespace HeapAct

variable {β : Type u} [DecidableEq β]

/-- The effect of a call on the live blocks; none when it breaks the discipline. -/
def exec (h : LiveBlocks β) : HeapAct β → Option (LiveBlocks β)
  | .malloc b size => some (Function.update h b (some size))
  | .free b off =>
    if off = 0 ∧ (h b).isSome then some (Function.update h b none) else none
  | .write b off count =>
    if 0 ≤ off ∧ off + count ≤ (h b).getD 0 then some h else none

def run (h : LiveBlocks β) : List (HeapAct β) → Option (LiveBlocks β)
  | [] => some h
  | a :: t => (exec h a).bind fun h' => run h' t

/-- The trace keeps the discipline, no block being live at its start. -/
def Disciplined (t : List (HeapAct β)) : Prop := (run (fun _ => none) t).isSome

instance (t : List (HeapAct β)) : Decidable (Disciplined t) :=
  inferInstanceAs (Decidable ((run (fun _ => none) t).isSome = true))

@[simp] theorem run_nil (h : LiveBlocks β) : run h [] = some h := rfl

@[simp] theorem run_cons (h : LiveBlocks β) (a : HeapAct β) (t : List (HeapAct β)) :
    run h (a :: t) = (exec h a).bind fun h' => run h' t := rfl

theorem run_append (h : LiveBlocks β) (t u : List (HeapAct β)) :
    run h (t ++ u) = (run h t).bind fun h' => run h' u := by
  induction t generalizing h with
  | nil => rfl
  | cons a t ih =>
    cases ha : exec h a with
    | none => simp [ha]
    | some h' => simp [ha, ih]

/-- Every call of a trace that runs through is executed in some state. -/
theorem exec_of_mem {h h' : LiveBlocks β} {t : List (HeapAct β)} {a : HeapAct β}
    (hrun : run h t = some h') (ha : a ∈ t) : ∃ k, (exec k a).isSome := by
  obtain ⟨u, v, rfl⟩ := List.append_of_mem ha
  rw [run_append] at hrun
  obtain ⟨k, -, hk⟩ := Option.bind_eq_some_iff.mp hrun
  rw [run_cons] at hk
  obtain ⟨k', hk', -⟩ := Option.bind_eq_some_iff.mp hk
  exact ⟨k, by rw [hk']; rfl⟩

/-- Only the first address of a block is freed. -/
theorem free_start {h h' : LiveBlocks β} {t : List (HeapAct β)} {b : β} {off : Int}
    (hrun : run h t = some h') (hb : .free b off ∈ t) : off = 0 := by
  obtain ⟨k, hk⟩ := exec_of_mem hrun hb
  rw [exec] at hk
  split at hk
  · next hoff => exact hoff.1
  · cases hk

/-- A block that is not live stays so as long as it is not allocated. -/
theorem run_dead {h h' : LiveBlocks β} {t : List (HeapAct β)} {b : β} (hb : h b = none)
    (hrun : run h t = some h') (hno : ∀ size, .malloc b size ∉ t) : h' b = none := by
  induction t generalizing h with
  | nil =>
    cases hrun
    exact hb
  | cons a t ih =>
    rw [run_cons] at hrun
    obtain ⟨k, hk, hrun⟩ := Option.bind_eq_some_iff.mp hrun
    refine ih ?_ hrun fun size hmem => hno size (List.mem_cons_of_mem _ hmem)
    cases a with
    | malloc c size =>
      cases hk
      have hc : b ≠ c := by
        intro he
        exact hno size (by rw [he]; exact List.mem_cons_self)
      rwa [Function.update_of_ne hc]
    | free c off =>
      rw [exec] at hk
      split at hk
      · cases hk
        rw [Function.update_apply]
        split
        · rfl
        · exact hb
      · cases hk
    | write c off count =>
      rw [exec] at hk
      split at hk
      · cases hk
        exact hb
      · cases hk

/-- A block freed twice, and not allocated in between. -/
theorem run_free_twice (h : LiveBlocks β) (t u v : List (HeapAct β)) (b : β) (off off' : Int)
    (hno : ∀ size, .malloc b size ∉ u) :
    run h (t ++ .free b off :: (u ++ .free b off' :: v)) = none := by
  rw [Option.eq_none_iff_forall_ne_some]
  intro h' hrun
  rw [run_append] at hrun
  obtain ⟨k, -, hrun⟩ := Option.bind_eq_some_iff.mp hrun
  rw [run_cons] at hrun
  obtain ⟨k₁, hfree, hrun⟩ := Option.bind_eq_some_iff.mp hrun
  rw [run_append] at hrun
  obtain ⟨k₂, hmid, hrun⟩ := Option.bind_eq_some_iff.mp hrun
  have hdead : k₁ b = none := by
    rw [exec] at hfree
    split at hfree
    · cases hfree
      exact Function.update_self ..
    · cases hfree
  have hdead₂ : k₂ b = none := run_dead hdead hmid hno
  simp [exec, hdead₂] at hrun

end HeapAct

end SoKernel
