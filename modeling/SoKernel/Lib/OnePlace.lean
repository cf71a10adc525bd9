import Mathlib.Algebra.BigOperators.Group.Finset.Basic
import Mathlib.Algebra.Order.BigOperators.Group.Finset
import Mathlib.Data.Fintype.Basic

/-!
# Histories of a one-place cell

What a cell that holds one value at a time can have seen of its users: somebody puts a value
into the empty cell, somebody takes the value of the full one. Histories are lists with the
latest act first.

Results:
1. `CellHistory.isPut_iff`: puts and takes alternate, beginning with a put.
2. `CellHistory.takes_add`: what has been put has been taken or is in the cell, by count.
3. `sum_update`: a sum over finitely many parties after one of them has changed.
-/

namespace SoKernel

universe u v

/-- What a user did to a cell. -/
inductive CellAct (ι : Type u) (α : Type v)
  | put (i : ι) (x : α)
  | take (i : ι) (x : α)
deriving DecidableEq, Repr

variable {ι : Type u} {α : Type v}

def CellAct.isPut : CellAct ι α → Bool
  | .put _ _ => true
  | .take _ _ => false

/-- The history of a cell, and the value in it. -/
inductive CellHistory : List (CellAct ι α) → Option α → Prop
  | nil : CellHistory [] none
  | put {t : List (CellAct ι α)} (i : ι) (x : α) :
      CellHistory t none → CellHistory (.put i x :: t) (some x)
  | take {t : List (CellAct ι α)} {x : α} (i : ι) :
      CellHistory t (some x) → CellHistory (.take i x :: t) none

namespace CellHistory

variable {t : List (CellAct ι α)} {c : Option α}

/-- The values put that satisfy `q`. -/
def puts (q : ι → α → Bool) (t : List (CellAct ι α)) : Nat :=
  t.countP fun a => match a with
    | .put i x => q i x
    | .take _ _ => false

/-- The values taken that satisfy `q`. -/
def takes (q : ι → α → Bool) (t : List (CellAct ι α)) : Nat :=
  t.countP fun a => match a with
    | .put _ _ => false
    | .take i x => q i x

theorem puts_put (q : ι → α → Bool) (i : ι) (x : α) (t : List (CellAct ι α)) :
    puts q (.put i x :: t) = puts q t + if q i x then 1 else 0 := List.countP_cons

theorem puts_take (q : ι → α → Bool) (i : ι) (x : α) (t : List (CellAct ι α)) :
    puts q (.take i x :: t) = puts q t := List.countP_cons_of_neg (by simp)

theorem takes_put (q : ι → α → Bool) (i : ι) (x : α) (t : List (CellAct ι α)) :
    takes q (.put i x :: t) = takes q t := List.countP_cons_of_neg (by simp)

theorem takes_take (q : ι → α → Bool) (i : ι) (x : α) (t : List (CellAct ι α)) :
    takes q (.take i x :: t) = takes q t + if q i x then 1 else 0 := List.countP_cons

theorem takes_add (h : CellHistory t c) (p : α → Bool) :
    takes (fun _ x => p x) t + c.toList.countP p = puts (fun _ x => p x) t := by
  induction h with
  | nil => rfl
  | put i x _ ih =>
    rw [takes_put, puts_put, ← ih]
    simp [List.countP_cons]
  | take i _ ih =>
    rw [takes_take, puts_take, ← ih]
    simp [List.countP_cons]

theorem takes_le (h : CellHistory t c) (p : α → Bool) :
    takes (fun _ x => p x) t ≤ puts (fun _ x => p x) t :=
  h.takes_add p ▸ Nat.le_add_right _ _

theorem puts_mono {q q' : ι → α → Bool} (h : ∀ i x, q i x = true → q' i x = true) :
    puts q t ≤ puts q' t := by
  refine List.countP_mono_left fun a _ ha => ?_
  cases a with
  | put i x => exact h i x ha
  | take i x => cases ha

theorem exists_take {q : ι → α → Bool} (h : 0 < takes q t) :
    ∃ i x, .take i x ∈ t ∧ q i x = true := by
  obtain ⟨a, ha, hq⟩ := List.countP_pos_iff.mp h
  cases a with
  | put i x => cases hq
  | take i x => exact ⟨i, x, ha, hq⟩

/-- The cell is full after an odd number of acts. -/
theorem length_odd (h : CellHistory t c) : t.length % 2 = if c.isSome then 1 else 0 := by
  induction h with
  | nil => rfl
  | put i x _ ih =>
    rw [List.length_cons, Nat.add_mod, ih]
    rfl
  | take i _ ih =>
    rw [List.length_cons, Nat.add_mod, ih]
    simp

/-- An act is a put exactly when an even number of acts came before it. -/
theorem isPut_iff (h : CellHistory t c) {a : CellAct ι α} {r : List (CellAct ι α)}
    (ha : a :: r <:+ t) : a.isPut = true ↔ r.length % 2 = 0 := by
  induction h with
  | nil => exact absurd (List.suffix_nil.mp ha) (List.cons_ne_nil _ _)
  | put i x h ih =>
    rcases List.suffix_cons_iff.mp ha with heq | ha
    · obtain ⟨rfl, rfl⟩ := List.cons.inj heq
      exact iff_of_true rfl h.length_odd
    · exact ih ha
  | take i h ih =>
    rcases List.suffix_cons_iff.mp ha with heq | ha
    · obtain ⟨rfl, rfl⟩ := List.cons.inj heq
      have hodd : _ % 2 = 1 := h.length_odd
      exact iff_of_false Bool.false_ne_true fun h0 => absurd (h0.symm.trans hodd) Nat.zero_ne_one
    · exact ih ha

end CellHistory

/-! ## Sums over the parties -/

theorem sum_update {β : Type v} [Fintype ι] [DecidableEq ι] (f : ι → β → Nat) (g : ι → β) (i : ι)
    (b : β) : ∑ j, f j (Function.update g i b j) + f i (g i) = ∑ j, f j (g j) + f i b := by
  have hrest : ∑ j ∈ Finset.univ.erase i, f j (Function.update g i b j) =
      ∑ j ∈ Finset.univ.erase i, f j (g j) :=
    Finset.sum_congr rfl fun j hj => by rw [Function.update_of_ne (Finset.ne_of_mem_erase hj)]
  rw [← Finset.add_sum_erase _ _ (Finset.mem_univ i),
    ← Finset.add_sum_erase _ (fun j => f j (g j)) (Finset.mem_univ i), hrest, Function.update_self]
  omega

end SoKernel
