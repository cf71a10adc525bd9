import Mathlib.Data.List.Nodup
import Mathlib.Logic.Function.Basic

/-!
# Linked lists in a heap

A heap of cells, each with an element and a pointer to the next cell. `Linked nodes p l`:
following the pointers from `p` visits exactly the cells of `l`, and ends.

Results:
1. `Linked.unique`, `Linked.nodup`: a list that ends visits no cell twice.
2. `Linked.congr`, `Linked.update`: cells that are not visited do not matter.
3. `Linked.snoc`, `Linked.unlink`: a cell linked behind the last one, and a cell taken out.
-/

namespace SoKernel

universe u v

/-- A cell with its element. -/
structure Cell (P : Type u) (D : Type v) where
  data : D
  next : Option P
deriving DecidableEq, Repr

section

variable {P : Type u} {D : Type v}

/-- From `p` the pointers lead through the listed cells, which hold the listed elements. -/
def Linked (nodes : P → Option (Cell P D)) : Option P → List (P × D) → Prop
  | p, [] => p = none
  | p, a :: l => p = some a.1 ∧ ∃ next, nodes a.1 = some ⟨a.2, next⟩ ∧ Linked nodes next l

variable {nodes nodes' : P → Option (Cell P D)} {p : Option P} {l u v : List (P × D)} {a : P × D}

theorem Linked.eq_none : Linked nodes none l ↔ l = [] := by
  cases l with
  | nil => exact ⟨fun _ => rfl, fun _ => rfl⟩
  | cons a l =>
    refine ⟨fun h => ?_, fun h => ?_⟩
    · cases h.1
    · cases h

theorem Linked.unique {l' : List (P × D)} (h : Linked nodes p l) (h' : Linked nodes p l') :
    l = l' := by
  induction l generalizing p l' with
  | nil =>
    rw [show p = none from h] at h'
    exact (Linked.eq_none.mp h').symm
  | cons a l ih =>
    obtain ⟨rfl, next, ha, hl⟩ := h
    cases l' with
    | nil => cases h'
    | cons b l' =>
      obtain ⟨hab, next', hb, hl'⟩ := h'
      rw [Option.some.injEq] at hab
      rw [← hab, ha, Option.some.injEq, Cell.mk.injEq] at hb
      obtain ⟨hdata, rfl⟩ := hb
      rw [ih hl hl', Prod.ext hab hdata]

/-- The rest of a list is one of its own. -/
theorem Linked.suffix (h : Linked nodes p (u ++ v)) : ∃ q, Linked nodes q v := by
  induction u generalizing p with
  | nil => exact ⟨p, h⟩
  | cons a u ih =>
    obtain ⟨-, next, -, hl⟩ := h
    exact ih hl

/-- What is visited is in the heap. -/
theorem Linked.mem (h : Linked nodes p l) (ha : a ∈ l) :
    ∃ next, nodes a.1 = some ⟨a.2, next⟩ := by
  obtain ⟨u, v, rfl⟩ := List.append_of_mem ha
  obtain ⟨q, -, next, hnode, -⟩ := h.suffix
  exact ⟨next, hnode⟩

/-- A cell met again would be met without end. -/
theorem Linked.nodup (h : Linked nodes p l) : (l.map Prod.fst).Nodup := by
  induction l generalizing p with
  | nil => exact List.nodup_nil
  | cons a l ih =>
    have hfirst := h
    obtain ⟨hp, next, -, hl⟩ := h
    refine List.nodup_cons.mpr ⟨fun hmem => ?_, ih hl⟩
    obtain ⟨b, hb, hba⟩ := List.mem_map.mp hmem
    obtain ⟨u, v, rfl⟩ := List.append_of_mem hb
    obtain ⟨q, hq⟩ := hl.suffix
    rw [show q = p by rw [hp, hq.1, hba]] at hq
    have hlen := congrArg List.length (hfirst.unique hq)
    simp only [List.length_cons, List.length_append] at hlen
    omega

theorem Linked.congr (h : Linked nodes p l)
    (hn : ∀ b ∈ l.map Prod.fst, nodes' b = nodes b) : Linked nodes' p l := by
  induction l generalizing p with
  | nil => exact h
  | cons a l ih =>
    obtain ⟨hp, next, ha, hl⟩ := h
    rw [List.map_cons, List.forall_mem_cons] at hn
    exact ⟨hp, next, hn.1.trans ha, ih hl hn.2⟩

variable [DecidableEq P]

/-- A write to a cell that is not visited. -/
theorem Linked.update (h : Linked nodes p l) {b : P} (hb : b ∉ l.map Prod.fst)
    (c : Option (Cell P D)) : Linked (Function.update nodes b c) p l := by
  refine h.congr fun x hx => ?_
  have hxb : x ≠ b := by
    rintro rfl
    exact hb hx
  rw [Function.update_of_ne hxb]

/-- The last cell is given a next one, which is new. -/
theorem Linked.snoc {r b : P × D} {next : Option P} (h : Linked nodes p (u ++ [r]))
    (hr : nodes r.1 = some ⟨r.2, next⟩) (hb : nodes b.1 = none) :
    Linked (Function.update (Function.update nodes b.1 (some ⟨b.2, none⟩)) r.1
      (some ⟨r.2, some b.1⟩)) p (u ++ [r, b]) := by
  have hbr : b.1 ≠ r.1 := by
    intro he
    rw [he, hr] at hb
    cases hb
  induction u generalizing p with
  | nil =>
    refine ⟨h.1, some b.1, Function.update_self .., rfl, none, ?_, rfl⟩
    rw [Function.update_of_ne hbr, Function.update_self]
  | cons a u ih =>
    have hmem : r.1 ∈ (u ++ [r]).map Prod.fst := List.mem_map_of_mem (by simp)
    have har : a.1 ≠ r.1 := fun he => (List.nodup_cons.mp h.nodup).1 (he ▸ hmem)
    obtain ⟨hp, next', ha, hl⟩ := h
    have hab : a.1 ≠ b.1 := by
      intro he
      rw [he, hb] at ha
      cases ha
    refine ⟨hp, next', ?_, ih hl⟩
    rw [Function.update_of_ne har, Function.update_of_ne hab, ha]

/-- The cell in front of `b` is given the next one of `b`. -/
theorem Linked.unlink {r b : P × D} {next : Option P} (h : Linked nodes p (u ++ r :: b :: v))
    (hb : nodes b.1 = some ⟨b.2, next⟩) :
    Linked (Function.update nodes r.1 (some ⟨r.2, next⟩)) p (u ++ r :: v) := by
  induction u generalizing p with
  | nil =>
    have hnodup := h.nodup
    obtain ⟨hp, next', -, -, next'', hb', hl⟩ := h
    rw [hb, Option.some.injEq, Cell.mk.injEq] at hb'
    obtain ⟨-, rfl⟩ := hb'
    refine ⟨hp, next, Function.update_self .., hl.update (fun hmem => ?_) _⟩
    exact (List.nodup_cons.mp hnodup).1 (List.mem_cons_of_mem _ hmem)
  | cons a u ih =>
    have hmem : r.1 ∈ (u ++ r :: b :: v).map Prod.fst := List.mem_map_of_mem (by simp)
    have har : a.1 ≠ r.1 := fun he => (List.nodup_cons.mp h.nodup).1 (he ▸ hmem)
    obtain ⟨hp, next', ha, hl⟩ := h
    exact ⟨hp, next', by rw [Function.update_of_ne har, ha], ih hl⟩

end

end SoKernel
