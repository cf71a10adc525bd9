import Mathlib.Data.List.Induction

/-!
# Lines

A list, cut at each `a`: the lines that an `a` ends, and what comes behind the last one.

Results:
1. `fullLines_snoc_self`, `fullLines_snoc`: one more element.
2. `lastLine_subset`: the unfinished line is taken from the list.
-/

namespace SoKernel

universe u

variable {α : Type u} [DecidableEq α] {a c : α} {xs : List α}

/-- The lines that an `a` ends, without it. -/
def fullLines (a : α) (xs : List α) : List (List α) := (xs.splitOn a).dropLast

/-- What comes behind the last `a`. -/
def lastLine (a : α) (xs : List α) : List α := (xs.splitOn a).getLast (List.splitOn_ne_nil a xs)

@[simp] theorem fullLines_nil : fullLines a [] = [] := rfl

@[simp] theorem lastLine_nil : lastLine a [] = [] := rfl

theorem lines_of_splitOn {ls : List (List α)} {r : List α} (h : xs.splitOn a = ls ++ [r]) :
    fullLines a xs = ls ∧ lastLine a xs = r := by
  unfold fullLines lastLine
  simp [h]

theorem splitOn_snoc (hc : c ≠ a) (xs : List α) :
    ∃ ls r, xs.splitOn a = ls ++ [r] ∧ (xs ++ [c]).splitOn a = ls ++ [r ++ [c]] := by
  induction xs with
  | nil =>
    refine ⟨[], [], rfl, ?_⟩
    rw [List.nil_append, List.splitOn_cons_eq_if_modifyHead, if_neg (by simpa using hc)]
    rfl
  | cons x xs ih =>
    obtain ⟨ls, r, h, h'⟩ := ih
    rw [List.cons_append, List.splitOn_cons_eq_if_modifyHead, List.splitOn_cons_eq_if_modifyHead, h, h']
    by_cases hx : (x == a) = true
    · rw [if_pos hx, if_pos hx]
      exact ⟨[] :: ls, r, rfl, rfl⟩
    · rw [if_neg hx, if_neg hx]
      cases ls with
      | nil => exact ⟨[], x :: r, rfl, rfl⟩
      | cons l ls => exact ⟨(x :: l) :: ls, r, rfl, rfl⟩

/-- An `a` ends a line. -/
theorem fullLines_snoc_self (a : α) (xs : List α) :
    fullLines a (xs ++ [a]) = fullLines a xs ++ [lastLine a xs] ∧ lastLine a (xs ++ [a]) = [] := by
  refine lines_of_splitOn ?_
  rw [List.splitOn_append_cons_self, List.splitOn_nil, fullLines, lastLine,
    List.dropLast_concat_getLast]

/-- Another element goes to the unfinished line. -/
theorem fullLines_snoc (hc : c ≠ a) (xs : List α) :
    fullLines a (xs ++ [c]) = fullLines a xs ∧ lastLine a (xs ++ [c]) = lastLine a xs ++ [c] := by
  obtain ⟨ls, r, h, h'⟩ := splitOn_snoc hc xs
  obtain ⟨hfull, hlast⟩ := lines_of_splitOn h
  rw [hfull, hlast]
  exact lines_of_splitOn h'

/-- The unfinished line is the end of the list. -/
theorem lastLine_subset : lastLine a xs ⊆ xs := by
  induction xs using List.reverseRecOn with
  | nil => exact List.Subset.refl _
  | append_singleton xs c ih =>
    by_cases hc : c = a
    · rw [hc, (fullLines_snoc_self a xs).2]
      exact List.nil_subset _
    · rw [(fullLines_snoc hc xs).2]
      exact List.append_subset.mpr ⟨List.subset_append_of_subset_left _ ih, List.subset_append_right _ _⟩

end SoKernel
