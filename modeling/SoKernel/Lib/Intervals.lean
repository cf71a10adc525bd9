import Mathlib.Algebra.GroupWithZero.Nat
import Mathlib.Data.Nat.Count
import Mathlib.Data.List.Pairwise

/-!
# Intervals cut into free cells and groups

`Cut free group i j gs`: from left to right the cells `i, ..., j - 1` are free cells and
groups of cells; `gs` lists the groups, each with its first cell and its length.

Results:
1. `Cut.split_free`, `Cut.split_group`: a cut falls apart around free cells and around a
   group, so that these can be exchanged for one another.
2. `Cut.disjoint`: the groups do not meet.
3. `Cut.count`: the number of cells that are not free.
-/

namespace SoKernel

inductive Cut (free : Nat → Prop) (group : Nat → Nat → Prop) : Nat → Nat → List (Nat × Nat) → Prop
  | nil (i : Nat) : Cut free group i i []
  | free {i j : Nat} {gs : List (Nat × Nat)} : free i → Cut free group (i + 1) j gs →
      Cut free group i j gs
  | group {i j n : Nat} {gs : List (Nat × Nat)} : 0 < n → group i n →
      Cut free group (i + n) j gs → Cut free group i j ((i, n) :: gs)

namespace Cut

variable {free free' : Nat → Prop} {group group' : Nat → Nat → Prop} {i j l a n : Nat}
  {gs gs' : List (Nat × Nat)} {g : Nat × Nat}

theorem le (h : Cut free group i j gs) : i ≤ j := by
  induction h with
  | nil => exact Nat.le_refl _
  | free _ _ ih => exact Nat.le_of_succ_le ih
  | group _ _ _ ih => exact Nat.le_trans (Nat.le_add_right _ _) ih

theorem append (h : Cut free group i j gs) (h' : Cut free group j l gs') :
    Cut free group i l (gs ++ gs') := by
  induction h with
  | nil => exact h'
  | free hf _ ih => exact .free hf (ih h')
  | group hn hg _ ih => exact .group hn hg (ih h')

/-- Free cells only. -/
theorem frees (n : Nat) (hf : ∀ x, i ≤ x → x < i + n → free x) : Cut free group i (i + n) [] := by
  induction n generalizing i with
  | zero => exact .nil i
  | succ n ih =>
    have hlen : i + (n + 1) = i + 1 + n := (Nat.succ_add_eq_add_succ i n).symm
    refine .free (hf i (Nat.le_refl i) (Nat.lt_add_of_pos_right (Nat.succ_pos n))) ?_
    rw [hlen]
    exact ih fun x hi hx => hf x (Nat.le_of_succ_le hi) (hlen ▸ hx)

/-- One group. -/
theorem single (hn : 0 < n) (hg : group a n) : Cut free group a (a + n) [(a, n)] :=
  .group hn hg (.nil _)

/-- A cut says nothing about the cells outside it. -/
theorem congr (h : Cut free group i j gs) (hf : ∀ x, i ≤ x → x < j → free x → free' x)
    (hg : ∀ a n, i ≤ a → a + n ≤ j → group a n → group' a n) : Cut free' group' i j gs := by
  induction h with
  | nil i => exact .nil i
  | @free i j gs hx hrest ih =>
    refine .free (hf i (Nat.le_refl i) hrest.le hx) (ih ?_ ?_)
    · exact fun x hi => hf x (Nat.le_of_succ_le hi)
    · exact fun a n hi => hg a n (Nat.le_of_succ_le hi)
  | @group i j n gs hn hgrp hrest ih =>
    refine .group hn (hg i n (Nat.le_refl i) hrest.le hgrp) (ih ?_ ?_)
    · exact fun x hi => hf x (Nat.le_trans (Nat.le_add_right _ _) hi)
    · exact fun a m hi => hg a m (Nat.le_trans (Nat.le_add_right _ _) hi)

/-- The groups lie inside. -/
theorem bounds (h : Cut free group i j gs) (hg : g ∈ gs) :
    i ≤ g.1 ∧ g.1 + g.2 ≤ j ∧ 0 < g.2 ∧ group g.1 g.2 := by
  induction h with
  | nil => cases hg
  | free _ _ ih =>
    obtain ⟨hi, hrest⟩ := ih hg
    exact ⟨Nat.le_of_succ_le hi, hrest⟩
  | @group i j n gs hn hgrp hrest ih =>
    rcases List.mem_cons.mp hg with rfl | hg
    · exact ⟨Nat.le_refl _, hrest.le, hn, hgrp⟩
    · obtain ⟨hi, hrest⟩ := ih hg
      exact ⟨Nat.le_trans (Nat.le_add_right _ _) hi, hrest⟩

theorem disjoint (h : Cut free group i j gs) : gs.Pairwise fun g g' => g.1 + g.2 ≤ g'.1 := by
  induction h with
  | nil => exact .nil
  | free _ _ ih => exact ih
  | group _ _ hrest ih => exact .cons (fun g' hg' => (hrest.bounds hg').1) ih

/-- The groups take up cells of their own. -/
theorem sum_le (h : Cut free group i j gs) : i + (gs.map Prod.snd).sum ≤ j := by
  induction h with
  | nil => exact Nat.le_refl _
  | free _ _ ih => exact Nat.le_trans (Nat.add_le_add_right (Nat.le_succ _) _) ih
  | group _ _ _ ih => rwa [List.map_cons, List.sum_cons, ← Nat.add_assoc]

/-- Every cell is free or in a group. -/
theorem cover (h : Cut free group i j gs) {x : Nat} (hi : i ≤ x) (hj : x < j) :
    free x ∨ ∃ g ∈ gs, g.1 ≤ x ∧ x < g.1 + g.2 := by
  induction h with
  | nil => exact absurd hj (Nat.not_lt.mpr hi)
  | free hx _ ih =>
    rcases Nat.eq_or_lt_of_le hi with rfl | hi
    · exact .inl hx
    · exact ih hi hj
  | @group i j n gs _ _ _ ih =>
    rcases Nat.lt_or_ge x (i + n) with hlt | hge
    · exact .inr ⟨(i, n), List.mem_cons_self, hi, hlt⟩
    · rcases ih hge hj with hx | ⟨g, hg, hx⟩
      · exact .inl hx
      · exact .inr ⟨g, List.mem_cons_of_mem _ hg, hx⟩

theorem split_group (h : Cut free group i j gs) (hg : (a, n) ∈ gs) :
    ∃ gs1 gs2, gs = gs1 ++ (a, n) :: gs2 ∧ Cut free group i a gs1 ∧
      Cut free group (a + n) j gs2 := by
  induction h with
  | nil => cases hg
  | free hx _ ih =>
    obtain ⟨gs1, gs2, rfl, h1, h2⟩ := ih hg
    exact ⟨gs1, gs2, rfl, .free hx h1, h2⟩
  | @group i j m gs hm hgrp hrest ih =>
    rcases List.mem_cons.mp hg with he | hg
    · obtain ⟨rfl, rfl⟩ := Prod.mk.inj he
      exact ⟨[], gs, rfl, .nil _, hrest⟩
    · obtain ⟨gs1, gs2, rfl, h1, h2⟩ := ih hg
      exact ⟨(i, m) :: gs1, gs2, rfl, .group hm hgrp h1, h2⟩

theorem free_of_nil (h : Cut free group i j []) {x : Nat} (hi : i ≤ x) (hj : x < j) : free x := by
  rcases h.cover hi hj with hx | ⟨_, hg, _⟩
  · exact hx
  · cases hg

section

variable (hnot : ∀ a n x, group a n → a ≤ x → x < a + n → ¬ free x)

include hnot

/-- A free cell is in no group. -/
theorem split_at (h : Cut free group i j gs) (hi : i ≤ a) (hj : a < j) (ha : free a) :
    ∃ gs1 gs2, gs = gs1 ++ gs2 ∧ Cut free group i a gs1 ∧ Cut free group (a + 1) j gs2 := by
  induction h with
  | nil => exact absurd hj (Nat.not_lt.mpr hi)
  | @free i j gs hx hrest ih =>
    rcases Nat.eq_or_lt_of_le hi with rfl | hi
    · exact ⟨[], gs, rfl, .nil i, hrest⟩
    · obtain ⟨gs1, gs2, rfl, h1, h2⟩ := ih hi hj
      exact ⟨gs1, gs2, rfl, .free hx h1, h2⟩
  | @group i j m gs hm hgrp hrest ih =>
    rcases Nat.lt_or_ge a (i + m) with hlt | hge
    · exact absurd ha (hnot i m a hgrp hi hlt)
    · obtain ⟨gs1, gs2, rfl, h1, h2⟩ := ih hge hj
      exact ⟨(i, m) :: gs1, gs2, rfl, .group hm hgrp h1, h2⟩

theorem split_free (h : Cut free group i j gs) (hi : i ≤ a) (hj : a + n ≤ j) (hn : 0 < n)
    (hf : ∀ x, a ≤ x → x < a + n → free x) :
    ∃ gs1 gs2, gs = gs1 ++ gs2 ∧ Cut free group i a gs1 ∧ Cut free group (a + n) j gs2 := by
  induction n, hn using Nat.le_induction with
  | base => exact h.split_at hnot hi hj (hf a (Nat.le_refl a) (Nat.lt_succ_self a))
  | succ n hn ih =>
    obtain ⟨gs1, gs2, rfl, h1, h2⟩ :=
      ih (Nat.le_of_succ_le hj) fun x ha hx => hf x ha (Nat.lt_succ_of_lt hx)
    have hlast : free (a + n) := hf (a + n) (Nat.le_add_right a n) (Nat.lt_succ_self _)
    obtain ⟨gs3, gs4, rfl, h3, h4⟩ := h2.split_at hnot (Nat.le_refl _) hj hlast
    -- nothing lies between `a + n` and itself
    have hnil : gs3 = [] := by
      cases h3 with
      | nil => rfl
      | free _ hrest => exact absurd hrest.le (Nat.not_succ_le_self _)
      | group hm _ hrest =>
        exact absurd hrest.le (Nat.not_le.mpr (Nat.lt_add_of_pos_right hm))
    exact ⟨gs1, gs4, by rw [hnil]; rfl, h1, h4⟩

/-- The cells that are not free are those of the groups. -/
theorem count [DecidablePred free] (h : Cut free group i j gs) :
    Nat.count (fun x => ¬ free x) j = Nat.count (fun x => ¬ free x) i + (gs.map Prod.snd).sum := by
  induction h with
  | nil => simp
  | @free i j gs hx _ ih => rw [ih, Nat.count_succ_eq_count (not_not.mpr hx)]
  | @group i j n gs hn hgrp hrest ih =>
    have hall : Nat.count (fun x => ¬ free (i + x)) n = n :=
      Nat.count_iff_forall.mpr fun x hx =>
        hnot i n _ hgrp (Nat.le_add_right i x) (Nat.add_lt_add_left hx i)
    rw [ih, Nat.count_add, hall, List.map_cons, List.sum_cons, Nat.add_assoc]

end

end Cut

end SoKernel
