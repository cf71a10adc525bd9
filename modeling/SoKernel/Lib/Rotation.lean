import Mathlib.Data.List.Nodup

/-!
# Round robin

A queue whose front is served and goes to the end. Between two services others may
arrive, at the end, and leave, from anywhere.

Results:
1. `Served.sublist`: while `p` waits, those served are some of those that were before it,
   each of them once.
2. `Served.length_le`: so `p` at position `k` waits for `k` services at most.
3. `Ticked.share`: over a rotation of such a queue everybody gets the ticks of one turn.
-/

namespace SoKernel

universe u

section Before

variable {α : Type u} [DecidableEq α] {p x : α} {l l' : List α}

/-- What stands before `p`. -/
def before (p : α) (l : List α) : List α := l.takeWhile fun x => decide (x ≠ p)

@[simp] theorem before_nil : before p [] = [] := rfl

@[simp] theorem before_self : before p (p :: l) = [] := by
  simp [before]

theorem before_cons (h : x ≠ p) : before p (x :: l) = x :: before p l := by
  simp [before, h]

/-- Whoever arrives stands behind. -/
theorem before_append (h : p ∈ l) : before p (l ++ l') = before p l := by
  induction l with
  | nil => cases h
  | cons y l ih =>
    rcases eq_or_ne y p with rfl | hy
    · simp
    · rw [List.cons_append, before_cons hy, before_cons hy, ih (List.mem_of_ne_of_mem hy.symm h)]

/-- Whoever leaves changes nobody's order. -/
theorem before_erase (h : x ≠ p) : (before p (l.erase x)).Sublist (before p l) := by
  induction l with
  | nil => simp
  | cons y l ih =>
    rcases eq_or_ne y x with rfl | hy
    · rw [List.erase_cons_head, before_cons h]
      exact List.sublist_cons_self y _
    · rw [List.erase_cons_tail (by simpa using hy)]
      rcases eq_or_ne y p with rfl | hyp
      · simp
      · rw [before_cons hyp, before_cons hyp]
        exact ih.cons_cons y

theorem before_sublist : (before p l).Sublist l := List.takeWhile_sublist _

theorem length_before : (before p l).length = l.idxOf p := by
  induction l with
  | nil => rfl
  | cons y l ih =>
    rcases eq_or_ne y p with rfl | hy
    · simp
    · rw [before_cons hy, List.length_cons, ih, List.idxOf_cons_ne l hy]

end Before

/-- The queue `l` becomes the second one while the first ones are served, and `p` does
not leave it. -/
inductive Served {α : Type u} [DecidableEq α] (p : α) (l : List α) : List α → List α → Prop
  | refl : Served p l [] l
  | arrive {ds l1 : List α} (x : α) : Served p l ds l1 → Served p l ds (l1 ++ [x])
  | leave {ds l1 : List α} {x : α} : x ≠ p → Served p l ds l1 → Served p l ds (l1.erase x)
  | serve {ds rest : List α} {x : α} : Served p l ds (x :: rest) →
      Served p l (ds ++ [x]) (rest ++ [x])

namespace Served

variable {α : Type u} [DecidableEq α] {p : α} {l l' l1 ds ds' : List α}

theorem trans (h : Served p l ds l1) (h' : Served p l1 ds' l') : Served p l (ds ++ ds') l' := by
  induction h' with
  | refl => simpa using h
  | arrive x _ ih => exact .arrive x ih
  | leave hx _ ih => exact .leave hx ih
  | serve _ ih =>
    rw [← List.append_assoc]
    exact .serve ih

theorem mem (h : Served p l ds l') (hp : p ∈ l) : p ∈ l' := by
  induction h with
  | refl => exact hp
  | arrive x _ ih => exact List.mem_append_left _ ih
  | leave hx _ ih => exact (List.mem_erase_of_ne hx.symm).mpr ih
  | serve _ ih => exact List.perm_append_singleton _ _ |>.mem_iff.mpr ih

/-- As long as `p` is not served, the others before it are, and those behind it are not. -/
theorem sublist (h : Served p l ds l') (hp : p ∈ l) (hd : p ∉ ds) :
    (ds ++ before p l').Sublist (before p l) := by
  induction h with
  | refl => exact List.Sublist.refl _
  | arrive x h ih =>
    rw [before_append (h.mem hp)]
    exact ih hd
  | leave hx _ ih => exact ((before_erase hx).append_left _).trans (ih hd)
  | @serve ds rest x h ih =>
    have hx : x ≠ p := by
      rintro rfl
      exact hd (by simp)
    -- the front of the queue was the first one before `p`
    have hsub := ih fun hp => hd (List.mem_append_left _ hp)
    have hrest : p ∈ rest := List.mem_of_ne_of_mem hx.symm (h.mem hp)
    rw [before_cons hx] at hsub
    rw [before_append hrest, List.append_assoc]
    exact hsub

theorem length_le (h : Served p l ds l') (hp : p ∈ l) (hd : p ∉ ds) : ds.length ≤ l.idxOf p := by
  rw [← length_before]
  exact ((List.sublist_append_left ds _).trans (h.sublist hp hd)).length_le

theorem nodup (h : Served p l ds l') (hp : p ∈ l) (hd : p ∉ ds) (hl : l.Nodup) : ds.Nodup :=
  hl.sublist (((List.sublist_append_left ds _).trans (h.sublist hp hd)).trans before_sublist)

end Served

/-! ## Rota of some ticks -/

/-- A queue, who has the turn, and the ticks left of the turn. -/
structure Rota (α : Type u) where
  queue : List α
  running : α
  left : Nat

section Ticks

variable {α : Type u} {turn : α → Nat} {s t : Rota α} {cs ds : List α} {p : α}

/-- Some ticks: each is charged to who has the turn, and one that finds none left gives the
turn to the front of the queue. A turn of `p` begins with `turn p` ticks. -/
inductive Ticked (turn : α → Nat) (s : Rota α) : List α → List α → Rota α → Prop
  | refl : Ticked turn s [] [] s
  | count {cs ds l : List α} {r : α} {n : Nat} : Ticked turn s cs ds ⟨l, r, n + 1⟩ →
      Ticked turn s (cs ++ [r]) ds ⟨l, r, n⟩
  | next {cs ds l : List α} {r x : α} : Ticked turn s cs ds ⟨x :: l, r, 0⟩ →
      Ticked turn s (cs ++ [r]) (ds ++ [x]) ⟨l ++ [x], x, turn x⟩

variable [DecidableEq α]

/-- The ticks that will be charged to `p` before the turn goes on. -/
def Rota.due (s : Rota α) (p : α) : Nat := if s.running = p then s.left + 1 else 0

/-- What is charged and what is due comes from the turns given. -/
theorem Ticked.balance (h : Ticked turn s cs ds t) :
    cs.count p + t.due p = s.due p + (turn p + 1) * ds.count p := by
  induction h with
  | refl => simp
  | @count cs ds l r n _ ih =>
    rw [← ih]
    rcases eq_or_ne r p with rfl | hr
    · simp [Rota.due]
      omega
    · simp [Rota.due, hr]
  | @next cs ds l r x _ ih =>
    rw [List.count_append, List.count_append, Nat.mul_add, ← Nat.add_assoc, ← ih]
    have hx : (⟨l ++ [x], x, turn x⟩ : Rota α).due p = (turn p + 1) * [x].count p := by
      rcases eq_or_ne x p with rfl | hxp
      · simp [Rota.due]
      · simp [Rota.due, hxp]
    have hr : [r].count p = (⟨x :: l, r, 0⟩ : Rota α).due p := by
      rcases eq_or_ne r p with rfl | hrp
      · simp [Rota.due]
      · simp [Rota.due, hrp]
    rw [hx, hr]

/-- When the turn is back at the same tick, each turn given has been charged in full. -/
theorem Ticked.share (h : Ticked turn s cs ds t) (hrunning : t.running = s.running)
    (hleft : t.left = s.left) : cs.count p = (turn p + 1) * ds.count p := by
  have hdue : t.due p = s.due p := by rw [Rota.due, hrunning, hleft, Rota.due]
  have hbalance := h.balance (p := p)
  rw [hdue, Nat.add_comm] at hbalance
  exact Nat.add_left_cancel hbalance

end Ticks

end SoKernel
