import Mathlib.Algebra.Group.Nat.Defs
import Mathlib.Data.List.Nodup
import Mathlib.Data.List.Perm.Subperm

/-!
# Counting semaphores with a queue

The histories of a counting semaphore that hands its tokens to the processes waiting
for it in the order in which they came. The counter is a machine word: it wraps at
`N`.

Results:
1. `Handoff.balance`: the tokens are kept, handed out, or lost when the counter wraps.
2. `Handoff.fifo`, `Handoff.noOvertake`: first come, first served.
3. `Handoff.exclusion`: at most `v` processes are between a token and their post, if nobody
   posts more often than it has come so far.
-/

namespace SoKernel

universe u

/-- What can happen at a semaphore. -/
inductive Act (α : Type u)
  | took (p : α)
  | queued (p : α)
  | released (p poster : α)
  | incremented (poster : α)

namespace Act

variable {α : Type u}

/-- Who gets a token. -/
def grantee : Act α → Option α
  | .took p | .released p _ => some p
  | _ => none

/-- Who gives one. -/
def poster : Act α → Option α
  | .released _ q | .incremented q => some q
  | _ => none

/-- Who asks for one. -/
def starter : Act α → Option α
  | .took p | .queued p => some p
  | _ => none

def arrival : Act α → Option α
  | .queued p => some p
  | _ => none

def departure : Act α → Option α
  | .released p _ => some p
  | _ => none

end Act

section

variable {α : Type u}

/-- A history is a list of acts, the last one first. -/
def grants (h : List (Act α)) : List α := h.filterMap Act.grantee

def posts (h : List (Act α)) : List α := h.filterMap Act.poster

def waits (h : List (Act α)) : List α := h.filterMap Act.starter

/-- Who has entered the queue, the first one first. -/
def arrivals (h : List (Act α)) : List α := (h.filterMap Act.arrival).reverse

/-- Who has left it, the first one first. -/
def departures (h : List (Act α)) : List α := (h.filterMap Act.departure).reverse

/-- The histories of a semaphore opened with `v`, with its value and its queue. -/
inductive Handoff (N v : Nat) : List (Act α) → Nat → List α → Prop
  | opened : Handoff N v [] v []
  | took {h : List (Act α)} {n : Nat} {w : List α} {p : α} :
      Handoff N v h (n + 1) w → Handoff N v (.took p :: h) n w
  | queued {h : List (Act α)} {w : List α} {p : α} :
      Handoff N v h 0 w → Handoff N v (.queued p :: h) 0 (w ++ [p])
  | released {h : List (Act α)} {n : Nat} {w : List α} {p q : α} :
      Handoff N v h n (p :: w) → Handoff N v (.released p q :: h) n w
  | incremented {h : List (Act α)} {n : Nat} {q : α} :
      Handoff N v h n [] → Handoff N v (.incremented q :: h) ((n + 1) % N) []

namespace Handoff

variable {N v n : Nat} {h later earlier : List (Act α)} {w : List α} {p q : α}

/-- Nobody waits while there are tokens. -/
theorem idle (H : Handoff N v h n w) : n = 0 ∨ w = [] := by
  induction H with
  | opened => exact .inr rfl
  | took _ ih => exact .inr (ih.resolve_left (Nat.succ_ne_zero _))
  | queued => exact .inl rfl
  | released _ ih => exact .inl (ih.resolve_right (List.cons_ne_nil _ _))
  | incremented => exact .inr rfl

/-- Where the tokens are. -/
theorem balance (H : Handoff N v h n w) :
    ∃ lost, v + (posts h).length = n + (grants h).length + N * lost := by
  induction H with
  | opened => exact ⟨0, rfl⟩
  | took _ ih =>
    obtain ⟨lost, ih⟩ := ih
    refine ⟨lost, ?_⟩
    simp only [posts, grants, List.filterMap_cons, Act.poster, Act.grantee, List.length_cons] at ih ⊢
    omega
  | queued _ ih => exact ih
  | released _ ih =>
    obtain ⟨lost, ih⟩ := ih
    refine ⟨lost, ?_⟩
    simp only [posts, grants, List.filterMap_cons, Act.poster, Act.grantee, List.length_cons] at ih ⊢
    omega
  | @incremented _ n _ _ ih =>
    obtain ⟨lost, ih⟩ := ih
    refine ⟨lost + (n + 1) / N, ?_⟩
    have hwrap := Nat.div_add_mod (n + 1) N
    simp only [posts, grants, List.filterMap_cons, Act.poster, Act.grantee, List.length_cons,
      Nat.mul_add] at ih ⊢
    omega

/-- No token is handed out twice. -/
theorem grants_le (H : Handoff N v h n w) : n + (grants h).length ≤ v + (posts h).length := by
  obtain ⟨lost, hb⟩ := H.balance
  exact hb ▸ Nat.le_add_right _ _

/-- Before the counter wraps no token is lost. -/
theorem exact (H : Handoff N v h n w) (hlt : v + (posts h).length < N + (n + (grants h).length)) :
    v + (posts h).length = n + (grants h).length := by
  obtain ⟨lost, hb⟩ := H.balance
  cases lost with
  | zero => exact hb
  | succ lost =>
    have hle : N ≤ N * (lost + 1) := Nat.le_mul_of_pos_right N (Nat.succ_pos lost)
    omega

/-- Who has asked for a token has got one or waits. -/
theorem waits_length (H : Handoff N v h n w) :
    (waits h).length = (grants h).length + w.length := by
  induction H with
  | opened => rfl
  | took _ ih =>
    simp only [waits, grants, List.filterMap_cons, Act.starter, Act.grantee, List.length_cons] at ih ⊢
    omega
  | queued _ ih =>
    simp only [waits, grants, List.filterMap_cons, Act.starter, Act.grantee, List.length_cons,
      List.length_append, List.length_nil] at ih ⊢
    omega
  | released _ ih =>
    simp only [waits, grants, List.filterMap_cons, Act.starter, Act.grantee, List.length_cons] at ih ⊢
    omega
  | incremented _ ih => exact ih

/-- The processes leave the queue in the order in which they came. -/
theorem fifo (H : Handoff N v h n w) : arrivals h = departures h ++ w := by
  induction H with
  | opened => rfl
  | took _ ih => exact ih
  | @queued h w p _ ih =>
    calc arrivals (.queued p :: h) = arrivals h ++ [p] := by simp [arrivals, Act.arrival]
      _ = departures h ++ w ++ [p] := by rw [ih]
      _ = departures h ++ (w ++ [p]) := List.append_assoc _ _ _
  | @released h _ w p q _ ih =>
    calc arrivals (.released p q :: h) = arrivals h := rfl
      _ = departures h ++ p :: w := ih
      _ = departures h ++ [p] ++ w := by simp
      _ = departures (.released p q :: h) ++ w := by simp [departures, Act.departure]
  | incremented _ ih => exact ih

/-- The earlier part of a history is a history. -/
theorem suffix (H : Handoff N v (later ++ earlier) n w) : ∃ n' w', Handoff N v earlier n' w' := by
  induction later generalizing n w with
  | nil => exact ⟨n, w, H⟩
  | cons a later ih =>
    cases H with
    | took H => exact ih H
    | queued H => exact ih H
    | released H => exact ih H
    | incremented H => exact ih H

/-- Who finds a token finds nobody waiting. -/
theorem noOvertake (H : Handoff N v (later ++ .took p :: earlier) n w) :
    arrivals earlier = departures earlier := by
  obtain ⟨n', w', H'⟩ := H.suffix
  cases H' with
  | took H0 =>
    rw [H0.fifo, H0.idle.resolve_left (Nat.succ_ne_zero _), List.append_nil]

variable [DecidableEq α]

/-- A process has come as often as it has left, and once more if it waits. -/
theorem count_arrivals (H : Handoff N v h n w) (p : α) :
    (h.filterMap Act.arrival).count p = (h.filterMap Act.departure).count p + w.count p := by
  have hcount := congrArg (List.count p) H.fifo
  rwa [List.count_append, arrivals, departures, List.count_reverse, List.count_reverse] at hcount

/-- A list with more of each of some elements is that much longer. -/
theorem length_add_le {l d g : List α} (hl : l.Nodup) (hle : ∀ a, d.count a ≤ g.count a)
    (hlt : ∀ a ∈ l, d.count a < g.count a) : l.length + d.length ≤ g.length := by
  have hsub : (l ++ d).Subperm g := by
    refine List.subperm_ext_iff.mpr fun a _ => ?_
    rw [List.count_append]
    by_cases ha : a ∈ l
    · rw [List.count_eq_one_of_mem hl ha, Nat.add_comm]
      exact hlt a ha
    · rw [List.count_eq_zero_of_not_mem ha, Nat.zero_add]
      exact hle a
  exact List.length_append ▸ hsub.length_le

/-- At most `v` processes have come further than they have given back, where no more come
that far than have been granted a token. -/
theorem exclusion {l done : List α} (H : Handoff N v h n w)
    (hdone : done.length ≤ (grants h).length) (hle : ∀ a, (posts h).count a ≤ done.count a)
    (hl : l.Nodup) (hlt : ∀ a ∈ l, (posts h).count a < done.count a) : l.length ≤ v := by
  have hlen := length_add_le hl hle hlt
  have hgrants := H.grants_le
  omega

end Handoff

end

end SoKernel
