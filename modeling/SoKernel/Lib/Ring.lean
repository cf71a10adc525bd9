import Mathlib.Data.Nat.ModEq
import Mathlib.Logic.Function.Basic

/-!
# Ring buffers

A queue of at most `N` elements in a buffer that is read at one index and written at
another.

Results:
1. `Ring.put`, `Ring.take`: the two operations keep the indices in step.
2. `ringContents_put`, `ringContents_take`: they are those of a queue.
-/

namespace SoKernel

universe u

/-- The elements in the buffer, the oldest one first. -/
def ringContents {α : Type u} (N : Nat) (buffer : Nat → α) (readIdx count : Nat) : List α :=
  (List.range count).map fun j => buffer ((readIdx + j) % N)

/-- The indices of a buffer that holds `count` elements. -/
structure Ring (N readIdx writeIdx count : Nat) : Prop where
  readIdx_lt : readIdx < N
  count_le : count ≤ N
  writeIdx : writeIdx = (readIdx + count) % N

section

variable {α : Type u} {N r w n : Nat} {buffer : Nat → α}

theorem Ring.empty (hN : 0 < N) : Ring N 0 0 0 :=
  ⟨hN, Nat.zero_le N, (Nat.mod_eq_of_lt hN).symm⟩

theorem Ring.put (R : Ring N r w n) (hn : n < N) : Ring N r ((w + 1) % N) (n + 1) := by
  refine ⟨R.readIdx_lt, hn, ?_⟩
  rw [R.writeIdx, Nat.mod_add_mod, Nat.add_assoc]

theorem Ring.take (R : Ring N r w (n + 1)) : Ring N ((r + 1) % N) w n := by
  refine ⟨Nat.mod_lt _ (Nat.zero_lt_of_lt R.readIdx_lt), Nat.le_of_succ_le R.count_le, ?_⟩
  rw [R.writeIdx, Nat.mod_add_mod, Nat.add_assoc, Nat.add_comm 1 n]

@[simp] theorem ringContents_zero : ringContents N buffer r 0 = [] := rfl

@[simp] theorem length_ringContents : (ringContents N buffer r n).length = n := by
  simp [ringContents]

/-- The oldest element is the one read next. -/
theorem ringContents_take (hr : r < N) :
    ringContents N buffer r (n + 1) = buffer r :: ringContents N buffer ((r + 1) % N) n := by
  unfold ringContents
  rw [List.range_succ_eq_map, List.map_cons, List.map_map, Nat.add_zero, Nat.mod_eq_of_lt hr]
  congr 1
  refine List.map_congr_left fun j _ => ?_
  show buffer ((r + (j + 1)) % N) = buffer (((r + 1) % N + j) % N)
  rw [Nat.mod_add_mod, Nat.add_assoc, Nat.add_comm 1 j]

/-- Nothing in the buffer lies where the next element goes. -/
theorem Ring.writeIdx_ne (R : Ring N r w n) (hn : n < N) {j : Nat} (hj : j < n) :
    (r + j) % N ≠ w := by
  rw [R.writeIdx]
  intro h
  have hmod : j ≡ n [MOD N] := Nat.ModEq.add_left_cancel' r h
  exact absurd (Nat.ModEq.eq_of_lt_of_lt hmod (hj.trans hn) hn) (Nat.ne_of_lt hj)

/-- An element that is put becomes the youngest one. -/
theorem ringContents_put (R : Ring N r w n) (hn : n < N) (b : α) :
    ringContents N (Function.update buffer w b) r (n + 1) = ringContents N buffer r n ++ [b] := by
  unfold ringContents
  rw [List.range_succ, List.map_append, List.map_singleton, ← R.writeIdx, Function.update_self]
  congr 1
  refine List.map_congr_left fun j hj => ?_
  exact Function.update_of_ne (R.writeIdx_ne hn (List.mem_range.mp hj)) _ _

end

end SoKernel
