import Mathlib.Algebra.BigOperators.Group.Finset.Basic
import Mathlib.Algebra.BigOperators.Group.Finset.Piecewise

/-!
# A shared counter

Several processes add to one value, each in three steps: read it, add, write the sum back.

Results:
1. `Counter.Step.exact`: while no two of them are between the read and the write, what a process
   has read is the value.
2. `Counter.Step.owed`: then the value and what is still to be added have a constant sum.
-/

namespace SoKernel

universe u v

/-- Where a process is in its addition. -/
inductive Adding (α : Type v)
  | outside
  | read (a : α)
  | sum (a : α)
deriving DecidableEq

/-- The value, where the processes are, and how many additions each of them has still to make. -/
structure Counter (ι : Type u) (α : Type v) where
  value : α
  phase : ι → Adding α
  todo : ι → Nat

namespace Counter

variable {ι : Type u} {α : Type v} [DecidableEq ι] [AddCommMonoid α] {inc : ι → α}
  {c c' : Counter ι α} {p q : ι} {W : Finset ι}

/-- A step of the process `p`. -/
inductive Step (inc : ι → α) (p : ι) (c : Counter ι α) : Counter ι α → Prop
  | load : c.phase p = .outside →
      Step inc p c { c with phase := Function.update c.phase p (.read c.value) }
  | add {a : α} : c.phase p = .read a →
      Step inc p c { c with phase := Function.update c.phase p (.sum (a + inc p)) }
  | store {a : α} {n : Nat} : c.phase p = .sum a → c.todo p = n + 1 →
      Step inc p c ⟨a, Function.update c.phase p .outside, Function.update c.todo p n⟩

/-- No two processes are between the read and the write. -/
def Exclusive (c : Counter ι α) : Prop :=
  ∀ p q, c.phase p ≠ .outside → c.phase q ≠ .outside → p = q

/-- What has been read is still there. -/
structure Exact (inc : ι → α) (c : Counter ι α) : Prop where
  read : ∀ p a, c.phase p = .read a → a = c.value
  sum : ∀ p a, c.phase p = .sum a → a = c.value + inc p

/-- The value when everybody is done. -/
def owed (inc : ι → α) (W : Finset ι) (c : Counter ι α) : α :=
  c.value + ∑ p ∈ W, c.todo p • inc p

theorem Step.exact (h : Step inc p c c') (hc : c.Exclusive) (he : c.Exact inc) : c'.Exact inc := by
  cases h with
  | load hp =>
    refine ⟨fun q a hq => ?_, fun q a hq => ?_⟩
    · rcases eq_or_ne q p with rfl | hne
      · have hread : Adding.read c.value = .read a := by simpa using hq
        exact (Adding.read.inj hread).symm
      · exact he.read q a (by simpa [hne] using hq)
    · rcases eq_or_ne q p with rfl | hne
      · simp at hq
      · exact he.sum q a (by simpa [hne] using hq)
  | @add a hp =>
    refine ⟨fun q b hq => ?_, fun q b hq => ?_⟩
    · rcases eq_or_ne q p with rfl | hne
      · simp at hq
      · exact he.read q b (by simpa [hne] using hq)
    · rcases eq_or_ne q p with rfl | hne
      · have hsum : Adding.sum (a + inc q) = .sum b := by simpa using hq
        rw [← Adding.sum.inj hsum, he.read q a hp]
      · exact he.sum q b (by simpa [hne] using hq)
  | @store a n hp hn =>
    -- nobody else has read anything
    have hout : ∀ q b, Function.update c.phase p Adding.outside q = b → b = .outside := by
      rintro q b rfl
      rcases eq_or_ne q p with rfl | hne
      · exact Function.update_self ..
      · by_contra hq
        rw [Function.update_of_ne hne] at hq
        exact hne (hc q p hq (by simp [hp]))
    refine ⟨fun q b hq => ?_, fun q b hq => ?_⟩
    · cases hout q _ hq
    · cases hout q _ hq

/-- Writing pays what it adds. -/
theorem Step.owed (h : Step inc p c c') (hp : p ∈ W) (he : c.Exact inc) :
    c'.owed inc W = c.owed inc W := by
  cases h with
  | load => rfl
  | add => rfl
  | @store a n hsum hn =>
    have hrest : ∑ q ∈ W.erase p, Function.update c.todo p n q • inc q =
        ∑ q ∈ W.erase p, c.todo q • inc q :=
      Finset.sum_congr rfl fun q hq => by rw [Function.update_of_ne (Finset.ne_of_mem_erase hq)]
    have hnow := Finset.add_sum_erase W (fun q => Function.update c.todo p n q • inc q) hp
    rw [Function.update_self, hrest] at hnow
    calc a + ∑ q ∈ W, Function.update c.todo p n q • inc q
        = (c.value + inc p) + (n • inc p + ∑ q ∈ W.erase p, c.todo q • inc q) := by
          rw [he.sum p a hsum, hnow]
      _ = c.value + (c.todo p • inc p + ∑ q ∈ W.erase p, c.todo q • inc q) := by
          rw [hn, succ_nsmul', add_assoc, add_assoc]
      _ = c.value + ∑ q ∈ W, c.todo q • inc q := by
          rw [Finset.add_sum_erase W (fun q => c.todo q • inc q) hp]

omit [DecidableEq ι] in
/-- Nothing is left to add. -/
theorem owed_done (h : ∀ p ∈ W, c.todo p = 0) : c.owed inc W = c.value := by
  rw [Counter.owed, Finset.sum_eq_zero fun p hp => by rw [h p hp, zero_nsmul], add_zero]

end Counter

end SoKernel
