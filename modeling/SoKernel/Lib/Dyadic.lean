import Mathlib.Algebra.BigOperators.Group.Finset.Piecewise
import Mathlib.Algebra.BigOperators.Ring.Finset
import Mathlib.Data.Finset.Max
import Mathlib.Data.Multiset.Count
import Mathlib.Data.Nat.Bitwise
import Mathlib.Order.Interval.Finset.Nat
import Mathlib.Tactic.Ring

/-!
# Dyadic blocks and tilings

A dyadic block is an interval `[off, off + 2 ^ ord)` whose offset is a multiple
of its size. A multiset of blocks tiles `[0, 2 ^ M)` when every address is
covered by exactly one block. This module has the facts a buddy allocator rests
on; it names no allocator.

Results:
1. `Tiling.split`, `Tiling.merge`: halving a block and joining two buddies keep
   a tiling.
2. `Tiling.buddy_start`: at the address of a block's buddy some block of the
   tiling starts, and it is not larger.
3. `Tiling.size_sum`: the sizes add up to `2 ^ M`.
4. `Tiling.eq_root`: a tiling in which no two buddies occur is the root block.
-/

namespace SoKernel.DyadicBlocks

/-! ## Blocks -/

/-- The block `[off, off + 2 ^ ord)`. -/
structure Blk where
  off : Nat
  ord : Nat
deriving DecidableEq, Repr

namespace Blk

/-- The number of addresses of a block. -/
def size (b : Blk) : Nat := 2 ^ b.ord

/-- The address `x` lies in the block. -/
def Covers (b : Blk) (x : Nat) : Prop := b.off ≤ x ∧ x < b.off + 2 ^ b.ord

instance (b : Blk) (x : Nat) : Decidable (b.Covers x) :=
  inferInstanceAs (Decidable (_ ∧ _))

/-- The offset is a multiple of the size. -/
def Aligned (b : Blk) : Prop := 2 ^ b.ord ∣ b.off

/-- The lower half. -/
def left (b : Blk) : Blk := ⟨b.off, b.ord - 1⟩

/-- The upper half. -/
def right (b : Blk) : Blk := ⟨b.off + 2 ^ (b.ord - 1), b.ord - 1⟩

/-- The other half of the block of the next order that contains `b`. -/
def buddy (b : Blk) : Blk := ⟨b.off ^^^ 2 ^ b.ord, b.ord⟩

/-- The block of the next order that contains `b`. -/
def parent (b : Blk) : Blk := ⟨min b.off b.buddy.off, b.ord + 1⟩

end Blk

open Blk

theorem covers_off (b : Blk) : b.Covers b.off :=
  ⟨Nat.le_refl _, Nat.lt_add_of_pos_right (Nat.two_pow_pos _)⟩

theorem two_pow_pred {k : Nat} (hk : 0 < k) : 2 ^ k = 2 ^ (k - 1) + 2 ^ (k - 1) := by
  obtain ⟨j, rfl⟩ := Nat.exists_eq_add_of_lt hk
  simp only [Nat.zero_add, Nat.add_sub_cancel, Nat.pow_succ]
  omega

theorem mul_xor_two_pow (m k : Nat) : 2 ^ k * m ^^^ 2 ^ k = 2 ^ k * (m ^^^ 1) := by
  have h := Nat.shiftLeft_xor_distrib (a := m) (b := 1) (i := k)
  simp only [Nat.shiftLeft_eq, Nat.one_mul] at h
  rw [Nat.mul_comm, Nat.mul_comm _ (m ^^^ 1), h]

/-- The buddy of an aligned block is its upper or its lower neighbour. -/
theorem buddy_cases {b : Blk} (ha : b.Aligned) :
    (b.buddy.off = b.off + 2 ^ b.ord ∧ 2 ^ (b.ord + 1) ∣ b.off) ∨
    (b.off = b.buddy.off + 2 ^ b.ord ∧ 2 ^ (b.ord + 1) ∣ b.buddy.off) := by
  obtain ⟨m, hm⟩ := ha
  have hb : b.buddy.off = 2 ^ b.ord * (m ^^^ 1) := by
    rw [← mul_xor_two_pow, ← hm, buddy]
  rcases Nat.even_or_odd m with he | ho
  · left
    rw [Nat.xor_one_of_even he] at hb
    obtain ⟨j, hj⟩ := he
    refine ⟨by rw [hb, hm, Nat.mul_succ], j, ?_⟩
    rw [hm, hj, Nat.pow_succ]
    ring
  · right
    rw [Nat.xor_one_of_odd ho] at hb
    obtain ⟨j, hj⟩ := ho
    have hm1 : m - 1 = 2 * j := by omega
    rw [hm1] at hb
    refine ⟨by rw [hb, hm, hj, Nat.mul_add, Nat.mul_one], j, ?_⟩
    rw [hb, Nat.pow_succ, Nat.mul_assoc]

theorem buddy_aligned {b : Blk} (ha : b.Aligned) : b.buddy.Aligned := by
  rcases buddy_cases ha with ⟨h, _⟩ | ⟨_, h⟩
  · show 2 ^ b.ord ∣ b.buddy.off
    rw [h]
    exact Nat.dvd_add ha (Nat.dvd_refl _)
  · exact Nat.dvd_trans (Nat.pow_dvd_pow 2 (Nat.le_succ _)) h

theorem buddy_buddy {b : Blk} : b.buddy.buddy = b := by
  obtain ⟨o, k⟩ := b
  simp [buddy]

theorem buddy_ne (b : Blk) : b.buddy ≠ b := by
  intro h
  have h0 : b.off ^^^ 2 ^ b.ord = b.off := congrArg Blk.off h
  have h1 := congrArg (b.off ^^^ ·) h0
  simp at h1

theorem buddy_off_ne (b : Blk) : b.buddy.off ≠ b.off := by
  intro h
  apply buddy_ne b
  obtain ⟨o, k⟩ := b
  simp only [buddy, Blk.mk.injEq, and_true] at h ⊢
  exact h

/-- The halves of an aligned block are buddies. -/
theorem left_buddy {b : Blk} (ha : b.Aligned) (hk : 0 < b.ord) : b.left.buddy = b.right := by
  have hdvd : b.left.Aligned := Nat.dvd_trans (Nat.pow_dvd_pow 2 (Nat.sub_le _ _)) ha
  have hord : b.left.ord + 1 = b.ord := Nat.sub_add_cancel hk
  rcases buddy_cases hdvd with ⟨h, _⟩ | ⟨h, hd⟩
  · have hoff : b.left.buddy.off = b.right.off := h
    rw [show b.left.buddy = ⟨b.left.buddy.off, b.ord - 1⟩ from rfl, hoff]
    rfl
  · exfalso
    rw [hord] at hd
    have hsub : 2 ^ b.ord ∣ 2 ^ (b.ord - 1) := (Nat.dvd_add_right hd).mp (h ▸ ha)
    have hle := Nat.le_of_dvd (Nat.two_pow_pos _) hsub
    have hp := two_pow_pred hk
    have hpos := Nat.two_pow_pos (b.ord - 1)
    omega

/-- A block below order `M` and its buddy lie in the same `2 ^ M` bytes. -/
theorem buddy_inside {b : Blk} {M : Nat} (ha : b.Aligned) (hM : b.off + 2 ^ b.ord ≤ 2 ^ M)
    (hk : b.ord < M) : b.buddy.off + 2 ^ b.ord ≤ 2 ^ M := by
  rcases buddy_cases ha with ⟨h, j, hj⟩ | ⟨h, _⟩
  · obtain ⟨d, hd⟩ := Nat.exists_eq_add_of_le (Nat.succ_le_of_lt hk)
    have hpow : 2 ^ M = 2 ^ (b.ord + 1) * 2 ^ d := by rw [hd, ← Nat.pow_add]
    have hlt : 2 ^ (b.ord + 1) * j < 2 ^ (b.ord + 1) * 2 ^ d := by
      rw [← hj, ← hpow]
      exact Nat.lt_of_lt_of_le (Nat.lt_add_of_pos_right (Nat.two_pow_pos _)) hM
    have hj1 : j + 1 ≤ 2 ^ d := Nat.lt_of_mul_lt_mul_left hlt
    calc b.buddy.off + 2 ^ b.ord = 2 ^ (b.ord + 1) * (j + 1) := by
          rw [h, hj, Nat.pow_succ]; ring
      _ ≤ 2 ^ (b.ord + 1) * 2 ^ d := Nat.mul_le_mul_left _ hj1
      _ = 2 ^ M := hpow.symm
  · omega

theorem parent_covers {b : Blk} (ha : b.Aligned) (x : Nat) :
    (if b.parent.Covers x then 1 else 0) =
      (if b.Covers x then 1 else 0) + (if b.buddy.Covers x then 1 else 0 : Nat) := by
  have hs : 2 ^ (b.ord + 1) = 2 ^ b.ord + 2 ^ b.ord := by rw [Nat.pow_succ]; omega
  have hord : b.buddy.ord = b.ord := rfl
  rcases buddy_cases ha with ⟨h, _⟩ | ⟨h, _⟩ <;>
    simp only [Covers, parent, hs, hord, h] <;> grind

theorem parent_covers_off {b : Blk} (ha : b.Aligned) : b.parent.Covers b.off := by
  have h := parent_covers ha b.off
  rw [if_pos (covers_off b)] at h
  by_contra hn
  rw [if_neg hn] at h
  omega

theorem parent_covers_buddy {b : Blk} (ha : b.Aligned) : b.parent.Covers b.buddy.off := by
  have h := parent_covers ha b.buddy.off
  rw [if_pos (covers_off b.buddy)] at h
  by_contra hn
  rw [if_neg hn] at h
  omega

theorem parent_aligned {b : Blk} (ha : b.Aligned) : b.parent.Aligned := by
  rcases buddy_cases ha with ⟨h, hd⟩ | ⟨h, hd⟩
  · simpa [Aligned, parent, h] using hd
  · have hmin : min b.off b.buddy.off = b.buddy.off := by omega
    simpa [Aligned, parent, hmin] using hd

/-- Dyadic blocks that meet are nested. -/
theorem covers_nested {b c : Blk} {x : Nat} (hb : b.Aligned) (hc : c.Aligned)
    (hxb : b.Covers x) (hxc : c.Covers x) (hle : c.ord ≤ b.ord) :
    b.off ≤ c.off ∧ c.off + 2 ^ c.ord ≤ b.off + 2 ^ b.ord := by
  obtain ⟨j, hj⟩ := hc
  obtain ⟨i, hi⟩ : 2 ^ c.ord ∣ b.off := Nat.dvd_trans (Nat.pow_dvd_pow 2 hle) hb
  obtain ⟨n, hn⟩ : 2 ^ c.ord ∣ 2 ^ b.ord := Nat.pow_dvd_pow 2 hle
  obtain ⟨hb1, hb2⟩ := hxb
  obtain ⟨hc1, hc2⟩ := hxc
  rw [hi, hn] at hb2
  rw [hi] at hb1
  rw [hj] at hc1 hc2
  have h1 : 2 ^ c.ord * i < 2 ^ c.ord * (j + 1) := by
    rw [Nat.mul_succ]; exact Nat.lt_of_le_of_lt hb1 hc2
  have h2 : 2 ^ c.ord * j < 2 ^ c.ord * (i + n) := by
    rw [Nat.mul_add]; exact Nat.lt_of_le_of_lt hc1 hb2
  have h3 : i ≤ j := Nat.lt_succ_iff.mp (Nat.lt_of_mul_lt_mul_left h1)
  have h4 : j + 1 ≤ i + n := Nat.lt_of_mul_lt_mul_left h2
  rw [hi, hj, hn]
  exact ⟨Nat.mul_le_mul_left _ h3, by
    rw [← Nat.mul_add, ← Nat.mul_succ]; exact Nat.mul_le_mul_left _ h4⟩

/-! ## Tilings -/

/-- `Tiling M B`: the blocks of `B` are aligned, lie in `[0, 2 ^ M)`, and every
address of that range is in exactly one of them. -/
structure Tiling (M : Nat) (B : Multiset Blk) : Prop where
  aligned : ∀ b ∈ B, b.Aligned
  inside : ∀ b ∈ B, b.off + 2 ^ b.ord ≤ 2 ^ M
  once : ∀ x < 2 ^ M, B.countP (·.Covers x) = 1

variable {M : Nat} {B : Multiset Blk} {b c : Blk}

/-- The root block alone is a tiling. -/
theorem Tiling.root (M : Nat) : Tiling M {⟨0, M⟩} where
  aligned := by simp [Aligned]
  inside := by simp
  once x hx := by
    rw [← Multiset.cons_zero, Multiset.countP_cons, Multiset.countP_zero, if_pos]
    exact ⟨Nat.zero_le _, by simpa using hx⟩

/-- Halving a block. -/
theorem Tiling.split (h : Tiling M (b ::ₘ B)) (hk : 0 < b.ord) :
    Tiling M (b.left ::ₘ b.right ::ₘ B) := by
  have hp := two_pow_pred hk
  have ha : b.Aligned := h.aligned b (Multiset.mem_cons_self b B)
  have hi := h.inside b (Multiset.mem_cons_self b B)
  have hdvd : 2 ^ (b.ord - 1) ∣ b.off :=
    Nat.dvd_trans (Nat.pow_dvd_pow 2 (Nat.sub_le _ _)) ha
  constructor
  · intro c hc
    simp only [Multiset.mem_cons] at hc
    rcases hc with rfl | rfl | hc
    · exact hdvd
    · exact Nat.dvd_add hdvd (Nat.dvd_refl _)
    · exact h.aligned c (Multiset.mem_cons_of_mem hc)
  · intro c hc
    simp only [Multiset.mem_cons] at hc
    rcases hc with rfl | rfl | hc
    · simp only [left]; omega
    · simp only [right]; omega
    · exact h.inside c (Multiset.mem_cons_of_mem hc)
  · intro x hx
    have hone := h.once x hx
    rw [Multiset.countP_cons] at hone
    rw [Multiset.countP_cons, Multiset.countP_cons]
    simp only [Covers, left, right, hp] at hone ⊢
    grind

/-- Joining two buddies. -/
theorem Tiling.merge (h : Tiling M (b ::ₘ b.buddy ::ₘ B)) : Tiling M (b.parent ::ₘ B) := by
  have ha : b.Aligned := h.aligned b (Multiset.mem_cons_self b _)
  have hi := h.inside b (Multiset.mem_cons_self b _)
  have hi' := h.inside b.buddy (by simp)
  have hs : 2 ^ (b.ord + 1) = 2 ^ b.ord + 2 ^ b.ord := by rw [Nat.pow_succ]; omega
  constructor
  · intro c hc
    simp only [Multiset.mem_cons] at hc
    rcases hc with rfl | hc
    · exact parent_aligned ha
    · exact h.aligned c (by simp [hc])
  · intro c hc
    simp only [Multiset.mem_cons] at hc
    rcases hc with rfl | hc
    · have hord : b.buddy.ord = b.ord := rfl
      rw [hord] at hi'
      rcases buddy_cases ha with ⟨hb, _⟩ | ⟨hb, _⟩ <;> simp only [parent, hs] <;> omega
    · exact h.inside c (by simp [hc])
  · intro x hx
    have hone := h.once x hx
    rw [Multiset.countP_cons, Multiset.countP_cons] at hone
    rw [Multiset.countP_cons, parent_covers ha]
    omega

/-- Two members of a tiling have no address in common. -/
theorem Tiling.disjoint (h : Tiling M (b ::ₘ c ::ₘ B)) :
    b.off + 2 ^ b.ord ≤ c.off ∨ c.off + 2 ^ c.ord ≤ b.off := by
  by_contra hcon
  have hi := h.inside b (Multiset.mem_cons_self b _)
  have hi' := h.inside c (by simp)
  have hpb := Nat.two_pow_pos b.ord
  have hpc := Nat.two_pow_pos c.ord
  have hone := h.once (max b.off c.off) (by omega)
  rw [Multiset.countP_cons, Multiset.countP_cons, if_pos, if_pos] at hone
  · omega
  · constructor <;> omega
  · constructor <;> omega

/-- Every address of the range lies in some block. -/
theorem Tiling.exists_cover (h : Tiling M B) {x : Nat} (hx : x < 2 ^ M) :
    ∃ b ∈ B, b.Covers x := by
  apply Multiset.countP_pos.mp
  rw [h.once x hx]
  exact Nat.one_pos

/-- A block that shares an address with the block `b` of a tiling is `b`. -/
theorem Tiling.eq_of_covers (h : Tiling M B) (hb : b ∈ B) (hc : c ∈ B) {x : Nat}
    (hxb : b.Covers x) (hxc : c.Covers x) : b = c := by
  obtain ⟨B', rfl⟩ := Multiset.exists_cons_of_mem hb
  rcases Multiset.mem_cons.mp hc with rfl | hc'
  · rfl
  · obtain ⟨B'', rfl⟩ := Multiset.exists_cons_of_mem hc'
    rcases h.disjoint with hd | hd <;> simp only [Covers] at hxb hxc <;> omega

/-- A block occurs once in a tiling. -/
theorem Tiling.not_mem_of_cons (h : Tiling M (b ::ₘ B)) : b ∉ B := by
  intro hb
  obtain ⟨B', rfl⟩ := Multiset.exists_cons_of_mem hb
  have hp := Nat.two_pow_pos b.ord
  rcases h.disjoint with hd | hd <;> omega

/-- At the address of the buddy of a block some block of the tiling starts, and
that block is not larger. A header read there is the header of a block. -/
theorem Tiling.buddy_start (h : Tiling M B) (hb : b ∈ B) (hk : b.ord < M) :
    ∃ c ∈ B, c.off = b.buddy.off ∧ c.ord ≤ b.ord := by
  have ha := h.aligned b hb
  have hin := buddy_inside ha (h.inside b hb) hk
  have hp := Nat.two_pow_pos b.ord
  obtain ⟨c, hc, hcov⟩ := h.exists_cover (x := b.buddy.off) (by omega)
  have hbc : b.buddy.Covers b.buddy.off := covers_off _
  refine ⟨c, hc, ?_⟩
  rcases Nat.lt_or_ge b.ord c.ord with hlt | hge
  · -- a larger block at that address would contain `b` as well
    exfalso
    have hpar := parent_covers_buddy ha
    obtain ⟨h1, h2⟩ := covers_nested (h.aligned c hc) (parent_aligned ha) hcov hpar hlt
    have hparb := parent_covers_off ha
    have hcb : c.Covers b.off :=
      ⟨Nat.le_trans h1 hparb.1, Nat.lt_of_lt_of_le hparb.2 h2⟩
    have heq := h.eq_of_covers hb hc (covers_off b) hcb
    rw [heq] at hlt
    exact Nat.lt_irrefl _ hlt
  · obtain ⟨h1, _⟩ := covers_nested (buddy_aligned ha) (h.aligned c hc) hbc hcov hge
    exact ⟨Nat.le_antisymm hcov.1 h1, hge⟩

theorem countP_covers_sum (N : Nat) (B : Multiset Blk) (hin : ∀ b ∈ B, b.off + 2 ^ b.ord ≤ N) :
    ∑ x ∈ Finset.range N, B.countP (·.Covers x) = (B.map Blk.size).sum := by
  induction B using Multiset.induction with
  | empty => simp
  | cons b B ih =>
    have hb := hin b (Multiset.mem_cons_self b B)
    have hfilter : (Finset.range N).filter (b.Covers ·) = Finset.Ico b.off (b.off + 2 ^ b.ord) := by
      ext x
      rw [Finset.mem_filter, Finset.mem_range, Finset.mem_Ico]
      exact ⟨And.right, fun hx => ⟨Nat.lt_of_lt_of_le hx.2 hb, hx⟩⟩
    simp only [Multiset.countP_cons, Finset.sum_add_distrib, Multiset.map_cons, Multiset.sum_cons]
    rw [ih fun c hc => hin c (Multiset.mem_cons_of_mem hc), ← Finset.card_filter, hfilter,
      Nat.card_Ico, Blk.size, Nat.add_sub_cancel_left, Nat.add_comm]

/-- The sizes of the blocks of a tiling add up to the size of the range. -/
theorem Tiling.size_sum (h : Tiling M B) : (B.map Blk.size).sum = 2 ^ M := by
  rw [← countP_covers_sum (2 ^ M) B h.inside]
  have hone : ∀ x ∈ Finset.range (2 ^ M), B.countP (·.Covers x) = 1 :=
    fun x hx => h.once x (Finset.mem_range.mp hx)
  rw [Finset.sum_congr rfl hone]
  simp

theorem Tiling.ord_le (h : Tiling M B) (hb : b ∈ B) : b.ord ≤ M := by
  have hi := h.inside b hb
  exact (Nat.pow_le_pow_iff_right Nat.one_lt_two).mp (by omega)

/-- A tiling with the root block has no other block. -/
theorem Tiling.eq_singleton_of_ord (h : Tiling M (b ::ₘ B)) (hk : b.ord = M) :
    b = ⟨0, M⟩ ∧ B = 0 := by
  have hi := h.inside b (Multiset.mem_cons_self b B)
  have hoff : b.off = 0 := by rw [hk] at hi; omega
  refine ⟨by cases b; simp_all, ?_⟩
  by_contra hB
  obtain ⟨c, hc⟩ := Multiset.exists_mem_of_ne_zero hB
  have hic := h.inside c (Multiset.mem_cons_of_mem hc)
  have hp := Nat.two_pow_pos c.ord
  have hbc : b = c := h.eq_of_covers (x := c.off) (Multiset.mem_cons_self b B)
    (Multiset.mem_cons_of_mem hc) ⟨by omega, by rw [hoff, hk]; omega⟩ (covers_off c)
  exact h.not_mem_of_cons (hbc ▸ hc)

/-- An aligned window in which no two buddies of a tiling start lies in one block. -/
theorem Tiling.covers_window (h : Tiling M B) {w : Blk} (hw : w.Aligned)
    (hin : w.off + 2 ^ w.ord ≤ 2 ^ M)
    (hbud : ∀ b ∈ B, b.ord < w.ord → w.Covers b.off → w.Covers b.buddy.off → b.buddy ∉ B) :
    ∃ b ∈ B, w.ord ≤ b.ord ∧ b.Covers w.off := by
  have hpos := Nat.two_pow_pos w.ord
  obtain ⟨b0, hb0, hcov⟩ := h.exists_cover (x := w.off) (by omega)
  by_contra hnone
  have hsmall : b0.ord < w.ord := Nat.lt_of_not_le fun hle => hnone ⟨b0, hb0, hle, hcov⟩
  have hstart : w.Covers b0.off := by
    obtain ⟨h1, h2⟩ := covers_nested hw (h.aligned b0 hb0) (covers_off w) hcov (Nat.le_of_lt hsmall)
    have hpos0 := Nat.two_pow_pos b0.ord
    exact ⟨h1, by omega⟩
  -- a block of the least order: at its buddy's address starts a block of that same order
  obtain ⟨b, hb, hmin⟩ : ∃ b ∈ {b ∈ B.toFinset | b.ord < w.ord ∧ w.Covers b.off},
      ∀ c ∈ {b ∈ B.toFinset | b.ord < w.ord ∧ w.Covers b.off}, b.ord ≤ c.ord :=
    Finset.exists_min_image _ Blk.ord
      ⟨b0, Finset.mem_filter.mpr ⟨Multiset.mem_toFinset.mpr hb0, hsmall, hstart⟩⟩
  obtain ⟨hbB, hlt, hbw⟩ := Finset.mem_filter.mp hb
  rw [Multiset.mem_toFinset] at hbB
  have ha := h.aligned b hbB
  have hbuddy : w.Covers b.buddy.off := by
    obtain ⟨h1, h2⟩ := covers_nested hw (parent_aligned ha) hbw (parent_covers_off ha) hlt
    obtain ⟨h3, h4⟩ := parent_covers_buddy ha
    exact ⟨Nat.le_trans h1 h3, Nat.lt_of_lt_of_le h4 h2⟩
  have hM : b.ord < M := by
    have hle : 2 ^ w.ord ≤ 2 ^ M := Nat.le_trans (Nat.le_add_left _ _) hin
    exact Nat.lt_of_lt_of_le hlt ((Nat.pow_le_pow_iff_right Nat.one_lt_two).mp hle)
  obtain ⟨c, hc, hoff, hle⟩ := h.buddy_start hbB hM
  have hcb : c = b.buddy := by
    have hord : c.ord = b.ord := Nat.le_antisymm hle (hmin c (Finset.mem_filter.mpr
      ⟨Multiset.mem_toFinset.mpr hc, Nat.lt_of_le_of_lt hle hlt, hoff ▸ hbuddy⟩))
    obtain ⟨o, k⟩ := c
    simp only [Blk.buddy, Blk.mk.injEq] at hoff ⊢
    exact ⟨hoff, hord⟩
  exact hbud b hbB hlt hbw hbuddy (hcb ▸ hc)

/-- A tiling in which no two buddies occur is the root block. -/
theorem Tiling.eq_root (h : Tiling M B) (hbud : ∀ b ∈ B, b.ord < M → b.buddy ∉ B) :
    B = {⟨0, M⟩} := by
  obtain ⟨b, hb, hge, _⟩ := h.covers_window (w := ⟨0, M⟩) (Nat.dvd_zero _)
    (Nat.le_of_eq (Nat.zero_add _)) fun b hb hlt _ _ => hbud b hb hlt
  obtain ⟨B', rfl⟩ := Multiset.exists_cons_of_mem hb
  obtain ⟨rfl, rfl⟩ := h.eq_singleton_of_ord (Nat.le_antisymm (h.ord_le hb) hge)
  rfl

end SoKernel.DyadicBlocks
