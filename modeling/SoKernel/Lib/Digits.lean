import Mathlib.Data.Nat.Digits.Lemmas

/-!
# The digits of a number

The digits that a loop of divisions gives, and the number that is read from digits.

Results:
1. `numeral_step`, `length_numeral_le`, `numeral_lt`: a numeral is made digit by digit, is not
   longer than it must be, and has digits below the base.
2. `numeral_head`: its highest digit is not 0, but for the number 0.
3. `readDigits_numeral`: what is read is the number.
-/

namespace SoKernel

variable {b n d k : Nat} {ds : List Nat}

/-- The digits of a number, the lowest one first. The number 0 has one digit. -/
def numeral (b n : Nat) : List Nat := if n = 0 then [0] else Nat.digits b n

/-- The number of a list of digits, the highest one first. -/
def readDigits (b : Nat) (ds : List Nat) : Nat := ds.foldl (fun v d => v * b + d) 0

theorem numeral_zero : numeral b 0 = [0] := rfl

theorem numeral_pos (hn : n ≠ 0) : numeral b n = Nat.digits b n := if_neg hn

/-- The lowest digit, and those of the quotient if that is not 0. -/
theorem numeral_step (hb : 1 < b) :
    numeral b n = n % b :: if n / b = 0 then [] else numeral b (n / b) := by
  by_cases hn : n = 0
  · rw [hn, numeral_zero, Nat.zero_mod, Nat.zero_div, if_pos rfl]
  rw [numeral_pos hn, Nat.digits_def' hb (Nat.pos_of_ne_zero hn)]
  split
  · next hq => rw [hq, Nat.digits_zero]
  · next hq => rw [numeral_pos hq]

theorem numeral_lt (hb : 1 < b) (hd : d ∈ numeral b n) : d < b := by
  by_cases hn : n = 0
  · rw [hn, numeral_zero, List.mem_singleton] at hd
    exact hd ▸ Nat.lt_of_succ_lt hb
  · rw [numeral_pos hn] at hd
    exact Nat.digits_lt_base hb hd

theorem length_numeral_le (hb : 1 < b) (hk : 0 < k) : (numeral b n).length ≤ k ↔ n < b ^ k := by
  by_cases hn : n = 0
  · rw [hn]
    exact iff_of_true hk (Nat.pow_pos (Nat.lt_of_succ_lt hb))
  · rw [numeral_pos hn]
    exact Nat.digits_length_le_iff hb n

theorem ofDigits_numeral : Nat.ofDigits b (numeral b n) = n := by
  by_cases hn : n = 0
  · rw [hn]
    rfl
  · rw [numeral_pos hn, Nat.ofDigits_digits]

/-- No leading zero. -/
theorem numeral_head (h : (numeral b n).reverse.head? = some 0) : n = 0 := by
  by_contra hn
  have hne := Nat.digits_ne_nil_iff_ne_zero (b := b).mpr hn
  rw [numeral_pos hn, List.head?_reverse, List.getLast?_eq_getLast_of_ne_nil hne] at h
  exact Nat.getLast_digit_ne_zero b hn (Option.some.inj h)

theorem readDigits_reverse : readDigits b ds.reverse = Nat.ofDigits b ds := by
  rw [readDigits, List.foldl_reverse, Nat.ofDigits_eq_foldr]
  congr 1
  funext d v
  rw [Nat.cast_id, Nat.mul_comm, Nat.add_comm]

/-- A number is read from its numeral. -/
theorem readDigits_numeral : readDigits b (numeral b n).reverse = n :=
  readDigits_reverse.trans ofDigits_numeral

end SoKernel
