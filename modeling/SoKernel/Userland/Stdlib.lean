import Mathlib.Data.List.Induction
import SoKernel.Lib.Digits

/-!
# Numbers as text

The functions of the user `stdlib.c` between numbers and text. A function that stores a text
from an address on gives the bytes that it stores there, the NUL among them. A string that is
read is the list of its characters.

Results:
1. `uintToBase_eq`, `prints`: the text of a 64-bit number is its numeral.
2. `roundTrip_iff`: an `int` is read back from its text exactly when it is not the lowest one.
-/

namespace SoKernel.Stdlib

/-! ## `stdlib.c` -/

/-- `MAX_INT_LENGTH` -/
def maxIntLength : Nat := 21

/-- The character for a remainder. -/
def digitChar (remainder : UInt32) : UInt8 :=
  if remainder < 10 then remainder.toUInt8 + 48 else remainder.toUInt8 + 65 - 10

/-- The `do` loop of `uintToBase`. No value has more than 64 digits. -/
def divisionLoop (base : UInt32) : Nat → UInt64 → List UInt8
  | 0, _ => []
  | fuel + 1, value =>
    digitChar (value % base.toUInt64).toUInt32 ::
      if value / base.toUInt64 ≠ 0 then divisionLoop base fuel (value / base.toUInt64) else []

/-- The `while` loop of `uintToBase`. -/
def reverseLoop : Nat → List UInt8 → Nat → Nat → List UInt8
  | 0, buffer, _, _ => buffer
  | fuel + 1, buffer, p1, p2 =>
    if p1 < p2 then
      let tmp := buffer.getD p1 0
      let buffer := (buffer.set p1 (buffer.getD p2 0)).set p2 tmp
      reverseLoop fuel buffer (p1 + 1) (p2 - 1)
    else buffer

/-- `uintToBase`: what it stores in its buffer, and the number of digits. -/
def uintToBase (value : UInt64) (base : UInt32) : List UInt8 × UInt32 :=
  let digits := divisionLoop base 64 value
  (reverseLoop digits.length (digits ++ [0]) 0 (digits.length - 1), digits.length.toUInt32)

/-- `signedIntToStr` -/
def signedIntToStr (n : Int32) : List UInt8 :=
  if n < 0 then 45 :: (uintToBase (-n).toInt64.toUInt64 10).1
  else (uintToBase n.toInt64.toUInt64 10).1

/-- `uint64ToStr` -/
def uint64ToStr (n : UInt64) : List UInt8 := (uintToBase n 10).1

/-- `intToHex` -/
def intToHex (n : Int32) : List UInt8 := (uintToBase n.toInt64.toUInt64 16).1

/-- `uint64ToHex` -/
def uint64ToHex (n : UInt64) : List UInt8 := (uintToBase n 16).1

/-- The loop of `satoi`. -/
def satoiLoop (sign : Int64) (res : Int64) : List UInt8 → Int64
  | [] => res * sign
  | c :: cs =>
    if c.toInt8 < 48 ∨ c.toInt8 > 57 then 0 else satoiLoop sign (res * 10 + c.toInt8.toInt64 - 48) cs

/-- `satoi` -/
def satoi (str : List UInt8) : Int64 :=
  if str.head? = some 45 then satoiLoop (-1) 0 str.tail else satoiLoop 1 0 str

/-! ## 1. Numerals -/

/-- The string in a buffer. -/
def text (bs : List UInt8) : List UInt8 := bs.takeWhile (· ≠ 0)

/-- The last byte of the buffer is the first NUL. -/
def Terminated (bs : List UInt8) : Prop := text bs ++ [0] = bs

instance (bs : List UInt8) : Decidable (Terminated bs) := inferInstanceAs (Decidable (_ = _))

/-- The character of a digit. -/
def digitByte (d : Nat) : UInt8 := digitChar d.toUInt32

/-- The characters of a numeral, the highest digit first. -/
def numeralText (b n : Nat) : List UInt8 := (numeral b n).reverse.map digitByte

section

variable {bs : List UInt8} {base : UInt32} {value : UInt64} {fuel b n d : Nat}

/-- The digits of a value, when there are as many turns as it has digits. -/
theorem divisionLoop_eq (hb : 2 ≤ base.toNat) (hv : value.toNat < base.toNat ^ (fuel + 1)) :
    divisionLoop base (fuel + 1) value = (numeral base.toNat value.toNat).map digitByte := by
  have hbase : base.toUInt64.toNat = base.toNat := UInt32.toNat_toUInt64 base
  induction fuel generalizing value with
  | zero =>
    have hq : value.toNat / base.toNat = 0 := Nat.div_eq_of_lt (by simpa using hv)
    have hzero : value / base.toUInt64 = 0 := by
      rw [← UInt64.toNat_inj, UInt64.toNat_div, hbase, hq]
      rfl
    have hr : (value % base.toUInt64).toNat = value.toNat % base.toNat := by
      rw [UInt64.toNat_mod, hbase]
    rw [divisionLoop, if_neg (not_not_intro hzero), numeral_step hb, if_pos hq, ← hr]
    rfl
  | succ fuel ih =>
    have hdiv : (value / base.toUInt64).toNat = value.toNat / base.toNat := by
      rw [UInt64.toNat_div, hbase]
    have hr : (value % base.toUInt64).toNat = value.toNat % base.toNat := by
      rw [UInt64.toNat_mod, hbase]
    have hlt : (value / base.toUInt64).toNat < base.toNat ^ (fuel + 1) := by
      rw [hdiv, Nat.div_lt_iff_lt_mul (Nat.lt_of_succ_lt hb), ← Nat.pow_succ]
      exact hv
    rw [divisionLoop, numeral_step hb, List.map_cons, ← hr, ← hdiv]
    congr 1
    by_cases hzero : value / base.toUInt64 = 0
    · rw [if_neg (not_not_intro hzero), if_pos (by rw [hzero]; rfl), List.map_nil]
    · have hne : (value / base.toUInt64).toNat ≠ 0 := fun h => hzero (UInt64.toNat_inj.mp h)
      rw [if_pos hzero, if_neg hne, ih hlt]

/-- The characters between the two ends are reversed. -/
theorem reverseLoop_eq (mid : List UInt8) (left right : List UInt8) (hfuel : mid.length ≤ fuel) :
    reverseLoop fuel (left ++ mid ++ right) left.length (left.length + mid.length - 1) =
      left ++ mid.reverse ++ right := by
  induction mid using List.bidirectionalRec generalizing fuel left right with
  | nil =>
    cases fuel with
    | zero => rfl
    | succ fuel => rw [reverseLoop, if_neg (by simp)]; rfl
  | singleton c =>
    cases fuel with
    | zero => exact absurd hfuel (by simp)
    | succ fuel => rw [reverseLoop, if_neg (by simp)]; rfl
  | cons_append a mid b ih =>
    obtain ⟨fuel, rfl⟩ : ∃ k, fuel = k + 1 := ⟨fuel - 1, by simp at hfuel; omega⟩
    have hlen : (a :: (mid ++ [b])).length = mid.length + 2 := by simp
    have hb : left.length + (a :: (mid ++ [b])).length - 1 = left.length + (mid.length + 1) := by
      rw [hlen]
      omega
    have hget : (left ++ a :: (mid ++ [b]) ++ right).getD left.length 0 = a := by simp
    have hget' : (left ++ a :: (mid ++ [b]) ++ right).getD (left.length + (mid.length + 1)) 0 = b := by
      simp
    have hset : ((left ++ a :: (mid ++ [b]) ++ right).set left.length b).set
        (left.length + (mid.length + 1)) a = (left ++ [b]) ++ mid ++ (a :: right) := by
      simp
    have hends : left.length + (mid.length + 1) - 1 = (left ++ [b]).length + mid.length - 1 := by
      simp
    have hfuel' : mid.length ≤ fuel := by omega
    have hrec := ih (left ++ [b]) (a :: right) hfuel'
    rw [hb, reverseLoop, if_pos (by omega)]
    simp only [hget, hget', hset, hends]
    rw [List.length_append, List.length_singleton] at hrec
    rw [List.length_append, List.length_singleton, hrec]
    simp

/-- What `uintToBase` stores is the numeral and a NUL. -/
theorem uintToBase_eq (hb : 2 ≤ base.toNat) :
    uintToBase value base =
      (numeralText base.toNat value.toNat ++ [0], (numeral base.toNat value.toNat).length.toUInt32) := by
  have hlt : value.toNat < base.toNat ^ (63 + 1) :=
    Nat.lt_of_lt_of_le value.toNat_lt (Nat.pow_le_pow_left hb 64)
  have hloop := divisionLoop_eq hb hlt
  have hrev := reverseLoop_eq (divisionLoop base 64 value) [] [0] (Nat.le_refl _)
  simp only [List.nil_append, List.length_nil, Nat.zero_add] at hrev
  rw [uintToBase, hrev, hloop, List.length_map, ← List.map_reverse]
  rfl

theorem digitByte_ne_zero (hd : d < 16) : digitByte d ≠ 0 := by
  revert d
  decide

theorem digitByte_decimal (hd : d < 10) : 48 ≤ digitByte d ∧ digitByte d ≤ 57 := by
  revert d
  decide

theorem toNat_digitByte (hd : d < 10) : (digitByte d).toNat - 48 = d := by
  revert d
  decide

/-- As a `char`, which has a sign. -/
theorem toInt8_digitByte (hd : d < 10) :
    ¬ ((digitByte d).toInt8 < 48 ∨ (digitByte d).toInt8 > 57) ∧
      (digitByte d).toInt8.toInt64 - 48 = Int64.ofInt d := by
  revert d
  decide

theorem ne_zero_of_mem_numeralText (hb : 1 < b) (hb' : b ≤ 16) {c : UInt8}
    (hc : c ∈ numeralText b n) : c ≠ 0 := by
  obtain ⟨d, hd, rfl⟩ := List.mem_map.mp hc
  exact digitByte_ne_zero (Nat.lt_of_lt_of_le (numeral_lt hb (List.mem_reverse.mp hd)) hb')

theorem text_append_zero (h : ∀ c ∈ bs, c ≠ 0) : text (bs ++ [0]) = bs := by
  rw [text, List.takeWhile_append_of_pos (by simpa using h)]
  simp

theorem text_numeralText (hb : 1 < b) (hb' : b ≤ 16) :
    text (numeralText b n ++ [0]) = numeralText b n :=
  text_append_zero fun _ hc => ne_zero_of_mem_numeralText hb hb' hc

theorem uint64ToStr_eq : uint64ToStr value = numeralText 10 value.toNat ++ [0] := by
  rw [uint64ToStr, uintToBase_eq (by decide)]
  rfl

theorem text_uint64ToStr : text (uint64ToStr value) = numeralText 10 value.toNat := by
  rw [uint64ToStr_eq, text_numeralText (by decide) (by decide)]

theorem length_uint64ToStr_le {k : Nat} (hk : 0 < k) (hv : value.toNat < 10 ^ k) :
    (uint64ToStr value).length ≤ k + 1 := by
  rw [uint64ToStr_eq, numeralText, List.length_append, List.length_map, List.length_reverse]
  exact Nat.succ_le_succ ((length_numeral_le (by decide) hk).mpr hv)

theorem uint64ToHex_eq : uint64ToHex value = numeralText 16 value.toNat ++ [0] := by
  rw [uint64ToHex, uintToBase_eq (by decide)]
  rfl

theorem text_uint64ToHex : text (uint64ToHex value) = numeralText 16 value.toNat := by
  rw [uint64ToHex_eq, text_numeralText (by decide) (by decide)]

theorem length_uint64ToHex_le (value : UInt64) : (uint64ToHex value).length ≤ 17 := by
  rw [uint64ToHex_eq, numeralText, List.length_append, List.length_map, List.length_reverse]
  exact Nat.succ_le_succ ((length_numeral_le (by decide) (by decide)).mpr value.toNat_lt)

/-- The loop of `satoi` reads decimal digits, modulo `2 ^ 64`. -/
theorem satoiLoop_digits (sign : Int64) {ds : List Nat} (hds : ∀ d ∈ ds, d < 10) (v : Nat) :
    satoiLoop sign (Int64.ofInt v) (ds.map digitByte) =
      Int64.ofInt (ds.foldl (fun v d => v * 10 + d) v : Nat) * sign := by
  induction ds generalizing v with
  | nil => rfl
  | cons d ds ih =>
    obtain ⟨hd, hds⟩ := List.forall_mem_cons.mp hds
    obtain ⟨hchar, hvalue⟩ := toInt8_digitByte hd
    have hstep : Int64.ofInt v * 10 + (digitByte d).toInt8.toInt64 - 48 =
        Int64.ofInt ((v * 10 + d : Nat) : Int) := by
      rw [Int64.sub_eq_add_neg, Int64.add_assoc, ← Int64.sub_eq_add_neg, hvalue]
      simp
    rw [List.map_cons, satoiLoop, if_neg hchar, hstep, ih hds]
    rfl

/-- `satoi` on a numeral, behind a sign or not. -/
theorem satoiLoop_numeralText (sign : Int64) :
    satoiLoop sign 0 (numeralText 10 n) = Int64.ofInt n * sign := by
  have hds : ∀ d ∈ (numeral 10 n).reverse, d < 10 :=
    fun d hd => numeral_lt (by decide) (List.mem_reverse.mp hd)
  have h := satoiLoop_digits sign hds 0
  have hread : (numeral 10 n).reverse.foldl (fun v d => v * 10 + d) 0 = n :=
    readDigits_numeral
  rw [hread] at h
  exact h

theorem numeralText_head : (numeralText 10 n).head? ≠ some 45 := by
  intro h
  obtain ⟨d, hd, hc⟩ := List.mem_map.mp (List.mem_of_mem_head? h)
  have hlow := (digitByte_decimal (numeral_lt (by decide) (List.mem_reverse.mp hd))).1
  rw [hc] at hlow
  exact absurd hlow (by decide)

theorem satoi_numeralText : satoi (numeralText 10 n) = Int64.ofInt n := by
  rw [satoi, if_neg numeralText_head, satoiLoop_numeralText, Int64.mul_one]

theorem satoi_minus : satoi (45 :: bs) = satoiLoop (-1) 0 bs := if_pos List.head?_cons

end

/-! ## 2. The round trip -/

/-- Decimal digits that make up a number. -/
def Denotes (s : List UInt8) (n : Nat) : Prop :=
  (∀ c ∈ s, 48 ≤ c ∧ c ≤ 57) ∧ readDigits 10 (s.map fun c => c.toNat - 48) = n

/-- `signedIntToStr` stores a string that fits in its buffer, and `satoi` reads the number. -/
def RoundTrips (n : Int32) : Prop :=
  Terminated (signedIntToStr n) ∧ (signedIntToStr n).length ≤ maxIntLength ∧
    (satoi (text (signedIntToStr n))).toInt = n.toInt

instance (n : Int32) : Decidable (RoundTrips n) := inferInstanceAs (Decidable (_ ∧ _))

/-- `uint64ToStr` stores a string that fits in its buffer, the numeral of the number. -/
structure Prints (n : UInt64) : Prop where
  terminated : Terminated (uint64ToStr n)
  fits : (uint64ToStr n).length ≤ maxIntLength
  noLeadingZero : (text (uint64ToStr n)).head? = some 48 → n = 0
  denotes : Denotes (text (uint64ToStr n)) n.toNat
  read : n.toNat < 2 ^ 63 → (satoi (text (uint64ToStr n))).toInt = n.toNat

theorem terminated_uint64ToStr (n : UInt64) : Terminated (uint64ToStr n) := by
  rw [Terminated, text_uint64ToStr, uint64ToStr_eq]

theorem denotes_numeralText (n : Nat) : Denotes (numeralText 10 n) n := by
  have hlt : ∀ d ∈ (numeral 10 n).reverse, d < 10 :=
    fun d hd => numeral_lt (by decide) (List.mem_reverse.mp hd)
  constructor
  · intro c hc
    obtain ⟨d, hd, rfl⟩ := List.mem_map.mp hc
    exact digitByte_decimal (hlt d hd)
  · have hmap : (numeralText 10 n).map (fun c => c.toNat - 48) = (numeral 10 n).reverse := by
      rw [numeralText, List.map_map]
      exact (List.map_congr_left fun d hd => toNat_digitByte (hlt d hd)).trans (List.map_id _)
    rw [hmap, readDigits_numeral]

theorem numeralText_head_zero {n : Nat} (h : (numeralText 10 n).head? = some 48) : n = 0 := by
  rw [numeralText, List.head?_map, Option.map_eq_some_iff] at h
  obtain ⟨d, hhead, hd⟩ := h
  have hlt : d < 10 := numeral_lt (by decide) (List.mem_reverse.mp (List.mem_of_mem_head? hhead))
  have hzero : d = 0 := by
    rw [← toNat_digitByte hlt, hd]
    rfl
  exact numeral_head (hzero ▸ hhead)

theorem prints (n : UInt64) : Prints n where
  terminated := terminated_uint64ToStr n
  fits := length_uint64ToStr_le (by decide) (Nat.lt_trans n.toNat_lt (by decide))
  noLeadingZero h := by
    rw [text_uint64ToStr] at h
    exact UInt64.toNat_inj.mp (numeralText_head_zero h)
  denotes := by
    rw [text_uint64ToStr]
    exact denotes_numeralText n.toNat
  read h := by
    rw [text_uint64ToStr, satoi_numeralText, Int64.toInt_ofInt_of_le (by omega) (by omega)]

/-- The number behind the sign. -/
theorem toNat_neg {n : Int32} (hneg : n < 0) (hmin : n ≠ Int32.minValue) :
    (-n).toInt64.toUInt64.toNat = n.toInt.natAbs := by
  have hlow := n.le_toInt
  have hn : n.toInt < 0 := Int32.lt_iff_toInt_lt.mp hneg
  have hne : n.toInt ≠ -2 ^ 31 := fun h => hmin (Int32.toInt_inj.mp h)
  have hval : (-n).toInt64.toInt = -n.toInt := by
    rw [Int32.toInt_toInt64, Int32.toInt_neg]
    exact Int.bmod_eq_of_le (by omega) (by omega)
  have hnonneg : 0 ≤ (-n).toInt64 := by
    rw [Int64.le_iff_toInt_le, hval, Int64.toInt_zero]
    omega
  rw [Int64.toNat_toUInt64_of_le hnonneg, Int64.toNatClampNeg, hval]
  omega

theorem toNat_nonneg {n : Int32} (hn : ¬ n < 0) : n.toInt64.toUInt64.toNat = n.toInt.natAbs := by
  have hle : 0 ≤ n.toInt := by
    rw [Int32.lt_iff_toInt_lt, Int32.toInt_zero] at hn
    exact Int.not_lt.mp hn
  have hnonneg : 0 ≤ n.toInt64 := by
    rw [Int64.le_iff_toInt_le, Int32.toInt_toInt64, Int64.toInt_zero]
    exact hle
  rw [Int64.toNat_toUInt64_of_le hnonneg, Int64.toNatClampNeg, Int32.toInt_toInt64]
  omega

/-- The text of an `int`. -/
def intText (n : Int32) : List UInt8 :=
  (if n < 0 then [45] else []) ++ numeralText 10 n.toInt.natAbs

theorem signedIntToStr_eq {n : Int32} (hmin : n ≠ Int32.minValue) :
    signedIntToStr n = intText n ++ [0] := by
  unfold signedIntToStr intText
  by_cases hn : n < 0
  · rw [if_pos hn, if_pos hn, uintToBase_eq (by decide), toNat_neg hn hmin]
    rfl
  · rw [if_neg hn, if_neg hn, uintToBase_eq (by decide), toNat_nonneg hn]
    rfl

theorem intText_ne_zero {n : Int32} : ∀ c ∈ intText n, c ≠ 0 := by
  intro c hc
  rcases List.mem_append.mp hc with hc | hc
  · split at hc
    · rw [List.mem_singleton.mp hc]
      decide
    · exact absurd hc List.not_mem_nil
  · exact ne_zero_of_mem_numeralText (by decide) (by decide) hc

theorem length_intText_le (n : Int32) : (intText n).length ≤ 11 := by
  have hlow := n.le_toInt
  have hhigh := n.toInt_lt
  have hnum : (numeralText 10 n.toInt.natAbs).length ≤ 10 := by
    rw [numeralText, List.length_map, List.length_reverse,
      length_numeral_le (by decide) (by decide)]
    omega
  rw [intText, List.length_append]
  split <;> simp only [List.length_singleton, List.length_nil] <;> omega

theorem satoi_intText (n : Int32) : (satoi (intText n)).toInt = n.toInt := by
  have hlow := n.le_toInt
  have hhigh := n.toInt_lt
  unfold intText
  by_cases hn : n < 0
  · have hneg : n.toInt < 0 := Int32.lt_iff_toInt_lt.mp hn
    rw [if_pos hn, List.singleton_append, satoi_minus, satoiLoop_numeralText, Int64.mul_neg,
      Int64.mul_one, ← Int64.ofInt_neg, Int64.toInt_ofInt_of_le (by omega) (by omega)]
    omega
  · have hpos : 0 ≤ n.toInt := by
      rw [Int32.lt_iff_toInt_lt, Int32.toInt_zero] at hn
      exact Int.not_lt.mp hn
    rw [if_neg hn, List.nil_append, satoi_numeralText, Int64.toInt_ofInt_of_le (by omega) (by omega)]
    omega

theorem text_signedIntToStr {n : Int32} (hmin : n ≠ Int32.minValue) :
    text (signedIntToStr n) = intText n := by
  rw [signedIntToStr_eq hmin, text_append_zero intText_ne_zero]

theorem length_signedIntToStr_le {n : Int32} (hmin : n ≠ Int32.minValue) :
    (signedIntToStr n).length ≤ maxIntLength := by
  have hlen := length_intText_le n
  rw [signedIntToStr_eq hmin, List.length_append, List.length_singleton, maxIntLength]
  omega

/-- An `int` is read back from its text unless it is the lowest one, and a 64-bit number is
printed as its numeral. -/
theorem roundTrip_iff (n : Int32) (m : UInt64) :
    (RoundTrips n ↔ n ≠ Int32.minValue) ∧ Prints m := by
  refine ⟨⟨?_, fun hmin => ?_⟩, prints m⟩
  · rintro h rfl
    exact absurd h (by decide)
  · rw [RoundTrips, Terminated, text_signedIntToStr hmin]
    exact ⟨(signedIntToStr_eq hmin).symm, length_signedIntToStr_le hmin, satoi_intText n⟩

/-- The text of the lowest `int` is one byte too long, and is read as another number. -/
theorem lowest_int :
    ¬ RoundTrips (-2147483648) ∧ (signedIntToStr (-2147483648)).length = 22 ∧
      (satoi (text (signedIntToStr (-2147483648)))).toInt = 2147483648 := by
  decide +kernel

end SoKernel.Stdlib
