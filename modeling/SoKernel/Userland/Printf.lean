import Mathlib.Data.UInt
import SoKernel.Userland.Stdlib

/-!
# Formatted output

`format_printf`. Its buffer `output` is filled from the left, and is the list of the bytes
stored so far. An argument is what is passed for it: a word, and the string at that address.

Results:
1. `safeStringCopy_eq`, `convert_eq`: what one directive adds to the output.
2. `formatPrintf_iff`: the output is the truncated expansion, and no buffer is exceeded,
   exactly when two cases do not occur: the lowest `int` under `%d`, and a `%p` with room for
   one byte.
-/

namespace SoKernel.Stdlib

/-! ## 1. `format_printf` -/

/-- `MAX_LENGTH` -/
def maxLength : Nat := 512

/-- What `va_arg` takes: a word, and the string there if it is an address. -/
structure Arg where
  word : UInt64
  str : List UInt8
deriving DecidableEq, Repr, Inhabited

/-- The argument as an `int`. -/
def Arg.int (a : Arg) : Int32 := a.word.toUInt32.toInt32

/-- The buffer `output`, and for each number buffer `str` the bytes stored in it and its
size. -/
structure Output where
  bytes : List UInt8
  numbers : List (Nat × Nat)
deriving DecidableEq, Repr

/-- `output[k++] = c` -/
def Output.put (o : Output) (c : UInt8) : Output := { o with bytes := o.bytes ++ [c] }

/-- `safe_string_copy` -/
def safeStringCopy (maxLength : Nat) : List UInt8 → List UInt8 → List UInt8
  | output, [] => output
  | output, c :: str =>
    if c ≠ 0 ∧ output.length < maxLength - 1 then safeStringCopy maxLength (output ++ [c]) str
    else output

/-- A number buffer of a size is filled and copied. -/
def Output.number (o : Output) (size : Nat) (str : List UInt8) : Output :=
  ⟨safeStringCopy maxLength o.bytes str, o.numbers ++ [(str.length, size)]⟩

/-- The `switch` of `format_printf`, with the arguments that are left. -/
def convert (o : Output) (directive : UInt8) (args : List Arg) : Output × List Arg :=
  let arg := args.headD default
  if directive = 100 then (o.number maxIntLength (signedIntToStr arg.int), args.tail)
  else if directive = 108 then (o.number maxIntLength (uint64ToStr arg.word), args.tail)
  else if directive = 115 then
    ({ o with bytes := safeStringCopy maxLength o.bytes arg.str }, args.tail)
  else if directive = 99 then (o.put arg.word.toUInt8, args.tail)
  else if directive = 120 then (o.number maxIntLength (intToHex arg.int), args.tail)
  else if directive = 112 then
    (((o.put 48).put 120).number 20 (uint64ToHex arg.word), args.tail)
  else (o, args)

/-- The loop of `format_printf`. -/
def formatLoop (o : Output) : List UInt8 → List Arg → Output
  | [], _ => o
  | c :: format, args =>
    if c = 0 ∨ ¬ o.bytes.length < maxLength - 1 then o
    else if c = 37 then
      match format with
      | [] => o.put c
      | d :: format =>
        if d = 0 then o.put c
        else formatLoop (convert o d args).1 format (convert o d args).2
    else formatLoop (o.put c) format args

/-- `format_printf`, up to its system call: the bytes that are written, and the number
buffers. -/
def formatPrintf (format : List UInt8) (args : List Arg) : Output := formatLoop ⟨[], []⟩ format args

/-! ## 2. The expansion -/

/-- The text of a directive, with the arguments that are left. -/
def rendered (directive : UInt8) (args : List Arg) : List UInt8 × List Arg :=
  let arg := args.headD default
  if directive = 100 then (intText arg.int, args.tail)
  else if directive = 108 then (numeralText 10 arg.word.toNat, args.tail)
  else if directive = 115 then (text arg.str, args.tail)
  else if directive = 99 then ([arg.word.toUInt8], args.tail)
  else if directive = 120 then (numeralText 16 arg.int.toInt64.toUInt64.toNat, args.tail)
  else if directive = 112 then ([48, 120] ++ numeralText 16 arg.word.toNat, args.tail)
  else ([], args)

/-- The literal characters and the rendered directives. -/
def expansion : List UInt8 → List Arg → List UInt8
  | [], _ => []
  | c :: format, args =>
    if c = 0 then []
    else if c = 37 then
      match format with
      | [] => [c]
      | d :: format =>
        if d = 0 then [c]
        else (rendered d args).1 ++ expansion format (rendered d args).2
    else c :: expansion format args

/-- No byte outside a buffer is written, and the output is the truncated text. -/
structure Output.Meets (o : Output) (full : List UInt8) : Prop where
  numbers : ∀ use ∈ o.numbers, use.1 ≤ use.2
  inside : o.bytes.length ≤ maxLength
  bytes : o.bytes = full.take (maxLength - 1)

/-- With `k` bytes before it, a directive is neither a `%d` of the lowest `int` nor a `%p`
where there is room for one byte. -/
def Directs (k : Nat) (directive : UInt8) (args : List Arg) : Prop :=
  (directive = 100 → (args.headD default).int ≠ Int32.minValue) ∧
    (directive = 112 → k + 1 ≠ maxLength - 1)

/-- Each directive before the end of the output directs. -/
def Sound : Nat → List UInt8 → List Arg → Prop
  | _, [], _ => True
  | k, c :: format, args =>
    if c = 0 ∨ ¬ k < maxLength - 1 then True
    else if c = 37 then
      match format with
      | [] => True
      | d :: format =>
        if d = 0 then True
        else Directs k d args ∧ Sound (k + (rendered d args).1.length) format (rendered d args).2
    else Sound (k + 1) format args

section

variable {o : Output} {k : Nat} {out str full : List UInt8} {d : UInt8} {format : List UInt8}
  {args : List Arg}

theorem safeStringCopy_eq (h : out.length ≤ maxLength - 1) :
    safeStringCopy maxLength out str = (out ++ text str).take (maxLength - 1) := by
  induction str generalizing out with
  | nil =>
    rw [safeStringCopy, text, List.takeWhile_nil, List.append_nil, List.take_of_length_le h]
  | cons c str ih =>
    rw [safeStringCopy]
    by_cases hc : c = 0
    · have htext : text (c :: str) = [] := List.takeWhile_cons_of_neg (by simpa using hc)
      rw [if_neg (fun hand => hand.1 hc), htext, List.append_nil, List.take_of_length_le h]
    have htext : text (c :: str) = c :: text str := List.takeWhile_cons_of_pos (by simpa using hc)
    by_cases hroom : out.length < maxLength - 1
    · have hlen : (out ++ [c]).length ≤ maxLength - 1 := by
        rw [List.length_append]
        exact hroom
      rw [if_pos ⟨hc, hroom⟩, ih hlen, htext, List.append_assoc, List.singleton_append]
    · have hfull : out.length = maxLength - 1 := Nat.le_antisymm h (Nat.le_of_not_lt hroom)
      rw [if_neg (fun hand => hroom hand.2), List.take_append_of_le_length (Nat.le_of_eq hfull.symm),
        List.take_of_length_le h]

theorem safeStringCopy_full (h : maxLength - 1 ≤ out.length) :
    safeStringCopy maxLength out str = out := by
  cases str with
  | nil => rfl
  | cons c str => rw [safeStringCopy, if_neg (fun hand => Nat.not_lt.mpr h hand.2)]

/-- A number buffer that is large enough. -/
theorem number_meets {size : Nat} (hle : o.bytes.length ≤ maxLength - 1)
    (hfits : ∀ use ∈ o.numbers, use.1 ≤ use.2) (hsize : str.length ≤ size) :
    (o.number size str).Meets (o.bytes ++ text str) where
  numbers := by
    rw [Output.number, List.forall_mem_append, List.forall_mem_singleton]
    exact ⟨hfits, hsize⟩
  inside := by
    rw [Output.number, safeStringCopy_eq hle, List.length_take]
    exact Nat.le_trans (Nat.min_le_left _ _) (Nat.sub_le _ _)
  bytes := safeStringCopy_eq hle

theorem put_meets {c : UInt8} (hlt : o.bytes.length < maxLength - 1)
    (hfits : ∀ use ∈ o.numbers, use.1 ≤ use.2) : (o.put c).Meets (o.bytes ++ [c]) where
  numbers := hfits
  inside := by
    rw [Output.put, List.length_append]
    exact Nat.le_trans hlt (Nat.sub_le _ _)
  bytes := by
    rw [Output.put, List.take_of_length_le]
    rw [List.length_append]
    exact hlt

theorem convert_args : (convert o d args).2 = (rendered d args).2 := by
  unfold convert rendered
  split_ifs <;> rfl

/-- One directive. -/
theorem convert_meets (hlt : o.bytes.length < maxLength - 1)
    (hfits : ∀ use ∈ o.numbers, use.1 ≤ use.2) (hd : Directs o.bytes.length d args) :
    (convert o d args).1.Meets (o.bytes ++ (rendered d args).1) := by
  have hle := Nat.le_of_lt hlt
  obtain ⟨hint, hptr⟩ := hd
  simp only [convert, rendered]
  split_ifs with h100 h108 h115 h99 h120 h112
  · have hmin := hint h100
    rw [← text_signedIntToStr hmin]
    exact number_meets hle hfits (length_signedIntToStr_le hmin)
  · rw [← text_uint64ToStr]
    exact number_meets hle hfits (prints _).fits
  · refine ⟨hfits, ?_, safeStringCopy_eq hle⟩
    rw [safeStringCopy_eq hle, List.length_take]
    exact Nat.le_trans (Nat.min_le_left _ _) (Nat.sub_le _ _)
  · exact put_meets hlt hfits
  · rw [← text_uint64ToHex]
    exact number_meets hle hfits (Nat.le_trans (length_uint64ToHex_le _) (by decide))
  · -- both bytes of the prefix fit
    have hroom : o.bytes.length + 1 < maxLength - 1 := Nat.lt_of_le_of_ne hlt (hptr h112)
    have hlen : ((o.put 48).put 120).bytes.length ≤ maxLength - 1 := by
      simp only [Output.put, List.length_append, List.length_singleton]
      exact hroom
    have hprefix : ((o.put 48).put 120).bytes = o.bytes ++ [48, 120] := by
      simp [Output.put]
    have hmeets := number_meets hlen hfits
      (Nat.le_trans (length_uint64ToHex_le (args.headD default).word) (by decide : 17 ≤ 20))
    rw [text_uint64ToHex, hprefix, List.append_assoc] at hmeets
    exact hmeets
  · rw [List.append_nil]
    exact ⟨hfits, Nat.le_trans hle (Nat.sub_le _ _), (List.take_of_length_le hle).symm⟩

/-- A byte outside a buffer has been written. -/
def Output.Broken (o : Output) : Prop :=
  (∃ use ∈ o.numbers, use.2 < use.1) ∨ maxLength - 1 < o.bytes.length

theorem Output.Broken.not_meets (h : o.Broken) : ¬ o.Meets full := by
  rintro ⟨hnumbers, -, hbytes⟩
  rcases h with ⟨use, hmem, hlt⟩ | hlen
  · exact Nat.not_lt.mpr (hnumbers use hmem) hlt
  · rw [hbytes, List.length_take] at hlen
    exact Nat.not_lt.mpr (Nat.min_le_left _ _) hlen

theorem convert_numbers : o.numbers <+: (convert o d args).1.numbers := by
  unfold convert
  split_ifs <;> first | exact List.prefix_append _ _ | exact List.prefix_rfl

theorem convert_broken (hd : ¬ Directs o.bytes.length d args) : (convert o d args).1.Broken := by
  simp only [Directs, not_and_or, Classical.not_imp, not_not] at hd
  rcases hd with ⟨h100, hint⟩ | ⟨h112, hptr⟩
  · have hstr : (signedIntToStr Int32.minValue).length = 22 := by decide +kernel
    refine .inl ⟨(22, maxIntLength), ?_, by decide⟩
    rw [convert, if_pos h100, hint, Output.number, hstr]
    exact List.mem_append_right _ (List.mem_singleton_self _)
  · have hlen : ((o.put 48).put 120).bytes.length = maxLength := by
      simp only [Output.put, List.length_append, List.length_singleton]
      rw [hptr]
      rfl
    have hconvert : (convert o 112 args).1 =
        ((o.put 48).put 120).number 20 (uint64ToHex (args.headD default).word) := rfl
    rw [h112, hconvert]
    refine .inr ?_
    rw [Output.number, safeStringCopy_full (Nat.le_of_lt (by rw [hlen]; decide)), hlen]
    decide

/-- What has been written outside a buffer is not undone. -/
theorem formatLoop_broken (h : o.Broken) : (formatLoop o format args).Broken := by
  fun_induction formatLoop o format args with
  | case1 o args => exact h
  | case2 o c format args hstop => exact h
  | case3 o args hgo => exact .inl (h.resolve_right (fun hlen => hgo (.inr (Nat.lt_asymm hlen))))
  | case4 o args format hgo =>
    exact .inl (h.resolve_right (fun hlen => hgo (.inr (Nat.lt_asymm hlen))))
  | case5 o args d format hd hgo ih =>
    obtain ⟨use, hmem, hlt⟩ := h.resolve_right (fun hlen => hgo (.inr (Nat.lt_asymm hlen)))
    exact ih (.inl ⟨use, convert_numbers.subset hmem, hlt⟩)
  | case6 o c format args hgo hpercent ih =>
    exact ih (.inl (h.resolve_right (fun hlen => hgo (.inr (Nat.lt_asymm hlen)))))

theorem sound_of_full (hk : maxLength - 1 ≤ k) : Sound k format args := by
  cases format with
  | nil => trivial
  | cons c format =>
    unfold Sound
    rw [if_pos (.inr (Nat.not_lt.mpr hk))]
    trivial

/-- Nothing is added to a full output. -/
theorem formatLoop_full (hfull : maxLength - 1 ≤ o.bytes.length) : formatLoop o format args = o := by
  cases format with
  | nil => rfl
  | cons c format =>
    unfold formatLoop
    rw [if_pos (.inr (Nat.not_lt.mpr hfull))]

/-- Characters that stand for themselves. -/
def Literal (lit : List UInt8) : Prop := lit.all (fun c => c != 0 && c != 37) = true

instance (lit : List UInt8) : Decidable (Literal lit) := inferInstanceAs (Decidable (_ = true))

theorem literal_cons {c : UInt8} {lit : List UInt8} :
    Literal (c :: lit) ↔ (c ≠ 0 ∧ c ≠ 37) ∧ Literal lit := by
  rw [Literal, List.all_cons, Bool.and_eq_true, Bool.and_eq_true, bne_iff_ne, bne_iff_ne, Literal]

/-- Literal characters, as long as there is room. -/
theorem formatLoop_literal {lit : List UInt8} (hlit : Literal lit)
    (h : o.bytes.length + lit.length ≤ maxLength - 1) :
    formatLoop o (lit ++ format) args = formatLoop { o with bytes := o.bytes ++ lit } format args := by
  induction lit generalizing o with
  | nil => rw [List.append_nil, List.nil_append]
  | cons c lit ih =>
    obtain ⟨hc, hlit⟩ := literal_cons.mp hlit
    rw [List.length_cons] at h
    have hgo : ¬ (c = 0 ∨ ¬ o.bytes.length < maxLength - 1) := by
      rw [not_or, not_not]
      exact ⟨hc.1, by omega⟩
    have hput : (o.put c).bytes.length + lit.length ≤ maxLength - 1 := by
      rw [Output.put, List.length_append, List.length_singleton]
      omega
    rw [List.cons_append]
    conv_lhs => unfold formatLoop
    rw [if_neg hgo, if_neg hc.2, ih hlit hput, Output.put, List.append_assoc, List.singleton_append]

theorem formatLoop_end {lit : List UInt8} (hlit : Literal lit)
    (h : o.bytes.length + lit.length ≤ maxLength - 1) :
    formatLoop o lit args = { o with bytes := o.bytes ++ lit } := by
  calc formatLoop o lit args = formatLoop o (lit ++ []) args := by rw [List.append_nil]
    _ = formatLoop { o with bytes := o.bytes ++ lit } [] args := formatLoop_literal hlit h

theorem formatPrintf_literal {lit : List UInt8} (hlit : Literal lit)
    (h : lit.length ≤ maxLength - 1) : (formatPrintf lit args).bytes = lit := by
  rw [formatPrintf, formatLoop_end hlit]
  · rfl
  · rwa [List.length_nil, Nat.zero_add]

/-- A directive is converted where there is room. -/
theorem formatLoop_convert (hd : d ≠ 0) (h : o.bytes.length < maxLength - 1) :
    formatLoop o (37 :: d :: format) args =
      formatLoop (convert o d args).1 format (convert o d args).2 := by
  have hgo : ¬ ((37 : UInt8) = 0 ∨ ¬ o.bytes.length < maxLength - 1) := by
    rw [not_or, not_not]
    exact ⟨by decide, h⟩
  conv_lhs => unfold formatLoop
  rw [if_neg hgo, if_pos rfl]
  exact if_neg hd

theorem expansion_directive (hd : d ≠ 0) : expansion (37 :: d :: format) args =
    (rendered d args).1 ++ expansion format (rendered d args).2 := by
  conv_lhs => unfold expansion
  rw [if_neg (by decide), if_pos rfl]
  exact if_neg hd

theorem sound_directive (hlt : k < maxLength - 1) (hd : d ≠ 0) :
    Sound k (37 :: d :: format) args ↔ Directs k d args ∧
      Sound (k + (rendered d args).1.length) format (rendered d args).2 := by
  have hgo : ¬ ((37 : UInt8) = 0 ∨ ¬ k < maxLength - 1) := by
    rw [not_or, not_not]
    exact ⟨by decide, hlt⟩
  conv_lhs => unfold Sound
  rw [if_neg hgo, if_pos rfl]
  exact iff_of_eq (if_neg hd)

/-- A directive that directs, and what comes behind it. -/
theorem formatLoop_directive (hfits : ∀ use ∈ o.numbers, use.1 ≤ use.2) (hd : d ≠ 0)
    (hlt : o.bytes.length < maxLength - 1) (hdirects : Directs o.bytes.length d args)
    (ih : (formatLoop (convert o d args).1 format (rendered d args).2).Meets
        ((convert o d args).1.bytes ++ expansion format (rendered d args).2) ↔
      Sound (convert o d args).1.bytes.length format (rendered d args).2) :
    (formatLoop (convert o d args).1 format (rendered d args).2).Meets
        (o.bytes ++ expansion (37 :: d :: format) args) ↔
      Sound o.bytes.length (37 :: d :: format) args := by
  obtain ⟨hnumbers, hinside, hbytes⟩ := convert_meets hlt hfits hdirects
  rw [expansion_directive hd, ← List.append_assoc, sound_directive hlt hd, and_iff_right hdirects,
    ← List.length_append]
  by_cases hfull : maxLength - 1 ≤ (o.bytes ++ (rendered d args).1).length
  · have hlen : (convert o d args).1.bytes.length = maxLength - 1 := by
      rw [hbytes, List.length_take, Nat.min_eq_left hfull]
    rw [formatLoop_full (Nat.le_of_eq hlen.symm)]
    refine iff_of_true ⟨hnumbers, hinside, ?_⟩ (sound_of_full hfull)
    rw [hbytes, List.take_append_of_le_length hfull]
  · have hwhole : (convert o d args).1.bytes = o.bytes ++ (rendered d args).1 := by
      rw [hbytes, List.take_of_length_le (Nat.le_of_not_le hfull)]
    rw [← hwhole]
    exact ih

/-- The output is the truncated text as long as the directives direct, and not from the first
one on that does not. -/
theorem formatLoop_iff (hle : o.bytes.length ≤ maxLength - 1)
    (hfits : ∀ use ∈ o.numbers, use.1 ≤ use.2) :
    (formatLoop o format args).Meets (o.bytes ++ expansion format args) ↔
      Sound o.bytes.length format args := by
  have hinside : o.bytes.length ≤ maxLength := Nat.le_trans hle (Nat.sub_le _ _)
  fun_induction formatLoop o format args with
  | case1 o args =>
    refine iff_of_true ⟨hfits, hinside, ?_⟩ trivial
    rw [expansion, List.append_nil, List.take_of_length_le hle]
  | case2 o c format args hstop =>
    have hsound : Sound o.bytes.length (c :: format) args := by
      unfold Sound
      rw [if_pos hstop]
      trivial
    refine iff_of_true ⟨hfits, hinside, ?_⟩ hsound
    rcases hstop with hc | hfull
    · have hexp : expansion (c :: format) args = [] := by
        unfold expansion
        exact if_pos hc
      rw [hexp, List.append_nil, List.take_of_length_le hle]
    · rw [List.take_append_of_le_length (Nat.le_of_not_lt hfull), List.take_of_length_le hle]
  | case3 o args hgo =>
    have hlt : o.bytes.length < maxLength - 1 := not_not.mp (not_or.mp hgo).2
    refine iff_of_true (put_meets hlt hfits) ?_
    unfold Sound
    rw [if_neg hgo, if_pos rfl]
    trivial
  | case4 o args format hgo =>
    have hlt : o.bytes.length < maxLength - 1 := not_not.mp (not_or.mp hgo).2
    refine iff_of_true (put_meets hlt hfits) ?_
    unfold Sound
    rw [if_neg hgo, if_pos rfl]
    trivial
  | case5 o args d format hd hgo ih =>
    have hlt : o.bytes.length < maxLength - 1 := not_not.mp (not_or.mp hgo).2
    rw [convert_args] at ih ⊢
    by_cases hdirects : Directs o.bytes.length d args
    · have hmeets := convert_meets hlt hfits hdirects
      have hle' : (convert o d args).1.bytes.length ≤ maxLength - 1 := by
        rw [hmeets.bytes, List.length_take]
        exact Nat.min_le_left _ _
      exact formatLoop_directive hfits hd hlt hdirects (ih hle' hmeets.numbers hmeets.inside)
    · refine iff_of_false (formatLoop_broken (convert_broken hdirects)).not_meets fun h => ?_
      exact hdirects ((sound_directive hlt hd).mp h).1
  | case6 o c format args hgo hpercent ih =>
    have hlt : o.bytes.length < maxLength - 1 := not_not.mp (not_or.mp hgo).2
    have hlen : (o.put c).bytes.length = o.bytes.length + 1 := List.length_append
    have hexp : expansion (c :: format) args = c :: expansion format args := by
      conv_lhs => unfold expansion
      rw [if_neg (not_or.mp hgo).1, if_neg hpercent]
    have hsound : Sound o.bytes.length (c :: format) args ↔
        Sound (o.put c).bytes.length format args := by
      conv_lhs => unfold Sound
      rw [if_neg hgo, if_neg hpercent, hlen]
    have hput : (o.put c).bytes ++ expansion format args = o.bytes ++ c :: expansion format args := by
      rw [Output.put, List.append_assoc, List.singleton_append]
    rw [hexp, hsound, ← hput]
    exact ih (Nat.le_trans (Nat.le_of_eq hlen) hlt) hfits (put_meets hlt hfits).inside

end

/-- The bytes written are the truncated expansion, and no buffer is exceeded, exactly when no
`%d` of the lowest `int` and no `%p` in front of the last byte of the output is reached. -/
theorem formatPrintf_iff (format : List UInt8) (args : List Arg) :
    (formatPrintf format args).Meets (expansion format args) ↔ Sound 0 format args :=
  formatLoop_iff (Nat.zero_le _) (fun _ h => absurd h List.not_mem_nil)

/-- `%d` of the lowest `int` exceeds its buffer, and prints another number. 510 characters and
a `%p` fill the output to its last byte. -/
theorem formatPrintf_exceeds :
    ¬ (formatPrintf [37, 100] [⟨2 ^ 31, []⟩]).Meets (expansion [37, 100] [⟨2 ^ 31, []⟩]) ∧
      ¬ (formatPrintf (List.replicate 510 97 ++ [37, 112]) [default]).Meets
        (expansion (List.replicate 510 97 ++ [37, 112]) [default]) := by
  have hint : (formatPrintf [37, 100] [⟨2 ^ 31, []⟩]).numbers = [(22, 21)] := by decide +kernel
  have hptr : (formatPrintf (List.replicate 510 97 ++ [37, 112]) [default]).bytes.length = 512 := by
    decide +kernel
  constructor
  · rintro ⟨hnumbers, -, -⟩
    rw [hint] at hnumbers
    exact absurd (hnumbers _ (List.mem_singleton_self _)) (by decide)
  · rintro ⟨-, -, hbytes⟩
    rw [hbytes, List.length_take] at hptr
    exact absurd (hptr ▸ Nat.min_le_left _ _) (by decide)

end SoKernel.Stdlib
