import Mathlib.Data.UInt
import SoKernel.Lib.Arrays
import SoKernel.Userland.Shell

/-!
# The arguments of a command

`parse_string` and `analize_arg` of `programs.c`, with the accesses that they and `strncpy`
make to the argument string, to the local arrays and to the rows of the caller. The arrays of
pointers into the rows are functions.

Results:
1. `parseLoop_eq`: the scanner finds the words between the spaces.
2. `analizeArg_eq`: what is returned, and the rows.
3. `analizeArg_inside_iff`: no byte outside the arrays is touched exactly when the argument
   is empty, and none is written exactly when the words are not accepted.
4. `analizeArg_shell`: the shell's own model of `analize_arg` returns the same.
-/

namespace SoKernel.Arguments

/-- The argument string, the locals `buffer` and `temp_storage` of `analize_arg`, and the
rows of its caller. -/
inductive Area
  | arg
  | buffer
  | temp
  | rows
deriving DecidableEq, Repr

abbrev Mem := Arrays Area UInt8

/-! ## `stdlib.c` -/

/-- `strncpy` -/
def strncpy (dest src : Ptr Area) (length : Nat) (m : Mem) : Mem :=
  (copyFrom dest src length 0 m).store (dest.add length) 0

/-- `strcmp`, with a constant. -/
def strcmp (s1 : Ptr Area) : List UInt8 → Mem → Int × Mem
  | [], m => ((m.get s1).toInt8.toInt, m.read s1)
  | c :: s2, m =>
    if m.get s1 ≠ 0 ∧ m.get s1 = c then strcmp (s1.add 1) s2 (m.read s1)
    else ((m.get s1).toInt8.toInt - c.toInt8.toInt, m.read s1)

/-! ## `programs.c` -/

/-- `is_space` -/
def isSpace (c : UInt8) : Bool := c = 32

/-- A character of a word. -/
def inWord (c : UInt8) : Bool := c ≠ 0 ∧ ¬ isSpace c

/-- The size of the local `buffer`. No loop over the string in it makes as many turns. -/
def bufferSize : Nat := 1024

/-- The loop that copies a word. -/
def copyWord (arg dest : Ptr Area) (maxSize : Nat) : Nat → Nat → Nat → Mem → Nat × Nat × Mem
  | 0, i, j, m => (i, j, m)
  | fuel + 1, i, j, m =>
    if inWord (m.get (arg.add i)) ∧ j < maxSize - 1 then
      copyWord arg dest maxSize fuel (i + 1) (j + 1)
        ((m.read (arg.add i)).store (dest.add j) (m.get (arg.add i)))
    else (i, j, m.read (arg.add i))

/-- The body of the loop of `parse_string`: the next word, and the spaces behind it. -/
def parseWord (arg dest : Ptr Area) (maxSize fuel i : Nat) (m : Mem) : Nat × Nat × Mem :=
  let (i, j, m) := copyWord arg dest maxSize fuel i 0 m
  let m := m.store (dest.add j) 0
  let (i, m) := scanWhile inWord arg fuel i m
  let (i, m) := scanWhile isSpace arg fuel i m
  (i, j, m)

/-- The loop of `parse_string`. -/
def parseLoop (arg : Ptr Area) (args : Nat → Ptr Area) (maxArgs maxSize : Nat) :
    Nat → Nat → Nat → Mem → Nat × Mem
  | 0, _, argCount, m => (argCount, m)
  | fuel + 1, i, argCount, m =>
    if m.get (arg.add i) ≠ 0 ∧ argCount < maxArgs then
      let (i, j, m) := parseWord arg (args argCount) maxSize (fuel + 1) i (m.read (arg.add i))
      parseLoop arg args maxArgs maxSize fuel i (if j > 0 then argCount + 1 else argCount) m
    else (argCount, m.read (arg.add i))

/-- `parse_string` -/
def parseString (arg : Ptr Area) (args : Nat → Ptr Area) (maxArgs maxSize : Nat) (m : Mem) :
    Int × Mem :=
  if m.get arg = 0 then (-1, m.read arg)
  else
    let (i, m) := scanWhile isSpace arg bufferSize 0 (m.read arg)
    let (argCount, m) := parseLoop arg args maxArgs maxSize bufferSize i 0 m
    (argCount, m)

/-- The copy of a string into an array of `size` bytes, as `analize_arg` makes it. -/
def copyString (dest src : Ptr Area) (length size : Nat) (m : Mem) : Mem :=
  (strncpy dest src length m).store (dest.add (size - 1)) 0

/-- The loop of `analize_arg` that copies the rows. -/
def copyRows (args tempArgs : Nat → Ptr Area) (maxSize : Nat) : Nat → Nat → Mem → Mem
  | 0, _, m => m
  | n + 1, i, m =>
    copyRows args tempArgs maxSize n (i + 1) (copyString (args i) (tempArgs i) maxSize maxSize m)

/-- The test of `analize_arg` for the word `&`, with the number of words without it. -/
def background (tempArgs : Nat → Ptr Area) (numArgs : Int) (m : Mem) : Int × Int × Mem :=
  if numArgs > 0 then
    let (difference, m) := strcmp (tempArgs (numArgs - 1).toNat) [38] m
    if difference = 0 then (1, numArgs - 1, m) else (0, numArgs, m)
  else (0, numArgs, m)

/-- `temp_args[i]` -/
def tempArgs (maxSize i : Nat) : Ptr Area := ⟨.temp, maxSize * i⟩

/-- `analize_arg` -/
def analizeArg (arg : Ptr Area) (args : Nat → Ptr Area) (expectedArgs maxSize : Nat) (m : Mem) :
    Int × Mem :=
  if m.get arg = 0 then (if expectedArgs = 0 then 0 else -1, m.read arg)
  else
    let buffer : Ptr Area := ⟨.buffer, 0⟩
    let m := copyString buffer arg (bufferSize - 1) bufferSize (m.read arg)
    let (numArgs, m) := parseString buffer (tempArgs maxSize) (expectedArgs + 2) maxSize m
    if numArgs < 0 then (-1, m)
    else
      let (hasBackground, numArgs, m) := background (tempArgs maxSize) numArgs m
      if numArgs ≠ expectedArgs then (-1, m)
      else (hasBackground, copyRows args (tempArgs maxSize) maxSize expectedArgs 0 m)

/-! ## 1. The words -/

/-- The words between the spaces. -/
def words (s : List UInt8) : List (List UInt8) := (s.splitOn 32).filter (· ≠ [])

section

variable {s t w r : List UInt8} {c : UInt8} {arg dest : Ptr Area} {maxSize fuel i j k n : Nat}
  {m m' : Mem}

theorem words_cons (hw : 32 ∉ w) : words (w ++ 32 :: s) = if w = [] then words s else w :: words s := by
  rw [words, List.splitOn_append_cons_self_of_not_mem hw, List.filter_cons]
  by_cases h : w = []
  · rw [if_pos h, if_neg (by simpa using h)]
    rfl
  · rw [if_neg h, if_pos (by simpa using h)]
    rfl

theorem words_single (hw : 32 ∉ w) (hne : w ≠ []) : words w = [w] := by
  rw [words, List.splitOn_eq_singleton hw, List.filter_cons, if_pos (by simpa using hne),
    List.filter_nil]

/-- Spaces in front. -/
theorem words_dropWhile : words (s.dropWhile isSpace) = words s := by
  induction s with
  | nil => rfl
  | cons c s ih =>
    by_cases hc : c = 32
    · rw [hc, List.dropWhile_cons_of_pos rfl, ih]
      exact (words_cons List.not_mem_nil).symm
    · rw [List.dropWhile_cons_of_neg (by simpa [isSpace] using hc)]

/-- The first word, and those behind it. -/
theorem words_takeWhile (hs : 0 ∉ s) (hne : s.takeWhile inWord ≠ []) :
    words s = s.takeWhile inWord :: words ((s.dropWhile inWord).dropWhile isSpace) := by
  have hw : 32 ∉ s.takeWhile inWord := fun h =>
    absurd (List.all_eq_true.mp List.all_takeWhile 32 h) (by decide)
  rw [words_dropWhile]
  conv_lhs => rw [← List.takeWhile_append_dropWhile (p := inWord) (l := s)]
  rcases hr : s.dropWhile inWord with - | ⟨c, r⟩
  · rw [List.append_nil, words_single hw hne]
    rfl
  · have hin : ¬ inWord c = true := by
      have hhead := List.head?_dropWhile_not inWord s
      rw [hr] at hhead
      simpa using hhead
    have hc : c = 32 := by
      have hmem : c ∈ s := (List.dropWhile_sublist inWord).subset (hr ▸ List.mem_cons_self)
      have hzero : c ≠ 0 := fun h => hs (h ▸ hmem)
      simpa [inWord, hzero, isSpace] using hin
    rw [hc, words_cons hw, if_neg hne]
    exact congrArg _ (words_cons List.not_mem_nil).symm

/-! The loops of `parse_string`: what they may access, and what they do to a string. -/

/-- Reads in one array, and writes in a range of another one. -/
def Copies (src dest : Area) (lo hi : Nat) : Access Area → Prop
  | .read o _ => o = src
  | .write o i => o = dest ∧ lo ≤ i ∧ i < hi

theorem Copies.mono {src o : Area} {lo hi lo' hi' : Nat} (hlo : lo' ≤ lo) (hhi : hi ≤ hi')
    {a : Access Area} (h : Copies src o lo hi a) : Copies src o lo' hi' a := by
  cases a with
  | read o' i => exact h
  | write o' i => exact ⟨h.1, Nat.le_trans hlo h.2.1, Nat.lt_of_lt_of_le h.2.2 hhi⟩

theorem scanWhile_copies {p : UInt8 → Bool} {o : Area} {lo hi : Nat} (fuel i : Nat) :
    Accessed (Copies arg.array o lo hi) m (scanWhile p arg fuel i m).2 := by
  refine scanWhile_accessed.mono ?_
  rintro a ⟨k, rfl⟩
  rfl

theorem copyWord_copies (arg dest : Ptr Area) (maxSize fuel i j : Nat) (m : Mem) : Accessed
    (Copies arg.array dest.array (dest.offset + j) (dest.offset + (maxSize - 1))) m
    (copyWord arg dest maxSize fuel i j m).2.2 := by
  induction fuel generalizing i j m with
  | zero => exact .refl
  | succ fuel ih =>
    rw [copyWord]
    split
    · next h =>
      refine Accessed.trans (.store (dest.add j) _ (.read (arg.add i) .refl rfl) ?_)
        ((ih ..).mono fun a => Copies.mono (by omega) (Nat.le_refl _))
      exact ⟨rfl, Nat.le_refl _, Nat.add_lt_add_left h.2 _⟩
    · exact .read _ .refl rfl

/-- What is copied, and where the loop stops. -/
theorem copyWord_eq (maxSize j : Nat) (hne : dest.array ≠ arg.array)
    (h : StringAt (m.bytes arg.array) (arg.offset + i) s) (hfuel : s.length < fuel) :
    ∃ w, w = (s.takeWhile inWord).take (maxSize - 1 - j) ∧
      (copyWord arg dest maxSize fuel i j m).1 = i + w.length ∧
      (copyWord arg dest maxSize fuel i j m).2.1 = j + w.length ∧
      loadFrom ((copyWord arg dest maxSize fuel i j m).2.2.bytes dest.array) (dest.offset + j)
        w.length = w := by
  induction s generalizing i j m fuel with
  | nil =>
    obtain ⟨fuel, rfl⟩ := Nat.exists_eq_succ_of_ne_zero (Nat.ne_of_gt hfuel)
    have hget : m.get (arg.add i) = 0 := stringAt_nil.mp h
    have hstop : ¬ (inWord (m.get (arg.add i)) = true ∧ j < maxSize - 1) := by
      rw [hget]
      exact fun hin => absurd hin.1 (by decide)
    rw [copyWord, if_neg hstop]
    exact ⟨[], by simp, rfl, rfl, rfl⟩
  | cons c s ih =>
    obtain ⟨fuel, rfl⟩ := Nat.exists_eq_succ_of_ne_zero (Nat.ne_of_gt (Nat.lt_of_le_of_lt (Nat.zero_le _) hfuel))
    obtain ⟨hget, hs⟩ := stringAt_cons.mp h
    have hget : m.get (arg.add i) = c := hget
    rw [copyWord, hget]
    by_cases hin : inWord c = true
    · by_cases hroom : j < maxSize - 1
      · rw [if_pos ⟨hin, hroom⟩, List.takeWhile_cons_of_pos hin]
        have hs' : StringAt (((m.read (arg.add i)).store (dest.add j) c).bytes arg.array)
            (arg.offset + (i + 1)) s := by
          refine hs.congr fun x _ => ?_
          rw [Arrays.store_bytes, if_neg fun hand => hne hand.1.symm]
          rfl
        obtain ⟨w, hw, hi, hj, hload⟩ := ih (j + 1) hs' (Nat.lt_of_succ_lt_succ hfuel)
        have hfirst : (copyWord arg dest maxSize fuel (i + 1) (j + 1)
            ((m.read (arg.add i)).store (dest.add j) c)).2.2.bytes dest.array (dest.offset + j) = c := by
          rw [(copyWord_copies ..).frame (fun hand => absurd hand.2.1 (by omega))]
          exact Arrays.store_bytes_self
        refine ⟨c :: w, ?_, ?_, ?_, ?_⟩
        · rw [hw, ← List.take_succ_cons]
          congr 1
          omega
        · rw [hi, List.length_cons]
          omega
        · rw [hj, List.length_cons]
          omega
        · rw [List.length_cons, Nat.add_comm w.length, loadFrom_add, Nat.add_assoc, hload]
          exact congrArg (· :: w) hfirst
      · rw [if_neg fun hand => hroom hand.2]
        have hzero : maxSize - 1 - j = 0 := Nat.sub_eq_zero_of_le (Nat.le_of_not_lt hroom)
        exact ⟨[], by rw [hzero, List.take_zero], rfl, rfl, rfl⟩
    · rw [if_neg fun hand => hin hand.1, List.takeWhile_cons_of_neg hin]
      exact ⟨[], by rw [List.take_nil], rfl, rfl, rfl⟩

/-- A part of the first word is skipped. -/
theorem dropWhile_drop {p : UInt8 → Bool} (h : n ≤ (s.takeWhile p).length) :
    (s.drop n).dropWhile p = s.dropWhile p := by
  induction s generalizing n with
  | nil => rw [List.drop_nil]
  | cons c s ih =>
    cases n with
    | zero => rfl
    | succ n =>
      by_cases hc : p c = true
      · rw [List.takeWhile_cons_of_pos hc] at h
        rw [List.dropWhile_cons_of_pos hc, List.drop_succ_cons, ih (Nat.le_of_succ_le_succ h)]
      · rw [List.takeWhile_cons_of_neg hc] at h
        cases h

/-- What the body of the loop does with the next word. -/
structure NextWord (arg dest : Ptr Area) (maxSize : Nat) (s : List UInt8) (m : Mem)
    (out : Nat × Nat × Mem) : Prop where
  copies : Accessed (Copies arg.array dest.array dest.offset (dest.offset + maxSize)) m out.2.2
  rest : StringAt (out.2.2.bytes arg.array) (arg.offset + out.1)
    ((s.dropWhile inWord).dropWhile isSpace)
  some : 0 < out.2.1
  row : StringAt (out.2.2.bytes dest.array) dest.offset ((s.takeWhile inWord).take (maxSize - 1))

theorem Copies.frame {src o : Area} {lo hi : Nat} (hne : o ≠ src)
    (h : Accessed (Copies src o lo hi) m m') : m'.bytes src = m.bytes src :=
  h.frame_array fun _ hP => hne hP.1.symm

theorem parseWord_next (dest : Ptr Area) (hne : dest.array ≠ arg.array) (hsize : 2 ≤ maxSize)
    (h : StringAt (m.bytes arg.array) (arg.offset + i) s) (hword : s.takeWhile inWord ≠ [])
    (hfuel : s.length < fuel) :
    NextWord arg dest maxSize s m (parseWord arg dest maxSize fuel i m) := by
  obtain ⟨w, hw, hi, hj, hload⟩ := copyWord_eq maxSize 0 hne h hfuel
  have hcopy := copyWord_copies arg dest maxSize fuel i 0 m
  rw [parseWord]
  generalize copyWord arg dest maxSize fuel i 0 m = out at *
  obtain ⟨i₁, j₁, m₁⟩ := out
  obtain rfl : i₁ = i + w.length := hi
  obtain rfl : j₁ = w.length := hj.trans (Nat.zero_add _)
  dsimp only
  have hlen : w.length ≤ (s.takeWhile inWord).length := by
    rw [hw, List.length_take]
    exact Nat.min_le_right _ _
  have hmax : w.length ≤ maxSize - 1 := by
    rw [hw, List.length_take]
    exact Nat.min_le_left _ _
  have hpos : 0 < w.length := by
    rw [hw, List.length_take]
    exact Nat.lt_min.mpr ⟨by omega, List.length_pos_iff.mpr hword⟩
  -- the row
  have hm₂ : Accessed (Copies arg.array dest.array dest.offset (dest.offset + maxSize)) m
      (m₁.store (dest.add w.length) 0) :=
    .store _ _ (hcopy.mono fun a => Copies.mono (by omega) (by omega))
      ⟨rfl, Nat.le_add_right _ _, by simp only [Ptr.add_offset]; omega⟩
  have hrow : StringAt ((m₁.store (dest.add w.length) 0).bytes dest.array) dest.offset w := by
    rw [StringAt, loadFrom_add]
    congr 1
    · refine (loadFrom_congr fun x hx => ?_).trans hload
      rw [Arrays.store_bytes, if_neg]
      exact fun hand => Nat.ne_of_lt hx.2 hand.2
    · exact congrArg (· :: []) Arrays.store_bytes_self
  generalize m₁.store (dest.add w.length) 0 = m₂ at *
  -- the string behind the word
  have hle : w.length ≤ s.length := Nat.le_trans hlen (List.takeWhile_sublist _).length_le
  have hdrop : StringAt (m₂.bytes arg.array) (arg.offset + (i + w.length)) (s.drop w.length) := by
    rw [Copies.frame hne hm₂, ← Nat.add_assoc]
    exact h.drop hle
  have hlt : (s.drop w.length).length < fuel :=
    Nat.lt_of_le_of_lt (by rw [List.length_drop]; exact Nat.sub_le _ _) hfuel
  have hrest := hdrop.dropWhile inWord
  rw [Nat.add_assoc, ← scanWhile_eq (by decide) hdrop hlt, dropWhile_drop hlen,
    ← scanWhile_bytes (c := inWord) (p := arg)] at hrest
  have hlt' : (s.dropWhile inWord).length < fuel :=
    Nat.lt_of_le_of_lt (List.dropWhile_sublist _).length_le hfuel
  refine ⟨?_, ?_, hpos, ?_⟩
  · exact (hm₂.trans (scanWhile_copies ..)).trans (scanWhile_copies ..)
  · have hspaces := hrest.dropWhile isSpace
    rw [Nat.add_assoc, ← scanWhile_eq (by decide) hrest hlt'] at hspaces
    rw [scanWhile_bytes]
    exact hspaces
  · rw [scanWhile_bytes, scanWhile_bytes, ← Nat.sub_zero (maxSize - 1), ← hw]
    exact hrow

/-- The words that are found, from row `count` on. -/
structure Parsed (arg : Ptr Area) (maxArgs maxSize count : Nat) (s : List UInt8) (m : Mem)
    (out : Nat × Mem) : Prop where
  copies : Accessed (Copies arg.array .temp (maxSize * count) (maxSize * maxArgs)) m out.2
  number : out.1 = count + ((words s).take (maxArgs - count)).length
  rows : ∀ k w, ((words s).take (maxArgs - count))[k]? = some w →
    StringAt (out.2.bytes .temp) (maxSize * (count + k)) (w.take (maxSize - 1))

theorem parsed_stop {maxArgs count : Nat} (hstop : (words s).take (maxArgs - count) = [])
    (p : Ptr Area) (hp : p.array = arg.array) :
    Parsed arg maxArgs maxSize count s m (count, m.read p) := by
  refine ⟨.read _ .refl hp, ?_, ?_⟩
  · rw [hstop]
    rfl
  · intro k w hw
    rw [hstop] at hw
    cases hw

/-- The next word, and those that the rest of the loop finds. -/
theorem parsed_step {maxArgs count : Nat} {out : Nat × Mem} {p : Ptr Area}
    (hp : p.array = arg.array)
    (hcopies : Accessed (Copies arg.array .temp (maxSize * count) (maxSize * count + maxSize))
      (m.read p) m')
    (hrow : StringAt (m'.bytes .temp) (maxSize * count) (w.take (maxSize - 1)))
    (hroom : count < maxArgs)
    (hwords : (words s).take (maxArgs - count) = w :: (words r).take (maxArgs - (count + 1)))
    (hloop : Parsed arg maxArgs maxSize (count + 1) r m' out) :
    Parsed arg maxArgs maxSize count s m out := by
  obtain ⟨hcopies', hnumber, hrows⟩ := hloop
  have hnextRow : maxSize * count + maxSize = maxSize * (count + 1) := (Nat.mul_succ _ _).symm
  have hbelow : maxSize * (count + 1) ≤ maxSize * maxArgs := Nat.mul_le_mul_left _ hroom
  refine ⟨?_, ?_, ?_⟩
  · have hread : Accessed (Copies arg.array .temp (maxSize * count) (maxSize * maxArgs)) m
        (m.read p) := .read _ .refl hp
    refine (hread.trans (hcopies.mono fun a => Copies.mono (Nat.le_refl _) ?_)).trans
      (hcopies'.mono fun a => Copies.mono ?_ (Nat.le_refl _))
    · rw [hnextRow]
      exact hbelow
    · exact Nat.mul_le_mul_left _ (Nat.le_succ count)
  · rw [hnumber, hwords, List.length_cons]
    omega
  · rw [hwords]
    intro k v hv
    cases k with
    | zero =>
      obtain rfl : w = v := Option.some.inj hv
      refine hrow.congr fun x hx => (hcopies'.frame fun hand => ?_).symm
      have hlen : (w.take (maxSize - 1)).length ≤ maxSize - 1 := List.length_take_le _ _
      have hlow := hand.2.1
      have hhigh := hx.2
      have hpos : 0 < maxSize := Nat.pos_of_mul_pos_right (Nat.lt_of_le_of_lt (Nat.zero_le _) hand.2.2)
      omega
    | succ k =>
      have hindex : count + (k + 1) = count + 1 + k := by omega
      rw [hindex]
      exact hrows k v hv

/-- The loop of `parse_string` finds the words, up to `maxArgs` in all. -/
theorem parseLoop_eq (maxArgs : Nat) (hne : Area.temp ≠ arg.array) (hsize : 2 ≤ maxSize)
    (hs : 0 ∉ s) (hhead : s.head? ≠ some 32) (count : Nat)
    (h : StringAt (m.bytes arg.array) (arg.offset + i) s) (hfuel : s.length < fuel) :
    Parsed arg maxArgs maxSize count s m
      (parseLoop arg (tempArgs maxSize) maxArgs maxSize fuel i count m) := by
  induction fuel generalizing s i count m with
  | zero => cases hfuel
  | succ fuel ih =>
    rw [parseLoop]
    cases s with
    | nil =>
      have hget : m.get (arg.add i) = 0 := stringAt_nil.mp h
      rw [if_neg fun hand => hand.1 hget]
      exact parsed_stop (List.take_nil ..) _ rfl
    | cons c s =>
      have hget : m.get (arg.add i) = c := (stringAt_cons.mp h).1
      have hc : c ≠ 0 := fun hc => hs (hc ▸ List.mem_cons_self)
      have hin : inWord c = true := by
        simpa [inWord, isSpace, hc] using hhead
      by_cases hroom : count < maxArgs
      · rw [hget, if_pos ⟨hc, hroom⟩]
        have hword : (c :: s).takeWhile inWord ≠ [] := by
          rw [List.takeWhile_cons_of_pos hin]
          exact List.cons_ne_nil _ _
        have hnext := parseWord_next (tempArgs maxSize count) hne hsize
          (show StringAt ((m.read (arg.add i)).bytes arg.array) _ _ from h) hword hfuel
        generalize parseWord arg (tempArgs maxSize count) maxSize (fuel + 1) i
          (m.read (arg.add i)) = out at *
        obtain ⟨i', j, m'⟩ := out
        obtain ⟨hcopies, hrest, hpos, hrow⟩ := hnext
        dsimp only at *
        rw [if_pos hpos]
        have hzero : 0 ∉ ((c :: s).dropWhile inWord).dropWhile isSpace := fun hmem =>
          hs ((List.dropWhile_sublist _).subset ((List.dropWhile_sublist _).subset hmem))
        have hspace : (((c :: s).dropWhile inWord).dropWhile isSpace).head? ≠ some 32 := by
          intro hsome
          have hnot := List.head?_dropWhile_not isSpace ((c :: s).dropWhile inWord)
          rw [hsome] at hnot
          exact absurd hnot (by decide)
        have hlen : (((c :: s).dropWhile inWord).dropWhile isSpace).length < fuel := by
          rw [List.dropWhile_cons_of_pos hin]
          refine Nat.lt_of_le_of_lt ?_ (Nat.lt_of_succ_lt_succ hfuel)
          exact ((List.dropWhile_sublist _).trans (List.dropWhile_sublist _)).length_le
        have hloop := ih hzero hspace (count + 1) hrest hlen
        have hwords : (words (c :: s)).take (maxArgs - count) = (c :: s).takeWhile inWord ::
            (words (((c :: s).dropWhile inWord).dropWhile isSpace)).take (maxArgs - (count + 1)) := by
          rw [words_takeWhile hs hword, ← List.take_succ_cons]
          congr 1
          omega
        exact parsed_step (p := arg.add i) rfl hcopies hrow hroom hwords hloop
      · rw [if_neg fun hand => hroom hand.2]
        exact parsed_stop (by rw [Nat.sub_eq_zero_of_le (Nat.le_of_not_lt hroom), List.take_zero]) _ rfl

/-- `parse_string` on a string in a buffer. -/
theorem parseString_eq (arg : Ptr Area) (maxArgs maxSize : Nat) (hoffset : arg.offset = 0) (hne : Area.temp ≠ arg.array)
    (hsize : 2 ≤ maxSize) (hs : 0 ∉ s) (hnil : s ≠ []) (h : StringAt (m.bytes arg.array) 0 s)
    (hlen : s.length < bufferSize) :
    ∃ (num : Nat) (m' : Mem), parseString arg (tempArgs maxSize) maxArgs maxSize m = ((num : Int), m') ∧
      Parsed arg maxArgs maxSize 0 s m (num, m') := by
  have hfirst : m.get arg ≠ 0 := by
    obtain ⟨c, s, rfl⟩ := List.exists_cons_of_ne_nil hnil
    have hget : m.get arg = c := by
      rw [Arrays.get, hoffset]
      exact (stringAt_cons.mp h).1
    rw [hget]
    exact fun hc => hs (hc ▸ List.mem_cons_self)
  have hstring : StringAt ((m.read arg).bytes arg.array) (arg.offset + 0) s := by
    rw [hoffset]
    exact h
  have hscan := scanWhile_eq (c := isSpace) (by decide) hstring hlen
  have hrest := hstring.dropWhile isSpace
  rw [Nat.add_assoc, ← hscan, ← scanWhile_bytes (c := isSpace) (p := arg)] at hrest
  have hspace : (s.dropWhile isSpace).head? ≠ some 32 := by
    intro hsome
    have hnot := List.head?_dropWhile_not isSpace s
    rw [hsome] at hnot
    exact absurd hnot (by decide)
  have hloop := parseLoop_eq maxArgs hne hsize
    (fun hmem => hs ((List.dropWhile_sublist _).subset hmem)) hspace 0 hrest
    (Nat.lt_of_le_of_lt (List.dropWhile_sublist _).length_le hlen)
  have hread : Accessed (Copies arg.array .temp (maxSize * 0) (maxSize * maxArgs)) m
      (scanWhile isSpace arg bufferSize 0 (m.read arg)).2 :=
    .trans (.read _ .refl rfl) (scanWhile_copies ..)
  rw [parseString, if_neg hfirst]
  dsimp only
  generalize scanWhile isSpace arg bufferSize 0 (m.read arg) = out at *
  generalize parseLoop arg (tempArgs maxSize) maxArgs maxSize bufferSize out.1 0 out.2 = out' at *
  obtain ⟨hcopies, hnumber, hrows⟩ := hloop
  rw [words_dropWhile] at hnumber hrows
  exact ⟨out'.1, out'.2, rfl, hread.trans hcopies, hnumber, hrows⟩

/-! `strcmp`, and the copies. -/

theorem toInt8_inj {c d : UInt8} : c.toInt8.toInt = d.toInt8.toInt ↔ c = d := by
  rw [Int8.toInt_inj]
  exact ⟨fun h => by rw [← UInt8.toUInt8_toInt8 c, h, UInt8.toUInt8_toInt8], fun h => h ▸ rfl⟩

theorem strcmp_eq_zero {p : Ptr Area} (ht : 0 ∉ t) (hw : 0 ∉ w)
    (h : StringAt (m.bytes p.array) p.offset w) : (strcmp p t m).1 = 0 ↔ w = t := by
  induction t generalizing p m w with
  | nil =>
    cases w with
    | nil =>
      have hget : m.get p = 0 := stringAt_nil.mp h
      rw [strcmp, hget]
      exact iff_of_true rfl rfl
    | cons c w =>
      have hget : m.get p = c := (stringAt_cons.mp h).1
      have hc : c ≠ 0 := fun hc => hw (hc ▸ List.mem_cons_self)
      rw [strcmp, hget]
      exact iff_of_false (fun heq => hc (toInt8_inj.mp heq)) (List.cons_ne_nil _ _)
  | cons d t ih =>
    have hd : d ≠ 0 := fun hd => ht (hd ▸ List.mem_cons_self)
    cases w with
    | nil =>
      have hget : m.get p = 0 := stringAt_nil.mp h
      rw [strcmp, hget, if_neg fun hand => hand.1 rfl]
      exact iff_of_false (fun heq => hd (toInt8_inj.mp (Int.sub_eq_zero.mp heq)).symm)
        (List.cons_ne_nil _ _).symm
    | cons c w =>
      have hget : m.get p = c := (stringAt_cons.mp h).1
      have hc : c ≠ 0 := fun hc => hw (hc ▸ List.mem_cons_self)
      rw [strcmp, hget]
      by_cases hcd : c = d
      · rw [if_pos ⟨hc, hcd⟩, hcd, List.cons_inj_right]
        exact ih (fun hmem => ht (List.mem_cons_of_mem _ hmem))
          (fun hmem => hw (List.mem_cons_of_mem _ hmem)) (stringAt_cons.mp h).2
      · rw [if_neg fun hand => hcd hand.2]
        exact iff_of_false (fun heq => hcd (toInt8_inj.mp (Int.sub_eq_zero.mp heq)))
          (fun heq => hcd (List.cons.inj heq).1)

theorem strcmp_accessed {p : Ptr Area} {P : Access Area → Prop} (hP : ∀ k, P (.read p.array k)) :
    Accessed P m (strcmp p t m).2 := by
  induction t generalizing p m with
  | nil => exact .read _ .refl (hP _)
  | cons d t ih =>
    rw [strcmp]
    split
    · exact Accessed.trans (.read _ .refl (hP _)) (ih hP)
    · exact .read _ .refl (hP _)

section

variable {size length : Nat} {src : Ptr Area}

/-- A copy writes one byte more than the length. -/
theorem copyString_copies (dest src : Ptr Area) (hsize : size ≤ length + 1) :
    Accessed (Copies src.array dest.array dest.offset (dest.offset + (length + 1))) m
      (copyString dest src length size m) := by
  have hcopy : Accessed (Copies src.array dest.array dest.offset (dest.offset + (length + 1))) m
      (copyFrom dest src length 0 m) := by
    refine copyFrom_accessed.mono ?_
    rintro a ⟨k, -, hk, rfl | rfl⟩
    · rfl
    · exact ⟨rfl, Nat.le_add_right _ _, by omega⟩
  refine .store _ _ (.store _ _ hcopy ?_) ?_
  · exact ⟨rfl, Nat.le_add_right _ _, Nat.lt_succ_self _⟩
  · exact ⟨rfl, Nat.le_add_right _ _, by simp only [Ptr.add_offset]; omega⟩

theorem copyString_bytes (hne : dest.array ≠ src.array) (hsize : size ≤ length + 1)
    (hk : k < size - 1) : (copyString dest src length size m).bytes dest.array (dest.offset + k) =
      m.bytes src.array (src.offset + k) := by
  rw [copyString, strncpy, Arrays.store_bytes, if_neg (fun hand => ?_), Arrays.store_bytes,
    if_neg (fun hand => ?_), copyFrom_bytes hne (Nat.zero_le k) (by omega)]
  · have hoffset := Nat.add_left_cancel hand.2
    omega
  · have hoffset := Nat.add_left_cancel hand.2
    omega

/-- A string that fits is copied. -/
theorem copyString_eq (dest src : Ptr Area) (hne : dest.array ≠ src.array) (hsize : size ≤ length + 1)
    (h : StringAt (m.bytes src.array) src.offset w) (hw : w.length < size) :
    StringAt ((copyString dest src length size m).bytes dest.array) dest.offset w := by
  rw [StringAt, loadFrom_add] at h ⊢
  obtain ⟨hchars, hzero⟩ := List.append_inj h length_loadFrom
  congr 1
  · refine Eq.trans (List.map_congr_left fun k hk => ?_) hchars
    have hk := List.mem_range.mp hk
    exact copyString_bytes hne hsize (by omega)
  · refine congrArg (· :: []) ?_
    rcases Nat.lt_or_eq_of_le (Nat.le_sub_one_of_lt hw) with hlt | hlast
    · exact (copyString_bytes hne hsize hlt).trans (List.cons.inj hzero).1
    · have hend : dest.offset + w.length + 0 = dest.offset + (size - 1) := by rw [hlast, Nat.add_zero]
      exact (congrArg _ hend).trans Arrays.store_bytes_self

end

/-- The rows of the caller, each at its offset. -/
def argRows (rows : Nat → Nat) (i : Nat) : Ptr Area := ⟨.rows, rows i⟩

/-- The accesses of the loop over the rows from `i` to `j`: one byte behind each row is
written. -/
def CopiesRows (rows : Nat → Nat) (maxSize i j : Nat) : Access Area → Prop
  | .read o _ => o = .temp
  | .write o x => o = .rows ∧ ∃ k, i ≤ k ∧ k < j ∧ rows k ≤ x ∧ x ≤ rows k + maxSize

theorem copyRows_accessed {rows : Nat → Nat} :
    Accessed (CopiesRows rows maxSize i (i + n)) m
      (copyRows (argRows rows) (tempArgs maxSize) maxSize n i m) := by
  induction n generalizing i m with
  | zero => exact .refl
  | succ n ih =>
    refine (Accessed.mono (copyString_copies _ _ (Nat.le_succ _)) ?_).trans (ih.mono ?_)
    · rintro (⟨o, x⟩ | ⟨o, x⟩) ha
      · exact ha
      · exact ⟨ha.1, i, Nat.le_refl _, Nat.lt_add_of_pos_right (Nat.succ_pos n), ha.2.1,
          Nat.le_of_lt_succ ha.2.2⟩
    · rintro (⟨o, x⟩ | ⟨o, x⟩) ha
      · exact ha
      · obtain ⟨ho, k, hle, hlt, hx⟩ := ha
        exact ⟨ho, k, Nat.le_of_succ_le hle, by omega, hx⟩

/-- Rows that do not overlap are copied, also when the byte behind a row is the next one's. -/
theorem copyRows_eq {rows : Nat → Nat} {v : Nat → List UInt8}
    (hrows : ∀ k l, k < l → l < i + n → rows k + maxSize ≤ rows l)
    (hv : ∀ k, i ≤ k → k < i + n → (v k).length < maxSize ∧
      StringAt (m.bytes .temp) (maxSize * k) (v k)) (hi : i ≤ k) (hk : k < i + n) :
    StringAt ((copyRows (argRows rows) (tempArgs maxSize) maxSize n i m).bytes .rows) (rows k)
      (v k) := by
  induction n generalizing i m with
  | zero => exact absurd hk (Nat.not_lt.mpr hi)
  | succ n ih =>
    rw [copyRows]
    rcases Nat.eq_or_lt_of_le hi with rfl | hlt
    · obtain ⟨hlen, hstring⟩ := hv i hi hk
      have hcopied := copyString_eq (argRows rows i) (tempArgs maxSize i) (fun h => nomatch h)
        (Nat.le_succ maxSize) hstring hlen
      refine hcopied.congr fun x hx => (copyRows_accessed.frame ?_).symm
      rintro ⟨-, l, hle, hl, hx', -⟩
      have hsep := hrows i l hle (by omega)
      have hhigh := hx.2
      simp only [argRows] at hhigh
      omega
    · have hend : i + 1 + n = i + (n + 1) := by omega
      refine ih (fun k l hkl hl => hrows k l hkl (hend ▸ hl)) (fun k hle hl => ?_) hlt (hend ▸ hk)
      obtain ⟨hlen, hstring⟩ := hv k (Nat.le_of_succ_le hle) (hend ▸ hl)
      refine ⟨hlen, ?_⟩
      have hcopies : Accessed (Copies .temp .rows (rows i) (rows i + (maxSize + 1))) m
          (copyString (argRows rows i) (tempArgs maxSize i) maxSize maxSize m) :=
        copyString_copies (argRows rows i) (tempArgs maxSize i) (Nat.le_succ maxSize)
      rw [Copies.frame (by decide) hcopies]
      exact hstring

/-- One byte behind each row is written. -/
theorem copyRows_writes {rows : Nat → Nat} (hi : i ≤ k) (hk : k < i + n) :
    .write .rows (rows k + maxSize) ∈
      (copyRows (argRows rows) (tempArgs maxSize) maxSize n i m).log := by
  induction n generalizing i m with
  | zero => exact absurd hk (Nat.not_lt.mpr hi)
  | succ n ih =>
    rw [copyRows]
    rcases Nat.eq_or_lt_of_le hi with rfl | hlt
    · exact copyRows_accessed.log_subset (List.mem_cons_of_mem _ List.mem_cons_self)
    · exact ih hlt (by omega)

theorem subset_of_mem_splitOn (h : w ∈ s.splitOn 32) : w ⊆ s := by
  induction s generalizing w with
  | nil =>
    rw [List.splitOn_nil, List.mem_singleton] at h
    exact h ▸ List.Subset.refl _
  | cons c s ih =>
    rw [List.splitOn_cons_eq_if_modifyHead] at h
    split at h
    · rcases List.mem_cons.mp h with rfl | h
      · exact List.nil_subset _
      · exact List.subset_cons_of_subset _ (ih h)
    · rcases hsplit : s.splitOn 32 with - | ⟨v, vs⟩
      · exact absurd hsplit (List.splitOn_ne_nil 32 s)
      · rw [hsplit, List.modifyHead_cons] at h
        rcases List.mem_cons.mp h with rfl | h
        · exact List.cons_subset_cons c (ih (hsplit ▸ List.mem_cons_self))
        · exact List.subset_cons_of_subset _ (ih (hsplit ▸ List.mem_cons_of_mem v h))

theorem zero_notMem_words (hs : 0 ∉ s) (hw : w ∈ words s) : 0 ∉ w :=
  fun h => hs (subset_of_mem_splitOn (List.mem_filter.mp hw).1 h)

/-! ## 2. `analize_arg` -/

/-- As many words as arguments are expected, and not for the background. -/
def Foreground (expected : Nat) (ws : List (List UInt8)) : Prop :=
  ws.length = expected ∧ ws.getLast? ≠ some [38]

/-- The arguments, and a word `&` behind them. -/
def Background (expected : Nat) (ws : List (List UInt8)) : Prop :=
  ws.length = expected + 1 ∧ ws.getLast? = some [38]

instance (expected : Nat) (ws : List (List UInt8)) : Decidable (Foreground expected ws) :=
  inferInstanceAs (Decidable (_ ∧ _))

instance (expected : Nat) (ws : List (List UInt8)) : Decidable (Background expected ws) :=
  inferInstanceAs (Decidable (_ ∧ _))

/-- What is to be returned for the words of an argument. -/
def verdict (expected : Nat) (ws : List (List UInt8)) : Int :=
  if Background expected ws then 1 else if Foreground expected ws then 0 else -1

/-- The word `&` at the end of the words that are looked at. -/
def marked (ws : List (List UInt8)) : Int := if ws.getLast? = some [38] then 1 else 0

/-- Two words more than expected are enough to tell. -/
theorem verdict_eq (expected : Nat) (ws : List (List UInt8)) :
    verdict expected ws =
      if ((ws.take (expected + 2)).length : Int) - marked (ws.take (expected + 2)) ≠ expected then -1
      else marked (ws.take (expected + 2)) := by
  by_cases hlen : ws.length ≤ expected + 2
  · rw [List.take_of_length_le hlen, marked]
    by_cases hlast : ws.getLast? = some [38]
    · have hfore : ¬ Foreground expected ws := fun h => h.2 hlast
      rw [if_pos hlast, verdict, if_neg hfore]
      by_cases hback : Background expected ws
      · have hlength := hback.1
        rw [if_pos hback, if_neg (by omega)]
      · have hlength : ws.length ≠ expected + 1 := fun h => hback ⟨h, hlast⟩
        rw [if_neg hback, if_pos (by omega)]
    · have hback : ¬ Background expected ws := fun h => hlast h.2
      rw [if_neg hlast, verdict, if_neg hback]
      by_cases hfore : Foreground expected ws
      · have hlength := hfore.1
        rw [if_pos hfore, if_neg (by omega)]
      · have hlength : ws.length ≠ expected := fun h => hfore ⟨h, hlast⟩
        rw [if_neg hfore, if_pos (by omega)]
  · have htake : (ws.take (expected + 2)).length = expected + 2 := by
      rw [List.length_take]
      exact Nat.min_eq_left (Nat.le_of_not_le hlen)
    have hmarked : marked (ws.take (expected + 2)) ≤ 1 := by
      unfold marked
      split <;> decide
    have hback : ¬ Background expected ws := fun h => hlen (h.1 ▸ Nat.le_succ _)
    have hfore : ¬ Foreground expected ws := fun h => hlen (h.1 ▸ Nat.le_add_right _ _)
    rw [verdict, if_neg hback, if_neg hfore, htake, if_pos (by omega)]

theorem take_eq_singleton (hn : 2 ≤ n) : w.take n = [c] ↔ w = [c] := by
  by_cases hw : w.length ≤ n
  · rw [List.take_of_length_le hw]
  · refine iff_of_false (fun h => ?_) (fun h => ?_)
    · have hlen := congrArg List.length h
      rw [List.length_take, List.length_singleton] at hlen
      omega
    · rw [h, List.length_singleton] at hw
      omega

theorem background_eq {ws : List (List UInt8)} {P : Access Area → Prop} (hsize : 3 ≤ maxSize)
    (hws : ∀ w ∈ ws, 0 ∉ w) (hrows : ∀ k w, ws[k]? = some w →
      StringAt (m.bytes .temp) (maxSize * k) (w.take (maxSize - 1)))
    (hP : ∀ k, P (.read .temp k)) :
    ∃ m', background (tempArgs maxSize) ws.length m = (marked ws, ws.length - marked ws, m') ∧
      Accessed P m m' := by
  unfold background
  rcases List.eq_nil_or_concat ws with rfl | ⟨init, w, hconcat⟩
  · exact ⟨m, rfl, .refl⟩
  · rw [List.concat_eq_append] at hconcat
    subst hconcat
    have hlen : (init ++ [w]).length = init.length + 1 := by simp
    have hindex : (((init ++ [w]).length : Int) - 1).toNat = init.length := by
      rw [hlen]
      omega
    have hrow := hrows init.length w (by simp)
    have hzero : 0 ∉ w.take (maxSize - 1) := fun hmem =>
      hws w (List.mem_append_right _ (List.mem_singleton_self w)) (List.mem_of_mem_take hmem)
    have hcmp : (strcmp (tempArgs maxSize init.length) [38] m).1 = 0 ↔ w = [38] :=
      (strcmp_eq_zero (by decide) hzero hrow).trans (take_eq_singleton (by omega))
    have haccess : Accessed P m (strcmp (tempArgs maxSize init.length) [38] m).2 :=
      strcmp_accessed hP
    have hmarked : marked (init ++ [w]) = if w = [38] then 1 else 0 := by
      simp [marked]
    rw [if_pos (by omega), hindex, hmarked]
    dsimp only
    by_cases hw : w = [38]
    · rw [if_pos (hcmp.mpr hw), if_pos hw]
      exact ⟨_, rfl, haccess⟩
    · rw [if_neg (fun h => hw (hcmp.mp h)), if_neg hw]
      exact ⟨_, by simp, haccess⟩

/-- The reads, and the writes to the local arrays. -/
def Local (expected maxSize : Nat) : Access Area → Prop
  | .read _ _ => True
  | .write .buffer i => i < bufferSize
  | .write .temp i => i < maxSize * (expected + 2)
  | .write _ _ => False

/-- A run of `analize_arg` on an argument that is not empty: in the end the rows are copied if
the words are accepted. -/
structure Analized (expected maxSize : Nat) (s : List UInt8) (m m' : Mem) : Prop where
  accessed : Accessed (Local expected maxSize) m m'
  read : .read .arg (bufferSize - 2) ∈ m'.log
  rows : ∀ k w, ((words s).take (expected + 2))[k]? = some w →
    StringAt (m'.bytes .temp) (maxSize * k) (w.take (maxSize - 1))

theorem Copies.local {src dest : Area} {lo hi expected : Nat}
    (hin : ∀ i, i < hi → Local expected maxSize (.write dest i)) {a : Access Area}
    (h : Copies src dest lo hi a) : Local expected maxSize a := by
  cases a with
  | read o i => trivial
  | write o i =>
    obtain ⟨rfl, -, hi⟩ := h
    exact hin i hi

theorem copyString_reads {size length : Nat} {src : Ptr Area} (hk : k < length) :
    .read src.array (src.offset + k) ∈ (copyString dest src length size m).log :=
  List.mem_cons_of_mem _ (List.mem_cons_of_mem _ (copyFrom_reads (Nat.zero_le k) (by omega)))

theorem marked_cases (ws : List (List UInt8)) : marked ws = 1 ∨ marked ws = 0 := by
  unfold marked
  split
  · exact .inl rfl
  · exact .inr rfl

/-- The argument in the array `buffer`. -/
theorem argument_copied {expected : Nat} (hlen : s.length < bufferSize)
    (h : StringAt (m.bytes .arg) 0 s) :
    ∃ m₁, copyString ⟨.buffer, 0⟩ ⟨.arg, 0⟩ (bufferSize - 1) bufferSize (m.read ⟨.arg, 0⟩) = m₁ ∧
      Accessed (Local expected maxSize) m m₁ ∧ .read .arg (bufferSize - 2) ∈ m₁.log ∧
      StringAt (m₁.bytes .buffer) 0 s := by
  have hcopies : Accessed (Copies .arg .buffer 0 (0 + (bufferSize - 1 + 1))) (m.read ⟨.arg, 0⟩)
      (copyString ⟨.buffer, 0⟩ ⟨.arg, 0⟩ (bufferSize - 1) bufferSize (m.read ⟨.arg, 0⟩)) :=
    copyString_copies ⟨.buffer, 0⟩ ⟨.arg, 0⟩ (by decide)
  have hread : .read .arg (0 + (bufferSize - 2)) ∈
      (copyString ⟨.buffer, 0⟩ ⟨.arg, 0⟩ (bufferSize - 1) bufferSize (m.read ⟨.arg, 0⟩)).log :=
    copyString_reads (by decide)
  have hstring : StringAt ((m.read ⟨.arg, 0⟩).bytes .arg) 0 s := h
  have hbound : bufferSize ≤ bufferSize - 1 + 1 := by decide
  have hbuffer := copyString_eq ⟨.buffer, 0⟩ ⟨.arg, 0⟩ (fun h => nomatch h) hbound hstring hlen
  have hwrite : ∀ i, i < 0 + (bufferSize - 1 + 1) → Local expected maxSize (.write .buffer i) := by
    intro i hi
    rw [Nat.zero_add, Nat.sub_add_cancel (by decide)] at hi
    exact hi
  have hfirst : Accessed (Local expected maxSize) m (m.read ⟨.arg, 0⟩) := .read _ .refl trivial
  rw [Nat.zero_add] at hread
  generalize copyString ⟨.buffer, 0⟩ ⟨.arg, 0⟩ (bufferSize - 1) bufferSize (m.read ⟨.arg, 0⟩) = m₁
    at *
  exact ⟨m₁, rfl, hfirst.trans (hcopies.mono fun _ => Copies.local hwrite), hread, hbuffer⟩

theorem analizeArg_run (args : Nat → Ptr Area) (expected : Nat) (hsize : 3 ≤ maxSize)
    (hs : 0 ∉ s) (hnil : s ≠ []) (hlen : s.length < bufferSize)
    (h : StringAt (m.bytes .arg) 0 s) :
    ∃ m', Analized expected maxSize s m m' ∧ analizeArg ⟨.arg, 0⟩ args expected maxSize m =
      (verdict expected (words s), if verdict expected (words s) = -1 then m'
        else copyRows args (tempArgs maxSize) maxSize expected 0 m') := by
  have hfirst : m.get ⟨.arg, 0⟩ ≠ 0 := by
    obtain ⟨c, s, rfl⟩ := List.exists_cons_of_ne_nil hnil
    have hget : m.get ⟨.arg, 0⟩ = c := (stringAt_cons.mp h).1
    rw [hget]
    exact fun hc => hs (hc ▸ List.mem_cons_self)
  rw [analizeArg, if_neg hfirst]
  dsimp only
  obtain ⟨m₁, hcopy, hlocal₁, hread, hbuffer⟩ := argument_copied (m := m) hlen h
  rw [hcopy]
  -- the words
  obtain ⟨num, m₂, hparse, hcopies₂, hnumber, hrows⟩ :=
    parseString_eq ⟨.buffer, 0⟩ (expected + 2) maxSize rfl (fun h => nomatch h) (by omega) hs hnil
      hbuffer hlen
  obtain rfl : num = ((words s).take (expected + 2)).length := hnumber.trans (Nat.zero_add _)
  simp only [Nat.zero_add, Nat.sub_zero] at hrows
  have hlocal₂ : Accessed (Local expected maxSize) m m₂ :=
    hlocal₁.trans (hcopies₂.mono fun _ => Copies.local fun i hi => hi)
  obtain ⟨m₃, hback, hreads⟩ := background_eq (P := fun a => ∃ k, a = .read .temp k) hsize
    (fun w hw => zero_notMem_words hs (List.mem_of_mem_take hw)) hrows fun k => ⟨k, rfl⟩
  have hlocal₃ : Accessed (Local expected maxSize) m₂ m₃ := by
    refine hreads.mono ?_
    rintro a ⟨k, rfl⟩
    trivial
  rw [hparse]
  dsimp only
  rw [if_neg (by omega), hback, verdict_eq]
  dsimp only
  refine ⟨m₃, ⟨hlocal₂.trans hlocal₃, ?_, fun k w hw => ?_⟩, ?_⟩
  · exact hreads.log_subset (hcopies₂.log_subset hread)
  · rw [hreads.frame_array fun i hi => nomatch hi.choose_spec]
    exact hrows k w hw
  · split
    · rfl
    · next h =>
      rcases marked_cases ((words s).take (expected + 2)) with hmarked | hmarked
      · rw [hmarked]
        rfl
      · rw [hmarked]
        rfl

theorem analizeArg_nil {args : Nat → Ptr Area} {expected : Nat} (h : StringAt (m.bytes .arg) 0 []) :
    analizeArg ⟨.arg, 0⟩ args expected maxSize m =
      (if expected = 0 then 0 else -1, m.read ⟨.arg, 0⟩) :=
  if_pos (stringAt_nil.mp h)

theorem verdict_nil (expected : Nat) :
    verdict expected (words []) = if expected = 0 then 0 else -1 := by
  have hback : ¬ Background expected (words []) := fun h => absurd h.1 (Nat.succ_ne_zero _).symm
  rw [verdict, if_neg hback]
  by_cases hzero : expected = 0
  · have hfore : Foreground expected (words []) := ⟨hzero.symm, by decide⟩
    rw [if_pos hfore, if_pos hzero]
  · have hfore : ¬ Foreground expected (words []) := fun h => hzero h.1.symm
    rw [if_neg hfore, if_neg hzero]

/-- Accepted words are not fewer than expected. -/
theorem le_length_of_verdict {expected : Nat} {ws : List (List UInt8)} (h : verdict expected ws ≠ -1) :
    expected ≤ ws.length := by
  by_cases hback : Background expected ws
  · exact hback.1 ▸ Nat.le_succ expected
  by_cases hfore : Foreground expected ws
  · exact Nat.le_of_eq hfore.1.symm
  · rw [verdict, if_neg hback, if_neg hfore] at h
    exact absurd rfl h

/-- Of an argument of at most 1023 characters the verdict on its words is returned, and the
rows hold the words, cut to the size of a row. -/
theorem analizeArg_eq {rows : Nat → Nat} {expected : Nat} (hsize : 3 ≤ maxSize)
    (hrows : ∀ k l, k < l → l < expected → rows k + maxSize ≤ rows l) (hs : 0 ∉ s)
    (hlen : s.length ≤ 1023) (h : StringAt (m.bytes .arg) 0 s) :
    (analizeArg ⟨.arg, 0⟩ (argRows rows) expected maxSize m).1 = verdict expected (words s) ∧
      (verdict expected (words s) ≠ -1 → ∀ k < expected, ∃ w, (words s)[k]? = some w ∧
        StringAt ((analizeArg ⟨.arg, 0⟩ (argRows rows) expected maxSize m).2.bytes .rows) (rows k)
          (w.take (maxSize - 1))) := by
  by_cases hnil : s = []
  · subst hnil
    rw [analizeArg_nil h, verdict_nil]
    refine ⟨rfl, fun haccept k hk => ?_⟩
    rw [if_neg (Nat.ne_of_gt (Nat.lt_of_le_of_lt (Nat.zero_le k) hk))] at haccept
    exact absurd rfl haccept
  obtain ⟨m', hrun, heq⟩ :=
    analizeArg_run (argRows rows) expected hsize hs hnil (Nat.lt_succ_of_le hlen) h
  rw [heq]
  refine ⟨rfl, fun haccept k hk => ?_⟩
  have hle := le_length_of_verdict haccept
  have hget : ∀ l < expected, (words s)[l]? = some ((words s).getD l []) := by
    intro l hl
    rw [List.getD_eq_getElem?_getD, List.getElem?_eq_getElem (Nat.lt_of_lt_of_le hl hle)]
    rfl
  refine ⟨_, hget k hk, ?_⟩
  rw [if_neg haccept]
  have hend : 0 + expected = expected := Nat.zero_add expected
  refine copyRows_eq (v := fun l => ((words s).getD l []).take (maxSize - 1))
    (fun l l' hl hl' => hrows l l' hl (hend ▸ hl')) (fun l _ hl => ⟨?_, ?_⟩) (Nat.zero_le k) (hend.symm ▸ hk)
  · exact Nat.lt_of_le_of_lt (List.length_take_le _ _) (by omega)
  · refine hrun.rows l _ ?_
    rw [List.getElem?_take_of_lt (by omega)]
    exact hget l (hend ▸ hl)

end

/-! ### The shell's words -/

/-- A string, as the shell has it. -/
def text (s : List UInt8) : List Char := s.map Char.ofUInt8

theorem ofUInt8_injective : Function.Injective Char.ofUInt8 :=
  fun _ _ h => UInt8.toUInt32_inj.mp (congrArg Char.val h)

theorem splitOn_map {α β : Type} [DecidableEq α] [DecidableEq β] {f : α → β}
    (hf : Function.Injective f) (a : α) (l : List α) :
    (l.map f).splitOn (f a) = (l.splitOn a).map (List.map f) := by
  induction l with
  | nil => rfl
  | cons c l ih =>
    have hbeq : (f c == f a) = (c == a) := by simp [hf.eq_iff]
    rw [List.map_cons, List.splitOn_cons_eq_if_modifyHead, List.splitOn_cons_eq_if_modifyHead, ih,
      hbeq]
    split
    · rfl
    · cases l.splitOn a <;> rfl

theorem text_words (s : List UInt8) :
    ((text s).splitOn ' ').filter (· ≠ []) = (words s).map text := by
  have hsplit : (text s).splitOn ' ' = (s.splitOn 32).map text := splitOn_map ofUInt8_injective 32 s
  rw [hsplit, words, List.filter_map]
  congr 1
  refine List.filter_congr fun w _ => ?_
  simp [text]

/-- The rows of the shell end with `&` when the words do. -/
theorem getLast?_rows {ws : List (List UInt8)} :
    (ws.map fun w => (text w).take 31).getLast? = some ['&'] ↔ ws.getLast? = some [38] := by
  have hword : ∀ w, (text w).take 31 = ['&'] ↔ w = [38] := by
    intro w
    have htake : (text w).take 31 = text (w.take 31) := List.map_take.symm
    rw [htake, ← take_eq_singleton (by decide : 2 ≤ 31)]
    exact (List.map_injective_iff.mpr ofUInt8_injective).eq_iff (b := [38])
  rw [List.getLast?_map]
  cases ws.getLast? with
  | none => simp
  | some w => simpa using hword w

/-- What `analize_arg` returns in the shell's model is the verdict on the words of the string. -/
theorem shell_analizeArg {s : List UInt8} (expected : Nat) (hlen : s.length ≤ 1023) :
    Shell.analizeArg (some (text s)) expected = verdict expected (words s) := by
  rcases s with - | ⟨c, s⟩
  · exact (verdict_nil expected).symm
  have hrows : Shell.parseString ((text (c :: s)).take 1023) (expected + 2) 32 =
      ((words (c :: s)).take (expected + 2)).map fun w => (text w).take 31 := by
    rw [List.take_of_length_le (by rwa [text, List.length_map]), Shell.parseString, text_words,
      ← List.map_take, List.map_map]
    rfl
  have hshell : Shell.analizeArg (some (text (c :: s))) expected =
      let args := Shell.parseString ((text (c :: s)).take 1023) (expected + 2) 32
      let background := args.getLast? = some ['&']
      let numArgs := if background then args.length - 1 else args.length
      if numArgs ≠ expected then -1 else if background then 1 else 0 := rfl
  rw [hshell, hrows, verdict_eq]
  generalize (words (c :: s)).take (expected + 2) = ws
  simp only [getLast?_rows, List.length_map, marked]
  by_cases hlast : ws.getLast? = some [38]
  · have hpos : 0 < ws.length := List.length_pos_iff.mpr fun h => by simp [h] at hlast
    simp only [if_pos hlast]
    exact if_congr (by omega) rfl rfl
  · simp only [if_neg hlast]
    exact if_congr (by omega) rfl rfl

/-- The two models of `analize_arg` agree: the shell's, which takes the string for its text, and
the one on memory. -/
theorem analizeArg_shell {s : List UInt8} {maxSize expected : Nat} {m : Mem}
    (args : Nat → Ptr Area) (hsize : 3 ≤ maxSize) (hs : 0 ∉ s) (hlen : s.length ≤ 1023)
    (h : StringAt (m.bytes .arg) 0 s) :
    (analizeArg ⟨.arg, 0⟩ args expected maxSize m).1 = Shell.analizeArg (some (text s)) expected := by
  rw [shell_analizeArg expected hlen]
  by_cases hnil : s = []
  · subst hnil
    rw [analizeArg_nil h, verdict_nil]
  · obtain ⟨m', _, heq⟩ := analizeArg_run args expected hsize hs hnil (Nat.lt_succ_of_le hlen) h
    rw [heq]

/-- An argument in memory. -/
def argument (s : List UInt8) : Mem where
  bytes o i := if o = .arg then (s ++ [0]).getD i 255 else 255
  log := []

theorem argument_string (s : List UInt8) : StringAt ((argument s).bytes .arg) 0 s := by
  refine List.ext_getElem (by simp) fun i hi hi' => ?_
  rw [List.length_append, List.length_singleton] at hi'
  simp [loadFrom, argument, List.getD_eq_getElem?_getD, hi']

/-- Two words and a `&`, with the first word too long for its row. -/
theorem analizeArg_eq_words :
    let s : List UInt8 := [32, 49, 50, 51, 32, 32, 52, 32, 38]
    (analizeArg ⟨.arg, 0⟩ (argRows (3 * ·)) 2 3 (argument s)).1 = 1 ∧
      StringAt ((analizeArg ⟨.arg, 0⟩ (argRows (3 * ·)) 2 3 (argument s)).2.bytes .rows) 0 [49, 50] := by
  intro s
  have hwords : words s = [[49, 50, 51], [52], [38]] := by decide +kernel
  have h := @analizeArg_eq s 3 (argument s) (3 * ·) 2 (by decide) (fun k l hl _ => by omega)
    (by decide) (by decide) (argument_string s)
  rw [hwords] at h
  refine ⟨h.1, ?_⟩
  obtain ⟨w, hw, hrow⟩ := h.2 (by decide) 0 (by decide)
  obtain rfl : [49, 50, 51] = w := Option.some.inj hw
  exact hrow

section

variable {s : List UInt8} {maxSize k n : Nat} {m : Mem}

/-! ## 3. The accesses -/

/-- A byte that is written belongs to a local array or to the rows of the caller, of 32 bytes
each. -/
def WritesInside (expected : Nat) : Access Area → Prop
  | .read _ _ => True
  | .write .arg _ => False
  | .write .buffer i => i < bufferSize
  | .write .temp i => i < 32 * (expected + 2)
  | .write .rows i => i < 32 * expected

/-- The argument is read up to its NUL. -/
def ReadsInside (length : Nat) : Access Area → Prop
  | .read .arg i => i ≤ length
  | _ => True

theorem Local.writesInside {expected : Nat} {a : Access Area} (h : Local expected 32 a) :
    WritesInside expected a := by
  cases a with
  | read o i => trivial
  | write o i =>
    cases o with
    | arg => exact h
    | buffer => exact h
    | temp => exact h
    | rows => exact h.elim

/-- `strncpy` reads on behind the NUL. -/
theorem analizeArg_reads (args : Nat → Nat) (expected : Nat) (hsize : 3 ≤ maxSize) (hs : 0 ∉ s)
    (hnil : s ≠ []) (hlen : s.length < bufferSize) (h : StringAt (m.bytes .arg) 0 s) :
    .read .arg 1022 ∈ (analizeArg ⟨.arg, 0⟩ (argRows args) expected maxSize m).2.log := by
  obtain ⟨m', hrun, heq⟩ := analizeArg_run (argRows args) expected hsize hs hnil hlen h
  rw [heq]
  dsimp only
  split
  · exact hrun.read
  · exact copyRows_accessed.log_subset hrun.read

/-- `strncpy` writes a NUL behind each row. -/
theorem analizeArg_writes (args : Nat → Nat) (expected : Nat) (hsize : 3 ≤ maxSize) (hs : 0 ∉ s)
    (hnil : s ≠ []) (hlen : s.length < bufferSize) (h : StringAt (m.bytes .arg) 0 s)
    (haccept : verdict expected (words s) ≠ -1) (hk : k < expected) :
    .write .rows (args k + maxSize) ∈
      (analizeArg ⟨.arg, 0⟩ (argRows args) expected maxSize m).2.log := by
  obtain ⟨m', hrun, heq⟩ := analizeArg_run (argRows args) expected hsize hs hnil hlen h
  rw [heq]
  dsimp only
  rw [if_neg haccept]
  exact copyRows_writes (Nat.zero_le k) (by omega)

/-- With rows of 32 bytes one behind the other, all accesses are inside the arrays exactly when
the argument is empty, and all writes are exactly when the words are not accepted. -/
theorem analizeArg_inside_iff {expected : Nat} (hexpected : 1 ≤ expected) (hs : 0 ∉ s)
    (hlen : s.length < 1000) (h : StringAt (m.bytes .arg) 0 s) (hlog : m.log = []) :
    ((∀ a ∈ (analizeArg ⟨.arg, 0⟩ (argRows (32 * ·)) expected 32 m).2.log,
        WritesInside expected a ∧ ReadsInside s.length a) ↔ s = []) ∧
      ((∀ a ∈ (analizeArg ⟨.arg, 0⟩ (argRows (32 * ·)) expected 32 m).2.log,
        WritesInside expected a) ↔ verdict expected (words s) = -1) := by
  by_cases hnil : s = []
  · subst hnil
    have hone : ∀ a ∈ (m.read (⟨.arg, 0⟩ : Ptr Area)).log,
        WritesInside expected a ∧ ReadsInside 0 a := by
      intro a ha
      rw [Arrays.read, hlog, List.mem_singleton] at ha
      rw [ha]
      exact ⟨trivial, Nat.le_refl 0⟩
    rw [analizeArg_nil h, verdict_nil, if_neg (Nat.ne_of_gt hexpected)]
    exact ⟨iff_of_true hone rfl, iff_of_true (fun a ha => (hone a ha).1) rfl⟩
  have hbuffer : s.length < bufferSize := Nat.lt_trans hlen (by decide)
  constructor
  · refine iff_of_false (fun hinside => ?_) hnil
    have hle : 1022 ≤ s.length := (hinside _ (analizeArg_reads _ _ (by decide) hs hnil hbuffer h)).2
    omega
  · by_cases hverdict : verdict expected (words s) = -1
    · obtain ⟨m', hrun, heq⟩ :=
        analizeArg_run (argRows (32 * ·)) expected (by decide : 3 ≤ 32) hs hnil hbuffer h
      rw [heq]
      dsimp only
      rw [if_pos hverdict]
      refine iff_of_true (fun a ha => ?_) hverdict
      rcases hrun.accessed.mem_log ha with hold | hlocal
      · rw [hlog] at hold
        cases hold
      · exact hlocal.writesInside
    · refine iff_of_false (fun hinside => ?_) hverdict
      have hlast : expected - 1 < expected := Nat.sub_lt hexpected Nat.one_pos
      have hlt : 32 * (expected - 1) + 32 < 32 * expected :=
        hinside _ (analizeArg_writes _ _ (by decide) hs hnil hbuffer h hverdict hlast)
      omega

end

/-- An empty argument, and a lone `&`, where one argument is expected. -/
theorem analizeArg_inside_iff_refused :
    (∀ a ∈ (analizeArg ⟨.arg, 0⟩ (argRows (32 * ·)) 1 32 (argument [])).2.log,
      WritesInside 1 a ∧ ReadsInside 0 a) ∧
    ∀ a ∈ (analizeArg ⟨.arg, 0⟩ (argRows (32 * ·)) 1 32 (argument [38])).2.log,
      WritesInside 1 a := by
  have hempty := @analizeArg_inside_iff [] (argument []) 1 (by decide) List.not_mem_nil (by decide)
    (argument_string []) rfl
  have hrefused := @analizeArg_inside_iff [38] (argument [38]) 1 (by decide) (by decide)
    (by decide) (argument_string [38]) rfl
  exact ⟨hempty.1.mpr rfl, hrefused.2.mpr (by decide +kernel)⟩

/-- With one argument, the byte at index 1022 is read, and the byte behind the row is
written. -/
theorem analizeArg_exceeds :
    let log := (analizeArg ⟨.arg, 0⟩ (argRows (32 * ·)) 1 32 (argument [49])).2.log
    .read .arg 1022 ∈ log ∧ .write .rows 32 ∈ log ∧
      ¬ ∀ a ∈ log, WritesInside 1 a ∧ ReadsInside 1 a := by
  have hstring := argument_string [49]
  have hread := analizeArg_reads (32 * ·) 1 (by decide : 3 ≤ 32) (by decide) (by decide) (by decide)
    hstring
  have hwrite := analizeArg_writes (k := 0) (32 * ·) 1 (by decide : 3 ≤ 32) (by decide) (by decide)
    (by decide) hstring (by decide +kernel) (by decide)
  refine ⟨hread, hwrite, fun h => ?_⟩
  have hle : 1022 ≤ 1 := (h _ hread).2
  exact absurd hle (by decide)

end SoKernel.Arguments
