import Mathlib.Data.List.TakeWhile
import SoKernel.Lib.Arrays
import SoKernel.Lib.Lines
import SoKernel.Userland.Printf

/-!
# Programs on streams

`cat`, `wc` and `filter`. A run on a list of bytes is the run up to where the next `getChar` has
not returned. The buffer of a program is an array whose accesses are recorded.

Results:
1. `charLoop_rule`: the loop that the three programs share.
2. `cat_kept`, `filter_kept`, `wc_lines`: what the programs have done with the characters so
   far.
3. `streams_iff`: on a stream the buffers are not exceeded and the results are right exactly
   when the lines are short enough, and there are not too many of them.
-/

namespace SoKernel.Streams

open Stdlib

/-! ## 1. The programs -/

/-- `EOF` -/
def eof : Int32 := -1

/-- `BUFFER_SPACE` -/
def bufferSpace : Nat := 1000

def newline : UInt8 := 10

/-- `is_vowel` -/
def isVowel (c : UInt8) : Bool :=
  c = 97 || c = 101 || c = 105 || c = 111 || c = 117 || c = 65 || c = 69 || c = 73 || c = 79 ||
    c = 85

/-- What a program has done: its variables, the bytes it has printed, and whether it has read
`EOF`. -/
structure Loop (σ : Type) where
  state : σ
  out : List UInt8
  ended : Bool

/-- One turn of a loop `while (c != EOF)`, with the body that follows the echo. It also prints
something. -/
def charStep {σ : Type} (body : σ → UInt8 → σ × List UInt8) (l : Loop σ) (c : UInt8) : Loop σ :=
  if l.ended then l
  else if c.toInt8.toInt32 = eof then { l with ended := true }
  else if c ≠ 0 then
    { l with
      state := (body l.state c).1
      out := l.out ++ (formatPrintf [37, 99] [⟨c.toUInt64, []⟩]).bytes ++ (body l.state c).2 }
  else l

def charLoop {σ : Type} (body : σ → UInt8 → σ × List UInt8) (start : σ) (p : List UInt8) : Loop σ :=
  p.foldl (charStep body) ⟨start, [], false⟩

/-- `read_and_process_chars`, with the context of `process_char` and `count`. -/
def readAndProcessChars {σ : Type} (processChar : σ → UInt8 → σ) (context : σ) (p : List UInt8) :
    Loop (σ × Int32) :=
  charLoop (fun s c => ((processChar s.1 c, s.2 + 1), [])) (context, 0) p

/-- A buffer of zeros. -/
def zeros : Arrays Unit UInt8 := ⟨fun _ _ => 0, []⟩

/-- The bytes of a buffer. -/
def contents (buffer : Arrays Unit UInt8) : List UInt8 := loadFrom (buffer.bytes ()) 0 bufferSpace

/-- A `printf("%s", buffer)`: the bytes of the buffer, and the bytes that are printed. -/
structure Print where
  buffer : List UInt8
  bytes : List UInt8
deriving DecidableEq, Repr

/-- The variables of `cat`, and its calls of `printf` with the buffer. -/
structure Cat where
  buffer : Arrays Unit UInt8
  i : Nat
  prints : List Print

/-- The body of the loop of `cat`. -/
def catBody (s : Cat) (c : UInt8) : Cat × List UInt8 :=
  let stored := s.buffer.store ⟨(), s.i⟩ c
  if c = newline then
    let closed := stored.store ⟨(), s.i + 1⟩ 0
    let print : Print := ⟨contents closed, (formatPrintf [37, 115] [⟨0, contents closed⟩]).bytes⟩
    (⟨closed.store ⟨(), 0⟩ 0, 0, s.prints ++ [print]⟩, print.bytes)
  else (⟨stored, s.i + 1, s.prints⟩, [])

/-- `"\n=== EOF ===\n"` -/
def eofText : List UInt8 := [10, 61, 61, 61, 32, 69, 79, 70, 32, 61, 61, 61, 10]

/-- `cat` -/
def cat (p : List UInt8) : Loop Cat :=
  let l := charLoop catBody ⟨zeros, 0, []⟩ p
  if l.ended then { l with out := l.out ++ (formatPrintf eofText []).bytes } else l

/-- `wc_process_char` -/
def wcProcessChar (lines : Int32) (c : UInt8) : Int32 := if c = newline then lines + 1 else lines

/-- `"Line count: "` -/
def lineCount : List UInt8 := [76, 105, 110, 101, 32, 99, 111, 117, 110, 116, 58, 32]

/-- `wc` -/
def wc (p : List UInt8) : Loop (Int32 × Int32) :=
  let l := readAndProcessChars wcProcessChar 1 p
  if l.ended then
    let lines := l.state.1 - 1
    { l with
      state := (lines, l.state.2)
      out := l.out ++ (formatPrintf [newline] []).bytes ++
        (formatPrintf (lineCount ++ [37, 100, newline, newline]) [⟨lines.toInt64.toUInt64, []⟩]).bytes }
  else l

/-- `filter_context_t` -/
structure FilterContext where
  filtered : Arrays Unit UInt8
  index : Nat

/-- `filter_process_char` -/
def filterProcessChar (context : FilterContext) (c : UInt8) : FilterContext :=
  if isVowel c = false ∧ context.index < bufferSpace - 1 then
    ⟨context.filtered.store ⟨(), context.index⟩ c, context.index + 1⟩
  else context

/-- `"\nFiltered output:\n"` -/
def filteredOutput : List UInt8 :=
  [10, 70, 105, 108, 116, 101, 114, 101, 100, 32, 111, 117, 116, 112, 117, 116, 58, 10]

/-- `filter` -/
def filter (p : List UInt8) : Loop (FilterContext × Int32) :=
  let l := readAndProcessChars filterProcessChar ⟨zeros, 0⟩ p
  if l.ended then
    { l with
      out := l.out ++ (formatPrintf (filteredOutput ++ [37, 115, newline])
        [⟨0, contents l.state.1.filtered⟩]).bytes }
  else l

/-! ## 2. The loop -/

/-- The characters of a stream: what comes before `EOF`, without the NULs. -/
def chars (p : List UInt8) : List UInt8 := (p.takeWhile (· ≠ 255)).filter (· ≠ 0)

section

variable {σ : Type} {body : σ → UInt8 → σ × List UInt8} {start : σ} {l : Loop σ} {p : List UInt8}
  {c : UInt8}

theorem eof_iff : c.toInt8.toInt32 = eof ↔ c = 255 := by
  constructor
  · intro h
    have hint : c.toInt8.toInt = (-1 : Int8).toInt := by
      rw [← Int8.toInt_toInt32, h]
      decide
    rw [← c.toUInt8_toInt8, Int8.toInt_inj.mp hint]
    decide
  · rintro rfl
    decide

theorem ne_of_notMem {x : UInt8} (hp : x ∉ p) : ∀ c ∈ p, decide (c ≠ x) = true :=
  fun _ hc => decide_eq_true (ne_of_mem_of_not_mem hc hp)

theorem notMem_snoc {x : UInt8} (hp : x ∉ p) (hc : c ≠ x) : x ∉ p ++ [c] := by
  rw [List.mem_append, List.mem_singleton, not_or]
  exact ⟨hp, hc.symm⟩

/-- The characters before the first `EOF`. -/
theorem chars_append (hp : 255 ∉ p) (rest : List UInt8) : chars (p ++ 255 :: rest) = chars p := by
  have hstop : (255 :: rest).takeWhile (· ≠ 255) = [] := List.takeWhile_cons_of_neg (by decide)
  rw [chars, chars, List.takeWhile_append_of_pos (ne_of_notMem hp), hstop,
    List.append_nil, List.takeWhile_eq_self_iff.mpr (ne_of_notMem hp)]

theorem chars_eq (hp : 255 ∉ p) : chars p = p.filter (· ≠ 0) := by
  rw [chars, List.takeWhile_eq_self_iff.mpr (ne_of_notMem hp)]

/-- Behind `EOF` nothing is read. -/
theorem chars_snoc_ended (hp : 255 ∈ p) : chars (p ++ [c]) = chars p := by
  obtain ⟨before, rest, rfl, hbefore⟩ := List.eq_append_cons_of_mem hp
  rw [List.append_assoc, List.cons_append, chars_append hbefore, chars_append hbefore]

theorem chars_snoc (hp : 255 ∉ p) (hc : c ≠ 255) :
    chars (p ++ [c]) = if c = 0 then chars p else chars p ++ [c] := by
  rw [chars_eq (notMem_snoc hp hc), chars_eq hp, List.filter_append]
  by_cases hzero : c = 0
  · rw [if_pos hzero, List.filter_cons_of_neg (by simpa using hzero), List.filter_nil,
      List.append_nil]
  · rw [if_neg hzero, List.filter_cons_of_pos (by simpa using hzero), List.filter_nil]

theorem printf_char (c : UInt8) : (formatPrintf [37, 99] [⟨c.toUInt64, []⟩]).bytes = [c] :=
  congrArg (fun c => [c]) c.toUInt8_toUInt64

theorem charStep_ended (h : l.ended = true) : charStep body l c = l := if_pos h

theorem charStep_eof (h : l.ended = false) : charStep body l 255 = { l with ended := true } := by
  rw [charStep, if_neg (by simp [h]), if_pos (eof_iff.mpr rfl)]

theorem charStep_nul (h : l.ended = false) : charStep body l 0 = l := by
  rw [charStep, if_neg (by simp [h]), if_neg (by decide)]
  exact if_neg (fun h => h rfl)

theorem charStep_char (h : l.ended = false) (heof : c ≠ 255) (hnul : c ≠ 0) :
    charStep body l c =
      ⟨(body l.state c).1, l.out ++ [c] ++ (body l.state c).2, false⟩ := by
  rw [charStep, if_neg (by simp [h]), if_neg (fun heq => heof (eof_iff.mp heq)), if_pos hnul, h,
    printf_char]

/-- What holds of the characters so far, the variables and the output, when each character keeps
it. -/
theorem charLoop_rule {P : List UInt8 → σ → List UInt8 → Prop} (hstart : P [] start [])
    (hbody : ∀ cs s out c, c ≠ 0 → P cs s out →
      P (cs ++ [c]) (body s c).1 (out ++ [c] ++ (body s c).2)) (p : List UInt8) :
    P (chars p) (charLoop body start p).state (charLoop body start p).out ∧
      (charLoop body start p).ended = decide (255 ∈ p) := by
  induction p using List.reverseRecOn with
  | nil => exact ⟨hstart, rfl⟩
  | append_singleton p c ih =>
    obtain ⟨hkept, hended⟩ := ih
    have hsnoc : charLoop body start (p ++ [c]) = charStep body (charLoop body start p) c :=
      List.foldl_concat ..
    rw [hsnoc]
    by_cases hp : 255 ∈ p
    · have hp' : 255 ∈ p ++ [c] := List.mem_append_left _ hp
      rw [charStep_ended (by rw [hended]; exact decide_eq_true hp), chars_snoc_ended hp, hended]
      exact ⟨hkept, by rw [decide_eq_true hp, decide_eq_true hp']⟩
    have hgo : (charLoop body start p).ended = false := by rw [hended]; exact decide_eq_false hp
    by_cases heof : c = 255
    · subst heof
      rw [charStep_eof hgo, chars_append hp []]
      exact ⟨hkept, (decide_eq_true (List.mem_append_right _ (List.mem_singleton_self _))).symm⟩
    rw [chars_snoc hp heof, decide_eq_false (notMem_snoc hp heof)]
    by_cases hnul : c = 0
    · subst hnul
      rw [charStep_nul hgo, if_pos rfl]
      exact ⟨hkept, hgo⟩
    · rw [charStep_char hgo heof hnul, if_neg hnul]
      exact ⟨hbody _ _ _ c hnul hkept, rfl⟩

end

/-! ## 3. `cat` -/

/-- A byte that is written belongs to the buffer. -/
def Inside : Access Unit → Prop
  | .read _ _ => True
  | .write _ i => i < bufferSpace

/-- Each line as it is read, and printed once more when it is complete. -/
def doubled (print : List UInt8 → List UInt8) (cs : List UInt8) : List UInt8 :=
  (fullLines newline cs).flatMap (fun l => l ++ [newline] ++ print (l ++ [newline])) ++
    lastLine newline cs

/-- `cat` behind some characters. -/
structure CatKept (cs : List UInt8) (s : Cat) (out : List UInt8) : Prop where
  noZero : 0 ∉ cs
  index : s.i = (lastLine newline cs).length
  line : loadFrom (s.buffer.bytes ()) 0 s.i = lastLine newline cs
  inside : (∀ a ∈ s.buffer.log, Inside a) ↔
    (∀ l ∈ fullLines newline cs, l.length ≤ 998) ∧ (lastLine newline cs).length ≤ 1000
  terminated : (∀ l ∈ fullLines newline cs, l.length ≤ 998) → ∀ print ∈ s.prints, 0 ∈ print.buffer
  printed : s.prints.map Print.bytes =
    (fullLines newline cs).map fun l => (l ++ [newline]).take (maxLength - 1)
  out : out = doubled (·.take (maxLength - 1)) cs

section

variable {cs : List UInt8} {s : Cat} {out str : List UInt8} {c : UInt8} {m : Arrays Unit UInt8}

theorem text_of_notMem (h : 0 ∉ str) : text str = str :=
  List.takeWhile_eq_self_iff.mpr (ne_of_notMem h)

/-- The string in a buffer, with the byte that ends it in the buffer or not. -/
theorem text_contents (hstr : 0 ∉ str) (h : StringAt (m.bytes ()) 0 str) :
    text (contents m) = str.take bufferSpace ∧ (0 ∈ contents m ↔ str.length < bufferSpace) := by
  by_cases hlt : str.length < bufferSpace
  · obtain ⟨n, hn⟩ := Nat.exists_eq_add_of_le (Nat.succ_le_of_lt hlt)
    have hcontents : contents m = str ++ 0 :: loadFrom (m.bytes ()) (0 + (str.length + 1)) n := by
      rw [contents, hn, Nat.succ_eq_add_one, loadFrom_add, h, List.append_assoc, List.singleton_append]
    rw [List.take_of_length_le (Nat.le_of_lt hlt), hcontents]
    refine ⟨?_, iff_of_true (List.mem_append_right _ List.mem_cons_self) hlt⟩
    rw [text, List.takeWhile_append_of_pos (ne_of_notMem hstr),
      List.takeWhile_cons_of_neg (by decide), List.append_nil]
  · obtain ⟨n, hn⟩ := Nat.exists_eq_add_of_le (Nat.le_of_not_lt hlt)
    have hcontents : contents m = str.take bufferSpace := by
      have htake := congrArg (List.take bufferSpace) h
      rw [hn, Nat.add_assoc, loadFrom_add, List.take_left' length_loadFrom,
        List.take_append_of_le_length (Nat.le_of_not_lt hlt)] at htake
      exact htake
    have hzero : 0 ∉ str.take bufferSpace := fun hmem => hstr (List.mem_of_mem_take hmem)
    rw [hcontents]
    exact ⟨text_of_notMem hzero, iff_of_false hzero hlt⟩

/-- `printf("%s", buffer)` -/
theorem printf_str (str : List UInt8) :
    (formatPrintf [37, 115] [⟨0, str⟩]).bytes = (text str).take (maxLength - 1) := by
  rw [formatPrintf, formatLoop_convert (by decide) (by decide)]
  exact safeStringCopy_eq (Nat.zero_le _)

theorem CatKept.stored (h : CatKept cs s out) (c : UInt8) :
    loadFrom ((s.buffer.store ⟨(), s.i⟩ c).bytes ()) 0 (s.i + 1) = lastLine newline cs ++ [c] := by
  have hstore := Arrays.loadFrom_store (p := ⟨(), s.i⟩) (m := s.buffer) (b := c) (Nat.zero_add s.i).symm
  rw [hstore, h.line]

theorem inside_cons {i : Nat} {log : List (Access Unit)} :
    (∀ a ∈ .write () i :: log, Inside a) ↔ i < bufferSpace ∧ ∀ a ∈ log, Inside a :=
  List.forall_mem_cons

theorem catBody_char (hc : c ≠ newline) (hzero : c ≠ 0) (h : CatKept cs s out) :
    CatKept (cs ++ [c]) (catBody s c).1 (out ++ [c] ++ (catBody s c).2) := by
  obtain ⟨hfull, hlast⟩ := fullLines_snoc hc cs
  have hbody : catBody s c = (⟨s.buffer.store ⟨(), s.i⟩ c, s.i + 1, s.prints⟩, []) := if_neg hc
  rw [hbody]
  refine ⟨notMem_snoc h.noZero hzero, ?_, ?_, ?_, ?_, ?_, ?_⟩
  · rw [hlast, List.length_append, List.length_singleton, h.index]
  · rw [hlast]
    exact h.stored c
  · rw [hfull, hlast, List.length_append, List.length_singleton, Arrays.store, inside_cons, h.inside,
      h.index]
    constructor
    · rintro ⟨hlt, hlines, -⟩
      exact ⟨hlines, hlt⟩
    · rintro ⟨hlines, hlt⟩
      exact ⟨hlt, hlines, Nat.le_of_lt hlt⟩
  · rw [hfull]
    exact h.terminated
  · rw [hfull]
    exact h.printed
  · rw [doubled, hfull, hlast, h.out, doubled, List.append_nil, List.append_assoc]

/-- A complete line. -/
theorem catBody_newline (h : CatKept cs s out) :
    CatKept (cs ++ [newline]) (catBody s newline).1 (out ++ [newline] ++ (catBody s newline).2) := by
  obtain ⟨hfull, hlast⟩ := fullLines_snoc_self newline cs
  have hline : 0 ∉ lastLine newline cs ++ [newline] :=
    notMem_snoc (fun hmem => h.noZero (lastLine_subset hmem)) (by decide)
  -- the line in the buffer, with its NUL
  have hstring : StringAt (((s.buffer.store ⟨(), s.i⟩ newline).store ⟨(), s.i + 1⟩ 0).bytes ()) 0
      (lastLine newline cs ++ [newline]) := by
    have hstore := Arrays.loadFrom_store (p := ⟨(), s.i + 1⟩) (b := 0)
      (m := s.buffer.store ⟨(), s.i⟩ newline) (Nat.zero_add (s.i + 1)).symm
    rw [StringAt, List.length_append, List.length_singleton, ← h.index, hstore, h.stored]
  obtain ⟨htext, hzero⟩ := text_contents hline hstring
  have hprint : (formatPrintf [37, 115]
      [⟨0, contents ((s.buffer.store ⟨(), s.i⟩ newline).store ⟨(), s.i + 1⟩ 0)⟩]).bytes =
      (lastLine newline cs ++ [newline]).take (maxLength - 1) := by
    rw [printf_str, htext, List.take_take]
    rfl
  rw [catBody, if_pos rfl]
  dsimp only
  rw [hprint]
  refine ⟨notMem_snoc h.noZero (by decide), ?_, ?_, ?_, ?_, ?_, ?_⟩
  · rw [hlast]
    rfl
  · rw [hlast]
    rfl
  · rw [hfull, hlast, List.forall_mem_append, List.forall_mem_singleton, Arrays.store, inside_cons,
      Arrays.store, inside_cons, Arrays.store, inside_cons, h.inside, h.index]
    dsimp only
    constructor
    · rintro ⟨-, hlt, -, hlines, -⟩
      exact ⟨⟨hlines, Nat.le_of_lt_succ (Nat.lt_of_succ_lt_succ hlt)⟩, Nat.zero_le _⟩
    · rintro ⟨⟨hlines, hle⟩, -⟩
      have hlt : (lastLine newline cs).length + 1 < bufferSpace := Nat.succ_lt_succ (Nat.lt_succ_of_le hle)
      exact ⟨by decide, hlt, Nat.lt_of_succ_lt hlt, hlines, by omega⟩
  · rw [hfull, List.forall_mem_append, List.forall_mem_append, List.forall_mem_singleton,
      List.forall_mem_singleton]
    dsimp only
    rintro ⟨hlines, hlen⟩
    have hlt : (lastLine newline cs ++ [newline]).length < bufferSpace := by
      rw [List.length_append]
      exact Nat.succ_lt_succ (Nat.lt_succ_of_le hlen)
    exact ⟨h.terminated hlines, hzero.mpr hlt⟩
  · rw [hfull]
    simp only [List.map_append, List.map_singleton, h.printed]
  · rw [doubled, hfull, hlast, h.out, doubled, List.flatMap_append, List.flatMap_singleton]
    simp only [List.append_assoc, List.append_nil]

theorem cat_kept (p : List UInt8) :
    CatKept (chars p) (charLoop catBody ⟨zeros, 0, []⟩ p).state
        (charLoop catBody ⟨zeros, 0, []⟩ p).out ∧
      (charLoop catBody ⟨zeros, 0, []⟩ p).ended = decide (255 ∈ p) := by
  have hstart : CatKept [] ⟨zeros, 0, []⟩ [] := by
    refine ⟨List.not_mem_nil, rfl, rfl, ?_, fun _ _ h => absurd h List.not_mem_nil, rfl, rfl⟩
    exact iff_of_true (fun _ h => absurd h List.not_mem_nil)
      ⟨fun _ h => absurd h List.not_mem_nil, Nat.zero_le _⟩
  refine charLoop_rule hstart (fun cs s out c hzero h => ?_) p
  by_cases hc : c = newline
  · rw [hc]
    exact catBody_newline h
  · exact catBody_char hc hzero h

end

/-! ## 4. `wc` and `filter` -/

/-- The characters that `filter` keeps. -/
def nonVowels (cs : List UInt8) : List UInt8 := cs.filter fun c => !isVowel c

/-- What `filter` has done with some characters. -/
structure FilterKept (cs : List UInt8) (context : FilterContext) : Prop where
  noZero : 0 ∉ cs
  index : context.index = ((nonVowels cs).take (bufferSpace - 1)).length
  line : loadFrom (context.filtered.bytes ()) 0 context.index = (nonVowels cs).take (bufferSpace - 1)
  zeros : ∀ k, context.index ≤ k → context.filtered.bytes () k = 0
  inside : ∀ a ∈ context.filtered.log, Inside a

section

variable {σ : Type} {processChar : σ → UInt8 → σ} {context : σ} {p cs : List UInt8} {c : UInt8}
  {lines : Int32} {ctx : FilterContext}

theorem readAndProcessChars_rule {P : List UInt8 → σ → Prop} (hstart : P [] context)
    (hprocess : ∀ cs s c, c ≠ 0 → P cs s → P (cs ++ [c]) (processChar s c)) (p : List UInt8) :
    P (chars p) (readAndProcessChars processChar context p).state.1 ∧
      (readAndProcessChars processChar context p).out = chars p ∧
      (readAndProcessChars processChar context p).ended = decide (255 ∈ p) := by
  refine and_assoc.mp (charLoop_rule (P := fun cs (s : σ × Int32) out => P cs s.1 ∧ out = cs) ⟨hstart, rfl⟩ ?_ p)
  rintro cs s out c hc ⟨hkept, rfl⟩
  exact ⟨hprocess _ _ c hc hkept, List.append_nil _⟩

theorem wcProcessChar_lines (h : lines = 1 + Int32.ofNat (cs.count newline)) :
    wcProcessChar lines c = 1 + Int32.ofNat ((cs ++ [c]).count newline) := by
  unfold wcProcessChar
  rw [List.count_append, List.count_singleton]
  by_cases hc : c = newline
  · rw [if_pos hc, hc, if_pos (beq_self_eq_true newline), h, Int32.ofNat_add, Int32.add_assoc]
    rfl
  · rw [if_neg hc, if_neg (by simpa using hc), Nat.add_zero, h]

theorem wc_loop (p : List UInt8) :
    (readAndProcessChars wcProcessChar 1 p).state.1 =
        1 + Int32.ofNat ((chars p).count newline) ∧
      (readAndProcessChars wcProcessChar 1 p).out = chars p ∧
      (readAndProcessChars wcProcessChar 1 p).ended = decide (255 ∈ p) :=
  readAndProcessChars_rule (P := fun cs lines => lines = 1 + Int32.ofNat (cs.count newline)) rfl
    (fun _ _ _ _ => wcProcessChar_lines) p

/-- `--context.lines` -/
theorem lines_pred (n : Nat) : 1 + Int32.ofNat n - 1 = Int32.ofNat n := by
  rw [Int32.add_comm, Int32.add_sub_cancel]

theorem wc_lines (hp : 255 ∈ p) : (wc p).state.1 = Int32.ofNat ((chars p).count newline) := by
  obtain ⟨hlines, -, hended⟩ := wc_loop p
  rw [wc, hended, if_pos (decide_eq_true hp)]
  dsimp only
  rw [hlines, lines_pred]

theorem nonVowels_snoc : nonVowels (cs ++ [c]) = nonVowels cs ++ if isVowel c then [] else [c] := by
  rw [nonVowels, nonVowels, List.filter_append]
  cases hc : isVowel c <;> simp [hc]

theorem FilterKept.index_lt (h : FilterKept cs ctx) :
    ctx.index < bufferSpace - 1 ↔ (nonVowels cs).length < bufferSpace - 1 := by
  rw [h.index, List.length_take]
  omega

/-- One character. -/
theorem filterProcessChar_kept (hzero : c ≠ 0) (h : FilterKept cs ctx) :
    FilterKept (cs ++ [c]) (filterProcessChar ctx c) := by
  have hcs : 0 ∉ cs ++ [c] := notMem_snoc h.noZero hzero
  unfold filterProcessChar
  split
  · next hstore =>
    have hroom := h.index_lt.mp hstore.2
    have hsnoc : (nonVowels (cs ++ [c])).take (bufferSpace - 1) =
        (nonVowels cs).take (bufferSpace - 1) ++ [c] := by
      rw [nonVowels_snoc, if_neg (by simp [hstore.1]), List.take_of_length_le (Nat.le_of_lt hroom),
        List.take_of_length_le]
      rw [List.length_append]
      exact hroom
    refine ⟨hcs, ?_, ?_, ?_, ?_⟩
    · rw [hsnoc, List.length_append, ← h.index]
      rfl
    · have hline := Arrays.loadFrom_store (p := ⟨(), ctx.index⟩) (m := ctx.filtered) (b := c)
        (Nat.zero_add ctx.index).symm
      rw [hsnoc, ← h.line]
      exact hline
    · intro k hk
      dsimp only at hk ⊢
      rw [Arrays.store_bytes, if_neg fun heq => Nat.ne_of_gt hk heq.2]
      exact h.zeros k (Nat.le_of_succ_le hk)
    · exact List.forall_mem_cons.mpr ⟨Nat.lt_of_lt_of_le hstore.2 (Nat.sub_le _ _), h.inside⟩
  · next hstore =>
    have hsame : (nonVowels (cs ++ [c])).take (bufferSpace - 1) =
        (nonVowels cs).take (bufferSpace - 1) := by
      rw [nonVowels_snoc]
      split
      · rw [List.append_nil]
      · next hvowel =>
        have hfull : ¬ (nonVowels cs).length < bufferSpace - 1 := fun hlt =>
          hstore ⟨Bool.not_eq_true _ ▸ hvowel, h.index_lt.mpr hlt⟩
        rw [List.take_append_of_le_length (Nat.le_of_not_lt hfull)]
    exact ⟨hcs, by rw [hsame, h.index], by rw [hsame, h.line], h.zeros, h.inside⟩

theorem filter_loop (p : List UInt8) :
    FilterKept (chars p) (readAndProcessChars filterProcessChar ⟨zeros, 0⟩ p).state.1 ∧
      (readAndProcessChars filterProcessChar ⟨zeros, 0⟩ p).out = chars p ∧
      (readAndProcessChars filterProcessChar ⟨zeros, 0⟩ p).ended = decide (255 ∈ p) :=
  readAndProcessChars_rule (P := FilterKept)
    ⟨List.not_mem_nil, rfl, rfl, fun _ _ => rfl, fun _ h => absurd h List.not_mem_nil⟩
    (fun _ _ _ => filterProcessChar_kept) p

theorem filter_kept (p : List UInt8) : FilterKept (chars p) (filter p).state.1 := by
  have hkept := (filter_loop p).1
  unfold filter
  dsimp only
  split
  · exact hkept
  · exact hkept

theorem FilterKept.text (h : FilterKept cs ctx) :
    Stdlib.text (contents ctx.filtered) = (nonVowels cs).take (bufferSpace - 1) ∧
      0 ∈ contents ctx.filtered := by
  have hzero : 0 ∉ (nonVowels cs).take (bufferSpace - 1) := fun hmem =>
    h.noZero (List.mem_of_mem_filter (List.mem_of_mem_take hmem))
  have hstring : StringAt (ctx.filtered.bytes ()) 0 ((nonVowels cs).take (bufferSpace - 1)) := by
    have hlast : loadFrom (ctx.filtered.bytes ()) (0 + ctx.index) 1 = [0] :=
      congrArg (fun b => [b]) (h.zeros _ (Nat.le_add_left _ _))
    rw [StringAt, ← h.index, loadFrom_add, h.line, hlast]
  obtain ⟨htext, hmem⟩ := text_contents hzero hstring
  refine ⟨?_, hmem.mpr ?_⟩
  · rw [htext, List.take_take]
    rfl
  · rw [List.length_take]
    exact Nat.lt_of_le_of_lt (Nat.min_le_left _ _) (by decide)

end

/-! ## 5. What the programs print -/

section

variable {p : List UInt8} {str : List UInt8}

theorem cat_state (p : List UInt8) : (cat p).state = (charLoop catBody ⟨zeros, 0, []⟩ p).state := by
  unfold cat
  dsimp only
  split <;> rfl

theorem cat_out (hp : 255 ∈ p) :
    (cat p).out = doubled (·.take (maxLength - 1)) (chars p) ++ eofText := by
  obtain ⟨hkept, hended⟩ := cat_kept p
  rw [cat, hended, if_pos (decide_eq_true hp), ← hkept.out,
    formatPrintf_literal (by decide) (by decide)]

/-- A last character, where there may be room for it or not. -/
theorem formatLoop_newline {o : Output} {args : List Arg} (h : o.bytes.length ≤ maxLength - 1) :
    (formatLoop o [newline] args).bytes = (o.bytes ++ [newline]).take (maxLength - 1) := by
  rcases Nat.lt_or_eq_of_le h with hlt | hfull
  · have hlit : Literal [newline] := by decide
    rw [formatLoop_end hlit hlt, List.take_of_length_le]
    rw [List.length_append]
    exact hlt
  · rw [formatLoop_full (Nat.le_of_eq hfull.symm),
      List.take_append_of_le_length (Nat.le_of_eq hfull.symm), List.take_of_length_le h]

/-- `printf("\nFiltered output:\n%s\n", context.filtered)` -/
theorem printf_filtered (str : List UInt8) :
    (formatPrintf (filteredOutput ++ [37, 115, newline]) [⟨0, str⟩]).bytes =
      (filteredOutput ++ text str ++ [newline]).take (maxLength - 1) := by
  have hconvert : ∀ o : Output, convert o 115 [⟨0, str⟩] =
      ({ o with bytes := safeStringCopy maxLength o.bytes str }, []) := fun _ => rfl
  have hlen : ∀ l : List UInt8, (l.take (maxLength - 1)).length ≤ maxLength - 1 :=
    List.length_take_le _
  rw [formatPrintf, formatLoop_literal (by decide) (by decide),
    formatLoop_convert (by decide) (by decide), hconvert]
  dsimp only
  rw [safeStringCopy_eq (by decide), formatLoop_newline (hlen _), List.nil_append]
  dsimp only
  generalize filteredOutput ++ text str = full
  rcases Nat.le_total full.length (maxLength - 1) with hle | hge
  · rw [List.take_of_length_le hle]
  · have hcut : (full.take (maxLength - 1)).length = maxLength - 1 := by
      rw [List.length_take, Nat.min_eq_left hge]
    rw [List.take_append_of_le_length (Nat.le_of_eq hcut.symm), List.take_append_of_le_length hge,
      List.take_take, Nat.min_self]

theorem filter_out (hp : 255 ∈ p) : (filter p).out = chars p ++
    (filteredOutput ++ (nonVowels (chars p)).take (bufferSpace - 1) ++ [newline]).take
      (maxLength - 1) := by
  obtain ⟨hkept, hout, hended⟩ := filter_loop p
  rw [filter, hended, if_pos (decide_eq_true hp), hout, printf_filtered, hkept.text.1]

/-- An `int` that is passed for `%d`. -/
theorem int_arg (n : Int32) : Arg.int ⟨n.toInt64.toUInt64, []⟩ = n := by
  have hbits : (Arg.int ⟨n.toInt64.toUInt64, []⟩).toBitVec = (n.toBitVec.signExtend 64).setWidth 32 := rfl
  rw [← Int32.toBitVec_inj, hbits]
  ext i hi
  rw [BitVec.getElem_setWidth, BitVec.getLsbD_signExtend, if_pos hi]
  simp [Nat.lt_trans hi (by decide : 32 < 64), hi]

/-- `printf("Line count: %d\n\n", lines)` -/
theorem printf_lineCount {lines : Int32} (hmin : lines ≠ Int32.minValue) :
    (formatPrintf (lineCount ++ [37, 100, newline, newline]) [⟨lines.toInt64.toUInt64, []⟩]).bytes =
      lineCount ++ intText lines ++ [newline, newline] := by
  have hconvert : ∀ o : Output, convert o 100 [⟨lines.toInt64.toUInt64, []⟩] =
      (o.number maxIntLength (signedIntToStr lines), []) := by
    intro o
    rw [convert, if_pos rfl, List.headD_cons, int_arg]
    rfl
  have hlen : (lineCount ++ intText lines).length ≤ 23 := by
    have hint := length_intText_le lines
    rw [List.length_append]
    exact Nat.add_le_add_left hint 12
  rw [formatPrintf, formatLoop_literal (by decide) (by decide),
    formatLoop_convert (by decide) (by decide), hconvert]
  dsimp only [Output.number]
  rw [safeStringCopy_eq (by decide), text_signedIntToStr hmin, List.nil_append,
    List.take_of_length_le (Nat.le_trans hlen (by decide))]
  rw [formatLoop_end (by decide) (Nat.le_trans (Nat.add_le_add_right hlen 2) (by decide))]

theorem wc_out (hp : 255 ∈ p) (hfew : (chars p).count newline < 2 ^ 31) : (wc p).out =
    chars p ++ [newline] ++
      (lineCount ++ numeralText 10 ((chars p).count newline) ++ [newline, newline]) := by
  obtain ⟨hlines, hout, hended⟩ := wc_loop p
  have hint := Int32.toInt_ofNat_of_lt hfew
  have hpos : ¬ Int32.ofNat ((chars p).count newline) < 0 := by
    rw [Int32.lt_iff_toInt_lt, hint, Int32.toInt_zero]
    omega
  have hmin : Int32.ofNat ((chars p).count newline) ≠ Int32.minValue := by
    intro heq
    rw [heq] at hpos
    exact hpos (by decide)
  have htext : intText (Int32.ofNat ((chars p).count newline)) =
      numeralText 10 ((chars p).count newline) := by
    rw [intText, if_neg hpos, List.nil_append, hint, Int.natAbs_natCast]
  rw [wc, hended, if_pos (decide_eq_true hp)]
  dsimp only
  rw [hlines, lines_pred, hout, printf_lineCount hmin, htext,
    formatPrintf_literal (by decide) (by decide)]

end

/-! ## 6. Streams -/

/-- A stream of bytes, finite or infinite. -/
inductive Input
  | finite (bytes : List UInt8)
  | infinite (bytes : Nat → UInt8)

/-- A stream starts with some bytes. -/
def Input.Starts : Input → List UInt8 → Prop
  | .finite bytes, p => p <+: bytes
  | .infinite bytes, p => ∃ n, p = loadFrom bytes 0 n

/-- Where some bytes have been read: no write outside a buffer, a NUL behind each text, and
behind `EOF` the right lines, the right characters and the right number. -/
structure Meets (p : List UInt8) : Prop where
  catInside : ∀ a ∈ (cat p).state.buffer.log, Inside a
  catTerminated : ∀ print ∈ (cat p).state.prints, 0 ∈ print.buffer
  filterInside : ∀ a ∈ (filter p).state.1.filtered.log, Inside a
  filterTerminated : 0 ∈ contents (filter p).state.1.filtered
  lines : 255 ∈ p →
    (cat p).state.prints.map Print.bytes = (fullLines newline (chars p)).map (· ++ [newline]) ∧
      (cat p).out = doubled id (chars p) ++ eofText
  result : 255 ∈ p →
    text (contents (filter p).state.1.filtered) = (nonVowels (chars p)).take (bufferSpace - 1)
  newlines : 255 ∈ p → (wc p).state.1.toInt = (chars p).count newline ∧ (wc p).out =
    chars p ++ [newline] ++
      (lineCount ++ numeralText 10 ((chars p).count newline) ++ [newline, newline])

/-- The result of `filter` is also printed in full. -/
def PrintsResult (p : List UInt8) : Prop := 255 ∈ p → (filter p).out =
  chars p ++ (filteredOutput ++ (nonVowels (chars p)).take (bufferSpace - 1) ++ [newline])

/-- A complete line has at most 998 characters before its newline, and at most 510 where the
stream ends, and the line that is not complete has at most 1000. -/
structure Fits (p : List UInt8) : Prop where
  lines : ∀ l ∈ fullLines newline (chars p), l.length ≤ 998
  last : (lastLine newline (chars p)).length ≤ 1000
  short : 255 ∈ p → ∀ l ∈ fullLines newline (chars p), l.length ≤ 510
  few : 255 ∈ p → (chars p).count newline < 2 ^ 31

section

variable {p : List UInt8}

/-- A line is printed in full when it has at most 510 characters. -/
theorem printed_iff {ls : List (List UInt8)} :
    (ls.map fun l => (l ++ [newline]).take (maxLength - 1)) = ls.map (· ++ [newline]) ↔
      ∀ l ∈ ls, l.length ≤ 510 := by
  rw [List.map_inj_left]
  refine forall₂_congr fun l _ => ?_
  rw [List.take_eq_self_iff, List.length_append]
  exact Nat.succ_le_succ_iff

theorem doubled_short {cs : List UInt8} (h : ∀ l ∈ fullLines newline cs, l.length ≤ 510) :
    doubled (·.take (maxLength - 1)) cs = doubled id cs := by
  have hprint : ∀ l ∈ fullLines newline cs,
      l ++ [newline] ++ (l ++ [newline]).take (maxLength - 1) = l ++ [newline] ++ (l ++ [newline]) := by
    intro l hl
    rw [List.map_inj_left.mp (printed_iff.mpr h) l hl]
  rw [doubled, List.flatMap_def, List.map_congr_left hprint, ← List.flatMap_def]
  rfl

theorem newlines_iff {n : Nat} : (Int32.ofNat n).toInt = n ↔ n < 2 ^ 31 := by
  constructor
  · intro h
    have hlt := (Int32.ofNat n).toInt_lt
    omega
  · exact Int32.toInt_ofNat_of_lt

theorem meets_iff (p : List UInt8) : Meets p ↔ Fits p := by
  obtain ⟨hcat, -⟩ := cat_kept p
  rw [← cat_state] at hcat
  have hfilter := filter_kept p
  constructor
  · intro h
    obtain ⟨hlines, hlast⟩ := hcat.inside.mp h.catInside
    refine ⟨hlines, hlast, fun hp => printed_iff.mp ?_, fun hp => newlines_iff.mp ?_⟩
    · rw [← hcat.printed]
      exact (h.lines hp).1
    · rw [← wc_lines hp]
      exact (h.newlines hp).1
  · intro h
    refine ⟨hcat.inside.mpr ⟨h.lines, h.last⟩, hcat.terminated h.lines, hfilter.inside,
      hfilter.text.2, fun hp => ?_, fun _ => hfilter.text.1, fun hp => ?_⟩
    · rw [hcat.printed, cat_out hp, doubled_short (h.short hp)]
      exact ⟨printed_iff.mpr (h.short hp), rfl⟩
    · rw [wc_lines hp, wc_out hp (h.few hp)]
      exact ⟨newlines_iff.mpr (h.few hp), rfl⟩

theorem printsResult_iff (p : List UInt8) :
    PrintsResult p ↔ (255 ∈ p → (nonVowels (chars p)).length ≤ 492) := by
  refine forall_congr' fun hp => ?_
  rw [filter_out hp, List.append_cancel_left_eq, List.take_eq_self_iff]
  have hfiltered : filteredOutput.length = 18 := rfl
  rw [List.length_append, List.length_append, List.length_take, List.length_singleton, hfiltered,
    bufferSpace, maxLength]
  omega

end

/-- For every stream, the programs are right all along exactly when the lines fit and there are
not too many of them. The result of `filter` is printed in full when it is also short enough. -/
theorem streams_iff (input : Input) :
    ((∀ p, input.Starts p → Meets p) ↔ ∀ p, input.Starts p → Fits p) ∧
      ((∀ p, input.Starts p → Meets p ∧ PrintsResult p) ↔
        ∀ p, input.Starts p → Fits p ∧ (255 ∈ p → (nonVowels (chars p)).length ≤ 492)) :=
  ⟨forall₂_congr fun p _ => meets_iff p,
    forall₂_congr fun p _ => and_congr (meets_iff p) (printsResult_iff p)⟩

/-- 1001 characters without a newline, and a line of 600 characters. -/
theorem cat_exceeds :
    (¬ ∀ p, (Input.finite (List.replicate 1001 97)).Starts p → Meets p) ∧
      ¬ ∀ p, (Input.finite (List.replicate 600 97 ++ [newline, 255])).Starts p → Meets p := by
  have hlast : (lastLine newline (chars (List.replicate 1001 97))).length = 1001 := by decide +kernel
  have hline : List.replicate 600 97 ∈
      fullLines newline (chars (List.replicate 600 97 ++ [newline, 255])) := by decide +kernel
  constructor
  · intro h
    have hfits := (meets_iff _).mp (h _ (List.prefix_refl _))
    exact absurd (hlast ▸ hfits.last) (by decide)
  · intro h
    have hfits := (meets_iff _).mp (h _ (List.prefix_refl _))
    have hle := hfits.short (by decide +kernel) _ hline
    rw [List.length_replicate] at hle
    exact absurd hle (by decide)

end SoKernel.Streams
