import Mathlib.Data.UInt
import SoKernel.Lib.Run

/-!
# Text on the screen

The cursor of `textModule.c`: the functions that move it, with what they draw. Colours, the
bitmaps of the glyphs and the pixels of the frame buffer are left out. All quantities are
`uint64_t`, and wrap.

Results:
1. `fontSize_iff`: the font size stays in range exactly when no sum or difference wraps.
2. `onScreen_iff`: the cursor and the glyphs stay on the screen exactly when two kinds of
   call are not made: a backspace left of the width of a character, and a tab or a wrap at a
   row that is not all on the screen.
-/

namespace SoKernel.Text

/-- The screen: `getWidth()` and `getHeight()`. -/
structure Screen where
  width : UInt16
  height : UInt16
deriving DecidableEq, Repr

/-- `x_pos`, `y_pos` and `fontSize`. -/
structure Cursor where
  x : UInt64
  y : UInt64
  fontSize : UInt64
deriving DecidableEq, Repr

/-- What a function does to the screen. -/
inductive Drawn
  /-- A character of the font, in the cell at a position. -/
  | glyph (c : UInt8) (x y fontSize : UInt64)
  | erased (x y fontSize : UInt64)
  | scrolled (amount : UInt64)
  | cleared
deriving DecidableEq, Repr

/-- The variables at boot. -/
def bootCursor : Cursor := ⟨0, 0, 2⟩

/-- `font_width` -/
def fontWidth : UInt64 := 8

/-- `font_height` -/
def fontHeight : UInt64 := 8

/-- `TOPE_FONT` -/
def topeFont : UInt64 := 5

def newline : UInt8 := 10

def tab : UInt8 := 9

def backspace : UInt8 := 8

def space : UInt8 := 32

/-! ## `textModule.c` -/

/-- `fontSizeUp` -/
def fontSizeUp (s : Cursor) (increase : UInt64) : Cursor :=
  if s.fontSize + increase ≤ topeFont then { s with fontSize := s.fontSize + increase } else s

/-- `fontSizeDown` -/
def fontSizeDown (s : Cursor) (decrease : UInt64) : Cursor :=
  if s.fontSize - decrease ≥ 1 then { s with fontSize := s.fontSize - decrease } else s

section

variable (scr : Screen) (s : Cursor)

/-- `moveScreenUpIfFull`; `MARGIN` is 0. -/
def moveScreenUpIfFull : Cursor × List Drawn :=
  if s.y ≥ scr.height.toUInt64 - fontHeight * s.fontSize then
    let scrollAmount := fontHeight * s.fontSize
    ({ s with y := s.y - scrollAmount }, [.scrolled scrollAmount])
  else (s, [])

/-- `lineFeed` -/
def lineFeed : Cursor × List Drawn :=
  moveScreenUpIfFull scr { s with y := s.y + fontHeight * s.fontSize, x := 0 }

/-- `clearText` -/
def clearText : Cursor × List Drawn := ({ s with x := 0, y := 0 }, [.cleared])

/-- `deleteChar` -/
def deleteChar : Cursor × List Drawn :=
  let s :=
    if s.x = 0 then
      if s.y > 0 then
        { s with x := scr.width.toUInt64 - fontWidth * s.fontSize
                 y := s.y - s.fontSize * fontHeight }
      else s
    else { s with x := s.x - s.fontSize * fontWidth }
  (s, [.erased s.x s.y s.fontSize])

/-- The end of `putChar`. -/
def drawGlyph (c : UInt8) : Cursor × List Drawn :=
  ({ s with x := s.x + fontWidth * s.fontSize }, [.glyph c s.x s.y s.fontSize])

/-- `putChar` -/
def putChar (charToPrint : UInt8) : Cursor × List Drawn :=
  if charToPrint = newline ∨ s.x + fontWidth * s.fontSize > scr.width.toUInt64 then
    let (s, drawn) := lineFeed scr s
    if charToPrint = newline then (s, drawn)
    else
      let (s, drawn') := drawGlyph s charToPrint
      (s, drawn ++ drawn')
  else if charToPrint = tab then drawGlyph s space
  else if charToPrint = backspace then deleteChar scr s
  else if s.y + fontHeight * s.fontSize > scr.height.toUInt64 then
    let (s, drawn) := clearText s
    let (s, drawn') := drawGlyph s charToPrint
    (s, drawn ++ drawn')
  else drawGlyph s charToPrint

end

/-- `printStr` -/
def printStr (scr : Screen) : Cursor → List UInt8 → Cursor × List Drawn
  | s, [] => (s, [])
  | s, c :: cs =>
    let (s, drawn) := putChar scr s c
    let (s, drawn') := printStr scr s cs
    (s, drawn ++ drawn')

/-! ## 1. The font size -/

/-- The system calls that change the font size. -/
inductive FontCall
  | up (increase : UInt64)
  | down (decrease : UInt64)
deriving DecidableEq, Repr

namespace FontCall

def run (s : Cursor) : FontCall → Cursor
  | .up increase => fontSizeUp s increase
  | .down decrease => fontSizeDown s decrease

/-- The size asked for. -/
def result (s : Cursor) : FontCall → Int
  | .up increase => s.fontSize.toNat + increase.toNat
  | .down decrease => s.fontSize.toNat - decrease.toNat

/-- The sum or difference fits in 64 bits. -/
def Exact (s : Cursor) : FontCall → Prop
  | .up increase => s.fontSize.toNat + increase.toNat < 2 ^ 64
  | .down decrease => decrease ≤ s.fontSize

instance (s : Cursor) : (call : FontCall) → Decidable (call.Exact s)
  | .up increase => inferInstanceAs (Decidable (s.fontSize.toNat + increase.toNat < 2 ^ 64))
  | .down decrease => inferInstanceAs (Decidable (decrease ≤ s.fontSize))

end FontCall

/-- A font size from 1 to `TOPE_FONT`. -/
def InRange (s : Cursor) : Prop := 1 ≤ s.fontSize ∧ s.fontSize ≤ topeFont

instance (s : Cursor) : Decidable (InRange s) := inferInstanceAs (Decidable (_ ∧ _))

/-- The size is in range after the call, which does nothing if the size asked for is not. -/
def FontCall.Meets (s : Cursor) (call : FontCall) : Prop :=
  InRange (call.run s) ∧ (¬ (1 ≤ call.result s ∧ call.result s ≤ topeFont.toNat) → call.run s = s)

theorem inRange_iff {s : Cursor} : InRange s ↔ 1 ≤ s.fontSize.toNat ∧ s.fontSize.toNat ≤ 5 := by
  rw [InRange, UInt64.le_iff_toNat_le, UInt64.le_iff_toNat_le]
  rfl

/-- A sum that wraps is below the font size, and a difference that wraps above it. -/
theorem FontCall.meets_iff {s : Cursor} (hs : InRange s) (call : FontCall) :
    call.Meets s ↔ call.Exact s := by
  obtain ⟨hlow, hhigh⟩ := inRange_iff.mp hs
  have hsame : ∀ {n : UInt64}, { s with fontSize := n } = s ↔ n.toNat = s.fontSize.toNat := by
    intro n
    rw [UInt64.toNat_inj, Cursor.mk.injEq]
    simp
  have htope : topeFont.toNat = 5 := rfl
  cases call with
  | up increase =>
    have hlt := increase.toNat_lt
    have hguard : s.fontSize + increase ≤ topeFont ↔
        (s.fontSize.toNat + increase.toNat) % 2 ^ 64 ≤ 5 := by
      rw [UInt64.le_iff_toNat_le, UInt64.toNat_add, htope]
    simp only [Meets, Exact, run, fontSizeUp, result, hguard]
    split
    · rw [inRange_iff, hsame, UInt64.toNat_add, htope]
      omega
    · simp only [hs, true_and, implies_true, true_iff]
      omega
  | down decrease =>
    have hlt := decrease.toNat_lt
    have hguard : s.fontSize - decrease ≥ 1 ↔
        1 ≤ (2 ^ 64 - decrease.toNat + s.fontSize.toNat) % 2 ^ 64 := by
      rw [ge_iff_le, UInt64.le_iff_toNat_le, UInt64.toNat_sub]
      rfl
    simp only [Meets, Exact, run, fontSizeDown, result, hguard, UInt64.le_iff_toNat_le]
    split
    · rw [inRange_iff, hsame, UInt64.toNat_sub, htope]
      omega
    · simp only [hs, true_and, implies_true, true_iff]
      omega

/-- Every call leaves a size from 1 to 5, and does nothing if it asks for another one, exactly
when no call asks for a size that 64 bits cannot hold. -/
theorem fontSize_iff (calls : List FontCall) :
    Along FontCall.run (fun s call => call.Meets s) bootCursor calls ↔
      Along FontCall.run (fun s call => call.Exact s) bootCursor calls := by
  refine Along.iff InRange (fun _ _ => True) (by decide) (Along.all ?_) ?_ ?_
  · exact fun _ _ => trivial
  · exact fun _ call hs _ => call.meets_iff hs
  · exact fun _ _ _ _ hmeets => hmeets.1

/-- One call makes the size `2 ^ 64 - 1`, the other one 0. -/
theorem fontSize_wraps :
    ¬ Along FontCall.run (fun s call => call.Meets s) bootCursor [.down 3] ∧
      ¬ Along FontCall.run (fun s call => call.Meets s) bootCursor [.up (2 ^ 64 - 2)] := by
  refine ⟨fun h => ?_, fun h => ?_⟩
  · exact absurd h.1.1 (by decide +kernel)
  · exact absurd h.1.1 (by decide +kernel)

/-! ## 2. The cursor and the screen -/

/-- The side of a cell. -/
def Cursor.cell (s : Cursor) : Nat := 8 * s.fontSize.toNat

section

variable {scr : Screen} {s : Cursor}

theorem InRange.cell_le (hs : InRange s) : 8 ≤ s.cell ∧ s.cell ≤ 40 := by
  obtain ⟨hlow, hhigh⟩ := inRange_iff.mp hs
  unfold Cursor.cell
  omega

theorem InRange.toNat_height (hs : InRange s) : (fontHeight * s.fontSize).toNat = s.cell := by
  have hle := hs.cell_le.2
  rw [UInt64.toNat_mul]
  exact Nat.mod_eq_of_lt (Nat.lt_of_le_of_lt hle (by decide))

theorem InRange.toNat_width (hs : InRange s) : (fontWidth * s.fontSize).toNat = s.cell :=
  hs.toNat_height

/-- One cell on from a coordinate on the screen. -/
theorem InRange.toNat_add (hs : InRange s) {a f : UInt64} {n : UInt16} (hf : f.toNat = s.cell)
    (ha : a.toNat ≤ n.toNat) : (a + f).toNat = a.toNat + s.cell := by
  have hn := n.toNat_lt
  have hle := hs.cell_le.2
  rw [UInt64.toNat_add, hf]
  omega

/-- One cell back, which wraps when there is none. -/
theorem InRange.toNat_sub (hs : InRange s) {a f : UInt64} (hf : f.toNat = s.cell) :
    (a - f).toNat = if s.cell ≤ a.toNat then a.toNat - s.cell else a.toNat + 2 ^ 64 - s.cell := by
  have ha := a.toNat_lt
  have hle := hs.cell_le.2
  rw [UInt64.toNat_sub, hf]
  split <;> omega

/-- A new line below, or the last one again with the screen moved up. -/
theorem lineFeed_cases (hs : InRange s) (hh : s.cell ≤ scr.height.toNat)
    (hy : s.y.toNat ≤ scr.height.toNat) :
    (s.y.toNat + 2 * s.cell < scr.height.toNat ∧
      lineFeed scr s = ({ s with x := 0, y := s.y + fontHeight * s.fontSize }, [])) ∨
    (scr.height.toNat ≤ s.y.toNat + 2 * s.cell ∧
      lineFeed scr s = ({ s with x := 0 }, [.scrolled (fontHeight * s.fontSize)])) := by
  have hlt := scr.height.toNat_lt
  have hfull : s.y + fontHeight * s.fontSize ≥ scr.height.toUInt64 - fontHeight * s.fontSize ↔
      scr.height.toNat ≤ s.y.toNat + 2 * s.cell := by
    rw [ge_iff_le, UInt64.le_iff_toNat_le, hs.toNat_add hs.toNat_height hy, UInt64.toNat_sub,
      hs.toNat_height, UInt16.toNat_toUInt64]
    omega
  rw [lineFeed, moveScreenUpIfFull]
  by_cases h : scr.height.toNat ≤ s.y.toNat + 2 * s.cell
  · refine .inr ⟨h, ?_⟩
    rw [if_pos (hfull.mpr h)]
    simp only [UInt64.add_sub_cancel]
  · exact .inl ⟨Nat.lt_of_not_le h, if_neg (fun hf => h (hfull.mp hf))⟩

/-- The test of `putChar` for the end of the row. -/
theorem wraps_iff (hs : InRange s) (hx : s.x.toNat ≤ scr.width.toNat) :
    s.x + fontWidth * s.fontSize > scr.width.toUInt64 ↔
      scr.width.toNat < s.x.toNat + s.cell := by
  rw [gt_iff_lt, UInt64.lt_iff_toNat_lt, hs.toNat_add hs.toNat_width hx, UInt16.toNat_toUInt64]

/-- Its test for the end of the screen. -/
theorem overflows_iff (hs : InRange s) (hy : s.y.toNat ≤ scr.height.toNat) :
    s.y + fontHeight * s.fontSize > scr.height.toUInt64 ↔
      scr.height.toNat < s.y.toNat + s.cell := by
  rw [gt_iff_lt, UInt64.lt_iff_toNat_lt, hs.toNat_add hs.toNat_height hy, UInt16.toNat_toUInt64]

/-! `putChar`, case by case, for a cursor on the screen. -/

theorem putChar_newline : putChar scr s newline = lineFeed scr s := by
  simp [putChar]

theorem putChar_wrap (hs : InRange s) (hx : s.x.toNat ≤ scr.width.toNat) {c : UInt8}
    (hc : c ≠ newline) (hwrap : scr.width.toNat < s.x.toNat + s.cell) :
    putChar scr s c = ((drawGlyph (lineFeed scr s).1 c).1,
      (lineFeed scr s).2 ++ (drawGlyph (lineFeed scr s).1 c).2) := by
  rw [putChar, if_pos (.inr ((wraps_iff hs hx).mpr hwrap))]
  simp only [hc, if_false]

section

variable (hs : InRange s) (hx : s.x.toNat ≤ scr.width.toNat)
  (hroom : s.x.toNat + s.cell ≤ scr.width.toNat)

include hs hx hroom

theorem not_wraps {c : UInt8} (hc : c ≠ newline) :
    ¬ (c = newline ∨ s.x + fontWidth * s.fontSize > scr.width.toUInt64) := by
  rw [wraps_iff hs hx]
  exact fun h => h.elim hc (Nat.not_lt.mpr hroom)

theorem putChar_tab : putChar scr s tab = drawGlyph s space := by
  rw [putChar, if_neg (not_wraps hs hx hroom (by decide)), if_pos rfl]

theorem putChar_backspace : putChar scr s backspace = deleteChar scr s := by
  rw [putChar, if_neg (not_wraps hs hx hroom (by decide)), if_neg (by decide), if_pos rfl]

theorem putChar_clear (hy : s.y.toNat ≤ scr.height.toNat) {c : UInt8} (hc : c ≠ newline)
    (htab : c ≠ tab) (hback : c ≠ backspace) (hfull : scr.height.toNat < s.y.toNat + s.cell) :
    putChar scr s c = ((drawGlyph (clearText s).1 c).1, .cleared :: (drawGlyph (clearText s).1 c).2) := by
  rw [putChar, if_neg (not_wraps hs hx hroom hc), if_neg htab, if_neg hback,
    if_pos ((overflows_iff hs hy).mpr hfull)]
  rfl

theorem putChar_char (hy : s.y.toNat + s.cell ≤ scr.height.toNat) {c : UInt8} (hc : c ≠ newline)
    (htab : c ≠ tab) (hback : c ≠ backspace) : putChar scr s c = drawGlyph s c := by
  have hle : s.y.toNat ≤ scr.height.toNat := Nat.le_of_add_right_le hy
  rw [putChar, if_neg (not_wraps hs hx hroom hc), if_neg htab, if_neg hback,
    if_neg (fun h => Nat.not_lt.mpr hy ((overflows_iff hs hle).mp h))]

end

end

/-- The functions that move the cursor or change its size. -/
inductive Call
  | putChar (c : UInt8)
  | lineFeed
  | clearText
  | fontSizeUp (increase : UInt64)
  | fontSizeDown (decrease : UInt64)
deriving DecidableEq, Repr

section

variable (scr : Screen) (s : Cursor)

def Call.run : Call → Cursor × List Drawn
  | .putChar c => Text.putChar scr s c
  | .lineFeed => Text.lineFeed scr s
  | .clearText => Text.clearText s
  | .fontSizeUp increase => (Text.fontSizeUp s increase, [])
  | .fontSizeDown decrease => (Text.fontSizeDown s decrease, [])

/-- The cursor after a call. -/
def next (call : Call) : Cursor := (call.run scr s).1

def OnScreen : Prop := s.x.toNat ≤ scr.width.toNat ∧ s.y.toNat ≤ scr.height.toNat

instance : Decidable (OnScreen scr s) := inferInstanceAs (Decidable (_ ∧ _))

/-- The cell of a glyph is all on the screen: all of its 8 by 8 squares count, also those that the
character leaves blank. -/
def Drawn.Inside : Drawn → Prop
  | .glyph _ x y fontSize =>
    x.toNat + 8 * fontSize.toNat ≤ scr.width.toNat ∧
      y.toNat + 8 * fontSize.toNat ≤ scr.height.toNat
  | _ => True

instance : (d : Drawn) → Decidable (d.Inside scr)
  | .glyph _ _ _ _ => inferInstanceAs (Decidable (_ ∧ _))
  | .erased _ _ _ => .isTrue trivial
  | .scrolled _ => .isTrue trivial
  | .cleared => .isTrue trivial

/-- The call leaves the cursor on the screen, and draws on the screen. -/
def Contained (call : Call) : Prop :=
  OnScreen scr (next scr s call) ∧ ∀ d ∈ (call.run scr s).2, d.Inside scr

instance (call : Call) : Decidable (Contained scr s call) := inferInstanceAs (Decidable (_ ∧ _))

/-- The row of the cursor is on the screen when the call draws there without a test, and a
backspace has a cell to its left, or is in front of a row with one above it. -/
def Sound : Call → Prop
  | .putChar c =>
    if c = newline then True
    else if scr.width.toNat < s.x.toNat + s.cell ∨ c = tab then
      s.y.toNat + s.cell ≤ scr.height.toNat
    else if c = backspace then
      s.cell ≤ s.x.toNat ∨ s.x = 0 ∧ (s.y = 0 ∨ s.cell ≤ s.y.toNat)
    else True
  | _ => True

instance : (call : Call) → Decidable (Sound scr s call)
  | .putChar c => inferInstanceAs (Decidable (if c = newline then _ else _))
  | .lineFeed => .isTrue trivial
  | .clearText => .isTrue trivial
  | .fontSizeUp _ => .isTrue trivial
  | .fontSizeDown _ => .isTrue trivial

end

section

variable {scr : Screen} {s : Cursor}

theorem drawGlyph_contained (hs : InRange s) (hon : OnScreen scr s) (c : UInt8)
    (hx : s.x.toNat + s.cell ≤ scr.width.toNat) :
    OnScreen scr (drawGlyph s c).1 ∧
      ((∀ d ∈ (drawGlyph s c).2, d.Inside scr) ↔ s.y.toNat + s.cell ≤ scr.height.toNat) := by
  have hadd : (s.x + fontWidth * s.fontSize).toNat = s.x.toNat + s.cell :=
    hs.toNat_add hs.toNat_width hon.1
  refine ⟨⟨Nat.le_trans (Nat.le_of_eq hadd) hx, hon.2⟩, ?_⟩
  rw [drawGlyph, List.forall_mem_singleton]
  exact and_iff_right hx

theorem eq_zero_iff {a : UInt64} : a = 0 ↔ a.toNat = 0 := by
  rw [← UInt64.toNat_inj]
  rfl

theorem deleteChar_onScreen (hs : InRange s) (hon : OnScreen scr s)
    (hw : s.cell ≤ scr.width.toNat) :
    OnScreen scr (deleteChar scr s).1 ↔
      s.cell ≤ s.x.toNat ∨ s.x = 0 ∧ (s.y = 0 ∨ s.cell ≤ s.y.toNat) := by
  obtain ⟨hx, hy⟩ := hon
  have hmul : (s.fontSize * fontHeight).toNat = s.cell := by
    rw [UInt64.mul_comm]
    exact hs.toNat_height
  have hwidth : (scr.width.toUInt64 - fontWidth * s.fontSize).toNat ≤ scr.width.toNat := by
    rw [hs.toNat_sub hs.toNat_width, UInt16.toNat_toUInt64, if_pos hw]
    exact Nat.sub_le _ _
  have hwlt := scr.width.toNat_lt
  have hhlt := scr.height.toNat_lt
  have hcell := hs.cell_le
  rw [deleteChar, OnScreen]
  by_cases hx0 : s.x = 0
  · by_cases hy0 : s.y > 0
    · rw [if_pos hx0, if_pos hy0]
      rw [gt_iff_lt, UInt64.lt_iff_toNat_lt, UInt64.toNat_zero] at hy0
      simp only [hwidth, true_and, hs.toNat_sub hmul, hx0, eq_zero_iff, UInt64.toNat_zero]
      split <;> omega
    · have hyz : s.y = 0 := by
        rw [gt_iff_lt, UInt64.lt_iff_toNat_lt, UInt64.toNat_zero] at hy0
        exact eq_zero_iff.mpr (Nat.eq_zero_of_not_pos hy0)
      rw [if_pos hx0, if_neg hy0]
      exact iff_of_true ⟨hx, hy⟩ (.inr ⟨hx0, .inl hyz⟩)
  · rw [if_neg hx0]
    have hsub := hs.toNat_sub (a := s.x) (f := s.fontSize * fontWidth) hmul
    simp only [hsub, hx0, false_and, or_false]
    split <;> omega

theorem lineFeed_contained (hs : InRange s) (hon : OnScreen scr s)
    (hh : s.cell ≤ scr.height.toNat) :
    OnScreen scr (lineFeed scr s).1 ∧ (∀ d ∈ (lineFeed scr s).2, d.Inside scr) ∧
      (lineFeed scr s).1.x = 0 ∧ (lineFeed scr s).1.fontSize = s.fontSize ∧
      ((lineFeed scr s).1.y.toNat + s.cell ≤ scr.height.toNat ↔
        s.y.toNat + s.cell ≤ scr.height.toNat) := by
  have hadd := hs.toNat_add hs.toNat_height hon.2
  rcases lineFeed_cases hs hh hon.2 with ⟨hroom, h⟩ | ⟨-, h⟩
  · rw [h]
    refine ⟨⟨Nat.zero_le _, ?_⟩, fun d hd => absurd hd List.not_mem_nil, rfl, rfl, ?_⟩
    · simp only [hadd]
      omega
    · simp only [hadd]
      omega
  · rw [h]
    refine ⟨⟨Nat.zero_le _, hon.2⟩, fun d hd => ?_, rfl, rfl, .rfl⟩
    rw [List.mem_singleton.mp hd]
    trivial

/-- A character that is printed behind the end of a row. -/
theorem putChar_wrapped {c : UInt8} (hs : InRange s) (hon : OnScreen scr s)
    (hcw : s.cell ≤ scr.width.toNat) (hch : s.cell ≤ scr.height.toNat) (hnl : c ≠ newline)
    (hwrap : scr.width.toNat < s.x.toNat + s.cell) :
    Contained scr s (.putChar c) ↔ s.y.toNat + s.cell ≤ scr.height.toNat := by
  obtain ⟨hfon, hfdrawn, hfx, hfsize, hfy⟩ := lineFeed_contained hs hon hch
  have hs' : InRange (lineFeed scr s).1 := by
    rw [InRange, hfsize]
    exact hs
  have hcell : (lineFeed scr s).1.cell = s.cell := congrArg (8 * UInt64.toNat ·) hfsize
  obtain ⟨hon', hdraw⟩ := drawGlyph_contained hs' hfon c (by rw [hfx, hcell]; simpa using hcw)
  simp only [Contained, next, Call.run]
  rw [putChar_wrap hs hon.1 hnl hwrap, List.forall_mem_append, hdraw, hcell, hfy]
  exact ⟨fun h => h.2.2, fun h => ⟨hon', hfdrawn, h⟩⟩

/-- A character that is printed in its row, or on a cleared screen when its row is below the
screen. -/
theorem putChar_inside {c : UInt8} (hs : InRange s) (hon : OnScreen scr s)
    (hcw : s.cell ≤ scr.width.toNat) (hch : s.cell ≤ scr.height.toNat) (hnl : c ≠ newline)
    (htab : c ≠ tab) (hback : c ≠ backspace) (hroom : s.x.toNat + s.cell ≤ scr.width.toNat) :
    Contained scr s (.putChar c) := by
  simp only [Contained, next, Call.run]
  by_cases hfull : scr.height.toNat < s.y.toNat + s.cell
  · have hon₀ : OnScreen scr (clearText s).1 := ⟨Nat.zero_le _, Nat.zero_le _⟩
    obtain ⟨hon', hdraw⟩ := drawGlyph_contained (s := (clearText s).1) hs hon₀ c
      (by simpa [clearText, Cursor.cell] using hcw)
    rw [putChar_clear hs hon.1 hroom hon.2 hnl htab hback hfull]
    refine ⟨hon', List.forall_mem_cons.mpr ⟨trivial, hdraw.mpr ?_⟩⟩
    simpa [clearText, Cursor.cell] using hch
  · have hrow : s.y.toNat + s.cell ≤ scr.height.toNat := Nat.le_of_not_lt hfull
    obtain ⟨hon', hdraw⟩ := drawGlyph_contained hs hon c hroom
    rw [putChar_char hs hon.1 hroom hrow hnl htab hback]
    exact ⟨hon', hdraw.mpr hrow⟩

theorem putChar_contained (hs : InRange s) (hon : OnScreen scr s)
    (hcw : s.cell ≤ scr.width.toNat) (hch : s.cell ≤ scr.height.toNat) (c : UInt8) :
    Contained scr s (.putChar c) ↔ Sound scr s (.putChar c) := by
  rw [Sound]
  by_cases hnl : c = newline
  · obtain ⟨hfon, hfdrawn, -⟩ := lineFeed_contained hs hon hch
    rw [if_pos hnl, hnl]
    simp only [Contained, next, Call.run, putChar_newline]
    exact iff_of_true ⟨hfon, hfdrawn⟩ trivial
  rw [if_neg hnl]
  by_cases hwrap : scr.width.toNat < s.x.toNat + s.cell
  · rw [if_pos (.inl hwrap)]
    exact putChar_wrapped hs hon hcw hch hnl hwrap
  have hroom : s.x.toNat + s.cell ≤ scr.width.toNat := Nat.le_of_not_lt hwrap
  by_cases htab : c = tab
  · obtain ⟨hon', hdraw⟩ := drawGlyph_contained hs hon space hroom
    rw [if_pos (.inr htab), htab]
    simp only [Contained, next, Call.run]
    rw [putChar_tab hs hon.1 hroom, hdraw]
    exact and_iff_right hon'
  rw [if_neg (not_or.mpr ⟨hwrap, htab⟩)]
  by_cases hback : c = backspace
  · rw [if_pos hback, hback]
    simp only [Contained, next, Call.run]
    rw [putChar_backspace hs hon.1 hroom, deleteChar_onScreen hs hon hcw]
    refine and_iff_left fun d hd => ?_
    rw [List.mem_singleton.mp hd]
    trivial
  · rw [if_neg hback]
    exact iff_of_true (putChar_inside hs hon hcw hch hnl htab hback hroom) trivial

/-- One call on a screen with room for the largest character. -/
theorem contained_iff (hw : 40 ≤ scr.width.toNat) (hh : 80 ≤ scr.height.toNat) (hs : InRange s)
    (hon : OnScreen scr s) (call : Call) : Contained scr s call ↔ Sound scr s call := by
  have hcell := hs.cell_le
  have hcw : s.cell ≤ scr.width.toNat := Nat.le_trans hcell.2 hw
  have hch : s.cell ≤ scr.height.toNat := Nat.le_trans hcell.2 (Nat.le_trans (by decide) hh)
  cases call with
  | putChar c => exact putChar_contained hs hon hcw hch c
  | lineFeed =>
    obtain ⟨hfon, hfdrawn, -⟩ := lineFeed_contained hs hon hch
    exact iff_of_true ⟨hfon, hfdrawn⟩ trivial
  | clearText =>
    refine iff_of_true ⟨⟨Nat.zero_le _, Nat.zero_le _⟩, fun d hd => ?_⟩ trivial
    rw [List.mem_singleton.mp hd]
    trivial
  | fontSizeUp increase =>
    have hsame : OnScreen scr (fontSizeUp s increase) := by
      unfold fontSizeUp
      split <;> exact hon
    exact iff_of_true ⟨hsame, fun d hd => absurd hd List.not_mem_nil⟩ trivial
  | fontSizeDown decrease =>
    have hsame : OnScreen scr (fontSizeDown s decrease) := by
      unfold fontSizeDown
      split <;> exact hon
    exact iff_of_true ⟨hsame, fun d hd => absurd hd List.not_mem_nil⟩ trivial

/-- On a screen of at least 40 by 80 pixels, and with calls that keep the font size from 1 to
5, the cursor and every glyph stay on the screen exactly when each call is sound. -/
theorem onScreen_iff (hw : 40 ≤ scr.width.toNat) (hh : 80 ≤ scr.height.toNat) (calls : List Call)
    (hsize : Along (next scr) (fun s call => InRange (next scr s call)) bootCursor calls) :
    Along (next scr) (Contained scr) bootCursor calls ↔
      Along (next scr) (Sound scr) bootCursor calls := by
  refine Along.iff (fun s => InRange s ∧ OnScreen scr s) _ ⟨by decide, ?_⟩ hsize ?_ ?_
  · exact ⟨Nat.zero_le _, Nat.zero_le _⟩
  · exact fun s call hinv _ => contained_iff hw hh hinv.1 hinv.2 call
  · exact fun s call _ hnext hcont => ⟨hnext, hcont.1⟩

end

/-- A word typed and taken back, a new line, and a larger font. -/
theorem onScreen_iff_word :
    let scr : Screen := ⟨1024, 768⟩
    Along (next scr) (Contained scr) bootCursor [.putChar 111, .putChar 107, .putChar backspace,
      .putChar backspace, .putChar newline, .fontSizeUp 1, .putChar 33] :=
  (onScreen_iff (by decide) (by decide) _ (by decide +kernel)).mpr (by decide +kernel)

/-- A character of the smallest font taken back in a larger one: the column wraps. And a
character of the largest font that is printed behind one of the smallest font, in the last row
of that font: most of it is below the screen. -/
theorem leaves_screen :
    let scr : Screen := ⟨40, 80⟩
    let small : List Call := [.fontSizeDown 1, .putChar 97, .fontSizeUp 1, .putChar backspace]
    let large : List Call := [.fontSizeDown 1, .lineFeed, .lineFeed, .lineFeed, .lineFeed, .lineFeed,
      .lineFeed, .lineFeed, .lineFeed, .putChar 97, .fontSizeUp 4, .putChar 98]
    (Along (next scr) (fun s call => InRange (next scr s call)) bootCursor small ∧
      ¬ Along (next scr) (Contained scr) bootCursor small) ∧
    Along (next scr) (fun s call => InRange (next scr s call)) bootCursor large ∧
      ¬ Along (next scr) (Contained scr) bootCursor large := by
  decide +kernel

end SoKernel.Text
