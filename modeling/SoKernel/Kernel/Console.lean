import SoKernel.Kernel.VideoDriver

/-!
# The text module on the frame buffer

The functions of `textModule.c` with the memory they draw in. The font `font8x8_basic` is a
parameter; a character that is not in it would be looked up behind the array.

Results:
1. `putChar_renders`: each function moves the cursor as `TextModule` says, and paints what
   `TextModule` says it draws.
2. `run_renders`: so does every run, and nothing outside the frame buffer is written.
-/

namespace SoKernel.Console

open Text Video

/-- `font8x8_basic[c][i]`: a row of a character, with a bit for each pixel. -/
abbrev Font := UInt8 → Nat → UInt8

/-- The variables of the text module, and the memory. -/
structure Display where
  cursor : Cursor
  mem : Image.Mem

/-- The pixel `j` of the row `i` of a character is set. -/
def Font.bit (font : Font) (c : UInt8) (i j : Nat) : Bool :=
  ((1 : UInt8) <<< UInt8.ofNat j) &&& font c i != 0

section

variable (vbe : ModeInfo) (font : Font)

/-- The loops of `deleteChar`. -/
def eraseCell (mem : Image.Mem) (x y fontSize : UInt64) : Image.Mem :=
  forUp 0 8 (fun mem i =>
    forUp 0 8 (fun mem j =>
      (drawSquare vbe mem (x + .ofNat i * fontSize) (y + .ofNat j * fontSize) fontSize 0).1) mem) mem

/-- The loops of `putChar`. -/
def drawFont (mem : Image.Mem) (c : UInt8) (x y fontSize : UInt64) (color : UInt32) : Image.Mem :=
  forUp 0 8 (fun mem i =>
    forUp 0 8 (fun mem j =>
      if font.bit c i j then
        (drawSquare vbe mem (x + .ofNat j * fontSize) (y + .ofNat i * fontSize) fontSize color).1
      else mem) mem) mem

/-- `moveScreenUpIfFull` -/
def moveScreenUpIfFull (s : Display) : Display :=
  let fontSize := s.cursor.fontSize
  if s.cursor.y ≥ vbe.height.toUInt64 - fontHeight * fontSize then
    let frameBuffer := vbe.framebuffer.toNat
    let pitch := vbe.pitch.toNat
    let height := vbe.height.toUInt64
    let scrollAmount := fontHeight * fontSize
    let mem := forUp 0 (height - scrollAmount).toNat (fun mem y =>
      Image.memcpy mem (frameBuffer + y * pitch)
        (frameBuffer + (y + scrollAmount.toNat) * pitch) pitch) s.mem
    let mem := forUp (height - scrollAmount).toNat height.toNat (fun mem y =>
      Image.memset mem (frameBuffer + y * pitch) 0 pitch) mem
    { cursor := { s.cursor with y := s.cursor.y - scrollAmount }, mem := mem }
  else s

/-- `lineFeed` -/
def lineFeed (s : Display) : Display :=
  let cursor := { s.cursor with y := s.cursor.y + fontHeight * s.cursor.fontSize, x := 0 }
  moveScreenUpIfFull vbe { s with cursor := cursor }

/-- `clearText` -/
def clearText (s : Display) (color : UInt32) : Display :=
  { cursor := { s.cursor with x := 0, y := 0 }, mem := clearScreen vbe s.mem color }

/-- `deleteChar` -/
def deleteChar (s : Display) : Display :=
  let c := s.cursor
  let c :=
    if c.x = 0 then
      if c.y > 0 then
        { c with x := vbe.width.toUInt64 - fontWidth * c.fontSize
                 y := c.y - c.fontSize * fontHeight }
      else c
    else { c with x := c.x - c.fontSize * fontWidth }
  { cursor := c, mem := eraseCell vbe s.mem c.x c.y c.fontSize }

/-- The end of `putChar`. -/
def drawGlyph (s : Display) (c : UInt8) (color : UInt32) : Option Display :=
  if c < 128 then
    let cursor := s.cursor
    some { cursor := { cursor with x := cursor.x + fontWidth * cursor.fontSize }
           mem := drawFont vbe font s.mem c cursor.x cursor.y cursor.fontSize color }
  else none

/-- `putChar` -/
def putChar (s : Display) (charToPrint : UInt8) (color : UInt32) : Option Display :=
  if charToPrint = newline ∨ s.cursor.x + fontWidth * s.cursor.fontSize > vbe.width.toUInt64 then
    let s := lineFeed vbe s
    if charToPrint = newline then some s else drawGlyph vbe font s charToPrint color
  else if charToPrint = tab then drawGlyph vbe font s space color
  else if charToPrint = backspace then some (deleteChar vbe s)
  else if s.cursor.y + fontHeight * s.cursor.fontSize > vbe.height.toUInt64 then
    drawGlyph vbe font (clearText vbe s 0) charToPrint color
  else drawGlyph vbe font s charToPrint color

/-- `printStr` -/
def printStr (color : UInt32) : Display → List UInt8 → Option Display
  | s, [] => some s
  | s, c :: cs => (putChar vbe font s c color).bind fun s => printStr color s cs

/-- The calls of the text module; the screen is always cleared to black. -/
def step (s : Display) (color : UInt32) : Text.Call → Option Display
  | .putChar c => putChar vbe font s c color
  | .lineFeed => some (lineFeed vbe s)
  | .clearText => some (clearText vbe s 0)
  | .fontSizeUp increase => some { s with cursor := fontSizeUp s.cursor increase }
  | .fontSizeDown decrease => some { s with cursor := fontSizeDown s.cursor decrease }

/-- Calls, each with its colour. -/
def run : Display → List (Text.Call × UInt32) → Option Display
  | s, [] => some s
  | s, (call, color) :: calls => (step vbe font s color call).bind fun s => run s calls

end

/-! ## What is drawn -/

section

variable (vbe : ModeInfo) (font : Font)

/-- The pixels of a cell, square by square. -/
def inCell (x y fontSize : UInt64) (on : Nat → Nat → Bool) (px py : Nat) : Bool :=
  (List.range 8).any fun i => (List.range 8).any fun j => on i j &&
    inSquare vbe.screen (x + .ofNat j * fontSize) (y + .ofNat i * fontSize) fontSize px py

/-- What is seen of a thing that is drawn. -/
def paint {w h : Nat} (color : UInt32) : Drawn → Picture (List UInt8) w h → Picture (List UInt8) w h
  | .glyph c x y fontSize => Picture.fill (inCell vbe x y fontSize (font.bit c)) (rgb color)
  | .erased x y fontSize => Picture.fill (inCell vbe x y fontSize fun _ _ => true) (rgb 0)
  | .scrolled amount => Picture.scroll amount.toNat (rgb 0)
  | .cleared => fun _ _ _ => rgb 0

def paintAll {w h : Nat} (color : UInt32) (drawn : List Drawn) (pic : Picture (List UInt8) w h) :
    Picture (List UInt8) w h :=
  drawn.foldl (fun pic d => paint vbe font color d pic) pic

/-- What a run paints. -/
def paintRun {w h : Nat} : Cursor → List (Text.Call × UInt32) → Picture (List UInt8) w h →
    Picture (List UInt8) w h
  | _, [], pic => pic
  | s, (call, color) :: calls, pic =>
    paintRun (next vbe.screen s call) calls
      (paintAll vbe font color (call.run vbe.screen s).2 pic)

end

/-- The display `s'` shows what the text module does to `s`. -/
structure Renders {vbe : ModeInfo} (L : vbe.Legal) (font : Font) (color : UInt32) (s : Display)
    (r : Cursor × List Drawn) (s' : Display) : Prop where
  cursor : s'.cursor = r.1
  paints : L.raster.Paints s.mem s'.mem (paintAll vbe font color r.2)

section

variable {vbe : ModeInfo} {font : Font} {color : UInt32} {s s1 s' : Display} {L : vbe.Legal}
  {drawn drawn' : List Drawn} {c c' : Cursor}

theorem paintAll_append {w h : Nat} (pic : Picture (List UInt8) w h) :
    paintAll vbe font color (drawn ++ drawn') pic =
      paintAll vbe font color drawn' (paintAll vbe font color drawn pic) := List.foldl_append

theorem Renders.trans (h : Renders L font color s (c, drawn) s1)
    (h' : Renders L font color s1 (c', drawn') s') :
    Renders L font color s (c', drawn ++ drawn') s' := by
  refine ⟨h'.cursor, (h.paints.trans h'.paints).congr fun pic => ?_⟩
  exact (paintAll_append pic).symm

/-- The eight rows of eight squares. -/
theorem cell_paints {x y fontSize : UInt64} {on : Nat → Nat → Bool} {mem : Image.Mem}
    {body : Image.Mem → Nat → Nat → Image.Mem}
    (hbody : ∀ mem i j, i < 8 → j < 8 → L.raster.Paints mem (body mem i j) (Picture.fill
      (fun px py => on i j && inSquare vbe.screen (x + .ofNat j * fontSize)
        (y + .ofNat i * fontSize) fontSize px py) (rgb color))) :
    L.raster.Paints mem (forUp 0 8 (fun mem i => forUp 0 8 (fun mem j => body mem i j) mem) mem)
      (Picture.fill (inCell vbe x y fontSize on) (rgb color)) := by
  refine forUp_paints L (fun i px py => (List.range 8).any fun j => on i j &&
    inSquare vbe.screen (x + .ofNat j * fontSize) (y + .ofNat i * fontSize) fontSize px py)
    (fun mem i _ hi => ?_) fun px _ py _ => ?_
  · refine forUp_paints L _ (fun mem j _ hj => hbody mem i j hi hj) fun px _ py _ => ?_
    simp
  · simp [inCell]

theorem drawFont_paints {x y fontSize : UInt64} {ch : UInt8} {mem : Image.Mem} :
    L.raster.Paints mem (drawFont vbe font mem ch x y fontSize color)
      (paint vbe font color (.glyph ch x y fontSize)) := by
  refine cell_paints fun mem i j _ _ => ?_
  split
  · next hbit =>
    simp only [hbit, Bool.true_and]
    exact drawSquare_paints L _ _ _
  · next hbit =>
    refine Raster.Paints.refl.congr fun pic => (Picture.fill_nothing fun _ _ _ _ => ?_).symm
    rw [Bool.not_eq_true _ |>.mp hbit, Bool.false_and]

theorem eraseCell_paints {x y fontSize : UInt64} {mem : Image.Mem} :
    L.raster.Paints mem (eraseCell vbe mem x y fontSize)
      (Picture.fill (inCell vbe x y fontSize fun _ _ => true) (rgb 0)) := by
  -- here the outer loop goes from left to right
  refine forUp_paints L (fun i px py => (List.range 8).any fun j =>
    inSquare vbe.screen (x + .ofNat i * fontSize) (y + .ofNat j * fontSize) fontSize px py)
    (fun mem i _ hi => ?_) fun px _ py _ => ?_
  · refine forUp_paints L _ (fun mem j _ _ => drawSquare_paints L _ _ _) fun px _ py _ => ?_
    simp
  · simp only [inCell, Bool.true_and, List.any_eq_true, List.mem_range, Nat.zero_le, true_and]
    constructor
    · rintro ⟨i, hi, j, hj, h⟩
      exact ⟨j, hj, i, hi, h⟩
    · rintro ⟨j, hj, i, hi, h⟩
      exact ⟨i, hi, j, hj, h⟩

/-! ## The functions -/

theorem clearText_renders :
    Renders L font color s (Text.clearText s.cursor) (clearText vbe s 0) :=
  ⟨rfl, clearScreen_paints L⟩

theorem deleteChar_renders :
    Renders L font color s (Text.deleteChar vbe.screen s.cursor) (deleteChar vbe s) :=
  ⟨rfl, eraseCell_paints⟩

theorem drawGlyph_renders {ch : UInt8} (hc : ch < 128) :
    ∃ s', drawGlyph vbe font s ch color = some s' ∧
      Renders L font color s (Text.drawGlyph s.cursor ch) s' :=
  ⟨_, if_pos hc, rfl, drawFont_paints⟩

/-- One row after the other is copied up, and the rows at the bottom are cleared. -/
theorem scrollRows_paints {n : Nat} (hpos : 0 < n) (hn : n ≤ vbe.height.toNat) {mem : Image.Mem} :
    L.raster.Paints mem
      (forUp (vbe.height.toNat - n) vbe.height.toNat (fun mem y =>
        Image.memset mem (vbe.framebuffer.toNat + y * vbe.pitch.toNat) 0 vbe.pitch.toNat)
      (forUp 0 (vbe.height.toNat - n) (fun mem y =>
        Image.memcpy mem (vbe.framebuffer.toNat + y * vbe.pitch.toNat)
          (vbe.framebuffer.toNat + (y + n) * vbe.pitch.toNat) vbe.pitch.toNat) mem))
      (Picture.scroll n (rgb 0)) := by
  have hcopy : ∀ mem, ∀ y ∈ List.range' 0 (vbe.height.toNat - n - 0), L.raster.Paints mem
      (Image.memcpy mem (vbe.framebuffer.toNat + y * vbe.pitch.toNat)
        (vbe.framebuffer.toNat + (y + n) * vbe.pitch.toNat) vbe.pitch.toNat)
      (Picture.copyRow y (y + n)) := by
    intro mem y hy
    have hlt : y + n < vbe.height.toNat := Nat.add_lt_of_lt_sub (mem_forUp.mp hy).2
    have hne : y ≠ y + n := (Nat.lt_add_of_pos_right hpos).ne
    have hapart := Raster.rows_apart (R := L.raster) hne (m := L.raster.pitch) (n := L.raster.pitch)
      le_rfl le_rfl le_rfl le_rfl
    rw [Image.memcpy_eq (by exact hapart)]
    exact Raster.paints_copyRow (R := L.raster) (Nat.lt_of_add_right_lt hlt) hlt
  have hclear : ∀ mem y, vbe.height.toNat - n ≤ y → y < vbe.height.toNat →
      L.raster.Paints mem
        (Image.memset mem (vbe.framebuffer.toNat + y * vbe.pitch.toNat) 0 vbe.pitch.toNat)
        (Picture.fill (fun _ j => decide (j = y)) (rgb 0)) := by
    intro mem y _ hy
    rw [Image.memset_eq]
    exact Raster.paints_fillRow (R := L.raster) hy 0
  have hbottom : ∀ mem, L.raster.Paints mem (forUp (vbe.height.toNat - n) vbe.height.toNat (fun mem y =>
      Image.memset mem (vbe.framebuffer.toNat + y * vbe.pitch.toNat) 0 vbe.pitch.toNat) mem)
      (Picture.fill (fun _ y => decide (vbe.height.toNat - n ≤ y)) (rgb 0)) := by
    intro mem
    refine forUp_paints L _ hclear fun px _ py hy => ?_
    simp [hy]
  refine ((Raster.Paints.foldl hcopy mem).trans (hbottom _)).congr fun pic => ?_
  rw [Nat.sub_zero, ← List.range_eq_range']
  exact Picture.fill_foldl_copyRow n hn

theorem moveScreenUpIfFull_renders (hs : Text.InRange s.cursor)
    (hh : s.cursor.cell ≤ vbe.height.toNat) :
    Renders L font color s (Text.moveScreenUpIfFull vbe.screen s.cursor)
      (moveScreenUpIfFull vbe s) := by
  have hsub : (vbe.height.toUInt64 - fontHeight * s.cursor.fontSize).toNat =
      vbe.height.toNat - s.cursor.cell := by
    rw [hs.toNat_sub hs.toNat_height, UInt16.toNat_toUInt64, if_pos hh]
  by_cases hfull : s.cursor.y ≥ vbe.height.toUInt64 - fontHeight * s.cursor.fontSize
  · rw [moveScreenUpIfFull, if_pos hfull, Text.moveScreenUpIfFull, if_pos (by exact hfull)]
    refine ⟨rfl, ?_⟩
    simp only [hsub, hs.toNat_height, UInt16.toNat_toUInt64]
    refine (scrollRows_paints (Nat.lt_of_lt_of_le (by decide) hs.cell_le.1) hh).congr fun pic => ?_
    show _ = Picture.scroll (fontHeight * s.cursor.fontSize).toNat (rgb 0) pic
    rw [hs.toNat_height]
  · rw [moveScreenUpIfFull, if_neg hfull, Text.moveScreenUpIfFull, if_neg (by exact hfull)]
    exact ⟨rfl, .refl⟩

theorem lineFeed_renders (hs : Text.InRange s.cursor) (hh : s.cursor.cell ≤ vbe.height.toNat) :
    Renders L font color s (Text.lineFeed vbe.screen s.cursor) (lineFeed vbe s) := by
  have h : Renders L font color { s with cursor := { s.cursor with
      y := s.cursor.y + fontHeight * s.cursor.fontSize, x := 0 } } _ _ :=
    moveScreenUpIfFull_renders hs hh
  exact ⟨h.cursor, h.paints⟩

/-- A character that `TextModule` draws behind something else. -/
theorem drawGlyph_after {ch : UInt8} (hc : ch < 128) (h : Renders L font color s (c, drawn) s1) :
    ∃ s', drawGlyph vbe font s1 ch color = some s' ∧ Renders L font color s
      ((Text.drawGlyph c ch).1, drawn ++ (Text.drawGlyph c ch).2) s' := by
  obtain ⟨s', hs', h'⟩ : ∃ s', drawGlyph vbe font s1 ch color = some s' ∧
      Renders L font color s1 (Text.drawGlyph s1.cursor ch) s' := drawGlyph_renders hc
  rw [h.cursor] at h'
  exact ⟨s', hs', h.trans h'⟩

theorem putChar_renders (hs : Text.InRange s.cursor) (hh : s.cursor.cell ≤ vbe.height.toNat)
    {ch : UInt8} (hc : ch < 128) : ∃ s', putChar vbe font s ch color = some s' ∧
      Renders L font color s (Text.putChar vbe.screen s.cursor ch) s' := by
  have hfeed : Renders L font color s (Text.lineFeed vbe.screen s.cursor) (lineFeed vbe s) :=
    lineFeed_renders hs hh
  rw [putChar, Text.putChar]
  by_cases hwrap : ch = newline ∨ s.cursor.x + fontWidth * s.cursor.fontSize > vbe.width.toUInt64
  · have hwrap' : ch = newline ∨
        s.cursor.x + fontWidth * s.cursor.fontSize > vbe.screen.width.toUInt64 := hwrap
    rw [if_pos hwrap, if_pos hwrap']
    by_cases hnl : ch = newline
    · simp only [if_pos hnl]
      exact ⟨_, rfl, hfeed⟩
    · simp only [if_neg hnl]
      exact drawGlyph_after hc hfeed
  have hwrap' : ¬ (ch = newline ∨
      s.cursor.x + fontWidth * s.cursor.fontSize > vbe.screen.width.toUInt64) := hwrap
  rw [if_neg hwrap, if_neg hwrap']
  by_cases htab : ch = tab
  · rw [if_pos htab, if_pos htab]
    exact drawGlyph_renders (by decide)
  rw [if_neg htab, if_neg htab]
  by_cases hback : ch = backspace
  · rw [if_pos hback, if_pos hback]
    exact ⟨_, rfl, deleteChar_renders⟩
  rw [if_neg hback, if_neg hback]
  by_cases hfull : s.cursor.y + fontHeight * s.cursor.fontSize > vbe.height.toUInt64
  · have hfull' : s.cursor.y + fontHeight * s.cursor.fontSize > vbe.screen.height.toUInt64 := hfull
    rw [if_pos hfull, if_pos hfull']
    exact drawGlyph_after hc clearText_renders
  · have hfull' : ¬ s.cursor.y + fontHeight * s.cursor.fontSize > vbe.screen.height.toUInt64 := hfull
    rw [if_neg hfull, if_neg hfull']
    exact drawGlyph_renders hc

/-- A call with characters of the font. -/
def InFont : Text.Call → Prop
  | .putChar c => c < 128
  | _ => True

theorem step_renders (hs : Text.InRange s.cursor) (hh : 40 ≤ vbe.height.toNat) {call : Text.Call}
    (hc : InFont call) : ∃ s', step vbe font s color call = some s' ∧
      Renders L font color s (call.run vbe.screen s.cursor) s' := by
  have hcell : s.cursor.cell ≤ vbe.height.toNat := hs.cell_le.2.trans hh
  cases call with
  | putChar c => exact putChar_renders hs hcell hc
  | lineFeed => exact ⟨_, rfl, lineFeed_renders hs hcell⟩
  | clearText => exact ⟨_, rfl, clearText_renders⟩
  | fontSizeUp n => exact ⟨_, rfl, rfl, .refl⟩
  | fontSizeDown n => exact ⟨_, rfl, rfl, .refl⟩

/-- Any calls, from any cursor, as long as the font size is from 1 to 5: the cursor moves as in
`TextModule`, the picture in the frame buffer is what is drawn there, and nothing else in memory
is written. The cursor may leave the screen on the way. -/
theorem run_renders (L : vbe.Legal) (font : Font) (hh : 40 ≤ vbe.height.toNat)
    (calls : List (Text.Call × UInt32)) (hs : Text.InRange s.cursor)
    (hsize : Along (next vbe.screen) (fun c call => Text.InRange (next vbe.screen c call))
      s.cursor (calls.map Prod.fst)) (hchars : ∀ call ∈ calls, InFont call.1) :
    ∃ s', run vbe font s calls = some s' ∧
      s'.cursor = (calls.map Prod.fst).foldl (next vbe.screen) s.cursor ∧
      L.raster.Paints s.mem s'.mem (paintRun vbe font s.cursor calls) := by
  induction calls generalizing s with
  | nil => exact ⟨s, rfl, rfl, .refl⟩
  | cons call calls ih =>
    obtain ⟨hc, hrest⟩ := List.forall_mem_cons.mp hchars
    obtain ⟨s1, hstep, hr⟩ : ∃ s1, step vbe font s call.2 call.1 = some s1 ∧
        Renders L font call.2 s (call.1.run vbe.screen s.cursor) s1 := step_renders hs hh hc
    have hcursor : s1.cursor = next vbe.screen s.cursor call.1 := hr.cursor
    obtain ⟨s', hrun, hend, hp⟩ := ih (hcursor ▸ hsize.1) (hcursor ▸ hsize.2) hrest
    refine ⟨s', ?_, ?_, (hr.paints.trans hp).congr fun pic => ?_⟩
    · show (step vbe font s call.2 call.1).bind _ = _
      rw [hstep]
      exact hrun
    · rw [hend, hcursor]
      rfl
    · rw [hcursor]
      rfl

end

/-- A screen of 1024 by 768 pixels, of three bytes each. -/
def trueColor : ModeInfo :=
  { pitch := 3072, width := 1024, height := 768, bpp := 24, framebuffer := 0xFD000000 }

theorem trueColor_legal : trueColor.Legal := by decide

/-- A font of vertical bars, and a memory of zeros. -/
def bars : Font := fun _ _ => 0x18

def atBoot : Display := ⟨bootCursor, fun _ => 0⟩

/-- A character in one font, a backspace in a larger one, for which the column wraps. -/
theorem run_renders_wrapped :
    let calls : List (Text.Call × UInt32) := [(.fontSizeDown 1, 0), (.putChar 97, 0xFFFFFF),
      (.fontSizeUp 1, 0), (.putChar backspace, 0)]
    ∃ s', run trueColor bars atBoot calls = some s' ∧ ¬ OnScreen trueColor.screen s'.cursor ∧
      ∀ a ∉ trueColor_legal.raster.region, s'.mem a = 0 := by
  obtain ⟨s', hrun, hcursor, hp⟩ := run_renders (s := atBoot) trueColor_legal bars
    (by decide) [(.fontSizeDown 1, 0), (.putChar 97, 0xFFFFFF), (.fontSizeUp 1, 0),
      (.putChar backspace, 0)] (by decide) (by decide +kernel) (by simp [InFont, backspace])
  refine ⟨s', hrun, ?_, hp.outside⟩
  rw [hcursor]
  decide +kernel

end SoKernel.Console
