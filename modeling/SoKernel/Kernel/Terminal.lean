import SoKernel.Kernel.Console

/-!
# The screen as a terminal

On a screen that a whole number of characters fits in, with the font size left alone, the text
module is a terminal: lines of cells, typed at the end of the last one.

Results:
1. `inCell_iff`: the squares of a character are the pixels of one cell.
2. `step_shows`: what a call does to the pixels is what it does to the lines.
3. `run_shows`: after any text on a cleared screen, the frame buffer shows the lines, and the
   memory around it is as before.
-/

namespace SoKernel.Console

open Text Video

/-! ## The terminal -/

/-- Nothing, or a character and its colour. -/
abbrev Cell := Option (UInt8 × UInt32)

/-- The lines on the screen. The last row of the screen is never written. -/
structure Terminal (rows cols : Nat) where
  /-- The lines above the cursor, the nearest one first. -/
  above : List (List Cell)
  /-- The cells to the left of the cursor. -/
  line : List Cell
  above_le : above.length + 2 ≤ rows
  line_le : line.length ≤ cols

namespace Terminal

variable {rows cols : Nat}

/-- The line in a row, counted from the top. -/
def row (t : Terminal rows cols) (r : Nat) : List Cell :=
  if r ≤ t.above.length then ((t.line :: t.above)[t.above.length - r]?).getD [] else []

def cell (t : Terminal rows cols) (r c : Nat) : Cell := ((t.row r)[c]?).join

/-- A new line; the top one goes when there is no room. -/
def feed (t : Terminal rows cols) : Terminal rows cols where
  above := (t.line :: t.above).take (rows - 2)
  line := []
  above_le := by
    have := t.above_le
    rw [List.length_take]
    omega
  line_le := Nat.zero_le cols

/-- The cell at the cursor is written, on a new line if there is no room. -/
def append (t : Terminal rows cols) (hcols : 0 < cols) (x : Cell) : Terminal rows cols :=
  if h : t.line.length < cols then
    { t with line := t.line ++ [x]
             line_le := by simpa using Nat.succ_le_of_lt h }
  else { t.feed with line := [x], line_le := hcols }

/-- The cell before the cursor is erased. At the left margin that is the last one of the line
above, however short it is. -/
def back (t : Terminal rows cols) : Terminal rows cols :=
  match t with
  | ⟨above, x :: line, h, h'⟩ =>
    ⟨above, (x :: line).dropLast, h, (List.length_dropLast.le.trans (Nat.sub_le _ 1)).trans h'⟩
  | ⟨prev :: above, [], h, _⟩ =>
    ⟨above, (prev ++ List.replicate cols none).take (cols - 1), Nat.le_of_succ_le h,
      (List.length_take_le _ _).trans (Nat.sub_le cols 1)⟩
  | t => t

/-- The blank screen. -/
def blank (hrows : 2 ≤ rows) : Terminal rows cols :=
  { above := [], line := [], above_le := by simpa using hrows, line_le := Nat.zero_le cols }

/-- A character is typed. Behind the end of the line even a tab or a backspace is drawn. -/
def type (t : Terminal rows cols) (hcols : 0 < cols) (color : UInt32) (ch : UInt8) :
    Terminal rows cols :=
  if ch = newline then t.feed
  else if t.line.length = cols then t.append hcols (some (ch, color))
  else if ch = tab then t.append hcols (some (space, color))
  else if ch = backspace then t.back
  else t.append hcols (some (ch, color))

/-- What a call does to the lines; the font size is left alone. -/
def step (t : Terminal rows cols) (hrows : 2 ≤ rows) (hcols : 0 < cols) (color : UInt32) :
    Text.Call → Terminal rows cols
  | .putChar ch => t.type hcols color ch
  | .lineFeed => t.feed
  | .clearText => blank hrows
  | _ => t

/-- The colour of a pixel of a cell. -/
def shade (font : Font) (i j : Nat) : Cell → List UInt8
  | none => rgb 0
  | some (ch, color) => if font.bit ch i j then rgb color else rgb 0

/-- The pixels, when a bit of the font is a square of side `n`. -/
def picture (font : Font) (n : Nat) {w h : Nat} (t : Terminal rows cols) : Picture (List UInt8) w h :=
  fun px py => shade font (py.val % (8 * n) / n) (px.val % (8 * n) / n)
    (t.cell (py.val / (8 * n)) (px.val / (8 * n)))

/-! ## The cells -/

section

variable {t : Terminal rows cols} {r c : Nat} {x : Cell} {hcols : 0 < cols}

theorem row_lt (t : Terminal rows cols) : t.above.length < rows := Nat.lt_of_succ_lt t.above_le

theorem row_last : t.row t.above.length = t.line := by simp [row]

theorem row_above (h : r < t.above.length) :
    t.row r = (t.above[t.above.length - (r + 1)]?).getD [] := by
  have hsub : t.above.length - r = t.above.length - (r + 1) + 1 := by omega
  rw [row, if_pos h.le, hsub, List.getElem?_cons_succ]

theorem row_below (h : t.above.length < r) : t.row r = [] := if_neg h.not_ge

theorem cell_below (h : t.above.length < r) : t.cell r c = none := by
  rw [cell, row_below h]
  rfl

/-- Nothing is written at the cursor, or to the right of it. -/
theorem cell_right (h : t.line.length ≤ c) : t.cell t.above.length c = none := by
  rw [cell, row_last, List.getElem?_eq_none h]
  rfl

theorem cell_line {t' : Terminal rows cols} (h : t'.above.length = r) :
    t'.cell r c = (t'.line[c]?).join := by
  rw [cell, ← h, row_last]

theorem cell_other {t' : Terminal rows cols} (h : t'.above = t.above) (hr : r ≠ t.above.length) :
    t'.cell r c = t.cell r c := by
  rcases Nat.lt_or_gt_of_ne hr with hlt | hlt
  · rw [cell, row_above (by rwa [h]), cell, row_above hlt, h]
  · rw [cell_below (by rwa [h]), cell_below hlt]

theorem cell_feed_room (h : t.above.length + 2 < rows) : t.feed.cell r c = t.cell r c := by
  have habove : t.feed.above = t.line :: t.above := by
    refine List.take_of_length_le ?_
    rw [List.length_cons]
    omega
  rcases Nat.lt_trichotomy r (t.above.length + 1) with hr | rfl | hr
  · have hlen : r < t.feed.above.length := by rwa [habove, List.length_cons]
    have hle : r ≤ t.above.length := Nat.le_of_lt_succ hr
    rw [cell, row_above hlen, habove, List.length_cons, Nat.add_sub_add_right, cell, row, if_pos hle]
  · have hlen : t.feed.above.length = t.above.length + 1 := by rw [habove, List.length_cons]
    rw [cell_below (Nat.lt_succ_self _), ← hlen]
    exact cell_right (Nat.zero_le c)
  · have hlen : t.feed.above.length < r := by rwa [habove, List.length_cons]
    rw [cell_below hlen, cell_below (Nat.lt_of_succ_lt hr)]

theorem cell_feed_full (h : t.above.length + 2 = rows) : t.feed.cell r c = t.cell (r + 1) c := by
  have hlen : t.feed.above.length = t.above.length := by
    show ((t.line :: t.above).take (rows - 2)).length = _
    rw [List.length_take, List.length_cons]
    omega
  rcases Nat.lt_trichotomy r t.above.length with hr | rfl | hr
  · have hsub : t.above.length - (r + 1) < rows - 2 := by omega
    have htop : t.feed.above[t.above.length - (r + 1)]? =
        (t.line :: t.above)[t.above.length - (r + 1)]? := List.getElem?_take_of_lt hsub
    rw [cell, row_above (by rwa [hlen]), hlen, htop, cell, row, if_pos (Nat.succ_le_of_lt hr)]
  · rw [cell_below (Nat.lt_succ_self _), ← hlen]
    exact cell_right (Nat.zero_le c)
  · rw [cell_below (hlen.trans_lt hr), cell_below (Nat.lt_succ_of_lt hr)]

theorem append_eq (hcols : 0 < cols) (x : Cell) (h : t.line.length < cols) :
    (t.append hcols x).above = t.above ∧ (t.append hcols x).line = t.line ++ [x] := by
  rw [append, dif_pos h]
  exact ⟨rfl, rfl⟩

theorem cell_append (h : t.line.length < cols) : (t.append hcols x).cell r c =
    if r = t.above.length ∧ c = t.line.length then x else t.cell r c := by
  obtain ⟨habove, hline⟩ := append_eq hcols x h
  by_cases hr : r = t.above.length
  · rw [cell_line (by rw [habove, hr]), cell_line hr.symm, hline]
    rcases Nat.lt_trichotomy c t.line.length with hc | rfl | hc
    · rw [if_neg fun h => hc.ne h.2, List.getElem?_append_left hc]
    · rw [if_pos ⟨hr, rfl⟩, List.getElem?_concat_length]
      rfl
    · rw [if_neg fun h => hc.ne' h.2, List.getElem?_eq_none hc.le, List.getElem?_eq_none]
      simpa using Nat.succ_le_of_lt hc
  · rw [if_neg fun h => hr h.1, cell_other habove hr]

theorem back_line (hne : t.line ≠ []) : t.back.above = t.above ∧ t.back.line = t.line.dropLast := by
  obtain ⟨above, line, h, h'⟩ := t
  cases line with
  | nil => exact absurd rfl hne
  | cons y line => exact ⟨rfl, rfl⟩

theorem back_up {prev : List Cell} {above : List (List Cell)} (hnil : t.line = [])
    (habove : t.above = prev :: above) : t.back.above = above ∧
      t.back.line = (prev ++ List.replicate cols none).take (cols - 1) := by
  obtain ⟨above', line, h, h'⟩ := t
  obtain rfl : line = [] := hnil
  obtain rfl : above' = prev :: above := habove
  exact ⟨rfl, rfl⟩

theorem back_top (hnil : t.line = []) (habove : t.above = []) : t.back = t := by
  obtain ⟨above, line, h, h'⟩ := t
  obtain rfl : line = [] := hnil
  obtain rfl : above = [] := habove
  rfl

theorem cell_back (hne : t.line ≠ []) : (t.back).cell r c =
    if r = t.above.length ∧ c = t.line.length - 1 then none else t.cell r c := by
  obtain ⟨habove, hline⟩ := back_line hne
  by_cases hr : r = t.above.length
  · rw [cell_line (by rw [habove, hr]), cell_line hr.symm, hline, List.getElem?_dropLast]
    split <;> split <;> grind
  · rw [if_neg fun h => hr h.1, cell_other habove hr]

/-- The line above is taken up again, at its last cell. -/
theorem cell_back_up {prev : List Cell} {above : List (List Cell)} (hnil : t.line = [])
    (habove : t.above = prev :: above) : (t.back).cell r c =
      if r = above.length ∧ cols - 1 ≤ c then none else t.cell r c := by
  obtain ⟨hback, hline⟩ := back_up hnil habove
  have hlen : t.above.length = above.length + 1 := by rw [habove, List.length_cons]
  rcases Nat.lt_trichotomy r above.length with hr | rfl | hr
  · have hsub : above.length + 1 - (r + 1) = above.length - (r + 1) + 1 := by omega
    rw [if_neg fun h => hr.ne h.1, cell, row_above (by rwa [hback]), hback, cell,
      row_above (by omega), hlen, hsub, habove, List.getElem?_cons_succ]
  · have hprev : t.row above.length = prev := by
      rw [row_above (by omega), hlen, Nat.sub_self, habove]
      rfl
    rw [cell_line (by rw [hback]), hline, cell, hprev]
    by_cases hc : cols - 1 ≤ c
    · rw [if_pos ⟨rfl, hc⟩, List.getElem?_take_eq_none hc]
      rfl
    · rw [if_neg fun h => hc h.2, List.getElem?_take_of_lt (Nat.lt_of_not_le hc)]
      rcases Nat.lt_or_ge c prev.length with hlt | hge
      · rw [List.getElem?_append_left hlt]
      · rw [List.getElem?_append_right hge, List.getElem?_eq_none hge, List.getElem?_replicate]
        split <;> rfl
  · rw [if_neg fun h => hr.ne' h.1, cell_below (by rwa [hback])]
    rcases Nat.lt_or_ge (above.length + 1) r with hlt | hge
    · rw [cell_below (by omega)]
    · obtain rfl : r = above.length + 1 := Nat.le_antisymm hge hr
      rw [cell_line hlen, hnil]
      rfl

end

end Terminal

/-! ## The pixels of a cell -/

section

variable {n a p j : Nat}

/-- The `j`-th of the eight intervals of length `n` behind `a` others of length `8 * n`. -/
theorem interval_iff (hj : j < 8) : a * (8 * n) + j * n ≤ p ∧ p < a * (8 * n) + j * n + n ↔
    p / (8 * n) = a ∧ p % (8 * n) / n = j ∧ 0 < n := by
  constructor
  · rintro ⟨hlow, hhigh⟩
    have hn : 0 < n := Nat.pos_of_lt_add_right (hlow.trans_lt hhigh)
    obtain ⟨q, rfl⟩ := Nat.exists_eq_add_of_le (Nat.le_of_add_right_le hlow)
    have hq : j * n ≤ q ∧ q < (j + 1) * n := by
      rw [Nat.succ_mul]
      omega
    have hlt : q < 8 * n := hq.2.trans_le (Nat.mul_le_mul_right n hj)
    rw [Nat.mul_comm a, Nat.mul_add_div (Nat.mul_pos (by decide) hn), Nat.div_eq_of_lt hlt,
      Nat.mul_add_mod, Nat.mod_eq_of_lt hlt]
    exact ⟨rfl, Nat.div_eq_of_lt_le hq.1 hq.2, hn⟩
  · rintro ⟨rfl, rfl, hn⟩
    have hp := Nat.div_add_mod p (8 * n)
    have hq := Nat.div_add_mod (p % (8 * n)) n
    have hlt := Nat.mod_lt (p % (8 * n)) hn
    rw [Nat.mul_comm] at hp hq
    omega

variable {vbe : ModeInfo} {rows cols row col : Nat} {x y fontSize : UInt64} {on : Nat → Nat → Bool}

/-- One coordinate of a square of a cell on the screen. -/
theorem toNat_square {cells size : Nat} {x fontSize : UInt64} (hf : fontSize.toNat ≤ 5)
    (hx : x.toNat = col * (8 * fontSize.toNat)) (hcol : col < cells)
    (hsize : size = cells * (8 * fontSize.toNat)) (hlt : size < 2 ^ 16) (hj : j < 8) :
    (x + .ofNat j * fontSize).toNat = col * (8 * fontSize.toNat) + j * fontSize.toNat ∧
      (x + .ofNat j * fontSize + fontSize).toNat =
        col * (8 * fontSize.toNat) + j * fontSize.toNat + fontSize.toNat ∧
      col * (8 * fontSize.toNat) + j * fontSize.toNat ≤ size := by
  have hmul : (col + 1) * (8 * fontSize.toNat) ≤ size := hsize ▸ Nat.mul_le_mul_right _ hcol
  rw [Nat.succ_mul] at hmul
  have hjn : j * fontSize.toNat ≤ 7 * fontSize.toNat := Nat.mul_le_mul_right _ (Nat.le_of_lt_succ hj)
  have hj64 : (UInt64.ofNat j).toNat = j := UInt64.toNat_ofNat_of_lt' (by
    show j < 2 ^ 64
    omega)
  simp only [UInt64.toNat_add, UInt64.toNat_mul, hj64, hx]
  omega

/-- The squares of a cell, over all of the screen. -/
theorem inCell_iff (hf : fontSize.toNat ≤ 5) (hpos : 0 < fontSize.toNat)
    (hw : vbe.width.toNat = cols * (8 * fontSize.toNat))
    (hh : vbe.height.toNat = rows * (8 * fontSize.toNat))
    (hx : x.toNat = col * (8 * fontSize.toNat)) (hy : y.toNat = row * (8 * fontSize.toNat))
    (hcol : col < cols) (hrow : row < rows) {px py : Nat} :
    inCell vbe x y fontSize on px py = true ↔
      (py / (8 * fontSize.toNat) = row ∧ px / (8 * fontSize.toNat) = col) ∧
        on (py % (8 * fontSize.toNat) / fontSize.toNat)
          (px % (8 * fontSize.toNat) / fontSize.toNat) = true := by
  have hin : ∀ i < 8, ∀ j < 8,
      inSquare vbe.screen (x + .ofNat j * fontSize) (y + .ofNat i * fontSize) fontSize px py = true ↔
        (px / (8 * fontSize.toNat) = col ∧ px % (8 * fontSize.toNat) / fontSize.toNat = j) ∧
          py / (8 * fontSize.toNat) = row ∧ py % (8 * fontSize.toNat) / fontSize.toNat = i := by
    intro i hi j hj
    obtain ⟨hx1, hx2, hx3⟩ := toNat_square hf hx hcol hw vbe.width.toNat_lt hj
    obtain ⟨hy1, hy2, hy3⟩ := toNat_square hf hy hrow hh vbe.height.toNat_lt hi
    rw [inSquare, decide_eq_true_eq, hx1, hx2, hy1, hy2, interval_iff hj, interval_iff hi]
    simp only [hpos, and_true]
    exact ⟨fun h => h.2.2, fun h => ⟨hx3, hy3, h⟩⟩
  have hmod : ∀ q, q % (8 * fontSize.toNat) / fontSize.toNat < 8 := fun q =>
    Nat.div_lt_of_lt_mul (Nat.mul_comm 8 _ ▸ Nat.mod_lt q (Nat.mul_pos (by decide) hpos))
  simp only [inCell, List.any_eq_true, List.mem_range, Bool.and_eq_true]
  constructor
  · rintro ⟨i, hi, j, hj, hon, hsq⟩
    obtain ⟨⟨hcol, rfl⟩, hrow, rfl⟩ := (hin i hi j hj).mp hsq
    exact ⟨⟨hrow, hcol⟩, hon⟩
  · rintro ⟨⟨hrow, hcol⟩, hon⟩
    exact ⟨_, hmod py, _, hmod px, hon, (hin _ (hmod py) _ (hmod px)).mpr ⟨⟨hcol, rfl⟩, hrow, rfl⟩⟩

end

/-! ## Typing -/

/-- A whole number of characters fits, and the cursor is at the end of the last line. -/
structure At {rows cols : Nat} (scr : Screen) (c : Cursor) (t : Terminal rows cols) : Prop where
  inRange : Text.InRange c
  width : scr.width.toNat = cols * c.cell
  height : scr.height.toNat = rows * c.cell
  x : c.x.toNat = t.line.length * c.cell
  y : c.y.toNat = t.above.length * c.cell

/-- The text module moves the cursor and draws what turns one terminal into the other. -/
structure Types {rows cols : Nat} (vbe : ModeInfo) (font : Font) (color : UInt32) (c : Cursor)
    (t : Terminal rows cols) (r : Cursor × List Drawn) (t' : Terminal rows cols) : Prop where
  at_end : At vbe.screen r.1 t'
  fontSize : r.1.fontSize = c.fontSize
  picture : paintAll vbe font color r.2 (t.picture font c.fontSize.toNat : Picture (List UInt8)
    vbe.width.toNat vbe.height.toNat) = t'.picture font c.fontSize.toNat

section

variable {vbe : ModeInfo} {font : Font} {color : UInt32} {rows cols : Nat} {c : Cursor}
  {t t1 t' : Terminal rows cols} {r r1 : Cursor × List Drawn}

theorem Types.trans (h : Types vbe font color c t r t1) (h' : Types vbe font color r.1 t1 r1 t') :
    Types vbe font color c t (r1.1, r.2 ++ r1.2) t' := by
  refine ⟨h'.at_end, h'.fontSize.trans h.fontSize, ?_⟩
  rw [paintAll_append, h.picture, ← h.fontSize]
  exact h'.picture

namespace At

variable (h : At vbe.screen c t)

include h

theorem size : 0 < c.fontSize.toNat ∧ c.fontSize.toNat ≤ 5 := inRange_iff.mp h.inRange

theorem cell_pos : 0 < c.cell := Nat.lt_of_lt_of_le (by decide) h.inRange.cell_le.1

theorem x_le : c.x.toNat ≤ vbe.screen.width.toNat := by
  rw [h.x, h.width]
  exact Nat.mul_le_mul_right _ t.line_le

theorem y_fits : c.y.toNat + c.cell ≤ vbe.screen.height.toNat := by
  rw [h.y, h.height, ← Nat.succ_mul]
  exact Nat.mul_le_mul_right _ t.row_lt

theorem wraps_iff : vbe.screen.width.toNat < c.x.toNat + c.cell ↔ t.line.length = cols := by
  rw [h.x, h.width, ← Nat.succ_mul, Nat.mul_lt_mul_right h.cell_pos]
  have := t.line_le
  omega

theorem pixel_iff {on : Nat → Nat → Bool} (hroom : t.line.length < cols) {px py : Nat} :
    inCell vbe c.x c.y c.fontSize on px py = true ↔
      (py / (8 * c.fontSize.toNat) = t.above.length ∧ px / (8 * c.fontSize.toNat) = t.line.length) ∧
        on (py % (8 * c.fontSize.toNat) / c.fontSize.toNat)
          (px % (8 * c.fontSize.toNat) / c.fontSize.toNat) = true :=
  inCell_iff h.size.2 h.size.1 h.width h.height h.x h.y hroom t.row_lt

/-- The cell was blank, so the pixels that are not set need not be drawn. -/
theorem drawGlyph (hroom : t.line.length < cols) (hcols : 0 < cols) (ch : UInt8) :
    Types vbe font color c t (Text.drawGlyph c ch) (t.append hcols (some (ch, color))) := by
  obtain ⟨habove, hline⟩ := Terminal.append_eq hcols (some (ch, color)) hroom
  refine ⟨⟨h.inRange, h.width, h.height, ?_, by rw [habove]; exact h.y⟩, rfl, ?_⟩
  · rw [hline, List.length_append, List.length_singleton, Nat.succ_mul]
    exact (h.inRange.toNat_add h.inRange.toNat_width h.x_le).trans (congrArg (· + c.cell) h.x)
  · funext px py
    show Picture.fill (inCell vbe c.x c.y c.fontSize (font.bit ch)) (rgb color)
      (t.picture font c.fontSize.toNat) px py = _
    simp only [Picture.fill, h.pixel_iff hroom, Terminal.picture, Terminal.cell_append hroom]
    by_cases hcell : py.val / (8 * c.fontSize.toNat) = t.above.length ∧
        px.val / (8 * c.fontSize.toNat) = t.line.length
    · have hblank := Terminal.cell_right (t := t) (Nat.le_refl t.line.length)
      simp only [hcell, and_self, true_and, if_true, hblank, Terminal.shade]
    · simp only [hcell, false_and, if_false]

/-- The picture moves up, and the row that comes in from below is blank. -/
theorem scroll (hfull : t.above.length + 2 = rows) :
    Picture.scroll c.cell (rgb 0) (t.picture font c.fontSize.toNat) =
      (t.feed.picture font c.fontSize.toNat : Picture (List UInt8) vbe.width.toNat
        vbe.height.toNat) := by
  funext px py
  have hdiv : (py.val + c.cell) / (8 * c.fontSize.toNat) = py.val / (8 * c.fontSize.toNat) + 1 :=
    Nat.add_div_right _ h.cell_pos
  have hmod : (py.val + c.cell) % (8 * c.fontSize.toNat) = py.val % (8 * c.fontSize.toNat) :=
    Nat.add_mod_right _ _
  rw [Picture.scroll, Terminal.picture, Terminal.cell_feed_full hfull]
  split
  · simp only [Terminal.picture, hdiv, hmod]
  · next hout =>
    have hrows : (t.above.length + 1) * c.cell ≤ py.val + c.cell := by
      refine Nat.le_trans ?_ (Nat.le_of_not_lt hout)
      rw [show vbe.height.toNat = rows * c.cell from h.height]
      exact Nat.mul_le_mul_right _ t.row_lt
    have hbelow : t.above.length + 1 ≤ py.val / (8 * c.fontSize.toNat) + 1 :=
      hdiv ▸ (Nat.le_div_iff_mul_le h.cell_pos).mpr hrows
    rw [Terminal.cell_below hbelow]
    rfl

theorem lineFeed : Types vbe font color c t (Text.lineFeed vbe.screen c) t.feed := by
  have hy : c.y.toNat ≤ vbe.screen.height.toNat := Nat.le_of_add_right_le h.y_fits
  have hcell : c.cell ≤ vbe.screen.height.toNat := Nat.le_of_add_left_le h.y_fits
  have hfull : c.y.toNat + 2 * c.cell < vbe.screen.height.toNat ↔ t.above.length + 2 < rows := by
    rw [h.y, h.height, ← Nat.add_mul]
    exact Nat.mul_lt_mul_right h.cell_pos
  have hlen : t.feed.above.length = min (rows - 2) (t.above.length + 1) := List.length_take
  have hle := t.above_le
  rcases lineFeed_cases h.inRange hcell hy with ⟨hroom, hfeed⟩ | ⟨hnone, hfeed⟩
  · rw [hfeed]
    have hroom := hfull.mp hroom
    have hadd := h.inRange.toNat_add h.inRange.toNat_height hy
    rw [h.y, ← Nat.succ_mul] at hadd
    refine ⟨⟨h.inRange, h.width, h.height, (Nat.zero_mul _).symm, ?_⟩, rfl, ?_⟩
    · rw [hlen, Nat.min_eq_right (by omega)]
      exact hadd
    · funext px py
      exact congrArg _ (Terminal.cell_feed_room hroom).symm
  · rw [hfeed]
    have hnone : t.above.length + 2 = rows :=
      Nat.le_antisymm hle (Nat.le_of_not_lt fun hlt => hnone.not_gt (hfull.mpr hlt))
    refine ⟨⟨h.inRange, h.width, h.height, (Nat.zero_mul _).symm, ?_⟩, rfl, ?_⟩
    · rw [hlen, Nat.min_eq_left (by omega), ← hnone]
      exact h.y
    · show Picture.scroll (fontHeight * c.fontSize).toNat (rgb 0)
        (t.picture font c.fontSize.toNat) = _
      rw [h.inRange.toNat_height]
      exact h.scroll hnone

theorem clearText (hrows : 2 ≤ rows) :
    Types vbe font color c t (Text.clearText c) (Terminal.blank hrows) := by
  refine ⟨⟨h.inRange, h.width, h.height, (Nat.zero_mul _).symm, (Nat.zero_mul _).symm⟩, rfl, ?_⟩
  funext px py
  have hblank : ∀ r c, (Terminal.blank hrows : Terminal rows cols).cell r c = none := by
    intro r c
    rcases Nat.eq_zero_or_pos r with rfl | hr
    · exact Terminal.cell_right (t := Terminal.blank hrows) (Nat.zero_le c)
    · exact Terminal.cell_below hr
  show rgb 0 = _
  rw [Terminal.picture, hblank]
  rfl

/-- The pixels of one cell are made black. -/
theorem erase {x y : UInt64} (row col : Nat) (hx : x.toNat = col * c.cell)
    (hy : y.toNat = row * c.cell) (hcol : col < cols) (hrow : row < rows)
    (hcell : ∀ r, ∀ c < cols, t'.cell r c = if r = row ∧ c = col then none else t.cell r c) :
    Picture.fill (inCell vbe x y c.fontSize fun _ _ => true) (rgb 0)
        (t.picture font c.fontSize.toNat) =
      (t'.picture font c.fontSize.toNat : Picture (List UInt8) vbe.width.toNat vbe.height.toNat) := by
  funext px py
  have hpx : px.val / (8 * c.fontSize.toNat) < cols := by
    refine Nat.div_lt_of_lt_mul (px.isLt.trans_eq ?_)
    rw [Nat.mul_comm]
    exact h.width
  simp only [Picture.fill, inCell_iff h.size.2 h.size.1 h.width h.height hx hy hcol hrow, and_true,
    Terminal.picture, hcell _ _ hpx]
  split
  · rfl
  · rfl

theorem toNat_back {a f : UInt64} {k : Nat} (hf : f.toNat = c.cell) (ha : a.toNat = (k + 1) * c.cell) :
    (a - f).toNat = k * c.cell := by
  rw [h.inRange.toNat_sub hf, ha, Nat.succ_mul, if_pos (Nat.le_add_left _ _), Nat.add_sub_cancel]

theorem deleteChar (hcols : 0 < cols) :
    Types vbe font color c t (Text.deleteChar vbe.screen c) t.back := by
  have hmul : (c.fontSize * fontHeight).toNat = c.cell := by
    rw [UInt64.mul_comm]
    exact h.inRange.toNat_height
  have hzero : ∀ {a : UInt64} {k : Nat}, a.toNat = k * c.cell → (a = 0 ↔ k = 0) := by
    intro a k ha
    rw [eq_zero_iff, ha, Nat.mul_eq_zero]
    exact or_iff_left h.cell_pos.ne'
  by_cases hline : t.line = []
  · have hx0 : c.x = 0 := (hzero h.x).mpr (by rw [hline, List.length_nil])
    cases habove : t.above with
    | nil =>
      -- there is nothing to erase
      have hy0 : c.y = 0 := (hzero h.y).mpr (by rw [habove, List.length_nil])
      have hdel : Text.deleteChar vbe.screen c = (c, [.erased c.x c.y c.fontSize]) := by
        rw [Text.deleteChar, if_pos hx0, if_neg (by simp [hy0])]
      rw [hdel, Terminal.back_top hline habove]
      refine ⟨h, rfl, h.erase 0 0 (by rw [hx0, Nat.zero_mul]; rfl)
        (by rw [hy0, Nat.zero_mul]; rfl) hcols (Nat.zero_lt_of_lt t.row_lt) fun r k _ => ?_⟩
      split
      · next hcell =>
        rw [hcell.1, hcell.2]
        have hlen : t.above.length = 0 := by rw [habove, List.length_nil]
        have hright : t.line.length ≤ 0 := by rw [hline, List.length_nil]
        have hnone : t.cell t.above.length 0 = none := Terminal.cell_right hright
        rwa [hlen] at hnone
      · rfl
    | cons prev above =>
      have hlen : t.above.length = above.length + 1 := by rw [habove, List.length_cons]
      have hy0 : c.y > 0 := by
        rw [gt_iff_lt, UInt64.lt_iff_toNat_lt, h.y, hlen]
        exact Nat.mul_pos (Nat.succ_pos _) h.cell_pos
      have hdel : Text.deleteChar vbe.screen c =
          ({ c with x := vbe.screen.width.toUInt64 - fontWidth * c.fontSize
                    y := c.y - c.fontSize * fontHeight },
            [.erased (vbe.screen.width.toUInt64 - fontWidth * c.fontSize)
              (c.y - c.fontSize * fontHeight) c.fontSize]) := by
        rw [Text.deleteChar, if_pos hx0, if_pos hy0]
      have hx : (vbe.screen.width.toUInt64 - fontWidth * c.fontSize).toNat =
          (cols - 1) * c.cell := by
        refine h.toNat_back h.inRange.toNat_width ?_
        rw [UInt16.toNat_toUInt64, h.width, Nat.sub_add_cancel hcols]
      have hy : (c.y - c.fontSize * fontHeight).toNat = above.length * c.cell :=
        h.toNat_back hmul (by rw [h.y, hlen])
      obtain ⟨hbabove, hbline⟩ := Terminal.back_up hline habove
      have hblen : t.back.line.length = cols - 1 := by
        rw [hbline, List.length_take, List.length_append, List.length_replicate]
        omega
      rw [hdel]
      refine ⟨⟨h.inRange, h.width, h.height, by rw [hblen]; exact hx, by rw [hbabove]; exact hy⟩, rfl,
        h.erase _ _ hx hy (Nat.sub_lt hcols Nat.one_pos) ?_ fun r k hk => ?_⟩
      · have := t.row_lt
        omega
      · rw [Terminal.cell_back_up hline habove]
        have hlast : cols - 1 ≤ k ↔ k = cols - 1 := by omega
        simp only [hlast]
  · have hpos : 0 < t.line.length := List.length_pos_iff.mpr hline
    have hx0 : c.x ≠ 0 := fun hx => hpos.ne' ((hzero h.x).mp hx)
    have hdel : Text.deleteChar vbe.screen c = ({ c with x := c.x - c.fontSize * fontWidth },
        [.erased (c.x - c.fontSize * fontWidth) c.y c.fontSize]) := by
      rw [Text.deleteChar, if_neg hx0]
    have hx : (c.x - c.fontSize * fontWidth).toNat = (t.line.length - 1) * c.cell :=
      h.toNat_back hmul (by rw [h.x, Nat.sub_add_cancel hpos])
    obtain ⟨hbabove, hbline⟩ := Terminal.back_line hline
    have hblen : t.back.line.length = t.line.length - 1 := by rw [hbline, List.length_dropLast]
    rw [hdel]
    refine ⟨⟨h.inRange, h.width, h.height, by rw [hblen]; exact hx, by rw [hbabove]; exact h.y⟩, rfl,
      h.erase _ _ hx h.y ((Nat.sub_lt hpos Nat.one_pos).trans_le t.line_le) t.row_lt fun r k _ => ?_⟩
    exact Terminal.cell_back hline

/-- A character is printed, in its row or at the beginning of the next one. -/
theorem putChar (hcols : 0 < cols) (ch : UInt8) :
    Types vbe font color c t (Text.putChar vbe.screen c ch) (t.type hcols color ch) := by
  rw [Terminal.type]
  by_cases hnl : ch = newline
  · rw [if_pos hnl, hnl, putChar_newline]
    exact h.lineFeed
  rw [if_neg hnl]
  by_cases hfull : t.line.length = cols
  · rw [if_pos hfull, putChar_wrap h.inRange h.x_le hnl (h.wraps_iff.mpr hfull)]
    have hfeed : Types vbe font color c t (Text.lineFeed vbe.screen c) t.feed := h.lineFeed
    have hroom : t.feed.line.length < cols := hcols
    have happ : t.append hcols (some (ch, color)) = t.feed.append hcols (some (ch, color)) := by
      rw [Terminal.append, dif_neg (fun h => h.ne hfull), Terminal.append, dif_pos hroom]
      rfl
    rw [happ]
    exact hfeed.trans (hfeed.at_end.drawGlyph hroom hcols ch)
  rw [if_neg hfull]
  have hroom : t.line.length < cols := Nat.lt_of_le_of_ne t.line_le hfull
  have hfits : c.x.toNat + c.cell ≤ vbe.screen.width.toNat :=
    Nat.le_of_not_lt fun hlt => hfull (h.wraps_iff.mp hlt)
  by_cases htab : ch = tab
  · rw [if_pos htab, htab, putChar_tab h.inRange h.x_le hfits]
    exact h.drawGlyph hroom hcols space
  rw [if_neg htab]
  by_cases hback : ch = backspace
  · rw [if_pos hback, hback, putChar_backspace h.inRange h.x_le hfits]
    exact h.deleteChar hcols
  · rw [if_neg hback, putChar_char h.inRange h.x_le hfits h.y_fits hnl htab hback]
    exact h.drawGlyph hroom hcols ch

end At

end

/-! ## Runs -/

/-- The display shows the terminal, in the font size `n`. -/
structure Shows {rows cols : Nat} {vbe : ModeInfo} (L : vbe.Legal) (font : Font) (n : Nat)
    (s : Display) (t : Terminal rows cols) : Prop where
  at_end : At vbe.screen s.cursor t
  fontSize : s.cursor.fontSize.toNat = n
  picture : L.raster.picture s.mem = t.picture font n

/-- A call that leaves the font size alone, with characters of the font. -/
def Typed : Text.Call → Prop
  | .putChar c => c < 128
  | .lineFeed | .clearText => True
  | _ => False

instance : DecidablePred Typed
  | .putChar c => inferInstanceAs (Decidable (c < 128))
  | .lineFeed | .clearText => .isTrue trivial
  | .fontSizeUp _ | .fontSizeDown _ => .isFalse id

/-- The lines after some calls, each with its colour. -/
def Terminal.run {rows cols : Nat} (hrows : 2 ≤ rows) (hcols : 0 < cols) (t : Terminal rows cols)
    (calls : List (Text.Call × UInt32)) : Terminal rows cols :=
  calls.foldl (fun t call => t.step hrows hcols call.2 call.1) t

section

variable {vbe : ModeInfo} {L : vbe.Legal} {font : Font} {color : UInt32} {rows cols n : Nat}
  {s : Display} {t : Terminal rows cols} {call : Text.Call}

theorem step_shows (hrows : 2 ≤ rows) (hcols : 0 < cols) (S : Shows L font n s t) (hc : Typed call) :
    ∃ s', step vbe font s color call = some s' ∧
      Shows L font n s' (t.step hrows hcols color call) ∧
      ∀ a ∉ L.raster.region, s'.mem a = s.mem a := by
  have h := S.at_end
  have hcell : s.cursor.cell ≤ vbe.height.toNat := Nat.le_of_add_left_le h.y_fits
  -- the pixels are those that are drawn, and these are those of the lines
  have hshows : ∀ {r s' t'}, Renders L font color s r s' → Types vbe font color s.cursor t r t' →
      Shows L font n s' t' ∧ ∀ a ∉ L.raster.region, s'.mem a = s.mem a := by
    intro r s' t' R T
    refine ⟨⟨R.cursor ▸ T.at_end, ?_, ?_⟩, R.paints.outside⟩
    · rw [R.cursor, T.fontSize, S.fontSize]
    · rw [R.paints.picture, S.picture, ← S.fontSize]
      exact T.picture
  cases call with
  | putChar ch =>
    obtain ⟨s', hs', R⟩ : ∃ s', Console.putChar vbe font s ch color = some s' ∧
        Renders L font color s (Text.putChar vbe.screen s.cursor ch) s' :=
      putChar_renders h.inRange hcell hc
    exact ⟨s', hs', hshows R (h.putChar hcols ch)⟩
  | lineFeed => exact ⟨_, rfl, hshows (lineFeed_renders h.inRange hcell) h.lineFeed⟩
  | clearText => exact ⟨_, rfl, hshows clearText_renders (h.clearText hrows)⟩
  | fontSizeUp n => exact hc.elim
  | fontSizeDown n => exact hc.elim

/-- The frame buffer shows the lines after any calls, and nothing around it is written. -/
theorem run_shows (hrows : 2 ≤ rows) (hcols : 0 < cols) (S : Shows L font n s t)
    (calls : List (Text.Call × UInt32)) (hc : ∀ call ∈ calls, Typed call.1) :
    ∃ s', run vbe font s calls = some s' ∧ Shows L font n s' (t.run hrows hcols calls) ∧
      ∀ a ∉ L.raster.region, s'.mem a = s.mem a := by
  induction calls generalizing s t with
  | nil => exact ⟨s, rfl, S, fun _ _ => rfl⟩
  | cons call calls ih =>
    obtain ⟨hcall, hrest⟩ := List.forall_mem_cons.mp hc
    obtain ⟨s1, hstep, S1, hout1⟩ : ∃ s1, step vbe font s call.2 call.1 = some s1 ∧
        Shows L font n s1 (t.step hrows hcols call.2 call.1) ∧
        ∀ a ∉ L.raster.region, s1.mem a = s.mem a := step_shows hrows hcols S hcall
    obtain ⟨s', hrun, S', hout⟩ := ih S1 hrest
    refine ⟨s', ?_, S', fun a ha => (hout a ha).trans (hout1 a ha)⟩
    show (step vbe font s call.2 call.1).bind _ = _
    rw [hstep]
    exact hrun

/-- A cleared screen shows the blank terminal. -/
theorem clearText_shows (hrows : 2 ≤ rows) (hs : Text.InRange s.cursor)
    (hw : vbe.width.toNat = cols * s.cursor.cell) (hh : vbe.height.toNat = rows * s.cursor.cell) :
    Shows L font s.cursor.fontSize.toNat (clearText vbe s 0)
      (Terminal.blank hrows : Terminal rows cols) := by
  have hfirst : At vbe.screen (clearText vbe s 0).cursor (Terminal.blank hrows : Terminal rows cols) :=
    ⟨hs, hw, hh, (Nat.zero_mul _).symm, (Nat.zero_mul _).symm⟩
  refine ⟨hfirst, rfl, (clearScreen_paints L).picture.trans ?_⟩
  have T : Types vbe font 0 _ _ _ (Terminal.blank hrows) := hfirst.clearText hrows
  exact T.picture

/-- The screen is cleared and some text is printed: the frame buffer shows the lines that the
terminal has then, pixel by pixel, and the rest of the memory is untouched. -/
theorem printed_shows (L : vbe.Legal) (font : Font) (rows cols : Nat) (hrows : 2 ≤ rows)
    (hcols : 0 < cols) (hs : Text.InRange s.cursor) (hw : vbe.width.toNat = cols * s.cursor.cell)
    (hh : vbe.height.toNat = rows * s.cursor.cell)
    (calls : List (Text.Call × UInt32)) (hc : ∀ call ∈ calls, Typed call.1) :
    ∃ s', run vbe font s ((.clearText, 0) :: calls) = some s' ∧
      L.raster.picture s'.mem =
        ((Terminal.blank hrows : Terminal rows cols).run hrows hcols calls).picture font
          s.cursor.fontSize.toNat ∧
      ∀ a ∉ L.raster.region, s'.mem a = s.mem a := by
  have S0 : Shows L font s.cursor.fontSize.toNat (clearText vbe s 0)
      (Terminal.blank hrows : Terminal rows cols) := clearText_shows hrows hs hw hh
  obtain ⟨s', hrun, S', hout⟩ := run_shows hrows hcols S0 calls hc
  refine ⟨s', hrun, S'.picture, fun a ha => (hout a ha).trans ?_⟩
  exact (clearScreen_paints L).outside a ha

end

/-- Two characters, the second of which is taken back. -/
theorem printed_shows_one : ∃ s', run trueColor bars atBoot [(.clearText, 0), (.putChar 79, 0xFFFFFF),
    (.putChar 75, 0xFFFFFF), (.putChar backspace, 0)] = some s' ∧
      trueColor_legal.raster.picture s'.mem ⟨6, by decide⟩ ⟨0, by decide⟩ = [0xFF, 0xFF, 0xFF] ∧
      trueColor_legal.raster.picture s'.mem ⟨22, by decide⟩ ⟨0, by decide⟩ = [0, 0, 0] := by
  obtain ⟨s', hrun, hpic, -⟩ := printed_shows (s := atBoot) trueColor_legal bars 48 64
    (by decide) (by decide) (by decide) (by decide +kernel) (by decide +kernel)
    [(.putChar 79, 0xFFFFFF), (.putChar 75, 0xFFFFFF), (.putChar backspace, 0)] (by decide)
  refine ⟨s', hrun, ?_, ?_⟩
  · rw [hpic]
    decide +kernel
  · rw [hpic]
    decide +kernel

end SoKernel.Console
