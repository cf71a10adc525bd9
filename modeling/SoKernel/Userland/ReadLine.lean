import SoKernel.Kernel.TextModule

/-!
# Typing a line

The echo of `readLine`, and the cursor under it. On a screen that is cut into whole cells a
place is the number of cells in front of the cursor: behind the last cell of a row and at the
beginning of the next row the cursor is at the same place.

Results:
1. `print_place`, `backspace_place`: a character puts the cursor one place on, and a backspace
   one place back, but not from behind the last cell of a row.
2. `backspace_iff`: a backspace undoes a character exactly when that is not in the last
   column, and the echo of a line is right exactly when no such character is deleted.
-/

namespace SoKernel.Text

/-! ## 1. Places -/

/-- The cells of a row. -/
def columns (scr : Screen) (s : Cursor) : Nat := scr.width.toNat / s.cell

/-- The cells in front of the cursor. -/
def place (scr : Screen) (s : Cursor) : Nat :=
  s.y.toNat / s.cell * columns scr s + s.x.toNat / s.cell

/-- The cursor is at a corner of a cell, `i` cells from the left and `j` from the top, on a
screen of `C` by `R` cells. -/
structure Aligned (scr : Screen) (s : Cursor) (C R i j : Nat) : Prop where
  size : InRange s
  width : scr.width.toNat = s.cell * C
  height : scr.height.toNat = s.cell * R
  x : s.x.toNat = s.cell * i
  y : s.y.toNat = s.cell * j
  column : i ≤ C
  row : j < R
  someColumn : 0 < C

/-- The text is not moved up or cleared. -/
def Drawn.IsStill : Drawn → Prop
  | .scrolled _ => False
  | .cleared => False
  | _ => True

instance : (d : Drawn) → Decidable d.IsStill
  | .glyph _ _ _ _ => .isTrue trivial
  | .erased _ _ _ => .isTrue trivial
  | .scrolled _ => .isFalse id
  | .cleared => .isFalse id

def Still (drawn : List Drawn) : Prop := ∀ d ∈ drawn, d.IsStill

instance (drawn : List Drawn) : Decidable (Still drawn) :=
  inferInstanceAs (Decidable (∀ d ∈ drawn, d.IsStill))

section

variable {scr : Screen} {s : Cursor} {C R i j : Nat} {c : UInt8}

theorem Aligned.place_eq (A : Aligned scr s C R i j) : place scr s = j * C + i := by
  have hpos : 0 < s.cell := Nat.lt_of_lt_of_le (by decide) A.size.cell_le.1
  rw [place, columns, A.width, A.x, A.y, Nat.mul_div_cancel_left _ hpos,
    Nat.mul_div_cancel_left _ hpos, Nat.mul_div_cancel_left _ hpos]

theorem Aligned.columns_eq (A : Aligned scr s C R i j) : columns scr s = C := by
  have hpos : 0 < s.cell := Nat.lt_of_lt_of_le (by decide) A.size.cell_le.1
  rw [columns, A.width, Nat.mul_div_cancel_left _ hpos]

theorem Aligned.onScreen (A : Aligned scr s C R i j) : OnScreen scr s := by
  refine ⟨?_, ?_⟩
  · rw [A.x, A.width]
    exact Nat.mul_le_mul_left _ A.column
  · rw [A.y, A.height]
    exact Nat.mul_le_mul_left _ (Nat.le_of_lt A.row)

/-- There is a row for the cursor. -/
theorem Aligned.row_fits (A : Aligned scr s C R i j) :
    s.y.toNat + s.cell ≤ scr.height.toNat := by
  rw [A.y, A.height, ← Nat.mul_succ]
  exact Nat.mul_le_mul_left _ A.row

/-- The cursor is behind the last cell, or in front of some cell. -/
theorem Aligned.wraps_iff (A : Aligned scr s C R i j) :
    scr.width.toNat < s.x.toNat + s.cell ↔ i = C := by
  have hpos : 0 < s.cell := Nat.lt_of_lt_of_le (by decide) A.size.cell_le.1
  rw [A.width, A.x, ← Nat.mul_succ, Nat.mul_lt_mul_left hpos]
  have hle := A.column
  omega

/-- Behind a character the column is not 0. -/
theorem Aligned.drawn (A : Aligned scr s C R i j) (hi : i < C) (c : UInt8) :
    Aligned scr (drawGlyph s c).1 C R (i + 1) j := by
  have hx : (s.x + fontWidth * s.fontSize).toNat = s.x.toNat + s.cell :=
    A.size.toNat_add A.size.toNat_width A.onScreen.1
  exact { A with x := hx.trans (by rw [A.x, Nat.mul_succ]; rfl), column := hi }

/-- A line feed that does not move the text goes to the next row. -/
theorem Aligned.fed (A : Aligned scr s C R i j) :
    ∃ j', Aligned scr (lineFeed scr s).1 C R 0 j' ∧ (Still (lineFeed scr s).2 → j' = j + 1) := by
  have hpos : 0 < s.cell := Nat.lt_of_lt_of_le (by decide) A.size.cell_le.1
  have hy : (s.y + fontHeight * s.fontSize).toNat = s.y.toNat + s.cell :=
    A.size.toNat_add A.size.toNat_height A.onScreen.2
  rcases lineFeed_cases A.size (Nat.le_of_add_left_le A.row_fits) A.onScreen.2 with
    ⟨hroom, h⟩ | ⟨-, h⟩
  · have hrow : j + 1 < R := by
      rw [A.y, A.height, Nat.mul_comm 2, ← Nat.mul_add, Nat.mul_lt_mul_left hpos] at hroom
      exact Nat.lt_of_succ_lt hroom
    rw [h]
    refine ⟨j + 1, { A with x := rfl, y := ?_, column := Nat.zero_le _, row := hrow }, fun _ => rfl⟩
    exact hy.trans (by rw [A.y, Nat.mul_succ]; rfl)
  · rw [h]
    refine ⟨j, { A with x := rfl, column := Nat.zero_le _ }, fun hstill => ?_⟩
    exact (hstill _ (List.mem_singleton_self _)).elim

/-- A wrap and a character. -/
theorem Aligned.wrapped (A : Aligned scr s C R C j) (hc : c ≠ newline) :
    ∃ j', Aligned scr (putChar scr s c).1 C R 1 j' ∧ (Still (putChar scr s c).2 → j' = j + 1) := by
  obtain ⟨j', A', hj⟩ := A.fed
  rw [putChar_wrap A.size A.onScreen.1 hc (A.wraps_iff.mpr rfl)]
  exact ⟨j', A'.drawn A.someColumn c, fun hstill =>
    hj fun d hd => hstill d (List.mem_append_left _ hd)⟩

/-- A character puts the cursor one place on, and not to the beginning of a row. -/
theorem Aligned.printed (A : Aligned scr s C R i j) (hc : c ≠ newline) (hback : c ≠ backspace) :
    ∃ i' j', Aligned scr (putChar scr s c).1 C R i' j' ∧ 0 < i' ∧
      (Still (putChar scr s c).2 → j' * C + i' = j * C + i + 1) := by
  rcases Nat.lt_or_eq_of_le A.column with hi | rfl
  · have hroom : s.x.toNat + s.cell ≤ scr.width.toNat :=
      Nat.le_of_not_lt fun h => Nat.ne_of_lt hi (A.wraps_iff.mp h)
    refine ⟨i + 1, j, ?_, Nat.zero_lt_succ i, fun _ => rfl⟩
    by_cases htab : c = tab
    · rw [htab, putChar_tab A.size A.onScreen.1 hroom]
      exact A.drawn hi space
    · rw [putChar_char A.size A.onScreen.1 hroom A.row_fits hc htab hback]
      exact A.drawn hi c
  · obtain ⟨j', A', hj⟩ := A.wrapped hc
    refine ⟨1, j', A', Nat.one_pos, fun hstill => ?_⟩
    rw [hj hstill, Nat.succ_mul]

/-- One cell back from a corner of a cell. -/
theorem InRange.toNat_sub_mul (hs : InRange s) {a f : UInt64} {n : Nat} (hf : f.toNat = s.cell)
    (ha : a.toNat = s.cell * (n + 1)) : (a - f).toNat = s.cell * n := by
  rw [hs.toNat_sub hf, ha, Nat.mul_succ, if_pos (Nat.le_add_left _ _), Nat.add_sub_cancel]

/-- `deleteChar` goes one place back, also to the row above. -/
theorem Aligned.deleted (A : Aligned scr s C R i j) (hi : i < C) :
    ∃ i' j', Aligned scr (deleteChar scr s).1 C R i' j' ∧ j' * C + i' = j * C + i - 1 := by
  have hmul : (s.fontSize * fontHeight).toNat = s.cell := by
    rw [UInt64.mul_comm]
    exact A.size.toNat_height
  rw [deleteChar]
  cases i with
  | zero =>
    have hx : s.x = 0 := eq_zero_iff.mpr A.x
    rw [if_pos hx]
    cases j with
    | zero =>
      have hy : ¬ s.y > 0 := by
        rw [eq_zero_iff.mpr A.y]
        exact Nat.lt_irrefl 0
      rw [if_neg hy]
      exact ⟨0, 0, A, by rw [Nat.zero_mul]⟩
    | succ j =>
      have hpos : 0 < s.cell := Nat.lt_of_lt_of_le (by decide) A.size.cell_le.1
      have hy : s.y > 0 := by
        rw [gt_iff_lt, UInt64.lt_iff_toNat_lt, A.y]
        exact Nat.mul_pos hpos (Nat.succ_pos j)
      obtain ⟨C, rfl⟩ := Nat.exists_eq_succ_of_ne_zero (Nat.ne_of_gt hi)
      rw [if_pos hy]
      refine ⟨C, j, { A with x := ?_, y := ?_, column := Nat.le_succ C,
                             row := Nat.lt_of_succ_lt A.row }, ?_⟩
      · exact A.size.toNat_sub_mul A.size.toNat_width (scr.width.toNat_toUInt64.trans A.width)
      · exact A.size.toNat_sub_mul hmul A.y
      · rw [Nat.succ_mul]
        omega
  | succ i =>
    have hpos : 0 < s.cell := Nat.lt_of_lt_of_le (by decide) A.size.cell_le.1
    have hx : s.x ≠ 0 := by
      rw [Ne, eq_zero_iff, A.x]
      exact Nat.ne_of_gt (Nat.mul_pos hpos (Nat.succ_pos i))
    rw [if_neg hx]
    exact ⟨i, j, { A with x := A.size.toNat_sub_mul hmul A.x, column := Nat.le_of_succ_le A.column },
      rfl⟩

/-- A backspace goes one place back, but behind the last cell it is a wrap and a blank. -/
theorem Aligned.back (A : Aligned scr s C R i j) :
    ∃ i' j', Aligned scr (putChar scr s backspace).1 C R i' j' ∧
      (Still (putChar scr s backspace).2 →
        j' * C + i' = if i = C then j * C + i + 1 else j * C + i - 1) := by
  rcases Nat.lt_or_eq_of_le A.column with hi | rfl
  · have hroom : s.x.toNat + s.cell ≤ scr.width.toNat :=
      Nat.le_of_not_lt fun h => Nat.ne_of_lt hi (A.wraps_iff.mp h)
    obtain ⟨i', j', A', hplace⟩ := A.deleted hi
    rw [putChar_backspace A.size A.onScreen.1 hroom, if_neg (Nat.ne_of_lt hi)]
    exact ⟨i', j', A', fun _ => hplace⟩
  · obtain ⟨j', A', hj⟩ := A.wrapped (c := backspace) (by decide)
    refine ⟨1, j', A', fun hstill => ?_⟩
    rw [hj hstill, Nat.succ_mul, if_pos rfl]

/-- At the beginning of a row, or behind its last cell. -/
theorem Aligned.mod_eq_zero (A : Aligned scr s C R i j) :
    (j * C + i) % C = 0 ↔ i = 0 ∨ i = C := by
  rw [Nat.mul_add_mod_self_right]
  rcases Nat.lt_or_eq_of_le A.column with hi | rfl
  · rw [Nat.mod_eq_of_lt hi]
    omega
  · rw [Nat.mod_self]
    exact iff_of_true rfl (.inr rfl)

/-- Behind a character that is not at the end of its row. -/
theorem Aligned.printed_back (A : Aligned scr s C R i j) (hc : c ≠ newline)
    (hback : c ≠ backspace) :
    ∃ i' j', Aligned scr (putChar scr (putChar scr s c).1 backspace).1 C R i' j' ∧
      (Still (putChar scr s c).2 → Still (putChar scr (putChar scr s c).1 backspace).2 →
        j' * C + i' = if (j * C + i + 1) % C = 0 then j * C + i + 2 else j * C + i) := by
  obtain ⟨i₁, j₁, A₁, hi₁, hplace₁⟩ := A.printed hc hback
  obtain ⟨i₂, j₂, A₂, hplace₂⟩ := A₁.back
  refine ⟨i₂, j₂, A₂, fun hstill₁ hstill₂ => ?_⟩
  have hmod : (j * C + i + 1) % C = 0 ↔ i₁ = C := by
    rw [← hplace₁ hstill₁, A₁.mod_eq_zero]
    exact or_iff_right (Nat.ne_of_gt hi₁)
  rw [hplace₂ hstill₂, hplace₁ hstill₁]
  by_cases h : i₁ = C
  · rw [if_pos h, if_pos (hmod.mpr h)]
  · rw [if_neg h, if_neg (fun hm => h (hmod.mp hm)), Nat.add_sub_cancel]

end

/-- The cursors reached by `putChar` at one font size. -/
def Typed (scr : Screen) (fontSize : UInt64) (s : Cursor) : Prop :=
  Run (fun s c => some (putChar scr s c).1) Run.anyEvent ⟨0, 0, fontSize⟩ s

/-- A screen of whole cells. -/
structure WholeCells (scr : Screen) (fontSize : UInt64) : Prop where
  size : 1 ≤ fontSize ∧ fontSize ≤ topeFont
  width : 8 * fontSize.toNat ∣ scr.width.toNat
  height : 8 * fontSize.toNat ∣ scr.height.toNat
  someWidth : 0 < scr.width
  someHeight : 0 < scr.height

theorem Typed.aligned {scr : Screen} {fontSize : UInt64} {s : Cursor} (h : Typed scr fontSize s)
    (W : WholeCells scr fontSize) : ∃ C R i j, Aligned scr s C R i j := by
  obtain ⟨C, hC⟩ := W.width
  obtain ⟨R, hR⟩ := W.height
  have hw : 0 < scr.width.toNat := W.someWidth
  have hh : 0 < scr.height.toNat := W.someHeight
  have hrun : ∃ i j, Aligned scr s C R i j := by
    refine h.invariant (P := fun s => ∃ i j, Aligned scr s C R i j) ?_ ?_
    · refine ⟨0, 0, ⟨W.size, hC, hR, rfl, rfl, Nat.zero_le _, ?_, ?_⟩⟩
      · exact Nat.pos_of_mul_pos_left (hR ▸ hh)
      · exact Nat.pos_of_mul_pos_left (hC ▸ hw)
    · rintro t t' c ⟨i, j, A⟩ - hstep
      obtain rfl := Option.some.inj hstep
      by_cases hc : c = newline
      · obtain ⟨j', A', -⟩ := A.fed
        rw [hc, putChar_newline]
        exact ⟨0, j', A'⟩
      by_cases hback : c = backspace
      · obtain ⟨i', j', A', -⟩ := A.back
        exact ⟨i', j', hback ▸ A'⟩
      · obtain ⟨i', j', A', -⟩ := A.printed hc hback
        exact ⟨i', j', A'⟩
  obtain ⟨i, j, A⟩ := hrun
  exact ⟨C, R, i, j, A⟩

/-! ## 2. The echo of a line -/

/-- `syscall_write` to the screen stops at a byte -1. -/
def written (bs : List UInt8) : List UInt8 := bs.takeWhile (· ≠ 0xFF)

/-- Where `readLine` is when it has read some characters: what it keeps in the buffer, what it
has printed for them, and whether it leaves its loop. -/
structure Reading where
  kept : List UInt8
  echo : List UInt8
  returns : Bool
deriving DecidableEq, Repr

/-- The reading, with the output of a `printf` in front. -/
def Reading.after (r : Reading) (bs : List UInt8) : Reading :=
  { r with echo := written bs ++ r.echo }

/-- The loop of `readLine`, with the characters in the buffer and those that `getChar` gives.
Behind the loop it prints a new line. -/
def readLoop (length : UInt64) : List UInt8 → List UInt8 → Reading
  | buff, [] => ⟨buff, [], false⟩
  | buff, c :: cs =>
    if c = newline ∨ ¬ buff.length < (length - 1).toNat then ⟨buff, [], true⟩
    else if c = backspace then
      if 0 < buff.length then
        (readLoop length buff.dropLast cs).after [backspace, space, backspace]
      else readLoop length buff cs
    else if c ≠ 0 then (readLoop length (buff ++ [c]) cs).after [c]
    else readLoop length buff cs

/-- `readLine`, up to the `printf` of a new line with which it ends. -/
def readLine (length : UInt64) (input : List UInt8) : Reading := readLoop length [] input

/-- No character is deleted that the echo has printed in the last of `C` columns, the line
beginning at the place `start`. -/
def DeletesInner (C start : Nat) (length : UInt64) : List UInt8 → List UInt8 → Prop
  | _, [] => True
  | buff, c :: cs =>
    if c = newline ∨ ¬ buff.length < (length - 1).toNat then True
    else if c = backspace then
      if 0 < buff.length then
        (start + buff.length) % C ≠ 0 ∧ DeletesInner C start length buff.dropLast cs
      else DeletesInner C start length buff cs
    else if c ≠ 0 then DeletesInner C start length (buff ++ [c]) cs
    else DeletesInner C start length buff cs

instance decidableDeletesInner (C start : Nat) (length : UInt64) :
    (buff cs : List UInt8) → Decidable (DeletesInner C start length buff cs)
  | _, [] => .isTrue trivial
  | buff, c :: cs =>
    have := decidableDeletesInner C start length buff.dropLast cs
    have := decidableDeletesInner C start length buff cs
    have := decidableDeletesInner C start length (buff ++ [c]) cs
    inferInstanceAs (Decidable (if c = newline ∨ ¬ buff.length < (length - 1).toNat then True
      else if c = backspace then
        if 0 < buff.length then
          (start + buff.length) % C ≠ 0 ∧ DeletesInner C start length buff.dropLast cs
        else DeletesInner C start length buff cs
      else if c ≠ 0 then DeletesInner C start length (buff ++ [c]) cs
      else DeletesInner C start length buff cs))

/-- A character of the font that is seen, or a blank. -/
def Printable (c : UInt8) : Prop := 32 ≤ c ∧ c ≤ 126

instance (c : UInt8) : Decidable (Printable c) := inferInstanceAs (Decidable (_ ∧ _))

section

variable {scr : Screen} {s : Cursor} {C R i j start : Nat} {length : UInt64} {c : UInt8}
  {bs cs ds : List UInt8}

theorem Printable.ne (h : Printable c) : c ≠ newline ∧ c ≠ backspace ∧ c ≠ 0 ∧ c ≠ 0xFF := by
  obtain ⟨hlow, hhigh⟩ := h
  refine ⟨?_, ?_, ?_, ?_⟩ <;> rintro rfl
  · exact absurd hlow (by decide)
  · exact absurd hlow (by decide)
  · exact absurd hlow (by decide)
  · exact absurd hhigh (by decide)

theorem printStr_append : printStr scr s (bs ++ ds) =
    ((printStr scr (printStr scr s bs).1 ds).1,
      (printStr scr s bs).2 ++ (printStr scr (printStr scr s bs).1 ds).2) := by
  induction bs generalizing s with
  | nil => rfl
  | cons b bs ih => simp only [List.cons_append, printStr, ih, List.append_assoc]

theorem still_append {d d' : List Drawn} : Still (d ++ d') ↔ Still d ∧ Still d' :=
  List.forall_mem_append

/-- What `readLine` prints for a deletion goes one place back, but one or more places on when
the character deleted is in the last column. -/
theorem Aligned.erased (A : Aligned scr s C R i j) (hpos : 0 < j * C + i) :
    ∃ i' j', Aligned scr (printStr scr s [backspace, space, backspace]).1 C R i' j' ∧
      (Still (printStr scr s [backspace, space, backspace]).2 →
        if (j * C + i) % C = 0 then j * C + i < j' * C + i' else j' * C + i' + 1 = j * C + i) := by
  obtain ⟨i₁, j₁, A₁, hplace₁⟩ := A.back
  obtain ⟨i₂, j₂, A₂, hplace₂⟩ := A₁.printed_back (c := space) (by decide) (by decide)
  simp only [printStr, List.append_nil, still_append]
  refine ⟨i₂, j₂, A₂, fun hstill => ?_⟩
  obtain ⟨hstill₁, hstill₂, hstill₃⟩ := hstill
  have h₁ := hplace₁ hstill₁
  have h₂ := hplace₂ hstill₂ hstill₃
  by_cases hi : i = C
  · -- one place on, and then on again or back to it
    rw [if_pos hi] at h₁
    rw [if_pos (A.mod_eq_zero.mpr (.inr hi)), h₂, h₁]
    split <;> omega
  · rw [if_neg hi] at h₁
    rw [h₁, Nat.sub_add_cancel hpos] at h₂
    split
    · next hmod =>
      rw [if_pos hmod] at h₂
      omega
    · next hmod =>
      rw [if_neg hmod] at h₂
      omega

/-- What the loop does with one character. -/
theorem readLoop_cases (C start : Nat) (buff : List UInt8) (hc : c = newline ∨ c = backspace ∨ Printable c)
    (cs : List UInt8) :
    (readLoop length buff (c :: cs) = ⟨buff, [], true⟩ ∧
      DeletesInner C start length buff (c :: cs)) ∨
    (0 < buff.length ∧
      readLoop length buff (c :: cs) =
        (readLoop length buff.dropLast cs).after [backspace, space, backspace] ∧
      (DeletesInner C start length buff (c :: cs) ↔
        (start + buff.length) % C ≠ 0 ∧ DeletesInner C start length buff.dropLast cs)) ∨
    (Printable c ∧ readLoop length buff (c :: cs) = (readLoop length (buff ++ [c]) cs).after [c] ∧
      (DeletesInner C start length buff (c :: cs) ↔
        DeletesInner C start length (buff ++ [c]) cs)) ∨
    (readLoop length buff (c :: cs) = readLoop length buff cs ∧
      (DeletesInner C start length buff (c :: cs) ↔ DeletesInner C start length buff cs)) := by
  rw [readLoop, DeletesInner]
  by_cases hend : c = newline ∨ ¬ buff.length < (length - 1).toNat
  · rw [if_pos hend, if_pos hend]
    exact .inl ⟨rfl, trivial⟩
  rw [if_neg hend, if_neg hend]
  by_cases hback : c = backspace
  · rw [if_pos hback, if_pos hback]
    by_cases hbuff : 0 < buff.length
    · rw [if_pos hbuff, if_pos hbuff]
      exact .inr (.inl ⟨hbuff, rfl, .rfl⟩)
    · rw [if_neg hbuff, if_neg hbuff]
      exact .inr (.inr (.inr ⟨rfl, .rfl⟩))
  · have hprint : Printable c := (hc.resolve_left fun h => hend (.inl h)).resolve_left hback
    rw [if_neg hback, if_neg hback, if_pos hprint.ne.2.2.1, if_pos hprint.ne.2.2.1]
    exact .inr (.inr (.inl ⟨hprint, rfl, .rfl⟩))

/-- From a cursor that is not in front of its place, the echo leaves it at the right place
exactly when it is at its place and no character in the last column is deleted. -/
theorem Aligned.echoed (start : Nat) (buff : List UInt8) (A : Aligned scr s C R i j)
    (hle : start + buff.length ≤ j * C + i)
    (hcs : ∀ c ∈ cs, c = newline ∨ c = backspace ∨ Printable c)
    (hstill : Still (printStr scr s (readLoop length buff cs).echo).2) :
    ∃ i' j', Aligned scr (printStr scr s (readLoop length buff cs).echo).1 C R i' j' ∧
      (j' * C + i' = start + (readLoop length buff cs).kept.length ↔
        j * C + i = start + buff.length ∧ DeletesInner C start length buff cs) := by
  induction cs generalizing s i j buff with
  | nil => exact ⟨i, j, A, (and_iff_left trivial).symm⟩
  | cons c cs ih =>
    obtain ⟨hc, hcs⟩ := List.forall_mem_cons.mp hcs
    rcases readLoop_cases C start buff hc cs with
      ⟨hread, hdel⟩ | ⟨hbuff, hread, hdel⟩ | ⟨hprint, hread, hdel⟩ | ⟨hread, hdel⟩
    · rw [hread]
      exact ⟨i, j, A, (and_iff_left hdel).symm⟩
    · have hecho : (readLoop length buff (c :: cs)).echo =
          [backspace, space, backspace] ++ (readLoop length buff.dropLast cs).echo := by
        rw [hread]
        rfl
      rw [hecho, printStr_append] at hstill ⊢
      obtain ⟨hstill₁, hstill₂⟩ := still_append.mp hstill
      obtain ⟨i₁, j₁, A₁, hplace₁⟩ := A.erased (by omega)
      have h₁ := hplace₁ hstill₁
      have hlen : buff.dropLast.length = buff.length - 1 := List.length_dropLast
      have hle₁ : start + buff.dropLast.length ≤ j₁ * C + i₁ := by
        split at h₁ <;> omega
      obtain ⟨i₂, j₂, A₂, hiff⟩ := ih _ A₁ hle₁ hcs hstill₂
      refine ⟨i₂, j₂, A₂, ?_⟩
      rw [hread, hdel, ← and_assoc]
      refine hiff.trans (and_congr_left fun _ => ?_)
      constructor
      · intro hplace
        split at h₁
        · omega
        · next hmod =>
          have heq : j * C + i = start + buff.length := by omega
          exact ⟨heq, heq ▸ hmod⟩
      · rintro ⟨heq, hmod⟩
        rw [heq, if_neg hmod] at h₁
        omega
    · have hecho : (readLoop length buff (c :: cs)).echo =
          [c] ++ (readLoop length (buff ++ [c]) cs).echo := by
        rw [hread, Reading.after, written, List.takeWhile_cons_of_pos (by simpa using hprint.ne.2.2.2)]
        rfl
      rw [hecho, printStr_append] at hstill ⊢
      obtain ⟨hstill₁, hstill₂⟩ := still_append.mp hstill
      obtain ⟨i₁, j₁, A₁, -, hplace₁⟩ := A.printed hprint.ne.1 hprint.ne.2.1
      have h₁ := hplace₁ fun d hd => hstill₁ d (List.mem_append_left _ hd)
      have hlen : (buff ++ [c]).length = buff.length + 1 := by simp
      obtain ⟨i₂, j₂, A₂, hiff⟩ := ih _ A₁ (by omega) hcs hstill₂
      refine ⟨i₂, j₂, A₂, ?_⟩
      rw [hread, hdel]
      refine hiff.trans (and_congr_left fun _ => ?_)
      omega
    · rw [hread] at hstill ⊢
      rw [hdel]
      exact ih buff A hle hcs hstill

/-- A backspace undoes a character exactly when that is not in the last column of the screen,
and the echo of a line leaves the cursor behind the characters kept exactly when no character
in the last column has been deleted. -/
theorem backspace_iff {fontSize : UInt64} (W : WholeCells scr fontSize) (h : Typed scr fontSize s) :
    (Printable c → Still (putChar scr s c).2 →
      Still (putChar scr (putChar scr s c).1 backspace).2 →
      (place scr (putChar scr (putChar scr s c).1 backspace).1 = place scr s ↔
        (place scr s + 1) % columns scr s ≠ 0)) ∧
    ((∀ c ∈ cs, c = newline ∨ c = backspace ∨ Printable c) →
      Still (printStr scr s (readLine length cs).echo).2 →
      (place scr (printStr scr s (readLine length cs).echo).1 =
          place scr s + (readLine length cs).kept.length ↔
        DeletesInner (columns scr s) (place scr s) length [] cs)) := by
  obtain ⟨C, R, i, j, A⟩ := h.aligned W
  rw [A.columns_eq, A.place_eq]
  constructor
  · intro hc hstill hstill'
    obtain ⟨i', j', A', hplace⟩ := A.printed_back hc.ne.1 hc.ne.2.1
    rw [A'.place_eq, hplace hstill hstill']
    split
    · next hmod => exact iff_of_false (by omega) (fun hne => hne hmod)
    · next hmod => exact iff_of_true rfl hmod
  · intro hcs hstill
    rw [readLine] at hstill ⊢
    obtain ⟨i', j', A', hiff⟩ := A.echoed (j * C + i) [] (Nat.le_refl _) hcs hstill
    rw [A'.place_eq]
    exact hiff.trans (and_iff_right rfl)

end

/-- A character taken back at the beginning of the screen, and a line with a deletion. -/
theorem backspace_iff_boot :
    let scr : Screen := ⟨1024, 768⟩
    let line : List UInt8 := [112, 115, 115, backspace, newline]
    place scr (putChar scr (putChar scr bootCursor 97).1 backspace).1 = place scr bootCursor ∧
      place scr (printStr scr bootCursor (readLine 1000 line).echo).1 =
        place scr bootCursor + (readLine 1000 line).kept.length := by
  intro scr line
  have W : WholeCells scr 2 := ⟨by decide, by decide, by decide, by decide, by decide⟩
  have hline : ∀ c ∈ line, c = newline ∨ c = backspace ∨ Printable c := by decide +kernel
  have h := @backspace_iff scr bootCursor 1000 97 line 2 W .refl
  exact ⟨(h.1 (by decide) (by decide +kernel) (by decide +kernel)).mpr (by decide +kernel),
    (h.2 hline (by decide +kernel)).mpr (by decide +kernel)⟩

/-- A character in the last column: the backspace is drawn in the next row. And a line of as
many characters as the screen has columns, the last of which is deleted. -/
theorem backspace_wraps :
    let scr : Screen := ⟨1024, 768⟩
    let line : List UInt8 := List.replicate 64 97 ++ [backspace, newline]
    (∃ s, Typed scr 2 s ∧ Still (putChar scr s 97).2 ∧
      Still (putChar scr (putChar scr s 97).1 backspace).2 ∧
      place scr (putChar scr (putChar scr s 97).1 backspace).1 ≠ place scr s) ∧
    Still (printStr scr bootCursor (readLine 1000 line).echo).2 ∧
      place scr (printStr scr bootCursor (readLine 1000 line).echo).1 ≠
        place scr bootCursor + (readLine 1000 line).kept.length := by
  intro scr line
  have hrow : Run.exec (fun s c => some (putChar scr s c).1) Run.anyEvent bootCursor
      (List.replicate 63 97) = some ⟨1008, 0, 2⟩ := by decide +kernel
  exact ⟨⟨_, Run.of_exec hrow, by decide +kernel⟩, by decide +kernel⟩

end SoKernel.Text
