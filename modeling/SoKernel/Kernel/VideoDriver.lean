import SoKernel.Image.Theorems
import SoKernel.Kernel.TextModule
import SoKernel.Lib.Raster

/-!
# The video driver

`videoDriver.c`, on a frame buffer in memory. The information about the video mode, which the
boot loader leaves at `0x5C00`, is fixed. The functions of the pen are left out.

Results:
1. `putPixel_paints`, `clearScreen_paints`, `drawSquare_paints`: the functions paint on the
   screen, and write nowhere else.
-/

namespace SoKernel.Video

/-- What the driver reads of `vbe_mode_info_structure`. -/
structure ModeInfo where
  pitch : UInt16
  width : UInt16
  height : UInt16
  bpp : UInt8
  framebuffer : UInt32
deriving DecidableEq, Repr

/-- `for (i = lo; i < hi; i++)` -/
def forUp {σ : Type} (lo hi : Nat) (body : σ → Nat → σ) (s : σ) : σ :=
  (List.range' lo (hi - lo)).foldl body s

section

variable (vbe : ModeInfo) (mem : Image.Mem)

/-- `getWidth` and `getHeight`. -/
def ModeInfo.screen : Text.Screen := ⟨vbe.width, vbe.height⟩

/-- `putPixel` -/
def putPixel (hexColor : UInt32) (x y : UInt64) : Image.Mem :=
  let framebuffer := vbe.framebuffer.toUInt64
  let offset := x * (vbe.bpp / 8).toUInt64 + y * vbe.pitch.toUInt64
  let mem := Function.update mem (framebuffer + offset).toNat hexColor.toUInt8
  let mem := Function.update mem (framebuffer + (offset + 1)).toNat (hexColor >>> 8).toUInt8
  Function.update mem (framebuffer + (offset + 2)).toNat (hexColor >>> 16).toUInt8

/-- `clearScreen` -/
def clearScreen (color : UInt32) : Image.Mem :=
  forUp 0 vbe.height.toNat (fun mem y =>
    forUp 0 vbe.width.toNat (fun mem x => putPixel vbe mem color (.ofNat x) (.ofNat y)) mem) mem

/-- `drawSquare`: the memory, and the number of pixels that were not drawn. -/
def drawSquare (x y sideLength : UInt64) (hexColor : UInt32) : Image.Mem × Int32 :=
  if x > vbe.width.toUInt64 ∨ y > vbe.height.toUInt64 ∨ sideLength = 0 then (mem, -1)
  else
    let right := min (x + sideLength).toNat vbe.width.toNat
    let bottom := min (y + sideLength).toNat vbe.height.toNat
    let mem := forUp x.toNat right (fun mem i =>
      forUp y.toNat bottom (fun mem j => putPixel vbe mem hexColor (.ofNat i) (.ofNat j)) mem) mem
    -- where the loops have left `i` and `j`; the inner one has run if the outer one has
    let i := max x.toNat right
    let j := if x.toNat < right then max y.toNat bottom else y.toNat
    let drawn := (.ofNat i - x) * (.ofNat j - y)
    (mem, (sideLength * sideLength - drawn).toUInt32.toInt32)

end

/-! ## The frame buffer -/

/-- A mode with a byte for each colour, in which the rows do not overlap. -/
structure ModeInfo.Legal (vbe : ModeInfo) : Prop where
  depth : 24 ≤ vbe.bpp.toNat
  row : vbe.width.toNat * (vbe.bpp.toNat / 8) ≤ vbe.pitch.toNat

instance (vbe : ModeInfo) : Decidable vbe.Legal :=
  decidable_of_iff (24 ≤ vbe.bpp.toNat ∧ vbe.width.toNat * (vbe.bpp.toNat / 8) ≤ vbe.pitch.toNat)
    ⟨fun h => ⟨h.1, h.2⟩, fun h => ⟨h.depth, h.row⟩⟩

/-- Where the frame buffer lies. -/
def ModeInfo.Legal.raster {vbe : ModeInfo} (L : vbe.Legal) : Raster where
  base := vbe.framebuffer.toNat
  pitch := vbe.pitch.toNat
  step := vbe.bpp.toNat / 8
  depth := 3
  width := vbe.width.toNat
  height := vbe.height.toNat
  depth_le := (Nat.le_div_iff_mul_le (by decide)).mpr L.depth
  row_le := L.row

/-- The three bytes of a colour. -/
def rgb (hexColor : UInt32) : List UInt8 :=
  [hexColor.toUInt8, (hexColor >>> 8).toUInt8, (hexColor >>> 16).toUInt8]

/-- The pixels `drawSquare` goes through. -/
def inSquare (scr : Text.Screen) (x y sideLength : UInt64) (px py : Nat) : Bool :=
  decide (x.toNat ≤ scr.width.toNat ∧ y.toNat ≤ scr.height.toNat ∧
    (x.toNat ≤ px ∧ px < (x + sideLength).toNat) ∧ y.toNat ≤ py ∧ py < (y + sideLength).toNat)

section

variable {vbe : ModeInfo} {mem : Image.Mem} {hexColor : UInt32} (L : vbe.Legal)

/-- Nothing wraps on the screen. -/
theorem putPixel_eq {x y : Nat} (hx : x < vbe.width.toNat) (hy : y < vbe.height.toNat) :
    putPixel vbe mem hexColor (.ofNat x) (.ofNat y) =
      storeAt mem (L.raster.addr x y) (rgb hexColor) := by
  have hx16 : x < 2 ^ 16 := hx.trans vbe.width.toNat_lt
  have hy16 : y < 2 ^ 16 := hy.trans vbe.height.toNat_lt
  have hstep : (vbe.bpp / 8).toUInt64.toNat = vbe.bpp.toNat / 8 := by
    rw [UInt8.toNat_toUInt64, UInt8.toNat_div]
    rfl
  have hbpp : x * (vbe.bpp.toNat / 8) < 2 ^ 16 * 2 ^ 16 := by
    refine Nat.mul_lt_mul'' hx16 ?_
    exact (Nat.div_le_self _ _).trans_lt (vbe.bpp.toNat_lt.trans (by decide))
  have hpitch : y * vbe.pitch.toNat < 2 ^ 16 * 2 ^ 16 := Nat.mul_lt_mul'' hy16 vbe.pitch.toNat_lt
  have hframe := vbe.framebuffer.toNat_lt
  have hx64 : (UInt64.ofNat x).toNat = x :=
    UInt64.toNat_ofNat_of_lt' (hx16.trans (by decide))
  have hy64 : (UInt64.ofNat y).toNat = y :=
    UInt64.toNat_ofNat_of_lt' (hy16.trans (by decide))
  have haddr : ∀ k : UInt64, k.toNat ≤ 2 →
      (vbe.framebuffer.toUInt64 + (UInt64.ofNat x * (vbe.bpp / 8).toUInt64 +
        UInt64.ofNat y * vbe.pitch.toUInt64 + k)).toNat = L.raster.addr x y + k.toNat := by
    intro k hk
    simp only [UInt64.toNat_add, UInt64.toNat_mul, hx64, hy64, hstep, UInt16.toNat_toUInt64,
      UInt32.toNat_toUInt64]
    show _ = vbe.framebuffer.toNat + y * vbe.pitch.toNat + x * (vbe.bpp.toNat / 8) + k.toNat
    omega
  have h0 := haddr 0 (by decide)
  rw [UInt64.add_zero] at h0
  simp only [putPixel, rgb, storeAt_cons, storeAt_nil, h0, haddr 1 (by decide),
    haddr 2 (by decide)]
  rfl

theorem putPixel_paints {x y : Nat} (hx : x < vbe.width.toNat) (hy : y < vbe.height.toNat) :
    L.raster.Paints mem (putPixel vbe mem hexColor (.ofNat x) (.ofNat y))
      (Picture.fill (fun i j => decide (i = x ∧ j = y)) (rgb hexColor)) := by
  rw [putPixel_eq L hx hy]
  exact Raster.paints_pixel (R := L.raster) hx hy rfl

omit L in
theorem mem_forUp {lo hi i : Nat} : i ∈ List.range' lo (hi - lo) ↔ lo ≤ i ∧ i < hi := by
  rw [List.mem_range'_1]
  omega

/-- A loop whose body fills a region with the colour fills all of them. -/
theorem forUp_paints {lo hi : Nat} {body : Image.Mem → Nat → Image.Mem} {all : Nat → Nat → Bool}
    {c : List UInt8} (region : Nat → Nat → Nat → Bool)
    (hbody : ∀ mem i, lo ≤ i → i < hi → L.raster.Paints mem (body mem i) (Picture.fill (region i) c))
    (hall : ∀ px < vbe.width.toNat, ∀ py < vbe.height.toNat,
      all px py = true ↔ ∃ i, lo ≤ i ∧ i < hi ∧ region i px py = true) :
    L.raster.Paints mem (forUp lo hi body mem) (Picture.fill all c) := by
  have hloop : ∀ mem, ∀ i ∈ List.range' lo (hi - lo),
      L.raster.Paints mem (body mem i) (Picture.fill (region i) c) :=
    fun mem i hi => hbody mem i (mem_forUp.mp hi).1 (mem_forUp.mp hi).2
  refine .fills hloop (fun px hx py hy => ?_) mem
  rw [hall px hx py hy]
  simp only [mem_forUp, and_assoc]

theorem clearScreen_paints :
    L.raster.Paints mem (clearScreen vbe mem hexColor) fun _ _ _ => rgb hexColor := by
  have hrow : ∀ mem y, 0 ≤ y → y < vbe.height.toNat → L.raster.Paints mem
      (forUp 0 vbe.width.toNat (fun mem x => putPixel vbe mem hexColor (.ofNat x) (.ofNat y)) mem)
      (Picture.fill (fun _ j => decide (j = y)) (rgb hexColor)) := by
    intro mem y _ hy
    refine forUp_paints L _ (fun mem x _ hx => putPixel_paints L hx hy) fun px hx py _ => ?_
    simp [hx]
  show L.raster.Paints mem _ (Picture.fill (fun _ _ => true) (rgb hexColor))
  refine forUp_paints L _ hrow fun px _ py hy => ?_
  simp [hy]

theorem drawSquare_paints (x y sideLength : UInt64) :
    L.raster.Paints mem (drawSquare vbe mem x y sideLength hexColor).1
      (Picture.fill (inSquare vbe.screen x y sideLength) (rgb hexColor)) := by
  rw [drawSquare]
  split
  · next hout =>
    refine Raster.Paints.refl.congr fun pic => (Picture.fill_nothing fun px _ py _ => ?_).symm
    simp only [inSquare, decide_eq_false_iff_not]
    rintro ⟨hx, hy, hpx, -⟩
    rcases hout with h | h | h
    · rw [gt_iff_lt, UInt64.lt_iff_toNat_lt, UInt16.toNat_toUInt64] at h
      exact hx.not_gt h
    · rw [gt_iff_lt, UInt64.lt_iff_toNat_lt, UInt16.toNat_toUInt64] at h
      exact hy.not_gt h
    · rw [h, UInt64.add_zero] at hpx
      exact hpx.1.not_gt hpx.2
  · next hin =>
    simp only [not_or, gt_iff_lt, UInt64.lt_iff_toNat_lt, UInt16.toNat_toUInt64, Nat.not_lt] at hin
    refine forUp_paints L (fun i px py => decide (px = i ∧ y.toNat ≤ py ∧
      py < (y + sideLength).toNat)) (fun mem i _ hi => ?_) fun px hx py _ => ?_
    · refine forUp_paints L _ (fun mem j _ hj => putPixel_paints L (hi.trans_le (Nat.min_le_right _ _))
        (hj.trans_le (Nat.min_le_right _ _))) fun px _ py hy => ?_
      simp only [decide_eq_true_eq, lt_min_iff]
      constructor
      · rintro ⟨h, hy1, hy2⟩
        exact ⟨py, hy1, ⟨hy2, hy⟩, h, rfl⟩
      · rintro ⟨j, hj1, hj2, h, rfl⟩
        exact ⟨h, hj1, hj2.1⟩
    · simp only [inSquare, decide_eq_true_eq, lt_min_iff]
      constructor
      · rintro ⟨-, -, hpx, hpy⟩
        exact ⟨px, hpx.1, ⟨hpx.2, hx⟩, rfl, hpy⟩
      · rintro ⟨i, hi1, hi2, rfl, hpy⟩
        exact ⟨hin.1, hin.2.1, ⟨hi1, hi2.1⟩, hpy⟩

end

end SoKernel.Video
