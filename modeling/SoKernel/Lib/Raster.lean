import SoKernel.Lib.Memory

/-!
# Pictures in memory

A raster is a picture that lies in memory row by row: a row begins `pitch` bytes behind the one
above, and a pixel `step` bytes behind its neighbour. `Paints f` says of two memories that the
second one shows `f` of the picture the first one shows, and that they agree everywhere else.

Results:
1. `Paints.trans`, `Paints.foldl`, `Paints.fills`: paintings one after the other.
2. `paints_pixel`, `paints_copyRow`, `paints_fillRow`: what a store does to the picture.
3. `foldl_fill`, `fill_foldl_copyRow`: loops that fill regions, and one that moves a picture up.
-/

namespace SoKernel

universe u v

/-! ## Pictures -/

section Pictures

variable {γ : Type u} {w h : Nat}

/-- A picture of `w` by `h` pixels. -/
abbrev Picture (γ : Type u) (w h : Nat) : Type u := Fin w → Fin h → γ

namespace Picture

/-- Every pixel of the region gets the colour. -/
def fill (region : Nat → Nat → Bool) (c : γ) (pic : Picture γ w h) : Picture γ w h :=
  fun x y => if region x y then c else pic x y

/-- The row `s` is copied to the row `d`. -/
def copyRow (d s : Nat) (pic : Picture γ w h) : Picture γ w h :=
  fun x y => if hy : y = d ∧ s < h then pic x ⟨s, hy.2⟩ else pic x y

/-- The picture moves up by `n` rows, and `c` comes in from below. -/
def scroll (n : Nat) (c : γ) (pic : Picture γ w h) : Picture γ w h :=
  fun x y => if hy : y.val + n < h then pic x ⟨y.val + n, hy⟩ else c

variable {region region' : Nat → Nat → Bool} {c : γ} {pic : Picture γ w h}

theorem fill_congr (hr : ∀ x < w, ∀ y < h, region x y = region' x y) :
    fill region c pic = fill region' c pic := by
  funext x y
  rw [fill, fill, hr x x.isLt y y.isLt]

theorem fill_nothing (hr : ∀ x < w, ∀ y < h, region x y = false) : fill region c pic = pic := by
  funext x y
  rw [fill, hr x x.isLt y y.isLt, if_neg Bool.false_ne_true]

/-- Regions filled one after the other are filled together. -/
theorem foldl_fill {ι : Type v} (l : List ι) (region : ι → Nat → Nat → Bool) :
    l.foldl (fun pic i => fill (region i) c pic) pic =
      fill (fun x y => l.any fun i => region i x y) c pic := by
  induction l generalizing pic with
  | nil => exact (fill_nothing fun _ _ _ _ => rfl).symm
  | cons i l ih =>
    rw [List.foldl_cons, ih]
    funext x y
    simp only [fill, List.any_cons, Bool.or_eq_true]
    grind

/-- Each row is copied before it is overwritten. -/
theorem foldl_copyRow (n m : Nat) (hm : m + n ≤ h) :
    (List.range m).foldl (fun pic y => copyRow y (y + n) pic) pic =
      (fun x y => if hy : y.val < m then pic x ⟨y + n, (Nat.add_lt_add_right hy n).trans_le hm⟩
        else pic x y : Picture γ w h) := by
  induction m with
  | zero =>
    funext x y
    rw [dif_neg (Nat.not_lt_zero y.val)]
    rfl
  | succ m ih =>
    rw [Nat.succ_add] at hm
    rw [List.range_succ, List.foldl_append, ih (Nat.le_of_succ_le hm), List.foldl_cons,
      List.foldl_nil]
    funext x y
    have hsource : ¬ m + n < m := Nat.not_lt.mpr (Nat.le_add_right m n)
    rw [copyRow]
    rcases Nat.lt_trichotomy y.val m with hy | hy | hy
    · rw [dif_neg (fun h => hy.ne h.1), dif_pos hy, dif_pos (Nat.lt_succ_of_lt hy)]
    · rw [dif_pos ⟨hy, hm⟩, dif_neg hsource, dif_pos (hy ▸ Nat.lt_succ_self m)]
      exact congrArg (pic x) (Fin.ext (congrArg (· + n) hy.symm))
    · rw [dif_neg (fun h => hy.ne' h.1), dif_neg hy.le.not_gt, dif_neg (Nat.not_lt.mpr hy)]

/-- The rows are copied up one by one, and those left over are filled. -/
theorem fill_foldl_copyRow (n : Nat) (hn : n ≤ h) :
    fill (fun _ y => decide (h - n ≤ y)) c
        ((List.range (h - n)).foldl (fun pic y => copyRow y (y + n) pic) pic) =
      scroll n c pic := by
  rw [foldl_copyRow n (h - n) (Nat.sub_add_cancel hn).le]
  funext x y
  simp only [fill, scroll, decide_eq_true_eq]
  by_cases hy : y.val + n < h
  · have hlt : y.val < h - n := Nat.lt_sub_of_add_lt hy
    rw [if_neg hlt.not_ge, dif_pos hlt, dif_pos hy]
  · rw [if_pos (Nat.sub_le_of_le_add (Nat.le_of_not_lt hy)), dif_neg hy]

end Picture

end Pictures

/-! ## Rasters -/

/-- Where a picture lies. A pixel is `depth` bytes, and the next one begins `step` bytes later. -/
structure Raster where
  base : Nat
  pitch : Nat
  step : Nat
  depth : Nat
  width : Nat
  height : Nat
  depth_le : depth ≤ step
  row_le : width * step ≤ pitch

namespace Raster

variable {β : Type u} (R : Raster)

/-- The first byte of a row. -/
def row (y : Nat) : Nat := R.base + y * R.pitch

/-- The first byte of a pixel. -/
def addr (x y : Nat) : Nat := R.row y + x * R.step

/-- The addresses of the raster. -/
def region : Set Nat := Set.Ico R.base (R.row R.height)

/-- What is seen. -/
def picture (mem : Nat → β) : Picture (List β) R.width R.height :=
  fun x y => loadFrom mem (R.addr x y) R.depth

/-- The picture becomes `f` of what it was, and the rest of the memory stays. -/
structure Paints (mem mem' : Nat → β)
    (f : Picture (List β) R.width R.height → Picture (List β) R.width R.height) : Prop where
  outside : ∀ a ∉ R.region, mem' a = mem a
  picture : R.picture mem' = f (R.picture mem)

variable {R} {mem mem1 mem' : Nat → β}
  {f g : Picture (List β) R.width R.height → Picture (List β) R.width R.height}

namespace Paints

theorem refl : R.Paints mem mem id := ⟨fun _ _ => rfl, rfl⟩

theorem trans (hf : R.Paints mem mem1 f) (hg : R.Paints mem1 mem' g) :
    R.Paints mem mem' (g ∘ f) := by
  refine ⟨fun a ha => (hg.outside a ha).trans (hf.outside a ha), ?_⟩
  rw [hg.picture, hf.picture]
  rfl

theorem congr (hf : R.Paints mem mem' f) (hfg : ∀ pic, f pic = g pic) : R.Paints mem mem' g :=
  ⟨hf.outside, hf.picture.trans (hfg _)⟩

/-- A loop whose body paints. -/
theorem foldl {ι : Type v} {l : List ι} {body : (Nat → β) → ι → Nat → β}
    {F : ι → Picture (List β) R.width R.height → Picture (List β) R.width R.height}
    (hbody : ∀ mem, ∀ i ∈ l, R.Paints mem (body mem i) (F i)) (mem : Nat → β) :
    R.Paints mem (l.foldl body mem) fun pic => l.foldl (fun pic i => F i pic) pic := by
  induction l generalizing mem with
  | nil => exact refl
  | cons i l ih =>
    obtain ⟨hi, hl⟩ : R.Paints mem (body mem i) (F i) ∧
        ∀ mem, ∀ j ∈ l, R.Paints mem (body mem j) (F j) :=
      ⟨hbody mem i List.mem_cons_self, fun mem j hj => hbody mem j (List.mem_cons_of_mem i hj)⟩
    exact hi.trans (ih hl (body mem i))

/-- A loop whose body fills a region fills all of them. -/
theorem fills {ι : Type v} {l : List ι} {body : (Nat → β) → ι → Nat → β}
    {region : ι → Nat → Nat → Bool} {all : Nat → Nat → Bool} {c : List β}
    (hbody : ∀ mem, ∀ i ∈ l, R.Paints mem (body mem i) (Picture.fill (region i) c))
    (hall : ∀ x < R.width, ∀ y < R.height, all x y = true ↔ ∃ i ∈ l, region i x y = true)
    (mem : Nat → β) : R.Paints mem (l.foldl body mem) (Picture.fill all c) := by
  have hloop : R.Paints mem (l.foldl body mem)
      fun pic => l.foldl (fun pic i => Picture.fill (region i) c pic) pic := foldl hbody mem
  refine hloop.congr fun pic => ?_
  rw [Picture.foldl_fill]
  refine Picture.fill_congr fun x hx y hy => Bool.eq_iff_iff.mpr ?_
  rw [hall x hx y hy, List.any_eq_true]

end Paints

/-! ## What a store paints -/

section Stores

variable {x y d s : Nat} {bs : List β}

theorem row_mono {y' : Nat} (h : y < y') : R.row y + R.pitch ≤ R.row y' := by
  have hmul : (y + 1) * R.pitch ≤ y' * R.pitch := Nat.mul_le_mul_right _ h
  rw [Nat.succ_mul] at hmul
  rw [row, row, Nat.add_assoc]
  exact Nat.add_le_add_left hmul _

/-- A pixel lies in its row. -/
theorem addr_add_depth_le (hx : x < R.width) : R.addr x y + R.depth ≤ R.row y + R.pitch := by
  have hmul : (x + 1) * R.step ≤ R.width * R.step := Nat.mul_le_mul_right _ hx
  rw [Nat.succ_mul] at hmul
  rw [addr, Nat.add_assoc]
  refine Nat.add_le_add_left (Nat.le_trans ?_ R.row_le) _
  exact (Nat.add_le_add_left R.depth_le _).trans hmul

/-- A pixel ends before its right neighbour begins. -/
theorem addr_mono {x' : Nat} (h : x < x') : R.addr x y + R.depth ≤ R.addr x' y := by
  have hmul : (x + 1) * R.step ≤ x' * R.step := Nat.mul_le_mul_right _ h
  rw [Nat.succ_mul] at hmul
  rw [addr, addr, Nat.add_assoc]
  exact Nat.add_le_add_left ((Nat.add_le_add_left R.depth_le _).trans hmul) _

/-- A block in one of the rows. -/
theorem row_subset {a n : Nat} (hy : y < R.height) (ha : R.row y ≤ a)
    (hn : a + n ≤ R.row y + R.pitch) : Set.Ico a (a + n) ⊆ R.region := by
  refine Set.Ico_subset_Ico ?_ (hn.trans (row_mono hy))
  exact (Nat.le_add_right R.base _).trans ha

/-- Blocks in different rows are apart. -/
theorem rows_apart {y' a b m n : Nat} (hne : y ≠ y') (ha : R.row y ≤ a)
    (hm : a + m ≤ R.row y + R.pitch) (hb : R.row y' ≤ b) (hn : b + n ≤ R.row y' + R.pitch) :
    Disjoint (Set.Ico a (a + m)) (Set.Ico b (b + n)) := by
  rcases Nat.lt_or_gt_of_ne hne with h | h
  · refine Set.disjoint_left.mpr fun i hi hi' => ?_
    exact Nat.not_lt.mpr ((hm.trans (row_mono h)).trans hb) (hi'.1.trans_lt hi.2)
  · refine Set.disjoint_left.mpr fun i hi hi' => ?_
    exact Nat.not_lt.mpr ((hn.trans (row_mono h)).trans ha) (hi.1.trans_lt hi'.2)

theorem row_le_addr : R.row y ≤ R.addr x y := Nat.le_add_right _ _

/-- A store in one row leaves the others as they are. -/
theorem picture_other {a : Nat} {i : Fin R.width} {j : Fin R.height} (ha : R.row y ≤ a)
    (hn : a + bs.length ≤ R.row y + R.pitch) (hj : j.val ≠ y) :
    R.picture (storeAt mem a bs) i j = R.picture mem i j :=
  loadFrom_disjoint (rows_apart hj row_le_addr (addr_add_depth_le i.isLt) ha hn)

theorem paints_pixel (hx : x < R.width) (hy : y < R.height) (hbs : bs.length = R.depth) :
    R.Paints mem (storeAt mem (R.addr x y) bs)
      (Picture.fill (fun i j => decide (i = x ∧ j = y)) bs) := by
  have hend : R.addr x y + bs.length ≤ R.row y + R.pitch := by
    rw [hbs]
    exact addr_add_depth_le hx
  refine ⟨fun a ha => ?_, funext₂ fun i j => ?_⟩
  · exact storeAt_outside fun h => ha (row_subset hy row_le_addr hend h)
  · rw [Picture.fill]
    by_cases hj : j.val = y
    · by_cases hi : i.val = x
      · rw [if_pos (decide_eq_true ⟨hi, hj⟩), Raster.picture, hi, hj, ← hbs]
        exact loadFrom_storeAt
      · rw [if_neg (by simp [hi])]
        show loadFrom _ (R.addr i j) _ = loadFrom _ (R.addr i j) _
        rw [hj]
        refine loadFrom_disjoint (Set.disjoint_left.mpr fun a ha ha' => ?_)
        rw [hbs] at ha'
        rcases Nat.lt_or_gt_of_ne hi with h | h
        · exact Nat.not_lt.mpr (addr_mono h) (ha'.1.trans_lt ha.2)
        · exact Nat.not_lt.mpr (addr_mono h) (ha.1.trans_lt ha'.2)
    · rw [if_neg (by simp [hj])]
      exact picture_other row_le_addr hend hj

theorem paints_copyRow (hd : d < R.height) (hs : s < R.height) :
    R.Paints mem (storeAt mem (R.row d) (loadFrom mem (R.row s) R.pitch))
      (Picture.copyRow d s) := by
  have hend : R.row d + (loadFrom mem (R.row s) R.pitch).length ≤ R.row d + R.pitch := by
    rw [length_loadFrom]
  refine ⟨fun a ha => ?_, funext₂ fun i j => ?_⟩
  · exact storeAt_outside fun h => ha (row_subset hd le_rfl hend h)
  · rw [Picture.copyRow]
    by_cases hj : j.val = d
    · rw [dif_pos ⟨hj, hs⟩]
      show loadFrom _ (R.addr i j) _ = loadFrom _ (R.addr i s) _
      rw [hj]
      refine loadFrom_shift fun k hk => ?_
      have hlt : i * R.step + k < R.pitch := by
        have hpix := addr_add_depth_le (R := R) (y := 0) i.isLt
        rw [addr, Nat.add_assoc] at hpix
        exact (Nat.add_lt_add_left hk _).trans_le (Nat.le_of_add_le_add_left hpix)
      rw [addr, addr, Nat.add_assoc, Nat.add_assoc, storeAt_inside (by simpa using hlt)]
      simp [loadFrom]
    · rw [dif_neg (fun h => hj h.1)]
      exact picture_other le_rfl hend hj

theorem paints_fillRow (hy : y < R.height) (b : β) :
    R.Paints mem (storeAt mem (R.row y) (List.replicate R.pitch b))
      (Picture.fill (fun _ j => decide (j = y)) (List.replicate R.depth b)) := by
  have hend : R.row y + (List.replicate R.pitch b).length ≤ R.row y + R.pitch := by
    rw [List.length_replicate]
  refine ⟨fun a ha => ?_, funext₂ fun i j => ?_⟩
  · exact storeAt_outside fun h => ha (row_subset hy le_rfl hend h)
  · rw [Picture.fill]
    by_cases hj : j.val = y
    · rw [if_pos (decide_eq_true hj), Raster.picture, hj]
      refine List.eq_replicate_iff.mpr ⟨length_loadFrom, fun c hc => ?_⟩
      obtain ⟨k, hk, rfl⟩ := List.mem_map.mp hc
      have hlt : i * R.step + k < R.pitch := by
        have hpix := addr_add_depth_le (R := R) (y := 0) i.isLt
        rw [addr, Nat.add_assoc] at hpix
        exact (Nat.add_lt_add_left (List.mem_range.mp hk) _).trans_le (Nat.le_of_add_le_add_left hpix)
      rw [addr, Nat.add_assoc, storeAt_inside (by simpa using hlt)]
      simp
    · rw [if_neg (by simpa using hj)]
      exact picture_other le_rfl hend hj

end Stores

end Raster

end SoKernel
