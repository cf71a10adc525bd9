import SoKernel.Bitmap.Model
import SoKernel.Lib.Intervals
import Mathlib.Order.Bounds.Defs

/-!
# The layout of the table

`Layout m gs`: the cells of the table are free cells and the groups `gs`, each a
`SINGLE_BLOCK` or a `START_BOUNDARY`, `USED` cells and an `END_BOUNDARY`.

`allocMemory_cases`, `allocMemory_zero` and `freeMemory_cases` say what the two calls do
to a table with a layout; the loops of the source have one lemma each.
-/

namespace SoKernel.Bitmap

/-! ## Arithmetic of `uint32_t` -/

theorem sub32_of_le {a b : Nat} (h : b ≤ a) (ha : a < 2 ^ 32) : sub32 a b = a - b := by
  unfold sub32
  omega

theorem sizeToBlockQty_eq_zero {size : Nat} : sizeToBlockQty size = 0 ↔ size % 2 ^ 32 = 0 := by
  unfold sizeToBlockQty blockSize
  dsimp only
  split <;> omega

theorem sizeToBlockQty_eq {size : Nat} (h : size < 2 ^ 32) :
    sizeToBlockQty size = (size + (blockSize - 1)) / blockSize := by
  unfold sizeToBlockQty blockSize
  rw [Nat.mod_eq_of_lt h]
  dsimp only
  split <;> omega

theorem size_le {size : Nat} (h : size < 2 ^ 32) : size ≤ sizeToBlockQty size * blockSize := by
  rw [sizeToBlockQty_eq h]
  unfold blockSize
  omega

/-! ## The grammar of the table -/

/-- `n` cells from `a` on that are one allocation. -/
inductive IsGroup (b : Nat → Cell) (a : Nat) : Nat → Prop
  | single : b a = .SINGLE_BLOCK → IsGroup b a 1
  | run {n : Nat} : b a = .START_BOUNDARY →
      (∀ x, a < x → x < a + n + 1 → b x = .USED) → b (a + n + 1) = .END_BOUNDARY →
      IsGroup b a (n + 2)

/-- The cells from `a` on are `n` free ones. -/
def FreeRun (m : MemoryManager) (a n : Nat) : Prop := ∀ x, a ≤ x → x < a + n → m.bitmap x = .FREE

/-- Where `n` free cells of the table start, from the cell `lo` on. -/
def windows (m : MemoryManager) (lo n : Nat) : Set Nat :=
  {a | lo ≤ a ∧ a + n ≤ m.blockQty ∧ FreeRun m a n}

/-- The first window at or after the cursor, or else the first window of the table. -/
def IsNextFit (m : MemoryManager) (n a : Nat) : Prop :=
  IsLeast (windows m m.current n) a ∨ windows m m.current n = ∅ ∧ IsLeast (windows m 0 n) a

/-- What the addresses of a table need. -/
structure Table (m : MemoryManager) : Prop where
  start_pos : 0 < m.start
  aligned : m.start % blockSize = 0
  nonempty : 0 < m.blockQty
  small : (m.blockQty + 1) * blockSize < 2 ^ 32

/-- See the header of this module. -/
structure Layout (m : MemoryManager) (gs : List (Nat × Nat)) : Prop extends Table m where
  cut : Cut (fun i => m.bitmap i = .FREE) (IsGroup m.bitmap) 0 m.blockQty gs
  used : m.blocksUsed = (gs.map Prod.snd).sum
  current : m.current ≤ m.blockQty

/-- The table after the allocation of `n` cells from `a` on. -/
def mark (b : Nat → Cell) (a n : Nat) : Nat → Cell := fun x =>
  if x < a ∨ a + n ≤ x then b x
  else if n = 1 then .SINGLE_BLOCK
  else if x = a then .START_BOUNDARY
  else if x + 1 = a + n then .END_BOUNDARY
  else .USED

/-- The table after `n` cells from `a` on have been freed. -/
def clear (b : Nat → Cell) (a n : Nat) : Nat → Cell := fun x =>
  if a ≤ x ∧ x < a + n then .FREE else b x

section

variable {m m' : MemoryManager} {gs : List (Nat × Nat)} {b b' : Nat → Cell}
  {a n i f x lo last size address blocksNeeded : Nat}

theorem IsGroup.not_free (h : IsGroup b a n) (ha : a ≤ x) (hx : x < a + n) : b x ≠ .FREE := by
  cases h with
  | single hs =>
    obtain rfl : x = a := Nat.le_antisymm (Nat.lt_succ_iff.mp hx) ha
    simp [hs]
  | @run n hs hu he =>
    rcases Nat.eq_or_lt_of_le ha with rfl | ha
    · simp [hs]
    · rcases Nat.lt_or_ge x (a + n + 1) with hlt | hge
      · simp [hu x ha hlt]
      · obtain rfl : x = a + n + 1 := Nat.le_antisymm (Nat.lt_succ_iff.mp hx) hge
        simp [he]

theorem IsGroup.congr (h : IsGroup b a n) (hb : ∀ x, a ≤ x → x < a + n → b' x = b x) :
    IsGroup b' a n := by
  cases h with
  | single hs => exact .single ((hb a (Nat.le_refl a) (Nat.lt_succ_self a)).trans hs)
  | @run n hs hu he =>
    refine .run ((hb a (Nat.le_refl a) (by omega)).trans hs) (fun x hx hlt => ?_) ?_
    · exact (hb x (Nat.le_of_lt hx) (Nat.lt_succ_of_lt hlt)).trans (hu x hx hlt)
    · have hin : a + n + 1 < a + (n + 2) := Nat.lt_succ_self _
      exact (hb _ (Nat.le_trans (Nat.le_add_right a n) (Nat.le_succ _)) hin).trans he

theorem mark_outside (h : x < a ∨ a + n ≤ x) : mark b a n x = b x := if_pos h

theorem clear_outside (h : x < a ∨ a + n ≤ x) : clear b a n x = b x := by
  refine if_neg ?_
  rintro ⟨h1, h2⟩
  rcases h with h | h
  · exact absurd h1 (Nat.not_le.mpr h)
  · exact absurd h2 (Nat.not_lt.mpr h)

theorem clear_inside (h1 : a ≤ x) (h2 : x < a + n) : clear b a n x = .FREE := if_pos ⟨h1, h2⟩

theorem isGroup_mark (hn : 0 < n) : IsGroup (mark b a n) a n := by
  match n, hn with
  | 1, _ => exact .single (by simp [mark])
  | n + 2, _ =>
    refine .run ?_ (fun x hx hlt => ?_) ?_
    · simp [mark]
    · have hin : ¬ (x < a ∨ a + (n + 2) ≤ x) := by omega
      rw [mark, if_neg hin, if_neg (by omega), if_neg (Nat.ne_of_gt hx), if_neg (by omega)]
    · have hin : ¬ (a + n + 1 < a ∨ a + (n + 2) ≤ a + n + 1) := by omega
      rw [mark, if_neg hin, if_neg (by omega), if_neg (by omega), if_pos (by omega)]

/-- A cut outside some cells does not see what is written there. -/
theorem cut_congr {j l : Nat} (t : Nat → Cell)
    (h : Cut (fun i => b i = .FREE) (IsGroup b) j l gs)
    (hb : ∀ x, j ≤ x → x < l → t x = b x) : Cut (fun i => t i = .FREE) (IsGroup t) j l gs := by
  refine h.congr (fun x hj hl hx => (hb x hj hl).trans hx) fun a n hj hl hg => ?_
  exact hg.congr fun x ha hx => hb x (Nat.le_trans hj ha) (Nat.lt_of_lt_of_le hx hl)

theorem Layout.split_run (L : Layout m gs) (hn : 0 < n) (ha : a + n ≤ m.blockQty)
    (hf : FreeRun m a n) :
    ∃ gs1 gs2, gs = gs1 ++ gs2 ∧ Cut (fun i => m.bitmap i = .FREE) (IsGroup m.bitmap) 0 a gs1 ∧
      Cut (fun i => m.bitmap i = .FREE) (IsGroup m.bitmap) (a + n) m.blockQty gs2 :=
  L.cut.split_free (fun _ _ _ hg => hg.not_free) (Nat.zero_le a) ha hn hf

/-- A run of free cells is not counted as used. -/
theorem Layout.run_le (L : Layout m gs) (hn : 0 < n) (ha : a + n ≤ m.blockQty)
    (hf : FreeRun m a n) : m.blocksUsed + n ≤ m.blockQty := by
  obtain ⟨gs1, gs2, rfl, h1, h2⟩ := L.split_run hn ha hf
  have s1 := h1.sum_le
  have s2 := h2.sum_le
  rw [L.used, List.map_append, List.sum_append]
  omega

theorem Layout.used_le (L : Layout m gs) : m.blocksUsed ≤ m.blockQty := by
  have h := L.cut.sum_le
  rwa [Nat.zero_add, ← L.used] at h

theorem Layout.used_count (L : Layout m gs) :
    m.blocksUsed = Nat.count (fun i => ¬ m.bitmap i = .FREE) m.blockQty := by
  rw [L.cut.count fun _ _ _ hg => hg.not_free, L.used, Nat.count_zero, Nat.zero_add]

/-! ## Addresses -/

theorem Table.blockAddress (T : Table m) (hi : i ≤ m.blockQty + 1) :
    m.blockAddress i = m.start + i * blockSize := by
  have hlt : i * blockSize < 2 ^ 32 := Nat.lt_of_le_of_lt (Nat.mul_le_mul_right _ hi) T.small
  rw [MemoryManager.blockAddress, Nat.mod_eq_of_lt hlt]

theorem Table.blockIndex (T : Table m) (hi : i ≤ m.blockQty + 1) :
    m.blockIndex (m.start + i * blockSize) = i := by
  have hlt : i < 2 ^ 32 := by
    have := T.small
    unfold blockSize at this
    omega
  rw [MemoryManager.blockIndex, Nat.add_sub_cancel_left, Nat.mul_div_cancel _ (by decide),
    Nat.mod_eq_of_lt hlt]

theorem Table.qty_lt (T : Table m) : m.blockQty + 1 < 2 ^ 32 := by
  have := T.small
  unfold blockSize at this
  omega

/-! ## The search -/

/-- The loop of `findFreeBlocks` stands at `b + f`, behind `f` free cells that start at
`b`; no group of the size asked for starts before them. -/
theorem findLoop_cases (T : Table m) {b f : Nat} (hf : f < blocksNeeded) (hrun : FreeRun m b f)
    (hlo : lo ≤ b) (hlast : b + f + n = m.blockQty)
    (hbefore : ∀ a ∈ windows m lo blocksNeeded, b ≤ a) :
    (findLoop m blocksNeeded n (b + f) f = 0 ∧ windows m lo blocksNeeded = ∅) ∨
    ∃ a, IsLeast (windows m lo blocksNeeded) a ∧
      findLoop m blocksNeeded n (b + f) f = m.start + a * blockSize := by
  induction n generalizing b f with
  | zero =>
    refine .inl ⟨if_neg (Nat.ne_of_lt hf), Set.eq_empty_iff_forall_notMem.mpr fun a ha => ?_⟩
    have hle := hbefore a ha
    have hqty := ha.2.1
    omega
  | succ n ih =>
    unfold findLoop
    by_cases hcell : m.bitmap (b + f) = .FREE
    · have hrun' : FreeRun m b (f + 1) := by
        intro x hb hx
        rcases Nat.lt_or_ge x (b + f) with hlt | hge
        · exact hrun x hb hlt
        · obtain rfl : x = b + f := Nat.le_antisymm (Nat.lt_succ_iff.mp hx) hge
          exact hcell
      rw [if_pos hcell]
      split
      · next hneed =>
        subst hneed
        refine .inr ⟨b, ⟨⟨hlo, by omega, hrun'⟩, hbefore⟩, ?_⟩
        -- the difference wraps around for the cell 0
        have hidx : (sub32 (b + f) (f + 1) + 1) % 2 ^ 32 = b := by
          have := T.qty_lt
          unfold sub32
          omega
        rw [MemoryManager.groupAddress, hidx, T.blockAddress (by omega)]
      · next hneed =>
        exact ih (by omega) hrun' hlo (by omega) hbefore
    · rw [if_neg hcell]
      refine ih (b := b + f + 1) (f := 0) (Nat.zero_lt_of_lt hf) (fun x h1 h2 => by omega)
        (by omega) (by omega) fun a ha => ?_
      have hab := hbefore a ha
      by_contra hlt
      exact hcell (ha.2.2 (b + f) (by omega) (by omega))

/-- `findFreeBlocks` finds the first window from `lo` on; behind the table it finds none. -/
theorem findFreeBlocks_cases (T : Table m) (lo : Nat) (hn : 0 < blocksNeeded) :
    (findFreeBlocks m blocksNeeded lo m.blockQty = 0 ∧ windows m lo blocksNeeded = ∅) ∨
    ∃ a, IsLeast (windows m lo blocksNeeded) a ∧
      findFreeBlocks m blocksNeeded lo m.blockQty = m.start + a * blockSize := by
  rcases Nat.le_total lo m.blockQty with hlo | hlo
  · exact findLoop_cases T hn (fun _ h1 h2 => absurd h1 (Nat.not_le.mpr h2)) (Nat.le_refl lo)
      (by rw [Nat.add_zero, Nat.add_sub_cancel' hlo]) fun _ ha => ha.1
  · refine .inl ⟨?_, Set.eq_empty_iff_forall_notMem.mpr fun a ha => ?_⟩
    · rw [findFreeBlocks, Nat.sub_eq_zero_of_le hlo]
      exact if_neg (Nat.ne_of_lt hn)
    · have h1 := ha.1
      have h2 := ha.2.1
      omega

/-- The search for no cells ends behind the table, unless its last cell is free. -/
theorem findLoop_zero : findLoop m 0 n i f =
    if n = 0 ∧ f = 0 ∨ n ≠ 0 ∧ m.bitmap (i + n - 1) ≠ .FREE then m.groupAddress 0 (i + n)
    else 0 := by
  induction n generalizing i f with
  | zero => simp [findLoop]
  | succ n ih =>
    have hidx : i + 1 + n = i + (n + 1) := Nat.add_right_comm i 1 n
    unfold findLoop
    by_cases hcell : m.bitmap i = .FREE
    · rw [if_pos hcell, if_neg (Nat.succ_ne_zero f), ih, hidx]
      cases n with
      | zero => simp [hcell]
      | succ n => simp
    · rw [if_neg hcell, ih, hidx]
      cases n with
      | zero => simp [hcell]
      | succ n => simp

theorem findFreeBlocks_zero (T : Table m) (hi : i ≤ m.blockQty) :
    findFreeBlocks m 0 i m.blockQty =
      if i < m.blockQty ∧ m.bitmap (m.blockQty - 1) = .FREE then 0
      else m.start + (m.blockQty + 1) * blockSize := by
  have haddr : m.groupAddress 0 m.blockQty = m.start + (m.blockQty + 1) * blockSize := by
    have hlt := T.qty_lt
    rw [MemoryManager.groupAddress, sub32_of_le (Nat.zero_le _) (by omega), Nat.sub_zero,
      Nat.mod_eq_of_lt hlt, T.blockAddress (Nat.le_refl _)]
  rw [findFreeBlocks, findLoop_zero, Nat.add_sub_cancel' hi, haddr]
  rcases Nat.eq_or_lt_of_le hi with rfl | hlt
  · simp
  · have hne : m.blockQty - i ≠ 0 := Nat.sub_ne_zero_of_lt hlt
    by_cases hcell : m.bitmap (m.blockQty - 1) = .FREE
    · simp [hcell, hlt, hne]
    · simp [hcell, hne]

/-! ## Allocating -/

theorem setCell_eq {c : Cell} (h : i < m.blockQty) :
    m.setCell i c = some { m with bitmap := Function.update m.bitmap i c } := if_pos h

theorem addUsed_eq (h : m.blocksUsed + n < 2 ^ 32) :
    m.addUsed n = { m with blocksUsed := m.blocksUsed + n } := by
  rw [MemoryManager.addUsed, Nat.mod_eq_of_lt h]

theorem markLoop_eq (hqty : a + i + n ≤ m.blockQty) (hused : m.blocksUsed + n < 2 ^ 32) :
    markLoop a n i m = some { m with
      blocksUsed := m.blocksUsed + n
      bitmap := fun x => if a + i ≤ x ∧ x < a + i + n then .USED else m.bitmap x } := by
  induction n generalizing i m with
  | zero =>
    have hnone : ∀ x, ¬ (a + i ≤ x ∧ x < a + i) := fun x hx => absurd hx.1 (Nat.not_le.mpr hx.2)
    simp only [markLoop, Nat.add_zero, hnone, if_false]
  | succ n ih =>
    have hcell : a + i < ({ m with blocksUsed := m.blocksUsed + 1 } : MemoryManager).blockQty :=
      Nat.lt_of_lt_of_le (Nat.lt_add_of_pos_right (Nat.succ_pos n)) hqty
    unfold markLoop
    rw [addUsed_eq (by omega), setCell_eq hcell, Option.bind_eq_bind, Option.bind_some,
      ih (by dsimp only; omega) (by dsimp only; omega)]
    congr 2
    · exact Nat.add_right_comm _ _ _
    · funext x
      rcases eq_or_ne x (a + i) with rfl | hx
      · simp
      · have hupd : Function.update m.bitmap (a + i) Cell.USED x = m.bitmap x :=
          Function.update_of_ne hx _ _
        have hiff : a + (i + 1) ≤ x ∧ x < a + (i + 1) + n ↔ a + i ≤ x ∧ x < a + i + (n + 1) := by
          omega
        simp only [hiff, hupd]

theorem markGroupAsUsed_eq (T : Table m) (hn : 2 ≤ n) (ha : a + n ≤ m.blockQty)
    (hused : m.blocksUsed + n ≤ m.blockQty) :
    markGroupAsUsed m n a = some ({ m with
      blocksUsed := m.blocksUsed + n, bitmap := mark m.bitmap a n }, m.start + a * blockSize) := by
  have hlt := T.qty_lt
  obtain ⟨k, rfl⟩ := Nat.exists_eq_add_of_le' hn
  have hend : sub32 (a + (k + 2)) 1 = a + k + 1 := sub32_of_le (by omega) (by omega)
  have hloop : sub32 (k + 2) 1 - 1 = k := by rw [sub32_of_le (by omega) (by omega)]; rfl
  have hfirst : a < m.blockQty := by omega
  have hlast : a + k + 1 < m.blockQty := ha
  unfold markGroupAsUsed
  rw [setCell_eq hfirst, hend, hloop]
  simp only [Option.bind_eq_bind, Option.bind_some]
  rw [setCell_eq (by exact hlast), Option.bind_some, addUsed_eq (by dsimp only; omega),
    markLoop_eq (by dsimp only; omega) (by dsimp only; omega), Option.bind_some]
  have haddr : ∀ u c, ({ m with blocksUsed := u, bitmap := c } : MemoryManager).blockAddress a =
      m.start + a * blockSize := fun _ _ => T.blockAddress (by omega)
  have hsum : m.blocksUsed + 2 + k = m.blocksUsed + (k + 2) := by omega
  have hbitmap : (fun x => if a + 1 ≤ x ∧ x < a + 1 + k then Cell.USED else
      Function.update (Function.update m.bitmap a .START_BOUNDARY) (a + k + 1) .END_BOUNDARY x) =
      mark m.bitmap a (k + 2) := by
    funext x
    simp only [mark, Function.update_apply]
    split
    · next hx => rw [if_neg (by omega), if_neg (by omega), if_neg (by omega), if_neg (by omega)]
    · next hx =>
      split
      · next he => rw [if_neg (by omega), if_neg (by omega), if_neg (by omega), if_pos (by omega)]
      · next he =>
        split
        · next hs => rw [if_neg (by omega), if_neg (by omega)]
        · next hs => rw [if_pos (by omega)]
  dsimp only
  rw [haddr, hsum, hbitmap]

theorem windows_eq_empty :
    windows m 0 n = ∅ ↔ ∀ a, a + n ≤ m.blockQty → ¬ FreeRun m a n := by
  rw [Set.eq_empty_iff_forall_notMem]
  exact ⟨fun h a ha hf => h a ⟨Nat.zero_le a, ha, hf⟩, fun h a ha => h a ha.2.1 ha.2.2⟩

theorem IsNextFit.mem (h : IsNextFit m n a) : a ∈ windows m 0 n := by
  rcases h with h | ⟨_, h⟩
  · exact ⟨Nat.zero_le a, h.1.2⟩
  · exact h.1

/-- `allocMemory` of at least one cell. -/
theorem allocMemory_cases (L : Layout m gs) (hn : 0 < sizeToBlockQty size) :
    (allocMemory m size = some (m, 0) ∧ windows m 0 (sizeToBlockQty size) = ∅) ∨
    ∃ a, IsNextFit m (sizeToBlockQty size) a ∧
      allocMemory m size = some ({ m with
        current := a + sizeToBlockQty size
        blocksUsed := m.blocksUsed + sizeToBlockQty size
        bitmap := mark m.bitmap a (sizeToBlockQty size) }, m.start + a * blockSize) := by
  have hlt := L.qty_lt
  have hle := L.used_le
  have hsub : sub32 m.blockQty m.blocksUsed = m.blockQty - m.blocksUsed :=
    sub32_of_le hle (by omega)
  generalize hneed : sizeToBlockQty size = n at hn
  unfold allocMemory
  simp only [hneed, hsub]
  split
  · next hmany =>
    refine .inl ⟨rfl, windows_eq_empty.mpr fun a ha hf => ?_⟩
    have := L.run_le hn ha hf
    omega
  · -- the two passes of the search
    have hsearch : ((if findFreeBlocks m n m.current m.blockQty = 0 then
          findFreeBlocks m n 0 m.blockQty else findFreeBlocks m n m.current m.blockQty) = 0 ∧
          windows m 0 n = ∅) ∨
        ∃ a, IsNextFit m n a ∧
          (if findFreeBlocks m n m.current m.blockQty = 0 then
            findFreeBlocks m n 0 m.blockQty else findFreeBlocks m n m.current m.blockQty) =
            m.start + a * blockSize := by
      rcases findFreeBlocks_cases L.toTable m.current hn with ⟨h0, hcur⟩ | ⟨a, ha, hfound⟩
      · rw [if_pos h0]
        rcases findFreeBlocks_cases L.toTable 0 hn with hno | ⟨a, ha, hfound⟩
        · exact .inl hno
        · exact .inr ⟨a, .inr ⟨hcur, ha⟩, hfound⟩
      · have hpos : m.start + a * blockSize ≠ 0 :=
          Nat.ne_of_gt (Nat.lt_of_lt_of_le L.start_pos (Nat.le_add_right _ _))
        rw [hfound, if_neg hpos]
        exact .inr ⟨a, .inl ha, rfl⟩
    rcases hsearch with ⟨h0, hno⟩ | ⟨a, hnext, hfound⟩
    · exact .inl ⟨if_pos h0, hno⟩
    · have hpos : m.start + a * blockSize ≠ 0 :=
        Nat.ne_of_gt (Nat.lt_of_lt_of_le L.start_pos (Nat.le_add_right _ _))
      obtain ⟨_, ha, hr⟩ := hnext.mem
      have hused := L.run_le hn ha hr
      have hcur : (a + n) % 2 ^ 32 = a + n := Nat.mod_eq_of_lt (by omega)
      refine .inr ⟨a, hnext, ?_⟩
      rw [hfound, if_neg hpos, L.blockIndex (by omega), hcur]
      split
      · next h1 =>
        subst h1
        have hcell : a < ({ m with current := a + 1, blocksUsed := m.blocksUsed + 1 } :
          MemoryManager).blockQty := ha
        rw [addUsed_eq (by dsimp only; omega), setCell_eq hcell]
        simp only [Option.bind_eq_bind, Option.bind_some]
        congr 3
        funext x
        rcases eq_or_ne x a with rfl | hx
        · simp [mark]
        · have hout : x < a ∨ a + 1 ≤ x := by omega
          rw [mark_outside hout, Function.update_of_ne hx]
      · next h1 =>
        have T : Table { m with current := a + n } :=
          ⟨L.start_pos, L.aligned, L.nonempty, L.small⟩
        exact markGroupAsUsed_eq T (by omega) ha hused

/-- `allocMemory` of no cell: `NULL`, or a write behind the table. -/
theorem allocMemory_zero (L : Layout m gs) (hn : sizeToBlockQty size = 0) :
    allocMemory m size =
      if m.current < m.blockQty ∧ m.bitmap (m.blockQty - 1) = .FREE then some (m, 0) else none := by
  have hpos : m.start + (m.blockQty + 1) * blockSize ≠ 0 :=
    Nat.ne_of_gt (Nat.lt_of_lt_of_le L.start_pos (Nat.le_add_right _ _))
  unfold allocMemory
  simp only [hn, gt_iff_lt, Nat.not_lt_zero, if_false]
  rw [findFreeBlocks_zero L.toTable L.current, findFreeBlocks_zero L.toTable (Nat.zero_le _)]
  split
  · next h => simp [h.2, L.nonempty]
  · rw [if_neg Nat.zero_ne_one, L.blockIndex (Nat.le_refl _)]
    have hout : ¬ m.blockQty + 1 < m.blockQty := by omega
    simp [markGroupAsUsed, MemoryManager.setCell, hout]

/-! ## Freeing -/

/-- The loop of `freeMemory` stands at `a + i`, `n` cells before the end marker. -/
theorem freeLoop_eq {fuel : Nat} (hqty : a + i + n < m.blockQty) (hfuel : n < fuel)
    (hin : ∀ x, a + i ≤ x → x < a + i + n → m.bitmap x ≠ .END_BOUNDARY)
    (hend : m.bitmap (a + i + n) = .END_BOUNDARY) :
    freeLoop a fuel i m =
      some ({ m with bitmap := clear m.bitmap (a + i) n }, i + n) := by
  induction n generalizing i m fuel with
  | zero =>
    obtain ⟨fuel, rfl⟩ := Nat.exists_eq_succ_of_ne_zero (Nat.ne_of_gt hfuel)
    have hnone : clear m.bitmap (a + i) 0 = m.bitmap :=
      funext fun x => clear_outside (Nat.lt_or_ge x (a + i))
    unfold freeLoop
    have hend : m.bitmap (a + i) = .END_BOUNDARY := hend
    rw [if_pos hend, hnone]
    rfl
  | succ n ih =>
    obtain ⟨fuel, rfl⟩ := Nat.exists_eq_succ_of_ne_zero (Nat.ne_of_gt (Nat.zero_lt_of_lt hfuel))
    have hfirst := hin (a + i) (Nat.le_refl _) (Nat.lt_add_of_pos_right (Nat.succ_pos n))
    have hcell : a + i < m.blockQty := Nat.lt_of_le_of_lt (Nat.le_add_right _ _) hqty
    have hlast : a + (i + 1) + n = a + i + (n + 1) := by omega
    have hne : ∀ x, a + (i + 1) ≤ x → x ≠ a + i := fun x hx => Nat.ne_of_gt hx
    unfold freeLoop
    rw [if_neg hfirst, setCell_eq hcell, Option.bind_eq_bind, Option.bind_some,
      ih (by dsimp only; omega) (Nat.lt_of_succ_lt_succ hfuel)]
    · congr 2
      · congr 1
        funext x
        rcases eq_or_ne x (a + i) with rfl | hx
        · have hout : a + i < a + (i + 1) := Nat.lt_succ_self _
          rw [clear_outside (.inl hout),
            clear_inside (Nat.le_refl _) (Nat.lt_add_of_pos_right (Nat.succ_pos n))]
          exact Function.update_self _ _ _
        · have hiff : a + (i + 1) ≤ x ∧ x < a + (i + 1) + n ↔ a + i ≤ x ∧ x < a + i + (n + 1) := by
            omega
          have hupd : Function.update m.bitmap (a + i) Cell.FREE x = m.bitmap x :=
            Function.update_of_ne hx _ _
          simp only [clear, hiff, hupd]
      · exact Nat.succ_add_eq_add_succ i n
    · intro x h1 h2
      dsimp only
      rw [Function.update_of_ne (hne x h1)]
      exact hin x (Nat.le_of_succ_le h1) (hlast ▸ h2)
    · dsimp only
      rw [Function.update_of_ne (hne _ (Nat.le_add_right _ _)), hlast]
      exact hend

theorem freeMemory_skip (h : address = 0 ∨ address % blockSize ≠ 0 ∨ address < m.start) :
    freeMemory m address = some m := by
  unfold freeMemory
  rcases h with h | h | h
  · rw [if_pos (.inl h)]
  · rw [if_pos (.inr h)]
  · rw [if_pos h]
    split <;> rfl

/-- What the cell of the address decides. -/
theorem freeMemory_eq (h : ¬ (address = 0 ∨ address % blockSize ≠ 0)) (hs : m.start ≤ address)
    (hi : m.blockIndex address < m.blockQty) :
    freeMemory m address =
      if m.bitmap (m.blockIndex address) = .SINGLE_BLOCK then
        (m.setCell (m.blockIndex address) .FREE).bind fun m =>
          some { m with blocksUsed := sub32 m.blocksUsed 1 }
      else if m.bitmap (m.blockIndex address) ≠ .START_BOUNDARY then some m
      else (freeLoop (m.blockIndex address) (m.blockQty - m.blockIndex address) 0 m).bind fun r =>
        (r.1.setCell (m.blockIndex address + r.2) .FREE).bind fun m =>
          some { m with blocksUsed := sub32 m.blocksUsed (r.2 + 1) } := by
  unfold freeMemory
  rw [if_neg h, if_neg (Nat.not_lt.mpr hs)]
  dsimp only
  rw [if_neg (Nat.not_le.mpr hi)]
  rfl

/-- `freeMemory` of an address whose block starts a group frees that group. -/
theorem freeMemory_group (L : Layout m gs) (hg : (m.blockIndex address, n) ∈ gs)
    (h : ¬ (address = 0 ∨ address % blockSize ≠ 0)) (hs : m.start ≤ address) :
    freeMemory m address = some { m with
      blocksUsed := m.blocksUsed - n
      bitmap := clear m.bitmap (m.blockIndex address) n } := by
  have hle := L.used_le
  have hlt := L.qty_lt
  obtain ⟨_, hin, hpos, hgrp⟩ := L.cut.bounds hg
  have hused : n ≤ m.blocksUsed := by
    obtain ⟨gs1, gs2, rfl, _, _⟩ := L.cut.split_group hg
    rw [L.used, List.map_append, List.sum_append, List.map_cons, List.sum_cons]
    exact Nat.le_trans (Nat.le_add_right _ _) (Nat.le_add_left _ _)
  generalize hidx : m.blockIndex address = a at *
  dsimp only at hin hpos hgrp
  have hcell : a < m.blockQty := by omega
  rw [freeMemory_eq h hs (hidx ▸ hcell), hidx]
  cases hgrp with
  | single hb =>
    have hsub : sub32 m.blocksUsed 1 = m.blocksUsed - 1 := sub32_of_le hused (by omega)
    have hbitmap : Function.update m.bitmap a .FREE = clear m.bitmap a 1 := by
      funext x
      rcases eq_or_ne x a with rfl | hx
      · rw [Function.update_self, clear_inside (Nat.le_refl x) (Nat.lt_succ_self x)]
      · have hout : x < a ∨ a + 1 ≤ x := by omega
        rw [Function.update_of_ne hx, clear_outside hout]
    rw [if_pos hb, setCell_eq hcell, Option.bind_some]
    dsimp only
    rw [hsub, hbitmap]
  | @run k hb hu he =>
    have hsub : sub32 m.blocksUsed (k + 2) = m.blocksUsed - (k + 2) := sub32_of_le hused (by omega)
    have hloop : freeLoop a (m.blockQty - a) 0 m =
        some ({ m with bitmap := clear m.bitmap a (k + 1) }, k + 1) := by
      have hnone : ∀ x, a + 0 ≤ x → x < a + 0 + (k + 1) → m.bitmap x ≠ .END_BOUNDARY := by
        intro x h1 h2
        rcases Nat.eq_or_lt_of_le h1 with rfl | h1
        · simp [hb]
        · simp [hu x h1 h2]
      have hfuel : k + 1 < m.blockQty - a := by omega
      simpa using freeLoop_eq (a := a) (i := 0) (by omega) hfuel hnone he
    have hbitmap : Function.update (clear m.bitmap a (k + 1)) (a + (k + 1)) .FREE =
        clear m.bitmap a (k + 2) := by
      funext x
      rcases eq_or_ne x (a + (k + 1)) with rfl | hx
      · rw [Function.update_self, clear_inside (Nat.le_add_right _ _) (Nat.lt_succ_self _)]
      · have hiff : a ≤ x ∧ x < a + (k + 1) ↔ a ≤ x ∧ x < a + (k + 2) := by omega
        rw [Function.update_of_ne hx]
        simp only [clear, hiff]
    have hsingle : m.bitmap a ≠ .SINGLE_BLOCK := by simp [hb]
    rw [if_neg hsingle, if_neg (not_not.mpr hb), hloop, Option.bind_some]
    dsimp only
    rw [setCell_eq (by exact hin), Option.bind_some]
    dsimp only
    rw [hsub, hbitmap]

/-- The first cell of a group is the only one `freeMemory` takes for a start. -/
theorem Layout.not_start (L : Layout m gs) (hi : i < m.blockQty) (hno : ∀ n, (i, n) ∉ gs) :
    m.bitmap i ≠ .SINGLE_BLOCK ∧ m.bitmap i ≠ .START_BOUNDARY := by
  rcases L.cut.cover (Nat.zero_le _) hi with hfree | ⟨⟨a, n⟩, hmem, ha, hx⟩
  · simp [hfree]
  · have hne : a ≠ i := fun he => hno n (he ▸ hmem)
    have halt := Nat.lt_of_le_of_ne ha hne
    cases (L.cut.bounds hmem).2.2.2 with
    | single => exact absurd hx (Nat.not_lt.mpr halt)
    | @run k _ hu he =>
      rcases Nat.lt_or_ge i (a + k + 1) with hlt | hge
      · simp [hu _ halt hlt]
      · have heq : i = a + k + 1 := Nat.le_antisymm (Nat.lt_succ_iff.mp hx) hge
        simp [heq, he]

/-- A cell of the table that starts no group is left alone. -/
theorem freeMemory_no_group (L : Layout m gs) (hi : m.blockIndex address < m.blockQty)
    (hno : ∀ n, (m.blockIndex address, n) ∉ gs) : freeMemory m address = some m := by
  by_cases hskip : address = 0 ∨ address % blockSize ≠ 0 ∨ address < m.start
  · exact freeMemory_skip hskip
  · have hok : ¬ (address = 0 ∨ address % blockSize ≠ 0) := fun h => hskip (h.imp_right .inl)
    have hs : m.start ≤ address := Nat.not_lt.mp fun h => hskip (.inr (.inr h))
    have hcell := L.not_start hi hno
    rw [freeMemory_eq hok hs hi, if_neg hcell.1, if_pos hcell.2]

/-- An index behind the table is not checked. -/
theorem freeMemory_outside (h : ¬ (address = 0 ∨ address % blockSize ≠ 0)) (hs : m.start ≤ address)
    (hi : m.blockQty ≤ m.blockIndex address) : freeMemory m address = none := by
  unfold freeMemory
  rw [if_neg h, if_neg (Nat.not_lt.mpr hs)]
  exact if_pos hi

/-- `freeMemory` frees a group or does nothing. -/
theorem freeMemory_cases (L : Layout m gs) (h : freeMemory m address = some m') :
    m' = m ∨ ∃ n, (m.blockIndex address, n) ∈ gs ∧ m' = { m with
      blocksUsed := m.blocksUsed - n
      bitmap := clear m.bitmap (m.blockIndex address) n } := by
  by_cases hskip : address = 0 ∨ address % blockSize ≠ 0 ∨ address < m.start
  · rw [freeMemory_skip hskip] at h
    exact .inl (Option.some.inj h).symm
  · have hok : ¬ (address = 0 ∨ address % blockSize ≠ 0) := fun h => hskip (h.imp_right .inl)
    have hs : m.start ≤ address := Nat.not_lt.mp fun h => hskip (.inr (.inr h))
    rcases Nat.lt_or_ge (m.blockIndex address) m.blockQty with hi | hi
    · by_cases hg : ∃ n, (m.blockIndex address, n) ∈ gs
      · obtain ⟨n, hg⟩ := hg
        rw [freeMemory_group L hg hok hs] at h
        exact .inr ⟨n, hg, (Option.some.inj h).symm⟩
      · rw [freeMemory_no_group L hi (not_exists.mp hg)] at h
        exact .inl (Option.some.inj h).symm
    · cases (freeMemory_outside hok hs hi).symm.trans h

/-! ## The layout after a call -/

/-- The allocation of a run of free cells adds a group. -/
theorem Layout.alloc (L : Layout m gs) (hn : 0 < n) (ha : a + n ≤ m.blockQty)
    (hf : FreeRun m a n) :
    ∃ gs', gs'.Perm ((a, n) :: gs) ∧ Layout { m with
      current := a + n, blocksUsed := m.blocksUsed + n, bitmap := mark m.bitmap a n } gs' := by
  obtain ⟨gs1, gs2, rfl, h1, h2⟩ := L.split_run hn ha hf
  refine ⟨gs1 ++ (a, n) :: gs2, List.perm_middle, ⟨L.start_pos, L.aligned, L.nonempty, L.small⟩,
    ?_, ?_, ha⟩
  · have h1' := cut_congr (mark m.bitmap a n) h1 fun x _ hx => mark_outside (.inl hx)
    have h2' := cut_congr (mark m.bitmap a n) h2 fun x hx _ => mark_outside (.inr hx)
    exact h1'.append (.group hn (isGroup_mark hn) h2')
  · simp only [L.used, List.map_append, List.map_cons, List.sum_append, List.sum_cons]
    omega

/-- Freeing a group takes it out. -/
theorem Layout.free (L : Layout m gs) (hg : (a, n) ∈ gs) :
    ∃ gs', gs.Perm ((a, n) :: gs') ∧ Layout { m with
      blocksUsed := m.blocksUsed - n, bitmap := clear m.bitmap a n } gs' := by
  obtain ⟨gs1, gs2, rfl, h1, h2⟩ := L.cut.split_group hg
  refine ⟨gs1 ++ gs2, List.perm_middle, ⟨L.start_pos, L.aligned, L.nonempty, L.small⟩,
    ?_, ?_, L.current⟩
  · have h1' := cut_congr (clear m.bitmap a n) h1 fun x _ hx => clear_outside (.inl hx)
    have h2' := cut_congr (clear m.bitmap a n) h2 fun x hx _ => clear_outside (.inr hx)
    have hmid : Cut (fun i => clear m.bitmap a n i = .FREE) (IsGroup (clear m.bitmap a n)) a (a + n)
        [] := Cut.frees n fun x => clear_inside
    exact h1'.append (hmid.append h2')
  · simp only [L.used, List.map_append, List.map_cons, List.sum_append, List.sum_cons]
    omega

theorem create_start (table : Nat → Cell) (start size : Nat) :
    (createMemoryManager table start size).start = 39452672 := rfl

theorem create_blockQty (table : Nat → Cell) (start size : Nat) :
    (createMemoryManager table start size).blockQty = 7772160 := rfl

theorem create_layout {table : Nat → Cell} {start size : Nat} :
    Layout (createMemoryManager table start size) [] where
  start_pos := by rw [create_start]; decide
  aligned := by rw [create_start]; decide
  nonempty := by rw [create_blockQty]; decide
  small := by rw [create_blockQty]; decide
  cut := by
    generalize hm : createMemoryManager table start size = m
    have hf : ∀ x, 0 ≤ x → x < 0 + m.blockQty → m.bitmap x = .FREE := by
      subst hm
      intro x _ hx
      exact if_pos (by rwa [Nat.zero_add] at hx)
    simpa using (Cut.frees m.blockQty hf : Cut _ (IsGroup m.bitmap) 0 (0 + m.blockQty) [])
  used := rfl
  current := Nat.zero_le _

end

end SoKernel.Bitmap
