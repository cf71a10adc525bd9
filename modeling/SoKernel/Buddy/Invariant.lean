import SoKernel.Buddy.Layout
import SoKernel.Lib.Run
import Mathlib.Data.Nat.Log

/-!
# The invariant of the buddy allocator

`Inv s l` holds in every state that `allocMemory`, `freeMemory` of live pointers
and writes into live payloads lead to. One lemma for each of the three says that
the call is defined and keeps it (`allocMemory_inv`, `freeMemory_inv`,
`write_inv`); `reach_inv` is the run lemma.
-/

namespace SoKernel.Buddy

open DyadicBlocks

theorem sub64_of_le {a b : Nat} (h : b ≤ a) (ha : a < 2 ^ 64) : sub64 a b = a - b := by
  unfold sub64
  omega

theorem setUsed_used (h : Heap) (n : Nat) : (h.setUsed n).man.usedMem = n := rfl

theorem setUsed_mem (h : Heap) (n : Nat) : (h.setUsed n).mem = h.mem := rfl

theorem setUsed_max (h : Heap) (n : Nat) : (h.setUsed n).man.maxOrder = h.man.maxOrder := rfl

theorem setUsed_total (h : Heap) (n : Nat) : (h.setUsed n).man.totalMem = h.man.totalMem := rfl

theorem setStatus_man (h : Heap) (a : Nat) (st : Status) : (h.setStatus a st).man = h.man := rfl

/-! ## The order of a request -/

/-- The order `allocMemory` computes for a request of `n` bytes. -/
def orderOf (n : Nat) : Nat := max minOrder (Nat.clog 2 (n + sizeofBlock))

theorem le_two_pow_orderOf (n : Nat) : n + sizeofBlock ≤ 2 ^ orderOf n :=
  Nat.le_trans (Nat.le_pow_clog Nat.one_lt_two _)
    (Nat.pow_le_pow_right Nat.two_pos (Nat.le_max_right _ _))

/-- The doubling loop stops at the first order that is large enough. -/
theorem orderLoop_eq {bound : Nat} (hb : bound ≤ 2 ^ 63) (fuel k : Nat) (hk : k ≤ 63)
    (hfuel : max k (Nat.clog 2 bound) < k + fuel) :
    orderLoop bound fuel k (2 ^ k) =
      some (max k (Nat.clog 2 bound), 2 ^ max k (Nat.clog 2 bound)) := by
  induction fuel generalizing k with
  | zero => omega
  | succ fuel ih =>
    simp only [orderLoop]
    by_cases hlt : 2 ^ k < bound
    · have hclog : k < Nat.clog 2 bound := (Nat.lt_clog_iff_pow_lt Nat.one_lt_two).mpr hlt
      have hk63 : k + 1 ≤ 63 := by
        have : 2 ^ k < 2 ^ 63 := Nat.lt_of_lt_of_le hlt hb
        have := (Nat.pow_lt_pow_iff_right Nat.one_lt_two).mp this
        omega
      have hmod : 2 ^ k * 2 % 2 ^ 64 = 2 ^ (k + 1) := by
        rw [← Nat.pow_succ]
        exact Nat.mod_eq_of_lt (Nat.pow_lt_pow_right Nat.one_lt_two (by omega))
      have hmax : max (k + 1) (Nat.clog 2 bound) = max k (Nat.clog 2 bound) := by omega
      rw [if_pos hlt, hmod, ih (k + 1) hk63 (by omega), hmax]
    · have hclog : Nat.clog 2 bound ≤ k :=
        (Nat.clog_le_iff_le_pow Nat.one_lt_two).mpr (Nat.le_of_not_lt hlt)
      have hmax : max k (Nat.clog 2 bound) = k := by omega
      rw [if_neg hlt, hmax]

/-- `allocMemory` computes `orderOf`. -/
theorem alloc_order {n : Nat} (hn : n ≤ heapSize) :
    ∃ o sz, orderLoop (n + sizeofBlock) 65 1 2 = some (o, sz) ∧
      (if minOrder > o then minOrder else o) = orderOf n := by
  have hle : n + sizeofBlock ≤ 2 ^ 29 := Nat.le_trans (Nat.add_le_add_right hn _) (by decide)
  have hclog : Nat.clog 2 (n + sizeofBlock) ≤ 29 :=
    (Nat.clog_le_iff_le_pow Nat.one_lt_two).mpr hle
  have h := orderLoop_eq (Nat.le_trans hle (by decide)) 65 1 (by decide) (by omega)
  refine ⟨_, _, h, ?_⟩
  unfold orderOf minOrder
  split <;> omega

/-! ## The invariant -/

/-- The block behind a live pointer. -/
def Alloc.blk (a : Alloc) : Blk := ⟨a.ptr - sizeofBlock - heapStartAddress, orderOf a.bytes⟩

def liveBlks (live : List Alloc) : Multiset Blk := (live.map Alloc.blk : Multiset Blk)

/-- No two buddies are both in `F`. -/
def NoBuddies (M : Nat) (F : Multiset Blk) : Prop :=
  ∀ b ∈ F, b.ord < M → b.buddy ∉ F

/-- The headers of the blocks of `O` say `OCCUPIED` and the block's order. -/
def Occupied (h : Heap) (O : Multiset Blk) : Prop :=
  ∀ b ∈ O, (h.mem (addr b.off)).order = b.ord ∧ (h.mem (addr b.off)).status = .OCCUPIED

structure Inv (s : St) (l : Nat → List Nat) : Prop where
  layout : Layout s.heap l (liveBlks s.live)
  ptr : ∀ a ∈ s.live, a.ptr = addr a.blk.off + sizeofBlock
  occupied : Occupied s.heap (liveBlks s.live)
  noBuddies : NoBuddies s.heap.man.maxOrder (freeBlks l)
  minOrd : ∀ b ∈ freeBlks l + liveBlks s.live, minOrder ≤ b.ord ∨ b.ord = s.heap.man.maxOrder
  used : s.heap.man.usedMem = ((liveBlks s.live).map Blk.size).sum
  total : s.heap.man.totalMem = 2 ^ s.heap.man.maxOrder

theorem liveBlks_cons (a : Alloc) (live : List Alloc) :
    liveBlks (a :: live) = a.blk ::ₘ liveBlks live := rfl

theorem liveBlks_erase {a : Alloc} {live : List Alloc} (ha : a ∈ live) :
    liveBlks live = a.blk ::ₘ liveBlks (live.erase a) :=
  Multiset.coe_eq_coe.mpr ((List.perm_cons_erase ha).map Alloc.blk)

theorem mem_liveBlks {a : Alloc} {live : List Alloc} (ha : a ∈ live) : a.blk ∈ liveBlks live :=
  Multiset.mem_coe.mpr (List.mem_map_of_mem ha)

theorem NoBuddies.of_subset {M : Nat} {F F' : Multiset Blk} (h : NoBuddies M F)
    (hs : ∀ b ∈ F', b ∈ F) : NoBuddies M F' :=
  fun b hb hk hbud => h b (hs b hb) hk (hs _ hbud)

theorem NoBuddies.cons {M : Nat} {F : Multiset Blk} {b : Blk} (h : NoBuddies M F)
    (hb : b.ord < M → b.buddy ∉ F) : NoBuddies M (b ::ₘ F) := by
  intro c hc hk hbud
  rcases Multiset.mem_cons.mp hc with rfl | hc
  · rcases Multiset.mem_cons.mp hbud with hself | hbud
    · exact buddy_ne c hself
    · exact hb hk hbud
  · rcases Multiset.mem_cons.mp hbud with hcb | hbud
    · have hback : b.buddy = c := by rw [← hcb, buddy_buddy]
      exact hb (hcb ▸ hk) (hback ▸ hc)
    · exact h c hc hk hbud

theorem Occupied.of_keeps {h h' : Heap} {O : Multiset Blk} {P : Nat → Prop} (hO : Occupied h O)
    (K : Keeps P h h') (hP : ∀ b ∈ O, ¬ P b.off) : Occupied h' O := by
  intro b hb
  rw [K.order _ (hP b hb), K.status _ (hP b hb)]
  exact hO b hb

namespace Layout

variable {h : Heap} {l : Nat → List Nat} {O : Multiset Blk} {k o : Nat}

/-- Writing a header image that heads no free block keeps the layout. -/
theorem setBlock (L : Layout h l O) {a : Nat} (ha : ∀ j, ∀ o ∈ l j, addr o ≠ a) (x : Block) :
    Layout (h.setBlock a x) l O := by
  have hm : ∀ j, ∀ o ∈ l j, (h.setBlock a x).mem (addr o) = h.mem (addr o) :=
    fun j o ho => setBlock_mem_ne _ (ha j o ho)
  refine ⟨L.bound, fun j => (L.chain j).congr fun o ho => by rw [hm j o ho], ?_, L.beyond, L.tiling⟩
  intro j o ho
  rw [hm j o ho]
  exact L.header j o ho

theorem setBlock_hand (L : Layout h l O) {b : Blk} (hb : b ∈ O) (x : Block) :
    Layout (h.setBlock (addr b.off) x) l O :=
  L.setBlock (fun j o ho he => L.not_mem_list hb j ((addr_inj.mp he : o = b.off) ▸ ho)) x

theorem setUsed (L : Layout h l O) (n : Nat) : Layout (h.setUsed n) l O :=
  ⟨L.bound, L.chain, L.header, L.beyond, L.tiling⟩

/-- The blocks that are not free fill less than a `uint64_t` counts. -/
theorem used_lt (L : Layout h l O) : (O.map Blk.size).sum < 2 ^ 64 := by
  have hsum := L.tiling.size_sum
  rw [Multiset.map_add, Multiset.sum_add] at hsum
  have hmax : 2 ^ h.man.maxOrder < 2 ^ 64 :=
    Nat.pow_lt_pow_right Nat.one_lt_two (Nat.lt_trans L.bound (by decide))
  exact Nat.lt_of_le_of_lt (Nat.le_add_left _ _) (hsum ▸ hmax)

/-- Two different entries of the layout start at different offsets. -/
theorem off_ne {b c : Blk} (L : Layout h l (c ::ₘ O)) (hb : b ∈ O) : b.off ≠ c.off := by
  intro he
  have hbT : b ∈ freeBlks l + c ::ₘ O := by simp [hb]
  have heq := L.eq_of_off hbT (by simp) he
  have hT := L.tiling
  rw [Multiset.add_cons] at hT
  exact hT.not_mem_of_cons (by simp [← heq, hb])

end Layout

/-! ## `allocMemory` -/

variable {h : Heap} {l : Nat → List Nat} {O : Multiset Blk} {k o : Nat}

/-- Splitting down from order `k + n` leaves a block of order `k` at the head of
its list, and the upper halves free. -/
theorem splitLoop_layout {n : Nat} {r : List Nat} {F : Multiset Blk} (L : Layout h l O)
    (hl : l (k + n) = o :: r) (hF : freeBlks l = ⟨o, k + n⟩ ::ₘ F)
    (hN : NoBuddies h.man.maxOrder F) :
    ∃ h' l' r' F', splitLoop k n h = some h' ∧ Layout h' l' O ∧ l' k = o :: r' ∧
      freeBlks l' = ⟨o, k⟩ ::ₘ F' ∧ NoBuddies h.man.maxOrder F' ∧
      Keeps (Blk.Covers ⟨o, k + n⟩) h h' ∧ ∀ b ∈ F', b ∈ F ∨ k ≤ b.ord := by
  induction n generalizing h l r F with
  | zero =>
    exact ⟨h, l, r, F, rfl, L, hl, hF, hN,
      ⟨⟨rfl, rfl, rfl⟩, fun _ _ => rfl, fun _ _ => rfl⟩, fun b hb => .inl hb⟩
  | succ n ih =>
    have ho : o ∈ l (k + (n + 1)) := hl ▸ List.mem_cons_self
    have hlt : k + (n + 1) < maxOrder := L.ord_lt ho
    have hne : k + n ≠ k + (n + 1) := by omega
    have hpred : k + (n + 1) - 1 = k + n := by omega
    obtain ⟨h1, hsplit, L1, K1⟩ := splitBlock_layout L (by omega) hl
    rw [hpred] at L1
    -- the free blocks are now the two halves and `F`
    let b : Blk := ⟨o, k + (n + 1)⟩
    have hF1 : freeBlks (Function.update (Function.update l (k + (n + 1)) r) (k + n)
        (o :: (o + 2 ^ (k + n)) :: l (k + n))) =
        ⟨o, k + n⟩ ::ₘ ⟨o + 2 ^ (k + n), k + n⟩ ::ₘ F := by
      have he := freeBlks_erase hlt ho
      rw [hl, List.erase_cons_head, hF] at he
      have hrest : F = freeBlks (Function.update l (k + (n + 1)) r) :=
        (Multiset.cons_inj_right _).mp he
      have h1 := freeBlks_cons (l := Function.update l (k + (n + 1)) r) (k := k + n)
        (by omega) (o + 2 ^ (k + n))
      have h2 := freeBlks_cons (l := Function.update (Function.update l (k + (n + 1)) r) (k + n)
        ((o + 2 ^ (k + n)) :: l (k + n))) (k := k + n) (by omega) o
      rw [Function.update_of_ne hne] at h1
      rw [Function.update_self, Function.update_idem, h1, ← hrest] at h2
      exact h2
    have hbA : b.Aligned := L.tiling.aligned b (L.mem_tiling ho)
    have hleft : b.left = ⟨o, k + n⟩ := by simp only [b, Blk.left, hpred]
    have hright : b.right = ⟨o + 2 ^ (k + n), k + n⟩ := by simp only [b, Blk.right, hpred]
    have hbud : b.right.buddy = b.left := by
      rw [← left_buddy hbA (by simp only [b]; omega), buddy_buddy]
    have hleftF : b.left ∉ F := by
      have hT := L1.tiling
      rw [hF1, Multiset.cons_add] at hT
      intro hin
      apply hT.not_mem_of_cons
      rw [← hleft]
      simp [hin]
    have hmax : h1.man.maxOrder = h.man.maxOrder := K1.maxOrder
    have hN1 : NoBuddies h1.man.maxOrder (⟨o + 2 ^ (k + n), k + n⟩ ::ₘ F) := by
      rw [hmax, ← hright]
      exact hN.cons fun _ => by rw [hbud]; exact hleftF
    obtain ⟨h', l', r', F', hloop, L', hl', hF', hN', K', hsub⟩ :=
      ih L1 (by rw [Function.update_self]) hF1 hN1
    refine ⟨h', l', r', F', ?_, L', hl', hF', hmax ▸ hN', K1.trans (K'.mono ?_), ?_⟩
    · have hs : splitBlock h (k + n + 1) = some h1 := hsplit
      simp only [splitLoop, hs, Option.bind_eq_bind, Option.bind_some, hloop]
    · have hp : 2 ^ (k + (n + 1)) = 2 ^ (k + n) + 2 ^ (k + n) := two_pow_pred (Nat.succ_pos _)
      intro x hx
      simp only [Blk.Covers] at hx ⊢
      omega
    · intro c hc
      rcases hsub c hc with hc | hc
      · rcases Multiset.mem_cons.mp hc with rfl | hc
        · exact .inr (Nat.le_add_right _ _)
        · exact .inl hc
      · exact .inr hc

/-- What the search for a larger block finds. -/
theorem search_spec (h : Heap) (k : Nat) :
    (∀ i, k < i → i ≤ h.man.maxOrder → h.man.freeBlocks i = none) ∧
      ((List.range' (k + 1) (h.man.maxOrder - k)).find?
        fun i => h.man.freeBlocks i ≠ none).getD 0 = 0 ∨
    ∃ j, k < j ∧ h.man.freeBlocks j ≠ none ∧
      ((List.range' (k + 1) (h.man.maxOrder - k)).find?
        fun i => h.man.freeBlocks i ≠ none).getD 0 = j := by
  cases hf : (List.range' (k + 1) (h.man.maxOrder - k)).find?
      fun i => h.man.freeBlocks i ≠ none with
  | none =>
    left
    refine ⟨fun i hki hi => ?_, rfl⟩
    have := List.find?_eq_none.mp hf i (List.mem_range'_1.mpr (by omega))
    simpa using this
  | some j =>
    right
    have hj := List.mem_range'_1.mp (List.mem_of_find?_eq_some hf)
    exact ⟨j, by omega, by simpa using List.find?_some hf, rfl⟩

/-- Taking the first block of the list of order `k` for a live allocation. -/
theorem take_layout {r : List Nat} (L : Layout h l O) (hl : l k = o :: r) :
    ∃ h1, removeBlock h (some (addr o)) = some h1 ∧
      Layout (h1.setStatus (addr o) .OCCUPIED) (Function.update l k r) (⟨o, k⟩ ::ₘ O) ∧
      Keeps (· = o) h (h1.setStatus (addr o) .OCCUPIED) ∧
      ((h1.setStatus (addr o) .OCCUPIED).mem (addr o)).order = k ∧
      ((h1.setStatus (addr o) .OCCUPIED).mem (addr o)).status = .OCCUPIED := by
  obtain ⟨h1, hrem, L1, K1, hord, _⟩ := removeBlock_layout L (hl ▸ List.mem_cons_self)
  rw [hl, List.erase_cons_head] at L1
  have hm : ∀ x, x ≠ o → (h1.setStatus (addr o) .OCCUPIED).mem (addr x) = h1.mem (addr x) :=
    fun x hx => setStatus_mem_ne _ hx
  have hmo := setStatus_mem_self h1 (addr o) .OCCUPIED
  refine ⟨h1, hrem, L1.setBlock_hand (b := ⟨o, k⟩) (by simp) _, ?_, by rw [hmo]; exact hord,
    by rw [hmo]⟩
  exact ⟨⟨K1.maxOrder, K1.totalMem, K1.usedMem⟩, fun x hx => by rw [hm x hx, K1.order x hx],
    fun x hx => by rw [hm x hx, K1.status x hx]⟩

/-- `h'` is `h` after the free block of order `k` at `o` went to a new owner. -/
structure Taken (h : Heap) (l : Nat → List Nat) (O : Multiset Blk) (k : Nat) (h' : Heap)
    (o : Nat) (l' : Nat → List Nat) : Prop where
  layout : Layout h' l' (⟨o, k⟩ ::ₘ O)
  max : h'.man.maxOrder = h.man.maxOrder
  total : h'.man.totalMem = h.man.totalMem
  used : h'.man.usedMem = (h.man.usedMem + 2 ^ k) % 2 ^ 64
  occupied : Occupied h O → Occupied h' (⟨o, k⟩ ::ₘ O)
  noBuddies : NoBuddies h.man.maxOrder (freeBlks l')
  minOrd : ∀ b ∈ freeBlks l', b ∈ freeBlks l ∨ k ≤ b.ord

/-- After splitting down from order `k + n` the allocation takes the block. -/
theorem split_and_take {n : Nat} (L : Layout h l O) (hN : NoBuddies h.man.maxOrder (freeBlks l))
    (hne : l (k + n) ≠ []) :
    ∃ h1 h2 o l', splitLoop k n h = some h1 ∧ h1.man.freeBlocks k = some (addr o) ∧
      removeBlock h1 (some (addr o)) = some h2 ∧
      Taken h l O k ((h2.setStatus (addr o) .OCCUPIED).setUsed
        ((h2.man.usedMem + 1 <<< k) % 2 ^ 64)) o l' := by
  obtain ⟨o, r, hl⟩ := List.exists_cons_of_ne_nil hne
  have ho : o ∈ l (k + n) := hl ▸ List.mem_cons_self
  have hF := freeBlks_erase (L.ord_lt ho) ho
  have hNF : NoBuddies h.man.maxOrder
      (freeBlks (Function.update l (k + n) ((l (k + n)).erase o))) :=
    hN.of_subset fun b hb => by rw [hF]; exact Multiset.mem_cons_of_mem hb
  obtain ⟨h1, l1, r1, F1, hloop, L1, hl1, hF1, hN1, K1, hsub⟩ := splitLoop_layout L hl hF hNF
  obtain ⟨h2, hrem, L2, K2, hord, hst⟩ := take_layout L1 hl1
  have hF2 : freeBlks (Function.update l1 k r1) = F1 := by
    have ho1 : o ∈ l1 k := hl1 ▸ List.mem_cons_self
    have he := freeBlks_erase (L1.ord_lt ho1) ho1
    rw [hl1, List.erase_cons_head, hF1] at he
    exact ((Multiset.cons_inj_right _).mp he).symm
  refine ⟨h1, h2, o, _, hloop, (L1.head_eq hl1).1, hrem, L2.setUsed _, ?_, ?_, ?_, ?_, ?_, ?_⟩
  · exact K2.maxOrder.trans K1.maxOrder
  · exact K2.totalMem.trans K1.totalMem
  · show (h2.man.usedMem + 1 <<< k) % 2 ^ 64 = (h.man.usedMem + 2 ^ k) % 2 ^ 64
    rw [Nat.one_shiftLeft, show h2.man.usedMem = h1.man.usedMem from K2.usedMem, K1.usedMem]
  · intro hO b hb
    rcases Multiset.mem_cons.mp hb with rfl | hb
    · exact ⟨hord, hst⟩
    · have hout : ¬ (⟨o, k + n⟩ : Blk).Covers b.off := by
        intro hcov
        have hbT : b ∈ freeBlks l + O := Multiset.mem_add.mpr (.inr hb)
        have heq := L.tiling.eq_of_covers hbT (L.mem_tiling ho) (covers_off b) hcov
        exact L.not_mem_list hb (k + n) (heq ▸ ho)
      have hO1 := hO b hb
      have hne : b.off ≠ o := fun he => hout (he ▸ covers_off ⟨o, k + n⟩)
      refine ⟨(K2.order _ hne).trans ((K1.order _ hout).trans hO1.1),
        (K2.status _ hne).trans ((K1.status _ hout).trans hO1.2)⟩
  · rw [hF2]; exact hN1
  · intro b hb
    rw [hF2] at hb
    rcases hsub b hb with hb | hb
    · exact .inl (by rw [hF]; exact Multiset.mem_cons_of_mem hb)
    · exact .inr hb

/-- `allocMemory` returns `NULL` and changes nothing, or serves the request with
a block of order `orderOf`. -/
theorem allocMemory_cases (L : Layout h l O) (hN : NoBuddies h.man.maxOrder (freeBlks l))
    (n : Nat) :
    (allocMemory h n = some (h, none) ∧
      (n = 0 ∨ heapSize < n ∨ ∀ j, orderOf n ≤ j → l j = [])) ∨
    (0 < n ∧ n ≤ heapSize ∧ ∃ h' o l', allocMemory h n = some (h', some (addr o + sizeofBlock)) ∧
      Taken h l O (orderOf n) h' o l') := by
  by_cases hrange : n ≤ 0 ∨ n > heapSize
  · left
    refine ⟨by rw [allocMemory, if_pos hrange], ?_⟩
    rcases hrange with h0 | hbig
    · exact .inl (Nat.le_zero.mp h0)
    · exact .inr (.inl hbig)
  have hn : n ≤ heapSize := Nat.le_of_not_lt fun hlt => hrange (.inr hlt)
  have hpos : 0 < n := Nat.pos_of_ne_zero fun h0 => hrange (.inl (Nat.le_zero.mpr h0))
  obtain ⟨k0, sz, hloop, hord⟩ := alloc_order hn
  have hk6 : 0 < orderOf n := Nat.lt_of_lt_of_le (by decide) (Nat.le_max_left minOrder _)
  -- serving from the list of order `j`
  have serve : ∀ j, orderOf n ≤ j → l j ≠ [] →
      (if h.man.freeBlocks (orderOf n) = none then
        ((List.range' (orderOf n + 1) (h.man.maxOrder - orderOf n)).find?
          fun i => h.man.freeBlocks i ≠ none).getD 0
      else orderOf n) = j →
      ∃ h' o l', allocMemory h n = some (h', some (addr o + sizeofBlock)) ∧
        Taken h l O (orderOf n) h' o l' := by
    intro j hj hlj happrox
    obtain ⟨d, rfl⟩ := Nat.exists_eq_add_of_le hj
    obtain ⟨h1, h2, o, l', hsplit, hhead, hrem, htaken⟩ := split_and_take L hN hlj
    refine ⟨_, o, l', ?_, htaken⟩
    have hne0 : orderOf n + d ≠ 0 := by omega
    simp only [allocMemory, if_neg hrange, hloop, hord, Option.bind_eq_bind, Option.bind_some,
      happrox, if_neg hne0, Nat.add_sub_cancel_left, hsplit, hhead, hrem]
    rfl
  by_cases hlk : l (orderOf n) = []
  · have hnone := L.freeBlocks_none.mpr hlk
    rcases search_spec h (orderOf n) with ⟨hall, h0⟩ | ⟨j, hkj, hj, hfound⟩
    · left
      refine ⟨?_, .inr (.inr fun j hj => ?_)⟩
      · simp only [allocMemory, if_neg hrange, hloop, hord, Option.bind_eq_bind,
          Option.bind_some, if_pos hnone, if_pos h0]
      · rcases Nat.eq_or_lt_of_le hj with rfl | hlt
        · exact hlk
        · rcases Nat.lt_or_ge h.man.maxOrder j with hgt | hle
          · exact L.beyond j hgt
          · exact L.freeBlocks_none.mp (hall j hlt hle)
    · right
      refine ⟨hpos, hn, serve j (Nat.le_of_lt hkj) (fun he => hj (L.freeBlocks_none.mpr he)) ?_⟩
      rw [if_pos hnone, hfound]
  · right
    refine ⟨hpos, hn, serve (orderOf n) (Nat.le_refl _) hlk ?_⟩
    rw [if_neg fun he => hlk (L.freeBlocks_none.mp he)]

/-- A served request keeps the invariant. -/
theorem Taken.inv {s : St} {h' : Heap} {l' : Nat → List Nat} {n : Nat} (I : Inv s l)
    (T : Taken s.heap l (liveBlks s.live) (orderOf n) h' o l') :
    Inv ⟨h', ⟨addr o + sizeofBlock, n⟩ :: s.live⟩ l' := by
  have hblk : (⟨addr o + sizeofBlock, n⟩ : Alloc).blk = ⟨o, orderOf n⟩ := by
    simp only [Alloc.blk, Nat.add_sub_cancel, addr_sub]
  have hlive : liveBlks (⟨addr o + sizeofBlock, n⟩ :: s.live) =
      ⟨o, orderOf n⟩ ::ₘ liveBlks s.live := by rw [liveBlks_cons, hblk]
  constructor
  · show Layout h' l' (liveBlks _)
    rw [hlive]; exact T.layout
  · intro a ha
    rcases List.mem_cons.mp ha with rfl | ha
    · rw [hblk]
    · exact I.ptr a ha
  · show Occupied h' (liveBlks _)
    rw [hlive]; exact T.occupied I.occupied
  · show NoBuddies h'.man.maxOrder _
    rw [T.max]; exact T.noBuddies
  · intro b hb
    have hmax : h'.man.maxOrder = s.heap.man.maxOrder := T.max
    rw [show (St.mk h' _).heap.man.maxOrder = s.heap.man.maxOrder from hmax]
    have hmin : minOrder ≤ orderOf n := Nat.le_max_left _ _
    rcases Multiset.mem_add.mp hb with hb | hb
    · rcases T.minOrd b hb with hb | hb
      · exact I.minOrd b (Multiset.mem_add.mpr (.inl hb))
      · exact .inl (Nat.le_trans hmin hb)
    · rw [show liveBlks _ = _ from hlive] at hb
      rcases Multiset.mem_cons.mp hb with rfl | hb
      · exact .inl hmin
      · exact I.minOrd b (Multiset.mem_add.mpr (.inr hb))
  · show h'.man.usedMem = _
    have hlt := T.layout.used_lt
    rw [Multiset.map_cons, Multiset.sum_cons] at hlt
    rw [T.used, I.used, show liveBlks _ = _ from hlive, Multiset.map_cons, Multiset.sum_cons,
      Nat.add_comm]
    exact Nat.mod_eq_of_lt hlt
  · show h'.man.totalMem = _
    rw [T.total, I.total, ← T.max]

/-! ## `freeMemory` -/

/-- The state of the merge loop: the block `b` is in hand. -/
structure Hand (h : Heap) (l : Nat → List Nat) (O : Multiset Blk) (b : Blk) : Prop where
  layout : Layout h l (b ::ₘ O)
  order : (h.mem (addr b.off)).order = b.ord
  occupied : Occupied h O
  noBuddies : NoBuddies h.man.maxOrder (freeBlks l)

/-- The header at the buddy's address says `FREE` and the order of `b` exactly
when the buddy is a free block. -/
theorem Hand.buddy_test {b : Blk} (H : Hand h l O b) (hk : b.ord < h.man.maxOrder) :
    ((h.mem (addr b.buddy.off)).status = .FREE ∧ (h.mem (addr b.buddy.off)).order = b.ord) ↔
      b.buddy.off ∈ l b.ord := by
  constructor
  · rintro ⟨hst, hord⟩
    obtain ⟨c, hc, hoff, _⟩ := H.layout.tiling.buddy_start (b := b) (by simp) hk
    rw [← hoff] at hst hord ⊢
    rcases Multiset.mem_add.mp hc with hc | hc
    · obtain ⟨_, hcl⟩ := mem_freeBlks.mp hc
      rwa [← hord, (H.layout.header _ _ hcl).1]
    · exfalso
      rcases Multiset.mem_cons.mp hc with rfl | hc
      · exact buddy_off_ne c hoff.symm
      · rw [(H.occupied c hc).2] at hst
        cases hst
  · intro hmem
    have hh := H.layout.header _ _ hmem
    exact ⟨hh.2, hh.1⟩

theorem Hand.buddy_header {b : Blk} (H : Hand h l O b) (hbud : b.buddy.off ∈ l b.ord) :
    (h.mem (addr b.buddy.off)).order = b.ord := (H.layout.header _ _ hbud).1

/-- What a round of the merge loop does to the headers. -/
structure Merged (h h' : Heap) (b : Blk) : Prop extends SameCounters h h' where
  status : ∀ x, x ≠ b.buddy.off → (h'.mem (addr x)).status = (h.mem (addr x)).status
  buddy : (h'.mem (addr b.buddy.off)).status = .OCCUPIED
  order : ∀ x, x ≠ b.parent.off → (h'.mem (addr x)).order = (h.mem (addr x)).order

/-- The parent starts where one of its halves does. -/
theorem parent_off (b : Blk) : b.parent.off = b.off ∨ b.parent.off = b.buddy.off := by
  simp only [Blk.parent]
  omega

/-- One round of the merge loop: the buddy leaves its list and the block in hand
becomes the parent. -/
theorem Hand.merge {b : Blk} (H : Hand h l O b) (hbud : b.buddy.off ∈ l b.ord) :
    ∃ h1 h2, removeBlock h (some (addr b.off)) = some h ∧
      removeBlock h (some (addr b.buddy.off)) = some h1 ∧
      h1.setBlock (addr b.parent.off) { h1.mem (addr b.parent.off) with
        order := (h1.mem (addr b.parent.off)).order + 1 } = h2 ∧
      Hand h2 (Function.update l b.ord ((l b.ord).erase b.buddy.off)) O b.parent ∧
      Merged h h2 b := by
  have L := H.layout
  obtain ⟨h1, hrem, L1, K1, hord1, hst1⟩ := removeBlock_layout L hbud
  have hparent := parent_off b
  have hordP : (h1.mem (addr b.parent.off)).order = b.ord := by
    rcases hparent with he | he
    · rw [he, K1.order _ (Ne.symm (buddy_off_ne b)), H.order]
    · rw [he, hord1]
  have hT := L1.tiling
  have hbuddy : (⟨b.buddy.off, b.ord⟩ : Blk) = b.buddy := rfl
  rw [hbuddy, Multiset.cons_swap, Multiset.add_cons, Multiset.add_cons] at hT
  have hTm := hT.merge
  rw [← Multiset.add_cons] at hTm
  have hpNot : ∀ j, ∀ x ∈ Function.update l b.ord ((l b.ord).erase b.buddy.off) j,
      addr x ≠ addr b.parent.off := by
    intro j x hx he
    have hxp : x = b.parent.off := addr_inj.mp he
    rcases hparent with hp | hp
    · rw [hxp.trans hp] at hx
      exact L1.not_mem_list (b := b) (by simp) j hx
    · rw [hxp.trans hp] at hx
      exact L1.not_mem_list (b := b.buddy) (by simp [hbuddy]) j hx
  let h2 := h1.setBlock (addr b.parent.off)
    { h1.mem (addr b.parent.off) with order := (h1.mem (addr b.parent.off)).order + 1 }
  have hm : ∀ x, x ≠ b.parent.off → h2.mem (addr x) = h1.mem (addr x) :=
    fun x hx => setBlock_mem_ne _ fun he => hx (addr_inj.mp he)
  have hmp : h2.mem (addr b.parent.off) = { h1.mem (addr b.parent.off) with
      order := (h1.mem (addr b.parent.off)).order + 1 } := setBlock_mem_self _ _ _
  have hmst : ∀ x, (h2.mem (addr x)).status = (h1.mem (addr x)).status := by
    intro x
    by_cases hx : x = b.parent.off
    · rw [hx, hmp]
    · rw [hm x hx]
  refine ⟨h1, h2, removeBlock_absent L (by simp) H.order, hrem, rfl, ?_, ?_⟩
  · constructor
    · have L2 : Layout h1 _ (b.parent ::ₘ O) :=
        ⟨L1.bound, L1.chain, L1.header, L1.beyond, hTm⟩
      exact L2.setBlock hpNot _
    · show (h2.mem (addr b.parent.off)).order = b.ord + 1
      rw [hmp, hordP]
    · intro c hc
      have hcb : c.off ≠ b.off := L.off_ne hc
      have hcbud : c.off ≠ b.buddy.off := L1.off_ne (c := b.buddy) (by simp [hc])
      have hcp : c.off ≠ b.parent.off := by rcases hparent with he | he <;> rw [he] <;> assumption
      show (h2.mem (addr c.off)).order = c.ord ∧ (h2.mem (addr c.off)).status = .OCCUPIED
      rw [hm _ hcp, K1.order _ hcbud, K1.status _ hcbud]
      exact H.occupied c hc
    · show NoBuddies h1.man.maxOrder _
      rw [show h1.man.maxOrder = h.man.maxOrder from K1.maxOrder]
      refine H.noBuddies.of_subset fun c hc => ?_
      rw [freeBlks_erase (L.ord_lt hbud) hbud]
      exact Multiset.mem_cons_of_mem hc
  · refine ⟨⟨K1.maxOrder, K1.totalMem, K1.usedMem⟩, fun x hx => ?_, ?_, fun x hx => ?_⟩
    · rw [hmst, K1.status x hx]
    · rw [hmst, hst1]
    · rw [hm x hx]
      by_cases hxb : x = b.buddy.off
      · rw [hxb, hord1]
        exact (H.buddy_header hbud).symm
      · exact K1.order x hxb

/-- The rounds of the merge loop, from the block `b` in hand to the block `c`. -/
inductive Merges (O : Multiset Blk) :
    Heap → (Nat → List Nat) → Blk → Heap → (Nat → List Nat) → Blk → Prop
  | refl (h : Heap) (l : Nat → List Nat) (b : Blk) : Merges O h l b h l b
  | round {h h1 h' : Heap} {l l' : Nat → List Nat} {b c : Blk} : Hand h l O b →
      b.ord < h.man.maxOrder → b.buddy.off ∈ l b.ord → Merged h h1 b →
      Hand h1 (Function.update l b.ord ((l b.ord).erase b.buddy.off)) O b.parent →
      Merges O h1 (Function.update l b.ord ((l b.ord).erase b.buddy.off)) b.parent h' l' c →
      Merges O h l b h' l' c

/-- The merge loop ends with a block in hand whose buddy is not free. -/
theorem mergeLoop_hand {b : Blk} (fuel : Nat) (H : Hand h l O b)
    (hfuel : h.man.maxOrder < b.ord + fuel) (hle : b.ord ≤ h.man.maxOrder) :
    ∃ h' l' c, mergeLoop fuel h (addr b.off) = some (h', addr c.off) ∧ Hand h' l' O c ∧
      SameCounters h h' ∧ (c.ord < h.man.maxOrder → c.buddy ∉ freeBlks l') ∧
      b.ord ≤ c.ord ∧ (∀ x ∈ freeBlks l', x ∈ freeBlks l) ∧ Merges O h l b h' l' c := by
  induction fuel generalizing h l b with
  | zero => omega
  | succ fuel ih =>
    by_cases hk : b.ord < h.man.maxOrder
    · have hpos : b.off ^^^ 1 <<< b.ord = b.buddy.off := by rw [Nat.one_shiftLeft]; rfl
      have hbaddr : heapStartAddress + b.buddy.off = addr b.buddy.off := rfl
      by_cases hbud : b.buddy.off ∈ l b.ord
      · -- the buddy is free: merge and go on
        obtain ⟨hst, hord⟩ := (H.buddy_test hk).mpr hbud
        obtain ⟨h1, h2, hrem1, hrem2, hset, H1, hmerged⟩ := H.merge hbud
        have hmax : h2.man.maxOrder = h.man.maxOrder := hmerged.maxOrder
        have hleft : (if b.off < b.buddy.off then addr b.off else addr b.buddy.off) =
            addr b.parent.off := by
          simp only [Blk.parent]
          split <;> congr 1 <;> omega
        obtain ⟨h', l', c, hloop, H', hsame', hc, hbc, hsub, hrounds⟩ := ih H1
          (show h2.man.maxOrder < b.ord + 1 + fuel by omega)
          (show b.ord + 1 ≤ h2.man.maxOrder by omega)
        refine ⟨h', l', c, ?_, H', hmerged.toSameCounters.trans hsame', ?_,
          Nat.le_of_succ_le hbc, ?_, .round H hk hbud hmerged H1 hrounds⟩
        · simp only [mergeLoop, H.order, if_pos hk, addr_sub, hpos, hbaddr, hst, hord, ne_eq,
            not_true_eq_false, or_self, if_false, hleft, hrem1, hrem2, Option.bind_eq_bind,
            Option.bind_some, hset]
          exact hloop
        · intro hlt
          exact hc (by rw [hmax]; exact hlt)
        · intro x hx
          rw [freeBlks_erase (H.layout.ord_lt hbud) hbud]
          exact Multiset.mem_cons_of_mem (hsub x hx)
      · have htest : (h.mem (addr b.buddy.off)).status ≠ .FREE ∨
            (h.mem (addr b.buddy.off)).order ≠ b.ord := by
          by_contra hcon
          simp only [ne_eq, not_or, Decidable.not_not] at hcon
          exact hbud ((H.buddy_test hk).mp hcon)
        refine ⟨h, l, b, ?_, H, ⟨rfl, rfl, rfl⟩, ?_, Nat.le_refl _, fun x hx => hx, .refl h l b⟩
        · simp only [mergeLoop, H.order, if_pos hk, addr_sub, hpos, hbaddr, if_pos htest]
        · intro _ hin
          exact hbud (mem_freeBlks.mp hin).2
    · refine ⟨h, l, b, ?_, H, ⟨rfl, rfl, rfl⟩, fun hlt => absurd hlt hk, Nat.le_refl _,
        fun x hx => hx, .refl h l b⟩
      simp only [mergeLoop, H.order, if_neg hk]

/-- How `freeMemory` gets from `h` to `h'`: the header of `b` becomes `FREE`, the rounds
of the merge loop follow, and the block in hand after them enters its list. -/
structure Freed (O : Multiset Blk) (h : Heap) (l : Nat → List Nat) (b : Blk) (h' : Heap)
    (l' : Nat → List Nat) : Prop where
  rounds : ∃ h1 h2 l2 c, (∀ x, x ≠ b.off → h1.mem (addr x) = h.mem (addr x)) ∧
    h1.mem (addr b.off) = { h.mem (addr b.off) with status := .FREE } ∧ Hand h1 l O b ∧
    h1.man.maxOrder = h.man.maxOrder ∧ Merges O h1 l b h2 l2 c ∧
    l' = Function.update l2 c.ord (c.off :: l2 c.ord) ∧ Keeps (· = c.off) h2 h'

/-- `freeMemory` of a live pointer is defined and keeps the invariant. -/
theorem freeMemory_inv {s : St} (I : Inv s l) {a : Alloc} (ha : a ∈ s.live) :
    ∃ h' l', freeMemory s.heap (some a.ptr) = some h' ∧ Inv ⟨h', s.live.erase a⟩ l' ∧
      h'.man.maxOrder = s.heap.man.maxOrder ∧
      Freed (liveBlks (s.live.erase a)) s.heap l a.blk h' l' := by
  have hlive := liveBlks_erase ha
  have hblock : a.ptr - sizeofBlock = addr a.blk.off := by
    rw [I.ptr a ha, Nat.add_sub_cancel]
  obtain ⟨hord, hst⟩ := I.occupied _ (mem_liveBlks ha)
  obtain ⟨h1, hh1⟩ : ∃ h1, h1 = (s.heap.setUsed (sub64 s.heap.man.usedMem
    (1 <<< (s.heap.mem (addr a.blk.off)).order))).setStatus (addr a.blk.off) .FREE := ⟨_, rfl⟩
  have hm : ∀ x, x ≠ a.blk.off → h1.mem (addr x) = s.heap.mem (addr x) := fun x hx => by
    rw [hh1, setStatus_mem_ne _ hx, setUsed_mem]
  have hmo : h1.mem (addr a.blk.off) = { s.heap.mem (addr a.blk.off) with status := .FREE } := by
    rw [hh1, setStatus_mem_self, setUsed_mem]
  have hmax1 : h1.man.maxOrder = s.heap.man.maxOrder := by
    rw [hh1, setStatus_man, setUsed_max]
  have L0 : Layout s.heap l (a.blk ::ₘ liveBlks (s.live.erase a)) := hlive ▸ I.layout
  have H : Hand h1 l (liveBlks (s.live.erase a)) a.blk := by
    refine ⟨by rw [hh1]; exact (L0.setUsed _).setBlock_hand (by simp) _, by rw [hmo]; exact hord,
      ?_, by rw [hmax1]; exact I.noBuddies⟩
    intro c hc
    rw [hm _ (L0.off_ne hc)]
    exact I.occupied c (by rw [hlive]; exact Multiset.mem_cons_of_mem hc)
  have hle : a.blk.ord ≤ h1.man.maxOrder := by
    rw [hmax1]
    exact L0.tiling.ord_le (Multiset.mem_add.mpr (.inr (Multiset.mem_cons_self _ _)))
  obtain ⟨h2, l2, c, hloop, H2, hsame, hbud, hac, hsub, hrounds⟩ :=
    mergeLoop_hand (h1.man.maxOrder + 1) H (by omega) hle
  obtain ⟨h3, hcreate, L3, K3⟩ := createBlock_layout H2.layout
  have hmax : h3.man.maxOrder = s.heap.man.maxOrder :=
    (K3.maxOrder.trans hsame.maxOrder).trans hmax1
  have hc3 : c.ord < maxOrder := Nat.lt_of_le_of_lt
    (H2.layout.tiling.ord_le (Multiset.mem_add.mpr (.inr (Multiset.mem_cons_self _ _))))
    H2.layout.bound
  refine ⟨h3, _, ?_, ⟨L3, ?_, ?_, ?_, ?_, ?_, ?_⟩, hmax,
    ⟨⟨h1, h2, l2, c, hm, hmo, H, hmax1, hrounds, rfl, K3⟩⟩⟩
  · have hne : (s.heap.mem (addr a.blk.off)).status ≠ .FREE := by rw [hst]; nofun
    rw [← H2.order] at hcreate
    simp only [freeMemory, hblock, if_neg hne, Option.bind_eq_bind, ← hh1, hloop, Option.bind_some,
      hcreate]
  · exact fun b hb => I.ptr b (List.mem_of_mem_erase hb)
  · exact H2.occupied.of_keeps K3 fun b hb => H2.layout.off_ne hb
  · show NoBuddies h3.man.maxOrder _
    rw [freeBlks_cons hc3, hmax]
    have hN := H2.noBuddies
    rw [show h2.man.maxOrder = s.heap.man.maxOrder from hsame.maxOrder.trans hmax1] at hN
    exact hN.cons (hmax1 ▸ hbud)
  · intro b hb
    show minOrder ≤ b.ord ∨ b.ord = h3.man.maxOrder
    rw [hmax]
    rw [freeBlks_cons hc3, Multiset.cons_add] at hb
    have hmin : minOrder ≤ a.blk.ord := Nat.le_max_left _ _
    rcases Multiset.mem_cons.mp hb with rfl | hb
    · exact .inl (Nat.le_trans hmin hac)
    · refine I.minOrd b ?_
      rcases Multiset.mem_add.mp hb with hb | hb
      · exact Multiset.mem_add.mpr (.inl (hsub b hb))
      · rw [hlive]
        exact Multiset.mem_add.mpr (.inr (Multiset.mem_cons_of_mem hb))
  · show h3.man.usedMem = _
    have hproj : h1.man.usedMem = sub64 s.heap.man.usedMem
        (1 <<< (s.heap.mem (addr a.blk.off)).order) := by
      rw [hh1, setStatus_man, setUsed_used]
    rw [K3.usedMem, hsame.usedMem, hproj]
    have hlt := L0.used_lt
    rw [Multiset.map_cons, Multiset.sum_cons] at hlt
    have hsize : 1 <<< (s.heap.mem (addr a.blk.off)).order = a.blk.size := by
      rw [hord, Nat.one_shiftLeft]
      rfl
    have hused : s.heap.man.usedMem =
        a.blk.size + ((liveBlks (s.live.erase a)).map Blk.size).sum := by
      rw [I.used, hlive, Multiset.map_cons, Multiset.sum_cons]
    exact (congrArg₂ sub64 hused hsize).trans
      ((sub64_of_le (Nat.le_add_right _ _) hlt).trans (Nat.add_sub_cancel_left _ _))
  · show h3.man.totalMem = 2 ^ h3.man.maxOrder
    rw [K3.totalMem, hsame.totalMem, hmax, hh1, setStatus_man, setUsed_total]
    exact I.total

/-! ## Writes, and runs -/

/-- A payload ends inside its block. -/
theorem Inv.payload_le {s : St} (I : Inv s l) {a : Alloc} (ha : a ∈ s.live) :
    a.ptr + a.bytes ≤ addr a.blk.off + 2 ^ a.blk.ord := by
  rw [I.ptr a ha]
  have h : a.bytes + sizeofBlock ≤ 2 ^ a.blk.ord := le_two_pow_orderOf a.bytes
  omega

/-- A header image that meets a live payload heads no block. -/
theorem Inv.write_off {s : St} (I : Inv s l) {a : Alloc} (ha : a ∈ s.live) {address : Nat}
    (hlo : a.ptr < address + sizeofBlock) (hhi : address < a.ptr + a.bytes) {b : Blk}
    (hb : b ∈ freeBlks l + liveBlks s.live) : addr b.off ≠ address := by
  rintro rfl
  have hptr := I.ptr a ha
  have hpay := I.payload_le ha
  have hcov : a.blk.Covers b.off := by
    simp only [Blk.Covers, addr] at *
    omega
  have heq := I.layout.tiling.eq_of_covers (Multiset.mem_add.mpr (.inr (mem_liveBlks ha))) hb hcov
    (covers_off b)
  rw [← heq] at hlo
  omega

theorem write_inv {s : St} (I : Inv s l) {a : Alloc} (ha : a ∈ s.live) {address : Nat}
    (hlo : a.ptr < address + sizeofBlock) (hhi : address < a.ptr + a.bytes) (image : Block) :
    Inv { s with heap := s.heap.setBlock address image } l := by
  refine ⟨?_, I.ptr, ?_, I.noBuddies, I.minOrd, I.used, I.total⟩
  · refine I.layout.setBlock (fun j o ho => ?_) image
    exact I.write_off ha hlo hhi (b := ⟨o, j⟩) (I.layout.mem_tiling ho)
  · intro b hb
    have hne := I.write_off ha hlo hhi (Multiset.mem_add.mpr (.inr hb))
    show ((s.heap.setBlock address image).mem (addr b.off)).order = _ ∧ _
    rw [setBlock_mem_ne _ hne]
    exact I.occupied b hb

/-- Every event of a user that owns what it frees and writes is defined and
keeps the invariant. -/
theorem step_inv {s : St} {e : Event} (I : Inv s l) (he : e.Owned s) :
    ∃ s' l', step s e = some s' ∧ Inv s' l' ∧ s'.heap.man.maxOrder = s.heap.man.maxOrder := by
  cases e with
  | alloc bytes =>
    rcases allocMemory_cases I.layout I.noBuddies bytes with ⟨h0, _⟩ | ⟨_, _, h', o, l', h1, T⟩
    · exact ⟨s, l, by simp only [step, h0, Option.bind_eq_bind, Option.bind_some], I, rfl⟩
    · exact ⟨_, l', by simp only [step, h1, Option.bind_eq_bind, Option.bind_some], T.inv I, T.max⟩
  | free a =>
    obtain ⟨h', l', hfree, I', hmax, _⟩ := freeMemory_inv I he
    exact ⟨_, l', by simp only [step, hfree, Option.bind_eq_bind, Option.bind_some], I', hmax⟩
  | write a address image =>
    exact ⟨_, l, rfl, write_inv I he.1 he.2.1 he.2.2 image, rfl⟩

/-- Past `2 ^ 63` the loop wraps to zero and never ends. -/
theorem orderLoop_overflow {size : Nat} (hbig : 2 ^ 63 < size) :
    orderLoop size 65 0 1 = none := by
  have hlt : ∀ k, k ≤ 63 → 2 ^ k < size := by
    intro k hk
    exact Nat.lt_of_le_of_lt (Nat.pow_le_pow_right Nat.two_pos hk) hbig
  have hzero : ∀ fuel k, orderLoop size fuel k 0 = none := by
    intro fuel
    induction fuel with
    | zero => exact fun _ => rfl
    | succ fuel ih =>
      intro k
      have hpos : 0 < size := Nat.lt_trans (Nat.two_pow_pos 0) (hlt 0 (by decide))
      simp only [orderLoop, if_pos hpos]
      exact ih _
  have hloop : ∀ n fuel k, k + n = 64 → orderLoop size (fuel + n) k (2 ^ k % 2 ^ 64) = none := by
    intro n
    induction n with
    | zero =>
      intro fuel k hk
      obtain rfl : k = 64 := hk
      exact hzero _ _
    | succ n ih =>
      intro fuel k hk
      have hmod : 2 ^ k % 2 ^ 64 = 2 ^ k :=
        Nat.mod_eq_of_lt (Nat.pow_lt_pow_right Nat.one_lt_two (by omega))
      rw [← Nat.add_assoc, orderLoop, hmod, if_pos (hlt k (by omega)), ← Nat.pow_succ]
      exact ih fuel (k + 1) (by omega)
  exact hloop 64 1 0 rfl

/-- `createMemoryManager` accepts a size exactly when its order indexes
`free_blocks`, and then one free block is the whole heap. -/
theorem create_inv {mem : Nat → Block} {size : Nat} {h0 : Heap}
    (hc : createMemoryManager mem heapStartAddress size = some h0) :
    Inv ⟨h0, []⟩ (Function.update (fun _ => []) (Nat.clog 2 size) [0]) ∧
      h0.man.maxOrder = Nat.clog 2 size := by
  have hsize : size ≤ 2 ^ 63 := by
    by_contra hbig
    rw [createMemoryManager, orderLoop_overflow (Nat.lt_of_not_le hbig)] at hc
    cases hc
  have hclog : Nat.clog 2 size ≤ 63 := (Nat.clog_le_iff_le_pow Nat.one_lt_two).mpr hsize
  have hloop : orderLoop size 65 0 1 = some (Nat.clog 2 size, 2 ^ Nat.clog 2 size) := by
    have h := orderLoop_eq hsize 65 0 (by decide) (by omega)
    rwa [Nat.zero_max] at h
  simp only [createMemoryManager, hloop, Option.bind_eq_bind, Option.bind_some] at hc
  have hlt : Nat.clog 2 size < maxOrder := by
    by_contra hge
    rw [createBlock, if_neg hge] at hc
    cases hc
  -- before `create_block` no block is free and the root block is in hand
  let man : BuddyManager := ⟨Nat.clog 2 size, fun _ => none, 2 ^ Nat.clog 2 size, 0⟩
  have hempty : freeBlks (fun _ => []) = 0 := by simp [freeBlks]
  have L0 : Layout ⟨man, mem⟩ (fun _ => []) (⟨0, Nat.clog 2 size⟩ ::ₘ 0) := by
    refine ⟨hlt, fun _ => rfl, fun _ _ ho => absurd ho List.not_mem_nil, fun _ _ => rfl, ?_⟩
    rw [hempty, Multiset.zero_add, Multiset.cons_zero]
    exact Tiling.root _
  obtain ⟨h', hcreate, L, K⟩ := createBlock_layout L0
  obtain rfl : h0 = h' := Option.some.inj (hc.symm.trans hcreate)
  have hfree : freeBlks (Function.update (fun _ => []) (Nat.clog 2 size) [0]) =
      {⟨0, Nat.clog 2 size⟩} := by
    rw [freeBlks_cons hlt, hempty, Multiset.cons_zero]
  have hmax : h0.man.maxOrder = Nat.clog 2 size := K.maxOrder
  refine ⟨⟨L, ?_, fun b hb => absurd hb (Multiset.notMem_zero b), ?_, ?_, K.usedMem, ?_⟩, hmax⟩
  · intro p hp
    exact absurd hp List.not_mem_nil
  · intro b hb hk
    rw [hfree] at hb ⊢
    rw [Multiset.mem_singleton] at hb
    subst hb
    exact absurd hk (by show ¬ _ < h0.man.maxOrder; rw [hmax]; exact Nat.lt_irrefl _)
  · intro b hb
    rw [hfree] at hb
    have hb0 : b = ⟨0, Nat.clog 2 size⟩ := by simpa [liveBlks] using hb
    exact .inr (by rw [hb0]; exact hmax.symm)
  · show h0.man.totalMem = 2 ^ h0.man.maxOrder
    rw [hmax]
    exact K.totalMem

/-- The states users reach from `createMemoryManager`. -/
def Reach (mem : Nat → Block) (size : Nat) (s : St) : Prop :=
  ∃ h0, createMemoryManager mem heapStartAddress size = some h0 ∧
    Run step (fun s e => e.Owned s) ⟨h0, []⟩ s

/-- Every reachable state satisfies the invariant. -/
theorem reach_inv {mem : Nat → Block} {size : Nat} {s : St} (hr : Reach mem size s) :
    ∃ l, Inv s l ∧ s.heap.man.maxOrder = Nat.clog 2 size := by
  obtain ⟨h0, hc, hrun⟩ := hr
  obtain ⟨I0, hmax0⟩ := create_inv hc
  refine hrun.invariant (P := fun s => ∃ l, Inv s l ∧ s.heap.man.maxOrder = Nat.clog 2 size)
    ⟨_, I0, hmax0⟩ ?_
  rintro s s' e ⟨l, I, hmax⟩ he hs
  obtain ⟨s1, l1, hs1, I1, hmax1⟩ := step_inv I he
  obtain rfl : s' = s1 := Option.some.inj (hs.symm.trans hs1)
  exact ⟨l1, I1, hmax1.trans hmax⟩

end SoKernel.Buddy
