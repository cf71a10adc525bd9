import SoKernel.Buddy.Theorems

/-!
# What the buddy allocator writes

The headers lie between the payloads. A call writes headers only, and only inside blocks that
are free before it, or in the block that is freed.

Results:
1. `allocMemory_writes`, `freeMemory_writes`: where the headers are that a call changes.
2. `step_writes_apart`: they meet no allocation that is live before and after the call.
3. `payload_kept`: the images that meet a payload last until its owner writes or frees it.
-/

namespace SoKernel.Buddy

open DyadicBlocks

/-- There is room for a header at `x`, inside a block of `B`. -/
def Room (B : Multiset Blk) (x : Nat) : Prop :=
  ∃ b ∈ B, b.off ≤ x ∧ x + sizeofBlock ≤ b.off + 2 ^ b.ord

/-- The step from `h` to `h'` changes headers inside blocks of `B` only. -/
def WritesIn (B : Multiset Blk) (h h' : Heap) : Prop :=
  ∀ a, h'.mem a ≠ h.mem a → ∃ x, a = addr x ∧ Room B x

section

variable {h h1 h' : Heap} {l : Nat → List Nat} {O B B' : Multiset Blk} {k o : Nat} {b : Blk}

theorem WritesIn.of_mem (hm : h'.mem = h.mem) : WritesIn B h h' :=
  fun a ha => absurd (congrFun hm a) ha

theorem WritesIn.trans (w : WritesIn B h h1) (w' : WritesIn B h1 h') : WritesIn B h h' := by
  intro a ha
  by_cases h1a : h1.mem a = h.mem a
  · exact w' a (h1a ▸ ha)
  · exact w a h1a

theorem WritesIn.mono (w : WritesIn B h h') (hB : ∀ x, Room B x → Room B' x) :
    WritesIn B' h h' := by
  intro a ha
  obtain ⟨x, hx, hr⟩ := w a ha
  exact ⟨x, hx, hB x hr⟩

theorem setBlock_writes (x : Block) (hr : Room B o) : WritesIn B h (h.setBlock (addr o) x) := by
  intro a ha
  by_cases hao : a = addr o
  · exact ⟨o, hao, hr⟩
  · exact absurd (Function.update_of_ne hao _ _) ha

theorem setStatus_writes (st : Status) (hr : Room B o) :
    WritesIn B h (h.setStatus (addr o) st) := setBlock_writes _ hr

/-- A block of at least 16 bytes has room for its own header. -/
theorem Room.own (hb : b ∈ B) (hord : 4 ≤ b.ord) : Room B b.off :=
  ⟨b, hb, Nat.le_refl _, Nat.add_le_add_left (Nat.pow_le_pow_right Nat.two_pos hord) _⟩

theorem Layout.room (L : Layout h l O) (hk : 4 ≤ k) (ho : o ∈ l k) : Room (freeBlks l) o :=
  Room.own (L.mem_free ho) hk

/-! ## The helper functions -/

theorem createBlock_writes (h0 : createBlock h (addr o) k = some h') (hr : Room B o) :
    WritesIn B h h' := by
  unfold createBlock at h0
  split at h0
  · obtain rfl := Option.some.inj h0
    exact setBlock_writes _ hr
  · cases h0

/-- `walk` stays on the list it follows. -/
theorem walk_mem {mem : Nat → Block} {block c : Nat} {p : List Nat} (fuel : Nat)
    (hch : Chain mem (mem (addr o)).next p) (hw : walk mem block fuel (addr o) = some c) :
    ∃ x ∈ o :: p, c = addr x := by
  induction fuel generalizing o p with
  | zero => cases hw
  | succ fuel ih =>
    cases p with
    | nil =>
      have hnext : (mem (addr o)).next = none := hch
      simp only [walk, hnext] at hw
      exact ⟨o, List.mem_cons_self, (Option.some.inj hw).symm⟩
    | cons n p =>
      obtain ⟨hnext, hrest⟩ := hch
      simp only [walk, hnext] at hw
      split at hw
      · exact ⟨o, List.mem_cons_self, (Option.some.inj hw).symm⟩
      · obtain ⟨x, hx, hc⟩ := ih hrest hw
        exact ⟨x, List.mem_cons_of_mem _ hx, hc⟩

/-- `remove_block` writes the header of the block, and that of the one before it. -/
theorem removeBlock_writes (L : Layout h l O) (ho : o ∈ l k) (hB : ∀ x ∈ l k, Room B x)
    (h0 : removeBlock h (some (addr o)) = some h') : WritesIn B h h' := by
  obtain ⟨n, r, hl⟩ := List.exists_cons_of_ne_nil (List.ne_nil_of_mem ho)
  obtain ⟨hhead, hrest⟩ := L.head_eq hl
  simp only [removeBlock, (L.header k o ho).1, L.ord_lt ho, if_pos, hhead] at h0
  split at h0
  · next hno =>
    obtain rfl := Option.some.inj h0
    exact setStatus_writes _ (hB n (hl ▸ List.mem_cons_self))
  · obtain ⟨c, hw, h0⟩ := Option.bind_eq_some_iff.mp h0
    split at h0
    · obtain rfl := Option.some.inj h0
      exact .of_mem rfl
    · obtain rfl := Option.some.inj h0
      obtain ⟨x, hx, rfl⟩ := walk_mem _ hrest hw
      exact (setBlock_writes _ (hB x (hl ▸ hx))).trans (setStatus_writes _ (hB o ho))

/-- `split_block` writes inside the block it splits, and in headers of its list. -/
theorem splitBlock_writes {r : List Nat} (L : Layout h l O) (hk : 4 < k) (hl : l k = o :: r)
    (h0 : splitBlock h k = some h') : WritesIn (freeBlks l) h h' := by
  have ho : o ∈ l k := hl ▸ List.mem_cons_self
  obtain ⟨block, hblock, h0⟩ := Option.bind_eq_some_iff.mp h0
  obtain rfl : addr o = block := Option.some.inj ((L.head_eq hl).1.symm.trans hblock)
  obtain ⟨h1, hrem, h0⟩ := Option.bind_eq_some_iff.mp h0
  obtain ⟨h2, hc2, hc3⟩ := Option.bind_eq_some_iff.mp h0
  have hadd : addr o + 1 <<< (k - 1) = addr (o + 2 ^ (k - 1)) := by
    rw [Nat.one_shiftLeft, addr, addr, Nat.add_assoc]
  rw [hadd] at hc2
  have hhalf : Room (freeBlks l) (o + 2 ^ (k - 1)) := by
    refine ⟨⟨o, k⟩, L.mem_free ho, Nat.le_add_right _ _, ?_⟩
    show o + 2 ^ (k - 1) + 16 ≤ o + 2 ^ k
    rw [two_pow_pred (Nat.zero_lt_of_lt hk), ← Nat.add_assoc]
    exact Nat.add_le_add_left (Nat.pow_le_pow_right Nat.two_pos (Nat.le_sub_one_of_lt hk)) _
  have hlist : ∀ x ∈ l k, Room (freeBlks l) x := fun x hx => L.room hk.le hx
  exact ((removeBlock_writes L ho hlist hrem).trans (createBlock_writes hc2 hhalf)).trans
    (createBlock_writes hc3 (hlist o ho))

/-- The halves of a block are inside it. -/
theorem room_split {r : List Nat} {x : Nat} (L : Layout h l O) (hk : 0 < k) (hl : l k = o :: r)
    (hr : Room (freeBlks (Function.update (Function.update l k r) (k - 1)
      (o :: (o + 2 ^ (k - 1)) :: l (k - 1)))) x) : Room (freeBlks l) x := by
  have ho : o ∈ l k := hl ▸ List.mem_cons_self
  have hpow := two_pow_pred hk
  obtain ⟨⟨p, j⟩, hb, hlo, hhi⟩ := hr
  obtain ⟨hj, hp⟩ := mem_freeBlks.mp hb
  simp only at hlo hhi hj hp
  have hold : p ∈ l j → Room (freeBlks l) x :=
    fun hp => ⟨⟨p, j⟩, mem_freeBlks.mpr ⟨hj, hp⟩, hlo, hhi⟩
  rcases eq_or_ne j (k - 1) with rfl | hjk
  · rw [Function.update_self] at hp
    have hin : p = o ∨ p = o + 2 ^ (k - 1) → Room (freeBlks l) x := by
      rintro (rfl | rfl)
      · exact ⟨⟨p, k⟩, L.mem_free ho, hlo, by simp only; omega⟩
      · exact ⟨⟨o, k⟩, L.mem_free ho, (Nat.le_add_right _ _).trans hlo, by simp only; omega⟩
    rcases List.mem_cons.mp hp with hp | hp
    · exact hin (.inl hp)
    · rcases List.mem_cons.mp hp with hp | hp
      · exact hin (.inr hp)
      · exact hold hp
  · rw [Function.update_of_ne hjk] at hp
    rcases eq_or_ne j k with rfl | hne
    · rw [Function.update_self] at hp
      exact hold (hl ▸ List.mem_cons_of_mem _ hp)
    · rw [Function.update_of_ne hne] at hp
      exact hold hp

theorem splitLoop_writes {n : Nat} {r : List Nat} (L : Layout h l O) (hk : 4 ≤ k)
    (hl : l (k + n) = o :: r) :
    ∃ h' l' r', splitLoop k n h = some h' ∧ Layout h' l' O ∧ l' k = o :: r' ∧
      WritesIn (freeBlks l) h h' ∧ ∀ x, Room (freeBlks l') x → Room (freeBlks l) x := by
  induction n generalizing h l r with
  | zero => exact ⟨h, l, r, rfl, L, hl, .of_mem rfl, fun _ hx => hx⟩
  | succ n ih =>
    have hpos : 0 < k + (n + 1) := Nat.succ_pos _
    have hlt : 4 < k + (n + 1) := Nat.lt_of_le_of_lt hk (Nat.lt_add_of_pos_right n.succ_pos)
    obtain ⟨h1, hs, L1, _⟩ := splitBlock_layout L hpos hl
    have hw1 := splitBlock_writes L hlt hl hs
    have hsub := fun x => room_split (x := x) L hpos hl
    rw [show k + (n + 1) - 1 = k + n from rfl] at L1 hsub
    obtain ⟨h', l', r', hloop, L', hl', hw, hsub'⟩ := ih L1 (Function.update_self _ _ _)
    refine ⟨h', l', r', ?_, L', hl', hw1.trans (hw.mono hsub), fun x hx => hsub x (hsub' x hx)⟩
    have hs : splitBlock h (k + n + 1) = some h1 := hs
    simp only [splitLoop, hs, Option.bind_eq_bind, Option.bind_some, hloop]

/-! ## The interface -/

/-- `allocMemory` writes inside the blocks that are free before. -/
theorem allocMemory_writes {n : Nat} {p : Option Nat} (L : Layout h l O)
    (h0 : allocMemory h n = some (h', p)) : WritesIn (freeBlks l) h h' := by
  unfold allocMemory at h0
  split at h0
  · obtain ⟨rfl, -⟩ := Prod.mk.inj (Option.some.inj h0)
    exact .of_mem rfl
  next hrange =>
  have hn : n ≤ heapSize := Nat.le_of_not_lt fun hlt => hrange (.inr hlt)
  have hk : 4 ≤ orderOf n := Nat.le_trans (by decide) (Nat.le_max_left minOrder _)
  obtain ⟨k0, sz, hloop, hord⟩ := alloc_order hn
  simp only [hloop, hord, Option.bind_eq_bind, Option.bind_some] at h0
  -- serving from the list of order `orderOf n + d`
  have serve : ∀ d, l (orderOf n + d) ≠ [] → (do
      let h ← splitLoop (orderOf n) d h
      let block ← h.man.freeBlocks (orderOf n)
      let h ← removeBlock h (some block)
      let h := h.setStatus block .OCCUPIED
      some (h.setUsed ((h.man.usedMem + 1 <<< orderOf n) % 2 ^ 64),
        some (block + sizeofBlock))) = some (h', p) → WritesIn (freeBlks l) h h' := by
    intro d hd hserve
    obtain ⟨o, r, hl⟩ := List.exists_cons_of_ne_nil hd
    obtain ⟨h1, l1, r1, hs, L1, hl1, hw1, hsub⟩ := splitLoop_writes L hk hl
    obtain ⟨h1', hs', hserve⟩ := Option.bind_eq_some_iff.mp hserve
    obtain rfl : h1 = h1' := Option.some.inj (hs.symm.trans hs')
    obtain ⟨block, hb, hserve⟩ := Option.bind_eq_some_iff.mp hserve
    obtain rfl : addr o = block := Option.some.inj ((L1.head_eq hl1).1.symm.trans hb)
    obtain ⟨h2, hrem, hserve⟩ := Option.bind_eq_some_iff.mp hserve
    obtain ⟨rfl, -⟩ := Prod.mk.inj (Option.some.inj hserve)
    have ho : o ∈ l1 (orderOf n) := hl1 ▸ List.mem_cons_self
    have hlist : ∀ x ∈ l1 (orderOf n), Room (freeBlks l) x := fun x hx => hsub x (L1.room hk hx)
    have hw2 := removeBlock_writes L1 ho hlist hrem
    have hw3 := (hw1.trans hw2).trans (setStatus_writes .OCCUPIED (hlist o ho))
    exact hw3.trans (.of_mem (setUsed_mem _ _))
  by_cases hlk : l (orderOf n) = []
  · rw [if_pos (L.freeBlocks_none.mpr hlk)] at h0
    rcases search_spec h (orderOf n) with ⟨-, hfound⟩ | ⟨j, hkj, hj, hfound⟩
    · rw [hfound, if_pos rfl] at h0
      obtain ⟨rfl, -⟩ := Prod.mk.inj (Option.some.inj h0)
      exact .of_mem rfl
    · obtain ⟨d, rfl⟩ := Nat.exists_eq_add_of_lt hkj
      rw [hfound, if_neg (Nat.succ_ne_zero _), Nat.add_assoc, Nat.add_sub_cancel_left] at h0
      have hd : l (orderOf n + (d + 1)) ≠ [] := by
        rw [← Nat.add_assoc]
        exact fun he => hj (L.freeBlocks_none.mpr he)
      exact serve (d + 1) hd h0
  · rw [if_neg fun he => hlk (L.freeBlocks_none.mp he), Nat.sub_self,
      if_neg (Nat.ne_of_gt (Nat.lt_of_lt_of_le (Nat.succ_pos 3) hk))] at h0
    have hd : l (orderOf n + 0) ≠ [] := by rwa [Nat.add_zero]
    exact serve 0 hd h0

/-- The merge loop writes the headers of the block in hand and of listed blocks; the block it
ends with starts where one of them does. -/
theorem mergeLoop_writes {fuel p : Nat} (H : Hand h l O b)
    (hB : ∀ x, x = b.off ∨ (∃ k, x ∈ l k) → Room B x)
    (h0 : mergeLoop fuel h (addr b.off) = some (h', p)) :
    WritesIn B h h' ∧ ∃ x, p = addr x ∧ Room B x := by
  induction fuel generalizing h l b with
  | zero => cases h0
  | succ fuel ih =>
    have hstop : WritesIn B h h ∧ ∃ x, addr b.off = addr x ∧ Room B x :=
      ⟨.of_mem rfl, b.off, rfl, hB _ (.inl rfl)⟩
    have hpos : b.off ^^^ 1 <<< b.ord = b.buddy.off := by
      rw [Nat.one_shiftLeft]
      rfl
    have hbaddr : heapStartAddress + b.buddy.off = addr b.buddy.off := rfl
    simp only [mergeLoop, H.order, addr_sub, hpos, hbaddr] at h0
    split at h0
    next hk =>
      split at h0
      · obtain ⟨rfl, rfl⟩ := Prod.mk.inj (Option.some.inj h0)
        exact hstop
      · next htest =>
        simp only [ne_eq, not_or, Decidable.not_not] at htest
        have hbud := (H.buddy_test hk).mp htest
        obtain ⟨h1, h2, hrem1, hrem2, hset, H2, -⟩ := H.merge hbud
        have hleft : (if b.off < b.buddy.off then addr b.off else addr b.buddy.off) =
            addr b.parent.off := by
          simp only [Blk.parent]
          split <;> congr 1 <;> omega
        simp only [hleft, hrem1, hrem2, Option.bind_eq_bind, Option.bind_some, hset] at h0
        have hparent : Room B b.parent.off := by
          rcases parent_off b with he | he
          · exact he ▸ hB _ (.inl rfl)
          · exact he ▸ hB _ (.inr ⟨_, hbud⟩)
        have hlists : ∀ x, x = b.parent.off ∨ (∃ k, x ∈
            Function.update l b.ord ((l b.ord).erase b.buddy.off) k) → Room B x := by
          rintro x (rfl | ⟨k, hx⟩)
          · exact hparent
          · refine hB x (.inr ⟨k, ?_⟩)
            rcases eq_or_ne k b.ord with rfl | hne
            · rw [Function.update_self] at hx
              exact List.mem_of_mem_erase hx
            · rwa [Function.update_of_ne hne] at hx
        obtain ⟨hw, hx⟩ := ih H2 hlists h0
        have hw1 := removeBlock_writes H.layout hbud (fun x hx => hB x (.inr ⟨_, hx⟩)) hrem2
        have hw2 : WritesIn B h1 h2 := hset ▸ setBlock_writes _ hparent
        exact ⟨(hw1.trans hw2).trans hw, hx⟩
    next =>
      obtain ⟨rfl, rfl⟩ := Prod.mk.inj (Option.some.inj h0)
      exact hstop

/-- `freeMemory` writes inside the freed block and the blocks that are free before. -/
theorem freeMemory_writes {s : St} {a : Alloc} (I : Inv s l) (ha : a ∈ s.live)
    (h0 : freeMemory s.heap (some a.ptr) = some h') :
    WritesIn (a.blk ::ₘ freeBlks l) s.heap h' := by
  have hblock : a.ptr - sizeofBlock = addr a.blk.off := by rw [I.ptr a ha, Nat.add_sub_cancel]
  obtain ⟨hord, hst⟩ := I.occupied _ (mem_liveBlks ha)
  have hlive := liveBlks_erase ha
  have L0 : Layout s.heap l (a.blk ::ₘ liveBlks (s.live.erase a)) := hlive ▸ I.layout
  have hmin : minOrder ≤ a.blk.ord := Nat.le_max_left _ _
  have hmax : a.blk.ord ≤ s.heap.man.maxOrder :=
    L0.tiling.ord_le (Multiset.mem_add.mpr (.inr (Multiset.mem_cons_self _ _)))
  have hB : ∀ x, x = a.blk.off ∨ (∃ k, x ∈ l k) → Room (a.blk ::ₘ freeBlks l) x := by
    rintro x (hx | ⟨k, hx⟩)
    · exact hx ▸ Room.own (Multiset.mem_cons_self _ _) (Nat.le_trans (by decide) hmin)
    · have hfree := L0.mem_free hx
      refine Room.own (b := ⟨x, k⟩) (Multiset.mem_cons_of_mem hfree) ?_
      rcases I.minOrd _ (Multiset.mem_add.mpr (.inl hfree)) with hk | hk
      · exact Nat.le_trans (by decide) hk
      · exact hk ▸ Nat.le_trans (Nat.le_trans (by decide) hmin) hmax
  have hown : Room (a.blk ::ₘ freeBlks l) a.blk.off := hB _ (.inl rfl)
  have hne : (s.heap.mem (addr a.blk.off)).status ≠ .FREE := by rw [hst]; nofun
  simp only [freeMemory, hblock, if_neg hne] at h0
  obtain ⟨⟨h2, p⟩, hloop, hcreate⟩ := Option.bind_eq_some_iff.mp h0
  -- the block in hand, its header `FREE`
  obtain ⟨h1, hh1⟩ : ∃ h1, h1 = (s.heap.setUsed (sub64 s.heap.man.usedMem
    (1 <<< (s.heap.mem (addr a.blk.off)).order))).setStatus (addr a.blk.off) .FREE := ⟨_, rfl⟩
  rw [← hh1] at hloop
  have hw1 : WritesIn (a.blk ::ₘ freeBlks l) s.heap h1 := by
    rw [hh1]
    exact (WritesIn.of_mem (setUsed_mem _ _)).trans (setStatus_writes _ hown)
  have H : Hand h1 l (liveBlks (s.live.erase a)) a.blk := by
    rw [hh1]
    refine ⟨(L0.setUsed _).setBlock_hand (Multiset.mem_cons_self _ _) _, ?_, ?_, ?_⟩
    · rw [setStatus_mem_self, setUsed_mem]
      exact hord
    · intro c hc
      rw [setStatus_mem_ne _ (L0.off_ne hc), setUsed_mem]
      exact I.occupied c (hlive ▸ Multiset.mem_cons_of_mem hc)
    · rw [setStatus_man, setUsed_max]
      exact I.noBuddies
  obtain ⟨hw2, x, rfl, hx⟩ := mergeLoop_writes H hB hloop
  exact (hw1.trans hw2).trans (createBlock_writes hcreate hx)

end

/-! ## What lies between the headers -/

/-- A call of the allocator; the writes of its users are none. -/
def Event.IsCall : Event → Prop
  | .alloc _ | .free _ => True
  | .write _ _ _ => False

instance : DecidablePred Event.IsCall
  | .alloc _ | .free _ => .isTrue trivial
  | .write _ _ _ => .isFalse id

/-- Neither a free of the allocation nor a write into it. -/
def Event.Spares (c : Alloc) : Event → Prop
  | .alloc _ => True
  | .free a => a ≠ c
  | .write a _ _ => a ≠ c

instance (c : Alloc) : (e : Event) → Decidable (e.Spares c)
  | .alloc _ => inferInstanceAs (Decidable True)
  | .free a => inferInstanceAs (Decidable (a ≠ c))
  | .write a _ _ => inferInstanceAs (Decidable (a ≠ c))

section

variable {mem : Nat → Block} {size : Nat} {s s' : St} {l : Nat → List Nat} {c : Alloc} {e : Event}

theorem room_apart {M x : Nat} {B : Multiset Blk} {live : List Alloc}
    (hT : Tiling M (B + liveBlks live)) (hc : c ∈ live) (hr : Room B x) :
    x + sizeofBlock ≤ c.blk.off ∨ c.blk.off + 2 ^ c.blk.ord ≤ x := by
  obtain ⟨b, hb, hlo, hhi⟩ := hr
  obtain ⟨B', rfl⟩ := Multiset.exists_cons_of_mem hb
  rw [liveBlks_erase hc, Multiset.cons_add, Multiset.add_cons] at hT
  rcases hT.disjoint with h | h
  · exact .inl (hhi.trans h)
  · exact .inr (h.trans hlo)

/-- No header that a call changes meets a block that is live before and after, from its header
to the end of its payload. -/
theorem step_writes_apart (I : Inv s l) (he : e.Owned s) (hcall : e.IsCall)
    (hs : step s e = some s') (hc : c ∈ s.live) (hc' : c ∈ s'.live) {a : Nat}
    (ha : s'.heap.mem a ≠ s.heap.mem a) :
    a + sizeofBlock + sizeofBlock ≤ c.ptr ∨ c.ptr + c.bytes ≤ a := by
  have hptr := I.ptr c hc
  have hpay := I.payload_le hc
  have hapart : ∀ {B live}, Tiling s.heap.man.maxOrder (B + liveBlks live) → c ∈ live →
      WritesIn B s.heap s'.heap →
      a + sizeofBlock + sizeofBlock ≤ c.ptr ∨ c.ptr + c.bytes ≤ a := by
    intro B live hT hmem hw
    obtain ⟨x, rfl, hr⟩ := hw a ha
    rw [addr] at hpay hptr ⊢
    rcases room_apart hT hmem hr with h | h
    · left
      rw [hptr, Nat.add_assoc heapStartAddress]
      exact Nat.add_le_add_right (Nat.add_le_add_left h _) _
    · right
      refine hpay.trans ?_
      rw [Nat.add_assoc]
      exact Nat.add_le_add_left h _
  cases e with
  | alloc n =>
    obtain ⟨⟨h', p⟩, h0, hs⟩ := Option.bind_eq_some_iff.mp hs
    have hheap : s'.heap = h' := by
      cases p with
      | none => exact (congrArg St.heap (Option.some.inj hs)).symm
      | some p => exact (congrArg St.heap (Option.some.inj hs)).symm
    exact hapart I.layout.tiling hc (hheap ▸ allocMemory_writes I.layout h0)
  | free b =>
    obtain ⟨h', h0, hs⟩ := Option.bind_eq_some_iff.mp hs
    obtain rfl := Option.some.inj hs
    have hT := I.layout.tiling
    rw [liveBlks_erase he, Multiset.add_cons, ← Multiset.cons_add] at hT
    exact hapart hT hc' (freeMemory_writes I he h0)
  | write b address image => exact hcall.elim

/-- Between two live payloads there is room for a header. -/
theorem Inv.apart (I : Inv s l) {a : Alloc} (ha : a ∈ s.live) (hc : c ∈ s.live) (hne : a ≠ c) :
    a.ptr + a.bytes + sizeofBlock ≤ c.ptr ∨ c.ptr + c.bytes + sizeofBlock ≤ a.ptr := by
  have hT := I.layout.tiling
  rw [liveBlks_erase ha, liveBlks_erase ((List.mem_erase_of_ne hne.symm).mpr hc),
    Multiset.add_cons, Multiset.add_cons] at hT
  have hgap : ∀ {a c : Alloc}, a ∈ s.live → c ∈ s.live → a.blk.off + 2 ^ a.blk.ord ≤ c.blk.off →
      a.ptr + a.bytes + sizeofBlock ≤ c.ptr := by
    intro a c ha hc h
    rw [I.ptr c hc]
    refine Nat.add_le_add_right ((I.payload_le ha).trans ?_) _
    rw [addr, addr, Nat.add_assoc]
    exact Nat.add_le_add_left h _
  exact hT.disjoint.imp (hgap ha hc) (hgap hc ha)

theorem step_live (he : e.Spares c) (hs : step s e = some s') (hc : c ∈ s.live) : c ∈ s'.live := by
  cases e with
  | alloc n =>
    obtain ⟨⟨h', p⟩, h0, hs⟩ := Option.bind_eq_some_iff.mp hs
    cases p with
    | none => exact Option.some.inj hs ▸ hc
    | some p => exact Option.some.inj hs ▸ List.mem_cons_of_mem _ hc
  | free a =>
    obtain ⟨h', h0, hs⟩ := Option.bind_eq_some_iff.mp hs
    exact Option.some.inj hs ▸ (List.mem_erase_of_ne he.symm).mpr hc
  | write a address image => exact Option.some.inj hs ▸ hc

/-- What one event leaves of the images that meet a payload. -/
theorem step_kept (I : Inv s l) (he : e.Owned s) (hsp : e.Spares c) (hs : step s e = some s')
    (hc : c ∈ s.live) {a : Nat} (hlo : c.ptr < a + sizeofBlock) (hhi : a < c.ptr + c.bytes) :
    s'.heap.mem a = s.heap.mem a := by
  by_contra hne
  have hc' := step_live hsp hs hc
  have hcall : e.IsCall → False := by
    intro hcall
    rcases step_writes_apart I he hcall hs hc hc' hne with h | h
    · exact absurd (Nat.le_of_add_right_le h) (Nat.not_le.mpr hlo)
    · exact absurd h (Nat.not_le.mpr hhi)
  cases e with
  | alloc n => exact hcall trivial
  | free b => exact hcall trivial
  | write b address image =>
    obtain rfl := Option.some.inj hs
    obtain ⟨hb, hb1, hb2⟩ := he
    have haddr : a = address := by
      by_contra hx
      exact hne (Function.update_of_ne hx _ _)
    subst haddr
    rcases I.apart hb hc hsp with h | h <;> omega

/-- In every run, what a live payload holds stays as it is until its owner writes or frees it:
no call of the allocator and no other user writes an image that has a byte of it. -/
theorem payload_kept (hr : Reach mem size s) (hc : c ∈ s.live)
    (hrun : Run step (fun t e => e.Owned t ∧ e.Spares c) s s') :
    c ∈ s'.live ∧ ∀ a, c.ptr < a + sizeofBlock → a < c.ptr + c.bytes →
      s'.heap.mem a = s.heap.mem a := by
  obtain ⟨l, I, _⟩ := reach_inv hr
  refine (hrun.invariant (P := fun t => (∃ l, Inv t l) ∧ c ∈ t.live ∧ ∀ a,
    c.ptr < a + sizeofBlock → a < c.ptr + c.bytes → t.heap.mem a = s.heap.mem a)
    ⟨⟨l, I⟩, hc, fun _ _ _ => rfl⟩ ?_).2
  rintro t t' e ⟨⟨l, I⟩, hct, hkept⟩ ⟨he, hsp⟩ hs
  obtain ⟨t1, l1, hs1, I1, _⟩ := step_inv I he
  obtain rfl : t' = t1 := Option.some.inj (hs.symm.trans hs1)
  exact ⟨⟨l1, I1⟩, step_live hsp hs hct, fun a hlo hhi =>
    (step_kept I he hsp hs hct hlo hhi).trans (hkept a hlo hhi)⟩

end

/-- Around a payload with a stale header across its end, a larger block is freed and split again. -/
theorem payload_kept_main : ∃ s s', (∃ h0, createMemoryManager zeroMem heapStartAddress heapSize =
      some h0 ∧ Run.exec step (fun s e => e.Owned s) ⟨h0, []⟩
        [.alloc 100, .alloc 1000, .write ⟨6291472, 100⟩ 6291568 ⟨7, .FREE, none⟩] = some s) ∧
    Run.exec step (fun t e => e.Owned t ∧ e.Spares ⟨6291472, 100⟩) s
      [.free ⟨6292496, 1000⟩, .alloc 40, .alloc 5000] = some s' ∧
    s'.heap.mem 6291568 = ⟨7, .FREE, none⟩ := by
  have hruns : ((createMemoryManager zeroMem heapStartAddress heapSize).bind fun h0 =>
      (Run.exec step (fun s e => e.Owned s) ⟨h0, []⟩
        [.alloc 100, .alloc 1000, .write ⟨6291472, 100⟩ 6291568 ⟨7, .FREE, none⟩]).bind fun s =>
      (Run.exec step (fun t e => e.Owned t ∧ e.Spares ⟨6291472, 100⟩) s
        [.free ⟨6292496, 1000⟩, .alloc 40, .alloc 5000]).map fun s' => (h0, s, s')).any (fun r =>
      decide ((⟨6291472, 100⟩ : Alloc) ∈ r.2.1.live ∧ r.2.1.heap.mem 6291568 = ⟨7, .FREE, none⟩)) =
      true := by decide +kernel
  obtain ⟨r, hr, hP⟩ := (Option.any_eq_true _ _).mp hruns
  obtain ⟨h0, hc, hr⟩ := Option.bind_eq_some_iff.mp hr
  obtain ⟨s, hs, hr⟩ := Option.bind_eq_some_iff.mp hr
  obtain ⟨s', hs', rfl⟩ := Option.map_eq_some_iff.mp hr
  obtain ⟨hlive, hmem⟩ := of_decide_eq_true hP
  refine ⟨s, s', ⟨h0, hc, hs⟩, hs', ?_⟩
  have hkept := payload_kept ⟨h0, hc, Run.of_exec hs⟩ hlive (Run.of_exec hs')
  exact (hkept.2 6291568 (by decide) (by decide)).trans hmem

end SoKernel.Buddy
