import SoKernel.Buddy.Model
import SoKernel.Lib.Dyadic
import Mathlib.Data.List.Duplicate
import Mathlib.Tactic.Abel

/-!
# The layout of the buddy heap

`Layout h l O` ties the headers and links in memory to a tiling of the heap: the
list `free_blocks[k]` visits exactly the offsets `l k`, the headers of these
blocks say `FREE` and order `k`, and the free blocks together with the blocks
`O` (live ones, or one the allocator has in hand) tile `[0, 2 ^ max_order)`.

Each helper function of the source has one lemma here that says what it does to
the layout: `createBlock_layout`, `removeBlock_layout`, `removeBlock_absent`,
`splitBlock_layout`.
-/

namespace SoKernel.Buddy

open DyadicBlocks

/-! ## Free lists in memory -/

/-- The address of an offset of the heap. -/
def addr (o : Nat) : Nat := heapStartAddress + o

theorem addr_inj {a b : Nat} : addr a = addr b ↔ a = b := Nat.add_left_cancel_iff

@[simp] theorem addr_sub (o : Nat) : addr o - heapStartAddress = o :=
  Nat.add_sub_cancel_left _ _

theorem setBlock_mem_ne {h : Heap} {a x : Nat} (b : Block) (hx : addr x ≠ a) :
    (h.setBlock a b).mem (addr x) = h.mem (addr x) := Function.update_of_ne hx _ _

theorem setBlock_mem_self (h : Heap) (a : Nat) (b : Block) : (h.setBlock a b).mem a = b :=
  Function.update_self _ _ _

theorem setStatus_mem_ne {h : Heap} {o x : Nat} (st : Status) (hx : x ≠ o) :
    (h.setStatus (addr o) st).mem (addr x) = h.mem (addr x) :=
  setBlock_mem_ne _ fun he => hx (addr_inj.mp he)

theorem setStatus_mem_self (h : Heap) (a : Nat) (st : Status) :
    (h.setStatus a st).mem a = { h.mem a with status := st } := setBlock_mem_self _ _ _

theorem setStatus_order (h : Heap) (o x : Nat) (st : Status) :
    ((h.setStatus (addr o) st).mem (addr x)).order = (h.mem (addr x)).order := by
  rcases eq_or_ne x o with rfl | hx
  · rw [setStatus_mem_self]
  · rw [setStatus_mem_ne st hx]

theorem setStatus_next (h : Heap) (o x : Nat) (st : Status) :
    ((h.setStatus (addr o) st).mem (addr x)).next = (h.mem (addr x)).next := by
  rcases eq_or_ne x o with rfl | hx
  · rw [setStatus_mem_self]
  · rw [setStatus_mem_ne st hx]

/-- A change of `next` keeps the rest of the header. -/
theorem relink_header (h : Heap) (a x : Nat) (n : Option Nat) :
    ((h.setBlock a { h.mem a with next := n }).mem (addr x)).order = (h.mem (addr x)).order ∧
      ((h.setBlock a { h.mem a with next := n }).mem (addr x)).status =
        (h.mem (addr x)).status := by
  rcases eq_or_ne (addr x) a with rfl | hx
  · rw [setBlock_mem_self]
    exact ⟨rfl, rfl⟩
  · rw [setBlock_mem_ne _ hx]
    exact ⟨rfl, rfl⟩

/-- From `p` the `next` fields visit exactly the offsets of the list, and end. -/
def Chain (mem : Nat → Block) : Option Nat → List Nat → Prop
  | p, [] => p = none
  | p, o :: l => p = some (addr o) ∧ Chain mem (mem (addr o)).next l

theorem Chain.congr {mem mem' : Nat → Block} {p : Option Nat} {l : List Nat} (h : Chain mem p l)
    (hn : ∀ o ∈ l, (mem' (addr o)).next = (mem (addr o)).next) : Chain mem' p l := by
  induction l generalizing p with
  | nil => exact h
  | cons o l ih =>
    refine ⟨h.1, ?_⟩
    rw [hn o List.mem_cons_self]
    exact ih h.2 fun x hx => hn x (List.mem_cons_of_mem _ hx)

/-- `walk` finds the predecessor of a listed block, and taking the block out
there leaves the list without it. -/
theorem walk_found {mem : Nat → Block} {b o : Nat} {l : List Nat} {fuel : Nat}
    (hch : Chain mem (mem (addr o)).next l) (hnd : (o :: l).Nodup) (hb : b ∈ l)
    (hfuel : l.length ≤ fuel) :
    ∃ c, c ∈ o :: l ∧ c ≠ b ∧ walk mem (addr b) fuel (addr o) = some (addr c) ∧
      (mem (addr c)).next = some (addr b) ∧
      ∀ mem' : Nat → Block, (mem' (addr c)).next = (mem (addr b)).next →
        (∀ x ∈ o :: l, x ≠ c → (mem' (addr x)).next = (mem (addr x)).next) →
        Chain mem' (mem' (addr o)).next (l.erase b) := by
  induction l generalizing o fuel with
  | nil => exact absurd hb List.not_mem_nil
  | cons n l ih =>
    obtain ⟨hnext, hrest⟩ := hch
    cases fuel with
    | zero => exact absurd hfuel (Nat.not_succ_le_zero _)
    | succ fuel =>
      simp only [walk, hnext]
      rcases eq_or_ne n b with rfl | hnb
      · have hno : n ≠ o := fun h => (List.nodup_cons.mp hnd).1 (h ▸ List.mem_cons_self)
        refine ⟨o, List.mem_cons_self, hno.symm, by rw [if_pos rfl], hnext, ?_⟩
        intro mem' hc hx
        rw [List.erase_cons_head, hc]
        refine hrest.congr fun x hxl => hx x (by simp [hxl]) ?_
        rintro rfl
        exact (List.nodup_cons.mp hnd).1 (List.mem_cons_of_mem _ hxl)
      · have hbl : b ∈ l := (List.mem_cons.mp hb).resolve_left (Ne.symm hnb)
        obtain ⟨c, hc, hcb, hwalk, hcn, hchain⟩ :=
          ih hrest (List.nodup_cons.mp hnd).2 hbl (Nat.le_of_succ_le_succ hfuel)
        have hco : o ≠ c := fun h => (List.nodup_cons.mp hnd).1 (h ▸ hc)
        refine ⟨c, List.mem_cons_of_mem _ hc, hcb, ?_, hcn, ?_⟩
        · rw [if_neg (fun h => hnb (addr_inj.mp h)), hwalk]
        · intro mem' hc' hx
          rw [hx o List.mem_cons_self hco, hnext, List.erase_cons_tail (by simpa using hnb)]
          exact ⟨rfl, hchain mem' hc' fun x hxl => hx x (List.mem_cons_of_mem _ hxl)⟩

/-- `walk` ends at the last block when the block it looks for is not listed. -/
theorem walk_absent {mem : Nat → Block} {b o : Nat} {l : List Nat} {fuel : Nat}
    (hch : Chain mem (mem (addr o)).next l) (hb : b ∉ l) (hfuel : l.length < fuel) :
    ∃ c, walk mem (addr b) fuel (addr o) = some c ∧ (mem c).next = none := by
  induction l generalizing o fuel with
  | nil =>
    cases fuel with
    | zero => exact absurd hfuel (Nat.not_lt_zero _)
    | succ fuel =>
      have hnext : (mem (addr o)).next = none := hch
      exact ⟨addr o, by simp only [walk, hnext], hnext⟩
  | cons n l ih =>
    obtain ⟨hnext, hrest⟩ := hch
    cases fuel with
    | zero => exact absurd hfuel (Nat.not_lt_zero _)
    | succ fuel =>
      obtain ⟨hbn, hbl⟩ := List.ne_and_not_mem_of_not_mem_cons hb
      obtain ⟨c, hwalk, hc⟩ := ih hrest hbl (Nat.lt_of_succ_lt_succ hfuel)
      refine ⟨c, ?_, hc⟩
      simp only [walk, hnext]
      rw [if_neg (fun h => hbn (addr_inj.mp h).symm), hwalk]

/-! ## The blocks of the free lists -/

/-- The blocks of all free lists. -/
def freeBlks (l : Nat → List Nat) : Multiset Blk :=
  ∑ k ∈ Finset.range maxOrder, ((l k).map (Blk.mk · k) : Multiset Blk)

theorem freeBlks_update {l : Nat → List Nat} {k : Nat} (hk : k < maxOrder) (r : List Nat) :
    freeBlks (Function.update l k r) + ((l k).map (Blk.mk · k) : Multiset Blk) =
      freeBlks l + (r.map (Blk.mk · k) : Multiset Blk) := by
  have hmem : k ∈ Finset.range maxOrder := Finset.mem_range.mpr hk
  unfold freeBlks
  rw [← Finset.add_sum_erase _ _ hmem, ← Finset.add_sum_erase _ (fun j => _) hmem]
  have hsame : ∑ j ∈ (Finset.range maxOrder).erase k,
      ((Function.update l k r j).map (Blk.mk · j) : Multiset Blk) =
      ∑ j ∈ (Finset.range maxOrder).erase k, ((l j).map (Blk.mk · j) : Multiset Blk) :=
    Finset.sum_congr rfl fun j hj => by
      rw [Function.update_of_ne (Finset.ne_of_mem_erase hj)]
  rw [hsame, Function.update_self]
  abel

theorem freeBlks_cons {l : Nat → List Nat} {k : Nat} (hk : k < maxOrder) (o : Nat) :
    freeBlks (Function.update l k (o :: l k)) = ⟨o, k⟩ ::ₘ freeBlks l := by
  have h := freeBlks_update (l := l) hk (o :: l k)
  rw [List.map_cons, ← Multiset.cons_coe, Multiset.add_cons, ← Multiset.cons_add] at h
  exact add_right_cancel h

theorem freeBlks_erase {l : Nat → List Nat} {k o : Nat} (hk : k < maxOrder) (ho : o ∈ l k) :
    freeBlks l = ⟨o, k⟩ ::ₘ freeBlks (Function.update l k ((l k).erase o)) := by
  have hperm : (l k).Perm (o :: (l k).erase o) := List.perm_cons_erase ho
  have h := freeBlks_update (l := l) hk ((l k).erase o)
  rw [Multiset.coe_eq_coe.mpr (hperm.map (Blk.mk · k)), List.map_cons, ← Multiset.cons_coe,
    Multiset.add_cons, ← Multiset.cons_add] at h
  exact (add_right_cancel h).symm

theorem mem_freeBlks {l : Nat → List Nat} {b : Blk} :
    b ∈ freeBlks l ↔ b.ord < maxOrder ∧ b.off ∈ l b.ord := by
  obtain ⟨o, k⟩ := b
  simp only [freeBlks, Multiset.mem_sum, Finset.mem_range, Multiset.mem_coe, List.mem_map,
    Blk.mk.injEq]
  constructor
  · rintro ⟨j, hj, x, hx, rfl, rfl⟩
    exact ⟨hj, hx⟩
  · rintro ⟨hk, ho⟩
    exact ⟨k, hk, o, ho, rfl, rfl⟩

/-! ## Layout -/

/-- See the header of this module. -/
structure Layout (h : Heap) (l : Nat → List Nat) (O : Multiset Blk) : Prop where
  bound : h.man.maxOrder < maxOrder
  chain : ∀ k, Chain h.mem (h.man.freeBlocks k) (l k)
  header : ∀ k, ∀ o ∈ l k, (h.mem (addr o)).order = k ∧ (h.mem (addr o)).status = .FREE
  beyond : ∀ k, h.man.maxOrder < k → l k = []
  tiling : Tiling h.man.maxOrder (freeBlks l + O)

/-- The step from `h` to `h'` changes none of the manager's counters. -/
structure SameCounters (h h' : Heap) : Prop where
  maxOrder : h'.man.maxOrder = h.man.maxOrder
  totalMem : h'.man.totalMem = h.man.totalMem
  usedMem : h'.man.usedMem = h.man.usedMem

theorem SameCounters.trans {h h' h'' : Heap} (k : SameCounters h h') (k' : SameCounters h' h'') :
    SameCounters h h'' :=
  ⟨k'.maxOrder.trans k.maxOrder, k'.totalMem.trans k.totalMem, k'.usedMem.trans k.usedMem⟩

/-- The step from `h` to `h'` changes no order and no status outside `P`, and
no counter. -/
structure Keeps (P : Nat → Prop) (h h' : Heap) : Prop extends SameCounters h h' where
  order : ∀ o, ¬ P o → (h'.mem (addr o)).order = (h.mem (addr o)).order
  status : ∀ o, ¬ P o → (h'.mem (addr o)).status = (h.mem (addr o)).status

theorem Keeps.trans {P : Nat → Prop} {h h' h'' : Heap} (k : Keeps P h h') (k' : Keeps P h' h'') :
    Keeps P h h'' :=
  ⟨k.toSameCounters.trans k'.toSameCounters,
    fun o ho => (k'.order o ho).trans (k.order o ho),
    fun o ho => (k'.status o ho).trans (k.status o ho)⟩

theorem Keeps.mono {P Q : Nat → Prop} {h h' : Heap} (k : Keeps P h h') (hPQ : ∀ o, P o → Q o) :
    Keeps Q h h' :=
  ⟨k.toSameCounters, fun o ho => k.order o fun hp => ho (hPQ o hp),
    fun o ho => k.status o fun hp => ho (hPQ o hp)⟩

namespace Layout

variable {h : Heap} {l : Nat → List Nat} {O : Multiset Blk} {k o : Nat}

theorem ord_le (L : Layout h l O) (ho : o ∈ l k) : k ≤ h.man.maxOrder := by
  by_contra hk
  rw [L.beyond k (Nat.lt_of_not_le hk)] at ho
  exact absurd ho List.not_mem_nil

theorem ord_lt (L : Layout h l O) (ho : o ∈ l k) : k < maxOrder :=
  Nat.lt_of_le_of_lt (L.ord_le ho) L.bound

theorem mem_free (L : Layout h l O) (ho : o ∈ l k) : (⟨o, k⟩ : Blk) ∈ freeBlks l :=
  mem_freeBlks.mpr ⟨L.ord_lt ho, ho⟩

theorem mem_tiling (L : Layout h l O) (ho : o ∈ l k) : (⟨o, k⟩ : Blk) ∈ freeBlks l + O :=
  Multiset.mem_add.mpr (.inl (L.mem_free ho))

/-- Blocks of the layout that start at the same offset are the same. -/
theorem eq_of_off (L : Layout h l O) {b c : Blk} (hb : b ∈ freeBlks l + O)
    (hc : c ∈ freeBlks l + O) (heq : b.off = c.off) : b = c :=
  L.tiling.eq_of_covers hb hc (covers_off b) (heq ▸ covers_off c)

/-- A block that is not free starts at no offset of a free list. -/
theorem not_mem_list (L : Layout h l O) {b : Blk} (hb : b ∈ O) (j : Nat) : b.off ∉ l j := by
  intro ho
  have hbT : b ∈ freeBlks l + O := Multiset.mem_add.mpr (.inr hb)
  have heq := L.eq_of_off (L.mem_tiling ho) hbT rfl
  obtain ⟨O', rfl⟩ := Multiset.exists_cons_of_mem hb
  have hT := L.tiling
  rw [Multiset.add_cons] at hT
  exact hT.not_mem_of_cons (Multiset.mem_add.mpr (.inl (heq ▸ L.mem_free ho)))

theorem nodup (L : Layout h l O) (k : Nat) : (l k).Nodup := by
  rw [List.nodup_iff_forall_not_duplicate]
  intro o hdup
  have ho := hdup.mem
  have hk := L.ord_lt ho
  have hT := L.tiling
  rw [freeBlks_erase hk ho, Multiset.cons_add] at hT
  have hagain : o ∈ (l k).erase o := by
    have hcount := List.duplicate_iff_two_le_count.mp hdup
    rw [← List.count_pos_iff, List.count_erase_self]
    omega
  refine hT.not_mem_of_cons (Multiset.mem_add.mpr (.inl (mem_freeBlks.mpr ⟨hk, ?_⟩)))
  rw [Function.update_self]
  exact hagain

theorem off_lt (L : Layout h l O) (ho : o ∈ l k) : o < 2 ^ h.man.maxOrder :=
  Nat.lt_of_lt_of_le (Nat.lt_add_of_pos_right (Nat.two_pow_pos _))
    (L.tiling.inside _ (L.mem_tiling ho))

/-- No free list is longer than the fuel of `walk`. -/
theorem length_le (L : Layout h l O) (k : Nat) : (l k).length ≤ 2 ^ h.man.maxOrder := by
  rw [← List.toFinset_card_of_nodup (L.nodup k), ← Finset.card_range (2 ^ h.man.maxOrder)]
  apply Finset.card_le_card
  intro o ho
  exact Finset.mem_range.mpr (L.off_lt (List.mem_toFinset.mp ho))

theorem head_eq (L : Layout h l O) {r : List Nat} (hl : l k = o :: r) :
    h.man.freeBlocks k = some (addr o) ∧ Chain h.mem (h.mem (addr o)).next r := by
  have hch := L.chain k
  rw [hl] at hch
  exact hch

theorem freeBlocks_none (L : Layout h l O) : h.man.freeBlocks k = none ↔ l k = [] := by
  have hch := L.chain k
  cases hl : l k with
  | nil =>
    rw [hl] at hch
    exact ⟨fun _ => rfl, fun _ => hch⟩
  | cons o r =>
    rw [hl] at hch
    rw [hch.1]
    exact ⟨nofun, nofun⟩

end Layout

/-! ## The helper functions -/

variable {h : Heap} {l : Nat → List Nat} {O : Multiset Blk} {k o : Nat}

/-- `create_block` puts a block that is in hand at the head of its free list. -/
theorem createBlock_layout {b : Blk} (L : Layout h l (b ::ₘ O)) :
    ∃ h', createBlock h (addr b.off) b.ord = some h' ∧
      Layout h' (Function.update l b.ord (b.off :: l b.ord)) O ∧ Keeps (· = b.off) h h' := by
  have hT := L.tiling
  have hbT : b ∈ freeBlks l + b ::ₘ O := by simp
  have hk : b.ord ≤ h.man.maxOrder := hT.ord_le hbT
  have hlt : b.ord < maxOrder := Nat.lt_of_le_of_lt hk L.bound
  have hmem : ∀ x, x ≠ b.off → Function.update h.mem (addr b.off)
      ⟨b.ord, .FREE, h.man.freeBlocks b.ord⟩ (addr x) = h.mem (addr x) :=
    fun x hx => Function.update_of_ne (fun he => hx (addr_inj.mp he)) _ _
  have hfresh : ∀ j, ∀ x ∈ l j, x ≠ b.off :=
    fun j x hx he => L.not_mem_list (Multiset.mem_cons_self b O) j (he ▸ hx)
  refine ⟨_, if_pos hlt, ?_, ⟨rfl, rfl, rfl⟩, ?_, ?_⟩
  · constructor
    · exact L.bound
    · intro j
      rcases eq_or_ne j b.ord with rfl | hj
      · simp only [Heap.setHead, Heap.setBlock, Function.update_self]
        refine ⟨rfl, ?_⟩
        rw [Function.update_self]
        exact (L.chain _).congr fun x hx => by rw [hmem x (hfresh _ x hx)]
      · simp only [Heap.setHead, Heap.setBlock, Function.update_of_ne hj]
        exact (L.chain j).congr fun x hx => by rw [hmem x (hfresh _ x hx)]
    · intro j x hx
      simp only [Heap.setHead, Heap.setBlock]
      rcases eq_or_ne j b.ord with rfl | hj
      · rw [Function.update_self] at hx
        rcases List.mem_cons.mp hx with rfl | hx
        · rw [Function.update_self]
          exact ⟨rfl, rfl⟩
        · rw [hmem x (hfresh _ x hx)]
          exact L.header _ x hx
      · rw [Function.update_of_ne hj] at hx
        rw [hmem x (hfresh _ x hx)]
        exact L.header _ x hx
    · intro j hj
      have hne : j ≠ b.ord := fun he => Nat.not_lt_of_le hk (he ▸ hj)
      rw [Function.update_of_ne hne]
      exact L.beyond j hj
    · rw [freeBlks_cons hlt, Multiset.cons_add, ← Multiset.add_cons]
      exact hT
  · intro x hx
    simp only [Heap.setHead, Heap.setBlock, hmem x hx]
  · intro x hx
    simp only [Heap.setHead, Heap.setBlock, hmem x hx]

/-- The block `o` has left the list `k`: only that list and the status of `o` change. -/
structure Unlinked (h : Heap) (l : Nat → List Nat) (k o : Nat) (h' : Heap) : Prop where
  maxOrder : h'.man.maxOrder = h.man.maxOrder
  totalMem : h'.man.totalMem = h.man.totalMem
  usedMem : h'.man.usedMem = h.man.usedMem
  order : ∀ x, (h'.mem (addr x)).order = (h.mem (addr x)).order
  status : ∀ x, x ≠ o → (h'.mem (addr x)).status = (h.mem (addr x)).status
  occupied : (h'.mem (addr o)).status = .OCCUPIED
  chain : Chain h'.mem (h'.man.freeBlocks k) ((l k).erase o)
  others : ∀ j, j ≠ k → Chain h'.mem (h'.man.freeBlocks j) (l j)

theorem Unlinked.keeps {h' : Heap} (U : Unlinked h l k o h') : Keeps (· = o) h h' :=
  ⟨⟨U.maxOrder, U.totalMem, U.usedMem⟩, fun x _ => U.order x, U.status⟩

theorem Unlinked.layout {h' : Heap} (U : Unlinked h l k o h') (L : Layout h l O) (ho : o ∈ l k) :
    Layout h' (Function.update l k ((l k).erase o)) (⟨o, k⟩ ::ₘ O) := by
  constructor
  · rw [U.maxOrder]
    exact L.bound
  · intro j
    rcases eq_or_ne j k with rfl | hj
    · rw [Function.update_self]
      exact U.chain
    · rw [Function.update_of_ne hj]
      exact U.others j hj
  · intro j x hx
    have hxj : x ∈ l j ∧ x ≠ o := by
      rcases eq_or_ne j k with rfl | hj
      · rw [Function.update_self] at hx
        exact ⟨List.mem_of_mem_erase hx, fun he => (L.nodup j).not_mem_erase (he ▸ hx)⟩
      · rw [Function.update_of_ne hj] at hx
        refine ⟨hx, ?_⟩
        rintro rfl
        exact hj (congrArg Blk.ord (L.eq_of_off (L.mem_tiling hx) (L.mem_tiling ho) rfl))
    rw [U.order, U.status x hxj.2]
    exact L.header j x hxj.1
  · intro j hj
    rw [U.maxOrder] at hj
    have hne : j ≠ k := fun he => Nat.not_lt_of_le (L.ord_le ho) (he ▸ hj)
    rw [Function.update_of_ne hne]
    exact L.beyond j hj
  · have hT := L.tiling
    rw [freeBlks_erase (L.ord_lt ho) ho, Multiset.cons_add, ← Multiset.add_cons] at hT
    rw [U.maxOrder]
    exact hT

/-- The head of a list is taken out by moving the head. -/
theorem removeBlock_head {r : List Nat} (L : Layout h l O) (hl : l k = o :: r) :
    ∃ h', removeBlock h (some (addr o)) = some h' ∧ Unlinked h l k o h' := by
  have ho : o ∈ l k := hl ▸ List.mem_cons_self
  have hlt := L.ord_lt ho
  obtain ⟨hhead, hrest⟩ := L.head_eq hl
  refine ⟨(h.setStatus (addr o) .OCCUPIED).setHead k
    ((h.setStatus (addr o) .OCCUPIED).mem (addr o)).next, ?_, rfl, rfl, rfl, ?_, ?_, ?_, ?_, ?_⟩
  · simp only [removeBlock, (L.header k o ho).1, hlt, if_pos, hhead]
  · exact fun x => setStatus_order h o x _
  · intro x hx
    simp only [Heap.setHead, setStatus_mem_ne _ hx]
  · simp only [Heap.setHead, setStatus_mem_self]
  · rw [hl, List.erase_cons_head]
    simp only [Heap.setHead, Function.update_self, setStatus_next]
    exact hrest.congr fun x _ => setStatus_next h o x _
  · intro j hj
    simp only [Heap.setHead, Function.update_of_ne hj]
    exact (L.chain j).congr fun x _ => setStatus_next h o x _

/-- Any other block is taken out by its predecessor. -/
theorem removeBlock_behind {n : Nat} {r : List Nat} (L : Layout h l O) (hl : l k = n :: r)
    (hno : n ≠ o) (hor : o ∈ r) :
    ∃ h', removeBlock h (some (addr o)) = some h' ∧ Unlinked h l k o h' := by
  have ho : o ∈ l k := hl ▸ List.mem_cons_of_mem _ hor
  have hlt := L.ord_lt ho
  obtain ⟨hhead, hrest⟩ := L.head_eq hl
  have hlen : r.length ≤ 2 ^ h.man.maxOrder := by
    refine Nat.le_of_succ_le (Nat.le_trans (Nat.le_of_eq ?_) (L.length_le k))
    rw [hl, List.length_cons]
  obtain ⟨c, hc, hco, hwalk, hcn, hchain⟩ := walk_found hrest (hl ▸ L.nodup k) hor hlen
  have hck : c ∈ l k := hl ▸ hc
  let h1 := h.setBlock (addr c) { h.mem (addr c) with next := (h.mem (addr o)).next }
  have hheader : ∀ x, (h1.mem (addr x)).order = (h.mem (addr x)).order ∧
      (h1.mem (addr x)).status = (h.mem (addr x)).status :=
    fun x => relink_header h (addr c) x _
  have hnext : ∀ x, x ≠ c →
      ((h1.setStatus (addr o) .OCCUPIED).mem (addr x)).next = (h.mem (addr x)).next := by
    intro x hx
    rw [setStatus_next, setBlock_mem_ne _ fun he => hx (addr_inj.mp he)]
  have hcnext : ((h1.setStatus (addr o) .OCCUPIED).mem (addr c)).next = (h.mem (addr o)).next := by
    rw [setStatus_next, setBlock_mem_self]
  refine ⟨h1.setStatus (addr o) .OCCUPIED, ?_, rfl, rfl, rfl, ?_, ?_, ?_, ?_, ?_⟩
  · have hne : addr n ≠ addr o := fun he => hno (addr_inj.mp he)
    simp only [removeBlock, (L.header k o ho).1, hlt, if_pos, hhead, if_neg hne, hwalk,
      Option.bind_eq_bind, Option.bind_some, hcn, h1]
  · intro x
    rw [setStatus_order, (hheader x).1]
  · intro x hx
    rw [setStatus_mem_ne _ hx, (hheader x).2]
  · rw [setStatus_mem_self]
  · rw [hl, List.erase_cons_tail (by simpa using hno)]
    exact ⟨hhead, hchain _ hcnext fun x _ hx => hnext x hx⟩
  · intro j hj
    refine (L.chain j).congr fun x hx => hnext x ?_
    -- the predecessor is in the list `k`, and no block is in two lists
    rintro rfl
    exact hj (congrArg Blk.ord (L.eq_of_off (L.mem_tiling hx) (L.mem_tiling hck) rfl))

/-- `remove_block` on a listed block takes it in hand and marks it `OCCUPIED`. -/
theorem removeBlock_layout (L : Layout h l O) (ho : o ∈ l k) :
    ∃ h', removeBlock h (some (addr o)) = some h' ∧
      Layout h' (Function.update l k ((l k).erase o)) (⟨o, k⟩ ::ₘ O) ∧
      Keeps (· = o) h h' ∧ (h'.mem (addr o)).order = k ∧ (h'.mem (addr o)).status = .OCCUPIED := by
  obtain ⟨h', hrem, U⟩ : ∃ h', removeBlock h (some (addr o)) = some h' ∧ Unlinked h l k o h' := by
    cases hl : l k with
    | nil =>
      rw [hl] at ho
      exact absurd ho List.not_mem_nil
    | cons n r =>
      rcases eq_or_ne n o with rfl | hno
      · exact removeBlock_head L hl
      · refine removeBlock_behind L hl hno ?_
        rw [hl] at ho
        exact (List.mem_cons.mp ho).resolve_left (Ne.symm hno)
  exact ⟨h', hrem, U.layout L ho, U.keeps, (U.order o).trans (L.header k o ho).1, U.occupied⟩

/-- `remove_block` on a block that is in no list leaves the heap as it is. -/
theorem removeBlock_absent (L : Layout h l O) {b : Blk} (hb : b ∈ O)
    (hord : (h.mem (addr b.off)).order = b.ord) :
    removeBlock h (some (addr b.off)) = some h := by
  have hT := L.tiling
  have hlt : b.ord < maxOrder :=
    Nat.lt_of_le_of_lt (hT.ord_le (Multiset.mem_add.mpr (.inr hb))) L.bound
  have habs := L.not_mem_list hb b.ord
  cases hl : l b.ord with
  | nil =>
    have hnone := L.freeBlocks_none.mpr hl
    simp only [removeBlock, hord, hlt, if_pos, hnone]
  | cons n r =>
    obtain ⟨hhead, hrest⟩ := L.head_eq hl
    rw [hl] at habs
    obtain ⟨hbn, hbr⟩ := List.ne_and_not_mem_of_not_mem_cons habs
    have hlen : r.length < 2 ^ h.man.maxOrder := by
      have := L.length_le b.ord
      rw [hl, List.length_cons] at this
      omega
    obtain ⟨c, hwalk, hc⟩ := walk_absent hrest hbr hlen
    have hne : addr n ≠ addr b.off := fun he => hbn (addr_inj.mp he).symm
    simp only [removeBlock, hord, hlt, if_pos, hhead, if_neg hne, hwalk, Option.bind_eq_bind,
      Option.bind_some, hc]

/-- `split_block` replaces the first block of a list by its two halves. -/
theorem splitBlock_layout (L : Layout h l O) {r : List Nat} (hk : 0 < k) (hl : l k = o :: r) :
    ∃ h', splitBlock h k = some h' ∧
      Layout h' (Function.update (Function.update l k r) (k - 1)
        (o :: (o + 2 ^ (k - 1)) :: l (k - 1))) O ∧
      Keeps (Blk.Covers ⟨o, k⟩) h h' := by
  have ho : o ∈ l k := hl ▸ List.mem_cons_self
  have hne : k - 1 ≠ k := by omega
  obtain ⟨h1, hrem, L1, K1, _, _⟩ := removeBlock_layout L ho
  rw [hl, List.erase_cons_head] at L1
  -- the block in hand becomes its two halves, which go back into the lower list
  have hsplit := L1.tiling
  rw [Multiset.add_cons] at hsplit
  have L2 : Layout h1 (Function.update l k r)
      ((⟨o + 2 ^ (k - 1), k - 1⟩ : Blk) ::ₘ (⟨o, k - 1⟩ : Blk) ::ₘ O) := by
    refine ⟨L1.bound, L1.chain, L1.header, L1.beyond, ?_⟩
    have := hsplit.split hk
    rw [Multiset.cons_swap, ← Multiset.add_cons, ← Multiset.add_cons] at this
    exact this
  obtain ⟨h2, hc2, L3, K2⟩ := createBlock_layout L2
  obtain ⟨h3, hc3, L4, K3⟩ := createBlock_layout L3
  simp only [Function.update_self, Function.update_idem, Function.update_of_ne hne] at L4
  refine ⟨h3, ?_, L4, ?_⟩
  · have hadd : addr o + 1 <<< (k - 1) = addr (o + 2 ^ (k - 1)) := by
      rw [Nat.one_shiftLeft, addr, addr, Nat.add_assoc]
    simp only [splitBlock, (L.head_eq hl).1, Option.bind_eq_bind, Option.bind_some, hrem, hadd]
    simp only at hc2 hc3
    rw [hc2, Option.bind_some, hc3]
  · have hp := two_pow_pred hk
    have hpos := Nat.two_pow_pos (k - 1)
    refine ((K1.mono ?_).trans (K2.mono ?_)).trans (K3.mono ?_) <;>
      rintro x rfl <;> simp only [Blk.Covers] <;> omega

end SoKernel.Buddy
