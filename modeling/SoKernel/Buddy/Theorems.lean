import SoKernel.Buddy.Invariant

/-!
# The buddy allocator: main theorems

1. `reach_partitioned`: in every reachable state the free blocks and the blocks
   of the live allocations partition the heap, and the counters agree with them.
2. `region_iff`: the allocator stays inside the region it was given exactly when
   the size of the region is a power of two; `main_leaves_region` is the heap of
   `main`, whose size is not.
3. `reach_coalesced`: no two buddies are both free, and when everything has been
   freed the heap is one block again.
4. `alloc_fails_iff`: an allocation fails only when no window of its order is free.
-/

namespace SoKernel.Buddy

open DyadicBlocks

/-! ## 1. The partition -/

/-- What the heap looks like; `l k` are the offsets in `free_blocks[k]`. -/
structure Partitioned (s : St) (l : Nat → List Nat) : Prop where
  /-- Following `next` from `free_blocks[k]` visits exactly `l k`, and ends. -/
  chain : ∀ k, Chain s.heap.mem (s.heap.man.freeBlocks k) (l k)
  /-- Aligned blocks, every address of `[0, 2 ^ max_order)` in exactly one. -/
  tiling : Tiling s.heap.man.maxOrder (freeBlks l + liveBlks s.live)
  free : ∀ k, ∀ o ∈ l k,
    (s.heap.mem (addr o)).order = k ∧ (s.heap.mem (addr o)).status = .FREE
  /-- A block is once in one list only. -/
  once : ∀ k, (l k).Nodup ∧ ∀ o ∈ l k, ∀ j, o ∈ l j → j = k
  live : ∀ a ∈ s.live, a.ptr = addr a.blk.off + sizeofBlock ∧
    (s.heap.mem (addr a.blk.off)).order = a.blk.ord ∧
    (s.heap.mem (addr a.blk.off)).status = .OCCUPIED ∧
    a.bytes + sizeofBlock ≤ 2 ^ a.blk.ord ∧ minOrder ≤ a.blk.ord
  used : (getMemoryInfo s.heap).used = ((liveBlks s.live).map Blk.size).sum
  unused : (getMemoryInfo s.heap).total - (getMemoryInfo s.heap).used =
    ((freeBlks l).map Blk.size).sum
  /-- No two live payloads meet. -/
  disjoint : s.live.Pairwise fun a b => a.ptr + a.bytes ≤ b.ptr ∨ b.ptr + b.bytes ≤ a.ptr

theorem live_blocks_disjoint {M : Nat} {F : Multiset Blk} {live : List Alloc}
    (h : Tiling M (F + liveBlks live)) :
    live.Pairwise fun a b => a.blk.off + 2 ^ a.blk.ord ≤ b.blk.off ∨
      b.blk.off + 2 ^ b.blk.ord ≤ a.blk.off := by
  induction live generalizing F with
  | nil => exact .nil
  | cons a live ih =>
    rw [liveBlks_cons, Multiset.add_cons] at h
    refine .cons (fun b hb => ?_) (ih (F := a.blk ::ₘ F) (by rwa [Multiset.cons_add]))
    rw [liveBlks_erase hb, Multiset.add_cons] at h
    exact h.disjoint

theorem Inv.partitioned {s : St} {l : Nat → List Nat} (I : Inv s l) : Partitioned s l where
  chain := I.layout.chain
  tiling := I.layout.tiling
  free := I.layout.header
  once k := ⟨I.layout.nodup k, fun o ho j hj =>
    congrArg Blk.ord (I.layout.eq_of_off (I.layout.mem_tiling hj) (I.layout.mem_tiling ho) rfl)⟩
  live a ha := ⟨I.ptr a ha, (I.occupied _ (mem_liveBlks ha)).1, (I.occupied _ (mem_liveBlks ha)).2,
    le_two_pow_orderOf _, Nat.le_max_left _ _⟩
  used := I.used
  unused := by
    have hsum := I.layout.tiling.size_sum
    rw [Multiset.map_add, Multiset.sum_add] at hsum
    simp only [getMemoryInfo, I.total, I.used, ← hsum, Nat.add_sub_cancel]
  disjoint := by
    refine (live_blocks_disjoint I.layout.tiling).imp_of_mem fun {a b} ha hb hd => ?_
    have ha1 := I.ptr a ha
    have hb1 := I.ptr b hb
    have ha2 := I.payload_le ha
    have hb2 := I.payload_le hb
    unfold addr at *
    omega

/-- In every state reached by allocations of any size, frees of live pointers and
writes into live payloads, the heap is partitioned; and no such call is ever
undefined. -/
theorem reach_partitioned {mem : Nat → Block} {size : Nat} {s : St} (hr : Reach mem size s) :
    (∃ l, Partitioned s l) ∧ ∀ e : Event, e.Owned s → ∃ s', step s e = some s' := by
  obtain ⟨l, I, _⟩ := reach_inv hr
  refine ⟨⟨l, I.partitioned⟩, fun e he => ?_⟩
  obtain ⟨s', _, hs, _⟩ := step_inv I he
  exact ⟨s', hs⟩

/-- Memory that holds zeros. -/
def zeroMem : Nat → Block := fun _ => ⟨0, .FREE, none⟩

theorem exists_run {mem : Nat → Block} {size : Nat} {es : List Event}
    (h : ((createMemoryManager mem heapStartAddress size).bind fun h0 =>
      Run.exec step (fun s e => e.Owned s) ⟨h0, []⟩ es).isSome = true) :
    ∃ h0 s, createMemoryManager mem heapStartAddress size = some h0 ∧
      Run.exec step (fun s e => e.Owned s) ⟨h0, []⟩ es = some s := by
  obtain ⟨s, hs⟩ := Option.isSome_iff_exists.mp h
  obtain ⟨h0, hc, hrun⟩ := Option.bind_eq_some_iff.mp hs
  exact ⟨h0, s, hc, hrun⟩

/-- The heap of `main` after two allocations, a write over a stale header in the
second payload, and a free. -/
theorem reach_partitioned_main :
    ∃ h0 s, createMemoryManager zeroMem heapStartAddress heapSize = some h0 ∧
      Run.exec step (fun s e => e.Owned s) ⟨h0, []⟩
        [.alloc 100, .alloc 1000, .write ⟨6292496, 1000⟩ 6292608 ⟨6, .FREE, none⟩,
          .free ⟨6291472, 100⟩] = some s ∧
      ∃ l, Partitioned s l := by
  obtain ⟨h0, s, hc, hrun⟩ := @exists_run zeroMem heapSize
    [.alloc 100, .alloc 1000, .write ⟨6292496, 1000⟩ 6292608 ⟨6, .FREE, none⟩,
      .free ⟨6291472, 100⟩] (by decide +kernel)
  exact ⟨h0, s, hc, hrun, (reach_partitioned ⟨h0, hc, Run.of_exec hrun⟩).1⟩

/-! ## 2. The region -/

/-- Every address handed out lies in `[start, start + size)` with its payload,
and the total reported is at most `size`. -/
def InRegion (size : Nat) (s : St) : Prop :=
  (∀ n h' p, allocMemory s.heap n = some (h', some p) →
    heapStartAddress ≤ p ∧ p + n ≤ heapStartAddress + size) ∧
  (getMemoryInfo s.heap).total ≤ size

theorem Inv.in_range {s : St} {l : Nat → List Nat} (I : Inv s l) {n p : Nat} {h' : Heap}
    (ha : allocMemory s.heap n = some (h', some p)) :
    heapStartAddress ≤ p ∧ p + n ≤ heapStartAddress + 2 ^ s.heap.man.maxOrder := by
  rcases allocMemory_cases I.layout I.noBuddies n with ⟨h0, _⟩ | ⟨_, _, h1, o, l', h1eq, T⟩
  · rw [h0] at ha
    cases ha
  · rw [h1eq] at ha
    obtain ⟨rfl, rfl⟩ : h1 = h' ∧ addr o + sizeofBlock = p := by simpa using ha
    have hin : o + 2 ^ orderOf n ≤ 2 ^ h1.man.maxOrder :=
      T.layout.tiling.inside ⟨o, orderOf n⟩ (by simp)
    rw [T.max] at hin
    have hn := le_two_pow_orderOf n
    unfold addr
    omega

/-- For every size `createMemoryManager` accepts: the allocator stays in its
region in every run exactly when the size is a power of two. -/
theorem region_iff {mem : Nat → Block} {size : Nat} {h0 : Heap}
    (hc : createMemoryManager mem heapStartAddress size = some h0) :
    (∀ s, Run step (fun s e => e.Owned s) ⟨h0, []⟩ s → InRegion size s) ↔ ∃ k, size = 2 ^ k := by
  constructor
  · intro hall
    obtain ⟨I0, hmax⟩ := create_inv hc
    refine ⟨Nat.clog 2 size, Nat.le_antisymm (Nat.le_pow_clog Nat.one_lt_two _) ?_⟩
    have htotal := (hall _ .refl).2
    rwa [getMemoryInfo, I0.total, hmax] at htotal
  · rintro ⟨k, rfl⟩ s hrun
    obtain ⟨l, I, hmax⟩ := reach_inv ⟨h0, hc, hrun⟩
    rw [Nat.clog_pow 2 k Nat.one_lt_two] at hmax
    refine ⟨fun n h' p ha => hmax ▸ I.in_range ha, ?_⟩
    rw [getMemoryInfo, I.total, hmax]

theorem region_iff_64K :
    ∃ h0, createMemoryManager zeroMem heapStartAddress (2 ^ 16) = some h0 ∧
      ((∀ s, Run step (fun s e => e.Owned s) ⟨h0, []⟩ s → InRegion (2 ^ 16) s) ↔
        ∃ k, 2 ^ 16 = 2 ^ k) := by
  have hdef : (createMemoryManager zeroMem heapStartAddress (2 ^ 16)).isSome = true := by decide
  obtain ⟨h0, hc⟩ := Option.isSome_iff_exists.mp hdef
  exact ⟨h0, hc, region_iff hc⟩

theorem exists_outside {mem : Nat → Block} {size n : Nat} {es : List Event}
    (h : (((createMemoryManager mem heapStartAddress size).bind fun h0 =>
      Run.exec step (fun s e => e.Owned s) ⟨h0, []⟩ es).bind fun s =>
        (allocMemory s.heap n).bind fun r => r.2.filter fun p =>
          decide (heapStartAddress + size < p + n ∧ size < (getMemoryInfo s.heap).total)).isSome =
        true) :
    ∃ h0 s h' p, createMemoryManager mem heapStartAddress size = some h0 ∧
      Run step (fun s e => e.Owned s) ⟨h0, []⟩ s ∧ allocMemory s.heap n = some (h', some p) ∧
      heapStartAddress + size < p + n ∧ size < (getMemoryInfo s.heap).total := by
  obtain ⟨p, hp⟩ := Option.isSome_iff_exists.mp h
  obtain ⟨s, hs, hp⟩ := Option.bind_eq_some_iff.mp hp
  obtain ⟨h0, hc, hrun⟩ := Option.bind_eq_some_iff.mp hs
  obtain ⟨⟨h', r⟩, ha, hp⟩ := Option.bind_eq_some_iff.mp hp
  obtain ⟨rfl, hout⟩ := Option.filter_eq_some_iff.mp hp
  exact ⟨h0, s, h', p, hc, Run.of_exec hrun, ha, of_decide_eq_true hout⟩

/-- The heap of `main`: the second allocation of half the rounded total ends past
`HEAP_END_ADDRESS`, and the total reported is larger than `HEAP_SIZE`. -/
theorem main_leaves_region :
    ∃ h0 s h' p, createMemoryManager zeroMem heapStartAddress heapSize = some h0 ∧
      Run step (fun s e => e.Owned s) ⟨h0, []⟩ s ∧
      allocMemory s.heap 268435440 = some (h', some p) ∧
      heapStartAddress + heapSize < p + 268435440 ∧
      heapSize < (getMemoryInfo s.heap).total := by
  refine @exists_outside _ _ _ [.alloc 268435440] ?_
  decide

/-! ## 3. Coalescing -/

/-- In every reachable state no two buddies are both free; when no allocation is
live, the free lists hold one block of order `max_order` at the heap start. -/
theorem reach_coalesced {mem : Nat → Block} {size : Nat} {s : St} (hr : Reach mem size s) :
    ∃ l, (∀ k, Chain s.heap.mem (s.heap.man.freeBlocks k) (l k)) ∧
      (∀ b ∈ freeBlks l, b.ord < s.heap.man.maxOrder → b.buddy ∉ freeBlks l) ∧
      (s.live = [] → (∀ k, l k = if k = s.heap.man.maxOrder then [0] else []) ∧
        s.heap.man.usedMem = 0) := by
  obtain ⟨l, I, _⟩ := reach_inv hr
  refine ⟨l, I.layout.chain, I.noBuddies, fun hlive => ?_⟩
  have hzero : liveBlks s.live = 0 := by rw [hlive]; rfl
  have hT := I.layout.tiling
  rw [hzero, add_zero] at hT
  have hroot := hT.eq_root I.noBuddies
  refine ⟨fun k => ?_, by rw [I.used, hzero]; rfl⟩
  have hmem : ∀ o, o ∈ l k ↔ o = 0 ∧ k = s.heap.man.maxOrder := by
    intro o
    constructor
    · intro ho
      have h := I.layout.mem_free ho
      rw [hroot, Multiset.mem_singleton] at h
      exact Blk.mk.inj h
    · rintro ⟨rfl, rfl⟩
      have h : (⟨0, s.heap.man.maxOrder⟩ : Blk) ∈ freeBlks l := by rw [hroot]; simp
      exact (mem_freeBlks.mp h).2
  have hnd := I.layout.nodup k
  split
  · next hk =>
    refine List.perm_singleton.mp ((List.perm_ext_iff_of_nodup hnd (by simp)).mpr fun o => ?_)
    rw [hmem o, List.mem_singleton]
    exact ⟨And.left, fun h => ⟨h, hk⟩⟩
  · next hk => exact List.eq_nil_iff_forall_not_mem.mpr fun o ho => hk ((hmem o).mp ho).2

/-- Three allocations of the heap of `main`, freed in another order. -/
theorem reach_coalesced_main :
    ∃ h0 s, createMemoryManager zeroMem heapStartAddress heapSize = some h0 ∧
      Run.exec step (fun s e => e.Owned s) ⟨h0, []⟩
        [.alloc 100, .alloc 20, .alloc 5000, .free ⟨6291600, 20⟩, .free ⟨6291472, 100⟩,
          .free ⟨6299664, 5000⟩] = some s ∧
      ∃ l, (∀ k, Chain s.heap.mem (s.heap.man.freeBlocks k) (l k)) ∧
        (∀ b ∈ freeBlks l, b.ord < s.heap.man.maxOrder → b.buddy ∉ freeBlks l) ∧
        (s.live = [] → (∀ k, l k = if k = s.heap.man.maxOrder then [0] else []) ∧
          s.heap.man.usedMem = 0) := by
  obtain ⟨h0, s, hc, hrun⟩ := @exists_run zeroMem heapSize
    [.alloc 100, .alloc 20, .alloc 5000, .free ⟨6291600, 20⟩, .free ⟨6291472, 100⟩,
      .free ⟨6299664, 5000⟩] (by decide +kernel)
  exact ⟨h0, s, hc, hrun, reach_coalesced ⟨h0, hc, Run.of_exec hrun⟩⟩

/-! ## 4. When an allocation fails -/

/-- An aligned window of the managed range that meets no live block. Offsets are taken from
the start of the heap, as `split_block` and `freeMemory` take them. -/
structure FreeWindow (s : St) (w : Blk) : Prop where
  aligned : w.Aligned
  inside : w.off + 2 ^ w.ord ≤ 2 ^ s.heap.man.maxOrder
  free : ∀ a ∈ s.live, ∀ x, w.Covers x → ¬ a.blk.Covers x

/-- A free window lies in one free block: merging leaves no two free buddies in it. -/
theorem Inv.covers_window {s : St} {l : Nat → List Nat} (I : Inv s l) {w : Blk}
    (W : FreeWindow s w) : ∃ j o, w.ord ≤ j ∧ o ∈ l j := by
  have hT := I.layout.tiling
  -- a block of the heap that meets the window is not live
  have hfree : ∀ b ∈ freeBlks l + liveBlks s.live, ∀ x, w.Covers x → b.Covers x →
      b ∈ freeBlks l := by
    intro b hb x hwx hbx
    refine (Multiset.mem_add.mp hb).resolve_right fun hlive => ?_
    obtain ⟨a, ha, rfl⟩ := List.mem_map.mp (Multiset.mem_coe.mp hlive)
    exact W.free a ha x hwx hbx
  have hle : w.ord ≤ s.heap.man.maxOrder :=
    (Nat.pow_le_pow_iff_right Nat.one_lt_two).mp (Nat.le_trans (Nat.le_add_left _ _) W.inside)
  obtain ⟨b, hb, hord, hcov⟩ := hT.covers_window W.aligned W.inside fun b hb hlt hbw hbud hmem =>
    I.noBuddies b (hfree b hb b.off hbw (covers_off b)) (Nat.lt_of_lt_of_le hlt hle)
      (hfree b.buddy hmem b.buddy.off hbud (covers_off b.buddy))
  have hmem := hfree b hb w.off (covers_off w) hcov
  exact ⟨b.ord, b.off, hord, (mem_freeBlks.mp hmem).2⟩

/-- The block a request was served with is a window that was free before. -/
theorem Taken.freeWindow {s : St} {l l' : Nat → List Nat} {h' : Heap} {k o : Nat}
    (T : Taken s.heap l (liveBlks s.live) k h' o l') : FreeWindow s ⟨o, k⟩ := by
  have hT := T.layout.tiling
  have hmem : (⟨o, k⟩ : Blk) ∈ freeBlks l' + ⟨o, k⟩ ::ₘ liveBlks s.live := by simp
  refine ⟨hT.aligned _ hmem, T.max ▸ hT.inside _ hmem, fun a ha x hx hax => ?_⟩
  have hlive : a.blk ∈ freeBlks l' + ⟨o, k⟩ ::ₘ liveBlks s.live := by simp [mem_liveBlks ha]
  have heq := hT.eq_of_covers hlive hmem hax hx
  rw [Multiset.add_cons] at hT
  exact hT.not_mem_of_cons (heq ▸ Multiset.mem_add.mpr (.inr (mem_liveBlks ha)))

/-- In every reachable state a request of `1` to `HEAP_SIZE` bytes returns `NULL` exactly when
no window of its order is free, and then it changes nothing. -/
theorem alloc_fails_iff {mem : Nat → Block} {size n : Nat} {s : St} (hr : Reach mem size s)
    (h1 : 1 ≤ n) (h2 : n ≤ heapSize) :
    ∃ h' r, allocMemory s.heap n = some (h', r) ∧
      (r = none ↔ ¬ ∃ w : Blk, w.ord = orderOf n ∧ FreeWindow s w) ∧ (r = none → h' = s.heap) := by
  obtain ⟨l, I, _⟩ := reach_inv hr
  rcases allocMemory_cases I.layout I.noBuddies n with ⟨hnull, hwhy⟩ | ⟨_, _, h', o, l', hsome, T⟩
  · refine ⟨s.heap, none, hnull, iff_of_true rfl ?_, fun _ => rfl⟩
    rintro ⟨w, hord, W⟩
    obtain ⟨j, o, hj, ho⟩ := I.covers_window W
    rcases hwhy with rfl | hbig | hempty
    · exact absurd h1 (Nat.not_succ_le_zero 0)
    · exact absurd h2 (Nat.not_le.mpr hbig)
    · rw [hempty j (hord ▸ hj)] at ho
      exact List.not_mem_nil ho
  · exact ⟨h', _, hsome, iff_of_false (Option.some_ne_none _) (not_not.mpr
      ⟨_, rfl, T.freeWindow⟩), fun hr => absurd hr (Option.some_ne_none _)⟩

/-- The heap of `main` with half of it live: the other half is no room for a request of as
many bytes as a half has. -/
theorem alloc_fails_iff_main :
    ∃ h0 s, createMemoryManager zeroMem heapStartAddress heapSize = some h0 ∧
      Run.exec step (fun s e => e.Owned s) ⟨h0, []⟩ [.alloc 268435440] = some s ∧
      ∃ h' r, allocMemory s.heap 268435456 = some (h', r) ∧
        (r = none ↔ ¬ ∃ w : Blk, w.ord = orderOf 268435456 ∧ FreeWindow s w) ∧
        (r = none → h' = s.heap) := by
  obtain ⟨h0, s, hc, hrun⟩ := @exists_run zeroMem heapSize [.alloc 268435440] (by decide +kernel)
  exact ⟨h0, s, hc, hrun, alloc_fails_iff ⟨h0, hc, Run.of_exec hrun⟩ (by decide) (by decide)⟩

end SoKernel.Buddy
