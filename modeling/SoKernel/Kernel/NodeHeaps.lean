import SoKernel.Kernel.NodeMoves
import SoKernel.Buddy.Theorems
import SoKernel.Bitmap.Theorems

/-!
# Queues in the heap of either allocator

Both allocators refill: the block a node leaves serves the next request for a node, in every
state of the heap.

Results:
1. `Buddy.refills`: after a free some list has a block of the order of a node, or of a larger
   one that is split.
2. `Bitmap.refills`: after a free some cell is free, and the search finds one from every
   position.
3. `reach_lossless`: no move between the queues loses a process, in the heap of either.
-/

namespace SoKernel

/-! ## The buddy allocator -/

namespace Buddy

open DyadicBlocks

/-- A chunk as a live allocation. -/
def ofChunk (c : Chunk) : Alloc := ⟨c.address, c.bytes⟩

/-- A write into a payload: `image` gives what every header image that meets it becomes. -/
def writeChunk (image : St → Nat → Block) (s : St) (c : Chunk) : St :=
  (List.range (c.bytes + 15)).foldl (fun s i =>
    { s with heap := s.heap.setBlock (c.address + i - 15) (image s i) }) s

/-- The buddy allocator under its users. -/
def allocator (image : St → Nat → Block) : Allocator St Event where
  alloc s n := do
    let (h, r) ← allocMemory s.heap n
    match r with
    | none => some ({ s with heap := h }, none)
    | some p => some ({ heap := h, live := ⟨p, n⟩ :: s.live }, some p)
  free s c := step s (.free (ofChunk c))
  touch := writeChunk image
  user := step

/-- The chunks are live allocations of a reachable state. -/
def Holds (mem : Nat → Block) (size : Nat) (s : St) (cs : Multiset Chunk) : Prop :=
  Reach mem size s ∧ cs.map ofChunk ≤ (s.live : Multiset Alloc)

/-- Some list has a block for a node, as it is or to be split. -/
def Spare (s : St) : Prop := ∃ l, Inv s l ∧ ∃ j, orderOf sizeofNode ≤ j ∧ l j ≠ []

/-- A step of a user that owns what it frees and writes, and not the chunks. -/
def Admits (s : St) (cs : Multiset Chunk) (e : Event) : Prop :=
  e.Owned s ∧ match e with
    | .alloc _ => True
    | .free a => a ∉ cs.map ofChunk
    | .write a _ _ => a ∉ cs.map ofChunk

instance (s : St) (cs : Multiset Chunk) : (e : Event) → Decidable (Admits s cs e)
  | .alloc _ => inferInstanceAs (Decidable (_ ∧ True))
  | .free a => inferInstanceAs (Decidable (_ ∧ a ∉ cs.map ofChunk))
  | .write a _ _ => inferInstanceAs (Decidable (_ ∧ a ∉ cs.map ofChunk))

section

variable {mem : Nat → Block} {size : Nat} {s s' : St} {cs : Multiset Chunk} {c : Chunk}
  {image : St → Nat → Block} {e : Event} {l l' : Nat → List Nat} {O : Multiset Blk}

theorem Reach.step (hr : Reach mem size s) (he : e.Owned s) (hs : step s e = some s') :
    Reach mem size s' := by
  obtain ⟨h0, hc, hrun⟩ := hr
  exact ⟨h0, hc, .snoc e hrun he hs⟩

theorem Holds.live (hh : Holds mem size s cs) (hc : c ∈ cs) : ofChunk c ∈ s.live :=
  Multiset.mem_coe.mp (Multiset.mem_of_le hh.2 (Multiset.mem_map_of_mem _ hc))

theorem Holds.inv (hh : Holds mem size s cs) : ∃ l, Inv s l := by
  obtain ⟨l, I, _⟩ := reach_inv hh.1
  exact ⟨l, I⟩

/-- What every write of a header image keeps holds after the write of a chunk. -/
theorem writeChunk_keeps {P : St → Prop} (h0 : P s)
    (hP : ∀ {t i x}, i < c.bytes + 15 → P t →
      P { t with heap := t.heap.setBlock (c.address + i - 15) x }) : P (writeChunk image s c) := by
  have hfold : ∀ {is : List Nat} {t : St}, (∀ i ∈ is, i < c.bytes + 15) → P t →
      P (is.foldl (fun s i =>
        { s with heap := s.heap.setBlock (c.address + i - 15) (image s i) }) t) := by
    intro is
    induction is with
    | nil => exact fun _ h => h
    | cons i is ih =>
      intro t hi ht
      exact ih (fun j hj => hi j (List.mem_cons_of_mem _ hj)) (hP (hi i List.mem_cons_self) ht)
  exact hfold (fun i hi => List.mem_range.mp hi) h0

/-- The header images a chunk meets are those a user may write. -/
theorem write_meets {a : Alloc} (I : Inv s l) (ha : a ∈ s.live) {i : Nat} (hi : i < a.bytes + 15) :
    a.ptr < a.ptr + i - 15 + sizeofBlock ∧ a.ptr + i - 15 < a.ptr + a.bytes := by
  have hptr := I.ptr a ha
  simp only [addr, heapStartAddress, sizeofBlock] at *
  omega

theorem Holds.touch (hh : Holds mem size s cs) (hc : c ∈ cs) :
    Holds mem size (writeChunk image s c) cs := by
  have hlive := hh.live hc
  refine writeChunk_keeps (P := fun t => Holds mem size t cs) hh ?_
  intro t i x hi ht
  obtain ⟨l, I⟩ := ht.inv
  have hmeets := write_meets I (ht.live hc) hi
  exact ⟨ht.1.step (e := .write (ofChunk c) _ x) ⟨ht.live hc, hmeets⟩ rfl, ht.2⟩

theorem Spare.touch (hh : Holds mem size s cs) (hc : c ∈ cs) (hs : Spare s) :
    Spare (writeChunk image s c) := by
  refine (writeChunk_keeps (P := fun t => Spare t ∧ ofChunk c ∈ t.live) ⟨hs, hh.live hc⟩ ?_).1
  rintro t i x hi ⟨⟨l, I, hl⟩, hlive⟩
  have hmeets := write_meets I hlive hi
  exact ⟨⟨l, write_inv I hlive hmeets.1 hmeets.2 x, hl⟩, hlive⟩

/-! ### A freed node is room -/

theorem Merges.ord_le {h h' : Heap} {b b' : Blk} (M : Merges O h l b h' l' b') : b.ord ≤ b'.ord := by
  induction M with
  | refl => exact Nat.le_refl _
  | round _ _ _ _ _ _ ih => exact Nat.le_trans (Nat.le_succ _) ih

/-- The freed block, or the larger one it has gone into, starts a list. -/
theorem Freed.spare {h h' : Heap} {b : Blk} (F : Freed O h l b h' l') :
    ∃ j, b.ord ≤ j ∧ l' j ≠ [] := by
  obtain ⟨_, _, l2, c, _, _, _, _, hM, rfl, _⟩ := F.rounds
  refine ⟨c.ord, hM.ord_le, ?_⟩
  rw [Function.update_self]
  exact List.cons_ne_nil _ _

theorem Holds.free (hh : Holds mem size s (c ::ₘ cs)) (hb : c.bytes = sizeofNode) :
    ∃ s', step s (.free (ofChunk c)) = some s' ∧ Holds mem size s' cs ∧ Spare s' := by
  have hlive := hh.live (Multiset.mem_cons_self c cs)
  obtain ⟨l, I⟩ := hh.inv
  obtain ⟨h', l', hf, I', _, F⟩ := freeMemory_inv I hlive
  have hs : step s (.free (ofChunk c)) = some ⟨h', s.live.erase (ofChunk c)⟩ := by
    simp only [step, hf, Option.bind_eq_bind, Option.bind_some]
  refine ⟨_, hs, ⟨hh.1.step (e := .free _) hlive hs, ?_⟩, l', I', ?_⟩
  · have hle := Multiset.erase_le_erase (ofChunk c) hh.2
    rwa [Multiset.map_cons, Multiset.erase_cons_head, Multiset.coe_erase] at hle
  · have hord : (ofChunk c).blk.ord = orderOf sizeofNode := congrArg orderOf hb
    exact hord ▸ F.spare

theorem Holds.alloc (hh : Holds mem size s cs) :
    ∃ s' r, (allocator image).alloc s sizeofNode = some (s', r) ∧
      match r with
      | none => Holds mem size s' cs
      | some a => Holds mem size s' (⟨a, sizeofNode⟩ ::ₘ cs) := by
  obtain ⟨l, I⟩ := hh.inv
  rcases allocMemory_cases I.layout I.noBuddies sizeofNode with
    ⟨h0, _⟩ | ⟨_, _, h', o, _, h1, _⟩
  · exact ⟨s, none, by simp only [allocator, h0, Option.bind_eq_bind, Option.bind_some], hh⟩
  · have hs : step s (.alloc sizeofNode) =
        some ⟨h', ⟨addr o + sizeofBlock, sizeofNode⟩ :: s.live⟩ := by
      simp only [step, h1, Option.bind_eq_bind, Option.bind_some]
    refine ⟨_, some _, by
      simp only [allocator, h1, Option.bind_eq_bind, Option.bind_some]
      rfl, hh.1.step (e := .alloc _) trivial hs, ?_⟩
    rw [Multiset.map_cons, ← Multiset.cons_coe]
    exact Multiset.cons_le_cons _ hh.2

theorem Spare.answers (hs : Spare s) :
    (allocator image).alloc s sizeofNode ≠ some (s', none) := by
  obtain ⟨l, I, j, hj, hne⟩ := hs
  rcases allocMemory_cases I.layout I.noBuddies sizeofNode with
    ⟨_, h0⟩ | ⟨_, _, h', o, _, h1, _⟩
  · rcases h0 with h0 | h0 | h0
    · exact absurd h0 (by decide)
    · exact absurd h0 (by decide)
    · exact absurd (h0 j hj) hne
  · simp [allocator, h1]

theorem Holds.user (hh : Holds mem size s cs) (he : Admits s cs e) (hs : step s e = some s') :
    Holds mem size s' cs := by
  refine ⟨hh.1.step he.1 hs, ?_⟩
  cases e with
  | alloc n =>
    obtain ⟨⟨h', r⟩, _, hr⟩ := Option.bind_eq_some_iff.mp hs
    cases r with
    | none => exact Option.some.inj hr ▸ hh.2
    | some p =>
      obtain rfl := Option.some.inj hr
      exact hh.2.trans (Multiset.coe_le.mpr (List.sublist_cons_self _ _).subperm)
  | free a =>
    obtain ⟨h', _, hr⟩ := Option.bind_eq_some_iff.mp hs
    obtain rfl := Option.some.inj hr
    have hle := Multiset.erase_le_erase a hh.2
    rwa [Multiset.erase_of_notMem he.2, Multiset.coe_erase] at hle
  | write a x image =>
    obtain rfl := Option.some.inj hs
    exact hh.2

theorem refills (image : St → Nat → Block) (mem : Nat → Block) (size : Nat) :
    (allocator image).Refills sizeofNode (Holds mem size) Spare Admits where
  alloc := Holds.alloc
  free := Holds.free
  touch := Holds.touch
  still hh hc hs := Spare.touch hh hc hs
  answers _ hs := hs.answers
  user := Holds.user

end

end Buddy

/-! ## The bitmap allocator -/

namespace Bitmap

/-- The bitmap allocator; its table lies outside the blocks, so that no write reaches it. -/
def allocator : Allocator MemoryManager Event where
  alloc m n := (allocMemory m n).map fun r => (r.1, if r.2 = 0 then none else some r.2)
  free m c := freeMemory m c.address
  touch m _ := m
  user := step

/-- The cell of a chunk, a group of one. -/
def cell (m : MemoryManager) (c : Chunk) : Nat × Nat := (m.blockIndex c.address, 1)

/-- The chunks are single blocks of a reachable table. -/
def Holds (table : Nat → Cell) (start size : Nat) (m : MemoryManager) (cs : Multiset Chunk) :
    Prop :=
  Reach table start size m ∧
    (∃ gs, Layout m gs ∧ cs.map (cell m) ≤ (gs : Multiset (Nat × Nat))) ∧
    ∀ c ∈ cs, c.address = m.start + m.blockIndex c.address * blockSize

/-- Some cell is free. -/
def Spare (m : MemoryManager) : Prop := HasFreeRun m 1

/-- Others may make any call but the free of a block of the chunks. -/
def Admits (m : MemoryManager) (cs : Multiset Chunk) : Event → Prop
  | .alloc _ => True
  | .free p => ∀ c ∈ cs, m.blockIndex p ≠ m.blockIndex c.address

instance (m : MemoryManager) (cs : Multiset Chunk) : (e : Event) → Decidable (Admits m cs e)
  | .alloc _ => inferInstanceAs (Decidable True)
  | .free p => inferInstanceAs (Decidable (∀ c ∈ cs, m.blockIndex p ≠ m.blockIndex c.address))

section

variable {table : Nat → Cell} {start size n i : Nat} {m m' : MemoryManager}
  {cs : Multiset Chunk} {c : Chunk} {e : Event} {gs gs' : List (Nat × Nat)}

/-- A node fits into a cell, and so does a record. -/
theorem node_one : sizeToBlockQty sizeofNode = 1 := by decide

theorem queue_one : sizeToBlockQty sizeofQueue = 1 := by decide

/-- The blocks are where they were when the groups of the chunks are still there. -/
theorem Holds.of_layout (hh : Holds table start size m cs) (hr : Reach table start size m')
    (hstart : m'.start = m.start) (L : Layout m' gs)
    (hsub : cs.map (cell m) ≤ (gs : Multiset (Nat × Nat))) : Holds table start size m' cs := by
  have hindex : m'.blockIndex = m.blockIndex := by
    funext a
    simp only [MemoryManager.blockIndex, hstart]
  have hcell : cell m' = cell m := by
    funext c
    simp only [cell, hindex]
  exact ⟨hr, ⟨gs, L, hcell ▸ hsub⟩, hstart ▸ hindex ▸ hh.2.2⟩

theorem Holds.free (hh : Holds table start size m (c ::ₘ cs)) :
    ∃ m', freeMemory m c.address = some m' ∧ Holds table start size m' cs ∧ Spare m' := by
  obtain ⟨hr, ⟨gs, L, hsub⟩, haddr⟩ := hh
  have hc := haddr c (Multiset.mem_cons_self _ _)
  have hg : (m.blockIndex c.address, 1) ∈ gs := by
    rw [Multiset.map_cons] at hsub
    exact Multiset.mem_coe.mp (Multiset.mem_of_le hsub (Multiset.mem_cons_self _ _))
  have hle : m.start ≤ c.address := hc ▸ Nat.le_add_right _ _
  have hpos : c.address ≠ 0 := Nat.ne_of_gt (Nat.lt_of_lt_of_le L.start_pos hle)
  have hmod : c.address % blockSize = 0 := by
    rw [hc, Nat.add_mul_mod_self_right, L.aligned]
  have hfree := freeMemory_group L hg (not_or.mpr ⟨hpos, not_not.mpr hmod⟩) hle
  obtain ⟨gs', hgs, L'⟩ := L.free hg
  refine ⟨_, hfree, Holds.of_layout (m := m) ⟨hr, ⟨gs, L, ?_⟩, ?_⟩ ?_ rfl L' ?_, ?_⟩
  · exact (Multiset.map_le_map (Multiset.le_cons_self cs c)).trans hsub
  · exact fun d hd => haddr d (Multiset.mem_cons_of_mem hd)
  · exact hr.snoc (.free c.address) trivial hfree
  · rw [Multiset.map_cons, Multiset.coe_eq_coe.mpr hgs, ← Multiset.cons_coe] at hsub
    exact Multiset.cons_le_cons_iff _ |>.mp hsub
  · -- the cell of the chunk is free now
    refine ⟨m.blockIndex c.address, (L.cut.bounds hg).2.1, fun x h1 h2 => ?_⟩
    exact clear_inside h1 h2

theorem alloc_eq {r : Nat} (h : allocMemory m n = some (m', r)) :
    allocator.alloc m n = some (m', if r = 0 then none else some r) := by
  simp only [allocator, h, Option.map_some]

theorem Holds.alloc (hn : sizeToBlockQty n = 1) (hh : Holds table start size m cs) :
    ∃ m' r, allocator.alloc m n = some (m', r) ∧
      match r with
      | none => Holds table start size m' cs
      | some a => Holds table start size m' (⟨a, n⟩ ::ₘ cs) := by
  obtain ⟨gs, L, hsub⟩ := hh.2.1
  rcases allocMemory_cases L (hn ▸ Nat.one_pos) with ⟨h0, _⟩ | ⟨a, hnext, h1⟩
  · exact ⟨m, none, alloc_eq h0, hh⟩
  · obtain ⟨_, ha, hf⟩ := hnext.mem
    have hpos : m.start + a * blockSize ≠ 0 :=
      Nat.ne_of_gt (Nat.lt_of_lt_of_le L.start_pos (Nat.le_add_right _ _))
    have hidx := L.blockIndex (i := a) (by omega)
    obtain ⟨gs', hgs, L'⟩ := L.alloc (hn ▸ Nat.one_pos) ha hf
    have hr := hh.1.snoc (.alloc n) trivial (by rw [step, h1]; rfl)
    refine ⟨_, some (m.start + a * blockSize), by rw [alloc_eq h1, if_neg hpos], ?_⟩
    refine ⟨hr, ⟨gs', L', ?_⟩, ?_⟩
    · rw [Multiset.map_cons, Multiset.coe_eq_coe.mpr hgs, ← Multiset.cons_coe]
      have hnew : cell m ⟨m.start + a * blockSize, n⟩ = (a, sizeToBlockQty n) := by
        rw [hn]
        exact congrArg (·, 1) hidx
      exact hnew ▸ Multiset.cons_le_cons _ hsub
    · intro d hd
      rcases Multiset.mem_cons.mp hd with rfl | hd
      · exact congrArg (fun i => m.start + i * blockSize) hidx.symm
      · exact hh.2.2 d hd

theorem Holds.alloc_some {a : Nat} (hn : sizeToBlockQty n = 1) (hh : Holds table start size m cs)
    (ha : allocator.alloc m n = some (m', some a)) : Holds table start size m' (⟨a, n⟩ ::ₘ cs) := by
  obtain ⟨m1, r, ha', hr⟩ := hh.alloc hn
  obtain ⟨rfl, rfl⟩ := Prod.mk.inj (Option.some.inj (ha.symm.trans ha'))
  exact hr

/-- A new table, of which nothing is held. -/
theorem holds_create : Holds table start size (createMemoryManager table start size) 0 :=
  ⟨.refl, ⟨[], create_layout, Multiset.zero_le _⟩, fun _ hc => absurd hc (Multiset.notMem_zero _)⟩

theorem Spare.answers (hh : Holds table start size m cs) (hs : Spare m) :
    allocator.alloc m sizeofNode ≠ some (m', none) := by
  obtain ⟨gs, L, _⟩ := hh.2.1
  rcases allocMemory_cases L (node_one ▸ Nat.one_pos) with ⟨_, hno⟩ | ⟨a, _, h1⟩
  · obtain ⟨a, ha, hf⟩ := hs
    rw [node_one] at hno
    exact absurd hf (windows_eq_empty.mp hno a ha)
  · have hpos : m.start + a * blockSize ≠ 0 :=
      Nat.ne_of_gt (Nat.lt_of_lt_of_le L.start_pos (Nat.le_add_right _ _))
    rw [alloc_eq h1, if_neg hpos]
    simp

theorem Holds.user (hh : Holds table start size m cs) (he : Admits m cs e)
    (hs : step m e = some m') : Holds table start size m' cs := by
  have hr := hh.1.snoc e trivial hs
  obtain ⟨gs, L, hsub⟩ := hh.2.1
  cases e with
  | alloc n =>
    obtain ⟨⟨m1, p⟩, ha, rfl⟩ := Option.map_eq_some_iff.mp hs
    rcases Nat.eq_zero_or_pos (sizeToBlockQty n) with h0 | hn
    · rw [allocMemory_zero L h0] at ha
      split at ha
      · obtain ⟨rfl, _⟩ := Prod.mk.inj (Option.some.inj ha)
        exact hh
      · cases ha
    · rcases allocMemory_cases L hn with ⟨h0, _⟩ | ⟨a, hnext, h1⟩
      · obtain ⟨rfl, _⟩ := Prod.mk.inj (Option.some.inj (h0.symm.trans ha))
        exact hh
      · obtain ⟨gs', hgs, L'⟩ := L.alloc hn hnext.mem.2.1 hnext.mem.2.2
        obtain ⟨rfl, _⟩ := Prod.mk.inj (Option.some.inj (h1.symm.trans ha))
        refine hh.of_layout hr rfl L' ?_
        rw [Multiset.coe_eq_coe.mpr hgs, ← Multiset.cons_coe]
        exact hsub.trans (Multiset.le_cons_self _ _)
  | free p =>
    rcases freeMemory_cases L hs with rfl | ⟨n, hg, rfl⟩
    · exact hh
    · obtain ⟨gs', hgs, L'⟩ := L.free hg
      refine hh.of_layout hr rfl L' ?_
      -- the group that goes is none of the chunks
      have hnot : (m.blockIndex p, n) ∉ cs.map (cell m) := by
        intro hmem
        obtain ⟨c, hc, hcell⟩ := Multiset.mem_map.mp hmem
        exact he c hc (congrArg Prod.fst hcell).symm
      have hle := Multiset.erase_le_erase (m.blockIndex p, n) hsub
      rwa [Multiset.erase_of_notMem hnot, Multiset.coe_eq_coe.mpr hgs, ← Multiset.cons_coe,
        Multiset.erase_cons_head] at hle

theorem refills (table : Nat → Cell) (start size : Nat) :
    allocator.Refills sizeofNode (Holds table start size) Spare Admits where
  alloc := Holds.alloc node_one
  free hh _ := hh.free
  touch hh _ := hh
  still _ _ hs := hs
  answers := Spare.answers
  user := Holds.user

end

end Bitmap

/-! ## The queues -/

namespace NodeQueues

universe u v

/-- The queues as they are created: four records and no node. -/
def opened {σ : Type u} (mem : σ) (record : QueueName → Nat) : NodeQueues σ :=
  ⟨mem, record, fun _ => []⟩

/-- In every state either allocator reaches, with any number of allocations and frees of its
users in between and with or without memory left: every move between the queues and every
rotation of the ready queue ends with the process in the target queue. -/
theorem reach_lossless :
    (∀ {image : Buddy.St → Nat → Buddy.Block} {mem : Nat → Buddy.Block} {size : Nat}
        {s : Buddy.St} {record : QueueName → Nat} {h : NodeQueues Buddy.St},
        (opened s record).Held (Buddy.Holds mem size) →
        Reach (Buddy.allocator image) Buddy.Admits (opened s record) h →
        Lossless (Buddy.allocator image) h) ∧
      ∀ {table : Nat → Bitmap.Cell} {start size : Nat} {m : Bitmap.MemoryManager}
        {record : QueueName → Nat} {h : NodeQueues Bitmap.MemoryManager},
        (opened m record).Held (Bitmap.Holds table start size) →
        Reach Bitmap.allocator Bitmap.Admits (opened m record) h → Lossless Bitmap.allocator h :=
  ⟨fun hh hr => hr.lossless (Buddy.refills _ _ _) hh,
    fun hh hr => hr.lossless (Bitmap.refills _ _ _) hh⟩

/-- The addresses of four records one block apart. -/
def recordsFrom (address : Nat) : QueueName → Nat
  | .ready => address
  | .blocked => address + 64
  | .blockedBySem => address + 128
  | .zombie => address + 192

/-- Any header image that meets a write becomes this one. -/
abbrev zeroImage : Buddy.St → Nat → Buddy.Block := fun _ _ => ⟨0, .FREE, none⟩

/-- A heap of eight blocks with the four records and four processes: there is no room for a
fifth process, and one is blocked and one killed all the same. Below it, two processes in
the heap of the bitmap allocator. -/
theorem reach_lossless_full :
    (∃ (s : Buddy.St) (h : NodeQueues Buddy.St),
      (opened s (recordsFrom 6291472)).Held (Buddy.Holds Buddy.zeroMem 512) ∧
      Reach (Buddy.allocator zeroImage) Buddy.Admits (opened s (recordsFrom 6291472)) h ∧
      ((Buddy.allocator zeroImage).alloc h.mem sizeofNode).map Prod.snd = some none ∧
      h.pids .ready = [2, 3] ∧ h.pids .blocked = [1] ∧ h.pids .zombie = [4] ∧
      Lossless (Buddy.allocator zeroImage) h) ∧
    ∃ (m : Bitmap.MemoryManager) (h : NodeQueues Bitmap.MemoryManager),
      (opened m (recordsFrom 39452672)).Held
        (Bitmap.Holds (fun _ => .USED) Bitmap.heapStartAddress Bitmap.heapSize) ∧
      Reach Bitmap.allocator Bitmap.Admits (opened m (recordsFrom 39452672)) h ∧
      h.pids .ready = [2] ∧ h.pids .blocked = [1] ∧ Lossless Bitmap.allocator h := by
  have hbuddy : ((Buddy.createMemoryManager Buddy.zeroMem Buddy.heapStartAddress 512).bind fun h0 =>
      (Run.exec Buddy.step (fun s e => e.Owned s) ⟨h0, []⟩
        [.alloc 24, .alloc 24, .alloc 24, .alloc 24]).bind fun s =>
      (Run.exec (NodeQueues.step (Buddy.allocator zeroImage)) (Admitted Buddy.Admits)
        (opened s (recordsFrom 6291472))
        [.add 1, .add 2, .add 3, .add 4, .add 5, .move .block 1, .move .kill 4,
          .rotate none, .rotate none]).map fun h => (h0, s, h)).any (fun r =>
      decide ((opened r.2.1 (recordsFrom 6291472)).chunks.map Buddy.ofChunk ≤
          (r.2.1.live : Multiset Buddy.Alloc) ∧
        ((Buddy.allocator zeroImage).alloc r.2.2.mem sizeofNode).map Prod.snd = some none ∧
        r.2.2.pids .ready = [2, 3] ∧ r.2.2.pids .blocked = [1] ∧ r.2.2.pids .zombie = [4])) =
      true := by decide +kernel
  have hbitmap : ((Bitmap.allocator.alloc (Bitmap.createMemoryManager (fun _ => .USED)
      Bitmap.heapStartAddress Bitmap.heapSize) sizeofQueue).bind fun r1 =>
      (Bitmap.allocator.alloc r1.1 sizeofQueue).bind fun r2 =>
      (Bitmap.allocator.alloc r2.1 sizeofQueue).bind fun r3 =>
      (Bitmap.allocator.alloc r3.1 sizeofQueue).bind fun r4 =>
      (Run.exec (NodeQueues.step Bitmap.allocator) (Admitted Bitmap.Admits)
        (opened r4.1 (recordsFrom 39452672))
        [.add 1, .add 2, .user (.alloc 100), .move .block 1, .rotate none]).map fun h =>
          (r1, r2, r3, r4, h)).any (fun r =>
      decide (r.1.2 = some 39452672 ∧ r.2.1.2 = some 39452736 ∧ r.2.2.1.2 = some 39452800 ∧
        r.2.2.2.1.2 = some 39452864 ∧ r.2.2.2.2.pids .ready = [2] ∧
        r.2.2.2.2.pids .blocked = [1])) = true := by decide +kernel
  constructor
  · obtain ⟨r, hr, hP⟩ := (Option.any_eq_true _ _).mp hbuddy
    obtain ⟨h0, hc, hr⟩ := Option.bind_eq_some_iff.mp hr
    obtain ⟨s, hs, hr⟩ := Option.bind_eq_some_iff.mp hr
    obtain ⟨h, hrun, rfl⟩ := Option.map_eq_some_iff.mp hr
    obtain ⟨hle, hnone, hready, hblocked, hzombie⟩ := of_decide_eq_true hP
    have hheld : (opened s (recordsFrom 6291472)).Held (Buddy.Holds Buddy.zeroMem 512) :=
      ⟨⟨h0, hc, Run.of_exec hs⟩, hle⟩
    exact ⟨s, h, hheld, Run.of_exec hrun, hnone, hready, hblocked, hzombie,
      reach_lossless.1 hheld (Run.of_exec hrun)⟩
  · obtain ⟨r, hr, hP⟩ := (Option.any_eq_true _ _).mp hbitmap
    obtain ⟨⟨m1, p1⟩, h1, hr⟩ := Option.bind_eq_some_iff.mp hr
    obtain ⟨⟨m2, p2⟩, h2, hr⟩ := Option.bind_eq_some_iff.mp hr
    obtain ⟨⟨m3, p3⟩, h3, hr⟩ := Option.bind_eq_some_iff.mp hr
    obtain ⟨⟨m4, p4⟩, h4, hr⟩ := Option.bind_eq_some_iff.mp hr
    obtain ⟨h, hrun, rfl⟩ := Option.map_eq_some_iff.mp hr
    obtain ⟨rfl, rfl, rfl, rfl, hready, hblocked⟩ := of_decide_eq_true hP
    have hheld : (opened m4 (recordsFrom 39452672)).Held
        (Bitmap.Holds (fun _ => .USED) Bitmap.heapStartAddress Bitmap.heapSize) := by
      have hh := (((Bitmap.holds_create.alloc_some Bitmap.queue_one h1).alloc_some
        Bitmap.queue_one h2).alloc_some Bitmap.queue_one h3).alloc_some Bitmap.queue_one h4
      have hchunks : (⟨39452864, sizeofQueue⟩ ::ₘ ⟨39452800, sizeofQueue⟩ ::ₘ
          ⟨39452736, sizeofQueue⟩ ::ₘ ⟨39452672, sizeofQueue⟩ ::ₘ 0 : Multiset Chunk) =
            (opened () (recordsFrom 39452672)).chunks := by decide
      rw [hchunks] at hh
      exact hh
    exact ⟨m4, h, hheld, Run.of_exec hrun, hready, hblocked,
      reach_lossless.2 hheld (Run.of_exec hrun)⟩

end NodeQueues

end SoKernel
