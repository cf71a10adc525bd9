import SoKernel.Bitmap.Layout

/-!
# The bitmap allocator: main theorems

1. `reach_represented`: the runs of cells that are not free are the live allocations, in
   every state users reach that free what they have allocated.
2. `alloc_iff`: the requests `allocMemory` answers correctly, in every reachable state.
3. `alloc_nextFit`: the window `allocMemory` takes, and when there is none.
4. `stray_free_iff`: the addresses that are no live allocation and that `freeMemory` ignores.
-/

namespace SoKernel.Bitmap

/-! ## 1. The representation -/

/-- The cells of an allocation. -/
def Alloc.group (m : MemoryManager) (a : Alloc) : Nat × Nat :=
  (m.blockIndex a.address, sizeToBlockQty a.size)

/-- The table has a layout, and its groups are the live allocations. -/
structure Tracked (s : St) (gs : List (Nat × Nat)) : Prop extends Layout s.manager gs where
  groups : gs.Perm (s.live.map (Alloc.group s.manager))
  address : ∀ a ∈ s.live, a.address = s.manager.start + s.manager.blockIndex a.address * blockSize

/-- No request was truncated either. -/
structure Inv (s : St) (gs : List (Nat × Nat)) : Prop extends Tracked s gs where
  sizes : ∀ a ∈ s.live, a.size < 2 ^ 32

section

variable {table : Nat → Cell} {start size address : Nat} {s s' : St} {gs : List (Nat × Nat)}
  {m m' : MemoryManager} {a a' : Alloc} {e : Event}

theorem Tracked.group_mem (K : Tracked s gs) (ha : a ∈ s.live) : a.group s.manager ∈ gs :=
  K.groups.mem_iff.mpr (List.mem_map_of_mem ha)

theorem Inv.bounds (I : Inv s gs) (ha : a ∈ s.live) :
    (a.group s.manager) ∈ gs ∧
      (a.group s.manager).1 + (a.group s.manager).2 ≤ s.manager.blockQty ∧
      0 < (a.group s.manager).2 ∧ a.size ≤ (a.group s.manager).2 * blockSize := by
  have hg := I.group_mem ha
  have hb := I.cut.bounds hg
  exact ⟨hg, hb.2.1, hb.2.2.1, size_le (I.sizes a ha)⟩

/-- A live pointer passes the checks of `freeMemory`. -/
theorem Tracked.pointer (K : Tracked s gs) (ha : a ∈ s.live) :
    ¬ (a.address = 0 ∨ a.address % blockSize ≠ 0) ∧ s.manager.start ≤ a.address := by
  have hadd := K.address a ha
  have hle : s.manager.start ≤ a.address := hadd ▸ Nat.le_add_right _ _
  have hmod : a.address % blockSize = 0 := by rw [hadd, Nat.add_mul_mod_self_right, K.aligned]
  refine ⟨?_, hle⟩
  rintro (h | h)
  · exact absurd (h ▸ hle) (Nat.not_le.mpr K.start_pos)
  · exact h hmod

theorem Tracked.free_eq (K : Tracked s gs) (ha : a ∈ s.live) :
    freeMemory s.manager a.address = some { s.manager with
      blocksUsed := s.manager.blocksUsed - (a.group s.manager).2
      bitmap := clear s.manager.bitmap (a.group s.manager).1 (a.group s.manager).2 } :=
  freeMemory_group K.toLayout (K.group_mem ha) (K.pointer ha).1 (K.pointer ha).2

theorem Tracked.free (K : Tracked s gs) (ha : a ∈ s.live) :
    ∃ s', s.step (.free a.address) = some s' ∧ (∃ gs', Tracked s' gs') ∧
      (∀ x ∈ s'.live, x ∈ s.live) ∧
      (s'.live.map Alloc.address).Perm ((s.live.map Alloc.address).erase a.address) := by
  obtain ⟨b, l1, l2, _, hb, hlive, herase⟩ := List.exists_of_eraseP
    (p := fun x : Alloc => decide (x.address = a.address)) ha (decide_eq_true rfl)
  have hb : b.address = a.address := of_decide_eq_true hb
  rw [← hb] at herase ⊢
  have hmem : b ∈ s.live := hlive ▸ List.mem_append_right _ List.mem_cons_self
  have hperm : s.live.Perm (b :: s.live.eraseP fun x => decide (x.address = b.address)) := by
    rw [herase]
    conv_lhs => rw [hlive]
    exact List.perm_middle
  have hsub : ∀ x ∈ s.live.eraseP (fun x => decide (x.address = b.address)), x ∈ s.live :=
    fun x hx => List.mem_of_mem_eraseP hx
  obtain ⟨gs', hgs, L⟩ := K.toLayout.free (K.group_mem hmem)
  refine ⟨_, by rw [St.step, K.free_eq hmem]; rfl, ⟨gs', L, ?_, ?_⟩, hsub, ?_⟩
  · exact ((hgs.symm.trans K.groups).trans (hperm.map (Alloc.group s.manager))).cons_inv
  · exact fun x hx => K.address x (hsub x hx)
  · have hmap := (hperm.map Alloc.address).erase b.address
    rw [List.map_cons, List.erase_cons_head] at hmap
    exact hmap.symm

theorem Inv.free (I : Inv s gs) (ha : a ∈ s.live) :
    ∃ s', s.step (.free a.address) = some s' ∧ (∃ gs', Inv s' gs') ∧
      (s'.live.map Alloc.address).Perm ((s.live.map Alloc.address).erase a.address) := by
  obtain ⟨s', hs, ⟨gs', K⟩, hsub, hperm⟩ := I.toTracked.free ha
  exact ⟨s', hs, ⟨gs', K, fun x hx => I.sizes x (hsub x hx)⟩, hperm⟩

/-- A request for cells adds a live allocation, or nothing. -/
theorem Tracked.alloc (K : Tracked s gs) (hn : 0 < sizeToBlockQty size) :
    ∃ s', s.step (.alloc size) = some s' ∧ (∃ gs', Tracked s' gs') ∧
      ∀ x ∈ s'.live, x ∈ s.live ∨ x.size = size := by
  rcases allocMemory_cases K.toLayout hn with ⟨h, _⟩ | ⟨a, hnext, h⟩
  · exact ⟨s, by simp [St.step, h], ⟨gs, K⟩, fun x hx => .inl hx⟩
  · obtain ⟨_, ha, hf⟩ := hnext.mem
    have hpos : s.manager.start + a * blockSize ≠ 0 :=
      Nat.ne_of_gt (Nat.lt_of_lt_of_le K.start_pos (Nat.le_add_right _ _))
    have hidx := K.blockIndex (i := a) (by omega)
    obtain ⟨gs', hgs, L⟩ := K.toLayout.alloc hn ha hf
    refine ⟨_, by rw [St.step, h, Option.map_some, if_neg hpos], ⟨gs', L, ?_, ?_⟩, ?_⟩
    · refine hgs.trans ?_
      have hnew : Alloc.group s.manager ⟨s.manager.start + a * blockSize, size⟩ =
          (a, sizeToBlockQty size) := by rw [Alloc.group, hidx]
      rw [← hnew]
      exact K.groups.cons _
    · intro x hx
      rcases List.mem_cons.mp hx with rfl | hx
      · exact congrArg (fun i => s.manager.start + i * blockSize) hidx.symm
      · exact K.address x hx
    · intro x hx
      rcases List.mem_cons.mp hx with rfl | hx
      · exact .inr rfl
      · exact .inl hx

theorem sizeToBlockQty_pos {size : Nat} (h1 : 1 ≤ size) (h2 : size < 2 ^ 32) :
    0 < sizeToBlockQty size := by
  refine Nat.pos_of_ne_zero fun h => ?_
  rw [sizeToBlockQty_eq_zero, Nat.mod_eq_of_lt h2] at h
  exact absurd h1 (by simp [h])

theorem Inv.alloc (I : Inv s gs) (h1 : 1 ≤ size) (h2 : size < 2 ^ 32) :
    ∃ s', s.step (.alloc size) = some s' ∧ ∃ gs', Inv s' gs' := by
  obtain ⟨s', hs, ⟨gs', K⟩, hlive⟩ := I.toTracked.alloc (sizeToBlockQty_pos h1 h2)
  refine ⟨s', hs, gs', K, fun x hx => ?_⟩
  rcases hlive x hx with hx | hx
  · exact I.sizes x hx
  · exact hx ▸ h2

theorem Inv.step (I : Inv s gs) (he : s.Owned e) :
    ∃ s', s.step e = some s' ∧ ∃ gs', Inv s' gs' := by
  cases e with
  | alloc size => exact I.alloc he.1 he.2
  | free address =>
    obtain ⟨a, ha, rfl⟩ := he
    obtain ⟨s', hs, hI, _⟩ := I.free ha
    exact ⟨s', hs, hI⟩

theorem OwnedReach.inv (h : OwnedReach table start size s) : ∃ gs, Inv s gs := by
  have L : Layout (createMemoryManager table start size) [] := create_layout
  refine h.invariant (P := fun s => ∃ gs, Inv s gs) ⟨[], ⟨L, .nil, ?_⟩, ?_⟩ ?_
  · exact fun a ha => absurd ha List.not_mem_nil
  · exact fun a ha => absurd ha List.not_mem_nil
  · rintro t t' e ⟨gs, I⟩ he hs
    obtain ⟨s', hs', hI⟩ := I.step he
    exact Option.some.inj (hs'.symm.trans hs) ▸ hI

/-- Freeing the live pointers one after the other empties the table. -/
theorem Inv.emptied (I : Inv s gs) {order : List Nat}
    (ho : order.Perm (s.live.map Alloc.address)) :
    ∃ m', order.foldlM freeMemory s.manager = some m' ∧ m'.blocksUsed = 0 ∧
      ∀ i, i < s.manager.blockQty → m'.bitmap i = .FREE := by
  induction order generalizing s gs with
  | nil =>
    have hlive : s.live = [] := List.map_eq_nil_iff.mp (List.nil_perm.mp ho)
    obtain rfl : gs = [] := by simpa [hlive] using I.groups
    exact ⟨s.manager, rfl, I.used, fun i hi => I.cut.free_of_nil (Nat.zero_le i) hi⟩
  | cons p order ih =>
    obtain ⟨a, ha, rfl⟩ := List.mem_map.mp (ho.mem_iff.mp List.mem_cons_self)
    obtain ⟨s', hs, ⟨gs', I'⟩, hlive⟩ := I.free ha
    have ho' : order.Perm (s'.live.map Alloc.address) := by
      have h := (ho.erase a.address).trans hlive.symm
      rwa [List.erase_cons_head] at h
    obtain ⟨m', hm, hu, hf⟩ := ih I' ho'
    rw [St.step, I.free_eq ha, Option.map_some] at hs
    obtain rfl := Option.some.inj hs
    exact ⟨m', by rw [List.foldlM_cons, I.free_eq ha]; exact hm, hu, hf⟩

/-- What the table says about the live allocations. -/
structure Represented (s : St) : Prop where
  /-- From left to right the table reads as free cells and groups of cells, and the groups
  are the live allocations. -/
  cells : ∃ gs, Cut (fun i => s.manager.bitmap i = .FREE) (IsGroup s.manager.bitmap) 0
    s.manager.blockQty gs ∧ gs.Perm (s.live.map (Alloc.group s.manager))
  /-- A group starts at the cell of the address and has as many cells as the size needs. -/
  group : ∀ a ∈ s.live,
    a.address = s.manager.start + (a.group s.manager).1 * blockSize ∧
      (a.group s.manager).2 = (a.size + (blockSize - 1)) / blockSize
  used : s.manager.blocksUsed =
    Nat.count (fun i => ¬ s.manager.bitmap i = .FREE) s.manager.blockQty
  current : s.manager.current ≤ s.manager.blockQty
  disjoint : s.live.Pairwise fun a b =>
    a.address + a.size ≤ b.address ∨ b.address + b.size ≤ a.address
  inside : ∀ a ∈ s.live, s.manager.start ≤ a.address ∧
    a.address + a.size ≤ s.manager.start + s.manager.blockQty * blockSize
  /-- `freeMemory` frees the cells of the allocation and no others. -/
  freed : ∀ a ∈ s.live, freeMemory s.manager a.address = some { s.manager with
    blocksUsed := s.manager.blocksUsed - (a.group s.manager).2
    bitmap := clear s.manager.bitmap (a.group s.manager).1 (a.group s.manager).2 }
  emptied : ∀ order : List Nat, order.Perm (s.live.map Alloc.address) →
    ∃ m', order.foldlM freeMemory s.manager = some m' ∧ m'.blocksUsed = 0 ∧
      ∀ i, i < s.manager.blockQty → m'.bitmap i = .FREE

/-- Groups one after the other keep the allocations apart. -/
theorem Inv.apart (I : Inv s gs) (ha : a ∈ s.live) (ha' : a' ∈ s.live)
    (h : (a.group s.manager).1 + (a.group s.manager).2 ≤ (a'.group s.manager).1) :
    a.address + a.size ≤ a'.address := by
  have hsize := (I.bounds ha).2.2.2
  have hmul := Nat.mul_le_mul_right blockSize h
  rw [Nat.add_mul] at hmul
  calc a.address + a.size
      ≤ s.manager.start + (a.group s.manager).1 * blockSize +
          (a.group s.manager).2 * blockSize := by
        conv_lhs => rw [I.address a ha]
        exact Nat.add_le_add_left hsize _
    _ ≤ s.manager.start + (a'.group s.manager).1 * blockSize := by
        rw [Nat.add_assoc]
        exact Nat.add_le_add_left hmul _
    _ = a'.address := (I.address a' ha').symm

theorem Inv.represented (I : Inv s gs) : Represented s where
  cells := ⟨gs, I.cut, I.groups⟩
  group a ha := ⟨I.address a ha, sizeToBlockQty_eq (I.sizes a ha)⟩
  used := I.used_count
  current := I.current
  disjoint := by
    have hsym : Std.Symm fun g g' : Nat × Nat => g.1 + g.2 ≤ g'.1 ∨ g'.1 + g'.2 ≤ g.1 :=
      ⟨fun _ _ h => h.symm⟩
    have hgs : gs.Pairwise fun g g' : Nat × Nat => g.1 + g.2 ≤ g'.1 ∨ g'.1 + g'.2 ≤ g.1 :=
      I.cut.disjoint.imp Or.inl
    have hlive := List.pairwise_map.mp (hgs.perm I.groups fun h => h.symm)
    exact hlive.imp_of_mem fun ha ha' h => h.imp (I.apart ha ha') (I.apart ha' ha)
  inside a ha := by
    refine ⟨(I.pointer ha).2, ?_⟩
    obtain ⟨_, hle, _, hsize⟩ := I.bounds ha
    have hmul := Nat.mul_le_mul_right blockSize hle
    rw [Nat.add_mul] at hmul
    conv_lhs => rw [I.address a ha]
    rw [Nat.add_assoc]
    exact Nat.add_le_add_left (Nat.le_trans (Nat.add_le_add_left hsize _) hmul) _
  freed _ := I.free_eq
  emptied _ := I.emptied

/-- In every state reached by allocations of `1` to `2 ^ 32 - 1` bytes and frees of live
pointers the table represents the live allocations, and no such call is undefined. -/
theorem reach_represented (h : OwnedReach table start size s) :
    Represented s ∧ ∀ e, s.Owned e → (s.step e).isSome = true := by
  obtain ⟨gs, I⟩ := h.inv
  refine ⟨I.represented, fun e he => ?_⟩
  obtain ⟨s', hs, _⟩ := I.step he
  rw [hs]
  rfl

/-- Three allocations of a new table, of which the first is freed. -/
theorem reach_represented_three :
    ∃ s, Run.exec St.step St.Owned
        ⟨createMemoryManager (fun _ => .USED) heapStartAddress heapSize, []⟩
        [.alloc 100, .alloc 64, .alloc 1000, .free 39452672] = some s ∧
      s.live = [⟨39452864, 1000⟩, ⟨39452800, 64⟩] ∧ Represented s := by
  obtain ⟨s, he, hr, hlive⟩ :
      ∃ s, Run.exec St.step St.Owned
          ⟨createMemoryManager (fun _ => .USED) heapStartAddress heapSize, []⟩
          [.alloc 100, .alloc 64, .alloc 1000, .free 39452672] = some s ∧
        Run St.step St.Owned ⟨createMemoryManager (fun _ => .USED) heapStartAddress heapSize, []⟩ s ∧
        s.live = [⟨39452864, 1000⟩, ⟨39452800, 64⟩] :=
    Run.exists_exec (by decide +kernel)
  exact ⟨s, he, hlive, (reach_represented hr).1⟩

/-! ## 2. Any request -/

/-- `allocMemory` returns `NULL` and changes nothing, or reserves `n` free cells of the
table, enough for the request. -/
def AllocCorrect (m : MemoryManager) (size : Nat) : Prop :=
  allocMemory m size = some (m, 0) ∨
  ∃ m' a n, allocMemory m size = some (m', m.start + a * blockSize) ∧ size ≤ n * blockSize ∧
    a + n ≤ m.blockQty ∧ FreeRun m a n ∧ IsGroup m'.bitmap a n ∧
    (∀ x, x < a ∨ a + n ≤ x → m'.bitmap x = m.bitmap x) ∧ m'.blocksUsed = m.blocksUsed + n

/-- Some cells of the table are a free run of the size asked for. -/
def HasFreeRun (m : MemoryManager) (n : Nat) : Prop := ∃ a, a + n ≤ m.blockQty ∧ FreeRun m a n

/-- The requests `allocMemory` answers correctly: those of `1` to `2 ^ 32 - 1` bytes, and
of the others those whose low 32 bits fail for want of cells, or are 0 while the search
starts inside the table and its last cell is free. -/
def AllocSafe (m : MemoryManager) (size : Nat) : Prop :=
  (1 ≤ size ∧ size < 2 ^ 32) ∨
  (size % 2 ^ 32 ≠ 0 ∧ ¬ HasFreeRun m (sizeToBlockQty size)) ∨
  (size % 2 ^ 32 = 0 ∧ m.current < m.blockQty ∧ m.bitmap (m.blockQty - 1) = .FREE)

/-- Any calls keep the layout, and leave the table where it is. -/
theorem Reach.steady (h : Reach table start size m) :
    (∃ gs, Layout m gs) ∧ m.start = 39452672 ∧ m.blockQty = 7772160 := by
  have L : Layout (createMemoryManager table start size) [] := create_layout
  refine h.invariant
    (P := fun m => (∃ gs, Layout m gs) ∧ m.start = 39452672 ∧ m.blockQty = 7772160)
    ⟨⟨[], L⟩, create_start _ _ _, create_blockQty _ _ _⟩ ?_
  rintro m m' e ⟨⟨gs, L⟩, hplace⟩ _ hs
  cases e with
  | alloc n =>
    obtain ⟨⟨m1, p⟩, ha, rfl⟩ := Option.map_eq_some_iff.mp hs
    rcases Nat.eq_zero_or_pos (sizeToBlockQty n) with h0 | hn
    · rw [allocMemory_zero L h0] at ha
      split at ha
      · obtain ⟨rfl, _⟩ := Prod.mk.inj (Option.some.inj ha)
        exact ⟨⟨gs, L⟩, hplace⟩
      · cases ha
    · rcases allocMemory_cases L hn with ⟨h0, _⟩ | ⟨a, hnext, h1⟩
      · obtain ⟨rfl, _⟩ := Prod.mk.inj (Option.some.inj (h0.symm.trans ha))
        exact ⟨⟨gs, L⟩, hplace⟩
      · obtain ⟨gs', _, L'⟩ := L.alloc hn hnext.mem.2.1 hnext.mem.2.2
        obtain ⟨rfl, _⟩ := Prod.mk.inj (Option.some.inj (h1.symm.trans ha))
        exact ⟨⟨gs', L'⟩, hplace⟩
  | free p =>
    rcases freeMemory_cases L hs with rfl | ⟨n, hg, rfl⟩
    · exact ⟨⟨gs, L⟩, hplace⟩
    · obtain ⟨gs', _, L'⟩ := L.free hg
      exact ⟨⟨gs', L'⟩, hplace⟩

theorem Reach.layout (h : Reach table start size m) : ∃ gs, Layout m gs := h.steady.1

/-- A run the table has room for is not as large as a request of `2 ^ 32` bytes. -/
theorem Table.run_lt (T : Table m) {n : Nat} (h : n ≤ m.blockQty) : n * blockSize < 2 ^ 32 :=
  Nat.lt_of_le_of_lt (Nat.mul_le_mul_right _ (Nat.le_succ_of_le h)) T.small

/-- In every state reached by any calls: `allocMemory` is correct exactly for the requests
of `AllocSafe`. -/
theorem alloc_iff {request : Nat} (h : Reach table start size m) :
    AllocCorrect m request ↔ AllocSafe m request := by
  obtain ⟨gs, L⟩ := h.layout
  have hpos : ∀ a, m.start + a * blockSize ≠ 0 := fun a =>
    Nat.ne_of_gt (Nat.lt_of_lt_of_le L.start_pos (Nat.le_add_right _ _))
  rcases Nat.eq_zero_or_pos (sizeToBlockQty request) with h0 | hn
  · -- no cells are asked for: `NULL`, or a write behind the table
    have hmod := sizeToBlockQty_eq_zero.mp h0
    have hsmall : ¬ (1 ≤ request ∧ request < 2 ^ 32) := by
      rintro ⟨h1, h2⟩
      rw [Nat.mod_eq_of_lt h2] at hmod
      exact absurd h1 (by simp [hmod])
    have hsafe : AllocSafe m request ↔
        m.current < m.blockQty ∧ m.bitmap (m.blockQty - 1) = .FREE := by
      unfold AllocSafe
      rw [or_iff_right hsmall, or_iff_right (fun h => h.1 hmod), and_iff_right hmod]
    rw [hsafe, AllocCorrect, allocMemory_zero L h0]
    constructor
    · intro hc
      by_contra hnot
      rw [if_neg hnot] at hc
      rcases hc with hc | ⟨_, _, _, hc, _⟩ <;> cases hc
    · exact fun hc => .inl (if_pos hc)
  · have hmod : request % 2 ^ 32 ≠ 0 := fun h => Nat.ne_of_gt hn (sizeToBlockQty_eq_zero.mpr h)
    rcases allocMemory_cases L hn with ⟨hnull, hno⟩ | ⟨a, hnext, hsome⟩
    · refine iff_of_true (.inl hnull) (.inr (.inl ⟨hmod, ?_⟩))
      rintro ⟨a, ha, hf⟩
      exact windows_eq_empty.mp hno a ha hf
    · obtain ⟨_, hqty, hf⟩ := hnext.mem
      constructor
      · rintro (hnull | ⟨m', a', n, heq, hle, hn', _, _, _, hused⟩)
        · have := (Prod.mk.inj (Option.some.inj (hnull.symm.trans hsome))).2
          exact absurd this.symm (hpos a)
        · -- the bytes asked for fit into cells of the table
          refine .inl ⟨Nat.pos_of_ne_zero fun h => hmod (by simp [h]), ?_⟩
          exact Nat.lt_of_le_of_lt hle (L.run_lt (Nat.le_trans (Nat.le_add_left _ _) hn'))
      · rintro (⟨_, hlt⟩ | ⟨_, hno⟩ | ⟨h0, _⟩)
        · exact .inr ⟨_, a, _, hsome, size_le hlt, hqty, hf, isGroup_mark hn,
            fun x hx => mark_outside hx, rfl⟩
        · exact absurd ⟨a, hqty, hf⟩ hno
        · exact absurd h0 hmod

/-- A table with two allocations, and a hole in front of them. -/
theorem usedTable_run :
    ∃ m, Run.exec step Run.anyEvent (createMemoryManager (fun _ => .USED) heapStartAddress heapSize)
        [.alloc 100, .alloc 64, .alloc 1000, .free 39452672] = some m ∧
      Run step Run.anyEvent (createMemoryManager (fun _ => .USED) heapStartAddress heapSize) m ∧
      m.blocksUsed = 17 ∧ m.current < m.blockQty ∧ m.bitmap (m.blockQty - 1) = .FREE :=
  Run.exists_exec (by decide +kernel)

/-- Requests of 100 bytes and of `2 ^ 32` bytes to that table. -/
theorem alloc_iff_used :
    ∃ m, Reach (fun _ => .USED) heapStartAddress heapSize m ∧ m.blocksUsed = 17 ∧
      AllocCorrect m 100 ∧ AllocCorrect m (2 ^ 32) := by
  obtain ⟨m, _, hm, hused, hcurrent, hlast⟩ := usedTable_run
  exact ⟨m, hm, hused, (alloc_iff hm).mpr (.inl ⟨by decide, by decide⟩),
    (alloc_iff hm).mpr (.inr (.inr ⟨rfl, hcurrent, hlast⟩))⟩

/-- A request of `2 ^ 32 + 1` bytes to a new table gets one block of 64 bytes. -/
theorem alloc_gets_one_block :
    (allocMemory (createMemoryManager (fun _ => .USED) heapStartAddress heapSize)
        (2 ^ 32 + 1)).map (fun r => (r.2, r.1.blocksUsed, r.1.bitmap 0)) =
          some (39452672, 1, .SINGLE_BLOCK) ∧
      ¬ AllocCorrect (createMemoryManager (fun _ => .USED) heapStartAddress heapSize)
        (2 ^ 32 + 1) := by
  have heval : (allocMemory (createMemoryManager (fun _ => .USED) heapStartAddress heapSize)
      (2 ^ 32 + 1)).map (fun r => (r.2, r.1.blocksUsed, r.1.bitmap 0)) =
        some (39452672, 1, .SINGLE_BLOCK) := by decide +kernel
  refine ⟨heval, ?_⟩
  rintro (hnull | ⟨m', a, n, heq, hle, _, _, _, _, hused⟩)
  · rw [hnull] at heval
    simp at heval
  · rw [heq] at heval
    simp only [Option.map_some, Option.some.injEq, Prod.mk.injEq] at heval
    have hzero : (createMemoryManager (fun _ => .USED) heapStartAddress heapSize).blocksUsed = 0 :=
      rfl
    rw [heval.2.1, hzero, Nat.zero_add] at hused
    subst hused
    exact absurd hle (by decide)

/-! ## 3. The search -/

/-- `allocMemory` of `size` bytes fails exactly when the table has no window of as many cells
as they need, and then changes nothing; otherwise it takes the next fit. -/
def SearchCorrect (m : MemoryManager) (size : Nat) : Prop :=
  ∃ m' p, allocMemory m size = some (m', p) ∧
    (p = 0 ↔ ¬ HasFreeRun m ((size + (blockSize - 1)) / blockSize)) ∧ (p = 0 → m' = m) ∧
    (p ≠ 0 → ∃ a, IsNextFit m ((size + (blockSize - 1)) / blockSize) a ∧
      p = m.start + a * blockSize)

theorem Layout.search (L : Layout m gs) (h1 : 1 ≤ size) (h2 : size < 2 ^ 32) :
    SearchCorrect m size := by
  unfold SearchCorrect
  rw [← sizeToBlockQty_eq h2]
  rcases allocMemory_cases L (sizeToBlockQty_pos h1 h2) with ⟨hnull, hno⟩ | ⟨a, hnext, hsome⟩
  · refine ⟨m, 0, hnull, iff_of_true rfl ?_, fun _ => rfl, fun h => absurd rfl h⟩
    rintro ⟨a, ha, hf⟩
    exact windows_eq_empty.mp hno a ha hf
  · have hpos : m.start + a * blockSize ≠ 0 :=
      Nat.ne_of_gt (Nat.lt_of_lt_of_le L.start_pos (Nat.le_add_right _ _))
    refine ⟨_, _, hsome, iff_of_false hpos (not_not.mpr ⟨a, hnext.mem.2⟩), fun h => absurd h hpos,
      fun _ => ⟨a, hnext, rfl⟩⟩

/-- In every state reached by any calls the search is correct, wherever the cursor stands. -/
theorem alloc_nextFit {request : Nat} (h : Reach table start size m) (h1 : 1 ≤ request)
    (h2 : request < 2 ^ 32) :
    m.current ≤ m.blockQty ∧
      ∀ cursor, cursor ≤ m.blockQty → SearchCorrect { m with current := cursor } request := by
  obtain ⟨gs, L⟩ := h.layout
  refine ⟨L.current, fun cursor hc => ?_⟩
  have L' : Layout { m with current := cursor } gs :=
    ⟨⟨L.start_pos, L.aligned, L.nonempty, L.small⟩, L.cut, L.used, hc⟩
  exact L'.search h1 h2

/-- A new table with the cursor before its last cell, and a request for two cells. -/
theorem alloc_nextFit_last :
    SearchCorrect { createMemoryManager (fun _ => .USED) heapStartAddress heapSize with
      current := 7772159 } 128 :=
  (alloc_nextFit .refl (by decide) (by decide)).2 7772159 (by decide)

/-! ## 4. Stray frees -/

/-- `freeMemory` reads the table only, and leaves it as it is. -/
def Ignores (m : MemoryManager) (address : Nat) : Prop :=
  ∃ m', freeMemory m address = some m' ∧ m'.bitmap = m.bitmap ∧ m'.blocksUsed = m.blocksUsed

/-- `freeMemory` returns before it reads the table, or the index it computes is one of the table
and not the first cell of a live allocation. -/
def Harmless (m : MemoryManager) (live : List Alloc) (address : Nat) : Prop :=
  address = 0 ∨ address % blockSize ≠ 0 ∨ address < m.start ∨
    m.blockIndex address < m.blockQty ∧ ∀ a ∈ live, m.blockIndex a.address ≠ m.blockIndex address

instance (m : MemoryManager) (live : List Alloc) (address : Nat) :
    Decidable (Harmless m live address) :=
  inferInstanceAs (Decidable (_ ∨ _ ∨ _ ∨ _ ∧ ∀ a ∈ live, _))

/-- Users ask for any number of bytes, and free live pointers and harmless addresses. -/
def St.Tame (s : St) : Event → Prop
  | .alloc _ => True
  | .free address => (∃ a ∈ s.live, a.address = address) ∨ Harmless s.manager s.live address

instance (s : St) : (e : Event) → Decidable (s.Tame e)
  | .alloc _ => .isTrue trivial
  | .free address => inferInstanceAs (Decidable ((∃ a ∈ s.live, a.address = address) ∨ _))

theorem Tracked.harmless (K : Tracked s gs) (h : Harmless s.manager s.live address) :
    freeMemory s.manager address = some s.manager := by
  rcases h with h | h | h | ⟨hi, hno⟩
  · exact freeMemory_skip (.inl h)
  · exact freeMemory_skip (.inr (.inl h))
  · exact freeMemory_skip (.inr (.inr h))
  · refine freeMemory_no_group K.toLayout hi fun n hg => ?_
    obtain ⟨a, ha, heq⟩ := List.mem_map.mp (K.groups.mem_iff.mp hg)
    exact hno a ha (congrArg Prod.fst heq)

theorem Tracked.stray (K : Tracked s gs) : Ignores s.manager address ↔
    Harmless s.manager s.live address := by
  constructor
  · rintro ⟨m', hfree, hbitmap, _⟩
    by_contra hnot
    simp only [Harmless, not_or, not_and, not_forall, not_lt, ne_eq, Decidable.not_not] at hnot
    obtain ⟨h0, hmod, hs, hin⟩ := hnot
    have hok : ¬ (address = 0 ∨ address % blockSize ≠ 0) := not_or.mpr ⟨h0, not_not.mpr hmod⟩
    rcases Nat.lt_or_ge (s.manager.blockIndex address) s.manager.blockQty with hi | hi
    · -- the address stands for the first cell of a live allocation, and that is freed
      obtain ⟨a, ha, heq⟩ := hin hi
      have hg := K.group_mem ha
      rw [Alloc.group, heq] at hg
      obtain ⟨_, _, hpos, hgrp⟩ := K.cut.bounds hg
      have hlt : s.manager.blockIndex address <
          s.manager.blockIndex address + sizeToBlockQty a.size := Nat.lt_add_of_pos_right hpos
      rw [freeMemory_group K.toLayout hg hok hs] at hfree
      obtain rfl := Option.some.inj hfree
      have hcell := congrFun hbitmap (s.manager.blockIndex address)
      have hfreed : clear s.manager.bitmap (s.manager.blockIndex address) (sizeToBlockQty a.size)
          (s.manager.blockIndex address) = .FREE := clear_inside (Nat.le_refl _) hlt
      exact hgrp.not_free (Nat.le_refl _) hlt (hcell.symm.trans hfreed)
    · cases (freeMemory_outside hok hs hi).symm.trans hfree
  · exact fun h => ⟨s.manager, K.harmless h, rfl, rfl⟩

theorem Tracked.step (K : Tracked s gs) (he : s.Tame e) (hs : s.step e = some s') :
    ∃ gs', Tracked s' gs' := by
  cases e with
  | alloc n =>
    rcases Nat.eq_zero_or_pos (sizeToBlockQty n) with h0 | hn
    · rw [St.step, allocMemory_zero K.toLayout h0] at hs
      split at hs
      · obtain rfl := Option.some.inj hs
        exact ⟨gs, K⟩
      · cases hs
    · obtain ⟨s1, hs1, hK, _⟩ := K.alloc hn
      exact Option.some.inj (hs1.symm.trans hs) ▸ hK
  | free address =>
    by_cases hlive : ∃ a ∈ s.live, a.address = address
    · obtain ⟨a, ha, rfl⟩ := hlive
      obtain ⟨s1, hs1, hK, _⟩ := K.free ha
      exact Option.some.inj (hs1.symm.trans hs) ▸ hK
    · have herase : (s.live.eraseP fun a => decide (a.address = address)) = s.live := by
        refine List.eraseP_of_forall_not fun a ha hp => hlive ⟨a, ha, of_decide_eq_true hp⟩
      rw [St.step, K.harmless (he.resolve_left hlive), Option.map_some, herase] at hs
      exact Option.some.inj hs ▸ ⟨gs, K⟩

/-- In every state reached by allocations of any size, frees of live pointers and frees of
harmless addresses: `freeMemory` ignores an address that is no live allocation exactly when it
is harmless. -/
theorem stray_free_iff
    (h : Run St.step St.Tame ⟨createMemoryManager table start size, []⟩ s) :
    ∀ address, (∀ a ∈ s.live, a.address ≠ address) →
      (Ignores s.manager address ↔ Harmless s.manager s.live address) := by
  have L : Layout (createMemoryManager table start size) [] := create_layout
  obtain ⟨gs, K⟩ : ∃ gs, Tracked s gs := by
    refine h.invariant (P := fun s => ∃ gs, Tracked s gs) ⟨[], L, .nil, ?_⟩ ?_
    · exact fun a ha => absurd ha List.not_mem_nil
    · rintro t t' e ⟨gs, K⟩ he hs
      exact K.step he hs
  exact fun address _ => K.stray

/-- Two allocations, a free of an address inside the second, and one of an unaligned address. -/
theorem stray_free_iff_run :
    ∃ s, Run.exec St.step St.Tame
        ⟨createMemoryManager (fun _ => .USED) heapStartAddress heapSize, []⟩
        [.alloc 100, .alloc (2 ^ 32 + 1000), .free 39452864, .free 39452673] = some s ∧
      (Ignores s.manager 39452736 ↔ Harmless s.manager s.live 39452736) := by
  obtain ⟨s, he, hr, hlive⟩ :
      ∃ s, Run.exec St.step St.Tame
          ⟨createMemoryManager (fun _ => .USED) heapStartAddress heapSize, []⟩
          [.alloc 100, .alloc (2 ^ 32 + 1000), .free 39452864, .free 39452673] = some s ∧
        Run St.step St.Tame ⟨createMemoryManager (fun _ => .USED) heapStartAddress heapSize, []⟩ s ∧
        ∀ a ∈ s.live, a.address ≠ 39452736 := Run.exists_exec (by decide +kernel)
  exact ⟨s, he, stray_free_iff hr 39452736 hlive⟩

/-- In a new table of which one block is live, the address where the heap ends makes
`freeMemory` read behind the table, and the one `2 ^ 38` behind the live block frees it. -/
theorem stray_free_not_ignored :
    ∃ s, Run.exec St.step St.Owned
        ⟨createMemoryManager (fun _ => .USED) heapStartAddress heapSize, []⟩ [.alloc 64] = some s ∧
      (∀ a ∈ s.live, a.address ≠ heapEndAddress + 1 ∧ a.address ≠ 39452672 + 2 ^ 38) ∧
      freeMemory s.manager (heapEndAddress + 1) = none ∧
      (freeMemory s.manager (39452672 + 2 ^ 38)).map MemoryManager.blocksUsed = some 0 ∧
      s.manager.blocksUsed = 1 ∧ ¬ Ignores s.manager (heapEndAddress + 1) ∧
      ¬ Ignores s.manager (39452672 + 2 ^ 38) := by
  obtain ⟨s, he, _, hlive, hend, halias, hused⟩ :
      ∃ s, Run.exec St.step St.Owned
          ⟨createMemoryManager (fun _ => .USED) heapStartAddress heapSize, []⟩ [.alloc 64] = some s ∧
        Run St.step St.Owned ⟨createMemoryManager (fun _ => .USED) heapStartAddress heapSize, []⟩ s ∧
        (∀ a ∈ s.live, a.address ≠ heapEndAddress + 1 ∧ a.address ≠ 39452672 + 2 ^ 38) ∧
        (freeMemory s.manager (heapEndAddress + 1)).isNone = true ∧
        (freeMemory s.manager (39452672 + 2 ^ 38)).map MemoryManager.blocksUsed = some 0 ∧
        s.manager.blocksUsed = 1 := Run.exists_exec (by decide +kernel)
  rw [Option.isNone_iff_eq_none] at hend
  refine ⟨s, he, hlive, hend, halias, hused, ?_, ?_⟩
  · rintro ⟨m', hfree, _⟩
    cases hend.symm.trans hfree
  · rintro ⟨m', hfree, _, hsame⟩
    rw [hfree, Option.map_some, hsame, hused] at halias
    exact absurd halias (by decide)

end

end SoKernel.Bitmap
