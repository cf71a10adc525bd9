import SoKernel.Buddy.Writes
import SoKernel.Kernel.NodeHeaps

/-!
# Programs on the heap of either allocator

`malloc` and `free` of the programs are calls of the allocator of the kernel. What a program
may rely on: its chunks are apart from each other and from those of everybody else, and the
allocator writes into none of them.

Results:
1. `Buddy.sharing`: headers are written between the chunks only.
2. `Bitmap.sharing`: cells are written below the first block only.
-/

namespace SoKernel

/-! ## The buddy allocator -/

namespace Buddy

/-- The header at `a` is not what it was, and `x` is one of its bytes. -/
def Wrote (s s' : St) (x : Nat) : Prop :=
  ∃ i < sizeofBlock, i ≤ x ∧ s'.heap.mem (x - i) ≠ s.heap.mem (x - i)

/-- A call of another user that frees what it owns, and none of the chunks. -/
def AdmitsCall (s : St) (cs : Multiset Chunk) (e : Event) : Prop := e.IsCall ∧ Admits s cs e

/-- A live allocation that is none of the chunks. -/
def OwnsOther (s : St) (cs : Multiset Chunk) (d : Chunk) : Prop :=
  ofChunk d ∈ s.live ∧ ofChunk d ∉ cs.map ofChunk

/-- Some live payload has been written: a header image that meets it is another one. -/
def Scribbles (s : St) (e : Event) : Prop := ¬ e.IsCall ∧ e.Owned s

instance (s s' : St) (x : Nat) : Decidable (Wrote s s' x) :=
  inferInstanceAs (Decidable (∃ i < _, _))

instance (s : St) (cs : Multiset Chunk) (e : Event) : Decidable (AdmitsCall s cs e) :=
  inferInstanceAs (Decidable (_ ∧ _))

instance (s : St) (cs : Multiset Chunk) (d : Chunk) : Decidable (OwnsOther s cs d) :=
  inferInstanceAs (Decidable (_ ∧ _))

instance (s : St) (e : Event) : Decidable (Scribbles s e) := inferInstanceAs (Decidable (_ ∧ _))

section

variable {mem : Nat → Block} {size n x : Nat} {s s' : St} {cs : Multiset Chunk} {c d : Chunk}
  {image : St → Nat → Block} {e : Event} {r : Option Nat}

/-- A request as a step. -/
theorem alloc_step (h : (allocator image).alloc s n = some (s', r)) :
    step s (.alloc n) = some s' ∧
      s'.live = (r.map fun p => (⟨p, n⟩ : Alloc)).toList ++ s.live := by
  obtain ⟨⟨h', p⟩, h0, hs⟩ := Option.bind_eq_some_iff.mp h
  cases p with
  | none =>
    obtain ⟨rfl, rfl⟩ := Prod.mk.inj (Option.some.inj hs)
    exact ⟨by simp only [step, h0, Option.bind_eq_bind, Option.bind_some], rfl⟩
  | some p =>
    obtain ⟨rfl, rfl⟩ := Prod.mk.inj (Option.some.inj hs)
    exact ⟨by simp only [step, h0, Option.bind_eq_bind, Option.bind_some], rfl⟩

theorem Holds.serve (hh : Holds mem size s cs) :
    ∃ s' r, (allocator image).alloc s n = some (s', r) ∧
      match r with
      | none => Holds mem size s' cs
      | some a => Holds mem size s' (⟨a, n⟩ ::ₘ cs) := by
  obtain ⟨l, I⟩ := hh.inv
  obtain ⟨s', r, hs⟩ : ∃ s' r, (allocator image).alloc s n = some (s', r) := by
    rcases allocMemory_cases I.layout I.noBuddies n with ⟨h0, _⟩ | ⟨_, _, h', o, _, h1, _⟩
    · exact ⟨s, none, by simp only [allocator, h0, Option.bind_eq_bind, Option.bind_some]⟩
    · exact ⟨⟨h', _ :: s.live⟩, some _, by
        simp only [allocator, h1, Option.bind_eq_bind, Option.bind_some]
        rfl⟩
  obtain ⟨hstep, hlive⟩ := alloc_step hs
  have hreach := hh.1.step (e := .alloc n) trivial hstep
  refine ⟨s', r, hs, ?_⟩
  cases r with
  | none => exact ⟨hreach, hlive ▸ hh.2⟩
  | some p =>
    refine ⟨hreach, ?_⟩
    rw [hlive, Multiset.map_cons]
    exact Multiset.cons_le_cons _ hh.2

theorem Holds.release (hh : Holds mem size s (c ::ₘ cs)) :
    ∃ s', step s (.free (ofChunk c)) = some s' ∧ Holds mem size s' cs := by
  have hlive := hh.live (Multiset.mem_cons_self c cs)
  obtain ⟨l, I⟩ := hh.inv
  obtain ⟨s', _, hs, _⟩ := step_inv (e := .free (ofChunk c)) I hlive
  refine ⟨s', hs, hh.1.step (e := .free _) hlive hs, ?_⟩
  obtain ⟨h', _, hs⟩ := Option.bind_eq_some_iff.mp hs
  obtain rfl := Option.some.inj hs
  have hle := Multiset.erase_le_erase (ofChunk c) hh.2
  rwa [Multiset.map_cons, Multiset.erase_cons_head, Multiset.coe_erase] at hle

/-- Two chunks at once are two live allocations, which do not meet. -/
theorem Holds.apart (hh : Holds mem size s (c ::ₘ d ::ₘ cs)) : c.Apart d := by
  obtain ⟨l, I⟩ := hh.inv
  exact rel_of_map_le (fun h => h.symm) I.partitioned.disjoint hh.2

/-- The bytes a call writes are in no chunk that is held before and after it. -/
theorem Holds.clean (hh : Holds mem size s cs) (he : e.Owned s) (hcall : e.IsCall)
    (hs : step s e = some s') (hlive : ofChunk c ∈ s.live) (hlive' : ofChunk c ∈ s'.live)
    (hw : Wrote s s' x) : ¬ c.Covers x := by
  rintro ⟨hlo, hhi⟩
  obtain ⟨i, hi, hix, hne⟩ := hw
  obtain ⟨l, I⟩ := hh.inv
  have hx : x < x - i + sizeofBlock := by omega
  rcases step_writes_apart I he hcall hs hlive hlive' hne with h | h
  · have hhead : x - i + sizeofBlock ≤ c.address := (Nat.le_add_right _ _).trans h
    exact absurd (hx.trans_le (hhead.trans hlo)) (Nat.lt_irrefl _)
  · have hend : c.address + c.bytes ≤ x - i := h
    exact absurd (hhi.trans_le (hend.trans (Nat.sub_le _ _))) (Nat.lt_irrefl _)

theorem Holds.others (hh : Holds mem size s cs) (hd : OwnsOther s cs d) :
    Holds mem size s (d ::ₘ cs) := by
  refine ⟨hh.1, ?_⟩
  rw [Multiset.map_cons, Multiset.cons_le_of_notMem hd.2]
  exact ⟨Multiset.mem_coe.mpr hd.1, hh.2⟩

theorem Holds.scribble (hh : Holds mem size s cs) (he : Scribbles s e)
    (hs : step s e = some s') : Holds mem size s' cs := by
  refine ⟨hh.1.step he.2 hs, ?_⟩
  cases e with
  | alloc n => exact absurd trivial he.1
  | free a => exact absurd trivial he.1
  | write a address x =>
    obtain rfl := Option.some.inj hs
    exact hh.2

/-- The buddy allocator is shared. -/
def sharing (image : St → Nat → Block) (mem : Nat → Block) (size : Nat) :
    (allocator image).Sharing where
  legal _ := True
  holds := Holds mem size
  admits := AdmitsCall
  scribbles := Scribbles
  owns := OwnsOther
  wrote := Wrote
  alloc hh _ := hh.serve
  free hh := hh.release
  user hh he hs := hh.user he.2 hs
  scribble hh he hs := hh.scribble he hs
  others hh hd := hh.others hd
  apart hh := hh.apart
  free_clean := by
    intro s cs d s' c x hh hs hc hw
    obtain ⟨s1, hs1, hh1⟩ := hh.release
    obtain rfl : s1 = s' := Option.some.inj (hs1.symm.trans hs)
    exact hh.clean (e := .free _) (hh.live (Multiset.mem_cons_self _ _)) trivial hs
      (hh.live (Multiset.mem_cons_of_mem hc)) (hh1.live hc) hw
  user_clean hh he hs hc hw :=
    hh.clean he.2.1 he.1 hs (hh.live hc) ((hh.user he.2 hs).live hc) hw

instance (s : St) (cs : Multiset Chunk) (e : Event) :
    Decidable ((sharing image mem size).admits s cs e) :=
  inferInstanceAs (Decidable (AdmitsCall s cs e))

instance (s : St) (e : Event) : Decidable ((sharing image mem size).scribbles s e) :=
  inferInstanceAs (Decidable (Scribbles s e))

instance (s : St) (cs : Multiset Chunk) (d : Chunk) :
    Decidable ((sharing image mem size).owns s cs d) :=
  inferInstanceAs (Decidable (OwnsOther s cs d))

instance (s s' : St) (x : Nat) : Decidable ((sharing image mem size).wrote s s' x) :=
  inferInstanceAs (Decidable (Wrote s s' x))

end

end Buddy

/-! ## The bitmap allocator -/

namespace Bitmap

/-- A chunk as a live allocation. -/
def liveChunk (c : Chunk) : Alloc := ⟨c.address, c.bytes⟩

/-- The bitmap allocator and the list of what is live. -/
def ownedAllocator : Allocator St Event where
  alloc s n := (allocMemory s.manager n).map fun r =>
    (⟨r.1, if r.2 = 0 then s.live else ⟨r.2, n⟩ :: s.live⟩, if r.2 = 0 then none else some r.2)
  free s c := s.step (.free c.address)
  touch s _ := s
  user := St.step

/-- The chunks are live allocations of a reachable state. -/
def HoldsLive (table : Nat → Cell) (start size : Nat) (s : St) (cs : Multiset Chunk) : Prop :=
  OwnedReach table start size s ∧ cs.map liveChunk ≤ (s.live : Multiset Alloc)

/-- Other users make legal requests, and free what they own and none of the chunks. -/
def AdmitsOwned (s : St) (cs : Multiset Chunk) (e : Event) : Prop :=
  s.Owned e ∧ match e with
    | .alloc _ => True
    | .free p => ∀ c ∈ cs, c.address ≠ p

/-- A live allocation that is none of the chunks. -/
def OwnsOther (s : St) (cs : Multiset Chunk) (d : Chunk) : Prop :=
  liveChunk d ∈ s.live ∧ liveChunk d ∉ cs.map liveChunk

/-- `x` is one of the four bytes of a cell of the table, and the cell is not what it was. -/
def Wrote (s s' : St) (x : Nat) : Prop :=
  heapStartAddress ≤ x ∧ s'.manager.bitmap ((x - heapStartAddress) / 4) ≠
    s.manager.bitmap ((x - heapStartAddress) / 4)

instance (s : St) (cs : Multiset Chunk) : (e : Event) → Decidable (AdmitsOwned s cs e)
  | .alloc _ => inferInstanceAs (Decidable (_ ∧ True))
  | .free p => inferInstanceAs (Decidable (_ ∧ ∀ c ∈ cs, c.address ≠ p))

instance (s : St) (cs : Multiset Chunk) (d : Chunk) : Decidable (OwnsOther s cs d) :=
  inferInstanceAs (Decidable (_ ∧ _))

instance (s s' : St) (x : Nat) : Decidable (Wrote s s' x) := inferInstanceAs (Decidable (_ ∧ _))

section

variable {table : Nat → Cell} {start size n p i x : Nat} {s s' : St} {m m' : MemoryManager}
  {cs : Multiset Chunk} {c d : Chunk} {e : Event} {gs : List (Nat × Nat)} {a b : Alloc}

/-- A call changes cells of the table only. -/
theorem Reach.cell_outside (h : Reach table start size m) (hs : step m e = some m')
    (hi : m.blockQty ≤ i) : m'.bitmap i = m.bitmap i := by
  obtain ⟨gs, L⟩ := h.layout
  cases e with
  | alloc n =>
    obtain ⟨⟨m1, p⟩, ha, rfl⟩ := Option.map_eq_some_iff.mp hs
    rcases Nat.eq_zero_or_pos (sizeToBlockQty n) with h0 | hn
    · rw [allocMemory_zero L h0] at ha
      split at ha
      · obtain ⟨rfl, _⟩ := Prod.mk.inj (Option.some.inj ha)
        rfl
      · cases ha
    · rcases allocMemory_cases L hn with ⟨h0, _⟩ | ⟨a, hnext, h1⟩
      · obtain ⟨rfl, _⟩ := Prod.mk.inj (Option.some.inj (h0.symm.trans ha))
        rfl
      · obtain ⟨rfl, _⟩ := Prod.mk.inj (Option.some.inj (h1.symm.trans ha))
        exact mark_outside (.inr (hnext.mem.2.1.trans hi))
  | free p =>
    rcases freeMemory_cases L hs with rfl | ⟨n, hg, rfl⟩
    · rfl
    · exact clear_outside (.inr ((L.cut.bounds hg).2.1.trans hi))

/-- A step of the users is a call of the allocator. -/
theorem step_manager (hs : s.step e = some s') : step s.manager e = some s'.manager := by
  cases e with
  | alloc n =>
    obtain ⟨r, hr, rfl⟩ := Option.map_eq_some_iff.mp hs
    exact Option.map_eq_some_iff.mpr ⟨r, hr, rfl⟩
  | free p =>
    obtain ⟨m, hm, rfl⟩ := Option.map_eq_some_iff.mp hs
    exact hm

theorem OwnedReach.manager (h : OwnedReach table start size s) :
    Reach table start size s.manager :=
  h.invariant (P := fun t : St => Reach table start size t.manager) .refl
    fun hr _ hs => hr.snoc _ trivial (step_manager hs)

/-- Live allocations start at different addresses. -/
theorem Tracked.addresses (K : Tracked s gs) :
    s.live.Pairwise fun a b => a.address ≠ b.address := by
  have hgs : gs.Pairwise fun g g' : Nat × Nat => g.1 ≠ g'.1 := by
    refine K.cut.disjoint.imp_of_mem fun {g g'} hg hg' h => ?_
    have hpos := (K.cut.bounds hg).2.2.1
    exact (Nat.lt_of_lt_of_le (Nat.lt_add_of_pos_right hpos) h).ne
  have hlive := List.pairwise_map.mp (hgs.perm K.groups fun h => h.symm)
  exact hlive.imp fun h he => h (congrArg s.manager.blockIndex he)

theorem Tracked.eq_of_address (K : Tracked s gs) (ha : a ∈ s.live) (hb : b ∈ s.live)
    (hab : a.address = b.address) : a = b := by
  by_contra hne
  have : Std.Symm fun a b : Alloc => a.address ≠ b.address := ⟨fun _ _ h => h.symm⟩
  exact K.addresses.forall ha hb hne hab

/-- A free takes out the allocation at its address and no other. -/
theorem Tracked.erase (K : Tracked s gs) (ha : a ∈ s.live) :
    (s.live : Multiset Alloc) =
      a ::ₘ (s.live.eraseP fun x => x.address = a.address : List Alloc) := by
  obtain ⟨b, l1, l2, _, hb, hlive, herase⟩ := List.exists_of_eraseP
    (p := fun x : Alloc => decide (x.address = a.address)) ha (decide_eq_true rfl)
  have hmem : b ∈ s.live := hlive ▸ List.mem_append_right _ List.mem_cons_self
  obtain rfl := K.eq_of_address hmem ha (of_decide_eq_true hb)
  rw [herase, Multiset.cons_coe]
  conv_lhs => rw [hlive]
  exact Multiset.coe_eq_coe.mpr List.perm_middle

theorem HoldsLive.live (hh : HoldsLive table start size s cs) (hc : c ∈ cs) :
    liveChunk c ∈ s.live :=
  Multiset.mem_coe.mp (Multiset.mem_of_le hh.2 (Multiset.mem_map_of_mem _ hc))

theorem HoldsLive.alloc (hh : HoldsLive table start size s cs) (h1 : 1 ≤ n) (h2 : n < 2 ^ 32) :
    ∃ s' r, ownedAllocator.alloc s n = some (s', r) ∧
      match r with
      | none => HoldsLive table start size s' cs
      | some a => HoldsLive table start size s' (⟨a, n⟩ ::ₘ cs) := by
  obtain ⟨gs, I⟩ := hh.1.inv
  obtain ⟨s1, hs, _⟩ := I.alloc h1 h2
  have hreach : OwnedReach table start size s1 := hh.1.snoc (.alloc n) ⟨h1, h2⟩ hs
  obtain ⟨⟨m, q⟩, hm, rfl⟩ := Option.map_eq_some_iff.mp hs
  have ha : ownedAllocator.alloc s n =
      some (⟨m, if q = 0 then s.live else ⟨q, n⟩ :: s.live⟩, if q = 0 then none else some q) := by
    simp only [ownedAllocator, hm, Option.map_some]
  by_cases hq : q = 0
  · simp only [if_pos hq] at ha hreach
    exact ⟨_, _, ha, hreach, hh.2⟩
  · simp only [if_neg hq] at ha hreach
    refine ⟨_, _, ha, hreach, ?_⟩
    rw [Multiset.map_cons, ← Multiset.cons_coe]
    exact Multiset.cons_le_cons _ hh.2

theorem HoldsLive.free (hh : HoldsLive table start size s (c ::ₘ cs)) :
    ∃ s', s.step (.free c.address) = some s' ∧ HoldsLive table start size s' cs := by
  have hlive := hh.live (Multiset.mem_cons_self c cs)
  obtain ⟨gs, I⟩ := hh.1.inv
  obtain ⟨s', hs, _⟩ := I.free hlive
  refine ⟨s', hs, hh.1.snoc (.free c.address) ⟨_, hlive, rfl⟩ hs, ?_⟩
  obtain ⟨m, _, rfl⟩ := Option.map_eq_some_iff.mp hs
  have hle := hh.2
  rw [Multiset.map_cons, I.toTracked.erase hlive] at hle
  exact (Multiset.cons_le_cons_iff _).mp hle

theorem HoldsLive.user (hh : HoldsLive table start size s cs) (he : AdmitsOwned s cs e)
    (hs : s.step e = some s') : HoldsLive table start size s' cs := by
  refine ⟨hh.1.snoc e he.1 hs, ?_⟩
  cases e with
  | alloc n =>
    obtain ⟨⟨m, q⟩, _, rfl⟩ := Option.map_eq_some_iff.mp hs
    show cs.map liveChunk ≤
      ((if q = 0 then s.live else ⟨q, n⟩ :: s.live : List Alloc) : Multiset Alloc)
    split
    · exact hh.2
    · exact hh.2.trans (Multiset.coe_le.mpr (List.sublist_cons_self _ _).subperm)
  | free p =>
    obtain ⟨⟨a, ha, rfl⟩, hne⟩ := he
    obtain ⟨gs, I⟩ := hh.1.inv
    obtain ⟨m, _, rfl⟩ := Option.map_eq_some_iff.mp hs
    have hle := hh.2
    rw [I.toTracked.erase ha] at hle
    refine (Multiset.le_cons_of_notMem fun hmem => ?_).mp hle
    obtain ⟨c, hc, rfl⟩ := Multiset.mem_map.mp hmem
    exact hne c hc rfl

theorem HoldsLive.apart (hh : HoldsLive table start size s (c ::ₘ d ::ₘ cs)) : c.Apart d := by
  obtain ⟨gs, I⟩ := hh.1.inv
  exact rel_of_map_le (fun h => h.symm) I.represented.disjoint hh.2

/-- The table ends below the first block, so that a call writes into no chunk. -/
theorem HoldsLive.clean (hh : HoldsLive table start size s cs) (hs : s.step e = some s')
    (hc : c ∈ cs) (hw : Wrote s s' x) : ¬ c.Covers x := by
  rintro ⟨hlo, _⟩
  obtain ⟨_, hne⟩ := hw
  obtain ⟨gs, I⟩ := hh.1.inv
  obtain ⟨_, hstart, hqty⟩ := hh.1.manager.steady
  have hfirst : s.manager.start ≤ c.address := (I.pointer (hh.live hc)).2
  have hx : 39452672 ≤ x := hstart ▸ hfirst.trans hlo
  refine hne (hh.1.manager.cell_outside (step_manager hs) ?_)
  rw [hqty, heapStartAddress, Nat.le_div_iff_mul_le (by decide)]
  exact Nat.le_sub_of_add_le (Nat.le_trans (by decide) hx)

theorem HoldsLive.others (hh : HoldsLive table start size s cs) (hd : OwnsOther s cs d) :
    HoldsLive table start size s (d ::ₘ cs) := by
  refine ⟨hh.1, ?_⟩
  rw [Multiset.map_cons, Multiset.cons_le_of_notMem hd.2]
  exact ⟨Multiset.mem_coe.mpr hd.1, hh.2⟩

/-- The bitmap allocator is shared, for requests that are not truncated. -/
def sharing (table : Nat → Cell) (start size : Nat) : ownedAllocator.Sharing where
  legal n := 1 ≤ n ∧ n < 2 ^ 32
  holds := HoldsLive table start size
  admits := AdmitsOwned
  scribbles _ _ := False
  owns := OwnsOther
  wrote := Wrote
  alloc hh hn := hh.alloc hn.1 hn.2
  free hh := hh.free
  user hh he hs := hh.user he hs
  scribble _ he _ := he.elim
  others hh hd := hh.others hd
  apart hh := hh.apart
  free_clean hh hs hc hw := hh.clean (e := .free _) hs (Multiset.mem_cons_of_mem hc) hw
  user_clean hh _ hs hc hw := hh.clean hs hc hw

instance (s : St) (cs : Multiset Chunk) (e : Event) :
    Decidable ((sharing table start size).admits s cs e) :=
  inferInstanceAs (Decidable (AdmitsOwned s cs e))

instance (s : St) (e : Event) : Decidable ((sharing table start size).scribbles s e) :=
  inferInstanceAs (Decidable False)

instance (s : St) (cs : Multiset Chunk) (d : Chunk) :
    Decidable ((sharing table start size).owns s cs d) :=
  inferInstanceAs (Decidable (OwnsOther s cs d))

instance (s s' : St) (x : Nat) : Decidable ((sharing table start size).wrote s s' x) :=
  inferInstanceAs (Decidable (Wrote s s' x))

end

end Bitmap

end SoKernel
