import SoKernel.Buddy.Theorems

/-!
# Freeing twice

`freeMemory` knows a block that is free by the status in its header. While the block is
free its header may be merged into the middle of a larger block, and is then stale.

Results:
1. `Freed.still`, `Freed.other`, `Freed.own`: what a free does to a stale header, to the
   header of another free block, and to the header of the block itself.
2. `double_free_iff`: a second free does nothing exactly when the block starts no free
   block after the first one, or still starts one.
-/

namespace SoKernel.Buddy

open DyadicBlocks

/-- A free block starts at `x`. -/
def Listed (l : Nat → List Nat) (x : Nat) : Prop := ∃ k, x ∈ l k

/-- The block of `p` starts an entry of a free list. -/
def Heap.Heads (h : Heap) (p : Nat) : Prop :=
  ∃ k l, Chain h.mem (h.man.freeBlocks k) l ∧ ∃ x ∈ l, p = addr x + sizeofBlock

/-- What a second free is to leave as it was. -/
structure Untouched (s : St) (h' : Heap) : Prop where
  lists : ∀ k l, Chain s.heap.mem (s.heap.man.freeBlocks k) l →
    Chain h'.mem (h'.man.freeBlocks k) l ∧ ∀ o ∈ l, h'.mem (addr o) = s.heap.mem (addr o)
  live : ∀ a ∈ s.live, h'.mem (addr a.blk.off) = s.heap.mem (addr a.blk.off)
  used : h'.man.usedMem = s.heap.man.usedMem
  /-- Every later request is answered as before. -/
  answers : ∀ n, (allocMemory h' n).map Prod.snd = (allocMemory s.heap n).map Prod.snd

def Harmless (s : St) (p : Nat) : Prop :=
  ∃ h', freeMemory s.heap (some p) = some h' ∧ Untouched s h'

/-- Frees of live pointers. -/
def FreesOnly (s : St) (e : Event) : Prop := ∃ a ∈ s.live, e = .free a

section

variable {h h1 h' : Heap} {l l' : Nat → List Nat} {O : Multiset Blk} {b c : Blk} {x p : Nat}
  {mem : Nat → Block} {size : Nat} {s s1 s2 : St} {a : Alloc}

/-! ## Headers in the merge loop -/

/-- A header whose block has gone into a larger one: it says `st` and keeps a possible
order. -/
structure Stale (h : Heap) (l : Nat → List Nat) (x : Nat) (st : Status) : Prop where
  unlisted : ¬ Listed l x
  status : (h.mem (addr x)).status = st
  order : (h.mem (addr x)).order ≤ h.man.maxOrder

theorem listed_update {k : Nat} {r : List Nat} :
    Listed (Function.update l k r) x ↔ x ∈ r ∨ ∃ j, j ≠ k ∧ x ∈ l j := by
  constructor
  · rintro ⟨j, hj⟩
    rcases eq_or_ne j k with rfl | hjk
    · rw [Function.update_self] at hj
      exact .inl hj
    · rw [Function.update_of_ne hjk] at hj
      exact .inr ⟨j, hjk, hj⟩
  · rintro (hr | ⟨j, hjk, hj⟩)
    · exact ⟨k, by rwa [Function.update_self]⟩
    · exact ⟨j, by rwa [Function.update_of_ne hjk]⟩

theorem listed_iff (k : Nat) : Listed l x ↔ x ∈ l k ∨ ∃ j, j ≠ k ∧ x ∈ l j := by
  rw [← listed_update, Function.update_eq_self]

theorem listed_erase {k o : Nat} (hx : Listed l x) (hne : x ≠ o) :
    Listed (Function.update l k ((l k).erase o)) x :=
  listed_update.mpr (((listed_iff k).mp hx).imp_left (List.mem_erase_of_ne hne).mpr)

theorem listed_of_erase {k o : Nat} (hx : Listed (Function.update l k ((l k).erase o)) x) :
    Listed l x :=
  (listed_iff k).mpr ((listed_update.mp hx).imp_left List.mem_of_mem_erase)

/-- The header the round takes out of its list is not listed any more. -/
theorem Hand.not_listed_buddy (H : Hand h l O b) (hbud : b.buddy.off ∈ l b.ord) :
    ¬ Listed (Function.update l b.ord ((l b.ord).erase b.buddy.off)) b.buddy.off := by
  intro hx
  rcases listed_update.mp hx with hx | ⟨j, hjk, hj⟩
  · exact (H.layout.nodup _).not_mem_erase hx
  · exact hjk (congrArg Blk.ord (H.layout.eq_of_off (H.layout.mem_tiling hj)
      (H.layout.mem_tiling hbud) rfl))

theorem Hand.not_listed (H : Hand h l O b) : ¬ Listed l b.off :=
  fun ⟨j, hj⟩ => H.layout.not_mem_list (Multiset.mem_cons_self b O) j hj

/-- The order of the parent fits, and so do the orders a round does not write. -/
theorem Merged.order_le (M : Merged h h1 b) (hk : b.ord < h.man.maxOrder)
    (H1 : Hand h1 l O b.parent) (hx : (h.mem (addr x)).order ≤ h.man.maxOrder) :
    (h1.mem (addr x)).order ≤ h1.man.maxOrder := by
  rw [M.maxOrder]
  rcases eq_or_ne x b.parent.off with hp | hp
  · rw [hp, H1.order]
    exact hk
  · rwa [M.order x hp]

/-- The rounds leave a header alone that is neither listed nor in hand. -/
theorem Merges.still (M : Merges O h l b h' l' c) (hx : ¬ Listed l x) (hne : x ≠ b.off) :
    ¬ Listed l' x ∧ x ≠ c.off ∧ (h'.mem (addr x)).status = (h.mem (addr x)).status ∧
      (h'.mem (addr x)).order = (h.mem (addr x)).order ∧ h'.man.maxOrder = h.man.maxOrder := by
  induction M with
  | refl => exact ⟨hx, hne, rfl, rfl, rfl⟩
  | @round _ _ _ l _ b _ H _ hbud M _ _ ih =>
    have hxb : x ≠ b.buddy.off := fun he => hx ⟨_, he ▸ hbud⟩
    have hxp : x ≠ b.parent.off := by
      rcases parent_off b with he | he <;> rw [he] <;> assumption
    obtain ⟨hl, hc, hst, hord, hmax⟩ := ih (fun h => hx (listed_of_erase h)) hxp
    exact ⟨hl, hc, hst.trans (M.status x hxb), hord.trans (M.order x hxp), hmax.trans M.maxOrder⟩

/-- The header of the block in hand stays `FREE`, also when a left buddy swallows it. -/
theorem Merges.own (M : Merges O h l b h' l' c) (hst : (h.mem (addr b.off)).status = .FREE)
    (hord : (h.mem (addr b.off)).order ≤ h.man.maxOrder) :
    b.off = c.off ∨ Stale h' l' b.off .FREE := by
  generalize hx : b.off = x at *
  induction M with
  | refl => exact .inl hx.symm
  | @round h h1 h' l _ b c H hk hbud M H1 hrest ih =>
    have hxb : x ≠ b.buddy.off := hx ▸ (buddy_off_ne b).symm
    have hst1 := (M.status x hxb).trans hst
    have hord1 := M.order_le hk H1 hord
    rcases eq_or_ne b.parent.off x with hxp | hxp
    · exact ih hxp hst1 hord1
    · have hnot : ¬ Listed (Function.update l b.ord ((l b.ord).erase b.buddy.off)) x :=
        fun h => H.not_listed (hx ▸ listed_of_erase h)
      obtain ⟨hl, _, hst2, hord2, hmax⟩ := hrest.still hnot (Ne.symm hxp)
      refine .inr ⟨hl, hst2.trans hst1, ?_⟩
      rw [hord2, hmax]
      exact hord1

/-- A free block stays in its list, ends in hand, or leaves a header that says
`OCCUPIED`. -/
theorem Merges.other (M : Merges O h l b h' l' c)
    (hx : Listed l x ∨ Stale h l x .OCCUPIED) :
    Listed l' x ∨ Stale h' l' x .OCCUPIED := by
  induction M with
  | refl => exact hx
  | @round h h1 h' l _ b c H hk hbud M H1 _ ih =>
    refine ih ?_
    rcases eq_or_ne x b.buddy.off with rfl | hxb
    · refine .inr ⟨H.not_listed_buddy hbud, M.buddy, M.order_le hk H1 ?_⟩
      rw [H.buddy_header hbud]
      exact Nat.le_of_lt hk
    · rcases hx with hx | hx
      · exact .inl (listed_erase hx hxb)
      · exact .inr ⟨fun h => hx.unlisted (listed_of_erase h), (M.status x hxb).trans hx.status,
          M.order_le hk H1 hx.order⟩

/-! ## Headers in a free -/

theorem listed_push {k o : Nat} :
    Listed (Function.update l k (o :: l k)) x ↔ Listed l x ∨ x = o := by
  rw [listed_update, listed_iff k, List.mem_cons, or_assoc, or_comm]

/-- `createBlock` at another address keeps a stale header. -/
theorem Stale.create {st : Status} (S : Stale h l x st) (K : Keeps (· = c.off) h h')
    (hne : x ≠ c.off) : Stale h' (Function.update l c.ord (c.off :: l c.ord)) x st where
  unlisted hx := (listed_push.mp hx).elim S.unlisted hne
  status := (K.status x hne).trans S.status
  order := by
    rw [K.order x hne, K.maxOrder]
    exact S.order

/-- A stale header is out of reach of later frees. -/
theorem Freed.still {st : Status} (F : Freed O h l b h' l') (S : Stale h l x st)
    (hne : x ≠ b.off) : Stale h' l' x st := by
  obtain ⟨h1, h2, l2, c, hm, _, _, hmax, M, rfl, K⟩ := F.rounds
  obtain ⟨hl, hc, hst, hord, hmax2⟩ := M.still S.unlisted hne
  refine Stale.create ⟨hl, ?_, ?_⟩ K hc
  · rw [hst, hm x hne]
    exact S.status
  · rw [hord, hm x hne, hmax2, hmax]
    exact S.order

/-- Another free block stays listed, or its header is left saying `OCCUPIED`. -/
theorem Freed.other (F : Freed O h l b h' l') (hx : Listed l x) :
    Listed l' x ∨ Stale h' l' x .OCCUPIED := by
  obtain ⟨h1, h2, l2, c, _, _, _, _, M, rfl, K⟩ := F.rounds
  rcases eq_or_ne x c.off with hc | hc
  · exact .inl (listed_push.mpr (.inr hc))
  · rcases M.other (.inl hx) with hx | S
    · exact .inl (listed_push.mpr (.inl hx))
    · exact .inr (S.create K hc)

/-- The block itself becomes listed, or its header is left saying `FREE`. -/
theorem Freed.own (F : Freed O h l b h' l') : Listed l' b.off ∨ Stale h' l' b.off .FREE := by
  obtain ⟨h1, h2, l2, c, _, hown, H, _, M, rfl, K⟩ := F.rounds
  rcases eq_or_ne b.off c.off with hc | hc
  · exact .inl (listed_push.mpr (.inr hc))
  · have hst : (h1.mem (addr b.off)).status = .FREE := by rw [hown]
    have hord : (h1.mem (addr b.off)).order ≤ h1.man.maxOrder := by
      rw [H.order]
      exact H.layout.tiling.ord_le (Multiset.mem_add.mpr (.inr (Multiset.mem_cons_self _ _)))
    exact .inr (((M.own hst hord).resolve_left hc).create K hc)

/-! ## The second free -/

theorem Chain.unique {mem : Nat → Block} {q : Option Nat} {k k' : List Nat} (hk : Chain mem q k)
    (hk' : Chain mem q k') : k = k' := by
  induction k generalizing q k' with
  | nil =>
    cases k' with
    | nil => rfl
    | cons o k' => cases hk.symm.trans hk'.1
  | cons o k ih =>
    cases k' with
    | nil => cases hk.1.symm.trans hk'
    | cons o' k' =>
      obtain rfl : o = o' := addr_inj.mp (Option.some.inj (hk.1.symm.trans hk'.1))
      rw [ih hk.2 hk'.2]

theorem Layout.heads_iff (L : Layout h l O) : h.Heads (addr x + sizeofBlock) ↔ Listed l x := by
  constructor
  · rintro ⟨k, r, hr, o, ho, he⟩
    obtain rfl : x = o := addr_inj.mp (Nat.add_right_cancel he)
    exact ⟨k, (hr.unique (L.chain k)) ▸ ho⟩
  · rintro ⟨k, hk⟩
    exact ⟨k, l k, L.chain k, x, hk, rfl⟩

/-- The loop and the helpers do not write `used_mem`. -/
theorem removeBlock_used {q : Option Nat} (h0 : removeBlock h q = some h') :
    h'.man.usedMem = h.man.usedMem := by
  cases q with
  | none => rw [← Option.some.inj h0]
  | some block =>
    unfold removeBlock at h0
    dsimp only at h0
    split at h0
    · split at h0
      · rw [← Option.some.inj h0]
      · split at h0
        · rw [← Option.some.inj h0]
          rfl
        · obtain ⟨curr, _, h2⟩ := Option.bind_eq_some_iff.mp h0
          split at h2
          · rw [← Option.some.inj h2]
          · rw [← Option.some.inj h2]
            rfl
    · cases h0

theorem mergeLoop_used {fuel block block' : Nat} (h0 : mergeLoop fuel h block = some (h', block')) :
    h'.man.usedMem = h.man.usedMem := by
  induction fuel generalizing h block with
  | zero => cases h0
  | succ fuel ih =>
    unfold mergeLoop at h0
    dsimp only at h0
    split at h0
    · split at h0
      · rw [← (Prod.mk.inj (Option.some.inj h0)).1]
      · obtain ⟨h2, hr2, h3⟩ := Option.bind_eq_some_iff.mp h0
        obtain ⟨h4, hr4, h5⟩ := Option.bind_eq_some_iff.mp h3
        exact (ih h5).trans ((removeBlock_used hr4).trans (removeBlock_used hr2))
    · rw [← (Prod.mk.inj (Option.some.inj h0)).1]

theorem sub64_ne {n k : Nat} (hn : n < 2 ^ 64) (hk : k < 64) : sub64 n (1 <<< k) ≠ n := by
  have hpow : 2 ^ k < 2 ^ 64 := Nat.pow_lt_pow_right Nat.one_lt_two hk
  have hpos := Nat.two_pow_pos k
  rw [Nat.one_shiftLeft]
  generalize 2 ^ k = m at *
  unfold sub64
  omega

/-- A free of a block whose header says `OCCUPIED` is counted. -/
theorem freeMemory_counts (hst : (h.mem (p - sizeofBlock)).status = .OCCUPIED)
    (hord : (h.mem (p - sizeofBlock)).order < 64) (hu : h.man.usedMem < 2 ^ 64)
    (h0 : freeMemory h (some p) = some h') : h'.man.usedMem ≠ h.man.usedMem := by
  have hne : (h.mem (p - sizeofBlock)).status ≠ .FREE := by simp [hst]
  unfold freeMemory at h0
  dsimp only at h0
  rw [if_neg hne] at h0
  obtain ⟨⟨h2, block⟩, hloop, hcreate⟩ := Option.bind_eq_some_iff.mp h0
  have hused : h'.man.usedMem = h2.man.usedMem := by
    unfold createBlock at hcreate
    dsimp only at hcreate
    split at hcreate
    · rw [← Option.some.inj hcreate]
      rfl
    · cases hcreate
  rw [hused, mergeLoop_used hloop, setStatus_man, setUsed_used]
  exact sub64_ne hu hord

theorem freeMemory_free (hst : (h.mem (p - sizeofBlock)).status = .FREE) :
    freeMemory h (some p) = some h := if_pos hst

/-- The header at `p` decides. -/
theorem harmless_iff {l : Nat → List Nat} (I : Inv s l)
    (hord : (s.heap.mem (p - sizeofBlock)).order ≤ s.heap.man.maxOrder) :
    Harmless s p ↔ (s.heap.mem (p - sizeofBlock)).status = .FREE := by
  constructor
  · rintro ⟨h', h0, U⟩
    cases hst : (s.heap.mem (p - sizeofBlock)).status with
    | FREE => rfl
    | OCCUPIED =>
      have hlt : s.heap.man.usedMem < 2 ^ 64 := I.used ▸ I.layout.used_lt
      have hord : (s.heap.mem (p - sizeofBlock)).order < 64 :=
        Nat.lt_of_le_of_lt hord (Nat.lt_trans I.layout.bound (by decide))
      exact absurd U.used (freeMemory_counts hst hord hlt h0)
  · intro hst
    exact ⟨s.heap, freeMemory_free hst, ⟨fun _ _ hk => ⟨hk, fun _ _ => rfl⟩, fun _ _ => rfl, rfl,
      fun _ => rfl⟩⟩

/-- What the header of the freed block can be while only frees follow; `first` says
whether the block was listed after its own free. -/
inductive Fate (s : St) (l : Nat → List Nat) (x : Nat) : Bool → Prop
  | buried : Stale s.heap l x .FREE → Fate s l x false
  | listed : Listed l x → Fate s l x true
  | swallowed : Stale s.heap l x .OCCUPIED → Fate s l x true

/-- The block is dead, and its header has the fate of its first free. -/
structure Dead (s : St) (x : Nat) (first : Bool) : Prop where
  notLive : ∀ a ∈ s.live, a.blk.off ≠ x
  fate : ∃ l, Inv s l ∧ Fate s l x first

theorem Dead.step {first : Bool} {e : Event} {s' : St} (D : Dead s x first) (he : FreesOnly s e)
    (hs : step s e = some s') : Dead s' x first := by
  obtain ⟨a, ha, rfl⟩ := he
  obtain ⟨l, I, F⟩ := D.fate
  obtain ⟨h', l', hfree, I', _, hfreed⟩ := freeMemory_inv I ha
  obtain rfl : s' = ⟨h', s.live.erase a⟩ := by
    simp only [Buddy.step, hfree, Option.bind_eq_bind, Option.bind_some] at hs
    exact (Option.some.inj hs).symm
  have hne : x ≠ a.blk.off := (D.notLive a ha).symm
  refine ⟨fun b hb => D.notLive b (List.mem_of_mem_erase hb), l', I', ?_⟩
  cases F with
  | buried S => exact .buried (hfreed.still S hne)
  | listed hx =>
    rcases hfreed.other hx with hx | S
    · exact .listed hx
    · exact .swallowed S
  | swallowed S => exact .swallowed (hfreed.still S hne)

/-- After its own free the block is dead. -/
theorem Inv.dead (I : Inv s l) (ha : a ∈ s.live) (hs : step s (.free a) = some s1) :
    (Dead s1 a.blk.off true ∧ s1.heap.Heads a.ptr) ∨
      (Dead s1 a.blk.off false ∧ ¬ s1.heap.Heads a.ptr) := by
  obtain ⟨h', l', hfree, I', _, hfreed⟩ := freeMemory_inv I ha
  obtain rfl : s1 = ⟨h', s.live.erase a⟩ := by
    simp only [Buddy.step, hfree, Option.bind_eq_bind, Option.bind_some] at hs
    exact (Option.some.inj hs).symm
  have hnot : ∀ b ∈ s.live.erase a, b.blk.off ≠ a.blk.off := by
    intro b hb
    have L : Layout s.heap l (a.blk ::ₘ liveBlks (s.live.erase a)) := liveBlks_erase ha ▸ I.layout
    exact L.off_ne (mem_liveBlks hb)
  have hheads := I'.layout.heads_iff (x := a.blk.off)
  rw [I.ptr a ha]
  rcases hfreed.own with hx | S
  · exact .inl ⟨⟨hnot, l', I', .listed hx⟩, hheads.mpr hx⟩
  · exact .inr ⟨⟨hnot, l', I', .buried S⟩, fun h => S.unlisted (hheads.mp h)⟩

/-- What the fate says about a second free. -/
theorem Dead.harmless_iff {first : Bool} (D : Dead s x first) (hp : p = addr x + sizeofBlock) :
    Harmless s p ↔ (first = true → s.heap.Heads p) := by
  obtain ⟨l, I, F⟩ := D.fate
  have haddr : p - sizeofBlock = addr x := by rw [hp, Nat.add_sub_cancel]
  have hheads : s.heap.Heads p ↔ Listed l x := hp ▸ I.layout.heads_iff
  cases F with
  | buried S =>
    rw [Buddy.harmless_iff I (haddr ▸ S.order), haddr]
    exact iff_of_true S.status nofun
  | listed hx =>
    obtain ⟨k, hk⟩ := hx
    obtain ⟨hord, hst⟩ := I.layout.header k x hk
    have hle : (s.heap.mem (p - sizeofBlock)).order ≤ s.heap.man.maxOrder := by
      rw [haddr, hord]
      exact I.layout.ord_le hk
    rw [Buddy.harmless_iff I hle, haddr]
    exact iff_of_true hst fun _ => hheads.mpr ⟨k, hk⟩
  | swallowed S =>
    rw [Buddy.harmless_iff I (haddr ▸ S.order), haddr]
    refine iff_of_false (by simp [S.status]) fun h => S.unlisted (hheads.mp (h rfl))

/-- A second free, after frees of live pointers only: it does nothing exactly when the
block started no free block after its own free, or still starts one. -/
theorem double_free_iff (hr : Reach mem size s) (ha : a ∈ s.live)
    (h1 : step s (.free a) = some s1) (h2 : Run step FreesOnly s1 s2) :
    Harmless s2 a.ptr ↔ (s1.heap.Heads a.ptr → s2.heap.Heads a.ptr) := by
  obtain ⟨l, I, _⟩ := reach_inv hr
  have hrun : ∀ first, Dead s1 a.blk.off first → Dead s2 a.blk.off first := fun first D =>
    h2.invariant (P := fun s => Dead s a.blk.off first) D fun D he hs => D.step he hs
  rcases I.dead ha h1 with ⟨D, hheads⟩ | ⟨D, hheads⟩
  · rw [(hrun _ D).harmless_iff (I.ptr a ha)]
    exact ⟨fun h _ => h rfl, fun h _ => h hheads⟩
  · rw [(hrun _ D).harmless_iff (I.ptr a ha)]
    exact iff_of_true nofun fun h => absurd h hheads

/-- Two allocations of the heap of `main`. -/
def twoBlocks : List Event := [.alloc 100, .alloc 100]

theorem exists_two_frees {a b : Alloc} {P : St → Prop} [DecidablePred P]
    (h : ((createMemoryManager zeroMem heapStartAddress heapSize).bind fun h0 =>
      (Run.exec step (fun s e => e.Owned s) ⟨h0, []⟩ twoBlocks).bind fun s =>
        (if a ∈ s.live then step s (.free a) else none).bind fun s1 =>
          (if b ∈ s1.live then step s1 (.free b) else none).filter fun s2 => decide (P s2)).isSome =
        true) :
    ∃ s s1 s2, Reach zeroMem heapSize s ∧ a ∈ s.live ∧
      step s (.free a) = some s1 ∧ b ∈ s1.live ∧ step s1 (.free b) = some s2 ∧ P s2 := by
  obtain ⟨s2, h⟩ := Option.isSome_iff_exists.mp h
  obtain ⟨h0, hc, h⟩ := Option.bind_eq_some_iff.mp h
  obtain ⟨s, hrun, h⟩ := Option.bind_eq_some_iff.mp h
  obtain ⟨s1, h1, h⟩ := Option.bind_eq_some_iff.mp h
  obtain ⟨h2, hP⟩ := Option.filter_eq_some_iff.mp h
  split at h1
  · next ha =>
    split at h2
    · next hb => exact ⟨s, s1, s2, ⟨h0, hc, Run.of_exec hrun⟩, ha, h1, hb, h2, of_decide_eq_true hP⟩
    · cases h2
  · cases h1

/-- The left half is freed first: it still starts the free block, and its second free
does nothing. -/
theorem double_free_iff_left :
    ∃ s s1 s2, Reach zeroMem heapSize s ∧ ⟨6291472, 100⟩ ∈ s.live ∧
      step s (.free ⟨6291472, 100⟩) = some s1 ∧ Run step FreesOnly s1 s2 ∧
      s2.live = [] ∧ Harmless s2 6291472 := by
  obtain ⟨s, s1, s2, hr, ha, h1, hb, h2, hlive, hhead, hnext⟩ :
      ∃ s s1 s2, Reach zeroMem heapSize s ∧ ⟨6291472, 100⟩ ∈ s.live ∧
        step s (.free ⟨6291472, 100⟩) = some s1 ∧ ⟨6291600, 100⟩ ∈ s1.live ∧
        step s1 (.free ⟨6291600, 100⟩) = some s2 ∧ s2.live = [] ∧
        s2.heap.man.freeBlocks 29 = some 6291456 ∧ (s2.heap.mem 6291456).next = none :=
    exists_two_frees (by decide +kernel)
  have hrun : Run step FreesOnly s1 s2 := .single _ ⟨_, hb, rfl⟩ h2
  refine ⟨s, s1, s2, hr, ha, h1, hrun, hlive, (double_free_iff hr ha h1 hrun).mpr fun _ => ?_⟩
  exact ⟨29, [0], ⟨hhead, hnext⟩, 0, List.mem_singleton_self 0, rfl⟩

/-- The right half is freed first and swallowed by the free of the left one: its second
free takes its 128 bytes off `used_mem` again and lists it inside the free heap. -/
theorem double_free_corrupts :
    ∃ s s1 s2, Reach zeroMem heapSize s ∧ ⟨6291600, 100⟩ ∈ s.live ∧
      step s (.free ⟨6291600, 100⟩) = some s1 ∧ Run step FreesOnly s1 s2 ∧
      (freeMemory s2.heap (some 6291600)).map (fun h =>
        (h.man.usedMem, h.man.freeBlocks 7, h.man.freeBlocks 29)) =
          some (2 ^ 64 - 128, some 6291584, some 6291456) ∧
      ¬ Harmless s2 6291600 := by
  obtain ⟨s, s1, s2, hr, ha, h1, hb, h2, hused, heval⟩ :
      ∃ s s1 s2, Reach zeroMem heapSize s ∧ ⟨6291600, 100⟩ ∈ s.live ∧
        step s (.free ⟨6291600, 100⟩) = some s1 ∧ ⟨6291472, 100⟩ ∈ s1.live ∧
        step s1 (.free ⟨6291472, 100⟩) = some s2 ∧ s2.heap.man.usedMem = 0 ∧
        (freeMemory s2.heap (some 6291600)).map (fun h =>
          (h.man.usedMem, h.man.freeBlocks 7, h.man.freeBlocks 29)) =
            some (2 ^ 64 - 128, some 6291584, some 6291456) :=
    exists_two_frees (by decide +kernel)
  refine ⟨s, s1, s2, hr, ha, h1, .single _ ⟨_, hb, rfl⟩ h2, heval, ?_⟩
  rintro ⟨h', h0, U⟩
  rw [h0] at heval
  have hne := (Prod.mk.inj (Option.some.inj heval)).1
  rw [U.used, hused] at hne
  exact absurd hne (by decide)

end

end SoKernel.Buddy
