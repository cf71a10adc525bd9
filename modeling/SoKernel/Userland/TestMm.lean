import SoKernel.Kernel.HeapClients
import Mathlib.Data.UInt

/-!
# `test_mm`

The loop of `tests/test_mm.c`: it requests blocks until `max_memory` bytes are out, fills each of
them with its number, looks whether they still hold it, and frees them. It accesses memory byte
by byte, and between any two of its steps the allocator can serve others, and others can write
what they own.

Results:
1. `Sound.step`: what the test has filled lasts.
2. `reach_testMm`: it never prints an error, on the heap of either allocator.
-/

namespace SoKernel.TestMm

universe u v

/-! ## The loop -/

/-- `MAX_BLOCKS` -/
def maxBlocks : Nat := 128

/-- Where the loop stands: before a request, or at the byte `k` of the block `i`. -/
inductive Place
  | request
  | set (i k : Nat)
  | check (i k : Nat)
  | free (i : Nat)
deriving DecidableEq, Repr

structure St (σ : Type u) where
  heap : σ
  bytes : Nat → UInt8
  /-- `mm_rqs[0], …, mm_rqs[rq - 1]` -/
  mmRqs : List Chunk
  total : UInt32
  place : Place
  /-- How often the test has printed `test_mm ERROR`. -/
  errors : Nat

/-- A step of the test, or of somebody else. `u` is what `GetUniform` returns if it is called, and
`ws` are the bytes that a call of the allocator writes. -/
inductive Event (ε : Type v)
  | next (u : UInt32) (ws : List (Nat × UInt8))
  | call (e : ε) (ws : List (Nat × UInt8))
  | scribble (e : ε)
  | store (d : Chunk) (x : Nat) (v : UInt8)

def writeAll (bytes : Nat → UInt8) (ws : List (Nat × UInt8)) : Nat → UInt8 :=
  ws.foldl (fun bytes w => Function.update bytes w.1 w.2) bytes

section

variable {σ : Type u} {ε : Type v} (A : Allocator σ ε) (maxMemory : UInt64)

/-- The next step of the inner loop of `test_mm`, `my_memset` or `memcheck`. -/
def next (s : St σ) (u : UInt32) (ws : List (Nat × UInt8)) : Option (St σ) :=
  match s.place with
  | .request =>
    if s.mmRqs.length < maxBlocks ∧ s.total.toUInt64 < maxMemory then do
      let size := u + 1
      let (heap, r) ← A.alloc s.heap size.toNat
      let s := { s with heap := heap, bytes := writeAll s.bytes ws }
      match r with
      | none => some s
      | some address =>
        some { s with mmRqs := s.mmRqs ++ [⟨address, size.toNat⟩], total := s.total + size }
    else some { s with place := .set 0 0 }
  | .set i k =>
    match s.mmRqs[i]? with
    | none => some { s with place := .check 0 0 }
    | some rq =>
      if k < rq.bytes then
        let bytes := Function.update s.bytes (rq.address + k) (.ofNat i)
        some { s with bytes := bytes, place := .set i (k + 1) }
      else some { s with place := .set (i + 1) 0 }
  | .check i k =>
    match s.mmRqs[i]? with
    | none => some { s with place := .free 0 }
    | some rq =>
      if k < rq.bytes then
        if s.bytes (rq.address + k) ≠ .ofNat i then
          some { s with errors := s.errors + 1, place := .check (i + 1) 0 }
        else some { s with place := .check i (k + 1) }
      else some { s with place := .check (i + 1) 0 }
  | .free i =>
    match s.mmRqs[i]? with
    | none => some { s with mmRqs := [], total := 0, place := .request }
    | some rq => do
      let heap ← A.free s.heap rq
      some { s with heap := heap, bytes := writeAll s.bytes ws, place := .free (i + 1) }

def step (s : St σ) : Event ε → Option (St σ)
  | .next u ws => next A maxMemory s u ws
  | .call e ws => (A.user s.heap e).map fun heap =>
      { s with heap := heap, bytes := writeAll s.bytes ws }
  | .scribble e => (A.user s.heap e).map fun heap => { s with heap := heap }
  | .store _ x v => some { s with bytes := Function.update s.bytes x v }

end

/-- The blocks the test has at the moment. -/
def St.held {σ : Type u} (s : St σ) : List Chunk :=
  match s.place with
  | .free i => s.mmRqs.drop i
  | _ => s.mmRqs

/-- What the test starts from. -/
def start {σ : Type u} (heap : σ) (bytes : Nat → UInt8) : St σ := ⟨heap, bytes, [], 0, .request, 0⟩

/-! ## The others -/

section

variable {σ : Type u} {ε : Type v} {A : Allocator σ ε} (S : A.Sharing) (maxMemory : UInt64)

/-- `GetUniform(max)` is below `max`, or 0. -/
def Uniform (max u : UInt32) : Prop := u < max ∨ u = 0

instance (max u : UInt32) : Decidable (Uniform max u) := inferInstanceAs (Decidable (_ ∨ _))

/-- The others call the allocator for what is theirs and store into what they own; a call writes
the bytes the allocator says. -/
def Legal (s : St σ) : Event ε → Prop
  | .next u ws =>
    Uniform (maxMemory - s.total.toUInt64 - 1).toUInt32 u ∧
      ∀ s' ∈ next A maxMemory s u ws, ∀ w ∈ ws, S.wrote s.heap s'.heap w.1
  | .call e ws => S.admits s.heap s.held e ∧
      ∀ heap ∈ A.user s.heap e, ∀ w ∈ ws, S.wrote s.heap heap w.1
  | .scribble e => S.scribbles s.heap e
  | .store d x _ => S.owns s.heap s.held d ∧ d.Covers x

instance [∀ s cs e, Decidable (S.admits s cs e)] [∀ s e, Decidable (S.scribbles s e)]
    [∀ s cs d, Decidable (S.owns s cs d)] [∀ s s' x, Decidable (S.wrote s s' x)] (s : St σ) :
    (e : Event ε) → Decidable (Legal S maxMemory s e)
  | .next u ws => inferInstanceAs (Decidable (_ ∧ ∀ s' ∈ next A maxMemory s u ws, _))
  | .call e _ => inferInstanceAs (Decidable (_ ∧ ∀ heap ∈ A.user s.heap e, _))
  | .scribble _ => inferInstanceAs (Decidable (S.scribbles _ _))
  | .store _ _ _ => inferInstanceAs (Decidable (_ ∧ _))

/-- The test has filled the byte `y` of the block `j`, and not yet freed the block. -/
def Place.Filled (j y : Nat) : Place → Prop
  | .request => False
  | .set i k => j < i ∨ j = i ∧ y < k
  | .check _ _ => True
  | .free i => i ≤ j

/-- The blocks hold what the test has filled them with. -/
def St.Intact (s : St σ) : Prop :=
  ∀ j rq y, s.mmRqs[j]? = some rq → y < rq.bytes → s.place.Filled j y →
    s.bytes (rq.address + y) = .ofNat j

structure Sound (s : St σ) : Prop where
  held : S.holds s.heap s.held
  filled : s.Intact
  errors : s.errors = 0

variable {S maxMemory} {s s' : St σ} {heap : σ} {bytes : Nat → UInt8} {ws : List (Nat × UInt8)}

theorem writeAll_of_ne {x : Nat} (h : ∀ w ∈ ws, w.1 ≠ x) : writeAll bytes ws x = bytes x := by
  induction ws generalizing bytes with
  | nil => rfl
  | cons w ws ih =>
    obtain ⟨hw, hws⟩ := List.forall_mem_cons.mp h
    exact (ih hws).trans (Function.update_of_ne hw.symm _ _)

theorem mem_drop {l : List Chunk} {i j : Nat} {rq : Chunk} (hij : i ≤ j) (hj : l[j]? = some rq) :
    rq ∈ l.drop i := by
  refine List.mem_of_getElem? (i := j - i) ?_
  rwa [List.getElem?_drop, Nat.add_sub_cancel' hij]

/-- A step that leaves the test where it is and what it holds as it is. -/
theorem Sound.kept (H : Sound S s) (hh : S.holds heap s.held)
    (hb : ∀ rq ∈ s.held, ∀ x, rq.Covers x → bytes x = s.bytes x) :
    Sound S { s with heap := heap, bytes := bytes } := by
  refine ⟨hh, fun j rq y hj hy hf => ?_, H.errors⟩
  have hmem : rq ∈ s.held := by
    rw [St.held]
    cases hp : s.place with
    | free i =>
      have hij : i ≤ j := by rwa [hp] at hf
      exact mem_drop hij hj
    | _ => exact List.mem_of_getElem? hj
  have hkept := hb rq hmem _ ⟨Nat.le_add_right _ _, Nat.add_lt_add_left hy _⟩
  exact hkept.trans (H.filled j rq y hj hy hf)

/-- A request for as much as `GetUniform` says is one that either allocator serves. -/
theorem size_toNat {max u : UInt32} (h : Uniform max u) :
    1 ≤ (u + 1).toNat ∧ (u + 1).toNat < 2 ^ 32 := by
  refine ⟨?_, (u + 1).toNat_lt⟩
  have hlt : u.toNat + 1 < 2 ^ 32 := by
    rcases h with h | rfl
    · exact Nat.lt_of_le_of_lt (UInt32.lt_iff_toNat_lt.mp h) max.toNat_lt
    · decide
  rw [UInt32.toNat_add, show (1 : UInt32).toNat = 1 from rfl, Nat.mod_eq_of_lt hlt]
  exact Nat.succ_pos _

theorem Sound.request {u : UInt32} (H : Sound S s) (hlegal : ∀ n, 1 ≤ n → n < 2 ^ 32 → S.legal n)
    (hu : Uniform (maxMemory - s.total.toUInt64 - 1).toUInt32 u) (hp : s.place = .request)
    (hs : next A maxMemory s u ws = some s') : Sound S s' := by
  have hheld : s.held = s.mmRqs := by rw [St.held, hp]
  have hh := H.held
  rw [hheld] at hh
  simp only [next, hp] at hs
  split at hs
  · obtain ⟨heap, r, hr, hserved⟩ := S.alloc hh (hlegal _ (size_toNat hu).1 (size_toNat hu).2)
    simp only [hr, Option.bind_eq_bind, Option.bind_some] at hs
    cases r with
    | none =>
      obtain rfl := Option.some.inj hs
      exact ⟨hserved, fun _ _ _ _ _ hf => hf.elim, H.errors⟩
    | some a =>
      obtain rfl := Option.some.inj hs
      refine ⟨?_, fun _ _ _ _ _ hf => hf.elim, H.errors⟩
      show S.holds heap ((s.mmRqs ++ [⟨a, (u + 1).toNat⟩] : List Chunk) : Multiset Chunk)
      rw [Multiset.coe_eq_coe.mpr (List.perm_append_singleton _ _)]
      exact hserved
  · obtain rfl := Option.some.inj hs
    refine ⟨hh, fun j rq y _ _ hf => ?_, H.errors⟩
    rcases hf with hf | ⟨_, hf⟩
    · exact absurd hf (Nat.not_lt_zero _)
    · exact absurd hf (Nat.not_lt_zero _)

theorem Sound.set {u : UInt32} {i k : Nat} (H : Sound S s) (hp : s.place = .set i k)
    (hs : next A maxMemory s u ws = some s') : Sound S s' := by
  have hheld : s.held = s.mmRqs := by rw [St.held, hp]
  have hh := H.held
  rw [hheld] at hh
  have hfilled := H.filled
  rw [St.Intact, hp] at hfilled
  simp only [next, hp] at hs
  split at hs
  · next hend =>
    obtain rfl := Option.some.inj hs
    refine ⟨hh, fun j rq y hj hy _ => hfilled j rq y hj hy (.inl ?_), H.errors⟩
    obtain ⟨hlt, _⟩ := List.getElem?_eq_some_iff.mp hj
    exact hlt.trans_le (List.getElem?_eq_none_iff.mp hend)
  next rq hi =>
  split at hs
  · next hk =>
    obtain rfl := Option.some.inj hs
    refine ⟨hh, fun j rq' y hj hy hf => ?_, H.errors⟩
    have hpairs : s.mmRqs.Pairwise Chunk.Apart := S.pairwise 0 (by rwa [add_zero])
    show Function.update s.bytes (rq.address + k) (.ofNat i) (rq'.address + y) = _
    by_cases hsame : j = i ∧ y = k
    · obtain ⟨rfl, rfl⟩ := hsame
      obtain rfl : rq = rq' := Option.some.inj (hi.symm.trans hj)
      exact Function.update_self _ _ _
    · have hbefore : j < i ∨ j = i ∧ y < k := by
        rcases hf with h | ⟨rfl, h⟩
        · exact .inl h
        · exact .inr ⟨rfl, Nat.lt_of_le_of_ne (Nat.le_of_lt_succ h) fun h => hsame ⟨rfl, h⟩⟩
      have hne : rq'.address + y ≠ rq.address + k := by
        rcases hbefore with h | ⟨rfl, h⟩
        · obtain ⟨hj', hrq'⟩ := List.getElem?_eq_some_iff.mp hj
          obtain ⟨hi', hrq⟩ := List.getElem?_eq_some_iff.mp hi
          have hapart := List.pairwise_iff_getElem.mp hpairs j i hj' hi' h
          rw [hrq', hrq] at hapart
          intro he
          refine hapart.not_covers ⟨Nat.le_add_right _ _, Nat.add_lt_add_left hk _⟩ ?_
          rw [← he]
          exact ⟨Nat.le_add_right _ _, Nat.add_lt_add_left hy _⟩
        · obtain rfl : rq = rq' := Option.some.inj (hi.symm.trans hj)
          exact (Nat.add_lt_add_left h _).ne
      exact (Function.update_of_ne hne _ _).trans (hfilled j rq' y hj hy hbefore)
  · next hk =>
    obtain rfl := Option.some.inj hs
    refine ⟨hh, fun j rq' y hj hy hf => hfilled j rq' y hj hy ?_, H.errors⟩
    rcases hf with h | ⟨_, h⟩
    · rcases Nat.lt_succ_iff_lt_or_eq.mp h with h | rfl
      · exact .inl h
      · obtain rfl : rq = rq' := Option.some.inj (hi.symm.trans hj)
        exact .inr ⟨rfl, hy.trans_le (Nat.le_of_not_lt hk)⟩
    · exact absurd h (Nat.not_lt_zero _)

theorem Sound.check {u : UInt32} {i k : Nat} (H : Sound S s) (hp : s.place = .check i k)
    (hs : next A maxMemory s u ws = some s') : Sound S s' := by
  have hheld : s.held = s.mmRqs := by rw [St.held, hp]
  have hh := H.held
  rw [hheld] at hh
  have hfilled : ∀ j rq y, s.mmRqs[j]? = some rq → y < rq.bytes → True →
      s.bytes (rq.address + y) = .ofNat j := by
    have h := H.filled
    rwa [St.Intact, hp] at h
  simp only [next, hp] at hs
  split at hs
  · obtain rfl := Option.some.inj hs
    exact ⟨hh, fun j rq y hj hy _ => hfilled j rq y hj hy trivial, H.errors⟩
  next rq hi =>
  split at hs
  · next hk =>
    rw [if_neg (not_not.mpr (hfilled i rq k hi hk trivial))] at hs
    obtain rfl := Option.some.inj hs
    exact ⟨hh, hfilled, H.errors⟩
  · obtain rfl := Option.some.inj hs
    exact ⟨hh, hfilled, H.errors⟩

theorem Sound.free {u : UInt32} {i : Nat} (H : Sound S s) (hp : s.place = .free i)
    (hws : ∀ w ∈ ws, S.wrote s.heap s'.heap w.1) (hs : next A maxMemory s u ws = some s') :
    Sound S s' := by
  have hheld : s.held = s.mmRqs.drop i := by rw [St.held, hp]
  have hh := H.held
  rw [hheld] at hh
  have hfilled := H.filled
  rw [St.Intact, hp] at hfilled
  simp only [next, hp] at hs
  split at hs
  · next hend =>
    obtain rfl := Option.some.inj hs
    rw [List.drop_eq_nil_of_le (List.getElem?_eq_none_iff.mp hend)] at hh
    exact ⟨hh, fun _ _ _ hj _ _ => absurd hj (by simp), H.errors⟩
  next rq hi =>
  obtain ⟨hlt, hrq⟩ := List.getElem?_eq_some_iff.mp hi
  rw [List.drop_eq_getElem_cons hlt, hrq, ← Multiset.cons_coe] at hh
  obtain ⟨heap, hfree, hrest⟩ := S.free hh
  simp only [hfree, Option.bind_eq_bind, Option.bind_some] at hs
  obtain rfl := Option.some.inj hs
  refine ⟨hrest, fun j rq' y hj hy hf => ?_, H.errors⟩
  have hmem : rq' ∈ s.mmRqs.drop (i + 1) := mem_drop hf hj
  refine (writeAll_of_ne fun w hw hwx => ?_).trans (hfilled j rq' y hj hy (Nat.le_of_succ_le hf))
  refine S.free_clean hh hfree (Multiset.mem_coe.mpr hmem) (hws w hw) ?_
  rw [hwx]
  exact ⟨Nat.le_add_right _ _, Nat.add_lt_add_left hy _⟩

theorem Sound.step {e : Event ε} (hlegal : ∀ n, 1 ≤ n → n < 2 ^ 32 → S.legal n) (H : Sound S s)
    (he : Legal S maxMemory s e) (hs : step A maxMemory s e = some s') : Sound S s' := by
  cases e with
  | next u ws =>
    cases hp : s.place with
    | request => exact H.request hlegal he.1 hp hs
    | set i k => exact H.set hp hs
    | check i k => exact H.check hp hs
    | free i => exact H.free hp (he.2 s' hs) hs
  | call e ws =>
    obtain ⟨heap, hheap, rfl⟩ := Option.map_eq_some_iff.mp hs
    refine H.kept (S.user H.held he.1 hheap) fun rq hrq x hx => writeAll_of_ne fun w hw hwx => ?_
    have hwrote := he.2 heap hheap w hw
    exact S.user_clean H.held he.1 hheap (Multiset.mem_coe.mpr hrq) (hwx ▸ hwrote) hx
  | scribble e =>
    obtain ⟨heap, hheap, rfl⟩ := Option.map_eq_some_iff.mp hs
    exact H.kept (S.scribble H.held he hheap) fun _ _ _ _ => rfl
  | store d x v =>
    obtain rfl := Option.some.inj hs
    refine H.kept H.held fun rq hrq y hy => Function.update_of_ne ?_ _ _
    rintro rfl
    exact S.others_clean H.held he.1 he.2 (Multiset.mem_coe.mpr hrq) hy

/-- Nothing the others do shows in the blocks the test has. -/
theorem Sound.run (hlegal : ∀ n, 1 ≤ n → n < 2 ^ 32 → S.legal n) (H : Sound S s)
    (hrun : Run (TestMm.step A maxMemory) (Legal S maxMemory) s s') : Sound S s' :=
  hrun.invariant (P := fun s => Sound S s) H fun H he hs => H.step hlegal he hs

theorem start_sound (hh : S.holds heap 0) : Sound S (start heap bytes) :=
  ⟨hh, fun _ _ _ _ _ hf => hf.elim, rfl⟩

theorem Sound.apart (H : Sound S s) : s.held.Pairwise Chunk.Apart :=
  S.pairwise 0 (by rw [add_zero]; exact H.held)

end

/-- In every run from any heap users can reach, whatever is called and stored in between, the
test finds no error, the blocks it has do not meet, and they hold what it has filled them with
until it frees them; with either allocator. -/
theorem reach_testMm :
    (∀ {image : Buddy.St → Nat → Buddy.Block} {mem : Nat → Buddy.Block} {size : Nat}
        {heap : Buddy.St} {bytes : Nat → UInt8} {maxMemory : UInt64} {s : St Buddy.St},
        Buddy.Reach mem size heap →
        Run (step (Buddy.allocator image) maxMemory)
          (Legal (Buddy.sharing image mem size) maxMemory) (start heap bytes) s →
        s.errors = 0 ∧ s.held.Pairwise Chunk.Apart ∧ s.Intact) ∧
      ∀ {table : Nat → Bitmap.Cell} {first size : Nat} {heap : Bitmap.St} {bytes : Nat → UInt8}
        {maxMemory : UInt64} {s : St Bitmap.St}, Bitmap.OwnedReach table first size heap →
        Run (step Bitmap.ownedAllocator maxMemory)
          (Legal (Bitmap.sharing table first size) maxMemory) (start heap bytes) s →
        s.errors = 0 ∧ s.held.Pairwise Chunk.Apart ∧ s.Intact := by
  constructor
  · intro image mem size heap bytes maxMemory s hr hrun
    have h0 : (Buddy.sharing image mem size).holds heap 0 := ⟨hr, Multiset.zero_le _⟩
    have H := (start_sound h0).run (fun _ _ _ => trivial) hrun
    exact ⟨H.errors, H.apart, H.filled⟩
  · intro table first size heap bytes maxMemory s hr hrun
    have h0 : (Bitmap.sharing table first size).holds heap 0 := ⟨hr, Multiset.zero_le _⟩
    have hlegal : ∀ n, 1 ≤ n → n < 2 ^ 32 → (Bitmap.sharing table first size).legal n :=
      fun _ h1 h2 => ⟨h1, h2⟩
    have H := (start_sound h0).run hlegal hrun
    exact ⟨H.errors, H.apart, H.filled⟩

/-- Steps of the test with nothing else in between. -/
def steps {ε : Type v} (n : Nat) : List (Event ε) := List.replicate n (.next 0 [])

/-- Somebody else calls the allocator, stores into its own block, and shows that in the images
the allocator would read. -/
def buddyEvents : List (Event Buddy.Event) :=
  [.next 2 [], .call (.free ⟨6291472, 100⟩) [(6291456, 7)]] ++ steps 6 ++
    [.store ⟨6292496, 1000⟩ 6292500 7,
      .scribble (.write ⟨6292496, 1000⟩ 6292500 ⟨7, .FREE, none⟩), .call (.alloc 2000) []] ++
    steps 16

def bitmapEvents : List (Event Bitmap.Event) :=
  [.next 2 [], .call (.free 39452672) [(6291456, 0)]] ++ steps 6 ++
    [.store ⟨39452800, 1000⟩ 39452804 7, .call (.alloc 2000) []] ++ steps 16

/-- Three blocks, of which one is freed again, and somebody else in between. -/
theorem reach_testMm_three :
    (∃ h0 heap s, Buddy.createMemoryManager Buddy.zeroMem Buddy.heapStartAddress Buddy.heapSize =
        some h0 ∧
      Run.exec Buddy.step (fun s e => e.Owned s) ⟨h0, []⟩ [.alloc 100, .alloc 1000] = some heap ∧
      Run.exec (step (Buddy.allocator NodeQueues.zeroImage) 5)
        (Legal (Buddy.sharing NodeQueues.zeroImage Buddy.zeroMem Buddy.heapSize) 5)
        (start heap fun _ => 0) buddyEvents = some s ∧
      s.place = .free 1 ∧ s.mmRqs.length = 3 ∧ s.errors = 0 ∧ s.Intact) ∧
    ∃ heap s, Run.exec Bitmap.St.step Bitmap.St.Owned
        ⟨Bitmap.createMemoryManager (fun _ => .USED) Bitmap.heapStartAddress Bitmap.heapSize, []⟩
        [.alloc 100, .alloc 1000] = some heap ∧
      Run.exec (step Bitmap.ownedAllocator 5)
        (Legal (Bitmap.sharing (fun _ => .USED) Bitmap.heapStartAddress Bitmap.heapSize) 5)
        (start heap fun _ => 0) bitmapEvents = some s ∧
      s.place = .free 1 ∧ s.mmRqs.length = 3 ∧ s.errors = 0 ∧ s.Intact := by
  have hbuddy : ((Buddy.createMemoryManager Buddy.zeroMem Buddy.heapStartAddress
      Buddy.heapSize).bind fun h0 =>
      (Run.exec Buddy.step (fun s e => e.Owned s) ⟨h0, []⟩ [.alloc 100, .alloc 1000]).bind fun h =>
      (Run.exec (step (Buddy.allocator NodeQueues.zeroImage) 5)
        (Legal (Buddy.sharing NodeQueues.zeroImage Buddy.zeroMem Buddy.heapSize) 5)
        (start h fun _ => 0) buddyEvents).map fun s => (h0, h, s)).any
      (fun r => decide (r.2.2.place = .free 1 ∧ r.2.2.mmRqs.length = 3)) = true := by
    decide +kernel
  have hbitmap : ((Run.exec Bitmap.St.step Bitmap.St.Owned
      ⟨Bitmap.createMemoryManager (fun _ => .USED) Bitmap.heapStartAddress Bitmap.heapSize, []⟩
        [.alloc 100, .alloc 1000]).bind fun h =>
      (Run.exec (step Bitmap.ownedAllocator 5)
        (Legal (Bitmap.sharing (fun _ => .USED) Bitmap.heapStartAddress Bitmap.heapSize) 5)
        (start h fun _ => 0) bitmapEvents).map fun s => (h, s)).any
      (fun r => decide (r.2.place = .free 1 ∧ r.2.mmRqs.length = 3)) = true := by
    decide +kernel
  constructor
  · obtain ⟨r, hr, hP⟩ := (Option.any_eq_true _ _).mp hbuddy
    obtain ⟨h0, hc, hr⟩ := Option.bind_eq_some_iff.mp hr
    obtain ⟨h, hh, hr⟩ := Option.bind_eq_some_iff.mp hr
    obtain ⟨s, hrun, rfl⟩ := Option.map_eq_some_iff.mp hr
    obtain ⟨hplace, hlen⟩ := of_decide_eq_true hP
    have H := reach_testMm.1 ⟨h0, hc, Run.of_exec hh⟩ (Run.of_exec hrun)
    exact ⟨h0, h, s, hc, hh, hrun, hplace, hlen, H.1, H.2.2⟩
  · obtain ⟨r, hr, hP⟩ := (Option.any_eq_true _ _).mp hbitmap
    obtain ⟨h, hh, hr⟩ := Option.bind_eq_some_iff.mp hr
    obtain ⟨s, hrun, rfl⟩ := Option.map_eq_some_iff.mp hr
    obtain ⟨hplace, hlen⟩ := of_decide_eq_true hP
    have H := reach_testMm.2 (Run.of_exec hh) (Run.of_exec hrun)
    exact ⟨h, s, hh, hrun, hplace, hlen, H.1, H.2.2⟩

end SoKernel.TestMm
