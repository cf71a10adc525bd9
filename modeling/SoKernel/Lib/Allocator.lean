import Mathlib.Data.Multiset.AddSub
import Mathlib.Data.Multiset.MapFold

/-!
# Allocators and their clients

An allocator of which a client holds some chunks, while others allocate, free and write as
well. It refills when a request for the bytes of a chunk that has just been freed is
answered, whatever else is allocated. It is shared when the chunks stay apart and its own
writes stay out of them.

Results:
1. `Refills.touches`, `Refills.touches_spare`: writing into held chunks keeps what is held
   and what is spare.
2. `Sharing.pairwise`: the chunks a client holds are apart, two by two.
3. `Sharing.others_clean`: what others write into their own chunks meets none of them.
-/

namespace SoKernel

universe u v

/-- What a request returned: an address, and the bytes asked for. -/
structure Chunk where
  address : Nat
  bytes : Nat
deriving DecidableEq, Repr

/-- The calls of an allocator. `touch s c` is the state after a write into the chunk `c`, and
`user` is the step of any other client. `none` is a call without a defined result. -/
structure Allocator (σ : Type u) (ε : Type v) where
  alloc : σ → Nat → Option (σ × Option Nat)
  free : σ → Chunk → Option σ
  touch : σ → Chunk → σ
  user : σ → ε → Option σ

namespace Allocator

variable {σ : Type u} {ε : Type v}

/-- The laws of an allocator that refills chunks of `bytes`: `holds s cs` says that the client
holds `cs`, `spare s` that a request for `bytes` will be answered, and `admits s cs e` that the
step `e` of the others leaves `cs` alone. -/
structure Refills (A : Allocator σ ε) (bytes : Nat) (holds : σ → Multiset Chunk → Prop)
    (spare : σ → Prop) (admits : σ → Multiset Chunk → ε → Prop) : Prop where
  alloc : ∀ {s cs}, holds s cs → ∃ s' r, A.alloc s bytes = some (s', r) ∧
    match r with
    | none => holds s' cs
    | some a => holds s' (⟨a, bytes⟩ ::ₘ cs)
  free : ∀ {s cs c}, holds s (c ::ₘ cs) → c.bytes = bytes →
    ∃ s', A.free s c = some s' ∧ holds s' cs ∧ spare s'
  touch : ∀ {s cs c}, holds s cs → c ∈ cs → holds (A.touch s c) cs
  still : ∀ {s cs c}, holds s cs → c ∈ cs → spare s → spare (A.touch s c)
  answers : ∀ {s cs s'}, holds s cs → spare s → A.alloc s bytes ≠ some (s', none)
  user : ∀ {s cs e s'}, holds s cs → admits s cs e → A.user s e = some s' → holds s' cs

variable {A : Allocator σ ε} {bytes : Nat} {holds : σ → Multiset Chunk → Prop}
  {spare : σ → Prop} {admits : σ → Multiset Chunk → ε → Prop} {s s' : σ} {cs : Multiset Chunk}
  {c : Chunk}

theorem Refills.touches (R : A.Refills bytes holds spare admits) {ts : List Chunk}
    (h : holds s cs) (ht : ∀ t ∈ ts, t ∈ cs) : holds (ts.foldl A.touch s) cs := by
  induction ts generalizing s with
  | nil => exact h
  | cons t ts ih =>
    exact ih (R.touch h (ht t List.mem_cons_self)) fun t h => ht t (List.mem_cons_of_mem _ h)

theorem Refills.touches_spare (R : A.Refills bytes holds spare admits) {ts : List Chunk}
    (h : holds s cs) (ht : ∀ t ∈ ts, t ∈ cs) (hs : spare s) : spare (ts.foldl A.touch s) := by
  induction ts generalizing s with
  | nil => exact hs
  | cons t ts ih =>
    have hmem := ht t List.mem_cons_self
    exact ih (R.touch h hmem) (fun t h => ht t (List.mem_cons_of_mem _ h)) (R.still h hmem hs)

end Allocator

/-! ## Shared allocators -/

namespace Chunk

/-- The byte `x` belongs to the chunk. -/
def Covers (c : Chunk) (x : Nat) : Prop := c.address ≤ x ∧ x < c.address + c.bytes

instance (c : Chunk) (x : Nat) : Decidable (c.Covers x) := inferInstanceAs (Decidable (_ ∧ _))

/-- The chunks do not meet. -/
def Apart (c d : Chunk) : Prop :=
  c.address + c.bytes ≤ d.address ∨ d.address + d.bytes ≤ c.address

theorem Apart.not_covers {c d : Chunk} {x : Nat} (h : c.Apart d) (hd : d.Covers x) :
    ¬ c.Covers x := by
  rintro ⟨hlo, hhi⟩
  rcases h with h | h
  · exact absurd (hhi.trans_le (h.trans hd.1)) (Nat.lt_irrefl _)
  · exact absurd (hd.2.trans_le (h.trans hlo)) (Nat.lt_irrefl _)

end Chunk

/-- Two elements of a multiset whose images are in the list `l` with their multiplicities are
two positions of `l`. -/
theorem rel_of_map_le {α : Type u} {β : Type v} {R : β → β → Prop} {f : α → β} {l : List β}
    {cs : Multiset α} {c d : α} (hsymm : ∀ {a b}, R a b → R b a) (hl : l.Pairwise R)
    (h : (c ::ₘ d ::ₘ cs).map f ≤ (l : Multiset β)) : R (f c) (f d) := by
  have hle : ([f c, f d] : Multiset β) ≤ (l : Multiset β) := by
    refine le_trans ?_ h
    rw [Multiset.map_cons, Multiset.map_cons]
    exact Multiset.cons_le_cons _ (Multiset.cons_le_cons _ (Multiset.zero_le _))
  obtain ⟨l', hperm, hsub⟩ := Multiset.coe_le.mp hle
  exact List.rel_of_pairwise_cons ((hl.sublist hsub).perm hperm hsymm) List.mem_cons_self

/-- What clients of `A` may rely on: `legal` requests, the chunks a client `holds`, what it
`admits` others to do and which chunks they own, and which bytes a call that leads from one
state to another may have written. `scribbles` are steps that show in the allocator alone:
what it would read in a chunk that somebody holds. -/
structure Allocator.Sharing {σ : Type u} {ε : Type v} (A : Allocator σ ε) where
  legal : Nat → Prop
  holds : σ → Multiset Chunk → Prop
  admits : σ → Multiset Chunk → ε → Prop
  scribbles : σ → ε → Prop
  owns : σ → Multiset Chunk → Chunk → Prop
  wrote : σ → σ → Nat → Prop
  alloc : ∀ {s cs n}, holds s cs → legal n → ∃ s' r, A.alloc s n = some (s', r) ∧
    match r with
    | none => holds s' cs
    | some a => holds s' (⟨a, n⟩ ::ₘ cs)
  free : ∀ {s cs c}, holds s (c ::ₘ cs) → ∃ s', A.free s c = some s' ∧ holds s' cs
  user : ∀ {s cs e s'}, holds s cs → admits s cs e → A.user s e = some s' → holds s' cs
  scribble : ∀ {s cs e s'}, holds s cs → scribbles s e → A.user s e = some s' → holds s' cs
  others : ∀ {s cs d}, holds s cs → owns s cs d → holds s (d ::ₘ cs)
  apart : ∀ {s cs c d}, holds s (c ::ₘ d ::ₘ cs) → c.Apart d
  free_clean : ∀ {s cs d s' c x}, holds s (d ::ₘ cs) → A.free s d = some s' → c ∈ cs →
    wrote s s' x → ¬ c.Covers x
  user_clean : ∀ {s cs e s' c x}, holds s cs → admits s cs e → A.user s e = some s' → c ∈ cs →
    wrote s s' x → ¬ c.Covers x

namespace Allocator.Sharing

variable {σ : Type u} {ε : Type v} {A : Allocator σ ε} (S : A.Sharing) {s : σ}
  {cs : Multiset Chunk} {c d : Chunk} {x : Nat}

/-- The chunks of a list of held ones are apart. -/
theorem pairwise {l : List Chunk} (cs : Multiset Chunk) (h : S.holds s (l + cs)) :
    l.Pairwise Chunk.Apart := by
  induction l generalizing cs with
  | nil => exact .nil
  | cons c l ih =>
    rw [← Multiset.cons_coe, Multiset.cons_add] at h
    refine .cons (fun d hd => ?_) (ih (c ::ₘ cs) (by rwa [Multiset.add_cons]))
    obtain ⟨l', hl⟩ := Multiset.exists_cons_of_mem (Multiset.mem_coe.mpr hd)
    rw [hl, Multiset.cons_add] at h
    exact S.apart h

/-- A byte of another's chunk is in none of the held ones. -/
theorem others_clean (h : S.holds s cs) (hd : S.owns s cs d) (hx : d.Covers x) (hc : c ∈ cs) :
    ¬ c.Covers x := by
  have hboth := S.others h hd
  obtain ⟨cs', rfl⟩ := Multiset.exists_cons_of_mem hc
  rw [Multiset.cons_swap] at hboth
  exact (S.apart hboth).not_covers hx

end Allocator.Sharing

end SoKernel
