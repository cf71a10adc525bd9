import Mathlib.Logic.Function.Basic
import SoKernel.Lib.Memory

/-!
# Arrays and the accesses to them

A memory of arrays, in which each access to a byte is recorded. An index may lie outside its
array: nothing but the record tells.

Results:
1. `Accessed.mem_log`, `Accessed.frame`: what a program may access bounds its record, and the
   bytes it does not write are unchanged.
2. `scanWhile_accessed`, `scanWhile_eq`: a loop that reads a string up to some byte.
3. `copyFrom_accessed`, `copyFrom_get`: a loop that copies bytes.
-/

namespace SoKernel

universe u v

/-- An access to the byte at an index. -/
inductive Access (ο : Type u)
  | read (array : ο) (i : Nat)
  | write (array : ο) (i : Nat)
deriving DecidableEq, Repr

structure Ptr (ο : Type u) where
  array : ο
  offset : Nat
deriving DecidableEq, Repr

/-- The pointer `n` bytes on. -/
def Ptr.add {ο : Type u} (p : Ptr ο) (n : Nat) : Ptr ο := ⟨p.array, p.offset + n⟩

/-- The bytes of the arrays, and the accesses so far, the latest one first. -/
structure Arrays (ο : Type u) (β : Type v) where
  bytes : ο → Nat → β
  log : List (Access ο)

namespace Arrays

variable {ο : Type u} {β : Type v}

def get (m : Arrays ο β) (p : Ptr ο) : β := m.bytes p.array p.offset

/-- The memory after a byte is read. -/
def read (m : Arrays ο β) (p : Ptr ο) : Arrays ο β :=
  { m with log := .read p.array p.offset :: m.log }

/-- The memory after a byte is stored. -/
def store [DecidableEq ο] (m : Arrays ο β) (p : Ptr ο) (b : β) : Arrays ο β where
  bytes o i := if o = p.array ∧ i = p.offset then b else m.bytes o i
  log := .write p.array p.offset :: m.log

end Arrays

section

variable {ο : Type u} {β : Type v} {P Q : Access ο → Prop} {m m' m'' : Arrays ο β} {p q : Ptr ο}
  {o : ο} {a : Access ο} {b : β} {i n k : Nat}

@[simp] theorem Arrays.read_bytes : (m.read p).bytes = m.bytes := rfl

@[simp] theorem Arrays.get_read : (m.read p).get q = m.get q := rfl

@[simp] theorem Ptr.add_array : (p.add n).array = p.array := rfl

@[simp] theorem Ptr.add_offset : (p.add n).offset = p.offset + n := rfl

variable [DecidableEq ο]

theorem Arrays.store_bytes : (m.store p b).bytes o i =
    if o = p.array ∧ i = p.offset then b else m.bytes o i := rfl

@[simp] theorem Arrays.store_bytes_self : (m.store p b).bytes p.array p.offset = b :=
  if_pos ⟨rfl, rfl⟩

/-- A byte is stored behind some bytes. -/
theorem Arrays.loadFrom_store (h : p.offset = i + n) :
    loadFrom ((m.store p b).bytes p.array) i (n + 1) = loadFrom (m.bytes p.array) i n ++ [b] := by
  have hrest : ∀ x ∈ Set.Ico i (i + n), (m.store p b).bytes p.array x = m.bytes p.array x := by
    intro x hx
    rw [Arrays.store_bytes, if_neg fun heq => Nat.ne_of_lt hx.2 (heq.2.trans h)]
  have hlast : loadFrom ((m.store p b).bytes p.array) (i + n) 1 = [b] := by
    rw [← h]
    exact congrArg (fun b => [b]) Arrays.store_bytes_self
  rw [loadFrom_add, hlast, loadFrom_congr hrest]

/-- Reads and stores, with all of the accesses in `P`. -/
inductive Accessed (P : Access ο → Prop) (m : Arrays ο β) : Arrays ο β → Prop
  | refl : Accessed P m m
  | read {m' : Arrays ο β} (p : Ptr ο) : Accessed P m m' → P (.read p.array p.offset) →
      Accessed P m (m'.read p)
  | store {m' : Arrays ο β} (p : Ptr ο) (b : β) : Accessed P m m' → P (.write p.array p.offset) →
      Accessed P m (m'.store p b)

namespace Accessed

theorem trans (h : Accessed P m m') (h' : Accessed P m' m'') : Accessed P m m'' := by
  induction h' with
  | refl => exact h
  | read p _ hp ih => exact .read p ih hp
  | store p b _ hp ih => exact .store p b ih hp

theorem mono (h : Accessed P m m') (hPQ : ∀ a, P a → Q a) : Accessed Q m m' := by
  induction h with
  | refl => exact .refl
  | read p _ hp ih => exact .read p ih (hPQ _ hp)
  | store p b _ hp ih => exact .store p b ih (hPQ _ hp)

theorem mem_log (h : Accessed P m m') (ha : a ∈ m'.log) : a ∈ m.log ∨ P a := by
  induction h with
  | refl => exact .inl ha
  | read p _ hp ih =>
    rcases List.mem_cons.mp ha with rfl | ha
    · exact .inr hp
    · exact ih ha
  | store p b _ hp ih =>
    rcases List.mem_cons.mp ha with rfl | ha
    · exact .inr hp
    · exact ih ha

/-- The record is kept. -/
theorem log_subset (h : Accessed P m m') : m.log ⊆ m'.log := by
  induction h with
  | refl => exact List.Subset.refl _
  | read p _ _ ih => exact List.subset_cons_of_subset _ ih
  | store p b _ _ ih => exact List.subset_cons_of_subset _ ih

theorem frame (h : Accessed P m m') (hP : ¬ P (.write o i)) : m'.bytes o i = m.bytes o i := by
  induction h with
  | refl => rfl
  | read p _ _ ih => exact ih
  | store p b _ hp ih =>
    rw [Arrays.store_bytes, if_neg ?_, ih]
    rintro ⟨rfl, rfl⟩
    exact hP hp

/-- An array that is not written. -/
theorem frame_array (h : Accessed P m m') (hP : ∀ i, ¬ P (.write o i)) : m'.bytes o = m.bytes o :=
  funext fun i => h.frame (hP i)

end Accessed

/-! ## Loops -/

/-- A loop that goes on from index `i` while the byte there satisfies `c`. -/
def scanWhile (c : β → Bool) (p : Ptr ο) : Nat → Nat → Arrays ο β → Nat × Arrays ο β
  | 0, i, m => (i, m)
  | fuel + 1, i, m =>
    if c (m.get (p.add i)) then scanWhile c p fuel (i + 1) (m.read (p.add i))
    else (i, m.read (p.add i))

/-- A loop that copies `n` bytes, from index `i` on. -/
def copyFrom (dest src : Ptr ο) : Nat → Nat → Arrays ο β → Arrays ο β
  | 0, _, m => m
  | n + 1, i, m =>
    copyFrom dest src n (i + 1) ((m.read (src.add i)).store (dest.add i) (m.get (src.add i)))

theorem scanWhile_accessed {c : β → Bool} {fuel : Nat} :
    Accessed (fun a => ∃ k, a = .read p.array k) m (scanWhile c p fuel i m).2 := by
  induction fuel generalizing i m with
  | zero => exact .refl
  | succ fuel ih =>
    have hread : Accessed (fun a => ∃ k, a = .read p.array k) m (m.read (p.add i)) :=
      .read _ .refl ⟨_, rfl⟩
    rw [scanWhile]
    split
    · exact hread.trans ih
    · exact hread

theorem scanWhile_bytes {c : β → Bool} {fuel : Nat} : (scanWhile c p fuel i m).2.bytes = m.bytes :=
  funext fun _ => scanWhile_accessed.frame_array fun _ h => nomatch h.choose_spec

omit [DecidableEq ο] in
/-- In a string the loop stops at the first byte that is not in `c`. -/
theorem scanWhile_eq [Zero β] {c : β → Bool} (hc : c 0 = false) {s : List β} {fuel : Nat}
    (h : StringAt (m.bytes p.array) (p.offset + i) s) (hfuel : s.length < fuel) :
    (scanWhile c p fuel i m).1 = i + (s.takeWhile c).length := by
  induction s generalizing i m fuel with
  | nil =>
    obtain ⟨fuel, rfl⟩ := Nat.exists_eq_succ_of_ne_zero (Nat.ne_of_gt hfuel)
    have hget : m.get (p.add i) = 0 := stringAt_nil.mp h
    rw [scanWhile, hget, hc, if_neg Bool.false_ne_true]
    rfl
  | cons b s ih =>
    obtain ⟨fuel, rfl⟩ := Nat.exists_eq_succ_of_ne_zero (Nat.ne_of_gt (Nat.lt_of_le_of_lt (Nat.zero_le _) hfuel))
    obtain ⟨hb, hs⟩ := stringAt_cons.mp h
    have hget : m.get (p.add i) = b := hb
    rw [scanWhile, hget]
    by_cases hcb : c b = true
    · rw [if_pos hcb, List.takeWhile_cons_of_pos hcb, List.length_cons,
        ih hs (Nat.lt_of_succ_lt_succ hfuel), Nat.add_assoc, Nat.add_comm 1]
    · rw [if_neg hcb, List.takeWhile_cons_of_neg hcb]
      rfl

theorem copyFrom_accessed {dest src : Ptr ο} :
    Accessed (fun a => ∃ k, i ≤ k ∧ k < i + n ∧
        (a = .read src.array (src.offset + k) ∨ a = .write dest.array (dest.offset + k))) m
      (copyFrom dest src n i m) := by
  induction n generalizing i m with
  | zero => exact .refl
  | succ n ih =>
    have hi : i < i + (n + 1) := Nat.lt_add_of_pos_right (Nat.succ_pos n)
    refine Accessed.trans (.store _ _ (.read _ .refl ?_) ?_) (ih.mono ?_)
    · exact ⟨i, Nat.le_refl i, hi, .inl rfl⟩
    · exact ⟨i, Nat.le_refl i, hi, .inr rfl⟩
    · rintro a ⟨k, hle, hlt, ha⟩
      exact ⟨k, Nat.le_of_succ_le hle, by omega, ha⟩

theorem copyFrom_reads {dest src : Ptr ο} (hi : i ≤ k) (hk : k < i + n) :
    .read src.array (src.offset + k) ∈ (copyFrom dest src n i m).log := by
  induction n generalizing i m with
  | zero => exact absurd hk (Nat.not_lt.mpr hi)
  | succ n ih =>
    rw [copyFrom]
    rcases Nat.eq_or_lt_of_le hi with rfl | hlt
    · exact copyFrom_accessed.log_subset (List.mem_cons_of_mem _ List.mem_cons_self)
    · exact ih hlt (by omega)

/-- Between two arrays the bytes are copied. -/
theorem copyFrom_bytes {dest src : Ptr ο} (hne : dest.array ≠ src.array) (hi : i ≤ k)
    (hk : k < i + n) : (copyFrom dest src n i m).bytes dest.array (dest.offset + k) =
      m.bytes src.array (src.offset + k) := by
  induction n generalizing i m with
  | zero => exact absurd hk (Nat.not_lt.mpr hi)
  | succ n ih =>
    rw [copyFrom]
    rcases Nat.eq_or_lt_of_le hi with rfl | hlt
    · rw [copyFrom_accessed.frame]
      · exact Arrays.store_bytes_self
      · rintro ⟨k', hle, -, hread | hwrite⟩
        · cases hread
        · have hoff := Nat.add_left_cancel (Access.write.inj hwrite).2
          omega
    · rw [ih hlt (by omega), Arrays.store_bytes, if_neg]
      · rfl
      · exact fun h => hne h.1.symm

end

end SoKernel
