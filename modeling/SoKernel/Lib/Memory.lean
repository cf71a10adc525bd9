import Mathlib.Algebra.GroupWithZero.Nat
import Mathlib.Order.CompletePartialOrder
import Mathlib.Order.Interval.Set.Disjoint

/-!
# Byte-addressed memory

A memory is a function from addresses. Numbers lie in it as bytes, the lowest one first.

Results:
1. `loadFrom_storeAt`, `loadFrom_disjoint`: what is read where something was stored, and
   elsewhere.
2. `copyLoop_eq`: a loop that copies one word at a time copies the block, when the two
   blocks are apart.
3. `loadFrom_storeAll`: blocks that are apart do not disturb each other.
4. `pushed_apart`, `loadFrom_pushed`: blocks pushed one below the other.
5. `stringAt_append`, `stringAt_cons`: the string that is read at an address.
6. `leValue_leBytes`, `leBytes_leValue`, `wordsAt_eq`: numbers and their bytes.
-/

namespace SoKernel

universe u

section Blocks

variable {β : Type u}

/-- The `n` bytes at `a`. -/
def loadFrom (mem : Nat → β) (a n : Nat) : List β := (List.range n).map fun i => mem (a + i)

/-- The memory after `bs` is written at `a`. -/
def storeAt (mem : Nat → β) (a : Nat) (bs : List β) : Nat → β :=
  fun x => if a ≤ x then (bs[x - a]?).getD (mem x) else mem x

variable {mem mem' : Nat → β} {a b d s m n x : Nat} {bs cs : List β}

@[simp] theorem length_loadFrom : (loadFrom mem a n).length = n := by
  simp [loadFrom]

@[simp] theorem loadFrom_zero : loadFrom mem a 0 = [] := rfl

@[simp] theorem storeAt_nil : storeAt mem a [] = mem := by
  funext x
  simp [storeAt]

theorem loadFrom_add : loadFrom mem a (m + n) = loadFrom mem a m ++ loadFrom mem (a + m) n := by
  unfold loadFrom
  rw [List.range_add, List.map_append, List.map_map]
  congr 1
  exact List.map_congr_left fun i _ => congrArg mem (Nat.add_assoc a m i).symm

theorem loadFrom_congr (h : ∀ x ∈ Set.Ico a (a + n), mem x = mem' x) :
    loadFrom mem a n = loadFrom mem' a n := by
  refine List.map_congr_left fun i hi => h (a + i) ⟨Nat.le_add_right a i, ?_⟩
  exact Nat.add_lt_add_left (List.mem_range.mp hi) a

/-- Nothing else is written. -/
theorem storeAt_outside (h : x ∉ Set.Ico a (a + bs.length)) : storeAt mem a bs x = mem x := by
  unfold storeAt
  split
  · next hle =>
    have hlen : bs.length ≤ x - a := Nat.le_sub_of_add_le' (Nat.le_of_not_lt fun hlt => h ⟨hle, hlt⟩)
    rw [List.getElem?_eq_none hlen]
    rfl
  · rfl

theorem storeAt_inside {i : Nat} (h : i < bs.length) : storeAt mem a bs (a + i) = bs[i] := by
  rw [storeAt, if_pos (Nat.le_add_right a i), Nat.add_sub_cancel_left, List.getElem?_eq_getElem h]
  rfl

theorem loadFrom_shift (h : ∀ i < n, mem (a + i) = mem' (b + i)) :
    loadFrom mem a n = loadFrom mem' b n :=
  List.map_congr_left fun i hi => h i (List.mem_range.mp hi)

theorem storeAt_append :
    storeAt mem a (bs ++ cs) = storeAt (storeAt mem a bs) (a + bs.length) cs := by
  funext x
  by_cases hx : a + bs.length ≤ x
  · have ha : a ≤ x := Nat.le_trans (Nat.le_add_right a _) hx
    have hlen : bs.length ≤ x - a := Nat.le_sub_of_add_le' hx
    simp [storeAt, ha, hx, List.getElem?_append_right hlen, List.getElem?_eq_none hlen, Nat.sub_sub]
  · by_cases ha : a ≤ x
    · have hlt : x - a < bs.length := Nat.sub_lt_left_of_lt_add ha (Nat.lt_of_not_le hx)
      simp [storeAt, ha, hx, List.getElem?_append_left hlt]
    · simp [storeAt, ha, hx]

theorem storeAt_singleton {b : β} : storeAt mem a [b] = Function.update mem a b := by
  funext x
  rcases Nat.lt_trichotomy x a with hx | rfl | hx
  · simp [storeAt, Nat.not_le.mpr hx, Function.update_of_ne hx.ne]
  · simp [storeAt]
  · have hlen : [b].length ≤ x - a := Nat.sub_pos_of_lt hx
    simp [storeAt, hx.le, List.getElem?_eq_none hlen, Function.update_of_ne hx.ne']

theorem storeAt_cons {b : β} :
    storeAt mem a (b :: bs) = storeAt (Function.update mem a b) (a + 1) bs := by
  rw [← storeAt_singleton, show b :: bs = [b] ++ bs from rfl, storeAt_append, List.length_singleton]

/-- What has been stored is read. -/
theorem loadFrom_storeAt : loadFrom (storeAt mem a bs) a bs.length = bs := by
  refine List.ext_getElem (by simp) fun i h _ => ?_
  have hi : i < bs.length := by simpa using h
  simp [loadFrom, storeAt, hi]

/-- Elsewhere nothing has changed. -/
theorem loadFrom_disjoint (h : Disjoint (Set.Ico a (a + n)) (Set.Ico b (b + bs.length))) :
    loadFrom (storeAt mem b bs) a n = loadFrom mem a n :=
  loadFrom_congr fun _ hx => storeAt_outside (Set.disjoint_left.mp h hx)

/-- `n` times: copy `w` bytes and go on behind them. -/
def copyLoop (w : Nat) (mem : Nat → β) (d s : Nat) : Nat → Nat → β
  | 0 => mem
  | n + 1 => copyLoop w (storeAt mem d (loadFrom mem s w)) (d + w) (s + w) n

theorem copyLoop_eq (w : Nat) (h : Disjoint (Set.Ico d (d + w * n)) (Set.Ico s (s + w * n))) :
    copyLoop w mem d s n = storeAt mem d (loadFrom mem s (w * n)) := by
  induction n generalizing mem d s with
  | zero => simp [copyLoop]
  | succ n ih =>
    rw [Nat.mul_succ, Nat.add_comm (w * n)] at h ⊢
    have hrest : Disjoint (Set.Ico (d + w) (d + w + w * n)) (Set.Ico (s + w) (s + w + w * n)) := by
      refine h.mono (Set.Ico_subset_Ico (Nat.le_add_right d w) ?_)
        (Set.Ico_subset_Ico (Nat.le_add_right s w) ?_) <;> rw [Nat.add_assoc]
    -- the words still to be read are not among the ones just written
    have hkeep : loadFrom (storeAt mem d (loadFrom mem s w)) (s + w) (w * n) =
        loadFrom mem (s + w) (w * n) := by
      refine loadFrom_disjoint (h.symm.mono (Set.Ico_subset_Ico (Nat.le_add_right s w) ?_)
        (Set.Ico_subset_Ico_right ?_))
      · rw [Nat.add_assoc]
      · rw [length_loadFrom]
        exact Nat.add_le_add_left (Nat.le_add_right w _) d
    rw [copyLoop, ih hrest, hkeep, loadFrom_add, storeAt_append, length_loadFrom]

/-- The memory after some blocks are written, the first one first. -/
def storeAll (mem : Nat → β) (blocks : List (Nat × List β)) : Nat → β :=
  blocks.foldl (fun mem block => storeAt mem block.1 block.2) mem

theorem storeAll_append {blocks blocks' : List (Nat × List β)} :
    storeAll mem (blocks ++ blocks') = storeAll (storeAll mem blocks) blocks' :=
  List.foldl_append

/-- The addresses of a block. -/
def extent (block : Nat × List β) : Set Nat := Set.Ico block.1 (block.1 + block.2.length)

theorem storeAll_outside {blocks : List (Nat × List β)} (h : ∀ block ∈ blocks, x ∉ extent block) :
    storeAll mem blocks x = mem x := by
  induction blocks generalizing mem with
  | nil => rfl
  | cons block blocks ih =>
    obtain ⟨hblock, hrest⟩ := List.forall_mem_cons.mp h
    exact (ih hrest).trans (storeAt_outside hblock)

/-- Blocks that are apart are all there at the end. -/
theorem loadFrom_storeAll {blocks : List (Nat × List β)}
    (h : blocks.Pairwise fun p q => Disjoint (extent p) (extent q)) :
    ∀ block ∈ blocks, loadFrom (storeAll mem blocks) block.1 block.2.length = block.2 := by
  induction blocks generalizing mem with
  | nil => exact fun _ hb => (by cases hb)
  | cons first blocks ih =>
    obtain ⟨hfirst, hrest⟩ := List.pairwise_cons.mp h
    intro block hb
    rcases List.mem_cons.mp hb with rfl | hb
    · have hkeep : ∀ x ∈ Set.Ico block.1 (block.1 + block.2.length),
          storeAll (storeAt mem block.1 block.2) blocks x = storeAt mem block.1 block.2 x :=
        fun x hx => storeAll_outside fun q hq => Set.disjoint_left.mp (hfirst q hq) hx
      exact (loadFrom_congr hkeep).trans loadFrom_storeAt
    · exact ih hrest block hb

end Blocks

/-! ## Blocks pushed below an address -/

section Pushing

variable {β : Type u} {mem : Nat → β} {hi : Nat} {bss : List (List β)} {block : Nat × List β}

/-- The blocks pushed below `hi`, the first one at the top. -/
def pushed (hi : Nat) : List (List β) → List (Nat × List β)
  | [] => []
  | bs :: bss => (hi - bs.length, bs) :: pushed (hi - bs.length) bss

theorem pushed_append (bss css : List (List β)) :
    pushed hi (bss ++ css) = pushed hi bss ++ pushed (hi - bss.flatten.length) css := by
  induction bss generalizing hi with
  | nil => rfl
  | cons bs bss ih =>
    simp only [List.cons_append, pushed, ih, List.flatten_cons, List.length_append, Nat.sub_sub]

theorem pushed_bounds (h : bss.flatten.length ≤ hi) (hb : block ∈ pushed hi bss) :
    hi - bss.flatten.length ≤ block.1 ∧ block.1 + block.2.length ≤ hi := by
  induction bss generalizing hi with
  | nil => cases hb
  | cons bs bss ih =>
    rw [List.flatten_cons, List.length_append] at h ⊢
    have hbs : bs.length ≤ hi := Nat.le_of_add_right_le h
    rcases List.mem_cons.mp hb with rfl | hb
    · exact ⟨Nat.sub_le_sub_left (Nat.le_add_right _ _) hi, (Nat.sub_add_cancel hbs).le⟩
    · obtain ⟨hlow, hhigh⟩ := ih (Nat.le_sub_of_add_le' h) hb
      rw [Nat.sub_sub] at hlow
      exact ⟨hlow, hhigh.trans (Nat.sub_le hi _)⟩

end Pushing

/-! ## Strings that end with a zero -/

section Strings

variable {β : Type u} [Zero β] {mem : Nat → β} {a n : Nat} {s t : List β}

/-- What is read at `a` up to the first zero is `s`. -/
def StringAt (mem : Nat → β) (a : Nat) (s : List β) : Prop :=
  loadFrom mem a (s.length + 1) = s ++ [0]

theorem stringAt_append : StringAt mem a (s ++ t) ↔
    loadFrom mem a s.length = s ∧ StringAt mem (a + s.length) t := by
  rw [StringAt, StringAt, List.length_append, Nat.add_assoc, loadFrom_add, List.append_assoc]
  constructor
  · exact fun h => List.append_inj h (by simp)
  · rintro ⟨h, h'⟩
    rw [h, h']

theorem stringAt_nil : StringAt mem a [] ↔ mem a = 0 := List.singleton_inj

theorem stringAt_cons {b : β} : StringAt mem a (b :: s) ↔ mem a = b ∧ StringAt mem (a + 1) s := by
  have hfirst : loadFrom mem a 1 = [b] ↔ mem a = b := List.singleton_inj
  rw [← hfirst]
  exact stringAt_append (s := [b])

theorem StringAt.dropWhile (h : StringAt mem a s) (p : β → Bool) :
    StringAt mem (a + (s.takeWhile p).length) (s.dropWhile p) := by
  refine (stringAt_append.mp ?_).2
  rw [List.takeWhile_append_dropWhile]
  exact h

theorem StringAt.drop (h : StringAt mem a s) (hn : n ≤ s.length) : StringAt mem (a + n) (s.drop n) := by
  have hsplit : StringAt mem a (s.take n ++ s.drop n) := by rwa [List.take_append_drop]
  have hdrop := (stringAt_append.mp hsplit).2
  rwa [List.length_take, Nat.min_eq_left hn] at hdrop

theorem StringAt.congr {mem' : Nat → β} (h : StringAt mem a s)
    (heq : ∀ x ∈ Set.Ico a (a + (s.length + 1)), mem x = mem' x) : StringAt mem' a s := by
  rw [StringAt, ← loadFrom_congr heq]
  exact h

end Strings

/-! ## Numbers -/

/-- The `w` lowest bytes of a number. -/
def leBytes : Nat → Nat → List UInt8
  | 0, _ => []
  | w + 1, n => UInt8.ofNat n :: leBytes w (n / 256)

/-- The number that some bytes stand for. -/
def leValue : List UInt8 → Nat
  | [] => 0
  | b :: bs => b.toNat + 256 * leValue bs

@[simp] theorem length_leBytes (w n : Nat) : (leBytes w n).length = w := by
  induction w generalizing n with
  | zero => rfl
  | succ w ih => simp [leBytes, ih]

theorem leValue_leBytes {w n : Nat} (h : n < 256 ^ w) : leValue (leBytes w n) = n := by
  induction w generalizing n with
  | zero => exact (Nat.lt_one_iff.mp h).symm
  | succ w ih =>
    have hdiv : n / 256 < 256 ^ w := Nat.div_lt_of_lt_mul (by rwa [Nat.mul_comm, ← Nat.pow_succ])
    rw [leBytes, leValue, ih hdiv, UInt8.toNat_ofNat']
    exact Nat.mod_add_div n 256

theorem leBytes_leValue (bs : List UInt8) : leBytes bs.length (leValue bs) = bs := by
  induction bs with
  | nil => rfl
  | cons b bs ih =>
    have hb := b.toNat_lt
    have hdiv : (b.toNat + 256 * leValue bs) / 256 = leValue bs := by
      rw [Nat.add_mul_div_left _ _ (by decide), Nat.div_eq_of_lt hb, Nat.zero_add]
    have hlow : UInt8.ofNat (b.toNat + 256 * leValue bs) = b := by
      rw [← UInt8.toNat_inj, UInt8.toNat_ofNat', Nat.add_mul_mod_self_left, Nat.mod_eq_of_lt hb]
    rw [List.length_cons, leBytes, leValue, hdiv, hlow, ih]

/-- The word at `a`. -/
def wordAt (mem : Nat → UInt8) (a : Nat) : Nat := leValue (loadFrom mem a 8)

/-- The `n` words at `a`. -/
def wordsAt (mem : Nat → UInt8) (a n : Nat) : List Nat :=
  (List.range n).map fun i => wordAt mem (a + 8 * i)

theorem wordsAt_succ (mem : Nat → UInt8) (a n : Nat) :
    wordsAt mem a (n + 1) = wordAt mem a :: wordsAt mem (a + 8) n := by
  have hrest : ∀ i, a + 8 * (i + 1) = a + 8 + 8 * i := by
    intro i
    rw [Nat.mul_succ, Nat.add_assoc, Nat.add_comm 8]
  rw [wordsAt, List.range_succ_eq_map, List.map_cons, List.map_map, wordsAt, Nat.mul_zero,
    Nat.add_zero]
  exact congrArg (wordAt mem a :: ·)
    (List.map_congr_left fun i _ => congrArg (wordAt mem) (hrest i))

end SoKernel
