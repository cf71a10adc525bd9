import Mathlib.Data.Finset.Card
import Mathlib.Data.Set.Insert
import Mathlib.Logic.Function.Basic

/-!
# Accounts that live as long as they have members

A holder opens an account for its first member and closes it with its last. In
between the account counts the members. `Balanced` says that the books are right:
which accounts exist, who holds them, and what they count.

Results: entering, leaving, and adding or removing one member keep the books
balanced.
-/

namespace SoKernel

universe u v w

/-- What a holder keeps: its open account, if there is one, and the count. -/
structure Account (ι : Type u) where
  id : Option ι
  count : ℤ

variable {P : Type v} {M : Type w} {ι : Type u}

/-- The books of the holders with an entry in `books`, who have the members
`members`; `owned` are the accounts that exist. -/
structure Balanced (books : P → Option (Account ι)) (members : P → Finset M) (owned : Set ι) :
    Prop where
  isOpen : ∀ {p a}, books p = some a → (a.id.isSome ↔ (members p).Nonempty)
  count : ∀ {p a}, books p = some a → a.count = (members p).card
  owned_iff : ∀ {i}, i ∈ owned ↔ ∃ p a, books p = some a ∧ a.id = some i
  unique : ∀ {p q a b i}, books p = some a → books q = some b → a.id = some i → b.id = some i →
    p = q

namespace Balanced

variable {books : P → Option (Account ι)} {members members' : P → Finset M} {owned : Set ι} {p : P}
  {x : M} {i : ι} {a : Account ι} {n : ℤ}

/-- Only the members of the holders count. -/
theorem congr (B : Balanced books members owned)
    (h : ∀ p a, books p = some a → members' p = members p) : Balanced books members' owned where
  isOpen hp := (h _ _ hp) ▸ B.isOpen hp
  count hp := (h _ _ hp) ▸ B.count hp
  owned_iff := B.owned_iff
  unique := B.unique

/-- The accounts of the other holders are the ones `p` does not hold. -/
theorem others_iff (B : Balanced books members owned) (hp : books p = some a) {j : ι} :
    (∃ q b, q ≠ p ∧ books q = some b ∧ b.id = some j) ↔ j ∈ owned ∧ a.id ≠ some j := by
  constructor
  · rintro ⟨q, b, hqp, hb, hj⟩
    exact ⟨B.owned_iff.mpr ⟨q, b, hb, hj⟩, fun ha => hqp (B.unique hb hp hj ha)⟩
  · rintro ⟨hj, ha⟩
    obtain ⟨q, b, hb, hbj⟩ := B.owned_iff.mp hj
    refine ⟨q, b, ?_, hb, hbj⟩
    rintro rfl
    rw [hp] at hb
    cases hb
    exact ha hbj

variable [DecidableEq P]

/-- The entry of one holder changes. -/
theorem update {b : Account ι} (B : Balanced books members owned) {owned' : Set ι}
    (hrest : ∀ q, q ≠ p → members' q = members q)
    (hopen : b.id.isSome ↔ (members' p).Nonempty) (hcount : b.count = (members' p).card)
    (howned : ∀ j, j ∈ owned' ↔ b.id = some j ∨ ∃ q a, q ≠ p ∧ books q = some a ∧ a.id = some j)
    (hfresh : ∀ q a j, q ≠ p → books q = some a → a.id = some j → b.id ≠ some j) :
    Balanced (Function.update books p (some b)) members' owned' where
  isOpen {q c} hq := by
    rcases eq_or_ne q p with rfl | hqp
    · obtain rfl : b = c := by simpa using hq
      exact hopen
    · rw [hrest q hqp]
      exact B.isOpen (by simpa [hqp] using hq)
  count {q c} hq := by
    rcases eq_or_ne q p with rfl | hqp
    · obtain rfl : b = c := by simpa using hq
      exact hcount
    · rw [hrest q hqp]
      exact B.count (by simpa [hqp] using hq)
  owned_iff {j} := by
    rw [howned j]
    constructor
    · rintro (hb | ⟨q, c, hqp, hc, hj⟩)
      · exact ⟨p, b, by simp, hb⟩
      · exact ⟨q, c, by simpa [hqp] using hc, hj⟩
    · rintro ⟨q, c, hc, hj⟩
      rcases eq_or_ne q p with rfl | hqp
      · obtain rfl : b = c := by simpa using hc
        exact .inl hj
      · exact .inr ⟨q, c, hqp, by simpa [hqp] using hc, hj⟩
  unique {q r c d j} hq hr hc hd := by
    rcases eq_or_ne q p with rfl | hqp
    · obtain rfl : b = c := by simpa using hq
      rcases eq_or_ne r q with rfl | hrq
      · rfl
      · exact absurd hc (hfresh r d j hrq (by simpa [hrq] using hr) hd)
    · rcases eq_or_ne r p with rfl | hrp
      · obtain rfl : b = d := by simpa using hr
        exact absurd hd (hfresh q c j hqp (by simpa [hqp] using hq) hc)
      · exact B.unique (by simpa [hqp] using hq) (by simpa [hrp] using hr) hc hd

/-- A new holder has no members yet. -/
theorem enter (B : Balanced books members owned) (hp : books p = none) (hm : members p = ∅) :
    Balanced (Function.update books p (some ⟨none, 0⟩)) members owned := by
  refine B.update (fun _ _ => rfl) (by simp [hm]) (by simp [hm]) ?_ (by simp)
  intro j
  rw [B.owned_iff]
  constructor
  · rintro ⟨q, a, ha, hj⟩
    refine .inr ⟨q, a, ?_, ha, hj⟩
    rintro rfl
    cases hp.symm.trans ha
  · rintro (h | ⟨q, a, _, ha, hj⟩)
    · cases h
    · exact ⟨q, a, ha, hj⟩

/-- A holder without members leaves. -/
theorem leave (B : Balanced books members owned) (hm : members p = ∅) :
    Balanced (Function.update books p none) members owned := by
  have hback : ∀ {q a}, Function.update books p none q = some a → q ≠ p ∧ books q = some a := by
    intro q a hq
    rcases eq_or_ne q p with rfl | hqp
    · simp at hq
    · exact ⟨hqp, by simpa [hqp] using hq⟩
  refine ⟨fun hq => B.isOpen (hback hq).2, fun hq => B.count (hback hq).2, ?_,
    fun hq hr => B.unique (hback hq).2 (hback hr).2⟩
  intro j
  rw [B.owned_iff]
  constructor
  · rintro ⟨q, a, ha, hj⟩
    have hqp : q ≠ p := by
      rintro rfl
      have hopen := (B.isOpen ha).mp (by simp [hj])
      simp [hm] at hopen
    exact ⟨q, a, by simpa [hqp] using ha, hj⟩
  · rintro ⟨q, a, ha, hj⟩
    exact ⟨q, a, (hback ha).2, hj⟩

section Members

variable (hrest : ∀ q, q ≠ p → members' q = members q)

include hrest

/-- The holder goes on with its account. -/
theorem recount {m : ℤ} (B : Balanced books members owned) (hp : books p = some ⟨some i, n⟩)
    (hm : (members' p).Nonempty) (hcount : m = (members' p).card) :
    Balanced (Function.update books p (some ⟨some i, m⟩)) members' owned := by
  have hi : i ∈ owned := B.owned_iff.mpr ⟨p, _, hp, rfl⟩
  refine B.update hrest (iff_of_true rfl hm) hcount ?_ ?_
  · intro j
    rw [B.others_iff hp]
    constructor
    · intro hj
      rcases eq_or_ne i j with rfl | hij
      · exact .inl rfl
      · exact .inr ⟨hj, fun h => hij (Option.some.inj h)⟩
    · rintro (h | ⟨hj, _⟩)
      · cases h
        exact hi
      · exact hj
  · rintro q b j hqp hb hj hij
    exact hqp (B.unique hb hp hj hij)

variable [DecidableEq M]

/-- The first member opens an account. -/
theorem addFirst (B : Balanced books members owned) (hp : books p = some ⟨none, n⟩)
    (hi : i ∉ owned) (hm : members' p = insert x (members p)) :
    Balanced (Function.update books p (some ⟨some i, n + 1⟩)) members' (insert i owned) := by
  have hnone : members p = ∅ := by
    refine Finset.not_nonempty_iff_eq_empty.mp fun h => ?_
    cases (B.isOpen hp).mpr h
  have hn : n = 0 := by simpa [hnone] using B.count hp
  refine B.update hrest (by simp [hm]) (by simp [hm, hnone, hn]) ?_ ?_
  · intro j
    rw [B.others_iff hp]
    simp [Set.mem_insert_iff, eq_comm]
  · rintro q b j _ hb hj hij
    cases hij
    exact hi (B.owned_iff.mpr ⟨q, b, hb, hj⟩)

/-- A further member is counted. -/
theorem addNext (B : Balanced books members owned) (hp : books p = some ⟨some i, n⟩)
    (hx : x ∉ members p) (hm : members' p = insert x (members p)) :
    Balanced (Function.update books p (some ⟨some i, n + 1⟩)) members' owned := by
  have hn : n = (members p).card := B.count hp
  refine B.recount hrest hp (hm ▸ Finset.insert_nonempty x _) ?_
  rw [hm, Finset.card_insert_of_notMem hx, Int.natCast_succ, hn]

/-- The last member closes the account. -/
theorem removeLast (B : Balanced books members owned) (hp : books p = some ⟨some i, 1⟩)
    (hx : x ∈ members p) (hm : members' p = (members p).erase x) :
    Balanced (Function.update books p (some ⟨none, 0⟩)) members' (owned \ {i}) := by
  have hcard : ((members p).card : ℤ) = 1 := (B.count hp).symm
  have hnone : members' p = ∅ := by
    rw [hm, ← Finset.card_eq_zero, Finset.card_erase_of_mem hx, Int.ofNat_inj.mp hcard]
  refine B.update hrest (by simp [hnone]) (by simp [hnone]) ?_ (by simp)
  intro j
  rw [B.others_iff hp]
  simp [eq_comm]

/-- Another member is counted out. -/
theorem removeOther (B : Balanced books members owned) (hp : books p = some ⟨some i, n⟩)
    (h1 : n ≠ 1) (hx : x ∈ members p) (hm : members' p = (members p).erase x) :
    Balanced (Function.update books p (some ⟨some i, n - 1⟩)) members' owned := by
  have hn : n = (members p).card := B.count hp
  have hpos : 0 < (members p).card := Finset.card_pos.mpr ⟨x, hx⟩
  have hcard : (members' p).card + 1 = (members p).card := by
    rw [hm, Finset.card_erase_of_mem hx, Nat.sub_add_cancel hpos]
  have hone : (members' p).card ≠ 0 := by
    intro h0
    rw [← hcard, h0] at hn
    exact h1 hn
  refine B.recount hrest hp (Finset.card_pos.mp (Nat.pos_of_ne_zero hone)) ?_
  rw [hn, ← hcard, Int.natCast_succ, Int.add_sub_cancel]

end Members

end Balanced

end SoKernel
