import SoKernel.Kernel.Family
import SoKernel.Kernel.PipeTable
import SoKernel.Kernel.Queues
import SoKernel.Kernel.SemQueues

/-!
# The semaphores of the parents

`createProcess` opens a semaphore for a parent with its first foreground child,
and `kill` closes it with the last. A run is followed with the semaphores that
`createProcess` was the last to open.

Results:
1. `children_accounted`: the semaphores belong to the parents of live children, and
   the counts are right, as long as no parent dies before its foreground children.
2. `orphans_leak`: the semaphore of a parent that does is never closed.
-/

namespace SoKernel

/-- The arguments of a `createProcess`. -/
def Event.creates : Event → Option ProcessArgs
  | .call _ (.createProcess args) => some args
  | _ => none

/-- The semaphores a call of a process asks to be closed. -/
def Event.closes (m : Machine) : Event → List Int
  | .call _ (.semClose id) => [id]
  | .call _ (.closePipe id) => closedByPipe m.k id
  | _ => []

/-- A machine, and the semaphores `createProcess` was the last to open. -/
structure Tracked where
  m : Machine
  created : Int → Bool

namespace Tracked

def start (allocs : Nat → Bool) : Tracked := ⟨boot allocs, fun _ => false⟩

def step (t : Tracked) (e : Event) : Option Tracked :=
  (t.m.step e).map fun m' =>
    { m := m'
      created := fun id =>
        if (m'.k.sems id).used && !(t.m.k.sems id).used then e.creates.isSome
        else t.created id }

/-- The semaphores `createProcess` has opened that are in use. -/
def owned (t : Tracked) : Set Int := {id | t.created id = true ∧ (t.m.k.sems id).used = true}

end Tracked

/-- A parent with its first foreground child finds a free semaphore, and memory for the
queue. -/
def CanCount (k : Kernel) (args : ProcessArgs) : Prop :=
  args.valid = true ∧ k.allocs 0 = true ∧ k.allocs 1 = true ∧ args.foreground = true ∧
      k.foregroundChildren (getCurrentPid k) = ∅ →
    (∃ i < numSems.toNat, (k.sems i).used = false) ∧ k.allocs 2 = true

/-- No process with live foreground children is killed, first children are counted, and
the processes leave the semaphores of parents open. -/
def Orderly (t : Tracked) (e : Event) : Prop :=
  (∀ p ∈ e.target t.m, 2 ≤ p → t.m.k.foregroundChildren p = ∅) ∧
    (∀ args ∈ e.creates, CanCount t.m.k args) ∧
    ∀ id ∈ e.closes t.m, id ∉ t.owned

instance (t : Tracked) : DecidablePred (· ∈ t.owned) :=
  fun id => inferInstanceAs (Decidable (t.created id = true ∧ (t.m.k.sems id).used = true))

instance (k : Kernel) (args : ProcessArgs) : Decidable (CanCount k args) :=
  inferInstanceAs (Decidable (_ → _))

instance (t : Tracked) (e : Event) : Decidable (Orderly t e) :=
  inferInstanceAs (Decidable (_ ∧ _ ∧ _))

/-- The semaphores of the parents are accounted for. -/
structure Accounted (t : Tracked) : Prop where
  sem : ∀ p b, t.m.k.procs p = some b →
    (0 ≤ b.childrenSem ↔ (t.m.k.foregroundChildren p).Nonempty)
  count : ∀ p b, t.m.k.procs p = some b → 0 ≤ b.childrenSem →
    b.childrenCount = (t.m.k.foregroundChildren p).card
  owner : ∀ id ∈ t.owned, ∃! p, ∃ b, t.m.k.procs p = some b ∧ b.childrenSem = id
  /-- Idle and the shell are the only processes left. -/
  emptied : (∀ p b, t.m.k.procs p = some b → p < 2) → ∀ id, t.created id = true →
    (t.m.k.sems id).used = false ∧ ∀ pids, (t.m.k.sems id).blocked ≠ .live pids

section

variable {allocs : Nat → Bool} {k k' : Kernel} {l : Label} {t t' : Tracked} {m m' : Machine}
  {e : Event} {c p x : Pid} {id : Int} {f : Family} {args : ProcessArgs}

/-! ## What the other steps do -/

theorem Event.Admits.reap (h : e.Admits m c (.reap p)) (hc : m.k.currentProcess = some c) :
    e.target m = some p := by
  have hkill : ∀ {q : Pid}, 2 ≤ q ∧ (Label.reap p).Killing q → q = p := by
    rintro q ⟨_, hk⟩
    simpa [Label.Killing, Label.Mourning, eq_comm] using hk
  cases e with
  | tick => cases h
  | ctrlC => exact congrArg some (hkill h)
  | resume => cases h
  | call _ sc =>
    rcases h with h | ⟨_, h⟩ | h
    · cases sc with
      | kill q r => exact congrArg some (hkill h)
      | exit r => exact congrArg some ((getCurrentPid_eq hc).trans (hkill h))
      | _ => simp [Call.Admits, Label.Creating, Label.Counting] at h
    · cases h
    · cases h

/-- A step that kills nobody closes only what it was asked to. -/
theorem Event.Admits.semClosed (h : e.Admits m c (.semClosed id)) (ht : e.target m = none) :
    id ∈ e.closes m := by
  cases e with
  | tick => cases h
  | ctrlC => cases ht
  | resume => cases h
  | call _ sc =>
    rcases h with h | ⟨_, h⟩ | h
    · cases sc with
      | kill => cases ht
      | exit => cases ht
      | semClose i =>
        cases h
        exact List.mem_singleton_self _
      | closePipe i =>
        rcases h with ⟨j, hj, h⟩ | ⟨_, h⟩
        · cases h
          exact hj
        · cases h
      | _ => simp [Call.Admits, Label.Creating, Label.Counting] at h
    · cases h
    · cases h

/-- The steps without a birth or a death are steady. -/
theorem Event.Admits.steady (h : e.Admits m c l) (ht : e.target m = none)
    (hc : e.creates = none) : l.Steady := by
  have hworking : ∀ {l : Label}, l.Working c → l.Steady := by
    intro l hl
    cases l <;> trivial
  cases e with
  | tick => cases h
  | ctrlC => cases ht
  | resume => exact hworking h
  | call _ sc =>
    rcases h with h | ⟨_, h⟩ | h
    · cases sc with
      | kill => cases ht
      | exit => cases ht
      | createProcess => cases hc
      | yield => cases h; trivial
      | block => rcases h with rfl | rfl <;> trivial
      | unblock => cases h; trivial
      | changePrio => cases h; trivial
      | semOpen => rcases h with rfl | rfl <;> trivial
      | semPost => rcases h with ⟨_, rfl⟩ | ⟨_, rfl⟩ | rfl <;> trivial
      | semClose => cases h; trivial
      | openPipe => rcases h with rfl | ⟨_, rfl⟩ | ⟨_, _, rfl | rfl⟩ <;> trivial
      | closePipe => rcases h with ⟨_, _, rfl⟩ | ⟨_, rfl⟩ <;> trivial
      | _ => cases h
    · exact hworking h
    · exact hworking h.working

namespace Running

variable (R : Running m c) (h : m.step e = some m')

include R h

theorem placed_step (hx : m.k.Placed x) (ht : e.target m ≠ some x) : m'.k.Placed x := by
  refine R.kernel h (P := fun k => k.Placed x) hx ?_ ?_
  · intro l k k' hl _ hk he
    refine he.placed hk ?_
    rintro rfl
    exact ht ((hl.resolve_left (by simp)).reap R.settled.current)
  · rintro k k' rsp sp p n _ ⟨q, hq⟩ W
    exact ⟨q, (W.rest.mem q x).mpr hq⟩

theorem nextPid_le : m.k.nextPid ≤ m'.k.nextPid := by
  refine R.kernel h (P := fun k => m.k.nextPid ≤ k.nextPid) (Int.le_refl _) ?_ ?_
  · exact fun _ _ hk he => Int.le_trans hk he.nextPid_le
  · exact fun _ hk W => W.rest.nextPid ▸ hk

theorem family_step (ht : e.target m = none) (hc : e.creates = none) :
    m'.k.family = m.k.family := by
  refine R.kernel h (P := fun k => k.family = m.k.family) rfl ?_ ?_
  · intro l k k' hl _ hk he
    refine (he.family ?_).trans hk
    rcases hl with rfl | hl
    · trivial
    · exact hl.steady ht hc
  · exact fun _ hk W => W.family.trans hk

theorem used_step (ht : e.target m = none) (hc : id ∉ e.closes m)
    (hu : (m.k.sems id).used = true) : (m'.k.sems id).used = true := by
  refine R.kernel h (P := fun k => (k.sems id).used = true) hu ?_ ?_
  · intro l k k' hl _ hk he
    rcases eq_or_ne l (.semOpened id) with rfl | ho
    · cases he <;> simp [Kernel.setSem, Kernel.observe]
    · rwa [he.used_eq ho]
      rintro rfl
      exact hc ((hl.resolve_left (by simp)).semClosed ht)
  · intro k k' rsp sp p n _ hk W
    rwa [W.rest.sems]

end Running

/-! ## The calls of `createProcess` and `kill` -/

/-- What follows a kernel function moves nobody out of the queues either. -/
structure Unmoved (k k' : Kernel) : Prop extends SameFamilies k k' where
  placed : ∀ x, k.Placed x → k'.Placed x

theorem interrupt_unmoved {off : Nat} (C : Core m.k) (h : m.interrupt off = some m') :
    Unmoved m.k m'.k := by
  rcases Machine.interrupt_cases C h with ⟨_, rfl⟩ | ⟨_, sp, p, n, W, _⟩
  · exact ⟨⟨rfl, fun _ => rfl⟩, fun _ hx => hx⟩
  · exact ⟨⟨W.family, fun i => by rw [W.rest.sems]⟩,
      fun x ⟨q, hq⟩ => ⟨q, (W.rest.mem q x).mpr hq⟩⟩

theorem finish_unmoved {off : Nat} {flow : Flow} (C : Core k)
    (h : m.finish off (k, flow) = some m') : Unmoved k m'.k := by
  cases flow with
  | ret v =>
    cases h
    exact ⟨⟨rfl, fun _ => rfl⟩, fun _ hx => hx⟩
  | tick => exact interrupt_unmoved (m := (m.withKernel k).setCont (.ret 0)) C h

theorem step_creates (hc : e.creates = some args) (h : m.step e = some m') :
    m.Calls ∧ ∃ k flow, createProcess m.k args = some (k, flow) ∧
      (Core k → Unmoved k m'.k) := by
  cases e with
  | call off sc =>
    cases sc with
    | createProcess =>
      cases hc
      obtain ⟨hcalls, h1⟩ := Option.ite_none_right_eq_some.mp h
      obtain ⟨⟨k, flow⟩, h2, h3⟩ := Option.bind_eq_some_iff.mp h1
      exact ⟨hcalls, k, flow, h2, fun C' => finish_unmoved C' h3⟩
    | _ => cases hc
  | _ => cases hc

theorem step_kills (ht : e.target m = some p) (h : m.step e = some m') :
    ∃ r k flow, kill m.k p r = some (k, flow) ∧ (Core k → Unmoved k m'.k) := by
  cases e with
  | tick => cases ht
  | resume => cases ht
  | ctrlC off =>
    cases ht
    obtain ⟨_, h1⟩ := Option.ite_none_right_eq_some.mp h
    obtain ⟨⟨k, flow⟩, h2, h3⟩ := Option.bind_eq_some_iff.mp h1
    refine ⟨1, k, flow, h2, fun C' => ?_⟩
    cases flow with
    | ret v =>
      cases h3
      exact ⟨⟨rfl, fun _ => rfl⟩, fun _ hx => hx⟩
    | tick => exact interrupt_unmoved (m := m.withKernel k) C' h3
  | call off sc =>
    cases sc with
    | kill q r =>
      cases ht
      obtain ⟨_, h1⟩ := Option.ite_none_right_eq_some.mp h
      obtain ⟨⟨k, flow⟩, h2, h3⟩ := Option.bind_eq_some_iff.mp h1
      exact ⟨r, k, flow, h2, fun C' => finish_unmoved C' h3⟩
    | exit r =>
      cases ht
      obtain ⟨_, h1⟩ := Option.ite_none_right_eq_some.mp h
      obtain ⟨⟨k, flow⟩, h2, h3⟩ := Option.bind_eq_some_iff.mp h1
      exact ⟨r, k, flow, h2, fun C' => finish_unmoved C' h3⟩
    | _ => cases ht

/-! ## The invariant -/

/-- Parents are older than the next process, and in a queue while they live. -/
structure Lineage (k : Kernel) : Prop where
  older : ∀ x q, k.parents x = some q → q < k.nextPid
  placed : ∀ x q, k.parents x = some q → 2 ≤ x → (k.parents q).isSome → k.Placed q

namespace Lineage

theorem same (L : Lineage k) (hp : k'.parents = k.parents)
    (hplaced : ∀ x, k.Placed x → k'.Placed x) (hn : k.nextPid ≤ k'.nextPid) : Lineage k' where
  older x q hq := Int.lt_of_lt_of_le (L.older x q (hp ▸ hq)) hn
  placed x q hq h2 hs := by
    rw [hp] at hq hs
    exact hplaced q (L.placed x q hq h2 hs)

/-- The next process is born. -/
theorem born (L : Lineage k) (hp : k'.parents = Function.update k.parents k.nextPid (some c))
    (hc : k.Placed c) (hlt : c < k.nextPid) (hplaced : ∀ x, k.Placed x → k'.Placed x)
    (hn : k.nextPid ≤ k'.nextPid) : Lineage k' := by
  refine ⟨fun x q hq => ?_, fun x q hq h2 hs => ?_⟩
  · rcases eq_or_ne x k.nextPid with rfl | hx
    · obtain rfl : c = q := by simpa [hp] using hq
      exact Int.lt_of_lt_of_le hlt hn
    · exact Int.lt_of_lt_of_le (L.older x q (by simpa [hp, hx] using hq)) hn
  · rcases eq_or_ne x k.nextPid with rfl | hx
    · obtain rfl : c = q := by simpa [hp] using hq
      exact hplaced _ hc
    · have hq : k.parents x = some q := by simpa [hp, hx] using hq
      have hne : q ≠ k.nextPid := ne_of_lt (L.older x q hq)
      exact hplaced q (L.placed x q hq h2 (by simpa [hp, hne] using hs))

/-- A process is gone. -/
theorem died (L : Lineage k) (hp : k'.parents = Function.update k.parents p none)
    (hplaced : ∀ x, x ≠ p → k.Placed x → k'.Placed x) (hn : k.nextPid ≤ k'.nextPid) :
    Lineage k' := by
  have hback : ∀ {x q}, k'.parents x = some q → k.parents x = some q := by
    intro x q hq
    rcases eq_or_ne x p with rfl | hx
    · simp [hp] at hq
    · simpa [hp, hx] using hq
  refine ⟨fun x q hq => Int.lt_of_lt_of_le (L.older x q (hback hq)) hn, fun x q hq h2 hs => ?_⟩
  obtain ⟨r, hr⟩ := Option.isSome_iff_exists.mp hs
  have hqp : q ≠ p := by
    rintro rfl
    simp [hp] at hr
  exact hplaced q hqp (L.placed x q (hback hq) h2 (Option.isSome_iff_exists.mpr ⟨r, hback hr⟩))

end Lineage

/-- The accounts of the parents are right. -/
structure Kept (t : Tracked) : Prop where
  balanced : Balanced t.m.k.books t.m.k.foregroundChildren t.owned
  lineage : Lineage t.m.k

theorem Tracked.mem_owned (h : t.step e = some t') :
    id ∈ t'.owned ↔ (t'.m.k.sems id).used = true ∧
      (id ∈ t.owned ∨ (t.m.k.sems id).used = false ∧ e.creates.isSome = true) := by
  obtain ⟨m', _, rfl⟩ := Option.map_eq_some_iff.mp h
  simp only [Tracked.owned, Set.mem_ofPred_eq]
  cases hu : (t.m.k.sems id).used <;> cases hu' : (m'.k.sems id).used <;> simp

/-- When semaphores neither come into use nor go out of it, the owned ones are the same. -/
theorem Tracked.owned_same (h : t.step e = some t')
    (hu : ∀ i, (t'.m.k.sems i).used = (t.m.k.sems i).used) : t'.owned = t.owned := by
  ext i
  rw [Tracked.mem_owned h, hu]
  constructor
  · rintro ⟨hi, ho | ⟨hf, _⟩⟩
    · exact ho
    · cases hi.symm.trans hf
  · exact fun ho => ⟨ho.2, .inl ho⟩

/-- A parent takes a semaphore into use. -/
theorem Tracked.owned_insert (h : t.step e = some t') (hc : e.creates.isSome = true)
    (hfree : (t.m.k.sems id).used = false)
    (hu : ∀ i, (t'.m.k.sems i).used = true ↔ i = id ∨ (t.m.k.sems i).used = true) :
    t'.owned = insert id t.owned := by
  ext i
  rw [Tracked.mem_owned h, hu, Set.mem_insert_iff]
  constructor
  · rintro ⟨hi | hi, ho | ⟨hf, _⟩⟩
    · exact .inl hi
    · exact .inl hi
    · exact .inr ho
    · cases hi.symm.trans hf
  · rintro (rfl | ho)
    · exact ⟨.inl rfl, .inr ⟨hfree, hc⟩⟩
    · exact ⟨.inr ho.2, .inl ho⟩

/-- It gives one back. -/
theorem Tracked.owned_remove (h : t.step e = some t')
    (hu : ∀ i, (t'.m.k.sems i).used = true ↔ (t.m.k.sems i).used = true ∧ i ≠ id) :
    t'.owned = t.owned \ {id} := by
  ext i
  rw [Tracked.mem_owned h, hu, Set.mem_sdiff, Set.mem_singleton_iff]
  constructor
  · rintro ⟨⟨hi, hne⟩, ho | ⟨hf, _⟩⟩
    · exact ⟨ho, hne⟩
    · cases hi.symm.trans hf
  · rintro ⟨ho, hne⟩
    exact ⟨⟨ho.2, hne⟩, .inl ho⟩

namespace Kept

/-- An account is a semaphore in use. -/
theorem semId (K : Kept t) (T : SemTable t.m.k) (hf : t.m.k.family p = some f)
    (ha : f.account.id = some id) : Machine.SemIdOk id :=
  T.range id (K.balanced.owned_iff.mpr ⟨p, _, books_eq_some.mpr ⟨f, hf, rfl⟩, ha⟩).2

/-- Nobody has the next process for a parent. -/
theorem noChildren (K : Kept t) (C : Core t.m.k) : t.m.k.foregroundChildren t.m.k.nextPid = ∅ := by
  refine Finset.eq_empty_of_forall_notMem fun x hx => ?_
  obtain ⟨_, f, hf, hp, _⟩ := (mem_foregroundChildren C.toTable).mp hx
  exact Int.lt_irrefl _ (K.lineage.older x _ (parents_eq_some.mpr ⟨f, hf, hp⟩))

/-- A step that leaves the families alone. -/
theorem same (K : Kept t) (C : Core t.m.k) (C' : Core t'.m.k)
    (hfam : t'.m.k.family = t.m.k.family) (hplaced : ∀ x, t.m.k.Placed x → t'.m.k.Placed x)
    (hn : t.m.k.nextPid ≤ t'.m.k.nextPid) (ho : t'.owned = t.owned) : Kept t' where
  balanced := by
    rw [Kernel.books, hfam, foregroundChildren_congr C.toTable C'.toTable hfam, ho]
    exact K.balanced
  lineage := K.lineage.same (congrArg (Option.map Family.parentPid ∘ ·) hfam) hplaced hn

/-- A process is born, and its parent counts it. -/
theorem born (K : Kept t) (C : Core t.m.k) (C' : Core t'.m.k)
    (h : t.step e = some t') (hcreate : e.creates = some args) (hcan : CanCount t.m.k args)
    (E : Executing t.m.k c) (hr : c ∈ t.m.k.queue .ready) (hf : t.m.k.family c = some f)
    (hmade : args.valid = true ∧ t.m.k.allocs 0 = true ∧ t.m.k.allocs 1 = true) {k1 k2 : Kernel}
    (B : Born t.m.k c args.foreground k1) (A : Acknowledged args.foreground c f k1 k2)
    (S : SameFamilies k2 t'.m.k) (hplaced : ∀ x, t.m.k.Placed x → t'.m.k.Placed x)
    (hn : t.m.k.nextPid ≤ t'.m.k.nextPid) : Kept t' := by
  have hnew : t.m.k.family t.m.k.nextPid = none := by
    simp [Kernel.family, C.nextPid_free]
  have hlt : c < t.m.k.nextPid := C.lt_nextPid hr
  have hf1 : k1.family c = some f := by rw [B.family, Function.update_of_ne (ne_of_lt hlt), hf]
  have hbooks1 : k1.books = Function.update t.m.k.books t.m.k.nextPid (some ⟨none, 0⟩) :=
    books_update B.family
  have hparents1 : k1.parents = Function.update t.m.k.parents t.m.k.nextPid (some c) :=
    parents_update B.family
  have hbooks0 : t.m.k.books t.m.k.nextPid = none := by simp [Kernel.books, hnew]
  have hentered := K.balanced.enter hbooks0 (K.noChildren C)
  have hlineage : t'.m.k.parents = k1.parents → Lineage t'.m.k :=
    fun hp => K.lineage.born (hp.trans hparents1) ⟨.ready, hr⟩ hlt hplaced hn
  rcases A with ⟨hbg, hs⟩ | ⟨hfg, k3, hcount, hs⟩
  · -- nobody counts a child in the background
    have hs := hs.trans S
    have hchildren : t'.m.k.foregroundChildren = t.m.k.foregroundChildren := by
      funext q
      ext x
      rw [mem_foregroundChildren C'.toTable, mem_foregroundChildren C.toTable, hs.family, B.family,
        isChild_new C.nextPid hnew]
      simp [hbg]
    have howned := Tracked.owned_same h fun i => by rw [hs.used, B.sems]
    refine ⟨?_, hlineage (congrArg (Option.map Family.parentPid ∘ ·) hs.family)⟩
    rw [show t'.m.k.books = k1.books from congrArg (Option.map Family.account ∘ ·) hs.family,
      hbooks1, hchildren, howned]
    exact hentered
  · have hs := hs.trans S
    have hfresh : t.m.k.nextPid ∉ t.m.k.foregroundChildren c := by
      intro hx
      obtain ⟨_, g, hg, _⟩ := (mem_foregroundChildren C.toTable).mp hx
      cases hnew.symm.trans hg
    -- the families, but for what the account of the parent says
    have hfamilies : ∀ {a}, k3.family = Function.update k1.family c (some { f with account := a }) →
        t'.m.k.books = Function.update k1.books c (some a) ∧ Lineage t'.m.k ∧
          (∀ q, q ≠ c → t'.m.k.foregroundChildren q = t.m.k.foregroundChildren q) ∧
          t'.m.k.foregroundChildren c = insert t.m.k.nextPid (t.m.k.foregroundChildren c) := by
      intro a h3
      have hfam := hs.family.trans h3
      refine ⟨books_update hfam, hlineage (parents_recount hf1 hfam),
        foregroundChildren_insert C.toTable C'.toTable fun q x => ?_⟩
      rw [hfam, isChild_recount hf1, B.family, isChild_new C.nextPid hnew]
      simp [hfg]
    have hbooks : ∀ {a}, f.account = a → k1.books c = some a := by
      rintro a rfl
      exact books_eq_some.mpr ⟨f, hf1, rfl⟩
    rw [hbooks1] at hbooks
    cases hcount with
    | next ha h3 hu =>
      obtain ⟨h1, L, hrest, hc⟩ := hfamilies h3
      refine ⟨?_, L⟩
      rw [h1, hbooks1, Tracked.owned_same h fun i => by rw [hs.used, hu, B.sems]]
      exact hentered.addNext hrest (hbooks ha) hfresh hc
    | @first id n ha hfree h3 hu =>
      obtain ⟨h1, L, hrest, hc⟩ := hfamilies h3
      have hid : id ∉ t.owned := fun ho => by
        rw [B.sems] at hfree
        cases hfree.symm.trans ho.2
      have howned : t'.owned = insert id t.owned :=
        Tracked.owned_insert h (by rw [hcreate]; rfl) (B.sems ▸ hfree) fun i => by
          rw [hs.used, hu, B.sems]
      refine ⟨?_, L⟩
      rw [h1, hbooks1, howned]
      exact hentered.addFirst hrest (hbooks ha) hid hc
    | missed ha hmiss =>
      have hnone : t.m.k.foregroundChildren c = ∅ := by
        refine Finset.not_nonempty_iff_eq_empty.mp fun hx => ?_
        have hopen := (K.balanced.isOpen (books_eq_some.mpr ⟨f, hf, rfl⟩)).mpr hx
        rw [ha] at hopen
        cases hopen
      obtain ⟨⟨i, hi, hu⟩, hmem⟩ := hcan ⟨hmade.1, hmade.2.1, hmade.2.2, hfg, by
        rw [getCurrentPid_eq E.current]
        exact hnone⟩
      rcases hmiss with hall | hmiss
      · have hused := hall i ⟨Int.natCast_nonneg i, Int.ofNat_lt.mpr hi⟩
        rw [B.sems] at hused
        cases hu.symm.trans hused
      · rw [B.allocs] at hmiss
        cases hmem.symm.trans hmiss

/-- A process without foreground children dies, and its parent counts it out. -/
theorem died (K : Kept t) (C : Core t.m.k) (C' : Core t'.m.k) (h : t.step e = some t')
    (h2 : 2 ≤ p) (hf : t.m.k.family p = some f) (hnone : t.m.k.foregroundChildren p = ∅)
    {k1 k2 : Kernel} (M : Mourned t.m.k f k1)
    (hfree : k2.family = Function.update k1.family p none)
    (hused : ∀ i, (k2.sems i).used = (k1.sems i).used) (S : SameFamilies k2 t'.m.k)
    (hplaced : ∀ x, x ≠ p → t.m.k.Placed x → t'.m.k.Placed x)
    (hn : t.m.k.nextPid ≤ t'.m.k.nextPid) : Kept t' := by
  have hfam : t'.m.k.family = Function.update k1.family p none := S.family.trans hfree
  have hchild : ∀ {q}, p ∈ t.m.k.foregroundChildren q ↔ f.parentPid = q ∧ f.foreground = true := by
    intro q
    simp [mem_foregroundChildren C.toTable, IsChild, hf, h2]
  have hlineage : k1.parents = t.m.k.parents → Lineage t'.m.k := by
    intro hp
    refine K.lineage.died ?_ hplaced hn
    rw [parents_update hfam, ← hp]
    rfl
  rcases M with ⟨halone, hs⟩ | ⟨hfg, g, hg, hu⟩
  · -- no account of a living process knows of it
    have hmem : ∀ q x, x ∈ t'.m.k.foregroundChildren q ↔
        x ∈ t.m.k.foregroundChildren q ∧ x ≠ p := by
      intro q x
      rw [mem_foregroundChildren C'.toTable, mem_foregroundChildren C.toTable, hfam, hs.family,
        isChild_free]
    refine ⟨?_, hlineage (congrArg (Option.map Family.parentPid ∘ ·) hs.family)⟩
    rw [books_update hfam, hs.family, Tracked.owned_same h fun i => by rw [S.used, hused, hs.used]]
    refine (K.balanced.leave hnone).congr fun q a hq => ?_
    ext x
    rw [hmem]
    refine and_iff_left_of_imp ?_
    rintro hx rfl
    obtain ⟨rfl, hfg⟩ := hchild.mp hx
    rcases halone with hbg | hdead
    · cases hbg.symm.trans hfg
    · have hqp : f.parentPid ≠ x := by
        intro heq
        rw [heq] at hq
        simp at hq
      have hq : t.m.k.books f.parentPid = some a := by simpa [hqp] using hq
      obtain ⟨g, hg, _⟩ := books_eq_some.mp hq
      cases hdead.symm.trans hg
  · have hmemp : p ∈ t.m.k.foregroundChildren f.parentPid := hchild.mpr ⟨rfl, hfg⟩
    have hne : f.parentPid ≠ p := by
      intro heq
      rw [heq, hnone] at hmemp
      cases hmemp
    -- the families, but for what the account of the parent says
    have hfamilies : ∀ {a},
        k1.family = Function.update t.m.k.family f.parentPid (some { g with account := a }) →
        t'.m.k.books =
            Function.update (Function.update t.m.k.books f.parentPid (some a)) p none ∧
          Lineage t'.m.k ∧
          (∀ q, q ≠ f.parentPid → t'.m.k.foregroundChildren q = t.m.k.foregroundChildren q) ∧
          t'.m.k.foregroundChildren f.parentPid =
            (t.m.k.foregroundChildren f.parentPid).erase p := by
      intro a h1
      refine ⟨?_, hlineage (parents_recount hg h1), foregroundChildren_erase C.toTable C'.toTable
        (fun q x => ?_) fun q hx => (hchild.mp hx).1⟩
      · rw [books_update hfam, h1, Function.comp_update]
        rfl
      · rw [hfam, isChild_free, h1, isChild_recount hg]
    have hbooks : ∀ {a}, g.account = a → t.m.k.books f.parentPid = some a := by
      rintro a rfl
      exact books_eq_some.mpr ⟨g, hg, rfl⟩
    cases hu with
    | unheld ha =>
      have hopen := (K.balanced.isOpen (hbooks rfl)).mpr ⟨p, hmemp⟩
      rw [ha] at hopen
      cases hopen
    | other ha hn1 h1 hu =>
      obtain ⟨hb, L, hrest, hc⟩ := hfamilies h1
      refine ⟨?_, L⟩
      rw [hb, Tracked.owned_same h fun i => by rw [S.used, hused, hu]]
      exact (K.balanced.removeOther hrest (hbooks ha) hn1 hmemp hc).leave
        ((hrest p hne.symm).trans hnone)
    | @last id ha h1 hu =>
      obtain ⟨hb, L, hrest, hc⟩ := hfamilies h1
      have howned : t'.owned = t.owned \ {id} :=
        Tracked.owned_remove h fun i => by rw [S.used, hused, hu]
      refine ⟨?_, L⟩
      rw [hb, howned]
      exact (K.balanced.removeLast hrest (hbooks ha) hmemp hc).leave
        ((hrest p hne.symm).trans hnone)

/-- Every orderly step keeps the accounts. -/
theorem step (K : Kept t) (R : Running t.m c) (T : SemTable t.m.k) (hok : Orderly t e)
    (h : t.step e = some t') : Kept t' := by
  obtain ⟨m', hs, rfl⟩ := Option.map_eq_some_iff.mp h
  obtain ⟨_, R'⟩ := R.step hs
  have hn := R.nextPid_le hs
  obtain ⟨hspare, hcan, hclose⟩ := hok
  obtain ht | ⟨p, ht⟩ := Option.eq_none_or_eq_some (e.target t.m)
  · have hplaced : ∀ x, t.m.k.Placed x → m'.k.Placed x :=
      fun x hx => R.placed_step hs hx (by simp [ht])
    obtain hc | ⟨args, hc⟩ := Option.eq_none_or_eq_some e.creates
    · refine K.same R.core R'.core (R.family_step hs ht hc) hplaced hn ?_
      ext i
      rw [Tracked.mem_owned h]
      constructor
      · rintro ⟨_, ho | ⟨_, hc'⟩⟩
        · exact ho
        · rw [hc] at hc'
          cases hc'
      · exact fun ho => ⟨R.used_step hs ht (fun hi => hclose i hi ho) ho.2, .inl ho⟩
    · obtain ⟨hcalls, k1, flow, hcreate, hend⟩ := step_creates hc hs
      have B := Machine.Busy.of_calls R.toOnCpu hcalls
      have C1 : Core k1 := R.core.effects (createProcess_effects R.core B.executing hcreate).1
      obtain ⟨b, hb, _⟩ := R.core.member _ c B.ready
      have hf : t.m.k.family c = some b.family := family_eq_some.mpr ⟨b, hb, rfl⟩
      rcases createProcess_family R.core B.executing B.ready hf (fun i hi => (K.semId T hf hi).1)
        hcreate with hsame | ⟨hmade, k2, hborn, hack⟩
      · have hsame := hsame.trans (hend C1).toSameFamilies
        exact K.same R.core R'.core hsame.family hplaced hn (Tracked.owned_same h hsame.used)
      · exact K.born R.core R'.core h hc (hcan args hc) B.executing B.ready hf hmade hborn hack
          (hend C1).toSameFamilies hplaced hn
  · obtain ⟨r, k1, flow, hkill, hend⟩ := step_kills ht hs
    have hcur : t.m.k.currentProcess = some p → p ∈ t.m.k.queue .ready ∨ p = 0 := by
      intro hp
      obtain rfl := Option.some.inj (R.settled.current.symm.trans hp)
      exact R.settled.place.symm
    have C1 : Core k1 := R.core.effects (kill_ends R.core R.settled.currentPid hcur hkill).effects
    have hlive : ∀ f, t.m.k.family p = some f → 2 ≤ p → (t.m.k.family f.parentPid).isSome →
        t.m.k.Placed f.parentPid :=
      fun f hf h2 hq => K.lineage.placed p _ (parents_eq_some.mpr ⟨f, hf, rfl⟩) h2
        (parents_isSome.mpr hq)
    have hplaced : ∀ x, x ≠ p → t.m.k.Placed x → m'.k.Placed x :=
      fun x hx hp => R.placed_step hs hp fun h => hx (Option.some.inj (ht.symm.trans h)).symm
    rcases kill_family R.core R.settled.currentPid hcur hlive (fun q f i => K.semId T) hkill with
      rfl | ⟨h2, f, hf, k2, hmourn, hfree, hused⟩
    · have hsame := hend C1
      exact K.same R.core R'.core hsame.family hsame.placed hn (Tracked.owned_same h hsame.used)
    · exact K.died R.core R'.core h h2 hf (hspare p ht h2) hmourn hfree hused
        (hend C1).toSameFamilies hplaced hn

end Kept

/-! ## Runs -/

/-- A run with the semaphores of the parents is a run of the machine. -/
theorem Tracked.reach {ok : Tracked → Event → Prop}
    (h : Run Tracked.step ok (Tracked.start allocs) t) : Reach allocs Run.anyEvent t.m := by
  have hstart : Reach allocs Run.anyEvent (Tracked.start allocs).m := Run.refl
  refine h.invariant (P := fun t => Reach allocs Run.anyEvent t.m) hstart ?_
  intro t t' e ht _ hs
  obtain ⟨m', hm, rfl⟩ := Option.map_eq_some_iff.mp hs
  exact .snoc e ht trivial hm

/-- Nobody has children after boot. -/
theorem start_kept : Kept (Tracked.start allocs) := by
  have hfam : ∀ {p f}, (boot allocs).k.family p = some f →
      p = 1 ∧ f = ⟨0, true, ⟨none, 0⟩⟩ ∨ p = 0 ∧ f = ⟨-1, false, ⟨none, 0⟩⟩ := by
    intro p f hf
    obtain ⟨b, hb, rfl⟩ := family_eq_some.mp hf
    rcases boot_live hb with ⟨rfl, rfl⟩ | ⟨rfl, rfl⟩
    · exact .inl ⟨rfl, rfl⟩
    · exact .inr ⟨rfl, rfl⟩
  have haccount : ∀ {p a}, (boot allocs).k.books p = some a → a = ⟨none, 0⟩ := by
    intro p a ha
    obtain ⟨f, hf, rfl⟩ := books_eq_some.mp ha
    rcases hfam hf with ⟨_, rfl⟩ | ⟨_, rfl⟩ <;> rfl
  have hold : ∀ {p f}, (boot allocs).k.family p = some f → p < 2 := by
    intro p f hf
    rcases hfam hf with ⟨rfl, _⟩ | ⟨rfl, _⟩ <;> decide
  have hnone : ∀ p, (boot allocs).k.foregroundChildren p = ∅ := by
    intro p
    refine Finset.eq_empty_of_forall_notMem fun x hx => ?_
    obtain ⟨h2, f, hf, _⟩ := (mem_foregroundChildren boot_core.toTable).mp hx
    exact absurd h2 (Int.not_le.mpr (hold hf))
  refine ⟨⟨?_, ?_, ?_, ?_⟩, ?_, ?_⟩
  · intro p a ha
    obtain rfl := haccount ha
    exact iff_of_false (by simp) (by simp [Tracked.start, hnone])
  · intro p a ha
    obtain rfl := haccount ha
    simp [Tracked.start, hnone]
  · intro i
    refine iff_of_false (fun h => by cases h.1) ?_
    rintro ⟨p, a, ha, hi⟩
    obtain rfl := haccount ha
    cases hi
  · intro p q a b i ha _ hi
    obtain rfl := haccount ha
    cases hi
  · intro x q hq
    obtain ⟨f, hf, rfl⟩ := parents_eq_some.mp hq
    show f.parentPid < 2
    rcases hfam hf with ⟨_, rfl⟩ | ⟨_, rfl⟩
    · show (0 : Int) < 2
      decide
    · show (-1 : Int) < 2
      decide
  · intro x q hq h2
    obtain ⟨f, hf, _⟩ := parents_eq_some.mp hq
    exact absurd h2 (Int.not_le.mpr (hold hf))

/-- In an orderly run the accounts are right. -/
theorem Tracked.kept (h : Run Tracked.step Orderly (Tracked.start allocs) t) : Kept t := by
  have hstart : Reach allocs Run.anyEvent (Tracked.start allocs).m := Run.refl
  have hP : Reach allocs Run.anyEvent t.m ∧ Kept t := by
    refine h.invariant (P := fun t => Reach allocs Run.anyEvent t.m ∧ Kept t)
      ⟨hstart, start_kept⟩ ?_
    rintro t t' e ⟨hr, K⟩ hok hs
    obtain ⟨m', hm, ht'⟩ := Option.map_eq_some_iff.mp hs
    refine ⟨ht' ▸ .snoc e hr trivial hm, ?_⟩
    rcases hr.cases with hboot | ⟨c, R⟩
    · -- up to the first dispatch nothing happens
      have hmoved : Core t'.m.k ∧ Unmoved t.m.k t'.m.k ∧ t.m.k.nextPid ≤ t'.m.k.nextPid := by
        rw [← ht', hboot]
        rw [hboot] at hm
        rcases boot_step hm with rfl | ⟨off, hi⟩
        · exact ⟨boot_core, ⟨⟨rfl, fun _ => rfl⟩, fun _ hx => hx⟩, Int.le_refl _⟩
        · obtain ⟨_, _, _, _, W, _, R⟩ := boot_dispatch hi
          exact ⟨R.core, interrupt_unmoved boot_core hi, W.rest.nextPid.ge⟩
      obtain ⟨C', hmoved, hn⟩ := hmoved
      exact K.same (hboot ▸ boot_core) C' hmoved.family hmoved.placed hn
        (Tracked.owned_same hs hmoved.used)
    · exact K.step R hr.tables.1 hok hs
  exact hP.2

/-- A queue is that of a semaphore in use. -/
def QueuesInUse (k : Kernel) : Prop :=
  ∀ id pids, (k.sems id).blocked = .live pids → (k.sems id).used = true

theorem QueuesInUse.effect (H : QueuesInUse k) (h : Effect l k k') : QueuesInUse k' := by
  intro id pids
  rcases h.sem id with heq | hs
  · rw [heq]
    exact H id pids
  · generalize k'.sems id = s' at hs ⊢
    intro hb
    cases hs with
    | took => exact H id pids hb
    | counted => exact H id pids hb
    | joined hl => exact H id _ hl
    | left hl => exact H id _ hl
    | opened => rfl
    | closed _ hn => rcases hn with ⟨_, rfl⟩ | ⟨_, rfl⟩ <;> cases hb

theorem Reach.queuesInUse (h : Reach allocs Run.anyEvent m) : QueuesInUse m.k := by
  refine h.kernel (P := QueuesInUse) (fun id pids hb => ?_) (fun _ _ _ _ H he => H.effect he) ?_
  · rcases boot_sem id with ⟨v, hs⟩ | hs
    · rw [hs]
    · rw [hs] at hb
      cases hb
  · exact fun _ H W => by rw [QueuesInUse, W.rest.sems]; exact H

/-- In a run where no process dies before its foreground children, and first foreground
children are counted, the semaphores of the parents are accounted for in every state. -/
theorem children_accounted (h : Run Tracked.step Orderly (Tracked.start allocs) t) :
    Accounted t := by
  have K := Tracked.kept h
  have hr := Tracked.reach h
  have T := hr.tables.1
  have hfam : ∀ {p b}, t.m.k.procs p = some b → t.m.k.family p = some b.family :=
    fun hb => family_eq_some.mpr ⟨_, hb, rfl⟩
  have hbook : ∀ {p b}, t.m.k.procs p = some b → t.m.k.books p = some b.account :=
    fun hb => books_eq_some.mpr ⟨_, hfam hb, rfl⟩
  have hsem : ∀ {p b}, t.m.k.procs p = some b →
      (0 ≤ b.childrenSem ↔ b.account.id.isSome) := by
    intro p b hb
    rcases eq_or_ne b.childrenSem (-1) with hneg | hne
    · simp [PCB.account, hneg]
    · have hid : b.family.account.id = some b.childrenSem := by simp [PCB.family, PCB.account, hne]
      exact iff_of_true (K.semId T (hfam hb) hid).1
        (by rw [show b.account = b.family.account from rfl, hid]; rfl)
  have howner : ∀ {id}, id ∈ t.owned → ∃ p b, t.m.k.procs p = some b ∧ b.childrenSem = id ∧
      (t.m.k.foregroundChildren p).Nonempty := by
    intro id ho
    obtain ⟨p, a, ha, hid⟩ := K.balanced.owned_iff.mp ho
    obtain ⟨f, hf, rfl⟩ := books_eq_some.mp ha
    obtain ⟨b, hb, rfl⟩ := family_eq_some.mp hf
    refine ⟨p, b, hb, ?_, (K.balanced.isOpen ha).mp (by rw [hid]; rfl)⟩
    simp only [PCB.family, PCB.account] at hid
    split at hid
    · cases hid
    · exact Option.some.inj hid
  refine ⟨fun p b hb => (hsem hb).trans (K.balanced.isOpen (hbook hb)),
    fun p b hb _ => K.balanced.count (hbook hb), fun id ho => ?_, fun hall id hc => ?_⟩
  · obtain ⟨p, b, hb, rfl, _⟩ := howner ho
    refine ⟨p, ⟨b, hb, rfl⟩, ?_⟩
    rintro q ⟨b', hb', hs⟩
    have hpos : 0 ≤ b.childrenSem := (T.range _ ho.2).1
    have hid := PCB.account_some hpos
    have hid' := PCB.account_some (hs.symm ▸ hpos : 0 ≤ b'.childrenSem)
    exact K.balanced.unique (hbook hb') (hbook hb) (by rw [hid', hs]) (by rw [hid])
  · have hunused : (t.m.k.sems id).used = false := by
      refine eq_false_of_ne_true fun hu => ?_
      obtain ⟨p, b, _, _, x, hx⟩ := howner ⟨hc, hu⟩
      obtain ⟨b', hb'⟩ : ∃ b', t.m.k.procs x = some b' := by
        obtain ⟨_, hx⟩ := Finset.mem_filter.mp hx
        obtain ⟨b', hb', _⟩ := hx
        exact ⟨b', hb'⟩
      have h2 := (Int.mem_range_iff.mp (List.mem_toFinset.mp (Finset.mem_filter.mp hx).1)).1
      exact absurd h2 (Int.not_le.mpr (hall x b' hb'))
    refine ⟨hunused, fun pids hlive => ?_⟩
    cases hunused.symm.trans (hr.queuesInUse id pids hlive)

/-- A process in the foreground that does not read from the terminal. -/
def foregroundArgs : ProcessArgs := { backgroundArgs with foreground := true }

/-- The shell has two children in the foreground and one in the background; the first one
and the last one are killed. -/
def twoChildren : List Event :=
  [.tick 0, .call 0 (.createProcess foregroundArgs), .call 0 (.createProcess foregroundArgs),
    .call 0 (.createProcess backgroundArgs), .call 0 (.kill 2 0), .call 0 (.kill 4 0)]

theorem children_accounted_two :
    ∃ t, Run Tracked.step Orderly (Tracked.start fun _ => true) t ∧ Accounted t ∧
      t.m.k.foregroundChildren 1 = {3} ∧ ∃ b, t.m.k.procs 1 = some b ∧ b.childrenSem = 3 ∧
        b.childrenCount = 1 := by
  obtain ⟨t, _, ht, hc, hs⟩ :
      ∃ t, Run.exec Tracked.step Orderly (Tracked.start fun _ => true) twoChildren = some t ∧
        Run Tracked.step Orderly (Tracked.start fun _ => true) t ∧
        t.m.k.foregroundChildren 1 = {3} ∧ (t.m.k.procs 1).map PCB.childrenSem = some 3 :=
    Run.exists_exec (by decide +kernel)
  have hacc := children_accounted ht
  obtain ⟨b, hb, hs⟩ := Option.map_eq_some_iff.mp hs
  refine ⟨t, ht, hacc, hc, b, hb, hs, ?_⟩
  rw [hacc.count 1 b hb (by rw [hs]; decide), hc]
  rfl

/-- The shell has a child in the foreground, which has one of its own; the shell kills its
child, and then the child of the child. -/
def orphan : List Event :=
  [.tick 0, .call 0 (.createProcess foregroundArgs), .call 0 .yield, .resume 0, .call 0 .yield,
    .call 0 (.createProcess foregroundArgs), .call 0 .yield, .resume 0, .call 0 (.kill 2 0),
    .call 0 (.kill 3 0)]

/-- The semaphore of the child is still in use, with its queue, when only the shell is
left. -/
theorem orphans_leak :
    ∃ t, Run.exec Tracked.step Run.anyEvent (Tracked.start fun _ => true) orphan = some t ∧
      (∀ p b, t.m.k.procs p = some b → p < 2) ∧ 4 ∈ t.owned ∧
      (t.m.k.sems 4).blocked = .live [] ∧ ¬ Accounted t := by
  obtain ⟨t, he, hrun, ho, hq, h2, h3, hn⟩ :
      ∃ t, Run.exec Tracked.step Run.anyEvent (Tracked.start fun _ => true) orphan = some t ∧
        Run Tracked.step Run.anyEvent (Tracked.start fun _ => true) t ∧ 4 ∈ t.owned ∧
        (t.m.k.sems 4).blocked = .live [] ∧ t.m.k.procs 2 = none ∧ t.m.k.procs 3 = none ∧
        t.m.k.nextPid = 4 :=
    Run.exists_exec (by decide +kernel)
  have hall : ∀ p b, t.m.k.procs p = some b → p < 2 := by
    intro p b hb
    have hlt : p < 4 := hn ▸ ((Tracked.reach hrun).core.1.pcb p b hb).2.2
    have hne2 : p ≠ 2 := by
      rintro rfl
      cases h2.symm.trans hb
    have hne3 : p ≠ 3 := by
      rintro rfl
      cases h3.symm.trans hb
    have hlt : p < 3 := lt_of_le_of_ne (Int.le_of_lt_add_one hlt) hne3
    exact lt_of_le_of_ne (Int.le_of_lt_add_one hlt) hne2
  refine ⟨t, he, hall, ho, hq, fun hacc => ?_⟩
  cases ((hacc.emptied hall 4 ho.1).1).symm.trans ho.2

end

end SoKernel
