import SoKernel.Kernel.Turn
import SoKernel.Lib.Accounts
import Mathlib.Data.Finset.Dedup
import Mathlib.Data.Finset.Filter
import Mathlib.Data.Int.Range

/-!
# Parents and children

What the process manager keeps about parents and their children in the foreground:
`children_sem` and `children_count` are an account that the parent holds. Every
effect but births, deaths and the two functions that count leaves all of it alone.

Results:
1. `createProcess_family`: a new process, and how its parent counts it.
2. `kill_family`: the end of a process, and how its parent counts it out.
-/

namespace SoKernel

/-- What a PCB says about the parent and the children of its process. -/
structure Family where
  parentPid : Pid
  foreground : Bool
  account : Account Int

/-- `children_sem` and `children_count`. -/
def PCB.account (b : PCB) : Account Int :=
  ⟨if b.childrenSem = -1 then none else some b.childrenSem, b.childrenCount⟩

def PCB.family (b : PCB) : Family := ⟨b.parentPid, b.foreground, b.account⟩

/-- The processes that have a PCB. -/
def Kernel.family (k : Kernel) (p : Pid) : Option Family := (k.procs p).map PCB.family

/-- The children of `p` that were created in the foreground and are alive. The pids 0 and
1 are idle and the shell, which `main` makes before any process runs. -/
def Kernel.foregroundChildren (k : Kernel) (p : Pid) : Finset Pid :=
  (Int.range 2 k.nextPid).toFinset.filter fun x =>
    ∃ b ∈ k.procs x, b.parentPid = p ∧ b.foreground = true

/-- `x` is a child of `p` in the foreground. -/
def IsChild (F : Pid → Option Family) (p x : Pid) : Prop :=
  2 ≤ x ∧ ∃ f, F x = some f ∧ f.parentPid = p ∧ f.foreground = true

/-- The accounts of the processes. -/
def Kernel.books (k : Kernel) : Pid → Option (Account Int) := Option.map Family.account ∘ k.family

/-- The parents of the processes. -/
def Kernel.parents (k : Kernel) : Pid → Option Pid := Option.map Family.parentPid ∘ k.family

/-- The process is in a queue. -/
def Kernel.Placed (k : Kernel) (p : Pid) : Prop := ∃ q, p ∈ k.queue q

section

variable {k k' k1 k2 : Kernel} {l : Label} {p x c : Pid} {b b' : PCB} {f : Family} {flow : Flow}
  {args : ProcessArgs}

theorem family_eq_some : k.family p = some f ↔ ∃ b, k.procs p = some b ∧ b.family = f :=
  Option.map_eq_some_iff

@[simp] theorem setPCB_family :
    (k.setPCB p b).family = Function.update k.family p (some b.family) := by
  funext x
  rcases eq_or_ne x p with rfl | hxp
  · simp [Kernel.family]
  · simp [Kernel.family, hxp]

@[simp] theorem freePCB_family :
    (k.freePCB p).family = Function.update k.family p none := by
  funext x
  rcases eq_or_ne x p with rfl | hxp
  · simp [Kernel.family]
  · simp [Kernel.family, hxp]

theorem mem_foregroundChildren (T : Table k) :
    x ∈ k.foregroundChildren p ↔ IsChild k.family p x := by
  simp only [Kernel.foregroundChildren, IsChild, Finset.mem_filter, List.mem_toFinset,
    Int.mem_range_iff]
  constructor
  · rintro ⟨⟨h2, _⟩, b, hb, hp, hf⟩
    exact ⟨h2, _, family_eq_some.mpr ⟨b, hb, rfl⟩, hp, hf⟩
  · rintro ⟨h2, _, hfam, hp, hf⟩
    obtain ⟨b, hb, rfl⟩ := family_eq_some.mp hfam
    exact ⟨⟨h2, (T.pcb x b hb).2.2⟩, b, hb, hp, hf⟩

/-- The children are known from the families. -/
theorem foregroundChildren_congr (T : Table k) (T' : Table k') (h : k'.family = k.family) :
    k'.foregroundChildren = k.foregroundChildren := by
  funext p
  ext x
  rw [mem_foregroundChildren T, mem_foregroundChildren T', h]

/-- The parent `c` gets a child. -/
theorem foregroundChildren_insert (T : Table k) (T' : Table k')
    (h : ∀ q x, IsChild k'.family q x ↔ IsChild k.family q x ∨ x = p ∧ c = q) :
    (∀ q, q ≠ c → k'.foregroundChildren q = k.foregroundChildren q) ∧
      k'.foregroundChildren c = insert p (k.foregroundChildren c) := by
  refine ⟨fun q hq => ?_, ?_⟩
  · ext x
    rw [mem_foregroundChildren T', mem_foregroundChildren T, h]
    exact or_iff_left fun hx => hq hx.2.symm
  · ext x
    rw [Finset.mem_insert, mem_foregroundChildren T', mem_foregroundChildren T, h,
      or_comm]
    exact or_congr_left (and_iff_left rfl)

/-- The parent `c` loses a child. -/
theorem foregroundChildren_erase (T : Table k) (T' : Table k')
    (h : ∀ q x, IsChild k'.family q x ↔ IsChild k.family q x ∧ x ≠ p)
    (hc : ∀ q, p ∈ k.foregroundChildren q → c = q) :
    (∀ q, q ≠ c → k'.foregroundChildren q = k.foregroundChildren q) ∧
      k'.foregroundChildren c = (k.foregroundChildren c).erase p := by
  have hmem : ∀ q x, x ∈ k'.foregroundChildren q ↔ x ∈ k.foregroundChildren q ∧ x ≠ p := by
    intro q x
    rw [mem_foregroundChildren T', mem_foregroundChildren T, h]
  refine ⟨fun q hq => ?_, ?_⟩
  · ext x
    rw [hmem]
    refine and_iff_left_of_imp ?_
    rintro hx rfl
    exact hq (hc q hx).symm
  · ext x
    rw [hmem, Finset.mem_erase, and_comm]

theorem books_eq_some {a : Account Int} :
    k.books p = some a ↔ ∃ f, k.family p = some f ∧ f.account = a := Option.map_eq_some_iff

theorem parents_eq_some {q : Pid} :
    k.parents p = some q ↔ ∃ f, k.family p = some f ∧ f.parentPid = q := Option.map_eq_some_iff

theorem parents_isSome : (k.parents p).isSome ↔ (k.family p).isSome := by
  simp [Kernel.parents]

section Updates

variable {F : Pid → Option Family} {g : Family} {q : Pid}

theorem books_update {v : Option Family} (h : k'.family = Function.update F p v) :
    k'.books = Function.update (Option.map Family.account ∘ F) p (v.map Family.account) := by
  rw [Kernel.books, h, Function.comp_update]

theorem parents_update {v : Option Family} (h : k'.family = Function.update F p v) :
    k'.parents = Function.update (Option.map Family.parentPid ∘ F) p (v.map Family.parentPid) := by
  rw [Kernel.parents, h, Function.comp_update]

theorem parents_recount {a : Account Int} (hg : F p = some g)
    (h : k'.family = Function.update F p (some { g with account := a })) :
    k'.parents = Option.map Family.parentPid ∘ F := by
  rw [parents_update h]
  exact Function.update_eq_self_iff.mpr (by simp [hg])

theorem isChild_recount {a : Account Int} (hg : F p = some g) :
    IsChild (Function.update F p (some { g with account := a })) q x ↔ IsChild F q x := by
  rcases eq_or_ne x p with rfl | hxp
  · simp [IsChild, hg]
  · simp [IsChild, hxp]

theorem isChild_free : IsChild (Function.update F p none) q x ↔ IsChild F q x ∧ x ≠ p := by
  rcases eq_or_ne x p with rfl | hxp
  · simp [IsChild]
  · simp [IsChild, hxp]

theorem isChild_new (h2 : 2 ≤ p) (hp : F p = none) :
    IsChild (Function.update F p (some g)) q x ↔
      IsChild F q x ∨ x = p ∧ g.parentPid = q ∧ g.foreground = true := by
  rcases eq_or_ne x p with rfl | hxp
  · simp [IsChild, hp, h2]
  · simp [IsChild, hxp]

end Updates

/-! ## What leaves families alone -/

/-- The labels of the effects that neither make a PCB, nor free one, nor count. -/
def Label.Steady : Label → Prop
  | .children _ | .create _ | .discard _ | .reap _ => False
  | _ => True

theorem SameFamily.family (h : SameFamily b b') : b'.family = b.family := by
  simp only [PCB.family, PCB.account, h.parentPid, h.foreground, h.childrenSem, h.childrenCount]

theorem Effect.family (h : Effect l k k') (hl : l.Steady) : k'.family = k.family := by
  have hset : ∀ {p : Pid} {b b' : PCB}, k.procs p = some b → SameFamily b b' →
      (k.setPCB p b').family = k.family := by
    intro p b b' hb hs
    rw [setPCB_family, hs.family]
    exact Function.update_eq_self_iff.mpr (family_eq_some.mpr ⟨b, hb, rfl⟩).symm
  cases h with
  | update hb hs => exact hset hb hs.toSameFamily
  | block _ hb hs => exact hset hb hs
  | unblock _ hb hs => exact hset hb hs.toSameFamily
  | sleep _ _ _ _ _ hb hs => exact hset hb hs.toSameFamily
  | stray _ _ hb hs => exact hset hb hs.toSameFamily
  | wake _ _ _ hb hs => exact hset hb hs.toSameFamily
  | die _ _ hb hs => exact hset hb hs.toSameFamily
  | children => exact absurd hl not_false
  | create => exact absurd hl not_false
  | startBlocked => exact absurd hl not_false
  | discard => exact absurd hl not_false
  | reap => exact absurd hl not_false
  | _ => rfl

theorem Effects.family {allow : Label → Prop} (h : Effects allow k k')
    (hl : ∀ l, allow l → l.Steady) : k'.family = k.family :=
  h.invariant (P := fun k' => k'.family = k.family) rfl fun ha hk he =>
    (he.family (hl _ ha)).trans hk

theorem Effects.used_eq {allow : Label → Prop} {id : Int} (h : Effects allow k k')
    (ho : ¬ allow (.semOpened id)) (hc : ¬ allow (.semClosed id)) :
    (k'.sems id).used = (k.sems id).used := by
  refine h.invariant (P := fun k' => (k'.sems id).used = (k.sems id).used) rfl ?_
  intro l a a' ha hk he
  refine (he.used_eq ?_ ?_).trans hk
  · rintro rfl
    exact ho ha
  · rintro rfl
    exact hc ha

/-- Nobody leaves the queues but the dead. -/
theorem Effect.placed (h : Effect l k k') (hx : k.Placed x) (hl : l ≠ .reap x) :
    k'.Placed x := by
  obtain ⟨q, hq⟩ := hx
  have hmove : ∀ {f t : QueueName} {p : Pid} (b' : PCB), (k.move f t p b').Placed x := by
    intro f t p b'
    rcases eq_or_ne q t with rfl | hqt
    · exact ⟨q, by rw [move_queue_to]; exact List.mem_append_left _ hq⟩
    · rcases eq_or_ne x p with rfl | hxp
      · exact ⟨t, by rw [move_queue_to]; simp⟩
      · rcases eq_or_ne q f with rfl | hqf
        · exact ⟨q, by rw [move_queue_from hqt]; exact (List.mem_erase_of_ne hxp).mpr hq⟩
        · exact ⟨q, by rwa [move_queue_other hqf hqt]⟩
  cases h with
  | @block _ _ _ b' => exact hmove b'
  | @unblock _ _ _ b' => exact hmove b'
  | @sleep _ _ _ _ _ b' => exact hmove b'
  | @stray _ _ _ _ b' => exact hmove b'
  | @wake _ _ _ _ _ b' => exact hmove b'
  | @die _ _ _ _ b' => exact hmove b'
  | @enter _ p r =>
    refine ⟨q, ?_⟩
    rcases eq_or_ne q r with rfl | hqr
    · simp [Kernel.setQueue, hq]
    · simpa [Kernel.setQueue, hqr] using hq
  | @reap _ p =>
    have hxp : x ≠ p := fun h => hl (h ▸ rfl)
    refine ⟨q, ?_⟩
    rcases eq_or_ne q .zombie with rfl | hqz
    · simpa [Kernel.setQueue, List.mem_erase_of_ne hxp] using hq
    · simpa [Kernel.setQueue, hqz] using hq
  | _ => exact ⟨q, hq⟩

theorem Switch.family {rsp sp : Sp} {n : Pid} (W : Switch k rsp k' sp c n) :
    k'.family = k.family := by
  funext p
  cases hb' : k'.procs p with
  | none =>
    simp [Kernel.family, hb', W.kept p hb']
  | some b' =>
    obtain ⟨b, hb, hid, _⟩ := W.saved p b' hb'
    obtain ⟨hs, hn, _⟩ := W.account p b b' hb hb'
    simp [Kernel.family, hb, hb', PCB.family, PCB.account, hid.parentPid, hid.foreground, hs, hn]

/-! ## Births -/

theorem PCB.account_none (h : b.childrenSem = -1) : b.account = ⟨none, b.childrenCount⟩ := by
  simp [PCB.account, h]

theorem PCB.account_some (h : 0 ≤ b.childrenSem) :
    b.account = ⟨some b.childrenSem, b.childrenCount⟩ := by
  have hne : b.childrenSem ≠ -1 := by
    rintro hb
    rw [hb] at h
    cases h
  simp [PCB.account, hne]

/-- A new count on an account. -/
theorem PCB.family_some {id : Int} (n : Int) (h : 0 ≤ id) :
    ({ b with childrenSem := id, childrenCount := n } : PCB).family =
      { b.family with account := ⟨some id, n⟩ } := by
  rw [PCB.family, PCB.account_some h]
  rfl

/-- What `countChild` does to the parent `p`, whose family was `f`. -/
inductive Counted (k : Kernel) (p : Pid) (f : Family) (k' : Kernel) : Prop
  | next {id n : Int} : f.account = ⟨some id, n⟩ →
      k'.family = Function.update k.family p (some { f with account := ⟨some id, n + 1⟩ }) →
      (∀ i, (k'.sems i).used = (k.sems i).used) → Counted k p f k'
  | first {id n : Int} : f.account = ⟨none, n⟩ → (k.sems id).used = false →
      k'.family = Function.update k.family p (some { f with account := ⟨some id, n + 1⟩ }) →
      (∀ i, (k'.sems i).used = true ↔ i = id ∨ (k.sems i).used = true) → Counted k p f k'
  /-- No semaphore is free, or there is no memory for its queue. -/
  | missed : f.account.id = none →
      (∀ i, Machine.SemIdOk i → (k.sems i).used = true) ∨ k.allocs 0 = false → Counted k p f k'

/-- `getFreeSemId` finds a semaphore that is not in use, if there is one. -/
theorem getFreeSemId_cases {id : Int} (h : getFreeSemId k = some id) :
    Machine.SemIdOk id ∧ (k.sems id).used = false ∨
      id = -1 ∧ ∀ i, Machine.SemIdOk i → (k.sems i).used = true := by
  unfold getFreeSemId at h
  split at h
  · split at h
    · next n hn =>
      cases h
      have hused := List.find?_some hn
      have hlt := List.mem_range.mp (List.mem_of_find?_eq_some hn)
      refine .inl ⟨⟨Int.natCast_nonneg n, Int.ofNat_lt.mpr hlt⟩, by simpa using hused⟩
    · next hn =>
      cases h
      refine .inr ⟨rfl, fun i hi => ?_⟩
      obtain ⟨n, rfl⟩ := Int.eq_ofNat_of_zero_le hi.1
      have hall := List.find?_eq_none.mp hn n (List.mem_range.mpr (Int.ofNat_lt.mp hi.2))
      simpa using hall
  · cases h

/-- The ways `countChild` counts a child of `p`, or misses it. -/
theorem countChild_cases (hp : getProcess k p = some p) (hb : k.procs p = some b)
    (hid : b.childrenSem = -1 ∨ 0 ≤ b.childrenSem) (h : countChild k p = some k') :
    0 ≤ b.childrenSem ∧ k' = k.setPCB p { b with childrenCount := b.childrenCount + 1 } ∨
      b.childrenSem = -1 ∧
        ((∀ i, Machine.SemIdOk i → (k.sems i).used = true) ∧ k' = k ∨
          ∃ id, Machine.SemIdOk id ∧ (k.sems id).used = false ∧ k.semManager = true ∧
            (k.allocs 0 = true ∧
                k' = ((k.allocMemory.2.setSem id ⟨0, false, true, .live []⟩).observe
                  (.opened id 0)).setPCB p
                    { b with childrenSem := id, childrenCount := b.childrenCount + 1 } ∨
              k.allocs 0 = false ∧
                k' = { k.allocMemory.2.setSem id ⟨0, false, true, .null⟩ with
                  semManager := false })) := by
  unfold countChild at h
  rw [hp] at h
  obtain ⟨b0, hb0, h1⟩ := Option.bind_eq_some_iff.mp h
  obtain rfl := Option.some.inj (hb.symm.trans hb0)
  obtain ⟨k1, h2, h3⟩ := Option.bind_eq_some_iff.mp h1
  obtain ⟨b1, hb1, h4⟩ := Option.bind_eq_some_iff.mp h3
  obtain rfl := Option.some.inj h4
  clear h h1 h3 h4
  unfold openChildrenSem at h2
  split at h2
  · next hneg =>
    -- the first child
    obtain ⟨semId, hfree, h5⟩ := Option.bind_eq_some_iff.mp h2
    have hmissed : ∀ {k1 : Kernel}, k1.procs p = some b1 → k1.procs = k.procs →
        ¬ b1.childrenSem ≥ 0 := by
      intro k1 hk1 hprocs
      rw [hprocs, hb] at hk1
      rw [← Option.some.inj hk1, hneg]
      decide
    refine .inr ⟨hneg, ?_⟩
    rcases getFreeSemId_cases hfree with ⟨hok, hu⟩ | ⟨rfl, hall⟩
    · rw [if_pos hok.1] at h5
      obtain ⟨⟨k2, ok⟩, h6, h7⟩ := Option.bind_eq_some_iff.mp h5
      obtain rfl := Option.some.inj h7
      have hmanager : k.semManager = true := by
        unfold getFreeSemId at hfree
        split at hfree
        · assumption
        · cases hfree
      refine .inr ⟨semId, hok, hu, hmanager, ?_⟩
      rcases semInit_cases h6 with ⟨_, _, hused⟩ | ⟨_, _, k3, ha, rfl⟩
      · cases hu.symm.trans (hused hok)
      · obtain ⟨rfl, rfl⟩ : k.allocs 0 = ok ∧ _ = k3 := by simpa [Kernel.allocMemory] using ha
        cases hmem : k.allocs 0 with
        | false =>
          simp only [hmem, Bool.false_eq_true, if_false] at hb1 ⊢
          rw [if_neg (hmissed hb1 rfl)]
          exact .inr ⟨trivial, rfl⟩
        | true =>
          have hb2 : b1 = { b with childrenSem := semId } := by
            simpa [hmem, Kernel.setPCB, eq_comm] using hb1
          simp only [if_true, hb2, if_pos hok.1]
          exact .inl ⟨trivial, by simp [Kernel.setPCB, Kernel.observe, Kernel.allocMemory]⟩
    · rw [if_neg (by decide)] at h5
      cases h5
      rw [if_neg (hmissed hb1 rfl)]
      exact .inl ⟨hall, rfl⟩
  · next hneg =>
    cases h2
    obtain rfl := Option.some.inj (hb.symm.trans hb1)
    have hpos := hid.resolve_left hneg
    rw [if_pos hpos]
    exact .inl ⟨hpos, rfl⟩

theorem countChild_family (hp : getProcess k p = some p) (hf : k.family p = some f)
    (hid : ∀ i, f.account.id = some i → 0 ≤ i) (h : countChild k p = some k') :
    Counted k p f k' := by
  obtain ⟨b, hb, rfl⟩ := family_eq_some.mp hf
  have hid : b.childrenSem = -1 ∨ 0 ≤ b.childrenSem :=
    or_iff_not_imp_left.mpr fun hne => hid _ (by simp [PCB.family, PCB.account, hne])
  rcases countChild_cases hp hb hid h with ⟨hpos, rfl⟩ |
    ⟨hneg, ⟨hall, rfl⟩ | ⟨id, hok, hu, _, ⟨_, rfl⟩ | ⟨hmem, rfl⟩⟩⟩
  · refine .next (PCB.account_some hpos) ?_ fun _ => rfl
    rw [setPCB_family]
    exact congrArg (fun f => Function.update k.family p (some f))
      (PCB.family_some (b.childrenCount + 1) hpos)
  · exact .missed (congrArg Account.id (PCB.account_none hneg)) (.inl hall)
  · refine .first (PCB.account_none hneg) hu ?_ fun i => ?_
    · rw [setPCB_family]
      exact congrArg (fun f => Function.update k.family p (some f))
        (PCB.family_some (b.childrenCount + 1) hok.1)
    · rcases eq_or_ne i id with rfl | hne
      · simp [Kernel.setPCB, Kernel.observe, Kernel.setSem]
      · simp [Kernel.setPCB, Kernel.observe, Kernel.setSem, hne, Kernel.allocMemory]
  · exact .missed (congrArg Account.id (PCB.account_none hneg)) (.inr hmem)

/-- A kernel function changes no family, and no semaphore comes into use or goes out of
it. -/
structure SameFamilies (k k' : Kernel) : Prop where
  family : k'.family = k.family
  used : ∀ i, (k'.sems i).used = (k.sems i).used

theorem SameFamilies.trans (h : SameFamilies k k1) (h' : SameFamilies k1 k2) :
    SameFamilies k k2 :=
  ⟨h'.family.trans h.family, fun i => (h'.used i).trans (h.used i)⟩

theorem enqueue_families {q : QueueName} : SameFamilies k (k.enqueue q p) := by
  unfold Kernel.enqueue Kernel.allocMemory
  dsimp only
  split <;> exact ⟨rfl, fun _ => rfl⟩

theorem addUnlessIdle_families : SameFamilies k (addUnlessIdle k b) := by
  unfold addUnlessIdle addProcess
  split
  · dsimp only
    split
    · have hcur : SameFamilies k { k with currentProcess := some b.pid } := ⟨rfl, fun _ => rfl⟩
      exact hcur.trans enqueue_families
    · exact enqueue_families
  · exact ⟨rfl, fun _ => rfl⟩

theorem getProcess_of_placed (h : k.Placed p) : getProcess k p = some p := by
  obtain ⟨q, hq⟩ := h
  refine if_pos ?_
  cases q with
  | ready => exact .inl hq
  | blocked => exact .inr (.inl hq)
  | blockedBySem => exact .inr (.inr (.inl hq))
  | zombie => exact .inr (.inr (.inr (.inl hq)))

/-- A process with the next pid has a PCB and a stack; two allocations were made. -/
structure Born (k : Kernel) (c : Pid) (foreground : Bool) (k' : Kernel) : Prop where
  family : k'.family = Function.update k.family k.nextPid (some ⟨c, foreground, ⟨none, 0⟩⟩)
  sems : k'.sems = k.sems
  allocs : k'.allocs 0 = k.allocs 2

/-- What its parent knows of it: the child is in the background, or the parent counts. -/
def Acknowledged (foreground : Bool) (c : Pid) (f : Family) (k k' : Kernel) : Prop :=
  foreground = false ∧ SameFamilies k k' ∨
    foreground = true ∧ ∃ k1, Counted k c f k1 ∧ SameFamilies k1 k'

theorem placeProcess_family {r : Option Pid} (h0 : 0 < c) (hp : c ∈ k.queue .ready)
    (hpid : b.pid > 1) (hparent : b.parentPid = c) (hcb : c ≠ b.pid) (hb : k.procs b.pid = some b)
    (hf : k.family c = some f) (hid : ∀ i, f.account.id = some i → 0 ≤ i)
    (h : placeProcess k args b = some (k', r)) :
    ∃ k1, k1.family = k.family ∧ k1.sems = k.sems ∧ k1.allocs = k.allocs ∧
      Acknowledged args.foreground c f k1 k' := by
  subst hparent
  have hset : ∀ b' : PCB, b'.family = b.family → (k.setPCB b.pid b').family = k.family := by
    intro b' hb'
    rw [setPCB_family, hb']
    exact Function.update_eq_self_iff.mpr (family_eq_some.mpr ⟨b, hb, rfl⟩).symm
  rcases (placeProcess_cases hpid h).2 with ⟨⟨hbg, _⟩, rfl⟩ | ⟨_, b1, k2, hsame, _, h5, rfl⟩
  · exact ⟨k.setPCB b.pid { b with stdout := args.stdout, state := .BLOCKED }, hset _ rfl, rfl,
      rfl, .inl ⟨hbg, enqueue_families⟩⟩
  · have hfam := hset b1 hsame.toSameFamily.family
    refine ⟨_, hfam, rfl, rfl, ?_⟩
    split at h5
    · next hfg =>
      refine .inr ⟨hfg.1, k2, countChild_family (getProcess_of_placed ⟨.ready, hp⟩) ?_ hid h5,
        addUnlessIdle_families⟩
      rwa [hfam]
    · next hfg =>
      cases h5
      have hbg : args.foreground = false :=
        eq_false_of_ne_true fun hfg' => hfg ⟨hfg', h0⟩
      exact .inl ⟨hbg, addUnlessIdle_families⟩

/-- The PCB and the stack of a process of `c` are there. -/
theorem withNewPCB_family (E : Executing k c) :
    ((withNewPCB k args).setStack k.nextPid true).family =
      Function.update k.family k.nextPid (some ⟨c, args.foreground, ⟨none, 0⟩⟩) := by
  have hb : (newPCB k args).family = ⟨c, args.foreground, ⟨none, 0⟩⟩ := by
    rw [← getCurrentPid_eq E.current]
    rfl
  show (k.setPCB k.nextPid (newPCB k args)).family = _
  rw [setPCB_family, hb]

/-- `createProcess` makes no process, or one that its parent `c` acknowledges. -/
theorem createProcess_family (C : Core k) (E : Executing k c) (hp : c ∈ k.queue .ready)
    (hf : k.family c = some f) (hid : ∀ i, f.account.id = some i → 0 ≤ i)
    (h : createProcess k args = some (k', flow)) :
    SameFamilies k k' ∨
      (args.valid = true ∧ k.allocs 0 = true ∧ k.allocs 1 = true) ∧
        ∃ k1, Born k c args.foreground k1 ∧ Acknowledged args.foreground c f k1 k' := by
  rcases createProcess_cases h with
    ⟨⟨_, rfl⟩ | ⟨_, _, rfl⟩ | ⟨_, _, rfl⟩, rfl⟩ | ⟨hbuilt, r, hplace, rfl⟩
  · exact .inl ⟨rfl, fun _ => rfl⟩
  · exact .inl ⟨rfl, fun _ => rfl⟩
  · refine .inl ⟨?_, fun _ => rfl⟩
    rw [freePCB_family]
    show Function.update (k.setPCB k.nextPid (newPCB k args)).family k.nextPid none = k.family
    rw [setPCB_family, Function.update_idem]
    refine Function.update_eq_self_iff.mpr ?_
    simp [Kernel.family, C.nextPid_free]
  · have hparent : (newPCB k args).parentPid = c := getCurrentPid_eq E.current
    have h0 : 0 < c := by
      obtain ⟨bc, hbc, _⟩ := C.member _ c hp
      exact lt_of_le_of_ne (C.pcb c bc hbc).2.1 (C.ne_zero hp).symm
    have hcb : c ≠ k.nextPid := ne_of_lt (C.lt_nextPid hp)
    have hfam : ((withNewPCB k args).setStack k.nextPid true).family =
        Function.update k.family k.nextPid (some ⟨c, args.foreground, ⟨none, 0⟩⟩) :=
      withNewPCB_family E
    have hfc : ((withNewPCB k args).setStack k.nextPid true).family c = some f := by
      rw [hfam]
      exact (Function.update_of_ne hcb _ _).trans hf
    obtain ⟨k4, hfam4, hs4, ha4, hack⟩ :=
      placeProcess_family (k := (withNewPCB k args).setStack k.nextPid true) h0 hp
        (Int.lt_of_lt_of_le (by decide) C.nextPid) hparent hcb (Function.update_self _ _ _) hfc
        hid hplace
    exact .inr ⟨hbuilt, k4, ⟨hfam4.trans hfam, hs4, by rw [ha4]; rfl⟩, hack⟩

/-! ## Deaths -/

theorem Effects.sameFamilies {allow : Label → Prop} (h : Effects allow k k')
    (hl : ∀ l, allow l → l.Steady) (ho : ∀ i, ¬ allow (.semOpened i))
    (hc : ∀ i, ¬ allow (.semClosed i)) : SameFamilies k k' :=
  ⟨h.family hl, fun i => h.used_eq (ho i) (hc i)⟩

theorem semPost_families {id : Int} (h : semPost k id = some (k', flow)) : SameFamilies k k' := by
  refine (semPost_effects h).sameFamilies ?_ (by simp) (by simp)
  rintro l (⟨_, rfl⟩ | ⟨_, rfl⟩ | rfl) <;> trivial

theorem semClose_families {id : Int} {ok : Bool} (hid : Machine.SemIdOk id)
    (h : semClose k id = some (k', ok)) :
    k'.family = k.family ∧ ∀ i, (k'.sems i).used = true ↔ (k.sems i).used = true ∧ i ≠ id := by
  have he := semClose_effects h
  refine ⟨he.family (by rintro l rfl; trivial), fun i => ?_⟩
  rcases eq_or_ne i id with rfl | hne
  · refine iff_of_false ?_ fun h => h.2 rfl
    have hrange : ¬ (i < 0 ∨ i ≥ numSems) :=
      not_or.mpr ⟨Int.not_lt.mpr hid.1, Int.not_le.mpr hid.2⟩
    unfold semClose at h
    rw [if_neg hrange] at h
    obtain ⟨s, hs, h1⟩ := Option.bind_eq_some_iff.mp h
    obtain rfl := accessSem_eq hs
    split at h1
    · next hu =>
      cases h1
      simpa using hu
    · split at h1
      · cases h1
      · cases h1
        simp [Kernel.setSem]
      · cases h1
        simp [Kernel.setSem]
  · rw [he.used_eq (by simp) (by simpa using hne)]
    exact (and_iff_left hne).symm

/-- What `uncountChild` does to the parent `p`, whose family was `f`. -/
inductive Uncounted (k : Kernel) (p : Pid) (f : Family) (k' : Kernel) : Prop
  | unheld : f.account.id = none → SameFamilies k k' → Uncounted k p f k'
  | other {id n : Int} : f.account = ⟨some id, n⟩ → n ≠ 1 →
      k'.family = Function.update k.family p (some { f with account := ⟨some id, n - 1⟩ }) →
      (∀ i, (k'.sems i).used = (k.sems i).used) → Uncounted k p f k'
  | last {id : Int} : f.account = ⟨some id, 1⟩ →
      k'.family = Function.update k.family p (some { f with account := ⟨none, 0⟩ }) →
      (∀ i, (k'.sems i).used = true ↔ (k.sems i).used = true ∧ i ≠ id) → Uncounted k p f k'

theorem Uncounted.congr (h : Uncounted k1 p f k2) (h1 : SameFamilies k k1)
    (h2 : SameFamilies k2 k') : Uncounted k p f k' := by
  cases h with
  | unheld hn hs => exact .unheld hn ((h1.trans hs).trans h2)
  | other ha h1' hfam hu =>
    refine .other ha h1' ?_ fun i => ?_
    · rw [h2.family, hfam, h1.family]
    · rw [h2.used, hu, h1.used]
  | last ha hfam hu =>
    refine .last ha ?_ fun i => ?_
    · rw [h2.family, hfam, h1.family]
    · rw [h2.used, hu, h1.used]

theorem uncountChild_family (hp : getProcess k p = some p) (hf : k.family p = some f)
    (hid : ∀ i, f.account.id = some i → Machine.SemIdOk i) (h : uncountChild k p = some k') :
    Uncounted k p f k' := by
  obtain ⟨b, hb, rfl⟩ := family_eq_some.mp hf
  unfold uncountChild at h
  rw [hp] at h
  obtain ⟨b0, hb0, h1⟩ := Option.bind_eq_some_iff.mp h
  obtain rfl := Option.some.inj (hb.symm.trans hb0)
  clear h
  split at h1
  · next hpos =>
    have hsome := PCB.account_some hpos
    have hok := hid _ (congrArg Account.id hsome)
    have hcount : (k.setPCB p { b with childrenCount := b.childrenCount - 1 }).family =
        Function.update k.family p
          (some { b.family with account := ⟨some b.childrenSem, b.childrenCount - 1⟩ }) := by
      rw [setPCB_family]
      exact congrArg (fun f => Function.update k.family p (some f))
        (PCB.family_some (b.childrenCount - 1) hpos)
    dsimp only at h1
    split at h1
    · next hlast =>
      -- the semaphore is posted and closed
      obtain ⟨⟨k2, f2⟩, h2, h3⟩ := Option.bind_eq_some_iff.mp h1
      obtain ⟨⟨k3, ok⟩, h4, h5⟩ := Option.bind_eq_some_iff.mp h3
      obtain ⟨b2, hb2, h6⟩ := Option.bind_eq_some_iff.mp h5
      clear h1 h3 h5
      obtain rfl := Option.some.inj h6
      have hpost := semPost_families h2
      obtain ⟨hclose, hused⟩ := semClose_families hok h4
      have hfam : k3.family = _ := hclose.trans (hpost.family.trans hcount)
      have hfam2 : b2.family =
          { b.family with account := ⟨some b.childrenSem, b.childrenCount - 1⟩ } := by
        have hget : k3.family p = some b2.family := family_eq_some.mpr ⟨b2, hb2, rfl⟩
        rw [hfam, Function.update_self] at hget
        exact (Option.some.inj hget).symm
      rw [hlast] at hfam2
      have hone : b.childrenCount = 1 := Int.sub_eq_zero.mp hlast
      refine .last (hsome.trans (by rw [hone])) ?_ fun i => ?_
      · rw [setPCB_family, hfam, Function.update_idem]
        refine congrArg (fun f => Function.update k.family p (some f)) ?_
        have hcount2 : b2.childrenCount = 0 := congrArg (fun f => f.account.count) hfam2
        have hparent2 : b2.parentPid = b.parentPid := congrArg Family.parentPid hfam2
        have hfg2 : b2.foreground = b.foreground := congrArg Family.foreground hfam2
        simp [PCB.family, PCB.account, hcount2, hparent2, hfg2]
      · rw [show ((k3.setPCB p { b2 with childrenSem := -1 }).sems i).used = (k3.sems i).used
          from rfl, hused, hpost.used]
        rfl
    · next hmore =>
      obtain rfl := Option.some.inj h1
      exact .other hsome (fun h => hmore (by rw [h]; rfl)) hcount fun _ => rfl
  · next hneg =>
    cases h1
    refine .unheld ?_ ⟨rfl, fun _ => rfl⟩
    cases ha : b.family.account.id with
    | none => rfl
    | some i =>
      simp only [PCB.family, PCB.account] at ha
      split at ha
      · cases ha
      · cases ha
        exact absurd (hid b.childrenSem (by simp [PCB.family, PCB.account, *])).1 hneg

/-- What the parent of a dead process with family `f` knows of its death. -/
def Mourned (k : Kernel) (f : Family) (k' : Kernel) : Prop :=
  (f.foreground = false ∨ k.family f.parentPid = none) ∧ SameFamilies k k' ∨
    f.foreground = true ∧ ∃ g, k.family f.parentPid = some g ∧ Uncounted k f.parentPid g k'

/-- `kill` does nothing, or ends a process whose parent mourns it. -/
theorem kill_family {r : Nat} (C : Core k) (hcp : k.currentPid = c)
    (hcur : k.currentProcess = some p → p ∈ k.queue .ready ∨ p = 0)
    (hplaced : ∀ f, k.family p = some f → 2 ≤ p → (k.family f.parentPid).isSome →
      k.Placed f.parentPid)
    (hid : ∀ q f i, k.family q = some f → f.account.id = some i → Machine.SemIdOk i)
    (h : kill k p r = some (k', flow)) :
    k' = k ∨ 2 ≤ p ∧ ∃ f, k.family p = some f ∧ ∃ k1, Mourned k f k1 ∧
      k'.family = Function.update k1.family p none ∧
      ∀ i, (k'.sems i).used = (k1.sems i).used := by
  rcases kill_parts C hcp hcur h with
    ⟨rfl, _⟩ | ⟨h2, k1, k2, k3, k4, b, hdie, hb, hparent, hwake, hreap, hend⟩
  · exact .inl rfl
  · have s1 : SameFamilies k k1 :=
      ⟨hdie.family trivial, fun i => hdie.used_eq (by simp) (by simp)⟩
    have C1 := C.effect hdie
    have C2 := C1.effects (uncountParent_effects hparent)
    have s2 : SameFamilies k2 k3 :=
      (wakeUpWaitingParent_effects C2 (C1.parent p b hb h2) hwake).sameFamilies
        (by rintro l rfl; trivial) (by simp) (by simp)
    have hfam4 : k4.family = Function.update k3.family p none := by
      cases hreap
      exact freePCB_family
    have hused4 : ∀ i, (k4.sems i).used = (k3.sems i).used :=
      fun i => hreap.used_eq (by simp) (by simp)
    have hf : k.family p = some b.family := by
      rw [← s1.family]
      exact family_eq_some.mpr ⟨b, hb, rfl⟩
    have hend : k'.family = k4.family ∧ k'.sems = k4.sems := by
      rcases hend with ⟨_, rfl, _⟩ | ⟨_, rfl, _⟩ <;> exact ⟨rfl, rfl⟩
    refine .inr ⟨h2, b.family, hf, k3, ?_, ?_, ?_⟩
    · split at hparent
      · next hfg =>
        have hget : ∀ {g}, k.family b.parentPid = some g →
            getProcess k1 b.parentPid = some b.parentPid := by
          intro g hg
          have hp := hplaced b.family hf h2 (Option.isSome_iff_exists.mpr ⟨g, hg⟩)
          exact getProcess_of_placed (hdie.placed hp (by simp))
        cases hg : k.family b.parentPid with
        | some g =>
          refine .inr ⟨hfg.2, g, hg, ?_⟩
          have hu := uncountChild_family (hget hg) (by rw [s1.family, hg])
            (fun i => hid _ g i hg) hparent
          exact hu.congr s1 s2
        | none =>
          refine .inl ⟨.inr hg, s1.trans (SameFamilies.trans ?_ s2)⟩
          unfold uncountChild at hparent
          split at hparent
          · cases hparent
            exact ⟨rfl, fun _ => rfl⟩
          · next x hx =>
            obtain rfl := getProcess_eq hx
            obtain ⟨bq, hbq, _⟩ := Option.bind_eq_some_iff.mp hparent
            have hbad : k1.family b.parentPid = some bq.family := family_eq_some.mpr ⟨bq, hbq, rfl⟩
            rw [s1.family, hg] at hbad
            cases hbad
      · next hbg =>
        cases hparent
        refine .inl ⟨?_, s1.trans s2⟩
        cases hfg : b.foreground with
        | false => exact .inl hfg
        | true =>
          refine .inr ?_
          have hneg : ¬ b.parentPid > 0 := fun h => hbg ⟨h, hfg⟩
          cases hq : k.family b.family.parentPid with
          | none => rfl
          | some g =>
            obtain ⟨bq, hbq, _⟩ := family_eq_some.mp hq
            have hle : 0 ≤ b.parentPid := (C.pcb _ _ hbq).2.1
            have hne : b.parentPid ≠ 0 := (C.effect hdie).parent p b hb h2
            exact absurd (lt_of_le_of_ne hle hne.symm) hneg
    · rw [hend.1, hfam4]
    · intro i
      rw [hend.2, hused4]

end

end SoKernel
