import SoKernel.Kernel.Invariant

/-!
# The storage of the semaphore manager

Every semaphore of the kernel lives in one allocation. `semInit` fills the semaphore in before
it creates its queue, and frees that allocation when there is no memory for the queue.

Results:
1. `failed_semInit_iff`: the calls of `semInit` that fail without a trace.
2. `Reach.manager_freed`: after the others every call of a semaphore reads freed memory, for
   ever.
-/

namespace SoKernel

/-- What `semInit` is to leave behind when it fails: the semaphores, their storage, and
everything that can happen later. -/
structure Intact (m : Machine) (k : Kernel) : Prop where
  sems : k.sems = m.k.sems
  storage : k.semManager = true
  later : ∀ t, Run Machine.step Run.anyEvent (m.withKernel k) t ↔
    Run Machine.step Run.anyEvent m t

/-- `semInit(id, value)` returns, and when it returns `-1` the manager is intact. -/
def FailsIntact (m : Machine) (id : Int) (value : Nat) : Prop :=
  ∃ k ok, semInit m.k id value = some (k, ok) ∧ (ok = false → Intact m k)

section

variable {allocs : Nat → Bool} {m t : Machine} {k k' : Kernel} {l : Label} {id : Int} {value : Nat}

/-- `semInit` reads the storage of the manager unless the id is bad. -/
theorem semInit_defined : (∃ r, semInit k id value = some r) ↔
    Machine.SemIdOk id → k.semManager = true := by
  unfold semInit
  by_cases hid : Machine.SemIdOk id
  · rw [if_neg (not_or.mpr ⟨Int.not_lt.mpr hid.1, Int.not_le.mpr hid.2⟩)]
    constructor
    · rintro ⟨r, h⟩ _
      obtain ⟨s, hs, _⟩ := Option.bind_eq_some_iff.mp h
      exact (accessSem_manager hs).1
    · intro hm
      have hsem : accessSem k id = some (k.sems id) := if_pos ⟨hm hid, hid⟩
      rw [hsem, Option.bind_eq_bind, Option.bind_some]
      split
      · exact ⟨_, rfl⟩
      · dsimp only [Kernel.allocMemory]
        split
        · exact ⟨_, rfl⟩
        · exact ⟨_, rfl⟩
  · have hrange : id < 0 ∨ id ≥ numSems := by
      by_contra h
      exact hid ⟨Int.not_lt.mp fun h' => h (.inl h'), Int.not_le.mp fun h' => h (.inr h')⟩
    rw [if_pos hrange]
    exact iff_of_true ⟨_, rfl⟩ fun h => absurd h hid

theorem FailsIntact.condition (h : FailsIntact m id value) : m.k.semManager = true ∧
    (¬ Machine.SemIdOk id ∨ (m.k.sems id).used = true ∨ m.k.allocs 0 = true) := by
  obtain ⟨k, ok, h, hintact⟩ := h
  rcases semInit_cases h with ⟨rfl, rfl, hused⟩ | ⟨hid, _, k1, ha, rfl⟩
  · refine ⟨(hintact rfl).storage, ?_⟩
    by_cases hid : Machine.SemIdOk id
    · exact .inr (.inl (hused hid))
    · exact .inl hid
  · refine ⟨semInit_defined.mp ⟨_, h⟩ hid, .inr (.inr ?_)⟩
    cases ok with
    | true => exact congrArg Prod.fst ha
    | false => exact absurd (hintact rfl).storage Bool.false_ne_true

/-- A call of `semInit` fails without a trace, or does not fail, exactly when the storage of the
manager is allocated and the id is bad, or used, or there is memory for the queue. -/
theorem failed_semInit_iff :
    FailsIntact m id value ↔ m.k.semManager = true ∧
      (¬ Machine.SemIdOk id ∨ (m.k.sems id).used = true ∨ m.k.allocs 0 = true) := by
  constructor
  · exact FailsIntact.condition
  · rintro ⟨hm, hcond⟩
    obtain ⟨⟨k, ok⟩, h⟩ := (@semInit_defined m.k id value).mpr fun _ => hm
    refine ⟨k, ok, h, fun hfail => ?_⟩
    rcases semInit_cases h with ⟨_, rfl, _⟩ | ⟨hid, hu, k1, ha, _⟩
    · exact ⟨rfl, hm, fun _ => Iff.rfl⟩
    · -- the only other failure is that of the allocation
      rcases hcond with hbad | hused | hmem
      · exact absurd hid hbad
      · exact absurd (hu.symm.trans hused) Bool.false_ne_true
      · have hok : m.k.allocs 0 = ok := congrArg Prod.fst ha
        rw [hmem, hfail] at hok
        cases hok

/-! ## After the storage is freed -/

/-- The storage is not allocated again. -/
theorem Reach.manager_freed (h : Reach allocs Run.anyEvent m) (hm : m.k.semManager = false)
    (hrun : Run Machine.step Run.anyEvent m t) : t.k.semManager = false := by
  refine (hrun.invariant (P := fun t => Reach allocs Run.anyEvent t ∧ t.k.semManager = false)
    ⟨h, hm⟩ ?_).2
  rintro t t' e ⟨ht, hfreed⟩ _ hs
  refine ⟨ht.snoc e trivial hs, ?_⟩
  rcases ht.cases with rfl | ⟨c, R⟩
  · cases hfreed
  · refine R.kernel hs (P := fun k => k.semManager = false) hfreed ?_ ?_
    · intro l k k' _ _ hk he
      cases he with
      | manager => rfl
      | _ => exact hk
    · exact fun _ hk W => W.rest.semManager.trans hk

theorem semPost_freed (hm : k.semManager = false) : semPost k id = none := by
  have hsem : accessSem k id = none := if_neg fun h => by simp [hm] at h
  rw [semPost, post, hsem]
  rfl

theorem semWait_freed (hm : k.semManager = false) : semWait k id = none := by
  have hsem : accessSem k id = none := if_neg fun h => by simp [hm] at h
  rw [semWait, wait, hsem]
  rfl

/-- A process waits for a semaphore, and then there is no memory for the queue of another one. -/
def waitThenOpen : List Event :=
  [.tick 0, .call 0 (.createProcess backgroundArgs), .call 0 (.semOpen 5 0), .call 0 .yield,
    .resume 0, .call 0 .yield, .call 0 (.semWait 5), .resume 0]

/-- `semInit(9, 1)` returns `-1` with the semaphore 9 in use and the storage of all of them
freed: no later `post` finds the process that waits for the semaphore 5. -/
theorem failed_semInit_traces :
    ∃ m m', Run.exec Machine.step Run.anyEvent (boot fun n => n != 6) waitThenOpen = some m ∧
      Reach (fun n => n != 6) Run.anyEvent m ∧ (m.k.sems 9).used = false ∧
      (m.k.sems 5).blocked = .live [2] ∧ m.step (.call 0 (.semOpen 9 1)) = some m' ∧
      (m'.k.sems 9).used = true ∧
      (∀ t, Run Machine.step Run.anyEvent m' t → semPost t.k 5 = none ∧ semWait t.k 5 = none) ∧
      ¬ FailsIntact m 9 1 := by
  obtain ⟨m, he, hm, hu9, hu5, hmem, hopen⟩ :
      ∃ m, Run.exec Machine.step Run.anyEvent (boot fun n => n != 6) waitThenOpen = some m ∧
        Reach (fun n => n != 6) Run.anyEvent m ∧ (m.k.sems 9).used = false ∧
        (m.k.sems 5).blocked = .live [2] ∧ m.k.allocs 0 = false ∧
        (m.step (.call 0 (.semOpen 9 1))).any (fun m' =>
          (m'.k.sems 9).used && !m'.k.semManager) = true := Run.exists_exec (by decide +kernel)
  cases hs : m.step (.call 0 (.semOpen 9 1)) with
  | none =>
    rw [hs] at hopen
    cases hopen
  | some m' =>
    rw [hs, Option.any_some, Bool.and_eq_true, Bool.not_eq_true'] at hopen
    have hm' : Reach (fun n => n != 6) Run.anyEvent m' := hm.snoc _ trivial hs
    refine ⟨m, m', he, hm, hu9, hu5, hs, hopen.1, fun t ht => ?_, fun hfail => ?_⟩
    · have hfreed := hm'.manager_freed hopen.2 ht
      exact ⟨semPost_freed hfreed, semWait_freed hfreed⟩
    · rcases hfail.condition.2 with hbad | hused | hok
      · exact hbad (by decide)
      · exact Bool.false_ne_true (hu9.symm.trans hused)
      · exact Bool.false_ne_true (hmem.symm.trans hok)

end

end SoKernel
