import SoKernel.Kernel.SemQueues
import SoKernel.Kernel.PipeCalls

/-!
# Semaphores that are not open

`semInit` and `semClose` test the `used` flag of a semaphore; `wait` and `post` do not.

Results:
1. `unopened_never_rejected`: what `semWait` and `semPost` do with a semaphore that is
   not open.
2. `close_never_clean`: a semaphore that was closed keeps its freed queue, and the
   processes in it stay blocked.
-/

namespace SoKernel

/-- What rejecting a call of `c` is to leave as it was. -/
structure Rejected (k k' : Kernel) (c : Pid) : Prop where
  queue : k'.queue = k.queue
  sems : k'.sems = k.sems
  caller : k'.procs c = k.procs c

def RejectsWait (k : Kernel) (id : Int) (c : Pid) : Prop :=
  ∃ k', semWait k id = some (k', .ret (-1)) ∧ Rejected k k' c

def RejectsPost (k : Kernel) (id : Int) (c : Pid) : Prop :=
  ∃ k', semPost k id = some (k', .ret (-1)) ∧ Rejected k k' c

/-- The call reads the queue of the semaphore, which has been freed. -/
inductive ReadsFreed (k : Kernel) (id : Int) : Call → Prop
  | post : (k.sems id).blocked = .freed → ReadsFreed k id (.semPost id)
  | wait : (k.sems id).blocked = .freed → (k.sems id).value = 0 → ReadsFreed k id (.semWait id)

/-- After the step that closes the semaphore every process that was blocked on it is
ready, and no later call reads its freed queue. -/
structure ClosedCleanly (m m' : Machine) (id : Int) : Prop where
  woken : ∀ p, m.k.WaitsFor id p → p ∈ m.k.queue .blockedBySem → p ∈ m'.k.queue .ready
  unread : ∀ t, Run Machine.step Run.anyEvent m' t → ∀ sc, ¬ ReadsFreed t.k id sc

section

variable {allocs : Nat → Bool} {k k' : Kernel} {l : Label} {id : Int} {m m' : Machine} {c : Pid}
  {e : Event} {ok : Bool} {pids : List Pid}

/-! ## Locks -/

/-- Between two calls no semaphore is locked. -/
def Unlocked (k : Kernel) : Prop := ∀ id, (k.sems id).lock = false

theorem Unlocked.effect (U : Unlocked k) (h : Effect l k k') : Unlocked k' := by
  intro id
  rcases h.sem id with heq | hs
  · rw [heq]
    exact U id
  · generalize k'.sems id = s' at hs ⊢
    cases hs with
    | opened => rfl
    | closed => rfl
    | _ => exact U id

theorem Reach.unlocked (h : Reach allocs Run.anyEvent m) : Unlocked m.k := by
  refine h.kernel (P := Unlocked) (fun id => ?_) (fun _ _ _ _ U he => U.effect he) ?_
  · rcases boot_sem id with ⟨v, hs⟩ | hs <;> rw [hs]
  · exact fun _ U W id => W.rest.sems ▸ U id

/-! ## Semaphores that are not open -/

/-- `wait` fails only for lack of memory. -/
theorem rejectsWait_iff (hlock : (k.sems id).lock = false) (hid : Machine.SemIdOk id) :
    RejectsWait k id c ↔
      k.semManager = true ∧ (k.sems id).value = 0 ∧ k.allocs 0 = false := by
  constructor
  · rintro ⟨k', h, _⟩
    unfold semWait wait at h
    obtain ⟨s, hs, h1⟩ := Option.bind_eq_some_iff.mp h
    obtain ⟨hm, rfl⟩ := accessSem_manager hs
    obtain ⟨s', hs', h2⟩ := Option.bind_eq_some_iff.mp h1
    obtain ⟨_, rfl⟩ := acquire_eq hs'
    dsimp only at h2
    split at h2
    · cases h2
    · next hv =>
      refine ⟨hm, Nat.eq_zero_of_not_pos hv, ?_⟩
      cases ha : k.allocs 0 with
      | false => rfl
      | true =>
        simp only [Kernel.allocMemory, ha] at h2
        obtain ⟨_, _, h3⟩ := Option.bind_eq_some_iff.mp h2
        obtain ⟨⟨k1, flow⟩, _, h4⟩ := Option.bind_eq_some_iff.mp h3
        have hflow := congrArg Prod.snd (Option.some.inj h4)
        dsimp only at hflow
        split at hflow <;> cases hflow
  · rintro ⟨hm, hv, ha⟩
    have hsem : accessSem k id = some (k.sems id) := by simp [accessSem, hm, hid.1, hid.2]
    have hsame : { k.sems id with value := 0, lock := false } = k.sems id := by
      rw [← hlock, ← hv]
    refine ⟨{ k with allocs := fun n => k.allocs (n + 1) }, ?_, rfl, rfl, rfl⟩
    unfold semWait wait
    simpa [hsem, acquire, hlock, hv, Kernel.allocMemory, ha, Kernel.setSem, release] using hsame

/-- The two calls are rejected. -/
structure RejectsUnopened (k : Kernel) (id : Int) (c : Pid) : Prop where
  wait : RejectsWait k id c
  post : RejectsPost k id c

/-- No state rejects the two calls on a semaphore that is not open: `post` always
counts or wakes, and `wait` fails only on an empty heap. -/
theorem unopened_never_rejected (h : Reach allocs Run.anyEvent m) (hid : Machine.SemIdOk id)
    (_hu : (m.k.sems id).used = false) :
    ¬ RejectsUnopened m.k id c ∧
      (RejectsWait m.k id c ↔
        m.k.semManager = true ∧ (m.k.sems id).value = 0 ∧ m.k.allocs 0 = false) := by
  refine ⟨fun hr => ?_, rejectsWait_iff (h.unlocked id) hid⟩
  obtain ⟨k', hp, _⟩ := hr.post
  cases (semPost_cases hp).1

/-- The shell, after its first dispatch. -/
theorem unopened_never_rejected_nine :
    ∃ m, Reach (fun _ => true) Run.anyEvent m ∧ (m.k.sems 9).used = false ∧
      ¬ RejectsUnopened m.k 9 1 ∧ ¬ RejectsWait m.k 9 1 := by
  obtain ⟨m, _, hm, hu, ha⟩ :
      ∃ m, Run.exec Machine.step Run.anyEvent (boot fun _ => true) [.tick 0] = some m ∧
        Run Machine.step Run.anyEvent (boot fun _ => true) m ∧ (m.k.sems 9).used = false ∧
        m.k.allocs 0 = true :=
    Run.exists_exec (by decide +kernel)
  obtain ⟨hr, hw⟩ := unopened_never_rejected (c := 1) hm (by decide : Machine.SemIdOk 9) hu
  exact ⟨m, hm, hu, hr, fun h => by cases (hw.mp h).2.2.symm.trans ha⟩

/-- The shell waits for a semaphore nobody has opened: it blocks, and no queue of a
semaphore holds it. -/
theorem unopened_wait_blocks :
    ∃ m, Run.exec Machine.step Run.anyEvent (boot fun _ => true) [.tick 0] = some m ∧
      (m.k.sems 9).used = false ∧
      (m.step (.call 0 (.semWait 9))).map (fun m' =>
        (m'.k.queue .blockedBySem, (m'.k.sems 9).blocked, (m'.k.procs 1).map PCB.state)) =
          some ([1], .null, some .BLOCKED) ∧
      ¬ RejectsUnopened m.k 9 1 := by
  obtain ⟨m, he, _, hu, hs⟩ :
      ∃ m, Run.exec Machine.step Run.anyEvent (boot fun _ => true) [.tick 0] = some m ∧
        Run Machine.step Run.anyEvent (boot fun _ => true) m ∧ (m.k.sems 9).used = false ∧
        (m.step (.call 0 (.semWait 9))).map (fun m' =>
          (m'.k.queue .blockedBySem, (m'.k.sems 9).blocked, (m'.k.procs 1).map PCB.state)) =
            some ([1], .null, some .BLOCKED) :=
    Run.exists_exec (by decide +kernel)
  refine ⟨m, he, hu, hs, fun hr => ?_⟩
  obtain ⟨k', hp, _⟩ := hr.post
  cases (semPost_cases hp).1

/-! ## Closing -/

/-- The steps that call `semClose` themselves. -/
def Event.isClose : Event → Bool
  | .call _ (.semClose _) | .call _ (.closePipe _) => true
  | _ => false

/-- No step that closes a semaphore opens one. -/
theorem Event.Admits.opensNone {i j : Int} (h : e.Admits m c (.semClosed i)) :
    ¬ e.Admits m c (.semOpened j) := by
  cases e with
  | tick => cases h
  | resume => cases h
  | ctrlC => simp [Event.Admits, Label.Killing, Label.Mourning]
  | call off sc =>
    cases sc with
    | createProcess =>
      simp [Event.Admits, Call.Admits, Call.Pauses, Label.Creating, Label.Counting,
        Label.Noting] at h
    | semOpen => simp [Event.Admits, Call.Admits, Call.Pauses, Label.Noting] at h
    | openPipe => simp [Event.Admits, Call.Admits, Call.Pauses, Label.Noting] at h
    | _ =>
      simp [Event.Admits, Call.Admits, Label.Killing, Label.Mourning, Label.Working, Label.Noting]

/-- The semaphore is open and has a queue, or it was closed and its queue freed. -/
def OpenOrFreed (k : Kernel) (id : Int) : Prop :=
  (k.sems id).used = true ∧ (∃ pids, (k.sems id).blocked = .live pids) ∨
    (k.sems id).used = false ∧ (k.sems id).blocked = .freed

theorem OpenOrFreed.effect (H : OpenOrFreed k id) (h : Effect l k k')
    (ho : ∀ j, l ≠ .semOpened j) : OpenOrFreed k' id := by
  unfold OpenOrFreed at H ⊢
  rcases h.sem id with heq | hs
  · rwa [heq]
  · generalize k'.sems id = s' at hs ⊢
    -- a queue that loses or gains a process was live, and stays so
    have hlive : ∀ {pids}, (k.sems id).blocked = .live pids → (k.sems id).used = true :=
      fun hb => H.elim And.left fun hf => by cases hf.2.symm.trans hb
    cases hs with
    | took => exact H
    | counted => exact H
    | joined hb => exact .inl ⟨hlive hb, _, rfl⟩
    | left hb => exact .inl ⟨hlive hb, _, rfl⟩
    | opened => exact absurd rfl (ho _)
    | closed hu hb =>
      rcases hb with ⟨_, rfl⟩ | ⟨hn, _⟩
      · exact .inr ⟨rfl, rfl⟩
      · rcases H with ⟨_, _, hl⟩ | ⟨hf, _⟩
        · cases hn.symm.trans hl
        · cases hu.symm.trans hf

/-- Only `semClosed` takes a semaphore out of use. -/
theorem Effect.stillUsed (h : Effect l k k') (hu : (k.sems id).used = true)
    (hc : l ≠ .semClosed id) : (k'.sems id).used = true := by
  rcases h.sem id with heq | hs
  · rwa [heq]
  · generalize k'.sems id = s' at hs ⊢
    cases hs with
    | opened => rfl
    | closed => exact absurd rfl hc
    | _ => exact hu

/-- Closing a semaphore frees its queue. -/
theorem Reach.closed_freed (h : Reach allocs Run.anyEvent m) (hs : m.step e = some m')
    (hu : (m.k.sems id).used = true) (hb : (m.k.sems id).blocked = .live pids)
    (hc : (m'.k.sems id).used = false) : (m'.k.sems id).blocked = .freed := by
  rcases h.cases with rfl | ⟨c, R⟩
  · rcases boot_step hs with rfl | ⟨off, h⟩
    · cases hu.symm.trans hc
    · obtain ⟨_, _, _, _, W, _, _⟩ := boot_dispatch h
      rw [W.rest.sems] at hc
      cases hu.symm.trans hc
  · by_cases hclose : e.Admits m c (.semClosed id)
    · have hP : OpenOrFreed m'.k id := by
        refine R.kernel hs (P := fun k => OpenOrFreed k id) (.inl ⟨hu, _, hb⟩) ?_ ?_
        · intro l k k' hl _ H he
          refine H.effect he ?_
          rintro j rfl
          exact hclose.opensNone (hl.resolve_left (by simp))
        · intro k k' rsp sp p n _ H W
          unfold OpenOrFreed
          rwa [W.rest.sems]
      rcases hP with ⟨hu', _⟩ | ⟨_, hf⟩
      · cases hu'.symm.trans hc
      · exact hf
    · have hP : (m'.k.sems id).used = true := by
        refine R.kernel hs (P := fun k => (k.sems id).used = true) hu ?_ ?_
        · intro l k k' hl _ H he
          refine he.stillUsed H ?_
          rintro rfl
          exact hclose (hl.resolve_left (by simp))
        · intro k k' rsp sp p n _ H W
          rwa [W.rest.sems]
      cases hP.symm.trans hc

/-- Closing moves nobody out of `blockedQueueBySem`. -/
theorem Running.close_keeps (R : Running m c) (hs : m.step e = some m') (he : e.isClose = true)
    {p : Pid} (hp : p ∈ m.k.queue .blockedBySem) : p ∈ m'.k.queue .blockedBySem := by
  refine R.kernel hs (P := fun k => p ∈ k.queue .blockedBySem) hp ?_ ?_
  · intro l k k' hl _ H heff
    have hl : l = .plain ∨ (∃ i, l = .semClosed i) ∨ (∃ s, l = .pipeClosed s) ∨ l.Noting := by
      rcases hl with rfl | hl
      · exact .inl rfl
      · cases e with
        | tick => cases he
        | ctrlC => cases he
        | resume => cases he
        | call off sc =>
          cases sc with
          | semClose =>
            rcases hl with rfl | ⟨hp, _⟩ | hn
            · exact .inr (.inl ⟨_, rfl⟩)
            · cases hp
            · exact .inr (.inr (.inr hn))
          | closePipe =>
            rcases hl with (⟨i, _, hi⟩ | hs) | ⟨hp, _⟩ | hn
            · exact .inr (.inl ⟨i, hi⟩)
            · exact .inr (.inr (.inl hs))
            · cases hp
            · exact .inr (.inr (.inr hn))
          | _ => cases he
    cases heff with
    | alloc => exact H
    | quantum => exact H
    | manager => exact H
    | update => exact H
    | stack => exact H
    | semClosed => exact H
    | pipeClosed => exact H
    | note => exact H
    | _ => simp [Label.Noting] at hl
  · intro k k' rsp sp p n _ H W
    exact (W.rest.mem .blockedBySem _).mpr H

/-- A step that closes a semaphore never does it cleanly: the freed queue is read by
the next `semPost`. `semClose` and `pipeClose` leave everybody blocked. -/
theorem close_never_clean (h : Reach allocs Run.anyEvent m) (hs : m.step e = some m')
    (hu : (m.k.sems id).used = true) (hb : (m.k.sems id).blocked = .live pids)
    (hc : (m'.k.sems id).used = false) :
    ¬ ClosedCleanly m m' id ∧
      (e.isClose = true → ∀ p, m.k.WaitsFor id p → p ∈ m.k.queue .blockedBySem →
        p ∈ m'.k.queue .blockedBySem ∧ p ∉ m'.k.queue .ready) := by
  refine ⟨fun hclean => ?_, fun he p hw hp => ?_⟩
  · exact hclean.unread m' .refl _ (.post (h.closed_freed hs hu hb hc))
  · rcases h.cases with rfl | ⟨c, R⟩
    · exact absurd hw boot_waitsFor
    · have hp' := R.close_keeps hs he hp
      obtain ⟨_, R'⟩ := R.step hs
      exact ⟨hp', fun hr => by cases R'.core.queue_eq hr hp'⟩

/-- The child of the shell waits for a semaphore the shell has opened. -/
def childWaits : List Event :=
  [.tick 0, .call 0 (.createProcess backgroundArgs), .call 0 (.semOpen 9 0), .call 0 .yield,
    .resume 0, .call 0 .yield, .call 0 (.semWait 9), .resume 0]

theorem close_never_clean_child :
    ∃ m m', Reach (fun _ => true) Run.anyEvent m ∧ m.step (.call 0 (.semClose 9)) = some m' ∧
      (m.k.sems 9).blocked = .live [2] ∧ ¬ ClosedCleanly m m' 9 ∧
      2 ∈ m'.k.queue .blockedBySem ∧ 2 ∉ m'.k.queue .ready := by
  obtain ⟨m, _, hm, hu, hb, hq, hs⟩ :
      ∃ m, Run.exec Machine.step Run.anyEvent (boot fun _ => true) childWaits = some m ∧
        Run Machine.step Run.anyEvent (boot fun _ => true) m ∧ (m.k.sems 9).used = true ∧
        (m.k.sems 9).blocked = .live [2] ∧ 2 ∈ m.k.queue .blockedBySem ∧
        (m.step (.call 0 (.semClose 9))).map (fun m' => (m'.k.sems 9).used) = some false :=
    Run.exists_exec (by decide +kernel)
  obtain ⟨m', hs, hc⟩ := Option.map_eq_some_iff.mp hs
  obtain ⟨hclean, hstay⟩ := close_never_clean hm hs hu hb hc
  exact ⟨m, m', hm, hs, hb, hclean, hstay rfl 2 ⟨_, hb, by decide⟩ hq⟩

/-- The child stays blocked on the closed semaphore, and a post to it reads the queue
that was freed. -/
theorem close_strands_waiter :
    ∃ m, Run.exec Machine.step Run.anyEvent (boot fun _ => true) childWaits = some m ∧
      (m.k.sems 9).blocked = .live [2] ∧
      ∃ m', m.step (.call 0 (.semClose 9)) = some m' ∧ .returned 1 0 ∈ m'.k.log ∧
        m'.k.queue .blockedBySem = [2] ∧ m'.k.queue .ready = [1] ∧ m'.Calls ∧
        (m'.k.sems 9).blocked = .freed ∧ m'.step (.call 0 (.semPost 9)) = none ∧
        ¬ ClosedCleanly m m' 9 := by
  obtain ⟨m, he, _, hb, hs⟩ :
      ∃ m, Run.exec Machine.step Run.anyEvent (boot fun _ => true) childWaits = some m ∧
        Run Machine.step Run.anyEvent (boot fun _ => true) m ∧ (m.k.sems 9).blocked = .live [2] ∧
        (m.step (.call 0 (.semClose 9))).any (fun m' => decide (.returned 1 0 ∈ m'.k.log ∧
          m'.k.queue .blockedBySem = [2] ∧ m'.k.queue .ready = [1] ∧ m'.Calls ∧
          (m'.k.sems 9).blocked = .freed ∧ (m'.step (.call 0 (.semPost 9))).isNone)) = true :=
    Run.exists_exec (by decide +kernel)
  obtain ⟨m', hs, hc⟩ := (Option.any_eq_true _ _).mp hs
  simp only [decide_eq_true_eq, Option.isNone_iff_eq_none] at hc
  obtain ⟨hret, hq, hr, hcalls, hf, hpost⟩ := hc
  refine ⟨m, he, hb, m', hs, hret, hq, hr, hcalls, hf, hpost, fun hclean => ?_⟩
  exact hclean.unread m' .refl _ (.post hf)

end

end SoKernel
