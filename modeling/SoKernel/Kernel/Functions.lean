import SoKernel.Kernel.Core

/-!
# The functions are made of effects

One lemma for each kernel function: which effects it has, and whether it ends in
`callTimerTick`. Later modules use these and never unfold a function.
-/

namespace SoKernel

variable {k k' : Kernel} {p c pid parent : Pid} {id : Int} {flow : Flow} {ok : Bool}

/-! ## Blocking and unblocking -/

theorem moveProcess_cases {f t : QueueName} {st : State} (hft : f ≠ t)
    (h : moveProcess k f t p st = some (k', ok)) :
    ok = false ∧ k' = k ∧ p ∉ k.queue f ∨
      ok = true ∧ p ∈ k.queue f ∧ ∃ b, k.procs p = some b ∧
        k' = k.move f t p { b with state := st } := by
  unfold moveProcess switchProcessFromQueues at h
  by_cases hp : p ∈ k.queue f
  · simp only [hp, if_true] at h
    obtain ⟨b, hb, h⟩ := Option.bind_eq_some_iff.mp h
    obtain ⟨rfl, rfl⟩ : _ = k' ∧ true = ok := by simpa using h
    refine .inr ⟨rfl, hp, b, hb, ?_⟩
    simp [Kernel.move, Kernel.setQueue, hft.symm]
  · simp only [hp, if_false, Option.some.injEq, Prod.mk.injEq] at h
    exact .inl ⟨h.2.symm, h.1.symm, hp⟩

theorem getCurrentPid_eq (hc : k.currentProcess = some c) : getCurrentPid k = c := by
  simp [getCurrentPid, hc]

theorem yieldIfCurrent_cases (hc : k.currentProcess = some c)
    (h : yieldIfCurrent k p = (k', flow)) :
    p = c ∧ k' = { k with quantum := 0 } ∧ flow = .tick ∨ p ≠ c ∧ k' = k ∧ flow = .ret 0 := by
  unfold yieldIfCurrent yield at h
  rw [getCurrentPid_eq hc] at h
  split at h
  · next hp =>
    cases h
    exact .inl ⟨hp, rfl, rfl⟩
  · next hp =>
    cases h
    exact .inr ⟨hp, rfl, rfl⟩

/-- `blockProcess` does nothing, or blocks the process and yields if it is the caller. -/
theorem blockProcess_cases (hc : k.currentProcess = some c)
    (h : blockProcess k p = some (k', flow)) :
    k' = k ∧ flow = .ret (-1) ∧ (p ∈ k.queue .ready → p ∈ k.queue .blockedBySem) ∨
      p ∈ k.queue .ready ∧ ∃ b, k.procs p = some b ∧
        let k1 := k.move .ready .blocked p { b with state := .BLOCKED }
        (p = c ∧ k' = { k1 with quantum := 0 } ∧ flow = .tick ∨
          p ≠ c ∧ k' = k1 ∧ flow = .ret 0) := by
  unfold blockProcess at h
  obtain ⟨⟨k1, moved⟩, h1, h2⟩ := Option.bind_eq_some_iff.mp h
  clear h
  unfold blockProcessQueue at h1
  split at h1
  · next hs =>
    cases h1
    cases h2
    exact .inl ⟨rfl, rfl, fun _ => hs⟩
  · split at h1
    · next hr =>
      cases h1
      cases h2
      exact .inl ⟨rfl, rfl, fun hp => absurd hp hr⟩
    · rcases moveProcess_cases (by decide) h1 with ⟨rfl, rfl, hr⟩ | ⟨rfl, hp, b, hb, rfl⟩
      · cases h2
        exact .inl ⟨rfl, rfl, fun hp => absurd hp hr⟩
      · refine .inr ⟨hp, b, hb, ?_⟩
        exact yieldIfCurrent_cases (k := k.move _ _ _ _) hc (Option.some.inj h2)

/-- What a blocking call does to its caller `c`. -/
def Label.Suspends (c : Pid) : Label → Prop
  | .block p => p = c
  | .sleep _ p _ => p = c
  | .die p => p = c
  | _ => False

/-- A function of the process `c` has ended with `flow`: effects that `allow`
admits, and it has suspended its caller only if it ends in `callTimerTick`. -/
structure Ends (allow : Label → Prop) (c : Pid) (k k' : Kernel) (flow : Flow) : Prop where
  effects : Effects allow k k'
  tick : flow = .tick → k'.quantum = 0
  ret : ∀ v, flow = .ret v → Effects (fun l => allow l ∧ ¬ l.Suspends c) k k'

namespace Ends

variable {allow allow' : Label → Prop}

theorem of_tick (h : Effects allow k k') (hq : k'.quantum = 0) : Ends allow c k k' .tick :=
  ⟨h, fun _ => hq, fun _ hv => (by cases hv)⟩

theorem of_ret {v : Int} (h : Effects (fun l => allow l ∧ ¬ l.Suspends c) k k') :
    Ends allow c k k' (.ret v) :=
  ⟨h.mono fun _ => And.left, fun ht => (by cases ht), fun _ _ => h⟩

theorem refl {v : Int} : Ends allow c k k (.ret v) := of_ret .refl

theorem mono (h : Ends allow c k k' flow) (hle : ∀ l, allow l → allow' l) :
    Ends allow' c k k' flow :=
  ⟨h.effects.mono hle, h.tick, fun v hv => (h.ret v hv).mono fun l hl => ⟨hle l hl.1, hl.2⟩⟩

end Ends

theorem blockProcess_ends (hc : k.currentProcess = some c)
    (h : blockProcess k p = some (k', flow)) :
    Ends (fun l => l = .plain ∨ l = .block p) c k k' flow := by
  rcases blockProcess_cases hc h with ⟨rfl, rfl, _⟩ | ⟨hp, b, hb, ⟨_, rfl, rfl⟩ | ⟨hpc, rfl, rfl⟩⟩
  · exact .refl
  · refine .of_tick ?_ rfl
    exact (Effects.one (.block hp hb (SameWaiting.state b _).toSameFamily rfl) (.inr rfl)).trans
      (.one (.quantum _ 0) (.inl rfl))
  · exact .of_ret (.one (.block hp hb (SameWaiting.state b _).toSameFamily rfl) ⟨.inr rfl, hpc⟩)

theorem unblockProcess_effects (h : unblockProcess k p = some (k', flow)) :
    Effects (fun l => l = .unblock p) k k' ∧ ∃ v, flow = .ret v := by
  unfold unblockProcess unblockProcessQueue at h
  obtain ⟨⟨k1, moved⟩, h1, h⟩ := Option.bind_eq_some_iff.mp h
  cases h
  refine ⟨?_, _, rfl⟩
  rcases moveProcess_cases (by decide) h1 with ⟨_, rfl, _⟩ | ⟨_, hp, b, hb, rfl⟩
  · exact .refl
  · exact .one (.unblock hp hb (.state b _) rfl) rfl

/-! ## Semaphores -/

theorem accessSem_manager {s : Sem} (h : accessSem k id = some s) :
    k.semManager = true ∧ k.sems id = s := by
  unfold accessSem at h
  split at h
  · next hm => exact ⟨hm.1, Option.some.inj h⟩
  · cases h

theorem accessSem_eq {s : Sem} (h : accessSem k id = some s) : k.sems id = s :=
  (accessSem_manager h).2

theorem acquire_eq {s s' : Sem} (h : acquire s = some s') :
    s.lock = false ∧ s' = { s with lock := true } := by
  unfold acquire at h
  split at h
  · cases h
  · next hl => exact ⟨eq_false_of_ne_true hl, (Option.some.inj h).symm⟩

theorem release_eq {s : Sem} (h : s.lock = false) : release { s with lock := true } = s := by
  cases s
  cases h
  rfl

theorem semInit_cases {v : Nat} (h : semInit k id v = some (k', ok)) :
    ok = false ∧ k' = k ∧ (Machine.SemIdOk id → (k.sems id).used = true) ∨
      Machine.SemIdOk id ∧ (k.sems id).used = false ∧ ∃ k1, k.allocMemory = (ok, k1) ∧
        k' = if ok then
            (k1.setSem id { value := v, lock := false, used := true, blocked := .live [] }).observe
              (.opened id v)
          else { k1.setSem id { value := v, lock := false, used := true, blocked := .null } with
            semManager := false } := by
  unfold semInit at h
  split at h
  · next hid =>
    cases h
    refine .inl ⟨rfl, rfl, fun hok => ?_⟩
    rcases hid with hlt | hge
    · exact absurd hok.1 (Int.not_le.mpr hlt)
    · exact absurd hok.2 (Int.not_lt.mpr hge)
  · next hid =>
    obtain ⟨s, hs, h⟩ := Option.bind_eq_some_iff.mp h
    have hs := accessSem_eq hs
    have hid : Machine.SemIdOk id := ⟨Int.not_lt.mp fun h => hid (.inl h),
      Int.not_le.mp fun h => hid (.inr h)⟩
    split at h
    · next hu =>
      cases h
      exact .inl ⟨rfl, rfl, fun _ => hs ▸ hu⟩
    · next hu =>
      refine .inr ⟨hid, by rw [hs]; exact eq_false_of_ne_true hu, ?_⟩
      cases ha : k.allocs 0 <;> simp only [Kernel.allocMemory, ha] at h <;> cases h
      · exact ⟨_, by simp [Kernel.allocMemory, ha], rfl⟩
      · exact ⟨_, by simp [Kernel.allocMemory, ha], rfl⟩

theorem semInit_effects {v : Nat} (h : semInit k id v = some (k', ok)) :
    Effects (fun l => l = .plain ∨ l = .semOpened id) k k' := by
  rcases semInit_cases h with ⟨_, rfl, _⟩ | ⟨hid, hu, k1, ha, rfl⟩
  · exact .refl
  · obtain ⟨rfl, rfl⟩ : k.allocs 0 = ok ∧ _ = k1 := by simpa [Kernel.allocMemory] using ha
    refine (Effects.one (.alloc k) (.inl rfl)).trans ?_
    split
    · exact .one (.semOpened hid hu) (.inr rfl)
    · exact .trans (.one (.semUnqueued hid hu) (.inr rfl)) (.one (.manager _) (.inl rfl))

theorem semClose_effects (h : semClose k id = some (k', ok)) :
    Effects (fun l => l = .semClosed id) k k' := by
  unfold semClose at h
  split at h
  · cases h
    exact .refl
  · obtain ⟨s, hs, h1⟩ := Option.bind_eq_some_iff.mp h
    obtain rfl := accessSem_eq hs
    clear h
    split at h1
    · cases h1
      exact .refl
    · next hu =>
      have hu : (k.sems id).used = true := by simpa using hu
      split at h1
      · cases h1
      · next hb =>
        cases h1
        exact .one (.semClosed hu (.inr ⟨hb, rfl⟩)) rfl
      · next hb =>
        cases h1
        exact .one (.semClosed hu (.inl ⟨⟨_, hb⟩, rfl⟩)) rfl

/-- The caller of `blockProcessBySem` goes to sleep. -/
theorem blockProcessBySem_current (h : blockProcessBySem k c = some (k', flow))
    (hc : k.currentProcess = some c) (hr : c ∈ k.queue .ready) :
    flow = .tick ∧ ∃ b, k.procs c = some b ∧
      k' = { k.move .ready .blockedBySem c { b with state := .BLOCKED } with quantum := 0 } := by
  unfold blockProcessBySem blockProcessQueueBySem at h
  obtain ⟨⟨k1, moved⟩, h1, h2⟩ := Option.bind_eq_some_iff.mp h
  clear h
  rcases moveProcess_cases (by decide) h1 with ⟨_, _, hn⟩ | ⟨rfl, _, b, hb, rfl⟩
  · exact absurd hr hn
  · rcases yieldIfCurrent_cases (k := k.move _ _ _ _) hc (Option.some.inj h2) with
      ⟨_, rfl, rfl⟩ | ⟨hcc, _⟩
    · exact ⟨rfl, b, hb, rfl⟩
    · exact absurd rfl hcc

theorem enqueuePid_cases {s s' : Sem} {queued : Bool}
    (h : enqueuePid k s p = some (k', s', queued)) :
    ∃ a, Effects (fun l => l = .plain) k k' ∧ k' = { k with allocs := a } ∧
      (queued = true ∧ (∃ pids, s.blocked = .live pids ∧
          s' = { s with blocked := .live (pids ++ [p]) }) ∨
        queued = false ∧ s' = s ∧ ∀ pids, s.blocked = .live pids → k.allocs 0 = false) := by
  unfold enqueuePid at h
  cases hq : s.blocked with
  | null =>
    simp only [hq] at h
    cases h
    exact ⟨k.allocs, .refl, rfl, .inr ⟨rfl, rfl, fun _ h => (by cases h)⟩⟩
  | freed =>
    simp only [hq] at h
    cases h
  | live pids =>
    simp only [hq, Kernel.allocMemory] at h
    cases ha : k.allocs 0 <;> simp only [ha] at h <;> cases h
    · exact ⟨_, .one (.alloc k) rfl, rfl, .inr ⟨rfl, rfl, fun _ _ => rfl⟩⟩
    · exact ⟨_, .one (.alloc k) rfl, rfl, .inl ⟨rfl, pids, rfl, rfl⟩⟩

/-- `wait` takes a token, fails for lack of memory, or goes to sleep. -/
theorem wait_cases (hc : k.currentProcess = some c) (hr : c ∈ k.queue .ready)
    (h : wait k id = some (k', flow)) :
    Effect (.took id) k k' ∧ flow = .ret 0 ∨
      k' = { k with allocs := fun n => k.allocs (n + 1) } ∧ flow = .ret (-1) ∧
        k.allocs 0 = false ∧ (k.sems id).value = 0 ∨
      ∃ a k1 queued, Effects (fun l => l = .plain) k { k with allocs := a } ∧
        Effect (.sleep id c queued) { k with allocs := a } k1 ∧ k' = { k1 with quantum := 0 } ∧
        flow = .tick ∧
        ((∀ n, k.allocs n = true) → (∃ pids, (k.sems id).blocked = .live pids) → queued = true) := by
  unfold wait at h
  obtain ⟨s, hs, h1⟩ := Option.bind_eq_some_iff.mp h
  obtain rfl := accessSem_eq hs
  obtain ⟨s', hs', h2⟩ := Option.bind_eq_some_iff.mp h1
  obtain ⟨hl, rfl⟩ := acquire_eq hs'
  clear h h1 hs'
  dsimp only at h2
  split at h2
  · next hv =>
    cases h2
    refine .inl ⟨?_, rfl⟩
    have he := Effect.took (k := k) hl hv
    simp only [hl] at he
    exact he
  · next hv =>
    have hv : (k.sems id).value = 0 := Nat.eq_zero_of_not_pos hv
    cases ha : k.allocs 0 with
    | false =>
      simp only [Kernel.allocMemory, ha] at h2
      cases h2
      refine .inr (.inl ⟨?_, rfl, rfl, hv⟩)
      simp [Kernel.setSem, release_eq hl]
    | true =>
      simp only [Kernel.allocMemory, ha] at h2
      obtain ⟨⟨k1, s1, queued⟩, h3, h4⟩ := Option.bind_eq_some_iff.mp h2
      clear h2
      obtain ⟨a, hp, rfl, hq⟩ := enqueuePid_cases h3
      have ha' : Effects (fun l => l = .plain) k { k with allocs := a } :=
        .trans (.one (.alloc k) rfl) hp
      have hpid : getCurrentPid { k with allocs := fun n => k.allocs (n + 1) } = c :=
        getCurrentPid_eq hc
      simp only [hpid] at h4 hq
      obtain ⟨⟨k2, flow2⟩, h5, h6⟩ := Option.bind_eq_some_iff.mp h4
      clear h4
      rcases hq with ⟨rfl, pids, hlive, rfl⟩ | ⟨rfl, rfl, hnull⟩
      · rw [if_pos rfl] at h5
        obtain ⟨rfl, b, hb, rfl⟩ := blockProcessBySem_current h5 hc hr
        cases h6
        have he := Effect.sleep (k := { k with allocs := a }) hl hv hlive hc hr hb
          (.state b .BLOCKED) rfl
        simp only [hl] at he
        exact .inr (.inr ⟨a, _, true, ha', he, rfl, rfl, fun _ _ => rfl⟩)
      · rw [if_neg Bool.false_ne_true, release_eq hl] at h5
        have hsame : Kernel.setSem { k with allocs := a } id (k.sems id) =
            { k with allocs := a } := by
          simp [Kernel.setSem]
        rw [hsame] at h5
        obtain ⟨rfl, b, hb, rfl⟩ := blockProcessBySem_current h5 hc hr
        cases h6
        have he : Effect (.sleep id c false) { k with allocs := a } _ :=
          .stray hc hr hb (.state b .BLOCKED) rfl
        refine .inr (.inr ⟨a, _, false, ha', he, rfl, rfl, ?_⟩)
        rintro hall ⟨pids, hpids⟩
        exact absurd (hall 1) (by simp [hnull pids hpids])

/-- `post` has one of three effects. -/
theorem semPost_cases (h : semPost k id = some (k', flow)) :
    flow = .ret 0 ∧ ∃ l, Effect l k k' ∧
      ((∃ p, l = .wake id p) ∨ (∃ p, l = .absorb id p) ∨ l = .incr id) := by
  unfold semPost post at h
  obtain ⟨s, hs, h1⟩ := Option.bind_eq_some_iff.mp h
  obtain rfl := accessSem_eq hs
  obtain ⟨s', hs', h2⟩ := Option.bind_eq_some_iff.mp h1
  obtain ⟨hl, rfl⟩ := acquire_eq hs'
  clear h h1 hs'
  dsimp only at h2
  split at h2
  · cases h2
  · next p rest hq =>
    obtain ⟨⟨k1, moved⟩, h3, h4⟩ := Option.bind_eq_some_iff.mp h2
    clear h2
    cases h4
    refine ⟨rfl, ?_⟩
    unfold unblockProcessBySem unblockProcessQueueBySem at h3
    rcases moveProcess_cases (by decide) h3 with ⟨rfl, rfl, hn⟩ | ⟨rfl, hp, b, hb, rfl⟩
    · refine ⟨.absorb id p, ?_, .inr (.inl ⟨p, rfl⟩)⟩
      have he := Effect.absorb hl hq hn
      simp only [hl] at he
      simpa [Kernel.setSem, release] using he
    · refine ⟨.wake id p, ?_, .inl ⟨p, rfl⟩⟩
      have he := Effect.wake hl hq hp hb (.state b .READY) rfl
      simp only [hl] at he
      simpa [Kernel.setSem, Kernel.move, Kernel.setQueue, Kernel.setPCB, release] using he
  · next hfreed hne =>
    cases h2
    refine ⟨rfl, .incr id, ?_, .inr (.inr rfl)⟩
    have hq : (k.sems id).blocked = .null ∨ (k.sems id).blocked = .live [] := by
      cases hb : (k.sems id).blocked with
      | null => exact .inl rfl
      | freed => exact absurd hb hfreed
      | live pids =>
        cases pids with
        | nil => exact .inr rfl
        | cons p rest => exact absurd hb (hne p rest)
    have he := Effect.incr hl hq
    simp only [hl] at he
    exact he

theorem semPost_effects (h : semPost k id = some (k', flow)) :
    Effects (fun l => (∃ p, l = .wake id p) ∨ (∃ p, l = .absorb id p) ∨ l = .incr id) k k' := by
  obtain ⟨_, l, he, hl⟩ := semPost_cases h
  exact .one he hl

/-! ## Pipes -/

theorem ensurePipeManagerInit_eq (h : k.pipeManagerInit = true) :
    ensurePipeManagerInit k = k := by
  simp [ensurePipeManagerInit, h]

/-- What `createPipe` does before its first `semInit`. -/
def takeSlot (k : Kernel) (slot : Nat) : Kernel :=
  { k.setPipe slot { k.pipes slot with
      readIdx := 0, writeIdx := 0, count := 0, isOpen := true, semReaders := k.nextSemId,
      semWriters := k.nextSemId + 1, mutex := k.nextSemId + 2 } with
    nextSemId := k.nextSemId + 3 }

/-- A sequence of `semInit` that stops when one fails. -/
def semInits : List (Int × Nat) → Kernel → Option (Kernel × Bool)
  | [], k => some (k, true)
  | (id, value) :: l, k => do
    let (k, ok) ← semInit k id value
    if ok then semInits l k else some (k, false)

/-- The semaphores of a pipe, whose ids start at `n`. -/
def pipeSems (n : Int) : List (Int × Nat) := [(n, 0), (n + 1, pipeBufferSize), (n + 2, 1)]

/-- Their ids follow one another. -/
theorem mem_three {n i : Int} : i ∈ [n, n + 1, n + 2] ↔ n ≤ i ∧ i ≤ n + 2 := by
  simp only [List.mem_cons, List.not_mem_nil, or_false]
  omega

theorem pipeHandle_nonneg (slot : Nat) : 0 ≤ pipeHandle slot := by
  unfold pipeHandle
  split <;> omega

theorem pipeHandle_inj {slot s : Nat} (h : pipeHandle slot = pipeHandle s) : slot = s := by
  unfold pipeHandle at h
  split at h <;> split at h <;> omega

theorem semInit_kept {v : Nat} (h : semInit k id v = some (k', ok)) :
    k'.pipes = k.pipes ∧ k'.nextSemId = k.nextSemId ∧
      (∀ i, (k.sems i).used = true → (k'.sems i).used = true) ∧
      (∀ i, i ≠ id → k'.sems i = k.sems i) ∧ (ok = true → (k'.sems id).used = true) := by
  rcases semInit_cases h with ⟨rfl, rfl, _⟩ | ⟨_, hu, k1, ha, rfl⟩
  · exact ⟨rfl, rfl, fun _ hi => hi, fun _ _ => rfl, fun h => by cases h⟩
  · obtain ⟨rfl, rfl⟩ : k.allocs 0 = ok ∧ _ = k1 := by simpa [Kernel.allocMemory] using ha
    have hused : ∀ i (s : Sem), (k.sems i).used = true → s.used = true →
        (Function.update k.sems id s i).used = true := by
      intro i s hi hs
      rcases eq_or_ne i id with rfl | hne
      · simpa using hs
      · simpa [hne] using hi
    split
    · refine ⟨rfl, rfl, fun i hi => hused i _ hi rfl, fun i hi => ?_, fun _ => ?_⟩
      · simp [Kernel.setSem, Kernel.observe, hi]
      · simp [Kernel.setSem, Kernel.observe]
    · refine ⟨rfl, rfl, fun i hi => hused i _ hi rfl, fun i hi => ?_, fun _ => ?_⟩
      · simp [Kernel.setSem, hi]
      · simp [Kernel.setSem]

/-- What a sequence of `semInit` leaves alone, and that it opens them all. -/
theorem semInits_kept {l : List (Int × Nat)} (h : semInits l k = some (k', ok)) :
    k'.pipes = k.pipes ∧ k'.nextSemId = k.nextSemId ∧
      (∀ i, (k.sems i).used = true → (k'.sems i).used = true) ∧
      (∀ i, i ∉ l.map Prod.fst → k'.sems i = k.sems i) ∧
      (ok = true → ∀ i ∈ l.map Prod.fst, (k'.sems i).used = true) := by
  induction l generalizing k with
  | nil =>
    cases h
    exact ⟨rfl, rfl, fun _ hi => hi, fun _ _ => rfl, fun _ i hi => (by cases hi)⟩
  | cons a l ih =>
    obtain ⟨id, v⟩ := a
    obtain ⟨⟨k1, ok1⟩, h1, h2⟩ := Option.bind_eq_some_iff.mp h
    obtain ⟨hp, hn, hu, hs, ho⟩ := semInit_kept h1
    dsimp only at h2
    split at h2
    · next hok =>
      obtain ⟨hp', hn', hu', hs', ho'⟩ := ih h2
      refine ⟨hp'.trans hp, hn'.trans hn, fun i hi => hu' i (hu i hi), fun i hi => ?_,
        fun hok' i hi => ?_⟩
      · simp only [List.map_cons, List.mem_cons, not_or] at hi
        rw [hs' i hi.2, hs i hi.1]
      · rcases List.mem_cons.mp hi with rfl | hi
        · exact hu' _ (ho hok)
        · exact ho' hok' i hi
    · cases h2
      refine ⟨hp, hn, hu, fun i hi => hs i ?_, fun h => by cases h⟩
      exact fun h => hi (h ▸ List.mem_cons_self)

/-- `createPipe` finds no slot, or takes the first one and opens its semaphores. -/
theorem createPipe_cases {v : Int} (hi : k.pipeManagerInit = true)
    (h : createPipe k = some (k', v)) :
    (∀ i < maxPipes, (k.pipes i).isOpen = true) ∧ k' = k ∧ v = -1 ∨
      ∃ slot k1 ok, (slot < maxPipes ∧ (k.pipes slot).isOpen = false ∧
          ∀ i < slot, (k.pipes i).isOpen = true) ∧
        semInits (pipeSems k.nextSemId) (takeSlot k slot) = some (k1, ok) ∧
        (ok = false ∧ k' = k1 ∧ v = -1 ∨
          ok = true ∧ k' = k1.observe (.pipeOpened slot (pipeHandle slot)) ∧
            v = pipeHandle slot) := by
  unfold createPipe at h
  rw [ensurePipeManagerInit_eq hi] at h
  dsimp only at h
  split at h
  · next hnone =>
    cases h
    refine .inl ⟨fun i hi => ?_, rfl, rfl⟩
    simpa using List.find?_eq_none.mp hnone i (List.mem_range.mpr hi)
  · next slot hslot =>
    have hopen : (k.pipes slot).isOpen = false := by simpa using List.find?_some hslot
    obtain ⟨hlt, hfirst⟩ : slot < maxPipes ∧ ∀ i < slot, (k.pipes i).isOpen = true := by
      simpa using (List.find?_range_eq_some.mp hslot).2
    refine .inr ⟨slot, ?_⟩
    obtain ⟨⟨k1, ok1⟩, h1, h2⟩ := Option.bind_eq_some_iff.mp h
    have h1 : semInit (takeSlot k slot) k.nextSemId 0 = some (k1, ok1) := h1
    clear h
    dsimp only at h2
    split at h2
    · next hok =>
      cases h2
      obtain rfl : ok1 = false := by simpa using hok
      refine ⟨k', false, ⟨hlt, hopen, hfirst⟩, ?_, .inl ⟨rfl, rfl, rfl⟩⟩
      rw [pipeSems, semInits, h1]
      rfl
    · next hok1 =>
      obtain ⟨⟨k2, ok2⟩, h3, h4⟩ := Option.bind_eq_some_iff.mp h2
      have hok1 : ok1 = true := by simpa using hok1
      clear h2
      dsimp only at h4
      split at h4
      · next hok =>
        cases h4
        obtain rfl : ok2 = false := by simpa using hok
        refine ⟨k', false, ⟨hlt, hopen, hfirst⟩, ?_, .inl ⟨rfl, rfl, rfl⟩⟩
        simp only [pipeSems, semInits, h1, hok1, h3, Option.bind_eq_bind, Option.bind_some, if_true]
        rfl
      · next hok2 =>
        obtain ⟨⟨k3, ok3⟩, h5, h6⟩ := Option.bind_eq_some_iff.mp h4
        have hok2 : ok2 = true := by simpa using hok2
        have hall : semInits (pipeSems k.nextSemId) (takeSlot k slot) = some (k3, ok3) := by
          simp only [pipeSems, semInits, h1, hok1, h3, hok2, h5, Option.bind_eq_bind,
            Option.bind_some, if_true]
          cases ok3 <;> rfl
        clear h4
        dsimp only at h6
        split at h6
        · next hok =>
          cases h6
          refine ⟨k', ok3, ⟨hlt, hopen, hfirst⟩, hall, .inl ⟨by simpa using hok, rfl, rfl⟩⟩
        · next hok =>
          cases h6
          refine ⟨k3, ok3, ⟨hlt, hopen, hfirst⟩, hall, .inr ⟨by simpa using hok, rfl, rfl⟩⟩

theorem semInits_effects {l : List (Int × Nat)} (h : semInits l k = some (k', ok)) :
    Effects (fun l => l = .plain ∨ ∃ id, l = .semOpened id) k k' := by
  induction l generalizing k with
  | nil =>
    cases h
    exact .refl
  | cons a l ih =>
    obtain ⟨⟨k1, ok1⟩, h1, h2⟩ := Option.bind_eq_some_iff.mp h
    have e1 : Effects (fun l => l = .plain ∨ ∃ id, l = .semOpened id) k k1 :=
      (semInit_effects h1).mono fun l hl => hl.imp_right fun hl => ⟨_, hl⟩
    dsimp only at h2
    split at h2
    · exact e1.trans (ih h2)
    · cases h2
      exact e1

theorem createPipe_effects {v : Int} (hi : k.pipeManagerInit = true)
    (h : createPipe k = some (k', v)) :
    Effects (fun l => l = .plain ∨ (∃ id, l = .semOpened id) ∨
      ∃ slot, (k.pipes slot).isOpen = false ∧ (l = .pipeOpened slot ∨ l = .pipeReady slot)) k k' := by
  rcases createPipe_cases hi h with ⟨_, rfl, _⟩ | ⟨slot, k1, ok, ⟨hlt, hopen, _⟩, hsems, hend⟩
  · exact .refl
  · refine Effects.trans (.one (.pipeOpened hlt hopen) (.inr (.inr ⟨slot, hopen, .inl rfl⟩))) ?_
    refine .trans ((semInits_effects hsems).mono fun l hl => ?_) ?_
    · rcases hl with hl | hl
      · exact .inl hl
      · exact .inr (.inl hl)
    · rcases hend with ⟨_, rfl, _⟩ | ⟨rfl, rfl, _⟩
      · exact .refl
      · obtain ⟨hp, _, _, _, hu⟩ := semInits_kept hsems
        have hpipe : (k1.pipes slot).isOpen = true ∧ (k1.pipes slot).semReaders = k.nextSemId ∧
            (k1.pipes slot).semWriters = k.nextSemId + 1 ∧
            (k1.pipes slot).mutex = k.nextSemId + 2 := by
          rw [hp]
          simp [takeSlot, Kernel.setPipe]
        obtain ⟨ho, hr, hw, hm⟩ := hpipe
        refine .one (.pipeReady hlt ho ?_ ?_ ?_) (.inr (.inr ⟨slot, hopen, .inr rfl⟩))
        · exact hu rfl _ (by simp [hr, pipeSems])
        · exact hu rfl _ (by simp [hw, pipeSems])
        · exact hu rfl _ (by simp [hm, pipeSems])

theorem pipeIdCheck_handle {slot : Nat} (h : pipeIdCheck k id = some slot) (h2 : 2 < slot) :
    id = slot + 2 := by
  unfold pipeIdCheck at h
  split at h
  · cases h
  · next hid =>
    have hdecode : ∀ i, (if id > 2 then id - 2 else id).toNat = i → 2 < i → id = i + 2 := by
      rintro i rfl hi
      split at hi <;> split <;> omega
    dsimp only at h
    generalize hi : (if id > 2 then id - 2 else id).toNat = i at h
    split at h
    · exact Option.some.inj h ▸ hdecode i hi (Option.some.inj h ▸ h2)
    · cases h

/-- The semaphores of a pipe. -/
def Pipe.sems (pipe : Pipe) : List Int := [pipe.semReaders, pipe.semWriters, pipe.mutex]

/-- The semaphores `pipeClose(id)` closes. -/
def closedByPipe (k : Kernel) (id : Int) : List Int :=
  match pipeIdCheck k id with
  | none => []
  | some slot => (k.pipes slot).sems

theorem pipeClose_effects (hi : k.pipeManagerInit = true) (h : pipeClose k id = some (k', ok)) :
    Effects (fun l => (∃ i ∈ closedByPipe k id, l = .semClosed i) ∨ ∃ slot, l = .pipeClosed slot)
      k k' := by
  unfold pipeClose at h
  rw [ensurePipeManagerInit_eq hi] at h
  dsimp only at h
  split at h
  · cases h
    exact .refl
  · next slot hslot =>
    split at h
    · cases h
      exact .refl
    · next hslot2 =>
      obtain ⟨⟨k1, ok1⟩, h1, h2⟩ := Option.bind_eq_some_iff.mp h
      obtain ⟨⟨k2, ok2⟩, h3, h4⟩ := Option.bind_eq_some_iff.mp h2
      obtain ⟨⟨k3, ok3⟩, h5, h6⟩ := Option.bind_eq_some_iff.mp h4
      clear h h2 h4
      cases h6
      have hmono : ∀ {i : Int}, i ∈ (k.pipes slot).sems → ∀ l : Label, l = .semClosed i →
          (∃ i ∈ closedByPipe k id, l = .semClosed i) ∨ ∃ slot, l = .pipeClosed slot :=
        fun hi l hl => .inl ⟨_, by simpa [closedByPipe, hslot] using hi, hl⟩
      have e1 := (semClose_effects h1).mono (hmono (by simp [Pipe.sems]))
      have e2 := (semClose_effects h3).mono (hmono (by simp [Pipe.sems]))
      have e3 := (semClose_effects h5).mono (hmono (by simp [Pipe.sems]))
      obtain rfl := pipeIdCheck_handle hslot (Nat.not_le.mp hslot2)
      refine e1.trans (e2.trans (e3.trans ?_))
      exact .one (.pipeClosed (Nat.not_le.mp hslot2) rfl rfl rfl rfl) (.inr ⟨slot, rfl⟩)

/-- The pipe calls change nothing before their first `semWait`. -/
theorem pipeRead_kernel {size : Int} (hi : k.pipeManagerInit = true) :
    (pipeRead k id size).1 = k := by
  unfold pipeRead
  rw [ensurePipeManagerInit_eq hi]
  dsimp only
  split <;> rfl

theorem pipeWrite_kernel {data : List Byte} (hi : k.pipeManagerInit = true) :
    (pipeWrite k id data).1 = k := by
  unfold pipeWrite
  rw [ensurePipeManagerInit_eq hi]
  dsimp only
  split <;> rfl

theorem pipeClear_kernel (hi : k.pipeManagerInit = true) : (pipeClear k id).1 = k := by
  unfold pipeClear
  rw [ensurePipeManagerInit_eq hi]
  dsimp only
  split <;> rfl

/-- The critical sections. -/
theorem takeByte_effects {slot : Nat} :
    Effects (fun l => l = .pipeData slot) k (takeByte k slot p).1 := by
  unfold takeByte
  dsimp only
  split
  · exact .one (.pipeData rfl rfl rfl rfl (.inr (.inl ⟨_, _, rfl⟩))) rfl
  · exact .refl

theorem putByte_effects {slot : Nat} {b : Byte} :
    Effects (fun l => l = .pipeData slot) k (putByte k slot p b).1 := by
  unfold putByte
  dsimp only
  split
  · exact .one (.pipeData rfl rfl rfl rfl (.inl ⟨_, _, rfl⟩)) rfl
  · exact .refl

theorem emptyPipe_effects {slot : Nat} :
    Effects (fun l => l = .pipeData slot) k (emptyPipe k slot p) :=
  .one (.pipeData rfl rfl rfl rfl (.inr (.inr ⟨_, _, rfl⟩))) rfl

/-! ## Creating processes -/

theorem getProcess_eq {x : Pid} (h : getProcess k p = some x) : x = p := by
  unfold getProcess at h
  split at h
  · exact (Option.some.inj h).symm
  · cases h

theorem semInit_procs {v : Nat} (h : semInit k id v = some (k', ok)) : k'.procs = k.procs := by
  rcases semInit_cases h with ⟨_, rfl, _⟩ | ⟨_, _, k1, ha, rfl⟩
  · rfl
  · obtain ⟨_, rfl⟩ : k.allocs 0 = ok ∧ _ = k1 := by simpa [Kernel.allocMemory] using ha
    split <;> rfl

/-- The effects of `createProcess` on its parent. -/
def Label.Counting (l : Label) : Prop :=
  l = .plain ∨ (∃ p, l = .children p) ∨ ∃ id, l = .semOpened id

theorem openChildrenSem_effects {b : PCB} (hb : k.procs p = some b)
    (h : openChildrenSem k p b = some k') : Effects Label.Counting k k' := by
  unfold openChildrenSem at h
  split at h
  · obtain ⟨semId, _, h1⟩ := Option.bind_eq_some_iff.mp h
    split at h1
    · obtain ⟨⟨k1, ok⟩, h2, h3⟩ := Option.bind_eq_some_iff.mp h1
      have e1 : Effects Label.Counting k k1 :=
        (semInit_effects h2).mono fun l hl => hl.imp_right fun hl => .inr ⟨_, hl⟩
      obtain rfl := Option.some.inj h3
      refine e1.trans ?_
      split
      · rw [← semInit_procs h2] at hb
        exact .one (.children hb ⟨⟨rfl, rfl, rfl⟩, rfl⟩ rfl rfl) (.inr (.inl ⟨_, rfl⟩))
      · exact .refl
    · cases h1
      exact .refl
  · cases h
    exact .refl

theorem countChild_effects (h : countChild k parent = some k') : Effects Label.Counting k k' := by
  unfold countChild at h
  split at h
  · cases h
    exact .refl
  · next x hx =>
    obtain ⟨b, hb, h1⟩ := Option.bind_eq_some_iff.mp h
    obtain ⟨k1, h2, h3⟩ := Option.bind_eq_some_iff.mp h1
    obtain ⟨b1, hb1, h4⟩ := Option.bind_eq_some_iff.mp h3
    refine (openChildrenSem_effects hb h2).trans ?_
    obtain rfl := Option.some.inj h4
    split
    · exact .one (.children hb1 ⟨⟨rfl, rfl, rfl⟩, rfl⟩ rfl rfl) (.inr (.inl ⟨_, rfl⟩))
    · exact .refl

/-- A process that is being created and has its stack. -/
structure Newborn (k : Kernel) (p : Pid) (st : State) : Prop where
  outside : k.Outside p
  current : k.currentProcess ≠ some p
  idle : k.idleProcess ≠ some p
  stack : k.stackLive p = true
  pcb : ∃ b, k.procs p = some b ∧ b.state = st

theorem Newborn.update {st : State} {x : Pid} {b b' : PCB} (N : Newborn k p st)
    (hb : k.procs x = some b) (hs : b'.state = b.state) : Newborn (k.setPCB x b') p st := by
  refine ⟨N.outside, N.current, N.idle, N.stack, ?_⟩
  obtain ⟨bp, hbp, hst⟩ := N.pcb
  rcases eq_or_ne p x with rfl | hpx
  · obtain rfl := Option.some.inj (hb.symm.trans hbp)
    exact ⟨b', by simp, hs.trans hst⟩
  · exact ⟨bp, by simp [hpx, hbp], hst⟩

theorem Newborn.effects {st : State} (h : Effects Label.Counting k k') (N : Newborn k p st) :
    Newborn k' p st ∧ k'.currentProcess = k.currentProcess := by
  refine h.invariant (P := fun k' => Newborn k' p st ∧ k'.currentProcess = k.currentProcess)
    ⟨N, rfl⟩ ?_
  rintro l k1 k2 hl ⟨N, hc⟩ he
  cases he with
  | alloc => exact ⟨⟨N.outside, N.current, N.idle, N.stack, N.pcb⟩, hc⟩
  | quantum => exact ⟨⟨N.outside, N.current, N.idle, N.stack, N.pcb⟩, hc⟩
  | manager => exact ⟨⟨N.outside, N.current, N.idle, N.stack, N.pcb⟩, hc⟩
  | update hb _ hs => exact ⟨N.update hb hs, hc⟩
  | children hb _ hs => exact ⟨N.update hb hs, hc⟩
  | semOpened => exact ⟨⟨N.outside, N.current, N.idle, N.stack, N.pcb⟩, hc⟩
  | semUnqueued => exact ⟨⟨N.outside, N.current, N.idle, N.stack, N.pcb⟩, hc⟩
  | stack _ x =>
    refine ⟨⟨N.outside, N.current, N.idle, ?_, N.pcb⟩, hc⟩
    show Function.update k1.stackLive x true p = true
    rcases eq_or_ne p x with rfl | hpx
    · simp
    · simpa [hpx] using N.stack
  | _ => rcases hl with hl | ⟨_, hl⟩ | ⟨_, hl⟩ <;> cases hl

/-- A new process is enqueued, if there is memory for the node. -/
theorem Newborn.enqueue {q : QueueName} {st : State} (N : Newborn k p st)
    (hq : q = .ready ∧ st = .READY ∨ q = .blocked ∧ st = .BLOCKED) :
    Effects (fun l => l = .plain ∨ l = .enter p) k (k.enqueue q p) := by
  obtain ⟨b, hb, rfl⟩ := N.pcb
  unfold Kernel.enqueue Kernel.allocMemory
  dsimp only
  refine Effects.trans (.one (.alloc k) (.inl rfl)) ?_
  split
  · exact .one (.enter N.outside N.idle hb N.stack hq) (.inr rfl)
  · exact .refl

/-- The effects of `createProcess` on the process with the next pid. -/
def Label.Creating (p : Pid) (l : Label) : Prop :=
  l.Counting ∨ l = .create p ∨ l = .discard p ∨ l = .enter p

theorem addUnlessIdle_effects {b : PCB} (N : Newborn k b.pid .READY) (E : Executing k c) :
    Effects (Label.Creating b.pid) k (addUnlessIdle k b) := by
  unfold addUnlessIdle
  split
  · have hadd : addProcess k b.pid = k.enqueue .ready b.pid := by
      unfold addProcess
      rw [if_neg]
      rintro (h | h)
      · rw [E.current] at h
        cases h
      · exact E.notIdle h
    rw [hadd]
    refine (N.enqueue (.inl ⟨rfl, rfl⟩)).mono ?_
    rintro l (rfl | rfl)
    · exact .inl (.inl rfl)
    · exact .inr (.inr (.inr rfl))
  · exact .refl

/-- The two ways a process other than the shell is placed. -/
theorem placeProcess_cases {args : ProcessArgs} {b : PCB} {r : Option Pid} (h2 : b.pid > 1)
    (h : placeProcess k args b = some (k', r)) :
    r = some b.pid ∧
      ((args.foreground = false ∧ args.stdin = TTY) ∧
          k' = (k.setPCB b.pid { b with stdout := args.stdout, state := .BLOCKED }).enqueue
            .blocked b.pid ∨
        ¬ (args.foreground = false ∧ args.stdin = TTY) ∧ ∃ b1 k1, SameWaiting b b1 ∧
          b1.state = b.state ∧
          (if args.foreground ∧ b.parentPid > 0 then countChild (k.setPCB b.pid b1) b.parentPid
            else some (k.setPCB b.pid b1)) = some k1 ∧
          k' = addUnlessIdle k1 b) := by
  unfold placeProcess at h
  rw [if_pos h2] at h
  split at h
  · next hbg =>
    cases h
    exact ⟨rfl, .inl ⟨⟨by simpa using hbg.1, hbg.2⟩, rfl⟩⟩
  · next hfg =>
    obtain ⟨stdin, _, h3⟩ := Option.bind_eq_some_iff.mp h
    obtain ⟨stdout, _, h4⟩ := Option.bind_eq_some_iff.mp h3
    obtain ⟨k1, h5, h6⟩ := Option.bind_eq_some_iff.mp h4
    cases h6
    exact ⟨rfl, .inr ⟨by simpa using hfg, { b with stdin := stdin, stdout := stdout }, k1,
      ⟨⟨⟨⟨rfl, rfl, rfl⟩, rfl⟩, rfl, rfl⟩, rfl⟩, rfl, h5, rfl⟩⟩

theorem placeProcess_effects {args : ProcessArgs} {b : PCB} {r : Option Pid}
    (N : Newborn k b.pid .READY) (E : Executing k c) (hb : k.procs b.pid = some b)
    (h2 : b.pid > 1) (h : placeProcess k args b = some (k', r)) :
    Effects (Label.Creating b.pid) k k' := by
  obtain ⟨b0, hb0, hst⟩ := N.pcb
  obtain rfl := Option.some.inj (hb.symm.trans hb0)
  rcases (placeProcess_cases h2 h).2 with ⟨_, rfl⟩ | ⟨_, b1, k1, hsame, hst1, hcount, rfl⟩
  · have N1 : Newborn (k.setPCB b.pid { b with stdout := args.stdout, state := .BLOCKED }) b.pid
        .BLOCKED := ⟨N.outside, N.current, N.idle, N.stack, _, Function.update_self _ _ _, rfl⟩
    have e0 : Effects (Label.Creating b.pid) k
        (k.setPCB b.pid { b with stdout := args.stdout, state := .BLOCKED }) :=
      .one (.startBlocked N.outside N.current hb ⟨⟨⟨⟨rfl, rfl, rfl⟩, rfl⟩, rfl, rfl⟩, rfl⟩ rfl)
        (.inr (.inl rfl))
    refine e0.trans ((N1.enqueue (.inr ⟨rfl, rfl⟩)).mono ?_)
    rintro l (rfl | rfl)
    · exact .inl (.inl rfl)
    · exact .inr (.inr (.inr rfl))
  · have e0 : Effects Label.Counting k (k.setPCB b.pid b1) :=
      .one (.update hb hsame hst1) (.inl rfl)
    have e1 : Effects Label.Counting k k1 := by
      refine e0.trans ?_
      split at hcount
      · exact countChild_effects hcount
      · cases hcount
        exact .refl
    obtain ⟨N1, hc1⟩ := N.effects e1
    have E1 : Executing k1 c := ⟨hc1.trans E.current, by
      rw [hc1, e1.constant.idle]
      exact E.notIdle⟩
    exact (e1.mono fun l hl => .inl hl).trans (addUnlessIdle_effects N1 E1)

/-- The kernel with the PCB of a new process, once the outcome of the second allocation is
known as well. -/
def withNewPCB (k : Kernel) (args : ProcessArgs) : Kernel :=
  { k.setPCB k.nextPid (newPCB k args) with
    nextPid := k.nextPid + 1, allocs := fun n => k.allocs (n + 2) }

/-- The four ways through `createProcess`. -/
theorem createProcess_cases {args : ProcessArgs} (h : createProcess k args = some (k', flow)) :
    (args.valid = false ∧ k' = k ∨
      args.valid = true ∧ k.allocs 0 = false ∧ k' = k.allocMemory.2 ∨
      (args.valid = true ∧ k.allocs 0 = true) ∧ k.allocs 1 = false ∧
        k' = (withNewPCB k args).freePCB k.nextPid) ∧ flow = .ret (-1) ∨
    (args.valid = true ∧ k.allocs 0 = true ∧ k.allocs 1 = true) ∧
      ∃ r, placeProcess ((withNewPCB k args).setStack k.nextPid true) args (newPCB k args) =
        some (k', r) ∧ flow = .ret (r.getD (-1)) := by
  obtain ⟨⟨k1, r⟩, h1, h2⟩ := Option.bind_eq_some_iff.mp h
  cases h2
  unfold createProcessOnPCB at h1
  split at h1
  · next hvalid =>
    cases h1
    exact .inl ⟨.inl ⟨by simpa using hvalid, rfl⟩, rfl⟩
  · next hvalid =>
    have hvalid : args.valid = true := by simpa using hvalid
    cases ha : k.allocs 0 with
    | false =>
      simp only [Kernel.allocMemory, ha] at h1
      cases h1
      exact .inl ⟨.inr (.inl ⟨hvalid, rfl, rfl⟩), rfl⟩
    | true =>
      simp only [Kernel.allocMemory, ha] at h1
      rw [if_neg (by decide)] at h1
      change (if (!k.allocs 1) = true then some ((withNewPCB k args).freePCB k.nextPid, none)
        else placeProcess ((withNewPCB k args).setStack k.nextPid true) args (newPCB k args)) =
          some _ at h1
      cases ha1 : k.allocs 1 with
      | false =>
        rw [ha1] at h1
        cases h1
        exact .inl ⟨.inr (.inr ⟨⟨hvalid, rfl⟩, rfl, rfl⟩), rfl⟩
      | true =>
        rw [ha1, if_neg (by decide)] at h1
        exact .inr ⟨⟨hvalid, rfl, rfl⟩, r, h1, rfl⟩

theorem createProcess_effects {args : ProcessArgs} (C : Core k) (E : Executing k c)
    (h : createProcess k args = some (k', flow)) :
    Effects (Label.Creating k.nextPid) k k' ∧ ∃ v, flow = .ret v := by
  obtain ⟨hcur, hfg, hidle⟩ := C.nextPid_unused
  let k1 : Kernel := { k with allocs := fun n => k.allocs (n + 1) }
  let k2 : Kernel := { k1.setPCB k.nextPid (newPCB k args) with nextPid := k.nextPid + 1 }
  have e1 : Effects (Label.Creating k.nextPid) k k1 := .one (.alloc k) (.inl (.inl rfl))
  have C1 := C.effects e1
  have e2 : Effects (Label.Creating k.nextPid) k1 k2 :=
    .one (.create ⟨E.current, E.notIdle⟩ rfl rfl rfl (getCurrentPid_eq E.current) rfl)
      (.inr (.inl rfl))
  have e3 : Effects (Label.Creating k.nextPid) k2 (withNewPCB k args) :=
    .one (.alloc k2) (.inl (.inl rfl))
  have e123 := e1.trans (e2.trans e3)
  rcases createProcess_cases h with ⟨⟨_, rfl⟩ | ⟨_, _, rfl⟩ | ⟨_, _, rfl⟩, rfl⟩ | ⟨_, r, hplace, rfl⟩
  · exact ⟨.refl, _, rfl⟩
  · exact ⟨e1, _, rfl⟩
  · refine ⟨e123.trans (.one (.discard C1.nextPid_outside hcur hfg hidle) ?_), _, rfl⟩
    exact .inr (.inr (.inl rfl))
  · have e4 : Effects (Label.Creating k.nextPid) (withNewPCB k args)
        ((withNewPCB k args).setStack k.nextPid true) := .one (.stack _ _) (.inl (.inl rfl))
    have N : Newborn ((withNewPCB k args).setStack k.nextPid true) (newPCB k args).pid .READY :=
      ⟨C1.nextPid_outside, hcur, hidle, Function.update_self _ _ _, newPCB k args,
        Function.update_self _ _ _, rfl⟩
    have hpid : k.nextPid > 1 := Int.lt_of_lt_of_le (by decide) C.nextPid
    refine ⟨e123.trans (e4.trans ?_), _, rfl⟩
    exact placeProcess_effects N ⟨E.current, E.notIdle⟩ (Function.update_self _ _ _) hpid hplace

/-! ## Killing -/

/-- What a death does to the others. -/
def Label.Mourning (l : Label) : Prop :=
  l = .plain ∨ (∃ p, l = .children p) ∨ (∃ id, l = .semClosed id) ∨ (∃ p, l = .unblock p) ∨
    ∃ id, (∃ p, l = .wake id p) ∨ (∃ p, l = .absorb id p) ∨ l = .incr id

theorem Effect.mem_zombie (h : Effect (.die p) k k') : p ∈ k'.queue .zombie := by
  cases h
  simp [Kernel.move, Kernel.setQueue, Kernel.setPCB, Kernel.setStack, Kernel.observe]

/-- Mourning leaves the dead, and the current process, where they are. -/
theorem Effects.mourning (h : Effects Label.Mourning k k') :
    k'.queue .zombie = k.queue .zombie ∧ k'.currentProcess = k.currentProcess := by
  refine h.invariant (P := fun k' => k'.queue .zombie = k.queue .zombie ∧
    k'.currentProcess = k.currentProcess) ⟨rfl, rfl⟩ ?_
  rintro l k1 k2 hl ⟨hz, hc⟩ he
  cases he with
  | _ => first
    | exact ⟨hz, hc⟩
    | simp [Label.Mourning] at hl

/-- The effects on a parent that counts its children. -/
def Label.Uncounting (l : Label) : Prop :=
  (∃ p, l = .children p) ∨ (∃ id, l = .semClosed id) ∨
    ∃ id, (∃ p, l = .wake id p) ∨ (∃ p, l = .absorb id p) ∨ l = .incr id

theorem Label.Uncounting.mourning {l : Label} (h : l.Uncounting) : l.Mourning :=
  .inr (h.imp_right fun h => h.imp_right .inr)

theorem uncountChild_effects (h : uncountChild k parent = some k') :
    Effects Label.Uncounting k k' := by
  unfold uncountChild at h
  split at h
  · cases h
    exact .refl
  · next x hx =>
    obtain ⟨b, hb, h1⟩ := Option.bind_eq_some_iff.mp h
    clear h
    split at h1
    · dsimp only at h1
      have e1 : Effects Label.Uncounting k
          (k.setPCB x { b with childrenCount := b.childrenCount - 1 }) :=
        .one (.children hb ⟨⟨rfl, rfl, rfl⟩, rfl⟩ rfl rfl) (.inl ⟨_, rfl⟩)
      split at h1
      · obtain ⟨⟨k1, f1⟩, h2, h3⟩ := Option.bind_eq_some_iff.mp h1
        obtain ⟨⟨k2, ok2⟩, h4, h5⟩ := Option.bind_eq_some_iff.mp h3
        obtain ⟨b2, hb2, h6⟩ := Option.bind_eq_some_iff.mp h5
        clear h1 h3 h5
        obtain rfl := Option.some.inj h6
        have e2 : Effects Label.Uncounting _ k1 :=
          (semPost_effects h2).mono fun l hl => .inr (.inr ⟨_, hl⟩)
        have e3 : Effects Label.Uncounting k1 k2 :=
          (semClose_effects h4).mono fun l hl => .inr (.inl ⟨_, hl⟩)
        refine e1.trans (e2.trans (e3.trans ?_))
        exact .one (.children hb2 ⟨⟨rfl, rfl, rfl⟩, rfl⟩ rfl rfl) (.inl ⟨_, rfl⟩)
      · obtain rfl := Option.some.inj h1
        exact e1
    · cases h1
      exact .refl

theorem freeChild_effect (hz : p ∈ k.queue .zombie) (h : freeChild k p = some k') :
    Effect (.reap p) k k' := by
  unfold freeChild reapCild at h
  obtain ⟨r, hr, rfl⟩ := Option.map_eq_some_iff.mp h
  obtain ⟨b, _, h1⟩ := Option.bind_eq_some_iff.mp hr
  obtain rfl := Option.some.inj h1
  exact .reap hz

/-- The parent is made ready if it is in the blocked queue and waits for this child. -/
theorem wakeUpWaitingParent_cases {child : Pid} (C : Core k) (hp : parent ≠ 0)
    (h : wakeUpWaitingParent k parent child = some k') :
    k' = k ∧ (∀ b, k.procs parent = some b → b.waitingForPid = child →
        parent ∉ k.queue .blocked) ∨
      Effect (.unblock parent) k k' ∧
        ∃ b, k.procs parent = some b ∧ b.waitingForPid = child := by
  have hin : parent ∈ k.queue .blocked → ∃ b, k.procs parent = some b ∧ b.state = .BLOCKED :=
    fun hb => C.member _ _ hb
  unfold wakeUpWaitingParent at h
  split at h
  · next hm =>
    cases h
    refine .inl ⟨rfl, fun b hb _ _ => ?_⟩
    have hpos := (C.pcb _ _ hb).2.1
    rw [hm] at hpos
    exact absurd hpos (by decide)
  · obtain ⟨i, hi', h1⟩ := Option.bind_eq_some_iff.mp h
    obtain rfl := Option.some.inj (C.idle.symm.trans hi')
    rw [if_neg hp] at h1
    obtain ⟨k1, hk1, h2⟩ := Option.bind_eq_some_iff.mp h1
    obtain rfl := Option.some.inj hk1
    clear h h1 hk1
    split at h2
    · next hnone =>
      cases h2
      refine .inl ⟨rfl, fun _ _ _ hb => ?_⟩
      simp [getProcess, hb] at hnone
    · next x hx =>
      obtain ⟨b, hb, h3⟩ := Option.bind_eq_some_iff.mp h2
      obtain rfl := getProcess_eq hx
      clear h2
      split at h3
      · next hw =>
        obtain ⟨⟨k2, f2⟩, h4, h5⟩ := Option.bind_eq_some_iff.mp h3
        obtain rfl := Option.some.inj h5
        clear h3 h5
        unfold unblockProcess unblockProcessQueue at h4
        obtain ⟨⟨k3, moved⟩, h5, h6⟩ := Option.bind_eq_some_iff.mp h4
        cases h6
        rcases moveProcess_cases (by decide) h5 with ⟨_, rfl, hout⟩ | ⟨_, hp, b', hb', rfl⟩
        · exact .inl ⟨rfl, fun _ _ _ => hout⟩
        · exact .inr ⟨.unblock hp hb' (.state b' _) rfl, b, hb, hw.2⟩
      · next hw =>
        cases h3
        refine .inl ⟨rfl, fun b' hb' hc hq => hw ⟨?_, ?_⟩⟩
        · obtain ⟨b0, hb0, hs⟩ := hin hq
          rwa [Option.some.inj (hb.symm.trans hb0)]
        · rwa [Option.some.inj (hb.symm.trans hb')]

theorem switchProcessFromQueues_cases {f : QueueName}
    (h : switchProcessFromQueues k f .zombie p = some k') (hf : f ≠ .zombie) :
    p ∈ k.queue f ∧ k' = (k.setQueue f ((k.queue f).erase p)).setQueue .zombie
      (k.queue .zombie ++ [p]) := by
  unfold switchProcessFromQueues at h
  split at h
  · next hp =>
    refine ⟨hp, (Option.some.inj h).symm.trans ?_⟩
    simp [Kernel.setQueue, hf.symm]
  · cases h

theorem switchProcessFromQueues_none {f t : QueueName}
    (h : switchProcessFromQueues k f t p = none) : p ∉ k.queue f := by
  unfold switchProcessFromQueues at h
  split at h
  · cases h
  · assumption

/-- `killProcess` finds the process in one of three queues, and the stack is freed. -/
theorem killProcess_cases {r : Nat} (hcur : k.currentProcess = some p → p ∈ k.queue .ready)
    (h : killProcess k p r .ZOMBIE = some (k', ok)) :
    ok = false ∧ k' = k ∧ (∀ q, q ≠ .zombie → p ∉ k.queue q) ∨
      ok = true ∧ Effect (.die p) k (k'.setStack p false) := by
  unfold killProcess at h
  dsimp only at h
  split at h
  · next hnone =>
    cases h
    obtain ⟨h1, h23⟩ := Option.or_eq_none_iff.mp hnone
    obtain ⟨h2, h3⟩ := Option.or_eq_none_iff.mp h23
    have hout : ∀ q, q ≠ .zombie → p ∉ (leaveCurrent k p).queue q := by
      intro q hq
      cases q with
      | ready => exact switchProcessFromQueues_none h1
      | blocked => exact switchProcessFromQueues_none h2
      | blockedBySem => exact switchProcessFromQueues_none h3
      | zombie => exact absurd rfl hq
    have hne : k.currentProcess ≠ some p := fun hc => hout .ready (by decide) (hcur hc)
    exact .inl ⟨rfl, by simp [leaveCurrent, hne], hout⟩
  · next k1 hk1 =>
    obtain ⟨b, hb, h1⟩ := Option.bind_eq_some_iff.mp h
    cases h1
    have hdie : ∀ {f : QueueName}, f ≠ .zombie →
        switchProcessFromQueues (leaveCurrent k p) f .zombie p = some k1 →
        Effect (.die p) k ((((leaveForeground k1 p).setPCB p
          { b with retValue := r, state := .ZOMBIE }).observe
            (.killed p b.parentPid r)).setStack p false) := by
      intro f hf hsw
      obtain ⟨hp, rfl⟩ := switchProcessFromQueues_cases hsw hf
      exact .die hp hf hb ⟨⟨⟨⟨rfl, rfl, rfl⟩, rfl⟩, rfl, rfl⟩, rfl⟩ rfl
    refine .inr ⟨rfl, ?_⟩
    rcases Option.or_eq_some_iff.mp hk1 with h1 | ⟨_, h1⟩
    · exact hdie (by decide) h1
    · rcases Option.or_eq_some_iff.mp h1 with h2 | ⟨_, h2⟩
      · exact hdie (by decide) h2
      · exact hdie (by decide) h2

theorem uncountParent_effects {b : PCB}
    (h : (if b.parentPid > 0 ∧ b.foreground then uncountChild k b.parentPid else some k) = some k') :
    Effects Label.Uncounting k k' := by
  split at h
  · exact uncountChild_effects h
  · cases h
    exact .refl

theorem wakeUpWaitingParent_effects {child : Pid} (C : Core k) (hp : parent ≠ 0)
    (h : wakeUpWaitingParent k parent child = some k') :
    Effects (fun l => l = .unblock parent) k k' := by
  rcases wakeUpWaitingParent_cases C hp h with ⟨rfl, _⟩ | ⟨he, _⟩
  · exact .refl
  · exact .one he rfl

theorem Label.Mourning.unblock {l : Label} (h : l = .unblock p) : l.Mourning :=
  .inr (.inr (.inr (.inl ⟨p, h⟩)))

/-- The parts of a kill: a death, what it does to the parent, and the end of the PCB. It
ends in `callTimerTick` when the victim is the caller. -/
theorem kill_parts {r : Nat} (C : Core k) (hcp : k.currentPid = c)
    (hcur : k.currentProcess = some p → p ∈ k.queue .ready ∨ p = 0)
    (h : kill k p r = some (k', flow)) :
    k' = k ∧ flow = .ret (-1) ∧ (2 ≤ p → ∀ q, q ≠ .zombie → p ∉ k.queue q) ∨
      2 ≤ p ∧ ∃ k1 k2 k3 k4 b, Effect (.die p) k k1 ∧ k1.procs p = some b ∧
        (if b.parentPid > 0 ∧ b.foreground then uncountChild k1 b.parentPid else some k1) =
          some k2 ∧
        wakeUpWaitingParent k2 b.parentPid p = some k3 ∧ Effect (.reap p) k3 k4 ∧
        (p = c ∧ k' = { k4 with quantum := 0 } ∧ flow = .tick ∨
          p ≠ c ∧ k' = k4 ∧ flow = .ret 0) := by
  unfold kill at h
  split at h
  · next hp1 =>
    cases h
    exact .inl ⟨rfl, rfl, fun h2 => absurd hp1 (Int.not_le.mpr h2)⟩
  · next hp1 =>
    have h2 : 2 ≤ p := Int.lt_of_not_ge hp1
    have hready : k.currentProcess = some p → p ∈ k.queue .ready := by
      intro hc
      rcases hcur hc with hr | rfl
      · exact hr
      · exact absurd h2 (by decide)
    obtain ⟨⟨k1, found⟩, h3, h4⟩ := Option.bind_eq_some_iff.mp h
    clear h
    rcases killProcess_cases hready h3 with ⟨rfl, rfl, hout⟩ | ⟨rfl, hdie⟩
    · cases h4
      exact .inl ⟨rfl, rfl, fun _ => hout⟩
    · obtain ⟨b, hb, h5⟩ := Option.bind_eq_some_iff.mp h4
      obtain ⟨k2, h6, h7⟩ := Option.bind_eq_some_iff.mp h5
      obtain ⟨k3, h8, h9⟩ := Option.bind_eq_some_iff.mp h7
      obtain ⟨b3, hb3, h10⟩ := Option.bind_eq_some_iff.mp h9
      obtain ⟨i, hi, h11⟩ := Option.bind_eq_some_iff.mp h10
      obtain ⟨k4, h12, h13⟩ := Option.bind_eq_some_iff.mp h11
      clear h4 h5 h7 h9 h10 h11
      have C1 := C.effect hdie
      have e2 : Effects Label.Mourning (k1.setStack p false) k2 :=
        (uncountParent_effects h6).mono fun _ => Label.Uncounting.mourning
      have C2 := C1.effects e2
      have e3 : Effects Label.Mourning k2 k3 :=
        (wakeUpWaitingParent_effects C2 (C1.parent p b hb h2) h8).mono fun _ => .unblock
      have C3 := C2.effects e3
      obtain rfl := Option.some.inj (C3.idle.symm.trans hi)
      rw [if_pos (C3.parent p b3 hb3 h2)] at h12
      have hz : p ∈ k3.queue .zombie := by
        rw [(e2.trans e3).mourning.1]
        exact hdie.mem_zombie
      have hreap := freeChild_effect hz h12
      refine .inr ⟨h2, _, k2, k3, k4, b, hdie, hb, h6, h8, hreap, ?_⟩
      have hpid : k4.currentPid = c := by
        rw [hreap.constant.currentPid, (e2.trans e3).constant.currentPid,
          hdie.constant.currentPid, hcp]
      split at h13
      · next hpc =>
        cases h13
        exact .inl ⟨hpc.trans hpid, rfl, rfl⟩
      · next hpc =>
        cases h13
        exact .inr ⟨fun h => hpc (h.trans hpid.symm), rfl, rfl⟩

/-- A kill has no effect, or it is a death, its consequences, and the end of the PCB. -/
theorem kill_cases {r : Nat} (C : Core k) (hcp : k.currentPid = c)
    (hcur : k.currentProcess = some p → p ∈ k.queue .ready ∨ p = 0)
    (h : kill k p r = some (k', flow)) :
    k' = k ∧ flow = .ret (-1) ∧ (2 ≤ p → ∀ q, q ≠ .zombie → p ∉ k.queue q) ∨
      2 ≤ p ∧ ∃ k1 k2 k3, Effect (.die p) k k1 ∧ Effects Label.Mourning k1 k2 ∧
        Effect (.reap p) k2 k3 ∧
        (p = c ∧ k' = { k3 with quantum := 0 } ∧ flow = .tick ∨
          p ≠ c ∧ k' = k3 ∧ flow = .ret 0) := by
  rcases kill_parts C hcp hcur h with
    hnone | ⟨h2, k1, k2, k3, k4, b, hdie, hb, hparent, hwake, hreap, hend⟩
  · exact .inl hnone
  · have e2 : Effects Label.Mourning k1 k2 :=
      (uncountParent_effects hparent).mono fun _ => Label.Uncounting.mourning
    have C1 := C.effect hdie
    have e3 : Effects Label.Mourning k2 k3 :=
      (wakeUpWaitingParent_effects (C1.effects e2) (C1.parent p b hb h2) hwake).mono
        fun _ => .unblock
    exact .inr ⟨h2, k1, k3, k4, hdie, e2.trans e3, hreap, hend⟩

/-- The effects of `kill(p, _)`. -/
def Label.Killing (p : Pid) (l : Label) : Prop := l = .die p ∨ l = .reap p ∨ l.Mourning

/-- The dead leave the zombie queue in the call that kills them. -/
theorem kill_zombie {r : Nat} (C : Core k) (hcp : k.currentPid = c)
    (hcur : k.currentProcess = some p → p ∈ k.queue .ready ∨ p = 0)
    (hz : k.queue .zombie = []) (h : kill k p r = some (k', flow)) : k'.queue .zombie = [] := by
  rcases kill_cases C hcp hcur h with ⟨rfl, _⟩ | ⟨_, k1, k2, k3, hdie, hmourn, hreap, hend⟩
  · exact hz
  · have h1 : k1.queue .zombie = [p] := by
      cases hdie with
      | @die _ _ f _ b' hp hq =>
        show (k.move f .zombie p b').queue .zombie = [p]
        rw [move_queue_to, hz, List.nil_append]
    have h3 : k3.queue .zombie = [] := by
      cases hreap
      show Function.update k2.queue .zombie _ .zombie = []
      rw [Function.update_self, hmourn.mourning.1, h1]
      exact List.erase_cons_head _ _
    rcases hend with ⟨_, rfl, _⟩ | ⟨_, rfl, _⟩
    · exact h3
    · exact h3

theorem kill_ends {r : Nat} (C : Core k) (hcp : k.currentPid = c)
    (hcur : k.currentProcess = some p → p ∈ k.queue .ready ∨ p = 0)
    (h : kill k p r = some (k', flow)) :
    Ends (fun l => 2 ≤ p ∧ l.Killing p) c k k' flow := by
  rcases kill_cases C hcp hcur h with ⟨rfl, rfl, _⟩ |
    ⟨h2, k1, k2, k3, hdie, hmourn, hreap, ⟨rfl, rfl, rfl⟩ | ⟨hpc, rfl, rfl⟩⟩
  · exact .refl
  · refine .of_tick ?_ rfl
    have hm : Effects (fun l => 2 ≤ p ∧ l.Killing p) k1 k2 :=
      hmourn.mono fun l hl => ⟨h2, .inr (.inr hl)⟩
    exact (Effects.one hdie ⟨h2, .inl rfl⟩).trans (hm.trans
      ((Effects.one hreap ⟨h2, .inr (.inl rfl)⟩).trans
        (.one (.quantum _ 0) ⟨h2, .inr (.inr (.inl rfl))⟩)))
  · have hm : Effects (fun l => (2 ≤ p ∧ l.Killing p) ∧ ¬ l.Suspends c) k1 k2 :=
      hmourn.mono fun l hl => ⟨⟨h2, .inr (.inr hl)⟩, by
        rcases hl with rfl | ⟨_, rfl⟩ | ⟨_, rfl⟩ | ⟨_, rfl⟩ | ⟨_, ⟨_, rfl⟩ | ⟨_, rfl⟩ | rfl⟩ <;>
          exact not_false⟩
    exact .of_ret ((Effects.one hdie ⟨⟨h2, .inl rfl⟩, hpc⟩).trans (hm.trans
      (.one hreap ⟨⟨h2, .inr (.inl rfl)⟩, not_false⟩)))

/-! ## Waiting for processes -/

theorem setPCB_move {f t : QueueName} {b b' : PCB} :
    (k.setPCB p b).move f t p b' = k.move f t p b' := by
  simp [Kernel.move, Kernel.setPCB, Kernel.setQueue]

/-- Nobody is a zombie. -/
theorem Core.no_zombie {b : PCB} (C : Core k) (hz : k.queue .zombie = []) (hb : k.procs p = some b) :
    b.state.beforeZombie = true :=
  C.plain p b hb (by simp [hz])

/-- The caller `c` of `waitpid(p)` is blocked: `p` is there, and is its child, or one it has
waited for before. -/
def StartsWaiting (k : Kernel) (c p : Pid) (k' : Kernel) : Prop :=
  ∃ b t, k.procs c = some b ∧ k.procs p = some t ∧ getProcess k p = some p ∧
    (t.parentPid = c ∨ b.waitingForPid = p) ∧
    k' = { k.move .ready .blocked c { b with waitingForPid := p, state := .BLOCKED } with
      quantum := 0 }

/-- `waitpid` fails, or blocks its caller. -/
theorem waitpid_cases {r : WaitFlow} (C : Core k) (hz : k.queue .zombie = [])
    (hc : k.currentProcess = some c) (hr : c ∈ k.queue .ready)
    (h : waitpid k p = some (k', r)) :
    k' = k ∧ r = .ret (-1) none ∨
      r = .tick ∧ k'.quantum = 0 ∧ Effects (fun l => l = .plain ∨ l = .block c) k k' ∧
        StartsWaiting k c p k' := by
  unfold waitpid at h
  rw [getCurrentPid_eq hc] at h
  dsimp only at h
  split at h
  · cases h
    exact .inl ⟨rfl, rfl⟩
  · split at h
    · cases h
      exact .inl ⟨rfl, rfl⟩
    · next _ _ hx _ y hy =>
      obtain rfl := (getProcess_eq hx).symm
      obtain rfl := getProcess_eq hy
      obtain ⟨t, ht, h1⟩ := Option.bind_eq_some_iff.mp h
      obtain ⟨b, hb, h2⟩ := Option.bind_eq_some_iff.mp h1
      clear h h1
      have htz := C.no_zombie hz ht
      split at h2
      · cases h2
        exact .inl ⟨rfl, rfl⟩
      · next hchild =>
        have hne : t.state ≠ .ZOMBIE := by
          rintro hs
          rw [hs] at htz
          cases htz
        rw [if_neg hne] at h2
        obtain ⟨⟨k1, flow⟩, h3, h4⟩ := Option.bind_eq_some_iff.mp h2
        clear h2
        rcases blockProcess_cases (k := k.setPCB y _) hc h3 with ⟨_, _, hs⟩ | ⟨_, b1, hb1, hk1⟩
        · cases C.queue_eq hr (hs hr)
        · rcases hk1 with ⟨_, rfl, rfl⟩ | ⟨hne, _⟩
          · cases h4
            rw [setPCB_procs, Function.update_self] at hb1
            obtain rfl := Option.some.inj hb1
            rw [setPCB_move]
            refine .inr ⟨rfl, rfl, ?_, b, t, hb, ht, hx, ?_, rfl⟩
            swap
            · by_contra hn
              exact hchild (not_or.mp hn)
            have hblock : Effects (fun l => l = .plain ∨ l = .block y) k
                (k.move .ready .blocked y { b with waitingForPid := p, state := .BLOCKED }) :=
              .one (.block hr hb ⟨⟨⟨rfl, rfl, rfl⟩, rfl⟩, rfl, rfl⟩ rfl) (.inr rfl)
            exact hblock.trans (.one (.quantum _ 0) (.inl rfl))
          · exact absurd rfl hne

/-- The second half of `waitpid` always fails. -/
theorem waitpidResumed_eq {r : WaitFlow} (C : Core k) (hz : k.queue .zombie = [])
    (h : waitpidResumed k c p = some (k', r)) : k' = k ∧ r = .ret (-1) none := by
  unfold waitpidResumed at h
  split at h
  · cases h
    exact ⟨rfl, rfl⟩
  · obtain ⟨t, ht, h1⟩ := Option.bind_eq_some_iff.mp h
    have htz := C.no_zombie hz ht
    rw [if_neg (by rintro h; rw [h] at htz; cases htz)] at h1
    cases h1
    exact ⟨rfl, rfl⟩

theorem changePrio_effects {n : Int} (h : changePrio k p n = some (k', flow)) :
    Effects (fun l => l = .plain) k k' ∧ ∃ v, flow = .ret v := by
  unfold changePrio at h
  dsimp only at h
  split at h
  · cases h
    exact ⟨.refl, _, rfl⟩
  · split at h
    · cases h
      exact ⟨.refl, _, rfl⟩
    · obtain ⟨b, hb, h1⟩ := Option.bind_eq_some_iff.mp h
      cases h1
      exact ⟨.one (.update hb ⟨⟨⟨⟨rfl, rfl, rfl⟩, rfl⟩, rfl, rfl⟩, rfl⟩ rfl) rfl, _, rfl⟩

end SoKernel
