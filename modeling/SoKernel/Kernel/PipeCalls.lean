import SoKernel.Kernel.PipeTable

/-!
# Opening and closing pipes

Results:
1. `pipeClose_iff`: which pipes `pipeClose` closes.
2. `createPipe_iff`: when `createPipe` succeeds.
3. `createPipe_fails_iff`: when a `createPipe` that fails changes nothing.
-/

namespace SoKernel

/-! ## Closing -/

/-- The number of open pipes. -/
def openPipeCount (k : Kernel) : Nat := (List.range maxPipes).countP fun i => (k.pipes i).isOpen

/-- `pipeClose` succeeds, closes this pipe and its semaphores, and no other pipe. -/
def ClosesExactly (k : Kernel) (id : Int) (slot : Nat) : Prop :=
  ∃ k', pipeClose k id = some (k', true) ∧ (k'.pipes slot).isOpen = false ∧
    (∀ i ∈ (k.pipes slot).sems, (k'.sems i).used = false) ∧
    (∀ j, j ≠ slot → k'.pipes j = k.pipes j) ∧ openPipeCount k' + 1 = openPipeCount k

section Closing

variable {allocs : Nat → Bool} {k k' : Kernel} {slot : Nat} {id : Int} {m : Machine}
  {ok : Bool}

theorem semIdOk_range (hid : Machine.SemIdOk id) : ¬ (id < 0 ∨ id ≥ numSems) := by
  rintro (h | h)
  · exact absurd hid.1 (Int.not_le.mpr h)
  · exact absurd hid.2 (Int.not_lt.mpr h)

theorem semClose_manager (h : semClose k id = some (k', ok)) (hid : Machine.SemIdOk id) :
    k.semManager = true := by
  unfold semClose at h
  rw [if_neg (semIdOk_range hid)] at h
  obtain ⟨s, hs, _⟩ := Option.bind_eq_some_iff.mp h
  unfold accessSem at hs
  split at hs
  · next hm => exact hm.1
  · cases hs

/-- `semClose` leaves the semaphore unused and touches no other. -/
theorem semClose_total (T : SemTable k) (hm : k.semManager = true) (hid : Machine.SemIdOk id) :
    ∃ k' ok, semClose k id = some (k', ok) ∧ SemTable k' ∧ k'.semManager = true ∧
      k'.pipes = k.pipes ∧ (k'.sems id).used = false ∧
      ∀ i, (k.sems i).used = false → (k'.sems i).used = false := by
  have hclose : ∀ b : SemQueue,
      (∀ i, (k.sems i).used = false → ((k.setSem id ⟨0, false, false, b⟩).sems i).used = false) ∧
        ((k.setSem id ⟨0, false, false, b⟩).sems id).used = false := by
    intro b
    refine ⟨fun i hi => ?_, by simp [Kernel.setSem]⟩
    rcases eq_or_ne i id with rfl | hne
    · simp [Kernel.setSem]
    · simpa [Kernel.setSem, hne] using hi
  have hsem : accessSem k id = some (k.sems id) := by simp [accessSem, hm, hid.1, hid.2]
  unfold semClose
  rw [if_neg (semIdOk_range hid), hsem]
  cases hu : (k.sems id).used with
  | false => exact ⟨k, false, by simp [hu], T, hm, rfl, hu, fun _ h => h⟩
  | true =>
    have hset : ∀ b, SemTable (k.setSem id ⟨0, false, false, b⟩) :=
      fun b => T.setSem fun h => by cases h
    cases hb : (k.sems id).blocked with
    | freed => exact absurd hb (T.queue id hu)
    | null => exact ⟨_, true, by simp [hu, hb]; rfl, hset _, hm, rfl, (hclose _).2, (hclose _).1⟩
    | live pids => exact ⟨_, true, by simp [hu, hb]; rfl, hset _, hm, rfl, (hclose _).2, (hclose _).1⟩

theorem openPipeCount_close (hlt : slot < maxPipes) (ho : (k.pipes slot).isOpen = true)
    (hc : (k'.pipes slot).isOpen = false) (hrest : ∀ j, j ≠ slot → k'.pipes j = k.pipes j) :
    openPipeCount k' + 1 = openPipeCount k := by
  have hmem : slot ∈ List.range maxPipes := List.mem_range.mpr hlt
  have hperm := List.perm_cons_erase hmem
  have hrest : ((List.range maxPipes).erase slot).countP (fun i => (k'.pipes i).isOpen) =
      ((List.range maxPipes).erase slot).countP fun i => (k.pipes i).isOpen := by
    refine List.countP_congr fun i hi => ?_
    have hne : i ≠ slot := ((List.nodup_range).mem_erase_iff.mp hi).1
    rw [hrest i hne]
  unfold openPipeCount
  rw [hperm.countP_eq, hperm.countP_eq, List.countP_cons, List.countP_cons, hrest]
  simp [ho, hc]

theorem pipeIdCheck_of_handle (hid : id = pipeHandle slot) (h3 : 2 < slot) (hlt : slot < 14)
    (ho : (k.pipes slot).isOpen = true) : pipeIdCheck k id = some slot := by
  obtain rfl : id = slot + 2 := by
    rw [hid, pipeHandle, if_neg (Nat.ne_of_gt (Nat.lt_trans Nat.zero_lt_two h3))]
  have hrange : ¬ ((slot : Int) + 2 < 0 ∨ (slot : Int) + 2 ≥ maxPipes) := by
    unfold maxPipes
    omega
  have hdecode : (if (slot : Int) + 2 > 2 then (slot : Int) + 2 - 2 else slot + 2).toNat = slot := by
    rw [if_pos (by omega)]
    omega
  unfold pipeIdCheck
  rw [if_neg hrange]
  simp only [hdecode, ho, if_true]

/-- `pipeClose` refuses the ids 3 and 4, whose slots it takes for reserved ids, and 16
and 17, whose slots its range test does not reach. -/
theorem pipeClose_iff (h : Reach allocs Run.anyEvent m) (hh : handles m.k.log id = some slot) :
    ClosesExactly m.k id slot ↔ 5 ≤ id ∧ id ≤ 15 ∧ m.k.semManager = true := by
  obtain ⟨T, P⟩ := h.tables
  obtain ⟨hid, hlt, ho, hsems⟩ := P.handle id slot hh
  have hi := h.pipeManagerInit
  constructor
  · rintro ⟨k', hclose, _⟩
    unfold pipeClose at hclose
    rw [ensurePipeManagerInit_eq hi] at hclose
    dsimp only at hclose
    split at hclose
    · cases hclose
    · next i hcheck =>
      have hrange := (Machine.pipeIdCheck_some hcheck).1
      split at hclose
      · cases hclose
      · next h2 =>
        have hidi := pipeIdCheck_handle hcheck (Nat.not_le.mp h2)
        obtain ⟨⟨k1, ok1⟩, h1, _⟩ := Option.bind_eq_some_iff.mp hclose
        obtain rfl : i = slot := by
          rw [hidi, pipeHandle] at hid
          split at hid <;> omega
        refine ⟨?_, ?_, semClose_manager h1 (hsems _ List.mem_cons_self)⟩
        · omega
        · have hlt : id < 16 := by
            unfold pipeIdCheck at hcheck
            split at hcheck
            · cases hcheck
            · next hid16 => exact Int.not_le.mp fun h => hid16 (.inr h)
          exact Int.lt_add_one_iff.mp hlt
  · rintro ⟨h5, h15, hm⟩
    have hslot : id = slot + 2 ∧ 2 < slot ∧ slot < 14 := by
      rw [pipeHandle] at hid
      split at hid <;> omega
    have hcheck := pipeIdCheck_of_handle hid hslot.2.1 hslot.2.2 ho
    have hr := hsems _ (List.mem_cons_self : (m.k.pipes slot).semReaders ∈ (m.k.pipes slot).sems)
    have hw : Machine.SemIdOk (m.k.pipes slot).semWriters := hsems _ (by simp [Pipe.sems])
    have hx : Machine.SemIdOk (m.k.pipes slot).mutex := hsems _ (by simp [Pipe.sems])
    obtain ⟨k1, ok1, e1, T1, m1, p1, u1, _⟩ := semClose_total T hm hr
    obtain ⟨k2, ok2, e2, T2, m2, p2, u2, n2⟩ := semClose_total T1 m1 hw
    obtain ⟨k3, ok3, e3, _, _, p3, u3, n3⟩ := semClose_total T2 m2 hx
    have hpipes : k3.pipes = m.k.pipes := p3.trans (p2.trans p1)
    have hclose : pipeClose m.k id = some ((k3.setPipe slot { m.k.pipes slot with
        readIdx := 0, writeIdx := 0, count := 0, isOpen := false, semReaders := -1,
        semWriters := -1, mutex := -1 }).observe (.pipeClosed slot id), true) := by
      unfold pipeClose
      rw [ensurePipeManagerInit_eq hi]
      simp only [hcheck, if_neg (Nat.not_le.mpr hslot.2.1), e1, e2, e3, Option.bind_eq_bind,
        Option.bind_some]
    have hother : ∀ j, j ≠ slot → (((k3.setPipe slot { m.k.pipes slot with
        readIdx := 0, writeIdx := 0, count := 0, isOpen := false, semReaders := -1,
        semWriters := -1, mutex := -1 }).observe (.pipeClosed slot id)).pipes j) = m.k.pipes j := by
      intro j hj
      simp [Kernel.setPipe, Kernel.observe, hj, hpipes]
    refine ⟨_, hclose, by simp [Kernel.setPipe, Kernel.observe], fun i hi => ?_, hother,
      openPipeCount_close hlt ho (by simp [Kernel.setPipe, Kernel.observe]) hother⟩
    simp only [Pipe.sems, List.mem_cons, List.not_mem_nil, or_false] at hi
    rcases hi with rfl | rfl | rfl
    · exact n3 _ (n2 _ u1)
    · exact n3 _ u2
    · exact u3

/-- The shell opens three pipes. -/
theorem threePipes_run :
    ∃ m, Run.exec Machine.step Run.anyEvent (boot fun _ => true)
        (.tick 0 :: List.replicate 3 (.call 0 .openPipe)) = some m ∧
      Reach (fun _ => true) Run.anyEvent m ∧ handles m.k.log 5 = some 3 ∧ m.k.semManager = true :=
  Run.exists_exec (by decide +kernel)

theorem pipeClose_iff_five : ∃ m, Reach (fun _ => true) Run.anyEvent m ∧
    handles m.k.log 5 = some 3 ∧ ClosesExactly m.k 5 3 := by
  obtain ⟨m, _, hm, hh, hs⟩ := threePipes_run
  exact ⟨m, hm, hh, (pipeClose_iff hm hh).mpr ⟨by decide, by decide, hs⟩⟩

/-- The first pipe the shell opens cannot be closed. -/
theorem pipeClose_refuses_three :
    ∃ m, Run.exec Machine.step Run.anyEvent (boot fun _ => true)
        [.tick 0, .call 0 .openPipe, .call 0 (.closePipe 3)] = some m ∧
      Reach (fun _ => true) Run.anyEvent m ∧ handles m.k.log 3 = some 1 ∧
      (m.k.pipes 1).isOpen = true ∧ (pipeClose m.k 3).map Prod.snd = some false ∧
      ¬ ClosesExactly m.k 3 1 := by
  obtain ⟨m, he, hm, hh, ho, hc⟩ :
      ∃ m, Run.exec Machine.step Run.anyEvent (boot fun _ => true)
          [.tick 0, .call 0 .openPipe, .call 0 (.closePipe 3)] = some m ∧
        Run Machine.step Run.anyEvent (boot fun _ => true) m ∧ handles m.k.log 3 = some 1 ∧
        (m.k.pipes 1).isOpen = true ∧ (pipeClose m.k 3).map Prod.snd = some false :=
    Run.exists_exec (by decide +kernel)
  refine ⟨m, he, hm, hh, ho, hc, ?_⟩
  rintro ⟨k', hclose, _⟩
  rw [hclose] at hc
  cases hc

end Closing

/-! ## Opening -/

/-- `createPipe` returns an id, and the semaphores of the pipe were unused and belong to
no other pipe and no process. -/
def CreatesOwn (k : Kernel) : Prop :=
  ∃ k' id slot, createPipe k = some (k', id) ∧ 0 ≤ id ∧ id = pipeHandle slot ∧
    (k'.pipes slot).isOpen = true ∧
    ∀ i ∈ (k'.pipes slot).sems, (k.sems i).used = false ∧
      (∀ j, j ≠ slot → (k.pipes j).isOpen = true → i ∉ (k.pipes j).sems) ∧
      ∀ p b, k.procs p = some b → b.childrenSem ≠ i

/-- The ids that the counter of the pipe manager gives next are ids, and free. -/
structure NextIdsFree (k : Kernel) : Prop where
  range : k.nextSemId + 2 < numSems
  unused : ∀ i, k.nextSemId ≤ i → i ≤ k.nextSemId + 2 → (k.sems i).used = false
  unowned : ∀ i, k.nextSemId ≤ i → i ≤ k.nextSemId + 2 →
    ∀ p b, k.procs p = some b → b.childrenSem ≠ i

/-- The state of the pipe table that a failing `createPipe` is to leave alone. -/
structure SameTables (k k' : Kernel) : Prop where
  isOpen : ∀ i < maxPipes, (k'.pipes i).isOpen = (k.pipes i).isOpen
  used : ∀ i, (k'.sems i).used = (k.sems i).used
  /-- The slot a later `createPipe` takes. -/
  next : ((List.range maxPipes).find? fun i => !(k'.pipes i).isOpen) =
    (List.range maxPipes).find? fun i => !(k.pipes i).isOpen

section Opening

variable {allocs : Nat → Bool} {k k' : Kernel} {slot v : Nat} {id n : Int} {m : Machine} {ok : Bool}

/-- `semInit` with memory. -/
theorem semInit_ok (hm : k.semManager = true) (ha : k.allocs 0 = true) (hid : Machine.SemIdOk id)
    (hu : (k.sems id).used = false) : ∃ k', semInit k id v = some (k', true) ∧
      k'.semManager = true ∧ (∀ i, k'.allocs i = k.allocs (i + 1)) ∧
      ∀ i, i ≠ id → k'.sems i = k.sems i := by
  have hsem : accessSem k id = some (k.sems id) := by simp [accessSem, hm, hid.1, hid.2]
  have hinit : semInit k id v = some ((({ k with allocs := fun n => k.allocs (n + 1) }).setSem id
      { value := v, lock := false, used := true, blocked := .live [] }).observe (.opened id v),
      true) := by
    unfold semInit
    rw [if_neg (semIdOk_range hid), hsem]
    simp [hu, Kernel.allocMemory, ha]
  refine ⟨_, hinit, hm, fun i => rfl, fun i hi => ?_⟩
  simp [Kernel.setSem, Kernel.observe, hi]

theorem semInit_true (h : semInit k id v = some (k', true)) :
    Machine.SemIdOk id ∧ (k.sems id).used = false := by
  rcases semInit_cases h with ⟨h, _⟩ | ⟨hid, hu, _⟩
  · cases h
  · exact ⟨hid, hu⟩

/-- The three `semInit` of `createPipe` succeed when their ids are free. -/
theorem pipeSems_ok (hm : k.semManager = true) (ha : ∀ i < 3, k.allocs i = true)
    (hid : 0 ≤ n ∧ n + 2 < numSems)
    (hu : ∀ i, n ≤ i → i ≤ n + 2 → (k.sems i).used = false) :
    ∃ k', semInits (pipeSems n) k = some (k', true) := by
  have hrange : ∀ i, n ≤ i → i ≤ n + 2 → Machine.SemIdOk i :=
    fun i h h' => ⟨Int.le_trans hid.1 h, Int.lt_of_le_of_lt h' hid.2⟩
  obtain ⟨k1, e1, m1, a1, s1⟩ := @semInit_ok k 0 n hm (ha 0 (by decide))
    (hrange n (by omega) (by omega)) (hu n (by omega) (by omega))
  have u2 : (k1.sems (n + 1)).used = false := by
    rw [s1 _ (by omega)]
    exact hu _ (by omega) (by omega)
  obtain ⟨k2, e2, m2, a2, s2⟩ := @semInit_ok k1 pipeBufferSize (n + 1) m1
    ((a1 0).trans (ha 1 (by decide))) (hrange _ (by omega) (by omega)) u2
  have u3 : (k2.sems (n + 2)).used = false := by
    rw [s2 _ (by omega), s1 _ (by omega)]
    exact hu _ (by omega) (by omega)
  obtain ⟨k3, e3, _⟩ := @semInit_ok k2 1 (n + 2) m2
    ((a2 0).trans ((a1 1).trans (ha 2 (by decide)))) (hrange _ (by omega) (by omega)) u3
  refine ⟨k3, ?_⟩
  simp only [pipeSems, semInits, e1, e2, e3, Option.bind_eq_bind, Option.bind_some, if_true]

/-- And only while the table of semaphores is there. -/
theorem semInit_manager (h : semInit k id v = some (k', true)) : k.semManager = true := by
  unfold semInit at h
  split at h
  · cases h
  · obtain ⟨sem, hsem, _⟩ := Option.bind_eq_some_iff.mp h
    exact (accessSem_manager hsem).1

theorem pipeSems_manager (h : semInits (pipeSems n) k = some (k', true)) :
    k.semManager = true := by
  obtain ⟨⟨k1, ok1⟩, h1, h⟩ := Option.bind_eq_some_iff.mp h
  cases ok1 with
  | false => cases h
  | true => exact semInit_manager h1

/-- The three ids were free. -/
theorem pipeSems_true (h : semInits (pipeSems n) k = some (k', true)) :
    0 ≤ n ∧ n + 2 < numSems ∧ ∀ i, n ≤ i → i ≤ n + 2 → (k.sems i).used = false := by
  obtain ⟨⟨k1, ok1⟩, h1, h⟩ := Option.bind_eq_some_iff.mp h
  cases ok1 with
  | false => cases h
  | true =>
    obtain ⟨⟨k2, ok2⟩, h2, h⟩ := Option.bind_eq_some_iff.mp h
    cases ok2 with
    | false => cases h
    | true =>
      obtain ⟨⟨k3, ok3⟩, h3, h⟩ := Option.bind_eq_some_iff.mp h
      cases ok3 with
      | false => cases h
      | true =>
        obtain ⟨r1, u1⟩ := semInit_true h1
        obtain ⟨r2, u2⟩ := semInit_true h2
        obtain ⟨r3, u3⟩ := semInit_true h3
        have s1 := (semInit_kept h1).2.2.2.1
        have s2 := (semInit_kept h2).2.2.2.1
        refine ⟨r1.1, r3.2, fun i hlo hhi => ?_⟩
        have hi : i = n ∨ i = n + 1 ∨ i = n + 2 := by omega
        rcases hi with rfl | rfl | rfl
        · exact u1
        · rwa [s1 _ (by omega)] at u2
        · rwa [s2 _ (by omega), s1 _ (by omega)] at u3

theorem createPipe_some (hi : k.pipeManagerInit = true)
    (hs : ((List.range maxPipes).find? fun i => !(k.pipes i).isOpen) = some slot)
    (h : semInits (pipeSems k.nextSemId) (takeSlot k slot) = some (k', true)) :
    createPipe k = some (k'.observe (.pipeOpened slot (pipeHandle slot)), pipeHandle slot) := by
  obtain ⟨⟨k1, ok1⟩, h1, h⟩ := Option.bind_eq_some_iff.mp h
  cases ok1 with
  | false => cases h
  | true =>
    obtain ⟨⟨k2, ok2⟩, h2, h⟩ := Option.bind_eq_some_iff.mp h
    cases ok2 with
    | false => cases h
    | true =>
      obtain ⟨⟨k3, ok3⟩, h3, h⟩ := Option.bind_eq_some_iff.mp h
      cases ok3 with
      | false => cases h
      | true =>
        cases h
        unfold takeSlot at h1
        unfold createPipe
        rw [ensurePipeManagerInit_eq hi]
        simp only [hs, h1, h2, h3, Option.bind_eq_bind, Option.bind_some, Bool.not_true,
          Bool.false_eq_true, if_false]

/-- While there is memory and a slot: `createPipe` succeeds, with semaphores of its own,
exactly when the table of semaphores is there and the next three ids of its counter are free;
other ids do not help. -/
theorem createPipe_iff (h : Reach allocs Run.anyEvent m) (ha : ∀ i < 3, m.k.allocs i = true)
    (hs : ∃ i < maxPipes, (m.k.pipes i).isOpen = false) :
    CreatesOwn m.k ↔ m.k.semManager = true ∧ NextIdsFree m.k := by
  obtain ⟨T, P⟩ := h.tables
  have hi := h.pipeManagerInit
  have hsems : ∀ {slot k1 ok}, semInits (pipeSems m.k.nextSemId) (takeSlot m.k slot) = some (k1, ok) →
      (k1.pipes slot).isOpen = true ∧
        (k1.pipes slot).sems = [m.k.nextSemId, m.k.nextSemId + 1, m.k.nextSemId + 2] := by
    intro slot k1 ok h
    rw [(semInits_kept h).1]
    simp [takeSlot, Kernel.setPipe, Pipe.sems]
  constructor
  · rintro ⟨k', id, slot, hc, hid, rfl, _, hown⟩
    rcases createPipe_cases hi hc with ⟨_, _, hneg⟩ | ⟨s, k1, ok, _, hinit, hend⟩
    · rw [hneg] at hid
      exact absurd hid (by decide)
    · rcases hend with ⟨_, _, hneg⟩ | ⟨rfl, rfl, hs⟩
      · rw [hneg] at hid
        exact absurd hid (by decide)
      · obtain rfl := pipeHandle_inj hs
        obtain ⟨_, hrange, hused⟩ := pipeSems_true hinit
        refine ⟨pipeSems_manager (k := takeSlot m.k slot) hinit, hrange, hused, fun i hlo hhi => ?_⟩
        have hmem : i ∈ ((k1.observe (.pipeOpened slot (pipeHandle slot))).pipes slot).sems := by
          show i ∈ (k1.pipes slot).sems
          rw [(hsems hinit).2]
          exact mem_three.mpr ⟨hlo, hhi⟩
        exact (hown i hmem).2.2
  · rintro ⟨hm, hrange, hused, hown⟩
    obtain ⟨i, hlt, hclosed⟩ := hs
    obtain ⟨slot, hslot⟩ : ∃ slot, (List.range maxPipes).find? (fun i => !(m.k.pipes i).isOpen) =
        some slot := by
      refine Option.isSome_iff_exists.mp (List.find?_isSome.mpr ⟨i, List.mem_range.mpr hlt, ?_⟩)
      simp [hclosed]
    obtain ⟨k1, hinit⟩ := @pipeSems_ok (takeSlot m.k slot) m.k.nextSemId hm ha
      ⟨P.ids.1, hrange⟩ hused
    have hcreate := createPipe_some hi hslot hinit
    refine ⟨_, _, slot, hcreate, pipeHandle_nonneg slot, rfl, (hsems hinit).1, fun i hi => ?_⟩
    have hi : i ∈ (k1.pipes slot).sems := hi
    rw [(hsems hinit).2] at hi
    obtain ⟨hlo, hhi⟩ := mem_three.mp hi
    refine ⟨hused i hlo hhi, fun j _ ho hj => ?_, hown i hlo hhi⟩
    exact absurd (P.ids.2 j ho i hj).2 (Int.not_lt.mpr hlo)

/-- The shell opens the semaphores 10 and 11 and a pipe. -/
theorem userSems_run :
    ∃ m, Run.exec Machine.step Run.anyEvent (boot fun _ => true)
        [.tick 0, .call 0 (.semOpen 10 1), .call 0 (.semOpen 11 0), .call 0 .openPipe] = some m ∧
      Reach (fun _ => true) Run.anyEvent m ∧ m.k.semManager = true ∧ m.k.nextSemId = 6 ∧
      m.k.nextPid = 2 ∧ (m.k.pipes 2).isOpen = false ∧ (m.k.sems 6).used = false ∧
      (m.k.sems 7).used = false ∧ (m.k.sems 8).used = false ∧
      (m.k.procs 0).map PCB.childrenSem = some (-1) ∧
      (m.k.procs 1).map PCB.childrenSem = some (-1) :=
  Run.exists_exec (by decide +kernel)

theorem createPipe_iff_six : ∃ m, Reach (fun _ => true) Run.anyEvent m ∧ m.k.nextSemId = 6 ∧
    CreatesOwn m.k := by
  obtain ⟨m, _, hm, hs, hn, hpid, ho, h6, h7, h8, h0, h1⟩ := userSems_run
  have hm : Reach (fun _ => true) Run.anyEvent m := hm
  refine ⟨m, hm, hn, (createPipe_iff hm (fun i _ => hm.allocs i) ⟨2, by decide, ho⟩).mpr
    ⟨hs, ?_, fun i hlo hhi => ?_, fun i hlo _ p b hb hi => ?_⟩⟩
  · rw [hn]
    decide
  · rw [hn] at hlo hhi
    have hi : i = 6 ∨ i = 7 ∨ i = 8 := by omega
    rcases hi with rfl | rfl | rfl <;> assumption
  · rw [hn] at hlo
    have hp : 0 ≤ p ∧ p < 2 := by
      rcases hm.cases with rfl | ⟨c, R⟩
      · cases hn
      · exact hpid ▸ (R.core.pcb p b hb).2
    have hp : p = 0 ∨ p = 1 := by
      have h0 : (0 : Int) ≤ p := hp.1
      have h2 : p < (2 : Int) := hp.2
      exact (Int.lt_or_eq_of_le (Int.lt_add_one_iff.mp h2)).imp
        (fun h => Int.le_antisymm (Int.lt_add_one_iff.mp h) h0) id
    rcases hp with rfl | rfl
    · rw [hb] at h0
      obtain rfl : i = -1 := hi ▸ Option.some.inj h0
      exact absurd hlo (by decide)
    · rw [hb] at h1
      obtain rfl : i = -1 := hi ▸ Option.some.inj h1
      exact absurd hlo (by decide)

/-- The shell opens semaphore 3: 15 slots and 296 ids are free, and no pipe can be
opened. -/
theorem createPipe_meets_user_sem :
    ∃ m, Run.exec Machine.step Run.anyEvent (boot fun _ => true)
        [.tick 0, .call 0 (.semOpen 3 0)] = some m ∧
      Reach (fun _ => true) Run.anyEvent m ∧ (m.k.pipes 1).isOpen = false ∧
      ((List.range 300).countP fun i : Nat => !(m.k.sems i).used) = 296 ∧
      (createPipe m.k).map Prod.snd = some (-1) ∧ ¬ CreatesOwn m.k := by
  obtain ⟨m, he, hm, ho, hs, hc⟩ :
      ∃ m, Run.exec Machine.step Run.anyEvent (boot fun _ => true)
          [.tick 0, .call 0 (.semOpen 3 0)] = some m ∧
        Run Machine.step Run.anyEvent (boot fun _ => true) m ∧ (m.k.pipes 1).isOpen = false ∧
        ((List.range 300).countP fun i : Nat => !(m.k.sems i).used) = 296 ∧
        (createPipe m.k).map Prod.snd = some (-1) :=
    Run.exists_exec (by decide +kernel)
  refine ⟨m, he, hm, ho, hs, hc, ?_⟩
  rintro ⟨k', id, slot, hcreate, hid, _⟩
  rw [hcreate] at hc
  obtain rfl : id = -1 := Option.some.inj hc
  exact absurd hid (by decide)

/-- A failing `createPipe` changes nothing exactly when it fails for lack of a slot. -/
theorem createPipe_fails_iff (h : Reach allocs Run.anyEvent m)
    (hc : createPipe m.k = some (k', -1)) :
    SameTables m.k k' ↔ ∀ i < maxPipes, (m.k.pipes i).isOpen = true := by
  rcases createPipe_cases h.pipeManagerInit hc with ⟨ho, rfl, _⟩ |
    ⟨slot, k1, ok, ⟨hlt, hclosed, _⟩, hinit, hend⟩
  · exact ⟨fun _ => ho, fun _ => ⟨fun _ _ => rfl, fun _ => rfl, rfl⟩⟩
  · have hopen : (k1.pipes slot).isOpen = true := by
      rw [(semInits_kept hinit).1]
      simp [takeSlot, Kernel.setPipe]
    obtain rfl : k' = k1 := by
      rcases hend with ⟨_, hk, _⟩ | ⟨_, _, hid⟩
      · exact hk
      · exact absurd (hid ▸ pipeHandle_nonneg slot : (0 : Int) ≤ -1) (by decide)
    constructor
    · intro H
      cases hclosed.symm.trans ((H.isOpen slot hlt).symm.trans hopen)
    · intro hall
      cases hclosed.symm.trans (hall slot hlt)

/-- The shell fills the table of pipes. -/
theorem fullTable_run :
    ∃ m, Run.exec Machine.step Run.anyEvent (boot fun _ => true)
        (.tick 0 :: List.replicate 15 (.call 0 .openPipe)) = some m ∧
      Reach (fun _ => true) Run.anyEvent m ∧ (createPipe m.k).map Prod.snd = some (-1) ∧
      ∀ i < maxPipes, (m.k.pipes i).isOpen = true :=
  Run.exists_exec (by decide +kernel)

theorem createPipe_fails_iff_full : ∃ m k', Reach (fun _ => true) Run.anyEvent m ∧
    createPipe m.k = some (k', -1) ∧ SameTables m.k k' := by
  obtain ⟨m, _, hm, hc, ho⟩ := fullTable_run
  obtain ⟨⟨k', id⟩, hcreate, rfl⟩ := Option.map_eq_some_iff.mp hc
  exact ⟨m, k', hm, hcreate, (createPipe_fails_iff hm hcreate).mpr ho⟩

/-- The shell opens semaphore 4: `createPipe` fails at its second semaphore, and slot 1
is open and semaphore 3 in use after it. -/
theorem createPipe_failure_leaks :
    ∃ m k', Run.exec Machine.step Run.anyEvent (boot fun _ => true)
        [.tick 0, .call 0 (.semOpen 4 0)] = some m ∧
      Reach (fun _ => true) Run.anyEvent m ∧ createPipe m.k = some (k', -1) ∧
      (m.k.pipes 1).isOpen = false ∧ (k'.pipes 1).isOpen = true ∧ (m.k.sems 3).used = false ∧
      (k'.sems 3).used = true ∧ ¬ SameTables m.k k' := by
  obtain ⟨m, he, hm, ho, hu, hc⟩ :
      ∃ m, Run.exec Machine.step Run.anyEvent (boot fun _ => true)
          [.tick 0, .call 0 (.semOpen 4 0)] = some m ∧
        Run Machine.step Run.anyEvent (boot fun _ => true) m ∧ (m.k.pipes 1).isOpen = false ∧
        (m.k.sems 3).used = false ∧
        (createPipe m.k).map (fun r => (r.2, (r.1.pipes 1).isOpen, (r.1.sems 3).used)) =
          some (-1, true, true) :=
    Run.exists_exec (by decide +kernel)
  obtain ⟨⟨k', id⟩, hcreate, hk⟩ := Option.map_eq_some_iff.mp hc
  obtain ⟨rfl, ho', hu'⟩ : id = -1 ∧ (k'.pipes 1).isOpen = true ∧ (k'.sems 3).used = true := by
    simpa using hk
  refine ⟨m, k', he, hm, hcreate, ho, ho', hu, hu', fun H => ?_⟩
  cases ho.symm.trans ((H.isOpen 1 (by decide)).symm.trans ho')

end Opening

end SoKernel
