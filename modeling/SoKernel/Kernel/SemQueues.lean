import SoKernel.Kernel.Contexts

/-!
# The queues of the semaphores

A process waiting for a semaphore is in two queues, the one of the semaphore and
`blockedQueueBySem`. `kill` takes it out of the second only.

Results:
1. `SemQueues.effect`: the queues of the semaphores hold processes that wait, each
   once, as long as none of them dies.
2. `reach_delivered`: in runs that kill no process waiting for a semaphore, every post
   makes such a process ready or is counted.
-/

namespace SoKernel

/-- `p` is in the queue of the semaphore. -/
def Kernel.WaitsFor (k : Kernel) (id : Int) (p : Pid) : Prop :=
  ∃ pids, (k.sems id).blocked = .live pids ∧ p ∈ pids

structure SemQueues (k : Kernel) : Prop where
  member : ∀ id p, k.WaitsFor id p → p ∈ k.queue .blockedBySem
  nodup : ∀ id pids, (k.sems id).blocked = .live pids → pids.Nodup
  unique : ∀ id id' p, k.WaitsFor id p → k.WaitsFor id' p → id = id'

/-- A step kills no process that waits for a semaphore. -/
def SparesWaiters (m : Machine) (e : Event) : Prop :=
  ∀ p, e.Kills m p → ∀ id, ¬ m.k.WaitsFor id p

section

variable {k k' : Kernel} {l : Label} {id : Int} {p c : Pid} {m : Machine} {e : Event}

theorem setSem_waitsFor {s : Sem} {i : Int} : (k.setSem id s).WaitsFor i p ↔
    (i = id ∧ ∃ pids, s.blocked = .live pids ∧ p ∈ pids) ∨ i ≠ id ∧ k.WaitsFor i p := by
  unfold Kernel.WaitsFor Kernel.setSem
  rcases eq_or_ne i id with rfl | hi
  · simp
  · simp [hi]

/-- A semaphore whose queue only loses processes. -/
theorem SemQueues.setSem (S : SemQueues k) {s : Sem}
    (hnd : ∀ pids, s.blocked = .live pids → pids.Nodup)
    (hsub : ∀ pids p, s.blocked = .live pids → p ∈ pids → k.WaitsFor id p) :
    SemQueues (k.setSem id s) := by
  have hback : ∀ {i p}, (k.setSem id s).WaitsFor i p → k.WaitsFor i p := by
    intro i p h
    rcases setSem_waitsFor.mp h with ⟨rfl, pids, hs, hp⟩ | ⟨_, h⟩
    · exact hsub pids p hs hp
    · exact h
  refine ⟨fun i p h => S.member i p (hback h), fun i pids hb => ?_,
    fun i i' p h h' => S.unique i i' p (hback h) (hback h')⟩
  rcases eq_or_ne i id with rfl | hi
  · exact hnd pids (by simpa [Kernel.setSem] using hb)
  · exact S.nodup i pids (by simpa [Kernel.setSem, hi] using hb)

/-- The other queues may change as long as nobody leaves `blockedQueueBySem` who waits. -/
theorem SemQueues.congr (S : SemQueues k) (hs : k'.sems = k.sems)
    (hq : ∀ id p, k.WaitsFor id p → p ∈ k.queue .blockedBySem → p ∈ k'.queue .blockedBySem) :
    SemQueues k' := by
  have hw : ∀ {id p}, k'.WaitsFor id p ↔ k.WaitsFor id p := by
    intro id p
    unfold Kernel.WaitsFor
    rw [hs]
  exact ⟨fun id p h => hq id p (hw.mp h) (S.member id p (hw.mp h)), hs ▸ S.nodup,
    fun id id' p h h' => S.unique id id' p (hw.mp h) (hw.mp h')⟩

theorem SemQueues.same (S : SemQueues k) (hs : k'.sems = k.sems)
    (hq : k'.queue .blockedBySem = k.queue .blockedBySem) : SemQueues k' :=
  S.congr hs fun _ _ _ h => hq ▸ h

/-- A process goes to sleep. -/
theorem SemQueues.sleep {pids : List Pid} (S : SemQueues k) (C : Core k) (b' : PCB)
    (hp : p ∈ k.queue .ready) (hb : (k.sems id).blocked = .live pids) :
    SemQueues ((k.setSem id { k.sems id with blocked := .live (pids ++ [p]) }).move
      .ready .blockedBySem p b') := by
  have hnot : ∀ i, ¬ k.WaitsFor i p := fun i h => by cases C.queue_eq hp (S.member i p h)
  have hmem : ∀ {x}, x ∈ (k.move .ready .blockedBySem p b').queue .blockedBySem ↔
      x ∈ k.queue .blockedBySem ∨ x = p := by
    intro x
    rw [mem_move (C.nodup .ready) (by decide)]
    simp
  have hback : ∀ {i x}, (k.setSem id { k.sems id with blocked := .live (pids ++ [p]) }).WaitsFor i x →
      k.WaitsFor i x ∨ i = id ∧ x = p := by
    intro i x h
    rcases setSem_waitsFor.mp h with ⟨rfl, l, hl, hx⟩ | ⟨_, h⟩
    · obtain rfl := SemQueue.live.inj hl
      rcases List.mem_append.mp hx with hx | hx
      · exact .inl ⟨pids, hb, hx⟩
      · exact .inr ⟨rfl, List.mem_singleton.mp hx⟩
    · exact .inl h
  constructor
  · intro i x h
    rcases hback h with h | ⟨_, rfl⟩
    · exact hmem.mpr (.inl (S.member i x h))
    · exact hmem.mpr (.inr rfl)
  · intro i l hl
    have hl : ((k.setSem id { k.sems id with blocked := .live (pids ++ [p]) }).sems i).blocked =
      .live l := hl
    rcases eq_or_ne i id with rfl | hi
    · obtain rfl : pids ++ [p] = l := by simpa [Kernel.setSem] using hl
      refine List.nodup_append.mpr ⟨S.nodup i pids hb, List.nodup_singleton p, ?_⟩
      rintro a ha x hx rfl
      exact hnot i ⟨pids, hb, List.mem_singleton.mp hx ▸ ha⟩
    · exact S.nodup i l (by simpa [Kernel.setSem, hi] using hl)
  · intro i i' x h h'
    rcases hback h with h1 | ⟨rfl, rfl⟩
    · rcases hback h' with h2 | ⟨_, rfl⟩
      · exact S.unique i i' x h1 h2
      · exact absurd h1 (hnot i)
    · rcases hback h' with h2 | ⟨rfl, _⟩
      · exact absurd h2 (hnot i')
      · rfl

/-- The first process waiting is made ready. -/
theorem SemQueues.wake {pids : List Pid} (S : SemQueues k) (C : Core k) (b' : PCB)
    (hb : (k.sems id).blocked = .live (p :: pids)) :
    SemQueues ((k.setSem id { k.sems id with blocked := .live pids }).move
      .blockedBySem .ready p b') := by
  have hnd := S.nodup id _ hb
  have hsub : ∀ l x, SemQueue.live pids = .live l → x ∈ l → k.WaitsFor id x := by
    intro l x hl hx
    obtain rfl := SemQueue.live.inj hl
    exact ⟨_, hb, List.mem_cons_of_mem _ hx⟩
  have S1 : SemQueues (k.setSem id { k.sems id with blocked := .live pids }) := by
    refine S.setSem ?_ hsub
    intro l hl
    obtain rfl := SemQueue.live.inj hl
    exact (List.nodup_cons.mp hnd).2
  refine S1.congr rfl fun i x hx hq => ?_
  have hxp : x ≠ p := by
    rintro rfl
    rcases setSem_waitsFor.mp hx with ⟨_, l, hl, hx⟩ | ⟨hi, hx⟩
    · obtain rfl := SemQueue.live.inj hl
      exact (List.nodup_cons.mp hnd).1 hx
    · exact hi (S.unique i id x hx ⟨_, hb, List.mem_cons_self⟩)
  have hmem : x ∈ (k.move .blockedBySem .ready p b').queue .blockedBySem :=
    (mem_move (C.nodup .blockedBySem) (by decide)).mpr (.inl ⟨hq, fun _ => hxp⟩)
  exact hmem

theorem SemQueues.effect (S : SemQueues k) (C : Core k) (h : Effect l k k')
    (hdie : ∀ p, l = .die p → ∀ id, ¬ k.WaitsFor id p) : SemQueues k' := by
  cases h with
  | block => exact S.same rfl rfl
  | unblock => exact S.same rfl rfl
  | took _ _ =>
    refine SemQueues.same (S.setSem ?_ ?_) rfl rfl
    · exact fun pids hb => S.nodup _ pids hb
    · exact fun pids p hb hp => ⟨pids, hb, hp⟩
  | @sleep _ _ _ _ _ b' _ _ hb _ hp => exact SemQueues.same (S.sleep C b' hp hb) rfl rfl
  | @stray _ _ p _ b' _ hp =>
    refine S.congr rfl fun i x hx hq => ?_
    exact (mem_move (C.nodup .ready) (by decide)).mpr (.inl ⟨hq, by simp⟩)
  | @wake _ _ _ _ _ b' _ hb => exact SemQueues.same (S.wake C b' hb) rfl rfl
  | @absorb _ id p pids _ hb hp => exact absurd (S.member id p ⟨_, hb, List.mem_cons_self⟩) hp
  | incr _ hb =>
    refine SemQueues.same (S.setSem ?_ ?_) rfl rfl
    · exact fun pids hb => S.nodup _ pids hb
    · exact fun pids p hb hp => ⟨pids, hb, hp⟩
  | semOpened =>
    refine SemQueues.same (S.setSem ?_ ?_) rfl rfl
    · intro pids hb
      obtain rfl := SemQueue.live.inj hb
      exact List.nodup_nil
    · intro pids p hb hp
      obtain rfl := SemQueue.live.inj hb
      cases hp
  | semUnqueued => exact S.setSem (fun pids hb => by cases hb) (fun pids p hb => by cases hb)
  | semClosed _ hb =>
    refine S.setSem ?_ ?_
    · rcases hb with ⟨_, rfl⟩ | ⟨_, rfl⟩ <;> exact fun pids hb => by cases hb
    · rcases hb with ⟨_, rfl⟩ | ⟨_, rfl⟩ <;> exact fun pids p hb => by cases hb
  | enter _ _ _ _ hq =>
    refine S.same rfl ?_
    rcases hq with ⟨rfl, _⟩ | ⟨rfl, _⟩ <;> simp [Kernel.setQueue]
  | @die _ p f _ b' hp hf =>
    refine S.congr rfl fun i x hx hq => ?_
    have hxp : x ≠ p := by
      rintro rfl
      exact hdie x rfl i hx
    have hmem : x ∈ (k.move f .zombie p b').queue .blockedBySem :=
      (mem_move (C.nodup f) hf).mpr (.inl ⟨hq, fun _ => hxp⟩)
    exact hmem
  | reap => exact S.same rfl rfl
  | _ => exact S.same rfl rfl

/-- A process waits because it has gone to sleep. -/
theorem Effect.waitsFor (h : Effect l k k') (hw : k'.WaitsFor id p) :
    k.WaitsFor id p ∨ l = .sleep id p true := by
  rcases h.sem id with heq | hs
  · rw [Kernel.WaitsFor, heq] at hw
    exact .inl hw
  · obtain ⟨pids, hb, hp⟩ := hw
    generalize k'.sems id = s' at hs hb
    cases hs with
    | took => exact .inl ⟨pids, hb, hp⟩
    | counted => exact .inl ⟨pids, hb, hp⟩
    | joined hl =>
      obtain rfl := SemQueue.live.inj hb
      rcases List.mem_append.mp hp with hp | hp
      · exact .inl ⟨_, hl, hp⟩
      · exact .inr (by rw [List.mem_singleton.mp hp])
    | left hl =>
      obtain rfl := SemQueue.live.inj hb
      exact .inl ⟨_, hl, List.mem_cons_of_mem _ hp⟩
    | opened _ _ hn =>
      rcases hn with rfl | rfl
      · cases hb
      · obtain rfl := SemQueue.live.inj hb
        cases hp
    | closed _ hn => rcases hn with ⟨_, rfl⟩ | ⟨_, rfl⟩ <;> cases hb

/-- A step that kills makes nobody sleep. -/
theorem Event.Admits.sleep {q : Bool} {x : Pid} (h : e.Admits m c (.sleep id p q)) :
    ¬ e.Kills m x := by
  rintro ⟨_, ht⟩
  cases e with
  | tick => cases ht
  | resume => cases ht
  | ctrlC => simp [Event.Admits, Label.Killing, Label.Mourning] at h
  | call _ sc =>
    rcases h with h | ⟨hp, _⟩ | h
    · cases sc <;> simp [Call.Admits, Label.Killing, Label.Mourning, Label.Creating,
        Label.Counting] at h
    · cases sc <;> first
        | exact hp
        | cases ht
    · cases h

/-! ## Runs -/

/-- No post was lost on a process that does not wait. -/
def NoAbsorb (k : Kernel) : Prop := ∀ id p q, .absorbed id p q ∉ k.log

theorem Effect.noAbsorb (h : Effect l k k') (S : SemQueues k) (hn : NoAbsorb k) : NoAbsorb k' := by
  intro id p q hm
  rcases h.mem_log hm with hm | hlogs
  · exact hn id p q hm
  · cases h with
    | absorb _ hb hp => exact hp (S.member _ _ ⟨_, hb, List.mem_cons_self⟩)
    | note ho =>
      obtain ⟨rfl, ho⟩ := hlogs
      exact ho
    | _ => exact hlogs

theorem Switch.waitsFor {rsp sp : Sp} {n : Pid} (W : Switch k rsp k' sp c n) :
    k'.WaitsFor id p ↔ k.WaitsFor id p := by
  unfold Kernel.WaitsFor
  rw [W.rest.sems]

theorem SemQueues.switch {rsp sp : Sp} {n : Pid} (S : SemQueues k) (W : Switch k rsp k' sp c n) :
    SemQueues k' :=
  S.congr W.rest.sems fun _ _ _ h => (W.rest.mem .blockedBySem _).mpr h

theorem NoAbsorb.switch {rsp sp : Sp} {n : Pid} (hn : NoAbsorb k) (W : Switch k rsp k' sp c n) :
    NoAbsorb k' := by
  intro id p q hm
  refine hn id p q ?_
  rw [W.log] at hm
  cases hf : k.first <;> simpa [hf] using hm

theorem Running.semQueues_step {m' : Machine} (R : Running m c) (S : SemQueues m.k)
    (hn : NoAbsorb m.k) (hs : SparesWaiters m e) (h : m.step e = some m') :
    SemQueues m'.k ∧ NoAbsorb m'.k := by
  have hP := R.kernel h (P := fun k => (SemQueues k ∧ NoAbsorb k) ∧
    ∀ p, e.Kills m p → ∀ id, ¬ k.WaitsFor id p) ⟨⟨S, hn⟩, hs⟩ ?_ ?_
  · exact hP.1
  · rintro l k k' hl C ⟨⟨S, hn⟩, hs⟩ he
    refine ⟨⟨S.effect C he ?_, he.noAbsorb S hn⟩, fun p hk id hw => ?_⟩
    · rintro p rfl
      exact hs p ((hl.resolve_left (by simp)).die R.settled.current)
    · rcases he.waitsFor hw with hw | rfl
      · exact hs p hk id hw
      · exact (hl.resolve_left (by simp)).sleep hk
  · rintro k k' rsp sp p n C ⟨⟨S, hn⟩, hs⟩ W
    exact ⟨⟨S.switch W, hn.switch W⟩, fun x hk id h => hs x hk id (W.waitsFor.mp h)⟩

theorem boot_sems {allocs : Nat → Bool} : (boot allocs).k.sems =
    Function.update (Function.update (Function.update initialKernel.sems 0
      { value := 0, lock := false, used := true, blocked := .live [] }) 1
      { value := pipeBufferSize, lock := false, used := true, blocked := .live [] }) 2
      { value := 1, lock := false, used := true, blocked := .live [] } := rfl

/-- Three semaphores are open, and nobody waits. -/
theorem boot_sem {allocs : Nat → Bool} (id : Int) :
    (∃ v, (boot allocs).k.sems id = ⟨v, false, true, .live []⟩) ∨
      (boot allocs).k.sems id = ⟨0, false, false, .null⟩ := by
  rw [boot_sems]
  rcases eq_or_ne id 2 with rfl | h2
  · exact .inl ⟨1, by simp⟩
  · rcases eq_or_ne id 1 with rfl | h1
    · exact .inl ⟨pipeBufferSize, by simp⟩
    · rcases eq_or_ne id 0 with rfl | h0
      · exact .inl ⟨0, by simp⟩
      · exact .inr (by simp [h2, h1, h0, initialKernel])

theorem boot_blocked {allocs : Nat → Bool} {pids : List Pid}
    (h : ((boot allocs).k.sems id).blocked = .live pids) : pids = [] := by
  rcases boot_sem id with ⟨v, hs⟩ | hs
  · rw [hs] at h
    exact (SemQueue.live.inj h).symm
  · rw [hs] at h
    cases h

theorem boot_waitsFor {allocs : Nat → Bool} : ¬ (boot allocs).k.WaitsFor id p := by
  rintro ⟨pids, hb, hp⟩
  rw [boot_blocked hb] at hp
  cases hp

theorem boot_semQueues {allocs : Nat → Bool} : SemQueues (boot allocs).k where
  member _ _ h := absurd h boot_waitsFor
  nodup _ _ h := boot_blocked h ▸ List.nodup_nil
  unique _ _ _ h := absurd h boot_waitsFor

/-- The queues of the semaphores in runs that spare the processes waiting. -/
theorem Reach.semQueues {allocs : Nat → Bool} (h : Reach allocs SparesWaiters m) :
    SemQueues m.k ∧ NoAbsorb m.k := by
  have hboot : NoAbsorb (boot allocs).k := fun id p q h => by simp [boot_log] at h
  refine h.machine (P := fun m => SemQueues m.k ∧ NoAbsorb m.k) ⟨boot_semQueues, hboot⟩ ?_ ?_
  · intro off m' hi
    obtain ⟨_, _, _, _, W, _⟩ := boot_dispatch hi
    exact ⟨boot_semQueues.switch W, hboot.switch W⟩
  · exact fun R H hok hs => R.semQueues_step H.1 H.2 hok hs

/-- What becomes of the posts and of the processes that wait for them. -/
structure Delivered (k : Kernel) : Prop where
  /-- A post makes a process ready that waits for the semaphore, or is counted. -/
  post : ∀ id k' flow, semPost k id = some (k', flow) →
    (∃ p, k.WaitsFor id p ∧ p ∈ k.queue .blockedBySem ∧ p ∈ k'.queue .ready ∧
      ∃ b, k'.procs p = some b ∧ b.state = .READY) ∨
    (k'.sems id).value = ((k.sems id).value + 1) % 2 ^ 32
  noAbsorb : NoAbsorb k
  waiting : ∀ id p, k.WaitsFor id p →
    p ∈ k.queue .blockedBySem ∧ ∃ b, k.procs p = some b ∧ b.state = .BLOCKED

theorem SemQueues.delivered (S : SemQueues k) (C : Core k) (hn : NoAbsorb k) : Delivered k := by
  refine ⟨fun id k' flow h => ?_, hn, fun id p hw => ?_⟩
  · obtain ⟨_, l, he, hl⟩ := semPost_cases h
    rcases hl with ⟨p, rfl⟩ | ⟨p, rfl⟩ | rfl
    · cases he with
      | @wake _ _ _ pids _ b' _ hb hp _ _ hs =>
        have hw : k.WaitsFor id p := ⟨_, hb, List.mem_cons_self⟩
        have hr : p ∈ (k.move .blockedBySem .ready p b').queue .ready := by
          rw [move_queue_to]
          simp
        exact .inl ⟨p, hw, hp, hr, b', Function.update_self _ _ _, hs⟩
    · cases he with
      | absorb _ hb hp => exact absurd (S.member _ _ ⟨_, hb, List.mem_cons_self⟩) hp
    · cases he
      exact .inr (by simp [Kernel.observe, Kernel.setSem])
  · have hq := S.member id p hw
    obtain ⟨b, hb, hs⟩ := C.member .blockedBySem p hq
    exact ⟨hq, b, hb, hs⟩

/-- In a run that kills no process waiting for a semaphore no post is lost. -/
theorem reach_delivered {allocs : Nat → Bool} (h : Reach allocs SparesWaiters m) : Delivered m.k := by
  obtain ⟨S, hn⟩ := h.semQueues
  rcases h.cases with rfl | ⟨c, R⟩
  · exact S.delivered boot_core hn
  · exact S.delivered R.core hn

/-- Kills of processes that are ready. -/
def KillsReady (m : Machine) (e : Event) : Prop :=
  ∀ p, e.target m = some p → p ∈ m.k.queue .ready

instance (m : Machine) (e : Event) : Decidable (KillsReady m e) :=
  match h : e.target m with
  | none => .isTrue fun p hp => by cases h.symm.trans hp
  | some q => decidable_of_iff (q ∈ m.k.queue .ready)
      ⟨fun hq p hp => Option.some.inj (h.symm.trans hp) ▸ hq, fun hk => hk q h⟩

/-- A process that is ready waits for no semaphore. -/
theorem Reach.sparesWaiters {allocs : Nat → Bool} (h : Reach allocs KillsReady m) :
    Reach allocs SparesWaiters m := by
  refine h.invariant (P := Reach allocs SparesWaiters) .refl ?_
  intro t t' e ht hk hs
  refine .snoc e ht (fun p hp id hw => ?_) hs
  have hmem := ht.semQueues.1.member id p hw
  rcases ht.cases with rfl | ⟨c, R⟩
  · exact boot_waitsFor hw
  · cases R.core.queue_eq (hk p hp.2) hmem

/-- One child of the shell waits for a semaphore, another is killed, and the shell
posts twice. -/
def killAndPost : List Event :=
  [.tick 0, .call 0 (.createProcess backgroundArgs), .call 0 (.createProcess backgroundArgs),
    .call 0 (.semOpen 9 0), .call 0 .yield, .resume 0, .call 0 .yield, .call 0 (.semWait 9),
    .call 0 .yield, .resume 0, .call 0 (.kill 3 0), .call 0 (.semPost 9), .call 0 (.semPost 9)]

theorem killAndPost_run :
    ∃ m, Run.exec Machine.step KillsReady (boot fun _ => true) killAndPost = some m ∧
      Reach (fun _ => true) KillsReady m ∧ .released 9 2 1 ∈ m.k.log ∧
      .incremented 9 1 ∈ m.k.log ∧ .killed 3 1 0 ∈ m.k.log :=
  Run.exists_exec (by decide +kernel)

theorem reach_delivered_run : ∃ m, Reach (fun _ => true) SparesWaiters m ∧
    .released 9 2 1 ∈ m.k.log ∧ .killed 3 1 0 ∈ m.k.log ∧ Delivered m.k := by
  obtain ⟨m, _, hm, hr, _, hk⟩ := killAndPost_run
  exact ⟨m, hm.sparesWaiters, hr, hk, reach_delivered hm.sparesWaiters⟩

/-- The child of the shell waits for a semaphore and is killed, and the shell posts. -/
def killWaiterAndPost : List Event :=
  [.tick 0, .call 0 (.createProcess backgroundArgs), .call 0 (.semOpen 9 0), .call 0 .yield,
    .resume 0, .call 0 .yield, .call 0 (.semWait 9), .resume 0, .call 0 (.kill 2 1),
    .call 0 (.semPost 9)]

/-- The post goes to the pid of the dead child: nobody is made ready, and the value of
the semaphore stays 0. -/
theorem killed_waiter_absorbs_post :
    ∃ m, Run.exec Machine.step Run.anyEvent (boot fun _ => true) killWaiterAndPost = some m ∧
      .killed 2 1 1 ∈ m.k.log ∧ .absorbed 9 2 1 ∈ m.k.log ∧ (m.k.sems 9).value = 0 ∧
      (m.k.sems 9).blocked = .live [] ∧ ¬ Delivered m.k := by
  obtain ⟨m, he, _, hk, ha, hv, hb⟩ :
      ∃ m, Run.exec Machine.step Run.anyEvent (boot fun _ => true) killWaiterAndPost = some m ∧
        Run Machine.step Run.anyEvent (boot fun _ => true) m ∧
        .killed 2 1 1 ∈ m.k.log ∧ .absorbed 9 2 1 ∈ m.k.log ∧ (m.k.sems 9).value = 0 ∧
        (m.k.sems 9).blocked = .live [] :=
    Run.exists_exec (by decide +kernel)
  exact ⟨m, he, hk, ha, hv, hb, fun D => D.noAbsorb 9 2 1 ha⟩

end

end SoKernel
