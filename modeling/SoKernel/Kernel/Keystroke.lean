import SoKernel.Kernel.ShellPipe

/-!
# What a keystroke leaves alone

The handler calls the `pipeWrite` of the processes on the stack it has interrupted, so a
`semWait` in it can take the CPU from the process that happens to run.

Results:
1. `semWait_cases`, `semPost_cases`: what the two do, in any state.
2. `pipeWriteByte_cases`, `pipeWriteByte_isSome`: the write of one byte.
3. `addToBuffer_appends_iff`: the states in which the byte gets into the pipe.
4. `keystroke_undisturbed_iff`: the states in which a keystroke disturbs nobody.
-/

namespace SoKernel.Keyboard

/-! ## Waiting -/

/-- `wait(id)` comes back without a context switch, if its next allocation is the `n`th: there
is a token, or no memory for the pid, or the process running cannot be blocked. -/
structure Passes (k : Kernel) (n : Nat) (id : Int) : Prop where
  unlocked : (k.sems id).lock = false
  passes : 0 < (k.sems id).value ∨ k.allocs n = false ∨
    getCurrentPid k ∉ k.queue .ready ∧ (k.sems id).blocked ≠ .freed

instance (k : Kernel) (n : Nat) (id : Int) : Decidable (Passes k n id) :=
  decidable_of_iff ((k.sems id).lock = false ∧ (0 < (k.sems id).value ∨ k.allocs n = false ∨
    getCurrentPid k ∉ k.queue .ready ∧ (k.sems id).blocked ≠ .freed))
    ⟨fun h => ⟨h.1, h.2⟩, fun h => ⟨h.unlocked, h.passes⟩⟩

/-- `enqueue` on the queue of a semaphore, by the outcome of its allocation. -/
def joined (q : SemQueue) (ok : Bool) (p : Pid) : SemQueue :=
  match q with
  | .live pids => if ok then .live (pids ++ [p]) else .live pids
  | q => q

/-- The allocations of that `enqueue`. -/
def joinAllocs : SemQueue → Nat
  | .live _ => 1
  | _ => 0

/-- Whether it has put the pid in the queue. -/
def joins (q : SemQueue) (ok : Bool) : Bool :=
  match q with
  | .live _ => ok
  | _ => false

/-- How many allocations a `wait` that passes makes. -/
def waitAllocs (k : Kernel) (n : Nat) (id : Int) : Nat :=
  if 0 < (k.sems id).value then 0
  else if k.allocs n = false then 1
  else joinAllocs (k.sems id).blocked + 1

/-- The queue of the semaphore after a `wait` that passes: a process that cannot be blocked has
been queued all the same. -/
def waitQueue (k : Kernel) (n : Nat) (id : Int) : SemQueue :=
  if 0 < (k.sems id).value ∨ k.allocs n = false then (k.sems id).blocked
  else joined (k.sems id).blocked (k.allocs (n + 1)) (getCurrentPid k)

/-- The processes and their queues are the same. -/
structure Calm (k k' : Kernel) : Prop where
  procs : k'.procs = k.procs
  queue : k'.queue = k.queue
  currentProcess : k'.currentProcess = k.currentProcess
  idleProcess : k'.idleProcess = k.idleProcess
  semManager : k'.semManager = k.semManager

/-- After a `wait(id)` that passed. -/
structure Waited (k : Kernel) (id : Int) (k' : Kernel) : Prop extends Calm k k' where
  others : ∀ i, i ≠ id → k'.sems i = k.sems i
  lock : (k'.sems id).lock = false
  blocked : (k'.sems id).blocked = waitQueue k 0 id
  allocs : ∀ n, k'.allocs n = k.allocs (n + waitAllocs k 0 id)

/-- The process running has gone to wait. -/
structure WentToWait (k k' : Kernel) : Prop where
  running : getCurrentPid k ∈ k.queue .ready
  blockedBySem : k'.queue .blockedBySem = k.queue .blockedBySem ++ [getCurrentPid k]

section

variable {k k' k1 : Kernel} {id : Int} {p : Pid}

theorem Calm.trans (h : Calm k k1) (h1 : Calm k1 k') : Calm k k' :=
  ⟨h1.procs.trans h.procs, h1.queue.trans h.queue, h1.currentProcess.trans h.currentProcess,
    h1.idleProcess.trans h.idleProcess, h1.semManager.trans h.semManager⟩

theorem accessSem_open (hm : k.semManager = true) (hid : Machine.SemIdOk id) :
    accessSem k id = some (k.sems id) := if_pos ⟨hm, hid.1, hid.2⟩

theorem enqueuePid_eq {sem : Sem} (hq : sem.blocked ≠ .freed) :
    enqueuePid k sem p = some
      ({ k with allocs := fun n => k.allocs (n + joinAllocs sem.blocked) },
        { sem with blocked := joined sem.blocked (k.allocs 0) p },
        joins sem.blocked (k.allocs 0)) := by
  obtain ⟨value, lock, used, blocked⟩ := sem
  cases blocked with
  | null => rfl
  | freed => exact absurd rfl hq
  | live pids =>
    cases ha : k.allocs 0 <;>
      simp [enqueuePid, Kernel.allocMemory, ha, joined, joins, joinAllocs]

theorem blockProcessBySem_absent (hp : p ∉ k.queue .ready) :
    blockProcessBySem k p = some (k, .ret (-1)) := by
  simp [blockProcessBySem, blockProcessQueueBySem, moveProcess, switchProcessFromQueues, hp]

theorem blockProcessBySem_present {r : Kernel × Flow} (hc : getCurrentPid k = p)
    (hp : p ∈ k.queue .ready) (h : blockProcessBySem k p = some r) :
    r.2 = .tick ∧ r.1.queue .blockedBySem = k.queue .blockedBySem ++ [p] := by
  obtain ⟨⟨k1, moved⟩, h1, h2⟩ := Option.bind_eq_some_iff.mp h
  rcases moveProcess_cases (by decide) h1 with ⟨-, -, habsent⟩ | ⟨rfl, -, b, -, rfl⟩
  · exact absurd hp habsent
  · have hyield : ∀ b', yieldIfCurrent (k.move .ready .blockedBySem p b') p =
        yield (k.move .ready .blockedBySem p b') := fun b' => if_pos hc.symm
    have h2 := (congrArg some (hyield _)).symm.trans h2
    cases h2
    exact ⟨rfl, by simp [yield, Kernel.move, Kernel.setQueue]⟩

theorem acquire_unlocked {sem : Sem} (h : sem.lock = false) :
    acquire sem = some { sem with lock := true } := by
  simp [acquire, h]

/-- `wait` from the point where there is no token and there is memory for the pid. -/
theorem wait_empty (hm : k.semManager = true) (hid : Machine.SemIdOk id)
    (hl : (k.sems id).lock = false) (hv : (k.sems id).value = 0) (ha : k.allocs 0 = true)
    (hq : (k.sems id).blocked ≠ .freed) :
    ∃ k1, Waited k id k1 ∧ semWait k id =
      (blockProcessBySem k1 (getCurrentPid k)).bind fun r =>
        some (r.1, if r.2 = .tick then .tick else .ret 0) := by
  have hempty : ¬ (k.sems id).value > 0 := by simp [hv]
  have hq' : ({ k.sems id with lock := true } : Sem).blocked ≠ .freed := hq
  let k2 := Kernel.setSem
    { k with allocs := fun n => k.allocs (n + joinAllocs (k.sems id).blocked + 1) } id
    (release { k.sems id with
      lock := true, blocked := joined (k.sems id).blocked (k.allocs 1) (getCurrentPid k) })
  have hw : Waited k id k2 := by
    refine ⟨⟨rfl, rfl, rfl, rfl, rfl⟩, fun i hi => Function.update_of_ne hi _ _, ?_, ?_, ?_⟩
    · simp [k2, Kernel.setSem, release]
    · simp [k2, Kernel.setSem, release, waitQueue, hv, ha]
    · exact fun n => by simp [k2, Kernel.setSem, waitAllocs, hv, ha, Nat.add_assoc]
  refine ⟨if joins (k.sems id).blocked (k.allocs 1) then k2.observe (.queued id (getCurrentPid k))
    else k2, ?_, ?_⟩
  · split
    · exact ⟨⟨hw.procs, hw.queue, hw.currentProcess, hw.idleProcess, hw.semManager⟩,
        hw.others, hw.lock, hw.blocked, hw.allocs⟩
    · exact hw
  · unfold semWait wait
    simp only [accessSem_open hm hid, acquire_unlocked hl, Kernel.allocMemory, ha,
      Option.bind_eq_bind, Option.bind_some, if_neg hempty, Bool.not_true, Bool.false_eq_true,
      if_false, enqueuePid_eq hq']
    rfl

/-- There is a token. -/
theorem semWait_some {v : Nat} (hm : k.semManager = true) (hid : Machine.SemIdOk id)
    (hl : (k.sems id).lock = false) (hv : (k.sems id).value = v + 1) :
    semWait k id = some ((k.setSem id { k.sems id with value := v }).observe
      (.took id (getCurrentPid k)), .ret 0) := by
  have hs : release
      { ({ k.sems id with lock := true } : Sem) with value := (k.sems id).value - 1 } =
      { k.sems id with value := v } := by simp [release, hl, hv]
  unfold semWait wait
  simp only [accessSem_open hm hid, acquire_unlocked hl, Option.bind_eq_bind,
    Option.bind_some]
  rw [if_pos (by rw [hv]; exact Nat.succ_pos v), hs]
  rfl

/-- Nobody waits. -/
theorem semPost_nobody (hm : k.semManager = true) (hid : Machine.SemIdOk id)
    (hl : (k.sems id).lock = false) (hb : (k.sems id).blocked = .live []) :
    semPost k id = some ((k.setSem id
      { k.sems id with value := ((k.sems id).value + 1) % 2 ^ 32 }).observe
        (.incremented id (getCurrentPid k)), .ret 0) := by
  unfold semPost post
  simp only [accessSem_open hm hid, acquire_unlocked hl, Option.bind_eq_bind,
    Option.bind_some, hb, release, hl]

theorem semWait_passes (hm : k.semManager = true) (hid : Machine.SemIdOk id)
    (hp : Passes k 0 id) : ∃ k' v, semWait k id = some (k', .ret v) ∧ Waited k id k' := by
  rcases Nat.eq_zero_or_pos (k.sems id).value with hv | hv
  · have hempty : ¬ (k.sems id).value > 0 := by simp [hv]
    cases ha : k.allocs 0 with
    | false =>
      refine ⟨Kernel.setSem { k with allocs := fun n => k.allocs (n + 1) } id
        (release { k.sems id with lock := true }), -1, ?_, ?_⟩
      · unfold semWait wait
        simp only [accessSem_open hm hid, acquire_unlocked hp.unlocked, Kernel.allocMemory, ha,
          Option.bind_eq_bind, Option.bind_some, if_neg hempty, Bool.not_false, if_true]
      · refine ⟨⟨rfl, rfl, rfl, rfl, rfl⟩, fun i hi => Function.update_of_ne hi _ _, ?_, ?_, ?_⟩
        · simp [Kernel.setSem, release]
        · simp [Kernel.setSem, release, waitQueue, ha]
        · exact fun n => by simp [Kernel.setSem, waitAllocs, hv, ha]
    | true =>
      obtain hp' | hp' | ⟨hrun, hq⟩ := hp.passes
      · exact absurd hp' hempty
      · cases ha.symm.trans hp'
      · obtain ⟨k1, hw, heq⟩ := wait_empty hm hid hp.unlocked hv ha hq
        have habsent : getCurrentPid k ∉ k1.queue .ready := hw.queue ▸ hrun
        refine ⟨k1, 0, ?_, hw⟩
        rw [heq, blockProcessBySem_absent habsent]
        rfl
  · obtain ⟨v, hv⟩ := Nat.exists_eq_succ_of_ne_zero (Nat.ne_of_gt hv)
    refine ⟨_, 0, semWait_some hm hid hp.unlocked hv, ?_⟩
    refine ⟨⟨rfl, rfl, rfl, rfl, rfl⟩, fun i hi => Function.update_of_ne hi _ _, ?_, ?_, ?_⟩
    · simp [Kernel.observe, Kernel.setSem, hp.unlocked]
    · simp [Kernel.observe, Kernel.setSem, waitQueue, hv]
    · exact fun n => by simp [Kernel.observe, Kernel.setSem, waitAllocs, hv]

/-- A `wait` that does not pass takes the CPU from the process. -/
theorem semWait_cases {r : Kernel × Flow} (hid : Machine.SemIdOk id) (h : semWait k id = some r) :
    (k.semManager = true ∧ Passes k 0 id ∧ r.2 ≠ .tick ∧ Waited k id r.1) ∨
      (r.2 = .tick ∧ WentToWait k r.1) := by
  have h' := h
  obtain ⟨sem, hsem, h'⟩ := Option.bind_eq_some_iff.mp h'
  obtain ⟨hm, rfl⟩ := accessSem_manager hsem
  obtain ⟨sem', hacq, h'⟩ := Option.bind_eq_some_iff.mp h'
  obtain ⟨hl, rfl⟩ := acquire_eq hacq
  rcases em (Passes k 0 id) with hp | hp
  · obtain ⟨k', v, heq, hw⟩ := semWait_passes hm hid hp
    cases heq.symm.trans h
    exact .inl ⟨hm, hp, fun htick => (by cases htick), hw⟩
  · have hv : (k.sems id).value = 0 := Nat.eq_zero_of_not_pos fun hv => hp ⟨hl, .inl hv⟩
    have ha : k.allocs 0 = true := by
      rcases Bool.eq_false_or_eq_true (k.allocs 0) with ha | ha
      · exact ha
      · exact absurd ⟨hl, .inr (.inl ha)⟩ hp
    have hempty : ¬ (k.sems id).value > 0 := by simp [hv]
    have hq : (k.sems id).blocked ≠ .freed := by
      intro hq
      simp [hempty, Kernel.allocMemory, ha, enqueuePid, hq] at h'
    have hrun : getCurrentPid k ∈ k.queue .ready :=
      not_not.mp fun hrun => hp ⟨hl, .inr (.inr ⟨hrun, hq⟩)⟩
    obtain ⟨k1, hw, heq⟩ := wait_empty hm hid hl hv ha hq
    obtain ⟨r', hr', hr⟩ := Option.bind_eq_some_iff.mp (heq.symm.trans h)
    cases hr
    have hcur : getCurrentPid k1 = getCurrentPid k := congrArg (Option.getD · (-1)) hw.currentProcess
    obtain ⟨htick, hblocked⟩ := blockProcessBySem_present hcur (hw.queue ▸ hrun) hr'
    refine .inr ⟨if_pos htick, hrun, ?_⟩
    rw [hblocked, hw.queue]

end

/-! ## Posting -/

/-- Whom a `post` wakes, the processes of `l` being blocked: the first in the queue, if it is
one of them. -/
def wokenFrom (q : SemQueue) (l : List Pid) : List Pid :=
  match q with
  | .live (p :: _) => if p ∈ l then [p] else []
  | _ => []

/-- All that has happened to the processes is that those of `woken` have been made ready. -/
structure Woke (k : Kernel) (woken : List Pid) (k' : Kernel) : Prop where
  ready : k'.queue .ready = k.queue .ready ++ woken
  blockedBySem : k'.queue .blockedBySem = woken.foldl List.erase (k.queue .blockedBySem)
  blocked : k'.queue .blocked = k.queue .blocked
  zombie : k'.queue .zombie = k.queue .zombie
  state : ∀ p, (k'.procs p).map PCB.state =
    if p ∈ woken then some .READY else (k.procs p).map PCB.state

/-- After a `post(id)`. -/
structure Posted (k : Kernel) (id : Int) (k' : Kernel) : Prop where
  alive : ∀ p ∈ wokenFrom (k.sems id).blocked (k.queue .blockedBySem), (k.procs p).isSome
  woke : Woke k (wokenFrom (k.sems id).blocked (k.queue .blockedBySem)) k'
  others : ∀ i, i ≠ id → k'.sems i = k.sems i
  changed : k'.sems id ≠ k.sems id
  semManager : k'.semManager = k.semManager

section

variable {k k' k1 : Kernel} {id : Int} {p : Pid} {l l1 : List Pid}

theorem Calm.woke (h : Calm k k') : Woke k [] k' := by
  refine ⟨?_, ?_, ?_, ?_, fun p => ?_⟩
  · simp [h.queue]
  · simp [h.queue]
  · rw [h.queue]
  · rw [h.queue]
  · simp [h.procs]

theorem Woke.trans (h : Woke k l k1) (h1 : Woke k1 l1 k') : Woke k (l ++ l1) k' := by
  refine ⟨?_, ?_, ?_, ?_, fun p => ?_⟩
  · rw [h1.ready, h.ready, List.append_assoc]
  · rw [h1.blockedBySem, h.blockedBySem, List.foldl_append]
  · rw [h1.blocked, h.blocked]
  · rw [h1.zombie, h.zombie]
  · rw [h1.state p, h.state p]
    simp only [List.mem_append]
    split <;> split <;> simp_all

theorem Woke.isSome (h : Woke k l k') (hp : (k.procs p).isSome) : (k'.procs p).isSome := by
  have hstate := h.state p
  rw [← Option.isSome_map (f := PCB.state), hstate]
  split
  · rfl
  · rwa [Option.isSome_map]

theorem Woke.isSome_back (h : Woke k l k') (hl : ∀ q ∈ l, (k.procs q).isSome)
    (hp : (k'.procs p).isSome) : (k.procs p).isSome := by
  have hstate := h.state p
  rw [← Option.isSome_map (f := PCB.state), hstate] at hp
  split at hp
  · next hmem => exact hl p hmem
  · rwa [Option.isSome_map] at hp

theorem Woke.head {b : PCB} (hb : b.state = .READY) :
    Woke k [p] (k.move .blockedBySem .ready p b) := by
  refine ⟨?_, ?_, ?_, ?_, fun q => ?_⟩
  · simp [Kernel.move, Kernel.setQueue, Kernel.setPCB]
  · simp [Kernel.move, Kernel.setQueue, Kernel.setPCB]
  · simp [Kernel.move, Kernel.setQueue, Kernel.setPCB]
  · simp [Kernel.move, Kernel.setQueue, Kernel.setPCB]
  · rcases eq_or_ne q p with rfl | hq
    · simp [Kernel.move, Kernel.setQueue, Kernel.setPCB, hb]
    · simp [Kernel.move, Kernel.setQueue, Kernel.setPCB, hq]

theorem semPost_posted {r : Kernel × Flow} (h : semPost k id = some r) :
    k.semManager = true ∧ (k.sems id).lock = false ∧ (k.sems id).blocked ≠ .freed ∧
      Posted k id r.1 := by
  obtain ⟨sem, hsem, h⟩ := Option.bind_eq_some_iff.mp h
  obtain ⟨hm, rfl⟩ := accessSem_manager hsem
  obtain ⟨sem', hacq, h⟩ := Option.bind_eq_some_iff.mp h
  obtain ⟨hl, rfl⟩ := acquire_eq hacq
  refine ⟨hm, hl, ?_⟩
  dsimp only at h
  split at h
  · cases h
  · next p rest hq =>
    obtain ⟨⟨k1, moved⟩, h1, h⟩ := Option.bind_eq_some_iff.mp h
    cases h
    have hchanged : ∀ sem : Sem, sem.blocked = .live rest → sem ≠ k.sems id := by
      rintro sem hb rfl
      cases hb.symm.trans hq
    refine ⟨fun hf => (by cases hf.symm.trans hq), ?_⟩
    rcases moveProcess_cases (by decide) h1 with ⟨rfl, rfl, habsent⟩ | ⟨rfl, hp, b, hb, rfl⟩
    · have hnone : wokenFrom (k.sems id).blocked (k.queue .blockedBySem) = [] := by
        rw [hq]
        exact if_neg habsent
      refine ⟨fun q hq => ?_, ?_, fun i hi => ?_, ?_, rfl⟩
      · rw [hnone] at hq
        exact absurd hq List.not_mem_nil
      · rw [hnone]
        exact Calm.woke ⟨rfl, rfl, rfl, rfl, rfl⟩
      · simp [Kernel.observe, Kernel.setSem, hi]
      · simpa [Kernel.observe, Kernel.setSem] using hchanged _ rfl
    · have hsome : wokenFrom (k.sems id).blocked (k.queue .blockedBySem) = [p] := by
        rw [hq]
        exact if_pos hp
      refine ⟨fun q hq => ?_, ?_, fun i hi => ?_, ?_, rfl⟩
      · rw [hsome, List.mem_singleton] at hq
        have hb : k.procs p = some b := hb
        rw [hq, hb]
        rfl
      · rw [hsome]
        have hw : Woke k [p] (k.move .blockedBySem .ready p { b with state := .READY }) := .head rfl
        exact ⟨hw.ready, hw.blockedBySem, hw.blocked, hw.zombie, hw.state⟩
      · simp [Kernel.observe, Kernel.setSem, Kernel.move, Kernel.setQueue, Kernel.setPCB, hi]
      · simpa [Kernel.observe, Kernel.setSem] using hchanged _ rfl
  · next hfreed hne =>
    cases h
    have hnone : wokenFrom (k.sems id).blocked (k.queue .blockedBySem) = [] := by
      unfold wokenFrom
      split
      · next p rest hq => exact absurd hq (hne p rest)
      · rfl
    refine ⟨fun hf => hfreed hf, fun q hq => ?_, ?_, fun i hi => ?_, ?_, rfl⟩
    · rw [hnone] at hq
      exact absurd hq List.not_mem_nil
    · rw [hnone]
      exact Calm.woke ⟨rfl, rfl, rfl, rfl, rfl⟩
    · simp [Kernel.observe, Kernel.setSem, hi]
    · intro he
      have hv := congrArg Sem.value he
      simp [Kernel.observe, Kernel.setSem, release] at hv
      omega

theorem mem_wokenFrom {q : SemQueue} (h : p ∈ wokenFrom q l) : p ∈ l := by
  unfold wokenFrom at h
  split at h
  · split at h
    · next hp => exact List.mem_singleton.mp h ▸ hp
    · cases h
  · cases h

theorem moveProcess_isSome {f t : QueueName} {st : State}
    (h : p ∈ k.queue f → (k.procs p).isSome) : ∃ r, moveProcess k f t p st = some r := by
  unfold moveProcess switchProcessFromQueues
  rcases em (p ∈ k.queue f) with hp | hp
  · obtain ⟨b, hb⟩ := Option.isSome_iff_exists.mp (h hp)
    simp [hp, Kernel.setQueue, hb]
  · simp [hp]

theorem semPost_isSome (hm : k.semManager = true) (hid : Machine.SemIdOk id)
    (hl : (k.sems id).lock = false) (hq : (k.sems id).blocked ≠ .freed)
    (hpcb : ∀ p ∈ wokenFrom (k.sems id).blocked (k.queue .blockedBySem), (k.procs p).isSome) :
    ∃ r, semPost k id = some r := by
  unfold semPost post
  simp only [accessSem_open hm hid, acquire_unlocked hl, Option.bind_eq_bind, Option.bind_some]
  split
  · next hf => exact absurd hf hq
  · next p rest hb =>
    have hhead : p ∈ k.queue .blockedBySem → (k.procs p).isSome := by
      intro hp
      refine hpcb p ?_
      rw [hb]
      simp [wokenFrom, hp]
    let sem : Sem := { k.sems id with lock := true, blocked := .live rest }
    obtain ⟨r, hr⟩ : ∃ r, unblockProcessBySem (k.setSem id sem) p = some r := moveProcess_isSome hhead
    exact ⟨_, by rw [hr]; rfl⟩
  · exact ⟨_, rfl⟩

end

/-! ## The write -/

/-- Neither `semWait` of the `pipeWrite` suspends it, and no queue it reads has been freed. -/
structure Unsuspended (k : Kernel) : Prop where
  semManager : k.semManager = true
  writers : Passes k 0 1
  mutex : Passes k (waitAllocs k 0 1) 2
  mutexQueue : waitQueue k (waitAllocs k 0 1) 2 ≠ .freed
  readers : (k.sems 0).lock = false
  readersQueue : (k.sems 0).blocked ≠ .freed

instance (k : Kernel) : Decidable (Unsuspended k) :=
  decidable_of_iff (k.semManager = true ∧ Passes k 0 1 ∧ Passes k (waitAllocs k 0 1) 2 ∧
    waitQueue k (waitAllocs k 0 1) 2 ≠ .freed ∧ (k.sems 0).lock = false ∧
    (k.sems 0).blocked ≠ .freed)
    ⟨fun ⟨hm, hw, hp, hq, hl, hr⟩ => ⟨hm, hw, hp, hq, hl, hr⟩,
      fun h => ⟨h.semManager, h.writers, h.mutex, h.mutexQueue, h.readers, h.readersQueue⟩⟩

/-- Whom the `semPost(mutex)` wakes. -/
def wokenByMutex (k : Kernel) : List Pid :=
  wokenFrom (waitQueue k (waitAllocs k 0 1) 2) (k.queue .blockedBySem)

/-- Whom the write wakes: a process that waits for `mutex`, and one that waits for a byte. -/
def wokenByWrite (k : Kernel) : List Pid :=
  wokenByMutex k ++
    wokenFrom (k.sems 0).blocked ((wokenByMutex k).foldl List.erase (k.queue .blockedBySem))

section

variable {k k' k1 : Kernel} {id i : Int} {n : Nat} {p : Pid} {c : Byte}

theorem Waited.passes_iff (h : Waited k id k1) (hi : i ≠ id) :
    Passes k1 0 i ↔ Passes k (waitAllocs k 0 id) i := by
  have hcur : getCurrentPid k1 = getCurrentPid k := congrArg (Option.getD · (-1)) h.currentProcess
  constructor
  · rintro ⟨hl, hp⟩
    rw [h.others i hi, h.allocs, hcur, h.queue, Nat.zero_add] at hp
    exact ⟨h.others i hi ▸ hl, hp⟩
  · rintro ⟨hl, hp⟩
    refine ⟨(h.others i hi).symm ▸ hl, ?_⟩
    rw [h.others i hi, h.allocs, hcur, h.queue, Nat.zero_add]
    exact hp

theorem Waited.waitQueue_eq (h : Waited k id k1) (hi : i ≠ id) :
    waitQueue k1 0 i = waitQueue k (waitAllocs k 0 id) i := by
  have hcur : getCurrentPid k1 = getCurrentPid k := congrArg (Option.getD · (-1)) h.currentProcess
  simp only [waitQueue, h.others i hi, h.allocs, hcur, Nat.zero_add, Nat.add_comm 1]

theorem pipeIdCheck_shell (S : ShellPipe k) : pipeIdCheck k 0 = some 0 := by
  simp [pipeIdCheck, S.isOpen, maxPipes]

/-- What the critical section writes is in the pipe. -/
theorem putByte_calm (k : Kernel) (slot : Nat) (p : Pid) (c : Byte) :
    Calm k (putByte k slot p c).1 ∧ (putByte k slot p c).1.sems = k.sems := by
  unfold putByte
  dsimp only
  split
  · exact ⟨⟨rfl, rfl, rfl, rfl, rfl⟩, rfl⟩
  · exact ⟨⟨rfl, rfl, rfl, rfl, rfl⟩, rfl⟩

/-- Before the two posts. -/
structure Written (k k' : Kernel) : Prop extends Calm k k' where
  mutexLock : (k'.sems 2).lock = false
  mutexQueue : (k'.sems 2).blocked = waitQueue k (waitAllocs k 0 1) 2
  readers : k'.sems 0 = k.sems 0

theorem Waited.written {k2 : Kernel} (hw : Waited k 1 k1) (hw' : Waited k1 2 k2) :
    Written k (putByte k2 0 p c).1 := by
  obtain ⟨hcalm, hsems⟩ := putByte_calm k2 0 p c
  refine ⟨(hw.toCalm.trans hw'.toCalm).trans hcalm, ?_, ?_, ?_⟩
  · rw [hsems, hw'.lock]
  · rw [hsems, hw'.blocked, hw.waitQueue_eq (by decide)]
  · rw [hsems, hw'.others 0 (by decide), hw.others 0 (by decide)]

theorem Written.postMutex {r : Kernel × Flow} (W : Written k k') (h : semPost k' 2 = some r) :
    waitQueue k (waitAllocs k 0 1) 2 ≠ .freed ∧ (∀ q ∈ wokenByMutex k, (k.procs q).isSome) ∧
      Woke k (wokenByMutex k) r.1 ∧ r.1.sems 0 = k.sems 0 ∧ r.1.semManager = k.semManager := by
  obtain ⟨-, -, hq, P⟩ := semPost_posted h
  have hwoke := P.woke
  have halive := P.alive
  rw [W.mutexQueue] at hq hwoke halive
  rw [W.queue] at hwoke halive
  rw [W.procs] at halive
  exact ⟨hq, halive, W.toCalm.woke.trans hwoke, (P.others 0 (by decide)).trans W.readers,
    P.semManager.trans W.semManager⟩

/-- The write has been suspended, with nothing written. -/
structure Suspended (k k' : Kernel) : Prop where
  blockedBySem : k'.queue .blockedBySem = k.queue .blockedBySem ++ [getCurrentPid k]
  pipes : k'.pipes = k.pipes

/-- The write has come to its end: all that it has done to the processes is to wake those of
`wokenByWrite`, and to the pipes what its critical section does. -/
structure Ended (k : Kernel) (p : Pid) (c : Byte) (k' : Kernel) : Prop where
  unsuspended : Unsuspended k
  alive : ∀ q ∈ wokenByWrite k, (k.procs q).isSome
  woke : Woke k (wokenByWrite k) k'
  readers : k'.sems 0 ≠ k.sems 0
  pipes : k'.pipes = (putByte k 0 p c).1.pipes

theorem putByte_pipes {k2 : Kernel} {slot : Nat} (h : k2.pipes = k.pipes) :
    (putByte k2 slot p c).1.pipes = (putByte k slot p c).1.pipes := by
  unfold putByte
  rw [h]
  dsimp only
  split
  · simp only [Kernel.observe, Kernel.setPipe, h]
  · exact h

theorem pipeWriteByte_cases (S : ShellPipe k) {r : Kernel × Option (Int × Stage)}
    (h : pipeWriteByte k p c = some r) :
    (r.2.isSome ∧ Suspended k r.1) ∨ (r.2 = none ∧ Ended k p c r.1) := by
  unfold pipeWriteByte at h
  simp only [ensurePipeManagerInit_eq S.init, pipeIdCheck_shell S] at h
  obtain ⟨r1, h1, h⟩ := Option.bind_eq_some_iff.mp h
  have hpipes1 := semWait_keeps r1 h1
  have S1 := S.congr hpipes1
  rw [S.semWriters] at h1
  rcases semWait_cases (by decide) h1 with ⟨hm, hp, hflow, hw⟩ | ⟨hflow, hwent⟩
  · rw [if_neg hflow] at h
    obtain ⟨r2, h2, h⟩ := Option.bind_eq_some_iff.mp h
    have hpipes2 := hpipes1.trans (semWait_keeps r2 h2)
    have S2 := S1.congr (semWait_keeps r2 h2)
    rw [S1.mutex] at h2
    rcases semWait_cases (by decide) h2 with ⟨-, hp', hflow', hw'⟩ | ⟨hflow', hwent'⟩
    · rw [if_neg hflow'] at h
      obtain ⟨r3, h3, h⟩ := Option.bind_eq_some_iff.mp h
      obtain ⟨r4, h4, h⟩ := Option.bind_eq_some_iff.mp h
      cases h
      have S3 : ShellPipe (putByte r2.1 0 p c).1 := putByte_shell S2
      have hpipes3 := (semPost_keeps r3 h3).trans (semPost_keeps r4 h4)
      rw [S3.mutex] at h3
      rw [(S3.congr (semPost_keeps r3 h3)).semReaders] at h4
      obtain ⟨hq, halive, hwoke, hreaders, -⟩ := (hw.written hw').postMutex h3
      obtain ⟨-, hl, hq', P⟩ := semPost_posted h4
      have halive' := P.alive
      have hwoke' := P.woke
      have hchanged := P.changed
      rw [hreaders] at hl hq' halive' hwoke' hchanged
      rw [hwoke.blockedBySem] at halive' hwoke'
      refine .inr ⟨rfl, ⟨hm, hp, (hw.passes_iff (by decide)).mp hp', hq, hl, hq'⟩, fun q hq => ?_,
        hwoke.trans hwoke', hchanged, hpipes3.pipes.trans (putByte_pipes hpipes2.pipes)⟩
      rcases List.mem_append.mp hq with hq | hq
      · exact halive q hq
      · exact hwoke.isSome_back halive (halive' q hq)
    · rw [if_pos hflow'] at h
      cases h
      have hcur : getCurrentPid r1.1 = getCurrentPid k :=
        congrArg (Option.getD · (-1)) hw.currentProcess
      exact .inl ⟨rfl, by rw [hwent'.blockedBySem, hw.queue, hcur], hpipes2.pipes⟩
  · rw [if_pos hflow] at h
    cases h
    exact .inl ⟨rfl, hwent.blockedBySem, hpipes1.pipes⟩

theorem pipeWriteByte_eq {k2 : Kernel} {v1 v2 : Int} {r3 r4 : Kernel × Flow} (S : ShellPipe k)
    (h1 : semWait k 1 = some (k1, .ret v1)) (h2 : semWait k1 2 = some (k2, .ret v2))
    (h3 : semPost (putByte k2 0 p c).1 2 = some r3) (h4 : semPost r3.1 0 = some r4) :
    pipeWriteByte k p c = some (r4.1, none) := by
  have S1 : ShellPipe k1 := S.congr (semWait_keeps _ h1)
  have S2 : ShellPipe k2 := S1.congr (semWait_keeps _ h2)
  have S3 : ShellPipe (putByte k2 0 p c).1 := putByte_shell S2
  unfold pipeWriteByte
  simp only [ensurePipeManagerInit_eq S.init, pipeIdCheck_shell S, S.semWriters, S1.mutex, h1, h2,
    Option.bind_eq_bind, Option.bind_some, reduceCtorEq, if_false, S3.mutex, h3,
    (S3.congr (semPost_keeps r3 h3)).semReaders, h4]

/-- The four semaphore operations of a write that is not suspended. -/
theorem Unsuspended.calls (U : Unsuspended k)
    (hpcb : ∀ q ∈ wokenByWrite k, (k.procs q).isSome) :
    ∃ k1 v1 k2 v2 r3 r4, semWait k 1 = some (k1, .ret v1) ∧ semWait k1 2 = some (k2, .ret v2) ∧
      semPost (putByte k2 0 p c).1 2 = some r3 ∧ semPost r3.1 0 = some r4 := by
  obtain ⟨k1, v1, h1, hw⟩ := semWait_passes U.semManager (by decide) U.writers
  have hm1 : k1.semManager = true := hw.semManager.trans U.semManager
  obtain ⟨k2, v2, h2, hw'⟩ := semWait_passes hm1 (by decide) ((hw.passes_iff (by decide)).mpr U.mutex)
  have W := hw.written (p := p) (c := c) hw'
  obtain ⟨r3, h3⟩ : ∃ r, semPost (putByte k2 0 p c).1 2 = some r := by
    refine semPost_isSome (W.semManager.trans U.semManager) (by decide) W.mutexLock ?_ ?_
    · rw [W.mutexQueue]
      exact U.mutexQueue
    · rw [W.mutexQueue, W.queue, W.procs]
      exact fun q hq => hpcb q (List.mem_append_left _ hq)
  obtain ⟨-, -, hwoke, hreaders, hm3⟩ := W.postMutex h3
  obtain ⟨r4, h4⟩ : ∃ r, semPost r3.1 0 = some r := by
    refine semPost_isSome (hm3.trans U.semManager) (by decide) ?_ ?_ ?_
    · rw [hreaders]
      exact U.readers
    · rw [hreaders]
      exact U.readersQueue
    · rw [hreaders, hwoke.blockedBySem]
      exact fun q hq => hwoke.isSome (hpcb q (List.mem_append_right _ hq))
  exact ⟨k1, v1, k2, v2, r3, r4, h1, h2, h3, h4⟩

theorem pipeWriteByte_isSome (S : ShellPipe k) (U : Unsuspended k)
    (hpcb : ∀ q ∈ wokenByWrite k, (k.procs q).isSome) :
    ∃ k', pipeWriteByte k p c = some (k', none) := by
  obtain ⟨k1, v1, k2, v2, r3, r4, h1, h2, h3, h4⟩ := U.calls hpcb
  exact ⟨r4.1, pipeWriteByte_eq S h1 h2 h3 h4⟩

/-- In the same state a process that is about to write the byte comes to the same kernel, in
three steps. -/
theorem pipeWriteByte_resume {m : Machine} {off : Nat} (S : ShellPipe m.k) (U : Unsuspended m.k)
    (hpcb : ∀ q ∈ wokenByWrite m.k, (m.k.procs q).isSome)
    (hcont : m.cont m.cpu = .pipe 0 (.write [c] 0 0) .loop) :
    ∃ m1 m2 m3, m.resume off = some m1 ∧ m1.resume off = some m2 ∧ m2.resume off = some m3 ∧
      pipeWriteByte m.k m.cpu c = some (m3.k, none) := by
  obtain ⟨k1, v1, k2, v2, r3, r4, h1, h2, h3, h4⟩ := U.calls (p := m.cpu) (c := c) hpcb
  have S1 : ShellPipe k1 := S.congr (semWait_keeps _ h1)
  have S2 : ShellPipe k2 := S1.congr (semWait_keeps _ h2)
  have S3 : ShellPipe (putByte k2 0 m.cpu c).1 := putByte_shell S2
  let m1 := (m.withKernel k1).setCont (.pipe 0 (.write [c] 0 0) .mutex)
  let m2 := (m1.withKernel k2).setCont (.pipe 0 (.write [c] 0 0) .critical)
  let next := PipeOp.write [c] 1 (if (putByte k2 0 m.cpu c).2 then 1 else 0)
  let m3 := (m2.withKernel r4.1).setCont (.pipe 0 next .loop)
  have hresume : m.resume off = some m1 := by
    unfold Machine.resume
    simp only [hcont, Machine.writeStep, Machine.await, S.semWriters, h1]
    rfl
  have hresume1 : m1.resume off = some m2 := by
    have hcont1 : m1.cont m1.cpu = .pipe 0 (.write [c] 0 0) .mutex := Function.update_self ..
    have hid : (m1.k.pipes 0).mutex = 2 := S1.mutex
    have hwait : semWait m1.k 2 = some (k2, .ret v2) := h2
    unfold Machine.resume
    simp only [hcont1, Machine.writeStep, Machine.await, hid, hwait]
    rfl
  have hresume2 : m2.resume off = some m3 := by
    have hcont2 : m2.cont m2.cpu = .pipe 0 (.write [c] 0 0) .critical := Function.update_self ..
    have hput : putByte m2.k 0 m2.cpu c = putByte k2 0 m.cpu c := rfl
    unfold Machine.resume
    simp only [hcont2, Machine.writeStep, hput, Machine.leavePipe, S3.mutex, h3,
      List.getElem?_cons_zero, Option.bind_eq_bind, Option.bind_some, S3.semReaders, h4]
    rfl
  exact ⟨m1, m2, m3, hresume, hresume1, hresume2, pipeWriteByte_eq S h1 h2 h3 h4⟩

end

/-! ## What is written -/

/-- The unread bytes of pipe 0, the oldest one first. -/
def unread (k : Kernel) : List Byte :=
  ringContents pipeBufferSize (k.pipes 0).buffer (k.pipes 0).readIdx (k.pipes 0).count

/-- Pipe 0 has room for a byte, and the write is not suspended before it is in the pipe, nor
wakes a process that is gone. -/
structure TakesByte (k : Kernel) : Prop extends Unsuspended k where
  room : (k.pipes 0).count < pipeBufferSize
  alive : ∀ p ∈ wokenByWrite k, (k.procs p).isSome

instance (k : Kernel) : Decidable (TakesByte k) :=
  decidable_of_iff (Unsuspended k ∧ (k.pipes 0).count < pipeBufferSize ∧
    ∀ p ∈ wokenByWrite k, (k.procs p).isSome = true)
    ⟨fun ⟨hu, hr, ha⟩ => ⟨hu, hr, ha⟩, fun h => ⟨h.toUnsuspended, h.room, h.alive⟩⟩

section

variable {k k' : Kernel} {m m' : Machine} {off : Nat} {p : Pid} {c : Byte}

theorem unread_congr (h : k'.pipes = k.pipes) : unread k' = unread k := by rw [unread, h, unread]

/-- The critical section appends the byte exactly when there is room. -/
theorem unread_putByte (S : ShellPipe k) (p : Pid) (c : Byte) : unread (putByte k 0 p c).1 =
    if (k.pipes 0).count < pipeBufferSize then unread k ++ [c] else unread k := by
  unfold putByte
  dsimp only
  split
  · next hroom =>
    rw [unread, unread, ← ringContents_put S.ring hroom c]
    simp only [Kernel.observe, Kernel.setPipe, Function.update_self]
  · rfl

theorem interrupt_pipes (h : m.interrupt off = some m') : m'.k.pipes = m.k.pipes := by
  obtain ⟨r, hr, h⟩ := Option.bind_eq_some_iff.mp h
  cases h
  exact (schedule_kept r hr).pipes

theorem addToBuffer_appends_iff (S : ShellPipe m.k) (off : Nat) (c : Byte) :
    (∃ m', addToBuffer m off c = some m' ∧ unread m'.k = unread m.k ++ [c]) ↔ TakesByte m.k := by
  constructor
  · rintro ⟨m', h, happend⟩
    -- nothing else makes the contents longer
    have hgrow : ∀ k' : Kernel, unread k' = unread m.k → unread k' ≠ unread m.k ++ [c] := by
      intro k' hsame hne
      have hlen := congrArg List.length (hsame.symm.trans hne)
      rw [List.length_append, List.length_singleton] at hlen
      exact absurd hlen (Nat.ne_of_lt (Nat.lt_succ_self _))
    obtain ⟨⟨k1, suspended⟩, hr, h⟩ := Option.bind_eq_some_iff.mp h
    rcases pipeWriteByte_cases S hr with ⟨hsome, hend⟩ | ⟨hnone, hend⟩
    · obtain ⟨x, rfl⟩ := Option.isSome_iff_exists.mp hsome
      have hpipes := (interrupt_pipes h).trans hend.pipes
      exact absurd happend (hgrow _ (unread_congr hpipes))
    · obtain rfl : suspended = none := hnone
      cases h
      refine ⟨hend.unsuspended, not_not.mp fun hfull => ?_, hend.alive⟩
      have hput := (unread_congr hend.pipes).trans (unread_putByte S m.cpu c)
      rw [if_neg hfull] at hput
      exact hgrow _ hput happend
  · intro T
    obtain ⟨k', hk'⟩ := pipeWriteByte_isSome (p := m.cpu) (c := c) S T.toUnsuspended T.alive
    refine ⟨m.withKernel k', by simp [addToBuffer, hk'], ?_⟩
    rcases pipeWriteByte_cases S hk' with ⟨hsome, -⟩ | ⟨-, hend⟩
    · cases hsome
    · have hput := (unread_congr hend.pipes).trans (unread_putByte S m.cpu c)
      rw [if_pos T.room] at hput
      exact hput

end

/-! ## The keystroke -/

/-- The process waits for a semaphore in the middle of a `pipeRead` of pipe 0. -/
structure ReadsKeyboard (m : Machine) (p : Pid) : Prop where
  waits : p ∈ m.k.queue .blockedBySem
  alive : (m.k.procs p).isSome
  reads : ∃ id size i buffer bytesRead stage,
    m.cont p = .waited id (.pipe 0 (.read size i buffer bytesRead) stage)

/-- Nothing about pipe 0 has changed. -/
structure SamePipe (k k' : Kernel) : Prop where
  pipe : k'.pipes 0 = k.pipes 0
  readers : k'.sems 0 = k.sems 0
  writers : k'.sems 1 = k.sems 1
  mutex : k'.sems 2 = k.sems 2

/-- The process running goes on; the only ones that have changed queue or state were reading
pipe 0, and are ready; and when pipe 0 was full nothing about it has changed. -/
structure Undisturbed (m m' : Machine) : Prop where
  cpu : m'.cpu = m.cpu
  cont : m'.cont = m.cont
  woke : ∃ woken, (∀ p ∈ woken, ReadsKeyboard m p) ∧ Woke m.k woken m'.k
  full : ¬ (m.k.pipes 0).count < pipeBufferSize → SamePipe m.k m'.k

/-- There is room in pipe 0, and the write is neither suspended nor wakes any process but a
reader. -/
structure Writable (m : Machine) : Prop extends Unsuspended m.k where
  room : (m.k.pipes 0).count < pipeBufferSize
  wakesReaders : ∀ p ∈ wokenByWrite m.k, ReadsKeyboard m p

section

variable {m m' : Machine} {off : Nat}

theorem schedule_blockedBySem {k : Kernel} {sp : Sp} {r : Kernel × Sp} (h : schedule k sp = some r) :
    r.1.queue .blockedBySem = k.queue .blockedBySem := by
  obtain ⟨current, -, h⟩ := Option.bind_eq_some_iff.mp h
  obtain ⟨process, -, h⟩ := Option.bind_eq_some_iff.mp h
  split at h
  · cases h
    rfl
  · obtain ⟨⟨k1, next⟩, hnext, h⟩ := Option.bind_eq_some_iff.mp h
    obtain ⟨b, -, h⟩ := Option.bind_eq_some_iff.mp h
    cases h
    have hsuspend : (suspend k current process sp).queue = k.queue := by
      unfold suspend
      dsimp only
      split <;> rfl
    show k1.queue .blockedBySem = _
    rw [← hsuspend]
    unfold getNextProcess at hnext
    split at hnext
    · obtain ⟨idle, -, hnext⟩ := Option.bind_eq_some_iff.mp hnext
      cases hnext
      rfl
    · obtain ⟨b', -, hnext⟩ := Option.bind_eq_some_iff.mp hnext
      cases hnext
      split <;> rfl

theorem interrupt_blockedBySem (h : m.interrupt off = some m') :
    m'.k.queue .blockedBySem = m.k.queue .blockedBySem := by
  obtain ⟨r, hr, h⟩ := Option.bind_eq_some_iff.mp h
  cases h
  exact schedule_blockedBySem hr

/-- A process more in the queue has not been woken. -/
theorem Woke.length_le {k k' : Kernel} {l : List Pid} (h : Woke k l k') :
    (k'.queue .blockedBySem).length ≤ (k.queue .blockedBySem).length := by
  have herase : ∀ l q : List Pid, (l.foldl List.erase q).length ≤ q.length := by
    intro l
    induction l with
    | nil => exact fun q => Nat.le_refl _
    | cons p l ih => exact fun q => Nat.le_trans (ih (q.erase p)) List.erase_sublist.length_le
  rw [h.blockedBySem]
  exact herase _ _

theorem addToBuffer_undisturbed_iff (S : ShellPipe m.k) (off : Nat) (b : Byte) :
    (∃ m', addToBuffer m off b = some m' ∧ Undisturbed m m') ↔ Writable m := by
  constructor
  · rintro ⟨m', h, hm⟩
    obtain ⟨⟨k1, suspended⟩, hr, h⟩ := Option.bind_eq_some_iff.mp h
    rcases pipeWriteByte_cases S hr with ⟨hsome, hend⟩ | ⟨hnone, hend⟩
    · -- one process more is blocked, and no switch of the CPU takes it back
      exfalso
      obtain ⟨woken, -, hwoke⟩ := hm.woke
      obtain ⟨x, rfl⟩ := Option.isSome_iff_exists.mp hsome
      have hq := (interrupt_blockedBySem h).trans hend.blockedBySem
      have hle := hwoke.length_le
      rw [hq, List.length_append, List.length_singleton] at hle
      exact absurd hle (Nat.not_succ_le_self _)
    · obtain rfl : suspended = none := hnone
      cases h
      obtain ⟨woken, hread, hwoke'⟩ := hm.woke
      have hsame : woken = wokenByWrite m.k :=
        List.append_cancel_left (hwoke'.ready.symm.trans hend.woke.ready)
      refine ⟨hend.unsuspended, not_not.mp fun hfull => ?_, hsame ▸ hread⟩
      exact hend.readers (hm.full hfull).readers
  · intro W
    obtain ⟨k', hk'⟩ := pipeWriteByte_isSome (p := m.cpu) (c := b) S W.toUnsuspended
      fun q hq => (W.wakesReaders q hq).alive
    refine ⟨m.withKernel k', by simp [addToBuffer, hk'], rfl, rfl, ⟨_, W.wakesReaders, ?_⟩,
      fun hfull => absurd W.room hfull⟩
    rcases pipeWriteByte_cases S hk' with ⟨hsome, -⟩ | ⟨-, hend⟩
    · cases hsome
    · exact hend.woke

theorem Undisturbed.refl (m : Machine) : Undisturbed m m :=
  ⟨rfl, rfl, ⟨[], fun _ hp => absurd hp List.not_mem_nil, Calm.woke ⟨rfl, rfl, rfl, rfl, rfl⟩⟩,
    fun _ => ⟨rfl, rfl, rfl, rfl⟩⟩

end

/-! ## A full pipe -/

/-- A semaphore nobody waits for. -/
def quiet (v : Nat) : Sem := { value := v, lock := false, used := true, blocked := .live [] }

/-- The shell computes; `n` characters wait to be read. -/
structure Typing (n : Nat) (m : Machine) : Prop where
  user : m.cont m.cpu = .user
  pipe : ShellPipe m.k
  count : (m.k.pipes 0).count = n
  readers : ∃ v, m.k.sems 0 = quiet v
  writers : m.k.sems 1 = quiet (pipeBufferSize - n)
  mutex : m.k.sems 2 = quiet 1
  semManager : m.k.semManager = true
  memory : ∀ i, m.k.allocs i = true
  ready : m.k.queue .ready = [shellPid]
  blockedBySem : m.k.queue .blockedBySem = []
  current : m.k.currentProcess = some shellPid
  idle : m.k.idleProcess = some 0
  shellAlive : (m.k.procs shellPid).isSome
  idleAlive : (m.k.procs 0).isSome

/-- All that has changed is the semaphore. -/
structure SemSet (k : Kernel) (id : Int) (sem : Sem) (k' : Kernel) : Prop extends Calm k k' where
  sems : k'.sems = Function.update k.sems id sem
  pipes : k'.pipes = k.pipes
  allocs : k'.allocs = k.allocs

section

variable {k : Kernel} {id : Int} {m : Machine} {n v off : Nat}

theorem SemSet.observe (k : Kernel) (id : Int) (sem : Sem) (o : Obs) :
    SemSet k id sem ((k.setSem id sem).observe o) :=
  ⟨⟨rfl, rfl, rfl, rfl, rfl⟩, rfl, rfl, rfl⟩

theorem semWait_token (hm : k.semManager = true) (hid : Machine.SemIdOk id)
    (hs : k.sems id = quiet (v + 1)) :
    ∃ k', semWait k id = some (k', .ret 0) ∧ SemSet k id (quiet v) k' := by
  refine ⟨_, ?_, .observe k id (quiet v) (.took id (getCurrentPid k))⟩
  have hwait := semWait_some hm hid (by rw [hs]; rfl) (by rw [hs]; rfl)
  rw [hs] at hwait
  exact hwait

theorem semPost_quiet (hm : k.semManager = true) (hid : Machine.SemIdOk id)
    (hs : k.sems id = quiet v) :
    ∃ k', semPost k id = some (k', .ret 0) ∧ SemSet k id (quiet ((v + 1) % 2 ^ 32)) k' := by
  refine ⟨_, ?_, .observe k id (quiet ((v + 1) % 2 ^ 32)) (.incremented id (getCurrentPid k))⟩
  have hpost := semPost_nobody hm hid (by rw [hs]; rfl) (by rw [hs]; rfl)
  rw [hs] at hpost
  exact hpost

theorem Typing.key (T : Typing n m) (off : Nat) (b : Byte) (hn : n < pipeBufferSize) :
    ∃ m', addToBuffer m off b = some m' ∧ Typing (n + 1) m' := by
  obtain ⟨v, hv⟩ := T.readers
  have hw : m.k.sems 1 = quiet (pipeBufferSize - (n + 1) + 1) := by
    rw [T.writers]
    congr 1
    omega
  obtain ⟨k1, h1, C1⟩ := semWait_token T.semManager (by decide) hw
  have hmutex : k1.sems 2 = quiet (0 + 1) := by simpa [C1.sems] using T.mutex
  obtain ⟨k2, h2, C2⟩ := semWait_token (C1.semManager.trans T.semManager) (by decide) hmutex
  obtain ⟨k3, h3⟩ : ∃ k3, (putByte k2 0 m.cpu b).1 = k3 := ⟨_, rfl⟩
  have hpipe : k2.pipes 0 = m.k.pipes 0 := by rw [C2.pipes, C1.pipes]
  obtain ⟨hcalm, hsems⟩ := putByte_calm k2 0 m.cpu b
  have hput : (k3.pipes 0).count = n + 1 ∧ k3.allocs = k2.allocs := by
    have hroom : (k2.pipes 0).count < pipeBufferSize := by rwa [hpipe, T.count]
    rw [← h3, putByte, if_pos hroom]
    exact ⟨by simp [Kernel.observe, Kernel.setPipe, hpipe, T.count], rfl⟩
  rw [h3] at hcalm hsems
  have hmutex3 : k3.sems 2 = quiet 0 := by simp [hsems, C2.sems]
  have hm3 : k3.semManager = true :=
    ((C1.toCalm.trans C2.toCalm).trans hcalm).semManager.trans T.semManager
  obtain ⟨k4, h4, C4⟩ := semPost_quiet hm3 (by decide) hmutex3
  have hreaders4 : k4.sems 0 = quiet v := by simpa [C4.sems, hsems, C2.sems, C1.sems] using hv
  obtain ⟨k5, h5, C5⟩ := semPost_quiet (C4.semManager.trans hm3) (by decide) hreaders4
  have heq := pipeWriteByte_eq T.pipe h1 h2 (h3.symm ▸ h4) h5
  have hcalm5 : Calm m.k k5 :=
    (((C1.toCalm.trans C2.toCalm).trans hcalm).trans C4.toCalm).trans C5.toCalm
  refine ⟨m.withKernel k5, by simp [addToBuffer, heq], ?_⟩
  exact {
    user := T.user
    pipe := pipeWriteByte_shell T.pipe heq
    count := by
      show (k5.pipes 0).count = n + 1
      rw [C5.pipes, C4.pipes, hput.1]
    readers := ⟨_, by show k5.sems 0 = _; rw [C5.sems, Function.update_self]⟩
    writers := by
      show k5.sems 1 = _
      simp [C5.sems, C4.sems, hsems, C2.sems, C1.sems]
    mutex := by
      show k5.sems 2 = _
      simp [C5.sems, C4.sems]
    semManager := hcalm5.semManager.trans T.semManager
    memory := by
      show ∀ i, k5.allocs i = true
      rw [C5.allocs, C4.allocs, hput.2, C2.allocs, C1.allocs]
      exact T.memory
    ready := by
      show k5.queue .ready = _
      rw [hcalm5.queue, T.ready]
    blockedBySem := by
      show k5.queue .blockedBySem = _
      rw [hcalm5.queue, T.blockedBySem]
    current := hcalm5.currentProcess.trans T.current
    idle := hcalm5.idleProcess.trans T.idle
    shellAlive := by
      show (k5.procs shellPid).isSome
      rw [hcalm5.procs]
      exact T.shellAlive
    idleAlive := by
      show (k5.procs 0).isSome
      rw [hcalm5.procs]
      exact T.idleAlive }

theorem key_a (s : Desk) (hk : s.keys = bootKeys) (hu : s.m.cont s.m.cpu = .user) :
    step s (.key off 0x1E) = (addToBuffer s.m off 0x61).map fun m => ⟨bootKeys, m⟩ := by
  have ha : stroke bootKeys (0x1E : UInt8).toNat = (bootKeys, .char 0x61) := by decide
  simp only [step, if_pos hu, bufferWrite, hk, ha]

theorem boot_typing : ∃ m, (boot fun _ => true).step (.tick 0) = some m ∧ Typing 0 m := by
  refine ⟨_, rfl, ?_⟩
  exact {
    user := by decide
    pipe := ⟨by decide, by decide, by decide, by decide, by decide, by decide, by decide, by decide⟩
    count := by decide
    readers := ⟨0, by decide⟩
    writers := by decide
    mutex := by decide
    semManager := by decide
    memory := fun _ => rfl
    ready := by decide
    blockedBySem := by decide
    current := by decide
    idle := by decide
    shellAlive := by decide
    idleAlive := by decide }

/-- As many keystrokes as the pipe has room for fill it. -/
theorem reach_typing (hn : n ≤ pipeBufferSize) :
    ∃ s, Reach (fun _ => true) s ∧ s.keys = bootKeys ∧ Typing n s.m := by
  induction n with
  | zero =>
    obtain ⟨m, hm, T⟩ := boot_typing
    have hstep : step ⟨bootKeys, boot fun _ => true⟩ (.machine (.tick 0)) = some ⟨bootKeys, m⟩ := by
      simp [step, hm]
    exact ⟨⟨bootKeys, m⟩, .single _ trivial hstep, rfl, T⟩
  | succ n ih =>
    obtain ⟨s, hs, hk, T⟩ := ih (Nat.le_of_succ_le hn)
    obtain ⟨m', hm', T'⟩ := T.key 0 0x61 hn
    have hstep : step s (.key 0 0x1E) = some ⟨bootKeys, m'⟩ := by rw [key_a s hk T.user, hm']; rfl
    exact ⟨⟨bootKeys, m'⟩, .snoc _ hs trivial hstep, rfl, T'⟩

/-- With nobody ready, `schedule` takes the CPU from a blocked process to idle. -/
theorem schedule_idle {p : Pid} {b idle : PCB} {sp : Sp} (hc : k.currentProcess = some p)
    (hb : k.procs p = some b) (hs : b.state = .BLOCKED) (hr : k.queue .ready = [])
    (hi : k.idleProcess = some 0) (hidle : k.procs 0 = some idle) (hp : p ≠ 0) :
    ∃ r, schedule k sp = some r ∧ r.1.queue = k.queue := by
  obtain ⟨k1, hk1⟩ : ∃ k1, suspend k p b sp = k1 := ⟨_, rfl⟩
  have hsame : k1.queue = k.queue ∧ k1.idleProcess = k.idleProcess ∧
      k1.procs = Function.update k.procs p (some (suspendedPCB k.first b sp)) := by
    rw [← hk1]
    unfold suspend
    dsimp only
    split <;> exact ⟨rfl, rfl, rfl⟩
  have hnext : getNextProcess k1 = some ({ k1 with currentProcess := some 0 }, 0) := by
    unfold getNextProcess
    simp [hsame, hr, hi]
  have hidle1 : k1.procs 0 = some idle := by simp [hsame, hp.symm, hidle]
  have hrun : ¬ (k.quantum > 0 ∧ b.state = .RUNNING) := by simp [hs]
  unfold schedule
  simp only [hc, hb, Option.bind_eq_bind, Option.bind_some, if_neg hrun, hk1, hnext, dispatch, hidle1]
  exact ⟨_, rfl, hsame.1⟩

/-- One more puts the shell to sleep in the interrupt. -/
theorem Typing.suspended (T : Typing pipeBufferSize m) (off : Nat) (b : Byte) :
    ∃ m', addToBuffer m off b = some m' ∧ m'.k.queue .ready = [] ∧
      m'.k.queue .blockedBySem = [shellPid] := by
  have hsem : m.k.sems 1 = quiet 0 := T.writers
  obtain ⟨shell, hshell⟩ := Option.isSome_iff_exists.mp T.shellAlive
  obtain ⟨idle, hidle⟩ := Option.isSome_iff_exists.mp T.idleAlive
  obtain ⟨k1, hw, hwait⟩ := wait_empty T.semManager (by decide : Machine.SemIdOk 1)
    (by rw [hsem]; rfl)
    (by rw [hsem]; rfl) (T.memory 0) (by rw [hsem]; exact SemQueue.noConfusion)
  have hpid : getCurrentPid m.k = shellPid := getCurrentPid_eq T.current
  rw [hpid] at hwait
  have hready : k1.queue .ready = [shellPid] := by rw [hw.queue, T.ready]
  have hblocked : k1.queue .blockedBySem = [] := by rw [hw.queue, T.blockedBySem]
  have hpcb : k1.procs shellPid = some shell := by rw [hw.procs, hshell]
  have hcurrent : k1.currentProcess = some shellPid := hw.currentProcess.trans T.current
  let k2 : Kernel :=
    { k1.move .ready .blockedBySem shellPid { shell with state := .BLOCKED } with quantum := 0 }
  have hblock : blockProcessBySem k1 shellPid = some (k2, .tick) := by
    simp [blockProcessBySem, blockProcessQueueBySem, moveProcess, switchProcessFromQueues, hready,
      Kernel.setQueue, hpcb, yieldIfCurrent, getCurrentPid, hcurrent, Kernel.setPCB, yield, k2,
      Kernel.move]
  have hwrite : pipeWriteByte m.k m.cpu b = some (k2, some (1, .mutex)) := by
    rw [hblock] at hwait
    unfold pipeWriteByte
    simp only [ensurePipeManagerInit_eq T.pipe.init, pipeIdCheck_shell T.pipe, T.pipe.semWriters]
    rw [hwait]
    rfl
  have hready2 : k2.queue .ready = [] := by
    simp [k2, Kernel.move, Kernel.setPCB, Kernel.setQueue, hready]
  have hblocked2 : k2.queue .blockedBySem = [shellPid] := by
    simp [k2, Kernel.move, Kernel.setPCB, Kernel.setQueue, hblocked]
  have hidle2 : k2.procs 0 = some idle := by
    simp [k2, Kernel.move, Kernel.setPCB, Kernel.setQueue, hw.procs, hidle, shellPid]
  have hshell2 : k2.procs shellPid = some { shell with state := .BLOCKED } := by
    simp [k2, Kernel.move, Kernel.setPCB, Kernel.setQueue]
  have hcurrent2 : k2.currentProcess = some shellPid := hcurrent
  have hi2 : k2.idleProcess = some 0 := hw.idleProcess.trans T.idle
  obtain ⟨r, hr, hqueue⟩ : ∃ r, schedule k2 (.inside m.cpu off) = some r ∧ r.1.queue = k2.queue :=
    schedule_idle hcurrent2 hshell2 rfl hready2 hi2 hidle2 (by decide)
  refine ⟨{ (((m.withKernel k2).setCont (.waited 1 (.pipe 0 (.write [b] 0 0) .mutex)))) with
    k := r.1, cpu := r.2.stack }, ?_, ?_, ?_⟩
  · simp [addToBuffer, hwrite, Machine.interrupt, Machine.setCont, Machine.withKernel, hr]
  · exact (congrFun hqueue .ready).trans hready2
  · exact (congrFun hqueue .blockedBySem).trans hblocked2

end

/-! ## Who is disturbed -/

section

variable {s : Desk} {off : Nat} {c : UInt8}

/-- Away from Ctrl+C, a keystroke disturbs nobody exactly when it writes nothing or finds pipe 0
writable. -/
theorem keystroke_undisturbed_iff {allocs : Nat → Bool} (hs : Reach allocs s)
    (huser : s.m.cont s.m.cpu = .user) (hc : (stroke s.keys c.toNat).2 ≠ .interrupt) :
    (∃ s', step s (.key off c) = some s' ∧ Undisturbed s.m s'.m) ↔
      (stroke s.keys c.toNat).2 = .nothing ∨ Writable s.m := by
  obtain ⟨keys', hstroke⟩ : ∃ keys', stroke s.keys c.toNat = (keys', (stroke s.keys c.toNat).2) :=
    ⟨_, rfl⟩
  simp only [step, huser, if_true, bufferWrite]
  rw [hstroke]
  cases hk : (stroke s.keys c.toNat).2 with
  | interrupt => exact absurd hk hc
  | nothing =>
    refine iff_of_true ⟨_, rfl, ?_⟩ (.inl rfl)
    exact .refl s.m
  | char b =>
    have hwrite := addToBuffer_undisturbed_iff hs.shellPipe off b
    constructor
    · rintro ⟨s', h, hm⟩
      obtain ⟨m', hm', rfl⟩ := Option.map_eq_some_iff.mp h
      exact .inr (hwrite.mp ⟨m', hm', hm⟩)
    · rintro (hnothing | W)
      · cases hnothing
      · obtain ⟨m', hm', hm⟩ := hwrite.mpr W
        exact ⟨⟨keys', m'⟩, by simp [hm'], hm⟩

end

/-- The shell and its first child read the pipe, with an `a` typed in between, and the second
child computes. -/
def twoReaders : List Event :=
  [.machine (.tick 0), .machine (.call 0 (.createProcess backgroundArgs)),
    .machine (.call 0 (.createProcess backgroundArgs)), .machine (.call 0 (.readPipe 0 1)),
    .machine (.resume 0), .key 0 0x1E, .machine (.call 0 (.readPipe 0 1)), .machine (.resume 0)]

theorem twoReaders_run :
    ∃ s, Run.exec step Run.anyEvent ⟨bootKeys, boot fun _ => true⟩ twoReaders = some s ∧
      Run step Run.anyEvent ⟨bootKeys, boot fun _ => true⟩ s ∧ s.m.cont s.m.cpu = .user ∧
      (stroke s.keys (0x30 : UInt8).toNat).2 = .char 0x62 ∧ (s.m.k.pipes 0).count = 1 ∧
      Unsuspended s.m.k ∧ wokenByWrite s.m.k = [2] ∧ 2 ∈ s.m.k.queue .blockedBySem ∧
      (s.m.k.procs 2).isSome = true ∧
      s.m.cont 2 = .waited 0 (.pipe 0 (.read 1 0 [] 0) .mutex) :=
  Run.exists_exec (by decide +kernel)

/-- With a byte in the pipe and a process blocked reading it, a `b` is typed. -/
theorem keystroke_reader : ∃ s s', Reach (fun _ => true) s ∧ (s.m.k.pipes 0).count = 1 ∧
    ReadsKeyboard s.m 2 ∧ step s (.key 0 0x30) = some s' ∧ Undisturbed s.m s'.m := by
  obtain ⟨s, _, hs, huser, hchar, hcount, hun, hwoken, hblocked, halive, hcont⟩ := twoReaders_run
  have hreads : ReadsKeyboard s.m 2 := ⟨hblocked, halive, 0, 1, 0, [], 0, .mutex, hcont⟩
  have W : Writable s.m := by
    refine ⟨hun, by rw [hcount]; decide, fun p hp => ?_⟩
    rw [hwoken, List.mem_singleton] at hp
    exact hp ▸ hreads
  have hinterrupt : (stroke s.keys (0x30 : UInt8).toNat).2 ≠ .interrupt := by
    rw [hchar]
    exact Stroke.noConfusion
  obtain ⟨s', hstep, hsame⟩ := (keystroke_undisturbed_iff hs huser hinterrupt).mpr (.inr W)
  exact ⟨s, s', hs, hcount, hreads, hstep, hsame⟩

/-- A hundred characters wait in the pipe, the shell computes, and a key is pressed: the shell is
in the queue of those blocked by a semaphore. -/
theorem keystroke_suspends : ∃ s s', Reach (fun _ => true) s ∧ s.m.cont s.m.cpu = .user ∧
    (stroke s.keys (0x1E : UInt8).toNat).2 = .char 0x61 ∧
    (s.m.k.pipes 0).count = pipeBufferSize ∧ s.m.k.currentProcess = some shellPid ∧
    s.m.k.queue .ready = [shellPid] ∧ step s (.key 0 0x1E) = some s' ∧ s'.m.k.queue .ready = [] ∧
    s'.m.k.queue .blockedBySem = [shellPid] ∧ ¬ Undisturbed s.m s'.m := by
  obtain ⟨s, hs, hk, T⟩ := reach_typing (Nat.le_refl pipeBufferSize)
  obtain ⟨m', hm', hready, hblocked⟩ := T.suspended 0 0x61
  have hstep : step s (.key 0 0x1E) = some ⟨bootKeys, m'⟩ := by rw [key_a s hk T.user, hm']; rfl
  have hstroke : (stroke s.keys (0x1E : UInt8).toNat).2 = .char 0x61 := by rw [hk]; decide
  refine ⟨s, ⟨bootKeys, m'⟩, hs, T.user, hstroke, T.count, T.current, T.ready, hstep, hready,
    hblocked, fun hm => ?_⟩
  obtain ⟨woken, -, hwoke⟩ := hm.woke
  have hle := hwoke.length_le
  rw [T.blockedBySem, show (⟨bootKeys, m'⟩ : Desk).m.k.queue .blockedBySem = [shellPid] from hblocked]
    at hle
  exact absurd hle (by decide)

end SoKernel.Keyboard
