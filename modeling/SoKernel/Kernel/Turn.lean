import SoKernel.Kernel.Functions

/-!
# The steps of the machine

What the process on the CPU can do in one step before the CPU is given to another:
the effects on the kernel, and what is left of its system call.

Results:
1. `Machine.step_cases`: every step is a `Turn`, after which the process stays on
   the CPU or the timer interrupt is taken.
2. `Machine.interrupt_cases`: the interrupt.
-/

namespace SoKernel

/-- The effects of a system call of `c`; `semWait`, `waitpid` and the operations of
pipes are in `Turn`. -/
def Call.Admits (k : Kernel) (c : Pid) : Call → Label → Prop
  | .yield, l => l = .plain
  | .createProcess _, l => l.Creating k.nextPid
  | .kill p _, l => 2 ≤ p ∧ l.Killing p
  | .exit _, l => 2 ≤ c ∧ l.Killing c
  | .block p, l => l = .plain ∨ l = .block p
  | .unblock p, l => l = .unblock p
  | .changePrio _ _, l => l = .plain
  | .semOpen id _, l => l = .plain ∨ l = .semOpened id
  | .semPost id, l => (∃ p, l = .wake id p) ∨ (∃ p, l = .absorb id p) ∨ l = .incr id
  | .semClose id, l => l = .semClosed id
  | .openPipe, l => l = .plain ∨ (∃ id, l = .semOpened id) ∨
      ∃ slot, (k.pipes slot).isOpen = false ∧ (l = .pipeOpened slot ∨ l = .pipeReady slot)
  | .closePipe id, l => (∃ i ∈ closedByPipe k id, l = .semClosed i) ∨ ∃ slot, l = .pipeClosed slot
  | _, _ => False

/-- `semWait(id)` by `c`. -/
inductive Awaits (id : Int) (c : Pid) (k : Kernel) : Kernel → Flow → Prop
  | took {k1 : Kernel} : Effect (.took id) k k1 → Awaits id c k k1 (.ret 0)
  | failed : k.allocs 0 = false → (k.sems id).value = 0 →
      Awaits id c k { k with allocs := fun n => k.allocs (n + 1) } (.ret (-1))
  | slept {a : Nat → Bool} {k1 : Kernel} {queued : Bool} :
      Effects (fun l => l = .plain) k { k with allocs := a } →
      Effect (.sleep id c queued) { k with allocs := a } k1 →
      ((∀ n, k.allocs n = true) → (∃ pids, (k.sems id).blocked = .live pids) → queued = true) →
      Awaits id c k { k1 with quantum := 0 } .tick

/-- The semaphore a call waits for next. -/
def Pipe.awaited (pipe : Pipe) : PipeOp → Stage → Option Int
  | .read size i _ _, .loop => if i < size then some pipe.semReaders else none
  | .write data i _, .loop => if i < data.length then some pipe.semWriters else none
  | .clear, .loop => none
  | _, .mutex => some pipe.mutex
  | _, .critical => none

def Stage.next : Stage → Stage
  | .loop => .mutex
  | .mutex => .critical
  | .critical => .loop

/-- What a call whose loop has ended reports. -/
def PipeOp.result (slot : Nat) (pid : Pid) : PipeOp → Option Obs
  | .read size i buffer bytesRead =>
    if i < size then none else some (.readDone slot pid size buffer bytesRead)
  | .write data i bytesWritten =>
    if i < data.length then none else some (.writeDone slot pid data bytesWritten)
  | .clear => none

/-- A call of `pipeClear` on the pipe. -/
def Call.Clears (k : Kernel) (slot : Nat) : Call → Prop
  | .clearPipe id => pipeIdCheck k id = some slot
  | _ => False

/-- How a pipe operation starts. -/
inductive Starts : PipeOp → Stage → Prop
  | read (size : Nat) : Starts (.read size 0 [] 0) .loop
  | write (data : List Byte) : Starts (.write data 0 0) .loop
  | clear : Starts .clear .mutex

/-- The step of the process `c` on the CPU: the kernel and what is left of the
system call after it, and whether it ends in `callTimerTick` (`.tick`). -/
inductive Turn (m : Machine) (c : Pid) : Event → Kernel → Cont → Flow → Prop
  | tick {off : Nat} : m.cont m.cpu = .user → Turn m c (.tick off) m.k .user .tick
  | ctrlC {off : Nat} {k1 : Kernel} {flow : Flow} : m.cont m.cpu = .user →
      Ends (fun l => 2 ≤ getForegroundPid m.k ∧ l.Killing (getForegroundPid m.k)) c m.k k1 flow →
      k1.queue .zombie = [] → Turn m c (.ctrlC off) k1 .user flow
  /-- A system call returns. -/
  | returned {off : Nat} {call : Call} {k1 : Kernel} {v : Int} : m.Calls →
      Ends (call.Admits m.k c) c m.k k1 (.ret v) → k1.queue .zombie = [] →
      Turn m c (.call off call) (k1.observe (.returned m.cpu v)) .user (.ret v)
  /-- A system call ends in `callTimerTick`. -/
  | yielded {off : Nat} {call : Call} {k1 : Kernel} : m.Calls →
      Ends (call.Admits m.k c) c m.k k1 .tick → k1.queue .zombie = [] →
      Turn m c (.call off call) k1 (.ret 0) .tick
  | semWaited {off : Nat} {id : Int} {k1 : Kernel} {v : Int} : m.Calls → Machine.SemIdOk id →
      Awaits id c m.k k1 (.ret v) →
      Turn m c (.call off (.semWait id)) (k1.observe (.returned m.cpu v)) .user (.ret v)
  | semSlept {off : Nat} {id : Int} {k1 : Kernel} : m.Calls → Machine.SemIdOk id →
      Awaits id c m.k k1 .tick →
      Turn m c (.call off (.semWait id)) k1 (.waited id (.ret 0)) .tick
  | waitpidFailed {off : Nat} {p : Pid} : m.Calls →
      Turn m c (.call off (.waitpid p)) (m.k.observe (.waitpidDone m.cpu p (-1) none)) .user
        (.ret (-1))
  | waitpidBlocked {off : Nat} {p : Pid} {k1 : Kernel} : m.Calls → k1.quantum = 0 →
      Effects (fun l => l = .plain ∨ l = .block c) m.k k1 → StartsWaiting m.k c p k1 →
      Turn m c (.call off (.waitpid p)) k1 (.waitpid p) .tick
  /-- An operation on an open pipe starts. -/
  | entered {off slot : Nat} {call : Call} {op : PipeOp} {stage : Stage} : m.Calls →
      slot < maxPipes → (m.k.pipes slot).isOpen = true → Starts op stage →
      (op = .clear → call.Clears m.k slot) →
      Turn m c (.call off call) m.k (.pipe slot op stage) (.ret 0)
  | sysret {off : Nat} {v : Int} : m.cont m.cpu = .ret v →
      Turn m c (.resume off) (m.k.observe (.returned m.cpu v)) .user (.ret v)
  | waitpidResumed {off : Nat} {p : Pid} : m.cont m.cpu = .waitpid p →
      Turn m c (.resume off) (m.k.observe (.waitpidDone m.cpu p (-1) none)) .user (.ret (-1))
  | waited {off : Nat} {id : Int} {next : Cont} : m.cont m.cpu = .waited id next →
      Turn m c (.resume off) (m.k.observe (.resumed id m.cpu)) next (.ret 0)
  /-- A pipe operation passes its next semaphore. -/
  | passed {off slot : Nat} {op : PipeOp} {stage : Stage} {id : Int} {k1 : Kernel} {v : Int} :
      m.cont m.cpu = .pipe slot op stage → (m.k.pipes slot).awaited op stage = some id →
      Awaits id c m.k k1 (.ret v) →
      Turn m c (.resume off) k1 (.pipe slot op stage.next) (.ret v)
  | slept {off slot : Nat} {op : PipeOp} {stage : Stage} {id : Int} {k1 : Kernel} :
      m.cont m.cpu = .pipe slot op stage → (m.k.pipes slot).awaited op stage = some id →
      Awaits id c m.k k1 .tick →
      Turn m c (.resume off) k1 (.waited id (.pipe slot op stage.next)) .tick
  | finished {off slot : Nat} {op : PipeOp} {o : Obs} :
      m.cont m.cpu = .pipe slot op .loop → op.result slot m.cpu = some o →
      Turn m c (.resume off) (m.k.observe o) .user (.ret 0)
  /-- The critical sections, up to the next turn of the loop. -/
  | read {off slot size i bytesRead : Nat} {buffer : List Byte} {k0 k1 k2 : Kernel}
      {b : Option Byte} {f g : Flow} :
      m.cont m.cpu = .pipe slot (.read size i buffer bytesRead) .critical →
      takeByte m.k slot m.cpu = (k0, b) → semPost k0 (k0.pipes slot).mutex = some (k1, f) →
      semPost k1 (k0.pipes slot).semWriters = some (k2, g) →
      Turn m c (.resume off) k2
        (.pipe slot (.read size (i + 1) (buffer ++ b.toList) (bytesRead + b.toList.length)) .loop)
        (.ret 0)
  | written {off slot i bytesWritten : Nat} {data : List Byte} {b : Byte} {stored : Bool}
      {k0 k1 k2 : Kernel} {f g : Flow} :
      m.cont m.cpu = .pipe slot (.write data i bytesWritten) .critical → data[i]? = some b →
      putByte m.k slot m.cpu b = (k0, stored) →
      semPost k0 (k0.pipes slot).mutex = some (k1, f) →
      semPost k1 (k0.pipes slot).semReaders = some (k2, g) →
      Turn m c (.resume off) k2
        (.pipe slot (.write data (i + 1) (bytesWritten + stored.toNat)) .loop) (.ret 0)
  | cleared {off slot : Nat} {k1 : Kernel} {f : Flow} :
      m.cont m.cpu = .pipe slot .clear .critical →
      semPost (emptyPipe m.k slot m.cpu) ((emptyPipe m.k slot m.cpu).pipes slot).mutex =
        some (k1, f) →
      Turn m c (.resume off) k1 .user (.ret 0)

/-- After a turn the process stays on the CPU, or an interrupt is taken. -/
inductive Lands (m : Machine) : Flow → Machine → Prop
  | stays {v : Int} : Lands m (.ret v) m
  | leaves {off : Nat} {m' : Machine} : m.interrupt off = some m' → Lands m .tick m'

/-- The process `c` is on the CPU, between two steps. -/
structure OnCpu (m : Machine) (c : Pid) : Prop where
  core : Core m.k
  zombie : m.k.queue .zombie = []
  settled : Settled m.k c
  cpu : c ≠ 0 → m.cpu = c
  /-- Idle has no call in progress that does more than return. -/
  idle : c = 0 → m.cont m.cpu = .user ∨ ∃ v, m.cont m.cpu = .ret v

/-- Effects that leave the dead alone. -/
theorem Effect.zombie {l : Label} {k k' : Kernel} (h : Effect l k k') (hd : ∀ p, l ≠ .die p)
    (hr : ∀ p, l ≠ .reap p) : k'.queue .zombie = k.queue .zombie := by
  cases h with
  | die => exact absurd rfl (hd _)
  | reap => exact absurd rfl (hr _)
  | enter _ _ _ _ hq =>
    rcases hq with ⟨rfl, _⟩ | ⟨rfl, _⟩
    · simp [Kernel.setQueue]
    · simp [Kernel.setQueue]
  | _ => rfl

/-- The labels of a function that kills nobody. -/
def Label.Harmless : Label → Prop
  | .die _ | .reap _ => False
  | _ => True

theorem Effects.zombie {allow : Label → Prop} {k k' : Kernel} (h : Effects allow k k')
    (ha : ∀ l, allow l → l.Harmless) : k'.queue .zombie = k.queue .zombie := by
  refine h.invariant (P := fun k' => k'.queue .zombie = k.queue .zombie) rfl ?_
  intro l a b hl hz he
  refine (he.zombie ?_ ?_).trans hz
  · rintro p rfl
    exact ha _ hl
  · rintro p rfl
    exact ha _ hl

/-- The calls that kill nobody. -/
theorem Call.Admits.harmless {k : Kernel} {c : Pid} {call : Call} {l : Label}
    (h : call.Admits k c l) (hk : ∀ p r, call ≠ .kill p r) (he : ∀ r, call ≠ .exit r) :
    l.Harmless := by
  cases call with
  | kill p r => exact absurd rfl (hk p r)
  | exit r => exact absurd rfl (he r)
  | yield => cases h; trivial
  | createProcess args =>
    rcases h with (rfl | ⟨_, rfl⟩ | ⟨_, rfl⟩) | rfl | rfl | rfl <;> trivial
  | block p => rcases h with rfl | rfl <;> trivial
  | unblock p => cases h; trivial
  | changePrio p n => cases h; trivial
  | semOpen id v => rcases h with rfl | rfl <;> trivial
  | semPost id => rcases h with ⟨_, rfl⟩ | ⟨_, rfl⟩ | rfl <;> trivial
  | semClose id => cases h; trivial
  | openPipe => rcases h with rfl | ⟨_, rfl⟩ | ⟨_, _, rfl | rfl⟩ <;> trivial
  | closePipe id => rcases h with ⟨_, _, rfl⟩ | ⟨_, rfl⟩ <;> trivial
  | _ => cases h

namespace Machine

variable {m m' : Machine} {c : Pid} {e : Event}

@[simp] theorem withKernel_k {k : Kernel} : (m.withKernel k).k = k := rfl
@[simp] theorem withKernel_cpu {k : Kernel} : (m.withKernel k).cpu = m.cpu := rfl
@[simp] theorem withKernel_cont {k : Kernel} : (m.withKernel k).cont = m.cont := rfl
@[simp] theorem setCont_k {d : Cont} : (m.setCont d).k = m.k := rfl
@[simp] theorem setCont_cpu {d : Cont} : (m.setCont d).cpu = m.cpu := rfl
@[simp] theorem setCont_cont {d : Cont} :
    (m.setCont d).cont = Function.update m.cont m.cpu d := rfl

theorem setCont_self {d : Cont} (h : m.cont m.cpu = d) : m.setCont d = m := by
  unfold setCont
  rw [← h, Function.update_eq_self]

/-- A step is a turn and what follows it. -/
def Turns (m : Machine) (c : Pid) (e : Event) (m' : Machine) : Prop :=
  ∃ k1 next flow, Turn m c e k1 next flow ∧ Lands ((m.withKernel k1).setCont next) flow m'

theorem Turns.of_ret {k1 : Kernel} {next : Cont} {v : Int} (h : Turn m c e k1 next (.ret v)) :
    m.Turns c e ((m.withKernel k1).setCont next) :=
  ⟨_, _, _, h, .stays⟩

theorem finish_turns {off o : Nat} {call : Call} {k1 : Kernel} {flow : Flow}
    (hcalls : m.Calls) (h : Ends (call.Admits m.k c) c m.k k1 flow)
    (hz : k1.queue .zombie = []) (hm : m.finish off (k1, flow) = some m') :
    m.Turns c (.call o call) m' := by
  cases flow with
  | ret v =>
    cases hm
    exact .of_ret (.returned hcalls h hz)
  | tick => exact ⟨_, _, _, .yielded hcalls h hz, .leaves hm⟩

/-- A call that has changed nothing and fails. -/
theorem refused_turns {o : Nat} {call : Call} {v : Int} (hcalls : m.Calls)
    (hz : m.k.queue .zombie = []) : m.Turns c (.call o call) (m.sysret v) :=
  .of_ret (.returned hcalls .refl hz)

theorem semWait_awaits {k1 : Kernel} {flow : Flow} {id : Int} (hc : m.k.currentProcess = some c)
    (hr : c ∈ m.k.queue .ready) (h : semWait m.k id = some (k1, flow)) :
    Awaits id c m.k k1 flow := by
  rcases wait_cases hc hr h with ⟨he, rfl⟩ | ⟨rfl, rfl, ha, hv⟩ |
    ⟨a, k2, queued, ha, he, rfl, rfl, hq⟩
  · exact .took he
  · exact .failed ha hv
  · exact .slept ha he hq

/-- A process that is not idle and has the CPU. -/
structure Busy (m : Machine) (c : Pid) : Prop extends OnCpu m c where
  notIdle : c ≠ 0

namespace Busy

theorem of_calls (O : OnCpu m c) (h : m.Calls) : Busy m c := by
  refine ⟨O, ?_⟩
  rintro rfl
  exact h.2.2 (O.settled.current.trans O.core.idle.symm)

theorem of_cont (O : OnCpu m c) (h : m.cont m.cpu ≠ .user) (h' : ∀ v, m.cont m.cpu ≠ .ret v) :
    Busy m c := by
  refine ⟨O, fun h0 => ?_⟩
  rcases O.idle h0 with hc | ⟨v, hc⟩
  · exact h hc
  · exact h' v hc

theorem ready (B : Busy m c) : c ∈ m.k.queue .ready := B.settled.place.resolve_left B.notIdle

theorem executing (B : Busy m c) : Executing m.k c := by
  refine ⟨B.settled.current, ?_⟩
  rw [B.settled.current, B.core.idle]
  exact fun h => B.notIdle (Option.some.inj h)

theorem cpu_eq (B : Busy m c) : m.cpu = c := B.cpu B.notIdle

end Busy

/-- What a pipe operation does before its first semaphore. -/
structure Enters (k : Kernel) (call : Call) (r : Kernel × Option (Nat × PipeOp × Stage)) : Prop where
  kernel : r.1 = k
  start : ∀ slot op stage, r.2 = some (slot, op, stage) →
    slot < maxPipes ∧ (k.pipes slot).isOpen = true ∧ Starts op stage ∧
      (op = .clear → call.Clears k slot)

theorem pipeIdCheck_some {k : Kernel} {id : Int} {slot : Nat} (h : pipeIdCheck k id = some slot) :
    slot < maxPipes ∧ (k.pipes slot).isOpen = true := by
  unfold pipeIdCheck at h
  split at h
  · cases h
  · next hid =>
    have hlt : (if id > 2 then id - 2 else id).toNat < maxPipes := by
      unfold maxPipes at *
      split <;> omega
    dsimp only at h
    generalize (if id > 2 then id - 2 else id).toNat = i at h hlt
    split at h
    · next ho =>
      cases h
      exact ⟨hlt, ho⟩
    · cases h

theorem pipeRead_enters {k : Kernel} {id size : Int} (hi : k.pipeManagerInit = true) :
    Enters k (.readPipe id size) (pipeRead k id size) := by
  refine ⟨pipeRead_kernel hi, ?_⟩
  intro slot op stage h
  unfold pipeRead at h
  rw [ensurePipeManagerInit_eq hi] at h
  dsimp only at h
  split at h
  · cases h
  · next hid =>
    dsimp only at h
    split at h
    · cases h
    · cases h
      exact ⟨(pipeIdCheck_some hid).1, (pipeIdCheck_some hid).2, .read _, fun h => (by cases h)⟩

theorem pipeWrite_enters {k : Kernel} {id : Int} {data : List Byte}
    (hi : k.pipeManagerInit = true) : Enters k (.writePipe id data) (pipeWrite k id data) := by
  refine ⟨pipeWrite_kernel hi, ?_⟩
  intro slot op stage h
  unfold pipeWrite at h
  rw [ensurePipeManagerInit_eq hi] at h
  dsimp only at h
  split at h
  · cases h
  · next hid =>
    dsimp only at h
    split at h
    · cases h
    · cases h
      exact ⟨(pipeIdCheck_some hid).1, (pipeIdCheck_some hid).2, .write _, fun h => (by cases h)⟩

theorem pipeClear_enters {k : Kernel} {id : Int} (hi : k.pipeManagerInit = true) :
    Enters k (.clearPipe id) (pipeClear k id) := by
  refine ⟨pipeClear_kernel hi, ?_⟩
  intro slot op stage h
  unfold pipeClear at h
  rw [ensurePipeManagerInit_eq hi] at h
  dsimp only at h
  split at h
  · cases h
  · next hid =>
    cases h
    exact ⟨(pipeIdCheck_some hid).1, (pipeIdCheck_some hid).2, .clear, fun _ => hid⟩

theorem enterPipe_turns {o : Nat} {call : Call} {r : Kernel × Option (Nat × PipeOp × Stage)}
    (hcalls : m.Calls) (hz : m.k.queue .zombie = []) (E : Enters m.k call r)
    (h : some (m.enterPipe r) = some m') : m.Turns c (.call o call) m' := by
  obtain ⟨k1, r2⟩ := r
  obtain rfl : k1 = m.k := E.kernel
  cases h
  cases r2 with
  | none => exact refused_turns hcalls hz
  | some r =>
    obtain ⟨slot, op, stage⟩ := r
    obtain ⟨hslot, hopen, hstart, hclear⟩ := E.start slot op stage rfl
    exact .of_ret (.entered hcalls hslot hopen hstart hclear)

/-- Every system call is a turn. -/
theorem call_turns {off o : Nat} {call : Call} (B : Busy m c) (hcalls : m.Calls)
    (h : m.call off call = some m') : m.Turns c (.call o call) m' := by
  have hc := B.settled.current
  have hr := B.ready
  have hz := B.zombie
  have hi := B.core.pipes
  have hharmless : ∀ {k1 : Kernel} {flow : Flow}, Ends (call.Admits m.k c) c m.k k1 flow →
      (∀ p r, call ≠ .kill p r) → (∀ r, call ≠ .exit r) → k1.queue .zombie = [] :=
    fun h hk he => (h.effects.zombie fun _ hl => hl.harmless hk he).trans hz
  cases call with
  | yield =>
    have hends : Ends (Call.Admits m.k c .yield) c m.k (yield m.k).1 .tick :=
      .of_tick (.one (.quantum _ 0) rfl) rfl
    exact finish_turns hcalls hends hz h
  | createProcess args =>
    obtain ⟨⟨k1, flow⟩, h1, h2⟩ := Option.bind_eq_some_iff.mp h
    obtain ⟨he, v, rfl⟩ := createProcess_effects B.core B.executing h1
    have hends : Ends (Call.Admits m.k c (.createProcess args)) c m.k k1 (.ret v) :=
      .of_ret (he.mono fun l hl => ⟨hl, by
        rcases hl with (rfl | ⟨_, rfl⟩ | ⟨_, rfl⟩) | rfl | rfl | rfl <;> exact not_false⟩)
    exact finish_turns hcalls hends (hharmless hends (by simp) (by simp)) h2
  | kill p r =>
    obtain ⟨⟨k1, flow⟩, h1, h2⟩ := Option.bind_eq_some_iff.mp h
    have hcur : m.k.currentProcess = some p → p ∈ m.k.queue .ready ∨ p = 0 := by
      rintro hp
      obtain rfl := Option.some.inj (hc.symm.trans hp)
      exact .inl hr
    exact finish_turns hcalls (kill_ends B.core B.settled.currentPid hcur h1)
      (kill_zombie B.core B.settled.currentPid hcur hz h1) h2
  | exit r =>
    obtain ⟨⟨k1, flow⟩, h1, h2⟩ := Option.bind_eq_some_iff.mp h
    rw [getCurrentPid_eq hc] at h1
    exact finish_turns hcalls (kill_ends B.core B.settled.currentPid (fun _ => .inl hr) h1)
      (kill_zombie B.core B.settled.currentPid (fun _ => .inl hr) hz h1) h2
  | block p =>
    obtain ⟨⟨k1, flow⟩, h1, h2⟩ := Option.bind_eq_some_iff.mp h
    have hends := blockProcess_ends hc h1
    exact finish_turns hcalls hends (hharmless hends (by simp) (by simp)) h2
  | unblock p =>
    obtain ⟨⟨k1, flow⟩, h1, h2⟩ := Option.bind_eq_some_iff.mp h
    obtain ⟨he, v, rfl⟩ := unblockProcess_effects h1
    have hends : Ends (Call.Admits m.k c (.unblock p)) c m.k k1 (.ret v) :=
      .of_ret (he.mono fun l hl => ⟨hl, by cases hl; exact not_false⟩)
    exact finish_turns hcalls hends (hharmless hends (by simp) (by simp)) h2
  | waitpid p =>
    obtain ⟨⟨k1, flow⟩, h1, h2⟩ := Option.bind_eq_some_iff.mp h
    rcases waitpid_cases B.core hz hc hr h1 with ⟨rfl, rfl⟩ | ⟨rfl, hq, he, hw⟩
    · cases h2
      exact .of_ret (.waitpidFailed hcalls)
    · exact ⟨_, _, _, .waitpidBlocked hcalls hq he hw, .leaves h2⟩
  | changePrio p n =>
    obtain ⟨⟨k1, flow⟩, h1, h2⟩ := Option.bind_eq_some_iff.mp h
    obtain ⟨he, v, rfl⟩ := changePrio_effects h1
    have hends : Ends (Call.Admits m.k c (.changePrio p n)) c m.k k1 (.ret v) :=
      .of_ret (he.mono fun l hl => ⟨hl, by cases hl; exact not_false⟩)
    exact finish_turns hcalls hends (hharmless hends (by simp) (by simp)) h2
  | semOpen id v =>
    simp only [Machine.call] at h
    split at h
    · obtain ⟨⟨k1, ok⟩, h1, rfl⟩ := Option.map_eq_some_iff.mp h
      have hends : Ends (Call.Admits m.k c (.semOpen id v)) c m.k k1 (.ret (status ok)) :=
        .of_ret ((semInit_effects h1).mono fun l hl => ⟨hl, by
          rcases hl with rfl | rfl <;> exact not_false⟩)
      exact .of_ret (.returned hcalls hends (hharmless hends (by simp) (by simp)))
    · cases h
      exact refused_turns hcalls hz
  | semWait id =>
    simp only [Machine.call] at h
    split at h
    · next hid =>
      obtain ⟨⟨k1, flow⟩, h1, h2⟩ := Option.bind_eq_some_iff.mp h
      have ha := semWait_awaits hc hr h1
      cases flow with
      | ret v =>
        cases h2
        exact .of_ret (.semWaited hcalls hid ha)
      | tick => exact ⟨_, _, _, .semSlept hcalls hid ha, .leaves h2⟩
    · cases h
      exact refused_turns hcalls hz
  | semPost id =>
    simp only [Machine.call] at h
    split at h
    · obtain ⟨⟨k1, flow⟩, h1, h2⟩ := Option.bind_eq_some_iff.mp h
      obtain ⟨rfl, _⟩ := semPost_cases h1
      have hends : Ends (Call.Admits m.k c (.semPost id)) c m.k k1 (.ret 0) :=
        .of_ret ((semPost_effects h1).mono fun l hl => ⟨hl, by
          rcases hl with ⟨_, rfl⟩ | ⟨_, rfl⟩ | rfl <;> exact not_false⟩)
      exact finish_turns hcalls hends (hharmless hends (by simp) (by simp)) h2
    · cases h
      exact refused_turns hcalls hz
  | semClose id =>
    simp only [Machine.call] at h
    split at h
    · cases h
      exact refused_turns hcalls hz
    · obtain ⟨⟨k1, ok⟩, h1, rfl⟩ := Option.map_eq_some_iff.mp h
      have hends : Ends (Call.Admits m.k c (.semClose id)) c m.k k1 (.ret (status ok)) :=
        .of_ret ((semClose_effects h1).mono fun l hl => ⟨hl, by cases hl; exact not_false⟩)
      exact .of_ret (.returned hcalls hends (hharmless hends (by simp) (by simp)))
  | openPipe =>
    obtain ⟨⟨k1, v⟩, h1, rfl⟩ := Option.map_eq_some_iff.mp h
    have hends : Ends (Call.Admits m.k c .openPipe) c m.k k1 (.ret v) :=
      .of_ret ((createPipe_effects hi h1).mono fun l hl => ⟨hl, by
        rcases hl with rfl | ⟨_, rfl⟩ | ⟨_, _, rfl | rfl⟩ <;> exact not_false⟩)
    exact .of_ret (.returned hcalls hends (hharmless hends (by simp) (by simp)))
  | closePipe id =>
    obtain ⟨⟨k1, ok⟩, h1, rfl⟩ := Option.map_eq_some_iff.mp h
    have hends : Ends (Call.Admits m.k c (.closePipe id)) c m.k k1 (.ret (status ok)) :=
      .of_ret ((pipeClose_effects hi h1).mono fun l hl => ⟨hl, by
        rcases hl with ⟨_, _, rfl⟩ | ⟨_, rfl⟩ <;> exact not_false⟩)
    exact .of_ret (.returned hcalls hends (hharmless hends (by simp) (by simp)))
  | clearPipe id => exact enterPipe_turns hcalls hz (pipeClear_enters hi) h
  | readPipe id size => exact enterPipe_turns hcalls hz (pipeRead_enters hi) h
  | writePipe id data => exact enterPipe_turns hcalls hz (pipeWrite_enters hi) h

/-- Ctrl+C is a turn. -/
theorem ctrlC_turns {off o : Nat} (O : OnCpu m c) (hu : m.cont m.cpu = .user)
    (h : m.ctrlC off = some m') : m.Turns c (.ctrlC o) m' := by
  have hcur : m.k.currentProcess = some (getForegroundPid m.k) →
      getForegroundPid m.k ∈ m.k.queue .ready ∨ getForegroundPid m.k = 0 := by
    intro hf
    obtain hcf := Option.some.inj (O.settled.current.symm.trans hf)
    exact hcf ▸ O.settled.place.symm
  obtain ⟨⟨k1, flow⟩, h1, h2⟩ := Option.bind_eq_some_iff.mp h
  have hturn : Turn m c (.ctrlC o) k1 .user flow :=
    .ctrlC hu (kill_ends O.core O.settled.currentPid hcur h1)
      (kill_zombie O.core O.settled.currentPid hcur O.zombie h1)
  have hself : (m.withKernel k1).setCont .user = m.withKernel k1 := setCont_self hu
  cases flow with
  | ret v =>
    cases h2
    refine ⟨_, _, _, hturn, ?_⟩
    rw [hself]
    exact .stays
  | tick =>
    exact ⟨_, _, _, hturn, .leaves (hself.symm ▸ show (m.withKernel k1).interrupt off = _ from h2)⟩

/-- What `await` does, whatever comes after it. -/
theorem await_lands {off : Nat} {id : Int} {next : Cont} (hc : m.k.currentProcess = some c)
    (hr : c ∈ m.k.queue .ready) (h : m.await off id next = some m') :
    (∃ k1 v, Awaits id c m.k k1 (.ret v) ∧ m' = (m.withKernel k1).setCont next) ∨
      ∃ k1, Awaits id c m.k k1 .tick ∧
        Lands ((m.withKernel k1).setCont (.waited id next)) .tick m' := by
  obtain ⟨⟨k1, flow⟩, h1, h2⟩ := Option.bind_eq_some_iff.mp h
  have ha := semWait_awaits hc hr h1
  cases flow with
  | ret v =>
    cases h2
    exact .inl ⟨k1, v, ha, rfl⟩
  | tick => exact .inr ⟨k1, ha, .leaves h2⟩

theorem await_turns {off o slot : Nat} {id : Int} {op : PipeOp} {stage : Stage} (B : Busy m c)
    (hcont : m.cont m.cpu = .pipe slot op stage)
    (ha : (m.k.pipes slot).awaited op stage = some id)
    (h : m.await off id (.pipe slot op stage.next) = some m') : m.Turns c (.resume o) m' := by
  rcases await_lands B.settled.current B.ready h with ⟨k1, v, hk, rfl⟩ | ⟨k1, hk, hl⟩
  · exact .of_ret (.passed hcont ha hk)
  · exact ⟨_, _, _, .slept hcont ha hk, hl⟩

theorem leavePipe_cases {k0 : Kernel} {mutex other : Int} {next : Cont}
    (h : m.leavePipe k0 mutex other next = some m') :
    ∃ k1 k2 f g, semPost k0 mutex = some (k1, f) ∧ semPost k1 other = some (k2, g) ∧
      m' = (m.withKernel k2).setCont next := by
  obtain ⟨⟨k1, f⟩, h1, h2⟩ := Option.bind_eq_some_iff.mp h
  obtain ⟨⟨k2, g⟩, h3, h4⟩ := Option.bind_eq_some_iff.mp h2
  cases h4
  exact ⟨k1, k2, f, g, h1, h3, rfl⟩

theorem readStep_turns {off o slot size i bytesRead : Nat} {buffer : List Byte} {stage : Stage}
    (B : Busy m c) (hcont : m.cont m.cpu = .pipe slot (.read size i buffer bytesRead) stage)
    (h : m.readStep off slot size i buffer bytesRead stage = some m') :
    m.Turns c (.resume o) m' := by
  cases stage with
  | loop =>
    simp only [readStep] at h
    split at h
    · next hi => exact await_turns B hcont (if_pos hi) h
    · next hi =>
      cases h
      exact .of_ret (.finished hcont (if_neg hi))
  | mutex => exact await_turns B hcont rfl h
  | critical =>
    simp only [readStep] at h
    obtain ⟨k0, b, htake⟩ : ∃ k0 b, takeByte m.k slot m.cpu = (k0, b) := ⟨_, _, rfl⟩
    rw [htake] at h
    obtain ⟨k1, k2, f, g, h1, h2, rfl⟩ := leavePipe_cases h
    have hturn := @Turn.read m c o _ _ _ _ _ _ _ _ _ _ _ hcont htake h1 h2
    cases b with
    | none =>
      rw [Option.toList_none, List.append_nil] at hturn
      exact .of_ret hturn
    | some b => exact .of_ret hturn

theorem writeStep_turns {off o slot i bytesWritten : Nat} {data : List Byte} {stage : Stage}
    (B : Busy m c) (hcont : m.cont m.cpu = .pipe slot (.write data i bytesWritten) stage)
    (h : m.writeStep off slot data i bytesWritten stage = some m') :
    m.Turns c (.resume o) m' := by
  cases stage with
  | loop =>
    simp only [writeStep] at h
    split at h
    · next hi => exact await_turns B hcont (if_pos hi) h
    · next hi =>
      cases h
      exact .of_ret (.finished hcont (if_neg hi))
  | mutex => exact await_turns B hcont rfl h
  | critical =>
    obtain ⟨b, hb, h0⟩ := Option.bind_eq_some_iff.mp h
    obtain ⟨k0, stored, hput⟩ : ∃ k0 stored, putByte m.k slot m.cpu b = (k0, stored) :=
      ⟨_, _, rfl⟩
    rw [hput] at h0
    obtain ⟨k1, k2, f, g, h1, h2, rfl⟩ := leavePipe_cases h0
    have hnext : (if stored then bytesWritten + 1 else bytesWritten) =
        bytesWritten + stored.toNat := by
      cases stored <;> rfl
    rw [hnext]
    exact .of_ret (.written hcont hb hput h1 h2)

theorem clearStep_turns {off o slot : Nat} {stage : Stage} (B : Busy m c)
    (hcont : m.cont m.cpu = .pipe slot .clear stage) (h : m.clearStep off slot stage = some m') :
    m.Turns c (.resume o) m' := by
  cases stage with
  | loop => cases h
  | mutex => exact await_turns B hcont rfl h
  | critical =>
    obtain ⟨⟨k1, f⟩, h1, h2⟩ := Option.bind_eq_some_iff.mp h
    cases h2
    exact .of_ret (.cleared hcont h1)

/-- The rest of a system call is a turn. -/
theorem resume_turns {off o : Nat} (O : OnCpu m c) (h : m.resume off = some m') :
    m.Turns c (.resume o) m' := by
  unfold resume at h
  cases hcont : m.cont m.cpu with
  | user =>
    rw [hcont] at h
    cases h
  | ret v =>
    rw [hcont] at h
    cases h
    exact .of_ret (.sysret hcont)
  | waitpid p =>
    rw [hcont] at h
    have B : Busy m c := .of_cont O (by simp [hcont]) (by simp [hcont])
    obtain ⟨⟨k1, r⟩, h1, h2⟩ := Option.bind_eq_some_iff.mp h
    rw [B.cpu_eq] at h1
    obtain ⟨rfl, rfl⟩ := waitpidResumed_eq O.core O.zombie h1
    cases h2
    exact .of_ret (.waitpidResumed hcont)
  | waited id next =>
    rw [hcont] at h
    cases h
    exact .of_ret (.waited hcont)
  | pipe slot op stage =>
    have B : Busy m c := .of_cont O (by simp [hcont]) (by simp [hcont])
    rw [hcont] at h
    cases op with
    | read size i buffer bytesRead => exact readStep_turns B hcont h
    | write data i bytesWritten => exact writeStep_turns B hcont h
    | clear => exact clearStep_turns B hcont h

/-- Every step is a turn, after which an interrupt may be taken. -/
theorem step_cases (O : OnCpu m c) (h : m.step e = some m') : m.Turns c e m' := by
  cases e with
  | tick off =>
    obtain ⟨hu, hi⟩ := Option.ite_none_right_eq_some.mp h
    have hself : (m.withKernel m.k).setCont .user = m := setCont_self hu
    exact ⟨_, _, _, .tick hu, .leaves (hself.symm ▸ hi)⟩
  | ctrlC off =>
    obtain ⟨hu, hi⟩ := Option.ite_none_right_eq_some.mp h
    exact ctrlC_turns O hu hi
  | call off call =>
    obtain ⟨hu, hi⟩ := Option.ite_none_right_eq_some.mp h
    exact call_turns (.of_calls O hu) hu hi
  | resume off => exact resume_turns O h

/-- The timer interrupt: `schedule` lets the process go on, or switches. -/
theorem interrupt_cases {off : Nat} (C : Core m.k) (h : m.interrupt off = some m') :
    m.k.quantum > 0 ∧ m' = m.withKernel { m.k with quantum := m.k.quantum - 1 } ∨
      m'.cont = m.cont ∧ ∃ sp p n, Switch m.k (.inside m.cpu off) m'.k sp p n ∧
        m'.cpu = sp.stack ∧ Core m'.k ∧ Settled m'.k n := by
  obtain ⟨⟨k1, sp⟩, h1, h2⟩ := Option.bind_eq_some_iff.mp h
  rcases C.schedule (.inside m.cpu off) with ⟨hq, _, hs⟩ | ⟨k', sp', p, n, hs, C', S, W⟩
  · cases hs.symm.trans h1
    cases h2
    exact .inl ⟨hq, rfl⟩
  · cases hs.symm.trans h1
    cases h2
    exact .inr ⟨rfl, _, p, n, W, rfl, C', S⟩

end Machine

end SoKernel
