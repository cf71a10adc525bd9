import SoKernel.Kernel.Scheduler
import SoKernel.Lib.Run

/-!
# The machine

The kernel, the stack the CPU is on, and for every stack what is left of the
system call in progress on it. Interrupts are taken in user code only: system
calls run with interrupts off, and the code after a `callTimerTick` runs, with
interrupts still off, when `schedule` comes back to the stack. While a system call
is in progress the only step is `resume`, which runs it up to the next semaphore
operation, context switch or return.
-/

namespace SoKernel

/-- What is left of the system call on a stack. -/
inductive Cont
  /-- User code. -/
  | user
  /-- Return `v`. -/
  | ret (v : Int)
  /-- The second half of `waitpid`. -/
  | waitpid (pid : Pid)
  /-- The end of a `semWait` that has blocked, and then `next`. -/
  | waited (id : Int) (next : Cont)
  | pipe (slot : Nat) (op : PipeOp) (stage : Stage)
deriving DecidableEq, Repr

structure Machine where
  k : Kernel
  /-- The owner of the stack the CPU is on. -/
  cpu : Pid
  cont : Pid → Cont

/-- The system calls. -/
inductive Call
  | yield
  | createProcess (args : ProcessArgs)
  | kill (pid : Pid) (retValue : Nat)
  | exit (retValue : Nat)
  | block (pid : Pid)
  | unblock (pid : Pid)
  | waitpid (pid : Pid)
  | changePrio (pid : Pid) (newPrio : Int)
  | semOpen (id : Int) (initialValue : Nat)
  | semWait (id : Int)
  | semPost (id : Int)
  | semClose (id : Int)
  | openPipe
  | closePipe (id : Int)
  | clearPipe (id : Int)
  | readPipe (id size : Int)
  | writePipe (id : Int) (data : List Byte)
deriving DecidableEq, Repr

/-- What can happen next; `off` is where on the stack the interrupt handler would
find the stack pointer. -/
inductive Event
  | tick (off : Nat)
  | ctrlC (off : Nat)
  | call (off : Nat) (c : Call)
  | resume (off : Nat)
deriving DecidableEq, Repr

namespace Machine

def withKernel (m : Machine) (k : Kernel) : Machine := { m with k := k }

def setCont (m : Machine) (c : Cont) : Machine :=
  { m with cont := Function.update m.cont m.cpu c }

/-- `_irq00Handler`: `schedule` gets the stack pointer and gives the next one. -/
def interrupt (m : Machine) (off : Nat) : Option Machine := do
  let (k, rsp) ← schedule m.k (.inside m.cpu off)
  some { m with k := k, cpu := rsp.stack }

/-- The system call returns `v`. -/
def sysret (m : Machine) (v : Int) : Machine :=
  (m.withKernel (m.k.observe (.returned m.cpu v))).setCont .user

/-- A kernel function has ended; after `callTimerTick` its result is `0`. -/
def finish (m : Machine) (off : Nat) (r : Kernel × Flow) : Option Machine :=
  match r.2 with
  | .ret v => some ((m.withKernel r.1).sysret v)
  | .tick => ((m.withKernel r.1).setCont (.ret 0)).interrupt off

/-- `waitpid` has ended. -/
def finishWaitpid (m : Machine) (off : Nat) (pid : Pid) (r : Kernel × WaitFlow) :
    Option Machine :=
  match r.2 with
  | .ret v stored =>
    some ((m.withKernel (r.1.observe (.waitpidDone m.cpu pid v stored))).setCont .user)
  | .tick => ((m.withKernel r.1).setCont (.waitpid pid)).interrupt off

/-- `semWait(id)`, and then `next`. -/
def await (m : Machine) (off : Nat) (id : Int) (next : Cont) : Option Machine := do
  let (k, flow) ← semWait m.k id
  match flow with
  | .ret _ => some ((m.withKernel k).setCont next)
  | .tick => ((m.withKernel k).setCont (.waited id next)).interrupt off

/-- `syscall_sem_wait`, after its check of the id. -/
def syscallSemWait (m : Machine) (off : Nat) (id : Int) : Option Machine := do
  let (k, flow) ← semWait m.k id
  match flow with
  | .ret v => some ((m.withKernel k).sysret v)
  | .tick => ((m.withKernel k).setCont (.waited id (.ret 0))).interrupt off

/-- A call of `pipeRead`, `pipeWrite` or `pipeClear` after its checks. -/
def enterPipe (m : Machine) (r : Kernel × Option (Nat × PipeOp × Stage)) : Machine :=
  match r.2 with
  | none => (m.withKernel r.1).sysret (-1)
  | some (slot, op, stage) => (m.withKernel r.1).setCont (.pipe slot op stage)

/-- Leave the critical section: post `mutex`, then the other semaphore. -/
def leavePipe (m : Machine) (k : Kernel) (mutex other : Int) (next : Cont) : Option Machine := do
  let (k, _) ← semPost k mutex
  let (k, _) ← semPost k other
  some ((m.withKernel k).setCont next)

/-- `pipeRead`, from `stage` to the next one. -/
def readStep (m : Machine) (off slot size i : Nat) (buffer : List Byte) (bytesRead : Nat) :
    Stage → Option Machine
  | .loop =>
    if i < size then
      m.await off (m.k.pipes slot).semReaders (.pipe slot (.read size i buffer bytesRead) .mutex)
    else
      let k := m.k.observe (.readDone slot m.cpu size buffer bytesRead)
      some ((m.withKernel k).setCont .user)
  | .mutex =>
    m.await off (m.k.pipes slot).mutex (.pipe slot (.read size i buffer bytesRead) .critical)
  | .critical =>
    let (k, b) := takeByte m.k slot m.cpu
    let next :=
      match b with
      | some b => PipeOp.read size (i + 1) (buffer ++ [b]) (bytesRead + 1)
      | none => PipeOp.read size (i + 1) buffer bytesRead
    m.leavePipe k (k.pipes slot).mutex (k.pipes slot).semWriters (.pipe slot next .loop)

/-- `pipeWrite`, from `stage` to the next one. -/
def writeStep (m : Machine) (off slot : Nat) (data : List Byte) (i bytesWritten : Nat) :
    Stage → Option Machine
  | .loop =>
    if i < data.length then
      m.await off (m.k.pipes slot).semWriters (.pipe slot (.write data i bytesWritten) .mutex)
    else
      let k := m.k.observe (.writeDone slot m.cpu data bytesWritten)
      some ((m.withKernel k).setCont .user)
  | .mutex =>
    m.await off (m.k.pipes slot).mutex (.pipe slot (.write data i bytesWritten) .critical)
  | .critical => do
    let b ← data[i]?
    let (k, stored) := putByte m.k slot m.cpu b
    let next := PipeOp.write data (i + 1) (if stored then bytesWritten + 1 else bytesWritten)
    m.leavePipe k (k.pipes slot).mutex (k.pipes slot).semReaders (.pipe slot next .loop)

/-- `pipeClear`, from `stage` to the next one; it has no loop. -/
def clearStep (m : Machine) (off slot : Nat) : Stage → Option Machine
  | .loop => none
  | .mutex => m.await off (m.k.pipes slot).mutex (.pipe slot .clear .critical)
  | .critical => do
    let k := emptyPipe m.k slot m.cpu
    let (k, _) ← semPost k (k.pipes slot).mutex
    some ((m.withKernel k).setCont .user)

/-- Run the system call on the current stack. -/
def resume (m : Machine) (off : Nat) : Option Machine :=
  match m.cont m.cpu with
  | .user => none
  | .ret v => some (m.sysret v)
  | .waitpid pid => do
    let r ← waitpidResumed m.k m.cpu pid
    m.finishWaitpid off pid r
  | .waited id next => some ((m.withKernel (m.k.observe (.resumed id m.cpu))).setCont next)
  | .pipe slot (.read size i buffer bytesRead) stage =>
    m.readStep off slot size i buffer bytesRead stage
  | .pipe slot (.write data i bytesWritten) stage => m.writeStep off slot data i bytesWritten stage
  | .pipe slot .clear stage => m.clearStep off slot stage

/-- The range `syscall_sem_wait` and its siblings check. -/
def SemIdOk (id : Int) : Prop := 0 ≤ id ∧ id < numSems

instance (id : Int) : Decidable (SemIdOk id) := inferInstanceAs (Decidable (_ ∧ _))

/-- `syscallDispatcher` -/
def call (m : Machine) (off : Nat) : Call → Option Machine
  | .yield => m.finish off (yield m.k)
  | .createProcess args => (createProcess m.k args).bind (m.finish off)
  | .kill pid retValue => (kill m.k pid retValue).bind (m.finish off)
  | .exit retValue => (kill m.k (getCurrentPid m.k) retValue).bind (m.finish off)
  | .block pid => (blockProcess m.k pid).bind (m.finish off)
  | .unblock pid => (unblockProcess m.k pid).bind (m.finish off)
  | .waitpid pid => (waitpid m.k pid).bind (m.finishWaitpid off pid)
  | .changePrio pid newPrio => (changePrio m.k pid newPrio).bind (m.finish off)
  | .semOpen id initialValue =>
    if SemIdOk id then
      (semInit m.k id (initialValue % 2 ^ 32)).map fun r => (m.withKernel r.1).sysret (status r.2)
    else some (m.sysret (-1))
  | .semWait id => if SemIdOk id then m.syscallSemWait off id else some (m.sysret (-1))
  | .semPost id => if SemIdOk id then (semPost m.k id).bind (m.finish off) else some (m.sysret (-1))
  | .semClose id =>
    if id < 0 then some (m.sysret (-1))
    else (semClose m.k id).map fun r => (m.withKernel r.1).sysret (status r.2)
  | .openPipe => (createPipe m.k).map fun r => (m.withKernel r.1).sysret r.2
  | .closePipe id => (pipeClose m.k id).map fun r => (m.withKernel r.1).sysret (status r.2)
  | .clearPipe id => some (m.enterPipe (pipeClear m.k id))
  | .readPipe id size => some (m.enterPipe (pipeRead m.k id size))
  | .writePipe id data => some (m.enterPipe (pipeWrite m.k id data))

/-- `kill(getForegroundPid(), 1)` in `bufferWrite`. -/
def ctrlC (m : Machine) (off : Nat) : Option Machine := do
  let (k, flow) ← kill m.k (getForegroundPid m.k) 1
  match flow with
  | .ret _ => some (m.withKernel k)
  | .tick => (m.withKernel k).interrupt off

/-- The process executing issues a system call; idle never does. -/
def Calls (m : Machine) : Prop :=
  m.cont m.cpu = .user ∧ m.k.first = false ∧ m.k.currentProcess ≠ m.k.idleProcess

instance (m : Machine) : Decidable m.Calls := inferInstanceAs (Decidable (_ ∧ _ ∧ _))

def step (m : Machine) : Event → Option Machine
  | .tick off => if m.cont m.cpu = .user then m.interrupt off else none
  | .ctrlC off => if m.cont m.cpu = .user then m.ctrlC off else none
  | .call off c => if m.Calls then m.call off c else none
  | .resume off => m.resume off

end Machine

/-! ## Boot -/

/-- The static data of the kernel, after `createSemaphoresManager` and
`createProcessManager`. -/
def initialKernel : Kernel where
  procs := fun _ => none
  stackLive := fun _ => false
  queue := fun _ => []
  foregroundProcess := none
  currentProcess := none
  idleProcess := none
  currentPid := -1
  nextPid := 0
  quantum := 0
  first := true
  sems := fun _ => { value := 0, lock := false, used := false, blocked := .null }
  semManager := true
  pipes := fun _ =>
    { buffer := fun _ => 0, readIdx := 0, writeIdx := 0, count := 0, semReaders := 0,
      semWriters := 0, mutex := 0, isOpen := false }
  nextSemId := 0
  pipeManagerInit := false
  allocs := fun _ => true
  log := []

/-- The shell as `main` creates it. -/
def shellArgs : ProcessArgs :=
  { valid := true, priority := 0, foreground := true, stdin := 0, stdout := 1 }

/-- A process in the background that does not read from the terminal. -/
def backgroundArgs : ProcessArgs :=
  { valid := true, priority := 1, foreground := false, stdin := 3, stdout := 1 }

/-- `main`, up to the creation of the shell. The heap is new, and no allocation
fails yet. -/
def bootKernel : Option Kernel := do
  let k ← startScheduler initialKernel
  let (k, _) ← createProcess k shellArgs
  some k

theorem bootKernel_isSome : bootKernel.isSome = true := by decide

/-- `main` before the first tick, with the outcomes of all later allocations. -/
def boot (allocs : Nat → Bool) : Machine where
  k := { bootKernel.get bootKernel_isSome with allocs := allocs }
  cpu := bootStack
  cont := fun _ => .user

/-- The states reached from boot through events that `ok` admits. -/
def Reach (allocs : Nat → Bool) (ok : Machine → Event → Prop) (m : Machine) : Prop :=
  Run Machine.step ok (boot allocs) m

end SoKernel
