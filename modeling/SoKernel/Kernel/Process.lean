import SoKernel.Kernel.State

/-!
# The process manager and the dispatcher

`process.c` and the part of `scheduler.c` the semaphores are built on: `schedule`,
`yield`, and blocking and unblocking. A boolean or an `Option` result stands for a
C result of `0` or `-1`, or a pointer that may be `NULL`; the outer `Option` is
`none` where the code reads through `NULL` or through a pointer to freed memory.
-/

namespace SoKernel

/-! ## `process.c` -/

/-- `addProcess` -/
def addProcess (k : Kernel) (process : Pid) : Kernel :=
  let k :=
    if k.currentProcess = none ∨ k.currentProcess = k.idleProcess then
      { k with currentProcess := some process }
    else k
  k.enqueue .ready process

/-- `removeFromZombie` -/
def removeFromZombie (k : Kernel) (pid : Pid) : Kernel :=
  k.setQueue .zombie ((k.queue .zombie).erase pid)

/-- `switchProcessFromQueues`: `none` is `NULL`. The node that `remove` has just
freed is there for `enqueue`, which does not fail here. -/
def switchProcessFromQueues (k : Kernel) (queueFrom queueTo : QueueName) (pid : Pid) :
    Option Kernel :=
  if pid ∈ k.queue queueFrom then
    let k := k.setQueue queueFrom ((k.queue queueFrom).erase pid)
    some (k.setQueue queueTo (k.queue queueTo ++ [pid]))
  else none

/-- What the four blocking functions share: move the process, then write its state. -/
def moveProcess (k : Kernel) (queueFrom queueTo : QueueName) (pid : Pid) (state : State) :
    Option (Kernel × Bool) :=
  match switchProcessFromQueues k queueFrom queueTo pid with
  | none => some (k, false)
  | some k => do
    let process ← k.procs pid
    some (k.setPCB pid { process with state := state }, true)

/-- `blockProcessQueue` -/
def blockProcessQueue (k : Kernel) (pid : Pid) : Option (Kernel × Bool) :=
  if pid ∈ k.queue .blockedBySem then some (k, false)
  -- in `blockedQueue` or in no queue, the answer is `-1` too
  else if pid ∉ k.queue .ready then some (k, false)
  else moveProcess k .ready .blocked pid .BLOCKED

/-- `blockProcessQueueBySem` -/
def blockProcessQueueBySem (k : Kernel) (pid : Pid) : Option (Kernel × Bool) :=
  moveProcess k .ready .blockedBySem pid .BLOCKED

/-- `unblockProcessQueue` -/
def unblockProcessQueue (k : Kernel) (pid : Pid) : Option (Kernel × Bool) :=
  moveProcess k .blocked .ready pid .READY

/-- `unblockProcessQueueBySem` -/
def unblockProcessQueueBySem (k : Kernel) (pid : Pid) : Option (Kernel × Bool) :=
  moveProcess k .blockedBySem .ready pid .READY

/-- `getProcess` -/
def getProcess (k : Kernel) (pid : Pid) : Option Pid :=
  if pid ∈ k.queue .ready ∨ pid ∈ k.queue .blocked ∨ pid ∈ k.queue .blockedBySem ∨
      pid ∈ k.queue .zombie ∨ k.currentProcess = some pid ∨ k.idleProcess = some pid then
    some pid
  else none

/-- `isForegroundProcess` -/
def isForegroundProcess (process : PCB) : Bool := process.foreground

/-- `getNextProcess`: the front of the ready queue, moved to its end, or idle. -/
def getNextProcess (k : Kernel) : Option (Kernel × Pid) :=
  match k.queue .ready with
  | [] => do
    let idle ← k.idleProcess
    some ({ k with currentProcess := some idle }, idle)
  | next :: rest => do
    let process ← k.procs next
    let k := { k.setQueue .ready (rest ++ [next]) with currentProcess := some next }
    some (if isForegroundProcess process then { k with foregroundProcess := some next } else k, next)

/-- `setIdleProcess` -/
def setIdleProcess (k : Kernel) (idle : Pid) : Kernel :=
  { k with idleProcess := some idle, currentProcess := some idle }

/-- `killProcess`: `currentProcess` leaves the process. -/
def leaveCurrent (k : Kernel) (pid : Pid) : Kernel :=
  { k with currentProcess := if k.currentProcess = some pid then k.idleProcess
      else k.currentProcess }

/-- `killProcess`: `foregroundProcess` leaves the process. -/
def leaveForeground (k : Kernel) (pid : Pid) : Kernel :=
  { k with foregroundProcess := if k.foregroundProcess = some pid then none
      else k.foregroundProcess }

/-- `killProcess`: the answer is whether the process was in a queue. -/
def killProcess (k : Kernel) (pid : Pid) (ret : Nat) (state : State) : Option (Kernel × Bool) :=
  let k := leaveCurrent k pid
  match (switchProcessFromQueues k .ready .zombie pid).or
      ((switchProcessFromQueues k .blocked .zombie pid).or
        (switchProcessFromQueues k .blockedBySem .zombie pid)) with
  | none => some (k, false)
  | some k => do
    let k := leaveForeground k pid
    let process ← k.procs pid
    let k := k.setPCB pid { process with retValue := ret, state := state }
    some (k.observe (.killed pid process.parentPid ret), true)

/-! ## `scheduler.c`: dispatching -/

/-- `QUANTUM` -/
def QUANTUM : Int := 3

/-- `MAX_PRIORITY` -/
def maxPriority : Int := 5

/-- `MIN_PRIORITY` -/
def minPriority : Int := 0

/-- `IDLE_PRIORITY` -/
def idlePriority : Int := 6

/-- `calculateQuantum` -/
def calculateQuantum (priority : Int) : Int :=
  if priority = idlePriority then QUANTUM
  else QUANTUM * (maxPriority - priority + 1)

/-- `getCurrentPid` -/
def getCurrentPid (k : Kernel) : Pid := k.currentProcess.getD (-1)

/-- `getForegroundPid` -/
def getForegroundPid (k : Kernel) : Pid := k.foregroundProcess.getD (-1)

/-- `schedule`: the PCB of the process that loses the CPU. -/
def suspendedPCB (first : Bool) (process : PCB) (rsp : Sp) : PCB :=
  { process with
    rsp := if first then process.rsp else rsp
    state := if process.state = .RUNNING then .READY else process.state }

/-- `schedule`: the process loses the CPU. -/
def suspend (k : Kernel) (current : Pid) (process : PCB) (rsp : Sp) : Kernel :=
  let k := (k.setPCB current (suspendedPCB k.first process rsp)).observe (.switched rsp)
  if k.first then { k with first := false } else k.observe (.saved current rsp)

/-- `schedule`: the next process gets the CPU. -/
def dispatch (k : Kernel) (next : Pid) : Option (Kernel × Sp) := do
  let process ← k.procs next
  let k := k.setPCB next { process with state := .RUNNING }
  some ({ k with currentPid := next, quantum := calculateQuantum process.priority }, process.rsp)

/-- `schedule`: the kernel after the call and the stack pointer returned. -/
def schedule (k : Kernel) (rsp : Sp) : Option (Kernel × Sp) := do
  let current ← k.currentProcess
  let process ← k.procs current
  if k.quantum > 0 ∧ process.state = .RUNNING then
    some ({ k with quantum := k.quantum - 1 }, rsp)
  else
    let (k, next) ← getNextProcess (suspend k current process rsp)
    dispatch k next

/-- `yield`: what comes after `callTimerTick` is its caller's. -/
def yield (k : Kernel) : Kernel × Flow := ({ k with quantum := 0 }, .tick)

/-- What `blockProcess` and `blockProcessBySem` share. -/
def yieldIfCurrent (k : Kernel) (pid : Pid) : Kernel × Flow :=
  if pid = getCurrentPid k then yield k else (k, .ret 0)

/-- `blockProcess` -/
def blockProcess (k : Kernel) (pid : Pid) : Option (Kernel × Flow) := do
  let (k, moved) ← blockProcessQueue k pid
  some (if moved then yieldIfCurrent k pid else (k, .ret (-1)))

/-- `blockProcessBySem` -/
def blockProcessBySem (k : Kernel) (pid : Pid) : Option (Kernel × Flow) := do
  let (k, moved) ← blockProcessQueueBySem k pid
  some (if moved then yieldIfCurrent k pid else (k, .ret (-1)))

/-- The result of a boolean step as C gives it. -/
def status (ok : Bool) : Int := if ok then 0 else -1

/-- `unblockProcess` -/
def unblockProcess (k : Kernel) (pid : Pid) : Option (Kernel × Flow) := do
  let (k, moved) ← unblockProcessQueue k pid
  some (k, .ret (status moved))

/-- `unblockProcessBySem` -/
def unblockProcessBySem (k : Kernel) (pid : Pid) : Option (Kernel × Bool) :=
  unblockProcessQueueBySem k pid

end SoKernel
