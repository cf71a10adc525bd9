import SoKernel.Kernel.Pipe

/-!
# Creating, killing and waiting for processes

The rest of `scheduler.c`.
-/

namespace SoKernel

/-- `SHELL_PID` -/
def shellPid : Pid := 1

/-- `TTY` -/
def TTY : Int := 0

/-- The arguments of `createProcess` its control flow depends on: whether the
pointers are valid, the `uint8_t` priority, and the descriptors. -/
structure ProcessArgs where
  valid : Bool
  priority : Nat
  foreground : Bool
  stdin : Int
  stdout : Int
deriving DecidableEq, Repr

/-- `getCurrentStdin` -/
def getCurrentStdin (k : Kernel) : Option Int :=
  match k.currentProcess with
  | none => some (-1)
  | some current => (k.procs current).map PCB.stdin

/-- `getCurrentStdout` -/
def getCurrentStdout (k : Kernel) : Option Int :=
  match k.currentProcess with
  | none => some (-1)
  | some current => (k.procs current).map PCB.stdout

/-- `createProcessOnPCB`: the semaphore of a parent with its first foreground child. -/
def openChildrenSem (k : Kernel) (parent : Pid) (b : PCB) : Option Kernel :=
  if b.childrenSem = -1 then do
    let semId ← getFreeSemId k
    if semId ≥ 0 then
      let (k, ok) ← semInit k semId 0
      some (if ok then k.setPCB parent { b with childrenSem := semId } else k)
    else some k
  else some k

/-- `createProcessOnPCB`: what a foreground child does to its parent. -/
def countChild (k : Kernel) (parentPid : Pid) : Option Kernel :=
  match getProcess k parentPid with
  | none => some k
  | some parent => do
    let b ← k.procs parent
    let k ← openChildrenSem k parent b
    let b ← k.procs parent
    some (if b.childrenSem ≥ 0 then
      k.setPCB parent { b with childrenCount := b.childrenCount + 1 } else k)

/-- `createProcessOnPCB`: the PCB as it is before the stack is built. -/
def newPCB (k : Kernel) (args : ProcessArgs) : PCB :=
  { pid := k.nextPid, parentPid := getCurrentPid k, waitingForPid := -1,
    priority := if (args.priority : Int) > idlePriority then maxPriority else args.priority,
    state := .READY, rsp := .initial k.nextPid, retValue := 0, foreground := args.foreground,
    stdin := -1, stdout := -1, childrenSem := -1, childrenCount := 0 }

/-- `createProcessOnPCB`: `addProcess`, unless the priority is the one of idle. -/
def addUnlessIdle (k : Kernel) (process : PCB) : Kernel :=
  if process.priority ≠ idlePriority then addProcess k process.pid else k

/-- `createProcessOnPCB`, once the stack is built: descriptors and queue. -/
def placeProcess (k : Kernel) (args : ProcessArgs) (process : PCB) : Option (Kernel × Option Pid) :=
  if process.pid > 1 then
    if !args.foreground ∧ args.stdin = TTY then
      let process := { process with stdout := args.stdout, state := .BLOCKED }
      some ((k.setPCB process.pid process).enqueue .blocked process.pid, some process.pid)
    else do
      let stdin ← (if args.stdin = TTY then getCurrentStdin k else some args.stdin)
      let stdout ← (if args.stdout = 1 then getCurrentStdout k else some args.stdout)
      let k := k.setPCB process.pid { process with stdin := stdin, stdout := stdout }
      let k ← (if args.foreground ∧ process.parentPid > 0 then countChild k process.parentPid
        else some k)
      some (addUnlessIdle k process, some process.pid)
  else if process.pid = shellPid then do
    let (k, stdin) ← createPipe k
    if stdin < 0 then some ((k.setStack process.pid false).freePCB process.pid, none)
    else
      let k := k.setPCB process.pid { process with stdin := stdin, stdout := 1 }
      some (addUnlessIdle k process, some process.pid)
  else some (addUnlessIdle k process, some process.pid)

/-- `createProcessOnPCB` -/
def createProcessOnPCB (k : Kernel) (args : ProcessArgs) : Option (Kernel × Option Pid) :=
  if !args.valid then some (k, none)
  else
    let (ok, k) := k.allocMemory
    if !ok then some (k, none)
    else
      let process := newPCB k args
      let k := { k.setPCB process.pid process with nextPid := k.nextPid + 1 }
      let (ok, k) := k.allocMemory
      if !ok then some (k.freePCB process.pid, none)
      else placeProcess (k.setStack process.pid true) args process

/-- `createProcess` -/
def createProcess (k : Kernel) (args : ProcessArgs) : Option (Kernel × Flow) := do
  let (k, process) ← createProcessOnPCB k args
  some (k, .ret (process.getD (-1)))

/-- The conversion of a `uint64_t` to an `int32_t`. -/
def toInt32 (n : Nat) : Int := (BitVec.ofNat 32 n).toInt

/-- `reapCild`: the pid and what goes to `*retValue`. The state written here is
freed with the PCB. -/
def reapCild (k : Kernel) (child : Pid) : Option (Kernel × Pid × Int) := do
  let process ← k.procs child
  some ((removeFromZombie k child).freePCB child, child, toInt32 process.retValue)

/-- `reapCild(child, NULL)` -/
def freeChild (k : Kernel) (child : Pid) : Option Kernel :=
  (reapCild k child).map fun r => r.1

/-- `wakeUpWaitingParent` -/
def wakeUpWaitingParent (k : Kernel) (parentPid childPid : Pid) : Option Kernel :=
  if parentPid = -1 then some k
  else do
    let idle ← k.idleProcess
    let k ← (if parentPid = idle then (getProcess k childPid).bind (freeChild k) else some k)
    match getProcess k parentPid with
    | none => some k
    | some parent => do
      let b ← k.procs parent
      if b.state = .BLOCKED ∧ b.waitingForPid = childPid then
        let (k, _) ← unblockProcess k parentPid
        some k
      else some k

/-- `kill`: what the death of a foreground child does to its parent. -/
def uncountChild (k : Kernel) (parentPid : Pid) : Option Kernel :=
  match getProcess k parentPid with
  | none => some k
  | some parent => do
    let b ← k.procs parent
    if b.childrenSem ≥ 0 then
      let k := k.setPCB parent { b with childrenCount := b.childrenCount - 1 }
      if b.childrenCount - 1 = 0 then do
        let (k, _) ← semPost k b.childrenSem
        let (k, _) ← semClose k b.childrenSem
        let b ← k.procs parent
        some (k.setPCB parent { b with childrenSem := -1 })
      else some k
    else some k

/-- `kill` -/
def kill (k : Kernel) (pid : Pid) (retValue : Nat) : Option (Kernel × Flow) :=
  if pid ≤ 1 then some (k, .ret (-1))
  else do
    let (k, found) ← killProcess k pid retValue .ZOMBIE
    if !found then some (k, .ret (-1))
    else
      let process ← k.procs pid
      let k := k.setStack pid false
      let k ← (if process.parentPid > 0 ∧ process.foreground then
        uncountChild k process.parentPid else some k)
      let k ← wakeUpWaitingParent k process.parentPid pid
      let process ← k.procs pid
      let idle ← k.idleProcess
      let k ← (if process.parentPid ≠ idle then freeChild k pid else some k)
      if pid = k.currentPid then some ({ k with quantum := 0 }, .tick) else some (k, .ret 0)

/-- How `waitpid` ends: with its result and what it wrote to `*retValue`, or in
`callTimerTick`. -/
inductive WaitFlow
  | ret (v : Pid) (stored : Option Int)
  | tick
deriving DecidableEq, Repr

/-- `target->state < ZOMBIE` -/
def State.beforeZombie : State → Bool
  | .READY | .RUNNING | .BLOCKED => true
  | _ => false

/-- The second half of `waitpid`, after `blockProcess` has returned `0`. -/
def waitpidResumed (k : Kernel) (current pid : Pid) : Option (Kernel × WaitFlow) :=
  match getProcess k pid with
  | none => some (k, .ret (-1) none)
  | some target => do
    let t ← k.procs target
    if t.state = .ZOMBIE then
      let c ← k.procs current
      let (k, childPid, value) ← reapCild (k.setPCB current { c with waitingForPid := -1 }) target
      some (k, .ret childPid (some value))
    else some (k, .ret (-1) none)

/-- `waitpid` -/
def waitpid (k : Kernel) (pid : Pid) : Option (Kernel × WaitFlow) :=
  let currentProcPid := getCurrentPid k
  match getProcess k pid with
  | none => some (k, .ret (-1) none)
  | some target =>
    match getProcess k currentProcPid with
    | none => some (k, .ret (-1) none)
    | some current => do
      let t ← k.procs target
      let c ← k.procs current
      if t.parentPid ≠ currentProcPid ∧ c.waitingForPid ≠ pid then some (k, .ret (-1) none)
      else if t.state = .ZOMBIE then
        let (k, childPid, value) ← reapCild (k.setPCB current { c with waitingForPid := -1 }) target
        some (k, .ret childPid (some value))
      else if t.state.beforeZombie then
        let k := k.setPCB current { c with waitingForPid := pid, state := .BLOCKED }
        let (k, flow) ← blockProcess k currentProcPid
        match flow with
        | .tick => some (k, .tick)
        | .ret v =>
          if v ≠ 0 then
            let c ← k.procs current
            some (k.setPCB current { c with waitingForPid := -1, state := .READY }, .ret (-1) none)
          else waitpidResumed k current pid
      else some (k, .ret (-1) none)

/-- `changePrio` -/
def changePrio (k : Kernel) (pid : Pid) (newPrio : Int) : Option (Kernel × Flow) :=
  let process := getProcess k pid
  if pid ≤ 1 then some (k, .ret (-1))
  else
    match process with
    | none => some (k, .ret (-1))
    | some process => do
      let newPrio :=
        if newPrio < minPriority then minPriority
        else if newPrio > maxPriority then maxPriority
        else newPrio
      let b ← k.procs process
      some (k.setPCB process { b with priority := newPrio }, .ret newPrio)

/-- `startScheduler` -/
def startScheduler (k : Kernel) : Option Kernel := do
  let k := createPipeManager k
  let (k, idle) ← createProcessOnPCB k
    { valid := true, priority := 6, foreground := false, stdin := -1, stdout := -1 }
  idle.map fun idle => setIdleProcess k idle

end SoKernel
