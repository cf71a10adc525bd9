import Mathlib.Algebra.Group.Nat.Defs
import Mathlib.Logic.Function.Basic

/-!
# The state of the kernel

The data of `Shared/shared_structs.h`, `process.c`, `scheduler.c`, `semaphore.c`
and `pipe.c`. A PCB is known by the pid it was created with: `pid` is written
once, pids are never used twice, so comparing pids (`hasPid`) is comparing
pointers. A pointer whose PCB has been freed is a pid with no PCB in `procs`, and
a function that reads through it returns `none`.
-/

namespace SoKernel

/-- `pid_t` -/
abbrev Pid := Int

/-- A `char` of a pipe. -/
abbrev Byte := UInt8

/-- `State` -/
inductive State
  | READY
  | RUNNING
  | BLOCKED
  | ZOMBIE
  | EXITED
  | KILLED
  | SEM_WAITING
deriving DecidableEq, Repr

/-- A stack pointer: the frame `stackFrame` built for a process, or a point of its
stack where an interrupt was taken. The stack `main` runs on belongs to no process. -/
inductive Sp
  | initial (pid : Pid)
  | inside (pid : Pid) (off : Nat)
deriving DecidableEq, Repr

/-- The process whose stack the pointer lies in. -/
def Sp.stack : Sp → Pid
  | .initial p => p
  | .inside p _ => p

/-- The owner of the stack of `main`. -/
def bootStack : Pid := -1

/-- `PCB` -/
structure PCB where
  pid : Pid
  parentPid : Pid
  waitingForPid : Pid
  priority : Int
  state : State
  rsp : Sp
  retValue : Nat
  foreground : Bool
  stdin : Int
  stdout : Int
  childrenSem : Int
  childrenCount : Int
deriving DecidableEq, Repr

/-- The queues of `ProcessManagerCDT`. -/
inductive QueueName
  | ready
  | blocked
  | blockedBySem
  | zombie
deriving DecidableEq, Repr

/-! ## Semaphores and pipes -/

/-- `NUM_SEMS` -/
def numSems : Int := 300

/-- `PIPE_BUFFER_SIZE` -/
def pipeBufferSize : Nat := 100

/-- `MAX_PIPES` -/
def maxPipes : Nat := 16

/-- The `blocked` pointer of a semaphore. -/
inductive SemQueue
  | null
  | freed
  | live (pids : List Pid)
deriving DecidableEq, Repr

/-- `sem_t`; `value` is a `uint32_t`. -/
structure Sem where
  value : Nat
  lock : Bool
  used : Bool
  blocked : SemQueue
deriving DecidableEq, Repr

/-- `pipe_t` -/
structure Pipe where
  buffer : Nat → Byte
  readIdx : Nat
  writeIdx : Nat
  count : Nat
  semReaders : Int
  semWriters : Int
  mutex : Int
  isOpen : Bool

/-! ## What is observed -/

/-- The history kept beside the state. No function reads it. -/
inductive Obs
  /-- `schedule` stored `sp` into the PCB. -/
  | saved (pcb : Pid) (sp : Sp)
  /-- `schedule(sp)` gave the CPU to another stack pointer. -/
  | switched (sp : Sp)
  /-- `semInit` opened the semaphore with `value`. -/
  | opened (id : Int) (value : Nat)
  /-- `wait` by `pid` found a token. -/
  | took (id : Int) (pid : Pid)
  /-- `wait` put `pid` in the queue of the semaphore. -/
  | queued (id : Int) (pid : Pid)
  /-- `post` by `poster` made `pid` ready. -/
  | released (id : Int) (pid poster : Pid)
  /-- `post` by `poster` took `pid` from the queue and could not make it ready. -/
  | absorbed (id : Int) (pid poster : Pid)
  /-- `post` by `poster` found nobody waiting. -/
  | incremented (id : Int) (poster : Pid)
  /-- A `semWait` that had blocked returned. -/
  | resumed (id : Int) (pid : Pid)
  /-- `killProcess` by `retValue` of a child of `parent`. -/
  | killed (pid parent : Pid) (retValue : Nat)
  /-- `createPipe` opened the slot and returned `id`. -/
  | pipeOpened (slot : Nat) (id : Int)
  /-- `pipeClose(id)` closed the slot. -/
  | pipeClosed (slot : Nat) (id : Int)
  | put (slot : Nat) (pid : Pid) (b : Byte)
  | got (slot : Nat) (pid : Pid) (b : Byte)
  /-- `pipeClear` emptied the pipe, which held `count` bytes. -/
  | cleared (slot : Nat) (pid : Pid) (count : Nat)
  /-- A `pipeRead` of `size` bytes returned `ret` and left `bytes` in the buffer. -/
  | readDone (slot : Nat) (pid : Pid) (size : Nat) (bytes : List Byte) (ret : Nat)
  /-- A `pipeWrite` of `data` returned `ret`. -/
  | writeDone (slot : Nat) (pid : Pid) (data : List Byte) (ret : Nat)
  /-- `waitpid(target, &st)` returned `ret`, having written `stored` to `st`. -/
  | waitpidDone (pid target ret : Pid) (stored : Option Int)
  /-- Any other system call returned. -/
  | returned (pid : Pid) (ret : Int)
deriving DecidableEq, Repr

/-! ## The kernel -/

structure Kernel where
  procs : Pid → Option PCB
  /-- The stack of the process is allocated. -/
  stackLive : Pid → Bool
  queue : QueueName → List Pid
  foregroundProcess : Option Pid
  currentProcess : Option Pid
  idleProcess : Option Pid
  currentPid : Pid
  nextPid : Pid
  quantum : Int
  first : Bool
  sems : Int → Sem
  /-- The storage of the semaphore manager is allocated. -/
  semManager : Bool
  pipes : Nat → Pipe
  nextSemId : Int
  pipeManagerInit : Bool
  /-- The outcomes of the allocations to come. -/
  allocs : Nat → Bool
  log : List Obs

/-- How a kernel function ends: with a value, or in `callTimerTick`. -/
inductive Flow
  | ret (v : Int)
  | tick
deriving DecidableEq, Repr

namespace Kernel

def setPCB (k : Kernel) (p : Pid) (b : PCB) : Kernel :=
  { k with procs := Function.update k.procs p (some b) }

/-- `freeMemory` of a PCB. -/
def freePCB (k : Kernel) (p : Pid) : Kernel :=
  { k with procs := Function.update k.procs p none }

def setStack (k : Kernel) (p : Pid) (live : Bool) : Kernel :=
  { k with stackLive := Function.update k.stackLive p live }

def setQueue (k : Kernel) (q : QueueName) (l : List Pid) : Kernel :=
  { k with queue := Function.update k.queue q l }

def setSem (k : Kernel) (id : Int) (s : Sem) : Kernel :=
  { k with sems := Function.update k.sems id s }

def setPipe (k : Kernel) (slot : Nat) (p : Pipe) : Kernel :=
  { k with pipes := Function.update k.pipes slot p }

def observe (k : Kernel) (o : Obs) : Kernel :=
  { k with log := o :: k.log }

/-- `allocMemory`, seen from the kernel: the next outcome. -/
def allocMemory (k : Kernel) : Bool × Kernel :=
  (k.allocs 0, { k with allocs := fun n => k.allocs (n + 1) })

/-- `enqueue`: the node may fail to be allocated. -/
def enqueue (k : Kernel) (q : QueueName) (p : Pid) : Kernel :=
  let (ok, k) := k.allocMemory
  if ok then k.setQueue q (k.queue q ++ [p]) else k

end Kernel

end SoKernel
