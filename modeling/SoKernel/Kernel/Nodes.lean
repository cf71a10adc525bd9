import SoKernel.Lib.Allocator
import SoKernel.Lib.Run
import SoKernel.Kernel.Process

/-!
# The queues in the heap

`dataStructures/queue.c` and the functions of `process.c` that move processes, with the nodes
of the queues taken from an allocator: a node is allocated by `enqueue` and freed by `dequeue`
and `remove`, and both may find no memory. What the functions write into nodes and queue
records is a `touch` of the chunk.

An outer `none` is a call of the allocator without a defined result, an inner one is `NULL`.
-/

namespace SoKernel

universe u v

/-- `sizeof(Node)`: two pointers. -/
def sizeofNode : Nat := 16

/-- `sizeof(Queue)`: two pointers and an `int`, with padding. -/
def sizeofQueue : Nat := 24

/-- `Node`; `data` points to the PCB of the process. -/
structure Node where
  address : Nat
  data : Pid
deriving DecidableEq, Repr

def Node.chunk (n : Node) : Chunk := ⟨n.address, sizeofNode⟩

/-- The heap with the four queues of the process manager: the address of each `Queue`, and
its nodes from `front` to `rear`. -/
structure NodeQueues (σ : Type u) where
  mem : σ
  record : QueueName → Nat
  nodes : QueueName → List Node

namespace NodeQueues

variable {σ : Type u} {ε : Type v}

def recordChunk (h : NodeQueues σ) (q : QueueName) : Chunk := ⟨h.record q, sizeofQueue⟩

def setNodes (h : NodeQueues σ) (q : QueueName) (l : List Node) : NodeQueues σ :=
  { h with nodes := Function.update h.nodes q l }

/-- The processes of a queue. -/
def pids (h : NodeQueues σ) (q : QueueName) : List Pid := (h.nodes q).map Node.data

/-- Writes into nodes and records. -/
def touch (A : Allocator σ ε) (h : NodeQueues σ) (ts : List Chunk) : NodeQueues σ :=
  { h with mem := ts.foldl A.touch h.mem }

/-- The end of `dequeue` and `remove`: `freeMemory`, then `queue->size--`. -/
def release (A : Allocator σ ε) (h : NodeQueues σ) (q : QueueName) (n : Node) :
    Option (NodeQueues σ × Option Pid) := do
  let mem ← A.free h.mem n.chunk
  some (({ h with mem := mem } : NodeQueues σ).touch A [h.recordChunk q], some n.data)

/-! ## `queue.c` -/

/-- `enqueue` -/
def enqueue (A : Allocator σ ε) (h : NodeQueues σ) (q : QueueName) (data : Pid) :
    Option (NodeQueues σ × Bool) := do
  let (mem, p) ← A.alloc h.mem sizeofNode
  let h : NodeQueues σ := { h with mem := mem }
  match p with
  | none => some (h, false)
  | some address =>
    let newNode : Node := ⟨address, data⟩
    let rear := (h.nodes q).getLast?.toList.map Node.chunk
    let h := h.setNodes q (h.nodes q ++ [newNode])
    some (h.touch A (newNode.chunk :: rear ++ [h.recordChunk q]), true)

/-- `dequeue` -/
def dequeue (A : Allocator σ ε) (h : NodeQueues σ) (q : QueueName) :
    Option (NodeQueues σ × Option Pid) :=
  match h.nodes q with
  | [] => some (h, none)
  | temp :: rest => ((h.touch A [h.recordChunk q]).setNodes q rest).release A q temp

/-- The loop of `remove`, comparing with `hasPid`: the nodes before the node of `pid`, the
node, and those after it. -/
def locate (pid : Pid) : List Node → Option (List Node × Node × List Node)
  | [] => none
  | current :: rest =>
    if current.data = pid then some ([], current, rest)
    else (locate pid rest).map fun found => (current :: found.1, found.2)

/-- `remove` -/
def remove (A : Allocator σ ε) (h : NodeQueues σ) (q : QueueName) (pid : Pid) :
    Option (NodeQueues σ × Option Pid) :=
  match locate pid (h.nodes q) with
  | none => some (h, none)
  | some (before, current, after) =>
    let link := (before.getLast?.map Node.chunk).getD (h.recordChunk q)
    let rear := if after.isEmpty then [h.recordChunk q] else []
    ((h.touch A (link :: rear)).setNodes q (before ++ after)).release A q current

/-! ## `process.c` -/

/-- `switchProcessFromQueues`: the result of `enqueue` is not looked at. -/
def switchProcessFromQueues (A : Allocator σ ε) (h : NodeQueues σ)
    (queueFrom queueTo : QueueName) (pid : Pid) : Option (NodeQueues σ × Option Pid) := do
  let (h, process) ← h.remove A queueFrom pid
  match process with
  | none => some (h, none)
  | some process => do
    let (h, _) ← h.enqueue A queueTo process
    some (h, some process)

/-- The queues after a move, and whether the process was found. -/
def move (A : Allocator σ ε) (h : NodeQueues σ) (queueFrom queueTo : QueueName) (pid : Pid) :
    Option (NodeQueues σ × Bool) := do
  let (h, process) ← h.switchProcessFromQueues A queueFrom queueTo pid
  some (h, process.isSome)

/-- `blockProcessQueue` -/
def blockProcessQueue (A : Allocator σ ε) (h : NodeQueues σ) (pid : Pid) :
    Option (NodeQueues σ × Bool) :=
  if pid ∈ h.pids .blockedBySem then some (h, false)
  else if pid ∉ h.pids .ready then some (h, false)
  else h.move A .ready .blocked pid

/-- `blockProcessQueueBySem` -/
def blockProcessQueueBySem (A : Allocator σ ε) (h : NodeQueues σ) (pid : Pid) :
    Option (NodeQueues σ × Bool) :=
  h.move A .ready .blockedBySem pid

/-- `unblockProcessQueue` -/
def unblockProcessQueue (A : Allocator σ ε) (h : NodeQueues σ) (pid : Pid) :
    Option (NodeQueues σ × Bool) :=
  h.move A .blocked .ready pid

/-- `unblockProcessQueueBySem` -/
def unblockProcessQueueBySem (A : Allocator σ ε) (h : NodeQueues σ) (pid : Pid) :
    Option (NodeQueues σ × Bool) :=
  h.move A .blockedBySem .ready pid

/-- The moves of `killProcess`, one after the other until the process is found. -/
def killProcess (A : Allocator σ ε) (h : NodeQueues σ) (pid : Pid) :
    Option (NodeQueues σ × Bool) := do
  let (h, found) ← h.move A .ready .zombie pid
  if found then some (h, true)
  else
    let (h, found) ← h.move A .blocked .zombie pid
    if found then some (h, true)
    else h.move A .blockedBySem .zombie pid

/-- `getNextProcess`; `idle` is `idleProcess`. -/
def getNextProcess (A : Allocator σ ε) (h : NodeQueues σ) (idle : Option Pid) :
    Option (NodeQueues σ × Option Pid) :=
  if h.nodes .ready = [] then some (h, idle)
  else do
    let (h, next) ← h.dequeue A .ready
    match next with
    | none => some (h, none)
    | some next => do
      let (h, ok) ← h.enqueue A .ready next
      some (h, if ok then some next else none)

/-! ## Runs -/

/-- The functions that move one process. -/
inductive Mover
  | block
  | blockBySem
  | unblock
  | unblockBySem
  | kill
deriving DecidableEq, Repr

/-- Where the process is to end. -/
def Mover.target : Mover → QueueName
  | .block => .blocked
  | .blockBySem => .blockedBySem
  | .unblock => .ready
  | .unblockBySem => .ready
  | .kill => .zombie

def Mover.run (A : Allocator σ ε) (h : NodeQueues σ) (pid : Pid) :
    Mover → Option (NodeQueues σ × Bool)
  | .block => h.blockProcessQueue A pid
  | .blockBySem => h.blockProcessQueueBySem A pid
  | .unblock => h.unblockProcessQueue A pid
  | .unblockBySem => h.unblockProcessQueueBySem A pid
  | .kill => h.killProcess A pid

/-- What happens to the queues and the heap. -/
inductive Event (ε : Type v)
  /-- `addProcess`: the node may not be there. -/
  | add (pid : Pid)
  | move (m : Mover) (pid : Pid)
  | rotate (idle : Option Pid)
  /-- `removeFromZombie`, `removeFromReady`. -/
  | remove (q : QueueName) (pid : Pid)
  /-- A step of the other users of the allocator. -/
  | user (e : ε)

def step (A : Allocator σ ε) (h : NodeQueues σ) : Event ε → Option (NodeQueues σ)
  | .add pid => (h.enqueue A .ready pid).map Prod.fst
  | .move m pid => (m.run A h pid).map Prod.fst
  | .rotate idle => (h.getNextProcess A idle).map Prod.fst
  | .remove q pid => (h.remove A q pid).map Prod.fst
  | .user e => (A.user h.mem e).map fun mem => { h with mem := mem }

end NodeQueues

end SoKernel
