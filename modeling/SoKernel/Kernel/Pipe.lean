import SoKernel.Kernel.Semaphore

/-!
# Pipes

`pipe.c`. `pipeRead`, `pipeWrite` and `pipeClear` may lose the CPU at each
`semWait`, so each is cut there: a `PipeOp` holds the local variables of the call
and a `Stage` the point it has reached.
-/

namespace SoKernel

/-- `createPipeManager` -/
def createPipeManager (k : Kernel) : Kernel :=
  { k with pipes := fun i =>
      if i < maxPipes then
        { k.pipes i with
          readIdx := 0, writeIdx := 0, count := 0, semReaders := -1, semWriters := -1,
          mutex := -1, isOpen := false }
      else k.pipes i }

/-- `ensurePipeManagerInit` -/
def ensurePipeManagerInit (k : Kernel) : Kernel :=
  if k.pipeManagerInit then k else { createPipeManager k with pipeManagerInit := true }

/-- The id `createPipe` returns for a slot. -/
def pipeHandle (i : Nat) : Int := if i = 0 then 0 else i + 2

/-- `createPipe`: the id, or `-1`. -/
def createPipe (k : Kernel) : Option (Kernel × Int) :=
  let k := ensurePipeManagerInit k
  match (List.range maxPipes).find? fun i => !(k.pipes i).isOpen with
  | none => some (k, -1)
  | some i => do
    let pipe := { k.pipes i with
      readIdx := 0, writeIdx := 0, count := 0, isOpen := true, semReaders := k.nextSemId,
      semWriters := k.nextSemId + 1, mutex := k.nextSemId + 2 }
    let k := { k.setPipe i pipe with nextSemId := k.nextSemId + 3 }
    let (k, ok) ← semInit k pipe.semReaders 0
    if !ok then some (k, -1)
    else
      let (k, ok) ← semInit k pipe.semWriters pipeBufferSize
      if !ok then some (k, -1)
      else
        let (k, ok) ← semInit k pipe.mutex 1
        if !ok then some (k, -1)
        else some (k.observe (.pipeOpened i (pipeHandle i)), pipeHandle i)

/-- `PIPE_ID_CHECK`: the index the macro leaves in `id`, or `none` for its `-1`. -/
def pipeIdCheck (k : Kernel) (id : Int) : Option Nat :=
  if id < 0 ∨ id ≥ maxPipes then none
  else
    let i := (if id > 2 then id - 2 else id).toNat
    if (k.pipes i).isOpen then some i else none

/-- `pipeClose` -/
def pipeClose (k : Kernel) (id : Int) : Option (Kernel × Bool) :=
  let k := ensurePipeManagerInit k
  match pipeIdCheck k id with
  | none => some (k, false)
  | some i =>
    if i ≤ 2 then some (k, false)
    else do
      let pipe := k.pipes i
      let (k, _) ← semClose k pipe.semReaders
      let (k, _) ← semClose k pipe.semWriters
      let (k, _) ← semClose k pipe.mutex
      let pipe := { pipe with
        readIdx := 0, writeIdx := 0, count := 0, isOpen := false, semReaders := -1,
        semWriters := -1, mutex := -1 }
      some ((k.setPipe i pipe).observe (.pipeClosed i id), true)

/-! ## The operations that block -/

/-- The local variables of a call. -/
inductive PipeOp
  | read (size i : Nat) (buffer : List Byte) (bytesRead : Nat)
  | write (data : List Byte) (i bytesWritten : Nat)
  | clear
deriving DecidableEq, Repr

/-- Where a call is: at the head of its loop, before `semWait(pipe->mutex)`, or
behind it. -/
inductive Stage
  | loop
  | mutex
  | critical
deriving DecidableEq, Repr

/-- `pipeRead`, up to its loop. -/
def pipeRead (k : Kernel) (id size : Int) : Kernel × Option (Nat × PipeOp × Stage) :=
  let k := ensurePipeManagerInit k
  match pipeIdCheck k id with
  | none => (k, none)
  | some slot => (k, if size ≤ 0 then none else some (slot, .read size.toNat 0 [] 0, .loop))

/-- `pipeWrite`, up to its loop. -/
def pipeWrite (k : Kernel) (id : Int) (data : List Byte) :
    Kernel × Option (Nat × PipeOp × Stage) :=
  let k := ensurePipeManagerInit k
  match pipeIdCheck k id with
  | none => (k, none)
  | some slot => (k, if data = [] then none else some (slot, .write data 0 0, .loop))

/-- `pipeClear`, up to its `semWait`. -/
def pipeClear (k : Kernel) (id : Int) : Kernel × Option (Nat × PipeOp × Stage) :=
  let k := ensurePipeManagerInit k
  match pipeIdCheck k id with
  | none => (k, none)
  | some slot => (k, some (slot, .clear, .mutex))

/-- The critical section of `pipeRead`: the byte taken. -/
def takeByte (k : Kernel) (slot : Nat) (pid : Pid) : Kernel × Option Byte :=
  let pipe := k.pipes slot
  if pipe.count > 0 then
    let b := pipe.buffer pipe.readIdx
    let k := k.setPipe slot { pipe with
      readIdx := (pipe.readIdx + 1) % pipeBufferSize, count := pipe.count - 1 }
    (k.observe (.got slot pid b), some b)
  else (k, none)

/-- The critical section of `pipeWrite`: whether there was room. -/
def putByte (k : Kernel) (slot : Nat) (pid : Pid) (b : Byte) : Kernel × Bool :=
  let pipe := k.pipes slot
  if pipe.count < pipeBufferSize then
    let k := k.setPipe slot { pipe with
      buffer := Function.update pipe.buffer pipe.writeIdx b,
      writeIdx := (pipe.writeIdx + 1) % pipeBufferSize, count := pipe.count + 1 }
    (k.observe (.put slot pid b), true)
  else (k, false)

/-- The critical section of `pipeClear`. -/
def emptyPipe (k : Kernel) (slot : Nat) (pid : Pid) : Kernel :=
  let pipe := k.pipes slot
  (k.setPipe slot { pipe with readIdx := 0, writeIdx := 0, count := 0 }).observe
    (.cleared slot pid pipe.count)

end SoKernel
