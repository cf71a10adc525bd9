import SoKernel.Kernel.Process

/-!
# Semaphores

`semaphore.c`. The waiting processes are the pids in the queue of the semaphore;
the cell that holds a pid and the node that holds the cell are two allocations.
System calls run with interrupts off, so nothing comes between `acquire` and
`release`; a lock that is taken would be tried for ever.
-/

namespace SoKernel

/-- `manager->semaphores[id]` -/
def accessSem (k : Kernel) (id : Int) : Option Sem :=
  if k.semManager ∧ 0 ≤ id ∧ id < numSems then some (k.sems id) else none

/-- `acquire` -/
def acquire (sem : Sem) : Option Sem :=
  if sem.lock then none else some { sem with lock := true }

/-- `release` -/
def release (sem : Sem) : Sem := { sem with lock := false }

/-- `semInit`: when there is no memory for the queue, the manager is freed. -/
def semInit (k : Kernel) (id : Int) (value : Nat) : Option (Kernel × Bool) :=
  if id < 0 ∨ id ≥ numSems then some (k, false)
  else do
    let sem ← accessSem k id
    if sem.used then some (k, false)
    else
      let (ok, k) := k.allocMemory
      if ok then
        let k := k.setSem id { value := value, lock := false, used := true, blocked := .live [] }
        some (k.observe (.opened id value), true)
      else
        let k := k.setSem id { value := value, lock := false, used := true, blocked := .null }
        some ({ k with semManager := false }, false)

/-- `semClose` -/
def semClose (k : Kernel) (id : Int) : Option (Kernel × Bool) :=
  if id < 0 ∨ id ≥ numSems then some (k, false)
  else do
    let sem ← accessSem k id
    if !sem.used then some (k, false)
    else
      match sem.blocked with
      | .freed => none
      | .null =>
        some (k.setSem id { value := 0, lock := false, used := false, blocked := .null }, true)
      | .live _ =>
        some (k.setSem id { value := 0, lock := false, used := false, blocked := .freed }, true)

/-- `getFreeSemId` -/
def getFreeSemId (k : Kernel) : Option Int :=
  if k.semManager then
    match (List.range numSems.toNat).find? fun i : Nat => !(k.sems i).used with
    | some i => some (i : Int)
    | none => some (-1)
  else none

/-- `enqueue(sem->blocked, pid)`: whether the pid is in the queue now. -/
def enqueuePid (k : Kernel) (sem : Sem) (pid : Pid) : Option (Kernel × Sem × Bool) :=
  match sem.blocked with
  | .null => some (k, sem, false)
  | .freed => none
  | .live pids =>
    let (ok, k) := k.allocMemory
    if ok then some (k, { sem with blocked := .live (pids ++ [pid]) }, true)
    else some (k, sem, false)

/-- `wait`; after `callTimerTick` the result is `0`. -/
def wait (k : Kernel) (id : Int) : Option (Kernel × Flow) := do
  let sem ← accessSem k id
  let sem ← acquire sem
  if sem.value > 0 then
    let k := k.setSem id (release { sem with value := sem.value - 1 })
    some (k.observe (.took id (getCurrentPid k)), .ret 0)
  else
    let (ok, k) := k.allocMemory
    if !ok then some (k.setSem id (release sem), .ret (-1))
    else
      let pid := getCurrentPid k
      let (k, sem, queued) ← enqueuePid k sem pid
      let k := k.setSem id (release sem)
      let k := if queued then k.observe (.queued id pid) else k
      let (k, flow) ← blockProcessBySem k pid
      some (k, if flow = .tick then .tick else .ret 0)

/-- `post` -/
def post (k : Kernel) (id : Int) : Option (Kernel × Flow) := do
  let sem ← accessSem k id
  let sem ← acquire sem
  let poster := getCurrentPid k
  match sem.blocked with
  | .freed => none
  | .live (pid :: rest) =>
    let sem := { sem with blocked := .live rest }
    let (k, moved) ← unblockProcessBySem (k.setSem id sem) pid
    let k := k.setSem id (release sem)
    some (k.observe (if moved then .released id pid poster else .absorbed id pid poster), .ret 0)
  | _ =>
    let k := k.setSem id (release { sem with value := (sem.value + 1) % 2 ^ 32 })
    some (k.observe (.incremented id poster), .ret 0)

/-- `semWait` -/
def semWait (k : Kernel) (id : Int) : Option (Kernel × Flow) := wait k id

/-- `semPost` -/
def semPost (k : Kernel) (id : Int) : Option (Kernel × Flow) := post k id

end SoKernel
