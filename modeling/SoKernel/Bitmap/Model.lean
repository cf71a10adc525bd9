import SoKernel.Lib.Run
import Mathlib.Algebra.GroupWithZero.Nat
import Mathlib.Logic.Function.Basic

/-!
# The bitmap memory manager

`Kernel/Memorymanager/bitmapMemoryManager.c`, the allocator of builds without `BUDDY`.
The table has one cell for each block; `uint32_t` arithmetic is modulo `2 ^ 32`. A
function returns `none` where the code reads or writes a cell outside the table.
-/

namespace SoKernel.Bitmap

/-! ## Constants (`defs.h`) -/

/-- `BLOCK_SIZE` -/
def blockSize : Nat := 64

/-- `HEAP_START_ADDRESS` -/
def heapStartAddress : Nat := 0x600000

/-- `HEAP_END_ADDRESS` -/
def heapEndAddress : Nat := 512 * 1024 * 1024 - 1

/-- `HEAP_SIZE` -/
def heapSize : Nat := heapEndAddress - heapStartAddress + 1

/-! ## State -/

inductive Cell
  | FREE
  | USED
  | START_BOUNDARY
  | END_BOUNDARY
  | SINGLE_BLOCK
deriving DecidableEq, Repr

/-- `MemoryManagerCDT` -/
structure MemoryManager where
  start : Nat
  blockQty : Nat
  blocksUsed : Nat
  bitmap : Nat → Cell
  current : Nat

/-- The difference of two `uint32_t`. -/
def sub32 (a b : Nat) : Nat := (a + 2 ^ 32 - b) % 2 ^ 32

namespace MemoryManager

/-- `bitmap[i] = c` -/
def setCell (m : MemoryManager) (i : Nat) (c : Cell) : Option MemoryManager :=
  if i < m.blockQty then some { m with bitmap := Function.update m.bitmap i c } else none

def addUsed (m : MemoryManager) (n : Nat) : MemoryManager :=
  { m with blocksUsed := (m.blocksUsed + n) % 2 ^ 32 }

/-- The address of a block. -/
def blockAddress (m : MemoryManager) (i : Nat) : Nat := m.start + i * blockSize % 2 ^ 32

/-- The block of an address. -/
def blockIndex (m : MemoryManager) (address : Nat) : Nat :=
  (address - m.start) / blockSize % 2 ^ 32

end MemoryManager

/-! ## Helper functions of the source -/

/-- `sizeToBlockQty`; the argument is converted to `uint32_t`. -/
def sizeToBlockQty (size : Nat) : Nat :=
  let size := size % 2 ^ 32
  if size % blockSize ≠ 0 then size / blockSize + 1 else size / blockSize

/-- `initializeBitmap` -/
def initializeBitmap (m : MemoryManager) : MemoryManager :=
  { m with bitmap := fun i => if i < m.blockQty then .FREE else m.bitmap i }

/-- The address `findFreeBlocks` computes at the index `i`. -/
def MemoryManager.groupAddress (m : MemoryManager) (blocksNeeded i : Nat) : Nat :=
  m.blockAddress ((sub32 i blocksNeeded + 1) % 2 ^ 32)

/-- The loop of `findFreeBlocks`, with `n` cells to go, and the test after it. -/
def findLoop (m : MemoryManager) (blocksNeeded : Nat) : Nat → Nat → Nat → Nat
  | 0, i, freeBlocks => if freeBlocks = blocksNeeded then m.groupAddress blocksNeeded i else 0
  | n + 1, i, freeBlocks =>
    if m.bitmap i = .FREE then
      if freeBlocks + 1 = blocksNeeded then m.groupAddress blocksNeeded i
      else findLoop m blocksNeeded n (i + 1) (freeBlocks + 1)
    else findLoop m blocksNeeded n (i + 1) 0

/-- `findFreeBlocks` between `first` and `last`. -/
def findFreeBlocks (m : MemoryManager) (blocksNeeded first last : Nat) : Nat :=
  findLoop m blocksNeeded (last - first) first 0

/-- The loop of `markGroupAsUsed`, with `n` cells to go. -/
def markLoop (index : Nat) : Nat → Nat → MemoryManager → Option MemoryManager
  | 0, _, m => some m
  | n + 1, i, m => do
    let m ← (m.addUsed 1).setCell (index + i) .USED
    markLoop index n (i + 1) m

/-- `markGroupAsUsed` -/
def markGroupAsUsed (m : MemoryManager) (blocksNeeded index : Nat) :
    Option (MemoryManager × Nat) := do
  let m ← m.setCell index .START_BOUNDARY
  let m ← m.setCell (sub32 (index + blocksNeeded) 1) .END_BOUNDARY
  let m ← markLoop index (sub32 blocksNeeded 1 - 1) 1 (m.addUsed 2)
  some (m, m.blockAddress index)

/-- The loop of `freeMemory`, with `n` cells up to the end of the table. -/
def freeLoop (blockIndex : Nat) : Nat → Nat → MemoryManager → Option (MemoryManager × Nat)
  | 0, _, _ => none
  | n + 1, blocksToFree, m =>
    if m.bitmap (blockIndex + blocksToFree) = .END_BOUNDARY then some (m, blocksToFree)
    else do
      let m ← m.setCell (blockIndex + blocksToFree) .FREE
      freeLoop blockIndex n (blocksToFree + 1) m

/-! ## Interface -/

/-- `createMemoryManager`; its parameters are not used. `table` is what the memory of
the table holds. -/
def createMemoryManager (table : Nat → Cell) (_start _size : Nat) : MemoryManager :=
  let blockQty := heapSize / blockSize
  let bitmapSizeInBytes := blockQty * 4
  let bitmapSizeInBlocks := (bitmapSizeInBytes + blockSize - 1) / blockSize
  initializeBitmap
    { start := heapStartAddress + bitmapSizeInBlocks * blockSize
      blockQty := blockQty - bitmapSizeInBlocks
      blocksUsed := 0
      bitmap := table
      current := 0 }

/-- `allocMemory`: the address is `0` for `NULL`. -/
def allocMemory (m : MemoryManager) (size : Nat) : Option (MemoryManager × Nat) :=
  let blocksNeeded := sizeToBlockQty size
  if blocksNeeded > sub32 m.blockQty m.blocksUsed then some (m, 0)
  else
    let first := findFreeBlocks m blocksNeeded m.current m.blockQty
    let initialBlockAddress :=
      if first = 0 then findFreeBlocks m blocksNeeded 0 m.blockQty else first
    if initialBlockAddress = 0 then some (m, 0)
    else
      let blockIndex := m.blockIndex initialBlockAddress
      let m := { m with current := (blockIndex + blocksNeeded) % 2 ^ 32 }
      if blocksNeeded = 1 then do
        let m ← (m.addUsed 1).setCell blockIndex .SINGLE_BLOCK
        some (m, initialBlockAddress)
      else markGroupAsUsed m blocksNeeded blockIndex

/-- `freeMemory` -/
def freeMemory (m : MemoryManager) (address : Nat) : Option MemoryManager :=
  if address = 0 ∨ address % blockSize ≠ 0 then some m
  else if address < m.start then some m
  else
    let blockIndex := m.blockIndex address
    if blockIndex ≥ m.blockQty then none
    else if m.bitmap blockIndex = .SINGLE_BLOCK then do
      let m ← m.setCell blockIndex .FREE
      some { m with blocksUsed := sub32 m.blocksUsed 1 }
    else if m.bitmap blockIndex ≠ .START_BOUNDARY then some m
    else do
      let (m, blocksToFree) ← freeLoop blockIndex (m.blockQty - blockIndex) 0 m
      let m ← m.setCell (blockIndex + blocksToFree) .FREE
      some { m with blocksUsed := sub32 m.blocksUsed (blocksToFree + 1) }

/-! ## The allocator and its users -/

/-- The calls of the allocator. -/
inductive Event
  | alloc (size : Nat)
  | free (address : Nat)
deriving DecidableEq, Repr

/-- The allocator alone: any call with any argument. -/
def step (m : MemoryManager) : Event → Option MemoryManager
  | .alloc size => (allocMemory m size).map Prod.fst
  | .free address => freeMemory m address

/-- A live allocation: the address returned and the bytes asked for. -/
structure Alloc where
  address : Nat
  size : Nat
deriving DecidableEq, Repr

/-- The allocator and the live allocations. -/
structure St where
  manager : MemoryManager
  live : List Alloc

namespace St

def step (s : St) : Event → Option St
  | .alloc size =>
    (allocMemory s.manager size).map fun r =>
      ⟨r.1, if r.2 = 0 then s.live else ⟨r.2, size⟩ :: s.live⟩
  | .free address =>
    (freeMemory s.manager address).map fun m => ⟨m, s.live.eraseP fun a => a.address = address⟩

/-- Users ask for `1` to `2 ^ 32 - 1` bytes and free live pointers. -/
def Owned (s : St) : Event → Prop
  | .alloc size => 1 ≤ size ∧ size < 2 ^ 32
  | .free address => ∃ a ∈ s.live, a.address = address

instance (s : St) : (e : Event) → Decidable (s.Owned e)
  | .alloc size => inferInstanceAs (Decidable (1 ≤ size ∧ size < 2 ^ 32))
  | .free address => inferInstanceAs (Decidable (∃ a ∈ s.live, a.address = address))

end St

/-- The states reached from `createMemoryManager` by any calls. -/
def Reach (table : Nat → Cell) (start size : Nat) (m : MemoryManager) : Prop :=
  Run step Run.anyEvent (createMemoryManager table start size) m

/-- The states reached by users that free what they have allocated. -/
def OwnedReach (table : Nat → Cell) (start size : Nat) (s : St) : Prop :=
  Run St.step St.Owned ⟨createMemoryManager table start size, []⟩ s

end SoKernel.Bitmap
