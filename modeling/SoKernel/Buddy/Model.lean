import Mathlib.Algebra.Group.Nat.Defs
import Mathlib.Logic.Function.Basic

/-!
# The buddy memory manager

The functions of `Kernel/Memorymanager/BuddyMemoryManager.c`. The headers
(`block_t`) live in the managed memory itself: `Heap.mem` gives the header image
at every address, and the free lists are linked through the `next` fields of the
images. A function returns `none` where the C code has no defined result: a null
dereference, an index past `free_blocks`, or a loop that does not end.
-/

namespace SoKernel.Buddy

/-! ## Constants (`defs.h`, `BuddyMemoryManager.c`) -/

/-- `MIN_ORDER`: the least block has 64 bytes. -/
def minOrder : Nat := 6

/-- `MAX_ORDER`: the length of `free_blocks`. -/
def maxOrder : Nat := 30

/-- `HEAP_START_ADDRESS` -/
def heapStartAddress : Nat := 0x600000

/-- `HEAP_END_ADDRESS` -/
def heapEndAddress : Nat := 512 * 1024 * 1024 - 1

/-- `HEAP_SIZE` -/
def heapSize : Nat := heapEndAddress - heapStartAddress + 1

/-- `sizeof(block_t)`: two bytes, padding, and a pointer at offset 8. -/
def sizeofBlock : Nat := 16

/-! ## State -/

inductive Status
  | FREE
  | OCCUPIED
deriving DecidableEq, Repr

/-- `block_t`; a pointer is an address, `none` is `NULL`. -/
structure Block where
  order : Nat
  status : Status
  next : Option Nat
deriving DecidableEq, Repr

/-- `buddy_manager` -/
structure BuddyManager where
  maxOrder : Nat
  freeBlocks : Nat → Option Nat
  totalMem : Nat
  usedMem : Nat

/-- `buddy_man` and the header image at every address. -/
structure Heap where
  man : BuddyManager
  mem : Nat → Block

/-- The difference of two `uint64_t`. -/
def sub64 (a b : Nat) : Nat := (a + 2 ^ 64 - b) % 2 ^ 64

namespace Heap

def setBlock (h : Heap) (a : Nat) (b : Block) : Heap :=
  { h with mem := Function.update h.mem a b }

def setHead (h : Heap) (order : Nat) (p : Option Nat) : Heap :=
  { h with man := { h.man with freeBlocks := Function.update h.man.freeBlocks order p } }

def setStatus (h : Heap) (a : Nat) (st : Status) : Heap :=
  h.setBlock a { h.mem a with status := st }

def setUsed (h : Heap) (n : Nat) : Heap :=
  { h with man := { h.man with usedMem := n } }

end Heap

/-! ## Helper functions of the source -/

/-- `create_block` -/
def createBlock (h : Heap) (address order : Nat) : Option Heap :=
  if order < maxOrder then
    some ((h.setBlock address ⟨order, .FREE, h.man.freeBlocks order⟩).setHead order (some address))
  else none

/-- The loop of `remove_block`: follow `next` to the block before `block`, or to
the last one. -/
def walk (mem : Nat → Block) (block : Nat) : Nat → Nat → Option Nat
  | 0, _ => none
  | fuel + 1, curr =>
    match (mem curr).next with
    | none => some curr
    | some n => if n = block then some curr else walk mem block fuel n

/-- `remove_block` -/
def removeBlock (h : Heap) : Option Nat → Option Heap
  | none => some h
  | some block =>
    let order := (h.mem block).order
    if order < maxOrder then
      match h.man.freeBlocks order with
      | none => some h
      | some head =>
        if head = block then
          let h := h.setStatus head .OCCUPIED
          some (h.setHead order (h.mem head).next)
        else do
          -- a list without a cycle has at most one entry for each address
          let curr ← walk h.mem block (2 ^ h.man.maxOrder) head
          match (h.mem curr).next with
          | none => some h
          | some n =>
            let h := h.setBlock curr { h.mem curr with next := (h.mem n).next }
            some (h.setStatus block .OCCUPIED)
    else none

/-- `split_block` -/
def splitBlock (h : Heap) (order : Nat) : Option Heap := do
  let block ← h.man.freeBlocks order
  let h ← removeBlock h (some block)
  let buddyBlock := block + 1 <<< (order - 1)
  let h ← createBlock h buddyBlock (order - 1)
  createBlock h block (order - 1)

/-- The doubling loops of `createMemoryManager` and `allocMemory`: the first
order from `order` on whose size is not below `bound`. -/
def orderLoop (bound : Nat) : Nat → Nat → Nat → Option (Nat × Nat)
  | 0, _, _ => none
  | fuel + 1, order, size =>
    if size < bound then orderLoop bound fuel (order + 1) (size * 2 % 2 ^ 64)
    else some (order, size)

/-- The loop of `allocMemory` that splits from `order + n` down to `order`. -/
def splitLoop (order : Nat) : Nat → Heap → Option Heap
  | 0, h => some h
  | n + 1, h => do
    let h ← splitBlock h (order + n + 1)
    splitLoop order n h

/-- The loop of `freeMemory` that joins `block` with its free buddies. -/
def mergeLoop : Nat → Heap → Nat → Option (Heap × Nat)
  | 0, _, _ => none
  | fuel + 1, h, block =>
    let order := (h.mem block).order
    if order < h.man.maxOrder then
      let blockPos := block - heapStartAddress
      let buddyPos := blockPos ^^^ 1 <<< order
      let buddyBlock := heapStartAddress + buddyPos
      if (h.mem buddyBlock).status ≠ .FREE ∨ (h.mem buddyBlock).order ≠ order then
        some (h, block)
      else do
        let leftBlock := if blockPos < buddyPos then block else buddyBlock
        let h ← removeBlock h (some block)
        let h ← removeBlock h (some buddyBlock)
        let h := h.setBlock leftBlock { h.mem leftBlock with order := (h.mem leftBlock).order + 1 }
        mergeLoop fuel h leftBlock
    else some (h, block)

/-! ## Interface -/

/-- `createMemoryManager` over memory with arbitrary contents. -/
def createMemoryManager (mem : Nat → Block) (start size : Nat) : Option Heap := do
  let (order, currentSize) ← orderLoop size 65 0 1
  let man : BuddyManager :=
    { maxOrder := order, freeBlocks := fun _ => none, totalMem := currentSize, usedMem := 0 }
  createBlock { man := man, mem := mem } start order

/-- `allocMemory`: the heap after the call and the address returned. -/
def allocMemory (h : Heap) (memoryToAllocate : Nat) : Option (Heap × Option Nat) :=
  if memoryToAllocate ≤ 0 ∨ memoryToAllocate > heapSize then
    some (h, none)
  else do
    let (o, _) ← orderLoop (memoryToAllocate + sizeofBlock) 65 1 2
    let order := if minOrder > o then minOrder else o
    let orderApprox :=
      if h.man.freeBlocks order = none then
        ((List.range' (order + 1) (h.man.maxOrder - order)).find?
          fun i => h.man.freeBlocks i ≠ none).getD 0
      else order
    if orderApprox = 0 then
      some (h, none)
    else
      let h ← splitLoop order (orderApprox - order) h
      let block ← h.man.freeBlocks order
      let h ← removeBlock h (some block)
      let h := h.setStatus block .OCCUPIED
      some (h.setUsed ((h.man.usedMem + 1 <<< order) % 2 ^ 64), some (block + sizeofBlock))

/-- `freeMemory` -/
def freeMemory (h : Heap) : Option Nat → Option Heap
  | none => some h
  | some address =>
    let block := address - sizeofBlock
    if (h.mem block).status = .FREE then some h
    else do
      let h := h.setUsed (sub64 h.man.usedMem (1 <<< (h.mem block).order))
      let h := h.setStatus block .FREE
      let (h, block) ← mergeLoop (h.man.maxOrder + 1) h block
      createBlock h block (h.mem block).order

/-- `memInfo` -/
structure MemInfo where
  total : Nat
  used : Nat
  free : Nat
deriving DecidableEq, Repr

/-- `getMemoryInfo` -/
def getMemoryInfo (h : Heap) : MemInfo :=
  { total := h.man.totalMem, used := h.man.usedMem, free := sub64 h.man.totalMem h.man.usedMem }

/-! ## The allocator and its users -/

/-- A live allocation: the address returned and the bytes asked for. -/
structure Alloc where
  ptr : Nat
  bytes : Nat
deriving DecidableEq, Repr

/-- The heap and the live allocations. -/
structure St where
  heap : Heap
  live : List Alloc

/-- What users do: ask for memory, free a live pointer, or write inside a live
payload, which overwrites any header image that meets it. -/
inductive Event
  | alloc (bytes : Nat)
  | free (a : Alloc)
  | write (a : Alloc) (address : Nat) (image : Block)

/-- A user frees and writes only what it owns. -/
def Event.Owned (s : St) : Event → Prop
  | .alloc _ => True
  | .free a => a ∈ s.live
  | .write a address _ =>
    a ∈ s.live ∧ a.ptr < address + sizeofBlock ∧ address < a.ptr + a.bytes

instance (s : St) : (e : Event) → Decidable (e.Owned s)
  | .alloc _ => inferInstanceAs (Decidable True)
  | .free a => inferInstanceAs (Decidable (a ∈ s.live))
  | .write a address _ => inferInstanceAs (Decidable
      (a ∈ s.live ∧ a.ptr < address + sizeofBlock ∧ address < a.ptr + a.bytes))

def step (s : St) : Event → Option St
  | .alloc bytes => do
    let (h, r) ← allocMemory s.heap bytes
    match r with
    | none => some { s with heap := h }
    | some p => some { heap := h, live := ⟨p, bytes⟩ :: s.live }
  | .free a => do
    let h ← freeMemory s.heap (some a.ptr)
    some { heap := h, live := s.live.erase a }
  | .write _ address image => some { s with heap := s.heap.setBlock address image }

end SoKernel.Buddy
