import Mathlib.Data.UInt
import SoKernel.Kernel.Scheduler
import SoKernel.Lib.Memory

/-!
# The stack of a new process

`stackFrame.c`, what it uses of `lib.c`, and `stackFrame` of `process.asm`. Addresses and
the words of the stack are `uint64_t`. A write is an address and the bytes that go there;
a function returns its writes, the first one first.
-/

namespace SoKernel

/-- `PROCESS_STACK_SIZE` -/
def processStackSize : Nat := 4096

/-- `HEAP_START_ADDRESS` -/
def heapStart : Nat := 0x600000

/-- No memory manager hands out an address from here on: the buddy manager rounds
`HEAP_SIZE` up to a power of two. -/
def heapEnd : Nat := heapStart + 0x20000000

/-- A string, without the NUL it ends with. -/
structure CString where
  chars : List Byte
  noNul : 0 ∉ chars
deriving DecidableEq, Repr

/-- The strings the pointers in `argv` lead to. The pointers and the NULL behind them lie
in memory, and so does the new stack. The machine has 512 MiB: an `int` counts each string. -/
structure Argv where
  strings : List CString
  inMemory : 8 * (strings.length + 1) + processStackSize ≤ 2 ^ 64
  counted : ∀ s ∈ strings, s.chars.length + 1 < 2 ^ 31

/-- `argCounter` -/
def argCounter (argv : Argv) : UInt64 := UInt64.ofNat argv.strings.length

/-- A block of the heap, as `allocMemory(PROCESS_STACK_SIZE)` returns it. -/
structure StackBlock where
  address : UInt64
  inHeap : heapStart ≤ address.toNat ∧ address.toNat + processStackSize ≤ heapEnd

/-! ## `lib.c` -/

/-- `strlen`. The definition returns a `uint8_t`, and `lib.h` declares a `uint64_t`: the whole
difference of the pointers is left in `rax`, and that is what the callers read. -/
def strlen (s : CString) : UInt64 := UInt64.ofNat s.chars.length

/-- `strncpy(destination, source, length)`: what it leaves at `destination`. -/
def strncpy (source : CString) (length : Nat) : List Byte :=
  source.chars.take length ++ List.replicate (length - source.chars.length) 0

/-! ## `copyToStack` -/

abbrev Write := Nat × List Byte

/-- An assignment to a `uint64_t` or a pointer. -/
def store64 (address value : UInt64) : Write := (address.toNat, leBytes 8 value.toNat)

/-- `len` of `copyToStack`, an `int`, as it is extended where it is used. -/
def copyLen (s : CString) : UInt64 := (strlen s + 1).toUInt32.toInt32.toInt64.toUInt64

/-- The loop of `copyToStack`, for the strings up to `argv[i]`, the last one first: the
`paramsBase` it ends with, and its writes. -/
def copyStrings (newArgv : UInt64) : List CString → UInt64 → UInt64 × List Write
  | [], paramsBase => (paramsBase, [])
  | arg :: before, paramsBase =>
    let paramsBase := paramsBase - copyLen arg
    let (final, writes) := copyStrings newArgv before paramsBase
    (final, (paramsBase.toNat, strncpy arg (copyLen arg).toNat) ::
      store64 (newArgv + 8 * UInt64.ofNat before.length) paramsBase :: writes)

/-- `copyToStack`: the new `paramsBase`, `newArgv`, and the writes. `argv` is not NULL
when `argc` is positive. -/
def copyToStack (paramsBase argc : UInt64) (argv : Argv) : UInt64 × UInt64 × List Write :=
  if argc > 0 then
    let newArgv := paramsBase - 8 * (argc + 1)
    -- `i` is an `int`, so the conversion of `argc - 1` decides where the loop starts
    let strings := argv.strings.take (toInt32 (argc - 1).toNat + 1).toNat
    let (final, writes) := copyStrings newArgv strings.reverse newArgv
    (final, newArgv, writes ++ [store64 (newArgv + 8 * argc) 0])
  else (paramsBase, 0, [])

/-! ## `stackFrame` -/

/-- Some `push`: the `rsp` they end with, and the writes. -/
def pushWords (rsp : UInt64) : List UInt64 → UInt64 × List Write
  | [] => (rsp, [])
  | word :: words =>
    let rsp := rsp - 8
    let (final, writes) := pushWords rsp words
    (final, store64 rsp word :: writes)

/-- The words `stackFrame` pushes: `ss`, `rsp`, `rflags`, `cs`, `rip`, and the registers
from `r15` to `rax`. -/
def frameWords (wrapper base entryPoint argc arg : UInt64) : List UInt64 :=
  [0, base, 0x202, 0x8, wrapper,
    0, 0, 0, 0, 0, 0, 0, entryPoint, 0, argc, arg, 0, 0, 0, 0]

/-- `stackFrame`: the stack pointer it returns, and the writes. -/
def stackFrame (wrapper base entryPoint argc arg : UInt64) : UInt64 × List Write :=
  pushWords (base &&& -16) (frameWords wrapper base entryPoint argc arg)

/-- What `setUpStackFrame` leaves: the stack pointer, `*base`, and the writes. -/
structure StackFrame where
  rsp : UInt64
  base : UInt64
  writes : List Write

/-- The address `allocMemory` returns. -/
def returned (stack : Option StackBlock) : UInt64 := (stack.map StackBlock.address).getD 0

/-- `setUpStackFrame`; `stack` is what `allocMemory` returns. -/
def setUpStackFrame (wrapper : UInt64) (stack : Option StackBlock) (entryPoint argc : UInt64)
    (argv : Argv) : StackFrame :=
  let base := returned stack
  if base = 0 then { rsp := 0, base := 0, writes := [] }
  else
    let base := base + UInt64.ofNat processStackSize
    let (paramsBase, newArgv, copied) := copyToStack base argc argv
    let (rspFinal, words) := stackFrame wrapper paramsBase entryPoint argc newArgv
    { rsp := rspFinal, base := base, writes := copied ++ words }

/-! ## `createProcess` -/

/-- `createProcess`, and what it writes to the new stack: `pcb` and `stack` are what
`allocMemory` returns first. There is no process when `setUpStackFrame` returns 0. -/
def createProcessAt (wrapper : UInt64) (k : Kernel) (args : ProcessArgs) (entryPoint : UInt64)
    (argv : Argv) (pcb : UInt64) (stack : Option StackBlock) :
    Option (Kernel × Flow) × List Write :=
  let frame := setUpStackFrame wrapper stack entryPoint (argCounter argv) argv
  let outcomes : Nat → Bool := fun n =>
    if n = 0 then pcb != 0 else if n = 1 then frame.rsp != 0 else k.allocs n
  (createProcess { k with allocs := outcomes } args,
    if args.valid && pcb != 0 then frame.writes else [])

end SoKernel
