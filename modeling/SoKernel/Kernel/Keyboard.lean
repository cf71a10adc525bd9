import SoKernel.Kernel.Machine

/-!
# The keyboard

`keyboardDriver.c`: the interrupt of the keyboard writes what has been typed to pipe 0, with
the `pipeWrite` of the processes, on the stack it has interrupted. Beside the machine stand the
static variables of the driver. What the handler prints is left out.
-/

namespace SoKernel.Keyboard

/-! ## Scan codes -/

/-- `ScanCode` -/
structure ScanCode where
  ascii : Byte
  shiftAscii : Byte
deriving DecidableEq, Repr

def chars (a b : Char) : ScanCode := ⟨a.toNat.toUInt8, b.toNat.toUInt8⟩

/-- `press_keys` -/
def pressKeys : List ScanCode :=
  [⟨0, 0⟩, ⟨0x1B, 0x1B⟩, chars '1' '!', chars '2' '"', chars '3' '#', chars '4' '$', chars '5' '%',
    chars '6' '&', chars '7' '(', chars '8' ')', chars '9' ')', chars '0' '=', chars '-' '_',
    chars '=' '+', ⟨0x08, 0x08⟩, chars '\t' '\t', chars 'q' 'Q', chars 'w' 'W', chars 'e' 'E',
    chars 'r' 'R', chars 't' 'T', chars 'y' 'Y', chars 'u' 'U', chars 'i' 'I', chars 'o' 'O',
    chars 'p' 'P', chars '[' '\x7b', chars ']' '\x7d', chars '\n' '\n', ⟨0, 0⟩, chars 'a' 'A',
    chars 's' 'S', chars 'd' 'D', chars 'f' 'F', chars 'g' 'G', chars 'h' 'H', chars 'j' 'J',
    chars 'k' 'K', chars 'l' 'L', chars ';' ':', chars '\'' '"', chars '\x60' '~', ⟨0, 0⟩,
    chars '\\' '|', chars 'z' 'Z', chars 'x' 'X', chars 'c' 'C', chars 'v' 'V', chars 'b' 'B',
    chars 'n' 'N', chars 'm' 'M', chars ',' ';', chars '.' ':', chars '-' '_', ⟨0, 0⟩,
    chars '*' '*', ⟨0, 0⟩, chars ' ' ' ', ⟨0, 0⟩, ⟨0, 0⟩, ⟨0, 0⟩, ⟨0, 0⟩, ⟨0, 0⟩, ⟨0, 0⟩, ⟨0, 0⟩,
    ⟨0, 0⟩, ⟨0, 0⟩, ⟨0, 0⟩, ⟨0, 0⟩, ⟨0, 0⟩, chars '7' '7', chars '8' '8', chars '9' '9',
    chars '-' '_', chars '4' '4', chars '5' '5', chars '6' '6', chars '+' '+', chars '1' '1',
    chars '2' '2', chars '3' '3', chars '0' '0', chars '.' '>', ⟨0, 0⟩, ⟨0, 0⟩, ⟨0, 0⟩, ⟨0, 0⟩,
    ⟨0, 0⟩]

/-- `F12_PRESS`: the scan codes below it have an entry in `press_keys`. -/
def f12Press : Nat := 0x58

/-- `specialKeys` -/
def specialKeys : List Nat := [0x2A, 0xAA, 0xB6, 0x36, 0x3A, 0x3B, 0x1D, 0x9D, 0x01]

/-- The static variables that outlive an interrupt. -/
structure Keys where
  shift : Bool
  caps : Bool
  ctrlPressed : Bool
deriving DecidableEq, Repr

/-- `press_keys[key]` -/
def pressKey (key : Nat) : ScanCode := pressKeys.getD key ⟨0, 0⟩

/-- `isAlpha` -/
def isAlpha (key : Nat) : Bool :=
  'a'.toNat.toUInt8 ≤ (pressKey key).ascii && (pressKey key).ascii ≤ 'z'.toNat.toUInt8

/-- `handleSpecialKeys` -/
def handleSpecialKeys (keys : Keys) (key : Nat) : Keys :=
  if key = 0x2A ∨ key = 0x36 then { keys with shift := true }
  else if key = 0xAA ∨ key = 0xB6 then { keys with shift := false }
  else if key = 0x3A then { keys with caps := !keys.caps }
  else if key = 0x1D then { keys with ctrlPressed := true }
  else if key = 0x9D then { keys with ctrlPressed := false }
  else keys

/-- `checkSpecialKeys`: the variables and `specialKey`. -/
def checkSpecialKeys (keys : Keys) (key : Nat) : Keys × Bool :=
  if key ∈ specialKeys then (handleSpecialKeys keys key, true) else (keys, false)

/-- What `bufferWrite` finds a scan code to be. -/
inductive Stroke
  | nothing
  /-- Ctrl+C. -/
  | interrupt
  /-- A character for `addToBuffer`. -/
  | char (c : Byte)
deriving DecidableEq, Repr

/-- `EOF` as a `char`. -/
def eof : Byte := 0xFF

/-- The decisions of `bufferWrite` on a scan code. -/
def stroke (keys : Keys) (c : Nat) : Keys × Stroke :=
  let (keys, specialKey) := checkSpecialKeys keys c
  if !specialKey && c < f12Press then
    if keys.ctrlPressed && (pressKey c).ascii = 'c'.toNat.toUInt8 then (keys, .interrupt)
    else if keys.ctrlPressed && (pressKey c).ascii = 'd'.toNat.toUInt8 then (keys, .char eof)
    else
      let mayus := keys.caps ^^ keys.shift
      if (isAlpha c && mayus) || (!isAlpha c && keys.shift) then
        (keys, .char (pressKey c).shiftAscii)
      else (keys, .char (pressKey c).ascii)
  else (keys, .nothing)

/-! ## The handler -/

/-- `pipeWrite(0, &c, 1)` on the stack of `cpu`, up to its end or to the `semWait` that
suspends it, with the stage that comes after that. -/
def pipeWriteByte (k : Kernel) (cpu : Pid) (c : Byte) : Option (Kernel × Option (Int × Stage)) :=
  let k := ensurePipeManagerInit k
  match pipeIdCheck k 0 with
  | none => some (k, none)
  | some slot => do
    let semWriters := (k.pipes slot).semWriters
    let (k, flow) ← semWait k semWriters
    if flow = .tick then some (k, some (semWriters, .mutex))
    else
      let mutex := (k.pipes slot).mutex
      let (k, flow) ← semWait k mutex
      if flow = .tick then some (k, some (mutex, .critical))
      else
        let (k, _) := putByte k slot cpu c
        let (k, _) ← semPost k (k.pipes slot).mutex
        let (k, _) ← semPost k (k.pipes slot).semReaders
        some (k, none)

/-- `addToBuffer`: what is left of a suspended write is that of a `pipeWrite` of the process. -/
def addToBuffer (m : Machine) (off : Nat) (c : Byte) : Option Machine := do
  let (k, suspended) ← pipeWriteByte m.k m.cpu c
  match suspended with
  | none => some (m.withKernel k)
  | some (id, stage) =>
    ((m.withKernel k).setCont (.waited id (.pipe 0 (.write [c] 0 0) stage))).interrupt off

structure Desk where
  keys : Keys
  m : Machine

/-- `bufferWrite`, for the scan code that `kb_getKey` returns. -/
def bufferWrite (s : Desk) (off : Nat) (c : UInt8) : Option Desk :=
  let (keys, stroke) := stroke s.keys c.toNat
  match stroke with
  | .nothing => some { s with keys := keys }
  | .interrupt => (s.m.ctrlC off).map fun m => ⟨keys, m⟩
  | .char b => (addToBuffer s.m off b).map fun m => ⟨keys, m⟩

inductive Event
  | machine (e : SoKernel.Event)
  | key (off : Nat) (c : UInt8)
deriving DecidableEq, Repr

/-- Ctrl+C comes from the keyboard only, and its interrupt is taken in user code like the one
of the timer. -/
def step (s : Desk) : Event → Option Desk
  | .machine (.ctrlC _) => none
  | .machine e => (s.m.step e).map fun m => { s with m := m }
  | .key off c => if s.m.cont s.m.cpu = .user then bufferWrite s off c else none

/-- No key has been pressed yet. -/
def bootKeys : Keys := ⟨false, false, false⟩

/-- The states reached from boot, with keys pressed at any time. -/
def Reach (allocs : Nat → Bool) (s : Desk) : Prop :=
  Run step Run.anyEvent ⟨bootKeys, boot allocs⟩ s

end SoKernel.Keyboard
