import SoKernel.Lib.HeapTrace

/-!
# The shell

One iteration of the loop of `shell.c`, with the command handlers of `shellfunctions.c`, as
a trace: what it asks of the heap, the entries of `inst_list` it reads and the calls it makes
through the two tables of handlers. What the shell does not decide itself is its environment:
whether an allocation succeeds, what `syscall_open_pipe` and `syscall_create_process` return,
and what is in the memory it reads without having written it.
-/

namespace SoKernel.Shell

/-! ## The tables -/

/-- `CANT_INSTRUCTIONS` -/
def cantInstructions : Nat := 21

/-- `BUFFER_SPACE` -/
def bufferSpace : Nat := 1000

/-- `KILL`, the first of the built-in commands. -/
def kill : Int := 16

/-- `EXIT`, for which `inst_list` has no word. -/
def exit : Int := 19

/-- `IS_BUILT_IN` -/
def isBuiltIn (i : Int) : Bool := kill ≤ i && i < exit

/-- The functions in `instruction_handlers`. -/
inductive Handler
  | help | echo | clear | testMm | testProcesses | testPrio | testSync | ps | memInfo | loop
  | wc | filter | cat | mvar | testMallocFree | nice
deriving DecidableEq, Repr

/-- The functions in `built_in_handlers`. -/
inductive BuiltIn
  | kill | block | unblock
deriving DecidableEq, Repr

/-- The word a handler is there for. -/
def Handler.word : Handler → List Char
  | .help => "help".toList
  | .echo => "echo".toList
  | .clear => "clear".toList
  | .testMm => "test_mm".toList
  | .testProcesses => "test_processes".toList
  | .testPrio => "test_prio".toList
  | .testSync => "test_sync".toList
  | .ps => "ps".toList
  | .memInfo => "memInfo".toList
  | .loop => "loop".toList
  | .wc => "wc".toList
  | .filter => "filter".toList
  | .cat => "cat".toList
  | .mvar => "mvar".toList
  | .testMallocFree => "test_malloc_free".toList
  | .nice => "nice".toList

def BuiltIn.word : BuiltIn → List Char
  | .kill => "kill".toList
  | .block => "block".toList
  | .unblock => "unblock".toList

/-- `inst_list` -/
def instList : List (List Char) :=
  ["help", "echo", "clear", "test_mm", "test_processes", "test_prio", "test_sync", "ps",
    "memInfo", "loop", "wc", "filter", "cat", "mvar", "test_malloc_free", "nice", "kill",
    "block", "unblock"].map String.toList

/-- `instruction_handlers`: `CANT_INSTRUCTIONS - 3` entries, the last two left at NULL. -/
def instructionHandlers : List (Option Handler) :=
  [some .help, some .echo, some .clear, some .testMm, some .testProcesses, some .testPrio,
    some .testSync, some .ps, some .memInfo, some .loop, some .wc, some .filter, some .cat,
    some .mvar, some .testMallocFree, some .nice, none, none]

/-- `built_in_handlers` -/
def builtInHandlers : List BuiltIn := [.kill, .block, .unblock]

/-! ## Traces -/

/-- The two commands of a `pipeCmd`. -/
inductive Side
  | left | right
deriving DecidableEq, Repr

/-- The blocks an iteration allocates, and NULL, which is none. -/
inductive Buf
  | null
  | cmd
  | line
  | instruction (s : Side)
  | args (s : Side)
  | argv (s : Side)
deriving DecidableEq, Repr

inductive Act
  | heap (a : HeapAct Buf)
  /-- `inst_list[i]` -/
  | readList (i : Nat)
  /-- `instruction_handlers[i]` is called on the command of a side. -/
  | callHandler (s : Side) (i : Int)
  /-- `built_in_handlers[i]` is called. -/
  | callBuiltIn (i : Int)
deriving DecidableEq, Repr

/-- A value with the trace of its computation. -/
structure Traced (α : Type) where
  trace : List Act
  val : α

namespace Traced

variable {α γ : Type}

instance : Monad Traced where
  pure a := ⟨[], a⟩
  bind x f := ⟨x.trace ++ (f x.val).trace, (f x.val).val⟩

@[simp] theorem trace_pure (a : α) : (pure a : Traced α).trace = [] := rfl

@[simp] theorem val_pure (a : α) : (pure a : Traced α).val = a := rfl

@[simp] theorem trace_bind (x : Traced α) (f : α → Traced γ) :
    (x >>= f).trace = x.trace ++ (f x.val).trace := rfl

@[simp] theorem val_bind (x : Traced α) (f : α → Traced γ) :
    (x >>= f).val = (f x.val).val := rfl

end Traced

/-- An address inside a block. -/
structure Ptr where
  buf : Buf
  off : Int
deriving DecidableEq, Repr

/-- What an iteration finds outside of the shell. -/
structure Env where
  /-- The allocations that succeed. -/
  ok : Buf → Bool
  /-- The result of `syscall_open_pipe`. -/
  pipe : Int
  /-- The result of `syscall_create_process` for the command of a side. -/
  pid : Side → Int
  /-- The string that `inst_list[19]`, behind the end of the list, points to. -/
  past : List Char
  /-- What follows an instruction buffer that is left without its NUL. -/
  overrun : List Char
  /-- What is in memory from the line buffer on once the right command has been read: `free`
  has then been given an address inside the buffer, and the memory manager decides. -/
  afterRight : List Char → List Char

/-- A line as `readLine` leaves it. -/
structure Line where
  text : List Char
  fits : text.length < bufferSpace
  typed : ∀ c ∈ text, c ≠ '\x00' ∧ c ≠ '\n'

theorem typed_of_all {text : List Char} (h : text.all (fun c => c ≠ '\x00' && c ≠ '\n') = true) :
    ∀ c ∈ text, c ≠ '\x00' ∧ c ≠ '\n' := by
  simpa using h

variable (env : Env)

/-! ## stdlib.c -/

/-- `malloc`: an address, or NULL. -/
def malloc (b : Buf) (size : Nat) : Traced (Option Ptr) :=
  if env.ok b then ⟨[.heap (.malloc b size)], some ⟨b, 0⟩⟩ else ⟨[], none⟩

/-- `free`, which passes NULL over. -/
def free : Option Ptr → Traced Unit
  | some p => ⟨[.heap (.free p.buf p.off)], ()⟩
  | none => ⟨[], ()⟩

/-- So many bytes are written from an address on. -/
def write (p : Option Ptr) (off : Int) (count : Nat) : Traced Unit :=
  let p := p.getD ⟨.null, 0⟩
  ⟨[.heap (.write p.buf (p.off + off) count)], ()⟩

/-- `strstr(line, "|")` -/
def pipePos (text : List Char) : Option Nat := text.findIdx? (· == '|')

/-! ## programs.c -/

/-- `parse_string`: at most `maxArgs` words, each cut to fit `maxSize` bytes. -/
def parseString (arg : List Char) (maxArgs maxSize : Nat) : List (List Char) :=
  (((arg.splitOn ' ').filter (· ≠ [])).take maxArgs).map (·.take (maxSize - 1))

/-- `analize_arg`: 1 for a background process, 0 for a foreground one, -1 when the arguments
are not as many as expected. -/
def analizeArg (arg : Option (List Char)) (expected : Nat) : Int :=
  match arg with
  | none | some [] => if expected = 0 then 0 else -1
  | some text =>
    let args := parseString (text.take 1023) (expected + 2) 32
    let background := args.getLast? = some ['&']
    let numArgs := if background then args.length - 1 else args.length
    if numArgs ≠ expected then -1 else if background then 1 else 0

/-! ## shellfunctions.c -/

/-- `command`, with the text in its arguments. -/
structure Command where
  instruction : Int
  arguments : Option Ptr
  text : List Char
deriving DecidableEq, Repr

/-- `(command){-1, 0}` -/
def Command.empty : Command := ⟨-1, none, []⟩

/-- `create_simple_process` -/
def createSimpleProcess (s : Side) : Int := if env.pid s < 0 then -1 else env.pid s

/-- `create_process_with_args` -/
def createProcessWithArgs (s : Side) (argc : Nat) : Traced Int := do
  let argv ← malloc env (.argv s) ((argc + 1) * 8)
  match argv with
  | none => pure (-1)
  | some _ => do
    write argv 0 ((argc + 1) * 8)
    free argv
    pure (createSimpleProcess env s)

/-- The creation in `handle_process_with_args`, by the number of arguments expected. -/
def createProcess (s : Side) (expected : Nat) : Traced Int :=
  if expected = 0 then pure (createSimpleProcess env s) else createProcessWithArgs env s expected

/-- `handle_process_with_args` -/
def handleProcessWithArgs (s : Side) (c : Command) (expected : Nat) : Traced Int :=
  let bg := analizeArg (c.arguments.map fun _ => c.text) expected
  if bg = -1 then pure (-1)
  else do
    let pid ← createProcess env s expected
    pure (if pid < 0 then -1 else if bg = 0 then pid else 0)

/-- `handle_help`, `handle_clear` and `handle_test_malloc_free`: the arguments are freed. -/
def handleWithoutArgs (s : Side) (c : Command) : Traced Int := do
  free c.arguments
  pure (createSimpleProcess env s)

/-- The functions `handle_help` to `handle_nice`. -/
def Handler.run (s : Side) (c : Command) : Handler → Traced Int
  | .help => handleWithoutArgs env s c
  | .echo => pure (env.pid s)
  | .clear => handleWithoutArgs env s c
  | .testMm => handleProcessWithArgs env s c 1
  | .testProcesses => handleProcessWithArgs env s c 1
  | .testPrio => handleProcessWithArgs env s c 1
  | .testSync => handleProcessWithArgs env s c 2
  | .ps => handleProcessWithArgs env s c 0
  | .memInfo => pure (env.pid s)
  | .loop => handleProcessWithArgs env s c 1
  | .wc => handleProcessWithArgs env s c 0
  | .filter => handleProcessWithArgs env s c 0
  | .cat => handleProcessWithArgs env s c 0
  | .mvar => handleProcessWithArgs env s c 2
  | .testMallocFree => handleWithoutArgs env s c
  | .nice => handleProcessWithArgs env s c 2

/-! ## shell.c -/

/-- The entry of `instruction_handlers` at an index, if there is a function. -/
def handlerAt (i : Int) : Option Handler :=
  if 0 ≤ i then (instructionHandlers[i.toNat]?).join else none

/-- A call through `instruction_handlers`. Outside of its functions the call enters code that
nothing is known of. -/
def callHandler (s : Side) (c : Command) : Traced Int := do
  Traced.mk [.callHandler s c.instruction] ()
  match handlerAt c.instruction with
  | some h => h.run env s c
  | none => pure (env.pid s)

/-- `free_pipe_cmd` -/
def freePipeCmd (cmd1 cmd2 : Command) : Traced Unit := do
  free cmd1.arguments
  free cmd2.arguments
  free (some ⟨.cmd, 0⟩)

/-- `handle_single_command` -/
def handleSingleCommand (cmd1 : Command) : Traced Unit := do
  let _ ← callHandler env .left cmd1
  free cmd1.arguments
  free (some ⟨.cmd, 0⟩)

/-- `handle_builtin_command` -/
def handleBuiltinCommand (cmd1 cmd2 : Command) : Traced Unit :=
  if cmd1.instruction = -1 then freePipeCmd cmd1 cmd2
  else if isBuiltIn cmd1.instruction then do
    Traced.mk [.callBuiltIn (cmd1.instruction - kill)] ()
    free cmd1.arguments
    free (some ⟨.cmd, 0⟩)
  else pure ()

/-- The entry of `inst_list` that `strcmp` is given. -/
def instEntry (i : Nat) : List Char := instList.getD i env.past

/-- The comparisons of `verifyInstruction` from an index on. -/
def verifyFrom (word : List Char) : List Nat → Traced Int
  | [] => pure (-1)
  | i :: is => do
    Traced.mk [.readList i] ()
    if instEntry env i = word then pure i else verifyFrom word is

/-- `verifyInstruction` -/
def verifyInstruction (word : List Char) : Traced Int :=
  verifyFrom env word (List.range (cantInstructions - 1))

/-- The word at the start of a text: to a space or a NUL, at most `BUFFER_SPACE` characters. -/
def readWord (mem : List Char) : List Char :=
  (mem.take bufferSpace).takeWhile fun c => c ≠ ' ' && c ≠ '\x00'

/-- The string in the instruction buffer: a word that fills it goes on behind it. -/
def instruction (mem : List Char) : List Char :=
  readWord mem ++ if (readWord mem).length < bufferSpace then [] else env.overrun

/-- The arguments: what comes after the word and the character that ends it, also when that
is the NUL of the line. -/
def readArgs (mem : List Char) : List Char :=
  (mem.drop (min ((readWord mem).length + 1) bufferSpace)).takeWhile
    fun c => c ≠ '\x00' && c ≠ '\n'

/-- `getInstruction` -/
def getInstruction (s : Side) (buffer : Ptr) (mem : List Char) (arguments : Option Ptr) :
    Traced Int := do
  let instr ← malloc env (.instruction s) bufferSpace
  match instr with
  | none => pure (-1)
  | some _ => do
    write instr 0 (min ((readWord mem).length + 1) bufferSpace)
    write arguments 0 ((readArgs mem).length + 1)
    free (some buffer)
    let iNum ← verifyInstruction env (instruction env mem)
    free instr
    pure iNum

/-- What `bufferControl` does for a command: its buffer, its word and its arguments. -/
def getCommand (s : Side) (buffer : Ptr) (mem : List Char) : Traced Command := do
  let arg ← malloc env (.args s) bufferSpace
  let instr ← getInstruction env s buffer mem arg
  pure ⟨instr, arg, readArgs mem⟩

/-- The memory from the line buffer on, `behind` being what follows the NUL of the line. -/
def Line.memory (line : Line) (behind : List Char) : List Char := line.text ++ '\x00' :: behind

/-- The three NULs around the `|`. -/
def cutAt (mem : List Char) (k : Nat) : List Char :=
  ((mem.set (k - 1) '\x00').set k '\x00').set (k + 1) '\x00'

/-- The right command, which a line without a `|` leaves empty. -/
def getRight (line : Line) (behind : List Char) : Traced Command :=
  match pipePos line.text with
  | none => pure .empty
  | some k => do
    write (some ⟨.line, 0⟩) ((k : Int) - 1) 1
    write (some ⟨.line, 0⟩) k 1
    write (some ⟨.line, 0⟩) ((k : Int) + 1) 1
    getCommand env .right ⟨.line, (k : Int) + 2⟩ ((cutAt (line.memory behind) k).drop (k + 2))

/-- The text that the left command is read from. -/
def leftMemory (line : Line) (behind : List Char) : List Char :=
  match pipePos line.text with
  | none => line.memory behind
  | some k => env.afterRight (cutAt (line.memory behind) k)

/-- The last part of `bufferControl`: the number of instructions, or -1. -/
def countInstructions (cmd1 cmd2 : Command) : Traced Int :=
  if isBuiltIn cmd1.instruction && isBuiltIn cmd2.instruction then do
    free cmd1.arguments
    free cmd2.arguments
    free (some ⟨.cmd, 0⟩)
    pure (-1)
  else if isBuiltIn cmd1.instruction then pure 0
  else pure ((if 0 ≤ cmd2.instruction then 1 else 0) + if 0 ≤ cmd1.instruction then 1 else 0)

/-- `bufferControl`: its result and the two commands. -/
def bufferControl (line : Line) (behind : List Char) : Traced (Int × Command × Command) := do
  let buffer ← malloc env .line bufferSpace
  match buffer with
  | none => pure (-1, .empty, .empty)
  | some p => do
    write buffer 0 bufferSpace
    let cmd2 ← getRight env line behind
    let cmd1 ← getCommand env .left p (leftMemory env line behind)
    let instructions ← countInstructions cmd1 cmd2
    pure (instructions, cmd1, cmd2)

/-- `handle_piped_commands` -/
def handlePipedCommands (cmd1 cmd2 : Command) : Traced Unit :=
  if cmd1.instruction = -1 || cmd2.instruction = -1 then freePipeCmd cmd1 cmd2
  else if isBuiltIn cmd1.instruction || isBuiltIn cmd2.instruction then freePipeCmd cmd1 cmd2
  else if env.pipe < 0 then freePipeCmd cmd1 cmd2
  else do
    let pid1 ← callHandler env .left cmd1
    let pid2 ← callHandler env .right cmd2
    if pid1 < 0 || pid2 < 0 then freePipeCmd cmd1 cmd2
    else do
      free cmd1.arguments
      free cmd2.arguments
      free (some ⟨.cmd, 0⟩)

/-- The `switch` of `shell`. -/
def dispatch (instructions : Int) (cmd1 cmd2 : Command) : Traced Unit :=
  if instructions = 0 then handleBuiltinCommand cmd1 cmd2
  else if instructions = 1 then handleSingleCommand env cmd1
  else if instructions = 2 then handlePipedCommands env cmd1 cmd2
  else pure ()

/-- One iteration of the loop of `shell`, in which `readLine` reads the line. A `pipeCmd` is
two `command`s of 24 bytes. -/
def iteration (line : Line) (behind : List Char) : Traced Unit := do
  let pipeCmd ← malloc env .cmd 48
  match pipeCmd with
  | none => pure ()
  | some _ => do
    write pipeCmd 0 48
    let (instructions, cmd1, cmd2) ← bufferControl env line behind
    dispatch env instructions cmd1 cmd2

end SoKernel.Shell
