import SoKernel.Userland.Shell

/-!
# What the shell reads and which entries it finds

Results:
1. `verifyInstruction_code`: the four outcomes of looking a word up, with the entries of the
   two tables of handlers that belong to it.
2. `readList_verifyInstruction`: the entries of `inst_list` that the lookup reads.
3. `readWord_memory`, `readArgs_memory`: the word and the arguments of a line without a `|`.
-/

namespace SoKernel.Shell

variable {env : Env}

/-! ## Parts of a trace -/

/-- The heap calls of a trace. -/
def heapActs (t : List Act) : List (HeapAct Buf) :=
  t.filterMap fun a => match a with
    | .heap x => some x
    | _ => none

/-- The reads of `inst_list` and the calls of handlers in a trace. -/
def moves (t : List Act) : List Act :=
  t.filter fun a => match a with
    | .heap _ => false
    | _ => true

@[simp] theorem heapActs_nil : heapActs [] = [] := rfl

@[simp] theorem heapActs_heap (a : HeapAct Buf) (t : List Act) :
    heapActs (.heap a :: t) = a :: heapActs t := rfl

@[simp] theorem heapActs_readList (i : Nat) (t : List Act) :
    heapActs (.readList i :: t) = heapActs t := rfl

@[simp] theorem heapActs_callHandler (s : Side) (i : Int) (t : List Act) :
    heapActs (.callHandler s i :: t) = heapActs t := rfl

@[simp] theorem heapActs_callBuiltIn (i : Int) (t : List Act) :
    heapActs (.callBuiltIn i :: t) = heapActs t := rfl

@[simp] theorem heapActs_append (t u : List Act) :
    heapActs (t ++ u) = heapActs t ++ heapActs u := List.filterMap_append

@[simp] theorem moves_nil : moves [] = [] := rfl

@[simp] theorem moves_heap (a : HeapAct Buf) (t : List Act) : moves (.heap a :: t) = moves t := rfl

@[simp] theorem moves_readList (i : Nat) (t : List Act) :
    moves (.readList i :: t) = .readList i :: moves t := rfl

@[simp] theorem moves_callHandler (s : Side) (i : Int) (t : List Act) :
    moves (.callHandler s i :: t) = .callHandler s i :: moves t := rfl

@[simp] theorem moves_callBuiltIn (i : Int) (t : List Act) :
    moves (.callBuiltIn i :: t) = .callBuiltIn i :: moves t := rfl

@[simp] theorem moves_append (t u : List Act) : moves (t ++ u) = moves t ++ moves u :=
  List.filter_append ..

theorem mem_moves {a : Act} {t : List Act} :
    a ∈ moves t ↔ a ∈ t ∧ ∀ x, a ≠ .heap x := by
  rw [moves, List.mem_filter]
  cases a <;> simp

/-! ## The lookup of a word -/

theorem verifyFrom_val (word : List Char) (is : List Nat) :
    (verifyFrom env word is).val =
      ((is.find? fun i => instEntry env i = word).map (Nat.cast : Nat → Int)).getD (-1) := by
  induction is with
  | nil => rfl
  | cons i is ih =>
    simp only [verifyFrom, Traced.val_bind, List.find?_cons]
    by_cases hi : instEntry env i = word
    · simp [hi]
    · simp [hi, ih]

/-- The entries read are those with no entry of the word in front of them. -/
theorem readList_verifyFrom {word : List Char} {is : List Nat} (hsorted : is.Pairwise (· < ·))
    (i : Nat) : .readList i ∈ (verifyFrom env word is).trace ↔
      i ∈ is ∧ ∀ j ∈ is, j < i → instEntry env j ≠ word := by
  induction is with
  | nil => simp [verifyFrom]
  | cons k is ih =>
    obtain ⟨hk, hsorted⟩ := List.pairwise_cons.mp hsorted
    simp only [verifyFrom, Traced.trace_bind, List.singleton_append, List.mem_cons,
      Act.readList.injEq]
    by_cases hword : instEntry env k = word
    · constructor
      · rintro (rfl | hmem)
        · refine ⟨.inl rfl, ?_⟩
          rintro j (rfl | hj) hlt
          · exact absurd hlt (Nat.lt_irrefl _)
          · exact absurd hlt (Nat.lt_asymm (hk j hj))
        · simp [hword] at hmem
      · rintro ⟨rfl | hmem, hall⟩
        · exact .inl rfl
        · exact absurd hword (hall k (.inl rfl) (hk i hmem))
    · rw [if_neg hword, ih hsorted]
      constructor
      · rintro (rfl | ⟨hmem, hall⟩)
        · refine ⟨.inl rfl, ?_⟩
          rintro j (rfl | hj) hlt
          · exact absurd hlt (Nat.lt_irrefl _)
          · exact absurd hlt (Nat.lt_asymm (hk j hj))
        · refine ⟨.inr hmem, ?_⟩
          rintro j (rfl | hj) hlt
          · exact hword
          · exact hall j hj hlt
      · rintro ⟨rfl | hmem, hall⟩
        · exact .inl rfl
        · exact .inr ⟨hmem, fun j hj => hall j (.inr hj)⟩

theorem instEntry_of_lt {i : Nat} (hi : i < instList.length) :
    instEntry env i = instList[i] := by
  simp [instEntry, List.getD_eq_getElem?_getD, List.getElem?_eq_getElem hi]

theorem instEntry_past : instEntry env instList.length = env.past := by
  simp [instEntry, List.getD_eq_getElem?_getD]

theorem handlerAt_word : ∀ n : Fin 16, (handlerAt n.val).map Handler.word = instList[n.val]? := by
  decide

theorem builtInHandlers_word :
    ∀ n : Fin 3, (builtInHandlers[n.val]?).map BuiltIn.word = instList[16 + n.val]? := by
  decide

/-- The entries of the tables of handlers that belong to the words of `inst_list`. -/
theorem tables {n : Nat} {word : List Char} (hword : instList[n]? = some word) :
    (∃ h, n < 16 ∧ handlerAt n = some h ∧ h.word = word) ∨
      ∃ b, 16 ≤ n ∧ n < 19 ∧ builtInHandlers[n - 16]? = some b ∧ b.word = word := by
  obtain ⟨hn : n < 19, -⟩ := List.getElem?_eq_some_iff.mp hword
  rcases Nat.lt_or_ge n 16 with hlt | hge
  · have hh := (handlerAt_word ⟨n, hlt⟩).trans hword
    obtain ⟨h, hat, hw⟩ := Option.map_eq_some_iff.mp hh
    exact .inl ⟨h, hlt, hat, hw⟩
  · obtain ⟨k, rfl⟩ := Nat.exists_eq_add_of_le hge
    have hb := (builtInHandlers_word ⟨k, by omega⟩).trans hword
    obtain ⟨b, hat, hw⟩ := Option.map_eq_some_iff.mp hb
    exact .inr ⟨b, hge, hn, by rwa [Nat.add_sub_cancel_left], hw⟩

/-- The outcomes of looking a word up. -/
inductive Code (env : Env) (word : List Char) : Int → Prop
  | handler {n : Nat} (h : Handler) (hn : n < 16) (hword : instList[n]? = some word)
      (hat : handlerAt n = some h) (hh : h.word = word) : Code env word n
  | builtIn {n : Nat} (b : BuiltIn) (hn : 16 ≤ n) (hlt : n < 19)
      (hword : instList[n]? = some word) (hat : builtInHandlers[n - 16]? = some b)
      (hb : b.word = word) : Code env word n
  /-- The string behind the end of `inst_list` is the word. -/
  | past (hno : word ∉ instList) (hpast : word = env.past) : Code env word exit
  | unknown (hno : word ∉ instList) (hpast : word ≠ env.past) : Code env word (-1)

theorem isBuiltIn_neg : isBuiltIn (-1) = false := rfl

theorem isBuiltIn_handler {n : Nat} (hn : n < 16) : isBuiltIn n = false := by
  rw [isBuiltIn, kill, Bool.and_eq_false_iff]
  exact .inl (decide_eq_false (by omega))

theorem isBuiltIn_builtIn {n : Nat} (hn : 16 ≤ n) (hlt : n < 19) : isBuiltIn n = true := by
  rw [isBuiltIn, kill, exit, Bool.and_eq_true]
  exact ⟨decide_eq_true (by omega), decide_eq_true (by omega)⟩

theorem verifyInstruction_find (word : List Char) :
    (verifyInstruction env word).val =
      (((List.range (instList.length + 1)).find? fun i => instEntry env i = word).map
        (Nat.cast : Nat → Int)).getD (-1) :=
  verifyFrom_val word _

/-- No entry in front of the first index that is not in the list is the word. -/
theorem not_mem_instList {word : List Char}
    (hno : ∀ j < instList.length, instEntry env j ≠ word) : word ∉ instList := by
  intro hmem
  obtain ⟨j, hj, hw⟩ := List.getElem_of_mem hmem
  exact hno j hj (by rw [instEntry_of_lt hj, hw])

theorem verifyInstruction_code (word : List Char) :
    Code env word (verifyInstruction env word).val := by
  rw [verifyInstruction_find]
  cases hf : (List.range (instList.length + 1)).find? fun i => instEntry env i = word with
  | none =>
    have hall := List.find?_eq_none.mp hf
    simp only [List.mem_range, decide_eq_true_eq] at hall
    refine .unknown (not_mem_instList fun j hj => hall j (Nat.lt_succ_of_lt hj)) ?_
    intro hpast
    exact hall instList.length (Nat.lt_succ_self _) (by rw [instEntry_past, hpast])
  | some n =>
    obtain ⟨hword, hn, hfirst⟩ := List.find?_range_eq_some.mp hf
    simp only [decide_eq_true_eq, Bool.not_eq_true', decide_eq_false_iff_not] at hword hfirst
    rcases Nat.lt_succ_iff_lt_or_eq.mp (List.mem_range.mp hn) with hlt | heq
    · rw [instEntry_of_lt hlt] at hword
      have hsome : instList[n]? = some word := by rw [List.getElem?_eq_getElem hlt, hword]
      obtain ⟨h, h16, hat, hh⟩ | ⟨b, h16, hlt, hat, hb⟩ := tables hsome
      · exact .handler h h16 hsome hat hh
      · exact .builtIn b h16 hlt hsome hat hb
    · subst heq
      exact .past (not_mem_instList hfirst) (hword.symm.trans instEntry_past)

/-- The lookup of a word reads only entries of the list when the word is in it, and the one
behind its end when it is not. -/
theorem readList_verifyInstruction (word : List Char) :
    (∀ i, .readList i ∈ (verifyInstruction env word).trace → i < instList.length) ↔
      word ∈ instList := by
  simp only [verifyInstruction, readList_verifyFrom List.pairwise_lt_range, List.mem_range]
  constructor
  · intro hall
    by_contra hno
    refine Nat.lt_irrefl _ (hall instList.length ⟨by decide, ?_⟩)
    intro j _ hj he
    rw [instEntry_of_lt hj] at he
    exact hno (he ▸ List.getElem_mem hj)
  · intro hmem i ⟨_, hfirst⟩
    obtain ⟨j, hj, hw⟩ := List.getElem_of_mem hmem
    refine Nat.lt_of_le_of_lt (Nat.le_of_not_lt fun hji => ?_) hj
    exact hfirst j (Nat.lt_trans hj (by decide)) hji (by rw [instEntry_of_lt hj, hw])

theorem heapActs_verifyInstruction (word : List Char) :
    heapActs (verifyInstruction env word).trace = [] := by
  rw [verifyInstruction]
  induction List.range (cantInstructions - 1) with
  | nil => rfl
  | cons i is ih =>
    simp only [verifyFrom, Traced.trace_bind, heapActs_append]
    split
    · rfl
    · simpa using ih

theorem moves_verifyInstruction (word : List Char) :
    moves (verifyInstruction env word).trace = (verifyInstruction env word).trace := by
  rw [verifyInstruction]
  induction List.range (cantInstructions - 1) with
  | nil => rfl
  | cons i is ih =>
    simp only [verifyFrom, Traced.trace_bind, moves_append]
    split
    · rfl
    · simpa using ih

/-! ## The reads and the calls -/

@[simp] theorem moves_malloc (b : Buf) (size : Nat) : moves (malloc env b size).trace = [] := by
  rw [malloc]
  split <;> rfl

@[simp] theorem moves_free (p : Option Ptr) : moves (free p).trace = [] := by
  cases p <;> rfl

@[simp] theorem moves_write (p : Option Ptr) (off : Int) (count : Nat) :
    moves (write p off count).trace = [] := rfl

theorem malloc_val (b : Buf) (size : Nat) :
    (malloc env b size).val = if env.ok b then some ⟨b, 0⟩ else none := by
  rw [malloc]
  split <;> rfl

theorem moves_createProcessWithArgs (s : Side) (argc : Nat) :
    moves (createProcessWithArgs env s argc).trace = [] := by
  simp only [createProcessWithArgs, Traced.trace_bind, moves_append, moves_malloc,
    List.nil_append]
  split
  · rfl
  · simp

theorem moves_handleProcessWithArgs (s : Side) (c : Command) (expected : Nat) :
    moves (handleProcessWithArgs env s c expected).trace = [] := by
  rw [handleProcessWithArgs]
  split
  · rfl
  · rw [Traced.trace_bind, createProcess]
    split
    · rfl
    · simp [moves_createProcessWithArgs]

/-- The handlers call no handler. -/
@[simp] theorem moves_run (s : Side) (c : Command) (h : Handler) :
    moves (h.run env s c).trace = [] := by
  cases h <;> first
    | exact moves_handleProcessWithArgs s c _
    | simp [Handler.run, handleWithoutArgs]

@[simp] theorem moves_callHandler_trace (s : Side) (c : Command) :
    moves (callHandler env s c).trace = [.callHandler s c.instruction] := by
  simp only [callHandler, Traced.trace_bind, moves_append]
  split
  · simp
  · rfl

@[simp] theorem moves_freePipeCmd (cmd1 cmd2 : Command) :
    moves (freePipeCmd cmd1 cmd2).trace = [] := by
  simp [freePipeCmd]

theorem moves_handleSingleCommand (cmd1 : Command) :
    moves (handleSingleCommand env cmd1).trace = [.callHandler .left cmd1.instruction] := by
  simp [handleSingleCommand]

theorem moves_handleBuiltinCommand (cmd1 cmd2 : Command) :
    moves (handleBuiltinCommand cmd1 cmd2).trace =
      if isBuiltIn cmd1.instruction then [.callBuiltIn (cmd1.instruction - kill)] else [] := by
  rw [handleBuiltinCommand]
  split
  · next hneg => simp [hneg, isBuiltIn, kill]
  · split <;> simp

theorem moves_handlePipedCommands (cmd1 cmd2 : Command) :
    moves (handlePipedCommands env cmd1 cmd2).trace =
      if cmd1.instruction = -1 ∨ cmd2.instruction = -1 ∨ isBuiltIn cmd1.instruction ∨
        isBuiltIn cmd2.instruction ∨ env.pipe < 0 then []
      else [.callHandler .left cmd1.instruction, .callHandler .right cmd2.instruction] := by
  unfold handlePipedCommands
  simp only [Bool.or_eq_true, decide_eq_true_eq]
  by_cases hneg : cmd1.instruction = -1 ∨ cmd2.instruction = -1
  · rw [if_pos hneg, if_pos (by grind), moves_freePipeCmd]
  by_cases hbuilt : isBuiltIn cmd1.instruction = true ∨ isBuiltIn cmd2.instruction = true
  · rw [if_neg hneg, if_pos hbuilt, if_pos (by grind), moves_freePipeCmd]
  by_cases hpipe : env.pipe < 0
  · rw [if_neg hneg, if_neg hbuilt, if_pos hpipe, if_pos (by grind), moves_freePipeCmd]
  · rw [if_neg hneg, if_neg hbuilt, if_neg hpipe, if_neg (by grind)]
    simp only [Traced.trace_bind, moves_append, moves_callHandler_trace]
    split <;> simp

/-! ## The commands of a line -/

/-- The text a command is read from; without a `|` there is no right one. -/
def commandText (env : Env) (line : Line) (behind : List Char) : Side → Option (List Char)
  | .left => some (leftMemory env line behind)
  | .right => (pipePos line.text).map fun k => (cutAt (line.memory behind) k).drop (k + 2)

/-- The word that is looked up for a command, if its buffer can be allocated. -/
def lookedUp (env : Env) (line : Line) (behind : List Char) (s : Side) : Option (List Char) :=
  if env.ok (.instruction s) then (commandText env line behind s).map (instruction env) else none

/-- The instruction of a command, by the word that is looked up for it. -/
def code (env : Env) : Option (List Char) → Int
  | some word => (verifyInstruction env word).val
  | none => -1

def reads (env : Env) : Option (List Char) → List Act
  | some word => (verifyInstruction env word).trace
  | none => []

theorem getCommand_instruction (s : Side) (p : Ptr) (mem : List Char) :
    (getCommand env s p mem).val.instruction =
      code env (if env.ok (.instruction s) then some (instruction env mem) else none) := by
  simp only [getCommand, getInstruction, Traced.val_bind, Traced.val_pure, malloc_val]
  cases hok : env.ok (.instruction s) <;> simp [code]

theorem moves_getCommand (s : Side) (p : Ptr) (mem : List Char) :
    moves (getCommand env s p mem).trace =
      reads env (if env.ok (.instruction s) then some (instruction env mem) else none) := by
  simp only [getCommand, getInstruction, Traced.trace_bind, Traced.trace_pure, moves_append,
    moves_malloc, malloc_val, List.nil_append, List.append_nil]
  cases hok : env.ok (.instruction s) <;> simp [reads, moves_verifyInstruction]

theorem countInstructions_val (cmd1 cmd2 : Command) : (countInstructions cmd1 cmd2).val =
    if isBuiltIn cmd1.instruction then (if isBuiltIn cmd2.instruction then -1 else 0)
    else (if 0 ≤ cmd2.instruction then 1 else 0) + if 0 ≤ cmd1.instruction then 1 else 0 := by
  rw [countInstructions]
  cases isBuiltIn cmd1.instruction <;> cases isBuiltIn cmd2.instruction <;> rfl

@[simp] theorem moves_countInstructions (cmd1 cmd2 : Command) :
    moves (countInstructions cmd1 cmd2).trace = [] := by
  rw [countInstructions]
  split
  · simp
  · split <;> rfl

/-- The calls that follow on two instructions. -/
def calls (env : Env) (i j : Int) : List Act :=
  if isBuiltIn i then (if isBuiltIn j then [] else [.callBuiltIn (i - kill)])
  else if 0 ≤ i ∧ 0 ≤ j then
    (if isBuiltIn j ∨ env.pipe < 0 then [] else [.callHandler .left i, .callHandler .right j])
  else if 0 ≤ i ∨ 0 ≤ j then [.callHandler .left i]
  else []

theorem moves_dispatch (cmd1 cmd2 : Command) :
    moves (dispatch env (countInstructions cmd1 cmd2).val cmd1 cmd2).trace =
      calls env cmd1.instruction cmd2.instruction := by
  have hneg : ∀ {i : Int}, 0 ≤ i → i ≠ -1 := by
    intro i hi he
    rw [he] at hi
    exact absurd hi (by decide)
  rw [countInstructions_val, calls, dispatch]
  by_cases hb : isBuiltIn cmd1.instruction = true
  · by_cases hb' : isBuiltIn cmd2.instruction = true
    · simp [hb, hb']
    · simp [hb, hb', moves_handleBuiltinCommand]
  · by_cases hi : 0 ≤ cmd1.instruction <;> by_cases hj : 0 ≤ cmd2.instruction
    · simp [hb, hi, hj, moves_handlePipedCommands, hneg hi, hneg hj]
    · simp [hb, hi, hj, moves_handleSingleCommand]
    · simp [hb, hi, hj, moves_handleSingleCommand]
    · simp [hb, hi, hj, moves_handleBuiltinCommand]

theorem getRight_instruction (line : Line) (behind : List Char) :
    (getRight env line behind).val.instruction = code env (lookedUp env line behind .right) := by
  rw [getRight, lookedUp, commandText]
  cases pipePos line.text with
  | none => simp [Command.empty, code]
  | some k => simp [getCommand_instruction]

theorem moves_getRight (line : Line) (behind : List Char) :
    moves (getRight env line behind).trace = reads env (lookedUp env line behind .right) := by
  rw [getRight, lookedUp, commandText]
  cases pipePos line.text with
  | none => simp [reads]
  | some k => simp [moves_getCommand]

/-- The parts of an iteration that is given its first two blocks. -/
theorem iteration_eq (hcmd : env.ok .cmd = true) (hline : env.ok .line = true) (line : Line)
    (behind : List Char) :
    (iteration env line behind).trace =
      [.heap (.malloc .cmd 48), .heap (.write .cmd 0 48), .heap (.malloc .line bufferSpace),
        .heap (.write .line 0 bufferSpace)] ++ (getRight env line behind).trace
      ++ (getCommand env .left ⟨.line, 0⟩ (leftMemory env line behind)).trace
      ++ (countInstructions (getCommand env .left ⟨.line, 0⟩ (leftMemory env line behind)).val
        (getRight env line behind).val).trace
      ++ (dispatch env
        (countInstructions (getCommand env .left ⟨.line, 0⟩ (leftMemory env line behind)).val
          (getRight env line behind).val).val
        (getCommand env .left ⟨.line, 0⟩ (leftMemory env line behind)).val
        (getRight env line behind).val).trace := by
  simp [iteration, bufferControl, malloc, hcmd, hline, write]

/-- What an iteration reads of `inst_list`, and the calls it makes. -/
theorem moves_iteration (line : Line) (behind : List Char) :
    moves (iteration env line behind).trace =
      if env.ok .cmd ∧ env.ok .line then
        reads env (lookedUp env line behind .right) ++ reads env (lookedUp env line behind .left)
          ++ calls env (code env (lookedUp env line behind .left))
            (code env (lookedUp env line behind .right))
      else [] := by
  cases hcmd : env.ok .cmd with
  | false => simp [iteration, malloc_val, hcmd]
  | true =>
    cases hline : env.ok .line with
    | false => simp [iteration, bufferControl, malloc_val, hcmd, hline, dispatch]
    | true =>
      have hleft : (getCommand env .left ⟨.line, 0⟩ (leftMemory env line behind)).val.instruction =
          code env (lookedUp env line behind .left) := getCommand_instruction ..
      rw [iteration_eq hcmd hline]
      simp only [moves_append, moves_getRight, moves_countInstructions, moves_dispatch, hleft,
        getRight_instruction, moves_getCommand]
      simp [lookedUp, commandText]

theorem mem_verifyFrom {word : List Char} {is : List Nat} {a : Act}
    (ha : a ∈ (verifyFrom env word is).trace) : ∃ i, a = .readList i := by
  induction is with
  | nil => exact absurd ha List.not_mem_nil
  | cons i is ih =>
    rcases List.mem_append.mp ha with hread | hrest
    · exact ⟨i, List.mem_singleton.mp hread⟩
    · revert hrest
      dsimp only
      split
      · exact fun hnil => absurd hnil List.not_mem_nil
      · exact ih

theorem mem_reads {word : Option (List Char)} {a : Act} (ha : a ∈ reads env word) :
    ∃ i, a = .readList i := by
  cases word with
  | none => exact absurd ha List.not_mem_nil
  | some word => exact mem_verifyFrom ha

theorem readList_not_mem_calls (i j : Int) (n : Nat) : .readList n ∉ calls env i j := by
  rw [calls]
  split
  · split <;> simp
  · split
    · split <;> simp
    · split <;> simp

/-- The handlers an iteration calls. -/
theorem call_mem_iteration {line : Line} {behind : List Char} {a : Act}
    (hheap : ∀ x, a ≠ .heap x) (hread : ∀ i, a ≠ .readList i) :
    a ∈ (iteration env line behind).trace ↔ env.ok .cmd ∧ env.ok .line ∧
      a ∈ calls env (code env (lookedUp env line behind .left))
        (code env (lookedUp env line behind .right)) := by
  have hno : ∀ word, a ∉ reads env word := by
    intro word ha
    obtain ⟨i, hi⟩ := mem_reads ha
    exact hread i hi
  have hmoves := @moves_iteration env line behind
  rw [← and_assoc, ← and_iff_left (a := a ∈ (iteration env line behind).trace) hheap, ← mem_moves,
    hmoves]
  split
  · next hok => simp [hok, hno]
  · next hok => simp [hok]

/-- The entries an iteration reads. -/
theorem readList_mem_iteration {line : Line} {behind : List Char} {i : Nat} :
    .readList i ∈ (iteration env line behind).trace ↔ env.ok .cmd ∧ env.ok .line ∧
      ∃ s, .readList i ∈ reads env (lookedUp env line behind s) := by
  have hheap : ∀ x, Act.readList i ≠ .heap x := fun x => Act.noConfusion
  have hmoves := @moves_iteration env line behind
  rw [← and_assoc,
    ← and_iff_left (a := .readList i ∈ (iteration env line behind).trace) hheap, ← mem_moves, hmoves]
  split
  · next hok =>
    simp only [List.mem_append, readList_not_mem_calls, or_false, hok, and_self, true_and]
    constructor
    · rintro (hright | hleft)
      · exact ⟨.right, hright⟩
      · exact ⟨.left, hleft⟩
    · rintro ⟨_ | _, hread⟩
      · exact .inr hread
      · exact .inl hread
  · next hok => simp [hok]

/-! ## The text of a line -/

theorem pipePos_eq_none {text : List Char} : pipePos text = none ↔ '|' ∉ text := by
  rw [pipePos, List.findIdx?_eq_none_iff]
  constructor
  · intro hall hmem
    exact absurd (hall '|' hmem) (by decide)
  · intro hno c hc
    rw [beq_eq_false_iff_ne]
    rintro rfl
    exact hno hc

theorem takeWhile_line {text rest : List Char} (htext : ∀ c ∈ text, c ≠ '\x00' ∧ c ≠ '\n') :
    (text ++ '\x00' :: rest).takeWhile (fun c => c ≠ ' ' && c ≠ '\x00') =
      text.takeWhile (· ≠ ' ') := by
  induction text with
  | nil => rfl
  | cons c text ih =>
    obtain ⟨⟨hnul, -⟩, htext⟩ := List.forall_mem_cons.mp htext
    by_cases hc : c = ' '
    · simp [hc]
    · simpa [hc, hnul] using ih htext

/-- The word of a line: what is in front of its first space. -/
theorem readWord_memory (line : Line) (behind : List Char) :
    readWord (line.memory behind) = line.text.takeWhile (· ≠ ' ') := by
  obtain ⟨k, hk⟩ := Nat.exists_eq_add_of_lt line.fits
  rw [readWord, Line.memory, hk, Nat.add_assoc, List.take_length_add_append, List.take_succ_cons,
    takeWhile_line line.typed]

/-- The word of a line does not fill the instruction buffer. -/
theorem instruction_memory (line : Line) (behind : List Char) :
    instruction env (line.memory behind) = line.text.takeWhile (· ≠ ' ') := by
  have hlen : (line.text.takeWhile (· ≠ ' ')).length < bufferSpace :=
    Nat.lt_of_le_of_lt (List.takeWhile_sublist _).length_le line.fits
  rw [instruction, readWord_memory, if_pos hlen, List.append_nil]

theorem takeWhile_length_le {p : Char → Bool} (hnul : p '\x00' = false) (text rest : List Char) :
    ((text ++ '\x00' :: rest).takeWhile p).length ≤ text.length := by
  rw [List.takeWhile_append]
  split
  · simp [hnul]
  · exact (List.takeWhile_sublist _).length_le

/-- A text without a space, or the first one in it. -/
theorem first_space (text : List Char) :
    (' ' ∉ text ∧ text.takeWhile (· ≠ ' ') = text) ∨
      ∃ rest, text = text.takeWhile (· ≠ ' ') ++ ' ' :: rest := by
  induction text with
  | nil => exact .inl ⟨List.not_mem_nil, rfl⟩
  | cons c text ih =>
    by_cases hc : c = ' '
    · exact .inr ⟨text, by simp [hc]⟩
    · rcases ih with ⟨hno, hw⟩ | ⟨rest, hw⟩
      · refine .inl ⟨?_, by simpa [hc] using hw⟩
        simpa [hno] using Ne.symm hc
      · exact .inr ⟨rest, by simpa [hc] using hw⟩

/-- With a space in the line its arguments are in it, else they are read behind it. -/
theorem readArgs_memory (line : Line) (behind : List Char) :
    (readArgs (line.memory behind)).length < bufferSpace ↔
      ' ' ∈ line.text ∨
        (behind.takeWhile fun c => c ≠ '\x00' && c ≠ '\n').length < bufferSpace := by
  have hfits := line.fits
  have hle : (line.text.takeWhile (· ≠ ' ')).length ≤ line.text.length :=
    (List.takeWhile_sublist _).length_le
  have hmin : min ((line.text.takeWhile (· ≠ ' ')).length + 1) bufferSpace =
      (line.text.takeWhile (· ≠ ' ')).length + 1 := Nat.min_eq_left (Nat.lt_of_le_of_lt hle hfits)
  rw [readArgs, readWord_memory, hmin, Line.memory]
  rcases first_space line.text with ⟨hno, hw⟩ | ⟨rest, hw⟩
  · rw [hw, List.drop_append, List.drop_of_length_le (Nat.le_succ _), Nat.add_sub_cancel_left]
    simp [hno]
  · generalize line.text.takeWhile (· ≠ ' ') = word at hw
    have hdrop : (line.text ++ '\x00' :: behind).drop (word.length + 1) =
        rest ++ '\x00' :: behind := by
      rw [hw, List.append_assoc, List.drop_append, List.drop_of_length_le (Nat.le_succ _),
        Nat.add_sub_cancel_left]
      rfl
    have hlen : rest.length < bufferSpace := by
      rw [hw, List.length_append, List.length_cons] at hfits
      omega
    have hmem : ' ' ∈ line.text := hw ▸ List.mem_append_right _ List.mem_cons_self
    rw [hdrop]
    exact ⟨fun _ => .inl hmem,
      fun _ => Nat.lt_of_le_of_lt (takeWhile_length_le (by decide) rest behind) hlen⟩

end SoKernel.Shell
