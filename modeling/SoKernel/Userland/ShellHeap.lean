import SoKernel.Userland.ShellTrace

/-!
# The heap discipline of the shell

Results:
1. `Handler.run_freesArgs`, `Handler.run_keeps`: three handlers free the arguments they are
   given; the others leave the live blocks as they were.
2. `iteration_plain`, `free_inside`: without a `|` the iteration frees what it has allocated,
   up to the handler it calls; with one it gives `free` an address inside the line buffer.
3. `iteration_respects_iff`: the lines on which the discipline is kept, when every allocation
   succeeds.
-/

namespace SoKernel.Shell

open HeapAct

/-- The heap discipline of an iteration: every address freed is that of a live block and
every byte written is in one. A call outside of the functions of `instruction_handlers` may do
anything. -/
structure Respects (t : List Act) : Prop where
  heap : Disciplined (heapActs t)
  known : ∀ (s : Side) (i : Int), .callHandler s i ∈ t → (handlerAt i).isSome

/-- The handlers that free their argument. -/
def Handler.freesArgs : Handler → Bool
  | .help | .clear | .testMallocFree => true
  | _ => false

theorem Handler.freesArgs_iff (h : Handler) : h.freesArgs = true ↔
    h.word ∈ ["help".toList, "clear".toList, "test_malloc_free".toList] := by
  cases h <;> decide

/-- No allocation fails. -/
def Env.Allocates (env : Env) : Prop := ∀ b, env.ok b = true

section

variable {env : Env}

theorem malloc_ok (hok : env.Allocates) (b : Buf) (size : Nat) :
    malloc env b size = ⟨[.heap (.malloc b size)], some ⟨b, 0⟩⟩ := by
  rw [malloc, if_pos (hok b)]

/-! ## The handlers -/

theorem Handler.run_freesArgs (s : Side) (c : Command) (p : Ptr) (hp : c.arguments = some p)
    {h : Handler} (hf : h.freesArgs = true) :
    (h.run env s c).trace = [.heap (.free p.buf p.off)] := by
  cases h <;> first
    | exact Bool.noConfusion hf
    | simp [run, handleWithoutArgs, free, hp]

/-- The table of arguments is allocated and freed around the creation of the process. -/
theorem createProcessWithArgs_keeps (hok : env.Allocates) (s : Side) (argc : Nat)
    {live : LiveBlocks Buf} (hargv : live (.argv s) = none) :
    HeapAct.run live (heapActs (createProcessWithArgs env s argc).trace) = some live := by
  simp [createProcessWithArgs, malloc_ok hok, write, free, exec, ← hargv]

theorem handleProcessWithArgs_keeps (hok : env.Allocates) (s : Side) (c : Command)
    (expected : Nat) {live : LiveBlocks Buf} (hargv : live (.argv s) = none) :
    HeapAct.run live (heapActs (handleProcessWithArgs env s c expected).trace) = some live := by
  rw [handleProcessWithArgs]
  split
  · rfl
  · rw [Traced.trace_bind, createProcess]
    split
    · rfl
    · simpa using createProcessWithArgs_keeps hok s expected hargv

/-- The other handlers leave the live blocks as they were. -/
theorem Handler.run_keeps (hok : env.Allocates) (s : Side) (c : Command) {h : Handler}
    (hf : h.freesArgs = false) {live : LiveBlocks Buf} (hargv : live (.argv s) = none) :
    HeapAct.run live (heapActs (h.run env s c).trace) = some live := by
  cases h <;> first
    | exact Bool.noConfusion hf
    | exact handleProcessWithArgs_keeps hok s c _ hargv
    | rfl

/-! ## The commands -/

theorem getCommand_heap (hok : env.Allocates) (s : Side) (p : Ptr) (mem : List Char) :
    heapActs (getCommand env s p mem).trace =
      [.malloc (.args s) bufferSpace, .malloc (.instruction s) bufferSpace,
        .write (.instruction s) 0 (min ((readWord mem).length + 1) bufferSpace),
        .write (.args s) 0 ((readArgs mem).length + 1), .free p.buf p.off,
        .free (.instruction s) 0] := by
  simp [getCommand, getInstruction, malloc_ok hok, write, free, heapActs_verifyInstruction]

theorem getCommand_val (hok : env.Allocates) (s : Side) (p : Ptr) (mem : List Char) :
    (getCommand env s p mem).val =
      ⟨(verifyInstruction env (instruction env mem)).val, some ⟨.args s, 0⟩, readArgs mem⟩ := by
  simp [getCommand, getInstruction, malloc_ok hok]

/-! ## A line with a `|` -/

/-- `free` is given the address two behind the `|`. -/
theorem free_inside (hok : env.Allocates) (line : Line) (behind : List Char) {k : Nat}
    (hk : pipePos line.text = some k) :
    .free .line ((k : Int) + 2) ∈ heapActs (iteration env line behind).trace := by
  have hright : .free .line ((k : Int) + 2) ∈ heapActs (getRight env line behind).trace := by
    simp [getRight, hk, getCommand_heap hok]
  rw [iteration_eq (hok _) (hok _)]
  simp only [heapActs_append, List.mem_append]
  exact .inl (.inl (.inl (.inr hright)))

/-! ## A line without -/

/-- The command of a line without a `|`. -/
def plainCommand (env : Env) (line : Line) (behind : List Char) : Command :=
  ⟨(verifyInstruction env (line.text.takeWhile (· ≠ ' '))).val, some ⟨.args .left, 0⟩,
    readArgs (line.memory behind)⟩

/-- The live blocks once the command has been read. -/
def afterReading : LiveBlocks Buf
  | .cmd => some 48
  | .args .left => some bufferSpace
  | _ => none

theorem plain_left (hok : env.Allocates) {line : Line} (behind : List Char)
    (hk : pipePos line.text = none) :
    (getCommand env .left ⟨.line, 0⟩ (leftMemory env line behind)).val =
      plainCommand env line behind := by
  rw [getCommand_val hok, leftMemory, hk]
  simp only [instruction_memory, plainCommand]

/-- The iteration up to the dispatch allocates the record and the arguments, when the
arguments fit. -/
theorem run_reading (hok : env.Allocates) {line : Line} (behind : List Char)
    (hk : pipePos line.text = none) (t : List (HeapAct Buf)) :
    HeapAct.run (fun _ => none) ([.malloc .cmd 48, .write .cmd 0 48, .malloc .line bufferSpace,
        .write .line 0 bufferSpace] ++
      heapActs (getCommand env .left ⟨.line, 0⟩ (leftMemory env line behind)).trace ++ t) =
      if (readArgs (line.memory behind)).length < bufferSpace then HeapAct.run afterReading t
      else none := by
  have hmin : min ((readWord (line.memory behind)).length + 1) bufferSpace ≤ bufferSpace :=
    Nat.min_le_right ..
  have hlive : Function.update (Function.update (Function.update (Function.update
      (Function.update (Function.update (fun _ : Buf => none) .cmd (some 48)) .line
        (some bufferSpace)) (.args .left) (some bufferSpace)) (.instruction .left)
        (some bufferSpace)) .line none) (.instruction .left) none = afterReading := by
    funext b
    rcases b with _ | _ | _ | (_ | _) | (_ | _) | (_ | _) <;> rfl
  have hfits : (((readArgs (line.memory behind)).length : Int) + 1 ≤ bufferSpace) ↔
      (readArgs (line.memory behind)).length < bufferSpace := by omega
  simp only [getCommand_heap hok, leftMemory, hk, List.cons_append, List.nil_append, run_cons]
  simp only [exec, Std.le_refl, Int.cast_ofNat_Int, Int.zero_add, true_and, Int.ofNat_le,
    Int.natCast_add, Option.bind_some, Function.update_self, Option.getD_some, hmin, ↓reduceIte,
    ne_eq, reduceCtorEq, not_false_eq_true, Function.update_of_ne, hfits]
  split
  · simp [hlive]
  · rfl

/-- The heap calls of an iteration without a `|`, from the dispatch on. -/
def plainDispatch (env : Env) (c : Command) : List (HeapAct Buf) :=
  heapActs (dispatch env (countInstructions c .empty).val c .empty).trace

theorem disciplined_plain (hok : env.Allocates) {line : Line} (behind : List Char)
    (hk : pipePos line.text = none) :
    Disciplined (heapActs (iteration env line behind).trace) ↔
      (readArgs (line.memory behind)).length < bufferSpace ∧
        (HeapAct.run afterReading (plainDispatch env (plainCommand env line behind))).isSome := by
  have hright : getRight env line behind = pure .empty := by rw [getRight, hk]
  have hcount : heapActs (countInstructions (plainCommand env line behind) .empty).trace = [] := by
    rw [countInstructions]
    cases isBuiltIn (plainCommand env line behind).instruction <;> rfl
  have hrun := run_reading hok behind hk (plainDispatch env (plainCommand env line behind))
  rw [Disciplined, iteration_eq (hok _) (hok _), plain_left hok behind hk, hright]
  simp only [heapActs_append, Traced.val_pure, Traced.trace_pure, hcount, List.append_nil]
  rw [plainDispatch] at hrun ⊢
  refine (congrArg (fun o => Option.isSome o = true) hrun).to_iff.trans ?_
  split
  · next h => exact ⟨fun hs => ⟨h, hs⟩, And.right⟩
  · next h => simp [h]

theorem count_plain (c : Command) : (countInstructions c .empty).val =
    if isBuiltIn c.instruction then 0 else if 0 ≤ c.instruction then 1 else 0 := by
  simp [countInstructions_val, Command.empty, isBuiltIn_neg]

theorem plainDispatch_handler {c : Command} {n : Nat} {h : Handler} (hn : n < 16)
    (hc : c.instruction = n) (hat : handlerAt n = some h) :
    plainDispatch env c =
      heapActs (h.run env .left c).trace ++ heapActs (free c.arguments).trace ++ [.free .cmd 0] := by
  have hcount : (countInstructions c .empty).val = 1 := by
    rw [count_plain, hc, isBuiltIn_handler hn, if_neg Bool.false_ne_true,
      if_pos (Int.natCast_nonneg n)]
  rw [plainDispatch, hcount]
  simp [dispatch, handleSingleCommand, callHandler, hc, hat, free]

theorem plainDispatch_rest {c : Command} (hc : c.instruction = -1 ∨ isBuiltIn c.instruction) :
    plainDispatch env c = heapActs (free c.arguments).trace ++ [.free .cmd 0] := by
  have hcount : (countInstructions c .empty).val = 0 := by
    rw [count_plain]
    rcases hc with hneg | hb
    · rw [hneg]
      rfl
    · rw [if_pos hb]
  rw [plainDispatch, hcount, dispatch, if_pos rfl, handleBuiltinCommand]
  split
  · simp [freePipeCmd, Command.empty, free]
  · next hneg =>
    rw [if_pos (hc.resolve_left hneg)]
    simp [free]

/-- The arguments and the record are freed at the end. -/
theorem run_free_plain : (HeapAct.run afterReading
    (heapActs (free (some ⟨.args .left, 0⟩)).trace ++ [.free .cmd 0])).isSome := by
  simp [free, exec, afterReading]

/-! ## Every line -/

/-- The call of a handler that an iteration makes for a line without a `|`. -/
theorem call_plain (hok : env.Allocates) {line : Line} (behind : List Char)
    (hk : pipePos line.text = none) (s : Side) (i : Int) :
    .callHandler s i ∈ (iteration env line behind).trace ↔
      .callHandler s i ∈ calls env (plainCommand env line behind).instruction (-1) := by
  have hleft : code env (lookedUp env line behind .left) =
      (plainCommand env line behind).instruction := by
    have hval := @getCommand_instruction env .left ⟨.line, 0⟩ (leftMemory env line behind)
    rw [plain_left hok behind hk] at hval
    exact hval.symm
  have hright : lookedUp env line behind .right = none := by
    simp [lookedUp, commandText, hk]
  rw [call_mem_iteration (fun _ => Act.noConfusion) (fun _ => Act.noConfusion), hleft, hright]
  simp [hok .cmd, hok .line, code]

/-- The discipline on a line without a `|`. -/
theorem respects_plain_iff (hok : env.Allocates) {line : Line} (behind : List Char)
    (hk : pipePos line.text = none) :
    Respects (iteration env line behind).trace ↔
      line.text.takeWhile (· ≠ ' ') ∉
        ["help".toList, "clear".toList, "test_malloc_free".toList] ∧
      (line.text.takeWhile (· ≠ ' ') ∈ instList ∨ line.text.takeWhile (· ≠ ' ') ≠ env.past) ∧
      (readArgs (line.memory behind)).length < bufferSpace := by
  have hdisc := disciplined_plain hok behind hk
  have hcalls := call_plain hok behind hk
  have hargs : (plainCommand env line behind).arguments = some ⟨.args .left, 0⟩ := rfl
  have hcode : Code env (line.text.takeWhile (· ≠ ' ')) (plainCommand env line behind).instruction :=
    verifyInstruction_code _
  generalize plainCommand env line behind = c at hdisc hcalls hargs hcode
  generalize line.text.takeWhile (· ≠ ' ') = word at hcode ⊢
  have hsplit : Respects (iteration env line behind).trace ↔
      ((readArgs (line.memory behind)).length < bufferSpace ∧
        (HeapAct.run afterReading (plainDispatch env c)).isSome) ∧
      ∀ s i, .callHandler s i ∈ calls env c.instruction (-1) → (handlerAt i).isSome := by
    constructor
    · rintro ⟨hheap, hknown⟩
      exact ⟨hdisc.mp hheap, fun s i hi => hknown s i ((hcalls s i).mpr hi)⟩
    · rintro ⟨hheap, hknown⟩
      exact ⟨hdisc.mpr hheap, fun s i hi => hknown s i ((hcalls s i).mp hi)⟩
  rw [hsplit]
  generalize hi : c.instruction = i at hcode hsplit ⊢
  cases hcode with
  | @handler n h hn hword hat hh =>
    have hmem : word ∈ instList := List.mem_of_getElem? hword
    have hcall : calls env n (-1) = [.callHandler .left n] := by
      simp [calls, isBuiltIn_handler hn]
    rw [plainDispatch_handler hn hi hat, hargs, hcall, ← hh, ← Handler.freesArgs_iff]
    cases hf : h.freesArgs with
    | true =>
      have htwice := run_free_twice afterReading [] [] [.free .cmd 0] (Buf.args .left) 0 0
        fun _ => List.not_mem_nil
      rw [Handler.run_freesArgs .left c _ hargs hf]
      simp only [List.nil_append] at htwice
      simp [free, htwice]
    | false =>
      rw [List.append_assoc, run_append, Handler.run_keeps hok .left c hf rfl, hh]
      simp [run_free_plain, hmem, hat]
  | @builtIn n b hn hlt hword hat hb =>
    have hmem : word ∈ instList := List.mem_of_getElem? hword
    have hno : word ∉ ["help".toList, "clear".toList, "test_malloc_free".toList] := by
      rw [← hb]
      cases b <;> decide
    have hcall : calls env n (-1) = [.callBuiltIn (n - kill)] := by
      simp [calls, isBuiltIn_builtIn hn hlt, isBuiltIn_neg]
    rw [plainDispatch_rest (.inr (by rw [hi, isBuiltIn_builtIn hn hlt])), hargs, hcall]
    simp only [run_free_plain, and_true, List.mem_singleton, reduceCtorEq, false_imp_iff,
      implies_true, hno, not_false_eq_true, hmem, true_or, true_and]
  | past hno hpast =>
    have hcall : calls env exit (-1) = [.callHandler .left exit] := rfl
    rw [hcall]
    constructor
    · rintro ⟨-, hknown⟩
      exact absurd (hknown .left exit (List.mem_singleton.mpr rfl)) (by decide)
    · rintro ⟨-, hmem | hne, -⟩
      · exact absurd hmem hno
      · exact absurd hpast hne
  | unknown hno hpast =>
    have hwords : word ∉ ["help".toList, "clear".toList, "test_malloc_free".toList] := by
      intro hmem
      refine hno ?_
      simp only [List.mem_cons, List.not_mem_nil, or_false] at hmem
      rcases hmem with rfl | rfl | rfl <;> decide
    have hcall : calls env (-1) (-1) = [] := rfl
    rw [plainDispatch_rest (.inl hi), hargs, hcall]
    simp only [run_free_plain, and_true, List.not_mem_nil, false_imp_iff, implies_true, hwords,
      not_false_eq_true, hno, ne_eq, hpast, false_or, true_and]

/-- The lines on which the shell keeps the heap discipline, when no allocation fails: no `|` in
the line, a word that is not that of a handler that frees its argument, nor one that is found
behind the end of `inst_list`, and arguments that fit. The arguments of a line without a space
are read behind it. -/
theorem iteration_respects_iff (hok : env.Allocates) (line : Line) (behind : List Char) :
    Respects (iteration env line behind).trace ↔
      '|' ∉ line.text ∧
      line.text.takeWhile (· ≠ ' ') ∉
        ["help".toList, "clear".toList, "test_malloc_free".toList] ∧
      (line.text.takeWhile (· ≠ ' ') ∈ instList ∨ line.text.takeWhile (· ≠ ' ') ≠ env.past) ∧
      (' ' ∈ line.text ∨
        (behind.takeWhile fun c => c ≠ '\x00' && c ≠ '\n').length < bufferSpace) := by
  rw [← readArgs_memory, ← pipePos_eq_none]
  cases hk : pipePos line.text with
  | none =>
    rw [respects_plain_iff hok behind hk]
    simp only [true_and]
  | some k =>
    refine ⟨fun hresp => ?_, fun hcond => absurd hcond.1 (Option.some_ne_none k)⟩
    obtain ⟨live, hrun⟩ := Option.isSome_iff_exists.mp hresp.heap
    exact absurd (free_start hrun (free_inside hok line behind hk)) (by omega)

end

theorem respects_ps : Respects (iteration ⟨fun _ => true, 2, fun _ => 5, [], [], id⟩
    ⟨"ps".toList, by decide, typed_of_all rfl⟩ []).trace :=
  (iteration_respects_iff (fun _ => rfl) _ _).mpr
    ⟨by decide, by decide, .inl (by decide), .inr (by decide)⟩

/-- `help` has its arguments freed twice, a pipe has an address inside the line buffer freed,
and a `|` in the first column a NUL written in front of it. -/
theorem breaks_discipline :
    let env : Env := ⟨fun _ => true, 2, fun _ => 5, [], [], id⟩
    env.Allocates ∧
    ¬ Respects (iteration env ⟨"help".toList, by decide, typed_of_all rfl⟩ []).trace ∧
    ¬ Respects (iteration env ⟨"cat | wc".toList, by decide, typed_of_all rfl⟩ []).trace ∧
    .write .line (-1) 1 ∈
      heapActs (iteration env ⟨"| wc".toList, by decide, typed_of_all rfl⟩ []).trace :=
  ⟨fun _ => rfl, fun h => absurd h.heap (by decide), fun h => absurd h.heap (by decide), by decide⟩

end SoKernel.Shell
