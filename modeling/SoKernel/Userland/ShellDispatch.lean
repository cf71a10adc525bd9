import Mathlib.Data.List.TakeWhile
import SoKernel.Userland.ShellTrace

/-!
# The dispatch of the shell

Results:
1. `Code.calls_sound`: what the outcomes of looking the two words of a line up say about the
   calls that follow.
2. `iteration_sound_iff`: the lines on which the dispatch is sound.
-/

namespace SoKernel.Shell

/-! ## Soundness -/

/-- The text typed for a command: the line up to its first `|`, or what comes after it. -/
def typedText (line : Line) : Side → List Char
  | .left => line.text.takeWhile (· ≠ '|')
  | .right => (line.text.dropWhile (· ≠ '|')).tail

/-- The word typed for a command. -/
def typedWord (line : Line) (s : Side) : List Char :=
  ((typedText line s).dropWhile (· = ' ')).takeWhile (· ≠ ' ')

/-- Sound reads and calls: `inst_list` is read inside its bounds, a call through
`instruction_handlers` finds a function at the position of the typed word, and a call through
`built_in_handlers` is that of the typed word, with no `|` in the line. -/
structure Sound (line : Line) (t : List Act) : Prop where
  list : ∀ i : Nat, .readList i ∈ t → i < instList.length
  handler : ∀ (s : Side) (i : Int), .callHandler s i ∈ t → ∃ (n : Nat) (h : Handler), i = n ∧
    instructionHandlers[n]? = some (some h) ∧ instList[n]? = some (typedWord line s)
  builtIn : ∀ i : Int, .callBuiltIn i ∈ t → ∃ (n : Nat) (b : BuiltIn), i = n ∧
    builtInHandlers[n]? = some b ∧ b.word = typedWord line .left
  pipe : '|' ∈ line.text → ∀ i : Int, .callBuiltIn i ∉ t

/-- The words of the commands with a handler. -/
def handlerWords : List (List Char) := instList.take 16

/-- `kill`, `block` and `unblock`. -/
def builtInWords : List (List Char) := instList.drop 16

/-- The lines whose dispatch is sound, by the words that are looked up for the two commands.
With a `|` neither may the left buffer alone be missing, nor the left command alone be
built-in, and where handlers are called the words read are those typed. -/
structure Dispatches (env : Env) (line : Line) (behind : List Char) : Prop where
  known : ∀ s w, lookedUp env line behind s = some w → w ∈ instList
  missing : lookedUp env line behind .left = none → lookedUp env line behind .right = none
  builtIn : ∀ w, lookedUp env line behind .left = some w → w ∈ builtInWords → '|' ∈ line.text →
    ∃ v ∈ builtInWords, lookedUp env line behind .right = some v
  single : ∀ w, lookedUp env line behind .left = some w → w ∈ handlerWords →
    lookedUp env line behind .right = none → '|' ∈ line.text → w = typedWord line .left
  piped : ∀ w v, lookedUp env line behind .left = some w → lookedUp env line behind .right = some v →
    w ∈ handlerWords → v ∈ handlerWords → 0 ≤ env.pipe →
    w = typedWord line .left ∧ v = typedWord line .right

variable {env : Env}

/-! ## The calls -/

/-- The clauses of `Sound` on the calls. -/
structure CallsSound (line : Line) (t : List Act) : Prop where
  handler : ∀ (s : Side) (i : Int), .callHandler s i ∈ t → ∃ (n : Nat) (h : Handler), i = n ∧
    instructionHandlers[n]? = some (some h) ∧ instList[n]? = some (typedWord line s)
  builtIn : ∀ i : Int, .callBuiltIn i ∈ t → ∃ (n : Nat) (b : BuiltIn), i = n ∧
    builtInHandlers[n]? = some b ∧ b.word = typedWord line .left
  pipe : '|' ∈ line.text → ∀ i : Int, .callBuiltIn i ∉ t

theorem callsSound_nil (line : Line) : CallsSound line [] where
  handler _ _ hmem := absurd hmem List.not_mem_nil
  builtIn _ hmem := absurd hmem List.not_mem_nil
  pipe _ _ := List.not_mem_nil

theorem callsSound_cons_handler {line : Line} {t : List Act} {s : Side} {n : Nat} {h : Handler}
    {w : List Char} (hat : instructionHandlers[n]? = some (some h)) (hw : instList[n]? = some w) :
    CallsSound line (.callHandler s n :: t) ↔ w = typedWord line s ∧ CallsSound line t := by
  constructor
  · intro hs
    obtain ⟨m, -, hm, -, hword⟩ := hs.handler s n List.mem_cons_self
    rw [Int.ofNat_inj] at hm
    subst hm
    refine ⟨Option.some.inj (hw.symm.trans hword), ?_, ?_, ?_⟩
    · exact fun s i hmem => hs.handler s i (List.mem_cons_of_mem _ hmem)
    · exact fun i hmem => hs.builtIn i (List.mem_cons_of_mem _ hmem)
    · exact fun hbar i hmem => hs.pipe hbar i (List.mem_cons_of_mem _ hmem)
  · rintro ⟨heq, hs⟩
    refine ⟨?_, ?_, ?_⟩
    · intro s' i hmem
      rcases List.mem_cons.mp hmem with hhead | htail
      · cases hhead
        exact ⟨n, h, rfl, hat, by rw [hw, heq]⟩
      · exact hs.handler s' i htail
    · intro i hmem
      exact hs.builtIn i ((List.mem_cons.mp hmem).resolve_left Act.noConfusion)
    · intro hbar i hmem
      exact hs.pipe hbar i ((List.mem_cons.mp hmem).resolve_left Act.noConfusion)

/-- A call in front of the table finds no function. -/
theorem not_callsSound_neg (line : Line) (s : Side) : ¬ CallsSound line [.callHandler s (-1)] := by
  intro hs
  obtain ⟨n, -, hn, -⟩ := hs.handler s (-1) List.mem_cons_self
  exact absurd hn (by omega)

theorem callsSound_builtIn {line : Line} {n : Nat} {b : BuiltIn}
    (hat : builtInHandlers[n]? = some b) :
    CallsSound line [.callBuiltIn n] ↔ '|' ∉ line.text ∧ b.word = typedWord line .left := by
  constructor
  · intro hs
    obtain ⟨m, b', hm, hat', hword⟩ := hs.builtIn n List.mem_cons_self
    rw [Int.ofNat_inj] at hm
    subst hm
    refine ⟨fun hbar => hs.pipe hbar n List.mem_cons_self, ?_⟩
    rwa [Option.some.inj (hat.symm.trans hat')]
  · rintro ⟨hbar, hword⟩
    refine ⟨?_, ?_, fun h => absurd h hbar⟩
    · intro s i hmem
      exact Act.noConfusion (List.mem_singleton.mp hmem)
    · intro i hmem
      cases List.mem_singleton.mp hmem
      exact ⟨n, b, rfl, hat, hword⟩

/-! ## The words of a line -/

/-- What a lookup has found, every word being in the list. -/
inductive Outcome (env : Env) : Option (List Char) → Int → Prop
  | missing : Outcome env none (-1)
  | handler {w : List Char} {n : Nat} (h : Handler) (hn : n < 16) (hw : instList[n]? = some w)
      (hat : instructionHandlers[n]? = some (some h)) : Outcome env (some w) n
  | builtIn {w : List Char} {n : Nat} (b : BuiltIn) (hn : 16 ≤ n) (hlt : n < 19)
      (hw : instList[n]? = some w) (hat : builtInHandlers[n - 16]? = some b) (hb : b.word = w) :
      Outcome env (some w) n

theorem handlerAt_eq_some {n : Nat} {h : Handler} (hat : handlerAt n = some h) :
    instructionHandlers[n]? = some (some h) := by
  rw [handlerAt, if_pos (Int.natCast_nonneg n), Int.toNat_natCast] at hat
  exact Option.join_eq_some_iff.mp hat

theorem outcome_code {o : Option (List Char)} (hknown : ∀ w, o = some w → w ∈ instList) :
    Outcome env o (code env o) := by
  cases o with
  | none => exact .missing
  | some w =>
    have hcode : Code env w (code env (some w)) := verifyInstruction_code w
    generalize code env (some w) = i at hcode ⊢
    cases hcode with
    | handler h hn hw hat hh => exact .handler h hn hw (handlerAt_eq_some hat)
    | builtIn b hn hlt hw hat hb => exact .builtIn b hn hlt hw hat hb
    | past hno => exact absurd (hknown w rfl) hno
    | unknown hno => exact absurd (hknown w rfl) hno

theorem mem_handlerWords {n : Nat} {w : List Char} (hn : n < 16) (hw : instList[n]? = some w) :
    w ∈ handlerWords := by
  refine List.mem_of_getElem? (i := n) ?_
  rw [handlerWords, List.getElem?_take_of_lt hn, hw]

theorem mem_builtInWords {n : Nat} {w : List Char} (hn : 16 ≤ n) (hw : instList[n]? = some w) :
    w ∈ builtInWords := by
  refine List.mem_of_getElem? (i := n - 16) ?_
  rw [builtInWords, List.getElem?_drop, Nat.add_sub_cancel' hn, hw]

theorem handlerWords_disjoint : ∀ w ∈ handlerWords, w ∉ builtInWords := by decide

/-- Without a `|` a known word is the word typed. -/
theorem lookedUp_plain {line : Line} {behind : List Char} (hbar : '|' ∉ line.text) {w : List Char}
    (hw : lookedUp env line behind .left = some w) (hknown : w ∈ instList) :
    w = typedWord line .left := by
  have htext : typedText line .left = line.text := by
    refine List.takeWhile_eq_self_iff.mpr fun c hc => decide_eq_true ?_
    rintro rfl
    exact hbar hc
  have hleft : leftMemory env line behind = line.memory behind := by
    rw [leftMemory, pipePos_eq_none.mpr hbar]
  rw [lookedUp, commandText, hleft, Option.map_some, instruction_memory] at hw
  split at hw
  · rw [← Option.some.inj hw] at hknown ⊢
    rw [typedWord, htext]
    cases ht : line.text with
    | nil => rfl
    | cons c rest =>
      by_cases hc : c = ' '
      · rw [ht] at hknown
        simp only [hc, ne_eq, not_true_eq_false, decide_false, List.takeWhile_cons,
          Bool.false_eq_true, if_false] at hknown
        exact absurd hknown (by decide)
      · simp [hc]
  · cases hw

/-- The right word of a line is looked up only when there is a `|`. -/
theorem bar_of_right {line : Line} {behind : List Char} {v : List Char}
    (hv : lookedUp env line behind .right = some v) : '|' ∈ line.text := by
  by_contra hbar
  rw [lookedUp, commandText, pipePos_eq_none.mpr hbar] at hv
  simp at hv

/-! ## Soundness of the dispatch -/

/-- The clauses of `Dispatches` on the calls, of the two words. -/
theorem callsSound_iff {line : Line} {o p : Option (List Char)} {i j : Int}
    (ho : Outcome env o i) (hp : Outcome env p j)
    (hplain : '|' ∉ line.text → ∀ w, o = some w → w = typedWord line .left)
    (hright : ∀ v, p = some v → '|' ∈ line.text) :
    CallsSound line (calls env i j) ↔
      (o = none → p = none) ∧
      (∀ w, o = some w → w ∈ builtInWords → '|' ∈ line.text → ∃ v ∈ builtInWords, p = some v) ∧
      (∀ w, o = some w → w ∈ handlerWords → p = none → '|' ∈ line.text →
        w = typedWord line .left) ∧
      (∀ w v, o = some w → p = some v → w ∈ handlerWords → v ∈ handlerWords → 0 ≤ env.pipe →
        w = typedWord line .left ∧ v = typedWord line .right) := by
  cases ho with
  | missing =>
    cases hp with
    | missing =>
      have hcalls : calls env (-1) (-1) = [] := rfl
      simp [hcalls, callsSound_nil]
    | @handler v m h hm hv hat =>
      have hcalls : calls env (-1) m = [.callHandler .left (-1)] := by
        simp [calls, isBuiltIn_neg]
      simp [hcalls, not_callsSound_neg]
    | @builtIn v m b hm hlt hv hat hb =>
      have hcalls : calls env (-1) m = [.callHandler .left (-1)] := by
        simp [calls, isBuiltIn_neg]
      simp [hcalls, not_callsSound_neg]
  | @handler w n h hn hw hat =>
    have hmem := mem_handlerWords hn hw
    have hno := handlerWords_disjoint w hmem
    cases hp with
    | missing =>
      have hcalls : calls env n (-1) = [.callHandler .left n] := by
        simp [calls, isBuiltIn_handler hn]
      rw [hcalls, callsSound_cons_handler hat hw]
      by_cases hbar : '|' ∈ line.text
      · simp [callsSound_nil, hmem, hno, hbar]
      · simp [callsSound_nil, hbar, ← hplain hbar w rfl]
    | @handler v m h' hm hv hat' =>
      have hmem' := mem_handlerWords hm hv
      have hno' := handlerWords_disjoint v hmem'
      by_cases hpipe : env.pipe < 0
      · have hcalls : calls env n m = [] := by
          simp [calls, isBuiltIn_handler hn, hpipe]
        simp [hcalls, callsSound_nil, hno, Int.not_le.mpr hpipe]
      · have hcalls : calls env n m = [.callHandler .left n, .callHandler .right m] := by
          simp [calls, isBuiltIn_handler hn, isBuiltIn_handler hm, hpipe]
        rw [hcalls, callsSound_cons_handler hat hw, callsSound_cons_handler hat' hv]
        simp [callsSound_nil, hno, hmem, hmem', Int.not_lt.mp hpipe]
    | @builtIn v m b hm hlt hv hat' hb =>
      have hmem' := mem_builtInWords hm hv
      have hno' : v ∉ handlerWords := fun h => handlerWords_disjoint v h hmem'
      have hcalls : calls env n m = [] := by
        simp [calls, isBuiltIn_handler hn, isBuiltIn_builtIn hm hlt]
      simp [hcalls, callsSound_nil, hno, hno']
  | @builtIn w n b hn hlt hw hat hb =>
    have hmem := mem_builtInWords hn hw
    have hno : w ∉ handlerWords := fun h => handlerWords_disjoint w h hmem
    have hcast : (n : Int) - kill = (n - 16 : Nat) := by
      rw [kill]
      omega
    cases hp with
    | missing =>
      have hcalls : calls env n (-1) = [.callBuiltIn (n - 16 : Nat)] := by
        rw [← hcast]
        simp [calls, isBuiltIn_builtIn hn hlt, isBuiltIn_neg]
      rw [hcalls, callsSound_builtIn hat]
      by_cases hbar : '|' ∈ line.text
      · simp [hmem, hbar]
      · simp [hbar, hb, ← hplain hbar w rfl]
    | @handler v m h hm hv hat' =>
      have hbar := hright v rfl
      have hno' := handlerWords_disjoint v (mem_handlerWords hm hv)
      have hcalls : calls env n m = [.callBuiltIn (n - 16 : Nat)] := by
        rw [← hcast]
        simp [calls, isBuiltIn_builtIn hn hlt, isBuiltIn_handler hm]
      rw [hcalls, callsSound_builtIn hat]
      simp [hmem, hbar, hno']
    | @builtIn v m b' hm hlt' hv hat' hb' =>
      have hmem' := mem_builtInWords hm hv
      have hcalls : calls env n m = [] := by
        simp [calls, isBuiltIn_builtIn hn hlt, isBuiltIn_builtIn hm hlt']
      simp [hcalls, callsSound_nil, hno, hmem']

/-- `inst_list` is read inside its bounds when every word looked up is in it. -/
theorem reads_bounded_iff (o : Option (List Char)) :
    (∀ i, .readList i ∈ reads env o → i < instList.length) ↔ ∀ w, o = some w → w ∈ instList := by
  cases o with
  | none => simp [reads]
  | some w => simp [reads, readList_verifyInstruction]

/-- The clauses of `Sound`, by the words looked up. -/
theorem sound_iff {line : Line} {behind : List Char} (hcmd : env.ok .cmd = true)
    (hline : env.ok .line = true) :
    Sound line (iteration env line behind).trace ↔
      (∀ s w, lookedUp env line behind s = some w → w ∈ instList) ∧
        CallsSound line (calls env (code env (lookedUp env line behind .left))
          (code env (lookedUp env line behind .right))) := by
  have hlist : (∀ i : Nat, .readList i ∈ (iteration env line behind).trace → i < instList.length) ↔
      ∀ s w, lookedUp env line behind s = some w → w ∈ instList := by
    simp only [readList_mem_iteration, hcmd, hline, true_and, forall_exists_index]
    rw [forall_comm]
    exact forall_congr' fun s => reads_bounded_iff _
  have hcall : ∀ a : Act, (∀ x, a ≠ .heap x) → (∀ i, a ≠ .readList i) →
      (a ∈ (iteration env line behind).trace ↔ a ∈ calls env (code env (lookedUp env line behind .left))
        (code env (lookedUp env line behind .right))) := by
    intro a hheap hread
    rw [call_mem_iteration hheap hread]
    simp only [hcmd, hline, true_and]
  have hhandler := fun s i =>
    hcall (.callHandler s i) (fun _ => Act.noConfusion) (fun _ => Act.noConfusion)
  have hbuiltIn := fun i =>
    hcall (.callBuiltIn i) (fun _ => Act.noConfusion) (fun _ => Act.noConfusion)
  constructor
  · intro hs
    refine ⟨hlist.mp hs.list, ?_, ?_, ?_⟩
    · exact fun s i hmem => hs.handler s i ((hhandler s i).mpr hmem)
    · exact fun i hmem => hs.builtIn i ((hbuiltIn i).mpr hmem)
    · exact fun hbar i hmem => hs.pipe hbar i ((hbuiltIn i).mpr hmem)
  · rintro ⟨hknown, hs⟩
    refine ⟨hlist.mpr hknown, ?_, ?_, ?_⟩
    · exact fun s i hmem => hs.handler s i ((hhandler s i).mp hmem)
    · exact fun i hmem => hs.builtIn i ((hbuiltIn i).mp hmem)
    · exact fun hbar i hmem => hs.pipe hbar i ((hbuiltIn i).mp hmem)

/-- The dispatch of a line is sound exactly when every word looked up is in `inst_list` and,
with a `|` in the line, neither the left buffer alone is missing nor the left command alone is
built-in, and the words read for the handlers that are called are those typed. -/
theorem iteration_sound_iff (env : Env) (line : Line) (behind : List Char) :
    Sound line (iteration env line behind).trace ↔
      (env.ok .cmd = true → env.ok .line = true → Dispatches env line behind) := by
  by_cases hok : env.ok .cmd = true ∧ env.ok .line = true
  · obtain ⟨hcmd, hline⟩ := hok
    have hcalls : (∀ s w, lookedUp env line behind s = some w → w ∈ instList) → _ := fun hknown =>
      callsSound_iff (@outcome_code env _ (hknown .left)) (@outcome_code env _ (hknown .right))
        (fun hbar w hw => lookedUp_plain hbar hw (hknown .left w hw)) (fun _ => bar_of_right)
    rw [sound_iff hcmd hline]
    constructor
    · rintro ⟨hknown, hs⟩ - -
      obtain ⟨hmissing, hbuiltIn, hsingle, hpiped⟩ := (hcalls hknown).mp hs
      exact ⟨hknown, hmissing, hbuiltIn, hsingle, hpiped⟩
    · intro hall
      obtain ⟨hknown, hmissing, hbuiltIn, hsingle, hpiped⟩ := hall hcmd hline
      exact ⟨hknown, (hcalls hknown).mpr ⟨hmissing, hbuiltIn, hsingle, hpiped⟩⟩
  · refine ⟨fun _ hcmd hline => absurd ⟨hcmd, hline⟩ hok, fun _ => ?_⟩
    have hno : ∀ a : Act, (∀ x, a ≠ .heap x) → a ∉ (iteration env line behind).trace := by
      intro a hheap hmem
      have hmoves : a ∈ moves (iteration env line behind).trace := mem_moves.mpr ⟨hmem, hheap⟩
      rw [moves_iteration, if_neg hok] at hmoves
      exact List.not_mem_nil hmoves
    refine ⟨?_, ?_, ?_, ?_⟩
    · exact fun i hmem => absurd hmem (hno _ fun _ => Act.noConfusion)
    · exact fun s i hmem => absurd hmem (hno _ fun _ => Act.noConfusion)
    · exact fun i hmem => absurd hmem (hno _ fun _ => Act.noConfusion)
    · exact fun _ i => hno _ fun _ => Act.noConfusion

/-- An unknown word and an empty one have the entry behind the end of `inst_list` read, a
built-in command is called although there is a `|`, and an unknown left command is called
through the entry in front of `instruction_handlers`. -/
theorem dispatches_wrongly :
    let env : Env := ⟨fun _ => true, 2, fun _ => 5, [], [], id⟩
    let line₁ : Line := ⟨"foo".toList, by decide, typed_of_all rfl⟩
    let line₂ : Line := ⟨"kill 5 | ps".toList, by decide, typed_of_all rfl⟩
    let line₃ : Line := ⟨"foo | ps".toList, by decide, typed_of_all rfl⟩
    ¬ Sound line₁ (iteration env line₁ []).trace ∧ ¬ Sound line₂ (iteration env line₂ []).trace ∧
      ¬ Sound line₃ (iteration env line₃ []).trace := by
  refine ⟨fun h => ?_, fun h => ?_, fun h => ?_⟩
  · exact absurd (h.list 19 (by decide)) (by decide)
  · exact h.pipe (by decide) 0 (by decide)
  · obtain ⟨n, -, hn, -⟩ := h.handler .left (-1) (by decide)
    exact absurd hn (by omega)

end SoKernel.Shell
