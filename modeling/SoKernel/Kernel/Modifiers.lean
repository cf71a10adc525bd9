import SoKernel.Lib.Run
import SoKernel.Kernel.Keystroke

/-!
# The keys that are held

The machine with the keyboard driver, next to the keys that are held. A scan code comes with
each press of a key, also of one that is held down, and with each release; between them the
machine makes any steps, so that processes read what is typed.

Results:
1. `stroke_release`, `stroke_char`: what the driver makes of the scan codes.
2. `tracks_iff`: the variables of the driver and the bytes in pipe 0 are right along a run
   exactly when no Shift is released while the other one is held, and the pipe takes each
   character.
-/

namespace SoKernel.Keyboard

/-! ## 1. Keys and scan codes -/

inductive Key
  | leftShift
  | rightShift
  | ctrl
  | capsLock
  /-- A key with an entry in `press_keys`. -/
  | char (code : UInt8)
deriving DecidableEq, Repr

/-- The scan code of a press. -/
def Key.pressCode : Key → UInt8
  | .leftShift => 0x2A
  | .rightShift => 0x36
  | .ctrl => 0x1D
  | .capsLock => 0x3A
  | .char code => code

/-- A key other than `char` is one of the others, and a key `char` has a character. -/
def Key.Valid : Key → Prop
  | .char code => code.toNat < f12Press ∧ code.toNat ∉ specialKeys ∧ pressKey code.toNat ≠ ⟨0, 0⟩
  | _ => True

instance : (key : Key) → Decidable key.Valid
  | .leftShift => .isTrue trivial
  | .rightShift => .isTrue trivial
  | .ctrl => .isTrue trivial
  | .capsLock => .isTrue trivial
  | .char _ => inferInstanceAs (Decidable (_ ∧ _ ∧ _))

inductive KeyEvent
  | press (key : Key)
  | release (key : Key)
deriving DecidableEq, Repr

/-- The scan code. That of a release is the one of the press with its highest bit set. -/
def KeyEvent.code : KeyEvent → UInt8
  | .press key => key.pressCode
  | .release key => key.pressCode + 0x80

/-- The keys that are held, and the state of Caps Lock. -/
structure Board where
  held : Key → Bool
  capsLock : Bool

namespace Board

def next (b : Board) : KeyEvent → Board
  | .press key => ⟨Function.update b.held key true, b.capsLock ^^ (key = .capsLock)⟩
  | .release key => { b with held := Function.update b.held key false }

def shiftHeld (b : Board) : Bool := b.held .leftShift || b.held .rightShift

/-- The symbol of a character key: Caps Lock is for the letters. -/
def symbol (b : Board) (code : UInt8) : Byte :=
  if b.shiftHeld ^^ (isAlpha code.toNat && b.capsLock) then (pressKey code.toNat).shiftAscii
  else (pressKey code.toNat).ascii

/-- No key is held. -/
def idle : Board := ⟨fun _ => false, false⟩

end Board

/-- The code of a character key that is pressed without Ctrl. -/
def KeyEvent.typed (b : Board) : KeyEvent → Option UInt8
  | .press (.char code) => if b.held .ctrl then none else some code
  | _ => none

/-- Only a key that is held is released. -/
def KeyEvent.Possible (b : Board) : KeyEvent → Prop
  | .press key => key.Valid
  | .release key => key.Valid ∧ b.held key = true

instance (b : Board) : (e : KeyEvent) → Decidable (e.Possible b)
  | .press key => inferInstanceAs (Decidable key.Valid)
  | .release _ => inferInstanceAs (Decidable (_ ∧ _))

/-- The driver and the machine, and the keys. -/
structure Scene where
  desk : Desk
  board : Board

inductive Input
  /-- A scan code. -/
  | scan (off : Nat) (e : KeyEvent)
  /-- A step of the machine. -/
  | machine (e : SoKernel.Event)
deriving DecidableEq, Repr

namespace Scene

def step (s : Scene) : Input → Option Scene
  | .scan off e => (Keyboard.step s.desk (.key off e.code)).map fun d => ⟨d, s.board.next e⟩
  | .machine e => (Keyboard.step s.desk (.machine e)).map fun d => { s with desk := d }

/-- Where the step goes, if it goes anywhere. -/
def next (s : Scene) (i : Input) : Scene := (s.step i).getD s

/-- The machine at boot, with no key held. -/
def boot (allocs : Nat → Bool) : Scene := ⟨⟨bootKeys, SoKernel.boot allocs⟩, .idle⟩

/-- A step of the run: the interrupt of the keyboard is taken in user code, and the machine and
the handling of a Ctrl combination do something that is defined. -/
def Possible (s : Scene) : Input → Prop
  | .scan off e => e.Possible s.board ∧ s.desk.m.cont s.desk.m.cpu = .user ∧
      (s.board.held .ctrl = true → (s.step (.scan off e)).isSome = true)
  | .machine e => (s.step (.machine e)).isSome = true

instance (s : Scene) : (i : Input) → Decidable (s.Possible i)
  | .scan _ _ => inferInstanceAs (Decidable (_ ∧ _ ∧ (_ → _)))
  | .machine _ => inferInstanceAs (Decidable (_ = true))

/-- After the scan code `e` the variables show the keys held, and a character key without Ctrl
has appended the symbol of the key to pipe 0. -/
structure Follows (s : Scene) (e : KeyEvent) (s' : Scene) : Prop where
  shift : s'.desk.keys.shift = s'.board.shiftHeld
  ctrl : s'.desk.keys.ctrlPressed = s'.board.held .ctrl
  written : ∀ code, e.typed s.board = some code →
    unread s'.desk.m.k = unread s.desk.m.k ++ [s.board.symbol code]

/-- Each scan code is handled, and followed. -/
def Tracks (s : Scene) : Input → Prop
  | .scan off e => ∃ s', s.step (.scan off e) = some s' ∧ s.Follows e s'
  | .machine _ => True

end Scene

/-- The variables of the driver after a scan code. -/
def keysAfter (keys : Keys) (e : KeyEvent) : Keys := (stroke keys e.code.toNat).1

/-- A Shift is not released while the other one is held. -/
def OneShift (b : Board) : KeyEvent → Prop
  | .release .leftShift => b.held .rightShift = false
  | .release .rightShift => b.held .leftShift = false
  | _ => True

instance (b : Board) : (e : KeyEvent) → Decidable (OneShift b e)
  | .press _ => .isTrue trivial
  | .release .leftShift => inferInstanceAs (Decidable (_ = _))
  | .release .rightShift => inferInstanceAs (Decidable (_ = _))
  | .release .ctrl => .isTrue trivial
  | .release .capsLock => .isTrue trivial
  | .release (.char _) => .isTrue trivial

/-- That, and pipe 0 takes the character of a character key without Ctrl. -/
def Scene.Sound (s : Scene) : Input → Prop
  | .scan _ e => OneShift s.board e ∧ ((e.typed s.board).isSome = true → TakesByte s.desk.m.k)
  | .machine _ => True

instance (s : Scene) : (i : Input) → Decidable (s.Sound i)
  | .scan _ _ => inferInstanceAs (Decidable (_ ∧ (_ → _)))
  | .machine _ => .isTrue trivial

section

variable {keys : Keys} {b : Board} {code : UInt8} {e : KeyEvent}

theorem release_notMem : ∀ c < f12Press, c ∉ specialKeys → c + 0x80 ∉ specialKeys := by
  decide

/-- The release of a character key does nothing. -/
theorem stroke_release (hvalid : (Key.char code).Valid) :
    stroke keys (KeyEvent.release (.char code)).code.toNat = (keys, .nothing) := by
  obtain ⟨hlt, hspecial, -⟩ := hvalid
  have hcode : (KeyEvent.release (.char code)).code.toNat = code.toNat + 0x80 := by
    have hadd : (code + 0x80).toNat = (code.toNat + 0x80) % 256 := UInt8.toNat_add code 0x80
    rw [f12Press] at hlt
    exact hadd.trans (Nat.mod_eq_of_lt (by omega))
  have hge : ¬ code.toNat + 0x80 < f12Press := by
    rw [f12Press]
    omega
  rw [hcode, stroke, checkSpecialKeys, if_neg (release_notMem _ hlt hspecial)]
  simp only [decide_eq_false hge, Bool.and_false]
  rfl

/-- A character key leaves the variables alone, and writes a character without Ctrl. -/
theorem stroke_char (keys : Keys) (hvalid : (Key.char code).Valid) :
    (stroke keys code.toNat).1 = keys ∧ (keys.ctrlPressed = false → stroke keys code.toNat =
      (keys, .char (if keys.shift ^^ (isAlpha code.toNat && keys.caps) then
        (pressKey code.toNat).shiftAscii else (pressKey code.toNat).ascii))) := by
  obtain ⟨hlt, hspecial, -⟩ := hvalid
  have hchoice : ((isAlpha code.toNat && (keys.caps ^^ keys.shift)) ||
      (!isAlpha code.toNat && keys.shift)) = (keys.shift ^^ (isAlpha code.toNat && keys.caps)) := by
    cases isAlpha code.toNat <;> cases keys.caps <;> cases keys.shift <;> rfl
  rw [stroke, checkSpecialKeys, if_neg hspecial]
  simp only [Bool.not_false, decide_eq_true hlt, Bool.and_self, if_true, hchoice]
  constructor
  · split
    · rfl
    · split
      · rfl
      · split <;> rfl
  · intro hctrl
    rw [hctrl]
    simp only [Bool.false_and, Bool.false_eq_true, if_false]
    split <;> rfl

/-- What each event does to the variables. -/
def Keys.after (keys : Keys) : KeyEvent → Keys
  | .press .leftShift => { keys with shift := true }
  | .press .rightShift => { keys with shift := true }
  | .press .ctrl => { keys with ctrlPressed := true }
  | .press .capsLock => { keys with caps := !keys.caps }
  | .release .leftShift => { keys with shift := false }
  | .release .rightShift => { keys with shift := false }
  | .release .ctrl => { keys with ctrlPressed := false }
  | _ => keys

theorem keysAfter_eq (keys : Keys) (hp : e.Possible b) : keysAfter keys e = keys.after e := by
  cases e with
  | press key =>
    cases key with
    | char code => exact (stroke_char keys hp).1
    | leftShift => rfl
    | rightShift => rfl
    | ctrl => rfl
    | capsLock => rfl
  | release key =>
    cases key with
    | char code => exact congrArg Prod.fst (stroke_release hp.1)
    | leftShift => rfl
    | rightShift => rfl
    | ctrl => rfl
    | capsLock => rfl

/-! ## 2. The keys held -/

/-- The variables of the driver show the keys that are held. -/
structure Shows (keys : Keys) (b : Board) : Prop where
  shift : keys.shift = b.shiftHeld
  ctrl : keys.ctrlPressed = b.held .ctrl
  caps : keys.caps = b.capsLock

/-- A character key without Ctrl is one for its symbol. -/
theorem Shows.stroke_typed (h : Shows keys b) (hp : e.Possible b) (ht : e.typed b = some code) :
    stroke keys e.code.toNat = (keys, .char (b.symbol code)) := by
  cases e with
  | press key =>
    cases key with
    | char c =>
      have hctrl : b.held .ctrl = false ∧ c = code := by
        cases hheld : b.held .ctrl <;> simp_all [KeyEvent.typed]
      obtain ⟨hctrl, rfl⟩ := hctrl
      have hstroke := (stroke_char keys hp).2 (h.ctrl.trans hctrl)
      rw [h.shift, h.caps] at hstroke
      exact hstroke
    | leftShift => cases ht
    | rightShift => cases ht
    | ctrl => cases ht
    | capsLock => cases ht
  | release key => cases ht

/-- Any other scan code writes nothing as long as Ctrl is not held. -/
theorem stroke_untyped (keys : Keys) (hp : e.Possible b) (ht : e.typed b = none)
    (hctrl : b.held .ctrl = false) :
    (stroke keys e.code.toNat).2 = .nothing := by
  cases e with
  | press key =>
    cases key with
    | char c => simp [KeyEvent.typed, hctrl] at ht
    | leftShift => rfl
    | rightShift => rfl
    | ctrl => rfl
    | capsLock => rfl
  | release key =>
    cases key with
    | char c => exact congrArg Prod.snd (stroke_release hp.1)
    | leftShift => rfl
    | rightShift => rfl
    | ctrl => rfl
    | capsLock => rfl

/-- Ctrl and Caps Lock are followed, and of the Shifts the press. -/
theorem Shows.after (h : Shows keys b) (hone : OneShift b e) :
    Shows (keys.after e) (b.next e) := by
  obtain ⟨hshift, hctrl, hcaps⟩ := h
  rw [Board.shiftHeld] at hshift
  cases e with
  | press key =>
    cases key <;>
      exact ⟨by simp [Keys.after, Board.next, Board.shiftHeld, hshift],
        by simp [Keys.after, Board.next, hctrl], by simp [Keys.after, Board.next, hcaps]⟩
  | release key =>
    cases key <;>
      exact ⟨by simp_all [Keys.after, Board.next, Board.shiftHeld, OneShift],
        by simp [Keys.after, Board.next, hctrl], by simp [Keys.after, Board.next, hcaps]⟩

/-- A Shift that is released while the other one is held is not followed. -/
theorem OneShift.of_after (h : (keys.after e).shift = (b.next e).shiftHeld) : OneShift b e := by
  cases e with
  | press key => trivial
  | release key =>
    cases key with
    | leftShift => simpa [Keys.after, Board.next, Board.shiftHeld, OneShift] using h.symm
    | rightShift => simpa [Keys.after, Board.next, Board.shiftHeld, OneShift] using h.symm
    | ctrl => trivial
    | capsLock => trivial
    | char code => trivial

end

section

variable {s s' : Scene} {e : KeyEvent} {i : Input} {code : UInt8} {off : Nat}

/-- What is there after a scan code. -/
theorem scan_cases (h : s.step (.scan off e) = some s') :
    s'.desk.keys = keysAfter s.desk.keys e ∧ s'.board = s.board.next e := by
  obtain ⟨d, hd, rfl⟩ := Option.map_eq_some_iff.mp h
  refine ⟨?_, rfl⟩
  have hd : (if s.desk.m.cont s.desk.m.cpu = .user then bufferWrite s.desk off e.code else none) =
      some d := hd
  split at hd
  · unfold bufferWrite at hd
    dsimp only at hd
    split at hd
    · cases hd
      rfl
    · obtain ⟨m, -, rfl⟩ := Option.map_eq_some_iff.mp hd
      rfl
    · obtain ⟨m, -, rfl⟩ := Option.map_eq_some_iff.mp hd
      rfl
  · cases hd

/-- A character key without Ctrl. -/
theorem scan_typed (h : Shows s.desk.keys s.board) (hp : s.Possible (.scan off e))
    (ht : e.typed s.board = some code) :
    s.step (.scan off e) = (addToBuffer s.desk.m off (s.board.symbol code)).map
      fun m => ⟨⟨s.desk.keys, m⟩, s.board.next e⟩ := by
  have hstroke := h.stroke_typed hp.1 ht
  simp only [Scene.step, Keyboard.step, if_pos hp.2.1, bufferWrite, hstroke, Option.map_map]
  rfl

/-- The handling of any other scan code is defined. -/
theorem scan_untyped (hp : s.Possible (.scan off e)) (ht : e.typed s.board = none) :
    ∃ s', s.step (.scan off e) = some s' := by
  cases hctrl : s.board.held .ctrl with
  | true => exact Option.isSome_iff_exists.mp (hp.2.2 hctrl)
  | false =>
    have hstroke := stroke_untyped s.desk.keys hp.1 ht hctrl
    simp only [Scene.step, Keyboard.step, if_pos hp.2.1, bufferWrite, hstroke]
    exact ⟨_, rfl⟩

/-- What is true in every state of a run. -/
structure Scene.Inv (s : Scene) : Prop where
  driver : Shows s.desk.keys s.board
  pipe : ShellPipe s.desk.m.k

theorem Scene.Inv.follows_iff (I : s.Inv) (hp : s.Possible (.scan off e)) :
    s.Tracks (.scan off e) ↔ s.Sound (.scan off e) := by
  have hafter := keysAfter_eq s.desk.keys hp.1
  constructor
  · rintro ⟨s', hs, hf⟩
    obtain ⟨hkeys, hboard⟩ := scan_cases hs
    refine ⟨@OneShift.of_after s.desk.keys s.board e ?_, fun ht => ?_⟩
    · rw [← hafter, ← hkeys, ← hboard]
      exact hf.shift
    · obtain ⟨code, ht⟩ := Option.isSome_iff_exists.mp ht
      rw [scan_typed I.driver hp ht] at hs
      obtain ⟨m, hm, rfl⟩ := Option.map_eq_some_iff.mp hs
      exact (addToBuffer_appends_iff I.pipe off _).mp ⟨m, hm, hf.written code ht⟩
  · rintro ⟨hone, htakes⟩
    have hshows := I.driver.after hone
    rw [← hafter] at hshows
    cases ht : e.typed s.board with
    | none =>
      obtain ⟨s', hs⟩ := scan_untyped hp ht
      obtain ⟨hkeys, hboard⟩ := scan_cases hs
      rw [← hkeys, ← hboard] at hshows
      exact ⟨s', hs, hshows.shift, hshows.ctrl, fun code hcode => by cases ht.symm.trans hcode⟩
    | some code =>
      obtain ⟨m, hm, hwritten⟩ :=
        (addToBuffer_appends_iff I.pipe off (s.board.symbol code)).mpr (htakes (by rw [ht]; rfl))
      have hs := scan_typed I.driver hp ht
      rw [hm] at hs
      obtain ⟨hkeys, hboard⟩ := scan_cases hs
      rw [← hkeys, ← hboard] at hshows
      refine ⟨_, hs, hshows.shift, hshows.ctrl, fun code' hcode => ?_⟩
      obtain rfl := Option.some.inj (ht.symm.trans hcode)
      exact hwritten

theorem Scene.Inv.next (I : s.Inv) (hp : s.Possible i) (ht : s.Tracks i) : (s.next i).Inv := by
  cases i with
  | machine e =>
    obtain ⟨s', hs⟩ := Option.isSome_iff_exists.mp hp
    rw [Scene.next, hs]
    obtain ⟨d, hd, rfl⟩ := Option.map_eq_some_iff.mp hs
    refine ⟨?_, step_shell I.pipe hd⟩
    have hkeys : d.keys = s.desk.keys := by
      cases e with
      | ctrlC off => cases hd
      | tick off => obtain ⟨m, -, rfl⟩ := Option.map_eq_some_iff.mp hd; rfl
      | call off c => obtain ⟨m, -, rfl⟩ := Option.map_eq_some_iff.mp hd; rfl
      | resume off => obtain ⟨m, -, rfl⟩ := Option.map_eq_some_iff.mp hd; rfl
    exact hkeys ▸ I.driver
  | scan off e =>
    have hshows := I.driver.after ((I.follows_iff hp).mp ht).1
    obtain ⟨s', hs, -⟩ := ht
    obtain ⟨hkeys, hboard⟩ := scan_cases hs
    rw [← keysAfter_eq s.desk.keys hp.1, ← hkeys, ← hboard] at hshows
    rw [Scene.next, hs]
    obtain ⟨d, hd, rfl⟩ := Option.map_eq_some_iff.mp hs
    exact ⟨hshows, step_shell I.pipe hd⟩

/-- Along a run from boot, with processes that do anything, the variables of the driver show the
keys held and each character key without Ctrl appends its symbol to pipe 0, exactly when no Shift
is released while the other one is held and pipe 0 takes each of the characters. -/
theorem tracks_iff (allocs : Nat → Bool) (is : List Input)
    (hp : Along Scene.next Scene.Possible (.boot allocs) is) :
    Along Scene.next Scene.Tracks (.boot allocs) is ↔
      Along Scene.next Scene.Sound (.boot allocs) is := by
  refine Along.iff Scene.Inv _ ⟨⟨rfl, rfl, rfl⟩, boot_shell allocs⟩ hp ?_ ?_
  · intro s i I hi
    cases i with
    | scan off e => exact I.follows_iff hi
    | machine e => exact .rfl
  · exact fun s i I hi ht => I.next hi ht

end

/-- The shell reads a capital letter typed with one Shift; one with the other Shift and one
without wait for it. -/
def letters : List Input :=
  [.machine (.tick 0), .scan 0 (.press .leftShift), .scan 0 (.press (.char 0x1E)),
    .scan 0 (.release .leftShift), .machine (.call 0 (.readPipe 0 1)), .machine (.resume 0),
    .machine (.resume 0), .machine (.resume 0), .machine (.resume 0),
    .scan 0 (.press .rightShift), .scan 0 (.press (.char 0x1E)), .scan 0 (.release .rightShift),
    .scan 0 (.release (.char 0x1E)), .scan 0 (.press (.char 0x30))]

theorem tracks_iff_letters :
    Along Scene.next Scene.Tracks (.boot fun _ => true) letters ∧
      unread (letters.foldl Scene.next (.boot fun _ => true)).desk.m.k = [65, 98] :=
  ⟨(tracks_iff _ _ (by decide +kernel)).mpr (by decide +kernel), by decide +kernel⟩

/-- The left Shift is held, and the right one is pressed and released: an `a` is then written as a
small one. -/
theorem shift_lost :
    let es : List Input := [.scan 0 (.press .leftShift), .scan 0 (.press .rightShift),
      .scan 0 (.release .rightShift), .scan 0 (.press (.char 0x1E))]
    Along Scene.next Scene.Possible (.boot fun _ => true) es ∧
      ¬ Along Scene.next Scene.Tracks (.boot fun _ => true) es ∧
      unread (es.foldl Scene.next (.boot fun _ => true)).desk.m.k = [97] := by
  refine ⟨by decide +kernel, ?_, by decide +kernel⟩
  rintro ⟨-, -, ⟨s', hs, hf⟩, -⟩
  obtain ⟨hkeys, hboard⟩ := scan_cases hs
  have hshift := hf.shift
  rw [hkeys, hboard] at hshift
  exact absurd hshift (by decide +kernel)

end SoKernel.Keyboard
