import SoKernel.Lib.OnePlace
import SoKernel.Lib.Run
import SoKernel.Kernel.State

/-!
# The MVar of two pipes

`mvar_writer_entry` and `mvar_reader_entry` of `shell/haskell.c`, for any finite number of
processes over two pipes that are lossless channels: a call transfers one byte and returns 1,
waits, or transfers nothing and returns 0, on which the source takes its error branches. (The
calls return `uint64_t`, so that `<= 0` is `== 0`.) A process takes its steps one call at a
time, and may be killed before any of them.

Results:
1. `Inv.step`: every step keeps the conservation of the byte, the history of the data pipe
   as a one-place cell, and the account of what has been printed.
2. `reach_mvar`: at most one value at a time, puts and takes alternate, and a printed value
   was written once and is printed once.
-/

namespace SoKernel.Mvar

/-! ## The processes -/

/-- `MAX_READER_COLORS` -/
def maxReaderColors : Nat := 7

/-- The yields of `active_wait_random`. -/
def iters (seed : Nat) : Nat := (seed % 5 + 1) * 50

/-- A value in the data pipe, with the number of its write, which no process reads. -/
structure Item where
  value : Byte
  serial : Nat
deriving DecidableEq, Repr

/-- Where a writer stands. -/
inductive WriterPc
  /-- In `active_wait_random`, with so many yields to go. -/
  | waiting (n : Nat)
  /-- Before `syscall_read(token_pipe, &dummy, 1)`. -/
  | acquire
  /-- Before `syscall_write(data_pipe, &val, 1)`. -/
  | put
  /-- Before `syscall_write(token_pipe, &one, 1)`, the write of the value having failed. -/
  | giveBack
  /-- Before the `syscall_yield` of an error branch. -/
  | retry
  | returned
deriving DecidableEq, Repr

/-- Where a reader stands. -/
inductive ReaderPc
  | waiting (n : Nat)
  /-- Before `syscall_read(data_pipe, &v, 1)`. -/
  | take
  /-- Before `printfc(color, "%c", v)`. -/
  | print (v : Item)
  /-- Before `syscall_write(token_pipe, &one, 1)`. -/
  | release
  | retry
  | returned
deriving DecidableEq, Repr

/-- A process with the arguments it parses and the point it has reached. -/
inductive Proc
  | writer (val : Byte) (seed : Nat) (pc : WriterPc)
  | reader (colorIdx seed : Nat) (pc : ReaderPc)
deriving DecidableEq, Repr

/-- The entry of `mvar_writer_entry`. -/
def writerEntry (argc : Nat) (val : Byte) (seed : Nat) : Proc :=
  .writer val seed (if argc < 4 then .returned else .waiting (iters seed))

/-- The seed a reader waits with. -/
def readerSeed (seed : Nat) : Nat := (seed + 7) % 2 ^ 64

/-- The entry of `mvar_reader_entry`. -/
def readerEntry (argc colorIdx seed : Nat) : Proc :=
  .reader colorIdx seed (if argc < 4 then .returned else .waiting (iters (readerSeed seed)))

/-- What `printfc` shows: the value and the index of the color. -/
structure Print where
  color : Nat
  item : Item
deriving DecidableEq, Repr

/-! ## The system -/

/-- The two pipes and the processes. The rest is history: the number of writes, what has
been put into the data pipe and taken, what has been printed, and the tokens that a failed
write has lost. -/
structure St (ι : Type) where
  procs : ι → Proc
  alive : ι → Bool
  data : List Item
  tokens : List Byte
  serials : Nat
  moves : List (CellAct ι Item)
  printed : List (ι × Print)
  lost : Nat

inductive Event (ι : Type)
  /-- A process makes its next call, which succeeds or returns 0. -/
  | run (i : ι) (ok : Bool)
  | kill (i : ι)

section

variable {ι : Type} [DecidableEq ι]

def St.goto (s : St ι) (i : ι) (p : Proc) : St ι :=
  { s with procs := Function.update s.procs i p }

/-- A process writes a token. -/
def St.writeToken (s : St ι) (ok : Bool) : Option (St ι) :=
  if ok then
    if s.tokens.length < pipeBufferSize then some { s with tokens := s.tokens ++ [1] } else none
  else some { s with lost := s.lost + 1 }

/-- The next call of a writer; `none` while it waits. -/
def stepWriter (s : St ι) (i : ι) (val : Byte) (seed : Nat) (ok : Bool) : WriterPc → Option (St ι)
  | .waiting 0 => some (s.goto i (.writer val seed .acquire))
  | .waiting (n + 1) => some (s.goto i (.writer val seed (.waiting n)))
  | .acquire =>
    if ok then
      match s.tokens with
      | [] => none
      | _ :: rest => some ({ s with tokens := rest }.goto i (.writer val seed .put))
    else some (s.goto i (.writer val seed .retry))
  | .put =>
    if ok then
      if s.data.length < pipeBufferSize then
        let v : Item := ⟨val, s.serials⟩
        some ({ s with
          data := s.data ++ [v], serials := s.serials + 1, moves := .put i v :: s.moves }.goto i
            (.writer val seed (.waiting (iters seed))))
      else none
    else some (s.goto i (.writer val seed .giveBack))
  | .giveBack => (s.writeToken ok).map fun s => s.goto i (.writer val seed .retry)
  | .retry => some (s.goto i (.writer val seed (.waiting (iters seed))))
  | .returned => none

/-- The next call of a reader; `none` while it waits. -/
def stepReader (s : St ι) (i : ι) (colorIdx seed : Nat) (ok : Bool) : ReaderPc → Option (St ι)
  | .waiting 0 => some (s.goto i (.reader colorIdx seed .take))
  | .waiting (n + 1) => some (s.goto i (.reader colorIdx seed (.waiting n)))
  | .take =>
    if ok then
      match s.data with
      | [] => none
      | v :: rest =>
        some ({ s with data := rest, moves := .take i v :: s.moves }.goto i
          (.reader colorIdx seed (.print v)))
    else some (s.goto i (.reader colorIdx seed .retry))
  | .print v =>
    some ({ s with printed := (i, ⟨colorIdx % maxReaderColors, v⟩) :: s.printed }.goto i
      (.reader colorIdx seed .release))
  | .release =>
    (s.writeToken ok).map fun s => s.goto i (.reader colorIdx seed
      (if ok then .waiting (iters (readerSeed seed)) else .retry))
  | .retry => some (s.goto i (.reader colorIdx seed (.waiting (iters (readerSeed seed)))))
  | .returned => none

def step (s : St ι) : Event ι → Option (St ι)
  | .run i ok =>
    if s.alive i then
      match s.procs i with
      | .writer val seed pc => stepWriter s i val seed ok pc
      | .reader colorIdx seed pc => stepReader s i colorIdx seed ok pc
    else none
  | .kill i => some { s with alive := Function.update s.alive i false }

/-- Processes at their entry over an empty data pipe and a token. -/
def start (procs : ι → Proc) : St ι where
  procs := procs
  alive _ := true
  data := []
  tokens := [1]
  serials := 0
  moves := []
  printed := []
  lost := 0

/-- Every process is at the entry of its function. -/
def AtEntry (procs : ι → Proc) : Prop :=
  ∀ i, (∃ argc val seed, procs i = writerEntry argc val seed) ∨
    ∃ argc colorIdx seed, procs i = readerEntry argc colorIdx seed

/-- The states reached from processes at their entry, in any order of steps and with any of
them killed at any point. -/
def Reach (procs : ι → Proc) (s : St ι) : Prop :=
  AtEntry procs ∧ Run step Run.anyEvent (start procs) s

end

/-! ## The invariant -/

/-- The process has taken a byte and not yet put its counterpart. -/
def Proc.holds : Proc → Nat
  | .writer _ _ .put => 1
  | .writer _ _ .giveBack => 1
  | .reader _ _ (.print _) => 1
  | .reader _ _ .release => 1
  | _ => 0

/-- The process is about to print a value that satisfies `q`. -/
def Proc.inHand {ι : Type} (q : ι → Item → Bool) (i : ι) : Proc → Nat
  | .reader _ _ (.print v) => if q i v then 1 else 0
  | _ => 0

open CellHistory

section

variable {ι : Type} [DecidableEq ι] [Fintype ι] {s s' : St ι} {i : ι} {p : Proc} {ok : Bool}
  {val : Byte} {seed colorIdx : Nat} {e : Event ι} {rest : List Item} {v : Item}

/-- The processes between a byte taken and its counterpart, killed ones with them. -/
def St.holding (s : St ι) : Nat := ∑ i, (s.procs i).holds

/-- The values printed that satisfy `q`. -/
def St.prints (s : St ι) (q : ι → Item → Bool) : Nat :=
  s.printed.countP fun r => q r.1 r.2.item

structure Inv (s : St ι) : Prop where
  conserved : s.tokens.length + s.data.length + s.holding + s.lost = 1
  /-- The data pipe is a cell. -/
  history : ∃ c, CellHistory s.moves c ∧ s.data = c.toList
  serials : ∀ n, puts (fun _ v => v.serial = n) s.moves = if n < s.serials then 1 else 0
  /-- What a reader has taken it has printed, or is about to. -/
  printed : ∀ q : ι → Item → Bool,
    s.prints q + ∑ i, (s.procs i).inHand q i = takes q s.moves

theorem holding_goto (s : St ι) (i : ι) (p : Proc) :
    (s.goto i p).holding + (s.procs i).holds = s.holding + p.holds :=
  sum_update (fun _ p => p.holds) s.procs i p

theorem inHand_goto (s : St ι) (i : ι) (p : Proc) (q : ι → Item → Bool) :
    ∑ j, ((s.goto i p).procs j).inHand q j + (s.procs i).inHand q i =
      ∑ j, (s.procs j).inHand q j + p.inHand q i :=
  sum_update (fun j p => p.inHand q j) s.procs i p

/-- A process goes on that holds what it held. -/
theorem Inv.quiet (I : Inv s) (hp : p.holds = (s.procs i).holds)
    (hq : ∀ q, p.inHand q i = (s.procs i).inHand q i) : Inv (s.goto i p) where
  conserved := by
    have hsum := holding_goto s i p
    rw [hp] at hsum
    rw [Nat.add_right_cancel hsum]
    exact I.conserved
  history := I.history
  serials := I.serials
  printed q := by
    have hsum := inHand_goto s i p q
    rw [hq] at hsum
    rw [Nat.add_right_cancel hsum]
    exact I.printed q

/-- A byte goes from a pipe to a process, or the other way, or is lost. -/
theorem Inv.moves_token (I : Inv s) {tokens : List Byte} {lost : Nat}
    (ht : tokens.length + lost + p.holds = s.tokens.length + s.lost + (s.procs i).holds)
    (hp : ∀ q, p.inHand q i = 0) (hq : ∀ q, (s.procs i).inHand q i = 0) :
    Inv ({ s with tokens := tokens, lost := lost }.goto i p) where
  conserved := by
    have hsum := holding_goto { s with tokens := tokens, lost := lost } i p
    have hc := I.conserved
    have heq : ({ s with tokens := tokens, lost := lost } : St ι).holding = s.holding := rfl
    rw [heq] at hsum
    dsimp only [St.goto] at *
    omega
  history := I.history
  serials := I.serials
  printed q := by
    have hsum := inHand_goto { s with tokens := tokens, lost := lost } i p q
    rw [hp, hq, add_zero, add_zero] at hsum
    rw [hsum]
    exact I.printed q

omit [DecidableEq ι] in
/-- A writer holds the token, so that no value is in the pipe. -/
theorem Inv.data_nil (I : Inv s) (hp : (s.procs i).holds = 1) : s.data = [] := by
  have hle : (s.procs i).holds ≤ s.holding :=
    Finset.single_le_sum (f := fun j => (s.procs j).holds) (fun _ _ => Nat.zero_le _)
      (Finset.mem_univ i)
  have hc := I.conserved
  exact List.eq_nil_of_length_eq_zero (by omega)

theorem Inv.put (I : Inv s) (hi : s.procs i = .writer val seed .put) (hp : p.holds = 0)
    (hq : ∀ q, p.inHand q i = 0) (hv : v = ⟨val, s.serials⟩) :
    Inv ({ s with
      data := s.data ++ [v], serials := s.serials + 1, moves := .put i v :: s.moves }.goto i p) := by
  have hone : (s.procs i).holds = 1 := by rw [hi]; rfl
  have hnil := I.data_nil hone
  refine ⟨?_, ?_, fun n => ?_, fun q => ?_⟩
  · have hsum := holding_goto { s with
      data := s.data ++ [v], serials := s.serials + 1, moves := .put i v :: s.moves } i p
    have hc := I.conserved
    rw [hp] at hsum
    have hsum : _ + (s.procs i).holds = s.holding + 0 := hsum
    simp only [St.goto, List.length_append, List.length_singleton] at *
    omega
  · obtain ⟨c, hh, hc⟩ := I.history
    rw [hnil] at hc
    cases c with
    | none => exact ⟨some v, hh.put i v, by rw [St.goto, hnil]; rfl⟩
    | some x => cases hc
  · -- the write has the number that no write had
    show puts _ (.put i v :: s.moves) = if n < s.serials + 1 then 1 else 0
    rw [puts_put, I.serials, hv]
    rcases lt_trichotomy n s.serials with h | rfl | h
    · simp [h, Nat.lt_succ_of_lt h, Nat.ne_of_gt h]
    · simp
    · simp [Nat.not_lt_of_gt h, Nat.ne_of_lt h, Nat.not_lt.mpr (Nat.succ_le_of_lt h)]
  · have hsum := inHand_goto s i p q
    have hz : (s.procs i).inHand q i = 0 := by rw [hi]; rfl
    rw [hq, hz, add_zero, add_zero] at hsum
    show _ + ∑ j, ((s.goto i p).procs j).inHand q j = takes q (.put i v :: s.moves)
    rw [hsum, takes_put]
    exact I.printed q

theorem Inv.take (I : Inv s) (hi : s.procs i = .reader colorIdx seed .take)
    (hd : s.data = v :: rest) :
    Inv ({ s with data := rest, moves := .take i v :: s.moves }.goto i
      (.reader colorIdx seed (.print v))) := by
  refine ⟨?_, ?_, fun n => ?_, fun q => ?_⟩
  · have hsum := holding_goto { s with data := rest, moves := .take i v :: s.moves } i
      (.reader colorIdx seed (.print v))
    have hc := I.conserved
    have hsum : _ + (s.procs i).holds = s.holding + 1 := hsum
    rw [hi] at hsum
    rw [hd, List.length_cons] at hc
    simp only [St.goto, Proc.holds] at *
    omega
  · obtain ⟨c, hh, hc⟩ := I.history
    rw [hd] at hc
    cases c with
    | none => cases hc
    | some x =>
      obtain ⟨rfl, rfl⟩ := List.cons.inj hc
      exact ⟨none, hh.take i, rfl⟩
  · show puts _ (.take i v :: s.moves) = if n < s.serials then 1 else 0
    rw [puts_take]
    exact I.serials n
  · have hsum := inHand_goto s i (.reader colorIdx seed (.print v)) q
    have hz : (s.procs i).inHand q i = 0 := by rw [hi]; rfl
    rw [hz, add_zero] at hsum
    show _ + ∑ j, ((s.goto i (.reader colorIdx seed (.print v))).procs j).inHand q j =
      takes q (.take i v :: s.moves)
    rw [hsum, takes_take, ← I.printed q, ← add_assoc]
    rfl

theorem Inv.print (I : Inv s) (hi : s.procs i = .reader colorIdx seed (.print v)) :
    Inv ({ s with printed := (i, ⟨colorIdx % maxReaderColors, v⟩) :: s.printed }.goto i
      (.reader colorIdx seed .release)) := by
  have hone : (s.procs i).holds = 1 := by rw [hi]; rfl
  refine ⟨?_, I.history, I.serials, fun q => ?_⟩
  · have hsum := holding_goto
      { s with printed := (i, ⟨colorIdx % maxReaderColors, v⟩) :: s.printed } i
      (.reader colorIdx seed .release)
    have hsum : _ + (s.procs i).holds = s.holding + 1 := hsum
    rw [hone] at hsum
    rw [Nat.add_right_cancel hsum]
    exact I.conserved
  · have hsum := inHand_goto s i (.reader colorIdx seed .release) q
    have hv : (s.procs i).inHand q i = if q i v then 1 else 0 := by rw [hi]; rfl
    have hz : (Proc.reader colorIdx seed .release).inHand q i = 0 := rfl
    rw [hv, hz, add_zero] at hsum
    have hpr := I.printed q
    have hcons : St.prints
        { s with printed := (i, ⟨colorIdx % maxReaderColors, v⟩) :: s.printed } q =
        s.prints q + if q i v then 1 else 0 := List.countP_cons
    show St.prints { s with printed := (i, ⟨colorIdx % maxReaderColors, v⟩) :: s.printed } q +
      ∑ j, ((s.goto i (.reader colorIdx seed .release)).procs j).inHand q j = takes q s.moves
    rw [hcons, ← hpr, ← hsum]
    omega

/-- A token is written, or lost. -/
theorem Inv.writeToken (I : Inv s) (hs : s.writeToken ok = some s') (hi : (s.procs i).holds = 1)
    (hq : ∀ q, (s.procs i).inHand q i = 0) (hp : p.holds = 0) (hp' : ∀ q, p.inHand q i = 0) :
    Inv (s'.goto i p) := by
  unfold St.writeToken at hs
  split at hs
  · split at hs
    · obtain rfl := Option.some.inj hs
      refine I.moves_token ?_ hp' hq
      rw [List.length_append, List.length_singleton, hp, hi]
      omega
    · cases hs
  · obtain rfl := Option.some.inj hs
    refine I.moves_token ?_ hp' hq
    rw [hp, hi]
    omega

theorem Inv.stepWriter (I : Inv s) {pc : WriterPc} (hi : s.procs i = .writer val seed pc)
    (hs : stepWriter s i val seed ok pc = some s') : Inv s' := by
  have quiet : ∀ {pc' : WriterPc},
      (Proc.writer val seed pc').holds = (Proc.writer val seed pc).holds →
      Inv (s.goto i (.writer val seed pc')) := fun h => I.quiet (hi ▸ h) fun q => by rw [hi]; rfl
  have hhand : ∀ q, (s.procs i).inHand q i = 0 := fun q => by rw [hi]; rfl
  cases pc with
  | waiting n =>
    cases n with
    | zero => exact Option.some.inj hs ▸ quiet rfl
    | succ n => exact Option.some.inj hs ▸ quiet rfl
  | acquire =>
    rw [Mvar.stepWriter] at hs
    split at hs
    · split at hs
      · cases hs
      · next _ rest ht =>
        obtain rfl := Option.some.inj hs
        refine I.moves_token ?_ (fun _ => rfl) hhand
        rw [ht, hi, List.length_cons]
        simp only [Proc.holds]
        omega
    · exact Option.some.inj hs ▸ quiet rfl
  | put =>
    rw [Mvar.stepWriter] at hs
    split at hs
    · split at hs
      · exact Option.some.inj hs ▸ I.put hi rfl (fun _ => rfl) rfl
      · cases hs
    · exact Option.some.inj hs ▸ quiet rfl
  | giveBack =>
    obtain ⟨s1, h1, rfl⟩ := Option.map_eq_some_iff.mp hs
    exact I.writeToken h1 (by rw [hi]; rfl) hhand rfl fun _ => rfl
  | retry => exact Option.some.inj hs ▸ quiet rfl
  | returned => cases hs

theorem Inv.stepReader (I : Inv s) {pc : ReaderPc} (hi : s.procs i = .reader colorIdx seed pc)
    (hs : stepReader s i colorIdx seed ok pc = some s') : Inv s' := by
  cases pc with
  | waiting n =>
    cases n with
    | zero => exact Option.some.inj hs ▸ I.quiet (hi ▸ rfl) fun q => by rw [hi]; rfl
    | succ n => exact Option.some.inj hs ▸ I.quiet (hi ▸ rfl) fun q => by rw [hi]; rfl
  | take =>
    rw [Mvar.stepReader] at hs
    split at hs
    · split at hs
      · cases hs
      · next v rest hd => exact Option.some.inj hs ▸ I.take hi hd
    · exact Option.some.inj hs ▸ I.quiet (hi ▸ rfl) fun q => by rw [hi]; rfl
  | print v => exact Option.some.inj hs ▸ I.print hi
  | release =>
    obtain ⟨s1, h1, rfl⟩ := Option.map_eq_some_iff.mp hs
    refine I.writeToken h1 (by rw [hi]; rfl) (fun q => by rw [hi]; rfl) ?_ fun q => ?_
    · split <;> rfl
    · split <;> rfl
  | retry => exact Option.some.inj hs ▸ I.quiet (hi ▸ rfl) fun q => by rw [hi]; rfl
  | returned => cases hs

theorem Inv.step (I : Inv s) (hs : step s e = some s') : Inv s' := by
  cases e with
  | run i ok =>
    rw [Mvar.step] at hs
    split at hs
    · split at hs
      · next hi => exact I.stepWriter hi hs
      · next hi => exact I.stepReader hi hs
    · cases hs
  | kill i =>
    obtain rfl := Option.some.inj hs
    exact ⟨I.conserved, I.history, I.serials, I.printed⟩

omit [DecidableEq ι] in
theorem start_inv {procs : ι → Proc} (h : AtEntry procs) : Inv (start procs) := by
  have hentry : ∀ i, (procs i).holds = 0 ∧ ∀ q, (procs i).inHand q i = 0 := by
    intro i
    rcases h i with ⟨argc, val, seed, hi⟩ | ⟨argc, colorIdx, seed, hi⟩
    · rw [hi, writerEntry]
      split <;> exact ⟨rfl, fun _ => rfl⟩
    · rw [hi, readerEntry]
      split <;> exact ⟨rfl, fun _ => rfl⟩
  refine ⟨?_, ⟨none, .nil, rfl⟩, fun _ => rfl, fun q => ?_⟩
  · have hz : (start procs).holding = 0 := Finset.sum_eq_zero fun i _ => (hentry i).1
    rw [hz]
    rfl
  · have hz : ∑ i, ((start procs).procs i).inHand q i = 0 :=
      Finset.sum_eq_zero fun i _ => (hentry i).2 q
    rw [hz]
    rfl

theorem Reach.inv {procs : ι → Proc} (h : Reach procs s) : Inv s :=
  h.2.invariant (start_inv h.1) fun I _ hs => I.step hs

end

/-! ## One value at a time -/

/-- What the two pipes make of the processes. -/
structure HoldsOne {ι : Type} [Fintype ι] (s : St ι) : Prop where
  data : s.data.length ≤ 1
  /-- Bytes in the token pipe, bytes in the data pipe, and processes that have taken one and
  not yet put its counterpart. -/
  conserved : s.tokens.length + s.data.length + s.holding ≤ 1
  /-- An act is a put when an even number of acts came before it, and a take otherwise. -/
  alternate : ∀ {a r}, a :: r <:+ s.moves → (a.isPut = true ↔ r.length % 2 = 0)
  /-- What is printed was written once, by one process and with that value, has been taken by
  the reader that printed it, and is printed once. -/
  printed : ∀ {i p}, (i, p) ∈ s.printed →
    puts (fun _ v => v.serial = p.item.serial) s.moves = 1 ∧
    puts (fun _ v => v = p.item) s.moves = 1 ∧ .take i p.item ∈ s.moves ∧
    s.prints (fun _ v => v.serial = p.item.serial) = 1

section

variable {ι : Type} [DecidableEq ι] [Fintype ι] {s : St ι} {procs : ι → Proc}

theorem Inv.holdsOne (I : Inv s) : HoldsOne s := by
  have hc := I.conserved
  obtain ⟨c, hh, hd⟩ := I.history
  refine ⟨by omega, by omega, hh.isPut_iff, fun {i p} hp => ?_⟩
  have hle : ∀ q, s.prints q ≤ takes q s.moves := fun q => I.printed q ▸ Nat.le_add_right _ _
  have hpos : ∀ q : ι → Item → Bool, q i p.item = true → 0 < s.prints q :=
    fun q hq => List.countP_pos_iff.mpr ⟨(i, p), hp, hq⟩
  -- by number: at most one write, hence one take, hence one print
  have hserial := I.serials p.item.serial
  have h1 := hpos (fun _ v => v.serial = p.item.serial) (decide_eq_true rfl)
  have h2 := hle fun _ v => v.serial = p.item.serial
  have h3 := hh.takes_le fun v => v.serial = p.item.serial
  have hone : puts (fun _ v => v.serial = p.item.serial) s.moves = 1 := by
    split at hserial <;> omega
  refine ⟨hone, ?_, ?_, by omega⟩
  · have h4 := hpos (fun _ v => v = p.item) (decide_eq_true rfl)
    have h5 := hle fun _ v => v = p.item
    have h6 := hh.takes_le fun v => v = p.item
    have h7 : puts (fun _ v => v = p.item) s.moves ≤
        puts (fun _ v => v.serial = p.item.serial) s.moves :=
      puts_mono fun _ v hv => decide_eq_true (congrArg Item.serial (of_decide_eq_true hv))
    omega
  · have h8 := hpos (fun j v => j = i ∧ v = p.item) (decide_eq_true ⟨rfl, rfl⟩)
    obtain ⟨j, v, hmem, hv⟩ := exists_take (Nat.lt_of_lt_of_le h8 (hle _))
    obtain ⟨rfl, rfl⟩ := of_decide_eq_true hv
    exact hmem

/-- In every state reached, in any order of steps, with failing calls and with any of the
processes killed at any point: the two pipes hold one value at a time. -/
theorem reach_mvar (h : Reach procs s) : HoldsOne s := h.inv.holdsOne

/-- A writer (`true`) of `A` and a reader: the writer writes, takes the token the reader has
given back, and is killed before it writes again. -/
theorem reach_mvar_two :
    ∃ s, Run.exec step Run.anyEvent
        (start fun b : Bool => if b then writerEntry 4 65 0 else readerEntry 4 0 3)
        (List.replicate 51 (.run true true) ++ [.run true false] ++
          List.replicate 54 (.run true true) ++ List.replicate 54 (.run false true) ++
          List.replicate 52 (.run true true) ++ [.kill true] ++
          List.replicate 51 (.run false true)) = some s ∧
      s.printed = [(false, ⟨0, ⟨65, 0⟩⟩)] ∧ s.tokens = [] ∧ s.holding = 1 ∧ HoldsOne s := by
  obtain ⟨s, he, hr, hprinted, htokens, hheld⟩ :
      ∃ s, Run.exec step Run.anyEvent
          (start fun b : Bool => if b then writerEntry 4 65 0 else readerEntry 4 0 3)
          (List.replicate 51 (.run true true) ++ [.run true false] ++
            List.replicate 54 (.run true true) ++ List.replicate 54 (.run false true) ++
            List.replicate 52 (.run true true) ++ [.kill true] ++
            List.replicate 51 (.run false true)) = some s ∧
        Run step Run.anyEvent
          (start fun b : Bool => if b then writerEntry 4 65 0 else readerEntry 4 0 3) s ∧
        s.printed = [(false, ⟨0, ⟨65, 0⟩⟩)] ∧ s.tokens = [] ∧ s.holding = 1 :=
    Run.exists_exec (by decide +kernel)
  refine ⟨s, he, hprinted, htokens, hheld, reach_mvar ⟨fun b => ?_, hr⟩⟩
  cases b with
  | false => exact .inr ⟨4, 0, 3, rfl⟩
  | true => exact .inl ⟨4, 65, 0, rfl⟩

end

end SoKernel.Mvar
