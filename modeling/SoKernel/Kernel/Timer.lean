import SoKernel.Kernel.Machine

/-!
# Ticks and sleeping

`drivers/time.c` over the machine. `_irq00Handler` calls `timer_handler` before `schedule`,
for the hardware timer and for the `int 20h` of `callTimerTick` alike. A step of the machine
that is no hardware tick has raised `int 20h` exactly when it shows a switch: `yield` has set
the quantum to 0, and `schedule` then suspends (`schedule_switches`).

`wait_ticks` runs with interrupts on between two yields, like user code.

Results:
1. `Reach.counted`: `ticks` counts the interrupts of both kinds.
2. `Counting.sleep`: a process that sleeps alone ends its sleep with its own yields.
3. `lasts_iff`: the sleeps that last as long as asked, in every run, are those of no ticks.
-/

namespace SoKernel

/-! ## `time.c` -/

/-- `frequency`; nothing calls `setup_timer`. -/
def frequency : Nat := 18

/-- The switches in the history. -/
def Kernel.switches (k : Kernel) : Nat :=
  k.log.countP fun o => match o with
    | .switched _ => true
    | _ => false

/-- A request to sleep. -/
inductive Asked
  | ticks (n : Nat)
  | seconds (s : Nat)
deriving DecidableEq, Repr

/-- The ticks asked for. -/
def Asked.amount : Asked → Nat
  | .ticks n => n
  | .seconds s => s * frequency

/-- The argument of `wait_ticks`, which `wait_seconds` computes. -/
def Asked.ticksToWait (a : Asked) : Nat := a.amount % 2 ^ 64

/-- The variables of a `wait_ticks` in progress: at the test of the loop, or behind its
`yield`. The first four fields are history: the request, and `ticks` and the interrupts of
both kinds at the call. -/
structure Sleep where
  asked : Asked
  start : Nat
  hardware : Nat
  software : Nat
  currentTicks : Nat
  targetTicks : Nat
  yielded : Bool
deriving DecidableEq, Repr

/-- A `wait_ticks` that has returned: `ticks` at the call, and the interrupts of both kinds
between call and return. -/
structure Slept where
  asked : Asked
  start : Nat
  hardware : Nat
  software : Nat
deriving DecidableEq, Repr

/-- The machine with `ticks` and the sleeps in progress. `hardware` and `software` count the
calls of `timer_handler`, and no code reads them. -/
structure Clock where
  m : Machine
  ticks : Nat
  hardware : Nat
  software : Nat
  sleeping : Pid → Option Sleep
  returned : List Slept

namespace Clock

inductive Event
  /-- A step of the machine; a process in `wait_ticks` makes no system call. -/
  | machine (e : SoKernel.Event)
  /-- The running process calls `wait_ticks` or `wait_seconds`. -/
  | wait (a : Asked)
  /-- The running process goes on in `wait_ticks`. -/
  | sleep (off : Nat)
deriving DecidableEq, Repr

/-- The machine makes a step, and `timer_handler` counts the interrupts it takes. -/
def machineStep (c : Clock) (e : SoKernel.Event) : Option Clock := do
  let m ← c.m.step e
  match e with
  | .tick _ => some { c with m := m, ticks := (c.ticks + 1) % 2 ^ 64, hardware := c.hardware + 1 }
  | _ =>
    let n := m.k.switches - c.m.k.switches
    some { c with m := m, ticks := (c.ticks + n) % 2 ^ 64, software := c.software + n }

def setSleep (c : Clock) (s : Option Sleep) : Clock :=
  { c with sleeping := Function.update c.sleeping c.m.cpu s }

/-- `wait_ticks`, up to its loop. -/
def wait (c : Clock) (a : Asked) : Clock :=
  c.setSleep (some
    { asked := a, start := c.ticks, hardware := c.hardware, software := c.software
      currentTicks := c.ticks, targetTicks := (c.ticks + a.ticksToWait) % 2 ^ 64
      yielded := false })

/-- The loop of `wait_ticks`: read `ticks`, or test it and `yield` or return. -/
def sleep (c : Clock) (off : Nat) (s : Sleep) : Option Clock :=
  if s.yielded then some (c.setSleep (some { s with currentTicks := c.ticks, yielded := false }))
  else if s.currentTicks < s.targetTicks then
    (c.setSleep (some { s with yielded := true })).machineStep (.call off .yield)
  else
    some { c.setSleep none with
      returned := ⟨s.asked, s.start, c.hardware - s.hardware, c.software - s.software⟩ :: c.returned }

/-- Whether a process makes the step out of its own code. -/
def ofProcess : SoKernel.Event → Bool
  | .call _ _ => true
  | _ => false

def step (c : Clock) : Event → Option Clock
  | .machine e =>
    if ofProcess e ∧ c.sleeping c.m.cpu ≠ none then none else c.machineStep e
  | .wait a =>
    if c.m.Calls ∧ c.sleeping c.m.cpu = none then some (c.wait a) else none
  | .sleep off =>
    match c.sleeping c.m.cpu with
    | none => none
    | some s => if c.m.Calls then c.sleep off s else none

/-- The machine at boot. -/
def boot (allocs : Nat → Bool) : Clock where
  m := SoKernel.boot allocs
  ticks := 0
  hardware := 0
  software := 0
  sleeping := fun _ => none
  returned := []

/-- The states reached from boot, with any number of processes that do anything. -/
def Reach (allocs : Nat → Bool) (c : Clock) : Prop :=
  Run step Run.anyEvent (boot allocs) c

/-! ## 1. What `ticks` counts -/

section

variable {allocs : Nat → Bool} {c c' : Clock} {e : SoKernel.Event} {ev : Event} {s : Sleep}
  {off : Nat}

/-- `ticks` is the number of interrupts of both kinds. -/
def Counted (c : Clock) : Prop := c.ticks = (c.hardware + c.software) % 2 ^ 64

theorem Counted.machineStep (C : Counted c) (h : c.machineStep e = some c') : Counted c' := by
  have hcount : ∀ i j, (c.ticks + (i + j)) % 2 ^ 64 =
      (c.hardware + i + (c.software + j)) % 2 ^ 64 := by
    intro i j
    rw [C, Nat.mod_add_mod]
    congr 1
    omega
  obtain ⟨m, hm, h⟩ := Option.bind_eq_some_iff.mp h
  split at h
  · obtain rfl := Option.some.inj h
    exact hcount 1 0
  · obtain rfl := Option.some.inj h
    have hcount := hcount 0 (m.k.switches - c.m.k.switches)
    rw [Nat.zero_add, Nat.add_zero] at hcount
    exact hcount

theorem Counted.sleep (C : Counted c) (h : c.sleep off s = some c') : Counted c' := by
  unfold Clock.sleep at h
  split at h
  · exact Option.some.inj h ▸ C
  · split at h
    · exact Counted.machineStep (c := c.setSleep _) C h
    · exact Option.some.inj h ▸ C

theorem Counted.step (C : Counted c) (h : step c ev = some c') : Counted c' := by
  cases ev with
  | machine e =>
    rw [Clock.step] at h
    split at h
    · cases h
    · exact C.machineStep h
  | wait a =>
    rw [Clock.step] at h
    split at h
    · exact Option.some.inj h ▸ C
    · cases h
  | sleep off =>
    rw [Clock.step] at h
    split at h
    · cases h
    · split at h
      · exact C.sleep h
      · cases h

theorem Reach.counted (h : Reach allocs c) : Counted c :=
  h.invariant rfl fun C _ hs => C.step hs

end

/-! ## 2. A process that sleeps alone -/

/-- The shell is the only process that is ready, and runs in its own code. -/
structure Alone (m : Machine) : Prop where
  ready : m.k.queue .ready = [1]
  current : m.k.currentProcess = some 1
  idle : m.k.idleProcess = some 0
  first : m.k.first = false
  cpu : m.cpu = 1
  cont : m.cont 1 = .user
  process : ∃ b, m.k.procs 1 = some b

section

variable {m : Machine} {k : Kernel} {b : PCB} {rsp : Sp}

theorem Alone.calls (A : Alone m) : m.Calls := by
  refine ⟨by rw [A.cpu]; exact A.cont, A.first, ?_⟩
  rw [A.current, A.idle]
  decide

/-- What the ready queue of one process gives. -/
theorem getNextProcess_alone (hready : k.queue .ready = [1]) (hb : k.procs 1 = some b) :
    ∃ k', getNextProcess k = some (k', 1) ∧ k'.queue .ready = [1] ∧ k'.currentProcess = some 1 ∧
      k'.idleProcess = k.idleProcess ∧ k'.first = k.first ∧ k'.procs = k.procs := by
  rw [getNextProcess, hready]
  simp only [hb, Option.bind_eq_bind, Option.bind_some]
  refine ⟨_, rfl, ?_⟩
  split <;> exact ⟨rfl, rfl, rfl, rfl, rfl⟩

theorem suspend_switches (k : Kernel) (p : Pid) (b : PCB) (rsp : Sp) :
    (suspend k p b rsp).switches = k.switches + 1 := by
  have hsw : ((k.setPCB p (suspendedPCB k.first b rsp)).observe (.switched rsp)).switches =
      k.switches + 1 := List.countP_cons_of_pos rfl
  unfold suspend
  dsimp only
  split
  · exact hsw
  · rw [← hsw]
    exact List.countP_cons_of_neg Bool.false_ne_true

theorem getNextProcess_log {k' : Kernel} {p : Pid} (h : getNextProcess k = some (k', p)) :
    k'.log = k.log := by
  unfold getNextProcess at h
  split at h
  · obtain ⟨idle, _, h⟩ := Option.bind_eq_some_iff.mp h
    obtain ⟨rfl, _⟩ := Prod.mk.inj (Option.some.inj h)
    rfl
  · obtain ⟨process, _, h⟩ := Option.bind_eq_some_iff.mp h
    obtain ⟨rfl, _⟩ := Prod.mk.inj (Option.some.inj h)
    split <;> rfl

/-- With no quantum left `schedule` shows one switch. -/
theorem schedule_switches {k' : Kernel} {sp : Sp} (hq : k.quantum ≤ 0)
    (h : schedule k rsp = some (k', sp)) : k'.switches = k.switches + 1 := by
  obtain ⟨current, _, h⟩ := Option.bind_eq_some_iff.mp h
  obtain ⟨process, _, h⟩ := Option.bind_eq_some_iff.mp h
  rw [if_neg fun hrun => absurd hrun.1 (Int.not_lt.mpr hq)] at h
  obtain ⟨⟨k1, next⟩, hnext, h⟩ := Option.bind_eq_some_iff.mp h
  obtain ⟨b, _, h⟩ := Option.bind_eq_some_iff.mp h
  obtain ⟨rfl, _⟩ := Prod.mk.inj (Option.some.inj h)
  have hlog : k1.log = (suspend k current process rsp).log := getNextProcess_log hnext
  rw [← suspend_switches k current process rsp]
  exact congrArg (List.countP _) hlog

/-- With no quantum left `schedule` gives the CPU back to the only process, and shows one
switch. -/
theorem schedule_alone (hready : k.queue .ready = [1]) (hcur : k.currentProcess = some 1)
    (hb : k.procs 1 = some b) (hq : k.quantum = 0) (hfirst : k.first = false) :
    ∃ k', schedule k rsp = some (k', rsp) ∧ k'.queue .ready = [1] ∧
      k'.currentProcess = some 1 ∧ k'.idleProcess = k.idleProcess ∧ k'.first = false ∧
      (∃ b', k'.procs 1 = some b') ∧ k'.switches = k.switches + 1 := by
  have hsus : suspend k 1 b rsp =
      ((k.setPCB 1 (suspendedPCB false b rsp)).observe (.switched rsp)).observe (.saved 1 rsp) := by
    simp only [suspend, hfirst, Kernel.observe, Kernel.setPCB, Bool.false_eq_true, if_false]
  have hsb : (suspend k 1 b rsp).procs 1 = some (suspendedPCB false b rsp) := by
    rw [hsus]
    exact Function.update_self 1 _ k.procs
  have hsq : (suspend k 1 b rsp).queue .ready = [1] := by
    rw [hsus]
    exact hready
  obtain ⟨k1, hnext, hready1, hcur1, hidle1, hfirst1, hprocs1⟩ :=
    getNextProcess_alone hsq hsb
  have hb1 := hprocs1 ▸ hsb
  have hset : ∀ b', (k1.setPCB 1 b').procs 1 = some b' :=
    fun b' => by simp [Kernel.setPCB]
  have hs : schedule k rsp = some ({ k1.setPCB 1 { suspendedPCB false b rsp with
      state := .RUNNING } with currentPid := 1, quantum := calculateQuantum b.priority }, rsp) := by
    have hno : ¬ (k.quantum > 0 ∧ b.state = .RUNNING) := fun h => by simp [hq] at h
    simp only [schedule, hcur, hb, Option.bind_eq_bind, Option.bind_some, if_neg hno, hnext, dispatch,
      hb1]
    rfl
  refine ⟨_, hs, hready1, hcur1, hidle1.trans (by rw [hsus]; rfl), ?_, ⟨_, hset _⟩,
    schedule_switches (Int.le_of_eq hq) hs⟩
  rw [hsus] at hfirst1
  exact hfirst1.trans hfirst

/-- A yield, and its return. -/
theorem Alone.yield (A : Alone m) :
    ∃ m1 m2, m.step (.call 0 .yield) = some m1 ∧ m1.step (.resume 0) = some m2 ∧ Alone m2 ∧
      m1.cpu = 1 ∧ m1.k.switches = m.k.switches + 1 ∧ m2.k.switches = m1.k.switches := by
  obtain ⟨b, hb⟩ := A.process
  have hk : ({ m.k with quantum := 0 } : Kernel).procs 1 = some b := hb
  obtain ⟨k1, hs, hready, hcur, hidle, hfirst, hb', hsw⟩ :=
    @schedule_alone { m.k with quantum := 0 } b (.inside 1 0) A.ready A.current hk rfl A.first
  let m1 : Machine := { m with k := k1, cpu := 1, cont := Function.update m.cont 1 (.ret 0) }
  have hcont : m1.cont m1.cpu = .ret 0 := Function.update_self 1 (.ret 0) m.cont
  have huser : (m1.sysret 0).cont 1 = .user := by
    have hcpu : m1.cpu = 1 := rfl
    simp [Machine.sysret, Machine.setCont, Machine.withKernel, hcpu]
  refine ⟨m1, m1.sysret 0, ?_, ?_, ⟨hready, hcur, hidle.trans A.idle, hfirst, rfl, huser, hb'⟩,
    rfl, hsw, ?_⟩
  · rw [Machine.step, if_pos A.calls]
    simp only [Machine.call, Machine.finish, SoKernel.yield, Machine.interrupt, Machine.withKernel,
      Machine.setCont, A.cpu, hs, Option.bind_eq_bind, Option.bind_some]
    rfl
  · simp only [Machine.step, Machine.resume, hcont]
  · show (_ :: k1.log).countP _ = k1.log.countP _
    exact List.countP_cons_of_neg Bool.false_ne_true

/-- The shell runs alone, and `c` has counted so many ticks. -/
structure Counting (c : Clock) (ticks : Nat) : Prop extends Alone c.m where
  ticks : c.ticks = ticks

/-- Steps without a hardware tick and without the end of a sleep. -/
def Quietly (c c' : Clock) : Prop :=
  Run step Run.anyEvent c c' ∧ c'.hardware = c.hardware ∧ c'.returned = c.returned

theorem Quietly.trans {c c' d : Clock} (h : Quietly c c') (h' : Quietly c' d) : Quietly c d :=
  ⟨h.1.trans h'.1, h'.2.1.trans h.2.1, h'.2.2.trans h.2.2⟩

theorem machineStep_soft {c : Clock} {e : SoKernel.Event} (he : ∀ off, e ≠ .tick off)
    (h : c.m.step e = some m) :
    c.machineStep e = some { c with
      m := m
      ticks := (c.ticks + (m.k.switches - c.m.k.switches)) % 2 ^ 64
      software := c.software + (m.k.switches - c.m.k.switches) } := by
  cases e with
  | tick off => exact absurd rfl (he off)
  | ctrlC off => rw [machineStep, h]; rfl
  | call off call => rw [machineStep, h]; rfl
  | resume off => rw [machineStep, h]; rfl

/-- A yield adds a tick, whatever the process keeps in `wait_ticks`. -/
theorem Counting.yield {c : Clock} {n : Nat} (C : Counting c n) :
    ∃ c1 c2, c.machineStep (.call 0 .yield) = some c1 ∧
      c1.machineStep (.resume 0) = some c2 ∧ Counting c2 ((n + 1) % 2 ^ 64) ∧
      c2.hardware = c.hardware ∧ c2.returned = c.returned ∧ c2.sleeping = c.sleeping ∧
      c1.sleeping = c.sleeping := by
  obtain ⟨m1, m2, h1, h2, A, _, hs1, hs2⟩ := C.toAlone.yield
  have hstep1 := machineStep_soft (fun off => by simp) h1
  refine ⟨_, _, hstep1, machineStep_soft (fun off => by simp) h2, ⟨A, ?_⟩, rfl, rfl, rfl, rfl⟩
  dsimp only
  rw [hs2, hs1, Nat.sub_self, Nat.add_zero, Nat.add_sub_cancel_left, C.ticks, Nat.mod_mod]

/-- Yields outside `wait_ticks` bring `ticks` to every value. -/
theorem Counting.advance {c : Clock} {n : Nat} (C : Counting c n) (hn : n < 2 ^ 64)
    (hs : c.sleeping 1 = none) (k : Nat) :
    ∃ c', Quietly c c' ∧ Counting c' ((n + k) % 2 ^ 64) ∧ c'.sleeping 1 = none := by
  induction k with
  | zero => exact ⟨c, ⟨.refl, rfl, rfl⟩, (Nat.mod_eq_of_lt hn).symm ▸ C, hs⟩
  | succ k ih =>
    obtain ⟨c1, hq, C1, hs1⟩ := ih
    obtain ⟨c2, c3, h2, h3, C3, hh, hr, hsl, hsl'⟩ := C1.yield
    have hcall : step c1 (.machine (.call 0 .yield)) = some c2 := by
      rw [step, C1.cpu, if_neg (fun h => h.2 hs1), h2]
    have hresume : step c2 (.machine (.resume 0)) = some c3 := by
      rw [step, if_neg (fun h => Bool.false_ne_true h.1), h3]
    have hrun : Quietly c1 c3 := ⟨(Run.single _ trivial hcall).snoc _ trivial hresume, hh, hr⟩
    refine ⟨c3, hq.trans hrun, ?_, hsl ▸ hs1⟩
    rw [Nat.mod_add_mod] at C3
    exact C3

/-- The loop of `wait_ticks` alone: after every yield there is one tick more. -/
theorem Counting.loop {c : Clock} {s : Sleep} (C : Counting c s.currentTicks)
    (hs : c.sleeping 1 = some s) (hy : s.yielded = false) (hlt : s.currentTicks < s.targetTicks)
    (hj : s.currentTicks + 1 < 2 ^ 64) :
    ∃ c', Quietly c c' ∧ Counting c' (s.currentTicks + 1) ∧
      c'.sleeping 1 = some { s with currentTicks := s.currentTicks + 1 } := by
  have C0 : Counting (c.setSleep (some { s with yielded := true })) s.currentTicks :=
    ⟨C.toAlone, C.ticks⟩
  obtain ⟨c1, c2, h1, h2, C2, hh, hr, hsl, hsl'⟩ := C0.yield
  rw [Nat.mod_eq_of_lt hj] at C2
  have hs2 : c2.sleeping 1 = some { s with yielded := true } := by
    rw [hsl]
    simp only [setSleep, C.cpu, Function.update_self]
  have hcall : step c (.sleep 0) = some c1 := by
    rw [step, C.cpu, hs]
    simp only [if_pos C.calls, Clock.sleep, hy, Bool.false_eq_true, if_false, if_pos hlt, h1]
  have hresume : step c1 (.machine (.resume 0)) = some c2 := by
    rw [step, if_neg (fun h => Bool.false_ne_true h.1), h2]
  have hread : step c2 (.sleep 0) =
      some (c2.setSleep (some { s with currentTicks := s.currentTicks + 1, yielded := false })) := by
    rw [step, C2.cpu, hs2]
    simp only [if_pos C2.calls, Clock.sleep, if_true, C2.ticks]
  have hrun : Run step Run.anyEvent c c2 := (Run.single _ trivial hcall).snoc _ trivial hresume
  refine ⟨_, ⟨hrun.snoc _ trivial hread, hh, hr⟩, ⟨C2.toAlone, C2.ticks⟩, ?_⟩
  simp only [setSleep, C2.cpu, Function.update_self, ← hy]

theorem Counting.loops {c : Clock} {s : Sleep} (C : Counting c s.currentTicks)
    (hs : c.sleeping 1 = some s) (hy : s.yielded = false) (ht : s.targetTicks < 2 ^ 64) (n : Nat)
    (hn : s.currentTicks + n ≤ s.targetTicks) :
    ∃ c', Quietly c c' ∧ Counting c' (s.currentTicks + n) ∧
      c'.sleeping 1 = some { s with currentTicks := s.currentTicks + n } := by
  induction n with
  | zero => exact ⟨c, ⟨.refl, rfl, rfl⟩, C, hs⟩
  | succ n ih =>
    obtain ⟨c1, hq, C1, hs1⟩ := ih (Nat.le_of_succ_le hn)
    obtain ⟨c2, hq2, C2, hs2⟩ := C1.loop hs1 hy hn (Nat.lt_of_le_of_lt hn ht)
    exact ⟨c2, hq.trans hq2, C2, hs2⟩

/-- The shell sleeps alone: `wait_ticks` returns, and there was no hardware tick. -/
theorem Counting.sleep {c : Clock} (C : Counting c 0) (hs : c.sleeping 1 = none) {a : Asked}
    (ha : a.amount < 2 ^ 64) :
    ∃ c', Run step Run.anyEvent c c' ∧ ⟨a, 0, 0, c'.software - c.software⟩ ∈ c'.returned := by
  let s : Sleep :=
    { asked := a, start := 0, hardware := c.hardware, software := c.software, currentTicks := 0
      targetTicks := a.amount, yielded := false }
  have hwait : step c (.wait a) = some (c.setSleep (some s)) := by
    rw [step, C.cpu, if_pos ⟨C.calls, hs⟩, wait, C.ticks, Asked.ticksToWait, Nat.zero_add,
      Nat.mod_mod, Nat.mod_eq_of_lt ha]
  have C1 : Counting (c.setSleep (some s)) s.currentTicks := ⟨C.toAlone, C.ticks⟩
  have hs1 : (c.setSleep (some s)).sleeping 1 = some s := by
    simp only [setSleep, C.cpu, Function.update_self]
  obtain ⟨c2, hq, C2, hs2⟩ := C1.loops hs1 rfl ha a.amount (Nat.le_of_eq (Nat.zero_add _))
  have hreturn : ∃ c3, step c2 (.sleep 0) = some c3 ∧
      c3.returned = ⟨a, 0, c2.hardware - c.hardware, c2.software - c.software⟩ :: c2.returned ∧
      c3.software = c2.software := by
    rw [step, C2.cpu, hs2]
    simp only [if_pos C2.calls, Clock.sleep, Bool.false_eq_true, if_false, s, Nat.zero_add,
      Nat.lt_irrefl]
    exact ⟨_, rfl, rfl, rfl⟩
  obtain ⟨c3, h3, hr3, hs3⟩ := hreturn
  refine ⟨c3, ((Run.single _ trivial hwait).trans hq.1).snoc _ trivial h3, ?_⟩
  have hh : c2.hardware = c.hardware := hq.2.1
  rw [hr3, hh, Nat.sub_self, hs3]
  exact List.mem_cons_self

end

/-! ## 3. The sleeps that last as long as asked -/

/-- In every run: the request returns only after as many hardware ticks as it asked for, if
the sum in `wait_ticks` does not wrap. -/
def Lasts (a : Asked) : Prop :=
  ∀ {allocs : Nat → Bool} {c : Clock} {r : Slept}, Reach allocs c → r ∈ c.returned → r.asked = a →
    r.start + a.amount < 2 ^ 64 → a.amount ≤ r.hardware

/-- The shell after the first hardware tick. -/
theorem boot_counting : ∃ c, Reach (fun _ => true) c ∧ Counting c 1 ∧ c.sleeping 1 = none := by
  obtain ⟨c, _, hr, hready, hcur, hidle, hfirst, hcpu, hcont, hb, ht, hs⟩ :
      ∃ c, Run.exec step Run.anyEvent (boot fun _ => true) [.machine (.tick 0)] = some c ∧
        Run step Run.anyEvent (boot fun _ => true) c ∧ c.m.k.queue .ready = [1] ∧
        c.m.k.currentProcess = some 1 ∧ c.m.k.idleProcess = some 0 ∧ c.m.k.first = false ∧
        c.m.cpu = 1 ∧ c.m.cont 1 = .user ∧ (c.m.k.procs 1).isSome = true ∧ c.ticks = 1 ∧
        c.sleeping 1 = none := Run.exists_exec (by decide +kernel)
  exact ⟨c, hr, ⟨⟨hready, hcur, hidle, hfirst, hcpu, hcont, Option.isSome_iff_exists.mp hb⟩, ht⟩, hs⟩

/-- A sleep of `wait_ticks(n)` or `wait_seconds(s)` lasts as long as asked in every run exactly
when it asks for no ticks; and `ticks` is the number of hardware ticks exactly when software
has raised no `int 20h` (modulo `2 ^ 64`). -/
theorem lasts_iff {a : Asked} (ha : a.amount < 2 ^ 64) {allocs : Nat → Bool} {c : Clock}
    (hr : Reach allocs c) :
    (Lasts a ↔ a.amount = 0) ∧ (c.ticks = c.hardware % 2 ^ 64 ↔ c.software % 2 ^ 64 = 0) := by
  refine ⟨⟨fun h => ?_, fun h0 _ _ _ _ _ _ _ => ?_⟩, ?_⟩
  · obtain ⟨c, hr, C, hs⟩ := boot_counting
    -- from the first tick on, yields bring `ticks` around to 0
    obtain ⟨c1, hq, C1, hs1⟩ := C.advance (by decide) hs (2 ^ 64 - 1)
    obtain ⟨c2, hrun, hmem⟩ := Counting.sleep C1 hs1 ha
    have hreach : Reach (fun _ => true) c2 := (hr.trans hq.1).trans hrun
    have hle := h hreach hmem rfl (by rwa [Nat.zero_add])
    exact Nat.le_zero.mp hle
  · rw [h0]
    exact Nat.zero_le _
  · rw [show c.ticks = _ from hr.counted]
    omega

/-- The timer ticks three times. -/
theorem threeTicks_run :
    ∃ c, Run.exec step Run.anyEvent (boot fun _ => true)
        [.machine (.tick 0), .machine (.tick 0), .machine (.tick 0)] = some c ∧
      Run step Run.anyEvent (boot fun _ => true) c ∧ c.hardware = 3 ∧ c.software = 0 :=
  Run.exists_exec (by decide +kernel)

/-- A sleep of no ticks, and the ticks counted after three of the timer. -/
theorem lasts_iff_zero : Lasts (.ticks 0) ∧
    ∃ c, Reach (fun _ => true) c ∧ c.hardware = 3 ∧ c.ticks = 3 := by
  obtain ⟨c, _, hr, hh, hs⟩ := threeTicks_run
  obtain ⟨hlasts, hticks⟩ := @lasts_iff (.ticks 0) (by decide) (fun _ => true) c hr
  have hticks := hticks.mpr (by rw [hs]; rfl)
  rw [hh] at hticks
  exact ⟨hlasts.mpr rfl, c, hr, hh, hticks⟩

/-- The shell, alone after the first tick of the timer, calls `wait_ticks(2)`: its own two
yields end the sleep, with no hardware tick in between, and `ticks` is 3 after one. -/
theorem sleep_ends_early :
    (∃ c, Run.exec step Run.anyEvent (boot fun _ => true)
        [.machine (.tick 0), .wait (.ticks 2), .sleep 0, .machine (.resume 0), .sleep 0, .sleep 0,
          .machine (.resume 0), .sleep 0, .sleep 0] = some c ∧
      c.returned = [⟨.ticks 2, 1, 0, 2⟩] ∧ c.ticks = 3 ∧ c.hardware = 1) ∧
    ¬ Lasts (.ticks 2) := by
  obtain ⟨c, he, hr, hret, ht, hh⟩ :
      ∃ c, Run.exec step Run.anyEvent (boot fun _ => true)
          [.machine (.tick 0), .wait (.ticks 2), .sleep 0, .machine (.resume 0), .sleep 0, .sleep 0,
            .machine (.resume 0), .sleep 0, .sleep 0] = some c ∧
        Run step Run.anyEvent (boot fun _ => true) c ∧
        c.returned = [⟨.ticks 2, 1, 0, 2⟩] ∧ c.ticks = 3 ∧ c.hardware = 1 :=
    Run.exists_exec (by decide +kernel)
  refine ⟨⟨c, he, hret, ht, hh⟩, fun h => ?_⟩
  have hle := h hr (hret ▸ List.mem_singleton_self _) rfl (by decide)
  exact absurd hle (by decide)

end Clock

end SoKernel
