import SoKernel.Kernel.Gate
import SoKernel.Kernel.RoundRobin

/-!
# One CPU for all

The machine with its general registers and its memory. A step of the kernel is code on the CPU,
on the stack of one process, and the step ends in `_irq00Handler` when the kernel is to give the
CPU away. Above it every process has a CPU of its own, and nobody saves anything. `pushState`
saves no register of the floating point unit, and nothing is said of those.

Results:
1. `Interrupts.frames`: what lies on the stacks after the timer interrupt.
2. `Board.Step.shares`: a step of the one CPU is a step of the many.
3. `timeSharing`: so is every run. A process goes on with the general registers it was
   interrupted with.
-/

namespace SoKernel

open Gate

/-! ## A CPU for each process -/

/-- The kernel, and what each process has in its general registers. -/
structure Tasks where
  m : Machine
  contexts : Pid → Context

/-- A step, and the registers at its end, before the process gives the CPU away. -/
abbrev Timed := Event × Context

/-- The owner of the stack that is in use writes its own registers. -/
def Tasks.step (t : Tasks) (e : Timed) : Option Tasks :=
  (t.m.step e.1).map fun m => ⟨m, Function.update t.contexts t.m.cpu e.2⟩

/-- The state after some steps. -/
def Tasks.run (t : Tasks) (es : List Timed) : Option Tasks := es.foldlM Tasks.step t

/-! ## One CPU -/

structure Board where
  m : Machine
  cpu : Cpu

/-- The last pointer that `schedule` got and did not return. -/
def lastSwitched (log : List Obs) : Option Sp :=
  log.findSome? fun
    | .switched rsp => some rsp
    | _ => none

/-- The stack pointers that `schedule` got and returned in the step from `m` to `m'`, when it has
dispatched a process. -/
def Machine.exchanged (m m' : Machine) : Option (Sp × Sp) :=
  if dispatched m m' = [] then none
  else do
    let rsp ← lastSwitched m'.k.log
    let next ← m'.k.currentProcess
    let process ← m'.k.procs next
    some (rsp, process.rsp)

/-- The address of the context that the handler of the timer saves. -/
def savedAt (c : Cpu) : UInt64 := (c.rsp &&& -16) - UInt64.ofNat (8 * 20)

section Steps

/-! Where the stack pointers are, and the contexts that processes start with. -/

variable (place : Sp → UInt64) (start : Pid → Context)

/-- The contexts on the stacks of the live processes other than `p`. -/
def saved (k : Kernel) (p : Pid) : Set Nat :=
  {x | ∃ q b, q ≠ p ∧ k.procs q = some b ∧ b.rsp.stack = q ∧ x ∈ span (place b.rsp).toNat 20}

/-- Code on the stack in use, the user's or the kernel's. It leaves the contexts on other stacks
alone, unless their process dies in this step, and a process is born with its context on its
stack. -/
structure Works (m m' : Machine) (c c' : Cpu) : Prop where
  kept : ∀ q b, q ≠ m.cpu → m.k.procs q = some b → b.rsp.stack = q → m'.k.procs q ≠ none →
    Set.EqOn c'.mem c.mem (span (place b.rsp).toNat 20)
  born : ∀ q, m.k.procs q = none → m'.k.procs q ≠ none →
    WordsAt c'.mem (place (.initial q)).toNat (frame (start q))

/-- `_irq00Handler` on the CPU `c`, where there is room on the stack; `schedule` returns `sp`. -/
structure Interrupts (m m' : Machine) (sp : UInt64) (c c' : Cpu) : Prop where
  room : Room c
  apart : Disjoint (span (savedAt c).toNat 20) (saved place m'.k m.cpu)
  runs : ∃ handler timerHandler schedule,
    Gate.Serves (span (savedAt c).toNat 20 ∪ saved place m'.k m.cpu) sp timerHandler schedule ∧
      c' = execAll (c.enter handler) (irq00Handler timerHandler schedule)

/-- The end of a step. -/
inductive Closes (m m' : Machine) (e : Event) (c c' : Cpu) : Prop
  /-- The process goes on. -/
  | stays : (∀ off, e ≠ .tick off) → m.exchanged m' = none → c' = c → Closes m m' e c c'
  /-- A tick within the quantum: `schedule` returns what it has got. -/
  | counts {off : Nat} : e = .tick off → m.exchanged m' = none →
      Interrupts place m m' (savedAt c) c c' → Closes m m' e c c'
  /-- `schedule` returns the pointer of the process it dispatches. -/
  | switches {rsp sp : Sp} : m.exchanged m' = some (rsp, sp) → place rsp = savedAt c →
      Interrupts place m m' (place sp) c c' → Closes m m' e c c'

/-- The code of a step brings the CPU to the registers it ends with. -/
structure Board.Step (b : Board) (e : Timed) (b' : Board) : Prop where
  step : b.m.step e.1 = some b'.m
  code : ∃ c : Cpu, Works place start b.m b'.m b.cpu c ∧ c.toContext = e.2 ∧
    Closes place b.m b'.m e.1 c b'.cpu

/-- The states reached from `b`. -/
inductive Board.Run (b : Board) : List Timed → Board → Prop
  | refl : Board.Run b [] b
  | snoc {es : List Timed} {e : Timed} {b1 b2 : Board} : Board.Run b es b1 →
      Board.Step place start b1 e b2 → Board.Run b (es ++ [e]) b2

/-- The one CPU holds what the CPU of the live process executing would, and the stacks of the
others hold what theirs would. -/
structure Shares (b : Board) (t : Tasks) : Prop where
  machine : t.m = b.m
  cpu : b.m.k.procs b.m.cpu ≠ none → b.cpu.toContext = t.contexts b.m.cpu
  waiting : ∀ p pcb, p ≠ b.m.cpu → b.m.k.procs p = some pcb → pcb.rsp.stack = p →
    WordsAt b.cpu.mem (place pcb.rsp).toNat (frame (t.contexts p))
  unborn : ∀ p, b.m.k.nextPid ≤ p → t.contexts p = start p

/-! ## The timer interrupt -/

variable {place start} {m m' : Machine} {c c' : Cpu} {e : Event} {sp : UInt64} {k1 : Kernel}
  {p n : Pid} {contexts : Pid → Context} {allocs : Nat → Bool}

theorem toNat_savedAt (h : Room c) : (savedAt c).toNat = (c.rsp &&& -16).toNat - 8 * 20 :=
  toNat_sub_ofNat h

/-- The handler leaves the context it has interrupted, and the ones that were there. -/
theorem Interrupts.saves (I : Interrupts place m m' sp c c') :
    WordsAt c'.mem (savedAt c).toNat (frame c.toContext) ∧
      Set.EqOn c'.mem c.mem (saved place m'.k m.cpu) ∧
      ∀ x, WordsAt c'.mem sp.toNat (frame x) → c'.toContext = x := by
  obtain ⟨handler, timerHandler, schedule, hserves, hc⟩ := I.runs
  have hS := Set.subset_union_left (s := span (savedAt c).toNat 20) (t := saved place m'.k m.cpu)
  rw [toNat_savedAt I.room] at hS hserves ⊢
  obtain ⟨hown, hothers, hnext⟩ := irq00_spec I.room hserves hS hc
  refine ⟨hown, fun a ha => hothers a (.inr ha) fun hin => ?_, hnext⟩
  rw [← toNat_savedAt I.room] at hin
  exact Set.disjoint_left.mp I.apart hin ha

/-- What lies on the stack of a process after the timer interrupt. -/
theorem Interrupts.frames (I : Interrupts place m m' sp c c') {q : Pid} {b : PCB}
    (hb : m'.k.procs q = some b) (hstack : b.rsp.stack = q)
    (h : q = m.cpu ∧ place b.rsp = savedAt c ∨
      q ≠ m.cpu ∧ WordsAt c.mem (place b.rsp).toNat (frame (contexts q))) :
    WordsAt c'.mem (place b.rsp).toNat (frame (Function.update contexts m.cpu c.toContext q)) := by
  obtain ⟨hown, hothers, -⟩ := I.saves
  rcases h with ⟨rfl, hplace⟩ | ⟨hne, hframe⟩
  · rw [Function.update_self, hplace]
    exact hown
  · have hsub : span (place b.rsp).toNat 20 ⊆ saved place m'.k m.cpu :=
      fun x hx => ⟨q, b, hne, hb, hstack, hx⟩
    rw [Function.update_of_ne hne]
    exact hframe.congr (hothers.mono hsub)

/-! ## One step -/

theorem exchanged_of_countP
    (h : m'.k.log.countP Obs.isSwitched = m.k.log.countP Obs.isSwitched) : m.exchanged m' = none :=
  if_pos (if_pos h)

/-- What `schedule` has exchanged is what the switch says. -/
theorem Switch.exchanged {rsp sp : Sp} (W : Switch k1 rsp m'.k sp p n)
    (hlog : k1.log.countP Obs.isSwitched = m.k.log.countP Obs.isSwitched) :
    m.exchanged m' = some (rsp, sp) := by
  obtain ⟨b, hb, hsp⟩ := W.loaded
  have hlast : lastSwitched m'.k.log = some rsp := by
    rw [W.log]
    split <;> rfl
  rw [Machine.exchanged, W.dispatched_eq hlog, if_neg (List.cons_ne_nil _ _), hlast, W.next]
  simp [hb, hsp]

/-- The contexts of the processes that wait, at the end of the code of the step. -/
theorem Works.frames {b : Board} {t : Tasks} {allow : Label → Prop} (S : Shares place start b t)
    (C : Core b.m.k) (hw : Works place start b.m m' b.cpu c) (heffects : Effects allow b.m.k k1)
    {q : Pid} {pcb : PCB} (hq : q ≠ b.m.cpu) (hb : k1.procs q = some pcb)
    (hlive : m'.k.procs q ≠ none) (hstack : pcb.rsp.stack = q) :
    WordsAt c.mem (place pcb.rsp).toNat (frame (t.contexts q)) := by
  rcases heffects.pcb hb with ⟨old, hold, hrsp⟩ | ⟨hle, hrsp, -⟩
  · rw [hrsp] at hstack ⊢
    exact (S.waiting q old hq hold hstack).congr (hw.kept q old hq hold hstack hlive)
  · have hnone : b.m.k.procs q = none := by
      refine Option.eq_none_iff_forall_ne_some.mpr fun old hold => ?_
      exact absurd (C.pcb q old hold).2.2 (Int.not_lt.mpr hle)
    rw [hrsp, S.unborn q hle]
    exact hw.born q hnone hlive

/-- The state of the many CPUs after a step. -/
theorem Shares.next {b b' : Board} {t : Tasks} {e : Timed} (S : Shares place start b t)
    (h : b.m.step e.1 = some b'.m) (hle : b.m.k.nextPid ≤ b'.m.k.nextPid)
    (hknown : b.m.cpu < b.m.k.nextPid)
    (hcpu : b'.m.k.procs b'.m.cpu ≠ none →
      b'.cpu.toContext = Function.update t.contexts b.m.cpu e.2 b'.m.cpu)
    (hwaiting : ∀ q pcb, q ≠ b'.m.cpu → b'.m.k.procs q = some pcb → pcb.rsp.stack = q →
      WordsAt b'.cpu.mem (place pcb.rsp).toNat
        (frame (Function.update t.contexts b.m.cpu e.2 q))) :
    ∃ t', t.step e = some t' ∧ Shares place start b' t' := by
  refine ⟨⟨b'.m, Function.update t.contexts b.m.cpu e.2⟩, ?_, rfl, hcpu, hwaiting, fun q hq => ?_⟩
  · rw [Tasks.step, S.machine, h]
    rfl
  · have hold : b.m.k.nextPid ≤ q := Int.le_trans hle hq
    have hne : q ≠ b.m.cpu := by
      rintro rfl
      exact Int.not_lt.mpr hold hknown
    show Function.update _ _ _ q = _
    rw [Function.update_of_ne hne, S.unborn q hold]

/-- A process whose stack is not in use is not the one that was interrupted. -/
theorem Leaving.ne_cpu {q : Pid} {b : PCB} (L : Leaving m p) (hb : m.k.procs q = some b)
    (hq : q ≠ p) : q ≠ m.cpu := by
  rintro rfl
  rcases eq_or_ne p 0 with rfl | h0
  · cases (L.quiet m.cpu (.inl ⟨rfl, rfl⟩)).dead hq ▸ hb
  · exact hq (L.cpu h0)

/-- The process that runs is on its own stack, or idle is on the one of a dead process. -/
theorem Running.on_own_stack (R : Running m n) {b : PCB} (hb : m.k.procs n = some b)
    (hcpu : m.cpu = b.rsp.stack) (hlive : m.k.procs m.cpu ≠ none) : b.rsp.stack = n := by
  rcases eq_or_ne n 0 with rfl | h0
  · by_contra hne
    exact hlive ((R.quiet m.cpu (.inl ⟨rfl, rfl⟩)).dead (hcpu ▸ hne))
  · exact R.stack n b hb h0

/-- A step of the one CPU is a step of the many. -/
theorem Board.Step.shares {b b' : Board} {t : Tasks} {e : Timed} (S : Shares place start b t)
    (R : Running b.m p) (h : Board.Step place start b e b') :
    ∃ t', t.step e = some t' ∧ Shares place start b' t' := by
  obtain ⟨e, x⟩ := e
  obtain ⟨c, hw, rfl, hclose⟩ := h.code
  cases R.stepped h.step with
  | @stayed k1 next v T hm R' =>
    have heffects : Effects (e.Admits b.m p) b.m.k k1 := by
      rcases T.ends with hends | ⟨hf, _⟩
      · exact hends.effects
      · cases hf
    have hk : b'.m.k = k1 := hm ▸ rfl
    have hcpu : b'.m.cpu = b.m.cpu := hm ▸ rfl
    have hnone : b.m.exchanged b'.m = none := exchanged_of_countP (hk ▸ T.countP_switched)
    have hc : b'.cpu = c := by
      cases hclose with
      | stays _ _ hc => exact hc
      | counts he =>
        subst he
        cases T
      | switches he => cases hnone.symm.trans he
    refine S.next h.step (hk ▸ heffects.nextPid_le) R.cpu_known (fun _ => ?_)
      fun q pcb hq hb hstack => ?_
    · rw [hc, hcpu, Function.update_self]
    · rw [hcpu] at hq
      rw [hc, Function.update_of_ne hq]
      exact hw.frames S R.core heffects hq (hk ▸ hb) (by simp [hb]) hstack
  | @counted off he hm R' =>
    have hprocs : b'.m.k.procs = b.m.k.procs := hm ▸ rfl
    have hcpu : b'.m.cpu = b.m.cpu := hm ▸ rfl
    have hnone : b.m.exchanged b'.m = none := exchanged_of_countP (hm ▸ rfl)
    have I : Interrupts place b.m b'.m (savedAt c) c b'.cpu := by
      cases hclose with
      | stays hne => exact absurd he (hne off)
      | counts _ _ I => exact I
      | switches he => cases hnone.symm.trans he
    refine S.next h.step (le_of_eq (hm ▸ rfl)) R.cpu_known (fun _ => ?_)
      fun q pcb hq hb hstack => ?_
    · obtain ⟨hown, -, hnext⟩ := I.saves
      rw [hcpu, Function.update_self]
      exact hnext _ hown
    · rw [hcpu] at hq
      have hrefl : Effects (e.Admits b.m p) b.m.k b.m.k := .refl
      refine I.frames hb hstack (.inr ⟨hq, ?_⟩)
      exact hw.frames S R.core hrefl hq (hprocs ▸ hb) (by simp [hb]) hstack
  | @switched k1 next off sp p' n T L W hcont hcpu R' =>
    have heffects : Effects (e.Admits b.m p) b.m.k k1 := by
      rcases T.ends with hends | ⟨_, rfl, _⟩
      · exact hends.effects
      · exact .refl
    have hsome := W.exchanged T.countP_switched
    have I : place (.inside b.m.cpu off) = savedAt c ∧
        Interrupts place b.m b'.m (place sp) c b'.cpu := by
      cases hclose with
      | stays _ he => cases hsome.symm.trans he
      | counts _ he => cases hsome.symm.trans he
      | switches he hplace I =>
        obtain ⟨rfl, rfl⟩ := Prod.mk.inj (Option.some.inj (hsome.symm.trans he))
        exact ⟨hplace, I⟩
    have hall : ∀ q pcb, b'.m.k.procs q = some pcb → pcb.rsp.stack = q →
        WordsAt b'.cpu.mem (place pcb.rsp).toNat
          (frame (Function.update t.contexts b.m.cpu c.toContext q)) := by
      intro q pcb hb hstack
      refine I.2.frames hb hstack ?_
      obtain ⟨b1, hb1, hrsp⟩ := L.saved W hb
      rcases eq_or_ne q p' with rfl | hne
      · rw [if_pos rfl] at hrsp
        rw [hrsp] at hstack ⊢
        exact .inl ⟨hstack.symm, I.1⟩
      · have hq : q ≠ b.m.cpu := L.ne_cpu hb1 hne
        rw [if_neg hne] at hrsp
        rw [hrsp] at hstack ⊢
        exact .inr ⟨hq, hw.frames S R.core heffects hq hb1 (by simp [hb]) hstack⟩
    have hle : b.m.k.nextPid ≤ b'.m.k.nextPid := W.rest.nextPid ▸ heffects.nextPid_le
    refine S.next h.step hle R.cpu_known (fun hlive => ?_) fun q pcb _ => hall q pcb
    obtain ⟨bn, hbn, rfl⟩ := W.loaded
    have hown := R'.on_own_stack hbn hcpu hlive
    rw [hcpu, hown]
    exact I.2.saves.2.2 _ (hall n bn hbn hown)

/-! ## Runs -/

theorem boot_cpu_dead : (boot allocs).k.procs (boot allocs).cpu = none := rfl

/-- The first steps, on the stack of `main`. -/
theorem Board.Step.shares_boot {b b' : Board} {t : Tasks} {e : Timed} (S : Shares place start b t)
    (hb : b.m = boot allocs) (h : Board.Step place start b e b') :
    ∃ t', t.step e = some t' ∧ Shares place start b' t' := by
  obtain ⟨e, x⟩ := e
  obtain ⟨m, cpu⟩ := b
  obtain rfl : m = boot allocs := hb
  obtain ⟨c, hw, rfl, hclose⟩ := h.code
  have hrefl : Effects (fun _ => True) (boot allocs).k (boot allocs).k := .refl
  have hwait : ∀ {q pcb}, (boot allocs).k.procs q = some pcb → b'.m.k.procs q ≠ none →
      pcb.rsp.stack = q → q ≠ (boot allocs).cpu ∧
        WordsAt c.mem (place pcb.rsp).toNat (frame (t.contexts q)) := by
    intro q pcb hq hlive hstack
    have hne : q ≠ (boot allocs).cpu := by
      rintro rfl
      cases boot_cpu_dead.symm.trans hq
    exact ⟨hne, hw.frames S boot_core hrefl hne hq hlive hstack⟩
  have hknown : (boot allocs).cpu < (boot allocs).k.nextPid := show (-1 : Int) < 2 by decide
  rcases boot_step h.step with hm | ⟨off, hi⟩
  · refine S.next h.step (le_of_eq (hm ▸ rfl)) hknown (fun hlive => ?_) fun q pcb _ hq hstack => ?_
    · exact absurd (hm ▸ boot_cpu_dead) hlive
    · obtain ⟨hne, hframe⟩ := hwait (hm ▸ hq) (by simp [hq]) hstack
      cases hclose with
      | stays _ _ hc =>
        rw [hc, Function.update_of_ne hne]
        exact hframe
      | counts _ _ I => exact I.frames hq hstack (.inr ⟨hne, hframe⟩)
      | switches he =>
        have hnone : (boot allocs).exchanged b'.m = none := exchanged_of_countP (hm ▸ rfl)
        cases hnone.symm.trans he
  · obtain ⟨_, sp, p, n, W, hcpu, R'⟩ := boot_dispatch hi
    have hsome := W.exchanged (m := boot allocs) rfl
    have I : Interrupts place (boot allocs) b'.m (place sp) c b'.cpu := by
      cases hclose with
      | stays _ he => cases hsome.symm.trans he
      | counts _ he => cases hsome.symm.trans he
      | switches he hplace I =>
        obtain ⟨rfl, rfl⟩ := Prod.mk.inj (Option.some.inj (hsome.symm.trans he))
        exact I
    have hall : ∀ q pcb, b'.m.k.procs q = some pcb → pcb.rsp.stack = q →
        WordsAt b'.cpu.mem (place pcb.rsp).toNat
          (frame (Function.update t.contexts (boot allocs).cpu c.toContext q)) := by
      intro q pcb hq hstack
      obtain ⟨b0, hb0, _, hrsp⟩ := W.saved q pcb hq
      have hfirst : (boot allocs).k.first ≠ false := Bool.noConfusion
      rw [if_neg fun h => hfirst h.2] at hrsp
      rw [hrsp] at hstack
      exact I.frames hq (hrsp ▸ hstack) (.inr (hrsp ▸ hwait hb0 (by simp [hq]) hstack))
    refine S.next h.step (le_of_eq W.rest.nextPid.symm) hknown (fun hlive => ?_)
      fun q pcb _ => hall q pcb
    obtain ⟨bn, hbn, rfl⟩ := W.loaded
    have hown := R'.on_own_stack hbn hcpu hlive
    rw [hcpu, hown]
    exact I.saves.2.2 _ (hall n bn hbn hown)

/-- The contexts of idle and of the shell are on their stacks when `main` has created them. -/
def Booted (place : Sp → UInt64) (start : Pid → Context) (cpu : Cpu) : Prop :=
  ∀ p, p = 0 ∨ p = 1 → WordsAt cpu.mem (place (.initial p)).toNat (frame (start p))

/-- Every run of the one CPU is a run of the many: in each state the process that executes has in
the general registers, `rip`, `rflags`, `cs` and `ss` what it would have in its own CPU, and so
has each process that waits when it goes on. -/
theorem timeSharing {cpu : Cpu} {es : List Timed} {b : Board} (hboot : Booted place start cpu)
    (h : Board.Run place start ⟨boot allocs, cpu⟩ es b) :
    ∃ t, Tasks.run ⟨boot allocs, start⟩ es = some t ∧ Shares place start b t := by
  have hP : (b.m = boot allocs ∨ ∃ p, Running b.m p) ∧
      ∃ t, Tasks.run ⟨boot allocs, start⟩ es = some t ∧ Shares place start b t := by
    induction h with
    | refl =>
      refine ⟨.inl rfl, _, rfl, rfl, fun hlive => absurd boot_cpu_dead hlive, ?_, fun _ _ => rfl⟩
      intro p pcb _ hp _
      rcases boot_live hp with ⟨rfl, rfl⟩ | ⟨rfl, rfl⟩
      · exact hboot 1 (.inr rfl)
      · exact hboot 0 (.inl rfl)
    | @snoc es e b1 b2 hrun hs ih =>
      obtain ⟨hm, t, ht, S⟩ := ih
      have hnext : ∃ t', t.step e = some t' ∧ Shares place start b2 t' := by
        rcases hm with hm | ⟨p, R⟩
        · exact hs.shares_boot S hm
        · exact hs.shares S R
      obtain ⟨t', hstep, S'⟩ := hnext
      refine ⟨?_, t', ?_, S'⟩
      · rcases hm with hm | ⟨p, R⟩
        · rcases boot_step (hm ▸ hs.step) with h | ⟨off, h⟩
          · exact .inl h
          · exact .inr (boot_interrupt h)
        · exact .inr (R.step hs.step)
      · rw [Tasks.run] at ht ⊢
        rw [List.foldlM_append, ht]
        simpa using hstep
  exact hP.2

end Steps

/-- The first tick comes on the stack of `main`, and the registers of the shell are those it starts
with: all of them 0. -/
theorem timeSharing_tick : ∃ (place : Sp → UInt64) (start : Pid → Context) (cpu : Cpu) (t : Tasks)
    (b : Board), Booted place start cpu ∧
    Board.Run place start ⟨boot fun _ => true, cpu⟩ [(.tick 0x1fff60, cpu.toContext)] b ∧
    b.m.cpu = 1 ∧ b.cpu.toContext = start 1 ∧ Shares place start b t := by
  let place : Sp → UInt64 := fun sp => if sp = .inside (-1) 0x1fff60 then 0x1fff60 else 0x10000
  let zero : Context := { reg := fun _ => 0, rip := 0, rflags := 0, cs := 0, ss := 0 }
  let cpu : Cpu := { zero with reg := fun _ => 0x200000, mem := fun _ => 0 }
  have hzero : WordsAt cpu.mem 0x10000 (frame zero) := ⟨by decide, by decide +kernel⟩
  obtain ⟨m, hm, hcpu, hlive, hsome⟩ : ∃ m, (boot fun _ => true).step (.tick 0x1fff60) = some m ∧
      m.cpu = 1 ∧ (m.k.procs 1).isSome = true ∧
        (boot fun _ => true).exchanged m = some (.inside (-1) 0x1fff60, .initial 1) := by
    have hstep : ((boot fun _ => true).step (.tick 0x1fff60)).any (fun m => decide (m.cpu = 1 ∧
        (m.k.procs 1).isSome = true ∧ (boot fun _ => true).exchanged m =
          some (.inside (-1) 0x1fff60, .initial 1))) = true := by
      decide +kernel
    obtain ⟨m, hm, h⟩ := (Option.any_eq_true _ _).mp hstep
    exact ⟨m, hm, of_decide_eq_true h⟩
  have hrsp : ∀ {q b}, m.k.procs q = some b → b.rsp = .initial q := by
    intro q b hb
    rcases boot_step hm with rfl | ⟨off, hi⟩
    · cases hcpu
    · obtain ⟨_, sp, c, n, W, _⟩ := boot_dispatch hi
      exact boot_rsp W hb
  have hworks : Works place (fun _ => zero) (boot fun _ => true) m cpu cpu :=
    ⟨fun _ _ _ _ _ _ => Set.eqOn_refl _ _, fun _ _ _ => hzero⟩
  have hserves : Gate.Serves (span (savedAt cpu).toNat 20 ∪ saved place m.k (-1)) 0x10000 id
      fun c => c.set .rax 0x10000 :=
    ⟨fun _ => ⟨rfl, Set.eqOn_refl _ _⟩, fun _ => ⟨set_of_ne (by decide), Set.eqOn_refl _ _⟩,
      fun _ => set_self⟩
  have hinterrupts : Interrupts place (boot fun _ => true) m 0x10000 cpu
      (execAll (cpu.enter 0) (irq00Handler id fun c => c.set .rax 0x10000)) := by
    refine ⟨by unfold Room; decide, ?_, 0, _, _, hserves, rfl⟩
    refine Set.disjoint_left.mpr ?_
    rintro x ⟨hlow, _⟩ ⟨q, b, _, hb, _, _, hhigh⟩
    rw [hrsp hb] at hhigh
    have hlt : (savedAt cpu).toNat < (0x10000 : UInt64).toNat + 8 * 20 := hlow.trans_lt hhigh
    exact absurd hlt (by decide)
  have hrun : Board.Run place (fun _ => zero) ⟨boot fun _ => true, cpu⟩
      ([] ++ [(.tick 0x1fff60, cpu.toContext)])
      ⟨m, execAll (cpu.enter 0) (irq00Handler id fun c => c.set .rax 0x10000)⟩ :=
    .snoc .refl ⟨hm, cpu, hworks, rfl, .switches hsome (by decide) hinterrupts⟩
  have hbooted : Booted place (fun _ => zero) cpu := fun _ _ => hzero
  obtain ⟨t, ht, S⟩ := timeSharing hbooted hrun
  have hcontext : t.contexts 1 = zero := by
    have hstep : (Tasks.mk (boot fun _ => true) fun _ => zero).step (.tick 0x1fff60, cpu.toContext) =
        some ⟨m, Function.update (fun _ => zero) (-1) cpu.toContext⟩ := by
      rw [Tasks.step, hm]
      rfl
    have hone : (Tasks.mk (boot fun _ => true) fun _ => zero).step (.tick 0x1fff60, cpu.toContext) =
        some t := by simpa [Tasks.run] using ht
    rw [← Option.some.inj (hstep.symm.trans hone)]
    have hne : (1 : Pid) ≠ -1 := by decide
    simp [hne]
  refine ⟨place, fun _ => zero, cpu, t, _, hbooted, hrun, hcpu, ?_, S⟩
  rw [← hcontext, ← hcpu]
  exact S.cpu (by simpa [hcpu, Option.isSome_iff_ne_none] using hlive)

end SoKernel
