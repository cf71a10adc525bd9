import SoKernel.Kernel.Standing

/-!
# How long a process waits for the CPU

The others are served in order, and `calculateQuantum` bounds the turn each of them gets. So a
process at position `j` of the ready queue is dispatched before `19 * (j + 1)` timer ticks are
over, whatever the processes do, unless it stops being ready.

Results:
1. `Paced.stable`: priorities and turns stay in their ranges, and only a dispatch makes the turn
   longer.
2. `Reach.pays`: a tick is paid for from the turn, or by a dispatch.
3. `reach_boundedWait`: the bound.
-/

namespace SoKernel

/-- Turns are of 18 ticks at most. After `d` dispatches the turn is of `a` ticks at most, until
the next dispatch. -/
structure Paced (a : Int) (d : Nat) (k : Kernel) : Prop where
  priority : ∀ p b, k.procs p = some b → minPriority ≤ b.priority ∧ b.priority ≤ idlePriority
  nonneg : 0 ≤ k.quantum
  le : k.quantum ≤ QUANTUM * (maxPriority + 1)
  since : d ≤ k.handovers
  turn : k.handovers = d → k.quantum ≤ a

section

variable {k k' : Kernel} {a n : Int} {d : Nat} {allocs : Nat → Bool} {m m' : Machine} {e : Event}
  {off : Nat} {p : Pid}

theorem calculateQuantum_range (h : minPriority ≤ n ∧ n ≤ idlePriority) :
    0 ≤ calculateQuantum n ∧ calculateQuantum n ≤ QUANTUM * (maxPriority + 1) := by
  unfold minPriority idlePriority at h
  unfold calculateQuantum idlePriority maxPriority QUANTUM
  split
  · decide
  · next hidle => omega

/-- The turn is given up, or goes on. -/
theorem Paced.kept (h : Paced a d k) (ha : 0 ≤ a)
    (hp : ∀ p b, k'.procs p = some b → minPriority ≤ b.priority ∧ b.priority ≤ idlePriority)
    (hq : k'.quantum = k.quantum ∨ k'.quantum = 0) (hs : k'.handovers = k.handovers) :
    Paced a d k' := by
  rcases hq with hq | hq
  · exact ⟨hp, hq ▸ h.nonneg, hq ▸ h.le, hs ▸ h.since, fun hd => hq ▸ h.turn (hs ▸ hd)⟩
  · exact ⟨hp, hq ▸ Int.le_refl 0, hq ▸ by decide, hs ▸ h.since, fun _ => hq ▸ ha⟩

theorem Paced.ranks (h : Paced a d k) (ha : 0 ≤ a) (hn : minPriority ≤ n ∧ n ≤ idlePriority)
    (hr : Ranks n k k') : Paced a d k' := by
  refine h.kept ha (fun p b' hb' => ?_) hr.quantum hr.handovers
  rcases hr.pcb p b' hb' with heq | ⟨b, hb, heq⟩
  · exact heq ▸ hn
  · exact heq ▸ h.priority p b hb

theorem newPCB_priority_le {args : ProcessArgs} :
    minPriority ≤ (newPCB k args).priority ∧ (newPCB k args).priority ≤ idlePriority := by
  unfold newPCB minPriority idlePriority maxPriority
  dsimp only
  split <;> omega

/-- What the dispatcher does to the turn. -/
theorem Paced.schedule {rsp : Sp} {r : Kernel × Sp} (h : Paced a d k)
    (hs : schedule k rsp = some r) : Paced a d r.1 := by
  obtain ⟨hlasts, hturn⟩ := schedule_lasts hs
  have hprio : ∀ p b, r.1.procs p = some b →
      minPriority ≤ b.priority ∧ b.priority ≤ idlePriority := by
    intro p b' hb'
    obtain ⟨b, hb, hsame⟩ := hlasts p b' hb'
    exact hsame.priority ▸ h.priority p b hb
  rcases hturn with ⟨hpos, hq, hsw⟩ | ⟨hsw, p, b, hb, hq⟩
  · refine ⟨hprio, ?_, ?_, hsw ▸ h.since, fun hd => ?_⟩ <;> rw [hq]
    · exact Int.sub_nonneg_of_le hpos
    · exact Int.le_trans (Int.sub_le_self _ (by decide)) h.le
    · exact Int.le_trans (Int.sub_le_self _ (by decide)) (h.turn (hsw ▸ hd))
  · have hrange := calculateQuantum_range (h.priority p b hb)
    have hlt : d < r.1.handovers := hsw ▸ Nat.lt_succ_of_le h.since
    exact ⟨hprio, hq ▸ hrange.1, hq ▸ hrange.2, Nat.le_of_lt hlt,
      fun hd => absurd hd.symm (Nat.ne_of_lt hlt)⟩

theorem Paced.stable (ha : 0 ≤ a) : Stable (Paced a d) := by
  refine .of_steady (fun h hs => ?_) (fun h r hr => h.schedule hr) (fun h r hr => ?_)
    fun h r hr => ?_
  · exact h.ranks ha (n := 0) (by decide) hs.ranks
  · exact h.ranks ha newPCB_priority_le (createProcess_ranks r hr)
  · obtain ⟨x, hmin, hmax, hranks⟩ := changePrio_ranks
    exact h.ranks ha ⟨hmin, Int.le_trans hmax (by decide)⟩ (hranks r hr)

/-! ## Ticks and dispatches -/

/-- A tick of the timer. -/
def Event.ticks : Event → Nat
  | .tick _ => 1
  | _ => 0

theorem boot_paced : Paced 0 0 (boot allocs).k := by
  have hq : (boot allocs).k.quantum = 0 := boot_quantum
  refine ⟨fun p b hb => ?_, Int.le_of_eq hq.symm, ?_, Nat.zero_le _, fun _ => Int.le_of_eq hq⟩
  swap
  · rw [hq]
    decide
  rcases boot_live hb with ⟨rfl, rfl⟩ | ⟨rfl, rfl⟩ <;> decide

theorem Reach.paced (h : Reach allocs Run.anyEvent m) : Paced m.k.quantum m.k.handovers m.k := by
  have hall : Paced 0 0 m.k :=
    h.invariant (P := fun m => Paced 0 0 m.k) boot_paced
      fun hP _ hs => (Paced.stable (Int.le_refl 0)).step hP hs
  exact ⟨hall.priority, hall.nonneg, hall.le, Nat.le_refl _, fun _ => Int.le_refl _⟩

theorem length_dispatched :
    (dispatched m m').length = if m'.k.handovers = m.k.handovers then 0 else 1 := by
  unfold dispatched Kernel.handovers
  split <;> rfl

theorem Event.ticks_le : e.ticks ≤ 1 := by
  cases e with
  | tick off => exact Nat.le_refl 1
  | _ => exact Nat.zero_le 1

/-- A tick is paid for from the turn, or by a dispatch: this gives 18 ticks at most, after the
one in which it happens. -/
theorem Reach.pays (h : Reach allocs Run.anyEvent m) (hs : m.step e = some m') :
    (e.ticks : Int) + m'.k.quantum ≤
      m.k.quantum + (QUANTUM * (maxPriority + 1) + 1) * (dispatched m m').length := by
  have hpaced := h.paced
  have hnext := (Paced.stable hpaced.nonneg).step hpaced hs
  have hlast : m'.k.quantum ≤ 18 := hnext.le
  have hfirst := hpaced.nonneg
  rw [show QUANTUM * (maxPriority + 1) + 1 = 19 from rfl]
  by_cases hsw : m'.k.handovers = m.k.handovers
  · rw [length_dispatched, if_pos hsw]
    cases e with
    | tick off =>
      simp only [Machine.step] at hs
      split at hs
      · obtain ⟨r, hr, hs⟩ := Option.bind_eq_some_iff.mp hs
        cases hs
        rcases (schedule_lasts hr).2 with ⟨_, hq, _⟩ | ⟨hgiven, _⟩
        · show (1 : Int) + r.1.quantum ≤ _
          rw [hq]
          omega
        · exact absurd (hsw.symm.trans hgiven) (Nat.succ_ne_self _).symm
      · cases hs
    | _ => simpa [Event.ticks] using hnext.turn hsw
  · rw [length_dispatched, if_neg hsw]
    have hticks : e.ticks ≤ 1 := Event.ticks_le
    omega

/-- A continuation in which `p` is ready all the time and never dispatched, with its ticks. -/
inductive Waits (p : Pid) (m : Machine) : Nat → Machine → Prop
  | refl : p ∈ m.k.queue .ready → Waits p m 0 m
  | snoc {n : Nat} {m1 m2 : Machine} (e : Event) : Waits p m n m1 → m1.step e = some m2 →
      p ∈ m2.k.queue .ready → p ∉ dispatched m1 m2 → Waits p m (n + e.ticks) m2

theorem Waits.pays {n : Nat} (h : Reach allocs Run.anyEvent m) (hw : Waits p m n m') :
    ∃ ds, WhileReady p m m' ds ∧ p ∉ ds ∧
      (n : Int) + m'.k.quantum ≤
        m.k.quantum + (QUANTUM * (maxPriority + 1) + 1) * ds.length := by
  induction hw with
  | refl hp => exact ⟨[], ⟨.refl, hp⟩, List.not_mem_nil, by simp⟩
  | @snoc n m1 m2 e hw hs hp hd ih =>
    obtain ⟨ds, hready, hout, hpaid⟩ := ih
    have hstep := Reach.pays (Run.trans h (hready.1.run.mono fun _ _ _ => trivial)) hs
    refine ⟨ds ++ dispatched m1 m2, ⟨.snoc e hready.1 hready.2 hs, hp⟩, ?_, ?_⟩
    · rw [List.mem_append, not_or]
      exact ⟨hout, hd⟩
    · rw [List.length_append]
      push_cast
      rw [Int.mul_add]
      omega

/-- In every reachable state a process at position `j` of the ready queue is dispatched within
`19 * (j + 1)` ticks if it stays ready that long. -/
theorem reach_boundedWait {n : Nat} (h : Reach allocs Run.anyEvent m) (hw : Waits p m n m') :
    (n : Int) < (QUANTUM * (maxPriority + 1) + 1) * ((m.k.queue .ready).idxOf p + 1) := by
  obtain ⟨ds, hready, hout, hpaid⟩ := hw.pays h
  have hserved : ds.length ≤ (m.k.queue .ready).idxOf p :=
    (h.served hready).length_le hready.mem hout
  have hreach : Reach allocs Run.anyEvent m' :=
    Run.trans h (hready.1.run.mono fun _ _ _ => trivial)
  have hend := hreach.paced.nonneg
  have hbegin : m.k.quantum ≤ 18 := h.paced.le
  rw [show QUANTUM * (maxPriority + 1) + 1 = 19 from rfl] at *
  omega

/-- `n` ticks during which `p` waits. -/
def waitTicks (p : Pid) : Nat → Machine → Option Machine
  | 0, m => if p ∈ m.k.queue .ready then some m else none
  | n + 1, m => do
    let m1 ← waitTicks p n m
    let m2 ← m1.step (.tick 0)
    if p ∈ m2.k.queue .ready ∧ p ∉ dispatched m1 m2 then some m2 else none

theorem waits_of_waitTicks {n : Nat} (h : waitTicks p n m = some m') : Waits p m n m' := by
  induction n generalizing m' with
  | zero =>
    unfold waitTicks at h
    split at h
    · next hp =>
      cases h
      exact .refl hp
    · cases h
  | succ n ih =>
    obtain ⟨m1, h1, h⟩ := Option.bind_eq_some_iff.mp h
    obtain ⟨m2, hs, h⟩ := Option.bind_eq_some_iff.mp h
    split at h
    · next hp =>
      cases h
      exact .snoc (.tick 0) (ih h1) hs hp.1 hp.2
    · cases h

/-- Two processes take turns; one of them waits for the whole turn of the other. -/
theorem reach_boundedWait_three : ∃ m m', Reach (fun _ => true) Run.anyEvent m ∧
    Waits 3 m 15 m' ∧
    ((15 : Nat) : Int) < (QUANTUM * (maxPriority + 1) + 1) * ((m.k.queue .ready).idxOf 3 + 1) := by
  obtain ⟨m, _, hm, hw⟩ : ∃ m, Run.exec Machine.step Run.anyEvent (boot fun _ => true)
      blockTheShell = some m ∧ Reach (fun _ => true) Run.anyEvent m ∧
        (waitTicks 3 15 m).isSome = true := Run.exists_exec (by decide +kernel)
  obtain ⟨m', hw⟩ := Option.isSome_iff_exists.mp hw
  exact ⟨m, m', hm, waits_of_waitTicks hw, reach_boundedWait hm (waits_of_waitTicks hw)⟩

end

end SoKernel
