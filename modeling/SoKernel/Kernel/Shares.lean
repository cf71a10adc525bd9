import SoKernel.Kernel.RoundRobin

/-!
# Shares of the CPU

`schedule` counts a turn down and `calculateQuantum` says how long the next one is. Ticks are
charged to the process they interrupt.

Results:
1. `Running.ticked`: what a tick does to the ready queue and to the turn.
2. `reach_shares`: who gets more ticks over a rotation of the ready queue.
-/

namespace SoKernel

/-- The priority of a process. -/
def Kernel.priority (k : Kernel) (p : Pid) : Option Int := (k.procs p).map PCB.priority

/-- `quantum` when the process is dispatched. -/
def Kernel.turn (k : Kernel) (p : Pid) : Nat :=
  ((k.priority p).map fun n => (calculateQuantum n).toNat).getD 0

section Schedule

variable {k k' : Kernel} {rsp sp : Sp} {p c : Pid} {b b' : PCB}

theorem setPCB_priority (hb : k.procs p = some b) (h : b'.priority = b.priority) :
    (k.setPCB p b').priority = k.priority := by
  funext x
  rcases eq_or_ne x p with rfl | hx
  · simp [Kernel.priority, Kernel.setPCB, hb, h]
  · simp [Kernel.priority, Kernel.setPCB, hx]

theorem suspend_priority (hb : k.procs c = some b) :
    (suspend k c b rsp).priority = k.priority := by
  have hset : (k.setPCB c (suspendedPCB k.first b rsp)).priority = k.priority :=
    setPCB_priority hb rfl
  rw [← hset]
  funext x
  rw [Kernel.priority, Core.suspend_procs]
  rfl

theorem getNextProcess_procs (h : getNextProcess k = some (k', p)) : k'.procs = k.procs := by
  unfold getNextProcess at h
  split at h
  · obtain ⟨idle, _, h⟩ := Option.bind_eq_some_iff.mp h
    obtain ⟨rfl, _⟩ := Prod.mk.inj (Option.some.inj h)
    rfl
  · obtain ⟨process, _, h⟩ := Option.bind_eq_some_iff.mp h
    obtain ⟨rfl, _⟩ := Prod.mk.inj (Option.some.inj h)
    split <;> rfl

/-- With no quantum left the next process is dispatched with its own. -/
theorem schedule_turn (hq : k.quantum ≤ 0) (h : schedule k rsp = some (k', sp)) :
    k'.priority = k.priority ∧
      ∃ n, k'.priority k'.currentPid = some n ∧ k'.quantum = calculateQuantum n := by
  obtain ⟨current, _, h⟩ := Option.bind_eq_some_iff.mp h
  obtain ⟨process, hb, h⟩ := Option.bind_eq_some_iff.mp h
  rw [if_neg fun hrun => absurd hrun.1 (Int.not_lt.mpr hq)] at h
  obtain ⟨⟨k1, next⟩, hnext, h⟩ := Option.bind_eq_some_iff.mp h
  obtain ⟨b, hbn, h⟩ := Option.bind_eq_some_iff.mp h
  obtain ⟨rfl, _⟩ := Prod.mk.inj (Option.some.inj h)
  have hset : (k1.setPCB next { b with state := .RUNNING }).priority = k1.priority :=
    setPCB_priority hbn rfl
  have hprio : k1.priority = k.priority := by
    have hsuspend : (suspend k current process rsp).priority = k.priority := suspend_priority hb
    rw [← hsuspend]
    funext x
    rw [Kernel.priority, getNextProcess_procs hnext, Kernel.priority]
  refine ⟨hset.trans hprio, b.priority, ?_, rfl⟩
  refine (congrFun hset next).trans ?_
  rw [Kernel.priority, hbn]
  rfl

end Schedule

section Ticking

variable {m m' : Machine} {c p : Pid} {e : Event} {off : Nat}

/-- Without a dispatch the same process goes on. -/
theorem Running.goesOn (R : Running m c) (h : m.step e = some m') (hd : dispatched m m' = []) :
    m'.k.currentPid = m.k.currentPid := by
  rw [R.settled.currentPid]
  cases R.stepped h with
  | stayed _ _ R' => exact R'.settled.currentPid
  | counted _ _ R' => exact R'.settled.currentPid
  | @switched k1 _ _ _ _ n T _ W _ _ _ =>
    rw [W.dispatched_eq T.countP_switched] at hd
    cases hd

/-- A tick: the turn is counted down, or the front of the ready queue begins its own. -/
theorem Running.ticked (R : Running m c) (hne : m.k.queue .ready ≠ [])
    (h : m.step (.tick off) = some m') : m'.k.priority = m.k.priority ∧
      (0 < m.k.quantum ∧ m'.k.quantum = m.k.quantum - 1 ∧
          m'.k.queue .ready = m.k.queue .ready ∧ m'.k.currentPid = m.k.currentPid ∧
          dispatched m m' = [] ∨
        m.k.quantum ≤ 0 ∧ ∃ n rest, m.k.queue .ready = n :: rest ∧
          m'.k.queue .ready = rest ++ [n] ∧ m'.k.currentPid = n ∧ dispatched m m' = [n] ∧
          m'.k.quantum.toNat = m'.k.turn n) := by
  have hi : m.interrupt off = some m' := by
    simp only [Machine.step] at h
    split at h
    · exact h
    · cases h
  obtain ⟨⟨k', sp⟩, hsched, h⟩ := Option.bind_eq_some_iff.mp hi
  cases h
  rcases Int.lt_or_le 0 m.k.quantum with hq | hq
  · obtain ⟨b, hb, hrun⟩ := R.settled.running
    have hcount : schedule m.k (.inside m.cpu off) =
        some ({ m.k with quantum := m.k.quantum - 1 }, .inside m.cpu off) := by
      simp [schedule, R.settled.current, hb, hq, hrun]
    obtain ⟨rfl, _⟩ := Prod.mk.inj (Option.some.inj (hcount.symm.trans hsched))
    exact ⟨rfl, .inl ⟨hq, rfl, rfl, rfl, if_pos rfl⟩⟩
  · obtain ⟨hprio, x, hx, hquantum⟩ := schedule_turn hq hsched
    refine ⟨hprio, .inr ⟨hq, ?_⟩⟩
    rcases R.core.schedule (.inside m.cpu off) with ⟨hpos, _⟩ | ⟨k1, sp1, _, n, h1, _, S, W⟩
    · exact absurd hpos (Int.not_lt.mpr hq)
    · obtain ⟨rfl, rfl⟩ := Prod.mk.inj (Option.some.inj (h1.symm.trans hsched))
      rcases W.ready with ⟨hnil, _⟩ | ⟨rest, hfront, hback⟩
      · exact absurd hnil hne
      · refine ⟨n, rest, hfront, hback, S.currentPid, ?_, ?_⟩
        · rw [Switch.dispatched_eq (m := m) W rfl, S.currentPid]
        · rw [S.currentPid] at hx
          show k1.quantum.toNat = k1.turn n
          rw [hquantum, Kernel.turn, hx]
          rfl

end Ticking

/-! ## Rotations -/

/-- A step in which nobody yields, becomes ready or stops being it, or gets another
priority. -/
structure Undisturbed (m m' : Machine) : Prop where
  ready : m'.k.queue .ready = m.k.queue .ready
  quantum : m'.k.quantum = m.k.quantum
  priority : ∀ p ∈ m.k.queue .ready, m'.k.priority p = m.k.priority p
  goesOn : dispatched m m' = []

/-- A run of ticks, and of steps that do not disturb them: the processes the ticks are charged
to, and those dispatched. -/
inductive Shared (m : Machine) : List Pid → List Pid → Machine → Prop
  | refl : Shared m [] [] m
  | tick {charged ds : List Pid} {m1 m2 : Machine} (off : Nat) : Shared m charged ds m1 →
      m1.step (.tick off) = some m2 →
      Shared m (charged ++ [m1.k.currentPid]) (ds ++ dispatched m1 m2) m2
  | other {charged ds : List Pid} {m1 m2 : Machine} (e : Event) : Shared m charged ds m1 →
      m1.step e = some m2 → Undisturbed m1 m2 → Shared m charged ds m2

/-- A complete rotation of the ready queue: everybody is dispatched once, and at the end the
same process is at the same tick of its turn. -/
structure Rotation (m : Machine) (charged : List Pid) (m' : Machine) : Prop where
  once : ∃ ds, Shared m charged ds m' ∧ ∀ p ∈ m.k.queue .ready, ds.count p = 1
  running : m'.k.currentPid = m.k.currentPid
  quantum : m'.k.quantum = m.k.quantum

/-- A larger priority number gets more ticks, and equal numbers get the same. -/
def SharesByPriority (m : Machine) (charged : List Pid) : Prop :=
  ∀ p ∈ m.k.queue .ready, ∀ q ∈ m.k.queue .ready, ∀ x y,
    m.k.priority p = some x → m.k.priority q = some y →
      (x < y → charged.count p < charged.count q) ∧ (x = y → charged.count p = charged.count q)

/-- The ready queue and the turn. -/
def Machine.rota (m : Machine) : Rota Pid :=
  { queue := m.k.queue .ready, running := m.k.currentPid, left := m.k.quantum.toNat }

section Rotations

variable {m m' : Machine} {c p : Pid} {charged ds : List Pid} {x : Int}

/-- What is the same all along. -/
structure Going (m m' : Machine) : Prop where
  running : ∃ c, Running m' c
  ready : (m'.k.queue .ready).Perm (m.k.queue .ready)
  priority : ∀ p ∈ m.k.queue .ready, m'.k.priority p = m.k.priority p

theorem Shared.ticked (h : Shared m charged ds m') (R : Running m c)
    (hne : m.k.queue .ready ≠ []) :
    Going m m' ∧ Ticked m.k.turn m.rota charged ds m'.rota := by
  induction h with
  | refl => exact ⟨⟨⟨c, R⟩, .refl _, fun _ _ => rfl⟩, .refl⟩
  | @tick charged ds m1 m2 off _ hs ih =>
    obtain ⟨G, T⟩ := ih
    obtain ⟨c1, R1⟩ := G.running
    have hne1 : m1.k.queue .ready ≠ [] := fun hnil => hne (hnil ▸ G.ready).symm.eq_nil
    obtain ⟨hprio, hcase⟩ := R1.ticked hne1 hs
    have hkept : ∀ p ∈ m.k.queue .ready, m2.k.priority p = m.k.priority p :=
      fun p hp => (congrFun hprio p).trans (G.priority p hp)
    rcases hcase with ⟨hpos, hq, hready, hcur, hd⟩ | ⟨hle, n, rest, hfront, hback, hcur, hd, hq⟩
    · refine ⟨⟨R1.step hs, hready ▸ G.ready, hkept⟩, ?_⟩
      have hleft : m1.k.quantum.toNat = m2.k.quantum.toNat + 1 := by omega
      have h1 : m1.rota = ⟨m1.k.queue .ready, m1.k.currentPid, m2.k.quantum.toNat + 1⟩ := by
        rw [Machine.rota, hleft]
      have h2 : m2.rota = ⟨m1.k.queue .ready, m1.k.currentPid, m2.k.quantum.toNat⟩ := by
        rw [Machine.rota, hready, hcur]
      rw [hd, List.append_nil, h2]
      exact (h1 ▸ T).count
    · have hn : n ∈ m.k.queue .ready := G.ready.mem_iff.mp (hfront ▸ List.mem_cons_self)
      have hturn : m2.k.turn n = m.k.turn n := by rw [Kernel.turn, hkept n hn, Kernel.turn]
      refine ⟨⟨R1.step hs, ?_, hkept⟩, ?_⟩
      · rw [hback]
        exact (List.perm_append_singleton n rest).trans (hfront ▸ G.ready)
      · have h1 : m1.rota = ⟨n :: rest, m1.k.currentPid, 0⟩ := by
          rw [Machine.rota, hfront, Int.toNat_of_nonpos hle]
        have h2 : m2.rota = ⟨rest ++ [n], n, m.k.turn n⟩ := by
          rw [Machine.rota, hback, hcur, hq, hturn]
        rw [hd, h2]
        exact (h1 ▸ T).next
  | @other charged ds m1 m2 e _ hs U ih =>
    obtain ⟨G, T⟩ := ih
    obtain ⟨c1, R1⟩ := G.running
    refine ⟨⟨R1.step hs, U.ready ▸ G.ready, fun p hp => ?_⟩, ?_⟩
    · exact (U.priority p (G.ready.mem_iff.mpr hp)).trans (G.priority p hp)
    · have h2 : m2.rota = m1.rota := by
        rw [Machine.rota, U.ready, U.quantum, R1.goesOn hs U.goesOn, Machine.rota]
      rwa [h2]

/-- Over a rotation each process gets the ticks of one turn. -/
theorem Rotation.count (h : Rotation m charged m') (R : Running m c) (hp : p ∈ m.k.queue .ready) :
    charged.count p = m.k.turn p + 1 := by
  obtain ⟨ds, hshared, honce⟩ := h.once
  obtain ⟨_, T⟩ := hshared.ticked R (List.ne_nil_of_mem hp)
  rw [T.share h.running (congrArg Int.toNat h.quantum), honce p hp, Nat.mul_one]

/-- The larger the number of a priority, the shorter is the turn. -/
theorem turn_eq (hx : m.k.priority p = some x) (hle : x ≤ maxPriority) :
    (m.k.turn p : Int) = QUANTUM * (maxPriority - x + 1) := by
  have hidle : x ≠ idlePriority := fun h => absurd (h ▸ hle) (by decide)
  rw [Kernel.turn, hx, Option.map_some, Option.getD_some, calculateQuantum, if_neg hidle]
  refine Int.toNat_of_nonneg (Int.mul_nonneg (by decide) ?_)
  omega

end Rotations

/-- Priorities in the range of `changePrio`. -/
def InRange (m : Machine) : Prop :=
  ∀ p ∈ m.k.queue .ready, ∀ x, m.k.priority p = some x → minPriority ≤ x ∧ x ≤ maxPriority

/-- In every reachable state and for every rotation: the ticks follow the priorities exactly
when all of these are the same. -/
theorem reach_shares {allocs : Nat → Bool} {m m' : Machine} {charged : List Pid}
    (h : Reach allocs Run.anyEvent m) (hrange : InRange m) (hrot : Rotation m charged m') :
    SharesByPriority m charged ↔ ∀ p ∈ m.k.queue .ready, ∀ q ∈ m.k.queue .ready,
      m.k.priority p = m.k.priority q := by
  rcases h.cases with rfl | ⟨c, R⟩
  · -- before the first tick there is only the shell
    have hone : ∀ p ∈ (boot allocs).k.queue .ready, p = 1 := fun p hp => (boot_member hp).2
    refine iff_of_true ?_ ?_
    · intro p hp q hq x y hx hy
      obtain rfl := (hone p hp).trans (hone q hq).symm
      obtain rfl := Option.some.inj (hx.symm.trans hy)
      exact ⟨fun hlt => absurd hlt (Int.lt_irrefl x), fun _ => rfl⟩
    · exact fun p hp q hq => by rw [hone p hp, hone q hq]
  · have hturn : ∀ p ∈ m.k.queue .ready, ∀ x, m.k.priority p = some x →
        (charged.count p : Int) = QUANTUM * (maxPriority - x + 1) + 1 := by
      intro p hp x hx
      rw [hrot.count R hp, ← turn_eq hx (hrange p hp x hx).2]
      rfl
    have hsome : ∀ p ∈ m.k.queue .ready, ∃ x, m.k.priority p = some x := by
      intro p hp
      obtain ⟨b, hb, _⟩ := R.core.member _ p hp
      exact ⟨b.priority, by rw [Kernel.priority, hb]; rfl⟩
    constructor
    · intro hs p hp q hq
      obtain ⟨x, hx⟩ := hsome p hp
      obtain ⟨y, hy⟩ := hsome q hq
      have hpx := hturn p hp x hx
      have hqy := hturn q hq y hy
      unfold QUANTUM at hpx hqy
      rw [hx, hy]
      refine congrArg some ?_
      -- the larger number has the shorter turn
      rcases Int.lt_trichotomy x y with hlt | heq | hgt
      · have hcount := (hs p hp q hq x y hx hy).1 hlt
        omega
      · exact heq
      · have hcount := (hs q hq p hp y x hy hx).1 hgt
        omega
    · intro hall p hp q hq x y hx hy
      have hxy : x = y := Option.some.inj (hx.symm.trans ((hall p hp q hq).trans hy))
      refine ⟨fun hlt => absurd hxy (Int.ne_of_lt hlt), fun _ => Int.ofNat.inj ?_⟩
      exact (hturn p hp x hx).trans (hxy ▸ (hturn q hq y hy).symm)

/-- `n` ticks, as `Shared` shows them. -/
def ticks : Nat → Machine → Option (List Pid × List Pid × Machine)
  | 0, m => some ([], [], m)
  | n + 1, m => do
    let (charged, ds, m1) ← ticks n m
    let m2 ← m1.step (.tick 0)
    some (charged ++ [m1.k.currentPid], ds ++ dispatched m1 m2, m2)

theorem shared_of_ticks {n : Nat} {m m' : Machine} {charged ds : List Pid}
    (h : ticks n m = some (charged, ds, m')) : Shared m charged ds m' := by
  induction n generalizing charged ds m' with
  | zero =>
    cases h
    exact .refl
  | succ n ih =>
    obtain ⟨⟨charged1, ds1, m1⟩, h1, h⟩ := Option.bind_eq_some_iff.mp h
    obtain ⟨m2, hs, h⟩ := Option.bind_eq_some_iff.mp h
    cases h
    exact .tick 0 (ih h1) hs

/-- The shell, with priority 0, and a process with priority `n`; the shell has begun a turn. -/
def shellAndOther (n : Nat) : List Event :=
  [.tick 0, .call 0 (.createProcess { backgroundArgs with priority := n }), .call 0 .yield,
    .resume 0]

/-- The shell and a process with priority `y` rotate in `i` and `j` ticks. -/
def RotatesIn (i j : Nat) (y : Int) (m : Machine) : Prop :=
  m.k.queue .ready = [2, 1] ∧ m.k.priority 1 = some 0 ∧ m.k.priority 2 = some y ∧
    (ticks (i + j) m).any (fun r => decide (r.1.count 1 = i ∧ r.1.count 2 = j ∧
      r.2.1.count 1 = 1 ∧ r.2.1.count 2 = 1 ∧ r.2.2.k.currentPid = m.k.currentPid ∧
      r.2.2.k.quantum = m.k.quantum)) = true

instance (i j : Nat) (y : Int) : DecidablePred (RotatesIn i j y) :=
  fun _ => inferInstanceAs (Decidable (_ ∧ _))

theorem RotatesIn.rotation {m : Machine} {i j : Nat} {y : Int} (h : RotatesIn i j y m) :
    ∃ charged m', Rotation m charged m' ∧ charged.count 1 = i ∧ charged.count 2 = j := by
  obtain ⟨hq, _, _, hticks⟩ := h
  cases ht : ticks (i + j) m with
  | none =>
    rw [ht] at hticks
    cases hticks
  | some r =>
    obtain ⟨charged, ds, m'⟩ := r
    rw [ht] at hticks
    obtain ⟨hi, hj, h1, h2, hcur, hquantum⟩ := of_decide_eq_true hticks
    refine ⟨charged, m', ⟨⟨ds, shared_of_ticks ht, ?_⟩, hcur, hquantum⟩, hi, hj⟩
    rw [hq]
    exact List.forall_mem_cons.mpr ⟨h2, List.forall_mem_singleton.mpr h1⟩

theorem RotatesIn.inRange {m : Machine} {i j : Nat} {y : Int} (h : RotatesIn i j y m)
    (hy : minPriority ≤ y ∧ y ≤ maxPriority) : InRange m := by
  obtain ⟨hq, h1, h2, _⟩ := h
  rw [InRange, hq]
  refine List.forall_mem_cons.mpr ⟨fun x hx => ?_, List.forall_mem_singleton.mpr fun x hx => ?_⟩
  · obtain rfl := Option.some.inj (h2.symm.trans hx)
    exact hy
  · obtain rfl := Option.some.inj (h1.symm.trans hx)
    decide

theorem reach_shares_two : ∃ m charged m', Reach (fun _ => true) Run.anyEvent m ∧
    m.k.queue .ready = [2, 1] ∧ Rotation m charged m' ∧ SharesByPriority m charged := by
  obtain ⟨m, _, hm, hrun⟩ : ∃ m,
      Run.exec Machine.step Run.anyEvent (boot fun _ => true) (shellAndOther 0) = some m ∧
        Reach (fun _ => true) Run.anyEvent m ∧ RotatesIn 19 19 0 m :=
    Run.exists_exec (by decide +kernel)
  obtain ⟨charged, m', hrot, _, _⟩ := hrun.rotation
  obtain ⟨hq, h1, h2, _⟩ := id hrun
  refine ⟨m, charged, m', hm, hq, hrot, ?_⟩
  refine (reach_shares hm (hrun.inRange (by decide)) hrot).mpr ?_
  have hzero : ∀ p ∈ m.k.queue .ready, m.k.priority p = some 0 := by
    rw [hq]
    exact List.forall_mem_cons.mpr ⟨h2, List.forall_mem_singleton.mpr h1⟩
  exact fun p hp q hq => (hzero p hp).trans (hzero q hq).symm

/-- The shell has priority 0 and gets 19 ticks; the other process has priority 1 and gets 16. -/
theorem lower_number_gets_more : ∃ m charged m', Reach (fun _ => true) Run.anyEvent m ∧
    m.k.queue .ready = [2, 1] ∧ InRange m ∧ Rotation m charged m' ∧
      ¬ SharesByPriority m charged := by
  obtain ⟨m, _, hm, hrun⟩ : ∃ m,
      Run.exec Machine.step Run.anyEvent (boot fun _ => true) (shellAndOther 1) = some m ∧
        Reach (fun _ => true) Run.anyEvent m ∧ RotatesIn 19 16 1 m :=
    Run.exists_exec (by decide +kernel)
  obtain ⟨charged, m', hrot, hi, hj⟩ := hrun.rotation
  obtain ⟨hq, h1, h2, _⟩ := id hrun
  refine ⟨m, charged, m', hm, hq, hrun.inRange (by decide), hrot, fun hshares => ?_⟩
  have hlt := (hshares 1 (hq ▸ by decide) 2 (hq ▸ by decide) 0 1 h1 h2).1 (by decide)
  rw [hi, hj] at hlt
  exact absurd hlt (by decide)

end SoKernel
