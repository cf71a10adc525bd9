import SoKernel.Kernel.Blocked
import SoKernel.Kernel.Children

/-!
# Waiting for a child

A process inside `waitpid` is in `blockedQueue` until its child dies. Who is blocked by a
system call after it has been woken, and before it runs, waits for a child that is dead.

Results:
1. `Reach.ties`: whom a process waits for is its child.
2. `reach_waitpid`: no wake-up is lost.
-/

namespace SoKernel

/-- What is known of parents, and of the children they wait for. -/
structure Ties (k : Kernel) : Prop where
  older : ∀ p q x, k.tie p = some (q, x) → q < p
  child : ∀ p q x, k.tie p = some (q, x) → x = -1 ∨
    x < k.nextPid ∧ ∀ r y, k.tie x = some (r, y) → r = p

/-- `waitpid` is never what is left after a `semWait`. -/
def Cont.Flat : Cont → Prop
  | .waited _ next => (∃ v, next = .ret v) ∨ ∃ slot op stage, next = .pipe slot op stage
  | _ => True

/-- A process inside `waitpid` waits for the child that the call names. -/
structure Waiters (m : Machine) : Prop where
  ties : Ties m.k
  flat : ∀ p, (m.cont p).Flat
  names : ∀ p x q y, m.cont p = .waitpid x → m.k.tie p = some (q, y) → y = x
  idle : ∀ x, m.cont 0 ≠ .waitpid x

section Effects

variable {k k' k1 : Kernel} {l : Label} {p x c : Pid} {m m' : Machine} {e : Event} {next : Cont}
  {flow : Flow} {off : Nat}

theorem Ties.congr (T : Ties k) (ht : ∀ p, k'.tie p = k.tie p) (hn : k'.nextPid = k.nextPid) :
    Ties k' := by
  refine ⟨fun p q x h => T.older p q x (ht p ▸ h), fun p q x h => ?_⟩
  rcases T.child p q x (ht p ▸ h) with h | ⟨hlt, hx⟩
  · exact .inl h
  · exact .inr ⟨hn ▸ hlt, fun r y hr => hx r y (ht x ▸ hr)⟩

theorem Ties.effect (T : Ties k) (C : Core k) (h : Effect l k k') (hb : ∀ q, l ≠ .block q) :
    Ties k' := by
  have hnew : ∀ {c}, Executing k c → c < k.nextPid := by
    intro c hc
    obtain ⟨c', b, hc', hb⟩ := C.current
    obtain rfl := Option.some.inj (hc.current.symm.trans hc')
    exact (C.pcb _ _ hb).2.2
  have hback : ∀ {p q x}, k'.tie p = some (q, x) →
      k.tie p = some (q, x) ∨ p = k.nextPid ∧ q < p ∧ x = -1 := by
    intro p q x hp
    rcases h.tie (p := p) (hb p) with ht | ht | ⟨hn, _, c, hc, ht⟩
    · exact .inl (ht ▸ hp)
    · cases ht.symm.trans hp
    · obtain ⟨rfl, rfl⟩ := Prod.mk.inj (Option.some.inj (ht.symm.trans hp))
      exact .inr ⟨hn, hn ▸ hnew hc, rfl⟩
  constructor
  · intro p q x hp
    rcases hback hp with hp | ⟨_, hlt, _⟩
    · exact T.older p q x hp
    · exact hlt
  · intro p q x hp
    rcases hback hp with hp | ⟨_, _, hx⟩
    · rcases T.child p q x hp with hx | ⟨hlt, hx⟩
      · exact .inl hx
      · refine .inr ⟨Int.lt_of_lt_of_le hlt h.nextPid_le, fun r y hr => ?_⟩
        rcases hback hr with hr | ⟨rfl, _⟩
        · exact hx r y hr
        · exact absurd hlt (Int.lt_irrefl _)
    · exact .inl hx

theorem Ties.effects {allow : Label → Prop} (T : Ties k) (C : Core k) (h : Effects allow k k')
    (hb : ∀ q, ¬ allow (.block q)) : Ties k' := by
  refine (h.invariant (P := fun k => Core k ∧ Ties k) ⟨C, T⟩ ?_).2
  rintro l a a' hl ⟨Ca, Ta⟩ he
  refine ⟨Ca.effect he, Ta.effect Ca he ?_⟩
  rintro q rfl
  exact hb q hl

/-- The tie of a process that is there already is the old one. -/
theorem Effects.tie_back {allow : Label → Prop} {t : Pid × Pid} (h : Effects allow k k')
    (hb : ¬ allow (.block p)) (hlt : p < k.nextPid) (ht : k'.tie p = some t) : k.tie p = some t := by
  refine (h.invariant (P := fun k' => k.nextPid ≤ k'.nextPid ∧ (k'.tie p = some t → k.tie p = some t))
    ⟨Int.le_refl _, id⟩ ?_).2 ht
  rintro l a a' hl ⟨hle, hback⟩ he
  refine ⟨Int.le_trans hle he.nextPid_le, fun ht => ?_⟩
  rcases he.tie (p := p) (fun h => hb (h ▸ hl)) with h | h | ⟨h, _⟩
  · exact hback (h ▸ ht)
  · cases h.symm.trans ht
  · exact absurd (Int.lt_of_lt_of_le hlt hle) (h ▸ Int.lt_irrefl _)

/-- A process enters `blockedQueue` by `block`, or is new. -/
theorem Effect.enters_blocked (h : Effect l k k') (C : Core k) (hp : p ∈ k'.queue .blocked)
    (hb : l ≠ .block p) (he : l ≠ .enter p) : p ∈ k.queue .blocked := by
  have hmove : ∀ (f t : QueueName) (x : Pid) (b : PCB), f ≠ t → (t = .blocked → p ≠ x) →
      p ∈ (k.move f t x b).queue .blocked → p ∈ k.queue .blocked := by
    intro f t x b hft hx hp
    rcases (mem_move (C.nodup f) hft).mp hp with ⟨hp, _⟩ | ⟨ht, hp⟩
    · exact hp
    · exact absurd hp (hx ht.symm)
  cases h with
  | block => exact hmove .ready .blocked _ _ (by decide) (fun _ h => hb (h ▸ rfl)) hp
  | unblock => exact hmove .blocked .ready _ _ (by decide) (by simp) hp
  | @sleep _ _ x _ _ b' => exact hmove .ready .blockedBySem x b' (by decide) (by simp) hp
  | stray => exact hmove .ready .blockedBySem _ _ (by decide) (by simp) hp
  | @wake _ _ x _ _ b' => exact hmove .blockedBySem .ready x b' (by decide) (by simp) hp
  | @enter _ x q =>
    have hpx : p ≠ x := fun h => he (h ▸ rfl)
    rcases eq_or_ne q .blocked with rfl | hq
    · simpa [Kernel.setQueue, hpx] using hp
    · simpa [Kernel.setQueue, hq.symm] using hp
  | @die _ x f _ b' _ hf => exact hmove f .zombie x b' hf (by simp) hp
  | reap => simpa [Kernel.setQueue] using hp
  | _ => exact hp

theorem Effects.enters_blocked {allow : Label → Prop} (h : Effects allow k k') (C : Core k)
    (hp : p ∈ k'.queue .blocked) (hb : ¬ allow (.block p)) (he : ¬ allow (.enter p)) :
    p ∈ k.queue .blocked := by
  refine (h.invariant (P := fun k' => Core k' ∧ (p ∈ k'.queue .blocked → p ∈ k.queue .blocked))
    ⟨C, id⟩ ?_).2 hp
  rintro l a a' hl ⟨Ca, hback⟩ hea
  refine ⟨Ca.effect hea, fun hp => hback (hea.enters_blocked Ca hp ?_ ?_)⟩
  · rintro rfl
    exact hb hl
  · rintro rfl
    exact he hl

/-! ## Deeds -/

/-- Nobody but the caller of `waitpid` is blocked but by `block`. -/
theorem Call.Admits.block {call : Call} (h : call.Admits k c (.block p)) : call = .block p := by
  cases call with
  | block q =>
    rcases h with h | h
    · cases h
    · cases h
      rfl
  | _ => simp [Call.Admits, Label.Killing, Label.Mourning, Label.Creating, Label.Counting] at h

/-- A process that enters a queue is new. -/
theorem Call.Admits.enter {call : Call} (h : call.Admits k c (.enter p)) : p = k.nextPid := by
  cases call with
  | createProcess args =>
    rcases h with h | h | h | h
    · simp [Label.Counting] at h
    · cases h
    · cases h
    · cases h
      rfl
  | _ => simp [Call.Admits, Label.Killing, Label.Mourning] at h

theorem StartsWaiting.tie (h : StartsWaiting k c x k1) (hpc : p ≠ c) : k1.tie p = k.tie p := by
  obtain ⟨b, t, _, _, _, _, rfl⟩ := h
  show (k.move _ _ _ _).tie p = _
  simp [Kernel.tie, hpc]

theorem StartsWaiting.tie_self (h : StartsWaiting k c x k1) :
    ∃ q y, k.tie c = some (q, y) ∧ k1.tie c = some (q, x) := by
  obtain ⟨b, t, hb, _, _, _, rfl⟩ := h
  refine ⟨b.parentPid, b.waitingForPid, tie_eq_some.mpr ⟨b, hb, rfl, rfl⟩, ?_⟩
  show (k.move _ _ _ _).tie c = _
  simp [Kernel.tie]

/-- The child that `waitpid` has found is a child. -/
theorem StartsWaiting.child (h : StartsWaiting k c x k1) (T : Ties k) (C : Core k) :
    ∃ y, k.tie x = some (c, y) := by
  obtain ⟨b, t, hb, ht, _, hchild, _⟩ := h
  refine ⟨t.waitingForPid, tie_eq_some.mpr ⟨t, ht, ?_, rfl⟩⟩
  rcases hchild with hq | rfl
  · exact hq
  · have hpos := (C.pcb _ _ ht).2.1
    rcases T.child c _ _ (tie_eq_some.mpr ⟨b, hb, rfl, rfl⟩) with hneg | ⟨_, hx⟩
    · rw [hneg] at hpos
      exact absurd hpos (by decide)
    · exact hx _ _ (tie_eq_some.mpr ⟨t, ht, rfl, rfl⟩)

/-- It is neither the caller nor idle, so it is in a queue. -/
theorem StartsWaiting.placed (h : StartsWaiting k c x k1) (T : Ties k) (C : Core k)
    (E : Executing k c) : k.Placed x := by
  obtain ⟨y, htx⟩ := h.child T C
  have hlt := T.older x c y htx
  obtain ⟨b, _, hb, _, hget, _⟩ := h
  unfold getProcess at hget
  split at hget
  · next hin =>
    rcases hin with hq | hq | hq | hq | hq | hq
    · exact ⟨_, hq⟩
    · exact ⟨_, hq⟩
    · exact ⟨_, hq⟩
    · exact ⟨_, hq⟩
    · obtain rfl := Option.some.inj (E.current.symm.trans hq)
      exact absurd hlt (Int.lt_irrefl _)
    · obtain rfl := Option.some.inj (C.idle.symm.trans hq)
      exact absurd (C.pcb _ _ hb).2.1 (Int.not_le.mpr hlt)
  · cases hget

theorem StartsWaiting.ties (h : StartsWaiting k c x k1) (T : Ties k) (C : Core k) : Ties k1 := by
  obtain ⟨q0, y0, hold, hnew⟩ := h.tie_self
  obtain ⟨z, hx⟩ := h.child T C
  have hn : k1.nextPid = k.nextPid := by
    obtain ⟨_, _, _, _, _, _, rfl⟩ := h
    rfl
  -- the parents are the old ones
  have hparent : ∀ {p q y}, k1.tie p = some (q, y) → ∃ y', k.tie p = some (q, y') := by
    intro p q y hp
    rcases eq_or_ne p c with rfl | hpc
    · obtain ⟨rfl, _⟩ := Prod.mk.inj (Option.some.inj (hnew.symm.trans hp))
      exact ⟨y0, hold⟩
    · exact ⟨y, h.tie hpc ▸ hp⟩
  constructor
  · intro p q y hp
    obtain ⟨y', hp⟩ := hparent hp
    exact T.older p q y' hp
  · intro p q y hp
    rcases eq_or_ne p c with rfl | hpc
    · obtain ⟨_, rfl⟩ := Prod.mk.inj (Option.some.inj (hnew.symm.trans hp))
      obtain ⟨b, hb, _⟩ := tie_eq_some.mp hx
      refine .inr ⟨hn ▸ (C.pcb _ _ hb).2.2, fun r w hr => ?_⟩
      obtain ⟨w', hr⟩ := hparent hr
      exact (Prod.mk.inj (Option.some.inj (hr.symm.trans hx))).1
    · rw [h.tie hpc] at hp
      rcases T.child p q y hp with hy | ⟨hlt, hy⟩
      · exact .inl hy
      · refine .inr ⟨hn ▸ hlt, fun r w hr => ?_⟩
        obtain ⟨w', hr⟩ := hparent hr
        exact hy r w' hr

end Effects

/-! ## Steps -/

section Steps

variable {k1 : Kernel} {p x c : Pid} {m m' : Machine} {e : Event} {next : Cont} {flow : Flow}

/-- What the effects of a step that is no `block` do. -/
structure Deed.Keeps (m : Machine) (c : Pid) (k1 : Kernel) : Prop where
  ties : Ties k1
  /-- Who is there already waits for whom it waited for. -/
  tie : ∀ p t, p ≠ c → p < m.k.nextPid → k1.tie p = some t → m.k.tie p = some t
  blocked : ∀ p, p ≠ c → p < m.k.nextPid → p ∈ k1.queue .blocked → p ∈ m.k.queue .blocked

theorem Deed.keeps (D : Deed m c e k1) (hb : ∀ off q, e ≠ .call off (.block q)) (C : Core m.k)
    (T : Ties m.k) : Deed.Keeps m c k1 := by
  have hall : ∀ {allow : Label → Prop}, Effects allow m.k k1 → (∀ q, ¬ allow (.block q)) →
      (∀ q, allow (.enter q) → q = m.k.nextPid) → Deed.Keeps m c k1 := by
    intro allow h hblock henter
    refine ⟨T.effects C h hblock, fun p t _ hlt ht => h.tie_back (hblock p) hlt ht,
      fun p _ hlt hp => h.enters_blocked C hp (hblock p) fun he => ?_⟩
    exact Int.lt_irrefl _ (henter p he ▸ hlt)
  cases D with
  | calls he h =>
    subst he
    refine hall h (fun q hl => ?_) fun q hl => ?_
    · rcases hl with hl | hl
      · exact hb _ q (congrArg _ hl.block)
      · exact hl
    · rcases hl with hl | hl
      · exact hl.enter
      · exact hl.elim
  | kills _ h =>
    exact hall h (by simp [Label.Killing, Label.Mourning]) (by simp [Label.Killing, Label.Mourning])
  | waits h =>
    exact hall h (by simp [Label.Awaiting, Label.Noting]) (by simp [Label.Awaiting, Label.Noting])
  | works h =>
    exact hall h (by simp [Label.Posting, Label.Noting]) (by simp [Label.Posting, Label.Noting])
  | waitsForChild hw h =>
    refine ⟨hw.ties T C, fun p t hpc _ ht => hw.tie hpc ▸ ht, fun p hpc _ hp => ?_⟩
    exact h.enters_blocked C hp (by simpa using hpc) (by simp)

/-- A `block` changes no tie, and blocks one process. -/
theorem Running.block_step {off : Nat} {q : Pid} (R : Running m c)
    (h : m.step (.call off (.block q)) = some m') :
    (∀ p, m'.k.tie p = m.k.tie p) ∧ m'.k.nextPid = m.k.nextPid ∧
      ∀ p, p ≠ q → p ∈ m'.k.queue .blocked → p ∈ m.k.queue .blocked := by
  obtain ⟨_, hcall⟩ := Machine.call_of_step h
  obtain ⟨⟨k1, flow⟩, h1, h2⟩ := Option.bind_eq_some_iff.mp hcall
  have E := blockProcess_ends R.settled.current h1
  have S := Machine.finish_samePlaces (R.core.effects E.effects) h2
  have hties : (∀ p, k1.tie p = m.k.tie p) ∧ k1.nextPid = m.k.nextPid := by
    have hmove : ∀ {b : PCB}, m.k.procs q = some b → ∀ p,
        (m.k.move .ready .blocked q { b with state := .BLOCKED }).tie p = m.k.tie p := by
      intro b hb p
      rcases eq_or_ne p q with rfl | hpq
      · simp [Kernel.tie, hb]
      · simp [Kernel.tie, hpq]
    rcases blockProcess_cases R.settled.current h1 with
      ⟨rfl, _⟩ | ⟨_, b, hb, ⟨_, rfl, _⟩ | ⟨_, rfl, _⟩⟩
    · exact ⟨fun _ => rfl, rfl⟩
    · exact ⟨hmove hb, rfl⟩
    · exact ⟨hmove hb, rfl⟩
  refine ⟨fun p => (S.tie p).trans (hties.1 p), S.nextPid.trans hties.2, fun p hpq hp => ?_⟩
  exact E.effects.enters_blocked R.core ((S.mem _ _).mp hp) (by simpa using hpq) (by simp)

/-- Only a call of `waitpid` leaves a `waitpid` to finish. -/
theorem Turn.next_waitpid (T : Turn m c e k1 next flow) (hf : (m.cont m.cpu).Flat)
    (hn : next = .waitpid x) :
    m.Calls ∧ StartsWaiting m.k c x k1 ∧ ∃ off, e = .call off (.waitpid x) := by
  cases T with
  | waitpidBlocked hcalls _ _ hw =>
    cases hn
    exact ⟨hcalls, hw, _, rfl⟩
  | waited hcont =>
    rw [hcont, hn] at hf
    rcases hf with ⟨_, h⟩ | ⟨_, _, _, h⟩ <;> cases h
  | _ => cases hn

theorem Turn.next_flat (T : Turn m c e k1 next flow) (hf : (m.cont m.cpu).Flat) : next.Flat := by
  cases T with
  | semSlept => exact .inl ⟨_, rfl⟩
  | slept => exact .inr ⟨_, _, _, rfl⟩
  | waited hcont =>
    rw [hcont] at hf
    rcases hf with ⟨_, rfl⟩ | ⟨_, _, _, rfl⟩ <;> trivial
  | _ => trivial

/-- A step keeps the ties, and the waiters inside their calls. -/
theorem Running.waiters_step (R : Running m c) (W : Waiters m) (h : m.step e = some m') :
    Waiters m' := by
  obtain ⟨k1, next, flow, T, hcont, S⟩ := R.turned h
  have hflat : ∀ p, (m'.cont p).Flat := by
    intro p
    rw [hcont]
    rcases eq_or_ne p m.cpu with rfl | hp
    · rw [Function.update_self]
      exact T.next_flat (W.flat _)
    · rw [Function.update_of_ne hp]
      exact W.flat p
  have hold : ∀ {p x}, p ≠ m.cpu → m'.cont p = .waitpid x →
      m.cont p = .waitpid x ∧ p < m.k.nextPid := by
    intro p x hp hx
    rw [hcont, Function.update_of_ne hp] at hx
    refine ⟨hx, Int.lt_of_not_ge fun hle => ?_⟩
    cases (R.fresh p hle).symm.trans hx
  have hidle : ∀ x, m'.cont 0 ≠ .waitpid x := by
    intro x hx
    rcases eq_or_ne 0 m.cpu with h0 | h0
    · rw [hcont, h0, Function.update_self] at hx
      have B := Machine.Busy.of_calls R.toOnCpu (T.next_waitpid (W.flat _) hx).1
      exact B.notIdle (B.cpu_eq.symm.trans h0.symm)
    · rw [hcont, Function.update_of_ne h0] at hx
      exact W.idle x hx
  by_cases hblock : ∃ off q, e = .call off (.block q)
  · obtain ⟨off, q, rfl⟩ := hblock
    obtain ⟨hties, hnext, _⟩ := R.block_step h
    refine ⟨W.ties.congr hties hnext, hflat, fun p x q y hx hy => ?_, hidle⟩
    rw [hties] at hy
    rcases eq_or_ne p m.cpu with rfl | hp
    · rw [hcont, Function.update_self] at hx
      cases T with
      | _ => cases hx
    · exact W.names p x q y (hold hp hx).1 hy
  · have K := T.deed.keeps (fun off q he => hblock ⟨off, q, he⟩) R.core W.ties
    refine ⟨K.ties.congr S.tie S.nextPid, hflat, fun p x q y hx hy => ?_, hidle⟩
    rw [S.tie] at hy
    rcases eq_or_ne p m.cpu with rfl | hp
    · rw [hcont, Function.update_self] at hx
      obtain ⟨hcalls, hw, _⟩ := T.next_waitpid (W.flat _) hx
      have hcpu := (Machine.Busy.of_calls R.toOnCpu hcalls).cpu_eq
      obtain ⟨q0, _, _, hnew⟩ := hw.tie_self
      rw [hcpu] at hy
      exact (Prod.mk.inj (Option.some.inj (hy.symm.trans hnew))).2
    · obtain ⟨hx, hlt⟩ := hold hp hx
      rcases eq_or_ne p c with rfl | hpc
      · rcases eq_or_ne p 0 with rfl | h0
        · exact absurd hx (W.idle x)
        · exact absurd (R.cpu h0).symm hp
      · exact W.names p x q y hx (K.tie p _ hpc hlt hy)

/-- The process `p`, if it is blocked inside `waitpid`, waits for a child that lives. -/
def Guarded (p : Pid) (m : Machine) : Prop :=
  ∀ x, m.cont p = .waitpid x → p ∈ m.k.queue .blocked → m.k.Placed x

/-- A child that is waited for is younger. -/
theorem Waiters.waitsForChild (W : Waiters m) (C : Core m.k) (hx : m.cont p = .waitpid x)
    (hp : p ∈ m.k.queue .blocked) (hlive : m.k.Placed x) :
    m.k.WaitsForChild p x ∧ p < x ∧ 0 < p := by
  obtain ⟨b, hb, _⟩ := C.member _ _ hp
  obtain ⟨q, hq⟩ := hlive
  obtain ⟨t, ht, _⟩ := C.member _ _ hq
  have hpos : 0 < p := lt_of_le_of_ne (C.pcb _ _ hb).2.1 (C.ne_zero hp).symm
  have htp : m.k.tie p = some (b.parentPid, b.waitingForPid) := tie_eq_some.mpr ⟨b, hb, rfl, rfl⟩
  have htx : m.k.tie x = some (t.parentPid, t.waitingForPid) := tie_eq_some.mpr ⟨t, ht, rfl, rfl⟩
  have hname := W.names p x _ _ hx htp
  have hparent : t.parentPid = p := by
    rcases W.ties.child p _ _ htp with hneg | ⟨_, hchild⟩
    · have hxpos := (C.pcb _ _ ht).2.1
      rw [← hname, hneg] at hxpos
      exact absurd hxpos (by decide)
    · exact hchild _ _ (hname ▸ htx)
  exact ⟨⟨b, t, hb, ht, hname, hparent⟩, hparent ▸ W.ties.older x _ _ htx, hpos⟩

/-- The death of the child makes the process ready. -/
theorem Running.wakes (R : Running m c) (W : Waiters m) (h : m.step e = some m')
    (hx : m.cont p = .waitpid x) (hp : p ∈ m.k.queue .blocked) (hk : e.Kills m x)
    (hlive : m.k.Placed x) : p ∈ m'.k.queue .ready := by
  obtain ⟨hwaits, hlt, _⟩ := W.waitsForChild R.core hx hp hlive
  have hu : ¬ e.Unblocks p := by
    intro hu
    cases e with
    | call off call =>
      cases call with
      | unblock q => cases hk.2
      | _ => exact hu
    | _ => exact hu
  have hkp : ¬ e.Kills m p := by
    rintro ⟨_, ht⟩
    exact absurd hlt (Option.some.inj (ht.symm.trans hk.2) ▸ Int.lt_irrefl _)
  rcases R.blocked_step h hp hu hkp with ⟨_, hr⟩ | ⟨hw, _⟩
  · exact hr
  · exact absurd ⟨x, hk, hlive, hwaits⟩ hw

/-- What is left is a `waitpid` whose child is in no queue any more. -/
def Cont.Late (k : Kernel) : Cont → Prop
  | .waitpid x => ¬ k.Placed x
  | _ => False

/-- The step is a system call `block(p)` while `p` is inside `waitpid`, with a child that is
already dead. -/
def Event.BlocksLate (m : Machine) (p : Pid) : Event → Prop
  | .call _ (.block q) => q = p ∧ (m.cont p).Late m.k
  | _ => False

instance (k : Kernel) (p : Pid) : Decidable (k.Placed p) :=
  decidable_of_iff (p ∈ k.queue .ready ∨ p ∈ k.queue .blocked ∨ p ∈ k.queue .blockedBySem ∨
    p ∈ k.queue .zombie)
    ⟨fun h => by rcases h with h | h | h | h <;> exact ⟨_, h⟩,
      fun ⟨q, h⟩ => by cases q <;> simp [h]⟩

instance (k : Kernel) : (c : Cont) → Decidable (c.Late k)
  | .waitpid x => inferInstanceAs (Decidable (¬ k.Placed x))
  | .user | .ret _ | .waited _ _ | .pipe _ _ _ => .isFalse id

instance (m : Machine) (p : Pid) : (e : Event) → Decidable (e.BlocksLate m p)
  | .call _ (.block q) => inferInstanceAs (Decidable (q = p ∧ (m.cont p).Late m.k))
  | .tick _ | .ctrlC _ | .resume _ => .isFalse id
  | .call _ .yield | .call _ (.createProcess _) | .call _ (.kill _ _) | .call _ (.exit _)
  | .call _ (.unblock _) | .call _ (.waitpid _) | .call _ (.changePrio _ _)
  | .call _ (.semOpen _ _) | .call _ (.semWait _) | .call _ (.semPost _) | .call _ (.semClose _)
  | .call _ .openPipe | .call _ (.closePipe _) | .call _ (.clearPipe _)
  | .call _ (.readPipe _ _) | .call _ (.writePipe _ _) => .isFalse id

theorem Running.guarded_step (R : Running m c) (W : Waiters m) (G : Guarded p m)
    (h : m.step e = some m') (hb : ¬ e.BlocksLate m p) : Guarded p m' := by
  intro x hx hp
  obtain ⟨k1, next, flow, T, hcont, S⟩ := R.turned h
  rw [hcont] at hx
  rcases eq_or_ne p m.cpu with rfl | hcpu
  · -- the call of `waitpid` itself, which has found the child
    rw [Function.update_self] at hx
    obtain ⟨hcalls, hw, _, he⟩ := T.next_waitpid (W.flat _) hx
    have B := Machine.Busy.of_calls R.toOnCpu hcalls
    exact R.placed_step h (hw.placed W.ties R.core B.executing) (by simp [he, Event.target])
  · rw [Function.update_of_ne hcpu] at hx
    have hlt : p < m.k.nextPid := by
      refine Int.lt_of_not_ge fun hle => ?_
      cases (R.fresh p hle).symm.trans hx
    have hpc : p ≠ c := by
      rintro rfl
      rcases eq_or_ne p 0 with rfl | h0
      · exact W.idle x hx
      · exact hcpu (R.cpu h0).symm
    by_cases hlate : ∃ off, e = .call off (.block p)
    · -- the process is blocked while its child lives
      obtain ⟨off, rfl⟩ := hlate
      have hlive : m.k.Placed x := by
        by_contra hdead
        exact hb ⟨rfl, hx ▸ hdead⟩
      exact R.placed_step h hlive (by simp [Event.target])
    have hold : p ∈ m.k.queue .blocked := by
      by_cases hblock : ∃ off q, e = .call off (.block q)
      · obtain ⟨off, q, rfl⟩ := hblock
        refine (R.block_step h).2.2 p ?_ hp
        rintro rfl
        exact hlate ⟨off, rfl⟩
      · have K := T.deed.keeps (fun off q he => hblock ⟨off, q, he⟩) R.core W.ties
        exact K.blocked p hpc hlt ((S.mem _ _).mp hp)
    have hlive := G x hx hold
    obtain ⟨_, hxp, hpos⟩ := W.waitsForChild R.core hx hold hlive
    refine R.placed_step h hlive fun ht => ?_
    -- the death of the child has made the process ready
    have hk : e.Kills m x := ⟨Int.lt_of_le_of_lt (Int.add_one_le_of_lt hpos) hxp, ht⟩
    obtain ⟨_, R'⟩ := R.step h
    cases R'.core.queue_eq (R.wakes W h hx hold hk hlive) hp

end Steps

/-! ## Runs -/

section Runs

variable {allocs : Nat → Bool} {ok : Machine → Event → Prop} {m m0 : Machine} {p : Pid}

theorem boot_waiters : Waiters (boot allocs) := by
  have htie : ∀ {p q x}, (boot allocs).k.tie p = some (q, x) → q < p ∧ x = -1 := by
    intro p q x h
    obtain ⟨b, hb, rfl, rfl⟩ := tie_eq_some.mp h
    rcases boot_live hb with ⟨rfl, rfl⟩ | ⟨rfl, rfl⟩ <;> exact ⟨by decide, rfl⟩
  refine ⟨⟨fun p q x h => (htie h).1, fun p q x h => .inl (htie h).2⟩, fun _ => trivial, ?_, ?_⟩
  · intro p x q y h
    cases h
  · intro x h
    cases h

/-- In every run a process inside `waitpid` waits for a child of its own. -/
theorem Reach.waiters (h : Reach allocs ok m) : Waiters m := by
  refine h.machine boot_waiters ?_ fun R W _ hs => R.waiters_step W hs
  intro off m' hi
  obtain ⟨hcont, _, _, _, W, _⟩ := boot_dispatch hi
  have S := W.samePlaces
  refine ⟨boot_waiters.ties.congr S.tie S.nextPid, ?_, ?_, ?_⟩ <;> rw [hcont]
  · exact boot_waiters.flat
  · intro p x q y hx hy
    cases hx
  · exact boot_waiters.idle

/-- No wake-up of `p` is lost from now on. -/
structure NoLostWakeUp (p : Pid) (m0 : Machine) : Prop where
  /-- As long as `block` does not block `p` inside `waitpid` after the death of its child, it is
  blocked there only while its child lives. -/
  guarded : ∀ m x, Run Machine.step (fun m e => ¬ e.BlocksLate m p) m0 m →
    m.cont p = .waitpid x → p ∈ m.k.queue .blocked →
    ∃ q b, q ≠ .zombie ∧ x ∈ m.k.queue q ∧ m.k.procs x = some b ∧ b.state ≠ .ZOMBIE
  /-- In any case the death of the child makes it ready. -/
  woken : ∀ m x e m', Run Machine.step Run.anyEvent m0 m → m.cont p = .waitpid x →
    p ∈ m.k.queue .blocked → m.k.Placed x → m.step e = some m' → e.Kills m x →
    p ∈ m'.k.queue .ready

/-- From any reachable state in which `p` is not inside `waitpid`. -/
theorem reach_waitpid (h : Reach allocs Run.anyEvent m0) (hp : ∀ x, m0.cont p ≠ .waitpid x) :
    NoLostWakeUp p m0 := by
  constructor
  · intro m x hrun hx hb
    have hall : Reach allocs Run.anyEvent m ∧ Guarded p m := by
      refine hrun.invariant (P := fun m => Reach allocs Run.anyEvent m ∧ Guarded p m)
        ⟨h, fun x hx => absurd hx (hp x)⟩ ?_
      rintro t t' e ⟨ht, G⟩ he hs
      refine ⟨.snoc e ht trivial hs, ?_⟩
      rcases ht.cases with rfl | ⟨c, R⟩
      · intro x hx
        rcases boot_step hs with rfl | ⟨off, hi⟩
        · cases hx
        · rw [(boot_dispatch hi).1] at hx
          cases hx
      · exact R.guarded_step ht.waiters G hs he
    obtain ⟨hreach, G⟩ := hall
    obtain ⟨q, hq⟩ := G x hx hb
    have hz : q ≠ .zombie := by
      rintro rfl
      rw [hreach.core.2.1] at hq
      cases hq
    obtain ⟨b, hb, _⟩ := hreach.core.1.member q x hq
    have hplain := hreach.core.1.plain x b hb (by simp [hreach.core.2.1])
    refine ⟨q, b, hz, hq, hb, fun hzombie => ?_⟩
    rw [hzombie] at hplain
    cases hplain
  · intro m x e m' hrun hx hb hlive hs hk
    have hm : Reach allocs Run.anyEvent m := Run.trans h hrun
    rcases hm.cases with rfl | ⟨c, R⟩
    · cases hx
    · exact R.wakes hm.waiters hs hx hb hk hlive

/-- The shell waits for its first child; the second one makes it ready, and blocks it again
while the first one lives. -/
def blockedInTime : List Event :=
  [.tick 0, .call 0 (.createProcess backgroundArgs), .call 0 (.createProcess backgroundArgs),
    .call 0 (.waitpid 2), .call 0 .yield, .call 0 (.unblock 1), .call 0 (.block 1)]

theorem blockedInTime_run :
    ∃ m, Run.exec Machine.step (fun m e => ¬ e.BlocksLate m 1) (boot fun _ => true)
        blockedInTime = some m ∧
      Run Machine.step (fun m e => ¬ e.BlocksLate m 1) (boot fun _ => true) m ∧
      m.cont 1 = .waitpid 2 ∧ 1 ∈ m.k.queue .blocked :=
  Run.exists_exec (by decide +kernel)

theorem reach_waitpid_shell : ∃ m, Reach (fun _ => true) Run.anyEvent m ∧
    m.cont 1 = .waitpid 2 ∧ 1 ∈ m.k.queue .blocked ∧
    (∃ q b, q ≠ .zombie ∧ 2 ∈ m.k.queue q ∧ m.k.procs 2 = some b ∧ b.state ≠ .ZOMBIE) ∧
    ∀ e m', m.step e = some m' → e.Kills m 2 → 1 ∈ m'.k.queue .ready := by
  obtain ⟨m, _, hrun, hx, hb⟩ := blockedInTime_run
  have hm : Reach (fun _ => true) Run.anyEvent m := hrun.mono fun _ _ _ => trivial
  have H : NoLostWakeUp 1 (boot fun _ => true) := reach_waitpid .refl fun x h => (by cases h)
  have hlive := H.guarded m 2 hrun hx hb
  refine ⟨m, hm, hx, hb, hlive, fun e m' hs hk => ?_⟩
  obtain ⟨q, _, _, hq, _⟩ := hlive
  exact H.woken m 2 e m' hm hx hb ⟨q, hq⟩ hs hk

/-- The shell waits for its first child; the second one kills it, and blocks the shell
before it runs again. -/
def wokenAndBlocked : List Event :=
  [.tick 0, .call 0 (.createProcess backgroundArgs), .call 0 (.createProcess backgroundArgs),
    .call 0 (.waitpid 2), .call 0 .yield, .call 0 (.kill 2 0), .call 0 (.block 1)]

theorem wokenAndBlocked_run :
    ∃ m, Run.exec Machine.step Run.anyEvent (boot fun _ => true) wokenAndBlocked = some m ∧
      Reach (fun _ => true) Run.anyEvent m ∧ m.cont 1 = .waitpid 2 ∧
      1 ∈ m.k.queue .blocked ∧ m.k.procs 2 = none :=
  Run.exists_exec (by decide +kernel)

/-- A process can be blocked inside `waitpid` while its child is dead. -/
theorem waitpid_blocked_late : ∃ m, Reach (fun _ => true) Run.anyEvent m ∧
    m.cont 1 = .waitpid 2 ∧ 1 ∈ m.k.queue .blocked ∧ ¬ ∃ q, 2 ∈ m.k.queue q := by
  obtain ⟨m, _, hm, hx, hb, hdead⟩ := wokenAndBlocked_run
  refine ⟨m, hm, hx, hb, fun ⟨q, hq⟩ => ?_⟩
  obtain ⟨b, hb, _⟩ := hm.core.1.member q 2 hq
  cases hdead.symm.trans hb

end Runs

end SoKernel
