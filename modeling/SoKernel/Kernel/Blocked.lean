import SoKernel.Kernel.Contexts
import SoKernel.Kernel.Family

/-!
# Blocked processes

`blockedQueue` holds the processes that a system call `block` has put there and those that
wait in `waitpid`. The death of a child makes its parent ready when `waiting_for_pid` names
the child, and that field is left as it is when `waitpid` returns early.

Results:
1. `kill_blocked`: which kill makes a blocked process ready.
2. `block_lasts`: a manual block lasts exactly until a child dies that the process waits
   for, or has waited for.
-/

namespace SoKernel

/-- `p` waits, or has waited, for its child `x`. -/
def Kernel.WaitsForChild (k : Kernel) (p x : Pid) : Prop :=
  ∃ b t, k.procs p = some b ∧ k.procs x = some t ∧ b.waitingForPid = x ∧ t.parentPid = p

/-- The step is a system call `unblock(p)`. -/
def Event.Unblocks (p : Pid) : Event → Prop
  | .call _ (.unblock q) => q = p
  | _ => False

/-! ## What effects do to the queue -/

section Effects

variable {k k' k1 : Kernel} {l : Label} {p x c : Pid} {b b' : PCB} {flow : Flow}
  {allow : Label → Prop}

/-- A process leaves the queue when it is unblocked or dies. -/
theorem Effect.stays_in_blocked (h : Effect l k k') (C : Core k) (hp : p ∈ k.queue .blocked)
    (hu : l ≠ .unblock p) (hd : l ≠ .die p) : p ∈ k'.queue .blocked := by
  have hmove : ∀ {x f t} (b' : PCB), f ≠ t → (f = .blocked → p ≠ x) →
      p ∈ (k.move f t x b').queue .blocked :=
    fun b' hft hx => (mem_move (C.nodup _) hft).mpr (.inl ⟨hp, fun hf => hx hf.symm⟩)
  cases h with
  | block => exact hmove _ (by decide) (by simp)
  | unblock => exact hmove _ (by decide) fun _ hx => hu (hx ▸ rfl)
  | @sleep _ _ _ _ _ b' => exact hmove b' (by decide) (by simp)
  | stray => exact hmove _ (by decide) (by simp)
  | @wake _ _ x _ _ b' =>
    have hmem : p ∈ (k.move .blockedBySem .ready x b').queue .blocked :=
      hmove b' (by decide) (by simp)
    exact hmem
  | enter _ _ _ _ hq => rcases hq with ⟨rfl, _⟩ | ⟨rfl, _⟩ <;> simp [Kernel.setQueue, hp]
  | @die _ x f _ b' _ hf => exact hmove b' hf fun _ hx => hd (hx ▸ rfl)
  | reap => simpa [Kernel.setQueue] using hp
  | _ => exact hp

theorem Effects.stays_in_blocked (h : Effects allow k k') (C : Core k) (hp : p ∈ k.queue .blocked)
    (hu : ¬ allow (.unblock p)) (hd : ¬ allow (.die p)) : p ∈ k'.queue .blocked := by
  refine (h.invariant (P := fun k => Core k ∧ p ∈ k.queue .blocked) ⟨C, hp⟩ ?_).2
  rintro l a a' hl ⟨Ca, hpa⟩ he
  refine ⟨Ca.effect he, he.stays_in_blocked Ca hpa ?_ ?_⟩
  · rintro rfl
    exact hu hl
  · rintro rfl
    exact hd hl

/-- The parent and the child that a process waits for. -/
def Kernel.tie (k : Kernel) (p : Pid) : Option (Pid × Pid) :=
  (k.procs p).map fun b => (b.parentPid, b.waitingForPid)

theorem tie_eq_some {q : Pid} : k.tie p = some (q, x) ↔
    ∃ b, k.procs p = some b ∧ b.parentPid = q ∧ b.waitingForPid = x := by
  simp [Kernel.tie]

theorem waitsForChild_iff : k.WaitsForChild p x ↔
    ∃ q y, k.tie p = some (q, x) ∧ k.tie x = some (p, y) := by
  constructor
  · rintro ⟨b, t, hb, ht, rfl, rfl⟩
    exact ⟨_, _, tie_eq_some.mpr ⟨b, hb, rfl, rfl⟩, tie_eq_some.mpr ⟨t, ht, rfl, rfl⟩⟩
  · rintro ⟨q, y, hb, ht⟩
    obtain ⟨b, hb, _, hw⟩ := tie_eq_some.mp hb
    obtain ⟨t, ht, hq, _⟩ := tie_eq_some.mp ht
    exact ⟨b, t, hb, ht, hw, hq⟩

/-- Parents do not change, and only `waitpid` writes `waiting_for_pid`. -/
theorem Effect.tie (h : Effect l k k') (hb : l ≠ .block p) : k'.tie p = k.tie p ∨
    k'.tie p = none ∨ p = k.nextPid ∧ k'.nextPid = p + 1 ∧
      ∃ c, Executing k c ∧ k'.tie p = some (c, -1) := by
  have hset : ∀ {x : Pid} {b b' : PCB}, k.procs x = some b → b'.parentPid = b.parentPid →
      b'.waitingForPid = b.waitingForPid → (k.setPCB x b').tie p = k.tie p := by
    intro x b b' hx hq hw
    rcases eq_or_ne p x with rfl | hpx
    · simp [Kernel.tie, hx, hq, hw]
    · simp [Kernel.tie, hpx]
  have hfree : ∀ {x : Pid}, (k.freePCB x).tie p = k.tie p ∨ (k.freePCB x).tie p = none := by
    intro x
    rcases eq_or_ne p x with rfl | hpx
    · exact .inr (by simp [Kernel.tie])
    · exact .inl (by simp [Kernel.tie, hpx])
  cases h with
  | update hb hs => exact .inl (hset hb hs.parentPid hs.waitingForPid)
  | children hb hs _ hw => exact .inl (hset hb hs.parentPid hw)
  | @block _ x b b' _ hx _ _ =>
    have hpx : p ≠ x := fun h => hb (h ▸ rfl)
    exact .inl (by simp [Kernel.tie, hpx])
  | unblock _ hb hs => exact .inl (hset hb hs.parentPid hs.waitingForPid)
  | sleep _ _ _ _ _ hb hs => exact .inl (hset hb hs.parentPid hs.waitingForPid)
  | stray _ _ hb hs => exact .inl (hset hb hs.parentPid hs.waitingForPid)
  | wake _ _ _ hb hs => exact .inl (hset hb hs.parentPid hs.waitingForPid)
  | die _ _ hb hs => exact .inl (hset hb hs.parentPid hs.waitingForPid)
  | startBlocked _ _ hb hs => exact .inl (hset hb hs.parentPid hs.waitingForPid)
  | @create _ c b hc _ _ _ hq hw =>
    rcases eq_or_ne p k.nextPid with rfl | hpx
    · exact .inr (.inr ⟨rfl, rfl, c, hc, by simp [Kernel.tie, hq, hw]⟩)
    · exact .inl (by simp [Kernel.tie, hpx])
  | discard => exact hfree.imp_right .inl
  | reap => exact hfree.imp_right .inl
  | _ => exact .inl rfl

/-- A process that lives through an effect keeps what it waits for. -/
theorem Effects.tie (h : Effects allow k k') (C : Core k) (hlive : ∃ q, p ∈ k.queue q)
    (hb : ¬ allow (.block p)) (hd : ¬ allow (.reap p)) : k'.tie p = k.tie p := by
  refine (h.invariant (P := fun k1 => Core k1 ∧ (∃ q, p ∈ k1.queue q) ∧ k1.tie p = k.tie p)
    ⟨C, hlive, rfl⟩ ?_).2.2
  rintro l a a' hl ⟨Ca, hpa, ht⟩ he
  have hplaced : a'.Placed p := he.placed hpa fun h => hd (h ▸ hl)
  have Ca' := Ca.effect he
  refine ⟨Ca', hplaced, ?_⟩
  rcases he.tie (p := p) (fun h => hb (h ▸ hl)) with h | h | ⟨h, _⟩
  · exact h.trans ht
  · obtain ⟨q, hq⟩ := hplaced
    obtain ⟨b, hb, _⟩ := Ca'.member q p hq
    simp [Kernel.tie, hb] at h
  · obtain ⟨q, hq⟩ := hpa
    exact absurd (Ca.lt_nextPid hq) (h ▸ Int.lt_irrefl _)

/-! ## Kills -/

/-- The death of `x` makes the blocked process `p` ready exactly when `p` waits for it. -/
theorem kill_blocked {r : Nat} (C : Core k) (hz : k.queue .zombie = []) (hcp : k.currentPid = c)
    (hcur : k.currentProcess = some x → x ∈ k.queue .ready ∨ x = 0)
    (h : kill k x r = some (k', flow)) (hp : p ∈ k.queue .blocked) (hpx : p ≠ x) :
    (2 ≤ x ∧ k.Placed x ∧ k.WaitsForChild p x) ∧ p ∈ k'.queue .ready ∨
      ¬ (2 ≤ x ∧ k.Placed x ∧ k.WaitsForChild p x) ∧ p ∈ k'.queue .blocked := by
  rcases kill_parts C hcp hcur h with
    ⟨rfl, _, hout⟩ | ⟨h2, k1, k2, k3, k4, b, hdie, hb, hparent, hwake, hreap, hend⟩
  · refine .inr ⟨?_, hp⟩
    rintro ⟨h2, ⟨q, hq⟩, _⟩
    rcases eq_or_ne q .zombie with rfl | hqz
    · rw [hz] at hq
      cases hq
    · exact hout h2 q hqz hq
  · have C1 := C.effect hdie
    have e2 := uncountParent_effects hparent
    have C2 := C1.effects e2
    have hp1 : p ∈ k1.queue .blocked :=
      hdie.stays_in_blocked C hp (by simp) fun h => hpx (by cases h; rfl)
    have hp2 : p ∈ k2.queue .blocked :=
      e2.stays_in_blocked C1 hp1 (by simp [Label.Uncounting]) (by simp [Label.Uncounting])
    -- the parent and `waiting_for_pid` of `p` are the old ones
    have htie : k2.tie p = k.tie p := by
      rw [e2.tie C1 ⟨_, hp1⟩ (by simp [Label.Uncounting]) (by simp [Label.Uncounting])]
      exact (@Effects.one (fun l => l = .die x) _ _ _ hdie rfl).tie C ⟨_, hp⟩ (by simp) (by simp)
    have htiex : ∃ y, k.tie x = some (b.parentPid, y) := by
      cases hdie with
      | @die _ _ q b0 b1 hq _ hb0 hs =>
        have hb' : (k.move q .zombie x b1).procs x = some b := hb
        rw [move_procs, Function.update_self] at hb'
        obtain rfl := Option.some.inj hb'
        exact ⟨b0.waitingForPid, tie_eq_some.mpr ⟨b0, hb0, hs.parentPid.symm, rfl⟩⟩
    obtain ⟨y, htiex⟩ := htiex
    have hplaced : k.Placed x := by
      cases hdie with
      | die hq => exact ⟨_, hq⟩
    have hwaits : k.WaitsForChild p x ↔ b.parentPid = p ∧ ∃ bp, k2.procs p = some bp ∧
        bp.waitingForPid = x := by
      rw [waitsForChild_iff]
      constructor
      · rintro ⟨q, z, ht, hx⟩
        obtain ⟨rfl, rfl⟩ := Prod.mk.inj (Option.some.inj (htiex.symm.trans hx))
        rw [← htie] at ht
        obtain ⟨bp, hbp, _, hw⟩ := tie_eq_some.mp ht
        exact ⟨rfl, bp, hbp, hw⟩
      · rintro ⟨rfl, bp, hbp, hw⟩
        exact ⟨bp.parentPid, y, htie ▸ tie_eq_some.mpr ⟨bp, hbp, rfl, hw⟩, htiex⟩
    have hkeep : ∀ {q}, p ∈ k3.queue q → p ∈ k4.queue q := by
      intro q hq
      cases hreap
      rcases eq_or_ne q .zombie with rfl | hqz
      · simpa [Kernel.setQueue, List.mem_erase_of_ne hpx] using hq
      · simpa [Kernel.setQueue, hqz] using hq
    have hend : k'.queue = k4.queue := by
      rcases hend with ⟨_, rfl, _⟩ | ⟨_, rfl, _⟩ <;> rfl
    rw [hend]
    rcases wakeUpWaitingParent_cases C2 (C1.parent x b hb h2) hwake with
      ⟨rfl, hnot⟩ | ⟨hunblock, bp, hbp, hw⟩
    · refine .inr ⟨fun hall => ?_, hkeep hp2⟩
      obtain ⟨rfl, bp, hbp, hw⟩ := hwaits.mp hall.2.2
      exact hnot bp hbp hw hp2
    · rcases eq_or_ne b.parentPid p with rfl | hne
      · refine .inl ⟨⟨h2, hplaced, hwaits.mpr ⟨rfl, bp, hbp, hw⟩⟩, hkeep ?_⟩
        cases hunblock
        rw [move_queue_to]
        simp
      · refine .inr ⟨fun hall => hne (hwaits.mp hall.2.2).1, hkeep ?_⟩
        exact hunblock.stays_in_blocked C2 hp2 (by simpa using hne) (by simp)

end Effects

/-! ## Steps -/

section Steps

variable {k k' : Kernel} {m m' : Machine} {p x c n : Pid} {e : Event} {l : Label} {flow : Flow}
  {off : Nat} {rsp sp : Sp}

/-- A dispatch moves nobody between queues and changes no tie. -/
structure SamePlaces (k k' : Kernel) : Prop where
  mem : ∀ q p, p ∈ k'.queue q ↔ p ∈ k.queue q
  tie : ∀ p, k'.tie p = k.tie p
  nextPid : k'.nextPid = k.nextPid

theorem Switch.samePlaces (W : Switch k rsp k' sp c n) : SamePlaces k k' := by
  refine ⟨W.rest.mem, fun p => ?_, W.rest.nextPid⟩
  cases hb' : k'.procs p with
  | none => simp [Kernel.tie, hb', W.kept p hb']
  | some b' =>
    obtain ⟨b, hb, hid, _⟩ := W.saved p b' hb'
    obtain ⟨_, _, hw⟩ := W.account p b b' hb hb'
    simp [Kernel.tie, hb, hb', hid.parentPid, hw]

theorem Machine.interrupt_samePlaces (C : Core m.k) (h : m.interrupt off = some m') :
    SamePlaces m.k m'.k ∧ m'.cont = m.cont := by
  rcases Machine.interrupt_cases C h with ⟨_, rfl⟩ | ⟨hcont, _, _, _, W, _⟩
  · exact ⟨⟨fun _ _ => Iff.rfl, fun _ => rfl, rfl⟩, rfl⟩
  · exact ⟨W.samePlaces, hcont⟩

/-- What comes after a function that a system call has called. -/
theorem Machine.finish_samePlaces {k1 : Kernel} (C : Core k1)
    (h : m.finish off (k1, flow) = some m') : SamePlaces k1 m'.k := by
  cases flow with
  | ret v =>
    cases h
    exact ⟨fun _ _ => Iff.rfl, fun _ => rfl, rfl⟩
  | tick =>
    have C1 : Core ((m.withKernel k1).setCont (.ret 0)).k := C
    exact (Machine.interrupt_samePlaces C1 h).1

theorem Machine.call_of_step {call : Call} (h : m.step (.call off call) = some m') :
    m.Calls ∧ m.call off call = some m' :=
  Option.ite_none_right_eq_some.mp h

theorem Running.current_place (R : Running m c) (h : m.k.currentProcess = some x) :
    x ∈ m.k.queue .ready ∨ x = 0 := by
  obtain rfl := Option.some.inj (R.settled.current.symm.trans h)
  exact R.settled.place.symm

theorem Running.core_kill {r : Nat} {k1 : Kernel} (R : Running m c)
    (h : kill m.k x r = some (k1, flow)) : Core k1 :=
  R.core.effects (kill_ends R.core R.settled.currentPid R.current_place h).effects

/-- A step is a turn, and what comes after it moves nobody. -/
theorem Running.turned (R : Running m c) (h : m.step e = some m') :
    ∃ k1 next flow, Turn m c e k1 next flow ∧ m'.cont = Function.update m.cont m.cpu next ∧
      SamePlaces k1 m'.k := by
  cases R.stepped h with
  | stayed T hm =>
    subst hm
    exact ⟨_, _, _, T, rfl, fun _ _ => Iff.rfl, fun _ => rfl, rfl⟩
  | counted he hm =>
    subst he hm
    obtain ⟨hu, _⟩ := Option.ite_none_right_eq_some.mp h
    refine ⟨_, _, _, .tick hu, ?_, fun _ _ => Iff.rfl, fun _ => rfl, rfl⟩
    rw [← hu, Function.update_eq_self]
    rfl
  | switched T _ W hcont => exact ⟨_, _, _, T, hcont, W.samePlaces⟩

/-- A step with a target is a `kill`. -/
theorem Running.step_kill (R : Running m c) (h : m.step e = some m') (ht : e.target m = some x) :
    ∃ r k1 flow, kill m.k x r = some (k1, flow) ∧ SamePlaces k1 m'.k := by
  cases e with
  | tick off => cases ht
  | resume off => cases ht
  | ctrlC off =>
    obtain rfl := Option.some.inj ht
    obtain ⟨_, hc⟩ := Option.ite_none_right_eq_some.mp h
    obtain ⟨⟨k1, flow⟩, h1, h2⟩ := Option.bind_eq_some_iff.mp hc
    refine ⟨1, k1, flow, h1, ?_⟩
    cases flow with
    | ret v =>
      cases h2
      exact ⟨fun _ _ => Iff.rfl, fun _ => rfl, rfl⟩
    | tick =>
      have C1 : Core (m.withKernel k1).k := R.core_kill h1
      exact (Machine.interrupt_samePlaces C1 h2).1
  | call off call =>
    obtain ⟨_, hc⟩ := Machine.call_of_step h
    cases call with
    | kill p r =>
      obtain rfl := Option.some.inj ht
      obtain ⟨⟨k1, flow⟩, h1, h2⟩ := Option.bind_eq_some_iff.mp hc
      exact ⟨r, k1, flow, h1, Machine.finish_samePlaces (R.core_kill h1) h2⟩
    | exit r =>
      obtain rfl := Option.some.inj ht
      obtain ⟨⟨k1, flow⟩, h1, h2⟩ := Option.bind_eq_some_iff.mp hc
      exact ⟨r, k1, flow, h1, Machine.finish_samePlaces (R.core_kill h1) h2⟩
    | _ => cases ht

/-- Who kills nobody unblocks a process by `unblock`. -/
theorem Event.Admits.unblock (h : e.Admits m c (.unblock p)) (ht : e.target m = none) :
    e.Unblocks p := by
  cases e with
  | tick => exact h.elim
  | resume => exact h.elim
  | ctrlC => cases ht
  | call off call =>
    rcases h with h | ⟨_, h⟩ | h
    · cases call with
      | kill => cases ht
      | exit => cases ht
      | unblock q =>
        cases h
        exact rfl
      | _ => simp [Call.Admits, Label.Creating, Label.Counting] at h
    · exact h.elim
    · exact h.elim

/-- The step kills a child of `p` that `p` waits for, or has waited for. -/
def Event.Wakes (m : Machine) (p x : Pid) (e : Event) : Prop :=
  e.Kills m x ∧ m.k.Placed x ∧ m.k.WaitsForChild p x

/-- What a step does to a blocked process that it neither unblocks nor kills. -/
theorem Running.blocked_step (R : Running m c) (h : m.step e = some m')
    (hp : p ∈ m.k.queue .blocked) (hu : ¬ e.Unblocks p) (hk : ¬ e.Kills m p) :
    (∃ x, e.Wakes m p x) ∧ p ∈ m'.k.queue .ready ∨
      (¬ ∃ x, e.Wakes m p x) ∧ p ∈ m'.k.queue .blocked := by
  cases ht : e.target m with
  | none =>
    refine .inr ⟨?_, ?_⟩
    · rintro ⟨x, hx, _⟩
      cases ht.symm.trans hx.2
    · refine R.kernel (P := fun k => p ∈ k.queue .blocked) h hp ?_ ?_
      · rintro l k k' (rfl | hl) C hp he
        · exact he.stays_in_blocked C hp (by simp) (by simp)
        · refine he.stays_in_blocked C hp ?_ ?_
          · rintro rfl
            exact hu (hl.unblock ht)
          · rintro rfl
            exact hk (hl.die R.settled.current)
      · exact fun _ hp W => (W.rest.mem _ _).mpr hp
  | some x =>
    obtain ⟨r, k1, flow, hkill, S⟩ := R.step_kill h ht
    have hwakes : (∃ y, e.Wakes m p y) ↔ 2 ≤ x ∧ m.k.Placed x ∧ m.k.WaitsForChild p x := by
      constructor
      · rintro ⟨y, ⟨h2, hy⟩, hrest⟩
        obtain rfl := Option.some.inj (ht.symm.trans hy)
        exact ⟨h2, hrest⟩
      · rintro ⟨h2, hrest⟩
        exact ⟨x, ⟨h2, ht⟩, hrest⟩
    rw [hwakes, S.mem, S.mem]
    rcases eq_or_ne p x with rfl | hpx
    · -- the shell is not killed
      have h2 : ¬ 2 ≤ p := fun h2 => hk ⟨h2, ht⟩
      refine .inr ⟨fun h => h2 h.1, ?_⟩
      rcases kill_parts R.core R.settled.currentPid R.current_place hkill with ⟨rfl, _⟩ | ⟨h, _⟩
      · exact hp
      · exact absurd h h2
    · exact kill_blocked R.core R.zombie R.settled.currentPid R.current_place hkill hp hpx

end Steps

/-! ## Runs -/

/-- The process is in `blockedQueue`, and its state says so. -/
def Kernel.Blocked (k : Kernel) (p : Pid) : Prop :=
  p ∈ k.queue .blocked ∧ ∃ b, k.procs p = some b ∧ b.state = .BLOCKED

/-- The step does not unblock `p`, does not kill it, and kills no child that it waits for or
has waited for. -/
def LeavesBlocked (p : Pid) (m : Machine) (e : Event) : Prop :=
  ¬ e.Unblocks p ∧ ¬ e.Kills m p ∧ ∀ x, ¬ e.Wakes m p x

section Runs

variable {allocs : Nat → Bool} {ok : Machine → Event → Prop} {m m1 m' : Machine} {p : Pid}
  {e : Event} {off : Nat}

theorem Core.blocked {k : Kernel} (C : Core k) : k.Blocked p ↔ p ∈ k.queue .blocked :=
  ⟨And.left, fun h => ⟨h, C.member _ _ h⟩⟩

theorem Reach.blocked_step (h : Reach allocs ok m) (hs : m.step e = some m')
    (hp : p ∈ m.k.queue .blocked) (hu : ¬ e.Unblocks p) (hk : ¬ e.Kills m p) :
    m'.k.Blocked p ↔ ∀ x, ¬ e.Wakes m p x := by
  rcases h.cases with rfl | ⟨c, R⟩
  · cases (boot_member hp).1
  · obtain ⟨n, R'⟩ := R.step hs
    rw [R'.core.blocked]
    rcases R.blocked_step hs hp hu hk with ⟨hw, hr⟩ | ⟨hw, hb⟩
    · refine iff_of_false (fun hb => ?_) fun h => hw.elim h
      cases R'.core.queue_eq hr hb
    · exact iff_of_true hb fun x hx => hw ⟨x, hx⟩

/-- A process that `block` has blocked stays blocked, and the first step that makes it ready,
other than `unblock` and its death, kills a child that it waits for or has waited for. -/
theorem block_lasts (h : Reach allocs Run.anyEvent m)
    (hs : m.step (.call off (.block p)) = some m1) (hp : p ∈ m1.k.queue .blocked) :
    ∀ m2, Run Machine.step (LeavesBlocked p) m1 m2 → m2.k.Blocked p ∧
      ∀ e m3, m2.step e = some m3 → ¬ e.Unblocks p → ¬ e.Kills m2 p →
        (m3.k.Blocked p ↔ ∀ x, ¬ e.Wakes m2 p x) := by
  have h1 : Reach allocs Run.anyEvent m1 := .snoc _ h trivial hs
  intro m2 hrun
  have h2 : Reach allocs Run.anyEvent m2 := Run.trans h1 (hrun.mono fun _ _ _ => trivial)
  have hp2 : p ∈ m2.k.queue .blocked := by
    refine (hrun.invariant (P := fun m => Reach allocs Run.anyEvent m ∧ p ∈ m.k.queue .blocked)
      ⟨h1, hp⟩ ?_).2
    rintro t t' e ⟨ht, hpt⟩ ⟨hu, hk, hw⟩ hst
    exact ⟨.snoc e ht trivial hst, ((ht.blocked_step hst hpt hu hk).mpr hw).1⟩
  exact ⟨h2.core.1.blocked.mpr hp2, fun e m3 hst hu hk => h2.blocked_step hst hp2 hu hk⟩

/-- The shell waits for its child, which makes it ready again, so that `waitpid` fails. -/
def staleWait : List Event :=
  [.tick 0, .call 0 (.createProcess backgroundArgs), .call 0 (.waitpid 2), .call 0 (.unblock 1),
    .call 0 .yield, .resume 0, .call 0 .yield, .resume 0, .call 0 .yield, .resume 0]

theorem staleWait_run :
    ∃ m, Run.exec Machine.step Run.anyEvent (boot fun _ => true) staleWait = some m ∧
      Reach (fun _ => true) Run.anyEvent m ∧
      (m.step (.call 0 (.block 1))).any (fun m1 => decide (1 ∈ m1.k.queue .blocked) &&
        (m1.step (.call 0 (.exit 0))).any fun m2 => decide (1 ∈ m2.k.queue .ready)) = true :=
  Run.exists_exec (by decide +kernel)

/-- The timer ticks, and the child posts a semaphore of its own. -/
def afterBlock : List Event :=
  [.tick 0, .call 0 (.semOpen 10 0), .tick 0, .call 0 (.semPost 10)]

theorem leavesBlocked_afterBlock (m : Machine) {e : Event} (he : e ∈ afterBlock) :
    LeavesBlocked 1 m e := by
  have hnone : e.target m = none ∧ ¬ e.Unblocks 1 := by
    simp only [afterBlock, List.mem_cons, List.not_mem_nil, or_false] at he
    rcases he with rfl | rfl | rfl | rfl <;> exact ⟨rfl, id⟩
  have hkills : ∀ x, ¬ e.Kills m x := fun x hk => by cases hnone.1.symm.trans hk.2
  exact ⟨hnone.2, hkills 1, fun x hw => hkills x hw.1⟩

theorem afterBlock_run :
    ∃ m, Run.exec Machine.step Run.anyEvent (boot fun _ => true) staleWait = some m ∧
      Reach (fun _ => true) Run.anyEvent m ∧
      (m.step (.call 0 (.block 1))).any (fun m1 => decide (1 ∈ m1.k.queue .blocked) &&
        (Run.exec Machine.step (fun _ e => e ∈ afterBlock) m1 afterBlock).isSome) = true :=
  Run.exists_exec (by decide +kernel)

theorem block_lasts_shell : ∃ m m1 m2, Reach (fun _ => true) Run.anyEvent m ∧
    m.step (.call 0 (.block 1)) = some m1 ∧
    Run.exec Machine.step (fun _ e => e ∈ afterBlock) m1 afterBlock = some m2 ∧
    m2.k.Blocked 1 := by
  obtain ⟨m, _, hm, hrun⟩ := afterBlock_run
  obtain ⟨m1, hs, h1⟩ := (Option.any_eq_true _ _).mp hrun
  obtain ⟨hb, h2⟩ := Bool.and_eq_true_iff.mp h1
  obtain ⟨m2, hs2⟩ := Option.isSome_iff_exists.mp h2
  have hrun2 : Run Machine.step (LeavesBlocked 1) m1 m2 :=
    (Run.of_exec hs2).mono fun m _ he => leavesBlocked_afterBlock m he
  exact ⟨m, m1, m2, hm, hs, hs2, (block_lasts hm hs (of_decide_eq_true hb) m2 hrun2).1⟩

/-- The child blocks the shell and ends, and the shell is ready. -/
theorem block_ends_early : ∃ m m1 m2, Reach (fun _ => true) Run.anyEvent m ∧
    m.step (.call 0 (.block 1)) = some m1 ∧ 1 ∈ m1.k.queue .blocked ∧
    Run Machine.step (fun m e => ¬ e.Unblocks 1 ∧ ¬ e.Kills m 1) m1 m2 ∧ ¬ m2.k.Blocked 1 := by
  obtain ⟨m, _, hm, hrun⟩ := staleWait_run
  obtain ⟨m1, hs, h1⟩ := (Option.any_eq_true _ _).mp hrun
  obtain ⟨hb, h2⟩ := Bool.and_eq_true_iff.mp h1
  obtain ⟨m2, hs2, hr⟩ := (Option.any_eq_true _ _).mp h2
  have hexit : ¬ (Event.call 0 (.exit 0)).Unblocks 1 ∧ ¬ (Event.call 0 (.exit 0)).Kills m1 1 :=
    ⟨not_false, fun h => absurd h.1 (by decide)⟩
  refine ⟨m, m1, m2, hm, hs, of_decide_eq_true hb, .single _ hexit hs2, fun hblocked => ?_⟩
  have hm2 : Reach (fun _ => true) Run.anyEvent m2 := .snoc _ (.snoc _ hm trivial hs) trivial hs2
  cases hm2.core.1.queue_eq (of_decide_eq_true hr) hblocked.1

end Runs

end SoKernel
