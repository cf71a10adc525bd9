import SoKernel.Kernel.Invariant
import SoKernel.Lib.Rotation

/-!
# Round robin

The ready queue is served from its front. A process that is ready before and after a
step has not left the queue during it, so whoever was behind it is behind it still.

Results:
1. `Running.served`: a step serves the ready queue once at most, and in order.
2. `reach_roundRobin`: no process is overtaken, and idle runs only when nobody is ready.
-/

namespace SoKernel

/-! ## What a turn does to the ready queue -/

section Turns

variable {k k' k1 : Kernel} {l : Label} {m m' : Machine} {c p : Pid} {e : Event} {next : Cont}
  {flow : Flow} {allow : Label → Prop}

/-- The process leaves the ready queue. -/
def Label.Leaves (p : Pid) : Label → Prop
  | .block q | .sleep _ q _ | .die q => q = p
  | _ => False

/-- The process enters the ready queue. -/
def Label.Readies (p : Pid) : Label → Prop
  | .unblock q | .wake _ q | .enter q => q = p
  | _ => False

/-- A process of which the machine will hear no more. -/
def Kernel.Gone (k : Kernel) (p : Pid) : Prop :=
  p < k.nextPid ∧ (p ∈ k.queue .zombie ∨ k.procs p = none)

theorem Kernel.Gone.effect (h : k.Gone p) (C : Core k) (he : Effect l k k') : k'.Gone p := by
  refine ⟨Int.lt_of_lt_of_le h.1 he.nextPid_le, ?_⟩
  rcases h.2 with hz | hn
  · exact he.dead C hz
  · exact .inr (he.freed hn h.1)

theorem Kernel.Gone.not_ready (h : k.Gone p) (C : Core k) : p ∉ k.queue .ready := by
  intro hp
  rcases h.2 with hz | hn
  · cases C.queue_eq hp hz
  · obtain ⟨b, hb, _⟩ := C.member _ p hp
    cases hn.symm.trans hb

/-- An effect appends to the ready queue, or takes one process out of it. -/
theorem Effect.ready (h : Effect l k k') : k'.queue .ready = k.queue .ready ∨
    (∃ x, l.Readies x ∧ k'.queue .ready = k.queue .ready ++ [x]) ∨
    ∃ x, l.Leaves x ∧ k'.queue .ready = (k.queue .ready).erase x := by
  have hfrom : ∀ (t : QueueName) (x : Pid) (b : PCB), t ≠ .ready →
      (k.move .ready t x b).queue .ready = (k.queue .ready).erase x :=
    fun _ _ _ ht => move_queue_from ht.symm
  have hto : ∀ (f : QueueName) (x : Pid) (b : PCB),
      (k.move f .ready x b).queue .ready = k.queue .ready ++ [x] := fun _ _ _ => move_queue_to
  cases h with
  | block => exact .inr (.inr ⟨_, rfl, hfrom .blocked _ _ (by decide)⟩)
  | @sleep _ _ p _ _ b' => exact .inr (.inr ⟨p, rfl, hfrom .blockedBySem p b' (by decide)⟩)
  | stray => exact .inr (.inr ⟨_, rfl, hfrom .blockedBySem _ _ (by decide)⟩)
  | unblock => exact .inr (.inl ⟨_, rfl, hto .blocked _ _⟩)
  | @wake _ _ p _ _ b' => exact .inr (.inl ⟨p, rfl, hto .blockedBySem p b'⟩)
  | @enter _ p q =>
    cases q with
    | ready => exact .inr (.inl ⟨p, rfl, by simp [Kernel.setQueue]⟩)
    | _ => exact .inl (by simp [Kernel.setQueue])
  | @die _ p q b b' hp hq =>
    rcases eq_or_ne q .ready with rfl | hqr
    · exact .inr (.inr ⟨p, rfl, hfrom .zombie p b' (by decide)⟩)
    · have hother : (k.move q .zombie p b').queue .ready = k.queue .ready :=
        move_queue_other hqr.symm (by decide)
      exact .inl hother
  | reap => exact .inl (by simp [Kernel.setQueue])
  | _ => exact .inl rfl

/-- Effects in which `p` leaves the ready queue for good, if it leaves it. -/
def Label.Orderly (p : Pid) (allow : Label → Prop) : Prop :=
  (∀ l, allow l → l.Leaves p → l = .die p) ∨ ∀ l, allow l → ¬ l.Readies p

theorem Effects.served (h : Effects allow k k') (C : Core k) (ho : Label.Orderly p allow)
    (hp : p ∈ k.queue .ready) (hp' : p ∈ k'.queue .ready) :
    Served p (k.queue .ready) [] (k'.queue .ready) := by
  have hall : Core k' ∧ (Served p (k.queue .ready) [] (k'.queue .ready) ∨
      p ∉ k'.queue .ready ∧ ((∀ l, allow l → ¬ l.Readies p) ∨ k'.Gone p)) := by
    refine h.invariant (P := fun k' => Core k' ∧ (Served p (k.queue .ready) [] (k'.queue .ready) ∨
      p ∉ k'.queue .ready ∧ ((∀ l, allow l → ¬ l.Readies p) ∨ k'.Gone p))) ⟨C, .inl .refl⟩ ?_
    rintro l a a' hl ⟨Ca, hs⟩ he
    have Ca' := Ca.effect he
    refine ⟨Ca', ?_⟩
    rcases hs with hs | ⟨hout, hends⟩
    · rcases he.ready with hq | ⟨x, _, hq⟩ | ⟨x, hx, hq⟩
      · exact .inl (hq ▸ hs)
      · exact .inl (hq ▸ .arrive x hs)
      · rcases eq_or_ne x p with rfl | hxp
        · have hgone : x ∉ a'.queue .ready := by
            rw [hq]
            exact (Ca.nodup .ready).not_mem_erase
          refine .inr ⟨hgone, ho.elim (fun h => .inr ?_) .inl⟩
          obtain rfl := h l hl hx
          exact ⟨Ca'.lt_nextPid he.mem_zombie, .inl he.mem_zombie⟩
        · exact .inl (hq ▸ .leave hxp hs)
    · rcases hends with hnone | hgone
      · refine .inr ⟨?_, .inl hnone⟩
        rcases he.ready with hq | ⟨x, hx, hq⟩ | ⟨x, _, hq⟩
        · rwa [hq]
        · have hxp : p ≠ x := by
            rintro rfl
            exact hnone l hl hx
          rw [hq]
          simp [hout, hxp]
        · rw [hq]
          exact fun h => hout (List.mem_of_mem_erase h)
      · have hgone' := hgone.effect Ca he
        exact .inr ⟨hgone'.not_ready Ca', .inr hgone'⟩
  exact hall.2.resolve_right fun h => h.1 hp'

/-- Nobody who is killed comes back. -/
theorem Label.Killing.orderly {x : Pid} : Label.Orderly p (Label.Killing x) := by
  refine .inl fun l hl hp => ?_
  rcases hl with rfl | rfl | rfl | ⟨_, rfl⟩ | ⟨_, rfl⟩ | ⟨_, rfl⟩ | ⟨_, ⟨_, rfl⟩ | ⟨_, rfl⟩ | rfl⟩
  · obtain rfl : x = p := hp
    rfl
  all_goals cases hp

theorem Call.Admits.orderly {sc : Call} : Label.Orderly p (sc.Admits k c) := by
  cases sc with
  | kill q r =>
    exact Label.Killing.orderly.imp (fun h l hl => h l hl.2) fun h l hl => h l hl.2
  | exit r =>
    exact Label.Killing.orderly.imp (fun h l hl => h l hl.2) fun h l hl => h l hl.2
  | block q =>
    refine .inr fun l hl => ?_
    rcases hl with rfl | rfl <;> exact not_false
  | createProcess args =>
    refine .inl fun l hl hp => ?_
    rcases hl with (rfl | ⟨_, rfl⟩ | ⟨_, rfl⟩) | rfl | rfl | rfl <;> cases hp
  | yield => exact .inl fun l hl hp => by cases hl; cases hp
  | unblock q => exact .inl fun l hl hp => by cases hl; cases hp
  | changePrio q n => exact .inl fun l hl hp => by cases hl; cases hp
  | semOpen id v =>
    refine .inl fun l hl hp => ?_
    rcases hl with rfl | rfl <;> cases hp
  | semPost id =>
    refine .inl fun l hl hp => ?_
    rcases hl with ⟨_, rfl⟩ | ⟨_, rfl⟩ | rfl <;> cases hp
  | semClose id => exact .inl fun l hl hp => by cases hl; cases hp
  | openPipe =>
    refine .inl fun l hl hp => ?_
    rcases hl with rfl | ⟨_, rfl⟩ | ⟨_, _, rfl | rfl⟩ <;> cases hp
  | closePipe id =>
    refine .inl fun l hl hp => ?_
    rcases hl with ⟨_, _, rfl⟩ | ⟨_, rfl⟩ <;> cases hp
  | _ => exact .inl fun l hl => by cases hl

theorem Label.Noting.not_ready (h : l.Noting) : ¬ l.Leaves p ∧ ¬ l.Readies p := by
  cases l with
  | note o => exact ⟨not_false, not_false⟩
  | _ => exact h.elim

/-- In a turn nobody leaves the ready queue and comes back. -/
theorem Turn.orderly (T : Turn m c e k1 next flow) :
    ∃ allow, Effects allow m.k k1 ∧ Label.Orderly p allow := by
  cases T.deed with
  | @calls _ call _ h =>
    have hcall : Label.Orderly p (call.Admits m.k c) := Call.Admits.orderly
    refine ⟨_, h, hcall.imp (fun hleave l hl hp => ?_) fun hready l hl hp => ?_⟩
    · exact hl.elim (fun hl => hleave l hl hp) fun hl => absurd hp hl.not_ready.1
    · exact hl.elim (fun hl => hready l hl hp) fun hl => absurd hp hl.not_ready.2
  | kills _ h => exact ⟨_, h, Label.Killing.orderly⟩
  | waits h =>
    refine ⟨_, h, .inr fun l hl hp => ?_⟩
    rcases hl with rfl | ⟨_, rfl⟩ | ⟨_, _, rfl⟩ | hl
    · exact hp
    · exact hp
    · exact hp
    · exact hl.not_ready.2 hp
  | waitsForChild _ h =>
    refine ⟨_, h, .inr fun l hl hp => ?_⟩
    rcases hl with rfl | rfl <;> exact hp
  | works h =>
    refine ⟨_, h, .inl fun l hl hp => ?_⟩
    rcases hl with ⟨_, rfl⟩ | ⟨_, ⟨_, rfl⟩ | ⟨_, rfl⟩ | rfl⟩ | hl
    · exact hp.elim
    · exact hp.elim
    · exact hp.elim
    · exact hp.elim
    · exact absurd hp hl.not_ready.1

/-- A process that is ready before and after a turn has kept its place. -/
theorem Turn.served (T : Turn m c e k1 next flow) (C : Core m.k) (hp : p ∈ m.k.queue .ready)
    (hp' : p ∈ k1.queue .ready) : Served p (m.k.queue .ready) [] (k1.queue .ready) := by
  obtain ⟨_, h, ho⟩ := T.orderly (p := p)
  exact h.served C ho hp hp'

end Turns

/-! ## Dispatches -/

/-- `schedule` has given the CPU away. -/
def Obs.isSwitched : Obs → Bool
  | .switched _ => true
  | _ => false

/-- Whom the step from `m` to `m'` has dispatched. -/
def dispatched (m m' : Machine) : List Pid :=
  if m'.k.log.countP Obs.isSwitched = m.k.log.countP Obs.isSwitched then [] else [m'.k.currentPid]

section Dispatches

variable {k k' k1 : Kernel} {l : Label} {m m' : Machine} {c p n : Pid} {e : Event}
  {allow : Label → Prop}

theorem Effect.countP_switched (h : Effect l k k') :
    k'.log.countP Obs.isSwitched = k.log.countP Obs.isSwitched := by
  rcases h.log with ho | ⟨o, ho, hl⟩
  · rw [ho]
  · rw [ho]
    refine List.countP_cons_of_neg ?_
    cases o with
    | switched sp =>
      cases l with
      | note o =>
        obtain ⟨rfl, hr⟩ := hl
        cases hr
      | _ => cases hl
    | _ => simp [Obs.isSwitched]

theorem Effects.countP_switched (h : Effects allow k k') :
    k'.log.countP Obs.isSwitched = k.log.countP Obs.isSwitched :=
  h.invariant (P := fun k' => k'.log.countP Obs.isSwitched = k.log.countP Obs.isSwitched) rfl
    fun _ hc he => he.countP_switched.trans hc

theorem Switch.countP_switched {rsp sp : Sp} (W : Switch k rsp k' sp p n) :
    k'.log.countP Obs.isSwitched = k.log.countP Obs.isSwitched + 1 := by
  rw [W.log, List.countP_append, Nat.add_comm]
  congr 1
  split <;> rfl

theorem Turn.countP_switched (T : Turn m c e k1 next flow) :
    k1.log.countP Obs.isSwitched = m.k.log.countP Obs.isSwitched := by
  rcases T.ends with hends | ⟨_, rfl, _⟩
  · exact hends.effects.countP_switched
  · rfl

/-- A switch is seen as a dispatch of the process that runs afterwards. -/
theorem Switch.dispatched_eq {rsp sp : Sp} (W : Switch k1 rsp m'.k sp p n)
    (hlog : k1.log.countP Obs.isSwitched = m.k.log.countP Obs.isSwitched) :
    dispatched m m' = [m'.k.currentPid] := by
  refine if_neg ?_
  rw [W.countP_switched, hlog]
  exact Nat.succ_ne_self _

/-- What a step does to the ready queue: it goes on as it is, or its front is served. -/
inductive Serves (m : Machine) (m' : Machine) : Prop
  | goesOn : dispatched m m' = [] → (∀ p ∈ m.k.queue .ready, p ∈ m'.k.queue .ready →
      Served p (m.k.queue .ready) [] (m'.k.queue .ready)) → Serves m m'
  | serves {k1 : Kernel} {n : Pid} : dispatched m m' = [n] → (∀ p ∈ m.k.queue .ready,
      p ∈ k1.queue .ready → Served p (m.k.queue .ready) [] (k1.queue .ready)) →
      Rotated k1 m'.k n → m'.k.idleProcess = k1.idleProcess → Serves m m'

theorem Running.serves (R : Running m c) (h : m.step e = some m') : Serves m m' := by
  cases R.stepped h with
  | stayed T hm =>
    rw [hm]
    exact .goesOn (if_pos T.countP_switched) fun p hp hp' => T.served R.core hp hp'
  | counted _ hm =>
    rw [hm]
    exact .goesOn (if_pos rfl) fun p _ _ => .refl
  | @switched k1 _ _ _ _ n T L W _ _ R' =>
    refine @Serves.serves m m' k1 n ?_ (fun p hp hp' => T.served R.core hp hp') W.ready W.rest.idle
    rw [W.dispatched_eq T.countP_switched, R'.settled.currentPid]

theorem Reach.serves {allocs : Nat → Bool} {ok : Machine → Event → Prop} (h : Reach allocs ok m)
    (hs : m.step e = some m') : Serves m m' := by
  rcases h.cases with rfl | ⟨c, R⟩
  · rcases boot_step hs with rfl | ⟨off, hi⟩
    · exact .goesOn (if_pos rfl) fun p _ _ => .refl
    · obtain ⟨_, _, _, n, W, _, R⟩ := boot_dispatch hi
      refine @Serves.serves _ m' (boot allocs).k n ?_ (fun p _ _ => .refl) W.ready W.rest.idle
      rw [dispatched, if_neg, R.settled.currentPid]
      rw [W.countP_switched]
      exact Nat.succ_ne_self _
  · exact R.serves hs

/-- While `p` stays ready the step serves the queue. -/
theorem Serves.served (h : Serves m m') (hp : p ∈ m.k.queue .ready) (hp' : p ∈ m'.k.queue .ready) :
    Served p (m.k.queue .ready) (dispatched m m') (m'.k.queue .ready) := by
  cases h with
  | goesOn hd h =>
    rw [hd]
    exact h p hp hp'
  | @serves k1 n hd h hrot =>
    rw [hd]
    rcases hrot with ⟨_, hnil, _⟩ | ⟨rest, hfront, hback⟩
    · rw [hnil] at hp'
      cases hp'
    · have hk1 : p ∈ k1.queue .ready := by
        rw [hback] at hp'
        rw [hfront]
        exact (List.perm_append_singleton n rest).mem_iff.mp hp'
      have hserved := h p hp hk1
      rw [hfront] at hserved
      rw [hback]
      exact .serve hserved

end Dispatches

/-! ## Runs -/

/-- A run from `m` to `m'` in which `p` stays ready, and the processes dispatched in it. -/
def WhileReady (p : Pid) (m m' : Machine) (ds : List Pid) : Prop :=
  Run.Traced Machine.step (fun m _ => p ∈ m.k.queue .ready) dispatched m m' ds ∧
    p ∈ m'.k.queue .ready

/-- From now on nobody is overtaken. -/
structure RoundRobin (m : Machine) : Prop where
  /-- A process at position `k` waits for `k` dispatches at most. -/
  overtakes : ∀ p m' ds, WhileReady p m m' ds → p ∉ ds → ds.length ≤ (m.k.queue .ready).idxOf p
  /-- After a dispatch of `p`, and up to the next one, the others have one turn each. -/
  once : ∀ p e m1 m' ds, m.step e = some m1 → dispatched m m1 = [p] → WhileReady p m1 m' ds →
    p ∉ ds → ds.Nodup
  /-- Idle is dispatched when nobody is ready. -/
  idle : ∀ p e m', m.step e = some m' → dispatched m m' = [p] → m'.k.idleProcess = some p →
    m'.k.queue .ready = []

section

variable {allocs : Nat → Bool} {ok : Machine → Event → Prop} {m m' : Machine} {p : Pid}
  {ds : List Pid}

theorem Reach.served (h : Reach allocs Run.anyEvent m) (hw : WhileReady p m m' ds) :
    Served p (m.k.queue .ready) ds (m'.k.queue .ready) := by
  obtain ⟨ht, hp'⟩ := hw
  induction ht with
  | refl => exact .refl
  | snoc e ht hp hs ih =>
    have hreach := Run.trans h (ht.run.mono fun _ _ _ => trivial)
    exact (ih hp).trans ((Reach.serves hreach hs).served hp hp')

theorem WhileReady.mem (hw : WhileReady p m m' ds) : p ∈ m.k.queue .ready := by
  obtain ⟨ht, hp'⟩ := hw
  induction ht with
  | refl => exact hp'
  | snoc e _ hp _ ih => exact ih hp

/-- In every run no process is overtaken. -/
theorem reach_roundRobin (h : Reach allocs Run.anyEvent m) : RoundRobin m where
  overtakes p m' ds hw hd := (h.served hw).length_le hw.mem hd
  once p e m1 m' ds hs _ hw hd := by
    have h1 : Reach allocs Run.anyEvent m1 := .snoc e h trivial hs
    exact (h1.served hw).nodup hw.mem hd (h1.core.1.nodup .ready)
  idle p e m' hs hd hi := by
    have h' : Reach allocs Run.anyEvent m' := .snoc e h trivial hs
    cases h.serves hs with
    | goesOn hnone => cases hnone.symm.trans hd
    | serves hn _ hrot hidle =>
      obtain rfl := List.singleton_injective (hn.symm.trans hd)
      rcases hrot with ⟨_, hnil, _⟩ | ⟨rest, _, hback⟩
      · exact hnil
      · -- idle is in no queue
        have h0 := Option.some.inj (h'.core.1.idle.symm.trans hi)
        refine absurd ?_ (h'.core.1.idleOutside .ready)
        rw [hback, h0]
        exact List.mem_append_right _ (List.mem_singleton_self _)

/-- The shell creates two processes and yields, the first time to itself; the first of
them blocks it. -/
def blockTheShell : List Event :=
  [.tick 0, .call 0 (.createProcess backgroundArgs), .call 0 (.createProcess backgroundArgs),
    .call 0 .yield, .resume 0, .call 0 .yield, .call 0 (.block 1)]

theorem blockTheShell_run :
    ∃ m, Run.exec Machine.step Run.anyEvent (boot fun _ => true) blockTheShell = some m ∧
      Reach (fun _ => true) Run.anyEvent m ∧ m.k.queue .ready = [3, 2] ∧ m.k.currentPid = 2 :=
  Run.exists_exec (by decide +kernel)

theorem reach_roundRobin_three : ∃ m, Reach (fun _ => true) Run.anyEvent m ∧
    m.k.queue .ready = [3, 2] ∧ RoundRobin m := by
  obtain ⟨m, _, hm, hq, _⟩ := blockTheShell_run
  exact ⟨m, hm, hq, reach_roundRobin hm⟩

end

end SoKernel
