import SoKernel.Kernel.PipeFlow
import SoKernel.Kernel.PipeCalls

/-!
# Runs at a pipe

From the moment `createPipe` has opened it, a pipe keeps its books in every run without
kills and closes in which no byte is cleared away and no wait is given up.

Results:
1. `Turn.apart`: a step of a process that is at no operation on the pipe works elsewhere.
2. `Channel.turn`: every step keeps the books.
3. `Reach.channel`: they are kept in every such run.
-/

namespace SoKernel

/-! ## Where a step works -/

section Apart

variable {k k' k1 : Kernel} {l : Label} {m : Machine} {c p : Pid} {e : Event} {next : Cont}
  {flow : Flow} {slot s : Nat} {id r w x : Int} {op : PipeOp} {stage : Stage} {sc : Call}
  {ids : List Int}

theorem Pipe.awaited_mem {pipe : Pipe} (h : pipe.awaited op stage = some id) : id ∈ pipe.sems := by
  rcases Pipe.awaited_cases h with ⟨_, _, _, _, _, _, _, rfl⟩ | ⟨_, _, _, _, _, _, rfl⟩ | ⟨_, rfl⟩ <;>
    simp [Pipe.sems]

theorem Pipe.HasSems.sems {pipe : Pipe} (h : pipe.HasSems r w x) : pipe.sems = [r, w, x] := by
  rw [Pipe.sems, h.readers, h.writers, h.mutex]

theorem Pipe.HasSems.awaited {pipe pipe' : Pipe} (h : pipe.HasSems r w x) (h' : pipe'.HasSems r w x) :
    pipe'.awaited op stage = pipe.awaited op stage := by
  cases op <;> cases stage <;>
    simp [Pipe.awaited, h.readers, h.writers, h.mutex, h'.readers, h'.writers, h'.mutex]

/-- A call that leaves the semaphores of an open pipe to its operations. -/
theorem Event.leaves_iff (ho : (m.k.pipes slot).isOpen = true) : e.leaves slot m = true ↔
    ∀ id, e.semaphore = some id → id ∉ (m.k.pipes slot).sems := by
  unfold Event.leaves
  cases e.semaphore with
  | none => simp
  | some id => simp [ho]

theorem Call.Admits.apart (h : sc.Admits k c l) (he : sc.isCalm = true)
    (hids : ∀ id, sc = .semPost id → id ∉ ids)
    (hpipe : sc = .openPipe → (k.pipes slot).isOpen = true) : l.Apart slot ids := by
  cases sc with
  | kill => cases he
  | exit => cases he
  | semClose => cases he
  | closePipe => cases he
  | createProcess => rcases h with (rfl | ⟨_, rfl⟩ | ⟨_, rfl⟩) | rfl | rfl | rfl <;> trivial
  | yield => cases h; trivial
  | block => rcases h with rfl | rfl <;> trivial
  | unblock => cases h; trivial
  | changePrio => cases h; trivial
  | semOpen => rcases h with rfl | rfl <;> trivial
  | semPost id => rcases h with ⟨_, rfl⟩ | ⟨_, rfl⟩ | rfl <;> exact hids id rfl
  | openPipe =>
    rcases h with rfl | ⟨_, rfl⟩ | ⟨s, hs, rfl | rfl⟩
    · trivial
    · trivial
    · rintro rfl
      exact Bool.false_ne_true (hs.symm.trans (hpipe rfl))
    · trivial
  | _ => cases h

theorem Effects.apart_wait (h : Awaits id c k k1 flow) (hid : id ∉ ids) :
    Effects (Label.Apart slot ids) k k1 := by
  cases h with
  | took he => exact .one he hid
  | failed => exact .one (.alloc k) trivial
  | slept ha he =>
    have h1 : Effects (Label.Apart slot ids) k _ := ha.mono fun l hl => by cases hl; trivial
    exact h1.trans (.trans (.one he trivial) (.one (.quantum _ 0) trivial))

theorem Effects.apart_post (h : semPost k id = some (k1, flow)) (hid : id ∉ ids) :
    Effects (Label.Apart slot ids) k k1 :=
  (semPost_effects h).mono fun l hl => by
    rcases hl with ⟨_, rfl⟩ | ⟨_, rfl⟩ | rfl <;> exact hid

theorem Effects.apart_data (h : Effects (fun l => l = .pipeData s) k k1)
    (hs : s ≠ slot) : Effects (Label.Apart slot ids) k k1 :=
  h.mono fun l hl => by
    cases hl
    exact hs

/-- A critical section leaves the ids of the semaphores alone. -/
theorem Effects.data_sems (h : Effects (fun l => l = .pipeData s) k k1) :
    (k1.pipes s).sems = (k.pipes s).sems := by
  refine h.invariant (P := fun k1 => (k1.pipes s).sems = (k.pipes s).sems) rfl ?_
  rintro l a b rfl ha he
  cases he with
  | pipeData _ hr hw hx =>
    refine Eq.trans ?_ ha
    simp [Kernel.observe, Kernel.setPipe, Pipe.sems, hr, hw, hx]

/-- A process at no operation on the pipe works elsewhere, unless it uses the semaphores
itself. -/
theorem Turn.apart (T : Turn m c e k1 next flow) (he : e.isCalm = true)
    (hids : ∀ id, e.semaphore = some id → id ∉ ids)
    (hpipe : ∀ off, e = .call off .openPipe → (m.k.pipes slot).isOpen = true)
    (hown : ∀ s, s ≠ slot → (m.k.pipes s).isOpen = true → ∀ i ∈ (m.k.pipes s).sems, i ∉ ids)
    (D : OnOpen m) (hn : (m.cont m.cpu).onPipe slot = none)
    (hw : ∀ id d, m.cont m.cpu = .waited id d → id ∉ ids) :
    Effects (Label.Apart slot ids) m.k k1 := by
  -- an operation in progress is on another pipe, whose semaphores are others
  have hother : ∀ {s op stage}, m.cont m.cpu = .pipe s op stage → s ≠ slot ∧
      ∀ i ∈ (m.k.pipes s).sems, i ∉ ids := by
    intro s op stage hc
    have hs : s ≠ slot := by
      rintro rfl
      rw [hc, Cont.onPipe_pipe] at hn
      cases hn
    exact ⟨hs, hown s hs (D m.cpu s (op, stage) (by rw [hc, Cont.onPipe_pipe]))⟩
  have hcall : ∀ {off sc l}, e = .call off sc → sc.Admits m.k c l → l.Apart slot ids := by
    rintro off sc l rfl hl
    refine hl.apart he ?_ fun hsc => hpipe off (by rw [hsc])
    rintro id rfl
    exact hids id rfl
  have hsection : ∀ {s k0}, (∀ i ∈ (m.k.pipes s).sems, i ∉ ids) →
      Effects (fun l => l = .pipeData s) m.k k0 → (k0.pipes s).mutex ∉ ids ∧
        (k0.pipes s).semReaders ∉ ids ∧ (k0.pipes s).semWriters ∉ ids := by
    intro s k0 hi hd
    rw [← hd.data_sems] at hi
    exact ⟨hi _ (by simp [Pipe.sems]), hi _ (by simp [Pipe.sems]), hi _ (by simp [Pipe.sems])⟩
  cases T with
  | tick => exact .refl
  | ctrlC => cases he
  | returned _ hends =>
    exact (hends.effects.mono fun _ => hcall rfl).trans (.one (.note trivial) trivial)
  | yielded _ hends => exact hends.effects.mono fun _ => hcall rfl
  | semWaited _ _ ha =>
    exact (Effects.apart_wait ha (hids _ rfl)).trans (.one (.note trivial) trivial)
  | semSlept _ _ ha => exact .apart_wait ha (hids _ rfl)
  | waitpidFailed => exact .one (.note trivial) trivial
  | waitpidBlocked _ _ hb =>
    refine hb.mono fun l hl => ?_
    rcases hl with rfl | rfl <;> trivial
  | entered => exact .refl
  | sysret => exact .one (.note trivial) trivial
  | waitpidResumed => exact .one (.note trivial) trivial
  | waited hc => exact .one (.note trivial) (hw _ _ hc)
  | passed hc ha hwait => exact .apart_wait hwait ((hother hc).2 _ (Pipe.awaited_mem ha))
  | slept hc ha hwait => exact .apart_wait hwait ((hother hc).2 _ (Pipe.awaited_mem ha))
  | @finished _ s op o hc hres =>
    have hs := (hother hc).1
    refine .one (.note (PipeOp.result_isResult hres).1) ?_
    cases op with
    | read =>
      simp only [PipeOp.result, Option.ite_none_left_eq_some] at hres
      obtain rfl := Option.some.inj hres.2
      exact hs
    | write =>
      simp only [PipeOp.result, Option.ite_none_left_eq_some] at hres
      obtain rfl := Option.some.inj hres.2
      exact hs
    | clear => cases hres
  | @read _ s _ _ _ _ _ _ _ _ _ _ hc htake hmutex hpost =>
    obtain ⟨hs, hi⟩ := hother hc
    have hd : Effects (fun l => l = .pipeData s) m.k (takeByte m.k s m.cpu).1 := takeByte_effects
    rw [htake] at hd
    obtain ⟨hx, _, hw⟩ := hsection hi hd
    exact (Effects.apart_data hd hs).trans
      ((Effects.apart_post hmutex hx).trans (.apart_post hpost hw))
  | @written _ s _ _ _ b _ _ _ _ _ _ hc _ hput hmutex hpost =>
    obtain ⟨hs, hi⟩ := hother hc
    have hd : Effects (fun l => l = .pipeData s) m.k (putByte m.k s m.cpu b).1 := putByte_effects
    rw [hput] at hd
    obtain ⟨hx, hr, _⟩ := hsection hi hd
    exact (Effects.apart_data hd hs).trans
      ((Effects.apart_post hmutex hx).trans (.apart_post hpost hr))
  | @cleared _ s _ _ hc hmutex =>
    obtain ⟨hs, hi⟩ := hother hc
    have hd : Effects (fun l => l = .pipeData s) m.k (emptyPipe m.k s m.cpu) := emptyPipe_effects
    obtain ⟨hx, _⟩ := hsection hi hd
    exact (Effects.apart_data hd hs).trans (.apart_post hmutex hx)

end Apart

/-! ## The books of a pipe -/

/-- A process that waits for a semaphore of the pipe does so in an operation on the pipe, or
has done so for ever since before the pipe was opened. -/
structure Guest (slot : Nat) (r w x : Int) (log : List Obs) (p : Pid) (d : Cont) : Prop where
  awaits : ∀ id next, d = .waited id next → next.onPipe slot ≠ none → ∃ op stage,
    next = .pipe slot op stage.next ∧ ∀ pipe : Pipe, pipe.HasSems r w x →
      pipe.awaited op stage = some id
  stranger : ∀ id next, d = .waited id next → next.onPipe slot = none → id ∈ [r, w, x] →
    log.count (.queued id p) = log.count (.resumed id p)

/-- The books of an open pipe, and the processes that sleep at it. -/
structure Channel (slot : Nat) (r w x : Int) (k : Kernel) (cont : Pid → Cont) : Prop extends
    Books slot r w x k cont where
  guests : ∀ p, Guest slot r w x k.log p (cont p)
  /-- Nobody has come back from a wait of before. -/
  resumed : ∀ i ∈ [r, w, x], ∀ p,
    k.log.count (.resumed i p) = (sinceOpened i k.log).count (.resumed i p)

section Channel

variable {k k' k1 : Kernel} {m : Machine} {c p : Pid} {e : Event} {next d : Cont} {flow : Flow}
  {slot : Nat} {id r w x : Int} {op : PipeOp} {stage : Stage} {allocs : Nat → Bool}
  {cont : Pid → Cont}

theorem Cont.inside_of_onPipe (h : d.onPipe slot = none) : d.inside slot = false := by
  cases d with
  | pipe s op stage =>
    have hs : s ≠ slot := by
      rintro rfl
      rw [Cont.onPipe_pipe] at h
      cases h
    simp [Cont.inside, hs]
  | _ => rfl

/-- Who is at no operation on the pipe starts one or stays away from it. -/
theorem Turn.offPipe (T : Turn m c e k1 next flow) (hn : (m.cont m.cpu).onPipe slot = none) :
    next.onPipe slot = none ∨
      m.cont m.cpu = .user ∧ ∃ op stage, Starts op stage ∧ next = .pipe slot op stage := by
  have hsame : ∀ {s op stage op' stage'}, m.cont m.cpu = .pipe s op stage →
      (Cont.pipe s op' stage').onPipe slot = none := by
    intro s op stage op' stage' hc
    refine if_neg fun hs => ?_
    rw [hc, hs, Cont.onPipe_pipe] at hn
    cases hn
  cases T with
  | @entered _ s _ _ _ h _ _ hs =>
    rcases eq_or_ne s slot with rfl | hne
    · exact .inr ⟨h.1, _, _, hs, rfl⟩
    · exact .inl (if_neg hne)
  | waited hc =>
    rw [hc] at hn
    exact .inl hn
  | passed hc => exact .inl (hsame hc)
  | slept hc => exact .inl (hsame hc)
  | read hc => exact .inl (hsame hc)
  | written hc => exact .inl (hsame hc)
  | _ => exact .inl rfl

/-- The client of a process that is at no operation on the pipe. -/
theorem Turn.client (T : Turn m c e k1 next flow) (hn : (m.cont m.cpu).onPipe slot = none)
    {log : List Obs} (C : Client slot r w x log p (m.cont m.cpu)) : Client slot r w x log p next := by
  rcases T.offPipe hn with hn' | ⟨hu, op, stage, hs, rfl⟩
  · exact C.off hn (Cont.inside_of_onPipe hn) hn' (Cont.inside_of_onPipe hn')
  · rw [hu] at C
    exact C.start hs

/-- Where the process on the CPU goes to sleep. -/
theorem Turn.guest (T : Turn m c e k1 next flow) (hids : (m.k.pipes slot).HasSems r w x)
    (hl : e.leaves slot m = true) (ho : (m.k.pipes slot).isOpen = true) (O : OwnSems m.k)
    (D : OnOpen m) (hflat : ∀ id d, m.cont m.cpu = .waited id d → ∀ i, ¬ d.Waits i)
    (log : List Obs) : Guest slot r w x log c next := by
  have haway : ∀ {d : Cont}, (∀ i, ¬ d.Waits i) → Guest slot r w x log c d := by
    intro d hd
    exact ⟨fun i n h => absurd (show d.Waits i from h ▸ rfl) (hd i),
      fun i n h => absurd (show d.Waits i from h ▸ rfl) (hd i)⟩
  cases T with
  | @semSlept _ id _ _ _ ha =>
    refine ⟨fun i n h hon => ?_, fun i n h _ hi => ?_⟩
    · cases h
      exact absurd rfl hon
    · cases h
      rw [← hids.sems] at hi
      exact absurd hi ((Event.leaves_iff ho).mp hl _ rfl)
  | @slept _ s op stage id _ hc ha =>
    refine ⟨fun i n h hon => ?_, fun i n h hon hi => ?_⟩
    · cases h
      have hs : s = slot := by
        by_contra hne
        exact hon (if_neg hne)
      subst hs
      exact ⟨op, stage, rfl, fun pipe hp => (hids.awaited hp).trans ha⟩
    · cases h
      rw [← hids.sems] at hi
      rcases eq_or_ne s slot with rfl | hs
      · rw [Cont.onPipe_pipe] at hon
        cases hon
      · have hs' := D m.cpu s (op, stage) (by rw [hc, Cont.onPipe_pipe])
        exact absurd hi (O s slot hs hs' ho id (Pipe.awaited_mem ha))
  | waited hc => exact haway (hflat _ _ hc)
  | _ => exact haway fun _ => id

/-- Nobody is on the CPU and asleep. -/
theorem Running.awake (R : Running m c) : c ∉ m.k.queue .blockedBySem := by
  intro hb
  rcases R.settled.place with rfl | hr
  · exact R.core.ne_zero hb rfl
  · cases R.core.queue_eq hr hb

/-- A turn at the pipe is the next step of the operation. -/
theorem Channel.own (C : Channel slot r w x m.k m.cont) (h : Reach allocs Calm m) (R : Running m c)
    (hcpu : m.cpu = c) (he : ClearsEmpty slot m e) (T : Turn m c e k1 next flow)
    (hon : (m.cont m.cpu).onPipe slot ≠ none) :
    Books slot r w x k1 (Function.update m.cont c next) := by
  have hids := C.traffic.sems
  have P : Poster m.k c := ⟨R.core, h.calm_semQueues, R.settled.current⟩
  have hoff : ∀ {d : Cont}, m.cont m.cpu = d → d.onPipe slot = none →
      Books slot r w x k1 (Function.update m.cont c next) := by
    intro d hc hd
    rw [hc] at hon
    exact absurd hd hon
  have hslot : ∀ {s op stage}, m.cont m.cpu = .pipe s op stage → s = slot := by
    intro s op stage hc
    by_contra hne
    rw [hc] at hon
    exact hon (if_neg hne)
  cases T with
  | waited hc =>
    obtain ⟨op, stage, rfl, ha⟩ := (C.guests m.cpu).awaits _ _ hc (by rwa [hc] at hon)
    have hC := C.clients c
    rw [← hcpu, hc] at hC
    exact C.toBooks.pass (hcpu ▸ hC.wake (ha _ hids)) (ha _ hids) (.inr rfl) rfl (hcpu ▸ rfl)
  | @passed _ s op stage id _ _ hc ha hwait =>
    obtain rfl := hslot hc
    have hC := C.clients c
    rw [← hcpu, hc] at hC
    cases hwait with
    | took htook =>
      have hlog : k1.log = .took id c :: m.k.log := by
        cases htook
        rw [← getCurrentPid_eq P.current]
        rfl
      have hpipes : k1.pipes = m.k.pipes := by
        cases htook
        rfl
      exact C.toBooks.pass (hcpu ▸ hC) ha (.inl rfl) (congrFun hpipes _) hlog
    | failed hno hv =>
      have hstarves := he.2.2.2
      simp [Event.starves, hc, ha, hno, hv] at hstarves
  | slept hc ha hwait =>
    obtain rfl := hslot hc
    cases hwait with
    | @slept a k2 queued _ hs =>
      refine C.toBooks.sleep (hcpu ▸ hc) ha ?_ ?_
      · have hpipes : k2.pipes = m.k.pipes := by
          cases hs <;> rfl
        exact congrFun hpipes _
      · have hlog : k2.log = if queued then .queued _ c :: m.k.log else m.k.log := hs.sleep_log
        cases queued with
        | false => exact .inl hlog
        | true => exact .inr hlog
  | finished hc hres =>
    obtain rfl := hslot hc
    exact C.toBooks.finish (hcpu ▸ hc) (hcpu ▸ hres)
  | read hc htake hmutex hpost =>
    obtain rfl := hslot hc
    have hpos := C.traffic.guard_read (p := m.cpu) h C.clients (by rw [hc, Cont.tokens_pipe]; rfl)
    exact C.toBooks.read P (hcpu ▸ hc) hpos (hcpu ▸ htake) hmutex hpost
  | written hc hb hput hmutex hpost =>
    obtain rfl := hslot hc
    have hlt := C.traffic.guard_write (p := m.cpu) h C.clients (by rw [hc, Cont.tokens_pipe]; rfl)
    exact C.toBooks.write P (hcpu ▸ hc) hb hlt (hcpu ▸ hput) hmutex hpost
  | @cleared _ s _ _ hc hmutex =>
    obtain rfl := hslot hc
    have hn : (m.k.pipes s).count = 0 := by
      simpa [Event.discards, hc] using he.2.2.1
    exact C.toBooks.clear P (hcpu ▸ hc) hn (hcpu ▸ hmutex)
  | tick hc => exact hoff hc rfl
  | ctrlC hc => exact hoff hc rfl
  | returned hc => exact hoff hc.1 rfl
  | yielded hc => exact hoff hc.1 rfl
  | semWaited hc => exact hoff hc.1 rfl
  | semSlept hc => exact hoff hc.1 rfl
  | waitpidFailed hc => exact hoff hc.1 rfl
  | waitpidBlocked hc => exact hoff hc.1 rfl
  | entered hc => exact hoff hc.1 rfl
  | sysret hc => exact hoff hc rfl
  | waitpidResumed hc => exact hoff hc rfl

theorem Effects.awake_counts (h : Effects (Label.Awake p) k k1) (id : Int) :
    k1.log.count (.queued id p) = k.log.count (.queued id p) ∧
      k1.log.count (.resumed id p) = k.log.count (.resumed id p) :=
  h.invariant (P := fun k1 => k1.log.count (.queued id p) = k.log.count (.queued id p) ∧
      k1.log.count (.resumed id p) = k.log.count (.resumed id p)) ⟨rfl, rfl⟩ fun hl hk he =>
    ⟨(he.count_log hl.not_queued).trans hk.1, (he.count_log hl.not_resumed).trans hk.2⟩

/-- Nothing opens a semaphore that is in use. -/
theorem Effects.opens_none (h : Effects Label.Calm k k1) (hu : (k.sems id).used = true) :
    ∃ later, k1.log = later ++ k.log ∧ ∀ o ∈ later, o.opens id = none := by
  refine h.later (I := fun k => (k.sems id).used = true) hu fun {l a b} hl hused he => ?_
  have hopened : l ≠ .semOpened id := by
    rintro rfl
    exact Bool.false_ne_true (he.opened_unused.symm.trans hused)
  have hclosed : l ≠ .semClosed id := by
    rintro rfl
    exact hl
  refine ⟨(he.used_eq hopened hclosed).trans hused, fun o ho => ?_⟩
  cases o with
  | opened i v =>
    refine if_neg fun hi => hopened ?_
    cases l with
    | semOpened j => exact congrArg _ (ho.symm.trans hi)
    | note o =>
      obtain ⟨rfl, hf⟩ := ho
      exact hf.elim
    | _ => exact ho.elim
  | _ => rfl

theorem sinceOpened_append {later log : List Obs} (h : ∀ o ∈ later, o.opens id = none) :
    sinceOpened id (later ++ log) = later ++ sinceOpened id log := by
  induction later with
  | nil => rfl
  | cons o later ih =>
    rw [List.cons_append, sinceOpened_cons (h o List.mem_cons_self),
      ih fun o' ho' => h o' (List.mem_cons_of_mem o ho')]
    rfl

/-- One step of a calm run keeps the books. -/
theorem Channel.turn (C : Channel slot r w x m.k m.cont) (h : Reach allocs Calm m)
    (R : Running m c) (he : ClearsEmpty slot m e) (T : Turn m c e k1 next flow) :
    Channel slot r w x k1 (Function.update m.cont m.cpu next) := by
  have hcpu := Reach.calm_cpu h R
  have hids := C.traffic.sems
  have ho := C.traffic.isOpen
  have hopened : ∀ i ∈ [r, w, x], ∃ v, openedWith i m.k.log = some v := by
    simpa using ⟨⟨_, C.traffic.readers⟩, ⟨_, C.traffic.writers⟩, ⟨_, C.traffic.mutex⟩⟩
  have hused : ∀ i ∈ [r, w, x], (m.k.sems i).used = true := by
    intro i hi
    obtain ⟨v, hv⟩ := hopened i hi
    exact ((h.ledger i).handoff v hv).1
  -- who comes back was in the queue, so it has not been waiting since before
  have hback : ∀ id d, (m.cont m.cpu).onPipe slot = none → m.cont m.cpu = .waited id d →
      id ∉ (m.k.pipes slot).sems := by
    intro id d hn hc hi
    rw [hids.sems] at hi
    rw [hc] at hn
    have heq := (C.guests m.cpu).stranger id d hc hn hi
    rcases (h.sleepers m.cpu).asleep id (hc ▸ rfl) with hq | ⟨_, hs⟩
    · exact Nat.succ_ne_self _ (hq.symm.trans heq)
    · exact R.awake (hcpu ▸ hs.1)
  refine ⟨?_, fun p => ?_, fun i hi p => ?_⟩
  · rcases eq_or_ne ((m.cont m.cpu).onPipe slot) none with hn | hon
    · have hap : Effects (Label.Apart slot (m.k.pipes slot).sems) m.k k1 :=
        T.apart he.1 ((Event.leaves_iff ho).mp he.2.1) (fun _ _ => ho)
          (fun s hs hopen => h.ownSems s slot hs hopen ho) h.onOpen hn fun id d => hback id d hn
      rw [hids.sems] at hap
      exact C.toBooks.elsewhere (hap.elsewhere hused) fun log hC => T.client hn hC
    · rw [hcpu]
      exact C.own h R hcpu he T hon
  · rcases eq_or_ne p m.cpu with rfl | hp
    · rw [Function.update_self, hcpu]
      exact T.guest hids he.2.1 ho h.ownSems h.onOpen
        (fun id d hc => (h.sleepers m.cpu).flat id d hc) _
    · rw [Function.update_of_ne hp]
      have hcounts := (T.others (hcpu ▸ hp) hcpu he.1).awake_counts
      refine ⟨(C.guests p).awaits, fun id d hd hn hi => ?_⟩
      rw [(hcounts id).1, (hcounts id).2]
      exact (C.guests p).stranger id d hd hn hi
  · have hcalm : Effects Label.Calm m.k k1 := by
      rcases T.ends with hends | ⟨_, rfl, _⟩
      · exact hends.effects.mono fun _ hl => hl.calm he.1
      · exact .refl
    obtain ⟨later, hlog, hnone⟩ := hcalm.opens_none (hused i hi)
    rw [hlog, sinceOpened_append hnone, List.count_append, List.count_append, C.resumed i hi]

theorem Channel.congr {k' : Kernel} (C : Channel slot r w x k cont)
    (hp : k'.pipes slot = k.pipes slot)
    (hl : k'.log = k.log) : Channel slot r w x k' cont := by
  refine ⟨⟨?_, ?_⟩, ?_, ?_⟩
  · rw [hp, hl]
    exact C.traffic
  · rw [hl]
    exact C.clients
  · rw [hl]
    exact C.guests
  · rw [hl]
    exact C.resumed

/-- An entry about nothing at the pipe. -/
theorem Channel.observe {o : Obs} (C : Channel slot r w x k cont) (ho : o.Foreign slot [r, w, x])
    (hq : ∀ id p, o ≠ .queued id p) (hr : ∀ id p, o ≠ .resumed id p) :
    Channel slot r w x (k.observe o) cont := by
  have hcount : ∀ id p, (o :: k.log).count (.queued id p) = k.log.count (.queued id p) ∧
      (o :: k.log).count (.resumed id p) = k.log.count (.resumed id p) :=
    fun id p => ⟨List.count_cons_of_ne (hq id p), List.count_cons_of_ne (hr id p)⟩
  refine ⟨⟨C.traffic.silent ho.silent, fun p => (C.clients p).skip ho.not_about⟩, fun p => ?_,
    fun i hi p => ?_⟩
  · refine ⟨(C.guests p).awaits, fun id d hd hn hi => ?_⟩
    show (o :: k.log).count _ = (o :: k.log).count _
    rw [(hcount id p).1, (hcount id p).2]
    exact (C.guests p).stranger id d hd hn hi
  · show (o :: k.log).count _ = (sinceOpened i (o :: k.log)).count _
    rw [sinceOpened_cons (ho.silent.opens i hi), List.count_cons_of_ne (hr i p),
      List.count_cons_of_ne (hr i p)]
    exact C.resumed i hi p

theorem Channel.switch {rsp sp : Sp} {q n : Pid} (C : Channel slot r w x k cont)
    (W : Switch k rsp k' sp q n) : Channel slot r w x k' cont := by
  have h1 : Channel slot r w x (k.observe (.switched rsp)) cont :=
    C.observe trivial (by simp) (by simp)
  cases hf : k.first with
  | true => exact h1.congr (congrFun W.rest.pipes slot) (by rw [W.log, hf]; rfl)
  | false =>
    have h2 : Channel slot r w x ((k.observe (.switched rsp)).observe (.saved q rsp)) cont :=
      h1.observe trivial (by simp) (by simp)
    exact h2.congr (congrFun W.rest.pipes slot) (by rw [W.log, hf]; rfl)

/-- Every step of a calm run keeps the books. -/
theorem Channel.step {m' : Machine} (C : Channel slot r w x m.k m.cont) (h : Reach allocs Calm m)
    (R : Running m c) (he : ClearsEmpty slot m e) (hs : m.step e = some m') :
    Channel slot r w x m'.k m'.cont := by
  cases R.stepped hs with
  | stayed T hm =>
    subst hm
    exact C.turn h R he T
  | counted _ hm =>
    subst hm
    exact C.congr rfl rfl
  | switched T _ W hcont =>
    rw [hcont]
    exact (C.turn h R he T).switch W

end Channel

/-! ## A pipe is opened -/

section Opened

variable {k k' k1 : Kernel} {m m' : Machine} {c p : Pid} {e : Event} {next : Cont} {flow : Flow}
  {slot s : Nat} {n i id r w x : Int} {allocs : Nat → Bool} {cont : Pid → Cont} {log : List Obs}
  {ok : Bool} {l : List (Int × Nat)}

theorem OnOpen.off (D : OnOpen m) (hclosed : (m.k.pipes slot).isOpen = false) (p : Pid) :
    (m.cont p).onPipe slot = none := by
  cases h : (m.cont p).onPipe slot with
  | none => rfl
  | some y => exact absurd (D p slot y h) (by simp [hclosed])

/-- A step adds no entry about a pipe that is closed. -/
theorem Turn.foreign (T : Turn m c e k1 next flow) (he : e.isCalm = true) (D : OnOpen m)
    (hclosed : (m.k.pipes slot).isOpen = false) :
    ∃ later, k1.log = later ++ m.k.log ∧ ∀ o ∈ later, o.Foreign slot [] := by
  have hopens : ∀ l o, Call.openPipe.Admits m.k c l → l.Logs o → o.Foreign slot [] := by
    rintro l o (rfl | ⟨_, rfl⟩ | ⟨_, _, rfl | rfl⟩) ho <;> cases o <;>
      first | trivial | exact List.not_mem_nil
  have hadds : ∀ {k'}, Effects (Call.openPipe.Admits m.k c) m.k k' →
      ∃ later, k'.log = later ++ m.k.log ∧ ∀ o ∈ later, o.Foreign slot [] :=
    fun h => h.later (I := fun _ => True) trivial fun hl _ _ => ⟨trivial, fun _ => hopens _ _ hl⟩
  by_cases hopen : ∃ off, e = .call off .openPipe
  · obtain ⟨off, rfl⟩ := hopen
    cases T with
    | returned _ hends =>
      obtain ⟨later, hlog, hf⟩ := hadds hends.effects
      refine ⟨.returned m.cpu _ :: later, congrArg (List.cons _) hlog, ?_⟩
      simpa using ⟨trivial, hf⟩
    | yielded _ hends => exact hadds hends.effects
    | entered => exact ⟨[], rfl, by simp⟩
  · have hap : Effects (Label.Apart slot []) m.k k1 :=
      T.apart he (fun _ _ => List.not_mem_nil) (fun off h => absurd ⟨off, h⟩ hopen)
        (fun _ _ _ _ _ => List.not_mem_nil) D (D.off hclosed m.cpu) fun _ _ _ => List.not_mem_nil
    exact (hap.elsewhere (by simp)).log

/-- Nothing has been done at a pipe that has not been opened. -/
theorem Reach.untouched (h : Reach allocs Calm m) (hclosed : (m.k.pipes slot).isOpen = false) :
    ∀ o ∈ m.k.log, o.Foreign slot [] := by
  have hinv : (m.k.pipes slot).isOpen = false → ∀ o ∈ m.k.log, o.Foreign slot [] := by
    have hswitch : ∀ {k k' rsp sp p n}, Switch k rsp k' sp p n →
        (∀ o ∈ k.log, o.Foreign slot []) → ∀ o ∈ k'.log, o.Foreign slot [] := by
      intro k k' rsp sp p n W hk o ho
      rw [W.log] at ho
      rcases List.mem_append.mp ho with ho | ho
      · cases hf : k.first with
        | true =>
          obtain rfl : o = .switched rsp := by simpa [hf] using ho
          trivial
        | false =>
          obtain rfl | rfl : o = .saved p rsp ∨ o = .switched rsp := by simpa [hf] using ho
          · trivial
          · trivial
      · exact hk o ho
    have hboot : ∀ o ∈ (boot allocs).k.log, o.Foreign slot [] := by
      rw [boot_log]
      simp [Obs.Foreign]
    refine h.reached.machine (P := fun m => (m.k.pipes slot).isOpen = false →
      ∀ o ∈ m.k.log, o.Foreign slot []) (fun _ => hboot) ?_ ?_
    · intro off m' hi _
      obtain ⟨_, _, _, _, W, _⟩ := boot_dispatch hi
      exact hswitch W hboot
    · rintro m c e m' R hm ⟨he, hr⟩ hs hclosed'
      have hturn : ∀ {k1 next flow}, Turn m c e k1 next flow → (k1.pipes slot).isOpen = false →
          ∀ o ∈ k1.log, o.Foreign slot [] := by
        intro k1 next flow T hc o ho
        have hc0 : (m.k.pipes slot).isOpen = false := by
          by_contra hopen
          have hstill : (k1.pipes slot).isOpen = true := by
            rcases T.ends with hends | ⟨_, rfl, _⟩
            · exact hends.effects.invariant (P := fun k => (k.pipes slot).isOpen = true)
                (by simpa using hopen) fun hl hk h => h.open_mono (hl.calm he) hk
            · simpa using hopen
          simp [hc] at hstill
        obtain ⟨later, hlog, hf⟩ := T.foreign he hr.onOpen hc0
        rw [hlog] at ho
        exact (List.mem_append.mp ho).elim (hf o) (hm hc0 o)
      cases R.stepped hs with
      | stayed T hm' =>
        subst hm'
        exact hturn T hclosed'
      | counted _ hm' =>
        subst hm'
        exact hm hclosed'
      | switched T _ W =>
        rw [W.rest.pipes] at hclosed'
        exact hswitch W (hturn T hclosed')
  exact hinv hclosed

theorem collect_nil {β : Type} {f : Obs → List β} (h : ∀ o ∈ log, f o = []) : collect f log = [] :=
  List.flatMap_eq_nil_iff.mpr fun o ho => h o (List.mem_reverse.mp ho)

theorem Obs.opens_ne {j : Int} {v : Nat} (h : j ≠ id) : (Obs.opened j v).opens id = none := if_neg h

/-- Nothing has gone through a pipe that the entries do not name. -/
theorem foreign_nothing (h : ∀ o ∈ log, o.Foreign slot []) : written slot log = [] ∧
    taken slot log = [] ∧ ∀ p, delivered slot p log = [] ∧ accepted slot p log = [] := by
  refine ⟨collect_nil fun o ho => ?_, collect_nil fun o ho => ?_, fun p =>
    ⟨collect_nil fun o ho => ?_, collect_nil fun o ho => ?_⟩⟩
  all_goals have hfo := h o ho
  · cases o with
    | put => exact if_neg hfo
    | _ => rfl
  · cases o with
    | got => exact if_neg hfo
    | _ => rfl
  · cases o with
    | readDone => exact if_neg fun hs => hfo hs.1
    | _ => rfl
  · cases o with
    | writeDone => exact if_neg fun hs => hfo hs.1
    | _ => rfl

/-- The log when the semaphores of a pipe have just been opened. -/
def opening (s : Nat) (i r w x : Int) (log : List Obs) : List Obs :=
  .pipeOpened s i :: .opened x 1 :: .opened w pipeBufferSize :: .opened r 0 :: log

theorem opening_foreign (hf : ∀ o ∈ log, o.Foreign slot []) :
    ∀ o ∈ opening s i r w x log, o.Foreign slot [] := by
  intro o ho
  rcases List.mem_cons.mp ho with rfl | ho
  · trivial
  rcases List.mem_cons.mp ho with rfl | ho
  · exact List.not_mem_nil
  rcases List.mem_cons.mp ho with rfl | ho
  · exact List.not_mem_nil
  rcases List.mem_cons.mp ho with rfl | ho
  · exact List.not_mem_nil
  · exact hf o ho

/-- What has happened at the semaphores since they were opened is that others were. -/
theorem opening_neutral (s : Nat) (i : Int) (log : List Obs) (hrw : r ≠ w) (hrx : r ≠ x)
    (hwx : w ≠ x) {j : Int} (hj : j ∈ [r, w, x]) :
    acts j (sinceOpened j (opening s i r w x log)) = [] ∧
      completions j (sinceOpened j (opening s i r w x log)) = [] ∧
      ∀ p, (sinceOpened j (opening s i r w x log)).count (.resumed j p) = 0 := by
  obtain rfl | rfl | rfl : j = r ∨ j = w ∨ j = x := by simpa using hj
  · simp [opening, sinceOpened, Obs.opens, hrx.symm, hrw.symm, acts, completions, Obs.act,
      Obs.completes]
  · simp [opening, sinceOpened, Obs.opens, hwx.symm, acts, completions, Obs.act, Obs.completes]
  · simp [opening, sinceOpened, Obs.opens, acts, completions, Obs.act, Obs.completes]

theorem Traffic.opened {pipe : Pipe} (ho : pipe.isOpen = true) (hids : pipe.HasSems r w x)
    (hr : pipe.readIdx = 0) (hw : pipe.writeIdx = 0) (hn : pipe.count = 0)
    (hf : ∀ o ∈ log, o.Foreign slot []) : Traffic slot r w x pipe (opening s i r w x log) := by
  have hforeign := opening_foreign (s := s) (i := i) (r := r) (w := w) (x := x) hf
  obtain ⟨hwritten, htaken, -⟩ := foreign_nothing hforeign
  have hposts : ∀ j ∈ [r, w, x], postCount j (opening s i r w x log) = 0 := by
    intro j hj
    rw [postCount, (opening_neutral s i log hids.rw hids.rx hids.wx hj).1]
    rfl
  refine ⟨ho, hids, ?_, ?_, ?_, ?_, ?_, ?_, ?_, ?_, ?_, ?_⟩
  · rw [opening, openedWith_cons rfl, openedWith_cons (Obs.opens_ne hids.rx.symm),
      openedWith_cons (Obs.opens_ne hids.rw.symm), openedWith_opened]
  · rw [opening, openedWith_cons rfl, openedWith_cons (Obs.opens_ne hids.wx.symm),
      openedWith_opened]
  · rw [opening, openedWith_cons rfl, openedWith_opened]
  · rw [hr, hw, hn]
    exact .empty (by decide)
  · rw [hwritten, htaken, hn, ringContents_zero]
    rfl
  · rw [hwritten]
    exact hposts r (by simp)
  · rw [htaken]
    exact hposts w (by simp)
  · exact fun p size bytes ret h => absurd rfl (hforeign _ h)
  · exact fun p data ret h => absurd rfl (hforeign _ h)
  · intro later earlier q n h
    refine absurd rfl (hforeign (.cleared slot q n) ?_)
    rw [h]
    exact List.mem_append_right _ List.mem_cons_self

theorem Client.opened {d : Cont} (hids : r ≠ w ∧ r ≠ x ∧ w ≠ x) (hf : ∀ o ∈ log, o.Foreign slot [])
    (hc : d.onPipe slot = none) : Client slot r w x (opening s i r w x log) p d := by
  obtain ⟨hwritten, htaken, hdone⟩ := foreign_nothing
    (opening_foreign (s := s) (i := i) (r := r) (w := w) (x := x) hf)
  obtain ⟨hdelivered, haccepted⟩ := hdone p
  have hneutral : ∀ j ∈ [r, w, x], passes j p (opening s i r w x log) = 0 ∧
      postsBy j p (opening s i r w x log) = 0 := by
    intro j hj
    have hnew := opening_neutral s i log hids.1 hids.2.1 hids.2.2 hj
    rw [passes, hnew.2.1, postsBy, hnew.1]
    exact ⟨rfl, rfl⟩
  refine ⟨?_, ?_, ?_, ?_, ?_, ?_⟩
  · rw [htaken, hdelivered, Cont.received, hc]
    rfl
  · rw [hwritten, haccepted, Cont.sent, hc]
    rfl
  · rw [htaken, (hneutral r (by simp)).1, Cont.tokens, hc]
    rfl
  · rw [hwritten, (hneutral w (by simp)).1, Cont.tokens, hc]
    rfl
  · rw [(hneutral x (by simp)).1, (hneutral x (by simp)).2, Cont.inside_of_onPipe hc]
    rfl
  · intro op stage h
    cases hc.symm.trans h

/-- A pipe that has just been opened, and nobody has used yet. -/
theorem Channel.opened (ho : (k.pipes slot).isOpen = true) (hids : (k.pipes slot).HasSems r w x)
    (hr : (k.pipes slot).readIdx = 0) (hw : (k.pipes slot).writeIdx = 0)
    (hn : (k.pipes slot).count = 0) (hlog : k.log = opening s i r w x log)
    (hf : ∀ o ∈ log, o.Foreign slot []) (hc : ∀ p, (cont p).onPipe slot = none)
    (hq : ∀ j ∈ [r, w, x], ∀ p, log.count (.queued j p) = 0 ∧ log.count (.resumed j p) = 0) :
    Channel slot r w x k cont := by
  have hcounts : ∀ j ∈ [r, w, x], ∀ p, k.log.count (.queued j p) = 0 ∧
      k.log.count (.resumed j p) = 0 := by
    intro j hj p
    simpa [hlog, opening] using hq j hj p
  refine ⟨⟨hlog ▸ Traffic.opened ho hids hr hw hn hf,
    fun p => hlog ▸ Client.opened ⟨hids.rw, hids.rx, hids.wx⟩ hf (hc p)⟩, fun p => ⟨?_, ?_⟩, ?_⟩
  · intro id next hd hon
    have hcp := hc p
    rw [hd] at hcp
    exact absurd hcp hon
  · intro id next _ _ hi
    rw [(hcounts id hi p).1, (hcounts id hi p).2]
  · intro j hj p
    rw [(hcounts j hj p).2, hlog, (opening_neutral s i log hids.rw hids.rx hids.wx hj).2.2 p]

/-- Three `semInit` in a row. -/
theorem semInits_log (h : semInits l k = some (k', true)) :
    k'.log = (l.map fun a => .opened a.1 a.2).reverse ++ k.log := by
  induction l generalizing k with
  | nil =>
    cases h
    rfl
  | cons a l ih =>
    obtain ⟨id, v⟩ := a
    obtain ⟨⟨k1, ok1⟩, h1, h2⟩ := Option.bind_eq_some_iff.mp h
    cases ok1 with
    | false => cases h2
    | true =>
      have hlog : k1.log = .opened id v :: k.log := by
        rcases semInit_cases h1 with ⟨hf, _⟩ | ⟨_, _, k2, ha, rfl⟩
        · cases hf
        · obtain ⟨_, rfl⟩ : k.allocs 0 = true ∧ _ = k2 := by simpa [Kernel.allocMemory] using ha
          rfl
      rw [ih h2, hlog]
      simp

/-- Only `createPipe` opens a pipe. -/
theorem Running.opens_by_call (R : Running m c) (hold : ∀ id, .pipeOpened slot id ∉ m.k.log)
    (hnew : .pipeOpened slot id ∈ m'.k.log) (hs : m.step e = some m') :
    ∃ off, e = .call off .openPipe := by
  by_contra hne
  have he : OpensNoPipe m e := fun off he => hne ⟨off, he⟩
  refine R.kernel hs (P := fun k => .pipeOpened slot id ∉ k.log) (hold id) ?_ ?_ hnew
  · intro l k k' hl _ hk hE hm
    rcases hE.mem_log hm with hm | hm
    · exact hk hm
    · cases l with
      | pipeReady s =>
        rcases hl with hl | hl
        · cases hl
        · exact (hl.opensNoPipe he s).2 rfl
      | note o =>
        obtain ⟨rfl, hr⟩ := hm
        exact hr
      | _ => exact hm
  · intro k k' rsp sp p n _ hk W hm
    rw [W.log] at hm
    cases hf : k.first <;> simp [hf] at hm <;> exact hk hm

/-- Nobody has slept at a semaphore that is not in use. -/
theorem Reach.unused_counts (h : Reach allocs Calm m) (hu : (m.k.sems i).used = false) (p : Pid) :
    m.k.log.count (.queued i p) = 0 ∧ m.k.log.count (.resumed i p) = 0 := by
  have hq : m.k.log.count (.queued i p) = 0 :=
    List.count_eq_zero_of_not_mem (((h.ledger i).unused hu).2.2 p)
  refine ⟨hq, ?_⟩
  -- nobody comes back more often than it has gone to sleep
  rcases em ((m.cont p).Waits i) with hw | hw
  · rcases (h.sleepers p).asleep i hw with ha | ⟨ha, _⟩
    · rw [hq] at ha
      cases ha
    · rw [← ha, hq]
  · rw [← (h.sleepers p).awake i hw, hq]

/-- The step in which `createPipe` opens the pipe. -/
theorem Running.opensChannel (R : Running m c) (h : Reach allocs Calm m)
    (hold : ∀ id, .pipeOpened slot id ∉ m.k.log) (hnew : .pipeOpened slot id ∈ m'.k.log)
    (hs : m.step e = some m') : ∃ r w x, Channel slot r w x m'.k m'.cont := by
  obtain ⟨off, rfl⟩ := R.opens_by_call hold hnew hs
  obtain ⟨_, hs⟩ := Option.ite_none_right_eq_some.mp hs
  obtain ⟨⟨k1, v⟩, h1, rfl⟩ := Option.map_eq_some_iff.mp hs
  rcases createPipe_cases R.core.pipes h1 with
    ⟨_, rfl, _⟩ | ⟨s, k2, ok, ⟨_, hclosed, _⟩, hsems, hend⟩
  · exact absurd ((List.mem_cons.mp hnew).resolve_left (by simp)) (hold id)
  rcases hend with ⟨rfl, rfl, _⟩ | ⟨rfl, rfl, rfl⟩
  · have hopens : ∀ (l : Label) (o : Obs), l = .plain ∨ (∃ i, l = .semOpened i) → l.Logs o →
        ∀ s i, o ≠ .pipeOpened s i := by
      rintro l o (rfl | ⟨_, rfl⟩) ho <;> cases o <;> first | exact ho.elim | simp
    obtain ⟨later, hlog, hopened⟩ := (semInits_effects hsems).later (I := fun _ => True) trivial
      fun hl _ _ => ⟨trivial, fun _ => hopens _ _ hl⟩
    have hm : Obs.pipeOpened slot id ∈ later ++ m.k.log :=
      hlog ▸ (List.mem_cons.mp hnew).resolve_left (by simp)
    rcases List.mem_append.mp hm with hm | hm
    · exact absurd rfl (hopened _ hm slot id)
    · exact absurd hm (hold id)
  · have hlog : k2.log = .opened (m.k.nextSemId + 2) 1 ::
        .opened (m.k.nextSemId + 1) pipeBufferSize :: .opened m.k.nextSemId 0 :: m.k.log :=
      semInits_log hsems
    obtain rfl : slot = s := by
      rcases List.mem_cons.mp hnew with hn | hn
      · cases hn
      · rcases List.mem_cons.mp hn with hn | hn
        · cases hn
          rfl
        · rw [hlog] at hn
          exact absurd (by simpa using hn) (hold id)
    obtain ⟨hlo, hhi, hunused⟩ := pipeSems_true hsems
    have hpipe : k2.pipes slot = (takeSlot m.k slot).pipes slot :=
      congrFun (semInits_kept hsems).1 slot
    have hslot : (takeSlot m.k slot).pipes slot = { m.k.pipes slot with
        readIdx := 0, writeIdx := 0, count := 0, isOpen := true, semReaders := m.k.nextSemId,
        semWriters := m.k.nextSemId + 1, mutex := m.k.nextSemId + 2 } := Function.update_self ..
    rw [hslot] at hpipe
    have C : Channel slot m.k.nextSemId (m.k.nextSemId + 1) (m.k.nextSemId + 2)
        (k2.observe (.pipeOpened slot (pipeHandle slot))) (Function.update m.cont m.cpu .user) := by
      refine Channel.opened (congrArg Pipe.isOpen hpipe) ⟨congrArg Pipe.semReaders hpipe,
        congrArg Pipe.semWriters hpipe, congrArg Pipe.mutex hpipe, by omega, by omega, by omega⟩
        (congrArg Pipe.readIdx hpipe) (congrArg Pipe.writeIdx hpipe) (congrArg Pipe.count hpipe)
        (congrArg (List.cons _) hlog) (h.untouched hclosed) (fun p => ?_) fun j hj p => ?_
      · rcases eq_or_ne p m.cpu with rfl | hp
        · rw [Function.update_self]
          rfl
        · rw [Function.update_of_ne hp]
          exact h.onOpen.off hclosed p
      · have hj' := mem_three.mp hj
        exact h.unused_counts (hunused j hj'.1 hj'.2) p
    exact ⟨_, _, _, C.observe trivial (by simp) (by simp)⟩

theorem boot_channel : Channel 0 0 1 2 (boot allocs).k (boot allocs).cont := by
  have hpipe : (boot allocs).k.pipes 0 = keyboardPipe := by
    rw [boot_pipes, Function.update_self]
  refine .opened ?_ ?_ ?_ ?_ ?_ boot_log (by simp) (fun _ => rfl) (by simp)
  · rw [hpipe]
    rfl
  · rw [hpipe]
    exact ⟨rfl, rfl, rfl, by decide, by decide, by decide⟩
  · rw [hpipe]
    rfl
  · rw [hpipe]
    rfl
  · rw [hpipe]
    rfl

/-- A pipe that `createPipe` has opened keeps its books. -/
theorem Reach.channel (h : Reach allocs (ClearsEmpty slot) m) (ho : .pipeOpened slot id ∈ m.k.log) :
    ∃ r w x, Channel slot r w x m.k m.cont := by
  have hcalm : ∀ {m}, Reach allocs (ClearsEmpty slot) m → Reach allocs Calm m :=
    fun h => h.mono fun _ _ he => he.1
  refine h.reached.machine (P := fun m => ∀ id, .pipeOpened slot id ∈ m.k.log →
    ∃ r w x, Channel slot r w x m.k m.cont) ?_ ?_ ?_ id ho
  · intro id hb
    obtain ⟨rfl, _⟩ : slot = 0 ∧ id = 0 := by simpa [boot_log] using hb
    exact ⟨_, _, _, boot_channel⟩
  · intro off m' hi id hb
    obtain ⟨hcont, sp, c, n, W, _⟩ := boot_dispatch hi
    rw [W.log, boot_log] at hb
    obtain ⟨rfl, _⟩ : slot = 0 ∧ id = 0 := by
      cases hf : (boot allocs).k.first <;> simpa [hf] using hb
    rw [hcont]
    exact ⟨_, _, _, boot_channel.switch W⟩
  · rintro m c e m' R hC ⟨he, hr⟩ hs id hm
    by_cases hold : ∃ i, .pipeOpened slot i ∈ m.k.log
    · obtain ⟨i, hi⟩ := hold
      obtain ⟨r, w, x, C⟩ := hC i hi
      exact ⟨r, w, x, C.step (hcalm hr) R he hs⟩
    · exact R.opensChannel (hcalm hr) (fun i hi => hold ⟨i, hi⟩) hm hs

end Opened

end SoKernel
