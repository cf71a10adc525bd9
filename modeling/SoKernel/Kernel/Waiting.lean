import SoKernel.Kernel.Ledger

/-!
# Waiting for a semaphore

A `semWait` that blocks is cut in two. Between the two halves the process is in the queue
of the semaphore, or a post has released it.

Results:
1. `Reach.sleepers`: how often each process has gone to sleep and has come back.
2. `reach_fair`: first come, first served, and every token goes to one process.
-/

namespace SoKernel

/-- A `semWait` of the semaphore has blocked and has not returned yet. -/
def Cont.Waits (id : Int) : Cont → Prop
  | .waited i _ => i = id
  | _ => False

/-- It sleeps in no queue, and nobody will wake it. -/
def Kernel.Stray (k : Kernel) (p : Pid) : Prop :=
  p ∈ k.queue .blockedBySem ∧ ∀ id, ¬ k.WaitsFor id p

/-- The process `p` and its sleeps; `cont` is what is left of its system call. -/
structure Sleeper (k : Kernel) (p : Pid) (cont : Cont) : Prop where
  inside : ∀ id, k.WaitsFor id p → cont.Waits id
  awake : ∀ id, ¬ cont.Waits id → k.log.count (.queued id p) = k.log.count (.resumed id p)
  /-- It will come back, or there was no queue to put it in. -/
  asleep : ∀ id, cont.Waits id →
    k.log.count (.queued id p) = k.log.count (.resumed id p) + 1 ∨
      k.log.count (.queued id p) = k.log.count (.resumed id p) ∧ k.Stray p
  flat : ∀ id next, cont = .waited id next → ∀ i, ¬ next.Waits i

def Sleepers (m : Machine) : Prop := ∀ p, Sleeper m.k p (m.cont p)

/-- Effects in which `p` does not go to sleep and does not come back. -/
def Label.Awake (p : Pid) (l : Label) : Prop :=
  l.Calm ∧ (∀ id q, l ≠ .sleep id p q) ∧ ∀ id, l ≠ .note (.resumed id p)

section

variable {k k' k1 : Kernel} {p c : Pid} {d next : Cont} {l : Label} {id : Int} {m : Machine}
  {e : Event} {flow : Flow}

namespace Sleeper

theorem congr (S : Sleeper k p d)
    (hq : ∀ id, k'.log.count (.queued id p) = k.log.count (.queued id p))
    (hr : ∀ id, k'.log.count (.resumed id p) = k.log.count (.resumed id p))
    (hw : ∀ id, k'.WaitsFor id p → k.WaitsFor id p)
    (hs : k.Stray p → k'.Stray p) : Sleeper k' p d := by
  refine ⟨fun id h => S.inside id (hw id h), fun id h => ?_, fun id h => ?_, S.flat⟩
  · rw [hq, hr]
    exact S.awake id h
  · rw [hq, hr]
    exact (S.asleep id h).imp_right (And.imp_right hs)

/-- A process that has no `semWait` to finish. -/
theorem of_awake (hw : ∀ id, ¬ k.WaitsFor id p)
    (heq : ∀ id, k.log.count (.queued id p) = k.log.count (.resumed id p))
    (hd : ∀ id, ¬ d.Waits id) : Sleeper k p d :=
  ⟨fun id h => absurd h (hw id), fun id _ => heq id, fun id h => absurd h (hd id),
    fun id _ h => absurd (show d.Waits id from h ▸ rfl) (hd id)⟩

end Sleeper

/-- A process leaves `blockedQueueBySem` when a post wakes it or when it dies. -/
theorem Effect.stays_blocked (h : Effect l k k') (C : Core k) (hc : l.Calm)
    (hp : p ∈ k.queue .blockedBySem) (hl : ∀ id, l ≠ .wake id p) : p ∈ k'.queue .blockedBySem := by
  have hmove : ∀ {x f t} (b' : PCB), f ≠ t → (f = .blockedBySem → p ≠ x) →
      p ∈ (k.move f t x b').queue .blockedBySem :=
    fun b' hft hx => (mem_move (C.nodup _) hft).mpr (.inl ⟨hp, fun hf => hx hf.symm⟩)
  cases h with
  | block => exact hmove _ (by decide) (by simp)
  | unblock => exact hmove _ (by decide) (by simp)
  | @sleep _ _ _ _ _ b' => exact hmove b' (by decide) (by simp)
  | stray => exact hmove _ (by decide) (by simp)
  | @wake _ i x _ _ b' =>
    have hx : p ≠ x := fun hx => hl i (by rw [hx])
    have hmem : p ∈ (k.move .blockedBySem .ready x b').queue .blockedBySem :=
      hmove b' (by decide) fun _ => hx
    exact hmem
  | enter _ _ _ _ hq =>
    rcases hq with ⟨rfl, _⟩ | ⟨rfl, _⟩ <;> simpa [Kernel.setQueue] using hp
  | die => cases hc
  | reap => cases hc
  | _ => exact hp

/-- An effect adds no entry about the sleeps of a process that stays awake or asleep. -/
theorem Effect.count_log (h : Effect l k k') {o : Obs} (ho : ¬ l.Logs o) :
    k'.log.count o = k.log.count o := by
  rcases h.log with he | ⟨o', he, hl⟩
  · rw [he]
  · rw [he, List.count_cons_of_ne]
    rintro rfl
    exact ho hl

theorem Label.Awake.not_queued (h : l.Awake p) : ¬ l.Logs (.queued id p) := by
  intro hl
  cases l with
  | sleep i x q =>
    obtain ⟨rfl, rfl⟩ := hl
    exact h.2.1 _ _ rfl
  | note o =>
    obtain ⟨rfl, ho⟩ := hl
    exact ho
  | _ => exact hl

theorem Label.Awake.not_resumed (h : l.Awake p) : ¬ l.Logs (.resumed id p) := by
  intro hl
  cases l with
  | note o =>
    obtain ⟨rfl, _⟩ := hl
    exact h.2.2 _ rfl
  | _ => exact hl

/-- Nobody wakes a process that is in no queue. -/
theorem Kernel.Stray.effect (H : k.Stray p) (C : Core k) (h : Effect l k k') (hl : l.Awake p) :
    k'.Stray p := by
  refine ⟨h.stays_blocked C hl.1 H.1 ?_, fun id hw => ?_⟩
  · rintro i rfl
    cases h with
    | wake _ hb => exact H.2 i ⟨_, hb, List.mem_cons_self⟩
  · exact H.2 id ((h.waitsFor hw).resolve_right (hl.2.1 _ _))

/-- What others do leaves a process asleep or awake. -/
theorem Sleeper.effect (S : Sleeper k p d) (C : Core k) (h : Effect l k k') (hl : l.Awake p) :
    Sleeper k' p d :=
  S.congr (fun _ => h.count_log hl.not_queued) (fun _ => h.count_log hl.not_resumed)
    (fun _ hw => (h.waitsFor hw).resolve_right (hl.2.1 _ _)) fun H => H.effect C h hl

theorem Sleeper.effects (S : Sleeper k p d) (C : Core k) (h : Effects (Label.Awake p) k k') :
    Sleeper k' p d :=
  (h.invariant (P := fun k => Core k ∧ Sleeper k p d) ⟨C, S⟩
    fun hl hk he => ⟨hk.1.effect he, hk.2.effect hk.1 he hl⟩).2

theorem Kernel.Stray.switch {rsp sp : Sp} {q n : Pid} (H : k.Stray p)
    (W : Switch k rsp k' sp q n) : k'.Stray p :=
  ⟨(W.rest.mem .blockedBySem p).mpr H.1, fun id hw => H.2 id (W.waitsFor.mp hw)⟩

/-- A dispatch writes entries of its own. -/
theorem Switch.count_log {rsp sp : Sp} {q n : Pid} {o : Obs} (W : Switch k rsp k' sp q n)
    (hs : ∀ x sp, o ≠ .saved x sp) (hw : ∀ sp, o ≠ .switched sp) :
    k'.log.count o = k.log.count o := by
  rw [W.log]
  cases hf : k.first with
  | true => simpa [hf] using List.count_cons_of_ne (hw rsp).symm
  | false =>
    have h1 := List.count_cons_of_ne (l := .switched rsp :: k.log) (hs q rsp).symm
    simpa [hf] using h1.trans (List.count_cons_of_ne (hw rsp).symm)

theorem Sleeper.switch {rsp sp : Sp} {q n : Pid} (S : Sleeper k p d)
    (W : Switch k rsp k' sp q n) : Sleeper k' p d := by
  exact S.congr (fun id => W.count_log (by simp) (by simp))
    (fun id => W.count_log (by simp) (by simp)) (fun id => W.waitsFor.mp) fun H => H.switch W

/-- Going to sleep. -/
theorem Effect.sleep_log {q : Bool} (h : Effect (.sleep id p q) k k') :
    k'.log = if q then .queued id p :: k.log else k.log := by
  cases h <;> rfl

theorem Effect.sleep_blocked {q : Bool} (h : Effect (.sleep id p q) k k') (C : Core k) :
    p ∈ k'.queue .blockedBySem := by
  have hmove : ∀ b' : PCB, p ∈ (k.move .ready .blockedBySem p b').queue .blockedBySem :=
    fun b' => (mem_move (C.nodup _) (by decide)).mpr (.inr ⟨rfl, rfl⟩)
  cases h with
  | @sleep _ _ _ _ _ b' => exact hmove b'
  | stray => exact hmove _

/-- Effects in which nobody goes to sleep and nobody comes back. -/
def Label.Wakeful (l : Label) : Prop := ∀ p, l.Awake p

/-- What a turn does to the sleeps of its process. -/
inductive Dozes (m : Machine) (c : Pid) (k1 : Kernel) (next : Cont) : Prop
  | working : (∀ id, ¬ (m.cont m.cpu).Waits id) → (∀ id, ¬ next.Waits id) →
      Effects Label.Wakeful m.k k1 → Dozes m c k1 next
  | sleeps {id : Int} {d : Cont} : (∀ i, ¬ (m.cont m.cpu).Waits i) → next = .waited id d →
      (∀ i, ¬ d.Waits i) → Awaits id c m.k k1 .tick → Dozes m c k1 next
  | wakes {id : Int} : m.cont m.cpu = .waited id next → k1 = m.k.observe (.resumed id m.cpu) →
      Dozes m c k1 next

theorem Call.Admits.wakeful {sc : Call} (h : sc.Admits k c l) (hc : sc.isCalm = true) :
    l.Wakeful := by
  have hcalm := Event.Admits.calm (m := ⟨k, 0, fun _ => .user⟩) (e := .call 0 sc) (.inl h) hc
  refine fun p => ⟨hcalm, ?_, ?_⟩
  · rintro id q rfl
    cases sc <;> simp [Call.Admits, Label.Killing, Label.Mourning, Label.Creating,
      Label.Counting] at h
  · rintro id rfl
    cases sc <;> simp [Call.Admits, Label.Killing, Label.Mourning, Label.Creating,
      Label.Counting] at h

/-- An entry about something else. -/
theorem Effects.noted {o : Obs} (ho : o.IsResult) (hn : ∀ id p, o ≠ .resumed id p) :
    Effects Label.Wakeful k (k.observe o) :=
  .one (.note ho) fun p => ⟨trivial, by simp, fun id h => hn id p (Label.note.inj h)⟩

theorem Effects.wakeful_post (h : semPost k id = some (k', flow)) : Effects Label.Wakeful k k' :=
  (semPost_effects h).mono fun l hl p => by
    rcases hl with ⟨_, rfl⟩ | ⟨_, rfl⟩ | rfl <;> exact ⟨trivial, by simp, by simp⟩

theorem Effects.wakeful_data {slot : Nat} (h : Effects (fun l => l = .pipeData slot) k k') :
    Effects Label.Wakeful k k' :=
  h.mono fun l hl p => by cases hl; exact ⟨trivial, by simp, by simp⟩

/-- A `semWait` that does not block. -/
theorem Effects.wakeful_wait {v : Int} (h : Awaits id c k k1 (.ret v)) :
    Effects Label.Wakeful k k1 := by
  cases h with
  | took he => exact .one he fun p => ⟨trivial, by simp, by simp⟩
  | failed => exact .one (.alloc k) fun p => ⟨trivial, by simp, by simp⟩

theorem Turn.dozes (T : Turn m c e k1 next flow) (he : e.isCalm = true) : Dozes m c k1 next := by
  have huser : m.Calls → ∀ id, ¬ (m.cont m.cpu).Waits id := fun h id hw => by
    rw [h.1] at hw
    exact hw
  have hcont : ∀ {d : Cont}, m.cont m.cpu = d → (∀ id, ¬ d.Waits id) →
      ∀ id, ¬ (m.cont m.cpu).Waits id := fun h hd => h ▸ hd
  have hplain : ∀ id, ¬ Cont.user.Waits id := fun _ => id
  have hret : ∀ {v}, ∀ id, ¬ (Cont.ret v).Waits id := fun _ => id
  have hpid : ∀ {p}, ∀ id, ¬ (Cont.waitpid p).Waits id := fun _ => id
  have hpipe : ∀ {slot op stage}, ∀ id, ¬ (Cont.pipe slot op stage).Waits id := fun _ => id
  cases T with
  | tick h => exact .working (hcont h hplain) hplain .refl
  | ctrlC => cases he
  | returned h hends =>
    exact .working (huser h) hplain ((hends.effects.mono fun _ hl => hl.wakeful he).trans
      (.noted trivial (by simp)))
  | yielded h hends => exact .working (huser h) hret (hends.effects.mono fun _ hl => hl.wakeful he)
  | semWaited h _ ha =>
    exact .working (huser h) hplain ((Effects.wakeful_wait ha).trans (.noted trivial (by simp)))
  | semSlept h _ ha => exact .sleeps (huser h) rfl hret ha
  | waitpidFailed h => exact .working (huser h) hplain (.noted trivial (by simp))
  | waitpidBlocked h _ hb =>
    refine .working (huser h) hpid (hb.mono fun l hl => ?_)
    rcases hl with rfl | rfl <;> exact fun p => ⟨trivial, by simp, by simp⟩
  | entered h => exact .working (huser h) hpipe .refl
  | sysret h => exact .working (hcont h hret) hplain (.noted trivial (by simp))
  | waitpidResumed h => exact .working (hcont h hpid) hplain (.noted trivial (by simp))
  | waited h => exact .wakes h rfl
  | passed h _ ha => exact .working (hcont h hpipe) hpipe (.wakeful_wait ha)
  | slept h _ ha => exact .sleeps (hcont h hpipe) rfl hpipe ha
  | @finished _ _ op o h ho =>
    refine .working (hcont h hpipe) hplain (.noted (PipeOp.result_isResult ho).1 ?_)
    rintro id p rfl
    cases op <;> simp [PipeOp.result] at ho
  | @read _ slot _ _ _ _ _ _ _ _ _ _ h htake hmutex hother =>
    have hdata : Effects Label.Wakeful m.k (takeByte m.k slot m.cpu).1 :=
      .wakeful_data takeByte_effects
    rw [htake] at hdata
    exact .working (hcont h hpipe) hpipe
      (hdata.trans ((Effects.wakeful_post hmutex).trans (.wakeful_post hother)))
  | @written _ slot _ _ _ b _ _ _ _ _ _ h _ hput hmutex hother =>
    have hdata : Effects Label.Wakeful m.k (putByte m.k slot m.cpu b).1 :=
      .wakeful_data putByte_effects
    rw [hput] at hdata
    exact .working (hcont h hpipe) hpipe
      (hdata.trans ((Effects.wakeful_post hmutex).trans (.wakeful_post hother)))
  | cleared h hmutex =>
    exact .working (hcont h hpipe) hplain
      ((Effects.wakeful_data emptyPipe_effects).trans (.wakeful_post hmutex))

/-- The sleeps of the process on the CPU. -/
theorem Turn.sleeper (T : Turn m c e k1 next flow) (R : Running m c) (Q : SemQueues m.k)
    (hcpu : m.cpu = c) (he : e.isCalm = true) (S : Sleeper m.k c (m.cont c)) :
    Sleeper k1 c next := by
  -- who is on the CPU is in no queue of a semaphore
  have hnot : c ∉ m.k.queue .blockedBySem := by
    intro hb
    rcases R.settled.place with rfl | hr
    · exact R.core.ne_zero hb rfl
    · cases R.core.queue_eq hr hb
  have hfree : ∀ id, ¬ m.k.WaitsFor id c := fun id hw => hnot (Q.member id c hw)
  rw [← hcpu] at S
  cases T.dozes he with
  | working hw hn h =>
    have S' : Sleeper m.k c next := .of_awake hfree (fun id => hcpu ▸ S.awake id (hw id)) hn
    exact S'.effects R.core (h.mono fun _ hl => hl c)
  | @sleeps id d hw hn hd ha =>
    subst hn
    have heq : ∀ i, m.k.log.count (.queued i c) = m.k.log.count (.resumed i c) :=
      fun i => hcpu ▸ S.awake i (hw i)
    have hflat : ∀ i next, Cont.waited id d = .waited i next → ∀ j, ¬ next.Waits j := by
      intro i next h
      cases h
      exact hd
    cases ha with
    | @slept a k1 queued _ hs =>
      have hlog : k1.log = if queued then .queued id c :: m.k.log else m.k.log := hs.sleep_log
      have hwaits : ∀ i, k1.WaitsFor i c → i = id ∧ queued = true := by
        intro i hi
        rcases hs.waitsFor hi with hi | hi
        · exact absurd hi (hfree i)
        · cases hi
          exact ⟨rfl, rfl⟩
      refine ⟨fun i hi => (hwaits i hi).1.symm, fun i hi => ?_, fun i hi => ?_, hflat⟩
      · have hne : Obs.queued id c ≠ .queued i c := by
          rintro h
          cases h
          exact hi rfl
        show k1.log.count _ = k1.log.count _
        rw [hlog]
        cases queued with
        | false => exact heq i
        | true =>
          rw [if_pos rfl, List.count_cons_of_ne hne, List.count_cons_of_ne (by simp)]
          exact heq i
      · obtain rfl : id = i := hi
        show k1.log.count _ = k1.log.count _ + 1 ∨ k1.log.count _ = k1.log.count _ ∧ _
        rw [hlog]
        cases queued with
        | false =>
          refine .inr ⟨heq id, hs.sleep_blocked (R.core.congr rfl rfl rfl rfl rfl rfl rfl), ?_⟩
          exact fun j hj => Bool.false_ne_true (hwaits j hj).2
        | true =>
          rw [if_pos rfl, List.count_cons_self, List.count_cons_of_ne (by simp), heq id]
          exact .inl rfl
  | @wakes id hw hk =>
    subst hk
    have hnext := S.flat id next hw
    have hother : ∀ i, i ≠ id → m.k.log.count (.queued i c) = m.k.log.count (.resumed i c) := by
      intro i hi
      refine hcpu ▸ S.awake i fun h => hi ?_
      rw [hw] at h
      exact h.symm
    -- it was released, since it is on the CPU
    have hback : m.k.log.count (.queued id c) = m.k.log.count (.resumed id c) + 1 := by
      rcases S.asleep id (by rw [hw]; rfl) with h | ⟨_, hb⟩
      · exact hcpu ▸ h
      · exact absurd (hcpu ▸ hb.1) hnot
    refine .of_awake hfree (fun i => ?_) hnext
    show (.resumed id m.cpu :: m.k.log).count _ = (.resumed id m.cpu :: m.k.log).count _
    rw [hcpu, List.count_cons_of_ne (by simp)]
    rcases eq_or_ne i id with rfl | hi
    · rw [List.count_cons_self, hback]
    · rw [List.count_cons_of_ne (by simpa using hi.symm), hother i hi]

/-- What the other processes do to the sleeps of `p`. -/
theorem Turn.others (T : Turn m c e k1 next flow) (hpc : p ≠ c)
    (hcpu : m.cpu = c) (he : e.isCalm = true) : Effects (Label.Awake p) m.k k1 := by
  cases T.dozes he with
  | working _ _ h => exact h.mono fun _ hl => hl p
  | sleeps _ _ _ ha =>
    cases ha with
    | slept ha hs =>
      have hplain : Effects (Label.Awake p) m.k _ := ha.mono fun l hl => by
        cases hl
        exact ⟨trivial, by simp, by simp⟩
      refine hplain.trans (.trans (.one hs ?_) (.one (.quantum _ 0) ⟨trivial, by simp, by simp⟩))
      exact ⟨trivial, fun i q h => hpc (by cases h; rfl), by simp⟩
  | wakes _ hk =>
    subst hk
    refine .one (.note trivial) ⟨trivial, by simp, fun i h => hpc ?_⟩
    cases h
    exact hcpu

/-- Every calm step of a machine whose processes run on their own stacks. -/
theorem Running.sleepers_step {m' : Machine} (R : Running m c) (hcpu : m.cpu = c)
    (Q : SemQueues m.k) (S : Sleepers m) (he : e.isCalm = true) (h : m.step e = some m') :
    Sleepers m' := by
  have hturn : ∀ {k1 next flow}, Turn m c e k1 next flow →
      ∀ p, Sleeper k1 p (Function.update m.cont m.cpu next p) := by
    intro k1 next flow T p
    rcases eq_or_ne p c with rfl | hpc
    · rw [hcpu, Function.update_self]
      exact T.sleeper R Q hcpu he (S p)
    · rw [hcpu, Function.update_of_ne hpc]
      exact (S p).effects R.core (T.others hpc hcpu he)
  cases R.stepped h with
  | stayed T hm =>
    subst hm
    exact hturn T
  | counted _ hm =>
    subst hm
    exact fun p => (S p).congr (fun _ => rfl) (fun _ => rfl) (fun _ => id) id
  | switched T _ W hcont =>
    intro p
    rw [hcont]
    exact (hturn T p).switch W

/-! ## Runs without kills -/

theorem Reach.calm_cpu {allocs : Nat → Bool} (h : Reach allocs Calm m) (R : Running m c) :
    m.cpu = c := by
  have hs : Reach allocs Spares m := h.mono fun _ _ he _ _ hk => he.kills hk
  rcases hs.home.2 with rfl | ⟨x, R', H⟩
  · have hfirst : true = false := R.settled.first
    cases hfirst
  · obtain rfl : c = x := Option.some.inj (R.settled.current.symm.trans R'.settled.current)
    exact R'.cpu_of_home H

theorem boot_sleepers {allocs : Nat → Bool} : Sleepers (boot allocs) := by
  refine fun p => .of_awake (fun _ => boot_waitsFor) (fun id => ?_) (fun _ => id)
  rw [boot_log, List.count_eq_zero_of_not_mem (by simp), List.count_eq_zero_of_not_mem (by simp)]

/-- The sleeps of the processes in runs without kills. -/
theorem Reach.sleepers {allocs : Nat → Bool} (h : Reach allocs Calm m) : Sleepers m := by
  refine h.reached.machine boot_sleepers ?_ ?_
  · intro off m' hi p
    obtain ⟨hcont, _, _, _, W, _⟩ := boot_dispatch hi
    rw [hcont]
    exact (boot_sleepers p).switch W
  · rintro m c e m' R S ⟨hok, hr⟩ hs
    exact R.sleepers_step (Reach.calm_cpu hr R) (Reach.calm_semQueues hr) S hok hs

/-! ## First come, first served -/

/-- A `semWait` of the semaphore that returns. -/
def Obs.completes (id : Int) : Obs → Option Pid
  | .took i p | .resumed i p => if i = id then some p else none
  | _ => none

/-- Who has returned from a `semWait` of the semaphore. -/
def completions (id : Int) (log : List Obs) : List Pid := log.filterMap (Obs.completes id)

/-- What has happened at the semaphore since it was opened. -/
def history (id : Int) (m : Machine) : List (Act Pid) := acts id (sinceOpened id m.k.log)

/-- Who has returned from a `semWait` of the semaphore since then. -/
def completed (id : Int) (m : Machine) : List Pid := completions id (sinceOpened id m.k.log)

/-- The process has returned from more waits than it has posted. -/
def InSection (id : Int) (m : Machine) (p : Pid) : Prop :=
  (posts (history id m)).count p < (completed id m).count p

/-- The semaphore, opened with `v`, hands its tokens out in order. -/
structure FairSemaphore (id : Int) (v : Nat) (m : Machine) : Prop where
  queue : (m.k.sems id).blocked = .live (m.k.sems id).waiting
  /-- Nobody waits while there are tokens. -/
  idle : 0 < (m.k.sems id).value → (m.k.sems id).waiting = []
  balance : (m.k.sems id).value + (waits (history id m)).length =
    v + (posts (history id m)).length + (m.k.sems id).waiting.length
  /-- Every `semWait` and every `semPost` is in the history. -/
  started : ∀ c k' flow, Executing m.k c → semWait m.k id = some (k', flow) →
    flow = .ret 0 ∧ k'.log = .took id c :: m.k.log ∨
      flow = .tick ∧ k'.log = .queued id c :: m.k.log
  posted : ∀ c k' flow, Executing m.k c → semPost m.k id = some (k', flow) →
    (∃ p, k'.log = .released id p c :: m.k.log) ∨ k'.log = .incremented id c :: m.k.log
  /-- Who has returned took a token or was released. -/
  returned : ∀ p, (completed id m).count p ≤ (grants (history id m)).count p
  returned_le : (completed id m).length ≤ v + (posts (history id m)).length
  fifo : arrivals (history id m) = departures (history id m) ++ (m.k.sems id).waiting
  noOvertake : ∀ later earlier p, history id m = later ++ .took p :: earlier →
    arrivals earlier = departures earlier
  /-- Who is in the queue has not returned, and can neither be blocked nor unblocked. -/
  waiting : ∀ p ∈ (m.k.sems id).waiting, (m.cont p).Waits id ∧ p ∈ m.k.queue .blockedBySem ∧
    blockProcess m.k p = some (m.k, .ret (-1)) ∧ unblockProcess m.k p = some (m.k, .ret (-1))
  /-- As a lock, with posts by processes in their section only. -/
  exclusion : v = 1 → (∀ p, (posts (history id m)).count p ≤ (completed id m).count p) →
    ∀ p q, InSection id m p → InSection id m q → p = q

section Entries

variable {o : Obs}

theorem Obs.completes_iff : o.completes id = some p ↔ o = .took id p ∨ o = .resumed id p := by
  cases o <;> simp [Obs.completes]

theorem Obs.arrival_iff : (o.act id).bind Act.arrival = some p ↔ o = .queued id p := by
  cases o <;> simp [Obs.act, Option.bind_eq_some_iff, Act.arrival]

theorem Obs.grantee_iff : (o.act id).bind Act.grantee = some p ↔
    o = .took id p ∨ (o.act id).bind Act.departure = some p := by
  cases o <;> simp [Obs.act, Option.bind_eq_some_iff, Act.grantee, Act.departure]

theorem Obs.poster_iff : (o.act id).bind Act.poster = some p ↔
    (∃ q, o = .released id q p) ∨ o = .incremented id p := by
  cases o <;> simp [Obs.act, Option.bind_eq_some_iff, Act.poster]

/-- Entries of one kind or of another. -/
theorem countP_either {P Q R : Obs → Bool} (h : ∀ o, P o ↔ Q o ∨ R o) (hd : ∀ o, Q o → ¬ R o)
    (log : List Obs) : log.countP P = log.countP Q + log.countP R := by
  induction log with
  | nil => rfl
  | cons o log ih =>
    simp only [List.countP_cons, ih, h]
    rcases em (Q o = true) with hq | hq
    · simp [hq, hd o hq, Nat.add_right_comm]
    · simp [hq, Nat.add_assoc]

theorem count_completions (log : List Obs) : (completions id log).count p =
    log.count (.took id p) + log.count (.resumed id p) := by
  rw [completions, List.count_filterMap]
  refine countP_either (fun o => by simpa using Obs.completes_iff) ?_ log
  simp

theorem count_grants (log : List Obs) : (grants (acts id log)).count p =
    log.count (.took id p) + ((acts id log).filterMap Act.departure).count p := by
  rw [grants, acts, List.filterMap_filterMap, List.filterMap_filterMap, List.count_filterMap,
    List.count_filterMap]
  refine countP_either (fun o => by simpa using Obs.grantee_iff) ?_ log
  simp [Obs.act, Act.departure]

theorem count_queued (log : List Obs) :
    ((acts id log).filterMap Act.arrival).count p = log.count (.queued id p) := by
  rw [acts, List.filterMap_filterMap, List.count_filterMap, List.count]
  exact List.countP_congr fun o _ => by simpa using Obs.arrival_iff

end Entries

section Fair

variable {v : Nat}

/-- Who is in the queue cannot be blocked or unblocked. -/
theorem blocked_refused (C : Core k) (hp : p ∈ k.queue .blockedBySem) :
    blockProcess k p = some (k, .ret (-1)) ∧ unblockProcess k p = some (k, .ret (-1)) := by
  have hn : p ∉ k.queue .blocked := fun h => by cases C.queue_eq h hp
  constructor
  · simp [blockProcess, blockProcessQueue, hp]
  · simp [unblockProcess, unblockProcessQueue, moveProcess, switchProcessFromQueues, hn, status]

theorem Reach.returned {allocs : Nat → Bool} (h : Reach allocs Calm m)
    (hv : openedWith id m.k.log = some v) (p : Pid) :
    (completed id m).count p ≤ (grants (history id m)).count p := by
  obtain ⟨_, hlive, H⟩ := (h.ledger id).handoff v hv
  have Q := h.calm_semQueues
  have S := h.sleepers p
  have harrived := (h.ledger id).arrived (by simp [hv]) p
  have hcount := H.count_arrivals p
  have hsince : (sinceOpened id m.k.log).count (.resumed id p) ≤ m.k.log.count (.resumed id p) :=
    sinceOpened_sublist.count_le _
  -- who waits has gone to sleep once more than it has come back
  have hback : m.k.log.count (.resumed id p) + (m.k.sems id).waiting.count p ≤
      m.k.log.count (.queued id p) := by
    by_cases hp : p ∈ (m.k.sems id).waiting
    · have hw : m.k.WaitsFor id p := ⟨_, hlive, hp⟩
      rw [List.count_eq_one_of_mem (Q.nodup id _ hlive) hp]
      rcases S.asleep id (S.inside id hw) with h | ⟨_, hs⟩
      · exact Nat.le_of_eq h.symm
      · exact absurd hw (hs.2 id)
    · rw [List.count_eq_zero_of_not_mem hp, Nat.add_zero]
      by_cases hd : (m.cont p).Waits id
      · rcases S.asleep id hd with h | ⟨h, _⟩
        · exact h ▸ Nat.le_succ _
        · exact Nat.le_of_eq h.symm
      · exact Nat.le_of_eq (S.awake id hd).symm
  rw [completed, history, count_completions, count_grants]
  rw [count_queued, ← harrived] at hcount
  refine Nat.add_le_add_left (Nat.le_trans hsince ?_) _
  exact Nat.le_of_add_le_add_right (Nat.le_trans hback (Nat.le_of_eq hcount))

/-- In runs in which nobody is killed and no semaphore is closed, and in which the
counter of the semaphore does not wrap. -/
theorem reach_fair (h : Reach (fun _ => true) Calm m) (hv : openedWith id m.k.log = some v)
    (hlt : v + (posts (history id m)).length < 2 ^ 32) : FairSemaphore id v m := by
  obtain ⟨hused, hlive, H⟩ := (h.ledger id).handoff v hv
  have Q := h.calm_semQueues
  obtain ⟨C, _, x, hx, hplace⟩ := Reach.core h
  have hexact := H.exact (Nat.lt_add_right _ hlt)
  have hle := h.returned hv
  have hlen : (completed id m).length ≤ (grants (history id m)).length := by
    have hadd := Handoff.length_add_le (l := []) List.nodup_nil hle (by simp)
    simpa using hadd
  have hready : ∀ c, Executing m.k c → c ∈ m.k.queue .ready := by
    rintro c ⟨hc, hidle⟩
    obtain rfl := Option.some.inj (hc.symm.trans hx)
    refine hplace.resolve_left fun h0 => hidle ?_
    rw [hc, C.idle, h0]
  refine ⟨hlive, fun hpos => H.idle.resolve_left (Nat.ne_of_gt hpos), ?_, ?_, ?_, hle, ?_, H.fifo,
    ?_, ?_, ?_⟩
  · calc (m.k.sems id).value + (waits (history id m)).length
        = (m.k.sems id).value + ((grants (history id m)).length + (m.k.sems id).waiting.length) :=
          congrArg _ H.waits_length
      _ = v + (posts (history id m)).length + (m.k.sems id).waiting.length := by
          rw [← Nat.add_assoc, history, ← hexact]
  · intro c k' flow E h'
    rcases wait_cases E.current (hready c E) h' with ⟨he, rfl⟩ | ⟨_, _, ha, _⟩ |
      ⟨a, k1, queued, _, he, rfl, rfl, hq⟩
    · cases he
      exact .inl ⟨rfl, by rw [getCurrentPid_eq E.current]; rfl⟩
    · rw [Reach.allocs h 0] at ha
      cases ha
    · rw [hq (Reach.allocs h) ⟨_, hlive⟩] at he
      exact .inr ⟨rfl, he.sleep_log⟩
  · intro c k' flow E h'
    obtain ⟨_, l, he, hl⟩ := semPost_cases h'
    rcases hl with ⟨p, rfl⟩ | ⟨p, rfl⟩ | rfl
    · cases he
      exact .inl ⟨p, by rw [getCurrentPid_eq E.current]; rfl⟩
    · cases he with
      | absorb _ hb hp => exact absurd (Q.member id p ⟨_, hb, List.mem_cons_self⟩) hp
    · cases he
      exact .inr (by rw [getCurrentPid_eq E.current]; rfl)
  · exact Nat.le_trans hlen (Nat.le_trans (Nat.le_add_left _ _) H.grants_le)
  · intro later earlier p hsplit
    rw [← show history id m = acts id (sinceOpened id m.k.log) from rfl, hsplit] at H
    exact H.noOvertake
  · intro p hp
    have hw : m.k.WaitsFor id p := ⟨_, hlive, hp⟩
    have hb := Q.member id p hw
    exact ⟨(Reach.sleepers h p).inside id hw, hb, blocked_refused C hb⟩
  · rintro rfl hposts p q hp hq
    by_contra hne
    have hboth : ∀ a ∈ [p, q], (posts (history id m)).count a < (completed id m).count a := by
      rintro a ha
      rcases List.mem_pair.mp ha with rfl | rfl
      · exact hp
      · exact hq
    have htwo : 2 ≤ 1 := H.exclusion hlen hposts (by simpa using hne) hboth
    exact absurd htwo (by decide)

/-- The shell and its child use a semaphore as a lock, and the child waits for the shell. -/
def lockTwice : List Event :=
  [.tick 0, .call 0 (.createProcess backgroundArgs), .call 0 (.semOpen 9 1), .call 0 (.semWait 9),
    .call 0 .yield, .resume 0, .call 0 .yield, .call 0 (.semWait 9), .resume 0,
    .call 0 (.semPost 9), .call 0 .yield, .resume 0, .call 0 .yield, .resume 0]

theorem lockTwice_run :
    ∃ m, Run.exec Machine.step Calm (boot fun _ => true) lockTwice = some m ∧
      Reach (fun _ => true) Calm m ∧ openedWith 9 m.k.log = some 1 ∧ completed 9 m = [2, 1] ∧
      posts (history 9 m) = [1] ∧ .queued 9 2 ∈ m.k.log :=
  Run.exists_exec (by decide +kernel)

theorem reach_fair_lock : ∃ m, Reach (fun _ => true) Calm m ∧ completed 9 m = [2, 1] ∧
    .queued 9 2 ∈ m.k.log ∧ FairSemaphore 9 1 m := by
  obtain ⟨m, _, hm, hv, hc, hp, hq⟩ := lockTwice_run
  exact ⟨m, hm, hc, hq, reach_fair hm hv (by rw [hp]; decide)⟩

end Fair

end

end SoKernel
