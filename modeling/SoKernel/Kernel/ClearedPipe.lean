import SoKernel.Kernel.ClosedSems
import SoKernel.Kernel.Keystroke
import SoKernel.Kernel.LosslessPipe

/-!
# Clearing a pipe

`pipeClear` sets `count` to zero and leaves the semaphores as they are. On a pipe that
holds bytes, the three counts of them part for good.

Results:
1. `Reach.woken`: who sleeps in `blockedQueueBySem`, having been queued, is in the queue.
2. `Channel.resting`: the values of the semaphores where no operation is halfway.
3. `Channel.writes`: a write for which there is room runs to its end.
4. `reach_clearedPipe`: a pipe that is cleared only when it is empty stays in step.
-/

namespace SoKernel

/-- The stage at which an operation waits first. -/
def PipeOp.first : PipeOp → Stage
  | .clear => .mutex
  | _ => .loop

/-- What is left on the stack of `p` is not between the waits and the posts of an operation on
the pipe: `p` has yet to wait, or sleeps in its first wait. -/
def Cont.Rests (slot : Nat) (k : Kernel) (p : Pid) : Cont → Prop
  | .pipe s op stage => s = slot → stage = op.first
  | .waited _ (.pipe s op stage) => s = slot → stage = op.first.next ∧ p ∈ k.queue .blockedBySem
  | _ => True

/-- No process is between the waits and the posts of an operation. -/
def AtRest (slot : Nat) (m : Machine) : Prop := ∀ p, (m.cont p).Rests slot m.k p

/-! ## 1. Who sleeps -/

/-- A process that has been put in the queue of a semaphore sleeps as long as it is there. -/
def Kernel.Woken (k : Kernel) (p : Pid) : Prop :=
  ∀ id, p ∈ k.queue .blockedBySem →
    k.log.count (.queued id p) = k.log.count (.resumed id p) + 1 → k.WaitsFor id p

section Woken

variable {k k' k1 : Kernel} {l : Label} {p c : Pid} {id : Int} {m : Machine} {e : Event}
  {next : Cont} {flow : Flow} {allocs : Nat → Bool}

/-- A process gets into `blockedQueueBySem` by going to sleep. -/
theorem Effect.was_blocked (h : Effect l k k') (C : Core k) (hl : ∀ id q, l ≠ .sleep id p q)
    (hp : p ∈ k'.queue .blockedBySem) : p ∈ k.queue .blockedBySem := by
  have hmove : ∀ {f t x} (b' : PCB), f ≠ t → t ≠ .blockedBySem →
      p ∈ (k.move f t x b').queue .blockedBySem → p ∈ k.queue .blockedBySem := by
    intro f t x b' hft ht hp
    rcases (mem_move (C.nodup _) hft).mp hp with ⟨hp, _⟩ | ⟨rfl, _⟩
    · exact hp
    · exact absurd rfl ht
  cases h with
  | block => exact hmove _ (by decide) (by decide) hp
  | unblock => exact hmove _ (by decide) (by decide) hp
  | @sleep _ i x _ _ b' =>
    have hp : p ∈ (k.move .ready .blockedBySem x b').queue .blockedBySem := hp
    rcases (mem_move (C.nodup _) (by decide)).mp hp with ⟨hp, _⟩ | ⟨_, rfl⟩
    · exact hp
    · exact absurd rfl (hl i true)
  | @stray _ i x _ b' =>
    rcases (mem_move (C.nodup _) (by decide)).mp hp with ⟨hp, _⟩ | ⟨_, rfl⟩
    · exact hp
    · exact absurd rfl (hl i false)
  | @wake _ _ x _ _ b' =>
    have hp : p ∈ (k.move .blockedBySem .ready x b').queue .blockedBySem := hp
    exact hmove b' (by decide) (by decide) hp
  | enter _ _ _ _ hq => rcases hq with ⟨rfl, _⟩ | ⟨rfl, _⟩ <;> simpa [Kernel.setQueue] using hp
  | @die _ x f _ b' _ hf =>
    have hp : p ∈ (k.move f .zombie x b').queue .blockedBySem := hp
    exact hmove b' hf (by decide) hp
  | reap => simpa [Kernel.setQueue] using hp
  | _ => exact hp

/-- Who is woken is no longer asleep. -/
theorem Effect.leaves_sleep (h : Effect l k k') (C : Core k) (Q : SemQueues k)
    (hl : l = .wake id p ∨ l = .absorb id p) : p ∉ k'.queue .blockedBySem := by
  cases h with
  | @wake _ _ x _ _ b' =>
    obtain ⟨rfl, rfl⟩ : _ = id ∧ x = p := by simpa using hl
    intro hp
    have hp : x ∈ (k.move .blockedBySem .ready x b').queue .blockedBySem := hp
    rcases (mem_move (C.nodup _) (by decide)).mp hp with ⟨_, hne⟩ | ⟨ht, _⟩
    · exact hne rfl rfl
    · cases ht
  | absorb _ hb hx => exact absurd (Q.member _ _ ⟨_, hb, List.mem_cons_self⟩) hx
  | _ => simp at hl

/-- A process that goes on sleeping stays in the queue it is in. -/
theorem Effect.waitsFor_kept (h : Effect l k k') (C : Core k) (Q : SemQueues k) (L : Ledger k)
    (hc : l.Calm) (hw : k.WaitsFor id p) (hp : p ∈ k'.queue .blockedBySem) :
    k'.WaitsFor id p := by
  rcases h.sem id with heq | hs
  · rw [Kernel.WaitsFor, heq]
    exact hw
  · obtain ⟨pids, hb, hin⟩ := hw
    have hleaves : l = .wake id p ∨ l = .absorb id p → p ∉ k'.queue .blockedBySem :=
      h.leaves_sleep C Q
    rw [Kernel.WaitsFor]
    generalize k'.sems id = s' at hs ⊢
    cases hs with
    | took => exact ⟨pids, hb, hin⟩
    | counted => exact ⟨pids, hb, hin⟩
    | joined hl =>
      obtain rfl := SemQueue.live.inj (hl.symm.trans hb)
      exact ⟨_, rfl, List.mem_append_left _ hin⟩
    | @left _ x _ hl hx =>
      obtain rfl := SemQueue.live.inj (hl.symm.trans hb)
      rcases List.mem_cons.mp hin with rfl | hin
      · exact absurd hp (hleaves hx)
      · exact ⟨_, rfl, hin⟩
    | opened _ hu => cases hb.symm.trans ((L id).unused hu).1
    | closed => cases hc

theorem Kernel.Woken.effect (W : k.Woken p) (C : Core k) (Q : SemQueues k) (L : Ledger k)
    (h : Effect l k k') (hl : l.Awake p) : k'.Woken p := by
  intro id hp heq
  rw [h.count_log hl.not_queued, h.count_log hl.not_resumed] at heq
  have hwas := h.was_blocked C hl.2.1 hp
  exact h.waitsFor_kept C Q L hl.1 (W id hwas heq) hp

theorem Kernel.Woken.effects (W : k.Woken p) (C : Core k) (Q : SemQueues k) (L : Ledger k)
    (h : Effects (Label.Awake p) k k') : k'.Woken p := by
  have hall : Core k' ∧ SemQueues k' ∧ Ledger k' ∧ k'.Woken p := by
    refine h.invariant (P := fun k => Core k ∧ SemQueues k ∧ Ledger k ∧ k.Woken p)
      ⟨C, Q, L, W⟩ ?_
    rintro l a b hl ⟨Ca, Qa, La, Wa⟩ he
    refine ⟨Ca.effect he, Qa.effect Ca he ?_, La.effect Qa he hl.1, Wa.effect Ca Qa La he hl⟩
    rintro x rfl
    exact hl.1.elim
  exact hall.2.2.2

theorem Kernel.Woken.switch {rsp sp : Sp} {q n : Pid} (W : k.Woken p)
    (S : Switch k rsp k' sp q n) : k'.Woken p := by
  intro id hp heq
  rw [S.count_log (by simp) (by simp), S.count_log (by simp) (by simp)] at heq
  exact S.waitsFor.mpr (W id ((S.rest.mem .blockedBySem p).mp hp) heq)

/-- Where the process on the CPU goes to sleep it is put in the queue, or not counted as
having been. -/
theorem Turn.woken (T : Turn m c e k1 next flow) (R : Running m c) (hcpu : m.cpu = c)
    (he : e.isCalm = true) (Q : SemQueues m.k) (L : Ledger m.k) (S : Sleeper m.k c (m.cont c)) :
    k1.Woken c := by
  have hnot := R.awake
  have hout : m.k.Woken c := fun _ hb => absurd hb hnot
  cases T.dozes he with
  | working _ _ h => exact hout.effects R.core Q L (h.mono fun _ hl => hl c)
  | @sleeps id d hw _ _ ha =>
    cases ha with
    | @slept a k1 queued _ hs =>
      intro i _ heq
      have hlog : k1.log = if queued then .queued id c :: m.k.log else m.k.log := hs.sleep_log
      have hbefore : m.k.log.count (.queued i c) = m.k.log.count (.resumed i c) :=
        S.awake i (hcpu ▸ hw i)
      have heq : k1.log.count (.queued i c) = k1.log.count (.resumed i c) + 1 := heq
      rw [hlog] at heq
      cases queued with
      | false => exact absurd (hbefore.symm.trans heq) (Nat.ne_of_lt (Nat.lt_succ_self _))
      | true =>
        rw [if_pos rfl, List.count_cons_of_ne (show Obs.queued id c ≠ .resumed i c by simp)] at heq
        rcases eq_or_ne id i with rfl | hi
        · cases hs with
          | @sleep _ _ _ pids =>
            have hk : (m.k.setSem id { m.k.sems id with blocked := .live (pids ++ [c]) }).WaitsFor
                id c :=
              setSem_waitsFor.mpr (.inl ⟨rfl, _, rfl, List.mem_append_right _
                (List.mem_singleton_self c)⟩)
            exact hk
        · rw [List.count_cons_of_ne (by simpa using hi)] at heq
          exact absurd (hbefore.symm.trans heq) (Nat.ne_of_lt (Nat.lt_succ_self _))
  | wakes _ hk =>
    subst hk
    exact fun _ hb => absurd hb hnot

/-- The sleepers are in the queues, in runs without kills. -/
theorem Reach.woken (h : Reach allocs Calm m) : ∀ p, m.k.Woken p := by
  have hboot : ∀ p, (boot allocs).k.Woken p := by
    intro p id hb
    cases (boot_member hb).1
  refine h.reached.machine (P := fun m => ∀ p, m.k.Woken p) hboot ?_ ?_
  · intro off m' hi p
    obtain ⟨_, _, _, _, W, _⟩ := boot_dispatch hi
    exact (hboot p).switch W
  · rintro m c e m' R W ⟨he, hr⟩ hs
    have hturn : ∀ {k1 next flow}, Turn m c e k1 next flow → ∀ p, k1.Woken p := by
      intro k1 next flow T p
      have hcpu := Reach.calm_cpu hr R
      rcases eq_or_ne p c with rfl | hpc
      · exact T.woken R hcpu he hr.calm_semQueues hr.ledger (hr.sleepers p)
      · exact (W p).effects R.core hr.calm_semQueues hr.ledger (T.others hpc hcpu he)
    cases R.stepped hs with
    | stayed T hm' =>
      subst hm'
      exact hturn T
    | counted _ hm' =>
      subst hm'
      exact W
    | switched T _ S => exact fun p => (hturn T p).switch S

end Woken

/-! ## 2. The tokens -/

section Tokens

variable {m : Machine} {slot : Nat} {r w x id : Int} {allocs : Nat → Bool} {p : Pid} {k : Kernel}
  {d : Cont}

theorem Cont.Rests.tokens {kind : PipeOp → Bool} (h : d.Rests slot k p) (hk : kind .clear = false) :
    d.tokens slot kind = 0 := by
  have hloop : ∀ {op : PipeOp}, kind op = true → op.first = .loop := by
    intro op hop
    cases op with
    | clear => exact Bool.noConfusion (hk.symm.trans hop)
    | _ => rfl
  refine if_neg fun hyes => ?_
  obtain ⟨hon, hin⟩ := Bool.and_eq_true_iff.mp hyes
  obtain ⟨⟨op, stage⟩, hon, hop⟩ := (Option.any_eq_true _ _).mp hon
  cases d with
  | pipe s op' stage' =>
    obtain rfl := Cont.onPipe_eq hon
    rw [Cont.onPipe_pipe] at hon
    cases hon
    have hstage := h rfl
    rw [hloop hop] at hstage
    simp [Cont.admitted, hstage] at hin
  | waited i next =>
    cases next with
    | pipe s op' stage' =>
      rw [Cont.onPipe_waited] at hon
      obtain rfl := Cont.onPipe_eq hon
      rw [Cont.onPipe_pipe] at hon
      cases hon
      have hstage := (h rfl).1
      rw [hloop hop] at hstage
      simp [Cont.admitted, hstage, Stage.next] at hin
    | _ => cases hin
  | _ => cases hin

theorem Cont.Rests.outside (h : d.Rests slot k p) : d.inside slot = false := by
  cases d with
  | pipe s op stage =>
    refine eq_false_of_ne_true fun hin => ?_
    obtain ⟨hs, hstage⟩ := Bool.and_eq_true_iff.mp hin
    have hfirst : stage = op.first := h (beq_iff_eq.mp hs)
    rw [beq_iff_eq.mp hstage] at hfirst
    cases op <;> cases hfirst
  | _ => rfl

/-- At rest, who has been queued and has not come back is in the queue. -/
theorem Channel.asleep (C : Channel slot r w x m.k m.cont) (h : Reach allocs Calm m)
    (hrest : AtRest slot m) (hid : id ∈ [r, w, x])
    (hlive : (m.k.sems id).blocked = .live (m.k.sems id).waiting) (p : Pid) :
    m.k.log.count (.queued id p) =
      m.k.log.count (.resumed id p) + (m.k.sems id).waiting.count p := by
  have Q := h.calm_semQueues
  have S := h.sleepers p
  rcases em (p ∈ (m.k.sems id).waiting) with hp | hp
  · have hw : m.k.WaitsFor id p := ⟨_, hlive, hp⟩
    rw [List.count_eq_one_of_mem (Q.nodup id _ hlive) hp]
    rcases S.asleep id (S.inside id hw) with heq | ⟨_, hstray⟩
    · exact heq
    · exact absurd hw (hstray.2 id)
  · rw [List.count_eq_zero_of_not_mem hp, Nat.add_zero]
    cases hd : m.cont p with
    | waited i next =>
      rcases eq_or_ne i id with rfl | hi
      · rcases S.asleep i (by rw [hd]; rfl) with heq | ⟨heq, _⟩
        · -- in an operation it sleeps in the first wait, and elsewhere it does not sleep here
          rcases eq_or_ne (next.onPipe slot) none with hon | hon
          · exact (C.guests p).stranger i next hd hon hid
          · obtain ⟨op, stage, rfl, _⟩ := (C.guests p).awaits i next hd hon
            have hsleeps := hrest p
            rw [hd] at hsleeps
            obtain ⟨l, hl, hin⟩ := h.woken p i (hsleeps rfl).2 heq
            obtain rfl := SemQueue.live.inj (hlive.symm.trans hl)
            exact absurd hin hp
        · exact heq
      · exact S.awake id (by rw [hd]; exact hi)
    | _ => exact S.awake id (by rw [hd]; exact not_false)

/-- At rest, a token has been handed out for each wait that has returned. -/
theorem Channel.granted (C : Channel slot r w x m.k m.cont) (h : Reach allocs Calm m)
    (hrest : AtRest slot m) (hid : id ∈ [r, w, x]) {v : Nat} (hv : openedWith id m.k.log = some v)
    {l : List Pid} (hl : ∀ p, l.count p = passes id p m.k.log) :
    (grants (acts id (sinceOpened id m.k.log))).length = l.length := by
  obtain ⟨_, hlive, H⟩ := (h.ledger id).handoff v hv
  refine (List.perm_iff_count.mpr fun p => ?_).length_eq
  rw [hl, passes, count_grants, count_completions]
  congr 1
  have harrived := (h.ledger id).arrived (by simp [hv]) p
  have hcount := H.count_arrivals p
  rw [count_queued, ← harrived, C.asleep h hrest hid hlive, C.resumed id hid] at hcount
  exact (Nat.add_right_cancel hcount).symm

/-- The values of the semaphores of a pipe where no operation is halfway. -/
structure InStep (r w x : Int) (count : Nat) (k : Kernel) : Prop where
  readers : (k.sems r).value = count
  writers : (k.sems w).value + count = pipeBufferSize
  mutex : (k.sems x).value = 1

theorem Channel.resting (C : Channel slot r w x m.k m.cont) (h : Reach allocs Calm m)
    (hrest : AtRest slot m) : InStep r w x (m.k.pipes slot).count m.k := by
  have F := C.traffic
  have hle : (m.k.pipes slot).count ≤ 100 := F.ring.count_le
  have hlength := F.length
  have hreaders : ∀ p, ((taken slot m.k.log).map Prod.fst).count p = passes r p m.k.log := by
    intro p
    rw [(C.clients p).readers, (hrest p).tokens rfl, length_bytesOf, Nat.add_zero]
  have hwriters : ∀ p, ((written slot m.k.log).map Prod.fst).count p = passes w p m.k.log := by
    intro p
    rw [(C.clients p).writers, (hrest p).tokens rfl, length_bytesOf, Nat.add_zero]
  have hmutex : ∀ p, (posts (acts x (sinceOpened x m.k.log))).count p = passes x p m.k.log := by
    intro p
    rw [(C.clients p).mutex, (hrest p).outside, postsBy]
    rfl
  have hr := C.granted h hrest (by simp) F.readers hreaders
  have hw := C.granted h hrest (by simp) F.writers hwriters
  have hx := C.granted h hrest (by simp) F.mutex hmutex
  have hpostsRead := F.postsRead
  have hpostsWrite := F.postsWrite
  rw [postCount] at hpostsRead hpostsWrite
  rw [List.length_map] at hr hw
  obtain ⟨_, _, Hr⟩ := (h.ledger r).handoff _ F.readers
  obtain ⟨_, _, Hw⟩ := (h.ledger w).handoff _ F.writers
  obtain ⟨_, _, Hx⟩ := (h.ledger x).handoff _ F.mutex
  have hsize : pipeBufferSize = 100 := rfl
  -- the counters have not wrapped, as there are never more tokens than places
  have er := Hr.exact (by omega)
  have ew := Hw.exact (by omega)
  have ex := Hx.exact (by omega)
  refine ⟨?_, ?_, ?_⟩ <;> omega

end Tokens

/-! ## 3. Writing where there is room -/

/-- The process on the CPU has run on, and nobody else. -/
structure Onward (m m' : Machine) : Prop where
  cpu : m'.cpu = m.cpu
  semManager : m'.k.semManager = m.k.semManager
  log : ∃ later, m'.k.log = later ++ m.k.log ∧ ∀ o ∈ later, ∀ sp, o ≠ .switched sp

/-- `pipeWrite(id, data)`, called now, returns `data.length` without giving the CPU up. -/
def WritesThrough (slot : Nat) (m : Machine) (id : Int) (data : List Byte) : Prop :=
  ∀ off, ∃ m1 m', m.step (.call off (.writePipe id data)) = some m1 ∧
    Run Machine.step (fun _ e => e = .resume off) m1 m' ∧ Onward m m' ∧ m'.cont m.cpu = .user ∧
    ∃ later, m'.k.log = .writeDone slot m.cpu data data.length :: (later ++ m.k.log)

section Writes

variable {allocs : Nat → Bool} {slot i v off : Nat} {r w x id : Int} {data : List Byte}
  {m m' m1 : Machine} {k : Kernel} {next : Cont} {stage : Stage} {e : Event}

theorem Onward.trans (h : Onward m m1) (h1 : Onward m1 m') : Onward m m' := by
  obtain ⟨later, hlog, hn⟩ := h.log
  obtain ⟨later1, hlog1, hn1⟩ := h1.log
  refine ⟨h1.cpu.trans h.cpu, h1.semManager.trans h.semManager, later1 ++ later, ?_, ?_⟩
  · rw [hlog1, hlog, List.append_assoc]
  · exact fun o ho => (List.mem_append.mp ho).elim (hn1 o) (hn o)

theorem semPost_frame {k' : Kernel} {flow : Flow} (h : semPost k id = some (k', flow)) :
    (∀ i, i ≠ id → k'.sems i = k.sems i) ∧ k'.semManager = k.semManager ∧
      ∃ o, k'.log = o :: k.log ∧ ∀ sp, o ≠ .switched sp := by
  obtain ⟨_, l, he, hl⟩ := semPost_cases h
  rcases hl with ⟨p, rfl⟩ | ⟨p, rfl⟩ | rfl <;> cases he <;>
    exact ⟨fun i hi => Function.update_of_ne hi _ _, rfl, _, rfl, by simp⟩

/-- A write goes on within the rules for the pipe, if there is a token where it waits. -/
theorem ClearsEmpty.resumes {op : PipeOp} (hcont : m.cont m.cpu = .pipe slot op stage)
    (hop : op ≠ .clear)
    (hv : ∀ id, (m.k.pipes slot).awaited op stage = some id → 0 < (m.k.sems id).value) :
    ClearsEmpty slot m (.resume off) := by
  refine ⟨rfl, rfl, ?_, ?_⟩
  · simp [Event.discards, hcont, hop]
  · cases ha : (m.k.pipes slot).awaited op stage with
    | none => simp [Event.starves, hcont, ha]
    | some id => simp [Event.starves, hcont, ha, Nat.ne_of_gt (hv id ha)]

/-- The ids of the semaphores of a pipe in use are in range. -/
theorem Channel.semId (C : Channel slot r w x m.k m.cont) (h : Reach allocs Calm m) :
    ∀ i ∈ [r, w, x], Machine.SemIdOk i := by
  have hopened : ∀ i ∈ [r, w, x], ∃ v, openedWith i m.k.log = some v := by
    simpa using ⟨⟨_, C.traffic.readers⟩, ⟨_, C.traffic.writers⟩, ⟨_, C.traffic.mutex⟩⟩
  intro i hi
  obtain ⟨v, hv⟩ := hopened i hi
  exact h.tables.1.range i ((h.ledger i).handoff v hv).1

/-- A step of a write that neither suspends it nor ends it. -/
structure Advances (allocs : Nat → Bool) (slot : Nat) (r w x : Int) (m m' : Machine) : Prop where
  reach : Reach allocs (ClearsEmpty slot) m'
  channel : Channel slot r w x m'.k m'.cont
  onward : Onward m m'

theorem Advances.of_step (h : Reach allocs (ClearsEmpty slot) m)
    (C : Channel slot r w x m.k m.cont) {op : PipeOp} (hcont : m.cont m.cpu = .pipe slot op stage)
    (he : ClearsEmpty slot m e) (hs : m.step e = some m') (ho : Onward m m') :
    Advances allocs slot r w x m m' := by
  rcases h.cases with rfl | ⟨c, R⟩
  · cases hcont
  · exact ⟨h.snoc e he hs, C.step (h.mono fun _ _ he => he.1) R he hs, ho⟩

/-- A wait of the write takes a token. -/
theorem Reach.passes (h : Reach allocs (ClearsEmpty slot) m) (off : Nat)
    (C : Channel slot r w x m.k m.cont) (hm : m.k.semManager = true)
    (hcont : m.cont m.cpu = .pipe slot (.write data i i) stage)
    (ha : (m.k.pipes slot).awaited (.write data i i) stage = some id)
    (hv : (m.k.sems id).value = v + 1) :
    ∃ m', m.step (.resume off) = some m' ∧ Advances allocs slot r w x m m' ∧
      m'.cont m'.cpu = .pipe slot (.write data i i) stage.next ∧
      m'.k.sems = Function.update m.k.sems id { m.k.sems id with value := v } := by
  have hcalm : Reach allocs Calm m := h.mono fun _ _ he => he.1
  have hid : Machine.SemIdOk id := by
    refine C.semId hcalm id ?_
    rw [← C.traffic.sems.sems]
    exact Pipe.awaited_mem ha
  have hl : (m.k.sems id).lock = false := Reach.unlocked (h.mono fun _ _ _ => trivial) id
  let m' := (m.withKernel ((m.k.setSem id { m.k.sems id with value := v }).observe
    (.took id (getCurrentPid m.k)))).setCont (.pipe slot (.write data i i) stage.next)
  have hawait : m.await off id (.pipe slot (.write data i i) stage.next) = some m' := by
    simp only [Machine.await, Keyboard.semWait_some hm hid hl hv, Option.bind_eq_bind,
      Option.bind_some]
    rfl
  have hs : m.step (.resume off) = some m' := by
    rw [← hawait]
    show m.resume off = _
    unfold Machine.resume
    simp only [hcont]
    cases stage with
    | loop =>
      obtain ⟨hi, rfl⟩ : i < data.length ∧ (m.k.pipes slot).semWriters = id := by
        simpa [Pipe.awaited] using ha
      exact if_pos hi
    | mutex =>
      obtain rfl : (m.k.pipes slot).mutex = id := by simpa [Pipe.awaited] using ha
      rfl
    | critical => cases ha
  have he : ClearsEmpty slot m (.resume off) := by
    refine ClearsEmpty.resumes hcont (by simp) fun j hj => ?_
    obtain rfl := Option.some.inj (ha.symm.trans hj)
    rw [hv]
    exact Nat.succ_pos v
  refine ⟨m', hs, .of_step h C hcont he hs ⟨rfl, rfl, [_], rfl, ?_⟩, Function.update_self .., rfl⟩
  simp

/-- The critical section stores the byte, and the two posts return. -/
theorem Reach.stores (h : Reach allocs (ClearsEmpty slot) m) (off : Nat)
    (C : Channel slot r w x m.k m.cont) (hm : m.k.semManager = true)
    (hcont : m.cont m.cpu = .pipe slot (.write data i i) .critical)
    (hv : (m.k.sems x).value = 0) (hb : (m.k.sems x).blocked = .live []) :
    ∃ m', m.step (.resume off) = some m' ∧ Advances allocs slot r w x m m' ∧
      m'.cont m'.cpu = .pipe slot (.write data (i + 1) (i + 1)) .loop ∧
      (m'.k.sems w).value = (m.k.sems w).value ∧ (m'.k.sems x).value = 1 := by
  have hcalm : Reach allocs Calm m := h.mono fun _ _ he => he.1
  have hids := C.traffic.sems
  have hunlocked := Reach.unlocked (h.mono fun _ _ _ => trivial)
  have hlt := C.traffic.guard_write hcalm C.clients (p := m.cpu)
    (by rw [hcont, Cont.tokens_pipe]; rfl)
  have hsound : (PipeOp.write data i i).Sound .critical :=
    (C.clients m.cpu).sound _ _ (by rw [hcont, Cont.onPipe_pipe])
  have hi : i < data.length := hsound.2.2 (by decide)
  obtain ⟨Q, hstored⟩ : ∃ k3, putByte m.k slot m.cpu data[i] = (k3, true) := by
    unfold putByte
    rw [if_pos hlt]
    exact ⟨_, rfl⟩
  obtain ⟨pipe, -, hk3, hpipe⟩ := putByte_stored hlt hstored
  have hx3 : (Q.pipes slot).mutex = x := by
    simp [hk3, hpipe, Kernel.observe, Kernel.setPipe, hids.mutex]
  -- the mutex is free again, and the post for the readers wakes one of them, if any
  have hpostx := Keyboard.semPost_nobody (k := Q) (hk3 ▸ hm) (C.semId hcalm x (by simp))
    (hk3 ▸ hunlocked x) (hk3 ▸ hb)
  generalize hk4 : (Q.setSem x { Q.sems x with value := ((Q.sems x).value + 1) % 2 ^ 32 }).observe
    (.incremented x (getCurrentPid Q)) = k4 at hpostx
  have hsems4 : k4.sems = Function.update m.k.sems x { m.k.sems x with value := 1 } := by
    rw [← hk4, hk3]
    simp [Kernel.observe, Kernel.setSem, Kernel.setPipe, hv]
  have hr4 : k4.sems r = m.k.sems r := by rw [hsems4, Function.update_of_ne hids.rx]
  have hr3 : (Q.pipes slot).semReaders = r := by
    simp [hk3, hpipe, Kernel.observe, Kernel.setPipe, hids.readers]
  obtain ⟨_, hlive, _⟩ := (hcalm.ledger r).handoff _ C.traffic.readers
  obtain ⟨⟨k5, flow⟩, hpostr⟩ : ∃ r', semPost k4 r = some r' := by
    refine Keyboard.semPost_isSome (by rw [← hk4, hk3]; exact hm) (C.semId hcalm r (by simp))
      (by rw [hr4]; exact hunlocked r) (by rw [hr4, hlive]; simp) fun p hp => ?_
    have hp := Keyboard.mem_wokenFrom hp
    rw [← hk4, hk3] at hp ⊢
    obtain ⟨b, hb, _⟩ := (Reach.core h).1.member .blockedBySem p hp
    exact Option.isSome_iff_exists.mpr ⟨b, hb⟩
  obtain ⟨hothers, hmanager, o, hlog, ho⟩ := semPost_frame hpostr
  let m' := (m.withKernel k5).setCont (.pipe slot (.write data (i + 1) (i + 1)) .loop)
  have hs : m.step (.resume off) = some m' := by
    show m.resume off = _
    unfold Machine.resume
    simp only [hcont, Machine.writeStep, List.getElem?_eq_getElem hi, Option.bind_eq_bind,
      Option.bind_some, hstored, Machine.leavePipe, hx3, hr3, hpostx, hpostr]
    rfl
  have he : ClearsEmpty slot m (.resume off) :=
    ClearsEmpty.resumes hcont (by simp) fun j hj => by cases hj
  refine ⟨m', hs, .of_step h C hcont he hs ⟨rfl, ?_, ?_⟩, Function.update_self .., ?_, ?_⟩
  · show k5.semManager = m.k.semManager
    rw [hmanager, ← hk4, hk3]
    rfl
  · refine ⟨[o, .incremented x (getCurrentPid Q), .put slot m.cpu data[i]], ?_, by simpa using ho⟩
    show k5.log = _
    rw [hlog, ← hk4, hk3]
    rfl
  · show (k5.sems w).value = _
    rw [hothers w hids.rw.symm, hsems4, Function.update_of_ne hids.wx]
  · show (k5.sems x).value = _
    rw [hothers x hids.rx.symm, hsems4, Function.update_self]

/-- One turn of the loop. -/
theorem Reach.writes_byte (h : Reach allocs (ClearsEmpty slot) m) (off : Nat)
    (C : Channel slot r w x m.k m.cont) (hm : m.k.semManager = true)
    (hcont : m.cont m.cpu = .pipe slot (.write data i i) .loop) (hi : i < data.length)
    (hw : (m.k.sems w).value = v + 1) (hx : (m.k.sems x).value = 1) :
    ∃ m', Run Machine.step (fun _ e => e = .resume off) m m' ∧ Advances allocs slot r w x m m' ∧
      m'.cont m'.cpu = .pipe slot (.write data (i + 1) (i + 1)) .loop ∧
      (m'.k.sems w).value = v ∧ (m'.k.sems x).value = 1 := by
  have hids := C.traffic.sems
  obtain ⟨m1, hs1, A1, hcont1, hsems1⟩ := h.passes off C hm hcont
    (by simp [Pipe.awaited, hi, hids.writers]) hw
  have hx1 : (m1.k.sems x).value = 1 := by rw [hsems1, Function.update_of_ne hids.wx.symm, hx]
  have hm1 : m1.k.semManager = true := A1.onward.semManager.trans hm
  -- nobody waits for the mutex, since it is free
  have hb1 : (m1.k.sems x).blocked = .live [] := by
    have hcalm1 : Reach allocs Calm m1 := A1.reach.mono fun _ _ he => he.1
    obtain ⟨_, hlive, H⟩ := (hcalm1.ledger x).handoff _ A1.channel.traffic.mutex
    rw [hlive, H.idle.resolve_left (by rw [hx1]; decide)]
  obtain ⟨m2, hs2, A2, hcont2, hsems2⟩ := A1.reach.passes off A1.channel hm1 hcont1
    (by simp [Pipe.awaited, Stage.next, A1.channel.traffic.sems.mutex]) hx1
  have hx2 : m2.k.sems x = { m1.k.sems x with value := 0 } := by rw [hsems2, Function.update_self]
  obtain ⟨m3, hs3, A3, hcont3, hw3, hx3⟩ := A2.reach.stores off A2.channel
    (A2.onward.semManager.trans hm1) hcont2 (by rw [hx2]) (by rw [hx2, hb1])
  have hrun1 : Run Machine.step (fun _ e => e = .resume off) m m1 := .single _ rfl hs1
  have hrun2 : Run Machine.step (fun _ e => e = .resume off) m m2 := hrun1.snoc _ rfl hs2
  have hall : Onward m m3 := (A1.onward.trans A2.onward).trans A3.onward
  refine ⟨m3, hrun2.snoc _ rfl hs3, ⟨A3.reach, A3.channel, hall⟩, hcont3, ?_, hx3⟩
  rw [hw3, hsems2, Function.update_of_ne hids.wx, hsems1, Function.update_self]

/-- The loop runs to its end. -/
theorem Reach.writes_rest {n : Nat} (h : Reach allocs (ClearsEmpty slot) m) (off : Nat)
    (C : Channel slot r w x m.k m.cont) (hm : m.k.semManager = true)
    (hcont : m.cont m.cpu = .pipe slot (.write data i i) .loop) (hi : i + n = data.length)
    (hw : n ≤ (m.k.sems w).value) (hx : (m.k.sems x).value = 1) :
    ∃ m', Run Machine.step (fun _ e => e = .resume off) m m' ∧ Onward m m' ∧
      m'.cont m.cpu = .user ∧
      ∃ later, m'.k.log = .writeDone slot m.cpu data data.length :: (later ++ m.k.log) := by
  induction n generalizing m i with
  | zero =>
    obtain rfl : i = data.length := hi
    refine ⟨(m.withKernel (m.k.observe (.writeDone slot m.cpu data data.length))).setCont .user,
      .single _ rfl ?_, ⟨rfl, rfl, [_], rfl, by simp⟩, Function.update_self .., [], rfl⟩
    show m.resume off = _
    unfold Machine.resume
    simp [hcont, Machine.writeStep]
  | succ n ih =>
    obtain ⟨v, hv⟩ : ∃ v, (m.k.sems w).value = v + 1 :=
      Nat.exists_eq_succ_of_ne_zero (Nat.ne_of_gt (Nat.lt_of_lt_of_le (Nat.succ_pos n) hw))
    obtain ⟨m1, hrun, A, hcont1, hw1, hx1⟩ := h.writes_byte off C hm hcont
      (by rw [← hi]; exact Nat.lt_add_of_pos_right (Nat.succ_pos n)) hv hx
    obtain ⟨m', hrun', ho, hu, later, hlog⟩ := ih A.reach A.channel
      (A.onward.semManager.trans hm) hcont1 (by rw [← hi, Nat.add_assoc, Nat.add_comm 1])
      (by rw [hw1]; exact Nat.le_of_succ_le_succ (hw.trans hv.le)) hx1
    obtain ⟨later1, hlog1, _⟩ := A.onward.log
    rw [A.onward.cpu] at hu hlog
    refine ⟨m', hrun.trans hrun', A.onward.trans ho, hu, later ++ later1, ?_⟩
    rw [hlog, hlog1, List.append_assoc]

/-- At rest, a write of as many bytes as there is room for is not suspended. -/
theorem Channel.writes (C : Channel slot r w x m.k m.cont) (h : Reach allocs (ClearsEmpty slot) m)
    (hrest : AtRest slot m) (hm : m.k.semManager = true) (hcalls : m.Calls)
    (hid : pipeIdCheck m.k id = some slot) (hd : data ≠ [])
    (hroom : data.length + (m.k.pipes slot).count ≤ pipeBufferSize) :
    WritesThrough slot m id data := by
  intro off
  have hcalm : Reach allocs Calm m := h.mono fun _ _ he => he.1
  have S := C.resting hcalm hrest
  let m1 := m.setCont (.pipe slot (.write data 0 0) .loop)
  have hs : m.step (.call off (.writePipe id data)) = some m1 := by
    show (if m.Calls then _ else _) = _
    rw [if_pos hcalls]
    show some (m.enterPipe (pipeWrite m.k id data)) = _
    have hpipe : pipeWrite m.k id data = (m.k, some (slot, .write data 0 0, .loop)) := by
      unfold pipeWrite
      rw [ensurePipeManagerInit_eq h.pipeManagerInit]
      simp [hid, hd]
    rw [hpipe]
    rfl
  rcases h.cases with rfl | ⟨c, R⟩
  · cases hcalls.2.1
  have he : ClearsEmpty slot m (.call off (.writePipe id data)) := ⟨rfl, rfl, rfl, rfl⟩
  obtain ⟨m', hrun, ho, hu, later, hlog⟩ := Reach.writes_rest (n := data.length)
    (h.snoc _ he hs) off (C.step hcalm R he hs) hm (Function.update_self ..) (Nat.zero_add _)
    (Nat.le_of_add_le_add_right (hroom.trans S.writers.ge)) S.mutex
  exact ⟨m1, m', hs, hrun, ⟨ho.cpu, ho.semManager, ho.log⟩, hu, later, hlog⟩

end Writes

/-! ## 4. Clearing -/

/-- The calls of the pipe, by any processes: no kill, no close, and its semaphores are left to
its operations. -/
def UsesPipe (slot : Nat) (m : Machine) (e : Event) : Prop :=
  e.isCalm = true ∧ e.leaves slot m = true

instance (slot : Nat) (m : Machine) (e : Event) : Decidable (UsesPipe slot m e) :=
  inferInstanceAs (Decidable (e.isCalm = true ∧ e.leaves slot m = true))

/-- The counts of the bytes agree, and what is read after a clear was written after it. -/
structure ClearedPipe (slot : Nat) (m : Machine) : Prop where
  inStep : AtRest slot m →
    (m.k.sems (m.k.pipes slot).semReaders).value = (m.k.pipes slot).count ∧
      (m.k.sems (m.k.pipes slot).semWriters).value + (m.k.pipes slot).count = pipeBufferSize
  readDone : ∀ p size bytes ret, .readDone slot p size bytes ret ∈ m.k.log →
    ret = size ∧ bytes.length = size
  /-- The bytes taken since the clear are the first ones put since. -/
  fresh : ∀ later earlier q n, m.k.log = later ++ .cleared slot q n :: earlier →
    (taken slot later).map Prod.snd <+: (written slot later).map Prod.snd
  /-- A reader that had returned when the pipe was cleared is given some of these. -/
  delivers : ∀ later earlier q n, m.k.log = later ++ .cleared slot q n :: earlier →
    ∀ p, bytesOf p (taken slot earlier) = delivered slot p earlier →
      delivered slot p later <+: bytesOf p (taken slot later)
  /-- As long as the table of the semaphores is there, what fits is written at once. -/
  accepts : AtRest slot m → m.k.semManager = true → m.Calls →
    ∀ id data, pipeIdCheck m.k id = some slot → data ≠ [] →
      data.length + (m.k.pipes slot).count ≤ pipeBufferSize → WritesThrough slot m id data

section Cleared

variable {m m' : Machine} {slot : Nat} {id : Int} {p q c : Pid} {n : Nat} {e : Event}
  {allocs : Nat → Bool} {later earlier : List Obs}

theorem collect_cleared {β : Type} {f : Obs → List β} (h : f (.cleared slot q n) = []) :
    collect f (later ++ .cleared slot q n :: earlier) = collect f earlier ++ collect f later := by
  simp [collect, h]

/-- Since the clear, which found the pipe empty, the bytes come and go in order. -/
theorem Traffic.fresh {r w x : Int} {pipe : Pipe} {log : List Obs}
    (F : Traffic slot r w x pipe log) (h : log = later ++ .cleared slot q n :: earlier) :
    (taken slot later).map Prod.snd <+: (written slot later).map Prod.snd := by
  have hempty := F.cleared later earlier q n h
  have hfifo := F.fifo
  have hw : written slot log = written slot earlier ++ written slot later := by
    rw [h]
    exact collect_cleared rfl
  have ht : taken slot log = taken slot earlier ++ taken slot later := by
    rw [h]
    exact collect_cleared rfl
  rw [hw, ht, List.map_append, List.map_append, hempty, List.append_assoc] at hfifo
  exact ⟨_, (List.append_cancel_left hfifo).symm⟩

/-- What a reader is given, it has taken. -/
theorem Client.delivers_fresh {r w x : Int} {d : Cont} {log : List Obs}
    (K : Client slot r w x log p d) (h : log = later ++ .cleared slot q n :: earlier)
    (hearlier : bytesOf p (SoKernel.taken slot earlier) = delivered slot p earlier) :
    delivered slot p later <+: bytesOf p (SoKernel.taken slot later) := by
  have hd : delivered slot p log = delivered slot p earlier ++ delivered slot p later := by
    rw [h]
    exact collect_cleared rfl
  have ht : SoKernel.taken slot log =
      SoKernel.taken slot earlier ++ SoKernel.taken slot later := by
    rw [h]
    exact collect_cleared rfl
  have htaken := K.taken
  rw [hd, ht, bytesOf_append, hearlier, List.append_assoc] at htaken
  exact ⟨_, (List.append_cancel_left htaken).symm⟩

/-- In every run in which no clear finds bytes in the pipe, and no wait is given up for lack of
memory. -/
theorem reach_clearedPipe (h : Reach allocs (ClearsEmpty slot) m)
    (ho : .pipeOpened slot id ∈ m.k.log) : ClearedPipe slot m := by
  have hcalm : Reach allocs Calm m := h.mono fun _ _ he => he.1
  obtain ⟨r, w, x, C⟩ := h.channel ho
  refine ⟨fun hrest => ?_, C.traffic.readDone, ?_, ?_, ?_⟩
  · have S := C.resting hcalm hrest
    rw [C.traffic.sems.readers, C.traffic.sems.writers]
    exact ⟨S.readers, S.writers⟩
  · exact fun _ _ _ _ hlog => C.traffic.fresh hlog
  · exact fun _ _ _ _ hlog p hp => (C.clients p).delivers_fresh hlog hp
  · exact fun hrest hm hcalls _ _ hid hd hroom => C.writes h hrest hm hcalls hid hd hroom

/-- A pipe that is cleared when it is empty, and the byte that is read from it afterwards. -/
def clearedEmpty : List Event :=
  [.tick 0, .call 0 .openPipe, .call 0 (.clearPipe 3), .resume 0, .resume 0,
    .call 0 (.writePipe 3 [7])] ++ List.replicate 4 (.resume 0) ++
  [.call 0 (.readPipe 3 1)] ++ List.replicate 4 (.resume 0)

theorem reach_clearedPipe_empty : ∃ m, Reach (fun _ => true) (ClearsEmpty 1) m ∧
    .cleared 1 1 0 ∈ m.k.log ∧ .readDone 1 1 1 [7] 1 ∈ m.k.log ∧ ClearedPipe 1 m := by
  obtain ⟨m, _, hm, hc, hr, ho⟩ : ∃ m,
      Run.exec Machine.step (ClearsEmpty 1) (boot fun _ => true) clearedEmpty = some m ∧
        Reach (fun _ => true) (ClearsEmpty 1) m ∧ .cleared 1 1 0 ∈ m.k.log ∧
        .readDone 1 1 1 [7] 1 ∈ m.k.log ∧ .pipeOpened 1 3 ∈ m.k.log :=
    Run.exists_exec (by decide +kernel)
  exact ⟨m, hm, hc, hr, reach_clearedPipe hm ho⟩

/-- There are no processes below idle. -/
theorem Reach.nobody (h : Reach allocs Calm m) : ∀ p < 0, m.cont p = .user := by
  refine h.reached.machine (P := fun m => ∀ p < 0, m.cont p = .user) ?_ ?_ ?_
  · exact fun _ _ => rfl
  · intro off m' hi p _
    rw [(boot_dispatch hi).1]
    rfl
  · rintro m c e m' R hm ⟨_, hr⟩ hs
    have hturn : ∀ next p, p < 0 → Function.update m.cont m.cpu next p = .user := by
      intro next p hp
      obtain ⟨b, hb, _⟩ := R.settled.running
      have hne : p ≠ m.cpu := by
        rw [Reach.calm_cpu hr R]
        exact Int.ne_of_lt (Int.lt_of_lt_of_le hp (R.core.pcb c b hb).2.1)
      rw [Function.update_of_ne hne]
      exact hm p hp
    cases R.stepped hs with
    | stayed _ hm' =>
      subst hm'
      exact hturn _
    | counted _ hm' =>
      subst hm'
      exact hm
    | switched _ _ _ hcont =>
      rw [hcont]
      exact hturn _

/-- Where the shell and idle are in no system call, no pipe is in use. -/
theorem AtRest.of_shell (h : Reach allocs Calm m) (hn : m.k.nextPid = 2)
    (h0 : m.cont 0 = .user) (h1 : m.cont 1 = .user) : AtRest slot m := by
  have htwo : ∀ i : Int, 0 ≤ i → i < 2 → i = 0 ∨ i = 1 := by omega
  have huser : ∀ p, m.cont p = .user := by
    intro p
    rcases h.cases with rfl | ⟨c, R⟩
    · rfl
    rcases lt_or_ge p 0 with hp | hp
    · exact h.nobody p hp
    · rcases lt_or_ge p 2 with hp2 | hp2
      · rcases htwo p hp hp2 with rfl | rfl
        · exact h0
        · exact h1
      · exact R.fresh p (hn ▸ hp2)
  intro p
  rw [huser p]
  trivial

/-- The shell writes a byte to a pipe and clears the pipe. -/
def clearedFull : List Event :=
  [.tick 0, .call 0 .openPipe, .call 0 (.writePipe 3 [7])] ++ List.replicate 4 (.resume 0) ++
  [.call 0 (.clearPipe 3), .resume 0, .resume 0]

/-- The semaphores keep the byte, and the next read returns without it. -/
theorem cleared_outOfStep : ∃ m m', Reach (fun _ => true) (UsesPipe 1) m ∧
    .pipeOpened 1 3 ∈ m.k.log ∧ .cleared 1 1 1 ∈ m.k.log ∧ AtRest 1 m ∧
    (m.k.pipes 1).count = 0 ∧ (m.k.sems (m.k.pipes 1).semReaders).value = 1 ∧
    (m.k.sems (m.k.pipes 1).semWriters).value = 99 ∧
    Run.exec Machine.step (UsesPipe 1) m
      (.call 0 (.readPipe 3 1) :: List.replicate 4 (.resume 0)) = some m' ∧
    m'.k.log.head? = some (.readDone 1 1 1 [] 0) ∧ ¬ ClearedPipe 1 m := by
  obtain ⟨m, _, hm, ho, hc, hn, h0, h1, hcount, hr, hw, hread⟩ : ∃ m,
      Run.exec Machine.step (UsesPipe 1) (boot fun _ => true) clearedFull = some m ∧
        Reach (fun _ => true) (UsesPipe 1) m ∧ .pipeOpened 1 3 ∈ m.k.log ∧
        .cleared 1 1 1 ∈ m.k.log ∧ m.k.nextPid = 2 ∧ m.cont 0 = .user ∧ m.cont 1 = .user ∧
        (m.k.pipes 1).count = 0 ∧ (m.k.sems (m.k.pipes 1).semReaders).value = 1 ∧
        (m.k.sems (m.k.pipes 1).semWriters).value = 99 ∧
        ((Run.exec Machine.step (UsesPipe 1) m
          (.call 0 (.readPipe 3 1) :: List.replicate 4 (.resume 0))).bind fun m' =>
            m'.k.log.head?) = some (.readDone 1 1 1 [] 0) :=
    Run.exists_exec (by decide +kernel)
  obtain ⟨m', hm', hlog⟩ := Option.bind_eq_some_iff.mp hread
  have hcalm : Reach (fun _ => true) Calm m := hm.mono fun _ _ he => he.1
  have hrest : AtRest 1 m := .of_shell hcalm hn h0 h1
  refine ⟨m, m', hm, ho, hc, hrest, hcount, hr, hw, hm', hlog, fun h => ?_⟩
  have heq := (h.inStep hrest).1
  rw [hr, hcount] at heq
  cases heq

end Cleared

end SoKernel
