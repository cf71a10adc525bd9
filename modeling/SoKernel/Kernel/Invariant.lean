import SoKernel.Kernel.Turn

/-!
# Reachable states

`Running m c`: after the first dispatch the process `c` has the CPU, the process
manager is in order, and each process runs on its own stack. Idle is the one that
may run on another, the stack of a process that was killed while it was executing.

Results:
1. `Running.step`: every step preserves `Running`.
2. `Reach.cases`: a reachable state is the one after boot, or a running one.
-/

namespace SoKernel

/-! ## The effects of a step -/

/-- The label of a result; `waitpid` has failed. -/
def Label.Noting : Label → Prop
  | .note o => o.IsResult ∧ ∀ p t v st, o = .waitpidDone p t v st → v = -1 ∧ st = none
  | _ => False

/-- The labels of the steps of `c` in which no process is created or killed. -/
def Label.Working (c : Pid) : Label → Prop
  | .plain | .took _ | .wake _ _ | .absorb _ _ | .incr _ | .pipeData _ => True
  | .block p => p = c
  | .sleep _ p _ => p = c
  | l => l.Noting

/-- The calls that may suspend their caller in the middle. -/
def Call.Pauses : Call → Prop
  | .semWait _ | .waitpid _ => True
  | _ => False

/-- The labels of a step. -/
def Event.Admits (m : Machine) (c : Pid) : Event → Label → Prop
  | .tick _, _ => False
  | .ctrlC _, l => 2 ≤ getForegroundPid m.k ∧ l.Killing (getForegroundPid m.k)
  | .call _ sc, l => sc.Admits m.k c l ∨ sc.Pauses ∧ l.Working c ∨ l.Noting
  | .resume _, l => l.Working c

theorem Label.Mourning.not_note {o : Obs} : ¬ (Label.note o).Mourning := by
  simp [Label.Mourning]

/-- The results that are noted. -/
theorem Event.Admits.note {m : Machine} {c : Pid} {e : Event} {o : Obs}
    (h : e.Admits m c (.note o)) : (Label.note o).Noting := by
  cases e with
  | tick => cases h
  | ctrlC => simp [Event.Admits, Label.Killing, Label.Mourning.not_note] at h
  | resume => exact h
  | call _ sc =>
    rcases h with h | ⟨_, h⟩ | h
    · cases sc <;> simp [Call.Admits, Label.Killing, Label.Mourning.not_note, Label.Creating,
        Label.Counting] at h
    · exact h
    · exact h

section Turns

variable {m : Machine} {c : Pid} {e : Event} {k k' k1 : Kernel} {next : Cont} {flow : Flow}

theorem Effects.awaited {id : Int} (h : Awaits id c k k1 flow) :
    Ends (Label.Working c) c k k1 flow := by
  cases h with
  | took he => exact .of_ret (.one he ⟨trivial, not_false⟩)
  | failed => exact .of_ret (.one (.alloc k) ⟨trivial, not_false⟩)
  | slept ha he =>
    refine .of_tick ?_ rfl
    have h1 : Effects (Label.Working c) k _ := ha.mono fun l hl => by cases hl; trivial
    exact h1.trans (.trans (.one he rfl) (.one (.quantum _ 0) trivial))

/-- The entry of a call that has returned. -/
theorem Effects.reported (o : Obs) (ho : o.IsResult)
    (hw : ∀ p t v st, o = .waitpidDone p t v st → v = -1 ∧ st = none) :
    Effects (fun l => l.Noting ∧ ¬ l.Suspends c) k (k.observe o) :=
  .one (.note ho) ⟨⟨ho, hw⟩, not_false⟩

theorem Label.Noting.working {l : Label} (h : l.Noting) : l.Working c := by
  cases l with
  | note => exact h
  | _ => cases h

theorem Effects.posted {f : Flow} {id : Int} (h : semPost k id = some (k1, f)) :
    Effects (fun l => l.Working c ∧ ¬ l.Suspends c) k k1 :=
  (semPost_effects h).mono fun l hl => by
    rcases hl with ⟨_, rfl⟩ | ⟨_, rfl⟩ | rfl <;> exact ⟨trivial, not_false⟩

theorem Effects.pipeData {slot : Nat} (h : Effects (fun l => l = .pipeData slot) k k1) :
    Effects (fun l => l.Working c ∧ ¬ l.Suspends c) k k1 :=
  h.mono fun l hl => by cases hl; exact ⟨trivial, not_false⟩

/-- The result of a pipe operation is a result. -/
theorem PipeOp.result_isResult {slot : Nat} {op : PipeOp} {o : Obs} {p : Pid}
    (h : op.result slot p = some o) :
    o.IsResult ∧ ∀ q t v st, o = .waitpidDone q t v st → v = -1 ∧ st = none := by
  cases op with
  | read =>
    simp only [PipeOp.result, Option.ite_none_left_eq_some] at h
    obtain rfl := Option.some.inj h.2
    exact ⟨trivial, by simp⟩
  | write =>
    simp only [PipeOp.result, Option.ite_none_left_eq_some] at h
    obtain rfl := Option.some.inj h.2
    exact ⟨trivial, by simp⟩
  | clear => cases h

/-- The effects of a turn. Only a tick takes no account of the quantum. -/
theorem Turn.ends (T : Turn m c e k1 next flow) :
    Ends (e.Admits m c) c m.k k1 flow ∨
      flow = .tick ∧ k1 = m.k ∧ next = .user ∧ m.cont m.cpu = .user ∧ ∃ off, e = .tick off := by
  have hret : ∀ {allow allow1 : Label → Prop} {k2 k3 : Kernel} {v : Int},
      Ends allow c m.k k2 (.ret v) → (∀ l, allow1 l → allow l) →
      Effects (fun l => allow1 l ∧ ¬ l.Suspends c) k2 k3 → Ends allow c m.k k3 (.ret v) :=
    fun h hle h' => .of_ret ((h.ret _ rfl).trans (h'.mono fun l hl => ⟨hle l hl.1, hl.2⟩))
  have hdone : ∀ {allow allow1 : Label → Prop} {k3 : Kernel} {v : Int},
      Effects (fun l => allow1 l ∧ ¬ l.Suspends c) m.k k3 → (∀ l, allow1 l → allow l) →
      Ends allow c m.k k3 (.ret v) :=
    fun h hle => hret .refl hle h
  have hreturned : ∀ {k2 : Kernel} {v : Int},
      Effects (fun l => l.Noting ∧ ¬ l.Suspends c) k2 (k2.observe (.returned m.cpu v)) :=
    .reported _ trivial (by simp)
  have hfailed : ∀ {p : Pid}, Effects (fun l => l.Noting ∧ ¬ l.Suspends c) m.k
      (m.k.observe (.waitpidDone m.cpu p (-1) none)) := by
    intro p
    refine .reported _ trivial fun q t v st h => ?_
    cases h
    exact ⟨rfl, rfl⟩
  cases T with
  | tick hu => exact .inr ⟨rfl, rfl, rfl, hu, _, rfl⟩
  | ctrlC _ hends => exact .inl hends
  | returned _ hends =>
    exact .inl (hret (hends.mono fun _ => Or.inl) (fun _ hl => .inr (.inr hl)) hreturned)
  | yielded _ hends => exact .inl (hends.mono fun _ => Or.inl)
  | semWaited _ _ ha =>
    exact .inl (hret ((Effects.awaited ha).mono fun _ hl => .inr (.inl ⟨trivial, hl⟩))
      (fun _ hl => .inr (.inr hl)) hreturned)
  | semSlept _ _ ha =>
    exact .inl ((Effects.awaited ha).mono fun _ hl => .inr (.inl ⟨trivial, hl⟩))
  | waitpidFailed => exact .inl (hdone hfailed fun _ hl => .inr (.inr hl))
  | waitpidBlocked _ hq he =>
    refine .inl (.of_tick (he.mono fun l hl => .inr (.inl ⟨trivial, ?_⟩)) hq)
    rcases hl with rfl | rfl
    · trivial
    · rfl
  | entered => exact .inl .refl
  | sysret => exact .inl (hdone hreturned fun _ => Label.Noting.working)
  | waitpidResumed => exact .inl (hdone hfailed fun _ => Label.Noting.working)
  | waited =>
    exact .inl (hdone (.reported _ trivial (by simp)) fun _ => Label.Noting.working)
  | passed _ _ ha => exact .inl (Effects.awaited ha)
  | slept _ _ ha => exact .inl (Effects.awaited ha)
  | finished _ ho =>
    obtain ⟨h1, h2⟩ := PipeOp.result_isResult ho
    exact .inl (hdone (.reported _ h1 h2) fun _ => Label.Noting.working)
  | @read _ slot _ _ _ _ _ _ _ _ _ _ _ htake hmutex hother =>
    have hdata : Effects (fun l => l.Working c ∧ ¬ l.Suspends c) m.k (takeByte m.k slot m.cpu).1 :=
      .pipeData takeByte_effects
    rw [htake] at hdata
    exact .inl (hdone (hdata.trans ((Effects.posted hmutex).trans (.posted hother))) fun _ => id)
  | @written _ slot _ _ _ b _ _ _ _ _ _ _ _ hput hmutex hother =>
    have hdata : Effects (fun l => l.Working c ∧ ¬ l.Suspends c) m.k
        (putByte m.k slot m.cpu b).1 :=
      .pipeData putByte_effects
    rw [hput] at hdata
    exact .inl (hdone (hdata.trans ((Effects.posted hmutex).trans (.posted hother))) fun _ => id)
  | cleared _ hmutex =>
    exact .inl (hdone ((Effects.pipeData emptyPipe_effects).trans (.posted hmutex)) fun _ => id)

/-- The labels of a `semWait`. -/
def Label.Awaiting (c : Pid) (l : Label) : Prop :=
  l = .plain ∨ (∃ id, l = .took id) ∨ (∃ id queued, l = .sleep id c queued) ∨ l.Noting

/-- The labels of a step that neither blocks nor creates nor kills. -/
def Label.Posting (l : Label) : Prop :=
  (∃ slot, l = .pipeData slot) ∨
    (∃ id, (∃ p, l = .wake id p) ∨ (∃ p, l = .absorb id p) ∨ l = .incr id) ∨ l.Noting

/-- What the process on the CPU does in a turn. -/
inductive Deed (m : Machine) (c : Pid) (e : Event) (k1 : Kernel) : Prop
  | calls {off : Nat} {call : Call} : e = .call off call →
      Effects (fun l => call.Admits m.k c l ∨ l.Noting) m.k k1 → Deed m c e k1
  | kills : 2 ≤ getForegroundPid m.k → Effects (Label.Killing (getForegroundPid m.k)) m.k k1 →
      Deed m c e k1
  | waits : Effects (Label.Awaiting c) m.k k1 → Deed m c e k1
  | waitsForChild {p : Pid} : StartsWaiting m.k c p k1 →
      Effects (fun l => l = .plain ∨ l = .block c) m.k k1 → Deed m c e k1
  | works : Effects Label.Posting m.k k1 → Deed m c e k1

theorem Deed.of_note {o : Obs} (ho : (Label.note o).Noting) : Deed m c e (m.k.observe o) :=
  .works (.one (.note ho.1) (.inr (.inr ho)))

theorem Awaits.awaiting {id : Int} (h : Awaits id c k k1 flow) : Effects (Label.Awaiting c) k k1 := by
  cases h with
  | took he => exact .one he (.inr (.inl ⟨_, rfl⟩))
  | failed => exact .one (.alloc k) (.inl rfl)
  | slept ha he =>
    exact (ha.mono fun _ => .inl).trans (.trans (.one he (.inr (.inr (.inl ⟨_, _, rfl⟩))))
      (.one (.quantum _ 0) (.inl rfl)))

theorem Effects.posting {f : Flow} {id : Int} (h : semPost k id = some (k1, f)) :
    Effects Label.Posting k k1 :=
  (semPost_effects h).mono fun _ hl => .inr (.inl ⟨id, hl⟩)

theorem Effects.postingData {slot : Nat} (h : Effects (fun l => l = .pipeData slot) k k1) :
    Effects Label.Posting k k1 :=
  h.mono fun _ hl => .inl ⟨slot, hl⟩

theorem Turn.deed (T : Turn m c e k1 next flow) : Deed m c e k1 := by
  have hreturned : ∀ {v : Int}, (Label.note (.returned m.cpu v)).Noting :=
    ⟨trivial, by simp⟩
  have hfailed : ∀ {p : Pid}, (Label.note (.waitpidDone m.cpu p (-1) none)).Noting := by
    refine ⟨trivial, fun q t v st h => ?_⟩
    cases h
    exact ⟨rfl, rfl⟩
  cases T with
  | tick => exact .works .refl
  | ctrlC _ h =>
    cases h.effects.cases_head with
    | inl heq => exact heq ▸ .works .refl
    | inr hstep =>
      obtain ⟨_, ⟨_, hl, _⟩, _⟩ := hstep
      exact .kills hl.1 (h.effects.mono fun _ hl => hl.2)
  | returned _ h =>
    exact .calls rfl ((h.effects.mono fun _ => .inl).trans (.one (.note trivial) (.inr hreturned)))
  | yielded _ h => exact .calls rfl (h.effects.mono fun _ => .inl)
  | semWaited _ _ ha =>
    exact .waits (ha.awaiting.trans (.one (.note trivial) (.inr (.inr (.inr hreturned)))))
  | semSlept _ _ ha => exact .waits ha.awaiting
  | waitpidFailed => exact .of_note hfailed
  | waitpidBlocked _ _ he hw => exact .waitsForChild hw he
  | entered => exact .works .refl
  | sysret => exact .of_note hreturned
  | waitpidResumed => exact .of_note hfailed
  | waited => exact .of_note ⟨trivial, by simp⟩
  | passed _ _ ha => exact .waits ha.awaiting
  | slept _ _ ha => exact .waits ha.awaiting
  | finished _ ho => exact .of_note (PipeOp.result_isResult ho)
  | @read _ slot _ _ _ _ _ _ _ _ _ _ _ htake hmutex hother =>
    have hdata : Effects Label.Posting m.k (takeByte m.k slot m.cpu).1 :=
      .postingData takeByte_effects
    rw [htake] at hdata
    exact .works (hdata.trans ((Effects.posting hmutex).trans (.posting hother)))
  | @written _ slot _ _ _ b _ _ _ _ _ _ _ _ hput hmutex hother =>
    have hdata : Effects Label.Posting m.k (putByte m.k slot m.cpu b).1 :=
      .postingData putByte_effects
    rw [hput] at hdata
    exact .works (hdata.trans ((Effects.posting hmutex).trans (.posting hother)))
  | cleared _ hmutex =>
    exact .works ((Effects.postingData emptyPipe_effects).trans (.posting hmutex))

end Turns

/-! ## Where the CPU is -/

section Effects

variable {k k' : Kernel} {c p : Pid} {l : Label} {allow : Label → Prop}

/-- Every PCB after an effect is an old one or new. -/
theorem Effect.pcb {b' : PCB} (h : Effect l k k') (hb' : k'.procs p = some b') :
    (∃ b, k.procs p = some b ∧ SamePCB b b') ∨
      p = k.nextPid ∧ b'.rsp = .initial p ∧ l = .create p := by
  have hsame : ∀ {x : Pid} {b b1 : PCB}, k.procs x = some b → SamePCB b b1 →
      Function.update k.procs x (some b1) p = some b' → ∃ b, k.procs p = some b ∧ SamePCB b b' := by
    intro x b b1 hb hs h
    rcases eq_or_ne p x with rfl | hpx
    · obtain rfl : b1 = b' := by simpa using h
      exact ⟨b, hb, hs⟩
    · exact ⟨b', by simpa [hpx] using h, ⟨⟨rfl, rfl, rfl⟩, rfl⟩⟩
  have hfree : ∀ {x : Pid}, Function.update k.procs x none p = some b' →
      ∃ b, k.procs p = some b ∧ SamePCB b b' := by
    intro x h
    rcases eq_or_ne p x with rfl | hpx
    · simp at h
    · exact ⟨b', by simpa [hpx] using h, ⟨⟨rfl, rfl, rfl⟩, rfl⟩⟩
  cases h with
  | update hb hs => exact .inl (hsame hb hs.toSamePCB hb')
  | children hb hs => exact .inl (hsame hb hs hb')
  | block _ hb hs => exact .inl (hsame hb hs.toSamePCB hb')
  | unblock _ hb hs => exact .inl (hsame hb hs.toSamePCB hb')
  | sleep _ _ _ _ _ hb hs => exact .inl (hsame hb hs.toSamePCB hb')
  | stray _ _ hb hs => exact .inl (hsame hb hs.toSamePCB hb')
  | wake _ _ _ hb hs => exact .inl (hsame hb hs.toSamePCB hb')
  | @create _ _ b _ _ _ hrsp =>
    rcases eq_or_ne p k.nextPid with rfl | hpx
    · obtain rfl : b = b' := by simpa using hb'
      exact .inr ⟨rfl, hrsp, rfl⟩
    · exact .inl ⟨b', by simpa [hpx] using hb', ⟨⟨rfl, rfl, rfl⟩, rfl⟩⟩
  | discard => exact .inl (hfree hb')
  | startBlocked _ _ hb hs => exact .inl (hsame hb hs.toSamePCB hb')
  | die _ _ hb hs => exact .inl (hsame hb hs.toSamePCB hb')
  | reap => exact .inl (hfree hb')
  | _ => exact .inl ⟨b', hb', ⟨⟨rfl, rfl, rfl⟩, rfl⟩⟩

theorem Effect.nextPid_le (h : Effect l k k') : k.nextPid ≤ k'.nextPid := by
  cases h with
  | create => exact Int.le_of_lt (Int.lt_succ _)
  | _ => exact Int.le_refl _

theorem Effects.nextPid_le (h : Effects allow k k') : k.nextPid ≤ k'.nextPid :=
  h.invariant (P := fun k1 => k.nextPid ≤ k1.nextPid) (Int.le_refl _)
    fun _ hk he => Int.le_trans hk he.nextPid_le

theorem Effects.pcb {b' : PCB} (h : Effects allow k k') (hb' : k'.procs p = some b') :
    (∃ b, k.procs p = some b ∧ b'.rsp = b.rsp) ∨
      k.nextPid ≤ p ∧ b'.rsp = .initial p ∧ allow (.create p) := by
  induction h generalizing b' with
  | refl => exact .inl ⟨b', hb', rfl⟩
  | tail h he ih =>
    obtain ⟨l, hl, he⟩ := he
    rcases he.pcb hb' with ⟨b, hb, hs⟩ | ⟨rfl, hrsp, rfl⟩
    · rcases ih hb with ⟨b0, hb0, h0⟩ | ⟨hle, hrsp, ha⟩
      · exact .inl ⟨b0, hb0, hs.rsp.trans h0⟩
      · exact .inr ⟨hle, hs.rsp.trans hrsp, ha⟩
    · exact .inr ⟨Effects.nextPid_le h, hrsp, hl⟩

/-- A freed PCB is not there again. -/
theorem Effect.freed (h : Effect l k k') (hp : k.procs p = none) (hlt : p < k.nextPid) :
    k'.procs p = none := by
  cases hb : k'.procs p with
  | none => rfl
  | some b' =>
    rcases h.pcb hb with ⟨b, hb', _⟩ | ⟨rfl, _⟩
    · cases hp.symm.trans hb'
    · exact absurd hlt (Int.lt_irrefl _)

/-- The dead stay dead until they are freed. -/
theorem Effect.dead (h : Effect l k k') (C : Core k) (hp : p ∈ k.queue .zombie) :
    p ∈ k'.queue .zombie ∨ k'.procs p = none := by
  cases h with
  | @reap _ x hx =>
    rcases eq_or_ne p x with rfl | hpx
    · exact .inr (Function.update_self _ _ _)
    · refine .inl ?_
      simpa [Kernel.setQueue, (C.nodup .zombie).mem_erase_iff, hpx] using hp
  | @die _ x f _ b' =>
    refine .inl ?_
    show p ∈ (k.move f .zombie x b').queue .zombie
    rw [move_queue_to]
    exact List.mem_append_left _ hp
  | enter _ _ _ _ hq =>
    refine .inl ?_
    rcases hq with ⟨rfl, _⟩ | ⟨rfl, _⟩ <;> simpa [Kernel.setQueue] using hp
  | _ => exact .inl hp

theorem Effects.freed (h : Effects allow k k') (hp : k.procs p = none) (hlt : p < k.nextPid) :
    k'.procs p = none := by
  cases hb : k'.procs p with
  | none => rfl
  | some b' =>
    rcases h.pcb hb with ⟨b, hb', _⟩ | ⟨hle, _⟩
    · cases hp.symm.trans hb'
    · exact absurd hlt (Int.not_lt.mpr hle)

/-- The process on the CPU stays current unless it dies; then idle is. -/
theorem Effect.current (h : Effect l k k') (hi : k.idleProcess = some 0)
    (hc : k.currentProcess = some c) :
    k'.currentProcess = some c ∨ k'.currentProcess = some 0 ∧ l = .die c := by
  cases h with
  | @die _ x =>
    rcases eq_or_ne c x with rfl | hcx
    · exact .inr ⟨(if_pos hc).trans hi, rfl⟩
    · exact .inl ((if_neg fun h => hcx (Option.some.inj (hc.symm.trans h))).trans hc)
  | _ => exact .inl hc

/-- The process on the CPU keeps it as long as it is not suspended. -/
theorem Settled.effect (S : Settled k c) (C : Core k) (h : Effect l k k')
    (hl : ¬ l.Suspends c) : Settled k' c := by
  have C' := C.effect h
  have hconst := h.constant
  have hout : ∀ {q}, c ∈ k.queue q → q = .ready := by
    intro q hq
    rcases S.place with rfl | hr
    · exact absurd hq (C.idleOutside q)
    · exact C.queue_eq hq hr
  have hcur : k'.currentProcess = some c := by
    rcases h.current C.idle S.current with h | ⟨_, rfl⟩
    · exact h
    · exact absurd rfl hl
  obtain ⟨b, hb, hs⟩ := S.running
  have hrun : ∀ {x : Pid} {b' : PCB}, x ≠ c →
      ∃ b, Function.update k.procs x (some b') c = some b ∧ b.state = .RUNNING :=
    fun hx => ⟨b, by simpa [hx.symm] using hb, hs⟩
  have hfree : ∀ {x : Pid}, x ≠ c →
      ∃ b, Function.update k.procs x none c = some b ∧ b.state = .RUNNING :=
    fun hx => ⟨b, by simpa [hx.symm] using hb, hs⟩
  have hplace : ∀ {x f t} (b' : PCB), x ≠ c → f ≠ t →
      (c = 0 ∨ c ∈ (k.move f t x b').queue .ready) := by
    intro x f t b' hx hft
    refine S.place.imp_right fun hr => ?_
    exact (mem_move (C.nodup f) hft).mpr (.inl ⟨hr, fun _ => hx.symm⟩)
  have hkeep : ∀ {x f t b'}, x ≠ c → f ≠ t → Settled (k.move f t x b') c :=
    fun hx hft => ⟨S.current, S.currentPid, hplace _ hx hft, hrun hx, S.first⟩
  have hupdate : ∀ {x b0 b'}, k.procs x = some b0 → b'.state = b0.state →
      Settled (k.setPCB x b') c := by
    intro x b0 b' hb0 hst
    refine ⟨S.current, S.currentPid, S.place, ?_, S.first⟩
    rcases eq_or_ne x c with rfl | hx
    · obtain rfl := Option.some.inj (hb.symm.trans hb0)
      exact ⟨b', by simp, hst.trans hs⟩
    · exact hrun hx
  cases h with
  | update hb0 _ hst => exact hupdate hb0 hst
  | children hb0 _ hst => exact hupdate hb0 hst
  | block => exact hkeep hl (by decide)
  | unblock hx =>
    refine hkeep ?_ (by decide)
    rintro rfl
    cases hout hx
  | @sleep _ _ _ _ _ b' =>
    exact ⟨S.current, S.currentPid, hplace b' hl (by decide), hrun hl, S.first⟩
  | stray => exact hkeep hl (by decide)
  | @wake _ _ x _ _ b' _ _ hx =>
    have hxc : x ≠ c := fun h => by cases hout (h ▸ hx)
    have hr : c = 0 ∨ c ∈ (k.move .blockedBySem .ready x b').queue .ready :=
      hplace b' hxc (by decide)
    exact ⟨S.current, S.currentPid, hr, hrun hxc, S.first⟩
  | create =>
    have hx : k.nextPid ≠ c := fun h => C.nextPid_unused.1 (h ▸ S.current)
    exact ⟨S.current, S.currentPid, S.place, hrun hx, S.first⟩
  | discard _ hx =>
    exact ⟨S.current, S.currentPid, S.place, hfree fun h => hx (h ▸ S.current), S.first⟩
  | startBlocked _ hx =>
    exact ⟨S.current, S.currentPid, S.place, hrun fun h => hx (h ▸ S.current), S.first⟩
  | @enter _ x q =>
    refine ⟨S.current, S.currentPid, S.place.imp_right fun hr => ?_, ⟨b, hb, hs⟩, S.first⟩
    show c ∈ Function.update k.queue q (k.queue q ++ [x]) .ready
    rcases eq_or_ne QueueName.ready q with rfl | hq
    · simp [hr]
    · simpa [hq] using hr
  | @die _ x f _ b' hx hf =>
    have hxc : x ≠ c := hl
    exact ⟨hcur, S.currentPid, hplace b' hxc hf, hrun hxc, S.first⟩
  | @reap _ x hx =>
    have hxc : x ≠ c := fun h => (C.zombie x hx).1 (h ▸ S.current)
    refine ⟨S.current, S.currentPid, S.place.imp_right fun hr => ?_, hfree hxc, S.first⟩
    simpa [Kernel.setQueue] using hr
  | _ => exact ⟨S.current, S.currentPid, S.place, ⟨b, hb, hs⟩, S.first⟩

theorem Settled.effects (S : Settled k c) (C : Core k)
    (h : Effects (fun l => allow l ∧ ¬ l.Suspends c) k k') : Settled k' c :=
  (h.invariant (P := fun k => Core k ∧ Settled k c) ⟨C, S⟩ fun hl hk he =>
    ⟨hk.1.effect he, hk.2.effect hk.1 he hl.2⟩).2

end Effects

/-! ## Running -/

theorem Label.Working.harmless {c : Pid} {l : Label} (h : l.Working c) : l.Harmless := by
  cases l <;> trivial

section Turns

variable {m m' : Machine} {c : Pid} {e : Event} {k1 : Kernel} {next : Cont} {flow : Flow}

/-- A step leaves nobody dead. -/
theorem Turn.zombie (T : Turn m c e k1 next flow) (O : OnCpu m c) : k1.queue .zombie = [] := by
  have hends := T.ends
  have hworking : Effects (Label.Working c) m.k k1 → k1.queue .zombie = [] :=
    fun h => (h.zombie fun _ hl => hl.harmless).trans O.zombie
  have hpause : ∀ {p : Prop} (l : Label), False ∨ p ∧ l.Working c ∨ l.Noting → l.Working c := by
    rintro p l (h | ⟨_, h⟩ | h)
    · cases h
    · exact h
    · exact h.working
  cases T with
  | ctrlC _ _ hz => exact hz
  | returned _ _ hz => exact hz
  | yielded _ _ hz => exact hz
  | semWaited =>
    rcases hends with h | ⟨h, _⟩
    · exact hworking (h.effects.mono hpause)
    · cases h
  | semSlept =>
    rcases hends with h | ⟨_, _, h, _⟩
    · exact hworking (h.effects.mono hpause)
    · cases h
  | waitpidBlocked =>
    rcases hends with h | ⟨_, _, h, _⟩
    · exact hworking (h.effects.mono hpause)
    · cases h
  | tick => exact O.zombie
  | waitpidFailed => exact O.zombie
  | entered => exact O.zombie
  | _ =>
    rcases hends with h | ⟨_, _, _, _, _, h⟩
    · exact hworking h.effects
    · cases h

/-- Idle does no more than return. -/
theorem Turn.idle (T : Turn m c e k1 next flow) (O : OnCpu m c) (h0 : c = 0) : next = .user := by
  have hcalls : ¬ m.Calls := fun h => (Machine.Busy.of_calls O h).notIdle h0
  have hcont := O.idle h0
  cases T with
  | tick => rfl
  | ctrlC => rfl
  | returned => rfl
  | yielded h => exact absurd h hcalls
  | semWaited => rfl
  | semSlept h => exact absurd h hcalls
  | waitpidFailed => rfl
  | waitpidBlocked h => exact absurd h hcalls
  | entered h => exact absurd h hcalls
  | sysret => rfl
  | waitpidResumed => rfl
  | finished => rfl
  | cleared => rfl
  | waited h => rw [h] at hcont; simp at hcont
  | passed h => rw [h] at hcont; simp at hcont
  | slept h => rw [h] at hcont; simp at hcont
  | read h => rw [h] at hcont; simp at hcont
  | written h => rw [h] at hcont; simp at hcont

/-- A process that sleeps is still the current one. -/
theorem Awaits.current {id : Int} {k : Kernel} (h : Awaits id c k k1 flow)
    (hc : k.currentProcess = some c) : k1.currentProcess = some c := by
  cases h with
  | took he => cases he; exact hc
  | failed => exact hc
  | slept _ he => cases he <;> exact hc

/-- What is left of the call of a process that has died is to return. -/
theorem Turn.leaving (T : Turn m c e k1 next .tick) (hc : m.k.currentProcess = some c)
    (hi : m.k.idleProcess = some 0) :
    (next = .user ∨ ∃ v, next = .ret v) ∨ k1.currentProcess = some c := by
  cases T with
  | tick => exact .inl (.inl rfl)
  | ctrlC => exact .inl (.inl rfl)
  | yielded => exact .inl (.inr ⟨0, rfl⟩)
  | semSlept _ _ ha => exact .inr (ha.current hc)
  | waitpidBlocked _ _ he =>
    refine .inr (he.invariant
      (P := fun k => k.currentProcess = some c ∧ k.idleProcess = some 0) ⟨hc, hi⟩ ?_).1
    rintro l k k' hl ⟨hck, hik⟩ he
    refine ⟨?_, he.constant.idle.trans hik⟩
    rcases he.current hik hck with h | ⟨_, rfl⟩
    · exact h
    · simp at hl
  | slept _ _ ha => exact .inr (ha.current hc)

end Turns

/-- The stack idle is on, or will be on. -/
def IdleStack (m : Machine) (c d : Pid) : Prop :=
  c = 0 ∧ d = m.cpu ∨ c ≠ 0 ∧ ∃ b, m.k.procs 0 = some b ∧ b.rsp.stack = d

/-- A stack on which no process will run again but idle. -/
structure Quiet (m : Machine) (d : Pid) : Prop where
  cont : m.cont d = .user ∨ ∃ v, m.cont d = .ret v
  known : d < m.k.nextPid
  dead : d ≠ 0 → m.k.procs d = none

/-- The process `c` has the CPU, and each process its own stack. -/
structure Running (m : Machine) (c : Pid) : Prop extends OnCpu m c where
  stack : ∀ p b, m.k.procs p = some b → p ≠ 0 → b.rsp.stack = p
  quiet : ∀ d, IdleStack m c d → Quiet m d
  fresh : ∀ p, m.k.nextPid ≤ p → m.cont p = .user

namespace Running

variable {m m' : Machine} {c n : Pid} {e : Event} {k1 : Kernel} {next : Cont} {flow : Flow}

theorem cpu_known (R : Running m c) : m.cpu < m.k.nextPid := by
  rcases eq_or_ne c 0 with h0 | h0
  · exact (R.quiet _ (.inl ⟨h0, rfl⟩)).known
  · rw [R.cpu h0]
    obtain ⟨b, hb, _⟩ := R.settled.running
    exact (R.core.pcb c b hb).2.2

/-- The stack of idle is not the one of the process on the CPU. -/
theorem quiet_ne (R : Running m c) {d : Pid} (h0 : c ≠ 0) (hd : Quiet m d) : d ≠ m.cpu := by
  rw [R.cpu h0]
  rintro rfl
  obtain ⟨b, hb, _⟩ := R.settled.running
  cases (hd.dead h0).symm.trans hb

/-- After the effects of a step, stacks are as before it. -/
theorem stack_effects {allow : Label → Prop} (R : Running m c) (h : Effects allow m.k k1) :
    ∀ p b, k1.procs p = some b → p ≠ 0 → b.rsp.stack = p := by
  intro p b' hb' h0
  rcases h.pcb hb' with ⟨b, hb, hr⟩ | ⟨_, hr, _⟩
  · rw [hr]
    exact R.stack p b hb h0
  · rw [hr]
    rfl

/-- The effects of a step leave idle its stack. -/
theorem idleStack_effects {allow : Label → Prop} (R : Running m c) (h : Effects allow m.k k1)
    {d : Pid} (hd : IdleStack ((m.withKernel k1).setCont next) c d) : IdleStack m c d := by
  rcases hd with ⟨h0, rfl⟩ | ⟨h0, b', hb', rfl⟩
  · exact .inl ⟨h0, rfl⟩
  · rcases h.pcb hb' with ⟨b, hb, hr⟩ | ⟨hle, _⟩
    · rw [hr]
      exact .inr ⟨h0, b, hb, rfl⟩
    · exact absurd (Int.le_trans R.core.nextPid hle) (by decide)

theorem quiet_effects {allow : Label → Prop} (R : Running m c) (h : Effects allow m.k k1)
    (hidle : c = 0 → next = .user) :
    ∀ d, IdleStack ((m.withKernel k1).setCont next) c d →
      Quiet ((m.withKernel k1).setCont next) d := by
  intro d hd
  have hq := R.quiet d (R.idleStack_effects h hd)
  refine ⟨?_, Int.lt_of_lt_of_le hq.known h.nextPid_le, fun h0 => h.freed (hq.dead h0) hq.known⟩
  rcases hd with ⟨h0, rfl⟩ | ⟨h0, _⟩
  · exact .inl (by simp [hidle h0])
  · simpa [R.quiet_ne h0 hq] using hq.cont

theorem fresh_effects {allow : Label → Prop} (R : Running m c) (h : Effects allow m.k k1) :
    ∀ p, k1.nextPid ≤ p → ((m.withKernel k1).setCont next).cont p = .user := by
  intro p hp
  have hle := Int.le_trans h.nextPid_le hp
  have hne : p ≠ m.cpu := fun h => absurd R.cpu_known (Int.not_lt.mpr (h ▸ hle))
  simpa [hne] using R.fresh p hle

end Running

/-- A machine about to take an interrupt while `p` is the current process. -/
structure Leaving (m : Machine) (p : Pid) : Prop where
  core : Core m.k
  zombie : m.k.queue .zombie = []
  first : m.k.first = false
  current : m.k.currentProcess = some p
  cpu : p ≠ 0 → m.cpu = p
  stack : ∀ x b, m.k.procs x = some b → x ≠ 0 → b.rsp.stack = x
  quiet : ∀ d, IdleStack m p d → Quiet m d
  fresh : ∀ x, m.k.nextPid ≤ x → m.cont x = .user

/-- What a PCB holds after the dispatch. -/
theorem Leaving.saved {m m' : Machine} {off : Nat} {p n x : Pid} {sp : Sp} {b' : PCB}
    (L : Leaving m p) (W : Switch m.k (.inside m.cpu off) m'.k sp p n)
    (hb' : m'.k.procs x = some b') : ∃ b, m.k.procs x = some b ∧
      b'.rsp = if x = p then .inside m.cpu off else b.rsp := by
  obtain ⟨b, hb, _, hr⟩ := W.saved x b' hb'
  exact ⟨b, hb, by simpa [L.first] using hr⟩

/-- Idle takes over the stack it was dispatched on. -/
theorem Leaving.idleStack {m m' : Machine} {off : Nat} {p n d : Pid} {sp : Sp} (L : Leaving m p)
    (W : Switch m.k (.inside m.cpu off) m'.k sp p n) (hcpu : m'.cpu = sp.stack)
    (hd : IdleStack m' n d) : IdleStack m p d := by
  obtain ⟨bn, hbn, hsp⟩ := W.loaded
  have hd0 : ∃ b', m'.k.procs 0 = some b' ∧ b'.rsp.stack = d := by
    rcases hd with ⟨rfl, rfl⟩ | ⟨_, hd⟩
    · exact ⟨bn, hbn, by rw [hsp, hcpu]⟩
    · exact hd
  obtain ⟨b', hb', rfl⟩ := hd0
  obtain ⟨b, hb, hr⟩ := L.saved W hb'
  rw [hr]
  split
  · next h0 => exact .inl ⟨h0.symm, rfl⟩
  · next h0 => exact .inr ⟨Ne.symm h0, b, hb, rfl⟩

/-- A dispatch leaves the next process running. -/
theorem Leaving.switch {m m' : Machine} {off : Nat} {p q n : Pid} {sp : Sp} (L : Leaving m p)
    (W : Switch m.k (.inside m.cpu off) m'.k sp q n) (hcont : m'.cont = m.cont)
    (hcpu : m'.cpu = sp.stack) (C' : Core m'.k) (S' : Settled m'.k n) : Running m' n := by
  obtain rfl : p = q := Option.some.inj (L.current.symm.trans W.current)
  have hstack : ∀ x b, m'.k.procs x = some b → x ≠ 0 → b.rsp.stack = x := by
    intro x b' hb' h0
    obtain ⟨b, hb, hr⟩ := L.saved W hb'
    rw [hr]
    split
    · next hx =>
      subst hx
      exact L.cpu h0
    · exact L.stack x b hb h0
  obtain ⟨bn, hbn, hsp⟩ := W.loaded
  have hquiet : ∀ d, IdleStack m' n d → Quiet m' d := by
    intro d hd
    have hq := L.quiet d (L.idleStack W hcpu hd)
    refine ⟨hcont ▸ hq.cont, W.rest.nextPid ▸ hq.known, fun h0 => ?_⟩
    cases hx : m'.k.procs d with
    | none => rfl
    | some bx =>
      obtain ⟨b1, hb1, _⟩ := L.saved W hx
      cases (hq.dead h0).symm.trans hb1
  refine ⟨⟨C', ?_, S', ?_, ?_⟩, hstack, hquiet, ?_⟩
  · refine List.eq_nil_iff_forall_not_mem.mpr fun x hx => ?_
    have hx := (W.rest.mem .zombie x).mp hx
    rw [L.zombie] at hx
    cases hx
  · intro h0
    rw [hcpu, ← hsp]
    exact hstack n bn hbn h0
  · exact fun h0 => (hquiet _ (.inl ⟨h0, rfl⟩)).cont
  · rw [hcont, W.rest.nextPid]
    exact L.fresh

/-- After the effects of a step the process on the CPU is current, or it has been
freed and idle is. -/
theorem Effects.current {allow : Label → Prop} {k k1 : Kernel} {c : Pid} (h : Effects allow k k1)
    (C : Core k) (hc : k.currentProcess = some c) (hz : k1.queue .zombie = []) :
    k1.currentProcess = some c ∨ k1.currentProcess = some 0 ∧ k1.procs c = none := by
  obtain ⟨c', b, hc', hb⟩ := C.current
  obtain rfl : c = c' := Option.some.inj (hc.symm.trans hc')
  have hlt := (C.pcb c b hb).2.2
  have h' : Core k1 ∧ c < k1.nextPid ∧ (k1.currentProcess = some c ∨
      k1.currentProcess = some 0 ∧ (c ∈ k1.queue .zombie ∨ k1.procs c = none)) := by
    refine h.invariant (P := fun k => Core k ∧ c < k.nextPid ∧ (k.currentProcess = some c ∨
      k.currentProcess = some 0 ∧ (c ∈ k.queue .zombie ∨ k.procs c = none)))
      ⟨C, hlt, .inl hc⟩ ?_
    rintro l a a' _ ⟨Ca, hlt, hcur⟩ he
    refine ⟨Ca.effect he, Int.lt_of_lt_of_le hlt he.nextPid_le, ?_⟩
    rcases hcur with hcur | ⟨h0, hdead⟩
    · rcases he.current Ca.idle hcur with h | ⟨h, rfl⟩
      · exact .inl h
      · exact .inr ⟨h, .inl he.mem_zombie⟩
    · have h0' : a'.currentProcess = some 0 := by
        rcases he.current Ca.idle h0 with h | ⟨h, _⟩
        · exact h
        · exact h
      refine .inr ⟨h0', ?_⟩
      rcases hdead with hd | hd
      · exact he.dead Ca hd
      · exact .inr (he.freed hd hlt)
  rcases h'.2.2 with h | ⟨h0, hd | hd⟩
  · exact .inl h
  · rw [hz] at hd
    cases hd
  · exact .inr ⟨h0, hd⟩

namespace Running

variable {m m' : Machine} {c : Pid} {e : Event} {k1 : Kernel} {next : Cont} {flow : Flow}

theorem leaving (R : Running m c) : Leaving m c :=
  ⟨R.core, R.zombie, R.settled.first, R.settled.current, R.cpu, R.stack, R.quiet, R.fresh⟩

/-- A step that keeps the CPU. -/
theorem stays {allow : Label → Prop} (R : Running m c)
    (h : Effects (fun l => allow l ∧ ¬ l.Suspends c) m.k k1) (hz : k1.queue .zombie = [])
    (hidle : c = 0 → next = .user) : Running ((m.withKernel k1).setCont next) c := by
  have hquiet := R.quiet_effects h hidle
  exact ⟨⟨R.core.effects h, hz, R.settled.effects R.core h, R.cpu,
    fun h0 => (hquiet _ (.inl ⟨h0, rfl⟩)).cont⟩, R.stack_effects h, hquiet, R.fresh_effects h⟩

/-- A step that gives the CPU up. -/
theorem leaves {allow : Label → Prop} (R : Running m c) (h : Effects allow m.k k1)
    (hz : k1.queue .zombie = []) (hidle : c = 0 → next = .user)
    (hnext : (next = .user ∨ ∃ v, next = .ret v) ∨ k1.currentProcess = some c) :
    ∃ p, Leaving ((m.withKernel k1).setCont next) p := by
  have hfirst : k1.first = false := h.constant.first.trans R.settled.first
  have C1 := R.core.effects h
  rcases h.current R.core R.settled.current hz with hcur | ⟨hcur, hdead⟩
  · exact ⟨c, C1, hz, hfirst, hcur, R.cpu, R.stack_effects h, R.quiet_effects h hidle,
      R.fresh_effects h⟩
  · have h0 : c ≠ 0 := by
      rintro rfl
      obtain ⟨b, hb⟩ := C1.idleLive
      cases hdead.symm.trans hb
    have hnext : next = .user ∨ ∃ v, next = .ret v := by
      refine hnext.resolve_right fun hc => h0 ?_
      exact Option.some.inj (hc.symm.trans hcur)
    refine ⟨0, C1, hz, hfirst, hcur, fun h => absurd rfl h, R.stack_effects h, ?_,
      R.fresh_effects h⟩
    rintro d (⟨_, rfl⟩ | ⟨h, _⟩)
    · refine ⟨?_, Int.lt_of_lt_of_le R.cpu_known h.nextPid_le, fun _ => ?_⟩
      · simpa using hnext
      · rw [← R.cpu h0] at hdead
        exact hdead
    · exact absurd rfl h

end Running

/-- What a step does to the CPU. -/
inductive Stepped (m : Machine) (c : Pid) (e : Event) (m' : Machine) : Prop
  /-- The process goes on. -/
  | stayed {k1 : Kernel} {next : Cont} {v : Int} : Turn m c e k1 next (.ret v) →
      m' = (m.withKernel k1).setCont next → Running m' c → Stepped m c e m'
  /-- A tick within the quantum. -/
  | counted {off : Nat} : e = .tick off →
      m' = m.withKernel { m.k with quantum := m.k.quantum - 1 } → Running m' c → Stepped m c e m'
  /-- Another process is dispatched; `p` is the one that is current then. -/
  | switched {k1 : Kernel} {next : Cont} {off : Nat} {sp : Sp} {p n : Pid} :
      Turn m c e k1 next .tick → Leaving ((m.withKernel k1).setCont next) p →
      Switch k1 (.inside m.cpu off) m'.k sp p n → m'.cont = Function.update m.cont m.cpu next →
      m'.cpu = sp.stack → Running m' n → Stepped m c e m'

namespace Running

variable {m m' : Machine} {c : Pid} {e : Event}

/-- A tick within the quantum changes nothing else. -/
theorem counted (R : Running m c) :
    Running (m.withKernel { m.k with quantum := m.k.quantum - 1 }) c := by
  refine ⟨⟨R.core.congr rfl rfl rfl rfl rfl rfl rfl, R.zombie, ?_, R.cpu, R.idle⟩,
    R.stack, fun d hd => ?_, R.fresh⟩
  · exact ⟨R.settled.current, R.settled.currentPid, R.settled.place, R.settled.running,
      R.settled.first⟩
  · exact ⟨(R.quiet d hd).cont, (R.quiet d hd).known, (R.quiet d hd).dead⟩

theorem stepped (R : Running m c) (h : m.step e = some m') : Stepped m c e m' := by
  obtain ⟨k1, next, flow, T, hl⟩ := Machine.step_cases R.toOnCpu h
  have hz := T.zombie R.toOnCpu
  have hidle := T.idle R.toOnCpu
  cases hl with
  | stays =>
    rcases T.ends with hends | ⟨hf, _⟩
    · exact .stayed T rfl (R.stays (hends.ret _ rfl) hz hidle)
    · cases hf
  | leaves hi =>
    rcases T.ends with hends | ⟨_, hk, hn, hu, off, he⟩
    · obtain ⟨p, L⟩ := R.leaves hends.effects hz hidle (T.leaving R.settled.current R.core.idle)
      rcases Machine.interrupt_cases L.core hi with ⟨hpos, _⟩ | ⟨hcont, sp, q, n, W, hcpu, C', S'⟩
      · rw [show ((m.withKernel k1).setCont next).k.quantum = 0 from hends.tick rfl] at hpos
        exact absurd hpos (by decide)
      · obtain rfl := Option.some.inj (L.current.symm.trans W.current)
        exact .switched T L W hcont hcpu (L.switch W hcont hcpu C' S')
    · have hself : (m.withKernel k1).setCont next = m := by
        rw [hk, hn]
        exact Machine.setCont_self hu
      have L : Leaving ((m.withKernel k1).setCont next) c := by
        rw [hself]
        exact R.leaving
      rcases Machine.interrupt_cases L.core hi with ⟨_, rfl⟩ | ⟨hcont, sp, q, n, W, hcpu, C', S'⟩
      · rw [hself]
        exact .counted he rfl R.counted
      · obtain rfl := Option.some.inj (L.current.symm.trans W.current)
        exact .switched T L W hcont hcpu (L.switch W hcont hcpu C' S')

/-- Every step leaves a process running. -/
theorem step (R : Running m c) (h : m.step e = some m') : ∃ n, Running m' n := by
  cases R.stepped h with
  | stayed _ _ R' => exact ⟨c, R'⟩
  | counted _ _ R' => exact ⟨c, R'⟩
  | switched _ _ _ _ _ R' => exact ⟨_, R'⟩

end Running

/-- An invariant of the kernel: the effects a step admits preserve it, and so does a
dispatch. A tick that only counts the quantum down is a plain effect. -/
theorem Running.kernel {P : Kernel → Prop} {m m' : Machine} {c : Pid} {e : Event}
    (R : Running m c) (h : m.step e = some m') (hP : P m.k)
    (heffect : ∀ {l k k'}, (l = .plain ∨ e.Admits m c l) → Core k → P k → Effect l k k' → P k')
    (hswitch : ∀ {k k' rsp sp p n}, Core k → P k → Switch k rsp k' sp p n → P k') : P m'.k := by
  have heffects : ∀ {k1 next flow}, Turn m c e k1 next flow → Core k1 ∧ P k1 := by
    intro k1 next flow T
    rcases T.ends with hends | ⟨_, rfl, _⟩
    · refine hends.effects.invariant (P := fun k => Core k ∧ P k) ⟨R.core, hP⟩ ?_
      exact fun hl hk he => ⟨hk.1.effect he, heffect (.inr hl) hk.1 hk.2 he⟩
    · exact ⟨R.core, hP⟩
  cases R.stepped h with
  | stayed T hm =>
    rw [hm]
    exact (heffects T).2
  | counted _ hm =>
    rw [hm]
    exact heffect (.inl rfl) R.core hP (.quantum _ _)
  | switched T _ W => exact hswitch (heffects T).1 (heffects T).2 W

/-! ## Boot -/

/-- The PCB of idle after boot. -/
def idlePCB : PCB where
  pid := 0
  parentPid := -1
  waitingForPid := -1
  priority := 6
  state := .READY
  rsp := .initial 0
  retValue := 0
  foreground := false
  stdin := -1
  stdout := -1
  childrenSem := -1
  childrenCount := 0

/-- The PCB of the shell after boot. -/
def shellPCB : PCB where
  pid := 1
  parentPid := 0
  waitingForPid := -1
  priority := 0
  state := .READY
  rsp := .initial 1
  retValue := 0
  foreground := true
  stdin := 0
  stdout := 1
  childrenSem := -1
  childrenCount := 0

section Boot

variable {allocs : Nat → Bool} {p : Pid} {b : PCB} {q : QueueName} {m m' : Machine} {e : Event}

theorem boot_procs : (boot allocs).k.procs =
    Function.update (Function.update (fun _ => none) 0 (some idlePCB)) 1 (some shellPCB) := by
  have h : (boot allocs).k.procs = Function.update (Function.update
      (Function.update (fun _ => none) 0 (some idlePCB)) 1
        (some { shellPCB with stdin := -1, stdout := -1 })) 1 (some shellPCB) := rfl
  rw [h, Function.update_idem]

theorem boot_nextPid : (boot allocs).k.nextPid = 2 := rfl

theorem boot_quantum : (boot allocs).k.quantum = 0 := rfl

theorem boot_queue : (boot allocs).k.queue = Function.update (fun _ => []) .ready [1] := rfl

/-- The semaphores of the pipe of the shell. -/
theorem boot_log : (boot allocs).k.log =
    [.pipeOpened 0 0, .opened 2 1, .opened 1 pipeBufferSize, .opened 0 0] := rfl

theorem boot_live (h : (boot allocs).k.procs p = some b) :
    p = 1 ∧ b = shellPCB ∨ p = 0 ∧ b = idlePCB := by
  rw [boot_procs] at h
  rcases eq_or_ne p 1 with rfl | h1
  · exact .inl ⟨rfl, by simpa using h.symm⟩
  · rcases eq_or_ne p 0 with rfl | h0
    · exact .inr ⟨rfl, by simpa using h.symm⟩
    · simp [h1, h0] at h

theorem boot_member (h : p ∈ (boot allocs).k.queue q) : q = .ready ∧ p = 1 := by
  rw [boot_queue] at h
  rcases eq_or_ne q .ready with rfl | hq
  · exact ⟨rfl, by simpa using h⟩
  · simp [hq] at h

theorem boot_core : Core (boot allocs).k where
  idle := rfl
  idleLive := ⟨idlePCB, rfl⟩
  current := ⟨1, shellPCB, rfl, rfl⟩
  foreground p h := by cases h
  pcb p b h := by
    rw [boot_nextPid]
    rcases boot_live h with ⟨rfl, rfl⟩ | ⟨rfl, rfl⟩ <;> decide
  parent p b h h2 := by
    rcases boot_live h with ⟨rfl, _⟩ | ⟨rfl, _⟩
    · exact absurd h2 (by decide)
    · exact absurd h2 (by decide)
  nextPid := Int.le_refl 2
  pipes := rfl
  idleOutside q h := absurd (boot_member h).2 (by decide)
  nodup q := by
    rw [boot_queue]
    cases q <;> decide
  member q p h := by
    obtain ⟨rfl, rfl⟩ := boot_member h
    exact ⟨shellPCB, rfl, .inl rfl⟩
  apart p h := by cases (boot_member h).1
  zombie p h := by cases (boot_member h).1
  running p b h hr := by rcases boot_live h with ⟨_, rfl⟩ | ⟨_, rfl⟩ <;> cases hr
  plain p b h _ := by rcases boot_live h with ⟨_, rfl⟩ | ⟨_, rfl⟩ <;> rfl

/-- Before the first dispatch no event but a tick has an effect. -/
theorem boot_step (h : (boot allocs).step e = some m) :
    m = boot allocs ∨ ∃ off, (boot allocs).interrupt off = some m := by
  cases e with
  | tick off => exact .inr ⟨off, h⟩
  | ctrlC off => exact .inl (Option.some.inj h).symm
  | call off c => cases h
  | resume off => cases h

/-- After the first dispatch every PCB still holds its initial frame. -/
theorem boot_rsp {off : Nat} {c n : Pid} {sp : Sp}
    (W : Switch (boot allocs).k (.inside bootStack off) m.k sp c n)
    (hb : m.k.procs p = some b) : b.rsp = .initial p := by
  obtain ⟨b0, hb0, _, hr⟩ := W.saved p b hb
  have hfirst : (boot allocs).k.first = true := rfl
  simp only [hfirst, Bool.true_eq_false, and_false, if_false] at hr
  rw [hr]
  rcases boot_live hb0 with ⟨rfl, rfl⟩ | ⟨rfl, rfl⟩ <;> rfl

theorem boot_cpu {off : Nat} {c n : Pid} {sp : Sp}
    (W : Switch (boot allocs).k (.inside bootStack off) m.k sp c n) (hcpu : m.cpu = sp.stack) :
    m.cpu = n := by
  obtain ⟨bn, hbn, hsp⟩ := W.loaded
  rw [hcpu, ← hsp, boot_rsp W hbn, Sp.stack]

theorem boot_idleStack {off : Nat} {c n d : Pid} {sp : Sp}
    (W : Switch (boot allocs).k (.inside bootStack off) m.k sp c n) (hcpu : m.cpu = sp.stack)
    (hd : IdleStack m n d) : d = 0 := by
  rcases hd with ⟨rfl, rfl⟩ | ⟨_, b, hb, rfl⟩
  · exact boot_cpu W hcpu
  · rw [boot_rsp W hb, Sp.stack]

/-- The first dispatch. -/
theorem boot_switch {off : Nat} {c n : Pid} {sp : Sp}
    (W : Switch (boot allocs).k (.inside bootStack off) m.k sp c n)
    (hcont : m.cont = (boot allocs).cont) (hcpu : m.cpu = sp.stack) (C : Core m.k)
    (S : Settled m.k n) : Running m n := by
  refine ⟨⟨C, ?_, S, fun _ => boot_cpu W hcpu, fun _ => .inl (by rw [hcont]; rfl)⟩, ?_, ?_, ?_⟩
  · refine List.eq_nil_iff_forall_not_mem.mpr fun x hx => ?_
    cases (boot_member ((W.rest.mem .zombie x).mp hx)).1
  · intro x b hb _
    rw [boot_rsp W hb]
    rfl
  · intro d hd
    rw [boot_idleStack W hcpu hd]
    exact ⟨.inl (by rw [hcont]; rfl), by rw [W.rest.nextPid, boot_nextPid]; decide,
      fun h => absurd rfl h⟩
  · intro x _
    rw [hcont]
    rfl

/-- The first tick dispatches. -/
theorem boot_dispatch {off : Nat} (h : (boot allocs).interrupt off = some m) :
    m.cont = (boot allocs).cont ∧ ∃ sp c n,
      Switch (boot allocs).k (.inside bootStack off) m.k sp c n ∧ m.cpu = sp.stack ∧ Running m n := by
  rcases Machine.interrupt_cases boot_core h with ⟨hq, _⟩ | ⟨hcont, sp, c, n, W, hcpu, C, S⟩
  · rw [boot_quantum] at hq
    exact absurd hq (by decide)
  · exact ⟨hcont, sp, c, n, W, hcpu, boot_switch W hcont hcpu C S⟩

theorem boot_interrupt {off : Nat} (h : (boot allocs).interrupt off = some m) :
    ∃ n, Running m n := by
  obtain ⟨_, _, _, n, _, _, R⟩ := boot_dispatch h
  exact ⟨n, R⟩

/-- A state is the one after boot, or a process is running. -/
theorem Reach.cases {ok : Machine → Event → Prop} (h : Reach allocs ok m) :
    m = boot allocs ∨ ∃ c, Running m c := by
  refine h.invariant (P := fun m => m = boot allocs ∨ ∃ c, Running m c) (.inl rfl) ?_
  rintro t t' e (rfl | ⟨c, R⟩) _ hs
  · rcases boot_step hs with h | ⟨off, h⟩
    · exact .inl h
    · exact .inr (boot_interrupt h)
  · exact .inr (R.step hs)

theorem Reach.reached {ok : Machine → Event → Prop} (h : Reach allocs ok m) :
    Reach allocs (fun m e => ok m e ∧ Reach allocs ok m) m :=
  Run.reached h

/-- An invariant of the machine: the first dispatch establishes it, and the steps after
that preserve it. -/
theorem Reach.machine {P : Machine → Prop} {ok : Machine → Event → Prop} (h : Reach allocs ok m)
    (h0 : P (boot allocs)) (hboot : ∀ {off m'}, (boot allocs).interrupt off = some m' → P m')
    (hstep : ∀ {m c e m'}, Running m c → P m → ok m e → m.step e = some m' → P m') : P m := by
  have hP : (m = boot allocs ∨ ∃ c, Running m c) ∧ P m := by
    refine h.invariant (P := fun m => (m = boot allocs ∨ ∃ c, Running m c) ∧ P m)
      ⟨.inl rfl, h0⟩ ?_
    rintro t t' e ⟨rfl | ⟨c, R⟩, hP⟩ hok hs
    · rcases boot_step hs with h | ⟨off, h⟩
      · exact ⟨.inl h, h ▸ h0⟩
      · exact ⟨.inr (boot_interrupt h), hboot h⟩
    · exact ⟨.inr (R.step hs), hstep R hP hok hs⟩
  exact hP.2

/-- An invariant of the kernel in all reachable states. -/
theorem Reach.kernel {P : Kernel → Prop} {ok : Machine → Event → Prop} (h : Reach allocs ok m)
    (h0 : P (boot allocs).k)
    (heffect : ∀ {m c e l k k'}, Running m c → ok m e → (l = .plain ∨ e.Admits m c l) → Core k →
      P k → Effect l k k' → P k')
    (hswitch : ∀ {k k' rsp sp p n}, Core k → P k → Switch k rsp k' sp p n → P k') : P m.k := by
  refine h.machine (P := fun m => P m.k) h0 ?_ ?_
  · intro off m' hi
    obtain ⟨_, _, _, _, W, _⟩ := boot_dispatch hi
    exact hswitch boot_core h0 W
  · intro m c e m' R hP hok hs
    exact R.kernel hs hP (heffect R hok) hswitch

/-- What every reachable state has between two steps. -/
theorem Reach.core {ok : Machine → Event → Prop} (h : Reach allocs ok m) :
    Core m.k ∧ m.k.queue .zombie = [] ∧
      ∃ p, m.k.currentProcess = some p ∧ (p = 0 ∨ p ∈ m.k.queue .ready) := by
  rcases h.cases with rfl | ⟨p, R⟩
  · exact ⟨boot_core, rfl, 1, rfl, .inr (by rw [boot_queue]; decide)⟩
  · exact ⟨R.core, R.zombie, p, R.settled.current, R.settled.place⟩

end Boot

/-- Allocations go on succeeding. -/
theorem Effect.allocs {l : Label} {k k' : Kernel} (h : Effect l k k')
    (ha : ∀ i, k.allocs i = true) : ∀ i, k'.allocs i = true := by
  cases h with
  | alloc => exact fun i => ha (i + 1)
  | _ => exact ha

theorem Reach.allocs {m : Machine} {ok : Machine → Event → Prop} (h : Reach (fun _ => true) ok m) :
    ∀ i, m.k.allocs i = true :=
  h.kernel (P := fun k => ∀ i, k.allocs i = true) (fun _ => rfl)
    (fun _ _ _ _ ha he => he.allocs ha) (fun _ ha W => W.rest.allocs ▸ ha)

end SoKernel
