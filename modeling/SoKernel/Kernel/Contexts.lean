import SoKernel.Kernel.Invariant

/-!
# Saved contexts

Which stack pointer `schedule` stores in which PCB, and where the CPU goes next.

Results:
1. `Reach.held`: in every run each PCB holds its initial frame or what `schedule`
   last stored in it.
2. `contexts_iff`: what `schedule` stores in the PCB of a process is a stack pointer of
   that process as long as no step kills the process that is executing, and no longer.
-/

namespace SoKernel

/-- What `schedule` stored last in the PCB of `p`. -/
def lastSaved (p : Pid) : List Obs → Option Sp
  | .saved q sp :: log => if q = p then some sp else lastSaved p log
  | _ :: log => lastSaved p log
  | [] => none

/-- The contexts of the processes are not mixed up. -/
structure OwnContexts (m : Machine) : Prop where
  /-- `schedule` stores the stack pointer of the process in its own PCB. -/
  saved : ∀ p sp, .saved p sp ∈ m.k.log → sp.stack = p
  held : ∀ p b, m.k.procs p = some b → b.rsp = (lastSaved p m.k.log).getD (.initial p)
  /-- `schedule` has not returned a pointer to a freed stack. -/
  cpu : m.k.first = false → m.k.stackLive m.cpu = true

/-- The process a step is to kill. -/
def Event.target (m : Machine) : Event → Option Pid
  | .ctrlC _ => some (getForegroundPid m.k)
  | .call _ (.kill pid _) => some pid
  | .call _ (.exit _) => some (getCurrentPid m.k)
  | _ => none

/-- Idle and the shell are not killed. -/
def Event.Kills (m : Machine) (p : Pid) (e : Event) : Prop := 2 ≤ p ∧ e.target m = some p

/-- The step does not kill the process that is executing. -/
def Spares (m : Machine) (e : Event) : Prop := ∀ p, m.k.currentProcess = some p → ¬ e.Kills m p

instance (m : Machine) (p : Pid) (e : Event) : Decidable (e.Kills m p) :=
  inferInstanceAs (Decidable (_ ∧ _))

instance (m : Machine) (e : Event) : Decidable (Spares m e) :=
  match h : m.k.currentProcess with
  | none => .isTrue fun p hp => by cases h.symm.trans hp
  | some c => decidable_of_iff (¬ e.Kills m c)
      ⟨fun hk p hp => Option.some.inj (h.symm.trans hp) ▸ hk, fun hs => hs c h⟩

/-! ## What the PCBs hold -/

section Held

variable {k k' : Kernel} {l : Label} {o : Obs} {p c n : Pid} {m : Machine}

theorem lastSaved_cons {log : List Obs} (h : ∀ q sp, o ≠ .saved q sp) :
    lastSaved p (o :: log) = lastSaved p log := by
  cases o with
  | saved q sp => exact absurd rfl (h q sp)
  | _ => rfl

/-- Only `schedule` stores stack pointers. -/
theorem Label.Logs.not_saved (h : l.Logs o) : ∀ q sp, o ≠ .saved q sp := by
  rintro q sp rfl
  cases l with
  | note o =>
    obtain ⟨rfl, ho⟩ := h
    exact ho
  | _ => exact h

theorem Effect.lastSaved (h : Effect l k k') : lastSaved p k'.log = lastSaved p k.log := by
  rcases h.log with he | ⟨o, he, hl⟩
  · rw [he]
  · rw [he, lastSaved_cons hl.not_saved]

theorem Effect.saved_mem {q : Pid} {sp : Sp} (h : Effect l k k') (hs : .saved q sp ∈ k'.log) :
    .saved q sp ∈ k.log :=
  (h.mem_log hs).resolve_right fun hl => hl.not_saved q sp rfl

/-- What is saved, and whose stack is allocated. -/
structure Held (k : Kernel) : Prop where
  rsp : ∀ p b, k.procs p = some b → b.rsp = (SoKernel.lastSaved p k.log).getD (.initial p)
  known : ∀ p sp, .saved p sp ∈ k.log → p < k.nextPid
  stackLive : ∀ q p, q ≠ .zombie → p ∈ k.queue q → k.stackLive p = true
  idle : k.stackLive 0 = true

theorem lastSaved_eq_none {log : List Obs} (h : ∀ sp, .saved p sp ∉ log) :
    SoKernel.lastSaved p log = none := by
  induction log with
  | nil => rfl
  | cons o log ih =>
    have ih := ih fun sp hs => h sp (List.mem_cons_of_mem _ hs)
    cases o with
    | saved q sp =>
      have hq : q ≠ p := by
        rintro rfl
        exact h sp List.mem_cons_self
      rw [SoKernel.lastSaved, if_neg hq, ih]
    | _ => exact ih

/-- The stack of a process is freed when it dies. -/
theorem Effect.stack_kept (h : Effect l k k') (hs : k.stackLive p = true) :
    k'.stackLive p = true ∨ l = .die p := by
  cases h with
  | stack _ x =>
    refine .inl ?_
    rcases eq_or_ne p x with rfl | hpx
    · simp [Kernel.setStack]
    · simpa [Kernel.setStack, hpx] using hs
  | @die _ x =>
    rcases eq_or_ne p x with rfl | hpx
    · exact .inr rfl
    · refine .inl ?_
      show Function.update k.stackLive x false p = true
      rwa [Function.update_of_ne hpx]
  | _ => exact .inl hs

/-- A process in a queue was in one, or is new and has a stack. -/
theorem Effect.mem_queue_back {q : QueueName} (h : Effect l k k') (C : Core k) (hq : q ≠ .zombie)
    (hp : p ∈ k'.queue q) : (∃ q', q' ≠ .zombie ∧ p ∈ k.queue q') ∨ k.stackLive p = true := by
  have hmove : ∀ {x f t} (b' : PCB), x ∈ k.queue f → f ≠ .zombie → f ≠ t →
      p ∈ (k.move f t x b').queue q → ∃ q', q' ≠ .zombie ∧ p ∈ k.queue q' := by
    intro x f t b' hx hf hft hp
    rcases (mem_move (C.nodup f) hft).mp hp with ⟨h, _⟩ | ⟨_, rfl⟩
    · exact ⟨q, hq, h⟩
    · exact ⟨f, hf, hx⟩
  cases h with
  | block hx => exact .inl (hmove _ hx (by decide) (by decide) hp)
  | unblock hx => exact .inl (hmove _ hx (by decide) (by decide) hp)
  | @sleep _ _ _ _ _ b' _ _ _ _ hx => exact .inl (hmove b' hx (by decide) (by decide) hp)
  | stray _ hx => exact .inl (hmove _ hx (by decide) (by decide) hp)
  | @wake _ _ _ _ _ b' _ _ hx => exact .inl (hmove b' hx (by decide) (by decide) hp)
  | @enter _ x t _ _ _ _ hstack =>
    have hp : p ∈ Function.update k.queue t (k.queue t ++ [x]) q := hp
    rcases eq_or_ne q t with rfl | hqt
    · rw [Function.update_self] at hp
      rcases List.mem_append.mp hp with h | h
      · exact .inl ⟨q, hq, h⟩
      · obtain rfl := List.mem_singleton.mp h
        exact .inr hstack
    · rw [Function.update_of_ne hqt] at hp
      exact .inl ⟨q, hq, hp⟩
  | @die _ x f _ b' hx hf => exact .inl (hmove b' hx hf hf hp)
  | @reap _ x =>
    have hp : p ∈ Function.update k.queue .zombie _ q := hp
    rw [Function.update_of_ne hq] at hp
    exact .inl ⟨q, hq, hp⟩
  | _ => exact .inl ⟨q, hq, hp⟩

theorem Held.effect (H : Held k) (C : Core k) (h : Effect l k k') : Held k' where
  rsp p b' hb' := by
    rw [h.lastSaved]
    rcases h.pcb hb' with ⟨b, hb, hs⟩ | ⟨rfl, hr, _⟩
    · rw [hs.rsp]
      exact H.rsp p b hb
    · rw [hr, lastSaved_eq_none fun sp hs => Int.lt_irrefl _ (H.known _ sp hs)]
      rfl
  known p sp hs := Int.lt_of_lt_of_le (H.known p sp (h.saved_mem hs)) h.nextPid_le
  stackLive q p hq hp := by
    have hs : k.stackLive p = true := by
      rcases h.mem_queue_back C hq hp with ⟨q', hq', hp'⟩ | hs
      · exact H.stackLive q' p hq' hp'
      · exact hs
    refine (h.stack_kept hs).resolve_right ?_
    rintro rfl
    exact hq ((C.effect h).queue_eq hp h.mem_zombie)
  idle := by
    refine (h.stack_kept H.idle).resolve_right ?_
    rintro rfl
    exact (C.effect h).ne_zero h.mem_zombie rfl

theorem Held.switch {rsp sp : Sp} (H : Held k) (C : Core k) (W : Switch k rsp k' sp c n) :
    Held k' where
  rsp p b' hb' := by
    obtain ⟨b, hb, _, hr⟩ := W.saved p b' hb'
    have hb := H.rsp p b hb
    rw [hr, W.log]
    cases hf : k.first with
    | true => simpa [SoKernel.lastSaved] using hb
    | false =>
      rcases eq_or_ne p c with rfl | hpc
      · simp [SoKernel.lastSaved]
      · simpa [SoKernel.lastSaved, hpc, hpc.symm] using hb
  known p sp hs := by
    rw [W.rest.nextPid]
    rw [W.log] at hs
    cases hf : k.first with
    | true => exact H.known p sp (by simpa [hf] using hs)
    | false =>
      have hs : p = c ∧ sp = rsp ∨ .saved p sp ∈ k.log := by simpa [hf] using hs
      rcases hs with ⟨rfl, _⟩ | hs
      · obtain ⟨x, b, hx, hb⟩ := C.current
        obtain rfl := Option.some.inj (hx.symm.trans W.current)
        exact (C.pcb x b hb).2.2
      · exact H.known p sp hs
  stackLive q p hq hp := by
    rw [W.rest.stackLive]
    exact H.stackLive q p hq ((W.rest.mem q p).mp hp)
  idle := by
    rw [W.rest.stackLive]
    exact H.idle

theorem boot_held {allocs : Nat → Bool} : Held (boot allocs).k where
  rsp p b hb := by rcases boot_live hb with ⟨rfl, rfl⟩ | ⟨rfl, rfl⟩ <;> rfl
  known p sp hs := by simp [boot_log] at hs
  stackLive q p _ hp := by
    obtain ⟨_, rfl⟩ := boot_member hp
    rfl
  idle := rfl

/-- In every run a PCB holds its initial frame or what `schedule` last stored in it. -/
theorem Reach.held {allocs : Nat → Bool} {ok : Machine → Event → Prop} (h : Reach allocs ok m) :
    Held m.k :=
  h.kernel boot_held (fun _ _ _ C H he => H.effect C he) (fun C H W => H.switch C W)

end Held

/-! ## Steps that spare the process executing -/

/-- A step kills nobody but its target. -/
theorem Event.Admits.die {m : Machine} {c p : Pid} {e : Event} (h : e.Admits m c (.die p))
    (hc : m.k.currentProcess = some c) : e.Kills m p := by
  have hkill : ∀ {q : Pid}, 2 ≤ q ∧ (Label.die p).Killing q → 2 ≤ p ∧ q = p := by
    rintro q ⟨h2, hk⟩
    have hq : p = q := by simpa [Label.Killing, Label.Mourning] using hk
    exact ⟨hq ▸ h2, hq.symm⟩
  cases e with
  | tick => cases h
  | ctrlC =>
    obtain ⟨h2, hq⟩ := hkill h
    exact ⟨h2, congrArg some hq⟩
  | resume => cases h
  | call _ sc =>
    rcases h with h | ⟨_, h⟩ | h
    · cases sc with
      | kill q r =>
        obtain ⟨h2, hq⟩ := hkill h
        exact ⟨h2, congrArg some hq⟩
      | exit r =>
        obtain ⟨h2, hq⟩ := hkill h
        exact ⟨h2, congrArg some ((getCurrentPid_eq hc).trans hq)⟩
      | _ => simp [Call.Admits, Label.Creating, Label.Counting] at h
    · cases h
    · cases h

section Spares

variable {allocs : Nat → Bool} {m m' : Machine} {c n : Pid} {e : Event} {k1 : Kernel} {next : Cont}
  {flow : Flow}

theorem Turn.current_of_spares (T : Turn m c e k1 next flow) (O : OnCpu m c) (hs : Spares m e) :
    k1.currentProcess = some c := by
  rcases T.ends with hends | ⟨_, rfl, _⟩
  · refine (hends.effects.invariant (P := fun k => k.currentProcess = some c ∧
      k.idleProcess = some 0) ⟨O.settled.current, O.core.idle⟩ ?_).1
    rintro l k k' hl ⟨hc, hi⟩ he
    refine ⟨?_, he.constant.idle.trans hi⟩
    rcases he.current hi hc with h | ⟨_, rfl⟩
    · exact h
    · exact absurd (hl.die O.settled.current) (hs c O.settled.current)
  · exact O.settled.current

/-- Idle is on its own stack, or will be. -/
def Home (m : Machine) (c : Pid) : Prop := ∀ d, IdleStack m c d → d = 0

/-- Each stack pointer `schedule` has stored is in the PCB of its own process. -/
def SavesOwn (k : Kernel) : Prop := ∀ p sp, .saved p sp ∈ k.log → sp.stack = p

theorem Running.cpu_of_home (R : Running m c) (H : Home m c) : m.cpu = c := by
  rcases eq_or_ne c 0 with rfl | h0
  · exact H _ (.inl ⟨rfl, rfl⟩)
  · exact R.cpu h0

theorem Turn.savesOwn (T : Turn m c e k1 next flow) (hs : SavesOwn m.k) : SavesOwn k1 := by
  rcases T.ends with hends | ⟨_, rfl, _⟩
  · exact hends.effects.invariant (P := SavesOwn) hs
      fun _ hs he p sp h => hs p sp (he.saved_mem h)
  · exact hs

/-- A step that spares the process executing stores its stack pointer in its PCB. -/
theorem Running.spares_step (R : Running m c) (H : Home m c) (hs : Spares m e)
    (hown : SavesOwn m.k) (h : m.step e = some m') :
    ∃ n, Running m' n ∧ Home m' n ∧ SavesOwn m'.k := by
  cases R.stepped h with
  | stayed T hm R' =>
    subst hm
    refine ⟨c, R', fun d hd => ?_, T.savesOwn hown⟩
    rcases T.ends with hends | ⟨hf, _⟩
    · exact H d (R.idleStack_effects hends.effects hd)
    · cases hf
  | counted _ hm R' =>
    subst hm
    exact ⟨c, R', H, hown⟩
  | @switched k1 next off sp p n T L W hcont hcpu R' =>
    obtain rfl : p = c := Option.some.inj (L.current.symm.trans (T.current_of_spares R.toOnCpu hs))
    have hstack : ∀ d, IdleStack ((m.withKernel k1).setCont next) p d → d = 0 := by
      intro d hd
      rcases T.ends with hends | ⟨_, hk, _⟩
      · exact H d (R.idleStack_effects hends.effects hd)
      · rw [hk] at hd
        exact H d hd
    refine ⟨n, R', fun d hd => hstack d (L.idleStack W hcpu hd), fun q sp' hq => ?_⟩
    rw [W.log] at hq
    have hfirst : k1.first = false := L.first
    rw [hfirst] at hq
    have hq : (q = p ∧ sp' = .inside m.cpu off) ∨ .saved q sp' ∈ k1.log := by simpa using hq
    rcases hq with ⟨rfl, rfl⟩ | hq
    · exact R.cpu_of_home H
    · exact T.savesOwn hown q sp' hq

/-- `kill` of the process executing frees it and ends in `callTimerTick`, with idle
as the current process. -/
theorem kill_self {k k' : Kernel} {r : Nat} (C : Core k) (S : Settled k c) (h2 : 2 ≤ c)
    (h : kill k c r = some (k', flow)) :
    flow = .tick ∧ k'.quantum = 0 ∧ k'.currentProcess = some 0 ∧ Core k' ∧ k'.first = false := by
  have h0 : c ≠ 0 := by
    rintro rfl
    exact absurd h2 (by decide)
  have hr : c ∈ k.queue .ready := S.place.resolve_left h0
  rcases kill_cases C S.currentPid (fun _ => .inl hr) h with ⟨_, _, hout⟩ |
    ⟨_, k1, k2, k3, hdie, hmourn, hreap, hend⟩
  · exact absurd hr (hout h2 .ready (by decide))
  · have hcur : k1.currentProcess = some 0 := by
      cases hdie
      exact (if_pos S.current).trans C.idle
    have C3 := ((C.effect hdie).effects hmourn).effect hreap
    have hcur3 : k3.currentProcess = some 0 := by
      cases hreap
      exact hmourn.mourning.2.trans hcur
    have hfirst : k3.first = false := by
      rw [hreap.constant.first, hmourn.constant.first, hdie.constant.first, S.first]
    rcases hend with ⟨_, rfl, rfl⟩ | ⟨hne, _⟩
    · exact ⟨rfl, rfl, hcur3, C3.effect (.quantum k3 0), hfirst⟩
    · exact absurd rfl hne

/-- An interrupt on the stack of another process while idle is current. -/
theorem interrupt_mixed {off : Nat} (C : Core m.k) (hq : m.k.quantum = 0)
    (hcur : m.k.currentProcess = some 0) (hfirst : m.k.first = false) (hcpu : m.cpu ≠ 0)
    (h : m.interrupt off = some m') : ¬ SavesOwn m'.k := by
  intro hown
  rcases Machine.interrupt_cases C h with ⟨hpos, _⟩ | ⟨_, sp, p, n, W, _⟩
  · rw [hq] at hpos
    exact absurd hpos (by decide)
  · obtain rfl : p = 0 := Option.some.inj (W.current.symm.trans hcur)
    have hmem : .saved 0 (.inside m.cpu off) ∈ m'.k.log := by
      rw [W.log, hfirst]
      exact List.mem_cons_self
    exact hcpu (hown _ _ hmem)

/-- A process that kills itself leaves its stack pointer in the PCB of idle. -/
theorem Running.not_spares_step (R : Running m c) (hs : ¬ Spares m e) (h : m.step e = some m') :
    ¬ SavesOwn m'.k := by
  have hkill : ∃ p, m.k.currentProcess = some p ∧ e.Kills m p := by
    by_contra hne
    exact hs fun p hp hk => hne ⟨p, hp, hk⟩
  obtain ⟨p, hp, hk⟩ := hkill
  obtain rfl : c = p := Option.some.inj (R.settled.current.symm.trans hp)
  have hcpu : 2 ≤ c → m.cpu ≠ 0 := by
    intro h2 h0
    have hc0 : c ≠ 0 := by
      rintro rfl
      exact absurd h2 (by decide)
    exact hc0 ((R.cpu hc0).symm.trans h0)
  have hfinish : ∀ {off : Nat} {r : Nat}, 2 ≤ c →
      (kill m.k c r).bind (m.finish off) = some m' → ¬ SavesOwn m'.k := by
    intro off r h2 h
    obtain ⟨⟨k1, flow⟩, h1, h3⟩ := Option.bind_eq_some_iff.mp h
    obtain ⟨rfl, hq, hcur, C1, hfirst⟩ := kill_self R.core R.settled h2 h1
    exact interrupt_mixed (m := (m.withKernel k1).setCont (.ret 0)) C1 hq hcur hfirst (hcpu h2) h3
  obtain ⟨h2, htarget⟩ := hk
  cases e with
  | tick => cases htarget
  | resume => cases htarget
  | ctrlC off =>
    have hf : getForegroundPid m.k = c := Option.some.inj htarget
    obtain ⟨_, h⟩ := Option.ite_none_right_eq_some.mp h
    obtain ⟨⟨k1, flow⟩, h1, h3⟩ := Option.bind_eq_some_iff.mp h
    rw [hf] at h1
    obtain ⟨rfl, hq, hcur, C1, hfirst⟩ := kill_self R.core R.settled h2 h1
    exact interrupt_mixed (m := m.withKernel k1) C1 hq hcur hfirst (hcpu h2) h3
  | call off sc =>
    obtain ⟨_, h⟩ := Option.ite_none_right_eq_some.mp h
    cases sc with
    | kill q r =>
      obtain rfl := Option.some.inj htarget
      exact hfinish h2 h
    | exit r =>
      have hc : getCurrentPid m.k = c := Option.some.inj htarget
      simp only [Machine.call, hc] at h
      exact hfinish h2 h
    | _ => cases htarget

/-! ## Runs -/

theorem boot_home {off : Nat} (h : (boot allocs).interrupt off = some m) :
    ∃ n, Running m n ∧ Home m n ∧ SavesOwn m.k := by
  obtain ⟨_, sp, c, n, W, hcpu, R⟩ := boot_dispatch h
  refine ⟨n, R, fun d hd => boot_idleStack W hcpu hd, fun p sp' hs => ?_⟩
  rw [W.log] at hs
  have hs : .saved p sp' ∈ (boot allocs).k.log := (List.mem_cons.mp hs).resolve_left (by simp)
  simp [boot_log] at hs

theorem Reach.home (h : Reach allocs Spares m) :
    SavesOwn m.k ∧ (m = boot allocs ∨ ∃ c, Running m c ∧ Home m c) := by
  refine h.invariant (P := fun m => SavesOwn m.k ∧ (m = boot allocs ∨ ∃ c, Running m c ∧ Home m c))
    ⟨fun p sp hs => (by simp [boot_log] at hs), .inl rfl⟩ ?_
  rintro t t' e ⟨hown, rfl | ⟨c, R, H⟩⟩ hok hs
  · rcases boot_step hs with rfl | ⟨off, h⟩
    · exact ⟨hown, .inl rfl⟩
    · obtain ⟨n, R, H, hown⟩ := boot_home h
      exact ⟨hown, .inr ⟨n, R, H⟩⟩
  · obtain ⟨n, R', H', hown'⟩ := R.spares_step H hok hown hs
    exact ⟨hown', .inr ⟨n, R', H'⟩⟩

/-- Before the first dispatch no step kills. -/
theorem boot_spares : Spares (boot allocs) e := by
  rintro p hp ⟨h2, _⟩
  obtain rfl : 1 = p := Option.some.inj hp
  exact absurd h2 (by decide)

/-- A run without mixed contexts has spared the process executing at each step. -/
theorem Reach.spares (h : Reach allocs Run.anyEvent m) (hown : SavesOwn m.k) :
    Reach allocs Spares m := by
  have hP : (m = boot allocs ∨ ∃ c, Running m c) ∧ (SavesOwn m.k → Reach allocs Spares m) := by
    refine h.invariant (P := fun m => (m = boot allocs ∨ ∃ c, Running m c) ∧
      (SavesOwn m.k → Reach allocs Spares m)) ⟨.inl rfl, fun _ => .refl⟩ ?_
    rintro t t' e ⟨rfl | ⟨c, R⟩, hreach⟩ _ hs
    · refine ⟨?_, fun _ => .snoc e .refl boot_spares hs⟩
      rcases boot_step hs with h | ⟨off, h⟩
      · exact .inl h
      · exact .inr (boot_interrupt h)
    · refine ⟨.inr (R.step hs), fun hown => ?_⟩
      have hbefore : SavesOwn t.k := by
        intro p sp hp
        refine hown p sp ?_
        refine R.kernel hs (P := fun k => .saved p sp ∈ k.log) hp ?_ ?_
        · exact fun _ _ hp he => he.log_mono hp
        · intro k k' rsp sp' q n _ hp W
          rw [W.log]
          exact List.mem_append_right _ hp
      by_cases hspares : Spares t e
      · exact .snoc e (hreach hbefore) hspares hs
      · exact absurd hown (R.not_spares_step hspares hs)
  exact hP.2 hown

/-- The contexts of the processes are not mixed up exactly in the runs in which no step
kills the process that is executing. -/
theorem contexts_iff (h : Reach allocs Run.anyEvent m) :
    OwnContexts m ↔ Reach allocs Spares m := by
  constructor
  · exact fun H => h.spares H.saved
  · intro hs
    obtain ⟨hown, hm⟩ := hs.home
    have H := h.held
    refine ⟨hown, H.rsp, fun hfirst => ?_⟩
    rcases hm with rfl | ⟨c, R, hhome⟩
    · cases hfirst
    · rw [R.cpu_of_home hhome]
      rcases R.settled.place with rfl | hr
      · exact H.idle
      · exact H.stackLive .ready c (by decide) hr

/-- The shell kills one of its two children, blocks the other and itself, and a tick
and Ctrl+C come while idle runs. -/
def killAndBlock : List Event :=
  [.tick 0, .call 0 (.createProcess backgroundArgs), .call 0 (.createProcess backgroundArgs),
    .call 0 (.kill 2 7), .call 0 (.block 3), .tick 8, .call 16 (.block 1), .tick 0, .ctrlC 0, .tick 0]

theorem killAndBlock_run :
    ∃ m, Run.exec Machine.step Spares (boot fun _ => true) killAndBlock = some m ∧
      Reach (fun _ => true) Spares m ∧ m.cpu = 0 ∧ .saved 1 (.inside 1 16) ∈ m.k.log :=
  Run.exists_exec (by decide +kernel)

theorem contexts_iff_run : ∃ m, Reach (fun _ => true) Run.anyEvent m ∧
    .saved 1 (.inside 1 16) ∈ m.k.log ∧ OwnContexts m := by
  obtain ⟨m, _, hm, _, hs⟩ := killAndBlock_run
  have hreach : Reach (fun _ => true) Run.anyEvent m := hm.mono fun _ _ _ => trivial
  exact ⟨m, hreach, hs, (contexts_iff hreach).mpr hm⟩

/-- The child of the shell exits, and the shell is blocked. -/
def exitAndBlock : List Event :=
  [.tick 0, .call 0 (.createProcess backgroundArgs), .call 0 .yield, .resume 0, .call 0 .yield,
    .call 0 (.exit 0), .resume 0, .call 0 (.block 1)]

/-- `schedule` stores the stack pointer of the child that exits in the PCB of idle, and
when idle is dispatched it returns that pointer into the freed stack. -/
theorem exit_mixes_contexts :
    ∃ m, Run.exec Machine.step Run.anyEvent (boot fun _ => true) exitAndBlock = some m ∧
      .saved 0 (.inside 2 0) ∈ m.k.log ∧ m.cpu = 2 ∧ m.k.stackLive 2 = false ∧ ¬ OwnContexts m := by
  obtain ⟨m, he, _, hs, hcpu, hstack⟩ :
      ∃ m, Run.exec Machine.step Run.anyEvent (boot fun _ => true) exitAndBlock = some m ∧
        Run Machine.step Run.anyEvent (boot fun _ => true) m ∧
        .saved 0 (.inside 2 0) ∈ m.k.log ∧ m.cpu = 2 ∧ m.k.stackLive 2 = false :=
    Run.exists_exec (by decide +kernel)
  exact ⟨m, he, hs, hcpu, hstack, fun H => absurd (H.saved _ _ hs) (by decide)⟩

end Spares

end SoKernel
