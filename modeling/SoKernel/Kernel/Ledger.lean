import SoKernel.Kernel.SemQueues
import SoKernel.Lib.Handoff

/-!
# The histories of the semaphores

What has happened at each semaphore since it was opened, in runs in which nobody is
killed and no semaphore is closed.

Results:
1. `Ledger.effect`: every effect keeps the history of each open semaphore one of a
   counting semaphore with a queue.
2. `Reach.ledger`: in reachable states.
-/

namespace SoKernel

/-! ## Runs without kills -/

/-- The calls that kill nobody and close nothing. -/
def Call.isCalm : Call → Bool
  | .kill .. | .exit _ | .semClose _ | .closePipe _ => false
  | _ => true

def Event.isCalm : Event → Bool
  | .ctrlC _ => false
  | .call _ sc => sc.isCalm
  | _ => true

def Calm (_ : Machine) (e : Event) : Prop := e.isCalm = true

instance (m : Machine) (e : Event) : Decidable (Calm m e) := inferInstanceAs (Decidable (_ = _))

/-- The labels of calm steps. -/
def Label.Calm : Label → Prop
  | .die _ | .reap _ | .semClosed _ | .pipeClosed _ => False
  | _ => True

section

variable {m : Machine} {e : Event} {c p : Pid} {l : Label} {k k' : Kernel}

theorem Label.Working.calm (h : l.Working c) : l.Calm := by
  cases l <;> trivial

/-- A calm step kills and closes nothing. -/
theorem Event.Admits.calm (h : e.Admits m c l) (he : e.isCalm = true) : l.Calm := by
  cases e with
  | tick => cases h
  | ctrlC => cases he
  | resume => exact h.calm
  | call _ sc =>
    rcases h with h | ⟨_, h⟩ | h
    · cases sc with
      | kill => cases he
      | exit => cases he
      | semClose => cases he
      | closePipe => cases he
      | createProcess =>
        rcases h with (rfl | ⟨_, rfl⟩ | ⟨_, rfl⟩) | rfl | rfl | rfl <;> trivial
      | yield => cases h; trivial
      | block => rcases h with rfl | rfl <;> trivial
      | unblock => cases h; trivial
      | changePrio => cases h; trivial
      | semOpen => rcases h with rfl | rfl <;> trivial
      | semPost => rcases h with ⟨_, rfl⟩ | ⟨_, rfl⟩ | rfl <;> trivial
      | openPipe => rcases h with rfl | ⟨_, rfl⟩ | ⟨_, _, rfl | rfl⟩ <;> trivial
      | _ => cases h
    · exact h.calm
    · exact h.working (c := c).calm

/-- A calm step has no target. -/
theorem Calm.kills (h : Calm m e) : ¬ e.Kills m p := by
  rintro ⟨_, ht⟩
  cases e with
  | ctrlC => cases h
  | call _ sc =>
    cases sc with
    | kill => cases h
    | exit => cases h
    | _ => cases ht
  | _ => cases ht

theorem Reach.calm_semQueues {allocs : Nat → Bool} (h : Reach allocs Calm m) : SemQueues m.k :=
  (Reach.semQueues (h.mono fun _ _ he _ hk => absurd hk he.kills)).1

end

/-! ## The history of a semaphore -/

/-- The value the entry opens the semaphore with. -/
def Obs.opens (id : Int) : Obs → Option Nat
  | .opened i v => if i = id then some v else none
  | _ => none

/-- The value the semaphore was opened with last. -/
def openedWith (id : Int) (log : List Obs) : Option Nat := log.findSome? (Obs.opens id)

/-- The history since then. -/
def sinceOpened (id : Int) (log : List Obs) : List Obs :=
  log.takeWhile fun o => (o.opens id).isNone

/-- What the entry says about the semaphore. -/
def Obs.act (id : Int) : Obs → Option (Act Pid)
  | .took i p => if i = id then some (.took p) else none
  | .queued i p => if i = id then some (.queued p) else none
  | .released i p q => if i = id then some (.released p q) else none
  | .incremented i q => if i = id then some (.incremented q) else none
  | _ => none

/-- What has happened at a semaphore. -/
def acts (id : Int) (log : List Obs) : List (Act Pid) := log.filterMap (Obs.act id)

/-- The semaphore the entry is about, if it is about its value or its queue. -/
def Obs.sem : Obs → Option Int
  | .opened i _ | .took i _ | .queued i _ | .released i _ _ | .incremented i _ => some i
  | _ => none

/-- The queue of a semaphore. -/
def Sem.waiting (s : Sem) : List Pid :=
  match s.blocked with
  | .live pids => pids
  | _ => []

/-- A semaphore and its history. -/
structure SemLedger (id : Int) (s : Sem) (log : List Obs) : Prop where
  unused : s.used = false →
    s.blocked = .null ∧ openedWith id log = none ∧ ∀ p, .queued id p ∉ log
  handoff : ∀ v, openedWith id log = some v → s.used = true ∧ s.blocked = .live s.waiting ∧
    Handoff (2 ^ 32) v (acts id (sinceOpened id log)) s.value s.waiting
  /-- Nobody waited for it before. -/
  arrived : openedWith id log ≠ none →
    ∀ p, log.count (.queued id p) = (sinceOpened id log).count (.queued id p)

def Ledger (k : Kernel) : Prop := ∀ id, SemLedger id (k.sems id) k.log

section

variable {id i : Int} {s : Sem} {log : List Obs} {o : Obs} {p q : Pid} {pids : List Pid} {v : Nat}
  {k k' : Kernel} {l : Label}

theorem Obs.opens_none (h : o.sem ≠ some id) : o.opens id = none := by
  cases o with
  | opened => exact if_neg fun hi => h (congrArg some hi)
  | _ => rfl

theorem Obs.act_none (h : o.sem ≠ some id) : o.act id = none := by
  cases o with
  | took => exact if_neg fun hi => h (congrArg some hi)
  | queued => exact if_neg fun hi => h (congrArg some hi)
  | released => exact if_neg fun hi => h (congrArg some hi)
  | incremented => exact if_neg fun hi => h (congrArg some hi)
  | _ => rfl

theorem openedWith_cons (h : o.opens id = none) : openedWith id (o :: log) = openedWith id log := by
  rw [openedWith, List.findSome?_cons, h]
  rfl

theorem openedWith_opened : openedWith id (.opened id v :: log) = some v := by
  rw [openedWith, List.findSome?_cons, Obs.opens, if_pos rfl]

theorem sinceOpened_cons (h : o.opens id = none) :
    sinceOpened id (o :: log) = o :: sinceOpened id log := by
  rw [sinceOpened, List.takeWhile_cons_of_pos (by simp [h])]
  rfl

theorem sinceOpened_opened : sinceOpened id (.opened id v :: log) = [] := by
  rw [sinceOpened, List.takeWhile_cons_of_neg (by simp [Obs.opens])]

theorem sinceOpened_sublist : (sinceOpened id log).Sublist log := List.takeWhile_sublist _

namespace SemLedger

/-- An entry about something else. -/
theorem other (L : SemLedger id s log) (h : o.sem ≠ some id) : SemLedger id s (o :: log) := by
  have hopens := Obs.opens_none h
  have hq : ∀ p, o ≠ .queued id p := by
    rintro p rfl
    exact h rfl
  refine ⟨fun hu => ?_, fun v hv => ?_, fun hne p => ?_⟩
  · obtain ⟨hb, ho, hn⟩ := L.unused hu
    refine ⟨hb, (openedWith_cons hopens).trans ho, fun p hp => ?_⟩
    exact hn p ((List.mem_cons.mp hp).resolve_left (hq p).symm)
  · rw [openedWith_cons hopens] at hv
    rw [sinceOpened_cons hopens, acts, List.filterMap_cons, Obs.act_none h]
    exact L.handoff v hv
  · rw [openedWith_cons hopens] at hne
    rw [sinceOpened_cons hopens, List.count_cons_of_ne (hq p), List.count_cons_of_ne (hq p)]
    exact L.arrived hne p

/-- An act, and what it does to a semaphore in use. -/
theorem act {t : Sem} {a : Act Pid} (L : SemLedger id s log) (ha : o.act id = some a)
    (ho : o.opens id = none) (hu : t.used = s.used) (hnull : s.blocked = .null → t.blocked = .null)
    (hq : s.blocked = .null → ∀ p, o ≠ .queued id p)
    (hlive : s.blocked = .live s.waiting → t.blocked = .live t.waiting)
    (hstep : ∀ {v h}, s.blocked = .live s.waiting → Handoff (2 ^ 32) v h s.value s.waiting →
      Handoff (2 ^ 32) v (a :: h) t.value t.waiting) : SemLedger id t (o :: log) := by
  refine ⟨fun hu' => ?_, fun v hv => ?_, fun hne p => ?_⟩
  · obtain ⟨hb, hnone, hn⟩ := L.unused (hu ▸ hu')
    refine ⟨hnull hb, (openedWith_cons ho).trans hnone, fun p hp => ?_⟩
    exact hn p ((List.mem_cons.mp hp).resolve_left (hq hb p).symm)
  · rw [openedWith_cons ho] at hv
    obtain ⟨hused, hb, H⟩ := L.handoff v hv
    rw [sinceOpened_cons ho, acts, List.filterMap_cons, ha]
    exact ⟨hu ▸ hused, hlive hb, hstep hb H⟩
  · rw [openedWith_cons ho] at hne
    rw [sinceOpened_cons ho, List.count_cons, List.count_cons, L.arrived hne p]

end SemLedger

/-- An act at one semaphore. -/
theorem Ledger.setSem (L : Ledger k) (ho : o.sem = some id) (h : SemLedger id s (o :: k.log)) :
    Ledger ((k.setSem id s).observe o) := by
  intro i
  rcases eq_or_ne i id with rfl | hi
  · simpa [Kernel.setSem, Kernel.observe] using h
  · have hother := (L i).other (o := o) (by simpa [ho] using hi.symm)
    simpa [Kernel.setSem, Kernel.observe, hi] using hother

/-- An entry about no semaphore. -/
theorem Ledger.observe (L : Ledger k) (ho : o.sem = none) (hs : k'.sems = k.sems)
    (hl : k'.log = o :: k.log) : Ledger k' := by
  intro i
  rw [hs, hl]
  exact (L i).other (by simp [ho])

/-- A semaphore that was not in use is opened. -/
theorem Ledger.opened (L : Ledger k) (hu : (k.sems id).used = false) :
    Ledger ((k.setSem id { value := v, lock := false, used := true, blocked := .live [] }).observe
      (.opened id v)) := by
  obtain ⟨_, _, hn⟩ := (L id).unused hu
  refine L.setSem rfl ⟨fun h => (by cases h), fun v' hv => ?_, fun _ p => ?_⟩
  · obtain rfl : v = v' := Option.some.inj (openedWith_opened.symm.trans hv)
    rw [sinceOpened_opened]
    exact ⟨rfl, rfl, .opened⟩
  · rw [sinceOpened_opened, List.count_cons_of_ne (by simp), List.count_eq_zero_of_not_mem (hn p)]
    rfl

/-- Every effect of a calm step is one of a counting semaphore with a queue. -/
theorem Ledger.effect (L : Ledger k) (S : SemQueues k) (h : Effect l k k') (hc : l.Calm) :
    Ledger k' := by
  cases h with
  | @took _ id _ hv =>
    refine L.setSem rfl ((L id).act (if_pos rfl) rfl rfl (fun hn => hn)
      (fun _ p => by simp) (fun hb => hb) fun {v h} _ H => ?_)
    refine .took ?_
    rwa [Nat.sub_add_cancel hv]
  | @sleep _ id p pids _ _ _ hv hb =>
    have hpids : (k.sems id).waiting = pids := by rw [Sem.waiting, hb]
    have hact := (L id).act (t := { k.sems id with blocked := .live (pids ++ [p]) })
      (o := .queued id p) (a := .queued p) (if_pos rfl) rfl rfl
      (fun hn => (by cases hb.symm.trans hn))
      (fun hn => (by cases hb.symm.trans hn)) (fun _ => rfl) fun {v h} _ H => by
        show Handoff (2 ^ 32) v (.queued p :: h) (k.sems id).value (pids ++ [p])
        rw [hv, hpids] at H
        exact hv ▸ .queued H
    exact L.setSem rfl hact
  | @wake _ id p pids _ _ _ hb =>
    have hpids : (k.sems id).waiting = p :: pids := by rw [Sem.waiting, hb]
    have hact := (L id).act (t := { k.sems id with blocked := .live pids })
      (o := .released id p (getCurrentPid k)) (a := .released p (getCurrentPid k)) (if_pos rfl) rfl
      rfl
      (fun hn => (by cases hb.symm.trans hn)) (fun _ x => by simp) (fun _ => rfl) fun {v h} _ H => by
        show Handoff (2 ^ 32) v (.released p (getCurrentPid k) :: h) (k.sems id).value pids
        rw [hpids] at H
        exact .released H
    exact L.setSem rfl hact
  | absorb _ hb hp => exact absurd (S.member _ _ ⟨_, hb, List.mem_cons_self⟩) hp
  | @incr _ id _ hb =>
    refine L.setSem rfl ((L id).act (if_pos rfl) rfl rfl (fun hn => hn)
      (fun _ p => by simp) (fun hb => hb) fun {v h} hl H => ?_)
    have hnil : (k.sems id).waiting = [] := by
      rcases hb with hb | hb <;> rw [Sem.waiting, hb]
    show Handoff (2 ^ 32) v _ (((k.sems id).value + 1) % 2 ^ 32) (k.sems id).waiting
    rw [hnil] at H ⊢
    exact .incremented H
  | semOpened _ hu => exact L.opened hu
  | @semUnqueued _ id v _ hu =>
    intro i
    rcases eq_or_ne i id with rfl | hi
    · obtain ⟨_, hnone, _⟩ := (L i).unused hu
      refine ⟨fun h => ?_, fun v' hv => ?_, fun h => absurd hnone h⟩
      · simp [Kernel.setSem] at h
      · cases hnone.symm.trans hv
    · simpa [Kernel.setSem, hi] using L i
  | semClosed => cases hc
  | die => cases hc
  | reap => cases hc
  | pipeClosed => cases hc
  | pipeReady => exact L.observe rfl rfl rfl
  | @pipeData _ _ _ o _ _ _ _ ho =>
    have ho : o.sem = none := by
      rcases ho with ⟨_, _, rfl⟩ | ⟨_, _, rfl⟩ | ⟨_, _, rfl⟩ <;> rfl
    exact L.observe ho rfl rfl
  | @note _ o ho =>
    have ho : o.sem = none := by
      cases o <;> first | rfl | cases ho
    exact L.observe ho rfl rfl
  | _ => exact L

theorem Ledger.switch {rsp sp : Sp} {c n : Pid} (L : Ledger k) (W : Switch k rsp k' sp c n) :
    Ledger k' := by
  intro i
  rw [W.rest.sems, W.log]
  have h1 := (L i).other (o := .switched rsp) (by simp [Obs.sem])
  cases hf : k.first with
  | true => exact h1
  | false => exact h1.other (by simp [Obs.sem])

theorem boot_ledger {allocs : Nat → Bool} : Ledger (boot allocs).k := by
  have h0 : Ledger initialKernel := fun id =>
    ⟨fun _ => ⟨rfl, rfl, fun p hp => (by cases hp)⟩, fun v hv => (by cases hv),
      fun h => absurd rfl h⟩
  have h1 := @Ledger.opened 0 0 _ h0 rfl
  have h2 := @Ledger.opened 1 pipeBufferSize _ h1 rfl
  have h3 := @Ledger.opened 2 1 _ h2 rfl
  exact h3.observe (o := .pipeOpened 0 0) rfl boot_sems rfl

/-- The histories of the semaphores in runs without kills. -/
theorem Reach.ledger {allocs : Nat → Bool} {m : Machine} (h : Reach allocs Calm m) :
    Ledger m.k := by
  refine (h.kernel (P := fun k => SemQueues k ∧ Ledger k) ⟨boot_semQueues, boot_ledger⟩ ?_ ?_).2
  · intro m c e l k k' _ hok hl C hk he
    have hcalm : l.Calm := by
      rcases hl with rfl | hl
      · trivial
      · exact hl.calm hok
    refine ⟨hk.1.effect C he ?_, hk.2.effect hk.1 he hcalm⟩
    rintro p rfl
    exact hcalm.elim
  · exact fun _ hk W => ⟨hk.1.switch W, hk.2.switch W⟩

end

end SoKernel
