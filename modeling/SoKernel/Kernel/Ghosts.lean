import SoKernel.Kernel.Children

/-!
# Processes that no queue holds

`createProcess` builds a process in steps that may each fail. What a failed step
leaves behind, and what becomes of the process when the node of its queue is the
step that fails, or when no queue is meant for it.

Results:
1. `Reach.counts`: a parent with a semaphore has counted a child.
2. `createProcess_spot`: the queue a new process is in, if any.
3. `kill_child`: a parent can kill the child it has just created.
4. `no_ghost_iff`: when a pid that was returned is that of a process in a queue.
-/

namespace SoKernel

/-- The process that was created is in one queue, once, and can be found and killed. -/
structure Spawned (k : Kernel) (p : Pid) : Prop where
  placed : (k.queue .ready ++ k.queue .blocked).count p = 1
  found : getProcess k p = some p
  killable : ∀ retValue, ∃ k', kill k p retValue = some (k', .ret 0) ∧ getProcess k' p = none ∧
    k'.procs p = none

/-- What a refused `createProcess` has not changed: the queues, with their nodes; the
PCBs, with the counts of the children; the stacks; and the semaphores. -/
structure Untouched (k k' : Kernel) : Prop where
  queue : k'.queue = k.queue
  procs : k'.procs = k.procs
  stackLive : k'.stackLive = k.stackLive
  sems : k'.sems = k.sems
  semManager : k'.semManager = k.semManager

/-- `createProcess` has returned `v`, and hands out no ghost. -/
def NoGhost (k k' : Kernel) (v : Int) : Prop :=
  (0 ≤ v → Spawned k' v) ∧ (v = -1 → Untouched k k')

/-- The arguments are refused, or there is no memory for the PCB or for the stack. -/
def Refuses (k : Kernel) (args : ProcessArgs) : Prop :=
  args.valid = false ∨ k.allocs 0 = false ∨ k.allocs 1 = false

/-- `countChild` opens a semaphore, so that the third allocation is that of its queue. -/
def OpensSem (k : Kernel) (parent : Pid) : Prop :=
  (∃ b, k.procs parent = some b ∧ b.childrenSem = -1) ∧
    ∃ id, Machine.SemIdOk id ∧ (k.sems id).used = false

/-- The process is meant for a queue, and there is memory for the node. -/
def Enqueues (k : Kernel) (args : ProcessArgs) : Prop :=
  if args.foreground = false ∧ args.stdin = TTY then k.allocs 2 = true
  else args.priority ≠ 6 ∧
    (args.foreground = true ∧ OpensSem k (getCurrentPid k) → k.allocs 3 = true) ∧
    (¬ (args.foreground = true ∧ OpensSem k (getCurrentPid k)) → k.allocs 2 = true)

section

variable {allocs : Nat → Bool} {k k' k1 : Kernel} {m m' : Machine} {e : Event} {c p : Pid}
  {b : PCB} {f : Family} {F : Pid → Option Family} {args : ProcessArgs} {flow : Flow} {v : Int}

/-! ## 1. The counts of the parents -/

/-- A semaphore is kept for the children that were counted. -/
def Family.Counts (f : Family) : Prop :=
  0 ≤ f.account.count ∧ ∀ i, f.account.id = some i → 0 ≤ i ∧ 1 ≤ f.account.count

def AllCount (F : Pid → Option Family) : Prop := ∀ p f, F p = some f → f.Counts

theorem AllCount.update (A : AllCount F) (hf : f.Counts) :
    AllCount (Function.update F p (some f)) := by
  intro x g hg
  rcases eq_or_ne x p with rfl | hx
  · rw [Function.update_self] at hg
    exact Option.some.inj hg ▸ hf
  · rw [Function.update_of_ne hx] at hg
    exact A x g hg

theorem AllCount.free (A : AllCount F) : AllCount (Function.update F p none) := by
  intro x g hg
  rcases eq_or_ne x p with rfl | hx
  · rw [Function.update_self] at hg
    cases hg
  · rw [Function.update_of_ne hx] at hg
    exact A x g hg

theorem PCB.counts_iff : b.family.Counts ↔
    0 ≤ b.childrenCount ∧ (b.childrenSem = -1 ∨ 0 ≤ b.childrenSem ∧ 1 ≤ b.childrenCount) := by
  unfold Family.Counts PCB.family PCB.account
  refine and_congr_right fun _ => ?_
  rcases eq_or_ne b.childrenSem (-1) with hneg | hne
  · simp [hneg]
  · simp [hne]

theorem AllCount.pcb (A : AllCount k.family) (hb : k.procs p = some b) :
    0 ≤ b.childrenCount ∧ (b.childrenSem = -1 ∨ 0 ≤ b.childrenSem ∧ 1 ≤ b.childrenCount) :=
  PCB.counts_iff.mp (A p b.family (family_eq_some.mpr ⟨b, hb, rfl⟩))

theorem AllCount.setPCB (A : AllCount k.family) (hb : b.family.Counts) :
    AllCount (k.setPCB p b).family := by
  rw [setPCB_family]
  exact A.update hb

theorem countChild_counts (A : AllCount k.family) (hp : getProcess k p = some p)
    (hb : k.procs p = some b) (h : countChild k p = some k') : AllCount k'.family := by
  obtain ⟨hcount, hsem⟩ := A.pcb hb
  have hcounted : ∀ id, 0 ≤ id →
      ({ b with childrenSem := id, childrenCount := b.childrenCount + 1 } : PCB).family.Counts :=
    fun id hid => PCB.counts_iff.mpr
      ⟨Int.le_add_one hcount, .inr ⟨hid, Int.add_le_add_right hcount 1⟩⟩
  rcases countChild_cases hp hb (hsem.imp_right And.left) h with ⟨hpos, rfl⟩ |
    ⟨_, ⟨_, rfl⟩ | ⟨id, hok, _, _, ⟨_, rfl⟩ | ⟨_, rfl⟩⟩⟩
  · exact A.setPCB (hcounted b.childrenSem hpos)
  · exact A
  · exact AllCount.setPCB (k := (k.allocMemory.2.setSem id _).observe _) A (hcounted id hok.1)
  · exact A

theorem uncountChild_counts (A : AllCount k.family) (h : uncountChild k p = some k') :
    AllCount k'.family := by
  unfold uncountChild at h
  split at h
  · cases h
    exact A
  · next x _ =>
    obtain ⟨b, hb, h1⟩ := Option.bind_eq_some_iff.mp h
    obtain ⟨_, hsem⟩ := A.pcb hb
    split at h1
    · next hpos =>
      have hpos : 0 ≤ b.childrenSem := hpos
      have hone : 1 ≤ b.childrenCount := by
        rcases hsem with hneg | ⟨_, hone⟩
        · rw [hneg] at hpos
          exact absurd hpos (by decide)
        · exact hone
      dsimp only at h1
      split at h1
      · next hlast =>
        -- the count is 0 now, and the semaphore goes
        obtain ⟨⟨k2, f2⟩, h2, h3⟩ := Option.bind_eq_some_iff.mp h1
        obtain ⟨⟨k3, ok⟩, h4, h5⟩ := Option.bind_eq_some_iff.mp h3
        obtain ⟨b2, hb2, h6⟩ := Option.bind_eq_some_iff.mp h5
        obtain rfl := Option.some.inj h6
        have hfam : k3.family = Function.update k.family x
            (some ({ b with childrenCount := b.childrenCount - 1 } : PCB).family) := by
          rw [(semClose_effects h4).family (by rintro l rfl; trivial), (semPost_families h2).family,
            setPCB_family]
        have hb2 : b2.family = ({ b with childrenCount := b.childrenCount - 1 } : PCB).family := by
          have hget : k3.family x = some b2.family := family_eq_some.mpr ⟨b2, hb2, rfl⟩
          rw [hfam, Function.update_self] at hget
          exact (Option.some.inj hget).symm
        have hzero : b2.childrenCount = 0 :=
          (congrArg (fun f => f.account.count) hb2).trans hlast
        rw [setPCB_family, hfam, Function.update_idem]
        exact A.update (PCB.counts_iff.mpr ⟨hzero.ge, .inl rfl⟩)
      · next hmore =>
        obtain rfl := Option.some.inj h1
        have hle : 0 ≤ b.childrenCount - 1 := Int.sub_nonneg_of_le hone
        have hmany : 0 < b.childrenCount - 1 := Int.lt_iff_le_and_ne.mpr ⟨hle, Ne.symm hmore⟩
        exact A.setPCB (PCB.counts_iff.mpr ⟨hle, .inr ⟨hpos, hmany⟩⟩)
    · cases h1
      exact A

/-- The kernel with the stack of a new process, whose PCB is `b` now. -/
def withNewStack (k : Kernel) (args : ProcessArgs) (b : PCB) : Kernel :=
  ((withNewPCB k args).setStack k.nextPid true).setPCB k.nextPid b

theorem withNewStack_procs (hp : p ≠ k.nextPid) : (withNewStack k args b).procs p = k.procs p := by
  show Function.update (Function.update k.procs k.nextPid _) k.nextPid _ p = _
  rw [Function.update_of_ne hp, Function.update_of_ne hp]

/-- A refused `createProcess` has freed what it allocated. -/
theorem createProcess_untouched (C : Core k) (h : Refuses k args)
    (hc : createProcess k args = some (k', flow)) : flow = .ret (-1) ∧ Untouched k k' := by
  rcases createProcess_cases hc with
    ⟨⟨_, rfl⟩ | ⟨_, _, rfl⟩ | ⟨_, _, rfl⟩, rfl⟩ | ⟨⟨hvalid, h0, h1⟩, _⟩
  · exact ⟨rfl, rfl, rfl, rfl, rfl, rfl⟩
  · exact ⟨rfl, rfl, rfl, rfl, rfl, rfl⟩
  · refine ⟨rfl, rfl, ?_, rfl, rfl, rfl⟩
    show Function.update (Function.update k.procs k.nextPid _) k.nextPid none = k.procs
    rw [Function.update_idem]
    exact Function.update_eq_self_iff.mpr C.nextPid_free.symm
  · rcases h with h | h | h
    · exact Bool.noConfusion (hvalid.symm.trans h)
    · exact Bool.noConfusion (h0.symm.trans h)
    · exact Bool.noConfusion (h1.symm.trans h)

theorem createProcess_made (hmade : ¬ Refuses k args) (h : createProcess k args = some (k', flow)) :
    ∃ r, placeProcess ((withNewPCB k args).setStack k.nextPid true) args (newPCB k args) =
      some (k', r) ∧ flow = .ret (r.getD (-1)) := by
  rcases createProcess_cases h with ⟨⟨h', _⟩ | ⟨_, h', _⟩ | ⟨_, h', _⟩, _⟩ | ⟨_, hplace⟩
  · exact absurd (.inl h') hmade
  · exact absurd (.inr (.inl h')) hmade
  · exact absurd (.inr (.inr h')) hmade
  · exact hplace

theorem withNewStack_counts (E : Executing k c) (A : AllCount k.family) (hs : b.childrenSem = -1)
    (hn : b.childrenCount = 0) : AllCount (withNewStack k args b).family := by
  refine AllCount.setPCB ?_ (PCB.counts_iff.mpr ⟨hn.ge, .inl hs⟩)
  rw [withNewPCB_family E]
  exact A.update ⟨Int.le_refl 0, by simp⟩

theorem createProcess_counts (C : Core k) (E : Executing k c) (hready : c ∈ k.queue .ready)
    (A : AllCount k.family) (h : createProcess k args = some (k', flow)) : AllCount k'.family := by
  by_cases hrefused : Refuses k args
  · have hprocs := (createProcess_untouched C hrefused h).2.procs
    have hfam : k'.family = k.family := by
      unfold Kernel.family
      rw [hprocs]
    rw [hfam]
    exact A
  · obtain ⟨r, hplace, -⟩ := createProcess_made hrefused h
    obtain ⟨bc, hbc, _⟩ := C.member _ c hready
    have hparent : (newPCB k args).parentPid = c := getCurrentPid_eq E.current
    have hpid : (newPCB k args).pid > 1 := Int.lt_of_lt_of_le (by decide) C.nextPid
    rcases (placeProcess_cases hpid hplace).2 with ⟨_, rfl⟩ | ⟨_, b1, k2, hsame, _, hcount, rfl⟩
    · rw [enqueue_families.family]
      exact withNewStack_counts E A rfl rfl
    · have hb1 : AllCount (withNewStack k args b1).family :=
        withNewStack_counts E A hsame.childrenSem hsame.childrenCount
      rw [addUnlessIdle_families.family]
      rw [hparent] at hcount
      split at hcount
      · have hne : c ≠ k.nextPid := Int.ne_of_lt (C.lt_nextPid hready)
        exact countChild_counts hb1 (getProcess_of_placed ⟨.ready, hready⟩)
          ((withNewStack_procs hne).trans hbc) hcount
      · cases hcount
        exact hb1

theorem kill_counts {r : Nat} (C : Core k) (hcp : k.currentPid = c)
    (hcur : k.currentProcess = some p → p ∈ k.queue .ready ∨ p = 0) (A : AllCount k.family)
    (h : kill k p r = some (k', flow)) : AllCount k'.family := by
  rcases kill_parts C hcp hcur h with
    ⟨rfl, _⟩ | ⟨h2, k1, k2, k3, k4, b, hdie, hb, hparent, hwake, hreap, hend⟩
  · exact A
  · have C1 := C.effect hdie
    have C2 := C1.effects (uncountParent_effects hparent)
    have A1 : AllCount k1.family := hdie.family trivial ▸ A
    have A2 : AllCount k2.family := by
      split at hparent
      · exact uncountChild_counts A1 hparent
      · cases hparent
        exact A1
    have A3 : AllCount k3.family := by
      rw [(wakeUpWaitingParent_effects C2 (C1.parent p b hb h2) hwake).family
        (by rintro l rfl; trivial)]
      exact A2
    have A4 : AllCount k4.family := by
      cases hreap
      show AllCount (Kernel.freePCB _ _).family
      rw [freePCB_family]
      exact A3.free
    rcases hend with ⟨_, rfl, _⟩ | ⟨_, rfl, _⟩
    · exact A4
    · exact A4

namespace Running

/-- Every step keeps the counts. -/
theorem counts_step (R : Running m c) (A : AllCount m.k.family) (h : m.step e = some m') :
    AllCount m'.k.family := by
  obtain ht | ⟨p, ht⟩ := Option.eq_none_or_eq_some (e.target m)
  · obtain hc | ⟨args, hc⟩ := Option.eq_none_or_eq_some e.creates
    · rw [R.family_step h ht hc]
      exact A
    · obtain ⟨hcalls, k1, flow, hcreate, hend⟩ := step_creates hc h
      have B := Machine.Busy.of_calls R.toOnCpu hcalls
      have C1 : Core k1 := R.core.effects (createProcess_effects R.core B.executing hcreate).1
      rw [(hend C1).family]
      exact createProcess_counts R.core B.executing B.ready A hcreate
  · obtain ⟨r, k1, flow, hkill, hend⟩ := step_kills ht h
    have hcur : m.k.currentProcess = some p → p ∈ m.k.queue .ready ∨ p = 0 := by
      intro hp
      obtain rfl := Option.some.inj (R.settled.current.symm.trans hp)
      exact R.settled.place.symm
    have C1 : Core k1 := R.core.effects (kill_ends R.core R.settled.currentPid hcur hkill).effects
    rw [(hend C1).family]
    exact kill_counts R.core R.settled.currentPid hcur A hkill

end Running

/-- In every reachable state a parent has a semaphore only if it has counted a child. -/
theorem Reach.counts {ok : Machine → Event → Prop} (h : Reach allocs ok m) :
    AllCount m.k.family := by
  have hboot : AllCount (boot allocs).k.family := by
    intro p f hf
    obtain ⟨b, hb, rfl⟩ := family_eq_some.mp hf
    rcases boot_live hb with ⟨_, rfl⟩ | ⟨_, rfl⟩ <;> exact PCB.counts_iff.mpr (by decide)
  refine h.machine (P := fun m => AllCount m.k.family) hboot ?_ ?_
  · intro off m' hi
    rw [(interrupt_unmoved boot_core hi).family]
    exact hboot
  · exact fun R A _ hs => R.counts_step A hs

/-! ## 2. The queue of a new process -/

/-- The allocation of the node follows that of the queue of a semaphore. -/
theorem countChild_allocs (hp : getProcess k p = some p) (hb : k.procs p = some b)
    (hid : b.childrenSem = -1 ∨ 0 ≤ b.childrenSem) (h : countChild k p = some k') :
    k'.queue = k.queue ∧ k'.currentProcess = k.currentProcess ∧ k'.idleProcess = k.idleProcess ∧
      (OpensSem k p → k'.allocs 0 = k.allocs 1) ∧ (¬ OpensSem k p → k'.allocs 0 = k.allocs 0) := by
  have hopens : (OpensSem k p ↔ b.childrenSem = -1 ∧
      ∃ id, Machine.SemIdOk id ∧ (k.sems id).used = false) := by
    simp [OpensSem, hb]
  rcases countChild_cases hp hb hid h with ⟨hpos, rfl⟩ |
    ⟨hneg, ⟨hall, rfl⟩ | ⟨id, hok, hu, _, ⟨_, rfl⟩ | ⟨_, rfl⟩⟩⟩
  · refine ⟨rfl, rfl, rfl, fun ho => ?_, fun _ => rfl⟩
    rw [(hopens.mp ho).1] at hpos
    exact absurd hpos (by decide)
  · refine ⟨rfl, rfl, rfl, fun ho => ?_, fun _ => rfl⟩
    obtain ⟨_, id, hok, hu⟩ := hopens.mp ho
    cases hu.symm.trans (hall id hok)
  · exact ⟨rfl, rfl, rfl, fun _ => rfl, fun hno => absurd (hopens.mpr ⟨hneg, id, hok, hu⟩) hno⟩
  · exact ⟨rfl, rfl, rfl, fun _ => rfl, fun hno => absurd (hopens.mpr ⟨hneg, id, hok, hu⟩) hno⟩

theorem enqueue_queue {q : QueueName} : (k.enqueue q p).queue =
    if k.allocs 0 = true then Function.update k.queue q (k.queue q ++ [p]) else k.queue := by
  unfold Kernel.enqueue Kernel.allocMemory
  dsimp only
  split <;> rfl

/-- Only a process with another priority than that of idle is meant for the ready queue. -/
theorem addUnlessIdle_queue (E : Executing k c) : (addUnlessIdle k b).queue =
    if b.priority ≠ idlePriority ∧ k.allocs 0 = true then
      Function.update k.queue .ready (k.queue .ready ++ [b.pid])
    else k.queue := by
  unfold addUnlessIdle addProcess
  split
  · next hprio =>
    have hbusy : ¬ (k.currentProcess = none ∨ k.currentProcess = k.idleProcess) := by
      rintro (hnone | hidle)
      · cases hnone.symm.trans E.current
      · exact E.notIdle hidle
    simp only [if_neg hbusy, enqueue_queue, hprio, ne_eq, not_false_eq_true, true_and]
  · next hprio =>
    rw [if_neg fun h => hprio h.1]

theorem newPCB_priority : (newPCB k args).priority ≠ idlePriority ↔ args.priority ≠ 6 := by
  unfold newPCB idlePriority maxPriority
  dsimp only
  split <;> omega

/-- A new process is put at the end of the queue it is meant for, or in none. -/
theorem createProcess_spot (C : Core k) (E : Executing k c) (hready : c ∈ k.queue .ready)
    (A : AllCount k.family) (hmade : ¬ Refuses k args)
    (h : createProcess k args = some (k', flow)) :
    flow = .ret k.nextPid ∧
      ((Enqueues k args ∧ ∃ q, (q = .ready ∨ q = .blocked) ∧
          k'.queue = Function.update k.queue q (k.queue q ++ [k.nextPid])) ∨
        ¬ Enqueues k args ∧ k'.queue = k.queue) := by
  obtain ⟨r, hplace, rfl⟩ := createProcess_made hmade h
  have hpid : (newPCB k args).pid > 1 := Int.lt_of_lt_of_le (by decide) C.nextPid
  obtain ⟨rfl, hcases⟩ := placeProcess_cases hpid hplace
  refine ⟨rfl, ?_⟩
  rcases hcases with ⟨hbg, rfl⟩ | ⟨hfg, b1, k2, _, _, hcount, rfl⟩
  · have henq : Enqueues k args ↔ k.allocs 2 = true := by rw [Enqueues, if_pos hbg]
    rw [enqueue_queue, henq]
    by_cases ha : k.allocs 2 = true
    · exact .inl ⟨ha, .blocked, .inr rfl, if_pos ha⟩
    · exact .inr ⟨ha, if_neg ha⟩
  · have hne : c ≠ k.nextPid := Int.ne_of_lt (C.lt_nextPid hready)
    have hparent : (newPCB k args).parentPid = c := getCurrentPid_eq E.current
    obtain ⟨bc, hbc, _⟩ := C.member _ c hready
    have h0 : c > 0 := Int.lt_iff_le_and_ne.mpr ⟨(C.pcb c bc hbc).2.1, (C.ne_zero hready).symm⟩
    rw [hparent] at hcount
    -- the third or the fourth allocation is that of the node
    have hnode : k2.queue = k.queue ∧ Executing k2 c ∧
        (Enqueues k args ↔ args.priority ≠ 6 ∧ k2.allocs 0 = true) := by
      rw [Enqueues, if_neg hfg, getCurrentPid_eq E.current]
      split at hcount
      · next hcounts =>
        have hbc' : (withNewStack k args b1).procs c = some bc :=
          (withNewStack_procs hne).trans hbc
        have hfound : getProcess (withNewStack k args b1) c = some c :=
          getProcess_of_placed ⟨.ready, hready⟩
        obtain ⟨hq, hcur, hidle, hopens, hno⟩ :=
          countChild_allocs hfound hbc' ((A.pcb hbc).2.imp_right And.left) hcount
        have hsame : OpensSem (withNewStack k args b1) c ↔ OpensSem k c := by
          rw [OpensSem, hbc', OpensSem, hbc]
          rfl
        rw [hsame] at hopens hno
        refine ⟨hq, ⟨hcur.trans E.current, by rw [hcur, hidle]; exact E.notIdle⟩, ?_⟩
        refine and_congr_right fun _ => ?_
        by_cases ho : OpensSem k c
        · rw [hopens ho]
          simp [hcounts.1, ho]
          rfl
        · rw [hno ho]
          simp [hcounts.1, ho]
          rfl
      · next hcounts =>
        cases hcount
        have hbg : args.foreground = false := eq_false_of_ne_true fun hfg' => hcounts ⟨hfg', h0⟩
        refine ⟨rfl, ⟨E.current, E.notIdle⟩, ?_⟩
        refine and_congr_right fun _ => ?_
        simp only [hbg, Bool.false_eq_true, false_and, false_imp_iff, not_false_eq_true,
          true_imp_iff, true_and]
        exact Iff.rfl
    obtain ⟨hq, E2, henq⟩ := hnode
    rw [addUnlessIdle_queue E2, hq, henq]
    by_cases hin : (newPCB k args).priority ≠ idlePriority ∧ k2.allocs 0 = true
    · exact .inl ⟨⟨newPCB_priority.mp hin.1, hin.2⟩, .ready, .inl rfl, if_pos hin⟩
    · exact .inr ⟨fun h => hin ⟨newPCB_priority.mpr h.1, h.2⟩, if_neg hin⟩

/-! ## 3. Killing a child -/

/-- A last child that dies finds the semaphore of its parent as `semInit` left it. -/
def Kernel.CanUncount (k : Kernel) (parent : Pid) : Prop :=
  ∀ b, k.procs parent = some b → 0 ≤ b.childrenSem → b.childrenCount = 1 →
    k.semManager = true ∧ Machine.SemIdOk b.childrenSem ∧
      k.sems b.childrenSem = ⟨0, false, true, .live []⟩

theorem Kernel.CanUncount.congr (h : k.CanUncount p) (hp : k'.procs p = k.procs p)
    (hs : k'.sems = k.sems) (hm : k'.semManager = k.semManager) : k'.CanUncount p := by
  unfold CanUncount
  rw [hp, hs, hm]
  exact h

theorem uncountChild_returns (hp : getProcess k p = some p) (hb : k.procs p = some b)
    (hc : k.CanUncount p) : ∃ k', uncountChild k p = some k' := by
  unfold uncountChild
  simp only [hp, hb, Option.bind_eq_bind, Option.bind_some]
  split
  · next hpos =>
    split
    · next hlast =>
      obtain ⟨hm, hok, hs⟩ := hc b hb hpos (Int.sub_eq_zero.mp hlast)
      have hrange : ¬ (b.childrenSem < 0 ∨ numSems ≤ b.childrenSem) :=
        not_or.mpr ⟨Int.not_lt.mpr hok.1, Int.not_le.mpr hok.2⟩
      -- `semPost` finds nobody in the queue, and `semClose` frees it
      simp [semPost, post, accessSem, hm, hok.1, hok.2, hs, acquire, release, semClose, hrange,
        Kernel.setPCB, Kernel.setSem, Kernel.observe]
    · exact ⟨_, rfl⟩
  · exact ⟨_, rfl⟩

/-- The parent `c` of a process in a queue can kill it. -/
theorem kill_child {r : Nat} {q : QueueName} (C : Core k) (S : Settled k c) (h0 : c ≠ 0)
    (hpc : p ≠ c) (h2 : 2 ≤ p) (hq : q = .ready ∨ q = .blocked) (hp : p ∈ k.queue q)
    (hb : k.procs p = some b) (hparent : b.parentPid = c)
    (hcount : b.foreground = true → k.CanUncount c) :
    ∃ k', kill k p r = some (k', .ret 0) := by
  obtain ⟨bc, hbc, _⟩ := S.running
  have hc0 : c > 0 := Int.lt_iff_le_and_ne.mpr ⟨(C.pcb c bc hbc).2.1, h0.symm⟩
  have hcur : k.currentProcess ≠ some p := by
    rw [S.current]
    exact fun h => hpc (Option.some.inj h).symm
  obtain ⟨k1, hk1⟩ : ∃ k1, killProcess k p r .ZOMBIE = some (k1, true) := by
    have hleave : leaveCurrent k p = k := by simp [leaveCurrent, hcur]
    unfold killProcess
    rw [hleave]
    have hsome : ((switchProcessFromQueues k .ready .zombie p).or
        ((switchProcessFromQueues k .blocked .zombie p).or
          (switchProcessFromQueues k .blockedBySem .zombie p))).isSome = true := by
      rcases hq with rfl | rfl <;> simp [switchProcessFromQueues, hp]
    obtain ⟨k2, hk2⟩ := Option.isSome_iff_exists.mp hsome
    have hprocs : k2.procs p = some b := by
      rcases Option.or_eq_some_iff.mp hk2 with h | ⟨_, h⟩
      · rw [(switchProcessFromQueues_cases h (by decide)).2]
        exact hb
      · rcases Option.or_eq_some_iff.mp h with h | ⟨_, h⟩ <;>
          rw [(switchProcessFromQueues_cases h (by decide)).2] <;> exact hb
    simp [hk2, leaveForeground, hprocs]
  rcases killProcess_cases (fun h => absurd h hcur) hk1 with ⟨hfalse, _⟩ | ⟨_, hdie⟩
  · cases hfalse
  · have C1 := C.effect hdie
    have S1 := S.effect C hdie hpc
    have hfam : (k1.setStack p false).family p = some b.family := by
      rw [hdie.family trivial]
      exact family_eq_some.mpr ⟨b, hb, rfl⟩
    obtain ⟨b1, hb1, hb1f⟩ := family_eq_some.mp hfam
    have hb1 : k1.procs p = some b1 := hb1
    have hparent1 : b1.parentPid = c := (congrArg Family.parentPid hb1f).trans hparent
    have hfg1 : b1.foreground = b.foreground := congrArg Family.foreground hb1f
    -- the parent is not blocked, and its books can be written
    obtain ⟨k2, hk2⟩ : ∃ k2, (if b1.parentPid > 0 ∧ b1.foreground then
        uncountChild (k1.setStack p false) b1.parentPid else some (k1.setStack p false)) =
          some k2 := by
      split
      · next hfg =>
        obtain ⟨b1c, hb1c, _⟩ := S1.running
        rw [hparent1]
        refine uncountChild_returns (if_pos (.inr (.inr (.inr (.inr (.inl S1.current)))))) hb1c ?_
        have hsame : (k1.setStack p false).procs c = k.procs c ∧
            (k1.setStack p false).sems = k.sems ∧
              (k1.setStack p false).semManager = k.semManager := by
          generalize k1.setStack p false = k1' at hdie
          cases hdie
          exact ⟨Function.update_of_ne hpc.symm _ _, rfl, rfl⟩
        exact (hcount (hfg1 ▸ hfg.2)).congr hsame.1 hsame.2.1 hsame.2.2
      · exact ⟨_, rfl⟩
    have e2 := uncountParent_effects hk2
    have C2 := C1.effects e2
    have S2 : Settled k2 c := S1.effects C1 (e2.mono fun l hl => ⟨hl, by
      rcases hl with ⟨_, rfl⟩ | ⟨_, rfl⟩ | ⟨_, ⟨_, rfl⟩ | ⟨_, rfl⟩ | rfl⟩ <;> exact not_false⟩)
    obtain ⟨b2c, hb2c, hrun⟩ := S2.running
    have hwake : wakeUpWaitingParent k2 b1.parentPid p = some k2 := by
      have hneg : c ≠ -1 := fun h => by
        rw [h] at hc0
        exact absurd hc0 (by decide)
      have hfound : getProcess k2 c = some c :=
        if_pos (.inr (.inr (.inr (.inr (.inl S2.current)))))
      rw [hparent1]
      simp [wakeUpWaitingParent, hneg, C2.idle, h0, hfound, hb2c, hrun]
    have hz : p ∈ k2.queue .zombie := by
      rw [(e2.mono fun _ => Label.Uncounting.mourning).mourning.1]
      exact hdie.mem_zombie
    obtain ⟨b2, hb2, _⟩ := C2.member _ p hz
    have hreap : ∃ k3, freeChild k2 p = some k3 := by
      simp [freeChild, reapCild, hb2]
    obtain ⟨k3, hk3⟩ := hreap
    have hpid : ¬ p = k3.currentPid := by
      rw [(freeChild_effect hz hk3).constant.currentPid, S2.currentPid]
      exact hpc
    refine ⟨k3, ?_⟩
    unfold kill
    rw [if_neg (Int.not_le.mpr h2)]
    simp only [hk1, Option.bind_eq_bind, Option.bind_some, Bool.not_true, Bool.false_eq_true,
      if_false, hb1, hk2, hwake, hb2, C2.idle, if_pos (C2.parent p b2 hb2 h2), hk3, if_neg hpid]

/-- A process that was killed is not found again. -/
theorem kill_gone {r : Nat} (C : Core k) (S : Settled k c) (hpc : p ≠ c)
    (h : kill k p r = some (k', .ret 0)) : getProcess k' p = none ∧ k'.procs p = none := by
  have hcur : k.currentProcess = some p → p ∈ k.queue .ready ∨ p = 0 := fun hp =>
    absurd (Option.some.inj (S.current.symm.trans hp)).symm hpc
  have hends := kill_ends C S.currentPid hcur h
  have C' := C.effects hends.effects
  have S' : Settled k' c := S.effects C (hends.ret _ rfl)
  rcases kill_parts C S.currentPid hcur h with
    ⟨_, hflow, _⟩ | ⟨h2, k1, k2, k3, k4, b, _, _, _, _, hreap, ⟨rfl, _⟩ | ⟨_, rfl, _⟩⟩
  · cases hflow
  · exact absurd rfl hpc
  · have hnone : k'.procs p = none := by
      cases hreap
      exact Function.update_self _ _ _
    have hout : ∀ q, p ∉ k'.queue q := by
      intro q hq
      obtain ⟨b', hb', _⟩ := C'.member q p hq
      cases hnone.symm.trans hb'
    refine ⟨if_neg ?_, hnone⟩
    rintro (hq | hq | hq | hq | hc | hi)
    · exact hout _ hq
    · exact hout _ hq
    · exact hout _ hq
    · exact hout _ hq
    · exact hpc (Option.some.inj (S'.current.symm.trans hc)).symm
    · obtain rfl := Option.some.inj (C'.idle.symm.trans hi)
      exact absurd h2 (by decide)

theorem enqueue_stores {q : QueueName} : (k.enqueue q p).procs = k.procs ∧
    (k.enqueue q p).sems = k.sems ∧ (k.enqueue q p).semManager = k.semManager := by
  unfold Kernel.enqueue Kernel.allocMemory
  dsimp only
  split <;> exact ⟨rfl, rfl, rfl⟩

theorem addUnlessIdle_stores : (addUnlessIdle k b).procs = k.procs ∧
    (addUnlessIdle k b).sems = k.sems ∧ (addUnlessIdle k b).semManager = k.semManager := by
  unfold addUnlessIdle addProcess
  split
  · dsimp only
    split <;> exact enqueue_stores
  · exact ⟨rfl, rfl, rfl⟩

/-- A counted child is not the first of a semaphore that others have used. -/
theorem countChild_kin (A : AllCount k.family) (hp : getProcess k c = some c)
    (hb : k.procs c = some b) (h : countChild k c = some k') :
    k'.CanUncount c ∧ ∀ x, x ≠ c → k'.procs x = k.procs x := by
  obtain ⟨hcount, hsem⟩ := A.pcb hb
  have hneg : b.childrenSem = -1 → k.CanUncount c := by
    intro hneg b' hb' hpos
    obtain rfl := Option.some.inj (hb.symm.trans hb')
    rw [hneg] at hpos
    exact absurd hpos (by decide)
  rcases countChild_cases hp hb (hsem.imp_right And.left) h with ⟨hpos, rfl⟩ |
    ⟨hno, ⟨_, rfl⟩ | ⟨id, hok, _, hm, ⟨_, rfl⟩ | ⟨_, rfl⟩⟩⟩
  · refine ⟨fun b' hb' _ hone => ?_, fun x hx => Function.update_of_ne hx _ _⟩
    -- there was a child before
    have hmore : 1 ≤ b.childrenCount := by
      rcases hsem with hno | ⟨_, h1⟩
      · rw [hno] at hpos
        exact absurd hpos (by decide)
      · exact h1
    rw [setPCB_procs, Function.update_self] at hb'
    obtain rfl := Option.some.inj hb'
    have hone : b.childrenCount + 1 = 1 := hone
    exact absurd hmore (by omega)
  · exact ⟨hneg hno, fun _ _ => rfl⟩
  · refine ⟨fun b' hb' _ _ => ?_, fun x hx => Function.update_of_ne hx _ _⟩
    rw [setPCB_procs, Function.update_self] at hb'
    obtain rfl := Option.some.inj hb'
    exact ⟨hm, hok, Function.update_self _ _ _⟩
  · refine ⟨fun b' hb' hpos _ => ?_, fun _ _ => rfl⟩
    obtain rfl := Option.some.inj (hb.symm.trans hb')
    rw [hno] at hpos
    exact absurd hpos (by decide)

/-- A new process is the child of its creator, who can count its death. -/
theorem createProcess_kin (C : Core k) (E : Executing k c) (hready : c ∈ k.queue .ready)
    (A : AllCount k.family) (hmade : ¬ Refuses k args)
    (h : createProcess k args = some (k', flow)) :
    (∃ b, k'.procs k.nextPid = some b ∧ b.parentPid = c ∧ b.foreground = args.foreground) ∧
      (args.foreground = true → k'.CanUncount c) := by
  obtain ⟨r, hplace, rfl⟩ := createProcess_made hmade h
  have hpid : (newPCB k args).pid > 1 := Int.lt_of_lt_of_le (by decide) C.nextPid
  have hparent : (newPCB k args).parentPid = c := getCurrentPid_eq E.current
  rcases (placeProcess_cases hpid hplace).2 with
    ⟨⟨hbg, _⟩, rfl⟩ | ⟨_, b1, k2, hsame, _, hcount, rfl⟩
  · refine ⟨⟨{ newPCB k args with stdout := args.stdout, state := .BLOCKED }, ?_, hparent, rfl⟩,
      fun hfg => Bool.noConfusion (hbg.symm.trans hfg)⟩
    rw [enqueue_stores.1]
    exact Function.update_self _ _ _
  · have hself : (withNewStack k args b1).procs k.nextPid = some b1 := Function.update_self _ _ _
    have hb1 : b1.parentPid = c ∧ b1.foreground = args.foreground :=
      ⟨hsame.parentPid.trans hparent, hsame.foreground⟩
    obtain ⟨hprocs, hsems, hm⟩ := addUnlessIdle_stores (k := k2) (b := newPCB k args)
    rw [hparent] at hcount
    split at hcount
    · have hne : c ≠ k.nextPid := Int.ne_of_lt (C.lt_nextPid hready)
      obtain ⟨bc, hbc, _⟩ := C.member _ c hready
      have hA : AllCount (withNewStack k args b1).family :=
        withNewStack_counts E A hsame.childrenSem hsame.childrenCount
      obtain ⟨hcan, hothers⟩ := countChild_kin hA (getProcess_of_placed ⟨.ready, hready⟩)
        ((withNewStack_procs hne).trans hbc) hcount
      refine ⟨⟨b1, ?_, hb1⟩, fun _ => hcan.congr (by rw [hprocs]) hsems hm⟩
      rw [hprocs, hothers _ hne.symm]
      exact hself
    · next hno =>
      cases hcount
      obtain ⟨bc, hbc, _⟩ := C.member _ c hready
      have h0 : c > 0 :=
        Int.lt_iff_le_and_ne.mpr ⟨(C.pcb c bc hbc).2.1, (C.ne_zero hready).symm⟩
      refine ⟨⟨b1, ?_, hb1⟩, fun hfg => absurd ⟨hfg, h0⟩ hno⟩
      rw [hprocs]
      exact hself

/-! ## 4. Ghosts -/

theorem count_appended {q : QueueName} (C : Core k) (hq : q = .ready ∨ q = .blocked)
    (hk : k'.queue = Function.update k.queue q (k.queue q ++ [k.nextPid])) :
    (k'.queue .ready ++ k'.queue .blocked).count k.nextPid = 1 := by
  have hout : ∀ q, (k.queue q).count k.nextPid = 0 :=
    fun q => List.count_eq_zero.mpr (C.nextPid_outside q)
  rcases hq with rfl | rfl <;> simp [hk, hout]

/-- A call that returns hands out no ghost exactly if it is refused or there is a queue, with
memory for its node, for the new process. -/
theorem no_ghost_iff (h : Reach allocs Run.anyEvent m) (hcalls : m.Calls)
    (hc : createProcess m.k args = some (k', .ret v)) :
    NoGhost m.k k' v ↔ Refuses m.k args ∨ Enqueues m.k args := by
  rcases h.cases with rfl | ⟨c, R⟩
  · cases hcalls.2.1
  have B := Machine.Busy.of_calls R.toOnCpu hcalls
  have C := R.core
  by_cases hrefused : Refuses m.k args
  · obtain ⟨hv, hsame⟩ := createProcess_untouched C hrefused hc
    cases hv
    exact iff_of_true ⟨fun h => absurd h (by decide), fun _ => hsame⟩ (.inl hrefused)
  obtain ⟨hv, hspot⟩ := createProcess_spot C B.executing B.ready h.counts hrefused hc
  cases hv
  have h2 : 2 ≤ m.k.nextPid := C.nextPid
  have h0 : 0 ≤ m.k.nextPid := Int.le_trans (by decide) h2
  have hne : m.k.nextPid ≠ -1 := fun h => by
    rw [h] at h0
    exact absurd h0 (by decide)
  rcases hspot with ⟨henq, q, hq, hqueue⟩ | ⟨hno, hqueue⟩
  · refine iff_of_true ⟨fun _ => ?_, fun h => absurd h hne⟩ (.inr henq)
    have hmem : m.k.nextPid ∈ k'.queue q := by
      rw [hqueue, Function.update_self]
      simp
    have he := (createProcess_effects C B.executing hc).1
    have C' : Core k' := C.effects he
    have S' : Settled k' c := R.settled.effects C (he.mono fun l hl => ⟨hl, by
      rcases hl with (rfl | ⟨_, rfl⟩ | ⟨_, rfl⟩) | rfl | rfl | rfl <;> exact not_false⟩)
    have hpc : m.k.nextPid ≠ c := fun h => C.nextPid_unused.1 (h ▸ B.executing.current)
    obtain ⟨⟨b, hb, hparent, hfg⟩, hcan⟩ :=
      createProcess_kin C B.executing B.ready h.counts hrefused hc
    refine ⟨count_appended C hq hqueue, getProcess_of_placed ⟨q, hmem⟩, fun r => ?_⟩
    obtain ⟨k2, hkill⟩ := kill_child (r := r) C' S' (C.ne_zero B.ready) hpc h2 hq hmem hb hparent
      fun h => hcan (hfg ▸ h)
    exact ⟨k2, hkill, kill_gone C' S' hpc hkill⟩
  · refine iff_of_false (fun hghost => ?_) fun h => h.elim hrefused hno
    have hout : m.k.nextPid ∉ m.k.queue .ready ++ m.k.queue .blocked :=
      fun hin => (List.mem_append.mp hin).elim (C.nextPid_outside _) (C.nextPid_outside _)
    have hcount := (hghost.1 h0).placed
    rw [hqueue, List.count_eq_zero.mpr hout] at hcount
    cases hcount

/-- The shell runs, and creates a process that does not read from the terminal. -/
theorem no_ghost_in_background :
    ∃ m k', Reach (fun _ => true) Run.anyEvent m ∧
      createProcess m.k backgroundArgs = some (k', .ret 2) ∧ NoGhost m.k k' 2 := by
  obtain ⟨m, _, hm, hcalls, hcreate, ha⟩ :
      ∃ m, Run.exec Machine.step Run.anyEvent (boot fun _ => true) [.tick 0] = some m ∧
        Reach (fun _ => true) Run.anyEvent m ∧ m.Calls ∧
        (createProcess m.k backgroundArgs).map Prod.snd = some (.ret 2) ∧ m.k.allocs 2 = true :=
    Run.exists_exec (by decide +kernel)
  obtain ⟨⟨k', flow⟩, hcreate, rfl⟩ := Option.map_eq_some_iff.mp hcreate
  have henq : Enqueues m.k backgroundArgs := by
    rw [Enqueues, if_neg (by decide)]
    exact ⟨by decide, fun h => Bool.noConfusion h.1, fun _ => ha⟩
  exact ⟨m, k', hm, hcreate, (no_ghost_iff hm hcalls hcreate).mpr (.inr henq)⟩

/-- A process with the priority of idle gets a pid and no queue, and so does one whose node
cannot be allocated. -/
theorem ghosts :
    (∃ m k', Reach (fun _ => true) Run.anyEvent m ∧ m.Calls ∧
        createProcess m.k { backgroundArgs with priority := 6 } = some (k', .ret 2) ∧
        ¬ NoGhost m.k k' 2) ∧
      ∃ m k', Reach (fun n => n != 2) Run.anyEvent m ∧ m.Calls ∧
        createProcess m.k backgroundArgs = some (k', .ret 2) ∧ ¬ NoGhost m.k k' 2 := by
  have hghost : ∀ {k k' : Kernel}, getProcess k' 2 = none → ¬ NoGhost k k' 2 := by
    intro k k' hnone h
    cases hnone.symm.trans (h.1 (by decide)).found
  have hrun : ∀ {allocs args}, (∃ m, Run.exec Machine.step Run.anyEvent (boot allocs) [.tick 0] =
      some m ∧ Reach allocs Run.anyEvent m ∧ m.Calls ∧ (createProcess m.k args).map (fun r =>
        (r.2, getProcess r.1 2)) = some (.ret 2, none)) →
      ∃ m k', Reach allocs Run.anyEvent m ∧ m.Calls ∧ createProcess m.k args = some (k', .ret 2) ∧
        ¬ NoGhost m.k k' 2 := by
    rintro allocs args ⟨m, _, hm, hcalls, hcreate⟩
    obtain ⟨⟨k', flow⟩, hcreate, heq⟩ := Option.map_eq_some_iff.mp hcreate
    obtain ⟨rfl, hnone⟩ := Prod.mk.inj heq
    exact ⟨m, k', hm, hcalls, hcreate, hghost hnone⟩
  exact ⟨hrun (Run.exists_exec (by decide +kernel)), hrun (Run.exists_exec (by decide +kernel))⟩

end

end SoKernel
