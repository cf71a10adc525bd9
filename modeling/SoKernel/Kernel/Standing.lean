import SoKernel.Kernel.RoundRobin
import SoKernel.Lib.Kept

/-!
# What a process is given at birth

Its priority and its descriptors. `createProcessOnPCB` writes them, and after that nobody but
`changePrio`, which writes the priority.

Results:
1. `Steady`: the functions that leave all of this alone.
2. `Stable.step`: what every kernel function preserves, a step of the machine preserves.
3. `Stable.of_steady`: so it is enough to look at the dispatcher and at the two functions above.
-/

namespace SoKernel

/-- The fields of a PCB that only its birth and `changePrio` write. -/
structure SameStanding (b b' : PCB) : Prop where
  priority : b'.priority = b.priority
  stdin : b'.stdin = b.stdin
  stdout : b'.stdout = b.stdout

/-- Those who live now lived before, with the same standing. -/
def Lasts (k k' : Kernel) : Prop :=
  ∀ p b', k'.procs p = some b' → ∃ b, k.procs p = some b ∧ SameStanding b b'

/-- How often the CPU has been given away. -/
def Kernel.handovers (k : Kernel) : Nat := k.log.countP Obs.isSwitched

/-- Nobody is born or dispatched, those who live keep their standing, and the turn goes on or is
given up. -/
structure Steady (k k' : Kernel) : Prop where
  pcb : Lasts k k'
  quantum : k'.quantum = k.quantum ∨ k'.quantum = 0
  handovers : k'.handovers = k.handovers

section

variable {k k1 k' : Kernel} {p : Pid} {b b' : PCB}

theorem Lasts.of_same (hp : k'.procs = k.procs) : Lasts k k' :=
  fun _ b h => ⟨b, hp ▸ h, rfl, rfl, rfl⟩

theorem Lasts.trans (h : Lasts k k1) (h' : Lasts k1 k') : Lasts k k' := by
  intro p b' hb'
  obtain ⟨b1, hb1, s1⟩ := h' p b' hb'
  obtain ⟨b, hb, s⟩ := h p b1 hb1
  exact ⟨b, hb, s1.priority.trans s.priority, s1.stdin.trans s.stdin, s1.stdout.trans s.stdout⟩

/-- A PCB is written, and other data of the kernel. -/
theorem Lasts.write (h : Lasts k k1) (hb : k.procs p = some b)
    (hp : k'.procs = Function.update k1.procs p (some b')) (hs : SameStanding b b') :
    Lasts k k' := by
  intro x b2 hx
  rw [hp] at hx
  rcases eq_or_ne x p with rfl | hne
  · obtain rfl : b' = b2 := by simpa using hx
    exact ⟨b, hb, hs⟩
  · exact h x b2 (by simpa [hne] using hx)

/-- A PCB is freed. -/
theorem Lasts.free (h : Lasts k k1) (hp : k'.procs = Function.update k1.procs p none) :
    Lasts k k' := by
  intro x b2 hx
  rw [hp] at hx
  rcases eq_or_ne x p with rfl | hne
  · simp at hx
  · exact h x b2 (by simpa [hne] using hx)

namespace Steady

theorem of_same (hp : k'.procs = k.procs) (hq : k'.quantum = k.quantum ∨ k'.quantum = 0)
    (hl : k'.handovers = k.handovers) : Steady k k' := ⟨.of_same hp, hq, hl⟩

theorem refl (k : Kernel) : Steady k k := .of_same rfl (.inl rfl) rfl

theorem trans (h : Steady k k1) (h' : Steady k1 k') : Steady k k' := by
  refine ⟨h.pcb.trans h'.pcb, ?_, h'.handovers.trans h.handovers⟩
  rcases h'.quantum with hq | hq
  · exact hq ▸ h.quantum
  · exact .inr hq

instance : IsTrans Kernel Steady := ⟨fun _ _ _ => Steady.trans⟩

theorem write (h : Steady k k1) (hb : k.procs p = some b)
    (hp : k'.procs = Function.update k1.procs p (some b')) (hq : k'.quantum = k1.quantum)
    (hl : k'.handovers = k1.handovers) (hs : SameStanding b b') : Steady k k' :=
  ⟨h.pcb.write hb hp hs, hq ▸ h.quantum, hl.trans h.handovers⟩

theorem free (h : Steady k k1) (hp : k'.procs = Function.update k1.procs p none)
    (hq : k'.quantum = k1.quantum) (hl : k'.handovers = k1.handovers) : Steady k k' :=
  ⟨h.pcb.free hp, hq ▸ h.quantum, hl.trans h.handovers⟩

end Steady

end

/-- Whatever the function answers, the standing of everybody is the same. -/
abbrev SteadyIn {α : Type} (k : Kernel) (o : Option (Kernel × α)) : Prop :=
  KeptBy Steady Prod.fst k o

/-- A function with a kernel for its only result. -/
abbrev SteadyOnly (k : Kernel) (o : Option Kernel) : Prop := KeptBy Steady id k o

section

variable {k : Kernel} {p : Pid}

theorem observe_steady {o : Obs} (ho : o.isSwitched = false) : Steady k (k.observe o) := by
  refine .of_same rfl (.inl rfl) ?_
  show (o :: k.log).countP Obs.isSwitched = _
  exact List.countP_cons_of_neg (by simp [ho])

/-! ## The process manager -/

theorem switch_steady {k' : Kernel} {f t : QueueName}
    (h : switchProcessFromQueues k f t p = some k') : k'.procs = k.procs ∧ Steady k k' := by
  unfold switchProcessFromQueues at h
  split at h
  · cases h
    exact ⟨rfl, .of_same rfl (.inl rfl) rfl⟩
  · cases h

theorem moveProcess_steady {f t : QueueName} {st : State} :
    SteadyIn k (moveProcess k f t p st) := by
  unfold moveProcess
  split
  · exact .some (.refl k)
  · next k1 h =>
    obtain ⟨hprocs, hs⟩ := switch_steady h
    refine .seen fun b hb => ?_
    rw [hprocs] at hb
    exact .some (hs.write hb rfl rfl rfl ⟨rfl, rfl, rfl⟩)

theorem unblockProcess_steady : SteadyIn k (unblockProcess k p) :=
  .bind moveProcess_steady fun _ h => .some h

theorem yieldIfCurrent_steady (k : Kernel) (p : Pid) : Steady k (yieldIfCurrent k p).1 := by
  unfold yieldIfCurrent
  split
  · exact .of_same rfl (.inr rfl) rfl
  · exact .refl k

/-- Move the process, and yield if it is the current one. -/
theorem blocked_steady {o : Option (Kernel × Bool)} (h : SteadyIn k o) :
    SteadyIn k (o.bind fun r => some (if r.2 then yieldIfCurrent r.1 p else (r.1, .ret (-1)))) := by
  refine .bind h fun r hr => .some ?_
  split
  · exact hr.trans (yieldIfCurrent_steady r.1 p)
  · exact hr

theorem blockProcess_steady : SteadyIn k (blockProcess k p) := by
  refine blocked_steady ?_
  unfold blockProcessQueue
  split
  · exact .some (.refl k)
  · split
    · exact .some (.refl k)
    · exact moveProcess_steady

theorem blockProcessBySem_steady : SteadyIn k (blockProcessBySem k p) :=
  blocked_steady moveProcess_steady

theorem killProcess_steady {ret : Nat} {st : State} : SteadyIn k (killProcess k p ret st) := by
  unfold killProcess
  dsimp only
  split
  · exact .some (.of_same rfl (.inl rfl) rfl)
  · next k1 h =>
    have hleave : Steady k (leaveCurrent k p) := .of_same rfl (.inl rfl) rfl
    obtain ⟨hprocs, hs⟩ : k1.procs = (leaveCurrent k p).procs ∧ Steady (leaveCurrent k p) k1 := by
      rcases Option.or_eq_some_iff.mp h with h | ⟨-, h⟩
      · exact switch_steady h
      · rcases Option.or_eq_some_iff.mp h with h | ⟨-, h⟩
        · exact switch_steady h
        · exact switch_steady h
    refine .seen fun b hb => ?_
    have hb0 : k.procs p = some b := (congrFun hprocs p).symm.trans hb
    exact .some ((hleave.trans hs).write hb0 rfl rfl rfl ⟨rfl, rfl, rfl⟩)

/-! ## Semaphores -/

theorem semInit_steady {id : Int} {v : Nat} : SteadyIn k (semInit k id v) := by
  unfold semInit
  split
  · exact .some (.refl k)
  · refine .look fun sem => ?_
    split
    · exact .some (.refl k)
    · dsimp only
      split <;> exact .some (.of_same rfl (.inl rfl) rfl)

theorem semClose_steady {id : Int} : SteadyIn k (semClose k id) := by
  unfold semClose
  split
  · exact .some (.refl k)
  · refine .look fun sem => ?_
    split
    · exact .some (.refl k)
    · split
      · exact .none
      · exact .some (.of_same rfl (.inl rfl) rfl)
      · exact .some (.of_same rfl (.inl rfl) rfl)

theorem semPost_steady {id : Int} : SteadyIn k (semPost k id) := by
  unfold semPost post
  refine .look fun sem => .look fun sem' => ?_
  dsimp only
  split
  · exact .none
  · refine .bind (moveProcess_steady.after (.of_same rfl (.inl rfl) rfl)) fun r h => .some ?_
    show Steady k (Kernel.observe _ _)
    refine .trans (h.trans ?_) (observe_steady ?_)
    · exact .of_same rfl (.inl rfl) rfl
    · split <;> rfl
  · exact .some (.of_same rfl (.inl rfl) rfl)

theorem enqueuePid_steady {s : Sem} : SteadyIn k (enqueuePid k s p) := by
  unfold enqueuePid
  split
  · exact .some (.refl k)
  · exact .none
  · dsimp only
    split <;> exact .some (.of_same rfl (.inl rfl) rfl)

theorem semWait_steady {id : Int} : SteadyIn k (semWait k id) := by
  unfold semWait wait
  refine .look fun sem => .look fun sem' => ?_
  split
  · exact .some (.of_same rfl (.inl rfl) rfl)
  · dsimp only
    split
    · exact .some (.of_same rfl (.inl rfl) rfl)
    · refine .bind (enqueuePid_steady.after (.of_same rfl (.inl rfl) rfl)) fun r h => ?_
      refine .bind (blockProcessBySem_steady.after (h.trans ?_)) fun r' h' => .some h'
      split <;> exact .of_same rfl (.inl rfl) rfl

/-! ## Birth and death -/

theorem openChildrenSem_steady {b : PCB} (hb : k.procs p = some b) :
    SteadyOnly k (openChildrenSem k p b) := by
  unfold openChildrenSem
  split
  · refine .look fun semId => ?_
    split
    · refine .bind semInit_steady fun r h => .some ?_
      split
      · exact h.write hb rfl rfl rfl ⟨rfl, rfl, rfl⟩
      · exact h
    · exact .some (.refl k)
  · exact .some (.refl k)

theorem countChild_steady : SteadyOnly k (countChild k p) := by
  unfold countChild
  split
  · exact .some (.refl k)
  · refine .seen fun b hb => ?_
    refine .bind (openChildrenSem_steady hb) fun k1 h1 => .seen fun b1 hb1 => .some ?_
    split
    · exact h1.trans ((Steady.refl k1).write hb1 rfl rfl rfl ⟨rfl, rfl, rfl⟩)
    · exact h1

theorem freeChild_steady : SteadyOnly k (freeChild k p) := by
  intro k1 hk
  obtain ⟨r, hr, rfl⟩ := Option.map_eq_some_iff.mp hk
  obtain ⟨b, -, hr⟩ := Option.bind_eq_some_iff.mp hr
  cases hr
  exact (Steady.refl k).free rfl rfl rfl

theorem wakeUpWaitingParent_steady {child : Pid} :
    SteadyOnly k (wakeUpWaitingParent k p child) := by
  unfold wakeUpWaitingParent
  split
  · exact .some (.refl k)
  · refine .look fun idle => ?_
    have horphan : SteadyOnly k
        (if p = idle then (getProcess k child).bind (freeChild k) else some k) := by
      split
      · exact .look fun x => freeChild_steady
      · exact .some (.refl k)
    refine .bind horphan fun k1 h1 => ?_
    split
    · exact .some h1
    · refine .look fun b => ?_
      split
      · exact .bind (unblockProcess_steady.after h1) fun r h => .some h
      · exact .some h1

theorem uncountChild_steady : SteadyOnly k (uncountChild k p) := by
  unfold uncountChild
  split
  · exact .some (.refl k)
  · next parent _ =>
    refine .seen fun b hb => ?_
    have hcount : Steady k (k.setPCB parent { b with childrenCount := b.childrenCount - 1 }) :=
      (Steady.refl k).write hb rfl rfl rfl ⟨rfl, rfl, rfl⟩
    split
    · dsimp only
      split
      · refine .bind (semPost_steady.after hcount) fun r h => ?_
        refine .bind (semClose_steady.after h) fun r' h' => .seen fun b' hb' => .some ?_
        exact h'.trans ((Steady.refl r'.1).write hb' rfl rfl rfl ⟨rfl, rfl, rfl⟩)
      · exact .some hcount
    · exact .some (.refl k)

theorem kill_steady {ret : Nat} : SteadyIn k (kill k p ret) := by
  unfold kill
  split
  · exact .some (.refl k)
  · refine .bind killProcess_steady fun r h => ?_
    dsimp only
    split
    · exact .some h
    · refine .look fun process => ?_
      have hstack : Steady k (r.1.setStack p false) := h.trans (.of_same rfl (.inl rfl) rfl)
      have hparent : SteadyOnly k (if process.parentPid > 0 ∧ process.foreground = true then
          uncountChild (r.1.setStack p false) process.parentPid
          else some (r.1.setStack p false)) := by
        split
        · exact uncountChild_steady.after hstack
        · exact .some hstack
      refine .bind hparent fun k1 h1 => ?_
      refine .bind (wakeUpWaitingParent_steady.after h1) fun k2 h2 => ?_
      refine .look fun process' => .look fun idle => ?_
      have hreap : SteadyOnly k
          (if process'.parentPid ≠ idle then freeChild k2 p else some k2) := by
        split
        · exact freeChild_steady.after h2
        · exact .some h2
      refine .bind hreap fun k3 h3 => ?_
      split
      · exact .some (h3.trans (.of_same rfl (.inr rfl) rfl))
      · exact .some h3

theorem reapCild_steady : SteadyIn k (reapCild k p) := by
  unfold reapCild
  exact .look fun b => .some ((Steady.refl k).free rfl rfl rfl)

/-- `waitpid` collects a child: it writes the PCB of the parent first. -/
theorem collect_steady {k1 : Kernel} {c : Pid} (h : Steady k k1) :
    SteadyIn k ((k1.procs c).bind fun b =>
      (reapCild (k1.setPCB c { b with waitingForPid := -1 }) p).bind fun r =>
        some (r.1, WaitFlow.ret r.2.1 (some r.2.2))) := by
  refine .after (.seen fun b hb => ?_) h
  refine .bind (reapCild_steady.after ?_) fun r hr => .some hr
  exact (Steady.refl k1).write hb rfl rfl rfl ⟨rfl, rfl, rfl⟩

theorem waitpidResumed_steady {c : Pid} : SteadyIn k (waitpidResumed k c p) := by
  unfold waitpidResumed
  split
  · exact .some (.refl k)
  · refine .look fun t => ?_
    split
    · exact collect_steady (.refl k)
    · exact .some (.refl k)

theorem waitpid_steady : SteadyIn k (waitpid k p) := by
  unfold waitpid
  dsimp only
  split
  · exact .some (.refl k)
  · split
    · exact .some (.refl k)
    · next current _ =>
      refine .look fun t => .seen fun b hb => ?_
      split
      · exact .some (.refl k)
      · split
        · refine .bind (reapCild_steady.after ?_) fun r h => .some h
          exact (Steady.refl k).write hb rfl rfl rfl ⟨rfl, rfl, rfl⟩
        · split
          · have hwaits : Steady k (k.setPCB current { b with
                waitingForPid := p, state := .BLOCKED }) :=
              (Steady.refl k).write hb rfl rfl rfl ⟨rfl, rfl, rfl⟩
            refine .bind (blockProcess_steady.after hwaits) fun r h => ?_
            split
            · exact .some h
            · split
              · refine .seen fun b' hb' => .some ?_
                exact h.trans ((Steady.refl r.1).write hb' rfl rfl rfl ⟨rfl, rfl, rfl⟩)
              · exact waitpidResumed_steady.after h
          · exact .some (.refl k)

/-! ## Pipes -/

theorem ensurePipeManagerInit_steady (k : Kernel) : Steady k (ensurePipeManagerInit k) := by
  unfold ensurePipeManagerInit
  split
  · exact .refl k
  · exact .of_same rfl (.inl rfl) rfl

theorem createPipe_steady : SteadyIn k (createPipe k) := by
  unfold createPipe
  dsimp only
  have hinit := ensurePipeManagerInit_steady k
  split
  · exact .some hinit
  · refine .bind (semInit_steady.after (hinit.trans (.of_same rfl (.inl rfl) rfl))) fun r h => ?_
    split
    · exact .some h
    · refine .bind (semInit_steady.after h) fun r h => ?_
      split
      · exact .some h
      · refine .bind (semInit_steady.after h) fun r h => ?_
        split
        · exact .some h
        · exact .some (h.trans (.of_same rfl (.inl rfl) rfl))

theorem pipeClose_steady {id : Int} : SteadyIn k (pipeClose k id) := by
  unfold pipeClose
  dsimp only
  have hinit := ensurePipeManagerInit_steady k
  split
  · exact .some hinit
  · split
    · exact .some hinit
    · refine .bind (semClose_steady.after hinit) fun r h => ?_
      refine .bind (semClose_steady.after h) fun r h => ?_
      refine .bind (semClose_steady.after h) fun r h => .some ?_
      exact h.trans (.of_same rfl (.inl rfl) rfl)

end

/-! ## The dispatcher, births and priorities -/

section

variable {k : Kernel} {p : Pid} {b' : PCB}

theorem getNextProcess_steady : SteadyIn k (getNextProcess k) := by
  unfold getNextProcess
  split
  · exact .look fun idle => .some (.of_same rfl (.inl rfl) rfl)
  · refine .look fun b => ?_
    split <;> exact .some (.of_same rfl (.inl rfl) rfl)

/-- The dispatcher counts the turn down, or begins the turn of some process. -/
theorem schedule_lasts {rsp : Sp} {r : Kernel × Sp} (h : schedule k rsp = some r) :
    Lasts k r.1 ∧ (0 < k.quantum ∧ r.1.quantum = k.quantum - 1 ∧ r.1.handovers = k.handovers ∨
      r.1.handovers = k.handovers + 1 ∧
        ∃ p b, k.procs p = some b ∧ r.1.quantum = calculateQuantum b.priority) := by
  obtain ⟨current, _, h⟩ := Option.bind_eq_some_iff.mp h
  obtain ⟨process, hb, h⟩ := Option.bind_eq_some_iff.mp h
  split at h
  · next hq =>
    cases h
    exact ⟨.of_same rfl, .inl ⟨hq.1, rfl, rfl⟩⟩
  · have hsuspend : Lasts k (suspend k current process rsp) :=
      (Steady.refl k).pcb.write hb Core.suspend_procs ⟨rfl, rfl, rfl⟩
    have hswitch : (suspend k current process rsp).handovers = k.handovers + 1 := by
      have hobs : ∀ k : Kernel, (k.observe (.switched rsp)).handovers = k.handovers + 1 :=
        fun _ => List.countP_cons_of_pos rfl
      unfold suspend
      dsimp only
      split <;> exact hobs _
    obtain ⟨⟨k1, next⟩, hnext, h⟩ := Option.bind_eq_some_iff.mp h
    have hgot := getNextProcess_steady _ hnext
    have h1 : Lasts k k1 := hsuspend.trans hgot.pcb
    obtain ⟨bn, hbn, h⟩ := Option.bind_eq_some_iff.mp h
    cases h
    refine ⟨h1.trans ((Steady.refl k1).pcb.write hbn rfl ⟨rfl, rfl, rfl⟩), .inr ⟨?_, ?_⟩⟩
    · exact hgot.handovers.trans hswitch
    · obtain ⟨b, hb0, hs⟩ := h1 next bn hbn
      exact ⟨next, b, hb0, congrArg calculateQuantum hs.priority⟩

theorem addUnlessIdle_steady (k : Kernel) (b : PCB) : Steady k (addUnlessIdle k b) := by
  unfold addUnlessIdle addProcess Kernel.enqueue
  dsimp only
  split
  · split <;> split <;> exact .of_same rfl (.inl rfl) rfl
  · exact .refl k

end

/-- Priorities are old ones, or `n`; the turn goes on or is given up. -/
structure Ranks (n : Int) (k k' : Kernel) : Prop where
  pcb : ∀ p b', k'.procs p = some b' →
    b'.priority = n ∨ ∃ b, k.procs p = some b ∧ b'.priority = b.priority
  quantum : k'.quantum = k.quantum ∨ k'.quantum = 0
  handovers : k'.handovers = k.handovers

section

variable {k k1 k' : Kernel} {p : Pid} {b b' : PCB} {n : Int}

theorem Steady.ranks (h : Steady k k') : Ranks n k k' := by
  refine ⟨fun p b' hb' => .inr ?_, h.quantum, h.handovers⟩
  obtain ⟨b, hb, hs⟩ := h.pcb p b' hb'
  exact ⟨b, hb, hs.priority⟩

theorem Ranks.trans (h : Ranks n k k1) (h' : Ranks n k1 k') : Ranks n k k' := by
  refine ⟨fun p b' hb' => ?_, ?_, h'.handovers.trans h.handovers⟩
  · rcases h'.pcb p b' hb' with hn | ⟨b1, hb1, h1⟩
    · exact .inl hn
    · rcases h.pcb p b1 hb1 with hn | ⟨b, hb, h0⟩
      · exact .inl (h1.trans hn)
      · exact .inr ⟨b, hb, h1.trans h0⟩
  · rcases h'.quantum with hq | hq
    · exact hq ▸ h.quantum
    · exact .inr hq

instance : IsTrans Kernel (Ranks n) := ⟨fun _ _ _ => Ranks.trans⟩

/-- The priority `n` is given. -/
theorem Ranks.write (h : Ranks n k k1) (hp : k'.procs = Function.update k1.procs p (some b'))
    (hq : k'.quantum = k1.quantum) (hl : k'.handovers = k1.handovers) (hn : b'.priority = n) :
    Ranks n k k' := by
  refine ⟨fun x b2 hx => ?_, hq ▸ h.quantum, hl.trans h.handovers⟩
  rw [hp] at hx
  rcases eq_or_ne x p with rfl | hne
  · obtain rfl : b' = b2 := by simpa using hx
    exact .inl hn
  · exact h.pcb x b2 (by simpa [hne] using hx)

/-- A new process is placed with the priority it has. -/
theorem placeProcess_ranks {args : ProcessArgs} :
    KeptBy (Ranks b.priority) Prod.fst k (placeProcess k args b) := by
  have hwrite : ∀ {k1} b1, Ranks b.priority k k1 → b1.priority = b.priority →
      Ranks b.priority k (k1.setPCB b.pid b1) := fun _ h hn => h.write rfl rfl rfl hn
  have hrefl : Ranks b.priority k k := (Steady.refl k).ranks
  unfold placeProcess
  split
  · split
    · refine .some ((hwrite { b with stdout := args.stdout, state := .BLOCKED } hrefl rfl).trans
        (Steady.ranks ?_))
      unfold Kernel.enqueue
      dsimp only
      split <;> exact .of_same rfl (.inl rfl) rfl
    · refine .look fun stdin => .look fun stdout => ?_
      have hplaced := hwrite { b with stdin := stdin, stdout := stdout } hrefl rfl
      have hcount : KeptBy (Ranks b.priority) id k
          (if args.foreground ∧ b.parentPid > 0 then
            countChild (k.setPCB b.pid { b with stdin := stdin, stdout := stdout }) b.parentPid
          else some (k.setPCB b.pid { b with stdin := stdin, stdout := stdout })) := by
        split
        · exact fun k1 h1 => hplaced.trans (countChild_steady k1 h1).ranks
        · exact .some hplaced
      exact .bind hcount fun k1 h1 => .some (h1.trans (addUnlessIdle_steady k1 b).ranks)
  · split
    · refine .bind (f := Prod.fst) (fun r hr => (createPipe_steady r hr).ranks) fun r h => ?_
      dsimp only
      split
      · refine .some (h.trans (Steady.ranks ?_))
        exact (Steady.refl r.1).free rfl rfl rfl
      · have hplaced := hwrite { b with stdin := r.2, stdout := 1 } h rfl
        exact .some (hplaced.trans (addUnlessIdle_steady _ b).ranks)
    · exact .some (addUnlessIdle_steady k b).ranks

theorem createProcess_ranks {args : ProcessArgs} :
    KeptBy (Ranks (newPCB k args).priority) Prod.fst k (createProcess k args) := by
  have hborn : Ranks (newPCB k args).priority k (withNewPCB k args) :=
    (Steady.refl k).ranks.write rfl rfl rfl rfl
  rintro ⟨k', flow⟩ h
  rcases createProcess_cases h with
    ⟨⟨-, hk⟩ | ⟨-, -, hk⟩ | ⟨-, -, hk⟩, -⟩ | ⟨-, q, hplace, -⟩
  · show Ranks _ k k'
    rw [hk]
    exact (Steady.refl k).ranks
  · show Ranks _ k k'
    rw [hk]
    exact Steady.ranks (.of_same rfl (.inl rfl) rfl)
  · show Ranks _ k k'
    rw [hk]
    have hfree : Steady (withNewPCB k args) ((withNewPCB k args).freePCB k.nextPid) :=
      (Steady.refl _).free rfl rfl rfl
    exact hborn.trans hfree.ranks
  · have hstack : Steady (withNewPCB k args) ((withNewPCB k args).setStack k.nextPid true) :=
      .of_same rfl (.inl rfl) rfl
    exact (hborn.trans hstack.ranks).trans (placeProcess_ranks _ hplace)

/-- `changePrio` writes a priority in its range. -/
theorem changePrio_ranks : ∃ x, minPriority ≤ x ∧ x ≤ maxPriority ∧
    KeptBy (Ranks x) Prod.fst k (changePrio k p n) := by
  obtain ⟨x, hx⟩ : ∃ x, x =
    if n < minPriority then minPriority else if n > maxPriority then maxPriority else n := ⟨_, rfl⟩
  have hrange : minPriority ≤ x ∧ x ≤ maxPriority := by
    unfold minPriority maxPriority at *
    grind
  refine ⟨x, hrange.1, hrange.2, ?_⟩
  unfold changePrio
  dsimp only
  rw [← hx]
  split
  · exact .some (Steady.refl k).ranks
  · split
    · exact .some (Steady.refl k).ranks
    · exact .look fun b => .some ((Steady.refl k).ranks.write rfl rfl rfl rfl)

end

/-! ## Steps of the machine -/

/-- What every function of the kernel preserves. -/
structure Stable (P : Kernel → Prop) : Prop where
  observe : ∀ {k o}, o.isSwitched = false → P k → P (k.observe o)
  yield : ∀ {k}, P k → P { k with quantum := 0 }
  schedule : ∀ {k rsp}, P k → ∀ r, schedule k rsp = some r → P r.1
  createProcess : ∀ {k args}, P k → ∀ r, createProcess k args = some r → P r.1
  kill : ∀ {k pid ret}, P k → ∀ r, kill k pid ret = some r → P r.1
  block : ∀ {k pid}, P k → ∀ r, blockProcess k pid = some r → P r.1
  unblock : ∀ {k pid}, P k → ∀ r, unblockProcess k pid = some r → P r.1
  waitpid : ∀ {k pid}, P k → ∀ r, waitpid k pid = some r → P r.1
  waitpidResumed : ∀ {k c pid}, P k → ∀ r, waitpidResumed k c pid = some r → P r.1
  changePrio : ∀ {k pid n}, P k → ∀ r, changePrio k pid n = some r → P r.1
  semInit : ∀ {k id v}, P k → ∀ r, semInit k id v = some r → P r.1
  semWait : ∀ {k id}, P k → ∀ r, semWait k id = some r → P r.1
  semPost : ∀ {k id}, P k → ∀ r, semPost k id = some r → P r.1
  semClose : ∀ {k id}, P k → ∀ r, semClose k id = some r → P r.1
  createPipe : ∀ {k}, P k → ∀ r, createPipe k = some r → P r.1
  pipeClose : ∀ {k id}, P k → ∀ r, pipeClose k id = some r → P r.1
  enterPipes : ∀ {k}, P k → P (ensurePipeManagerInit k)
  takeByte : ∀ {k slot c}, P k → P (takeByte k slot c).1
  putByte : ∀ {k slot c b}, P k → P (putByte k slot c b).1
  emptyPipe : ∀ {k slot c}, P k → P (emptyPipe k slot c)

namespace Stable

variable {P : Kernel → Prop} {m m' : Machine} {off : Nat}

theorem interrupt (S : Stable P) (hP : P m.k) (h : m.interrupt off = some m') : P m'.k := by
  obtain ⟨r, hr, h⟩ := Option.bind_eq_some_iff.mp h
  cases h
  exact S.schedule hP r hr

theorem finish (S : Stable P) {r : Kernel × Flow} (hP : P r.1) (h : m.finish off r = some m') :
    P m'.k := by
  unfold Machine.finish at h
  split at h
  · cases h
    exact S.observe rfl hP
  · exact S.interrupt (m := (m.withKernel r.1).setCont (.ret 0)) hP h

theorem finishWaitpid (S : Stable P) {r : Kernel × WaitFlow} {p : Pid} (hP : P r.1)
    (h : m.finishWaitpid off p r = some m') : P m'.k := by
  unfold Machine.finishWaitpid at h
  split at h
  · cases h
    exact S.observe rfl hP
  · exact S.interrupt (m := (m.withKernel r.1).setCont (.waitpid p)) hP h

theorem await (S : Stable P) {id : Int} {next : Cont} (hP : P m.k)
    (h : m.await off id next = some m') : P m'.k := by
  obtain ⟨r, hr, h⟩ := Option.bind_eq_some_iff.mp h
  have h1 := S.semWait hP r hr
  dsimp only at h
  split at h
  · cases h
    exact h1
  · exact S.interrupt (m := (m.withKernel r.1).setCont (.waited id next)) h1 h

theorem leavePipe (S : Stable P) {k : Kernel} {mutex other : Int} {next : Cont} (hP : P k)
    (h : m.leavePipe k mutex other next = some m') : P m'.k := by
  obtain ⟨r1, h1, h⟩ := Option.bind_eq_some_iff.mp h
  obtain ⟨r2, h2, h⟩ := Option.bind_eq_some_iff.mp h
  cases h
  exact S.semPost (S.semPost hP r1 h1) r2 h2

theorem resume (S : Stable P) (hP : P m.k) (h : m.resume off = some m') : P m'.k := by
  unfold Machine.resume at h
  split at h
  · cases h
  · cases h
    exact S.observe rfl hP
  · obtain ⟨r, hr, h⟩ := Option.bind_eq_some_iff.mp h
    exact S.finishWaitpid (S.waitpidResumed hP r hr) h
  · cases h
    exact S.observe rfl hP
  · unfold Machine.readStep at h
    split at h
    · split at h
      · exact S.await hP h
      · cases h
        exact S.observe rfl hP
    · exact S.await hP h
    · exact S.leavePipe (S.takeByte hP) h
  · unfold Machine.writeStep at h
    split at h
    · split at h
      · exact S.await hP h
      · cases h
        exact S.observe rfl hP
    · exact S.await hP h
    · obtain ⟨b, -, h⟩ := Option.bind_eq_some_iff.mp h
      exact S.leavePipe (S.putByte hP) h
  · unfold Machine.clearStep at h
    split at h
    · cases h
    · exact S.await hP h
    · obtain ⟨r, hr, h⟩ := Option.bind_eq_some_iff.mp h
      cases h
      exact S.semPost (S.emptyPipe hP) r hr

/-- A system call that is a function and the return from it. -/
theorem finished (S : Stable P) {o : Option (Kernel × Flow)} (ho : ∀ r, o = some r → P r.1)
    (h : o.bind (m.finish off) = some m') : P m'.k := by
  obtain ⟨r, hr, h⟩ := Option.bind_eq_some_iff.mp h
  exact S.finish (ho r hr) h

/-- A system call whose result is returned at once. -/
theorem returned (S : Stable P) {α : Type} {o : Option (Kernel × α)} {v : α → Int}
    (ho : ∀ r, o = some r → P r.1)
    (h : o.map (fun r => (m.withKernel r.1).sysret (v r.2)) = some m') : P m'.k := by
  obtain ⟨r, hr, rfl⟩ := Option.map_eq_some_iff.mp h
  exact S.observe rfl (ho r hr)

/-- An operation on a pipe is refused or begins. -/
theorem entered (S : Stable P) {r : Kernel × Option (Nat × PipeOp × Stage)} (hP : P r.1)
    (h : some (m.enterPipe r) = some m') : P m'.k := by
  cases h
  unfold Machine.enterPipe
  split
  · exact S.observe rfl hP
  · exact hP

theorem call (S : Stable P) {c : Call} (hP : P m.k) (h : m.call off c = some m') : P m'.k := by
  have hrefused : ∀ {v}, some (m.sysret v) = some m' → P m'.k := by
    intro v h
    cases h
    exact S.observe rfl hP
  cases c with
  | yield => exact S.finish (r := SoKernel.yield m.k) (S.yield hP) h
  | createProcess args => exact S.finished (S.createProcess hP) h
  | kill pid ret => exact S.finished (S.kill hP) h
  | exit ret => exact S.finished (S.kill hP) h
  | block pid => exact S.finished (S.block hP) h
  | unblock pid => exact S.finished (S.unblock hP) h
  | waitpid pid =>
    obtain ⟨r, hr, h⟩ := Option.bind_eq_some_iff.mp h
    exact S.finishWaitpid (S.waitpid hP r hr) h
  | changePrio pid n => exact S.finished (S.changePrio hP) h
  | semOpen id v =>
    simp only [Machine.call] at h
    split at h
    · exact S.returned (S.semInit hP) h
    · exact hrefused h
  | semWait id =>
    simp only [Machine.call] at h
    split at h
    · obtain ⟨r, hr, h⟩ := Option.bind_eq_some_iff.mp h
      have h1 := S.semWait hP r hr
      dsimp only at h
      split at h
      · cases h
        exact S.observe rfl h1
      · exact S.interrupt (m := (m.withKernel r.1).setCont (.waited id (.ret 0))) h1 h
    · exact hrefused h
  | semPost id =>
    simp only [Machine.call] at h
    split at h
    · exact S.finished (S.semPost hP) h
    · exact hrefused h
  | semClose id =>
    simp only [Machine.call] at h
    split at h
    · exact hrefused h
    · exact S.returned (S.semClose hP) h
  | openPipe => exact S.returned (v := id) (S.createPipe hP) h
  | closePipe id => exact S.returned (S.pipeClose hP) h
  | clearPipe id =>
    refine S.entered (r := pipeClear m.k id) ?_ h
    unfold pipeClear
    dsimp only
    split <;> exact S.enterPipes hP
  | readPipe id size =>
    refine S.entered (r := pipeRead m.k id size) ?_ h
    unfold pipeRead
    dsimp only
    split <;> exact S.enterPipes hP
  | writePipe id data =>
    refine S.entered (r := pipeWrite m.k id data) ?_ h
    unfold pipeWrite
    dsimp only
    split <;> exact S.enterPipes hP

/-- What the functions of the kernel preserve, a step preserves. -/
theorem step (S : Stable P) {e : Event} (hP : P m.k) (h : m.step e = some m') : P m'.k := by
  cases e with
  | tick off =>
    simp only [Machine.step] at h
    split at h
    · exact S.interrupt hP h
    · cases h
  | ctrlC off =>
    simp only [Machine.step] at h
    split at h
    · obtain ⟨r, hr, h⟩ := Option.bind_eq_some_iff.mp h
      have h1 := S.kill hP r hr
      dsimp only at h
      split at h
      · cases h
        exact h1
      · exact S.interrupt (m := m.withKernel r.1) h1 h
    · cases h
  | call off c =>
    simp only [Machine.step] at h
    split at h
    · exact S.call hP h
    · cases h
  | resume off => exact S.resume hP h

/-- Where nothing depends on more than the standing of the processes and the turn, three
functions are left to look at. -/
theorem of_steady (hP : ∀ {k k'}, P k → Steady k k' → P k')
    (hschedule : ∀ {k rsp}, P k → ∀ r, SoKernel.schedule k rsp = some r → P r.1)
    (hcreate : ∀ {k args}, P k → ∀ r, SoKernel.createProcess k args = some r → P r.1)
    (hprio : ∀ {k pid n}, P k → ∀ r, SoKernel.changePrio k pid n = some r → P r.1) :
    Stable P where
  observe ho h := hP h (observe_steady ho)
  yield h := hP h (.of_same rfl (.inr rfl) rfl)
  schedule := hschedule
  createProcess := hcreate
  kill h r hr := hP h (kill_steady r hr)
  block h r hr := hP h (blockProcess_steady r hr)
  unblock h r hr := hP h (unblockProcess_steady r hr)
  waitpid h r hr := hP h (waitpid_steady r hr)
  waitpidResumed h r hr := hP h (waitpidResumed_steady r hr)
  changePrio := hprio
  semInit h r hr := hP h (semInit_steady r hr)
  semWait h r hr := hP h (semWait_steady r hr)
  semPost h r hr := hP h (semPost_steady r hr)
  semClose h r hr := hP h (semClose_steady r hr)
  createPipe h r hr := hP h (createPipe_steady r hr)
  pipeClose h r hr := hP h (pipeClose_steady r hr)
  enterPipes {k} h := hP h (ensurePipeManagerInit_steady k)
  takeByte h := by
    unfold SoKernel.takeByte
    dsimp only
    split
    · exact hP h (.of_same rfl (.inl rfl) rfl)
    · exact h
  putByte h := by
    unfold SoKernel.putByte
    dsimp only
    split
    · exact hP h (.of_same rfl (.inl rfl) rfl)
    · exact h
  emptyPipe h := hP h (.of_same rfl (.inl rfl) rfl)

end Stable

end SoKernel
