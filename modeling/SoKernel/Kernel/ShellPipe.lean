import SoKernel.Kernel.Functions
import SoKernel.Kernel.Keyboard
import SoKernel.Lib.Kept
import SoKernel.Lib.Ring

/-!
# The pipe of the keyboard

Pipe 0 is opened at boot and stays open, a ring buffer on the semaphores 0, 1 and 2. This is
shown of the functions as they are, in any state, so that it also holds of what the keyboard
interrupt does on the stack of idle.

Results:
1. `PipesKept`: the functions that leave the table of pipes alone.
2. `Reach.shellPipe`: pipe 0 in every state reached with the keyboard.
-/

namespace SoKernel

/-- The pipe of the keyboard. -/
structure ShellPipe (k : Kernel) : Prop where
  init : k.pipeManagerInit = true
  isOpen : (k.pipes 0).isOpen = true
  semReaders : (k.pipes 0).semReaders = 0
  semWriters : (k.pipes 0).semWriters = 1
  mutex : (k.pipes 0).mutex = 2
  ring : Ring pipeBufferSize (k.pipes 0).readIdx (k.pipes 0).writeIdx (k.pipes 0).count

/-- The table of pipes is the same. -/
structure SamePipes (k k' : Kernel) : Prop where
  pipes : k'.pipes = k.pipes
  init : k'.pipeManagerInit = k.pipeManagerInit

/-- Whatever the function answers, the table of pipes is the same. -/
def PipesKept {α : Type} (k : Kernel) (o : Option (Kernel × α)) : Prop :=
  ∀ r, o = some r → SamePipes k r.1

section

variable {α γ : Type} {k k' : Kernel}

theorem SamePipes.refl (k : Kernel) : SamePipes k k := ⟨rfl, rfl⟩

theorem SamePipes.trans {k1 : Kernel} (h : SamePipes k k') (h' : SamePipes k' k1) : SamePipes k k1 :=
  ⟨h'.pipes.trans h.pipes, h'.init.trans h.init⟩

/-- Only other pipes have changed. -/
theorem ShellPipe.keep (S : ShellPipe k) (hp : k'.pipes 0 = k.pipes 0)
    (hi : k'.pipeManagerInit = k.pipeManagerInit) : ShellPipe k' :=
  ⟨hi.trans S.init, hp ▸ S.isOpen, hp ▸ S.semReaders, hp ▸ S.semWriters, hp ▸ S.mutex,
    hp ▸ S.ring⟩

theorem ShellPipe.congr (S : ShellPipe k) (h : SamePipes k k') : ShellPipe k' :=
  S.keep (congrFun h.pipes 0) h.init

instance : IsTrans Kernel SamePipes := ⟨fun _ _ _ => SamePipes.trans⟩

theorem PipesKept.some {a : α} (h : SamePipes k k') : PipesKept k (some (k', a)) := KeptBy.some h

theorem PipesKept.none : PipesKept k (none : Option (Kernel × α)) := KeptBy.none

theorem PipesKept.bind {o : Option (Kernel × α)} {g : Kernel × α → Option (Kernel × γ)}
    (h : PipesKept k o) (hg : ∀ r, SamePipes k r.1 → PipesKept k (g r)) :
    PipesKept k (o.bind g) := KeptBy.bind h hg

/-- The same after a look at something that is not the kernel. -/
theorem PipesKept.look {β : Type} {o : Option β} {g : β → Option (Kernel × γ)}
    (hg : ∀ b, PipesKept k (g b)) : PipesKept k (o.bind g) := KeptBy.look hg

theorem PipesKept.after {k1 : Kernel} {o : Option (Kernel × α)} (hk : PipesKept k1 o)
    (h : SamePipes k k1) : PipesKept k o := KeptBy.after hk h

/-! ## The process manager -/

theorem moveProcess_kept {f t : QueueName} {p : Pid} {st : State} :
    PipesKept k (moveProcess k f t p st) := by
  unfold moveProcess switchProcessFromQueues
  split
  · exact .some ⟨rfl, rfl⟩
  · next h =>
    split at h
    · cases h
      exact .look fun b => .some ⟨rfl, rfl⟩
    · cases h

theorem unblockProcess_kept {p : Pid} : PipesKept k (unblockProcess k p) :=
  .bind moveProcess_kept fun _ h => .some h

theorem yieldIfCurrent_same (k : Kernel) (p : Pid) : SamePipes k (yieldIfCurrent k p).1 := by
  unfold yieldIfCurrent
  split
  · exact ⟨rfl, rfl⟩
  · exact .refl k

theorem blockProcess_kept {p : Pid} : PipesKept k (blockProcess k p) := by
  have hq : PipesKept k (blockProcessQueue k p) := by
    unfold blockProcessQueue
    split
    · exact .some (.refl k)
    · split
      · exact .some (.refl k)
      · exact moveProcess_kept
  refine .bind hq fun r h => ?_
  dsimp only
  split
  · exact fun r' hr' => by cases hr'; exact h.trans (yieldIfCurrent_same _ p)
  · exact .some h

theorem blockProcessBySem_kept {p : Pid} : PipesKept k (blockProcessBySem k p) := by
  refine .bind moveProcess_kept fun r h => ?_
  dsimp only
  split
  · exact fun r' hr' => by cases hr'; exact h.trans (yieldIfCurrent_same _ p)
  · exact .some h

theorem schedule_kept {sp : Sp} : PipesKept k (schedule k sp) := by
  unfold schedule
  refine .look fun current => .look fun process => ?_
  split
  · exact .some ⟨rfl, rfl⟩
  · have hs : SamePipes k (suspend k current process sp) := by
      unfold suspend
      dsimp only
      split <;> exact ⟨rfl, rfl⟩
    have hnext : PipesKept (suspend k current process sp)
        (getNextProcess (suspend k current process sp)) := by
      unfold getNextProcess
      split
      · exact .look fun idle => .some ⟨rfl, rfl⟩
      · refine .look fun b => ?_
        split <;> exact .some ⟨rfl, rfl⟩
    exact .bind (hnext.after hs) fun r h => .look fun b => .some (h.trans ⟨rfl, rfl⟩)

theorem killProcess_kept {p : Pid} {ret : Nat} {st : State} :
    PipesKept k (killProcess k p ret st) := by
  have hswitch : ∀ {k1 k2 : Kernel} {f : QueueName},
      switchProcessFromQueues k1 f .zombie p = .some k2 → SamePipes k1 k2 := by
    intro k1 k2 f h
    unfold switchProcessFromQueues at h
    split at h
    · cases h
      exact ⟨rfl, rfl⟩
    · cases h
  unfold killProcess
  dsimp only
  split
  · exact .some ⟨rfl, rfl⟩
  · next k1 h =>
    have h1 : SamePipes k k1 := by
      have hleave : SamePipes k (leaveCurrent k p) := ⟨rfl, rfl⟩
      refine hleave.trans ?_
      rcases Option.or_eq_some_iff.mp h with h | ⟨-, h⟩
      · exact hswitch h
      · rcases Option.or_eq_some_iff.mp h with h | ⟨-, h⟩
        · exact hswitch h
        · exact hswitch h
    exact .look fun b => .some (h1.trans ⟨rfl, rfl⟩)

/-! ## Semaphores -/

theorem semInit_keeps {id : Int} {v : Nat} : PipesKept k (semInit k id v) := by
  unfold semInit
  split
  · exact .some (.refl k)
  · refine .look fun sem => ?_
    split
    · exact .some (.refl k)
    · dsimp only
      split <;> exact .some ⟨rfl, rfl⟩

theorem semClose_keeps {id : Int} : PipesKept k (semClose k id) := by
  unfold semClose
  split
  · exact .some (.refl k)
  · refine .look fun sem => ?_
    split
    · exact .some (.refl k)
    · split
      · exact .none
      · exact .some ⟨rfl, rfl⟩
      · exact .some ⟨rfl, rfl⟩

theorem semPost_keeps {id : Int} : PipesKept k (semPost k id) := by
  unfold semPost post
  refine .look fun sem => .look fun sem' => ?_
  dsimp only
  split
  · exact .none
  · next p rest hq =>
    exact .bind (moveProcess_kept.after ⟨rfl, rfl⟩) fun r h => .some (h.trans ⟨rfl, rfl⟩)
  · exact .some ⟨rfl, rfl⟩

theorem enqueuePid_kept {s : Sem} {p : Pid} : PipesKept k (enqueuePid k s p) := by
  unfold enqueuePid
  split
  · exact .some (.refl k)
  · exact .none
  · dsimp only
    split <;> exact .some ⟨rfl, rfl⟩

theorem semWait_keeps {id : Int} : PipesKept k (semWait k id) := by
  unfold semWait wait
  refine .look fun sem => .look fun sem' => ?_
  split
  · exact .some ⟨rfl, rfl⟩
  · dsimp only
    split
    · exact .some ⟨rfl, rfl⟩
    · refine .bind (enqueuePid_kept.after ⟨rfl, rfl⟩) fun r h => ?_
      refine .bind (blockProcessBySem_kept.after (h.trans ?_)) fun r' h' => .some h'
      split <;> exact ⟨rfl, rfl⟩

/-! ## Birth and death -/

/-- A function with a kernel for its only result. -/
def PipesKeptOnly (k : Kernel) (o : Option Kernel) : Prop := ∀ k', o = some k' → SamePipes k k'

theorem PipesKeptOnly.some (h : SamePipes k k') : PipesKeptOnly k (some k') :=
  @KeptBy.some _ _ SamePipes id k k' h

theorem PipesKeptOnly.bind {o : Option (Kernel × α)} {g : Kernel × α → Option Kernel}
    (h : PipesKept k o) (hg : ∀ r, SamePipes k r.1 → PipesKeptOnly k (g r)) :
    PipesKeptOnly k (o.bind g) := @KeptBy.bind _ _ _ SamePipes Prod.fst id k o g h hg

theorem PipesKeptOnly.look {β : Type} {o : Option β} {g : β → Option Kernel}
    (hg : ∀ b, PipesKeptOnly k (g b)) : PipesKeptOnly k (o.bind g) :=
  @KeptBy.look _ _ _ SamePipes id k o g hg

theorem PipesKeptOnly.after {k1 : Kernel} {o : Option Kernel} (hk : PipesKeptOnly k1 o)
    (h : SamePipes k k1) : PipesKeptOnly k o := @KeptBy.after _ _ SamePipes id k k1 o _ hk h

theorem PipesKeptOnly.seq {o : Option Kernel} {g : Kernel → Option (Kernel × γ)}
    (h : PipesKeptOnly k o) (hg : ∀ k1, SamePipes k k1 → PipesKept k (g k1)) :
    PipesKept k (o.bind g) := @KeptBy.bind _ _ _ SamePipes id Prod.fst k o g h hg

theorem openChildrenSem_kept {p : Pid} {b : PCB} : PipesKeptOnly k (openChildrenSem k p b) := by
  unfold openChildrenSem
  split
  · refine .look fun semId => ?_
    split
    · refine .bind semInit_keeps fun r h => .some ?_
      split
      · exact h.trans ⟨rfl, rfl⟩
      · exact h
    · exact .some (.refl k)
  · exact .some (.refl k)

theorem countChild_kept {p : Pid} : PipesKeptOnly k (countChild k p) := by
  unfold countChild
  split
  · exact .some (.refl k)
  · refine .look fun b => ?_
    intro k1 hk
    obtain ⟨k2, h2, hk⟩ := Option.bind_eq_some_iff.mp hk
    obtain ⟨b', -, hk⟩ := Option.bind_eq_some_iff.mp hk
    cases hk
    have hs := openChildrenSem_kept k2 h2
    split
    · exact hs.trans ⟨rfl, rfl⟩
    · exact hs

theorem freeChild_kept {p : Pid} : PipesKeptOnly k (freeChild k p) := by
  intro k1 hk
  obtain ⟨r, hr, rfl⟩ := Option.map_eq_some_iff.mp hk
  obtain ⟨b, -, hr⟩ := Option.bind_eq_some_iff.mp hr
  cases hr
  exact ⟨rfl, rfl⟩

theorem wakeUpWaitingParent_kept {p child : Pid} :
    PipesKeptOnly k (wakeUpWaitingParent k p child) := by
  unfold wakeUpWaitingParent
  split
  · exact .some (.refl k)
  · refine .look fun idle => ?_
    intro k1 hk
    obtain ⟨k2, h2, hk⟩ := Option.bind_eq_some_iff.mp hk
    have hs : SamePipes k k2 := by
      split at h2
      · obtain ⟨x, -, h2⟩ := Option.bind_eq_some_iff.mp h2
        exact freeChild_kept k2 h2
      · cases h2
        exact .refl k
    split at hk
    · cases hk
      exact hs
    · obtain ⟨b, -, hk⟩ := Option.bind_eq_some_iff.mp hk
      split at hk
      · obtain ⟨r, hr, hk⟩ := Option.bind_eq_some_iff.mp hk
        cases hk
        exact hs.trans (unblockProcess_kept r hr)
      · cases hk
        exact hs

theorem uncountChild_kept {p : Pid} : PipesKeptOnly k (uncountChild k p) := by
  unfold uncountChild
  split
  · exact .some (.refl k)
  · refine .look fun b => ?_
    split
    · dsimp only
      split
      · refine .bind (semPost_keeps.after ⟨rfl, rfl⟩) fun r h => ?_
        refine .bind (semClose_keeps.after h) fun r' h' => ?_
        exact .look fun b' => .some (h'.trans ⟨rfl, rfl⟩)
      · exact .some ⟨rfl, rfl⟩
    · exact .some (.refl k)

theorem kill_kept {p : Pid} {ret : Nat} : PipesKept k (kill k p ret) := by
  unfold kill
  split
  · exact .some (.refl k)
  · refine .bind killProcess_kept fun r h => ?_
    dsimp only
    split
    · exact .some h
    · refine .look fun process => ?_
      have hparent : PipesKeptOnly k (if process.parentPid > 0 ∧ process.foreground = true then
          uncountChild (r.1.setStack p false) process.parentPid
          else some (r.1.setStack p false)) := by
        split
        · exact uncountChild_kept.after (h.trans ⟨rfl, rfl⟩)
        · exact .some (h.trans ⟨rfl, rfl⟩)
      refine hparent.seq fun k1 h1 => ?_
      refine (wakeUpWaitingParent_kept.after h1).seq fun k2 h2 => ?_
      refine .look fun process' => .look fun idle => ?_
      have hreap : PipesKeptOnly k
          (if process'.parentPid ≠ idle then freeChild k2 p else some k2) := by
        split
        · exact freeChild_kept.after h2
        · exact .some h2
      refine hreap.seq fun k3 h3 => ?_
      split
      · exact .some (h3.trans ⟨rfl, rfl⟩)
      · exact .some h3

theorem reapCild_kept {p : Pid} : PipesKept k (reapCild k p) := by
  unfold reapCild
  exact .look fun b => .some ⟨rfl, rfl⟩

theorem waitpidResumed_kept {c p : Pid} : PipesKept k (waitpidResumed k c p) := by
  unfold waitpidResumed
  split
  · exact .some (.refl k)
  · refine .look fun t => ?_
    split
    · exact .look fun b => .bind (reapCild_kept.after ⟨rfl, rfl⟩) fun r h => .some h
    · exact .some (.refl k)

theorem waitpid_kept {p : Pid} : PipesKept k (waitpid k p) := by
  unfold waitpid
  dsimp only
  split
  · exact .some (.refl k)
  · split
    · exact .some (.refl k)
    · refine .look fun t => .look fun b => ?_
      split
      · exact .some (.refl k)
      · split
        · exact .bind (reapCild_kept.after ⟨rfl, rfl⟩) fun r h => .some h
        · split
          · refine .bind (blockProcess_kept.after ⟨rfl, rfl⟩) fun r h => ?_
            split
            · exact .some h
            · split
              · exact .look fun b' => .some (h.trans ⟨rfl, rfl⟩)
              · exact waitpidResumed_kept.after h
          · exact .some (.refl k)

theorem changePrio_kept {p : Pid} {n : Int} : PipesKept k (changePrio k p n) := by
  unfold changePrio
  dsimp only
  split
  · exact .some (.refl k)
  · split
    · exact .some (.refl k)
    · exact .look fun b => .some ⟨rfl, rfl⟩

/-! ## Pipes -/

/-- The table has changed, but not for pipe 0. -/
def KeepsShell {α : Type} (k : Kernel) (o : Option (Kernel × α)) : Prop :=
  ShellPipe k → ∀ r, o = some r → ShellPipe r.1

theorem PipesKept.shell {o : Option (Kernel × α)} (h : PipesKept k o) : KeepsShell k o :=
  fun S r hr => S.congr (h r hr)

theorem KeepsShell.bind {o : Option (Kernel × α)} {g : Kernel × α → Option (Kernel × γ)}
    (h : KeepsShell k o) (hg : ∀ r, KeepsShell r.1 (g r)) : KeepsShell k (o.bind g) := by
  intro S r hr
  obtain ⟨r', hr', hg'⟩ := Option.bind_eq_some_iff.mp hr
  exact hg r' (h S r' hr') r hg'

theorem KeepsShell.after {k1 : Kernel} {o : Option (Kernel × α)} (hk : KeepsShell k1 o)
    (h : SamePipes k k1) : KeepsShell k o := fun S r hr => hk (S.congr h) r hr

theorem createPipe_shell : KeepsShell k (createPipe k) := by
  rintro S ⟨k', v⟩ h
  rcases createPipe_cases S.init h with ⟨-, rfl, -⟩ | ⟨slot, k1, ok, ⟨-, hclosed, -⟩, hinits, hend⟩
  · exact S
  · have hne : 0 ≠ slot := by
      rintro rfl
      cases hclosed.symm.trans S.isOpen
    have htake : ShellPipe (takeSlot k slot) := S.keep (Function.update_of_ne hne _ _) rfl
    have hkept : ∀ (l : List (Int × Nat)) (k : Kernel), PipesKept k (semInits l k) := by
      intro l
      induction l with
      | nil => exact fun k => .some (.refl k)
      | cons a l ih =>
        intro k
        exact .bind semInit_keeps fun r h => by
          dsimp only
          split
          · exact (ih r.1).after h
          · exact .some h
    have h1 : ShellPipe k1 := htake.congr (hkept _ _ _ hinits)
    rcases hend with ⟨-, rfl, -⟩ | ⟨-, rfl, -⟩
    · exact h1
    · exact h1.congr ⟨rfl, rfl⟩

theorem pipeClose_shell {id : Int} : KeepsShell k (pipeClose k id) := by
  rintro S r h
  unfold pipeClose at h
  rw [ensurePipeManagerInit_eq S.init] at h
  dsimp only at h
  split at h
  · cases h
    exact S
  · next slot hid =>
    split at h
    · cases h
      exact S
    · next hslot =>
      have hne : 0 ≠ slot := by
        rintro rfl
        exact hslot (by decide)
      obtain ⟨r1, h1, h⟩ := Option.bind_eq_some_iff.mp h
      obtain ⟨r2, h2, h⟩ := Option.bind_eq_some_iff.mp h
      obtain ⟨r3, h3, h⟩ := Option.bind_eq_some_iff.mp h
      cases h
      have S3 : ShellPipe r3.1 := ((S.congr (semClose_keeps r1 h1)).congr
        (semClose_keeps r2 h2)).congr (semClose_keeps r3 h3)
      exact S3.keep (Function.update_of_ne hne _ _) rfl

/-- A critical section writes the bytes of a pipe and their number. -/
theorem ShellPipe.setPipe {slot : Nat} {pipe : Pipe} (S : ShellPipe k)
    (ho : pipe.isOpen = (k.pipes slot).isOpen) (hs : pipe.sems = (k.pipes slot).sems)
    (hr : slot = 0 → Ring pipeBufferSize pipe.readIdx pipe.writeIdx pipe.count) :
    ShellPipe (k.setPipe slot pipe) := by
  simp only [Pipe.sems, List.cons.injEq, and_true] at hs
  rcases eq_or_ne 0 slot with rfl | hne
  · have hpipe : (k.setPipe 0 pipe).pipes 0 = pipe := by simp [Kernel.setPipe]
    refine ⟨S.init, ?_, ?_, ?_, ?_, ?_⟩ <;> rw [hpipe]
    · exact ho.trans S.isOpen
    · exact hs.1.trans S.semReaders
    · exact hs.2.1.trans S.semWriters
    · exact hs.2.2.trans S.mutex
    · exact hr rfl
  · exact S.keep (Function.update_of_ne hne _ _) rfl

theorem ShellPipe.observe {o : Obs} (S : ShellPipe k) : ShellPipe (k.observe o) :=
  S.congr ⟨rfl, rfl⟩

theorem takeByte_shell {slot : Nat} {p : Pid} (S : ShellPipe k) :
    ShellPipe (takeByte k slot p).1 := by
  unfold takeByte
  dsimp only
  split
  · next hcount =>
    refine ShellPipe.observe (ShellPipe.setPipe S rfl rfl ?_)
    rintro rfl
    obtain ⟨n, hn⟩ := Nat.exists_eq_succ_of_ne_zero (Nat.ne_of_gt hcount)
    have hring := S.ring
    rw [hn] at hring ⊢
    exact hring.take
  · exact S

theorem putByte_shell {slot : Nat} {p : Pid} {b : Byte} (S : ShellPipe k) :
    ShellPipe (putByte k slot p b).1 := by
  unfold putByte
  dsimp only
  split
  · next hroom =>
    refine ShellPipe.observe (ShellPipe.setPipe S rfl rfl ?_)
    rintro rfl
    exact S.ring.put hroom
  · exact S

theorem emptyPipe_shell {slot : Nat} {p : Pid} (S : ShellPipe k) :
    ShellPipe (emptyPipe k slot p) := by
  unfold emptyPipe
  exact ShellPipe.observe (ShellPipe.setPipe S rfl rfl fun _ => .empty (by decide))

theorem addUnlessIdle_same (k : Kernel) (b : PCB) : SamePipes k (addUnlessIdle k b) := by
  unfold addUnlessIdle addProcess Kernel.enqueue
  dsimp only
  split
  · split <;> split <;> exact ⟨rfl, rfl⟩
  · exact .refl k

theorem placeProcess_shell {args : ProcessArgs} {b : PCB} :
    KeepsShell k (placeProcess k args b) := by
  unfold placeProcess
  split
  · split
    · refine PipesKept.shell (.some ?_)
      unfold Kernel.enqueue
      dsimp only
      split <;> exact ⟨rfl, rfl⟩
    · refine PipesKept.shell (.look fun stdin => .look fun stdout => ?_)
      dsimp only
      refine PipesKeptOnly.seq ?_ fun k1 h => .some (h.trans (addUnlessIdle_same _ _))
      split
      · exact countChild_kept.after ⟨rfl, rfl⟩
      · exact .some ⟨rfl, rfl⟩
  · split
    · refine .bind createPipe_shell fun r => PipesKept.shell ?_
      dsimp only
      split
      · exact .some ⟨rfl, rfl⟩
      · refine .some (SamePipes.trans ?_ (addUnlessIdle_same _ _))
        exact ⟨rfl, rfl⟩
    · exact PipesKept.shell (.some (addUnlessIdle_same _ _))

theorem createProcess_shell {args : ProcessArgs} : KeepsShell k (createProcess k args) := by
  have hpcb : KeepsShell k (createProcessOnPCB k args) := by
    unfold createProcessOnPCB
    split
    · exact PipesKept.shell (.some (.refl k))
    · dsimp only
      split
      · exact PipesKept.shell (.some ⟨rfl, rfl⟩)
      · split
        · exact PipesKept.shell (.some ⟨rfl, rfl⟩)
        · exact placeProcess_shell.after ⟨rfl, rfl⟩
  exact .bind hpcb fun r => PipesKept.shell (.some (.refl r.1))

end

/-! ## The machine -/

section

variable {m m' : Machine} {off : Nat}

theorem interrupt_shell (S : ShellPipe m.k) (h : m.interrupt off = some m') : ShellPipe m'.k := by
  obtain ⟨r, hr, h⟩ := Option.bind_eq_some_iff.mp h
  cases h
  exact S.congr (schedule_kept r hr)

theorem finish_shell {r : Kernel × Flow} (S : ShellPipe r.1) (h : m.finish off r = some m') :
    ShellPipe m'.k := by
  unfold Machine.finish at h
  split at h
  · cases h
    exact S.observe
  · exact interrupt_shell S h

theorem finishWaitpid_shell {r : Kernel × WaitFlow} {p : Pid} (S : ShellPipe r.1)
    (h : m.finishWaitpid off p r = some m') : ShellPipe m'.k := by
  unfold Machine.finishWaitpid at h
  split at h
  · cases h
    exact S.observe
  · exact interrupt_shell S h

theorem await_shell {id : Int} {next : Cont} (S : ShellPipe m.k)
    (h : m.await off id next = some m') : ShellPipe m'.k := by
  obtain ⟨r, hr, h⟩ := Option.bind_eq_some_iff.mp h
  have S1 := S.congr (semWait_keeps r hr)
  dsimp only at h
  split at h
  · cases h
    exact S1
  · exact interrupt_shell S1 h

theorem leavePipe_shell {k : Kernel} {mutex other : Int} {next : Cont} (S : ShellPipe k)
    (h : m.leavePipe k mutex other next = some m') : ShellPipe m'.k := by
  obtain ⟨r1, h1, h⟩ := Option.bind_eq_some_iff.mp h
  obtain ⟨r2, h2, h⟩ := Option.bind_eq_some_iff.mp h
  cases h
  exact (S.congr (semPost_keeps r1 h1)).congr (semPost_keeps r2 h2)

theorem readStep_shell {slot size i n : Nat} {buffer : List Byte} {stage : Stage}
    (S : ShellPipe m.k) (h : m.readStep off slot size i buffer n stage = some m') :
    ShellPipe m'.k := by
  cases stage with
  | loop =>
    simp only [Machine.readStep] at h
    split at h
    · exact await_shell S h
    · cases h
      exact S.observe
  | mutex => exact await_shell S h
  | critical => exact leavePipe_shell (takeByte_shell S) h

theorem writeStep_shell {slot i n : Nat} {data : List Byte} {stage : Stage}
    (S : ShellPipe m.k) (h : m.writeStep off slot data i n stage = some m') :
    ShellPipe m'.k := by
  cases stage with
  | loop =>
    simp only [Machine.writeStep] at h
    split at h
    · exact await_shell S h
    · cases h
      exact S.observe
  | mutex => exact await_shell S h
  | critical =>
    obtain ⟨b, -, h⟩ := Option.bind_eq_some_iff.mp h
    exact leavePipe_shell (putByte_shell S) h

theorem clearStep_shell {slot : Nat} {stage : Stage} (S : ShellPipe m.k)
    (h : m.clearStep off slot stage = some m') : ShellPipe m'.k := by
  cases stage with
  | loop => cases h
  | mutex => exact await_shell S h
  | critical =>
    obtain ⟨r, hr, h⟩ := Option.bind_eq_some_iff.mp h
    cases h
    exact (emptyPipe_shell S).congr (semPost_keeps r hr)

theorem resume_shell (S : ShellPipe m.k) (h : m.resume off = some m') : ShellPipe m'.k := by
  unfold Machine.resume at h
  split at h
  · cases h
  · cases h
    exact S.observe
  · obtain ⟨r, hr, h⟩ := Option.bind_eq_some_iff.mp h
    exact finishWaitpid_shell (S.congr (waitpidResumed_kept r hr)) h
  · cases h
    exact S.observe
  · exact readStep_shell S h
  · exact writeStep_shell S h
  · exact clearStep_shell S h

/-- A system call that is a function and the return from it. -/
theorem finished_shell {o : Option (Kernel × Flow)} (S : ShellPipe m.k) (ho : KeepsShell m.k o)
    (h : o.bind (m.finish off) = some m') : ShellPipe m'.k := by
  obtain ⟨r, hr, h⟩ := Option.bind_eq_some_iff.mp h
  exact finish_shell (ho S r hr) h

/-- A system call whose result is returned at once. -/
theorem returned_shell {α : Type} {o : Option (Kernel × α)} {v : α → Int} (S : ShellPipe m.k)
    (ho : KeepsShell m.k o) (h : o.map (fun r => (m.withKernel r.1).sysret (v r.2)) = some m') :
    ShellPipe m'.k := by
  obtain ⟨r, hr, rfl⟩ := Option.map_eq_some_iff.mp h
  exact (ho S r hr).observe

theorem call_shell {c : Call} (S : ShellPipe m.k) (h : m.call off c = some m') :
    ShellPipe m'.k := by
  have hrefused : ∀ {v}, some (m.sysret v) = some m' → ShellPipe m'.k := by
    intro v h
    cases h
    exact S.observe
  have hentered : ∀ {x}, some (m.enterPipe (m.k, x)) = some m' → ShellPipe m'.k := by
    intro x h
    cases h
    cases x with
    | none => exact S.observe
    | some entry => exact S
  cases c with
  | yield => exact finish_shell (r := yield m.k) (S.congr ⟨rfl, rfl⟩) h
  | createProcess args => exact finished_shell S createProcess_shell h
  | kill pid ret => exact finished_shell S kill_kept.shell h
  | exit ret => exact finished_shell S kill_kept.shell h
  | block pid => exact finished_shell S blockProcess_kept.shell h
  | unblock pid => exact finished_shell S unblockProcess_kept.shell h
  | waitpid pid =>
    obtain ⟨r, hr, h⟩ := Option.bind_eq_some_iff.mp h
    exact finishWaitpid_shell (S.congr (waitpid_kept r hr)) h
  | changePrio pid n => exact finished_shell S changePrio_kept.shell h
  | semOpen id v =>
    simp only [Machine.call] at h
    split at h
    · exact returned_shell S semInit_keeps.shell h
    · exact hrefused h
  | semWait id =>
    simp only [Machine.call] at h
    split at h
    · obtain ⟨r, hr, h⟩ := Option.bind_eq_some_iff.mp h
      have S1 := S.congr (semWait_keeps r hr)
      dsimp only at h
      split at h
      · cases h
        exact S1.observe
      · exact interrupt_shell S1 h
    · exact hrefused h
  | semPost id =>
    simp only [Machine.call] at h
    split at h
    · exact finished_shell S semPost_keeps.shell h
    · exact hrefused h
  | semClose id =>
    simp only [Machine.call] at h
    split at h
    · exact hrefused h
    · exact returned_shell S semClose_keeps.shell h
  | openPipe => exact returned_shell (v := id) S createPipe_shell h
  | closePipe id => exact returned_shell S pipeClose_shell h
  | clearPipe id =>
    simp only [Machine.call, pipeClear, ensurePipeManagerInit_eq S.init] at h
    split at h <;> exact hentered h
  | readPipe id size =>
    simp only [Machine.call, pipeRead, ensurePipeManagerInit_eq S.init] at h
    split at h <;> exact hentered h
  | writePipe id data =>
    simp only [Machine.call, pipeWrite, ensurePipeManagerInit_eq S.init] at h
    split at h <;> exact hentered h

theorem ctrlC_shell (S : ShellPipe m.k) (h : m.ctrlC off = some m') : ShellPipe m'.k := by
  obtain ⟨r, hr, h⟩ := Option.bind_eq_some_iff.mp h
  have S1 := S.congr (kill_kept r hr)
  dsimp only at h
  split at h
  · cases h
    exact S1
  · exact interrupt_shell S1 h

theorem machine_shell {e : Event} (S : ShellPipe m.k) (h : m.step e = some m') :
    ShellPipe m'.k := by
  cases e with
  | tick off =>
    simp only [Machine.step] at h
    split at h
    · exact interrupt_shell S h
    · cases h
  | ctrlC off =>
    simp only [Machine.step] at h
    split at h
    · exact ctrlC_shell S h
    · cases h
  | call off c =>
    simp only [Machine.step] at h
    split at h
    · exact call_shell S h
    · cases h
  | resume off => exact resume_shell S h

end

/-! ## The keyboard -/

namespace Keyboard

variable {s s' : Desk} {off : Nat}

theorem pipeWriteByte_shell {k : Kernel} {p : Pid} {c : Byte} (S : ShellPipe k) {r}
    (h : pipeWriteByte k p c = some r) : ShellPipe r.1 := by
  simp only [pipeWriteByte, ensurePipeManagerInit_eq S.init] at h
  split at h
  · cases h
    exact S
  · obtain ⟨r1, h1, h⟩ := Option.bind_eq_some_iff.mp h
    have S1 := S.congr (semWait_keeps r1 h1)
    split at h
    · cases h
      exact S1
    · obtain ⟨r2, h2, h⟩ := Option.bind_eq_some_iff.mp h
      have S2 := S1.congr (semWait_keeps r2 h2)
      split at h
      · cases h
        exact S2
      · obtain ⟨r3, h3, h⟩ := Option.bind_eq_some_iff.mp h
        obtain ⟨r4, h4, h⟩ := Option.bind_eq_some_iff.mp h
        cases h
        exact ((putByte_shell S2).congr (semPost_keeps r3 h3)).congr (semPost_keeps r4 h4)

theorem addToBuffer_shell {m m' : Machine} {c : Byte} (S : ShellPipe m.k)
    (h : addToBuffer m off c = some m') : ShellPipe m'.k := by
  obtain ⟨r, hr, h⟩ := Option.bind_eq_some_iff.mp h
  have S1 := pipeWriteByte_shell S hr
  dsimp only at h
  split at h
  · cases h
    exact S1
  · exact interrupt_shell S1 h

theorem step_shell {e : Event} (S : ShellPipe s.m.k) (h : step s e = some s') :
    ShellPipe s'.m.k := by
  cases e with
  | machine e =>
    have hm : (s.m.step e).map (fun m => { s with m := m }) = some s' := by
      cases e with
      | ctrlC off => cases h
      | tick off => exact h
      | call off c => exact h
      | resume off => exact h
    obtain ⟨m, hm', rfl⟩ := Option.map_eq_some_iff.mp hm
    exact machine_shell S hm'
  | key off c =>
    simp only [step, bufferWrite] at h
    split at h
    · split at h
      · cases h
        exact S
      · obtain ⟨m, hm, rfl⟩ := Option.map_eq_some_iff.mp h
        exact ctrlC_shell S hm
      · obtain ⟨m, hm, rfl⟩ := Option.map_eq_some_iff.mp h
        exact addToBuffer_shell S hm
    · cases h

theorem boot_shell (allocs : Nat → Bool) : ShellPipe (boot allocs).k := by
  have hboot : ShellPipe (bootKernel.get bootKernel_isSome) :=
    ⟨by decide, by decide, by decide, by decide, by decide, by decide, by decide, by decide⟩
  exact hboot.congr ⟨rfl, rfl⟩

theorem Reach.shellPipe {allocs : Nat → Bool} (h : Reach allocs s) : ShellPipe s.m.k :=
  h.invariant (P := fun s => ShellPipe s.m.k) (boot_shell allocs) fun S _ h => step_shell S h

end Keyboard

end SoKernel
