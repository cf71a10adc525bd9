import SoKernel.Kernel.Keyboard
import SoKernel.Lib.Kept

/-!
# Ctrl+C

`bufferWrite` kills the foreground process, which is one pid. Shown of the functions as they
are, in any state.

Results:
1. `kill_livesOn`: `kill` leaves every other process in one of the queues of the living.
2. `ctrlC_kills_one`: one Ctrl+C does not end a pipeline.
-/

namespace SoKernel

/-- The process is ready, blocked, or blocked by a semaphore. -/
def Kernel.Live (k : Kernel) (p : Pid) : Prop := ∃ q, q ≠ .zombie ∧ p ∈ k.queue q

/-- The process is live afterwards if it was before. -/
def LivesOn (p : Pid) (k k' : Kernel) : Prop := k.Live p → k'.Live p

section

variable {k k' : Kernel} {p x : Pid} {f t : QueueName}

theorem LivesOn.of_queue (h : k'.queue = k.queue) : LivesOn x k k' := by
  rintro ⟨q, hq, hx⟩
  exact ⟨q, hq, h ▸ hx⟩

theorem LivesOn.trans {k1 : Kernel} (h : LivesOn x k k1) (h' : LivesOn x k1 k') :
    LivesOn x k k' := fun hx => h' (h hx)

instance : IsTrans Kernel (LivesOn x) := ⟨fun _ _ _ => LivesOn.trans⟩

/-- Only the process that is moved leaves a queue. -/
theorem switch_livesOn (hto : t ≠ .zombie ∨ x ≠ p) (h : switchProcessFromQueues k f t p = some k') :
    LivesOn x k k' := by
  obtain ⟨_, h⟩ := Option.ite_none_right_eq_some.mp h
  cases h
  rintro ⟨q, hq, hx⟩
  rcases eq_or_ne x p with rfl | hne
  · refine ⟨t, hto.resolve_right (not_not.mpr rfl), ?_⟩
    simp [Kernel.setQueue]
  · refine ⟨q, hq, ?_⟩
    have herase : x ∈ (k.setQueue f ((k.queue f).erase p)).queue q := by
      rcases eq_or_ne q f with rfl | hqf
      · simpa [Kernel.setQueue] using (List.mem_erase_of_ne hne).mpr hx
      · simpa [Kernel.setQueue, hqf] using hx
    rcases eq_or_ne q t with rfl | hqt
    · simpa [Kernel.setQueue] using Or.inl herase
    · simpa [Kernel.setQueue, hqt] using herase

theorem moveProcess_livesOn {st : State} (ht : t ≠ .zombie) :
    KeptBy (LivesOn x) Prod.fst k (moveProcess k f t p st) := by
  unfold moveProcess
  cases hs : switchProcessFromQueues k f t p with
  | none => exact .some (.of_queue rfl)
  | some k1 =>
    have h : LivesOn x k k1 := switch_livesOn (.inl ht) hs
    exact .look fun b => .some h

theorem setQueue_livesOn {l : List Pid} : LivesOn x k (k.setQueue .zombie l) := by
  rintro ⟨q, hq, hx⟩
  exact ⟨q, hq, by simpa [Kernel.setQueue, hq] using hx⟩

theorem schedule_livesOn {rsp : Sp} : KeptBy (LivesOn x) Prod.fst k (schedule k rsp) := by
  unfold schedule
  refine .look fun current => .look fun process => ?_
  split
  · exact .some (.of_queue rfl)
  · have hsuspend : LivesOn x k (suspend k current process rsp) := by
      refine .of_queue ?_
      unfold suspend
      dsimp only
      split <;> rfl
    have hnext : KeptBy (LivesOn x) Prod.fst (suspend k current process rsp)
        (getNextProcess (suspend k current process rsp)) := by
      unfold getNextProcess
      split
      · exact .look fun idle => .some (.of_queue rfl)
      · next next rest hready =>
        refine .look fun b => ?_
        have hrotate : LivesOn x (suspend k current process rsp)
            ((suspend k current process rsp).setQueue .ready (rest ++ [next])) := by
          rintro ⟨q, hq, hx⟩
          refine ⟨q, hq, ?_⟩
          rcases eq_or_ne q .ready with rfl | hqr
          · rw [hready] at hx
            simpa [Kernel.setQueue, or_comm] using hx
          · simpa [Kernel.setQueue, hqr] using hx
        split
        · exact .some hrotate
        · exact .some hrotate
    exact .bind (hnext.after hsuspend) fun r h => .look fun b => .some h

theorem killProcess_livesOn {ret : Nat} {st : State} (hx : x ≠ p) :
    KeptBy (LivesOn x) Prod.fst k (killProcess k p ret st) := by
  unfold killProcess
  dsimp only
  split
  · exact .some (.of_queue rfl)
  · next k1 h =>
    have h1 : LivesOn x (leaveCurrent k p) k1 := by
      rcases Option.or_eq_some_iff.mp h with h | ⟨_, h⟩
      · exact switch_livesOn (.inr hx) h
      · rcases Option.or_eq_some_iff.mp h with h | ⟨_, h⟩
        · exact switch_livesOn (.inr hx) h
        · exact switch_livesOn (.inr hx) h
    exact .look fun b => .some h1

theorem semPost_livesOn {id : Int} : KeptBy (LivesOn x) Prod.fst k (semPost k id) := by
  unfold semPost post
  refine .look fun sem => .look fun sem' => ?_
  dsimp only
  split
  · exact .none
  · exact .bind (moveProcess_livesOn (by decide)) fun r h => .some h
  · exact .some (.of_queue rfl)

theorem semClose_livesOn {id : Int} : KeptBy (LivesOn x) Prod.fst k (semClose k id) := by
  unfold semClose
  split
  · exact .some (.of_queue rfl)
  · refine .look fun sem => ?_
    split
    · exact .some (.of_queue rfl)
    · split
      · exact .none
      · exact .some (.of_queue rfl)
      · exact .some (.of_queue rfl)

theorem uncountChild_livesOn : KeptBy (LivesOn x) id k (uncountChild k p) := by
  unfold uncountChild
  split
  · exact .some (.of_queue rfl)
  · refine .look fun b => ?_
    split
    · dsimp only
      split
      · refine .bind semPost_livesOn fun r h => ?_
        refine .bind (semClose_livesOn.after h) fun r' h' => .look fun b' => .some h'
      · exact .some (.of_queue rfl)
    · exact .some (.of_queue rfl)

theorem freeChild_livesOn : KeptBy (LivesOn x) id k (freeChild k p) := by
  refine .map (f := Prod.fst) ?_ fun r h => h
  exact .look fun b => .some setQueue_livesOn

theorem wakeUpWaitingParent_livesOn {child : Pid} :
    KeptBy (LivesOn x) id k (wakeUpWaitingParent k p child) := by
  unfold wakeUpWaitingParent
  split
  · exact .some (.of_queue rfl)
  · refine .look fun idle => .bind (f := id) ?_ fun k1 h => ?_
    · split
      · exact .look fun c => freeChild_livesOn
      · exact .some (.of_queue rfl)
    · split
      · exact .some h
      · refine .look fun b => ?_
        split
        · refine .bind (f := Prod.fst) ?_ fun r h' => .some h'
          exact .bind ((moveProcess_livesOn (by decide)).after h) fun r h' => .some h'
        · exact .some h

/-- `kill(p)` kills no other process. -/
theorem kill_livesOn {ret : Nat} (hx : x ≠ p) : KeptBy (LivesOn x) Prod.fst k (kill k p ret) := by
  unfold kill
  split
  · exact .some (.of_queue rfl)
  · refine .bind (killProcess_livesOn hx) fun r h => ?_
    dsimp only
    split
    · exact .some h
    · refine .look fun process => .bind (f := id) ?_ fun k1 h1 => ?_
      · split
        · exact uncountChild_livesOn.after h
        · exact .some h
      · refine .bind (wakeUpWaitingParent_livesOn.after h1) fun k2 h2 => ?_
        refine .look fun process' => .look fun idle => .bind (f := id) ?_ fun k3 h3 => ?_
        · split
          · exact freeChild_livesOn.after h2
          · exact .some h2
        · split
          · exact .some h3
          · exact .some h3

end

/-! ## One Ctrl+C -/

theorem ctrlC_livesOn {m m' : Machine} {off : Nat} {x : Pid} (hx : x ≠ getForegroundPid m.k)
    (h : m.ctrlC off = some m') : LivesOn x m.k m'.k := by
  obtain ⟨⟨k1, flow⟩, hkill, h⟩ := Option.bind_eq_some_iff.mp h
  have h1 := kill_livesOn hx _ hkill
  cases flow with
  | ret v =>
    cases h
    exact h1
  | tick =>
    obtain ⟨⟨k2, rsp⟩, hs, h⟩ := Option.bind_eq_some_iff.mp h
    cases h
    exact h1.trans (schedule_livesOn _ hs)

namespace Keyboard

/-- Two live processes in the foreground, neither of them the shell, and the standard output of
one is the standard input of the other. -/
structure Pipeline (k : Kernel) (p q : Pid) : Prop where
  two : p ≠ q
  notShell : p ≠ shellPid ∧ q ≠ shellPid
  live : k.Live p ∧ k.Live q
  joined : ∃ a b slot, k.procs p = some a ∧ k.procs q = some b ∧ a.foreground = true ∧
    b.foreground = true ∧ a.stdout = b.stdin ∧ pipeIdCheck k a.stdout = some slot

/-- Both processes are killed, and none in the background is. -/
structure EndsPipeline (k k' : Kernel) (p q : Pid) : Prop where
  left : ¬ k'.Live p
  right : ¬ k'.Live q
  background : ∀ x b, k.procs x = some b → b.foreground = false → LivesOn x k k'

/-- No Ctrl+C ends a pipeline, in whatever state it is taken. -/
theorem ctrlC_kills_one {s s' : Desk} {off : Nat} {c : UInt8} {p q : Pid}
    (hp : Pipeline s.m.k p q) (hc : (stroke s.keys c.toNat).2 = .interrupt)
    (h : step s (.key off c) = some s') : ¬ EndsPipeline s.m.k s'.m.k p q := by
  simp only [step, bufferWrite] at h
  obtain ⟨_, h⟩ := Option.ite_none_right_eq_some.mp h
  rw [hc] at h
  obtain ⟨m, hm, rfl⟩ := Option.map_eq_some_iff.mp h
  intro hends
  -- the foreground process is at most one of the two
  rcases eq_or_ne p (getForegroundPid s.m.k) with hpf | hpf
  · have hqf : q ≠ getForegroundPid s.m.k := fun hq => hp.two (hpf.trans hq.symm)
    exact hends.right (ctrlC_livesOn hqf hm hp.live.2)
  · exact hends.left (ctrlC_livesOn hpf hm hp.live.1)

instance (k : Kernel) (p : Pid) : Decidable (k.Live p) :=
  decidable_of_iff (p ∈ k.queue .ready ∨ p ∈ k.queue .blocked ∨ p ∈ k.queue .blockedBySem) <| by
    constructor
    · rintro (h | h | h)
      · exact ⟨.ready, by decide, h⟩
      · exact ⟨.blocked, by decide, h⟩
      · exact ⟨.blockedBySem, by decide, h⟩
    · rintro ⟨q, hq, h⟩
      cases q with
      | ready => exact .inl h
      | blocked => exact .inr (.inl h)
      | blockedBySem => exact .inr (.inr h)
      | zombie => exact absurd rfl hq

/-- The shell opens a pipe, starts a writer and a reader of it in the foreground, and lets the
writer run; then Ctrl is held down. -/
def startPipeline : List Event :=
  [.machine (.tick 0), .machine (.call 0 .openPipe),
    .machine (.call 0 (.createProcess
      { valid := true, priority := 1, foreground := true, stdin := 0, stdout := 3 })),
    .machine (.call 0 (.createProcess
      { valid := true, priority := 1, foreground := true, stdin := 3, stdout := 1 })),
    .machine (.call 0 .yield), .machine (.resume 0), .machine (.call 0 .yield), .key 0 0x1D]

/-- The writer runs when the C is pressed: it dies and the reader stays ready. -/
theorem startPipeline_run :
    ∃ s s', Reach (fun _ => true) s ∧ Pipeline s.m.k 2 3 ∧
      (stroke s.keys 0x2E).2 = .interrupt ∧ step s (.key 0 0x2E) = some s' ∧ ¬ s'.m.k.Live 2 ∧
      s'.m.k.Live 3 := by
  obtain ⟨s, _, hs, hlive, hleft, hright, hpipe, hstroke, hkey⟩ :
      ∃ s, Run.exec step Run.anyEvent ⟨bootKeys, boot fun _ => true⟩ startPipeline = some s ∧
        Reach (fun _ => true) s ∧ (s.m.k.Live 2 ∧ s.m.k.Live 3) ∧
        (s.m.k.procs 2).map (fun b => (b.foreground, b.stdout)) = some (true, 3) ∧
        (s.m.k.procs 3).map (fun b => (b.foreground, b.stdin)) = some (true, 3) ∧
        pipeIdCheck s.m.k 3 = some 1 ∧ (stroke s.keys 0x2E).2 = .interrupt ∧
        (step s (.key 0 0x2E)).any (fun s' => !decide (s'.m.k.Live 2) && decide (s'.m.k.Live 3)) =
          true := Run.exists_exec (by decide +kernel)
  obtain ⟨a, ha, hafd⟩ := Option.map_eq_some_iff.mp hleft
  obtain ⟨b, hb, hbfd⟩ := Option.map_eq_some_iff.mp hright
  obtain ⟨hafg, haout⟩ := Prod.mk.inj hafd
  obtain ⟨hbfg, hbin⟩ := Prod.mk.inj hbfd
  have hp : Pipeline s.m.k 2 3 :=
    ⟨by decide, by decide, hlive, a, b, 1, ha, hb, hafg, hbfg, haout.trans hbin.symm, haout ▸ hpipe⟩
  cases hstep : step s (.key 0 0x2E) with
  | none =>
    rw [hstep] at hkey
    cases hkey
  | some s' =>
    rw [hstep, Option.any_some, Bool.and_eq_true, Bool.not_eq_true', decide_eq_false_iff_not,
      decide_eq_true_eq] at hkey
    exact ⟨s, s', hs, hp, hstroke, hstep, hkey⟩

theorem ctrlC_kills_one_writer :
    ∃ s s', Reach (fun _ => true) s ∧ step s (.key 0 0x2E) = some s' ∧
      ¬ EndsPipeline s.m.k s'.m.k 2 3 := by
  obtain ⟨s, s', hs, hp, hc, hstep, _⟩ := startPipeline_run
  exact ⟨s, s', hs, hstep, ctrlC_kills_one (c := 0x2E) hp hc hstep⟩

/-- A Ctrl+C kills the writer of a pipe that runs, and not its reader. -/
theorem ctrlC_spares_reader :
    ∃ s s', Reach (fun _ => true) s ∧ Pipeline s.m.k 2 3 ∧
      (stroke s.keys 0x2E).2 = .interrupt ∧ step s (.key 0 0x2E) = some s' ∧ ¬ s'.m.k.Live 2 ∧
      s'.m.k.Live 3 ∧ ¬ EndsPipeline s.m.k s'.m.k 2 3 := by
  obtain ⟨s, s', hs, hp, hc, hstep, hdead, hlive⟩ := startPipeline_run
  exact ⟨s, s', hs, hp, hc, hstep, hdead, hlive, fun h => h.right hlive⟩

end Keyboard

end SoKernel
