import SoKernel.Kernel.Invariant

/-!
# `waitpid`

What a parent learns of the death of its child.

Results:
1. `waitpidDone_fails`: in every run, every call of `waitpid` that returns has
   failed, and has stored nothing.
2. `waitpid_never_reports`: so no child is ever reported.
-/

namespace SoKernel

/-- What `waitpid(child, &st)` owes to `parent` when the child was killed with
`retValue`: `ret` is what it returned and `stored` what it wrote to `st`. -/
structure Reported (k : Kernel) (parent child : Pid) (retValue : Nat) (ret : Pid)
    (stored : Option Int) : Prop where
  ret : ret = child
  stored : stored = some (toInt32 retValue)
  waiting : ∀ b, k.procs parent = some b → b.waitingForPid = -1

section

variable {allocs : Nat → Bool} {ok : Machine → Event → Prop} {m : Machine}

/-- A zombie is freed by the call that makes it one, so `waitpid` never finds it. -/
theorem waitpidDone_fails (h : Reach allocs ok m) {p c v : Pid} {st : Option Int}
    (hd : .waitpidDone p c v st ∈ m.k.log) : v = -1 ∧ st = none := by
  refine h.kernel (P := fun k => .waitpidDone p c v st ∈ k.log → v = -1 ∧ st = none) ?_ ?_ ?_ hd
  · intro hd
    simp [boot_log] at hd
  · intro m c' e l k k' R _ hl _ hP he hd
    rcases he.mem_log hd with hd | hlogs
    · exact hP hd
    · obtain rfl : l = .note (.waitpidDone p c v st) := by
        cases l with
        | note o => exact congrArg Label.note hlogs.1.symm
        | _ => cases hlogs
      exact (hl.resolve_left (by simp)).note.2 p c v st rfl
  · intro k k' rsp sp p n _ hP W hd
    rw [W.log] at hd
    refine hP ?_
    cases hf : k.first <;> simpa [hf] using hd

/-- No call of `waitpid` reports a child that was killed. -/
theorem waitpid_never_reports (h : Reach allocs ok m) {p c v : Pid} {r : Nat} {st : Option Int}
    (hd : .waitpidDone p c v st ∈ m.k.log) : ¬ Reported m.k p c r v st := by
  obtain ⟨_, rfl⟩ := waitpidDone_fails h hd
  exact fun h => Option.some_ne_none _ h.stored.symm

end

/-- The shell has two children and waits for the first; the second kills it. -/
def waitAndKill : List Event :=
  [.tick 0, .call 0 (.createProcess backgroundArgs), .call 0 (.createProcess backgroundArgs),
    .call 0 (.waitpid 2), .call 0 .yield, .call 0 (.kill 2 42), .call 0 .yield, .resume 0,
    .call 0 .yield, .resume 0]

theorem waitAndKill_run :
    ∃ m, Run.exec Machine.step Run.anyEvent (boot fun _ => true) waitAndKill = some m ∧
      Reach (fun _ => true) Run.anyEvent m ∧
      .killed 2 1 42 ∈ m.k.log ∧ .waitpidDone 1 2 (-1) none ∈ m.k.log :=
  Run.exists_exec (by decide +kernel)

theorem waitpid_never_reports_two : ∃ m, Reach (fun _ => true) Run.anyEvent m ∧
    .waitpidDone 1 2 (-1) none ∈ m.k.log ∧ ¬ Reported m.k 1 2 42 (-1) none := by
  obtain ⟨m, _, hm, _, hd⟩ := waitAndKill_run
  exact ⟨m, hm, hd, waitpid_never_reports hm hd⟩

/-- The shell waits for a child that is killed, and is told nothing. -/
theorem waitpid_misses_child :
    ∃ m, Run.exec Machine.step Run.anyEvent (boot fun _ => true) waitAndKill = some m ∧
      .killed 2 1 42 ∈ m.k.log ∧ .waitpidDone 1 2 (-1) none ∈ m.k.log ∧
      ¬ Reported m.k 1 2 42 (-1) none := by
  obtain ⟨m, he, _, hk, hd⟩ := waitAndKill_run
  exact ⟨m, he, hk, hd, fun h => Option.some_ne_none _ h.stored.symm⟩

end SoKernel
