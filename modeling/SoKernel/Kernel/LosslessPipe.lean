import SoKernel.Kernel.PipeRuns

/-!
# Pipes lose nothing

An open pipe, any number of readers and of writers, and every interleaving of their
operations.

Results:
1. `Reach.neverCleared`: where nobody calls `pipeClear`, no critical section of it is run.
2. `reach_pipeLossless`: the pipe is a queue of at most `PIPE_BUFFER_SIZE` bytes, its guards hold
   when they are tested, and every call moves as many bytes as it was asked to.
-/

namespace SoKernel

/-- The pipe is a queue between its writers and its readers. -/
structure LosslessPipe (slot : Nat) (m : Machine) : Prop where
  count_le : (m.k.pipes slot).count ≤ pipeBufferSize
  writeIdx : (m.k.pipes slot).writeIdx =
    ((m.k.pipes slot).readIdx + (m.k.pipes slot).count) % pipeBufferSize
  /-- The guards, for whoever is in a critical section. -/
  guardRead : ∀ p size i buffer n, m.cont p = .pipe slot (.read size i buffer n) .critical →
    0 < (m.k.pipes slot).count
  guardWrite : ∀ p data i n, m.cont p = .pipe slot (.write data i n) .critical →
    (m.k.pipes slot).count < pipeBufferSize
  /-- The bytes taken, in the order of the critical sections, are the first ones put. -/
  fifo : (taken slot m.k.log).map Prod.snd <+: (written slot m.k.log).map Prod.snd
  readDone : ∀ p size bytes ret, .readDone slot p size bytes ret ∈ m.k.log →
    ret = size ∧ bytes.length = size
  writeDone : ∀ p data ret, .writeDone slot p data ret ∈ m.k.log → ret = data.length
  /-- What a reader has taken is what its calls have delivered, and what it has in its buffer. -/
  delivers : ∀ p, bytesOf p (taken slot m.k.log) =
    delivered slot p m.k.log ++ (m.cont p).received slot
  /-- What a writer has put is what its calls were given, and the part of the one in progress
  that it has come to. -/
  accepts : ∀ p, bytesOf p (written slot m.k.log) =
    accepted slot p m.k.log ++ (m.cont p).sent slot
  /-- The bytes that have arrived, with their writers: those of each one in its order. -/
  inOrder : ∃ arrived, arrived <+: written slot m.k.log ∧
    arrived.map Prod.snd = (taken slot m.k.log).map Prod.snd ∧
    ∀ p, bytesOf p arrived <+: accepted slot p m.k.log ++ (m.cont p).sent slot

section

variable {m : Machine} {c p : Pid} {e : Event} {k1 : Kernel} {next : Cont} {flow : Flow} {slot : Nat}
  {id r w x : Int} {stage : Stage} {allocs : Nat → Bool}

/-- A `pipeClear` in progress was so before, or is being called. -/
theorem Turn.clearing (T : Turn m c e k1 next flow) (h : next.onPipe slot = some (.clear, stage)) :
    (∃ stage, (m.cont m.cpu).onPipe slot = some (.clear, stage)) ∨ e.clears slot m = true := by
  have hpipe : ∀ {s op st}, (Cont.pipe s op st).onPipe slot = some (.clear, stage) →
      s = slot ∧ op = .clear := by
    intro s op st h
    obtain rfl := Cont.onPipe_eq h
    rw [Cont.onPipe_pipe] at h
    cases h
    exact ⟨rfl, rfl⟩
  have hsame : ∀ {s op st st'}, m.cont m.cpu = .pipe s op st →
      (Cont.pipe s op st').onPipe slot = some (.clear, stage) →
      ∃ stage, (m.cont m.cpu).onPipe slot = some (.clear, stage) := by
    intro s op st st' hc h
    obtain ⟨rfl, rfl⟩ := hpipe h
    exact ⟨st, by rw [hc, Cont.onPipe_pipe]⟩
  cases T with
  | @entered off s call op st _ _ _ _ hclears =>
    obtain ⟨rfl, rfl⟩ := hpipe h
    have hcall := hclears rfl
    cases call with
    | clearPipe id => exact .inr (by simpa [Event.clears, Call.Clears] using hcall)
    | _ => exact hcall.elim
  | waited hc =>
    refine .inl ⟨stage, ?_⟩
    rw [hc]
    exact h
  | passed hc => exact .inl (hsame hc h)
  | slept hc => exact .inl (hsame hc h)
  | read => cases (hpipe h).2
  | written => cases (hpipe h).2
  | _ => cases h

theorem Reach.neverCleared (h : Reach allocs (ReadsAndWrites slot) m) :
    ∀ p stage, (m.cont p).onPipe slot ≠ some (.clear, stage) := by
  refine h.machine (P := fun m => ∀ p stage, (m.cont p).onPipe slot ≠ some (.clear, stage)) ?_ ?_ ?_
  · intro p stage hp
    cases hp
  · intro off m' hi p stage hp
    rw [(boot_dispatch hi).1] at hp
    cases hp
  · intro m c e m' R hm he hs
    have hturn : ∀ {k1 next flow}, Turn m c e k1 next flow → ∀ p stage,
        (Function.update m.cont m.cpu next p).onPipe slot ≠ some (.clear, stage) := by
      intro k1 next flow T p stage hp
      rcases eq_or_ne p m.cpu with rfl | hne
      · rw [Function.update_self] at hp
        rcases T.clearing hp with ⟨st, hst⟩ | hclears
        · exact hm _ _ hst
        · exact Bool.false_ne_true (he.2.2.symm.trans hclears)
      · rw [Function.update_of_ne hne] at hp
        exact hm p stage hp
    cases R.stepped hs with
    | stayed T hm' =>
      subst hm'
      exact hturn T
    | counted _ hm' =>
      subst hm'
      exact hm
    | switched T _ _ hcont =>
      rw [hcont]
      exact hturn T

/-- While allocations succeed and nobody clears the pipe, nothing is cleared away and no wait
is given up. -/
theorem Reach.clearsEmpty (h : Reach (fun _ => true) (ReadsAndWrites slot) m) :
    Reach (fun _ => true) (ClearsEmpty slot) m := by
  refine Run.mono h.reached ?_
  rintro m e ⟨he, hr⟩
  refine ⟨he.1, he.2.1, ?_, ?_⟩
  · cases e with
    | resume off =>
      have hne : m.cont m.cpu ≠ .pipe slot .clear .critical := by
        intro hc
        exact hr.neverCleared m.cpu .critical (by rw [hc, Cont.onPipe_pipe])
      simp [Event.discards, hne]
    | _ => rfl
  · cases e with
    | resume off =>
      have hmem := Reach.allocs hr 0
      unfold Event.starves
      cases m.cont m.cpu with
      | pipe s op stage => cases (m.k.pipes slot).awaited op stage <;> simp [hmem]
      | _ => rfl
    | _ => rfl

/-- What the books say to the users of the pipe. -/
theorem Channel.lossless (C : Channel slot r w x m.k m.cont) (h : Reach allocs Calm m) :
    LosslessPipe slot m := by
  have F := C.traffic
  have hfifo : (taken slot m.k.log).map Prod.snd <+: (written slot m.k.log).map Prod.snd :=
    ⟨_, F.fifo.symm⟩
  refine ⟨F.ring.count_le, F.ring.writeIdx, ?_, ?_, hfifo, F.readDone, F.writeDone,
    fun p => (C.clients p).taken, fun p => (C.clients p).written, ?_⟩
  · intro p size i buffer n hp
    exact F.guard_read h C.clients (p := p) (by rw [hp, Cont.tokens_pipe]; rfl)
  · intro p data i n hp
    exact F.guard_write h C.clients (p := p) (by rw [hp, Cont.tokens_pipe]; rfl)
  · refine ⟨(written slot m.k.log).take (taken slot m.k.log).length, List.take_prefix _ _, ?_,
      fun p => ?_⟩
    · have htake := List.prefix_iff_eq_take.mp hfifo
      rw [List.length_map] at htake
      rw [List.map_take, htake.symm]
    · rw [← (C.clients p).written]
      exact ((List.take_prefix _ _).filter _).map _

/-- In every run without kills and closes, in which nobody clears the pipe and its semaphores
are left to its operations. -/
theorem reach_pipeLossless (h : Reach (fun _ => true) (ReadsAndWrites slot) m)
    (ho : .pipeOpened slot id ∈ m.k.log) : LosslessPipe slot m := by
  obtain ⟨r, w, x, C⟩ := h.clearsEmpty.channel ho
  exact C.lossless (h.mono fun _ _ he => he.1)

/-- The shell reads two bytes from a pipe, and its child writes three. -/
def threeBytes : List Event :=
  [.tick 0, .call 0 .openPipe, .call 0 (.createProcess backgroundArgs), .call 0 (.readPipe 3 2),
    .resume 0, .call 0 (.writePipe 3 [7, 8, 9])] ++ List.replicate 10 (.resume 0) ++
  [.call 0 .yield, .resume 0, .call 0 .yield] ++ List.replicate 7 (.resume 0)

theorem threeBytes_run : ∃ m, Run.exec Machine.step (ReadsAndWrites 1) (boot fun _ => true)
    threeBytes = some m ∧ Reach (fun _ => true) (ReadsAndWrites 1) m ∧
      .pipeOpened 1 3 ∈ m.k.log ∧ taken 1 m.k.log = [(1, 7), (1, 8)] ∧
      .readDone 1 1 2 [7, 8] 2 ∈ m.k.log ∧ .writeDone 1 2 [7, 8, 9] 3 ∈ m.k.log :=
  Run.exists_exec (by decide +kernel)

theorem reach_pipeLossless_three : ∃ m, Reach (fun _ => true) (ReadsAndWrites 1) m ∧
    taken 1 m.k.log = [(1, 7), (1, 8)] ∧ LosslessPipe 1 m := by
  obtain ⟨m, _, hm, ho, ht, _⟩ := threeBytes_run
  exact ⟨m, hm, ht, reach_pipeLossless hm ho⟩

end

end SoKernel
