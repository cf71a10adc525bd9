import SoKernel.Kernel.Invariant

/-!
# The queues of the process manager

As long as there is memory and no process is created with the priority of idle, the
queues hold exactly the processes that were created and not killed.

Results:
1. `Lives.effect`, `createProcess_placed`: no effect loses a process, and a new one
   enters a queue.
2. `reach_queues_partition`: the queues partition the processes, by state.
-/

namespace SoKernel

/-- Every pid below `n` is in a queue or was killed, and a killed process is gone. -/
structure Lives (n : Pid) (k : Kernel) : Prop where
  placed : ∀ p, 0 < p → p < n →
    (∃ q, q ≠ .zombie ∧ p ∈ k.queue q) ∨ ∃ a r, .killed p a r ∈ k.log
  killed : ∀ p a r, .killed p a r ∈ k.log →
    p < k.nextPid ∧ (p ∈ k.queue .zombie ∨ k.procs p = none)
  zombie : ∀ p, p ∈ k.queue .zombie → ∃ a r, .killed p a r ∈ k.log
  allocs : ∀ i, k.allocs i = true

section Effects

variable {k k' : Kernel} {l : Label} {p n : Pid} {q : QueueName} {flow : Flow}

/-- A process leaves the queues only by dying. -/
theorem Effect.mem_queue (h : Effect l k k') (C : Core k) (hp : p ∈ k.queue q) (hq : q ≠ .zombie) :
    (∃ q', q' ≠ .zombie ∧ p ∈ k'.queue q') ∨ ∃ a r, .killed p a r ∈ k'.log := by
  have hmove : ∀ {x f t} (b' : PCB), x ∈ k.queue f → f ≠ t → t ≠ .zombie →
      ∃ q', q' ≠ .zombie ∧ p ∈ (k.move f t x b').queue q' := by
    intro x f t b' hx hft ht
    rcases eq_or_ne p x with rfl | hpx
    · exact ⟨t, ht, (mem_move (C.nodup f) hft).mpr (.inr ⟨rfl, rfl⟩)⟩
    · exact ⟨q, hq, (mem_move (C.nodup f) hft).mpr (.inl ⟨hp, fun _ => hpx⟩)⟩
  cases h with
  | block hx => exact .inl (hmove _ hx (by decide) (by decide))
  | unblock hx => exact .inl (hmove _ hx (by decide) (by decide))
  | @sleep _ _ _ _ _ b' _ _ _ _ hx =>
    exact .inl (hmove b' hx (by decide) (by decide))
  | stray _ hx => exact .inl (hmove _ hx (by decide) (by decide))
  | @wake _ _ _ _ _ b' _ _ hx => exact .inl (hmove b' hx (by decide) (by decide))
  | @enter _ x t =>
    refine .inl ⟨q, hq, ?_⟩
    show p ∈ Function.update k.queue t (k.queue t ++ [x]) q
    rcases eq_or_ne q t with rfl | hqt
    · simp [hp]
    · simpa [hqt] using hp
  | @die _ x f _ b' hx hf =>
    rcases eq_or_ne p x with rfl | hpx
    · exact .inr ⟨_, _, List.mem_cons_self⟩
    · have hmem : p ∈ (k.move f .zombie x b').queue q :=
        (mem_move (C.nodup f) hf).mpr (.inl ⟨hp, fun _ => hpx⟩)
      exact .inl ⟨q, hq, hmem⟩
  | @reap _ x =>
    refine .inl ⟨q, hq, ?_⟩
    simpa [Kernel.setQueue, hq] using hp
  | _ => exact .inl ⟨q, hq, hp⟩

/-- A new zombie has been killed. -/
theorem Effect.mem_zombie_killed (h : Effect l k k') (hp : p ∈ k'.queue .zombie) :
    p ∈ k.queue .zombie ∨ ∃ a r, .killed p a r ∈ k'.log := by
  cases h with
  | @die _ x f _ b' =>
    have hp : p ∈ (k.move f .zombie x b').queue .zombie := hp
    rw [move_queue_to] at hp
    rcases List.mem_append.mp hp with h | h
    · exact .inl h
    · obtain rfl := List.mem_singleton.mp h
      exact .inr ⟨_, _, List.mem_cons_self⟩
  | enter _ _ _ _ hq =>
    refine .inl ?_
    rcases hq with ⟨rfl, _⟩ | ⟨rfl, _⟩ <;> simpa [Kernel.setQueue] using hp
  | @reap _ x =>
    have hmem : p ∈ (k.queue .zombie).erase x := by simpa [Kernel.setQueue] using hp
    exact .inl (List.mem_of_mem_erase hmem)
  | _ => exact .inl hp

/-- No effect loses a process. -/
theorem Lives.effect (L : Lives n k) (C : Core k) (h : Effect l k k') : Lives n k' where
  placed p h0 hn := by
    rcases L.placed p h0 hn with ⟨q, hq, hp⟩ | ⟨a, r, hk⟩
    · exact h.mem_queue C hp hq
    · exact .inr ⟨a, r, h.log_mono hk⟩
  killed p a r hk := by
    rcases h.mem_log hk with hk | hlogs
    · obtain ⟨hlt, hd⟩ := L.killed p a r hk
      refine ⟨Int.lt_of_lt_of_le hlt h.nextPid_le, ?_⟩
      rcases hd with hd | hd
      · exact h.dead C hd
      · exact .inr (h.freed hd hlt)
    · have C' := C.effect h
      cases l with
      | die x =>
        obtain rfl : p = x := hlogs
        exact ⟨C'.lt_nextPid h.mem_zombie, .inl h.mem_zombie⟩
      | note o =>
        obtain ⟨rfl, ho⟩ := hlogs
        cases ho
      | _ => cases hlogs
  zombie p hp := by
    rcases h.mem_zombie_killed hp with h' | h'
    · obtain ⟨a, r, hk⟩ := L.zombie p h'
      exact ⟨a, r, h.log_mono hk⟩
    · exact h'
  allocs := h.allocs L.allocs

/-! ## Creation -/

theorem enqueue_of_alloc (h : k.allocs 0 = true) :
    (k.enqueue q p).queue q = k.queue q ++ [p] ∧ (k.enqueue q p).nextPid = k.nextPid := by
  simp [Kernel.enqueue, Kernel.allocMemory, h, Kernel.setQueue]

theorem addProcess_of_alloc (h : k.allocs 0 = true) :
    p ∈ (addProcess k p).queue .ready ∧ (addProcess k p).nextPid = k.nextPid := by
  unfold addProcess
  dsimp only
  split
  · obtain ⟨h1, h2⟩ := enqueue_of_alloc (k := { k with currentProcess := some p })
      (q := .ready) (p := p) h
    exact ⟨by rw [h1]; simp, h2⟩
  · obtain ⟨h1, h2⟩ := enqueue_of_alloc (k := k) (q := .ready) (p := p) h
    exact ⟨by rw [h1]; simp, h2⟩

theorem Effects.counting (h : Effects Label.Counting k k') :
    k'.nextPid = k.nextPid ∧ ((∀ i, k.allocs i = true) → ∀ i, k'.allocs i = true) := by
  refine h.invariant (P := fun k' => k'.nextPid = k.nextPid ∧
    ((∀ i, k.allocs i = true) → ∀ i, k'.allocs i = true)) ⟨rfl, id⟩ ?_
  rintro l k1 k2 hl ⟨hn, ha⟩ he
  refine ⟨?_, fun h => he.allocs (ha h)⟩
  cases he with
  | create => simp [Label.Counting] at hl
  | _ => exact hn

theorem placeProcess_placed {args : ProcessArgs} {b : PCB} {r : Option Pid}
    (ha : ∀ i, k.allocs i = true) (h2 : b.pid > 1) (hprio : b.priority ≠ idlePriority)
    (h : placeProcess k args b = some (k', r)) :
    k'.nextPid = k.nextPid ∧ ∃ q, q ≠ .zombie ∧ b.pid ∈ k'.queue q := by
  rcases (placeProcess_cases h2 h).2 with ⟨_, rfl⟩ | ⟨_, b1, k1, _, _, h5, rfl⟩
  · obtain ⟨h1, h3⟩ := enqueue_of_alloc (q := .blocked) (p := b.pid)
      (k := k.setPCB b.pid { b with stdout := args.stdout, state := .BLOCKED }) (ha 0)
    exact ⟨h3, .blocked, by decide, by rw [h1]; simp⟩
  · have hcount : Effects Label.Counting (k.setPCB b.pid b1) k1 := by
      split at h5
      · exact countChild_effects h5
      · cases h5
        exact .refl
    obtain ⟨hn, ha1⟩ := hcount.counting
    have hadd : ∀ b' : PCB, b'.priority = b.priority → b'.pid = b.pid →
        addUnlessIdle k1 b' = addProcess k1 b.pid := by
      intro b' hb hp
      rw [addUnlessIdle, hb, hp, if_pos hprio]
    rw [hadd _ rfl rfl]
    obtain ⟨h7, h8⟩ := addProcess_of_alloc (p := b.pid) (ha1 ha 0)
    exact ⟨h8.trans hn, .ready, by decide, h7⟩

/-- With memory, and a priority below that of idle, a new process enters a queue. -/
theorem createProcess_placed {args : ProcessArgs} (C : Core k) (ha : ∀ i, k.allocs i = true)
    (hprio : args.priority ≤ 5) (h : createProcess k args = some (k', flow)) :
    k'.nextPid = k.nextPid ∨
      k'.nextPid = k.nextPid + 1 ∧ ∃ q, q ≠ .zombie ∧ k.nextPid ∈ k'.queue q := by
  rcases createProcess_cases h with ⟨⟨_, rfl⟩ | ⟨_, h0, _⟩ | ⟨_, h1, _⟩, _⟩ | ⟨_, r, hplace, _⟩
  · exact .inl rfl
  · exact Bool.noConfusion ((ha 0).symm.trans h0)
  · exact Bool.noConfusion ((ha 1).symm.trans h1)
  · have hle : ¬ (args.priority : Int) > idlePriority := by
      unfold idlePriority
      omega
    refine .inr (placeProcess_placed ?_ ?_ ?_ hplace)
    · exact fun i => ha (i + 2)
    · exact Int.lt_of_lt_of_le (by decide) C.nextPid
    · show (if (args.priority : Int) > idlePriority then maxPriority else args.priority) ≠ _
      rw [if_neg hle]
      unfold idlePriority
      omega

end Effects

/-! ## Runs -/

theorem Event.Admits.create {m : Machine} {c p : Pid} {e : Event} (h : e.Admits m c (.create p)) :
    ∃ off args, e = .call off (.createProcess args) := by
  cases e with
  | tick => cases h
  | ctrlC => simp [Event.Admits, Label.Killing, Label.Mourning] at h
  | resume => cases h
  | call off sc =>
    rcases h with h | ⟨_, h⟩ | h
    · cases sc with
      | createProcess args => exact ⟨off, args, rfl⟩
      | _ => simp [Call.Admits, Label.Killing, Label.Mourning] at h
    · cases h
    · cases h

section Runs

variable {m m' : Machine} {c n : Pid} {e : Event} {k k' : Kernel}

theorem Lives.switch {rsp sp : Sp} {p : Pid} (L : Lives n k) (W : Switch k rsp k' sp p c) :
    Lives n k' := by
  have hkilled : ∀ {x a r}, .killed x a r ∈ k'.log ↔ .killed x a r ∈ k.log := by
    intro x a r
    rw [W.log]
    cases k.first <;> simp
  have hnone : ∀ {x}, k.procs x = none → k'.procs x = none := by
    intro x hx
    cases hb : k'.procs x with
    | none => rfl
    | some b' =>
      obtain ⟨b, hb, _⟩ := W.saved x b' hb
      cases hx.symm.trans hb
  constructor
  · intro x h0 hn
    rcases L.placed x h0 hn with ⟨q, hq, hx⟩ | ⟨a, r, hk⟩
    · exact .inl ⟨q, hq, (W.rest.mem q x).mpr hx⟩
    · exact .inr ⟨a, r, hkilled.mpr hk⟩
  · intro x a r hk
    obtain ⟨hlt, hd⟩ := L.killed x a r (hkilled.mp hk)
    exact ⟨W.rest.nextPid ▸ hlt, hd.imp (W.rest.mem .zombie x).mpr hnone⟩
  · intro x hx
    obtain ⟨a, r, hk⟩ := L.zombie x ((W.rest.mem .zombie x).mp hx)
    exact ⟨a, r, hkilled.mpr hk⟩
  · rw [W.rest.allocs]
    exact L.allocs

/-- One more pid. -/
theorem Lives.succ (L : Lives n k) (hq : ∃ q, q ≠ .zombie ∧ n ∈ k.queue q) : Lives (n + 1) k := by
  refine ⟨fun p h0 hn => ?_, L.killed, L.zombie, L.allocs⟩
  rcases Int.lt_or_eq_of_le (Int.lt_add_one_iff.mp hn) with hlt | rfl
  · exact L.placed p h0 hlt
  · exact .inl hq

/-- No process is created with the priority of idle. -/
def LowPriority (_ : Machine) : Event → Prop
  | .call _ (.createProcess args) => args.priority ≤ 5
  | _ => True

instance (m : Machine) (e : Event) : Decidable (LowPriority m e) :=
  match e with
  | .call _ (.createProcess args) => inferInstanceAs (Decidable (args.priority ≤ 5))
  | .call _ .yield | .call _ (.kill _ _) | .call _ (.exit _) | .call _ (.block _)
  | .call _ (.unblock _) | .call _ (.waitpid _) | .call _ (.changePrio _ _)
  | .call _ (.semOpen _ _) | .call _ (.semWait _) | .call _ (.semPost _) | .call _ (.semClose _)
  | .call _ .openPipe | .call _ (.closePipe _) | .call _ (.clearPipe _) | .call _ (.readPipe _ _)
  | .call _ (.writePipe _ _) | .tick _ | .ctrlC _ | .resume _ => .isTrue trivial

/-- What a step does to the pids. -/
theorem Running.nextPid_step (R : Running m c) (ha : ∀ i, m.k.allocs i = true)
    (hok : LowPriority m e) (h : m.step e = some m') :
    m'.k.nextPid = m.k.nextPid ∨ m'.k.nextPid = m.k.nextPid + 1 ∧
      ∃ q, q ≠ .zombie ∧ m.k.nextPid ∈ m'.k.queue q := by
  by_cases hcreate : ∃ off args, e = .call off (.createProcess args)
  · obtain ⟨off, args, rfl⟩ := hcreate
    obtain ⟨_, h1⟩ := Option.ite_none_right_eq_some.mp h
    obtain ⟨⟨k1, flow⟩, h2, h3⟩ := Option.bind_eq_some_iff.mp h1
    obtain ⟨⟨k2, r⟩, h4, h5⟩ := Option.bind_eq_some_iff.mp h2
    cases h5
    cases h3
    have hplaced := createProcess_placed R.core ha hok h2
    exact hplaced
  · refine .inl ?_
    refine R.kernel h (P := fun k => k.nextPid = m.k.nextPid) rfl ?_ ?_
    · intro l k k' hl _ hk he
      cases he with
      | create => exact absurd (hl.resolve_left (by simp)).create hcreate
      | _ => exact hk
    · exact fun _ hk W => W.rest.nextPid.trans hk

theorem Running.lives_step (R : Running m c) (L : Lives m.k.nextPid m.k) (hok : LowPriority m e)
    (h : m.step e = some m') : Lives m'.k.nextPid m'.k := by
  have L' : Lives m.k.nextPid m'.k :=
    R.kernel h L (fun _ C L he => L.effect C he) (fun _ L W => L.switch W)
  rcases R.nextPid_step L.allocs hok h with hn | ⟨hn, hq⟩
  · rw [hn]
    exact L'
  · rw [hn]
    exact L'.succ hq

theorem boot_lives : Lives (boot fun _ => true).k.nextPid (boot fun _ => true).k where
  placed p h0 hn := by
    rw [boot_nextPid] at hn
    obtain rfl : p = 1 := Int.le_antisymm (Int.lt_add_one_iff.mp hn) h0
    exact .inl ⟨.ready, by decide, by decide⟩
  killed p a r h := by simp [boot_log] at h
  zombie p h := by cases (boot_member h).1
  allocs i := rfl

/-- In a reachable state every process is in a queue. -/
theorem Reach.lives (h : Reach (fun _ => true) LowPriority m) : Lives m.k.nextPid m.k := by
  refine h.machine (P := fun m => Lives m.k.nextPid m.k) boot_lives ?_ ?_
  · intro off m' hi
    obtain ⟨_, _, _, _, W, _⟩ := boot_dispatch hi
    rw [W.rest.nextPid]
    exact boot_lives.switch W
  · exact fun R L hok hs => R.lives_step L hok hs

/-- The queues partition the processes, by state; idle is in none. -/
structure Partitioned (k : Kernel) : Prop where
  nodup : (k.queue .ready ++ k.queue .blocked ++ k.queue .blockedBySem ++ k.queue .zombie).Nodup
  noZombie : k.queue .zombie = []
  /-- A process that was created and not killed is in one queue. -/
  placed : ∀ p, 0 < p → p < k.nextPid → (∀ a r, .killed p a r ∉ k.log) →
    (∃ b, k.procs p = some b) ∧ ∃! q, p ∈ k.queue q
  gone : ∀ p a r, .killed p a r ∈ k.log → k.procs p = none ∧ k.Outside p
  ready : ∀ p, p ∈ k.queue .ready ↔
    p ≠ 0 ∧ ∃ b, k.procs p = some b ∧ (b.state = .READY ∨ b.state = .RUNNING)
  blocked : ∀ p, p ∈ k.queue .blocked ∨ p ∈ k.queue .blockedBySem ↔
    p ≠ 0 ∧ ∃ b, k.procs p = some b ∧ b.state = .BLOCKED
  running : ∀ p b, k.procs p = some b → b.state = .RUNNING → k.currentProcess = some p
  current : ∃ c, k.currentProcess = some c ∧ (k.idleProcess = some c ∨ ∃ q, c ∈ k.queue q)
  foreground : ∀ p, k.foregroundProcess = some p → ∃ b, k.procs p = some b ∧ b.foreground = true

theorem Core.append_nodup {l : List Pid} (C : Core k) (hl : l.Nodup) (q : QueueName)
    (h : ∀ p, p ∈ l → p ∉ k.queue q) : (l ++ k.queue q).Nodup :=
  List.nodup_append.mpr ⟨hl, C.nodup q, fun a ha _ hb hab => h a ha (hab ▸ hb)⟩

theorem Core.queues_nodup (C : Core k) :
    (k.queue .ready ++ k.queue .blocked ++ k.queue .blockedBySem ++ k.queue .zombie).Nodup := by
  have hne : ∀ {p q q'}, q ≠ q' → p ∈ k.queue q → p ∉ k.queue q' :=
    fun h hp hp' => h (C.queue_eq hp hp')
  refine C.append_nodup (C.append_nodup (C.append_nodup (C.nodup _) _ ?_) _ ?_) _ ?_
  · exact fun p => hne (by decide)
  · intro p hp
    rcases List.mem_append.mp hp with hp | hp
    · exact hne (by decide) hp
    · exact hne (by decide) hp
  · intro p hp
    rcases List.mem_append.mp hp with hp | hp
    · rcases List.mem_append.mp hp with hp | hp
      · exact hne (by decide) hp
      · exact hne (by decide) hp
    · exact hne (by decide) hp

theorem Lives.partitioned (L : Lives k.nextPid k) (C : Core k) (hz : k.queue .zombie = [])
    (hcur : ∃ p, k.currentProcess = some p ∧ (p = 0 ∨ p ∈ k.queue .ready)) : Partitioned k := by
  have hgone : ∀ p a r, .killed p a r ∈ k.log → k.procs p = none := by
    intro p a r hk
    have hd := (L.killed p a r hk).2
    rw [hz] at hd
    exact hd.resolve_left List.not_mem_nil
  -- a live process has not been killed, so it is in a queue
  have hlive : ∀ {p b}, p ≠ 0 → k.procs p = some b → ∃ q, q ≠ .zombie ∧ p ∈ k.queue q := by
    intro p b h0 hb
    obtain ⟨_, hp0, hpn⟩ := C.pcb p b hb
    rcases L.placed p (Int.lt_iff_le_and_ne.mpr ⟨hp0, h0.symm⟩) hpn with h | ⟨a, r, hk⟩
    · exact h
    · cases (hgone p a r hk).symm.trans hb
  have hstate : ∀ {p b q}, k.procs p = some b → p ∈ k.queue q → q.Holds b.state := by
    intro p b q hb hq
    obtain ⟨b', hb', hs⟩ := C.member q p hq
    obtain rfl := Option.some.inj (hb.symm.trans hb')
    exact hs
  refine ⟨C.queues_nodup, hz, ?_, ?_, ?_, ?_, C.running, ?_, C.foreground⟩
  · intro p h0 hn hk
    rcases L.placed p h0 hn with ⟨q, _, hq⟩ | ⟨a, r, h⟩
    · obtain ⟨b, hb, _⟩ := C.member q p hq
      exact ⟨⟨b, hb⟩, q, hq, fun q' hq' => C.queue_eq hq' hq⟩
    · exact absurd h (hk a r)
  · intro p a r hk
    refine ⟨hgone p a r hk, fun q hq => ?_⟩
    obtain ⟨b, hb, _⟩ := C.member q p hq
    cases (hgone p a r hk).symm.trans hb
  · intro p
    constructor
    · intro hp
      obtain ⟨b, hb, hs⟩ := C.member .ready p hp
      exact ⟨C.ne_zero hp, b, hb, hs⟩
    · rintro ⟨h0, b, hb, hs⟩
      obtain ⟨q, hq, hp⟩ := hlive h0 hb
      have hst := hstate hb hp
      cases q with
      | ready => exact hp
      | blocked => rcases hs with hs | hs <;> cases hs.symm.trans hst
      | blockedBySem => rcases hs with hs | hs <;> cases hs.symm.trans hst
      | zombie => exact absurd rfl hq
  · intro p
    constructor
    · rintro (hp | hp)
      · obtain ⟨b, hb, hs⟩ := C.member .blocked p hp
        exact ⟨C.ne_zero hp, b, hb, hs⟩
      · obtain ⟨b, hb, hs⟩ := C.member .blockedBySem p hp
        exact ⟨C.ne_zero hp, b, hb, hs⟩
    · rintro ⟨h0, b, hb, hs⟩
      obtain ⟨q, hq, hp⟩ := hlive h0 hb
      have hst := hstate hb hp
      cases q with
      | ready => rcases hst with hst | hst <;> cases hs.symm.trans hst
      | blocked => exact .inl hp
      | blockedBySem => exact .inr hp
      | zombie => exact absurd rfl hq
  · obtain ⟨p, hp, hplace⟩ := hcur
    refine ⟨p, hp, hplace.imp ?_ fun h => ⟨_, h⟩⟩
    rintro rfl
    exact C.idle

/-- In every run with memory, and without processes of the priority of idle, the
queues partition the processes that were created and not killed. -/
theorem reach_queues_partition (h : Reach (fun _ => true) LowPriority m) : Partitioned m.k :=
  h.lives.partitioned h.core.1 h.core.2.1 h.core.2.2

/-- Of four processes the shell starts, the second is blocked, the third killed, and
the first waits for a semaphore. -/
def blockAndKill : List Event :=
  [.tick 0, .call 0 (.createProcess backgroundArgs), .call 0 (.createProcess backgroundArgs),
    .call 0 (.createProcess backgroundArgs), .call 0 (.createProcess backgroundArgs),
    .call 0 (.block 3), .call 0 (.kill 4 7), .call 0 (.semOpen 9 0), .call 0 .yield, .resume 0,
    .call 0 .yield, .call 0 (.semWait 9)]

theorem blockAndKill_run :
    ∃ m, Run.exec Machine.step LowPriority (boot fun _ => true) blockAndKill = some m ∧
      Reach (fun _ => true) LowPriority m ∧ m.k.queue .ready = [1, 5] ∧
      m.k.queue .blocked = [3] ∧ m.k.queue .blockedBySem = [2] :=
  Run.exists_exec (by decide +kernel)

theorem reach_queues_partition_run : ∃ m, Reach (fun _ => true) LowPriority m ∧
    m.k.queue .ready = [1, 5] ∧ m.k.queue .blocked = [3] ∧ m.k.queue .blockedBySem = [2] ∧
    Partitioned m.k := by
  obtain ⟨m, _, hm, h1, h2, h3⟩ := blockAndKill_run
  exact ⟨m, hm, h1, h2, h3, reach_queues_partition hm⟩

end Runs

end SoKernel
