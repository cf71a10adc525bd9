import SoKernel.Kernel.Effect
import Mathlib.Data.List.Nodup

/-!
# The invariant of the process manager

`Core` holds between any two effects: the queues are disjoint and hold live PCBs
in the right state, and the raw pointers of the process manager are to live PCBs.
It says nothing about processes in no queue, which memory exhaustion can make.

Results:
1. `Core.effects`: every sequence of effects preserves `Core`.
2. `Core.schedule`: so does a dispatch, after which the executing process is the
   current one (`Settled`).
-/

namespace SoKernel

/-- The states of the processes in a queue. -/
def QueueName.Holds : QueueName → State → Prop
  | .ready, s => s = .READY ∨ s = .RUNNING
  | .blocked, s => s = .BLOCKED
  | .blockedBySem, s => s = .BLOCKED
  | .zombie, s => s = .ZOMBIE

/-- The PCBs, and the raw pointers to them. -/
structure Table (k : Kernel) : Prop where
  idle : k.idleProcess = some 0
  idleLive : ∃ b, k.procs 0 = some b
  current : ∃ c b, k.currentProcess = some c ∧ k.procs c = some b
  foreground : ∀ p, k.foregroundProcess = some p → ∃ b, k.procs p = some b ∧ b.foreground = true
  pcb : ∀ p b, k.procs p = some b → b.pid = p ∧ 0 ≤ p ∧ p < k.nextPid
  parent : ∀ p b, k.procs p = some b → 2 ≤ p → b.parentPid ≠ 0
  nextPid : 2 ≤ k.nextPid
  pipes : k.pipeManagerInit = true

structure Core (k : Kernel) : Prop extends Table k where
  idleOutside : k.Outside 0
  nodup : ∀ q, (k.queue q).Nodup
  member : ∀ q p, p ∈ k.queue q → ∃ b, k.procs p = some b ∧ q.Holds b.state
  apart : ∀ p, p ∈ k.queue .blocked → p ∉ k.queue .blockedBySem
  zombie : ∀ p, p ∈ k.queue .zombie → k.currentProcess ≠ some p ∧ k.foregroundProcess ≠ some p
  running : ∀ p b, k.procs p = some b → b.state = .RUNNING → k.currentProcess = some p
  plain : ∀ p b, k.procs p = some b → p ∉ k.queue .zombie → b.state.beforeZombie = true

/-! ## Queues after a move -/

section Move

variable {k : Kernel} {f t q : QueueName} {p x : Pid} {b : PCB}

@[simp] theorem setPCB_procs : (k.setPCB p b).procs = Function.update k.procs p (some b) := rfl

@[simp] theorem setPCB_queue : (k.setPCB p b).queue = k.queue := rfl

@[simp] theorem freePCB_procs : (k.freePCB p).procs = Function.update k.procs p none := rfl

@[simp] theorem freePCB_queue : (k.freePCB p).queue = k.queue := rfl

@[simp] theorem setQueue_procs {l : List Pid} : (k.setQueue q l).procs = k.procs := rfl

@[simp] theorem move_procs : (k.move f t p b).procs = Function.update k.procs p (some b) := rfl

theorem move_queue_to : (k.move f t p b).queue t = k.queue t ++ [p] := by
  simp [Kernel.move, Kernel.setQueue]

theorem move_queue_from (h : f ≠ t) : (k.move f t p b).queue f = (k.queue f).erase p := by
  simp [Kernel.move, Kernel.setQueue, h]

theorem move_queue_other (hf : q ≠ f) (ht : q ≠ t) : (k.move f t p b).queue q = k.queue q := by
  simp [Kernel.move, Kernel.setQueue, hf, ht]

theorem mem_move (hnd : (k.queue f).Nodup) (h : f ≠ t) :
    x ∈ (k.move f t p b).queue q ↔ x ∈ k.queue q ∧ (q = f → x ≠ p) ∨ q = t ∧ x = p := by
  rcases eq_or_ne q t with rfl | ht
  · rw [move_queue_to, List.mem_append, List.mem_singleton]
    simp [h.symm]
  · rcases eq_or_ne q f with rfl | hf
    · rw [move_queue_from h, hnd.mem_erase_iff]
      simp [ht, and_comm]
    · rw [move_queue_other hf ht]
      simp [ht, hf]

theorem move_nodup (hnd : ∀ q, (k.queue q).Nodup) (h : f ≠ t) (hp : p ∉ k.queue t) :
    ((k.move f t p b).queue q).Nodup := by
  rcases eq_or_ne q t with rfl | ht
  · rw [move_queue_to]
    refine List.nodup_append.mpr ⟨hnd q, List.nodup_singleton p, fun a ha c hc hac => hp ?_⟩
    rwa [← List.mem_singleton.mp hc, ← hac]
  · rcases eq_or_ne q f with rfl | hf
    · rw [move_queue_from h]
      exact (hnd q).erase p
    · rw [move_queue_other hf ht]
      exact hnd q

end Move

/-! ## Effects -/

namespace Table

variable {k k' : Kernel} {p : Pid} {b b' : PCB}

theorem congr (T : Table k) (hp : k'.procs = k.procs)
    (hf : k'.foregroundProcess = k.foregroundProcess)
    (hc : k'.currentProcess = k.currentProcess) (hi : k'.idleProcess = k.idleProcess)
    (hn : k'.nextPid = k.nextPid) (hm : k'.pipeManagerInit = k.pipeManagerInit) : Table k' where
  idle := hi ▸ T.idle
  idleLive := hp ▸ T.idleLive
  current := hp ▸ hc ▸ T.current
  foreground := hp ▸ hf ▸ T.foreground
  pcb := hp ▸ hn ▸ T.pcb
  parent := hp ▸ T.parent
  nextPid := hn ▸ T.nextPid
  pipes := hm ▸ T.pipes

theorem setPCB (T : Table k) (hb : k.procs p = some b) (hsame : SameIdentity b b') :
    Table (k.setPCB p b') := by
  have hlive : ∀ {x bx}, k.procs x = some bx → ∃ b, (k.setPCB p b').procs x = some b := by
    intro x bx hx
    rcases eq_or_ne x p with rfl | hxp
    · exact ⟨b', by simp⟩
    · exact ⟨bx, by simp [hxp, hx]⟩
  constructor
  · exact T.idle
  · obtain ⟨b0, hb0⟩ := T.idleLive
    exact hlive hb0
  · obtain ⟨c, bc, hc, hbc⟩ := T.current
    obtain ⟨bc', hbc'⟩ := hlive hbc
    exact ⟨c, bc', hc, hbc'⟩
  · intro x hx
    obtain ⟨bx, hbx, hfx⟩ := T.foreground x hx
    rcases eq_or_ne x p with rfl | hxp
    · obtain rfl : b = bx := Option.some.inj (hb.symm.trans hbx)
      exact ⟨b', by simp, hsame.foreground ▸ hfx⟩
    · exact ⟨bx, by simp [hxp, hbx], hfx⟩
  · intro x bx hx
    rcases eq_or_ne x p with rfl | hxp
    · obtain rfl : b' = bx := by simpa using hx
      exact hsame.pid ▸ T.pcb x b hb
    · exact T.pcb x bx (by simpa [hxp] using hx)
  · intro x bx hx h2
    rcases eq_or_ne x p with rfl | hxp
    · obtain rfl : b' = bx := by simpa using hx
      exact hsame.parentPid ▸ T.parent x b hb h2
    · exact T.parent x bx (by simpa [hxp] using hx) h2
  · exact T.nextPid
  · exact T.pipes

/-- A PCB no raw pointer is to can be freed. -/
theorem freePCB (T : Table k) (h0 : p ≠ 0) (hc : k.currentProcess ≠ some p)
    (hf : k.foregroundProcess ≠ some p) : Table (k.freePCB p) := by
  have hkeep : ∀ {x}, x ≠ p → (k.freePCB p).procs x = k.procs x := by
    intro x hx
    simp [hx]
  have hback : ∀ {x b}, (k.freePCB p).procs x = some b → k.procs x = some b := by
    intro x b hx
    rcases eq_or_ne x p with rfl | hxp
    · simp at hx
    · rwa [hkeep hxp] at hx
  constructor
  · exact T.idle
  · rw [hkeep h0.symm]
    exact T.idleLive
  · obtain ⟨c, bc, hcur, hbc⟩ := T.current
    exact ⟨c, bc, hcur, by rwa [hkeep fun h => hc (h ▸ hcur)]⟩
  · intro x hx
    obtain ⟨bx, hbx, hfx⟩ := T.foreground x hx
    exact ⟨bx, by rwa [hkeep fun h => hf (h ▸ hx)], hfx⟩
  · exact fun x bx hx => T.pcb x bx (hback hx)
  · exact fun x bx hx => T.parent x bx (hback hx)
  · exact T.nextPid
  · exact T.pipes

/-- The next pid gets a PCB. -/
theorem create {c : Pid} (T : Table k) (hc : Executing k c) (hpid : b.pid = k.nextPid)
    (hparent : b.parentPid = c) :
    Table { k.setPCB k.nextPid b with nextPid := k.nextPid + 1 } := by
  have hlt : ∀ {x bx}, k.procs x = some bx → x ≠ k.nextPid := by
    rintro x bx hx rfl
    exact Int.lt_irrefl _ (T.pcb _ _ hx).2.2
  have hkeep : ∀ {x bx}, k.procs x = some bx → (k.setPCB k.nextPid b).procs x = some bx := by
    intro x bx hx
    simp [hlt hx, hx]
  have hback : ∀ {x bx}, (k.setPCB k.nextPid b).procs x = some bx →
      x = k.nextPid ∧ bx = b ∨ k.procs x = some bx := by
    intro x bx hx
    rcases eq_or_ne x k.nextPid with rfl | hxp
    · exact .inl ⟨rfl, by simpa using hx.symm⟩
    · exact .inr (by simpa [hxp] using hx)
  constructor
  · exact T.idle
  · obtain ⟨b0, hb0⟩ := T.idleLive
    exact ⟨b0, hkeep hb0⟩
  · obtain ⟨x, bx, hx, hbx⟩ := T.current
    exact ⟨x, bx, hx, hkeep hbx⟩
  · intro x hx
    obtain ⟨bx, hbx, hfx⟩ := T.foreground x hx
    exact ⟨bx, hkeep hbx, hfx⟩
  · intro x bx hx
    rcases hback hx with ⟨rfl, rfl⟩ | h
    · exact ⟨hpid, Int.le_trans (by decide) T.nextPid, Int.lt_succ k.nextPid⟩
    · obtain ⟨h1, h3, h4⟩ := T.pcb x bx h
      exact ⟨h1, h3, Int.lt_trans h4 (Int.lt_succ k.nextPid)⟩
  · intro x bx hx hx2
    rcases hback hx with ⟨rfl, rfl⟩ | h
    · rintro h0
      refine hc.notIdle ?_
      rw [hc.current, T.idle, ← hparent, h0]
    · exact T.parent x bx h hx2
  · exact Int.le_trans T.nextPid (Int.le_of_lt (Int.lt_succ k.nextPid))
  · exact T.pipes

end Table

namespace Core

variable {k k' : Kernel} {l : Label} {p x : Pid} {b b' : PCB} {q q' f t : QueueName}

theorem congr (C : Core k) (hp : k'.procs = k.procs) (hq : k'.queue = k.queue)
    (hf : k'.foregroundProcess = k.foregroundProcess)
    (hc : k'.currentProcess = k.currentProcess) (hi : k'.idleProcess = k.idleProcess)
    (hn : k'.nextPid = k.nextPid) (hm : k'.pipeManagerInit = k.pipeManagerInit) : Core k' where
  toTable := C.toTable.congr hp hf hc hi hn hm
  idleOutside q := hq ▸ C.idleOutside q
  nodup := hq ▸ C.nodup
  member := hp ▸ hq ▸ C.member
  apart := hq ▸ C.apart
  zombie := hq ▸ hc ▸ hf ▸ C.zombie
  running := hp ▸ hc ▸ C.running
  plain := hp ▸ hq ▸ C.plain

theorem setSem (C : Core k) (id : Int) (s : Sem) : Core (k.setSem id s) :=
  C.congr rfl rfl rfl rfl rfl rfl rfl

theorem observe (C : Core k) (o : Obs) : Core (k.observe o) :=
  C.congr rfl rfl rfl rfl rfl rfl rfl

/-- A process is in one queue at most. -/
theorem queue_eq (C : Core k) (h : p ∈ k.queue q) (h' : p ∈ k.queue q') : q = q' := by
  obtain ⟨b, hb, hs⟩ := C.member q p h
  obtain ⟨b', hb', hs'⟩ := C.member q' p h'
  obtain rfl : b = b' := Option.some.inj (hb.symm.trans hb')
  cases q <;> cases q' <;> first
    | rfl
    | exact absurd h' (C.apart p h)
    | exact absurd h (C.apart p h')
    | simp only [QueueName.Holds] at hs hs'; simp [hs] at hs'
    | simp only [QueueName.Holds] at hs hs'; simp [hs'] at hs

theorem ne_zero (C : Core k) (h : p ∈ k.queue q) : p ≠ 0 := by
  rintro rfl
  exact C.idleOutside q h

theorem lt_nextPid (C : Core k) (h : p ∈ k.queue q) : p < k.nextPid := by
  obtain ⟨b, hb, _⟩ := C.member q p h
  exact (C.pcb p b hb).2.2

/-- The next pid is that of no process. -/
theorem nextPid_free (C : Core k) : k.procs k.nextPid = none := by
  cases hx : k.procs k.nextPid with
  | none => rfl
  | some bx => exact absurd (C.pcb _ _ hx).2.2 (Int.lt_irrefl _)

/-- The next pid is in no queue. -/
theorem nextPid_outside (C : Core k) : k.Outside k.nextPid :=
  fun _ h => Int.lt_irrefl _ (C.lt_nextPid h)

/-- No pointer is to the next pid. -/
theorem nextPid_unused (C : Core k) : k.currentProcess ≠ some k.nextPid ∧
    k.foregroundProcess ≠ some k.nextPid ∧ k.idleProcess ≠ some k.nextPid := by
  have hlive : ∀ {b}, k.procs k.nextPid ≠ some b := fun hb => Int.lt_irrefl _ (C.pcb _ _ hb).2.2
  refine ⟨fun h => ?_, fun h => ?_, fun h => ?_⟩
  · obtain ⟨c, b, hc, hb⟩ := C.current
    obtain rfl := Option.some.inj (hc.symm.trans h)
    exact hlive hb
  · obtain ⟨b, hb, _⟩ := C.foreground _ h
    exact hlive hb
  · obtain ⟨b, hb⟩ := C.idleLive
    rw [Option.some.inj (C.idle.symm.trans h)] at hb
    exact hlive hb

/-- A new PCB for a process that stays where it is. -/
theorem setPCB (C : Core k) (hb : k.procs p = some b) (hsame : SameIdentity b b')
    (hstate : ∀ q, p ∈ k.queue q → q.Holds b'.state)
    (hrun : b'.state = .RUNNING → k.currentProcess = some p)
    (hplain : p ∉ k.queue .zombie → b'.state.beforeZombie = true) : Core (k.setPCB p b') where
  toTable := C.toTable.setPCB hb hsame
  idleOutside := C.idleOutside
  nodup := C.nodup
  member q x hx := by
    rcases eq_or_ne x p with rfl | hxp
    · exact ⟨b', by simp, hstate q hx⟩
    · obtain ⟨bx, hbx, hs⟩ := C.member q x hx
      exact ⟨bx, by simp [hxp, hbx], hs⟩
  apart := C.apart
  zombie := C.zombie
  running x bx hx hs := by
    rcases eq_or_ne x p with rfl | hxp
    · obtain rfl : b' = bx := by simpa using hx
      exact hrun hs
    · exact C.running x bx (by simpa [hxp] using hx) hs
  plain x bx hx hz := by
    rcases eq_or_ne x p with rfl | hxp
    · obtain rfl : b' = bx := by simpa using hx
      exact hplain hz
    · exact C.plain x bx (by simpa [hxp] using hx) hz

theorem update (C : Core k) (hb : k.procs p = some b) (hsame : SameIdentity b b')
    (hs : b'.state = b.state) : Core (k.setPCB p b') := by
  refine C.setPCB hb hsame ?_ ?_ ?_
  · intro q hq
    obtain ⟨b1, hb1, hs1⟩ := C.member q p hq
    obtain rfl : b = b1 := Option.some.inj (hb.symm.trans hb1)
    exact hs ▸ hs1
  · exact fun h => C.running p b hb (hs ▸ h)
  · exact fun h => hs ▸ C.plain p b hb h

/-- The queues after a move, and what they hold. -/
structure Moved (k k' : Kernel) (p : Pid) (f t : QueueName) (b' : PCB) : Prop where
  idleOutside : k'.Outside 0
  nodup : ∀ q, (k'.queue q).Nodup
  member : ∀ q x, x ∈ k'.queue q → ∃ b, k'.procs x = some b ∧ q.Holds b.state
  apart : ∀ x, x ∈ k'.queue .blocked → x ∉ k'.queue .blockedBySem
  mem : ∀ q x, x ∈ k'.queue q ↔ x ∈ k.queue q ∧ x ≠ p ∨ q = t ∧ x = p

theorem moved (C : Core k) (hp : p ∈ k.queue f) (hft : f ≠ t) (hs : t.Holds b'.state) :
    Moved k (k.move f t p b') p f t b' := by
  have hpt : p ∉ k.queue t := fun h => hft (C.queue_eq hp h)
  have hmem : ∀ q x, x ∈ (k.move f t p b').queue q ↔ x ∈ k.queue q ∧ x ≠ p ∨ q = t ∧ x = p := by
    intro q x
    rw [mem_move (C.nodup f) hft]
    refine or_congr_left (and_congr_right fun hx => ⟨fun h hxp => ?_, fun h _ => h⟩)
    exact h (C.queue_eq (hxp ▸ hx) hp) hxp
  refine ⟨?_, fun q => move_nodup C.nodup hft hpt, ?_, ?_, hmem⟩
  · intro q h0
    rcases (hmem q 0).mp h0 with ⟨h, _⟩ | ⟨_, h⟩
    · exact C.idleOutside q h
    · exact C.ne_zero hp h.symm
  · intro q x hx
    rcases (hmem q x).mp hx with ⟨h, hxp⟩ | ⟨rfl, rfl⟩
    · obtain ⟨bx, hbx, hsx⟩ := C.member q x h
      exact ⟨bx, by simp [hxp, hbx], hsx⟩
    · exact ⟨b', by simp, hs⟩
  · intro x hx hx'
    rcases (hmem _ x).mp hx with ⟨h, hxp⟩ | ⟨h, rfl⟩
    · rcases (hmem _ x).mp hx' with ⟨h', _⟩ | ⟨_, h'⟩
      · exact C.apart x h h'
      · exact hxp h'
    · rcases (hmem _ x).mp hx' with ⟨_, h'⟩ | ⟨h', _⟩
      · exact h' rfl
      · cases h.trans h'.symm

/-- A process goes from one queue to another. -/
theorem move (C : Core k) (hp : p ∈ k.queue f) (hft : f ≠ t) (hf : f ≠ .zombie) (ht : t ≠ .zombie)
    (hb : k.procs p = some b) (hsame : SameIdentity b b') (hs : t.Holds b'.state)
    (hrun : b'.state ≠ .RUNNING) : Core (k.move f t p b') := by
  have M := C.moved (t := t) hp hft hs
  have hz : (k.move f t p b').queue .zombie = k.queue .zombie := move_queue_other hf.symm ht.symm
  refine ⟨(C.toTable.setPCB hb hsame).congr rfl rfl rfl rfl rfl rfl, M.idleOutside, M.nodup,
    M.member, M.apart, hz ▸ C.zombie, ?_, ?_⟩
  · intro x bx hx hsx
    rcases eq_or_ne x p with rfl | hxp
    · obtain rfl : b' = bx := by simpa using hx
      exact absurd hsx hrun
    · exact C.running x bx (by simpa [hxp] using hx) hsx
  · intro x bx hx hxz
    rw [hz] at hxz
    rcases eq_or_ne x p with rfl | hxp
    · obtain rfl : b' = bx := by simpa using hx
      cases t <;> simp only [QueueName.Holds] at hs
      · rcases hs with hs | hs <;> rw [hs] <;> rfl
      · rw [hs]; rfl
      · rw [hs]; rfl
      · exact absurd rfl ht
    · exact C.plain x bx (by simpa [hxp] using hx) hxz

theorem create {c : Pid} (C : Core k) (hc : Executing k c) (hpid : b.pid = k.nextPid)
    (hs : b.state = .READY) (hparent : b.parentPid = c) :
    Core { k.setPCB k.nextPid b with nextPid := k.nextPid + 1 } := by
  have hne : ∀ {q x}, x ∈ k.queue q → x ≠ k.nextPid :=
    fun hx h => C.nextPid_outside _ (h ▸ hx)
  refine ⟨C.toTable.create hc hpid hparent, C.idleOutside, C.nodup, ?_, C.apart, C.zombie, ?_, ?_⟩
  · intro q x hx
    obtain ⟨bx, hbx, hsx⟩ := C.member q x hx
    exact ⟨bx, by simp [hne hx, hbx], hsx⟩
  · intro x bx hx hsx
    rcases eq_or_ne x k.nextPid with rfl | hxp
    · obtain rfl : b = bx := by simpa using hx
      rw [hs] at hsx
      cases hsx
    · exact C.running x bx (by simpa [hxp] using hx) hsx
  · intro x bx hx hxz
    rcases eq_or_ne x k.nextPid with rfl | hxp
    · obtain rfl : b = bx := by simpa using hx
      rw [hs]
      rfl
    · exact C.plain x bx (by simpa [hxp] using hx) hxz

/-- A PCB in no queue is freed. -/
theorem freePCB (C : Core k) (ho : k.Outside p) (hc : k.currentProcess ≠ some p)
    (hf : k.foregroundProcess ≠ some p) (h0 : p ≠ 0) : Core (k.freePCB p) := by
  have hback : ∀ {x b}, (k.freePCB p).procs x = some b → k.procs x = some b := by
    intro x b hx
    rcases eq_or_ne x p with rfl | hxp
    · simp at hx
    · simpa [hxp] using hx
  refine ⟨C.toTable.freePCB h0 hc hf, C.idleOutside, C.nodup, ?_, C.apart, C.zombie,
    fun x bx hx => C.running x bx (hback hx), fun x bx hx => C.plain x bx (hback hx)⟩
  intro q x hx
  obtain ⟨bx, hbx, hsx⟩ := C.member q x hx
  have hxp : x ≠ p := fun h => ho q (h ▸ hx)
  exact ⟨bx, by simp [hxp, hbx], hsx⟩

/-- A process outside the queues enters one. -/
theorem enter (C : Core k) (ho : k.Outside p) (h0 : k.idleProcess ≠ some p)
    (hb : k.procs p = some b)
    (hq : q = .ready ∧ b.state = .READY ∨ q = .blocked ∧ b.state = .BLOCKED) :
    Core (k.setQueue q (k.queue q ++ [p])) := by
  have hqz : q ≠ .zombie := by
    rintro rfl
    rcases hq with ⟨h, _⟩ | ⟨h, _⟩ <;> cases h
  have hmem : ∀ q' x, x ∈ (k.setQueue q (k.queue q ++ [p])).queue q' ↔
      x ∈ k.queue q' ∨ q' = q ∧ x = p := by
    intro q' x
    rcases eq_or_ne q' q with rfl | hqq
    · simp [Kernel.setQueue]
    · simp [Kernel.setQueue, hqq]
  have hz : (k.setQueue q (k.queue q ++ [p])).queue .zombie = k.queue .zombie := by
    simp [Kernel.setQueue, hqz.symm]
  refine ⟨C.toTable.congr rfl rfl rfl rfl rfl rfl, ?_, ?_, ?_, ?_, hz ▸ C.zombie, C.running,
    hz ▸ C.plain⟩
  · intro q' hx
    rcases (hmem q' 0).mp hx with h | ⟨_, rfl⟩
    · exact C.idleOutside q' h
    · exact h0 C.idle
  · intro q'
    rcases eq_or_ne q' q with rfl | hqq
    · simp only [Kernel.setQueue, Function.update_self]
      refine List.nodup_append.mpr ⟨C.nodup q', List.nodup_singleton p, fun a ha c hc hac => ?_⟩
      exact ho q' (by rwa [← List.mem_singleton.mp hc, ← hac])
    · simpa [Kernel.setQueue, hqq] using C.nodup q'
  · intro q' x hx
    rcases (hmem q' x).mp hx with h | ⟨rfl, rfl⟩
    · exact C.member q' x h
    · refine ⟨b, hb, ?_⟩
      rcases hq with ⟨rfl, hs⟩ | ⟨rfl, hs⟩
      · exact .inl hs
      · exact hs
  · intro x hx hx'
    rcases (hmem _ x).mp hx with h | ⟨hqb, hxp⟩
    · rcases (hmem _ x).mp hx' with h' | ⟨_, hxp⟩
      · exact C.apart x h h'
      · exact ho _ (hxp ▸ h)
    · rcases (hmem _ x).mp hx' with h' | ⟨hqs, _⟩
      · exact ho _ (hxp ▸ h')
      · cases hqb.trans hqs.symm

theorem die (C : Core k) (hp : p ∈ k.queue q) (hq : q ≠ .zombie) (hb : k.procs p = some b)
    (hsame : SameIdentity b b') (hs : b'.state = .ZOMBIE) :
    Core
      { (k.move q .zombie p b').setStack p false with
        currentProcess := if k.currentProcess = some p then k.idleProcess else k.currentProcess
        foregroundProcess := if k.foregroundProcess = some p then none else k.foregroundProcess } := by
  have M := C.moved (t := .zombie) hp hq hs
  have T := C.toTable.setPCB hb hsame
  have h0 := C.ne_zero hp
  refine ⟨⟨C.idle, T.idleLive, ?_, ?_, T.pcb, T.parent, C.nextPid, C.pipes⟩, M.idleOutside, M.nodup,
    M.member, M.apart, ?_, ?_, ?_⟩
  · obtain ⟨b0, hb0⟩ := T.idleLive
    obtain ⟨c, bc, hc, hbc⟩ := T.current
    by_cases hcp : k.currentProcess = some p
    · exact ⟨0, b0, by simp [hcp, C.idle], hb0⟩
    · refine ⟨c, bc, ?_, hbc⟩
      simp only [hcp, if_false]
      exact hc
  · intro x hx
    by_cases hfp : k.foregroundProcess = some p
    · simp [hfp] at hx
    · simp only [hfp, if_false] at hx
      exact T.foreground x hx
  · intro x hx
    rcases (M.mem .zombie x).mp hx with ⟨h, hxp⟩ | ⟨_, rfl⟩
    · obtain ⟨hc, hf⟩ := C.zombie x h
      constructor
      · show (if k.currentProcess = some p then k.idleProcess else k.currentProcess) ≠ some x
        split
        · rw [C.idle]
          exact fun h0x => C.idleOutside _ ((Option.some.inj h0x).symm ▸ h)
        · exact hc
      · show (if k.foregroundProcess = some p then none else k.foregroundProcess) ≠ some x
        split
        · exact Option.some_ne_none x |>.symm
        · exact hf
    · constructor
      · show (if k.currentProcess = some x then k.idleProcess else k.currentProcess) ≠ some x
        split
        · rw [C.idle]
          exact fun h0x => h0 (Option.some.inj h0x).symm
        · assumption
      · show (if k.foregroundProcess = some x then none else k.foregroundProcess) ≠ some x
        split
        · exact Option.some_ne_none x |>.symm
        · assumption
  · intro x bx hx hsx
    rcases eq_or_ne x p with rfl | hxp
    · obtain rfl : b' = bx := by simpa [Kernel.setStack] using hx
      rw [hs] at hsx
      cases hsx
    · have hcx := C.running x bx (by simpa [Kernel.setStack, hxp] using hx) hsx
      have hne : k.currentProcess ≠ some p := fun h => hxp (Option.some.inj (hcx.symm.trans h))
      show (if k.currentProcess = some p then k.idleProcess else k.currentProcess) = some x
      rw [if_neg hne, hcx]
  · intro x bx hx hxz
    rcases eq_or_ne x p with rfl | hxp
    · exact absurd ((M.mem .zombie x).mpr (.inr ⟨rfl, rfl⟩)) hxz
    · refine C.plain x bx (by simpa [Kernel.setStack, hxp] using hx) fun h => hxz ?_
      exact (M.mem .zombie x).mpr (.inl ⟨h, hxp⟩)

theorem reap (C : Core k) (hp : p ∈ k.queue .zombie) :
    Core ((k.setQueue .zombie ((k.queue .zombie).erase p)).freePCB p) := by
  obtain ⟨hc, hf⟩ := C.zombie p hp
  have hmem : ∀ q x, x ∈ (k.setQueue .zombie ((k.queue .zombie).erase p)).queue q ↔
      x ∈ k.queue q ∧ x ≠ p := by
    intro q x
    rcases eq_or_ne q .zombie with rfl | hqz
    · simp [Kernel.setQueue, (C.nodup .zombie).mem_erase_iff, and_comm]
    · have hne : x ∈ k.queue q → x ≠ p := fun hx hxp => hqz (C.queue_eq (hxp ▸ hx) hp)
      simpa [Kernel.setQueue, hqz] using hne
  have hback : ∀ {x b}, (k.freePCB p).procs x = some b → k.procs x = some b ∧ x ≠ p := by
    intro x b hx
    rcases eq_or_ne x p with rfl | hxp
    · simp at hx
    · exact ⟨by simpa [hxp] using hx, hxp⟩
  have T := C.toTable.freePCB (C.ne_zero hp) hc hf
  refine ⟨T.congr rfl rfl rfl rfl rfl rfl, ?_, ?_, ?_, ?_, ?_, ?_, ?_⟩
  · exact fun q h => C.idleOutside q ((hmem q 0).mp h).1
  · intro q
    rcases eq_or_ne q .zombie with rfl | hqz
    · simpa [Kernel.setQueue] using (C.nodup .zombie).erase p
    · simpa [Kernel.setQueue, hqz] using C.nodup q
  · intro q x hx
    obtain ⟨hx, hxp⟩ := (hmem q x).mp hx
    obtain ⟨bx, hbx, hsx⟩ := C.member q x hx
    exact ⟨bx, by simp [hxp, hbx], hsx⟩
  · exact fun x hx hx' => C.apart x ((hmem .blocked x).mp hx).1 ((hmem .blockedBySem x).mp hx').1
  · exact fun x hx => C.zombie x ((hmem .zombie x).mp hx).1
  · exact fun x bx hx => C.running x bx (hback hx).1
  · intro x bx hx hxz
    obtain ⟨hx, hxp⟩ := hback hx
    exact C.plain x bx hx fun h => hxz ((hmem _ x).mpr ⟨h, hxp⟩)

/-- Every effect preserves the invariant. -/
theorem effect (C : Core k) (h : Effect l k k') : Core k' := by
  cases h with
  | alloc => exact C.congr rfl rfl rfl rfl rfl rfl rfl
  | quantum => exact C.congr rfl rfl rfl rfl rfl rfl rfl
  | manager => exact C.congr rfl rfl rfl rfl rfl rfl rfl
  | update hb hsame hs => exact C.update hb hsame.toSameIdentity hs
  | children hb hsame hs => exact C.update hb hsame.toSameIdentity hs
  | block hp hb hsame hs =>
    exact C.move hp (by decide) (by decide) (by decide) hb hsame.toSameIdentity hs (by simp [hs])
  | unblock hp hb hsame hs =>
    exact C.move hp (by decide) (by decide) (by decide) hb hsame.toSameIdentity (.inl hs)
      (by simp [hs])
  | took => exact (C.setSem _ _).observe _
  | sleep _ _ _ _ hp hb hsame hs =>
    exact ((C.setSem _ _).observe _).move hp (by decide) (by decide) (by decide) hb
      hsame.toSameIdentity hs
      (by simp [hs])
  | stray _ hp hb hsame hs =>
    exact C.move hp (by decide) (by decide) (by decide) hb hsame.toSameIdentity hs (by simp [hs])
  | wake _ _ hp hb hsame hs =>
    exact ((C.setSem _ _).move (t := .ready) hp (by decide) (by decide) (by decide) hb
      hsame.toSameIdentity (.inl hs) (by simp [hs])).observe _
  | absorb => exact (C.setSem _ _).observe _
  | incr => exact (C.setSem _ _).observe _
  | semOpened => exact (C.setSem _ _).observe _
  | semUnqueued => exact C.setSem _ _
  | semClosed => exact C.setSem _ _
  | create hc hpid hs _ hparent => exact C.create hc hpid hs hparent
  | discard ho hc hf hi => exact C.freePCB ho hc hf fun h => hi (h ▸ C.idle)
  | stack => exact C.congr rfl rfl rfl rfl rfl rfl rfl
  | startBlocked ho hc hb hsame hs =>
    refine C.setPCB hb hsame.toSameIdentity (fun q hq => absurd hq (ho q)) ?_ ?_
    · intro h
      rw [hs] at h
      cases h
    · intro _
      rw [hs]
      rfl
  | enter ho h0 hb _ hq => exact C.enter ho h0 hb hq
  | die hp hq hb hsame hs => exact (C.die hp hq hb hsame.toSameIdentity hs).observe _
  | reap hp => exact C.reap hp
  | pipeOpened => exact C.congr rfl rfl rfl rfl rfl rfl rfl
  | pipeReady => exact C.observe _
  | pipeClosed => exact C.congr rfl rfl rfl rfl rfl rfl rfl
  | pipeData => exact C.congr rfl rfl rfl rfl rfl rfl rfl
  | note => exact C.observe _

theorem effects {allow : Label → Prop} (C : Core k) (h : Effects allow k k') : Core k' :=
  h.invariant C fun _ C he => C.effect he

end Core

/-! ## Dispatching -/

/-- The current process has the CPU. -/
structure Settled (k : Kernel) (c : Pid) : Prop where
  current : k.currentProcess = some c
  currentPid : k.currentPid = c
  place : c = 0 ∨ c ∈ k.queue .ready
  running : ∃ b, k.procs c = some b ∧ b.state = .RUNNING
  first : k.first = false

/-- What a dispatch leaves alone; queues keep their elements. -/
structure Undispatched (k k' : Kernel) : Prop where
  mem : ∀ q p, p ∈ k'.queue q ↔ p ∈ k.queue q
  stackLive : k'.stackLive = k.stackLive
  idle : k'.idleProcess = k.idleProcess
  nextPid : k'.nextPid = k.nextPid
  sems : k'.sems = k.sems
  semManager : k'.semManager = k.semManager
  pipes : k'.pipes = k.pipes
  nextSemId : k'.nextSemId = k.nextSemId
  pipeManagerInit : k'.pipeManagerInit = k.pipeManagerInit
  allocs : k'.allocs = k.allocs

theorem Undispatched.trans {k k1 k2 : Kernel} (h : Undispatched k k1) (h' : Undispatched k1 k2) :
    Undispatched k k2 :=
  ⟨fun q p => (h'.mem q p).trans (h.mem q p), h'.stackLive.trans h.stackLive, h'.idle.trans h.idle,
    h'.nextPid.trans h.nextPid, h'.sems.trans h.sems, h'.semManager.trans h.semManager,
    h'.pipes.trans h.pipes, h'.nextSemId.trans h.nextSemId,
    h'.pipeManagerInit.trans h.pipeManagerInit, h'.allocs.trans h.allocs⟩

/-- The front of the ready queue goes to its end and `n` is it, or there is only idle. -/
def Rotated (k k' : Kernel) (n : Pid) : Prop :=
  k.queue .ready = [] ∧ k'.queue .ready = [] ∧ k.idleProcess = some n ∨
    ∃ rest, k.queue .ready = n :: rest ∧ k'.queue .ready = rest ++ [n]

/-- `schedule(rsp)` takes the CPU from `c` and gives it to `n`, which continues at `sp`. -/
structure Switch (k : Kernel) (rsp : Sp) (k' : Kernel) (sp : Sp) (c n : Pid) : Prop where
  current : k.currentProcess = some c
  next : k'.currentProcess = some n
  saved : ∀ p b', k'.procs p = some b' → ∃ b, k.procs p = some b ∧ SameIdentity b b' ∧
    b'.rsp = if p = c ∧ k.first = false then rsp else b.rsp
  account : ∀ p b b', k.procs p = some b → k'.procs p = some b' →
    b'.childrenSem = b.childrenSem ∧ b'.childrenCount = b.childrenCount ∧
      b'.waitingForPid = b.waitingForPid
  kept : ∀ p, k'.procs p = none → k.procs p = none
  loaded : ∃ b, k'.procs n = some b ∧ b.rsp = sp
  log : k'.log = (if k.first then [.switched rsp] else [.saved c rsp, .switched rsp]) ++ k.log
  rest : Undispatched k k'
  ready : Rotated k k' n

namespace Core

variable {k k' : Kernel} {p c n : Pid} {b b' : PCB} {rsp sp : Sp}

theorem suspend_procs : (SoKernel.suspend k c b rsp).procs =
    Function.update k.procs c (some (suspendedPCB k.first b rsp)) := by
  unfold SoKernel.suspend
  dsimp only
  split <;> rfl

theorem suspend_undispatched : Undispatched k (SoKernel.suspend k c b rsp) := by
  unfold SoKernel.suspend
  dsimp only
  split <;> exact ⟨fun _ _ => Iff.rfl, rfl, rfl, rfl, rfl, rfl, rfl, rfl, rfl, rfl⟩

theorem suspend_queue : (SoKernel.suspend k c b rsp).queue = k.queue := by
  unfold SoKernel.suspend
  dsimp only
  split <;> rfl

theorem suspend_first : (SoKernel.suspend k c b rsp).first = false := by
  unfold SoKernel.suspend
  dsimp only
  split
  · rfl
  · next h => exact eq_false_of_ne_true h

theorem suspend_log : (SoKernel.suspend k c b rsp).log =
    (if k.first then [.switched rsp] else [.saved c rsp, .switched rsp]) ++ k.log := by
  unfold SoKernel.suspend
  dsimp only
  cases h : k.first <;> simp [Kernel.observe, Kernel.setPCB, h]

theorem suspendedPCB_not_running {first : Bool} : (suspendedPCB first b rsp).state ≠ .RUNNING := by
  show (if b.state = .RUNNING then State.READY else b.state) ≠ .RUNNING
  split
  · decide
  · assumption

theorem suspend (C : Core k) (rsp : Sp) (hc : k.currentProcess = some c)
    (hb : k.procs c = some b) :
    Core (SoKernel.suspend k c b rsp) ∧
      ∀ p bp, (SoKernel.suspend k c b rsp).procs p = some bp → bp.state ≠ .RUNNING := by
  have C1 : Core (k.setPCB c (suspendedPCB k.first b rsp)) := by
    refine C.setPCB hb ⟨rfl, rfl, rfl⟩ ?_ (fun h => absurd h suspendedPCB_not_running) ?_
    · intro q hq
      obtain ⟨b1, hb1, hs⟩ := C.member q c hq
      obtain rfl : b = b1 := Option.some.inj (hb.symm.trans hb1)
      show q.Holds (if b.state = .RUNNING then .READY else b.state)
      split
      · next hr =>
        rw [hr] at hs
        cases q
        · exact .inl rfl
        · cases hs
        · cases hs
        · cases hs
      · exact hs
    · intro hz
      show (if b.state = .RUNNING then State.READY else b.state).beforeZombie = true
      split
      · rfl
      · exact C.plain c b hb hz
  constructor
  · unfold SoKernel.suspend
    dsimp only
    split <;> exact C1.congr rfl rfl rfl rfl rfl rfl rfl
  · intro p bp hp hr
    rw [suspend_procs] at hp
    rcases eq_or_ne p c with rfl | hpc
    · obtain rfl : suspendedPCB k.first b rsp = bp := by simpa using hp
      exact suspendedPCB_not_running hr
    · refine hpc (Option.some.inj ?_)
      exact (C.running p bp (by simpa [hpc] using hp) hr).symm.trans hc

/-- What `getNextProcess` gives, when nobody is running. -/
theorem getNextProcess (C : Core k) (hrun : ∀ p b, k.procs p = some b → b.state ≠ .RUNNING) :
    ∃ k' n, SoKernel.getNextProcess k = some (k', n) ∧ Core k' ∧ k'.procs = k.procs ∧
      k'.currentProcess = some n ∧ (n = 0 ∨ n ∈ k'.queue .ready) ∧
      Undispatched k k' ∧ k'.log = k.log ∧ k'.first = k.first ∧ Rotated k k' n := by
  cases hq : k.queue .ready with
  | nil =>
    refine ⟨{ k with currentProcess := some 0 }, 0, ?_, ?_, rfl, rfl, .inl rfl,
      ⟨fun _ _ => Iff.rfl, rfl, rfl, rfl, rfl, rfl, rfl, rfl, rfl, rfl⟩, rfl, rfl,
      .inl ⟨hq, hq, C.idle⟩⟩
    · simp [SoKernel.getNextProcess, hq, C.idle]
    · refine ⟨⟨C.idle, C.idleLive, ?_, C.foreground, C.pcb, C.parent, C.nextPid, C.pipes⟩,
        C.idleOutside, C.nodup, C.member, C.apart, ?_, ?_, C.plain⟩
      · obtain ⟨b0, hb0⟩ := C.idleLive
        exact ⟨0, b0, rfl, hb0⟩
      · intro p hp
        exact ⟨fun h => C.ne_zero hp (Option.some.inj h).symm, (C.zombie p hp).2⟩
      · exact fun p b hb hr => absurd hr (hrun p b hb)
  | cons n rest =>
    have hn : n ∈ k.queue .ready := by simp [hq]
    obtain ⟨b, hb, hs⟩ := C.member _ n hn
    have hnd : (n :: rest).Nodup := hq ▸ C.nodup .ready
    have hmem : ∀ q x, x ∈ (k.setQueue .ready (rest ++ [n])).queue q ↔ x ∈ k.queue q := by
      intro q x
      rcases eq_or_ne q .ready with rfl | hqr
      · simp [Kernel.setQueue, hq, or_comm]
      · simp [Kernel.setQueue, hqr]
    have hz : n ∉ k.queue .zombie := fun h => by cases C.queue_eq hn h
    let k1 : Kernel := { k.setQueue .ready (rest ++ [n]) with currentProcess := some n }
    have C1 : Core k1 := by
      refine ⟨⟨C.idle, C.idleLive, ⟨n, b, rfl, hb⟩, C.foreground, C.pcb, C.parent, C.nextPid,
        C.pipes⟩, fun q h => C.idleOutside q ((hmem q 0).mp h), ?_, ?_, ?_, ?_, ?_, ?_⟩
      · intro q
        rcases eq_or_ne q .ready with rfl | hqr
        · simpa [k1, Kernel.setQueue] using (List.perm_append_singleton n rest).nodup_iff.mpr hnd
        · simpa [k1, Kernel.setQueue, hqr] using C.nodup q
      · exact fun q x hx => C.member q x ((hmem q x).mp hx)
      · exact fun x hx hx' => C.apart x ((hmem .blocked x).mp hx) ((hmem .blockedBySem x).mp hx')
      · intro x hx
        have hx := (hmem .zombie x).mp hx
        exact ⟨fun h => hz (Option.some.inj h ▸ hx), (C.zombie x hx).2⟩
      · exact fun p b hb hr => absurd hr (hrun p b hb)
      · exact fun x bx hx hxz => C.plain x bx hx (hxz ∘ (hmem .zombie x).mpr)
    have hU : Undispatched k k1 := ⟨hmem, rfl, rfl, rfl, rfl, rfl, rfl, rfl, rfl, rfl⟩
    have hrot : Rotated k k1 n := .inr ⟨rest, hq, by simp [k1, Kernel.setQueue]⟩
    by_cases hf : isForegroundProcess b
    · refine ⟨{ k1 with foregroundProcess := some n }, n, ?_, ?_, rfl, rfl, .inr ?_,
        ⟨hmem, rfl, rfl, rfl, rfl, rfl, rfl, rfl, rfl, rfl⟩, rfl, rfl, hrot⟩
      · simp [SoKernel.getNextProcess, hq, hb, hf, k1]
      · refine ⟨⟨C1.idle, C1.idleLive, C1.current, ?_, C1.pcb, C1.parent, C1.nextPid, C1.pipes⟩,
          C1.idleOutside, C1.nodup, C1.member, C1.apart, ?_, C1.running, C1.plain⟩
        · rintro p hp
          obtain rfl := Option.some.inj hp
          exact ⟨b, hb, hf⟩
        · intro x hx
          exact ⟨(C1.zombie x hx).1, fun h => hz (Option.some.inj h ▸ (hmem .zombie x).mp hx)⟩
      · exact (hmem .ready n).mpr hn
    · refine ⟨k1, n, ?_, C1, rfl, rfl, .inr ((hmem .ready n).mpr hn), hU, rfl, rfl, hrot⟩
      simp [SoKernel.getNextProcess, hq, hb, hf, k1]

theorem dispatch (C : Core k) (hc : k.currentProcess = some n) (hb : k.procs n = some b)
    (hplace : n = 0 ∨ n ∈ k.queue .ready) :
    Core (k.setPCB n { b with state := .RUNNING }) := by
  have hready : ∀ q, n ∈ k.queue q → q = .ready := by
    intro q hq
    rcases hplace with rfl | hr
    · exact absurd hq (C.idleOutside q)
    · exact C.queue_eq hq hr
  refine C.setPCB hb ⟨rfl, rfl, rfl⟩ ?_ (fun _ => hc) (fun _ => rfl)
  intro q hq
  rw [hready q hq]
  exact .inr rfl

/-- `schedule` either lets the process go on, or switches. -/
theorem schedule (C : Core k) (rsp : Sp) :
    (k.quantum > 0 ∧ (∃ c b, k.currentProcess = some c ∧ k.procs c = some b ∧
        b.state = .RUNNING) ∧
      SoKernel.schedule k rsp = some ({ k with quantum := k.quantum - 1 }, rsp)) ∨
    ∃ k' sp c n, SoKernel.schedule k rsp = some (k', sp) ∧ Core k' ∧ Settled k' n ∧
      Switch k rsp k' sp c n := by
  obtain ⟨c, b, hc, hb⟩ := C.current
  by_cases hearly : k.quantum > 0 ∧ b.state = .RUNNING
  · refine .inl ⟨hearly.1, ⟨c, b, hc, hb, hearly.2⟩, ?_⟩
    simp [SoKernel.schedule, hc, hb, hearly]
  · obtain ⟨C1, hrun⟩ := C.suspend rsp hc hb
    obtain ⟨k2, n, hnext, C2, hprocs, hn, hplace, U, hlog, hfirst, hrot⟩ := C1.getNextProcess hrun
    obtain ⟨n', bn, hn', hbn⟩ := C2.current
    obtain rfl : n = n' := Option.some.inj (hn.symm.trans hn')
    have C3 := C2.dispatch hn hbn hplace
    have hp2 : k2.procs = Function.update k.procs c (some (suspendedPCB k.first b rsp)) :=
      hprocs.trans suspend_procs
    have hsaved : ∀ p b2, k2.procs p = some b2 → ∃ b, k.procs p = some b ∧ SameIdentity b b2 ∧
        b2.rsp = if p = c ∧ k.first = false then rsp else b.rsp := by
      intro p b2 h2
      rw [hp2] at h2
      rcases eq_or_ne p c with rfl | hpc
      · obtain rfl : suspendedPCB k.first b rsp = b2 := by simpa using h2
        refine ⟨b, hb, ⟨rfl, rfl, rfl⟩, ?_⟩
        cases hf : k.first <;> simp [suspendedPCB]
      · exact ⟨b2, by simpa [hpc] using h2, ⟨rfl, rfl, rfl⟩, by simp [hpc]⟩
    have haccount : ∀ p b1 b2, k.procs p = some b1 → k2.procs p = some b2 →
        b2.childrenSem = b1.childrenSem ∧ b2.childrenCount = b1.childrenCount ∧
          b2.waitingForPid = b1.waitingForPid := by
      intro p b1 b2 h1 h2
      rw [hp2] at h2
      rcases eq_or_ne p c with rfl | hpc
      · obtain rfl : suspendedPCB k.first b rsp = b2 := by simpa using h2
        obtain rfl := Option.some.inj (hb.symm.trans h1)
        exact ⟨rfl, rfl, rfl⟩
      · obtain rfl := Option.some.inj (h1.symm.trans (by simpa [hpc] using h2))
        exact ⟨rfl, rfl, rfl⟩
    refine .inr ⟨{ k2.setPCB n { bn with state := .RUNNING } with
      currentPid := n, quantum := calculateQuantum bn.priority }, bn.rsp, c, n, ?_, ?_, ?_, ?_⟩
    · simp [SoKernel.schedule, hc, hb, hearly, hnext, SoKernel.dispatch, hbn]
    · exact C3.congr rfl rfl rfl rfl rfl rfl rfl
    · refine ⟨hn, rfl, hplace, ⟨{ bn with state := .RUNNING }, by simp, rfl⟩, ?_⟩
      exact hfirst.trans suspend_first
    · refine ⟨hc, hn, ?_, ?_, ?_, ⟨{ bn with state := .RUNNING }, by simp, rfl⟩, ?_, ?_, ?_⟩
      · intro p b' h'
        rcases eq_or_ne p n with rfl | hpn
        · obtain rfl : { bn with state := .RUNNING } = b' := by simpa using h'
          obtain ⟨b0, hb0, hsame, hrsp⟩ := hsaved p bn hbn
          exact ⟨b0, hb0, ⟨hsame.pid, hsame.parentPid, hsame.foreground⟩, hrsp⟩
        · exact hsaved p b' (by simpa [hpn] using h')
      · intro p b1 b' h1 h'
        rcases eq_or_ne p n with rfl | hpn
        · obtain rfl : { bn with state := .RUNNING } = b' := by simpa using h'
          exact haccount p b1 bn h1 hbn
        · exact haccount p b1 b' h1 (by simpa [hpn] using h')
      · intro p h'
        have hpn : p ≠ n := by
          rintro rfl
          simp at h'
        have hpc : p ≠ c := by
          rintro rfl
          simp [hpn, hp2] at h'
        simpa [hpn, hp2, hpc] using h'
      · exact hlog.trans suspend_log
      · refine (suspend_undispatched.trans U).trans ?_
        exact ⟨fun _ _ => Iff.rfl, rfl, rfl, rfl, rfl, rfl, rfl, rfl, rfl, rfl⟩
      · unfold Rotated at hrot ⊢
        rwa [suspend_queue, suspend_undispatched.idle] at hrot

end Core

end SoKernel
