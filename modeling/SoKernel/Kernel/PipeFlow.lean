import SoKernel.Kernel.PipeTable
import SoKernel.Kernel.Channel

/-!
# Steps at a pipe

What one step does to a pipe that has been opened, as long as only the operations of
the pipe use its semaphores.

Results:
1. `Reach.ownSems`, `Reach.onOpen`: no two pipes share a semaphore, and operations are on
   open pipes.
2. `Books.elsewhere`: a step at another place leaves the books of the pipe alone.
3. `Traffic.guard_read`, `Traffic.guard_write`: who has passed its first semaphore finds a
   byte, or room for one.
4. `Books.pass`, `Books.sleep`, `Books.read`, `Books.write`, `Books.clear`, `Books.finish`: the
   next step of an operation keeps the books.
-/

namespace SoKernel

/-! ## Semaphores of pipes -/

/-- No semaphore belongs to two pipes. -/
def OwnSems (k : Kernel) : Prop :=
  ∀ s s', s ≠ s' → (k.pipes s).isOpen = true → (k.pipes s').isOpen = true →
    ∀ i ∈ (k.pipes s).sems, i ∉ (k.pipes s').sems

section OwnSems

variable {k k' : Kernel} {l : Label}

theorem OwnSems.congr (O : OwnSems k) (hp : ∀ s, (k'.pipes s).isOpen = (k.pipes s).isOpen ∧
    (k'.pipes s).sems = (k.pipes s).sems) : OwnSems k' := by
  intro s s' hne hs hs'
  rw [(hp s).2, (hp s').2]
  exact O s s' hne ((hp s).1 ▸ hs) ((hp s').1 ▸ hs')

theorem OwnSems.effect (O : OwnSems k) (P : PipeTable k) (h : Effect l k k') : OwnSems k' := by
  cases h with
  | @pipeOpened _ slot =>
    have hnew : ∀ i ∈ [k.nextSemId, k.nextSemId + 1, k.nextSemId + 2], k.nextSemId ≤ i :=
      fun i hi => (mem_three.mp hi).1
    have hold : ∀ s, (k.pipes s).isOpen = true → ∀ i ∈ (k.pipes s).sems, i < k.nextSemId :=
      fun s hs i hi => (P.ids.2 s hs i hi).2
    intro s s' hne hs hs'
    rcases eq_or_ne s slot with rfl | h1
    · have h2 : s' ≠ s := hne.symm
      simp only [Kernel.setPipe, Function.update_self, Function.update_of_ne h2, Pipe.sems] at hs' ⊢
      intro i hi hi'
      exact absurd (hold s' hs' i hi') (Int.not_lt.mpr (hnew i hi))
    · rcases eq_or_ne s' slot with rfl | h2
      · simp only [Kernel.setPipe, Function.update_self, Function.update_of_ne h1, Pipe.sems] at hs ⊢
        intro i hi hi'
        exact absurd (hold s hs i hi) (Int.not_lt.mpr (hnew i hi'))
      · simp only [Kernel.setPipe, Function.update_of_ne h1, Function.update_of_ne h2] at hs hs' ⊢
        exact O s s' hne hs hs'
  | @pipeClosed _ slot pipe _ hclosed =>
    have hother : ∀ s, ((k.setPipe slot pipe).pipes s).isOpen = true → s ≠ slot := by
      rintro s hs rfl
      simp [Kernel.setPipe, hclosed] at hs
    intro s s' hne hs hs'
    have h1 := hother s hs
    have h2 := hother s' hs'
    simp only [Kernel.observe, Kernel.setPipe, Function.update_of_ne h1,
      Function.update_of_ne h2] at hs hs' ⊢
    exact O s s' hne hs hs'
  | @pipeData _ slot pipe _ ho hr hw hm =>
    refine O.congr fun s => ?_
    rcases eq_or_ne s slot with rfl | hne
    · simp [Kernel.observe, Kernel.setPipe, Pipe.sems, ho, hr, hw, hm]
    · simp [Kernel.observe, Kernel.setPipe, hne]
  | _ => exact O

theorem Reach.ownSems {allocs : Nat → Bool} {ok : Machine → Event → Prop} {m : Machine}
    (h : Reach allocs ok m) : OwnSems m.k := by
  refine (h.kernel (P := fun k => (SemTable k ∧ PipeTable k) ∧ OwnSems k)
    ⟨⟨boot_semTable, boot_pipeTable⟩, ?_⟩ ?_ ?_).2
  · intro s s' hne hs hs'
    exact absurd ((boot_pipe_open hs).trans (boot_pipe_open hs').symm) hne
  · exact fun _ _ _ _ hT he => ⟨⟨hT.1.1.effect he, hT.1.2.effect hT.1.1 he⟩, hT.2.effect hT.1.2 he⟩
  · rintro k k' rsp sp p n _ ⟨⟨T, P⟩, O⟩ W
    refine ⟨⟨T.congr W.rest.sems, P.switch W⟩, O.congr fun s => ?_⟩
    rw [W.rest.pipes]
    exact ⟨rfl, rfl⟩

end OwnSems

/-! ## What the processes may do -/

/-- The semaphore a system call waits for or posts. -/
def Event.semaphore : Event → Option Int
  | .call _ (.semWait id) | .call _ (.semPost id) => some id
  | _ => none

/-- Only the operations of the pipe use its semaphores. -/
def Event.leaves (slot : Nat) (m : Machine) (e : Event) : Bool :=
  e.semaphore.all fun id => !(m.k.pipes slot).isOpen || !decide (id ∈ (m.k.pipes slot).sems)

/-- A call of `pipeClear` on the pipe. -/
def Event.clears (slot : Nat) (m : Machine) : Event → Bool
  | .call _ (.clearPipe id) => pipeIdCheck m.k id == some slot
  | _ => false

/-- The critical section of a `pipeClear` that finds bytes in the pipe. -/
def Event.discards (slot : Nat) (m : Machine) : Event → Bool
  | .resume _ => m.cont m.cpu == .pipe slot .clear .critical && (m.k.pipes slot).count != 0
  | _ => false

/-- A wait on the pipe that finds neither a token nor memory, and goes on all the same. -/
def Event.starves (slot : Nat) (m : Machine) : Event → Bool
  | .resume _ =>
    match m.cont m.cpu with
    | .pipe s op stage =>
      s == slot && ((m.k.pipes slot).awaited op stage).any fun id =>
        (m.k.sems id).value == 0 && !m.k.allocs 0
    | _ => false
  | _ => false

/-- Processes read from the pipe and write to it. -/
def ReadsAndWrites (slot : Nat) (m : Machine) (e : Event) : Prop :=
  e.isCalm = true ∧ e.leaves slot m = true ∧ e.clears slot m = false

/-- They may clear it when it is empty, and no wait is given up. -/
def ClearsEmpty (slot : Nat) (m : Machine) (e : Event) : Prop :=
  e.isCalm = true ∧ e.leaves slot m = true ∧ e.discards slot m = false ∧ e.starves slot m = false

instance (slot : Nat) (m : Machine) (e : Event) : Decidable (ReadsAndWrites slot m e) :=
  inferInstanceAs (Decidable (_ ∧ _))

instance (slot : Nat) (m : Machine) (e : Event) : Decidable (ClearsEmpty slot m e) :=
  inferInstanceAs (Decidable (_ ∧ _))

/-! ## Operations are on open pipes -/

section OnOpen

variable {k k' k1 : Kernel} {l : Label} {m : Machine} {c : Pid} {e : Event} {next : Cont}
  {flow : Flow} {s : Nat}

def OnOpen (m : Machine) : Prop :=
  ∀ p s x, (m.cont p).onPipe s = some x → (m.k.pipes s).isOpen = true

theorem Effect.open_mono (h : Effect l k k') (hc : l.Calm) (ho : (k.pipes s).isOpen = true) :
    (k'.pipes s).isOpen = true := by
  cases h with
  | @pipeOpened _ slot =>
    rcases eq_or_ne s slot with rfl | hne
    · simp [Kernel.setPipe]
    · simpa [Kernel.setPipe, hne] using ho
  | pipeClosed => cases hc
  | @pipeData _ slot pipe _ hopen =>
    rcases eq_or_ne s slot with rfl | hne
    · simpa [Kernel.observe, Kernel.setPipe, hopen] using ho
    · simpa [Kernel.observe, Kernel.setPipe, hne] using ho
  | _ => exact ho

theorem Cont.onPipe_eq {slot : Nat} {op : PipeOp} {stage : Stage} {x : PipeOp × Stage}
    (h : (Cont.pipe slot op stage).onPipe s = some x) : slot = s := by
  unfold Cont.onPipe at h
  exact (Option.ite_none_right_eq_some.mp h).1

/-- An operation goes on, or starts on an open pipe. -/
theorem Turn.onPipe {x : PipeOp × Stage} (T : Turn m c e k1 next flow) (h : next.onPipe s = some x) :
    (∃ y, (m.cont m.cpu).onPipe s = some y) ∨ (m.k.pipes s).isOpen = true := by
  have hsame : ∀ {slot op stage}, m.cont m.cpu = .pipe slot op stage → slot = s →
      ∃ y, (m.cont m.cpu).onPipe s = some y := by
    rintro slot op stage hc rfl
    exact ⟨_, by rw [hc, Cont.onPipe_pipe]⟩
  cases T with
  | entered _ _ ho => exact .inr (Cont.onPipe_eq h ▸ ho)
  | waited hc => exact .inl ⟨x, by rw [hc]; exact h⟩
  | passed hc => exact .inl (hsame hc (Cont.onPipe_eq h))
  | slept hc => exact .inl (hsame hc (Cont.onPipe_eq h))
  | read hc => exact .inl (hsame hc (Cont.onPipe_eq h))
  | written hc => exact .inl (hsame hc (Cont.onPipe_eq h))
  | _ => cases h

theorem Reach.onOpen {allocs : Nat → Bool} (h : Reach allocs Calm m) : OnOpen m := by
  refine h.machine (P := OnOpen) (fun _ _ _ h => (by cases h)) ?_ ?_
  · intro off m' hi p s x hx
    rw [(boot_dispatch hi).1] at hx
    cases hx
  · intro m c e m' R O hok hs
    have hturn : ∀ {k1 next flow}, Turn m c e k1 next flow → ∀ p s x,
        (Function.update m.cont m.cpu next p).onPipe s = some x → (k1.pipes s).isOpen = true := by
      intro k1 next flow T p s x hx
      have hopen : (m.k.pipes s).isOpen = true := by
        rcases eq_or_ne p m.cpu with rfl | hp
        · rw [Function.update_self] at hx
          rcases T.onPipe hx with ⟨y, hy⟩ | ho
          · exact O _ _ _ hy
          · exact ho
        · rw [Function.update_of_ne hp] at hx
          exact O p s x hx
      rcases T.ends with hends | ⟨_, rfl, _⟩
      · exact hends.effects.invariant (P := fun k => (k.pipes s).isOpen = true) hopen
          fun hl ho he => he.open_mono (hl.calm hok) ho
      · exact hopen
    cases R.stepped hs with
    | stayed T hm =>
      subst hm
      exact hturn T
    | counted _ hm =>
      subst hm
      exact O
    | switched T _ W hcont =>
      intro p s x hx
      rw [hcont] at hx
      rw [W.rest.pipes]
      exact hturn T p s x hx

end OnOpen

/-! ## Steps elsewhere -/

/-- An entry about another pipe and other semaphores. -/
def Obs.Foreign (slot : Nat) (ids : List Int) : Obs → Prop
  | .opened i _ | .took i _ | .resumed i _ | .released i _ _ | .incremented i _ => i ∉ ids
  | .put s _ _ | .got s _ _ | .cleared s _ _ | .readDone s .. | .writeDone s .. => s ≠ slot
  | _ => True

/-- An effect on another pipe and on other semaphores; who waits for these may go to sleep. -/
def Label.Apart (slot : Nat) (ids : List Int) : Label → Prop
  | .took i | .wake i _ | .absorb i _ | .incr i | .semClosed i => i ∉ ids
  | .pipeOpened s | .pipeClosed s | .pipeData s => s ≠ slot
  | .note o => o.Foreign slot ids
  | _ => True

/-- The pipe and its history are left alone. -/
structure Elsewhere (slot : Nat) (ids : List Int) (k k' : Kernel) : Prop where
  pipe : k'.pipes slot = k.pipes slot
  used : ∀ i ∈ ids, (k.sems i).used = true → (k'.sems i).used = true
  log : ∃ later, k'.log = later ++ k.log ∧ ∀ o ∈ later, o.Foreign slot ids

section Elsewhere

variable {k k' k1 : Kernel} {l : Label} {m : Machine} {c p : Pid} {e : Event} {next : Cont}
  {flow : Flow} {slot s : Nat} {ids : List Int} {r w x id : Int} {o : Obs}

theorem Obs.Foreign.silent (h : o.Foreign slot [r, w, x]) : o.Silent slot r w x := by
  have hne : ∀ {i j}, i ∉ [r, w, x] → j ∈ [r, w, x] → i ≠ j := fun hi hj hij => hi (hij ▸ hj)
  have hmem : ∀ {j}, j ∈ [r, w] → j ∈ [r, w, x] := by
    intro j hj
    exact List.mem_append_left [x] hj
  cases o with
  | opened i v =>
    exact ⟨fun j hj => if_neg (hne h hj), rfl, rfl, fun _ _ => rfl, by simp, by simp, by simp⟩
  | took i q =>
    refine ⟨fun _ _ => rfl, rfl, rfl, fun j hj => ?_, by simp, by simp, by simp⟩
    rw [Obs.act, if_neg (hne h (hmem hj))]
    rfl
  | released i q q' =>
    refine ⟨fun _ _ => rfl, rfl, rfl, fun j hj => ?_, by simp, by simp, by simp⟩
    rw [Obs.act, if_neg (hne h (hmem hj))]
    rfl
  | incremented i q =>
    refine ⟨fun _ _ => rfl, rfl, rfl, fun j hj => ?_, by simp, by simp, by simp⟩
    rw [Obs.act, if_neg (hne h (hmem hj))]
    rfl
  | queued i q =>
    refine ⟨fun _ _ => rfl, rfl, rfl, fun j hj => ?_, by simp, by simp, by simp⟩
    rcases eq_or_ne i j with rfl | hi
    · simp [Obs.act, Act.poster]
    · simp [Obs.act, hi]
  | put s q b =>
    exact ⟨fun _ _ => rfl, if_neg h, rfl, fun _ _ => rfl, by simp, by simp, by simp⟩
  | got s q b =>
    exact ⟨fun _ _ => rfl, rfl, if_neg h, fun _ _ => rfl, by simp, by simp, by simp⟩
  | cleared s q n =>
    have hs : s ≠ slot := h
    exact ⟨fun _ _ => rfl, rfl, rfl, fun _ _ => rfl, by simp [hs], by simp, by simp⟩
  | readDone s =>
    have hs : s ≠ slot := h
    exact ⟨fun _ _ => rfl, rfl, rfl, fun _ _ => rfl, by simp, by simp [hs], by simp⟩
  | writeDone s =>
    have hs : s ≠ slot := h
    exact ⟨fun _ _ => rfl, rfl, rfl, fun _ _ => rfl, by simp, by simp, by simp [hs]⟩
  | _ => exact ⟨fun _ _ => rfl, rfl, rfl, fun _ _ => rfl, by simp, by simp, by simp⟩

theorem Obs.Foreign.not_about (h : o.Foreign slot [r, w, x]) : ¬ o.About slot r w x p := by
  have hx : x ∈ [r, w, x] := by simp
  cases o with
  | opened => exact h
  | took => exact fun ha => h ha.1
  | resumed => exact fun ha => h ha.1
  | released => exact fun ha => h (ha.1 ▸ hx)
  | incremented => exact fun ha => h (ha.1 ▸ hx)
  | put => exact fun ha => h ha.1
  | got => exact fun ha => h ha.1
  | readDone => exact fun ha => h ha.1
  | writeDone => exact fun ha => h ha.1
  | _ => exact id

namespace Elsewhere

theorem refl (k : Kernel) : Elsewhere slot ids k k :=
  ⟨rfl, fun _ _ hu => hu, [], rfl, by simp⟩

theorem trans (h : Elsewhere slot ids k k1) (h' : Elsewhere slot ids k1 k') :
    Elsewhere slot ids k k' := by
  obtain ⟨later, hl, hf⟩ := h.log
  obtain ⟨later', hl', hf'⟩ := h'.log
  refine ⟨h'.pipe.trans h.pipe, fun i hi hu => h'.used i hi (h.used i hi hu), later' ++ later, ?_, ?_⟩
  · rw [hl', hl, List.append_assoc]
  · intro o ho
    exact (List.mem_append.mp ho).elim (hf' o) (hf o)

end Elsewhere

/-- What an effect elsewhere adds to the history. -/
theorem Label.Apart.foreign (hl : l.Apart slot ids) (ho : l.Logs o)
    (hopen : ∀ i, l = .semOpened i → i ∉ ids) : o.Foreign slot ids := by
  cases l with
  | semOpened i =>
    cases o with
    | opened j v =>
      obtain rfl : j = i := ho
      exact hopen j rfl
    | _ => cases ho
  | note o' =>
    obtain ⟨rfl, _⟩ := ho
    exact hl
  | pipeData s =>
    cases o with
    | put => exact ho ▸ hl
    | got => exact ho ▸ hl
    | cleared => exact ho ▸ hl
    | _ => cases ho
  | took i =>
    cases o with
    | took => exact ho ▸ hl
    | _ => cases ho
  | wake i =>
    cases o with
    | released => exact ho.1 ▸ hl
    | _ => cases ho
  | incr i =>
    cases o with
    | incremented => exact ho ▸ hl
    | _ => cases ho
  | _ => cases o <;> trivial

theorem Effect.elsewhere (h : Effect l k k') (hl : l.Apart slot ids)
    (hu : ∀ i ∈ ids, (k.sems i).used = true) : Elsewhere slot ids k k' := by
  have hopen : ∀ i, l = .semOpened i → i ∉ ids := by
    rintro i rfl hi
    exact Bool.false_ne_true (h.opened_unused.symm.trans (hu i hi))
  have hclosed : ∀ i ∈ ids, l ≠ .semClosed i := by
    rintro i hi rfl
    exact hl hi
  have hpipe : k'.pipes slot = k.pipes slot := by
    have hset : ∀ {s : Nat} (pipe : Pipe), s ≠ slot → (k.setPipe s pipe).pipes slot = k.pipes slot :=
      fun pipe hs => Function.update_of_ne hs.symm ..
    cases h with
    | pipeOpened => exact hset _ hl
    | pipeClosed => exact hset _ hl
    | pipeData => exact hset _ hl
    | _ => rfl
  refine ⟨hpipe, fun i hi hused => ?_, ?_⟩
  · rw [h.used_eq (fun he => hopen i he hi) (hclosed i hi)]
    exact hused
  · rcases h.log with hlog | ⟨o, hlog, ho⟩
    · exact ⟨[], hlog, by simp⟩
    · exact ⟨[o], hlog, by simpa using hl.foreign ho hopen⟩

theorem Effects.elsewhere (h : Effects (Label.Apart slot ids) k k')
    (hu : ∀ i ∈ ids, (k.sems i).used = true) : Elsewhere slot ids k k' :=
  h.invariant (P := Elsewhere slot ids k) (.refl k) fun hl hE he =>
    hE.trans (he.elsewhere hl fun i hi => hE.used i hi (hu i hi))

end Elsewhere

/-! ## Guards -/

section Guards

variable {allocs : Nat → Bool} {m : Machine} {slot v : Nat} {id r w x : Int} {p : Pid}

theorem length_bytesOf (l : List (Pid × Byte)) : (bytesOf p l).length = (l.map Prod.fst).count p := by
  rw [bytesOf, List.length_map, ← List.countP_eq_length_filter, List.count_eq_countP, List.countP_map]
  rfl

/-- Fewer have used a token than there are tokens, if somebody has one it has not used. -/
theorem Reach.token (h : Reach allocs Calm m) (hv : openedWith id m.k.log = some v) {d : List Pid}
    (hle : ∀ q, d.count q ≤ passes id q m.k.log) (hlt : d.count p < passes id p m.k.log) :
    d.length < v + postCount id m.k.log := by
  obtain ⟨_, _, H⟩ := (h.ledger id).handoff v hv
  have hgranted : ∀ q, passes id q m.k.log ≤ (grants (acts id (sinceOpened id m.k.log))).count q :=
    h.returned hv
  have hadd := Handoff.length_add_le (l := [p]) (List.nodup_singleton p)
    (fun q => Nat.le_trans (hle q) (hgranted q)) fun q hq => by
      rw [List.mem_singleton.mp hq]
      exact Nat.lt_of_lt_of_le hlt (hgranted p)
  calc d.length + 1 = [p].length + d.length := Nat.add_comm _ _
    _ ≤ (grants (acts id (sinceOpened id m.k.log))).length := hadd
    _ ≤ (m.k.sems id).value + (grants (acts id (sinceOpened id m.k.log))).length :=
        Nat.le_add_left _ _
    _ ≤ v + postCount id m.k.log := H.grants_le

section

variable (h : Reach allocs Calm m) (F : Traffic slot r w x (m.k.pipes slot) m.k.log)
  (hC : ∀ p, Client slot r w x m.k.log p (m.cont p))

include h F hC

/-- `pipe->count > 0` in `pipeRead`. -/
theorem Traffic.guard_read (hp : (m.cont p).tokens slot PipeOp.isRead = 1) :
    0 < (m.k.pipes slot).count := by
  have hle : ∀ q, ((taken slot m.k.log).map Prod.fst).count q ≤ passes r q m.k.log := by
    intro q
    rw [(hC q).readers, length_bytesOf]
    exact Nat.le_add_right _ _
  have hlt := h.token (p := p) F.readers hle (by
    rw [(hC p).readers, length_bytesOf, hp]
    exact Nat.lt_succ_self _)
  rw [List.length_map, F.postsRead, F.length, Nat.zero_add] at hlt
  exact Nat.pos_of_lt_add_right hlt

/-- `pipe->count < PIPE_BUFFER_SIZE` in `pipeWrite`. -/
theorem Traffic.guard_write (hp : (m.cont p).tokens slot PipeOp.isWrite = 1) :
    (m.k.pipes slot).count < pipeBufferSize := by
  have hle : ∀ q, ((written slot m.k.log).map Prod.fst).count q ≤ passes w q m.k.log := by
    intro q
    rw [(hC q).writers, length_bytesOf]
    exact Nat.le_add_right _ _
  have hlt := h.token (p := p) F.writers hle (by
    rw [(hC p).writers, length_bytesOf, hp]
    exact Nat.lt_succ_self _)
  rw [List.length_map, F.postsWrite, F.length, Nat.add_comm] at hlt
  exact Nat.lt_of_add_lt_add_right hlt

end

end Guards

/-! ## The next step of an operation -/

/-- An entry that opens no semaphore; who did what it says is `c`. -/
def Obs.By (c : Pid) : Obs → Prop
  | .opened .. => False
  | .took _ q | .resumed _ q | .released _ _ q | .incremented _ q => q = c
  | .put _ q _ | .got _ q _ | .readDone _ q .. | .writeDone _ q .. => q = c
  | _ => True

/-- The bytes of a pipe and what each process has done at it. -/
structure Books (slot : Nat) (r w x : Int) (k : Kernel) (cont : Pid → Cont) : Prop where
  traffic : Traffic slot r w x (k.pipes slot) k.log
  clients : ∀ p, Client slot r w x k.log p (cont p)

/-- The process `c` runs, and may post. -/
structure Poster (k : Kernel) (c : Pid) : Prop where
  core : Core k
  queues : SemQueues k
  current : k.currentProcess = some c

section Books

variable {k k' k0 k1 k2 : Kernel} {l : Label} {cont : Pid → Cont} {c p : Pid} {next : Cont}
  {flow f g : Flow} {slot size i n : Nat} {buffer data : List Byte} {b : Byte} {r w x id : Int}
  {o : Obs} {op : PipeOp} {stage : Stage}

theorem Obs.By.not_about (h : o.By c) (hp : p ≠ c) : ¬ o.About slot r w x p := by
  cases o with
  | opened => exact h.elim
  | took => exact fun ha => hp (ha.2.symm.trans h)
  | resumed => exact fun ha => hp (ha.2.symm.trans h)
  | released => exact fun ha => hp (ha.2.symm.trans h)
  | incremented => exact fun ha => hp (ha.2.symm.trans h)
  | put => exact fun ha => hp (ha.2.symm.trans h)
  | got => exact fun ha => hp (ha.2.symm.trans h)
  | readDone => exact fun ha => hp (ha.2.symm.trans h)
  | writeDone => exact fun ha => hp (ha.2.symm.trans h)
  | _ => exact id

@[simp] theorem Obs.by_put : (Obs.put slot p b).By c ↔ p = c := Iff.rfl

@[simp] theorem Obs.by_got : (Obs.got slot p b).By c ↔ p = c := Iff.rfl

@[simp] theorem Obs.by_queued : (Obs.queued id p).By c := trivial

@[simp] theorem Obs.by_cleared : (Obs.cleared slot p n).By c := trivial

theorem Obs.IsPost.by (h : o.IsPost id c) : o.By c := by
  cases o with
  | released => exact h.2
  | incremented => exact h.2
  | _ => cases h

/-- A post that is not of the mutex is not counted by the client. -/
theorem Obs.IsPost.not_about (h : o.IsPost id c) (hx : id ≠ x) : ¬ o.About slot r w x p := by
  cases o with
  | released => exact fun ha => hx (h.1.symm.trans ha.1)
  | incremented => exact fun ha => hx (h.1.symm.trans ha.1)
  | _ => cases h

namespace Poster

theorem effect (P : Poster k c) (h : Effect l k k') (hl : ∀ p, l ≠ .die p) : Poster k' c := by
  refine ⟨P.core.effect h, P.queues.effect P.core h fun p hp => absurd hp (hl p), ?_⟩
  rcases h.current P.core.idle P.current with hc | ⟨_, hd⟩
  · exact hc
  · exact absurd hd (hl c)

/-- A post in order: nobody who is not waiting is in the queue. -/
theorem post (P : Poster k c) (h : semPost k id = some (k', flow)) :
    Poster k' c ∧ k'.pipes = k.pipes ∧ ∃ o, k'.log = o :: k.log ∧ o.IsPost id c := by
  obtain ⟨_, l, he, hl⟩ := semPost_cases h
  have hpid := getCurrentPid_eq P.current
  rcases hl with ⟨p, rfl⟩ | ⟨p, rfl⟩ | rfl
  · refine ⟨P.effect he (by simp), ?_⟩
    cases he
    exact ⟨rfl, _, rfl, rfl, hpid⟩
  · cases he with
    | absorb _ hb hp => exact absurd (P.queues.member id p ⟨_, hb, List.mem_cons_self⟩) hp
  · refine ⟨P.effect he (by simp), ?_⟩
    cases he
    exact ⟨rfl, _, rfl, rfl, hpid⟩

end Poster

/-- The two posts behind a critical section. -/
theorem Poster.leave {other : Int} (P : Poster k c) (h : semPost k x = some (k1, f))
    (h' : semPost k1 other = some (k2, g)) : k2.pipes = k.pipes ∧
      ∃ t o, k2.log = o :: t :: k.log ∧ t.IsPost x c ∧ o.IsPost other c := by
  obtain ⟨P1, hp1, t, hl1, ht⟩ := P.post h
  obtain ⟨_, hp2, o, hl2, ho⟩ := P1.post h'
  exact ⟨hp2.trans hp1, t, o, by rw [hl2, hl1], ht, ho⟩

/-- The guard of `pipeRead` holds, and a byte is taken. -/
theorem takeByte_some {v : Option Byte} (hpos : 0 < (k.pipes slot).count)
    (h : takeByte k slot c = (k0, v)) : ∃ pipe d, v = some d ∧
      k0 = (k.setPipe slot pipe).observe (.got slot c d) ∧
      d = (k.pipes slot).buffer (k.pipes slot).readIdx ∧
      pipe = { k.pipes slot with
        readIdx := ((k.pipes slot).readIdx + 1) % pipeBufferSize,
        count := (k.pipes slot).count - 1 } := by
  rw [takeByte, if_pos hpos] at h
  cases h
  exact ⟨_, _, rfl, rfl, rfl, rfl⟩

/-- The guard of `pipeWrite` holds, and the byte is stored. -/
theorem putByte_stored {stored : Bool} (hlt : (k.pipes slot).count < pipeBufferSize)
    (h : putByte k slot c b = (k0, stored)) : ∃ pipe, stored = true ∧
      k0 = (k.setPipe slot pipe).observe (.put slot c b) ∧
      pipe = { k.pipes slot with
        buffer := Function.update (k.pipes slot).buffer (k.pipes slot).writeIdx b,
        writeIdx := ((k.pipes slot).writeIdx + 1) % pipeBufferSize,
        count := (k.pipes slot).count + 1 } := by
  rw [putByte, if_pos hlt] at h
  cases h
  exact ⟨_, rfl, rfl, rfl⟩

/-- A critical section on the pipe. -/
theorem Poster.moved {pipe : Pipe} (P : Poster k c) (ho : pipe.isOpen = (k.pipes slot).isOpen)
    (hids : pipe.sems = (k.pipes slot).sems)
    (hd : (∃ p b, o = .put slot p b) ∨ (∃ p b, o = .got slot p b) ∨ ∃ p n, o = .cleared slot p n) :
    Poster ((k.setPipe slot pipe).observe o) c := by
  obtain ⟨hr, hw, hx, _⟩ : pipe.semReaders = (k.pipes slot).semReaders ∧
      pipe.semWriters = (k.pipes slot).semWriters ∧ pipe.mutex = (k.pipes slot).mutex ∧ True := by
    simpa [Pipe.sems] using hids
  exact P.effect (.pipeData ho hr hw hx hd) (by simp)

namespace Books

/-- A step of `c` that the books of the others leave out. -/
theorem own (B : Books slot r w x k cont) (later : List Obs)
    (F : Traffic slot r w x (k'.pipes slot) k'.log)
    (hlog : k'.log = later ++ k.log) (hby : ∀ o ∈ later, o.By c)
    (hC : Client slot r w x k'.log c next) :
    Books slot r w x k' (Function.update cont c next) := by
  refine ⟨F, fun p => ?_⟩
  rcases eq_or_ne p c with rfl | hp
  · rw [Function.update_self]
    exact hC
  · rw [Function.update_of_ne hp, hlog]
    clear F hlog hC
    induction later with
    | nil => exact B.clients p
    | cons o later ih =>
      refine (ih fun o' ho' => hby o' (List.mem_cons_of_mem o ho')).skip ?_
      exact (hby o List.mem_cons_self).not_about hp

/-- What happens elsewhere, for a process that is at no operation on the pipe. -/
theorem elsewhere (B : Books slot r w x k cont) (E : Elsewhere slot [r, w, x] k k')
    (hC : ∀ log, Client slot r w x log c (cont c) → Client slot r w x log c next) :
    Books slot r w x k' (Function.update cont c next) := by
  obtain ⟨later, hlog, hf⟩ := E.log
  have hbooks : Traffic slot r w x (k.pipes slot) (later ++ k.log) ∧
      ∀ p, Client slot r w x (later ++ k.log) p (cont p) := by
    clear hlog
    induction later with
    | nil => exact ⟨B.traffic, B.clients⟩
    | cons o later ih =>
      obtain ⟨F, hC⟩ := ih fun o' ho' => hf o' (List.mem_cons_of_mem o ho')
      have ho := hf o List.mem_cons_self
      exact ⟨F.silent ho.silent, fun p => (hC p).skip ho.not_about⟩
  rw [← hlog] at hbooks
  refine ⟨E.pipe.symm ▸ hbooks.1, fun p => ?_⟩
  rcases eq_or_ne p c with rfl | hp
  · rw [Function.update_self]
    exact hC _ (hbooks.2 p)
  · rw [Function.update_of_ne hp]
    exact hbooks.2 p

/-- A semaphore of the pipe is passed, at once or after a sleep. -/
theorem pass (B : Books slot r w x k cont) (hC : Client slot r w x k.log c (.pipe slot op stage))
    (ha : (k.pipes slot).awaited op stage = some id) (ho : o = .took id c ∨ o = .resumed id c)
    (hpipe : k'.pipes slot = k.pipes slot) (hlog : k'.log = o :: k.log) :
    Books slot r w x k' (Function.update cont c (.pipe slot op stage.next)) := by
  have hsilent : o.Silent slot r w x := by
    rcases ho with rfl | rfl
    · refine ⟨fun _ _ => rfl, rfl, rfl, fun j _ => ?_, by simp, by simp, by simp⟩
      rcases eq_or_ne id j with rfl | hj
      · simp [Obs.act, Act.poster]
      · simp [Obs.act, hj]
    · exact ⟨fun _ _ => rfl, rfl, rfl, fun _ _ => rfl, by simp, by simp, by simp⟩
  have hby : o.By c := by
    rcases ho with rfl | rfl <;> rfl
  refine B.own [o] ?_ hlog (by simpa using hby) ?_
  · rw [hpipe, hlog]
    exact B.traffic.silent hsilent
  · rw [hlog]
    exact hC.pass B.traffic.sems ha ho

/-- A process goes to sleep in the middle of an operation. -/
theorem sleep (B : Books slot r w x k cont) (hc : cont c = .pipe slot op stage)
    (ha : (k.pipes slot).awaited op stage = some id) (hpipe : k'.pipes slot = k.pipes slot)
    (hlog : k'.log = k.log ∨ k'.log = .queued id c :: k.log) :
    Books slot r w x k' (Function.update cont c (.waited id (.pipe slot op stage.next))) := by
  have hC : Client slot r w x k.log c (.waited id (.pipe slot op stage.next)) :=
    Client.sleep (hc ▸ B.clients c) ha
  have hsilent : (Obs.queued id c).Foreign slot [r, w, x] := trivial
  rcases hlog with hlog | hlog
  · refine B.own [] ?_ hlog (by simp) ?_
    · rw [hpipe, hlog]
      exact B.traffic
    · rw [hlog]
      exact hC
  · refine B.own [.queued id c] ?_ hlog (by simp) ?_
    · rw [hpipe, hlog]
      exact B.traffic.silent hsilent.silent
    · rw [hlog]
      exact hC.skip hsilent.not_about

/-- A call returns. -/
theorem finish (B : Books slot r w x k cont) (hc : cont c = .pipe slot op .loop)
    (ho : op.result slot c = some o) :
    Books slot r w x (k.observe o) (Function.update cont c .user) := by
  have hC : Client slot r w x k.log c (.pipe slot op .loop) := hc ▸ B.clients c
  have hsound := hC.sound op .loop Cont.onPipe_pipe
  have hby : o.By c := by
    rcases hsound.result ho with ⟨_, _, _, _, rfl⟩ | ⟨_, _, rfl⟩ <;> rfl
  exact B.own [o] (B.traffic.finish hsound ho) rfl (by simpa using hby) (hC.finish ho)

/-- The critical section of `pipeRead`. -/
theorem read (B : Books slot r w x k cont) (P : Poster k c) {b : Option Byte}
    (hc : cont c = .pipe slot (.read size i buffer n) .critical) (hpos : 0 < (k.pipes slot).count)
    (htake : takeByte k slot c = (k0, b)) (hmutex : semPost k0 (k0.pipes slot).mutex = some (k1, f))
    (hother : semPost k1 (k0.pipes slot).semWriters = some (k2, g)) :
    Books slot r w x k2 (Function.update cont c
      (.pipe slot (.read size (i + 1) (buffer ++ b.toList) (n + b.toList.length)) .loop)) := by
  have F := B.traffic
  obtain ⟨d, hd⟩ := Nat.exists_eq_succ_of_ne_zero (Nat.ne_of_gt hpos)
  obtain ⟨pipe, a, rfl, rfl, ha, hp⟩ := takeByte_some hpos htake
  have hpipe : ((k.setPipe slot pipe).observe (.got slot c a)).pipes slot = pipe :=
    Function.update_self ..
  have P0 : Poster ((k.setPipe slot pipe).observe (.got slot c a)) c :=
    P.moved (hp ▸ rfl) (hp ▸ rfl) (.inr (.inl ⟨c, a, rfl⟩))
  rw [hpipe] at hmutex hother
  obtain ⟨hpipes, t, o, hlog, ht, ho⟩ := P0.leave hmutex hother
  have hx : pipe.mutex = x := hp ▸ F.sems.mutex
  have hw : pipe.semWriters = w := hp ▸ F.sems.writers
  rw [hx] at ht
  rw [hw] at ho
  have hlog : k2.log = o :: t :: .got slot c a :: k.log := hlog
  refine B.own [o, t, .got slot c a] ?_ hlog ?_ ?_
  · rw [hpipes, hpipe, hlog, hp, ha]
    exact F.take hd ht ho
  · simp [ho.by, ht.by]
  · rw [hlog]
    exact (Client.read (hc ▸ B.clients c) ht).skip (ho.not_about F.sems.wx)

/-- The critical section of `pipeWrite`. -/
theorem write (B : Books slot r w x k cont) (P : Poster k c) {stored : Bool}
    (hc : cont c = .pipe slot (.write data i n) .critical) (hb : data[i]? = some b)
    (hlt : (k.pipes slot).count < pipeBufferSize) (hput : putByte k slot c b = (k0, stored))
    (hmutex : semPost k0 (k0.pipes slot).mutex = some (k1, f))
    (hother : semPost k1 (k0.pipes slot).semReaders = some (k2, g)) :
    Books slot r w x k2 (Function.update cont c
      (.pipe slot (.write data (i + 1) (n + stored.toNat)) .loop)) := by
  have F := B.traffic
  obtain ⟨pipe, rfl, rfl, hp⟩ := putByte_stored hlt hput
  have hpipe : ((k.setPipe slot pipe).observe (.put slot c b)).pipes slot = pipe :=
    Function.update_self ..
  have P0 : Poster ((k.setPipe slot pipe).observe (.put slot c b)) c :=
    P.moved (hp ▸ rfl) (hp ▸ rfl) (.inl ⟨c, b, rfl⟩)
  rw [hpipe] at hmutex hother
  obtain ⟨hpipes, t, o, hlog, ht, ho⟩ := P0.leave hmutex hother
  have hx : pipe.mutex = x := hp ▸ F.sems.mutex
  have hr : pipe.semReaders = r := hp ▸ F.sems.readers
  rw [hx] at ht
  rw [hr] at ho
  have hlog : k2.log = o :: t :: .put slot c b :: k.log := hlog
  refine B.own [o, t, .put slot c b] ?_ hlog ?_ ?_
  · rw [hpipes, hpipe, hlog, hp]
    exact F.put hlt ht ho
  · simp [ho.by, ht.by]
  · rw [hlog]
    exact (Client.write (hc ▸ B.clients c) hb ht).skip (ho.not_about F.sems.rx)

/-- The critical section of `pipeClear`, on an empty pipe. -/
theorem clear (B : Books slot r w x k cont) (P : Poster k c)
    (hc : cont c = .pipe slot .clear .critical) (hn : (k.pipes slot).count = 0)
    (hmutex : semPost (emptyPipe k slot c) ((emptyPipe k slot c).pipes slot).mutex = some (k1, f)) :
    Books slot r w x k1 (Function.update cont c .user) := by
  have F := B.traffic
  have P0 : Poster (emptyPipe k slot c) c := P.moved rfl rfl (.inr (.inr ⟨c, _, rfl⟩))
  have hpipe : (emptyPipe k slot c).pipes slot =
      { k.pipes slot with readIdx := 0, writeIdx := 0, count := 0 } := Function.update_self ..
  rw [hpipe] at hmutex
  obtain ⟨_, hpipes, o, hlog, ho⟩ := P0.post hmutex
  have ho : o.IsPost x c := F.sems.mutex ▸ ho
  have hlog : k1.log = o :: .cleared slot c 0 :: k.log := by
    rw [hlog, ← hn]
    rfl
  refine B.own [o, .cleared slot c 0] ?_ hlog ?_ ?_
  · rw [hpipes, hpipe, hlog]
    exact F.clear hn ho
  · simp [ho.by]
  · rw [hlog]
    exact Client.clear (hc ▸ B.clients c) ho

end Books

end Books

end SoKernel
