import SoKernel.Kernel.Invariant

/-!
# The table of pipes

Which pipes are open, under which ids, and with which semaphores.

Results:
1. `Reach.tables`: what the tables look like in reachable states.
2. `pipe_ids_iff`: the ids that the operations on pipes accept are the ones that
   `createPipe` has returned, as long as no process has opened a pipe.
-/

namespace SoKernel

/-- The slot that an id returned by `createPipe` and not closed since stands for. -/
def handles : List Obs → Int → Option Nat
  | .pipeOpened slot id :: log, i => if id = i then some slot else handles log i
  | .pipeClosed _ id :: log, i => if id = i then none else handles log i
  | _ :: log, i => handles log i
  | [], _ => none

/-- The semaphores in use. -/
structure SemTable (k : Kernel) : Prop where
  range : ∀ id, (k.sems id).used = true → Machine.SemIdOk id
  queue : ∀ id, (k.sems id).used = true → (k.sems id).blocked ≠ .freed

/-- The pipes in use. -/
structure PipeTable (k : Kernel) : Prop where
  handle : ∀ id slot, handles k.log id = some slot → id = pipeHandle slot ∧ slot < maxPipes ∧
    (k.pipes slot).isOpen = true ∧ ∀ i ∈ (k.pipes slot).sems, Machine.SemIdOk i
  /-- The pipe of the shell is never closed. -/
  keyboard : (k.pipes 0).isOpen = true
  /-- Semaphore ids are not given to two pipes. -/
  ids : 0 ≤ k.nextSemId ∧ ∀ slot, (k.pipes slot).isOpen = true →
    ∀ i ∈ (k.pipes slot).sems, 0 ≤ i ∧ i < k.nextSemId

section Tables

variable {k k' : Kernel} {l : Label} {id : Int} {o : Obs} {log : List Obs} {slot : Nat}

theorem handles_cons (ho : ∀ s i, o ≠ .pipeOpened s i) (hc : ∀ s i, o ≠ .pipeClosed s i) :
    handles (o :: log) id = handles log id := by
  cases o with
  | pipeOpened s i => exact absurd rfl (ho s i)
  | pipeClosed s i => exact absurd rfl (hc s i)
  | _ => rfl

/-- Only the pipe manager logs what happens to ids. -/
theorem Effect.handles (h : Effect l k k') (hr : ∀ s, l ≠ .pipeReady s)
    (hc : ∀ s, l ≠ .pipeClosed s) : handles k'.log id = handles k.log id := by
  rcases h.log with he | ⟨o, he, hl⟩
  · rw [he]
  · rw [he]
    refine handles_cons ?_ ?_
    · rintro s i rfl
      cases l with
      | pipeReady s => exact hr s rfl
      | note o =>
        obtain ⟨rfl, ho⟩ := hl
        exact ho
      | _ => exact hl
    · rintro s i rfl
      cases l with
      | pipeClosed s => exact hc s rfl
      | note o =>
        obtain ⟨rfl, ho⟩ := hl
        exact ho
      | _ => exact hl

theorem SemTable.congr (T : SemTable k) (hs : k'.sems = k.sems) : SemTable k' :=
  ⟨hs ▸ T.range, hs ▸ T.queue⟩

theorem SemTable.setSem {s : Sem} (T : SemTable k)
    (h : s.used = true → Machine.SemIdOk id ∧ s.blocked ≠ .freed) : SemTable (k.setSem id s) := by
  refine ⟨fun i hi => ?_, fun i hi => ?_⟩
  · rcases eq_or_ne i id with rfl | hne
    · exact (h (by simpa [Kernel.setSem] using hi)).1
    · exact T.range i (by simpa [Kernel.setSem, hne] using hi)
  · rcases eq_or_ne i id with rfl | hne
    · simpa [Kernel.setSem] using (h (by simpa [Kernel.setSem] using hi)).2
    · simpa [Kernel.setSem, hne] using T.queue i (by simpa [Kernel.setSem, hne] using hi)

theorem SemTable.effect (T : SemTable k) (h : Effect l k k') : SemTable k' := by
  have hall : ∀ id, (k'.sems id).used = true →
      Machine.SemIdOk id ∧ (k'.sems id).blocked ≠ .freed := by
    intro id
    rcases h.sem id with heq | hs
    · rw [heq]
      exact fun hu => ⟨T.range id hu, T.queue id hu⟩
    · generalize k'.sems id = s' at hs ⊢
      intro hu
      cases hs with
      | took => exact ⟨T.range id hu, T.queue id hu⟩
      | counted => exact ⟨T.range id hu, T.queue id hu⟩
      | joined => exact ⟨T.range id hu, by simp⟩
      | left => exact ⟨T.range id hu, by simp⟩
      | opened hid _ hb => exact ⟨hid, by rcases hb with rfl | rfl <;> simp⟩
      | closed => cases hu
  exact ⟨fun id hu => (hall id hu).1, fun id hu => (hall id hu).2⟩

/-- The ids of a pipe do not change while it is open, and its slot keeps what else
`handle` says. -/
theorem PipeTable.congr (P : PipeTable k) (hh : ∀ id, handles k'.log id = handles k.log id)
    (hn : k'.nextSemId = k.nextSemId)
    (hp : ∀ slot, (k'.pipes slot).isOpen = (k.pipes slot).isOpen ∧
      (k'.pipes slot).sems = (k.pipes slot).sems) : PipeTable k' where
  handle id slot h := by
    rw [(hp slot).1, (hp slot).2]
    exact P.handle id slot (hh id ▸ h)
  keyboard := (hp 0).1.trans P.keyboard
  ids := by
    refine ⟨hn ▸ P.ids.1, fun slot ho => ?_⟩
    rw [(hp slot).2, hn]
    exact P.ids.2 slot ((hp slot).1 ▸ ho)

theorem PipeTable.effect (P : PipeTable k) (T : SemTable k) (h : Effect l k k') :
    PipeTable k' := by
  have hother : (∀ s, l ≠ .pipeReady s) → (∀ s, l ≠ .pipeClosed s) → k'.nextSemId = k.nextSemId →
      k'.pipes = k.pipes → PipeTable k' :=
    fun hr hc hn hp => P.congr (fun _ => h.handles hr hc) hn fun s => by rw [hp]; exact ⟨rfl, rfl⟩
  cases h with
  | @pipeOpened _ slot hlt hclosed =>
    have hother : ∀ s, (k.pipes s).isOpen = true → s ≠ slot := by
      rintro s hs rfl
      cases hclosed.symm.trans hs
    refine ⟨fun id s hs => ?_, ?_, ?_⟩
    · obtain ⟨hid, hs, ho, hsems⟩ := P.handle id s hs
      have hne := hother s ho
      exact ⟨hid, hs, by simpa [Kernel.setPipe, hne] using ho,
        by simpa [Kernel.setPipe, hne] using hsems⟩
    · have hne := hother 0 P.keyboard
      simpa [Kernel.setPipe, hne] using P.keyboard
    · obtain ⟨h0, hids⟩ := P.ids
      refine ⟨Int.le_trans h0 (Int.le_add_of_nonneg_right (by decide)), fun s ho i hi => ?_⟩
      rcases eq_or_ne s slot with rfl | hne
      · simp only [Kernel.setPipe, Function.update_self, Pipe.sems, List.mem_cons,
          List.not_mem_nil, or_false] at hi
        constructor
        · rcases hi with rfl | rfl | rfl <;> omega
        · show i < k.nextSemId + 3
          rcases hi with rfl | rfl | rfl <;> omega
      · obtain ⟨hi0, hlt⟩ := hids s (by simpa [Kernel.setPipe, hne] using ho) i
          (by simpa [Kernel.setPipe, hne] using hi)
        exact ⟨hi0, Int.lt_trans hlt (Int.lt_add_of_pos_right _ (by decide))⟩
  | @pipeReady _ slot hlt hopen hr hw hm =>
    refine ⟨fun id s hs => ?_, P.keyboard, P.ids⟩
    have hs : (if pipeHandle slot = id then some slot else handles k.log id) = some s := hs
    split at hs
    · next hid =>
      obtain rfl := Option.some.inj hs
      refine ⟨hid.symm, hlt, hopen, fun i hi => T.range i ?_⟩
      simp only [Kernel.observe, Pipe.sems, List.mem_cons, List.not_mem_nil, or_false] at hi
      rcases hi with rfl | rfl | rfl
      · exact hr
      · exact hw
      · exact hm
    · exact P.handle id s hs
  | @pipeClosed _ slot pipe h2 hclosed hr hw hm =>
    have hopen : ∀ s, ((k.setPipe slot pipe).pipes s).isOpen = true → s ≠ slot := by
      rintro s hs rfl
      simp [Kernel.setPipe, hclosed] at hs
    refine ⟨fun id s hs => ?_, ?_, P.ids.1, fun s ho i hi => ?_⟩
    · have hs : (if (slot + 2 : Int) = id then none else handles k.log id) = some s := hs
      obtain ⟨hid, hs⟩ := Option.ite_none_left_eq_some.mp hs
      obtain ⟨rfl, hs, ho, hsems⟩ := P.handle id s hs
      have hne : s ≠ slot := by
        rintro rfl
        exact hid (by rw [pipeHandle, if_neg (Nat.ne_of_gt (Nat.lt_trans Nat.zero_lt_two h2))])
      exact ⟨rfl, hs, by simpa [Kernel.setPipe, Kernel.observe, hne] using ho,
        by simpa [Kernel.setPipe, Kernel.observe, hne] using hsems⟩
    · have h0 : 0 ≠ slot := Nat.ne_of_lt (Nat.lt_trans Nat.zero_lt_two h2)
      simpa [Kernel.setPipe, Kernel.observe, h0] using P.keyboard
    · have hne := hopen s ho
      exact P.ids.2 s (by simpa [Kernel.setPipe, Kernel.observe, hne] using ho) i
        (by simpa [Kernel.setPipe, Kernel.observe, hne] using hi)
  | @pipeData _ slot pipe o ho hr hw hm =>
    refine P.congr (fun id => ?_) rfl fun s => ?_
    · exact Effect.handles (.pipeData ho hr hw hm ‹_›) (by simp) (by simp)
    · rcases eq_or_ne s slot with rfl | hne
      · simp [Kernel.setPipe, Kernel.observe, Pipe.sems, ho, hr, hw, hm]
      · simp [Kernel.setPipe, Kernel.observe, hne]
  | _ => exact hother (by simp) (by simp) rfl rfl

theorem PipeTable.switch {rsp sp : Sp} {c n : Pid} (P : PipeTable k) (W : Switch k rsp k' sp c n) :
    PipeTable k' := by
  refine P.congr (fun id => ?_) W.rest.nextSemId fun s => ?_
  · rw [W.log]
    cases k.first <;> rfl
  · rw [W.rest.pipes]
    exact ⟨rfl, rfl⟩

end Tables

section Boot

variable {allocs : Nat → Bool} {slot : Nat} {id : Int} {m : Machine} {ok : Machine → Event → Prop}

/-- The pipe of the shell after boot. -/
def keyboardPipe : Pipe where
  buffer := fun _ => 0
  readIdx := 0
  writeIdx := 0
  count := 0
  semReaders := 0
  semWriters := 1
  mutex := 2
  isOpen := true

theorem boot_pipes : (boot allocs).k.pipes = Function.update
    (createPipeManager (createPipeManager initialKernel)).pipes 0 keyboardPipe := rfl

theorem boot_pipe_open (h : ((boot allocs).k.pipes slot).isOpen = true) : slot = 0 := by
  by_contra hne
  rw [boot_pipes, Function.update_of_ne hne] at h
  by_cases hlt : slot < maxPipes <;> simp [createPipeManager, initialKernel, hlt] at h

theorem boot_handles : handles (boot allocs).k.log id = if 0 = id then some 0 else none := rfl

theorem boot_sem_used (h : ((boot allocs).k.sems id).used = true) :
    (id = 0 ∨ id = 1 ∨ id = 2) ∧ ((boot allocs).k.sems id).blocked = .live [] := by
  have hsems : (boot allocs).k.sems = Function.update (Function.update (Function.update
      initialKernel.sems 0 { value := 0, lock := false, used := true, blocked := .live [] }) 1
      { value := pipeBufferSize, lock := false, used := true, blocked := .live [] }) 2
      { value := 1, lock := false, used := true, blocked := .live [] } := rfl
  rw [hsems] at h ⊢
  rcases eq_or_ne id 2 with rfl | h2
  · simp
  · rcases eq_or_ne id 1 with rfl | h1
    · simp
    · rcases eq_or_ne id 0 with rfl | h0
      · simp
      · simp [h2, h1, h0, initialKernel] at h

theorem boot_semTable : SemTable (boot allocs).k where
  range id h := by rcases (boot_sem_used h).1 with rfl | rfl | rfl <;> decide
  queue id h := by simp [(boot_sem_used h).2]

theorem boot_pipeTable : PipeTable (boot allocs).k where
  handle id slot h := by
    rw [boot_handles] at h
    obtain ⟨rfl, rfl⟩ : 0 = id ∧ 0 = slot := by simpa using h
    refine ⟨rfl, by decide, rfl, fun i hi => ?_⟩
    simp only [boot_pipes, Function.update_self, keyboardPipe, Pipe.sems, List.mem_cons,
      List.not_mem_nil, or_false] at hi
    rcases hi with rfl | rfl | rfl <;> decide
  keyboard := rfl
  ids := by
    have hn : (boot allocs).k.nextSemId = 3 := rfl
    rw [hn]
    refine ⟨by decide, fun slot ho i hi => ?_⟩
    obtain rfl := boot_pipe_open ho
    simp only [boot_pipes, Function.update_self, keyboardPipe, Pipe.sems, List.mem_cons,
      List.not_mem_nil, or_false] at hi
    rcases hi with rfl | rfl | rfl <;> decide

/-- In every reachable state. -/
theorem Reach.tables (h : Reach allocs ok m) : SemTable m.k ∧ PipeTable m.k := by
  refine h.kernel (P := fun k => SemTable k ∧ PipeTable k) ⟨boot_semTable, boot_pipeTable⟩ ?_ ?_
  · exact fun _ _ _ _ hT he => ⟨hT.1.effect he, hT.2.effect hT.1 he⟩
  · exact fun _ hT W => ⟨hT.1.congr W.rest.sems, hT.2.switch W⟩

theorem Reach.pipeManagerInit (h : Reach allocs ok m) : m.k.pipeManagerInit = true := by
  rcases h.cases with rfl | ⟨c, R⟩
  · rfl
  · exact R.core.pipes

end Boot

/-! ## Ids -/

section Ids

variable {allocs : Nat → Bool} {k k' : Kernel} {l : Label} {slot : Nat} {id : Int} {m m' : Machine}
  {c : Pid} {e : Event}

/-- The operations on pipes accept an id exactly when `createPipe` has returned it and
it has not been closed, and then they act on the slot `createPipe` opened. -/
structure IdsAreHandles (k : Kernel) : Prop where
  read : ∀ id size, 0 < size → (pipeRead k id size).2.map Prod.fst = handles k.log id
  write : ∀ id data, data ≠ [] → (pipeWrite k id data).2.map Prod.fst = handles k.log id
  clear : ∀ id, (pipeClear k id).2.map Prod.fst = handles k.log id
  distinct : ∀ id id' slot, handles k.log id = some slot → handles k.log id' = some slot → id = id'
  reachable : ∀ slot < maxPipes, (k.pipes slot).isOpen = true → ∃ id, handles k.log id = some slot

/-- No process opens a pipe. -/
def OpensNoPipe (_ : Machine) (e : Event) : Prop := ∀ off, e ≠ .call off .openPipe

instance (m : Machine) : (e : Event) → Decidable (OpensNoPipe m e)
  | .call _ .openPipe => .isFalse fun h => h _ rfl
  | .tick _ | .ctrlC _ | .resume _ => .isTrue fun _ h => by cases h
  | .call off sc => if h : sc = .openPipe then .isFalse fun hn => hn off (h ▸ rfl)
      else .isTrue fun _ he => h (Event.call.inj he).2

theorem pipeRead_slot {size : Int} (hi : k.pipeManagerInit = true) (hs : 0 < size) :
    (pipeRead k id size).2.map Prod.fst = pipeIdCheck k id := by
  unfold pipeRead
  rw [ensurePipeManagerInit_eq hi]
  cases hid : pipeIdCheck k id with
  | none => simp [hid]
  | some slot => simp [hid, Int.not_le.mpr hs]

theorem pipeWrite_slot {data : List Byte} (hi : k.pipeManagerInit = true) (hd : data ≠ []) :
    (pipeWrite k id data).2.map Prod.fst = pipeIdCheck k id := by
  unfold pipeWrite
  rw [ensurePipeManagerInit_eq hi]
  cases hid : pipeIdCheck k id with
  | none => simp [hid]
  | some slot => simp [hid, hd]

theorem pipeClear_slot (hi : k.pipeManagerInit = true) :
    (pipeClear k id).2.map Prod.fst = pipeIdCheck k id := by
  unfold pipeClear
  rw [ensurePipeManagerInit_eq hi]
  cases hid : pipeIdCheck k id with
  | none => simp [hid]
  | some slot => simp [hid]

/-- Only the pipe of the shell is open. -/
structure OnlyKeyboard (k : Kernel) : Prop where
  isOpen : ∀ slot, (k.pipes slot).isOpen = true ↔ slot = 0
  handle : ∀ id, handles k.log id = if 0 = id then some 0 else none

theorem OnlyKeyboard.pipeIdCheck (H : OnlyKeyboard k) :
    pipeIdCheck k id = handles k.log id := by
  rw [H.handle]
  unfold SoKernel.pipeIdCheck
  rcases eq_or_ne 0 id with rfl | hne
  · simpa [maxPipes] using (H.isOpen 0).mpr rfl
  · rw [if_neg hne]
    split
    · rfl
    · next hid =>
      dsimp only
      rw [if_neg]
      intro ho
      have h0 := (H.isOpen _).mp ho
      split at h0 <;> omega

theorem OnlyKeyboard.effect (H : OnlyKeyboard k) (h : Effect l k k')
    (hl : ∀ s, l ≠ .pipeOpened s ∧ l ≠ .pipeReady s) : OnlyKeyboard k' := by
  have hsame : (∀ s, l ≠ .pipeClosed s) → (∀ s, (k'.pipes s).isOpen = (k.pipes s).isOpen) →
      OnlyKeyboard k' := by
    refine fun hc hp => ⟨fun s => ?_, fun id => ?_⟩
    · rw [hp]
      exact H.isOpen s
    · rw [h.handles (fun s => (hl s).2) hc]
      exact H.handle id
  cases h with
  | pipeOpened => exact absurd rfl (hl _).1
  | pipeReady => exact absurd rfl (hl _).2
  | @pipeClosed _ slot pipe h2 hclosed =>
    refine ⟨fun s => ?_, fun id => ?_⟩
    · rcases eq_or_ne s slot with rfl | hne
      · simp only [Kernel.setPipe, Kernel.observe, Function.update_self, hclosed]
        exact ⟨fun h => (by cases h), fun h => absurd h2 (by rw [h]; decide)⟩
      · simpa [Kernel.setPipe, Kernel.observe, hne] using H.isOpen s
    · have hh : handles (((k.setPipe slot pipe).observe (.pipeClosed slot (slot + 2))).log) id =
          if (slot + 2 : Int) = id then none else handles k.log id := rfl
      rw [hh, H.handle]
      split
      · next hid => rw [if_neg (by omega)]
      · rfl
  | @pipeData _ slot pipe o ho =>
    refine hsame (by simp) fun s => ?_
    rcases eq_or_ne s slot with rfl | hne
    · simpa [Kernel.setPipe, Kernel.observe] using ho
    · simp [Kernel.setPipe, Kernel.observe, hne]
  | _ => exact hsame (by simp) fun _ => rfl

/-- A step that is no `openPipe` opens no pipe. -/
theorem Event.Admits.opensNoPipe (h : e.Admits m c l) (he : OpensNoPipe m e) :
    ∀ s, l ≠ .pipeOpened s ∧ l ≠ .pipeReady s := by
  intro s
  have hboth : ¬ e.Admits m c (.pipeOpened s) ∧ ¬ e.Admits m c (.pipeReady s) := by
    cases e with
    | tick => exact ⟨not_false, not_false⟩
    | ctrlC => simp [Event.Admits, Label.Killing, Label.Mourning]
    | resume => exact ⟨not_false, not_false⟩
    | call off sc =>
      cases sc with
      | openPipe => exact absurd rfl (he off)
      | _ => simp [Event.Admits, Call.Admits, Label.Killing, Label.Mourning, Label.Creating,
          Label.Counting, Label.Working, Label.Noting]
  constructor
  · rintro rfl
    exact hboth.1 h
  · rintro rfl
    exact hboth.2 h

theorem Reach.onlyKeyboard (h : Reach allocs OpensNoPipe m) : OnlyKeyboard m.k := by
  refine h.kernel (P := OnlyKeyboard) ⟨fun s => ⟨boot_pipe_open, ?_⟩, fun _ => rfl⟩ ?_ ?_
  · rintro rfl
    rfl
  · intro m c e l k k' R he hl _ H heff
    refine H.effect heff ?_
    rcases hl with rfl | hl
    · simp
    · exact hl.opensNoPipe he
  · intro k k' rsp sp p n _ H W
    refine ⟨fun s => W.rest.pipes ▸ H.isOpen s, fun id => ?_⟩
    rw [W.log, ← H.handle]
    cases k.first <;> rfl

/-- The slots 1 and 2 are never closed. -/
theorem Effect.slot_one (h : Effect l k k') (ho : (k.pipes 1).isOpen = true) :
    (k'.pipes 1).isOpen = true := by
  cases h with
  | @pipeOpened _ slot =>
    rcases eq_or_ne 1 slot with rfl | hne
    · simp [Kernel.setPipe]
    · simpa [Kernel.setPipe, hne] using ho
  | @pipeClosed _ slot _ h2 =>
    have hne : 1 ≠ slot := Nat.ne_of_lt (Nat.lt_trans (by decide) h2)
    simpa [Kernel.setPipe, Kernel.observe, hne] using ho
  | @pipeData _ slot pipe _ hp =>
    rcases eq_or_ne 1 slot with rfl | hne
    · simpa [Kernel.setPipe, Kernel.observe, ho] using hp
    · simpa [Kernel.setPipe, Kernel.observe, hne] using ho
  | _ => exact ho

/-- The first pipe a process opens is in slot 1. -/
theorem createPipe_slot_one {v : Int} (P : PipeTable k) (hi : k.pipeManagerInit = true)
    (h : createPipe k = some (k', v)) : (k'.pipes 1).isOpen = true := by
  rcases createPipe_cases hi h with ⟨ho, rfl, _⟩ | ⟨slot, k1, ok, ⟨_, hclosed, hfirst⟩, hsems, hend⟩
  · exact ho 1 (by decide)
  · have h1 : (k1.pipes 1).isOpen = true := by
      rw [(semInits_kept hsems).1]
      rcases eq_or_ne 1 slot with rfl | hne
      · simp [takeSlot, Kernel.setPipe]
      · have h0 : slot ≠ 0 := by
          rintro rfl
          cases hclosed.symm.trans P.keyboard
        simpa [takeSlot, Kernel.setPipe, hne] using hfirst 1 (by omega)
    rcases hend with ⟨_, rfl, _⟩ | ⟨_, rfl, _⟩
    · exact h1
    · exact h1

theorem OnlyKeyboard.ids (H : OnlyKeyboard k) (hi : k.pipeManagerInit = true) : IdsAreHandles k where
  read _ _ hs := (pipeRead_slot hi hs).trans H.pipeIdCheck
  write _ _ hd := (pipeWrite_slot hi hd).trans H.pipeIdCheck
  clear _ := (pipeClear_slot hi).trans H.pipeIdCheck
  distinct id id' slot h h' := by
    rw [H.handle] at h h'
    obtain ⟨rfl, _⟩ := Option.ite_none_right_eq_some.mp h
    exact (Option.ite_none_right_eq_some.mp h').1
  reachable slot _ ho := by
    obtain rfl := (H.isOpen slot).mp ho
    exact ⟨0, H.handle 0⟩

/-- When slot 1 is open, the id 1 is accepted, which `createPipe` never returns. -/
theorem not_ids_of_slot_one (P : PipeTable k) (hi : k.pipeManagerInit = true)
    (ho : (k.pipes 1).isOpen = true) : ¬ IdsAreHandles k := by
  intro H
  have hcheck : pipeIdCheck k 1 = some 1 := by simpa [pipeIdCheck, maxPipes] using ho
  have hhandle := (H.clear 1).symm.trans ((pipeClear_slot hi).trans hcheck)
  have hid := (P.handle 1 1 hhandle).1
  revert hid
  decide

/-- A step that opens a pipe leaves slot 1 open. -/
theorem Running.openPipe_step (R : Running m c) (P : PipeTable m.k) (he : ¬ OpensNoPipe m e)
    (h : m.step e = some m') : (m'.k.pipes 1).isOpen = true := by
  obtain ⟨off, rfl⟩ : ∃ off, e = .call off .openPipe := by
    by_contra hne
    exact he fun off he => hne ⟨off, he⟩
  obtain ⟨_, h⟩ := Option.ite_none_right_eq_some.mp h
  obtain ⟨⟨k1, v⟩, h1, rfl⟩ := Option.map_eq_some_iff.mp h
  have hopen : (k1.pipes 1).isOpen = true := createPipe_slot_one P R.core.pipes h1
  exact hopen

/-- A run has opened no pipe, or slot 1 is open. -/
theorem Reach.opened (h : Reach allocs Run.anyEvent m) :
    Reach allocs OpensNoPipe m ∨ (m.k.pipes 1).isOpen = true := by
  have hP : Reach allocs Run.anyEvent m ∧
      (Reach allocs OpensNoPipe m ∨ (m.k.pipes 1).isOpen = true) := by
    refine h.invariant (P := fun m => Reach allocs Run.anyEvent m ∧
      (Reach allocs OpensNoPipe m ∨ (m.k.pipes 1).isOpen = true)) ⟨.refl, .inl .refl⟩ ?_
    rintro t t' e ⟨ht, hopen⟩ _ hs
    refine ⟨.snoc e ht trivial hs, ?_⟩
    by_cases he : OpensNoPipe t e
    · refine hopen.imp (fun hr => .snoc e hr he hs) fun ho => ?_
      rcases ht.cases with rfl | ⟨c, R⟩
      · exact absurd (boot_pipe_open ho) (by decide)
      · exact R.kernel hs (P := fun k => (k.pipes 1).isOpen = true) ho
          (fun _ _ ho h => h.slot_one ho) fun _ ho W => W.rest.pipes ▸ ho
    · rcases ht.cases with rfl | ⟨c, R⟩
      · obtain ⟨off, rfl⟩ : ∃ off, e = .call off .openPipe := by
          by_contra hne
          exact he fun off he => hne ⟨off, he⟩
        cases hs
      · exact .inr (R.openPipe_step ht.tables.2 he hs)
  exact hP.2

/-- The ids that are accepted are those handed out exactly in the runs in which no
process opens a pipe. -/
theorem pipe_ids_iff (h : Reach allocs Run.anyEvent m) :
    IdsAreHandles m.k ↔ Reach allocs OpensNoPipe m := by
  constructor
  · intro H
    exact h.opened.resolve_right fun ho => not_ids_of_slot_one h.tables.2 h.pipeManagerInit ho H
  · exact fun hr => hr.onlyKeyboard.ids h.pipeManagerInit

/-- The shell clears the keyboard pipe, and writes into it and reads from it. -/
def clearAndEcho : List Event :=
  [.tick 0, .call 0 (.clearPipe 0), .resume 0, .resume 0, .call 0 (.writePipe 0 [104]), .resume 0,
    .resume 0, .resume 0, .resume 0, .call 0 (.readPipe 0 1), .resume 0, .resume 0, .resume 0,
    .resume 0]

theorem clearAndEcho_run :
    ∃ m, Run.exec Machine.step OpensNoPipe (boot fun _ => true) clearAndEcho = some m ∧
      Reach (fun _ => true) OpensNoPipe m ∧ .readDone 0 1 1 [104] 1 ∈ m.k.log :=
  Run.exists_exec (by decide +kernel)

theorem pipe_ids_iff_echo : ∃ m, Reach (fun _ => true) Run.anyEvent m ∧
    .readDone 0 1 1 [104] 1 ∈ m.k.log ∧ IdsAreHandles m.k := by
  obtain ⟨m, _, hm, hd⟩ := clearAndEcho_run
  have hreach : Reach (fun _ => true) Run.anyEvent m := hm.mono fun _ _ _ => trivial
  exact ⟨m, hreach, hd, (pipe_ids_iff hreach).mpr hm⟩

/-- The shell opens 14 pipes. -/
def openPipes : List Event := .tick 0 :: List.replicate 14 (.call 0 .openPipe)

/-- The ids 1 and 3 both reach slot 1, and only 3 was handed out; the id 16 was handed
out for slot 14 and is refused. -/
theorem ids_alias_and_refuse :
    ∃ m, Run.exec Machine.step Run.anyEvent (boot fun _ => true) openPipes = some m ∧
      pipeIdCheck m.k 1 = some 1 ∧ handles m.k.log 1 = none ∧ pipeIdCheck m.k 3 = some 1 ∧
      handles m.k.log 3 = some 1 ∧ handles m.k.log 16 = some 14 ∧ pipeIdCheck m.k 16 = none ∧
      ¬ IdsAreHandles m.k := by
  obtain ⟨m, he, hm, h1, hn, h3, h31, h16, hno⟩ :
      ∃ m, Run.exec Machine.step Run.anyEvent (boot fun _ => true) openPipes = some m ∧
        Run Machine.step Run.anyEvent (boot fun _ => true) m ∧
        pipeIdCheck m.k 1 = some 1 ∧ handles m.k.log 1 = none ∧ pipeIdCheck m.k 3 = some 1 ∧
        handles m.k.log 3 = some 1 ∧ handles m.k.log 16 = some 14 ∧ pipeIdCheck m.k 16 = none :=
    Run.exists_exec (by decide +kernel)
  have hreach : Reach (fun _ => true) Run.anyEvent m := hm
  refine ⟨m, he, h1, hn, h3, h31, h16, hno, fun H => ?_⟩
  have hclear := (H.clear 1).symm.trans ((pipeClear_slot hreach.pipeManagerInit).trans h1)
  cases hn.symm.trans hclear

end Ids

end SoKernel
