import SoKernel.Kernel.Waiting
import SoKernel.Lib.Ring

/-!
# The bytes in a pipe

How many bytes a pipe holds is written down three times: in `count`, in the value of
`semReaders` and in the value of `semWriters`. What ties them together is how far each
process has come in its operation.

Results:
1. `Client.pass`, `Client.read`, `Client.write`, `Client.clear`, `Client.finish`: what a
   process has done at a pipe, and how far it has come, stay in step.
2. `Traffic.put`, `Traffic.take`, `Traffic.clear`: so do the bytes in the buffer and the posts.
-/

namespace SoKernel

/-! ## What has gone through a pipe -/

section Entries

variable {β : Type}

/-- What the entries contribute, the first one first. -/
def collect (f : Obs → List β) (log : List Obs) : List β := log.reverse.flatMap f

theorem collect_cons (f : Obs → List β) (o : Obs) (log : List Obs) :
    collect f (o :: log) = collect f log ++ f o := by
  simp [collect]

end Entries

/-- The byte the entry puts into the pipe, and who puts it there. -/
def Obs.puts (slot : Nat) : Obs → List (Pid × Byte)
  | .put s p b => if s = slot then [(p, b)] else []
  | _ => []

/-- The byte it takes out. -/
def Obs.gets (slot : Nat) : Obs → List (Pid × Byte)
  | .got s p b => if s = slot then [(p, b)] else []
  | _ => []

/-- What a `pipeRead` by `p` returns with. -/
def Obs.delivers (slot : Nat) (p : Pid) : Obs → List Byte
  | .readDone s q _ bytes _ => if s = slot ∧ q = p then bytes else []
  | _ => []

/-- What a `pipeWrite` by `p` has written. -/
def Obs.accepts (slot : Nat) (p : Pid) : Obs → List Byte
  | .writeDone s q data _ => if s = slot ∧ q = p then data else []
  | _ => []

def written (slot : Nat) : List Obs → List (Pid × Byte) := collect (Obs.puts slot)

def taken (slot : Nat) : List Obs → List (Pid × Byte) := collect (Obs.gets slot)

def delivered (slot : Nat) (p : Pid) : List Obs → List Byte := collect (Obs.delivers slot p)

def accepted (slot : Nat) (p : Pid) : List Obs → List Byte := collect (Obs.accepts slot p)

/-- The bytes of one process. -/
def bytesOf (p : Pid) (l : List (Pid × Byte)) : List Byte :=
  (l.filter fun x => x.1 = p).map Prod.snd

/-- How many waits for the semaphore the process has completed since it was opened. -/
def passes (id : Int) (p : Pid) (log : List Obs) : Nat :=
  (completions id (sinceOpened id log)).count p

/-- How often it has posted. -/
def postsBy (id : Int) (p : Pid) (log : List Obs) : Nat :=
  (posts (acts id (sinceOpened id log))).count p

/-- How often all processes have posted. -/
def postCount (id : Int) (log : List Obs) : Nat := (posts (acts id (sinceOpened id log))).length

/-- The entry counts in what `p` has done at the pipe whose semaphores are `r`, `w` and
`x`; of the posts only those of the mutex do. -/
def Obs.About (slot : Nat) (r w x : Int) (p : Pid) : Obs → Prop
  | .opened i _ => i ∈ [r, w, x]
  | .took i q | .resumed i q => i ∈ [r, w, x] ∧ q = p
  | .released i _ q | .incremented i q => i = x ∧ q = p
  | .put s q _ | .got s q _ => s = slot ∧ q = p
  | .readDone s q .. | .writeDone s q .. => s = slot ∧ q = p
  | _ => False

section Counts

variable {o : Obs} {log : List Obs} {id : Int} {p : Pid} {slot : Nat}

theorem passes_cons (ho : o.opens id = none) : passes id p (o :: log) =
    passes id p log + if o.completes id = some p then 1 else 0 := by
  unfold passes completions
  rw [sinceOpened_cons ho, List.filterMap_cons]
  cases h : o.completes id with
  | none => simp
  | some q => simp [List.count_cons]

theorem postsBy_cons (ho : o.opens id = none) : postsBy id p (o :: log) =
    postsBy id p log + if (o.act id).bind Act.poster = some p then 1 else 0 := by
  unfold postsBy posts acts
  rw [sinceOpened_cons ho, List.filterMap_cons]
  cases h : o.act id with
  | none => simp
  | some a =>
    rw [List.filterMap_cons]
    cases h' : a.poster with
    | none => simp [h']
    | some q => simp [h', List.count_cons]

theorem postCount_cons (ho : o.opens id = none) : postCount id (o :: log) =
    postCount id log + if ((o.act id).bind Act.poster).isSome then 1 else 0 := by
  unfold postCount posts acts
  rw [sinceOpened_cons ho, List.filterMap_cons]
  cases h : o.act id with
  | none => simp
  | some a =>
    rw [List.filterMap_cons]
    cases h' : a.poster with
    | none => simp [h']
    | some q => simp [h']

theorem written_cons : written slot (o :: log) = written slot log ++ o.puts slot :=
  collect_cons _ _ _

theorem taken_cons : taken slot (o :: log) = taken slot log ++ o.gets slot := collect_cons _ _ _

theorem delivered_cons :
    delivered slot p (o :: log) = delivered slot p log ++ o.delivers slot p :=
  collect_cons _ _ _

theorem accepted_cons : accepted slot p (o :: log) = accepted slot p log ++ o.accepts slot p :=
  collect_cons _ _ _

theorem bytesOf_append (l l' : List (Pid × Byte)) :
    bytesOf p (l ++ l') = bytesOf p l ++ bytesOf p l' := by
  simp [bytesOf]

end Counts

/-! ## How far an operation has come -/

/-- The operation on the pipe in progress on a stack, and the stage it has reached, or
will have reached when its wait returns. -/
def Cont.onPipe (slot : Nat) : Cont → Option (PipeOp × Stage)
  | .pipe s op stage => if s = slot then some (op, stage) else none
  | .waited _ next => next.onPipe slot
  | _ => none

/-- It has passed the semaphore that counts the bytes, or the room for them. -/
def Cont.admitted (slot : Nat) : Cont → Bool
  | .pipe s _ stage => s == slot && stage != .loop
  | .waited _ (.pipe s _ stage) => s == slot && stage == .critical
  | _ => false

/-- It has passed the mutex. -/
def Cont.inside (slot : Nat) : Cont → Bool
  | .pipe s _ stage => s == slot && stage == .critical
  | _ => false

def PipeOp.isRead : PipeOp → Bool
  | .read .. => true
  | _ => false

def PipeOp.isWrite : PipeOp → Bool
  | .write .. => true
  | _ => false

def PipeOp.received : PipeOp → List Byte
  | .read _ _ buffer _ => buffer
  | _ => []

def PipeOp.sent : PipeOp → List Byte
  | .write data i _ => data.take i
  | _ => []

/-- The bytes a `pipeRead` in progress has in its buffer. -/
def Cont.received (slot : Nat) (d : Cont) : List Byte :=
  ((d.onPipe slot).map fun x => x.1.received).getD []

/-- The bytes a `pipeWrite` in progress has written. -/
def Cont.sent (slot : Nat) (d : Cont) : List Byte :=
  ((d.onPipe slot).map fun x => x.1.sent).getD []

/-- A read, or a write, that has passed its first semaphore and not yet moved its byte. -/
def Cont.tokens (slot : Nat) (kind : PipeOp → Bool) (d : Cont) : Nat :=
  if (d.onPipe slot).any (fun x => kind x.1) && d.admitted slot then 1 else 0

/-- The local variables of the loop: every turn moves one byte. -/
def PipeOp.Sound : PipeOp → Stage → Prop
  | .read size i buffer bytesRead, stage =>
    buffer.length = i ∧ bytesRead = i ∧ i ≤ size ∧ (stage ≠ .loop → i < size)
  | .write data i bytesWritten, stage =>
    bytesWritten = i ∧ i ≤ data.length ∧ (stage ≠ .loop → i < data.length)
  | .clear, stage => stage ≠ .loop

/-- What the process `p` has done at the pipe whose semaphores are `r`, `w` and `x`. -/
structure Client (slot : Nat) (r w x : Int) (log : List Obs) (p : Pid) (d : Cont) : Prop where
  taken : bytesOf p (taken slot log) = delivered slot p log ++ d.received slot
  written : bytesOf p (written slot log) = accepted slot p log ++ d.sent slot
  readers : passes r p log = (bytesOf p (SoKernel.taken slot log)).length +
    d.tokens slot PipeOp.isRead
  writers : passes w p log = (bytesOf p (SoKernel.written slot log)).length +
    d.tokens slot PipeOp.isWrite
  mutex : passes x p log = postsBy x p log + (d.inside slot).toNat
  sound : ∀ op stage, d.onPipe slot = some (op, stage) → op.Sound stage

section Client

variable {o : Obs} {log : List Obs} {id r w x : Int} {p c : Pid} {slot : Nat} {d d' : Cont}
  {op : PipeOp} {stage : Stage}

/-- An entry that is not about the process. -/
theorem Client.skip (C : Client slot r w x log p d) (ho : ¬ o.About slot r w x p) :
    Client slot r w x (o :: log) p d := by
  have hopens : ∀ i ∈ [r, w, x], o.opens i = none := by
    intro i hi
    cases o with
    | opened j v => exact if_neg fun h : j = i => ho (h ▸ hi)
    | _ => rfl
  have hpass : ∀ i ∈ [r, w, x], passes i p (o :: log) = passes i p log := by
    intro i hi
    rw [passes_cons (hopens i hi), if_neg, Nat.add_zero]
    intro h
    rcases Obs.completes_iff.mp h with rfl | rfl <;> exact ho ⟨hi, rfl⟩
  have hpost : postsBy x p (o :: log) = postsBy x p log := by
    rw [postsBy_cons (hopens x (by simp)), if_neg, Nat.add_zero]
    intro h
    rcases Obs.poster_iff.mp h with ⟨q, rfl⟩ | rfl <;> exact ho ⟨rfl, rfl⟩
  have hgets : bytesOf p (o.gets slot) = [] := by
    cases o with
    | got s q b =>
      have hne : ¬ (s = slot ∧ q = p) := ho
      rcases eq_or_ne s slot with rfl | hs
      · have hq : q ≠ p := fun hq => hne ⟨rfl, hq⟩
        simp [Obs.gets, bytesOf, hq]
      · simp [Obs.gets, bytesOf, hs]
    | _ => rfl
  have hputs : bytesOf p (o.puts slot) = [] := by
    cases o with
    | put s q b =>
      have hne : ¬ (s = slot ∧ q = p) := ho
      rcases eq_or_ne s slot with rfl | hs
      · have hq : q ≠ p := fun hq => hne ⟨rfl, hq⟩
        simp [Obs.puts, bytesOf, hq]
      · simp [Obs.puts, bytesOf, hs]
    | _ => rfl
  have hdelivers : o.delivers slot p = [] := by
    cases o with
    | readDone => exact if_neg ho
    | _ => rfl
  have haccepts : o.accepts slot p = [] := by
    cases o with
    | writeDone => exact if_neg ho
    | _ => rfl
  have htaken : bytesOf p (SoKernel.taken slot (o :: log)) = bytesOf p (SoKernel.taken slot log) := by
    rw [taken_cons, bytesOf_append, hgets, List.append_nil]
  have hwritten :
      bytesOf p (SoKernel.written slot (o :: log)) = bytesOf p (SoKernel.written slot log) := by
    rw [written_cons, bytesOf_append, hputs, List.append_nil]
  constructor
  · rw [htaken, delivered_cons, hdelivers, List.append_nil]
    exact C.taken
  · rw [hwritten, accepted_cons, haccepts, List.append_nil]
    exact C.written
  · rw [htaken, hpass r (by simp)]
    exact C.readers
  · rw [hwritten, hpass w (by simp)]
    exact C.writers
  · rw [hpass x (by simp), hpost]
    exact C.mutex
  · exact C.sound

/-- A step that moves no byte and passes no semaphore. -/
theorem Client.move (C : Client slot r w x log p d) (hr : d'.received slot = d.received slot)
    (hs : d'.sent slot = d.sent slot)
    (htr : d'.tokens slot PipeOp.isRead = d.tokens slot PipeOp.isRead)
    (htw : d'.tokens slot PipeOp.isWrite = d.tokens slot PipeOp.isWrite)
    (hi : d'.inside slot = d.inside slot)
    (hd : ∀ op stage, d'.onPipe slot = some (op, stage) → op.Sound stage) :
    Client slot r w x log p d' := by
  refine ⟨?_, ?_, ?_, ?_, ?_, hd⟩
  · rw [hr]
    exact C.taken
  · rw [hs]
    exact C.written
  · rw [htr]
    exact C.readers
  · rw [htw]
    exact C.writers
  · rw [hi]
    exact C.mutex

/-- Between two other calls. -/
theorem Client.off (C : Client slot r w x log p d) (h : d.onPipe slot = none)
    (hi : d.inside slot = false) (h' : d'.onPipe slot = none) (hi' : d'.inside slot = false) :
    Client slot r w x log p d' := by
  have ht : ∀ kind, d'.tokens slot kind = d.tokens slot kind := by
    intro kind
    rw [Cont.tokens, Cont.tokens, h, h']
    rfl
  refine C.move ?_ ?_ (ht _) (ht _) (hi'.trans hi.symm) fun op stage hd => ?_
  · rw [Cont.received, Cont.received, h, h']
  · rw [Cont.sent, Cont.sent, h, h']
  · cases h'.symm.trans hd

@[simp] theorem Cont.onPipe_pipe : (Cont.pipe slot op stage).onPipe slot = some (op, stage) :=
  if_pos rfl

@[simp] theorem Cont.onPipe_waited {next : Cont} :
    (Cont.waited id next).onPipe slot = next.onPipe slot := rfl

theorem Cont.received_pipe : (Cont.pipe slot op stage).received slot = op.received := by
  simp [Cont.received]

theorem Cont.sent_pipe : (Cont.pipe slot op stage).sent slot = op.sent := by
  simp [Cont.sent]

theorem Cont.tokens_pipe {kind : PipeOp → Bool} : (Cont.pipe slot op stage).tokens slot kind =
    if kind op && stage != .loop then 1 else 0 := by
  simp [Cont.tokens, Cont.admitted]

@[simp] theorem Cont.inside_pipe :
    (Cont.pipe slot op stage).inside slot = (stage == .critical) := by
  simp [Cont.inside]

@[simp] theorem Cont.received_user : Cont.user.received slot = [] := rfl

@[simp] theorem Cont.sent_user : Cont.user.sent slot = [] := rfl

@[simp] theorem Cont.tokens_user {kind : PipeOp → Bool} : Cont.user.tokens slot kind = 0 := rfl

@[simp] theorem Cont.inside_user : Cont.user.inside slot = false := rfl

/-- A call starts. -/
theorem Client.start (C : Client slot r w x log p .user) (h : Starts op stage) :
    Client slot r w x log p (.pipe slot op stage) := by
  have hsound : ∀ op' stage', (Cont.pipe slot op stage).onPipe slot = some (op', stage') →
      op'.Sound stage' := by
    intro op' stage' hd
    rw [Cont.onPipe_pipe] at hd
    cases hd
    cases h with
    | read size => exact ⟨rfl, rfl, Nat.zero_le _, fun hs => absurd rfl hs⟩
    | write data => exact ⟨rfl, Nat.zero_le _, fun hs => absurd rfl hs⟩
    | clear => exact Stage.noConfusion
  refine C.move ?_ ?_ ?_ ?_ ?_ hsound
  · rw [Cont.received_pipe]
    cases h <;> rfl
  · rw [Cont.sent_pipe]
    cases h <;> rfl
  · rw [Cont.tokens_pipe]
    cases h <;> rfl
  · rw [Cont.tokens_pipe]
    cases h <;> rfl
  · rw [Cont.inside_pipe]
    cases h <;> rfl

/-- What is awaited at the head of the loop or behind it. -/
theorem Pipe.awaited_cases {pipe : Pipe} (h : pipe.awaited op stage = some id) :
    (∃ size i buffer n, op = .read size i buffer n ∧ stage = .loop ∧ i < size ∧
      id = pipe.semReaders) ∨
    (∃ data i n, op = .write data i n ∧ stage = .loop ∧ i < data.length ∧ id = pipe.semWriters) ∨
    stage = .mutex ∧ id = pipe.mutex := by
  cases stage with
  | loop =>
    cases op with
    | read size i buffer n =>
      obtain ⟨hi, rfl⟩ : i < size ∧ pipe.semReaders = id := by simpa [Pipe.awaited] using h
      exact .inl ⟨_, _, _, _, rfl, rfl, hi, rfl⟩
    | write data i n =>
      obtain ⟨hi, rfl⟩ : i < data.length ∧ pipe.semWriters = id := by
        simpa [Pipe.awaited] using h
      exact .inr (.inl ⟨_, _, _, rfl, rfl, hi, rfl⟩)
    | clear => cases h
  | mutex =>
    have hid : some pipe.mutex = some id := by
      cases op <;> exact h
    exact .inr (.inr ⟨rfl, (Option.some.inj hid).symm⟩)
  | critical => cases op <;> cases h

/-- The loop is sound one stage later. -/
theorem PipeOp.Sound.next {pipe : Pipe} (h : op.Sound stage)
    (ha : pipe.awaited op stage = some id) : op.Sound stage.next := by
  rcases Pipe.awaited_cases ha with ⟨size, i, buffer, n, rfl, rfl, hi, _⟩ |
    ⟨data, i, n, rfl, rfl, hi, _⟩ | ⟨rfl, _⟩
  · exact ⟨h.1, h.2.1, h.2.2.1, fun _ => hi⟩
  · exact ⟨h.1, h.2.1, fun _ => hi⟩
  · cases op with
    | read => exact ⟨h.1, h.2.1, h.2.2.1, fun _ => h.2.2.2 (by decide)⟩
    | write => exact ⟨h.1, h.2.1, fun _ => h.2.2 (by decide)⟩
    | clear => exact Stage.noConfusion

theorem Cont.tokens_waited {pipe : Pipe} {kind : PipeOp → Bool}
    (ha : pipe.awaited op stage = some id) :
    (Cont.waited id (.pipe slot op stage.next)).tokens slot kind =
      (Cont.pipe slot op stage).tokens slot kind := by
  have hstage : stage = .loop ∨ stage = .mutex := by
    rcases Pipe.awaited_cases ha with ⟨_, _, _, _, _, h, _⟩ | ⟨_, _, _, _, h, _⟩ | ⟨h, _⟩
    · exact .inl h
    · exact .inl h
    · exact .inr h
  rcases hstage with rfl | rfl <;> simp [Cont.tokens, Cont.admitted, Stage.next]

/-- Going to sleep. -/
theorem Client.sleep {pipe : Pipe} (C : Client slot r w x log p (.pipe slot op stage))
    (ha : pipe.awaited op stage = some id) :
    Client slot r w x log p (.waited id (.pipe slot op stage.next)) := by
  refine C.move ?_ ?_ (Cont.tokens_waited ha) (Cont.tokens_waited ha) ?_ fun op' stage' hd => ?_
  · simp [Cont.received]
  · simp [Cont.sent]
  · rw [Cont.inside_pipe]
    cases stage with
    | critical => cases op <;> cases ha
    | _ => rfl
  · rw [Cont.onPipe_waited, Cont.onPipe_pipe] at hd
    cases hd
    exact (C.sound op stage Cont.onPipe_pipe).next ha

/-- Coming back. -/
theorem Client.wake {pipe : Pipe}
    (C : Client slot r w x log p (.waited id (.pipe slot op stage.next)))
    (ha : pipe.awaited op stage = some id) : Client slot r w x log p (.pipe slot op stage) := by
  have hsound := C.sound op stage.next (by rw [Cont.onPipe_waited, Cont.onPipe_pipe])
  refine C.move ?_ ?_ (Cont.tokens_waited ha).symm (Cont.tokens_waited ha).symm ?_
    fun op' stage' hd => ?_
  · simp [Cont.received]
  · simp [Cont.sent]
  · rw [Cont.inside_pipe]
    cases stage with
    | critical => cases op <;> cases ha
    | _ => rfl
  · rw [Cont.onPipe_pipe] at hd
    cases hd
    rcases Pipe.awaited_cases ha with ⟨size, i, buffer, n, rfl, rfl, hi, _⟩ |
      ⟨data, i, n, rfl, rfl, hi, _⟩ | ⟨rfl, _⟩
    · exact ⟨hsound.1, hsound.2.1, hsound.2.2.1, fun _ => hi⟩
    · exact ⟨hsound.1, hsound.2.1, fun _ => hi⟩
    · cases op with
      | read => exact ⟨hsound.1, hsound.2.1, hsound.2.2.1, fun _ => hsound.2.2.2 (by decide)⟩
      | write => exact ⟨hsound.1, hsound.2.1, fun _ => hsound.2.2 (by decide)⟩
      | clear => exact Stage.noConfusion

/-- The semaphores of a pipe. -/
structure Pipe.HasSems (pipe : Pipe) (r w x : Int) : Prop where
  readers : pipe.semReaders = r
  writers : pipe.semWriters = w
  mutex : pipe.mutex = x
  rw : r ≠ w
  rx : r ≠ x
  wx : w ≠ x

/-- Passing a semaphore, at once or after a sleep. -/
theorem Client.pass {pipe : Pipe} (C : Client slot r w x log c (.pipe slot op stage))
    (hids : pipe.HasSems r w x) (ha : pipe.awaited op stage = some id)
    (ho : o = .took id c ∨ o = .resumed id c) :
    Client slot r w x (o :: log) c (.pipe slot op stage.next) := by
  obtain ⟨hopens, hpass, hpost⟩ : (∀ i, o.opens i = none) ∧
      (∀ i, passes i c (o :: log) = passes i c log + if i = id then 1 else 0) ∧
      postsBy x c (o :: log) = postsBy x c log := by
    rcases ho with rfl | rfl <;> refine ⟨fun _ => rfl, fun i => ?_, ?_⟩
    · rw [passes_cons rfl]
      simp only [Obs.completes]
      rcases eq_or_ne i id with rfl | hi
      · simp
      · simp [hi, hi.symm]
    · rw [postsBy_cons rfl]
      simp [Obs.poster_iff]
    · rw [passes_cons rfl]
      simp only [Obs.completes]
      rcases eq_or_ne i id with rfl | hi
      · simp
      · simp [hi, hi.symm]
    · rw [postsBy_cons rfl]
      simp [Obs.poster_iff]
  have hdata : SoKernel.taken slot (o :: log) = SoKernel.taken slot log ∧
      SoKernel.written slot (o :: log) = SoKernel.written slot log ∧
      delivered slot c (o :: log) = delivered slot c log ∧
      accepted slot c (o :: log) = accepted slot c log := by
    rw [taken_cons, written_cons, delivered_cons, accepted_cons]
    rcases ho with rfl | rfl <;> simp [Obs.gets, Obs.puts, Obs.delivers, Obs.accepts]
  obtain ⟨ht, hw, hd, hac⟩ := hdata
  have hsteps : (Cont.pipe slot op stage.next).tokens slot PipeOp.isRead =
        (Cont.pipe slot op stage).tokens slot PipeOp.isRead + (if r = id then 1 else 0) ∧
      (Cont.pipe slot op stage.next).tokens slot PipeOp.isWrite =
        (Cont.pipe slot op stage).tokens slot PipeOp.isWrite + (if w = id then 1 else 0) ∧
      ((Cont.pipe slot op stage.next).inside slot).toNat =
        ((Cont.pipe slot op stage).inside slot).toNat + (if x = id then 1 else 0) := by
    simp only [Cont.tokens_pipe, Cont.inside_pipe]
    rcases Pipe.awaited_cases ha with ⟨_, _, _, _, rfl, rfl, _, hid⟩ |
      ⟨_, _, _, rfl, rfl, _, hid⟩ | ⟨rfl, hid⟩
    · obtain rfl : id = r := hid.trans hids.readers
      simp [hids.rw.symm, hids.rx.symm, PipeOp.isRead, PipeOp.isWrite, Stage.next]
      rfl
    · obtain rfl : id = w := hid.trans hids.writers
      simp [hids.rw, hids.wx.symm, PipeOp.isRead, PipeOp.isWrite, Stage.next]
      rfl
    · obtain rfl : id = x := hid.trans hids.mutex
      simp [hids.rx, hids.wx, Stage.next]
  obtain ⟨hr, hwr, hm⟩ := hsteps
  refine ⟨?_, ?_, ?_, ?_, ?_, fun op' stage' hop => ?_⟩
  · have htaken := C.taken
    rw [Cont.received_pipe] at htaken
    rw [ht, hd, Cont.received_pipe, htaken]
  · have hwritten := C.written
    rw [Cont.sent_pipe] at hwritten
    rw [hw, hac, Cont.sent_pipe, hwritten]
  · rw [ht, hpass, hr, C.readers, Nat.add_assoc]
  · rw [hw, hpass, hwr, C.writers, Nat.add_assoc]
  · rw [hpost, hpass, hm, C.mutex, Nat.add_assoc]
  · rw [Cont.onPipe_pipe] at hop
    cases hop
    exact (C.sound op stage Cont.onPipe_pipe).next ha

/-- The entry of a post by `c`. -/
def Obs.IsPost (id : Int) (c : Pid) : Obs → Prop
  | .released i _ q | .incremented i q => i = id ∧ q = c
  | _ => False

theorem Obs.IsPost.opens (h : o.IsPost id c) (i : Int) : o.opens i = none := by
  cases o with
  | released | incremented => rfl
  | _ => cases h

theorem Obs.IsPost.completes (h : o.IsPost id c) (i : Int) : o.completes i = none := by
  cases o with
  | released | incremented => rfl
  | _ => cases h

theorem Obs.IsPost.poster (h : o.IsPost id c) (i : Int) :
    (o.act i).bind Act.poster = if i = id then some c else none := by
  rcases eq_or_ne i id with rfl | hi
  · rw [if_pos rfl]
    cases o with
    | released j | incremented j =>
      obtain ⟨rfl, rfl⟩ := h
      simp [Obs.act, Act.poster]
    | _ => cases h
  · rw [if_neg hi]
    cases o with
    | released j | incremented j =>
      obtain ⟨rfl, rfl⟩ := h
      simp [Obs.act, hi.symm]
    | _ => cases h

/-- What a post counts in. -/
theorem Obs.IsPost.counts (h : o.IsPost id c) (log : List Obs) : (∀ i, o.opens i = none) ∧
    (∀ i q, passes i q (o :: log) = passes i q log) ∧
    (∀ i q, postsBy i q (o :: log) = postsBy i q log + if i = id ∧ q = c then 1 else 0) ∧
    (∀ i, postCount i (o :: log) = postCount i log + if i = id then 1 else 0) := by
  refine ⟨h.opens, fun i q => ?_, fun i q => ?_, fun i => ?_⟩
  · rw [passes_cons (h.opens i), h.completes]
    rfl
  · rw [postsBy_cons (h.opens i), h.poster]
    rcases eq_or_ne i id with rfl | hi
    · simp [eq_comm]
    · simp [hi]
  · rw [postCount_cons (h.opens i), h.poster]
    rcases eq_or_ne i id with rfl | hi
    · simp
    · simp [hi]

theorem Obs.IsPost.data (h : o.IsPost id c) (slot : Nat) (p : Pid) (log : List Obs) :
    SoKernel.taken slot (o :: log) = SoKernel.taken slot log ∧
    SoKernel.written slot (o :: log) = SoKernel.written slot log ∧
    delivered slot p (o :: log) = delivered slot p log ∧
    accepted slot p (o :: log) = accepted slot p log := by
  rw [taken_cons, written_cons, delivered_cons, accepted_cons]
  cases o with
  | released => simp [Obs.gets, Obs.puts, Obs.delivers, Obs.accepts]
  | incremented => simp [Obs.gets, Obs.puts, Obs.delivers, Obs.accepts]
  | _ => cases h

/-- A critical section that leaves the pipe: the data entry `t` and the post of the mutex. -/
theorem Client.leave {t : Obs} (C : Client slot r w x log c d) (hin : d.inside slot = true)
    (hout : d'.inside slot = false) (ho : o.IsPost x c)
    (ht : (∀ i, t.opens i = none) ∧ (∀ i, t.completes i = none) ∧ ∀ i, t.act i = none)
    (hd : t.delivers slot c = []) (ha : t.accepts slot c = [])
    (hr : d'.received slot = d.received slot ++ bytesOf c (t.gets slot))
    (hs : d'.sent slot = d.sent slot ++ bytesOf c (t.puts slot))
    (htr : (bytesOf c (t.gets slot)).length + d'.tokens slot PipeOp.isRead =
      d.tokens slot PipeOp.isRead)
    (htw : (bytesOf c (t.puts slot)).length + d'.tokens slot PipeOp.isWrite =
      d.tokens slot PipeOp.isWrite)
    (hsound : ∀ op stage, d'.onPipe slot = some (op, stage) → op.Sound stage) :
    Client slot r w x (o :: t :: log) c d' := by
  obtain ⟨_, hpass, hposts, _⟩ := ho.counts (t :: log)
  obtain ⟨htaken, hwritten, hdelivered, haccepted⟩ := ho.data slot c (t :: log)
  have hpass : ∀ i, passes i c (o :: t :: log) = passes i c log := by
    intro i
    rw [hpass, passes_cons (ht.1 i), ht.2.1 i]
    rfl
  refine ⟨?_, ?_, ?_, ?_, ?_, hsound⟩
  · rw [htaken, hdelivered, taken_cons, delivered_cons, hd, bytesOf_append, List.append_nil, hr,
      C.taken, List.append_assoc]
  · rw [hwritten, haccepted, written_cons, accepted_cons, ha, bytesOf_append, List.append_nil, hs,
      C.written, List.append_assoc]
  · rw [hpass, htaken, taken_cons, bytesOf_append, List.length_append, Nat.add_assoc, htr, C.readers]
  · rw [hpass, hwritten, written_cons, bytesOf_append, List.length_append, Nat.add_assoc, htw,
      C.writers]
  · rw [hpass, hposts, if_pos ⟨rfl, rfl⟩, postsBy_cons (ht.1 x), ht.2.2 x, hout, C.mutex, hin]
    rfl

theorem bytesOf_singleton {b : Byte} : bytesOf c [(c, b)] = [b] := by
  simp [bytesOf]

/-- A turn of the loop of `pipeRead`. -/
theorem Client.read {size i n : Nat} {buffer : List Byte} {b : Byte}
    (C : Client slot r w x log c (.pipe slot (.read size i buffer n) .critical))
    (ho : o.IsPost x c) : Client slot r w x (o :: .got slot c b :: log) c
      (.pipe slot (.read size (i + 1) (buffer ++ [b]) (n + 1)) .loop) := by
  have hgets : bytesOf c ((Obs.got slot c b).gets slot) = [b] := by
    rw [Obs.gets, if_pos rfl, bytesOf_singleton]
  obtain ⟨hlen, hn, hle, hlt⟩ := C.sound _ _ Cont.onPipe_pipe
  refine C.leave (by simp) (by simp) ho ⟨fun _ => rfl, fun _ => rfl, fun _ => rfl⟩ rfl rfl ?_ ?_ ?_
    ?_ ?_
  · rw [hgets, Cont.received_pipe, Cont.received_pipe]
    rfl
  · rw [Cont.sent_pipe, Cont.sent_pipe]
    rfl
  · rw [hgets, Cont.tokens_pipe, Cont.tokens_pipe]
    rfl
  · rw [Cont.tokens_pipe, Cont.tokens_pipe]
    rfl
  · intro op stage hop
    rw [Cont.onPipe_pipe] at hop
    cases hop
    refine ⟨?_, by rw [hn], hlt (by decide), fun hs => absurd rfl hs⟩
    rw [List.length_append, hlen]
    rfl

/-- A turn of the loop of `pipeWrite`. -/
theorem Client.write {i n : Nat} {data : List Byte} {b : Byte}
    (C : Client slot r w x log c (.pipe slot (.write data i n) .critical)) (hb : data[i]? = some b)
    (ho : o.IsPost x c) : Client slot r w x (o :: .put slot c b :: log) c
      (.pipe slot (.write data (i + 1) (n + 1)) .loop) := by
  have hputs : bytesOf c ((Obs.put slot c b).puts slot) = [b] := by
    rw [Obs.puts, if_pos rfl, bytesOf_singleton]
  obtain ⟨hn, hle, hlt⟩ := C.sound _ _ Cont.onPipe_pipe
  refine C.leave (by simp) (by simp) ho ⟨fun _ => rfl, fun _ => rfl, fun _ => rfl⟩ rfl rfl ?_ ?_ ?_
    ?_ ?_
  · rw [Cont.received_pipe, Cont.received_pipe]
    rfl
  · rw [hputs, Cont.sent_pipe, Cont.sent_pipe, PipeOp.sent, PipeOp.sent, List.take_add_one, hb]
    rfl
  · rw [Cont.tokens_pipe, Cont.tokens_pipe]
    rfl
  · rw [hputs, Cont.tokens_pipe, Cont.tokens_pipe]
    rfl
  · intro op stage hop
    rw [Cont.onPipe_pipe] at hop
    cases hop
    exact ⟨by rw [hn], hlt (by decide), fun hs => absurd rfl hs⟩

/-- The end of `pipeClear`. -/
theorem Client.clear {n : Nat} (C : Client slot r w x log c (.pipe slot .clear .critical))
    (ho : o.IsPost x c) : Client slot r w x (o :: .cleared slot c n :: log) c .user := by
  refine C.leave (by simp) rfl ho ⟨fun _ => rfl, fun _ => rfl, fun _ => rfl⟩ rfl rfl ?_ ?_ ?_ ?_ ?_
  · rw [Cont.received_pipe]
    rfl
  · rw [Cont.sent_pipe]
    rfl
  · rw [Cont.tokens_pipe]
    rfl
  · rw [Cont.tokens_pipe]
    rfl
  · exact fun op stage hop => (by cases hop)

/-- The result of a call that has ended: it has moved as many bytes as it was asked to. -/
theorem PipeOp.Sound.result (h : op.Sound .loop) (ho : op.result slot c = some o) :
    (∃ size buffer, op = .read size size buffer size ∧ buffer.length = size ∧
      o = .readDone slot c size buffer size) ∨
    ∃ data, op = .write data data.length data.length ∧ o = .writeDone slot c data data.length := by
  cases op with
  | read size i buffer n =>
    obtain ⟨hlen, rfl, hle, _⟩ := h
    obtain ⟨hi, rfl⟩ : size ≤ n ∧ Obs.readDone slot c size buffer n = o := by
      simpa [PipeOp.result] using ho
    obtain rfl : n = size := Nat.le_antisymm hle hi
    exact .inl ⟨n, buffer, rfl, hlen, rfl⟩
  | write data i n =>
    obtain ⟨rfl, hle, _⟩ := h
    obtain ⟨hi, rfl⟩ : data.length ≤ n ∧ Obs.writeDone slot c data n = o := by
      simpa [PipeOp.result] using ho
    obtain rfl : n = data.length := Nat.le_antisymm hle hi
    exact .inr ⟨data, rfl, rfl⟩
  | clear => cases ho

/-- The end of `pipeRead` or `pipeWrite`. -/
theorem Client.finish (C : Client slot r w x log c (.pipe slot op .loop))
    (ho : op.result slot c = some o) : Client slot r w x (o :: log) c .user := by
  have ht := C.taken
  have hw := C.written
  have hr := C.readers
  have hwr := C.writers
  have hm := C.mutex
  rw [Cont.received_pipe] at ht
  rw [Cont.sent_pipe] at hw
  rw [Cont.tokens_pipe] at hr hwr
  rw [Cont.inside_pipe] at hm
  have hsound := C.sound op .loop Cont.onPipe_pipe
  rcases hsound.result ho with ⟨size, buffer, rfl, _, rfl⟩ | ⟨data, rfl, rfl⟩
  · refine ⟨?_, ?_, ?_, ?_, ?_, fun op stage hop => (by cases hop)⟩
    · rw [taken_cons, delivered_cons, bytesOf_append, ht]
      simp [Obs.gets, Obs.delivers, bytesOf, PipeOp.received]
    · rw [written_cons, accepted_cons, bytesOf_append, hw]
      simp [Obs.puts, Obs.accepts, bytesOf, PipeOp.sent]
    · rw [taken_cons, passes_cons rfl, hr]
      simp [Obs.gets, Obs.completes]
    · rw [written_cons, passes_cons rfl, hwr]
      simp [Obs.puts, Obs.completes]
    · rw [passes_cons rfl, postsBy_cons rfl, hm]
      simp [Obs.completes, Obs.act]
  · refine ⟨?_, ?_, ?_, ?_, ?_, fun op stage hop => (by cases hop)⟩
    · rw [taken_cons, delivered_cons, bytesOf_append, ht]
      simp [Obs.gets, Obs.delivers, bytesOf, PipeOp.received]
    · rw [written_cons, accepted_cons, bytesOf_append, hw]
      simp [Obs.puts, Obs.accepts, bytesOf, PipeOp.sent]
    · rw [taken_cons, passes_cons rfl, hr]
      simp [Obs.gets, Obs.completes]
    · rw [written_cons, passes_cons rfl, hwr]
      simp [Obs.puts, Obs.completes]
    · rw [passes_cons rfl, postsBy_cons rfl, hm]
      simp [Obs.completes, Obs.act]

end Client

/-! ## The bytes in the buffer -/

/-- What holds of the pipe whatever its processes are about to do. -/
structure Traffic (slot : Nat) (r w x : Int) (pipe : Pipe) (log : List Obs) : Prop where
  isOpen : pipe.isOpen = true
  sems : pipe.HasSems r w x
  readers : openedWith r log = some 0
  writers : openedWith w log = some pipeBufferSize
  mutex : openedWith x log = some 1
  ring : Ring pipeBufferSize pipe.readIdx pipe.writeIdx pipe.count
  fifo : (written slot log).map Prod.snd = (taken slot log).map Prod.snd ++
    ringContents pipeBufferSize pipe.buffer pipe.readIdx pipe.count
  /-- Each byte put in is a post for the readers, each one taken out a post for the writers. -/
  postsRead : postCount r log = (written slot log).length
  postsWrite : postCount w log = (taken slot log).length
  readDone : ∀ p size bytes ret, .readDone slot p size bytes ret ∈ log →
    ret = size ∧ bytes.length = size
  writeDone : ∀ p data ret, .writeDone slot p data ret ∈ log → ret = data.length
  /-- No byte was cleared away. -/
  cleared : ∀ later earlier q n, log = later ++ .cleared slot q n :: earlier →
    (written slot earlier).map Prod.snd = (taken slot earlier).map Prod.snd

/-- An entry that counts in nothing of this. -/
structure Obs.Silent (slot : Nat) (r w x : Int) (o : Obs) : Prop where
  opens : ∀ i ∈ [r, w, x], o.opens i = none
  puts : o.puts slot = []
  gets : o.gets slot = []
  posts : ∀ i ∈ [r, w], (o.act i).bind Act.poster = none
  cleared : ∀ q n, o ≠ .cleared slot q n
  readDone : ∀ p size bytes ret, o ≠ .readDone slot p size bytes ret
  writeDone : ∀ p data ret, o ≠ .writeDone slot p data ret

section Traffic

variable {slot : Nat} {r w x : Int} {pipe : Pipe} {log : List Obs} {o t : Obs} {c : Pid} {b : Byte}

theorem Traffic.length (F : Traffic slot r w x pipe log) :
    (written slot log).length = (taken slot log).length + pipe.count := by
  have h := congrArg List.length F.fifo
  simpa using h

theorem Traffic.silent (F : Traffic slot r w x pipe log) (ho : o.Silent slot r w x) :
    Traffic slot r w x pipe (o :: log) := by
  have hw : written slot (o :: log) = written slot log := by
    rw [written_cons, ho.puts, List.append_nil]
  have ht : taken slot (o :: log) = taken slot log := by
    rw [taken_cons, ho.gets, List.append_nil]
  have hpost : ∀ i ∈ [r, w], postCount i (o :: log) = postCount i log := by
    intro i hi
    rw [postCount_cons (ho.opens i (by simp at hi ⊢; tauto)), ho.posts i hi]
    rfl
  refine ⟨F.isOpen, F.sems, ?_, ?_, ?_, F.ring, ?_, ?_, ?_, ?_, ?_, ?_⟩
  · rw [openedWith_cons (ho.opens r (by simp))]
    exact F.readers
  · rw [openedWith_cons (ho.opens w (by simp))]
    exact F.writers
  · rw [openedWith_cons (ho.opens x (by simp))]
    exact F.mutex
  · rw [hw, ht]
    exact F.fifo
  · rw [hw, hpost r (by simp)]
    exact F.postsRead
  · rw [ht, hpost w (by simp)]
    exact F.postsWrite
  · intro p size bytes ret h
    exact F.readDone p size bytes ret ((List.mem_cons.mp h).resolve_left (ho.readDone _ _ _ _).symm)
  · intro p data ret h
    exact F.writeDone p data ret ((List.mem_cons.mp h).resolve_left (ho.writeDone _ _ _).symm)
  · intro later earlier q n h
    cases later with
    | nil => exact absurd (List.cons.inj h).1 (ho.cleared q n)
    | cons _ later => exact F.cleared later earlier q n (List.cons.inj h).2

theorem Obs.IsPost.silent (ho : o.IsPost x c) (hr : r ≠ x) (hw : w ≠ x) :
    o.Silent slot r w x := by
  obtain ⟨hopens, _, _, _⟩ := ho.counts []
  refine ⟨fun i _ => hopens i, ?_, ?_, fun i hi => ?_, ?_, ?_, ?_⟩
  · cases o <;> first | rfl | cases ho
  · cases o <;> first | rfl | cases ho
  · have hne : x ≠ i := by
      rintro rfl
      rcases List.mem_pair.mp hi with h | h
      · exact hr h.symm
      · exact hw h.symm
    cases o with
    | released j p q => simp [Obs.act, ho.1, hne]
    | incremented j q => simp [Obs.act, ho.1, hne]
    | _ => cases ho
  · rintro q n rfl
    cases ho
  · rintro p size bytes ret rfl
    cases ho
  · rintro p data ret rfl
    cases ho

/-- A byte is moved, the mutex is posted, and the semaphore `id` that counts the bytes
or the room for them. -/
theorem Traffic.move {pipe' : Pipe} (F : Traffic slot r w x pipe log)
    (ht : t = .put slot c b ∨ t = .got slot c b) (hx : o.IsPost x c) {o' : Obs} {id : Int}
    (hid : o'.IsPost id c) (hopen : pipe'.isOpen = true) (hsems : pipe'.HasSems r w x)
    (hring : Ring pipeBufferSize pipe'.readIdx pipe'.writeIdx pipe'.count)
    (hfifo : (written slot log ++ t.puts slot).map Prod.snd =
      (taken slot log ++ t.gets slot).map Prod.snd ++
        ringContents pipeBufferSize pipe'.buffer pipe'.readIdx pipe'.count)
    (hr : (t.puts slot).length = if r = id then 1 else 0)
    (hw : (t.gets slot).length = if w = id then 1 else 0) :
    Traffic slot r w x pipe' (o' :: o :: t :: log) := by
  obtain ⟨hopens', _, _, hcount'⟩ := hid.counts (o :: t :: log)
  obtain ⟨hopens, _, _, hcount⟩ := hx.counts (t :: log)
  have htopens : ∀ i, t.opens i = none := by
    rcases ht with rfl | rfl <;> exact fun _ => rfl
  have hact : ∀ i, t.act i = none := by
    rcases ht with rfl | rfl <;> exact fun _ => rfl
  have hopened : ∀ i, openedWith i (o' :: o :: t :: log) = openedWith i log := fun i => by
    rw [openedWith_cons (hopens' i), openedWith_cons (hopens i), openedWith_cons (htopens i)]
  have hwritten : written slot (o' :: o :: t :: log) = written slot log ++ t.puts slot := by
    rw [(hid.data slot c _).2.1, (hx.data slot c _).2.1, written_cons]
  have htaken : taken slot (o' :: o :: t :: log) = taken slot log ++ t.gets slot := by
    rw [(hid.data slot c _).1, (hx.data slot c _).1, taken_cons]
  have hpost : ∀ i ∈ [r, w], postCount i (o' :: o :: t :: log) =
      postCount i log + if i = id then 1 else 0 := by
    intro i hi
    have hne : i ≠ x := by
      rcases List.mem_pair.mp hi with rfl | rfl
      · exact hsems.rx
      · exact hsems.wx
    rw [hcount', hcount, if_neg hne, postCount_cons (htopens i), hact]
    rfl
  have hmem : ∀ {a : Obs}, a ≠ t → (∀ i, ¬ a.IsPost i c) → a ∈ o' :: o :: t :: log → a ∈ log := by
    intro a hne hno h
    rcases List.mem_cons.mp h with rfl | h
    · exact absurd hid (hno id)
    rcases List.mem_cons.mp h with rfl | h
    · exact absurd hx (hno x)
    · exact (List.mem_cons.mp h).resolve_left hne
  refine ⟨hopen, hsems, ?_, ?_, ?_, hring, ?_, ?_, ?_, ?_, ?_, ?_⟩
  · rw [hopened]
    exact F.readers
  · rw [hopened]
    exact F.writers
  · rw [hopened]
    exact F.mutex
  · rw [hwritten, htaken]
    exact hfifo
  · rw [hwritten, hpost r (by simp), F.postsRead, List.length_append, hr]
  · rw [htaken, hpost w (by simp), F.postsWrite, List.length_append, hw]
  · intro p size bytes ret h
    refine F.readDone p size bytes ret (hmem ?_ (fun _ hp => hp) h)
    rcases ht with rfl | rfl <;> simp
  · intro p data ret h
    refine F.writeDone p data ret (hmem ?_ (fun _ hp => hp) h)
    rcases ht with rfl | rfl <;> simp
  · intro later earlier q n h
    have hne : ∀ {a l}, a = o' ∨ a = o ∨ a = t → a :: l ≠ .cleared slot q n :: earlier := by
      rintro a l ha h
      obtain ⟨rfl, _⟩ := List.cons.inj h
      rcases ha with rfl | rfl | rfl
      · cases hid
      · cases hx
      · rcases ht with h | h <;> cases h
    rcases later with _ | ⟨a, _ | ⟨a', _ | ⟨a'', later⟩⟩⟩
    · exact absurd h (hne (.inl rfl))
    · exact absurd (List.cons.inj h).2 (hne (.inr (.inl rfl)))
    · exact absurd (List.cons.inj (List.cons.inj h).2).2 (hne (.inr (.inr rfl)))
    · exact F.cleared later earlier q n (List.cons.inj (List.cons.inj (List.cons.inj h).2).2).2

/-- A byte is put in, and the readers get a post for it. -/
theorem Traffic.put (F : Traffic slot r w x pipe log) (hn : pipe.count < pipeBufferSize)
    (hx : t.IsPost x c) (ho : o.IsPost r c) :
    Traffic slot r w x { pipe with
      buffer := Function.update pipe.buffer pipe.writeIdx b,
      writeIdx := (pipe.writeIdx + 1) % pipeBufferSize, count := pipe.count + 1 }
      (o :: t :: .put slot c b :: log) := by
  have hfifo := F.fifo
  refine F.move (.inl rfl) hx ho F.isOpen ⟨F.sems.readers, F.sems.writers, F.sems.mutex, F.sems.rw,
    F.sems.rx, F.sems.wx⟩ (F.ring.put hn) ?_ ?_ ?_
  · rw [ringContents_put F.ring hn]
    simp [Obs.puts, Obs.gets, hfifo]
  · simp [Obs.puts]
  · simp [Obs.gets, F.sems.rw.symm]

/-- A byte is taken out, and the writers get a post for its room. -/
theorem Traffic.take (F : Traffic slot r w x pipe log) {n : Nat} (hn : pipe.count = n + 1)
    (hx : t.IsPost x c) (ho : o.IsPost w c) :
    Traffic slot r w x { pipe with
      readIdx := (pipe.readIdx + 1) % pipeBufferSize, count := pipe.count - 1 }
      (o :: t :: .got slot c (pipe.buffer pipe.readIdx) :: log) := by
  have hring := F.ring
  have hfifo := F.fifo
  rw [hn] at hring hfifo
  refine F.move (.inr rfl) hx ho F.isOpen ⟨F.sems.readers, F.sems.writers, F.sems.mutex, F.sems.rw,
    F.sems.rx, F.sems.wx⟩ ?_ ?_ ?_ ?_
  · simpa [hn] using hring.take
  · rw [ringContents_take hring.readIdx_lt] at hfifo
    simp [Obs.puts, Obs.gets, hn, hfifo]
  · simp [Obs.puts, F.sems.rw]
  · simp [Obs.gets]

/-- An empty pipe is cleared. -/
theorem Traffic.clear (F : Traffic slot r w x pipe log) (hn : pipe.count = 0) (hx : o.IsPost x c) :
    Traffic slot r w x { pipe with readIdx := 0, writeIdx := 0, count := 0 }
      (o :: .cleared slot c 0 :: log) := by
  have hfifo : (written slot log).map Prod.snd = (taken slot log).map Prod.snd := by
    rw [F.fifo, hn, ringContents_zero, List.append_nil]
  have hw : written slot (.cleared slot c 0 :: log) = written slot log := by
    rw [written_cons]
    exact List.append_nil _
  have ht : taken slot (.cleared slot c 0 :: log) = taken slot log := by
    rw [taken_cons]
    exact List.append_nil _
  have hpost : ∀ i, postCount i (.cleared slot c 0 :: log) = postCount i log :=
    fun _ => postCount_cons rfl
  have F' : Traffic slot r w x { pipe with readIdx := 0, writeIdx := 0, count := 0 }
      (.cleared slot c 0 :: log) := by
    refine ⟨F.isOpen, ⟨F.sems.readers, F.sems.writers, F.sems.mutex, F.sems.rw, F.sems.rx, F.sems.wx⟩,
      (openedWith_cons rfl).trans F.readers, (openedWith_cons rfl).trans F.writers,
      (openedWith_cons rfl).trans F.mutex, .empty (by decide), ?_, ?_, ?_, ?_, ?_, ?_⟩
    · rw [hw, ht, ringContents_zero, List.append_nil, hfifo]
    · rw [hw, hpost]
      exact F.postsRead
    · rw [ht, hpost]
      exact F.postsWrite
    · exact fun p size bytes ret h => F.readDone p size bytes ret (by simpa using h)
    · exact fun p data ret h => F.writeDone p data ret (by simpa using h)
    · intro later earlier q m h
      cases later with
      | nil =>
        obtain ⟨_, rfl⟩ := List.cons.inj h
        exact hfifo
      | cons _ later => exact F.cleared later earlier q m (List.cons.inj h).2
  exact F'.silent (hx.silent F.sems.rx F.sems.wx)

/-- A call returns with what it was asked for. -/
theorem Traffic.finish {op : PipeOp} (F : Traffic slot r w x pipe log) (h : op.Sound .loop)
    (ho : op.result slot c = some o) : Traffic slot r w x pipe (o :: log) := by
  have hcases : (∃ size buffer, buffer.length = size ∧ o = .readDone slot c size buffer size) ∨
      ∃ data, o = .writeDone slot c data data.length := by
    rcases h.result ho with ⟨size, buffer, _, hlen, rfl⟩ | ⟨data, _, rfl⟩
    · exact .inl ⟨size, buffer, hlen, rfl⟩
    · exact .inr ⟨data, rfl⟩
  have hopens : ∀ i, o.opens i = none := by
    rcases hcases with ⟨_, _, _, rfl⟩ | ⟨_, rfl⟩ <;> exact fun _ => rfl
  have hw : written slot (o :: log) = written slot log := by
    rw [written_cons]
    rcases hcases with ⟨_, _, _, rfl⟩ | ⟨_, rfl⟩ <;> exact List.append_nil _
  have ht : taken slot (o :: log) = taken slot log := by
    rw [taken_cons]
    rcases hcases with ⟨_, _, _, rfl⟩ | ⟨_, rfl⟩ <;> exact List.append_nil _
  have hpost : ∀ i, postCount i (o :: log) = postCount i log := by
    intro i
    rw [postCount_cons (hopens i)]
    rcases hcases with ⟨_, _, _, rfl⟩ | ⟨_, rfl⟩ <;> rfl
  refine ⟨F.isOpen, F.sems, (openedWith_cons (hopens r)).trans F.readers,
    (openedWith_cons (hopens w)).trans F.writers, (openedWith_cons (hopens x)).trans F.mutex, F.ring,
    ?_, ?_, ?_, ?_, ?_, ?_⟩
  · rw [hw, ht]
    exact F.fifo
  · rw [hw, hpost]
    exact F.postsRead
  · rw [ht, hpost]
    exact F.postsWrite
  · intro p size bytes ret hm
    rcases List.mem_cons.mp hm with hm | hm
    · rcases hcases with ⟨_, _, hlen, rfl⟩ | ⟨_, rfl⟩
      · cases hm
        exact ⟨rfl, hlen⟩
      · cases hm
    · exact F.readDone p size bytes ret hm
  · intro p data ret hm
    rcases List.mem_cons.mp hm with hm | hm
    · rcases hcases with ⟨_, _, _, rfl⟩ | ⟨_, rfl⟩
      · cases hm
      · cases hm
        rfl
    · exact F.writeDone p data ret hm
  · intro later earlier q n hm
    cases later with
    | nil =>
      obtain ⟨rfl, _⟩ := List.cons.inj hm
      rcases hcases with ⟨_, _, _, h⟩ | ⟨_, h⟩ <;> cases h
    | cons _ later => exact F.cleared later earlier q n (List.cons.inj hm).2

end Traffic

end SoKernel
