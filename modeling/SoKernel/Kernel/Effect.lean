import SoKernel.Kernel.Machine
import Mathlib.Logic.Relation

/-!
# What the kernel functions can do

Every kernel function except `schedule` is a sequence of a few effects, each with
the condition under which the code has it. Invariants are proved for the effects
and the functions are shown to be made of them (`Functions.lean`), so that no
invariant unfolds a function.

A `Label` names an effect and the process, semaphore or pipe it is about;
`Effects allow k k'` is a sequence of effects whose labels `allow` admits.
-/

namespace SoKernel

/-- Move `p` between two queues and write its PCB. -/
def Kernel.move (k : Kernel) (queueFrom queueTo : QueueName) (p : Pid) (b : PCB) : Kernel :=
  ((k.setQueue queueFrom ((k.queue queueFrom).erase p)).setQueue queueTo
    (k.queue queueTo ++ [p])).setPCB p b

/-- The fields of a PCB that only its creation writes. -/
structure SameIdentity (b b' : PCB) : Prop where
  pid : b'.pid = b.pid
  parentPid : b'.parentPid = b.parentPid
  foreground : b'.foreground = b.foreground

/-- And the stack pointer, which only `schedule` writes again. -/
structure SamePCB (b b' : PCB) : Prop extends SameIdentity b b' where
  rsp : b'.rsp = b.rsp

/-- And the account of the children, which only their births and deaths write. -/
structure SameFamily (b b' : PCB) : Prop extends SamePCB b b' where
  childrenSem : b'.childrenSem = b.childrenSem
  childrenCount : b'.childrenCount = b.childrenCount

/-- And the child the process waits for, which only `waitpid` writes. -/
structure SameWaiting (b b' : PCB) : Prop extends SameFamily b b' where
  waitingForPid : b'.waitingForPid = b.waitingForPid

theorem SameWaiting.state (b : PCB) (s : State) : SameWaiting b { b with state := s } :=
  ⟨⟨⟨⟨rfl, rfl, rfl⟩, rfl⟩, rfl, rfl⟩, rfl⟩

inductive Label
  | plain
  | children (p : Pid)
  | block (p : Pid)
  | unblock (p : Pid)
  | took (id : Int)
  | sleep (id : Int) (p : Pid) (queued : Bool)
  | wake (id : Int) (p : Pid)
  | absorb (id : Int) (p : Pid)
  | incr (id : Int)
  | semOpened (id : Int)
  | semClosed (id : Int)
  | create (p : Pid)
  | discard (p : Pid)
  | enter (p : Pid)
  | die (p : Pid)
  | reap (p : Pid)
  | pipeOpened (slot : Nat)
  | pipeReady (slot : Nat)
  | pipeClosed (slot : Nat)
  | pipeData (slot : Nat)
  | note (o : Obs)
deriving DecidableEq

/-- The entries that say how a call ended. -/
def Obs.IsResult : Obs → Prop
  | .resumed .. | .readDone .. | .writeDone .. | .waitpidDone .. | .returned .. => True
  | _ => False

/-- The process is in no queue. -/
def Kernel.Outside (k : Kernel) (p : Pid) : Prop := ∀ q, p ∉ k.queue q

/-- `c` is the process executing, and it is not idle. -/
structure Executing (k : Kernel) (c : Pid) : Prop where
  current : k.currentProcess = some c
  notIdle : k.currentProcess ≠ k.idleProcess

inductive Effect : Label → Kernel → Kernel → Prop
  | alloc (k : Kernel) : Effect .plain k { k with allocs := fun n => k.allocs (n + 1) }
  | quantum (k : Kernel) (n : Int) : Effect .plain k { k with quantum := n }
  | manager (k : Kernel) : Effect .plain k { k with semManager := false }
  /-- A field other than the state and those of `SameWaiting` is written. -/
  | update {k : Kernel} {p : Pid} {b b' : PCB} : k.procs p = some b → SameWaiting b b' →
      b'.state = b.state → Effect .plain k (k.setPCB p b')
  /-- The account of the children of `p` is written. -/
  | children {k : Kernel} {p : Pid} {b b' : PCB} : k.procs p = some b → SamePCB b b' →
      b'.state = b.state → b'.waitingForPid = b.waitingForPid →
      Effect (.children p) k (k.setPCB p b')
  /-- `blockProcess`, also as `waitpid` calls it. -/
  | block {k : Kernel} {p : Pid} {b b' : PCB} : p ∈ k.queue .ready → k.procs p = some b →
      SameFamily b b' → b'.state = .BLOCKED → Effect (.block p) k (k.move .ready .blocked p b')
  | unblock {k : Kernel} {p : Pid} {b b' : PCB} : p ∈ k.queue .blocked → k.procs p = some b →
      SameWaiting b b' → b'.state = .READY → Effect (.unblock p) k (k.move .blocked .ready p b')
  /-- `wait` finds a token. -/
  | took {k : Kernel} {id : Int} : (k.sems id).lock = false → (k.sems id).value > 0 →
      Effect (.took id) k
        ((k.setSem id { k.sems id with value := (k.sems id).value - 1 }).observe
          (.took id (getCurrentPid k)))
  /-- `wait` finds none, and its process goes to sleep in the queue of the semaphore. -/
  | sleep {k : Kernel} {id : Int} {p : Pid} {pids : List Pid} {b b' : PCB} :
      (k.sems id).lock = false → (k.sems id).value = 0 → (k.sems id).blocked = .live pids →
      k.currentProcess = some p → p ∈ k.queue .ready → k.procs p = some b → SameWaiting b b' →
      b'.state = .BLOCKED →
      Effect (.sleep id p true) k
        (((k.setSem id { k.sems id with blocked := .live (pids ++ [p]) }).observe
          (.queued id p)).move .ready .blockedBySem p b')
  /-- The same when there is no queue or no memory for its node. -/
  | stray {k : Kernel} {id : Int} {p : Pid} {b b' : PCB} :
      k.currentProcess = some p → p ∈ k.queue .ready → k.procs p = some b → SameWaiting b b' →
      b'.state = .BLOCKED →
      Effect (.sleep id p false) k (k.move .ready .blockedBySem p b')
  /-- `post` makes the first waiting process ready. -/
  | wake {k : Kernel} {id : Int} {p : Pid} {pids : List Pid} {b b' : PCB} :
      (k.sems id).lock = false → (k.sems id).blocked = .live (p :: pids) →
      p ∈ k.queue .blockedBySem → k.procs p = some b → SameWaiting b b' → b'.state = .READY →
      Effect (.wake id p) k
        (((k.setSem id { k.sems id with blocked := .live pids }).move .blockedBySem .ready p
          b').observe (.released id p (getCurrentPid k)))
  /-- The first pid in the queue is of no process that waits. -/
  | absorb {k : Kernel} {id : Int} {p : Pid} {pids : List Pid} :
      (k.sems id).lock = false → (k.sems id).blocked = .live (p :: pids) →
      p ∉ k.queue .blockedBySem →
      Effect (.absorb id p) k
        ((k.setSem id { k.sems id with blocked := .live pids }).observe
          (.absorbed id p (getCurrentPid k)))
  | incr {k : Kernel} {id : Int} : (k.sems id).lock = false →
      ((k.sems id).blocked = .null ∨ (k.sems id).blocked = .live []) →
      Effect (.incr id) k
        ((k.setSem id { k.sems id with value := ((k.sems id).value + 1) % 2 ^ 32 }).observe
          (.incremented id (getCurrentPid k)))
  | semOpened {k : Kernel} {id : Int} {value : Nat} : Machine.SemIdOk id →
      (k.sems id).used = false →
      Effect (.semOpened id) k
        ((k.setSem id { value := value, lock := false, used := true, blocked := .live [] }).observe
          (.opened id value))
  /-- There is no memory for the queue of the semaphore. -/
  | semUnqueued {k : Kernel} {id : Int} {value : Nat} : Machine.SemIdOk id →
      (k.sems id).used = false →
      Effect (.semOpened id) k
        (k.setSem id { value := value, lock := false, used := true, blocked := .null })
  | semClosed {k : Kernel} {id : Int} {blocked : SemQueue} :
      (k.sems id).used = true →
      ((∃ pids, (k.sems id).blocked = .live pids) ∧ blocked = .freed ∨
        (k.sems id).blocked = .null ∧ blocked = .null) →
      Effect (.semClosed id) k
        (k.setSem id { value := 0, lock := false, used := false, blocked := blocked })
  | create {k : Kernel} {c : Pid} {b : PCB} : Executing k c → b.pid = k.nextPid →
      b.state = .READY → b.rsp = .initial k.nextPid → b.parentPid = c → b.waitingForPid = -1 →
      Effect (.create k.nextPid) k { k.setPCB k.nextPid b with nextPid := k.nextPid + 1 }
  /-- A new process is given up: there was no memory for its stack. -/
  | discard {k : Kernel} {p : Pid} : k.Outside p → k.currentProcess ≠ some p →
      k.foregroundProcess ≠ some p → k.idleProcess ≠ some p → Effect (.discard p) k (k.freePCB p)
  | stack (k : Kernel) (p : Pid) : Effect .plain k (k.setStack p true)
  /-- A new process with standard input in the background starts blocked. -/
  | startBlocked {k : Kernel} {p : Pid} {b b' : PCB} : k.Outside p → k.currentProcess ≠ some p →
      k.procs p = some b → SameWaiting b b' → b'.state = .BLOCKED →
      Effect (.create p) k (k.setPCB p b')
  /-- A new process enters a queue. -/
  | enter {k : Kernel} {p : Pid} {q : QueueName} {b : PCB} : k.Outside p →
      k.idleProcess ≠ some p → k.procs p = some b → k.stackLive p = true →
      (q = .ready ∧ b.state = .READY ∨ q = .blocked ∧ b.state = .BLOCKED) →
      Effect (.enter p) k (k.setQueue q (k.queue q ++ [p]))
  /-- `killProcess` and the release of the stack. -/
  | die {k : Kernel} {p : Pid} {q : QueueName} {b b' : PCB} : p ∈ k.queue q → q ≠ .zombie →
      k.procs p = some b → SameWaiting b b' → b'.state = .ZOMBIE →
      Effect (.die p) k
        ({ (k.move q .zombie p b').setStack p false with
          currentProcess := if k.currentProcess = some p then k.idleProcess else k.currentProcess
          foregroundProcess := if k.foregroundProcess = some p then none else k.foregroundProcess
          }.observe (.killed p b'.parentPid b'.retValue))
  | reap {k : Kernel} {p : Pid} : p ∈ k.queue .zombie →
      Effect (.reap p) k ((k.setQueue .zombie ((k.queue .zombie).erase p)).freePCB p)
  | pipeOpened {k : Kernel} {slot : Nat} : slot < maxPipes → (k.pipes slot).isOpen = false →
      Effect (.pipeOpened slot) k
        { k.setPipe slot { k.pipes slot with
            readIdx := 0, writeIdx := 0, count := 0, isOpen := true, semReaders := k.nextSemId,
            semWriters := k.nextSemId + 1, mutex := k.nextSemId + 2 } with
          nextSemId := k.nextSemId + 3 }
  /-- `createPipe` has opened the semaphores of the pipe and returns its id. -/
  | pipeReady {k : Kernel} {slot : Nat} : slot < maxPipes → (k.pipes slot).isOpen = true →
      (k.sems (k.pipes slot).semReaders).used = true →
      (k.sems (k.pipes slot).semWriters).used = true → (k.sems (k.pipes slot).mutex).used = true →
      Effect (.pipeReady slot) k (k.observe (.pipeOpened slot (pipeHandle slot)))
  | pipeClosed {k : Kernel} {slot : Nat} {pipe : Pipe} : 2 < slot → pipe.isOpen = false →
      pipe.semReaders = -1 → pipe.semWriters = -1 → pipe.mutex = -1 →
      Effect (.pipeClosed slot) k ((k.setPipe slot pipe).observe (.pipeClosed slot (slot + 2)))
  /-- A critical section of a pipe. -/
  | pipeData {k : Kernel} {slot : Nat} {pipe : Pipe} {o : Obs} :
      pipe.isOpen = (k.pipes slot).isOpen → pipe.semReaders = (k.pipes slot).semReaders →
      pipe.semWriters = (k.pipes slot).semWriters → pipe.mutex = (k.pipes slot).mutex →
      ((∃ p b, o = .put slot p b) ∨ (∃ p b, o = .got slot p b) ∨ ∃ p n, o = .cleared slot p n) →
      Effect (.pipeData slot) k ((k.setPipe slot pipe).observe o)
  | note {k : Kernel} {o : Obs} : o.IsResult → Effect (.note o) k (k.observe o)

/-- What an effect adds to the history. -/
def Label.Logs : Label → Obs → Prop
  | .took id, .took i _ => i = id
  | .sleep id p _, .queued i q => i = id ∧ q = p
  | .wake id p, .released i q _ => i = id ∧ q = p
  | .absorb id p, .absorbed i q _ => i = id ∧ q = p
  | .incr id, .incremented i _ => i = id
  | .semOpened id, .opened i _ => i = id
  | .pipeReady slot, .pipeOpened i id => i = slot ∧ id = pipeHandle slot
  | .pipeClosed slot, .pipeClosed i id => i = slot ∧ id = slot + 2
  | .die p, .killed q _ _ => q = p
  | .pipeData slot, .put i _ _ => i = slot
  | .pipeData slot, .got i _ _ => i = slot
  | .pipeData slot, .cleared i _ _ => i = slot
  | .note o, o' => o' = o ∧ o.IsResult
  | _, _ => False

theorem Effect.log {l : Label} {k k' : Kernel} (h : Effect l k k') :
    k'.log = k.log ∨ ∃ o, k'.log = o :: k.log ∧ l.Logs o := by
  cases h with
  | took => exact .inr ⟨_, rfl, rfl⟩
  | sleep => exact .inr ⟨_, rfl, rfl, rfl⟩
  | wake => exact .inr ⟨_, rfl, rfl, rfl⟩
  | absorb => exact .inr ⟨_, rfl, rfl, rfl⟩
  | incr => exact .inr ⟨_, rfl, rfl⟩
  | semOpened => exact .inr ⟨_, rfl, rfl⟩
  | pipeReady => exact .inr ⟨_, rfl, rfl, rfl⟩
  | pipeClosed => exact .inr ⟨_, rfl, rfl, rfl⟩
  | die => exact .inr ⟨_, rfl, rfl⟩
  | pipeData _ _ _ _ ho =>
    refine .inr ⟨_, rfl, ?_⟩
    rcases ho with ⟨_, _, rfl⟩ | ⟨_, _, rfl⟩ | ⟨_, _, rfl⟩ <;> rfl
  | note ho => exact .inr ⟨_, rfl, rfl, ho⟩
  | _ => exact .inl rfl

/-- An entry after an effect is an old one or the one it adds. -/
theorem Effect.mem_log {l : Label} {k k' : Kernel} {o : Obs} (h : Effect l k k')
    (ho : o ∈ k'.log) : o ∈ k.log ∨ l.Logs o := by
  rcases h.log with he | ⟨o', he, hl⟩
  · exact .inl (he ▸ ho)
  · rw [he] at ho
    rcases List.mem_cons.mp ho with rfl | ho
    · exact .inr hl
    · exact .inl ho

theorem Effect.log_mono {l : Label} {k k' : Kernel} {o : Obs} (h : Effect l k k')
    (ho : o ∈ k.log) : o ∈ k'.log := by
  rcases h.log with he | ⟨o', he, _⟩
  · rwa [he]
  · rw [he]
    exact List.mem_cons_of_mem _ ho

/-- What an effect does to the semaphore `id`. -/
inductive Sem.Changed (id : Int) (s : Sem) : Label → Sem → Prop
  | took : s.Changed id (.took id) { s with value := s.value - 1 }
  | joined {p : Pid} {pids : List Pid} : s.blocked = .live pids →
      s.Changed id (.sleep id p true) { s with blocked := .live (pids ++ [p]) }
  | left {l : Label} {p : Pid} {pids : List Pid} : s.blocked = .live (p :: pids) →
      l = .wake id p ∨ l = .absorb id p → s.Changed id l { s with blocked := .live pids }
  | counted : s.Changed id (.incr id) { s with value := (s.value + 1) % 2 ^ 32 }
  | opened {v : Nat} {b : SemQueue} : Machine.SemIdOk id → s.used = false →
      b = .null ∨ b = .live [] → s.Changed id (.semOpened id) ⟨v, false, true, b⟩
  | closed {b : SemQueue} : s.used = true →
      (∃ pids, s.blocked = .live pids) ∧ b = .freed ∨ s.blocked = .null ∧ b = .null →
      s.Changed id (.semClosed id) ⟨0, false, false, b⟩

theorem Effect.sem {l : Label} {k k' : Kernel} (h : Effect l k k') (id : Int) :
    k'.sems id = k.sems id ∨ (k.sems id).Changed id l (k'.sems id) := by
  have hset : ∀ {i : Int} {s : Sem}, (k.sems i).Changed i l s →
      (k.setSem i s).sems id = k.sems id ∨
        (k.sems id).Changed id l ((k.setSem i s).sems id) := by
    intro i s hs
    rcases eq_or_ne id i with rfl | hne
    · exact .inr (by simpa [Kernel.setSem] using hs)
    · exact .inl (by simp [Kernel.setSem, hne])
  cases h with
  | took => exact hset .took
  | sleep _ _ hb => exact hset (.joined hb)
  | wake _ hb => exact hset (.left hb (.inl rfl))
  | absorb _ hb => exact hset (.left hb (.inr rfl))
  | incr => exact hset .counted
  | semOpened hid hu => exact hset (.opened hid hu (.inr rfl))
  | semUnqueued hid hu => exact hset (.opened hid hu (.inl rfl))
  | semClosed hu hb => exact hset (.closed hu hb)
  | _ => exact .inl rfl

/-- Semaphores come into use and go out of it in two effects. -/
theorem Effect.used_eq {l : Label} {k k' : Kernel} {id : Int} (h : Effect l k k')
    (ho : l ≠ .semOpened id) (hc : l ≠ .semClosed id) :
    (k'.sems id).used = (k.sems id).used := by
  rcases h.sem id with heq | hs
  · rw [heq]
  · generalize k'.sems id = s' at hs ⊢
    cases hs with
    | opened => exact absurd rfl ho
    | closed => exact absurd rfl hc
    | _ => rfl

theorem Effect.opened_unused {k k' : Kernel} {id : Int} (h : Effect (.semOpened id) k k') :
    (k.sems id).used = false := by
  cases h with
  | semOpened _ hf => exact hf
  | semUnqueued _ hf => exact hf

/-- What no effect changes. -/
structure Constant (k k' : Kernel) : Prop where
  currentPid : k'.currentPid = k.currentPid
  first : k'.first = k.first
  idle : k'.idleProcess = k.idleProcess
  pipeManagerInit : k'.pipeManagerInit = k.pipeManagerInit

theorem Effect.constant {l : Label} {k k' : Kernel} (h : Effect l k k') : Constant k k' := by
  cases h <;> exact ⟨rfl, rfl, rfl, rfl⟩

/-- A sequence of effects with admitted labels. -/
def Effects (allow : Label → Prop) : Kernel → Kernel → Prop :=
  Relation.ReflTransGen fun k k' => ∃ l, allow l ∧ Effect l k k'

namespace Effects

variable {allow allow' : Label → Prop} {k k1 k2 : Kernel}

theorem refl : Effects allow k k := Relation.ReflTransGen.refl

theorem trans (h : Effects allow k k1) (h' : Effects allow k1 k2) : Effects allow k k2 :=
  Relation.ReflTransGen.trans h h'

theorem one {l : Label} (h : Effect l k k1) (hl : allow l) : Effects allow k k1 :=
  .single ⟨l, hl, h⟩

theorem mono (h : Effects allow k k1) (hle : ∀ l, allow l → allow' l) : Effects allow' k k1 :=
  Relation.ReflTransGen.mono (fun _ _ ⟨l, hl, he⟩ => ⟨l, hle l hl, he⟩) _ _ h

/-- What every admitted effect preserves holds after them. -/
theorem invariant {P : Kernel → Prop} (h : Effects allow k k1) (h0 : P k)
    (hstep : ∀ {l : Label} {a b : Kernel}, allow l → P a → Effect l a b → P b) : P k1 := by
  induction h with
  | refl => exact h0
  | tail _ hb ih =>
    obtain ⟨l, hl, he⟩ := hb
    exact hstep hl ih he

/-- What they add to the history, when each adds only such entries. -/
theorem later {I : Kernel → Prop} {P : Obs → Prop} (h : Effects allow k k1) (h0 : I k)
    (hstep : ∀ {l : Label} {a b : Kernel}, allow l → I a → Effect l a b →
      I b ∧ ∀ o, l.Logs o → P o) :
    ∃ later, k1.log = later ++ k.log ∧ ∀ o ∈ later, P o := by
  have hall : I k1 ∧ ∃ later, k1.log = later ++ k.log ∧ ∀ o ∈ later, P o := by
    refine h.invariant (P := fun k1 => I k1 ∧ ∃ later, k1.log = later ++ k.log ∧ ∀ o ∈ later, P o)
      ⟨h0, [], rfl, by simp⟩ ?_
    rintro l a b hl ⟨hI, later, hlog, hlater⟩ he
    obtain ⟨hI', hP⟩ := hstep hl hI he
    refine ⟨hI', ?_⟩
    rcases he.log with hb | ⟨o, hb, ho⟩
    · exact ⟨later, hb.trans hlog, hlater⟩
    · refine ⟨o :: later, by rw [hb, hlog]; rfl, fun o' ho' => ?_⟩
      rcases List.mem_cons.mp ho' with rfl | ho'
      · exact hP o' ho
      · exact hlater o' ho'
  exact hall.2

theorem constant (h : Effects allow k k1) : Constant k k1 := by
  induction h with
  | refl => exact ⟨rfl, rfl, rfl, rfl⟩
  | tail _ hb ih =>
    obtain ⟨l, _, he⟩ := hb
    have hc := he.constant
    exact ⟨hc.currentPid.trans ih.currentPid, hc.first.trans ih.first, hc.idle.trans ih.idle,
      hc.pipeManagerInit.trans ih.pipeManagerInit⟩

end Effects

end SoKernel
