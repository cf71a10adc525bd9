import SoKernel.Kernel.LockClients
import SoKernel.Lib.Increments
import Mathlib.Data.BitVec

/-!
# The processes of `test_sync`

`my_process_inc` of `tests/test_sync.c`: the workers add to the `global` they share, in
`slowInc`, which reads it, adds, and writes it back, with a `syscall_yield` now and then in
between. They run under the kernel: between any two of their instructions there can be a tick, a
Ctrl+C, or whatever other processes do. A semaphore keeps them apart.

Results:
1. `Sound.step`: the token of the semaphore is in it, or one worker holds it.
2. `reach_testSync`: one worker at a time is between `syscall_sem_wait` and `syscall_sem_post`,
   and no addition is lost.
3. `reach_testSync_final`: the final value of `global`.
-/

namespace SoKernel.TestSync

/-! ## The processes -/

/-- `SEM_ID` -/
def semId : Int := 10

/-- Where a worker stands. -/
inductive Place
  /-- At the test of the loop. -/
  | top
  /-- In `syscall_sem_wait`, or after it and before `aux = *p`. -/
  | inside
  /-- After `aux = *p`. -/
  | loaded (aux : BitVec 64)
  /-- After the first `syscall_yield` of `slowInc`, or the decision against it. -/
  | rested (aux : BitVec 64)
  /-- After `aux += inc`. -/
  | added (aux : BitVec 64)
  /-- After the second `syscall_yield`, or the decision against it. -/
  | ready (aux : BitVec 64)
  /-- After `*p = aux`. -/
  | stored
  /-- `my_process_inc` has returned. -/
  | ended
deriving DecidableEq, Repr

structure Worker where
  i : Nat
  place : Place
deriving DecidableEq, Repr

/-- The processes that run `my_process_inc`, and their arguments. -/
structure Args where
  workers : Finset Pid
  n : Pid → Nat
  inc : Pid → BitVec 64
  useSem : Bool

/-- `my_process_inc`, from one access to `global` or system call to the next, in a worker that
has `n` rounds to make: the worker, `global`, and the call made. `coin` is
`GetUniform(100) < 50`. -/
def myProcessInc (n : Nat) (inc : BitVec 64) (useSem coin : Bool) (w : Worker)
    (global : BitVec 64) : Option (Worker × BitVec 64 × Option Call) :=
  match w.place with
  | .top =>
    if w.i < n then
      some ({ w with place := .inside }, global, if useSem then some (.semWait semId) else none)
    else some ({ w with place := .ended }, global, some (.exit 0))
  | .inside => some ({ w with place := .loaded global }, global, none)
  | .loaded aux => some ({ w with place := .rested aux }, global, if coin then some .yield else none)
  | .rested aux => some ({ w with place := .added (aux + inc) }, global, none)
  | .added aux => some ({ w with place := .ready aux }, global, if coin then some .yield else none)
  | .ready aux => some ({ w with place := .stored }, aux, none)
  | .stored =>
    some (⟨w.i + 1, .top⟩, global, if useSem then some (.semPost semId) else none)
  | .ended => none

/-! ## The system -/

/-- The machine, the memory the workers share, and where each of them stands. -/
structure System where
  m : Machine
  global : BitVec 64
  worker : Pid → Worker

/-- A step of the kernel or of another process, or of the worker on the CPU. -/
inductive Move
  | kernel (e : Event)
  | worker (off : Nat) (coin : Bool)
deriving DecidableEq, Repr

namespace System

def stepWorker (a : Args) (s : System) (off : Nat) (coin : Bool) : Option System := do
  let c := s.m.cpu
  let (w, global, sc) ← myProcessInc (a.n c) (a.inc c) a.useSem coin (s.worker c) s.global
  let worker := Function.update s.worker c w
  match sc with
  | none => some ⟨s.m, global, worker⟩
  | some sc => do
    let m ← s.m.step (.call off sc)
    some ⟨m, global, worker⟩

def step (a : Args) (s : System) : Move → Option System
  | .kernel e => (s.m.step e).map fun m => { s with m := m }
  | .worker off coin =>
    if s.m.Calls ∧ s.m.cpu ∈ a.workers then s.stepWorker a off coin else none

end System

/-- The next instruction of the worker is an operation on the semaphore. -/
def Worker.syncs (n : Nat) (w : Worker) : Bool :=
  match w.place with
  | .top => decide (w.i < n)
  | .stored => true
  | _ => false

def isCall : Event → Bool
  | .call _ _ => true
  | _ => false

/-- The others make no calls in the name of a worker and kill none, and nobody but the workers
uses the semaphore. -/
def Apart (a : Args) (s : System) : Move → Prop
  | .kernel e => (∀ m' ∈ s.m.step e, Bypasses semId s.m.k m'.k) ∧
      (∀ p ∈ a.workers, (s.worker p).place ≠ .ended → ¬ e.Kills s.m p) ∧
      (s.m.cpu ∈ a.workers → isCall e = false)
  | .worker off coin => ∀ s' ∈ s.step a (.worker off coin),
      (s.worker s.m.cpu).syncs (a.n s.m.cpu) = true ∨ Bypasses semId s.m.k s'.m.k

instance (a : Args) (s : System) : (mv : Move) → Decidable (Apart a s mv)
  | .kernel _ => inferInstanceAs (Decidable (_ ∧ _ ∧ _))
  | .worker off coin => inferInstanceAs (Decidable (∀ s' ∈ s.step a (.worker off coin), _ ∨ _))

/-- `syscall_sem_open(SEM_ID, 1)` has succeeded, on a machine where every allocation does, and the
workers are not created yet. -/
structure Start (a : Args) (s : System) : Prop where
  reach : Reach (fun _ => true) Run.anyEvent s.m
  sem : s.m.k.sems semId = ⟨1, false, true, .live []⟩
  fresh : ∀ p ∈ a.workers, s.m.k.nextPid ≤ p
  global : s.global = 0
  worker : ∀ p ∈ a.workers, s.worker p = ⟨0, .top⟩

/-- Between `syscall_sem_wait` and the return of `syscall_sem_post`. -/
def Place.critical : Place → Bool
  | .top | .ended => false
  | _ => true

/-- In `slowInc`. -/
def Place.adding : Place → Adding (BitVec 64)
  | .loaded aux | .rested aux => .read aux
  | .added aux | .ready aux => .sum aux
  | _ => .outside

/-- The additions a worker has still to make. -/
def Worker.todo (n : Nat) (w : Worker) : Nat :=
  match w.place with
  | .stored => n - (w.i + 1)
  | _ => n - w.i

/-- The workers and `global` as a counter. -/
def System.counter (a : Args) (s : System) : Counter Pid (BitVec 64) where
  value := s.global
  phase p := if p ∈ a.workers then (s.worker p).place.adding else .outside
  todo p := (s.worker p).todo (a.n p)

section

variable {a : Args} {s s' : System} {w w' : Worker} {g g' : BitVec 64} {p c : Pid} {n : Nat}
  {inc : BitVec 64} {useSem coin : Bool} {sc : Option Call} {mv : Move} {off : Nat}

/-- Where the loop counter is. -/
def Worker.InLoop (n : Nat) (w : Worker) : Prop :=
  if w.place.critical = true then w.i < n else w.place = .ended → n ≤ w.i

theorem myProcessInc_inLoop (h : myProcessInc n inc useSem coin w g = some (w', g', sc))
    (hw : w.InLoop n) : w'.InLoop n := by
  obtain ⟨i, place⟩ := w
  cases place with
  | top =>
    simp only [myProcessInc] at h
    split at h
    · next hlt =>
      cases h
      exact hlt
    · next hle =>
      cases h
      exact fun _ => Nat.not_lt.mp hle
  | stored =>
    cases h
    exact fun h => nomatch h
  | ended => cases h
  | _ =>
    cases h
    exact hw

/-- The counter after an instruction of the worker `c`. -/
theorem counter_update (hc : c ∈ a.workers) (hf : s'.worker = Function.update s.worker c w') :
    s'.counter a = ⟨s'.global, Function.update (s.counter a).phase c w'.place.adding,
      Function.update (s.counter a).todo c (w'.todo (a.n c))⟩ := by
  unfold System.counter
  rw [hf]
  congr 1 <;> funext p <;> rcases eq_or_ne p c with rfl | hne
  · simp [hc]
  · simp [hne]
  · simp
  · simp [hne]

/-- An instruction outside `slowInc`, or one of its calls. -/
theorem counter_same (hc : c ∈ a.workers) (hf : s'.worker = Function.update s.worker c w')
    (hg : s'.global = s.global) (hp : w'.place.adding = (s.worker c).place.adding)
    (ht : w'.todo (a.n c) = (s.worker c).todo (a.n c)) : s'.counter a = s.counter a := by
  have hphase : (s.counter a).phase c = w'.place.adding := (if_pos hc).trans hp.symm
  rw [counter_update hc hf, hg, ← hphase, Function.update_eq_self, ht]
  exact congrArg _ (Function.update_eq_self c (s.counter a).todo)

/-- An instruction of a worker is one of a process that adds to a counter, or none of those. -/
theorem myProcessInc_counts (hc : c ∈ a.workers)
    (h : myProcessInc (a.n c) (a.inc c) useSem coin (s.worker c) s.global = some (w', g', sc))
    (hg : s'.global = g') (hw : (s.worker c).InLoop (a.n c))
    (hf : s'.worker = Function.update s.worker c w') :
    s'.counter a = s.counter a ∨ Counter.Step a.inc c (s.counter a) (s'.counter a) := by
  have hphase : (s.counter a).phase c = (s.worker c).place.adding := if_pos hc
  have htodo : (s.counter a).todo c = (s.worker c).todo (a.n c) := rfl
  have hsame : g' = s.global → w'.place.adding = (s.worker c).place.adding →
      w'.todo (a.n c) = (s.worker c).todo (a.n c) → s'.counter a = s.counter a :=
    fun hgg => counter_same hc hf (hg.trans hgg)
  -- reading and adding leave the rest as it is
  have hmoved : g' = s.global → w'.todo (a.n c) = (s.worker c).todo (a.n c) →
      s'.counter a = { s.counter a with
        phase := Function.update (s.counter a).phase c w'.place.adding } := by
    intro hgg ht
    rw [counter_update hc hf, ht, hg, hgg, ← htodo, Function.update_eq_self]
    rfl
  generalize hwc : s.worker c = w at h hw hphase htodo hsame hmoved
  obtain ⟨i, place⟩ := w
  cases place with
  | top =>
    simp only [myProcessInc] at h
    split at h <;> cases h <;> exact .inl (hsame rfl rfl rfl)
  | inside =>
    cases h
    rw [hmoved rfl rfl]
    exact .inr (.load hphase)
  | loaded aux =>
    cases h
    exact .inl (hsame rfl rfl rfl)
  | rested aux =>
    cases h
    rw [hmoved rfl rfl]
    exact .inr (.add hphase)
  | added aux =>
    cases h
    exact .inl (hsame rfl rfl rfl)
  | ready aux =>
    cases h
    have hlt : i < a.n c := hw
    rw [counter_update hc hf, hg]
    refine .inr (.store hphase (htodo.trans ?_))
    show a.n c - i = a.n c - (i + 1) + 1
    omega
  | stored =>
    cases h
    exact .inl (hsame rfl rfl rfl)
  | ended => cases h

/-! ## What is left of the calls of a worker -/

/-- A worker is in user code, or at the end of one of its calls. -/
def Waiter (d : Cont) : Prop := d = .user ∨ (∃ v, d = .ret v) ∨ d = .waited semId (.ret 0)

section

variable {m m' : Machine} {e : Event} {call : Call} {d : Cont}

theorem interrupt_cont (h : m.interrupt off = some m') : m'.cont = m.cont := by
  obtain ⟨r, _, h⟩ := Option.bind_eq_some_iff.mp h
  cases h
  rfl

theorem finish_cont {r : Kernel × Flow} (h : m.finish off r = some m') :
    ∃ d, Waiter d ∧ m'.cont = Function.update m.cont m.cpu d := by
  unfold Machine.finish at h
  split at h
  · cases h
    exact ⟨.user, .inl rfl, rfl⟩
  · exact ⟨.ret 0, .inr (.inl ⟨0, rfl⟩), interrupt_cont h⟩

/-- The calls a worker makes. -/
theorem call_cont (h : m.step (.call off call) = some m')
    (hcall : call = .yield ∨ call = .exit 0 ∨ call = .semWait semId ∨ call = .semPost semId) :
    ∃ d, Waiter d ∧ m'.cont = Function.update m.cont m.cpu d := by
  have hid : Machine.SemIdOk semId := by decide
  simp only [Machine.step] at h
  split at h
  · rcases hcall with rfl | rfl | rfl | rfl
    · exact finish_cont (r := SoKernel.yield m.k) h
    · obtain ⟨r, _, h⟩ := Option.bind_eq_some_iff.mp h
      exact finish_cont h
    · rw [Machine.call, if_pos hid] at h
      obtain ⟨⟨k1, flow⟩, _, h⟩ := Option.bind_eq_some_iff.mp h
      dsimp only at h
      split at h
      · cases h
        exact ⟨.user, .inl rfl, rfl⟩
      · exact ⟨_, .inr (.inr rfl), interrupt_cont h⟩
    · rw [Machine.call, if_pos hid] at h
      obtain ⟨r, _, h⟩ := Option.bind_eq_some_iff.mp h
      exact finish_cont h
  · cases h

/-- The end of a call of a worker does nothing. -/
theorem resume_cont (hd : Waiter (m.cont m.cpu)) (h : m.step (.resume off) = some m') :
    m'.k.sems = m.k.sems ∧ m'.k.queue = m.k.queue ∧
      ∃ d, Waiter d ∧ m'.cont = Function.update m.cont m.cpu d := by
  replace h : m.resume off = some m' := h
  unfold Machine.resume at h
  rcases hd with hd | ⟨v, hd⟩ | hd <;> rw [hd] at h
  · cases h
  · cases h
    exact ⟨rfl, rfl, .user, .inl rfl, rfl⟩
  · cases h
    exact ⟨rfl, rfl, .ret 0, .inr (.inl ⟨0, rfl⟩), rfl⟩

/-- A step leaves the stacks of the others alone. -/
theorem step_cont (R : Running m c) (h : m.step e = some m') (hp : p ≠ m.cpu) :
    m'.cont p = m.cont p := by
  cases R.stepped h with
  | stayed _ hm =>
    rw [hm]
    exact Function.update_of_ne hp _ _
  | counted _ hm =>
    rw [hm]
    rfl
  | switched _ _ _ hcont =>
    rw [hcont]
    exact Function.update_of_ne hp _ _

/-- An interrupt leaves all of them alone. -/
theorem interrupted_cont (h : m.step e = some m') (hcall : isCall e = false)
    (hresume : ∀ off, e ≠ .resume off) : m'.cont = m.cont := by
  cases e with
  | tick off =>
    simp only [Machine.step] at h
    split at h
    · exact interrupt_cont h
    · cases h
  | ctrlC off =>
    simp only [Machine.step] at h
    split at h
    · obtain ⟨r, _, h⟩ := Option.bind_eq_some_iff.mp h
      dsimp only at h
      split at h
      · cases h
        rfl
      · exact interrupt_cont (m := m.withKernel r.1) h
    · cases h
  | call off sc => cases hcall
  | resume off => exact absurd rfl (hresume off)

end

/-! ## The token -/

/-- Who has returned from `syscall_sem_wait`, or will. -/
def System.holders (a : Args) (s : System) : Finset Pid :=
  a.workers.filter fun p => (s.worker p).place.critical = true ∧ p ∉ (s.m.k.sems semId).waiting

/-- The token of the semaphore is there, or one worker holds it. -/
structure Sound (a : Args) (s : System) : Prop where
  reach : Reach (fun _ => true) Run.anyEvent s.m
  known : ∀ p ∈ a.workers, 2 ≤ p
  clients : Clients a.workers semId s.m.k
  cont : ∀ p ∈ a.workers, Waiter (s.m.cont p)
  waiting : ∀ p ∈ (s.m.k.sems semId).waiting, (s.worker p).place = .inside
  tokens : (s.m.k.sems semId).value + (s.holders a).card = 1
  inLoop : ∀ p ∈ a.workers, (s.worker p).InLoop (a.n p)
  exact : (s.counter a).Exact a.inc
  owed : (s.counter a).owed a.inc a.workers = ∑ p ∈ a.workers, a.n p • a.inc p

namespace Sound

/-- Some process is running: the semaphore is not open after boot. -/
theorem running (S : Sound a s) : ∃ c, Running s.m c := by
  refine S.reach.cases.resolve_left fun hboot => ?_
  have hused := S.clients.used
  rw [hboot] at hused
  cases hused

theorem exclusive (S : Sound a s) {p q : Pid} (hp : p ∈ s.holders a) (hq : q ∈ s.holders a) :
    p = q :=
  Finset.card_le_one.mp (le_of_le_of_eq (Nat.le_add_left _ _) S.tokens) p hp q hq

/-- Who waits is not in `slowInc`. -/
theorem mem_holders (S : Sound a s) (hp : p ∈ a.workers)
    (hadding : (s.worker p).place.adding ≠ .outside) : p ∈ s.holders a := by
  refine Finset.mem_filter.mpr ⟨hp, ?_, fun hw => ?_⟩
  · cases hplace : (s.worker p).place <;> rw [hplace] at hadding <;>
      first | rfl | exact absurd rfl hadding
  · rw [S.waiting p hw] at hadding
    exact hadding rfl

theorem counter_exclusive (S : Sound a s) : (s.counter a).Exclusive := by
  have hmem : ∀ p, (s.counter a).phase p ≠ .outside → p ∈ s.holders a := by
    intro p hp
    by_cases hW : p ∈ a.workers
    · exact S.mem_holders hW fun h => hp ((if_pos hW).trans h)
    · exact absurd (if_neg hW) hp
  exact fun p q hp hq => S.exclusive (hmem p hp) (hmem q hq)

/-- A step of the machine in which the workers do nothing. -/
theorem machine {m' : Machine} (S : Sound a s) {e : Event} (h : s.m.step e = some m')
    (hk : Clients a.workers semId m'.k) (hsem : m'.k.sems semId = s.m.k.sems semId)
    (hcont : ∀ p ∈ a.workers, Waiter (m'.cont p)) : Sound a { s with m := m' } where
  reach := .snoc e S.reach trivial h
  known := S.known
  clients := hk
  cont := hcont
  waiting p hp := S.waiting p (hsem ▸ hp)
  tokens := by
    have hholders : System.holders a { s with m := m' } = s.holders a := by
      unfold System.holders
      rw [hsem]
    rw [hholders]
    show (m'.k.sems semId).value + _ = 1
    rw [hsem]
    exact S.tokens
  inLoop := S.inLoop
  exact := S.exact
  owed := S.owed

/-- A step of the kernel or of another process. -/
theorem kernel (S : Sound a s) {e : Event} (hok : Apart a s (.kernel e))
    (h : s.step a (.kernel e) = some s') : Sound a s' := by
  obtain ⟨m', hs, rfl⟩ := Option.map_eq_some_iff.mp h
  obtain ⟨hbypass, hkill, hcall⟩ := hok
  have hb := hbypass m' hs
  obtain ⟨c, R⟩ := S.running
  have hspared : ∀ p ∈ (s.m.k.sems semId).waiting, ¬ e.Kills s.m p := fun p hp =>
    hkill p (S.clients.asleep p hp).1 (by simp [S.waiting p hp])
  by_cases hresume : s.m.cpu ∈ a.workers ∧ ∃ off, e = .resume off
  · -- the end of a call of the worker on the CPU
    obtain ⟨hW, off, rfl⟩ := hresume
    obtain ⟨hsems, hqueue, d, hd, hcont⟩ := resume_cont (S.cont _ hW) hs
    refine S.machine hs (S.clients.congr hsems fun _ _ h => hqueue ▸ h) (congrFun hsems _) ?_
    intro p hp
    rcases eq_or_ne p s.m.cpu with rfl | hne
    · rw [hcont, Function.update_self]
      exact hd
    · rw [hcont, Function.update_of_ne hne]
      exact S.cont p hp
  · refine S.machine hs (R.bypass S.clients hs hb hspared ?_) hb.sem ?_
    · intro p hp i q hadmits
      obtain ⟨rfl, hevent⟩ := hadmits.sleeper
      have hcpu : s.m.cpu = p := R.cpu fun h0 => absurd (h0 ▸ S.known p hp) (by decide)
      rcases hevent with ⟨off, rfl⟩ | ⟨off, sc, rfl, _⟩
      · exact hresume ⟨hcpu ▸ hp, off, rfl⟩
      · cases hcall (hcpu ▸ hp)
    · intro p hp
      rcases eq_or_ne p s.m.cpu with rfl | hne
      · have hsame : m'.cont = s.m.cont :=
          interrupted_cont hs (hcall hp) fun off he => hresume ⟨hp, off, he⟩
        rw [hsame]
        exact S.cont _ hp
      · rw [step_cont R hs hne]
        exact S.cont p hp

end Sound

/-! ## Steps of the workers -/

/-- What an instruction of a worker does besides adding. -/
theorem myProcessInc_cases (h : myProcessInc n inc true coin w g = some (w', g', sc)) :
    (w.place = .top ∧ w'.place = .inside ∧ sc = some (.semWait semId)) ∨
      (w.place = .stored ∧ w'.place = .top ∧ sc = some (.semPost semId)) ∨
      w.syncs n = false ∧ w'.place.critical = w.place.critical ∧
        ∀ call ∈ sc, call = .yield ∨ call = .exit 0 := by
  have hcoin : ∀ call ∈ (if coin then some Call.yield else none), call = .yield ∨ call = .exit 0 := by
    cases coin <;> simp
  obtain ⟨i, place⟩ := w
  cases place with
  | top =>
    simp only [myProcessInc] at h
    split at h
    · cases h
      exact .inl ⟨rfl, rfl, rfl⟩
    · next hlt =>
      cases h
      exact .inr (.inr ⟨decide_eq_false hlt, rfl, by simp⟩)
  | stored =>
    cases h
    exact .inr (.inl ⟨rfl, rfl, rfl⟩)
  | ended => cases h
  | loaded =>
    cases h
    exact .inr (.inr ⟨rfl, rfl, hcoin⟩)
  | added =>
    cases h
    exact .inr (.inr ⟨rfl, rfl, hcoin⟩)
  | _ =>
    cases h
    exact .inr (.inr ⟨rfl, rfl, by simp⟩)

theorem mem_holders_iff : p ∈ s.holders a ↔ p ∈ a.workers ∧ (s.worker p).place.critical = true ∧
    p ∉ (s.m.k.sems semId).waiting := Finset.mem_filter

/-- Who holds the token after an instruction of `c`. -/
theorem mem_holders_update (hf : s'.worker = Function.update s.worker c w') (hc : c ∈ a.workers) :
    (c ∈ s'.holders a ↔ w'.place.critical = true ∧ c ∉ (s'.m.k.sems semId).waiting) ∧
      ∀ p ≠ c, (p ∈ s'.holders a ↔ p ∈ a.workers ∧ (s.worker p).place.critical = true ∧
        p ∉ (s'.m.k.sems semId).waiting) := by
  refine ⟨?_, fun p hp => ?_⟩
  · rw [mem_holders_iff, hf, Function.update_self, and_iff_right hc]
  · rw [mem_holders_iff, hf, Function.update_of_ne hp]

namespace Sound

/-- An instruction of the worker `c`, once the token is accounted for. -/
theorem worked (S : Sound a s) (hc : c ∈ a.workers)
    (hinc : myProcessInc (a.n c) (a.inc c) useSem coin (s.worker c) s.global = some (w', g', sc))
    (hg : s'.global = g') (hf : s'.worker = Function.update s.worker c w')
    (hreach : Reach (fun _ => true) Run.anyEvent s'.m) (hclients : Clients a.workers semId s'.m.k)
    (hcont : ∀ p ∈ a.workers, Waiter (s'.m.cont p))
    (hwaiting : ∀ p ∈ (s'.m.k.sems semId).waiting, (s'.worker p).place = .inside)
    (htokens : (s'.m.k.sems semId).value + (s'.holders a).card = 1) : Sound a s' := by
  have hcounts := myProcessInc_counts hc hinc hg (S.inLoop c hc) hf
  refine ⟨hreach, S.known, hclients, hcont, hwaiting, htokens, fun p hp => ?_, ?_, ?_⟩
  · rcases eq_or_ne p c with rfl | hne
    · rw [hf, Function.update_self]
      exact myProcessInc_inLoop hinc (S.inLoop p hp)
    · rw [hf, Function.update_of_ne hne]
      exact S.inLoop p hp
  · rcases hcounts with heq | hstep
    · exact heq ▸ S.exact
    · exact hstep.exact S.counter_exclusive S.exact
  · rcases hcounts with heq | hstep
    · exact heq ▸ S.owed
    · exact (hstep.owed hc S.exact).trans S.owed

/-- An instruction that does not touch the semaphore. -/
theorem worked_apart (S : Sound a s) (hc : c ∈ a.workers)
    (hinc : myProcessInc (a.n c) (a.inc c) useSem coin (s.worker c) s.global = some (w', g', sc))
    (hg : s'.global = g') (hf : s'.worker = Function.update s.worker c w')
    (hreach : Reach (fun _ => true) Run.anyEvent s'.m) (hclients : Clients a.workers semId s'.m.k)
    (hcont : ∀ p ∈ a.workers, Waiter (s'.m.cont p))
    (hsem : s'.m.k.sems semId = s.m.k.sems semId) (hnot : c ∉ (s.m.k.sems semId).waiting)
    (hcrit : w'.place.critical = (s.worker c).place.critical) : Sound a s' := by
  have hholders : s'.holders a = s.holders a := by
    obtain ⟨hself, hothers⟩ := mem_holders_update hf hc
    ext p
    rcases eq_or_ne p c with rfl | hne
    · rw [hself, mem_holders_iff, hsem, hcrit, and_iff_right hc]
    · rw [hothers p hne, mem_holders_iff, hsem]
  refine S.worked hc hinc hg hf hreach hclients hcont (fun p hp => ?_) ?_
  · rw [hsem] at hp
    have hne : p ≠ c := fun h => hnot (h ▸ hp)
    rw [hf, Function.update_of_ne hne]
    exact S.waiting p hp
  · rw [hholders, hsem]
    exact S.tokens

/-- The worker calls `syscall_sem_wait`. -/
theorem waits {m' : Machine} (S : Sound a s) (R : Running s.m c) (hc : c ∈ a.workers)
    (hready : c ∈ s.m.k.queue .ready)
    (hinc : myProcessInc (a.n c) (a.inc c) useSem coin (s.worker c) s.global = some (w', g', sc))
    (hplace : (s.worker c).place = .top) (hplace' : w'.place = .inside)
    (hs : s.m.step (.call off (.semWait semId)) = some m')
    (hcont : ∀ p ∈ a.workers, Waiter (m'.cont p)) :
    Sound a ⟨m', g', Function.update s.worker c w'⟩ := by
  have hnot := S.clients.not_waiting R.core hready
  obtain ⟨H', hresult⟩ := R.clientWaits S.clients (by decide) hc (Reach.allocs S.reach) hs
  have hupdate : (System.mk m' g' (Function.update s.worker c w')).worker =
      Function.update s.worker c w' := rfl
  obtain ⟨hself, hothers⟩ := mem_holders_update hupdate hc
  have hout : c ∉ s.holders a := fun h => by simp [mem_holders_iff, hplace, Place.critical] at h
  have hcrit : w'.place.critical = true := by rw [hplace']; rfl
  refine S.worked hc hinc rfl rfl (.snoc _ S.reach trivial hs) H' hcont (fun p hp => ?_) ?_
  · show (Function.update s.worker c w' p).place = .inside
    rcases eq_or_ne p c with rfl | hne
    · rw [Function.update_self]
      exact hplace'
    · rw [Function.update_of_ne hne]
      refine S.waiting p ?_
      rcases hresult with ⟨_, hw⟩ | ⟨_, _, hw⟩
      · exact hw ▸ hp
      · have hp : p ∈ (m'.k.sems semId).waiting := hp
        rw [hw, List.mem_append, List.mem_singleton] at hp
        exact hp.resolve_right hne
  · rcases hresult with ⟨hv, hw⟩ | ⟨hv, hv', hw⟩
    · -- it takes the token
      have hholders : System.holders a ⟨m', g', Function.update s.worker c w'⟩ =
          insert c (s.holders a) := by
        ext p
        rcases eq_or_ne p c with rfl | hne
        · have hnot' : p ∉ (m'.k.sems semId).waiting := hw ▸ hnot
          simp [hself, hcrit, hnot']
        · rw [hothers p hne, Finset.mem_insert, mem_holders_iff, or_iff_right hne]
          show _ ∧ _ ∧ p ∉ (m'.k.sems semId).waiting ↔ _
          rw [hw]
      have htokens := S.tokens
      rw [hholders, Finset.card_insert_of_notMem hout]
      rw [hv, Nat.add_right_comm] at htokens
      exact htokens
    · -- it joins the queue
      have hholders : System.holders a ⟨m', g', Function.update s.worker c w'⟩ =
          s.holders a := by
        ext p
        rcases eq_or_ne p c with rfl | hne
        · have hin : p ∈ (m'.k.sems semId).waiting := by simp [hw]
          exact iff_of_false (fun h => (hself.mp h).2 hin) hout
        · rw [hothers p hne, mem_holders_iff]
          show _ ∧ _ ∧ p ∉ (m'.k.sems semId).waiting ↔ _
          rw [hw, List.mem_append, List.mem_singleton, or_iff_left hne]
      rw [hholders]
      show (m'.k.sems semId).value + _ = 1
      rw [hv', ← hv]
      exact S.tokens

/-- The worker calls `syscall_sem_post`. -/
theorem posts {m' : Machine} (S : Sound a s) (R : Running s.m c) (hc : c ∈ a.workers)
    (hready : c ∈ s.m.k.queue .ready)
    (hinc : myProcessInc (a.n c) (a.inc c) useSem coin (s.worker c) s.global = some (w', g', sc))
    (hplace : (s.worker c).place = .stored) (hplace' : w'.place = .top)
    (hs : s.m.step (.call off (.semPost semId)) = some m')
    (hcont : ∀ p ∈ a.workers, Waiter (m'.cont p)) :
    Sound a ⟨m', g', Function.update s.worker c w'⟩ := by
  have hnot := S.clients.not_waiting R.core hready
  obtain ⟨H', hresult⟩ := R.clientPosts S.clients (by decide) hs
  have hupdate : (System.mk m' g' (Function.update s.worker c w')).worker =
      Function.update s.worker c w' := rfl
  obtain ⟨hself, hothers⟩ := mem_holders_update hupdate hc
  have hin : c ∈ s.holders a :=
    mem_holders_iff.mpr ⟨hc, by simp [hplace, Place.critical], hnot⟩
  have hout : c ∉ System.holders a ⟨m', g', Function.update s.worker c w'⟩ := fun h => by
    simp [hself, hplace', Place.critical] at h
  have hcard := Finset.card_erase_add_one hin
  have hsub : ∀ p ∈ (m'.k.sems semId).waiting, p ∈ (s.m.k.sems semId).waiting := by
    intro p hp
    rcases hresult with ⟨⟨x, hx⟩, _⟩ | ⟨_, hw', _⟩
    · exact hx ▸ List.mem_cons_of_mem x hp
    · rw [hw'] at hp
      cases hp
  refine S.worked hc hinc rfl rfl (.snoc _ S.reach trivial hs) H' hcont (fun p hp => ?_) ?_
  · have hne : p ≠ c := fun h => hnot (h ▸ hsub p hp)
    show (Function.update s.worker c w' p).place = .inside
    rw [Function.update_of_ne hne]
    exact S.waiting p (hsub p hp)
  · rcases hresult with ⟨⟨x, hx⟩, hv⟩ | ⟨hw, hw', hv⟩
    · -- the token goes to the client it wakes
      have hxin : x ∈ (s.m.k.sems semId).waiting := hx ▸ List.mem_cons_self
      have hxc : x ≠ c := fun h => hnot (h ▸ hxin)
      have hxnot : x ∉ (m'.k.sems semId).waiting :=
        (List.nodup_cons.mp (hx ▸ S.clients.nodup)).1
      have hxold : x ∉ (s.holders a).erase c := fun h =>
        (mem_holders_iff.mp (Finset.mem_of_mem_erase h)).2.2 hxin
      have hholders : System.holders a ⟨m', g', Function.update s.worker c w'⟩ =
          insert x ((s.holders a).erase c) := by
        ext p
        rcases eq_or_ne p c with rfl | hne
        · exact iff_of_false hout (by simp [hxc.symm])
        · rw [hothers p hne, Finset.mem_insert, Finset.mem_erase, mem_holders_iff,
            and_iff_right hne, hx, List.mem_cons]
          rcases eq_or_ne p x with rfl | hpx
          · have hcrit : (s.worker p).place.critical = true := by rw [S.waiting p hxin]; rfl
            simp [hcrit, hxnot, (S.clients.asleep p hxin).1]
          · simp [hpx]
      rw [hholders, Finset.card_insert_of_notMem hxold, hcard]
      exact hv ▸ S.tokens
    · -- nobody waits, and the token goes back
      have hholders : System.holders a ⟨m', g', Function.update s.worker c w'⟩ =
          (s.holders a).erase c := by
        ext p
        rcases eq_or_ne p c with rfl | hne
        · exact iff_of_false hout (Finset.notMem_erase p _)
        · rw [hothers p hne, Finset.mem_erase, mem_holders_iff, and_iff_right hne, hw]
          show _ ∧ _ ∧ p ∉ (m'.k.sems semId).waiting ↔ _
          rw [hw']
      have htokens := S.tokens
      rw [hholders]
      show (m'.k.sems semId).value + _ = 1
      have hzero : (s.m.k.sems semId).value = 0 := by omega
      rw [hv, hzero]
      omega

/-- A step of a worker. -/
theorem worker (S : Sound a s) (hsem : a.useSem = true) (hok : Apart a s (.worker off coin))
    (h : s.step a (.worker off coin) = some s') : Sound a s' := by
  have hapart := hok s' h
  simp only [System.step] at h
  split at h
  · next hcalls =>
    obtain ⟨c, R⟩ := S.running
    obtain ⟨E, hready, hcpu⟩ := R.executing hcalls.1
    have hW : c ∈ a.workers := hcpu ▸ hcalls.2
    have hnot := S.clients.not_waiting R.core hready
    obtain ⟨⟨w', g', sc⟩, hinc, h⟩ := Option.bind_eq_some_iff.mp h
    rw [hcpu, hsem] at hinc
    rw [hcpu] at hapart h
    -- the stacks after a call
    have hconts : ∀ {call m'}, s.m.step (.call off call) = some m' →
        call = .yield ∨ call = .exit 0 ∨ call = .semWait semId ∨ call = .semPost semId →
        ∀ p ∈ a.workers, Waiter (m'.cont p) := by
      intro call m' hs hcall p hp
      obtain ⟨d, hd, hcont⟩ := call_cont hs hcall
      rw [hcont]
      rcases eq_or_ne p s.m.cpu with rfl | hne
      · rw [Function.update_self]
        exact hd
      · rw [Function.update_of_ne hne]
        exact S.cont p hp
    rcases myProcessInc_cases hinc with ⟨htop, hinside, rfl⟩ | ⟨hstored, htop, rfl⟩ |
      ⟨hsync, hcrit, hcall⟩
    · obtain ⟨m', hs, h⟩ := Option.bind_eq_some_iff.mp h
      cases h
      exact S.waits R hW hready hinc htop hinside hs (hconts hs (by simp))
    · obtain ⟨m', hs, h⟩ := Option.bind_eq_some_iff.mp h
      cases h
      exact S.posts R hW hready hinc hstored htop hs (hconts hs (by simp))
    · cases sc with
      | none =>
        cases h
        exact S.worked_apart hW hinc rfl rfl S.reach S.clients S.cont rfl hnot hcrit
      | some call =>
        obtain ⟨m', hs, h⟩ := Option.bind_eq_some_iff.mp h
        cases h
        have hb : Bypasses semId s.m.k m'.k :=
          hapart.resolve_left fun h => Bool.false_ne_true (hsync.symm.trans h)
        have hkind := hcall call rfl
        refine S.worked_apart hW hinc rfl rfl (.snoc _ S.reach trivial hs)
          (R.bypass S.clients hs hb ?_ ?_) (hconts hs (by rcases hkind with h | h <;> simp [h]))
          hb.sem hnot hcrit
        · rintro p hp ⟨_, htarget⟩
          refine hnot ?_
          rcases hkind with rfl | rfl
          · cases htarget
          · rw [← getCurrentPid_eq E.current, Option.some.inj htarget]
            exact hp
        · intro p _ i q hadmits
          rcases hadmits.sleeper.2 with ⟨_, he⟩ | ⟨_, _, he, hpause⟩
          · cases he
          · cases he
            rcases hkind with rfl | rfl <;> exact hpause
  · cases h

end Sound

/-! ## Runs -/

/-- Who waits for a semaphore has been created. -/
theorem waits_known {allocs : Nat → Bool} {m : Machine} {id : Int}
    (h : Reach allocs Run.anyEvent m) (hw : m.k.WaitsFor id p) : p < m.k.nextPid := by
  refine h.kernel (P := fun k => ∀ id p, k.WaitsFor id p → p < k.nextPid)
    (fun _ _ h => absurd h boot_waitsFor) ?_ ?_ id p hw
  · intro _ _ _ l k k' _ _ _ C hk he i q hq
    rcases he.waitsFor hq with hq | rfl
    · exact Int.lt_of_lt_of_le (hk i q hq) he.nextPid_le
    · refine Int.lt_of_lt_of_le ?_ he.nextPid_le
      cases he with
      | sleep _ _ _ _ hready => exact C.lt_nextPid hready
  · intro _ _ _ _ _ _ _ hk S i q hq
    rw [S.rest.nextPid]
    exact hk i q (S.waitsFor.mp hq)

theorem Start.sound (h : Start a s) : Sound a s := by
  have hwaiting : (s.m.k.sems semId).waiting = [] := by rw [h.sem]; rfl
  obtain ⟨c, R⟩ : ∃ c, Running s.m c := by
    refine h.reach.cases.resolve_left fun hboot => ?_
    have hused : (s.m.k.sems semId).used = true := by rw [h.sem]
    rw [hboot] at hused
    cases hused
  have hphase : ∀ p, (s.counter a).phase p = .outside := by
    intro p
    show (if p ∈ a.workers then (s.worker p).place.adding else _) = _
    split
    · next hp => rw [h.worker p hp]; rfl
    · rfl
  refine ⟨h.reach, fun p hp => Int.le_trans R.core.nextPid (h.fresh p hp), ?_,
    fun p hp => .inl (R.fresh p (h.fresh p hp)), fun p hp => ?_, ?_, fun p hp => ?_, ?_, ?_⟩
  · refine ⟨by rw [h.sem], by rw [h.sem]; rfl, by rw [hwaiting]; exact List.nodup_nil,
      fun p hp => ?_, fun p hp i hw => ?_⟩
    · rw [hwaiting] at hp
      cases hp
    · exact absurd (waits_known h.reach hw) (Int.not_lt.mpr (h.fresh p hp))
  · rw [hwaiting] at hp
    cases hp
  · have hnone : s.holders a = ∅ := by
      refine Finset.filter_eq_empty_iff.mpr fun p hp hcrit => ?_
      rw [h.worker p hp] at hcrit
      cases hcrit.1
    rw [hnone, h.sem]
    rfl
  · rw [h.worker p hp]
    exact fun h => nomatch h
  · refine ⟨fun p b hp => ?_, fun p b hp => ?_⟩
    · cases (hphase p).symm.trans hp
    · cases (hphase p).symm.trans hp
  · show s.global + ∑ p ∈ a.workers, (s.worker p).todo (a.n p) • a.inc p = _
    rw [h.global, zero_add]
    exact Finset.sum_congr rfl fun p hp => by rw [h.worker p hp]; rfl

theorem Sound.run (h : Start a s) (hsem : a.useSem = true)
    (hrun : Run (System.step a) (Apart a) s s') : Sound a s' := by
  refine hrun.invariant h.sound fun S hok hs => ?_
  rename_i mv
  cases mv with
  | kernel e => exact S.kernel hok hs
  | worker off coin => exact S.worker hsem hok hs

/-- In every interleaving at most one worker has the token, and `global` is the sum of what has
been added. -/
theorem reach_testSync (h : Start a s) (hsem : a.useSem = true)
    (hrun : Run (System.step a) (Apart a) s s') :
    (∀ p ∈ s'.holders a, ∀ q ∈ s'.holders a, p = q) ∧
      s'.global + ∑ p ∈ a.workers, (s'.worker p).todo (a.n p) • a.inc p =
        ∑ p ∈ a.workers, a.n p • a.inc p :=
  have S := Sound.run h hsem hrun
  ⟨fun _ hp _ hq => S.exclusive hp hq, S.owed⟩

/-- When the workers have returned, nothing is missing. -/
theorem Sound.final (S : Sound a s) (hover : ∀ p ∈ a.workers, (s.worker p).place = .ended) :
    s.global = ∑ p ∈ a.workers, a.n p • a.inc p := by
  have hdone : ∀ p ∈ a.workers, (s.counter a).todo p = 0 := by
    intro p hp
    have hloop := S.inLoop p hp
    rw [Worker.InLoop, hover p hp] at hloop
    show (s.worker p).todo (a.n p) = 0
    rw [Worker.todo, hover p hp]
    exact Nat.sub_eq_zero_of_le (hloop rfl)
  rw [← S.owed, Counter.owed_done hdone]
  rfl

/-- The workers of `test_sync`: as many that subtract 1 as add 1. -/
def pairs (d u : List Pid) (n : Nat) : Args where
  workers := (d ++ u).toFinset
  n := fun _ => n
  inc := fun p => if p ∈ d then -1 else 1
  useSem := true

theorem pairs_sum {d u : List Pid} (hnd : (d ++ u).Nodup) (hlen : d.length = u.length) :
    ∑ p ∈ (pairs d u n).workers, (pairs d u n).n p • (pairs d u n).inc p = 0 := by
  have hdec : ∀ p ∈ d, n • (pairs d u n).inc p = n • (-1 : BitVec 64) := fun p hp =>
    congrArg (n • ·) (if_pos hp)
  have hinc : ∀ p ∈ u, n • (pairs d u n).inc p = n • (1 : BitVec 64) := fun p hp =>
    congrArg (n • ·) (if_neg fun h => List.disjoint_of_nodup_append hnd h hp)
  calc ∑ p ∈ (d ++ u).toFinset, n • (pairs d u n).inc p
      = (d.map fun p => n • (pairs d u n).inc p).sum +
          (u.map fun p => n • (pairs d u n).inc p).sum := by
        rw [List.sum_toFinset _ hnd, List.map_append, List.sum_append]
    _ = d.length • n • (-1 : BitVec 64) + u.length • n • (1 : BitVec 64) := by
        rw [List.map_congr_left hdec, List.map_congr_left hinc, List.map_const', List.map_const',
          List.sum_replicate, List.sum_replicate]
    _ = 0 := by
        rw [hlen, ← nsmul_add, ← nsmul_add, neg_add_cancel, nsmul_zero, nsmul_zero]

/-- `test_sync` prints 0. -/
theorem reach_testSync_final {d u : List Pid} (hnd : (d ++ u).Nodup)
    (hlen : d.length = u.length) (h : Start (pairs d u n) s)
    (hrun : Run (System.step (pairs d u n)) (Apart (pairs d u n)) s s')
    (hover : ∀ p ∈ d ++ u, (s'.worker p).place = .ended) : s'.global = 0 := by
  rw [(Sound.run h rfl hrun).final fun p hp => hover p (List.mem_toFinset.mp hp)]
  exact pairs_sum hnd hlen

/-- The shell opens the semaphore. -/
def openSem : List Event := [.tick 0, .call 0 (.semOpen semId 1)]

/-- It creates two workers and yields, twice to itself; the second worker has to wait for the
first, which yields in `slowInc`. -/
def twoWorkers : List Move :=
  [.kernel (.call 0 (.createProcess backgroundArgs)),
    .kernel (.call 0 (.createProcess backgroundArgs)),
    .kernel (.call 0 .yield), .kernel (.resume 0), .kernel (.call 0 .yield), .worker 0 true,
    .worker 0 true, .worker 0 true, .worker 0 false, .kernel (.resume 0), .kernel (.call 0 .yield),
    .kernel (.resume 0), .worker 0 true, .worker 0 true, .kernel (.resume 0),
    .kernel (.call 0 .yield), .kernel (.resume 0), .worker 0 true, .worker 0 true, .worker 0 true,
    .kernel (.resume 0), .kernel (.call 0 .yield), .kernel (.resume 0), .kernel (.resume 0),
    .worker 0 false, .worker 0 false, .worker 0 false, .worker 0 false, .worker 0 false,
    .worker 0 false, .worker 0 false]

/-- What `test_sync` starts from. -/
def opened (m : Machine) : System := ⟨m, 0, fun _ => ⟨0, .top⟩⟩

theorem opened_start {m : Machine} (h : Reach (fun _ => true) Run.anyEvent m)
    (hsem : m.k.sems semId = ⟨1, false, true, .live []⟩)
    (hfresh : ∀ p ∈ a.workers, m.k.nextPid ≤ p) : Start a (opened m) :=
  ⟨h, hsem, hfresh, rfl, fun _ _ => rfl⟩

theorem twoWorkers_run : ∃ s s' : System, Start (pairs [2] [3] 1) s ∧
    Run (System.step (pairs [2] [3] 1)) (Apart (pairs [2] [3] 1)) s s' ∧
      (s'.worker 2).place = .ended ∧ (s'.worker 3).place = .ended := by
  obtain ⟨m, _, hm, hsem, hnext, hrun⟩ : ∃ m,
      Run.exec Machine.step Run.anyEvent (boot fun _ => true) openSem = some m ∧
        Reach (fun _ => true) Run.anyEvent m ∧
          m.k.sems semId = ⟨1, false, true, .live []⟩ ∧ m.k.nextPid ≤ 2 ∧
            (Run.exec (System.step (pairs [2] [3] 1)) (Apart (pairs [2] [3] 1)) (opened m)
              twoWorkers).any (fun s => decide ((s.worker 2).place = .ended ∧
                (s.worker 3).place = .ended)) = true := Run.exists_exec (by decide +kernel)
  obtain ⟨s', _, hs', hover⟩ := Run.exists_exec hrun
  refine ⟨opened m, s', opened_start hm hsem fun p hp => ?_, hs', hover⟩
  have hp : p = 2 ∨ p = 3 := by simpa [pairs] using hp
  exact Int.le_trans hnext (by rcases hp with rfl | rfl <;> decide)

theorem reach_testSync_two : ∃ s s' : System, Start (pairs [2] [3] 1) s ∧
    Run (System.step (pairs [2] [3] 1)) (Apart (pairs [2] [3] 1)) s s' ∧
    (s'.worker 2).place = .ended ∧
    (∀ p ∈ s'.holders (pairs [2] [3] 1), ∀ q ∈ s'.holders (pairs [2] [3] 1), p = q) := by
  obtain ⟨s, s', hs, hrun, hover, _⟩ := twoWorkers_run
  exact ⟨s, s', hs, hrun, hover, (reach_testSync hs rfl hrun).1⟩

theorem reach_testSync_final_two : ∃ s s' : System, Start (pairs [2] [3] 1) s ∧
    Run (System.step (pairs [2] [3] 1)) (Apart (pairs [2] [3] 1)) s s' ∧
    (s'.worker 2).place = .ended ∧ (s'.worker 3).place = .ended ∧ s'.global = 0 := by
  obtain ⟨s, s', hs, hrun, h2, h3⟩ := twoWorkers_run
  refine ⟨s, s', hs, hrun, h2, h3, ?_⟩
  refine reach_testSync_final (d := [2]) (u := [3]) (by decide) rfl hs hrun ?_
  exact List.forall_mem_cons.mpr ⟨h2, List.forall_mem_singleton.mpr h3⟩

end

end SoKernel.TestSync
