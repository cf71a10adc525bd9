import SoKernel.Kernel.Nodes
import Mathlib.Algebra.Order.Group.Multiset
import Mathlib.Tactic.Abel

/-!
# Moves that keep the process

The node that `remove` or `dequeue` has freed is the room for the node `enqueue` asks for,
if the allocator refills.

Results:
1. `Refills.enqueue`, `Refills.release`: what the operations of `queue.c` do to the queues
   and to the chunks held.
2. `Refills.switch`, `Refills.rotate`: moves and rotations end with the process in its queue.
3. `Lossless`, `Reach.lossless`: so it is in every state reached, and the queues follow those
   of the kernel model, whose moves never fail.
-/

namespace SoKernel

universe u v

namespace NodeQueues

open Allocator

variable {σ : Type u} {ε : Type v} {A : Allocator σ ε} {holds : σ → Multiset Chunk → Prop}
  {spare : σ → Prop} {admits : σ → Multiset Chunk → ε → Prop} {h h' : NodeQueues σ}
  {q queueFrom queueTo : QueueName} {pid : Pid} {n : Node} {l before after : List Node} {ok : Bool}

/-! ## What the queues hold -/

/-- The record of a queue and its nodes. -/
def queueChunks (h : NodeQueues σ) (q : QueueName) : Multiset Chunk :=
  h.recordChunk q ::ₘ ((h.nodes q).map Node.chunk : List Chunk)

/-- All that the queues hold of the heap. -/
def chunks (h : NodeQueues σ) : Multiset Chunk :=
  h.queueChunks .ready + h.queueChunks .blocked + h.queueChunks .blockedBySem +
    h.queueChunks .zombie

theorem mem_chunks {c : Chunk} (hc : c ∈ h.queueChunks q) : c ∈ h.chunks := by
  simp only [chunks, Multiset.mem_add]
  cases q <;> simp only [hc, true_or, or_true]

theorem recordChunk_mem : h.recordChunk q ∈ h.chunks := mem_chunks (Multiset.mem_cons_self _ _)

theorem chunk_mem (hn : n ∈ h.nodes q) : n.chunk ∈ h.chunks :=
  mem_chunks (Multiset.mem_cons_of_mem (Multiset.mem_coe.mpr (List.mem_map_of_mem hn)))

theorem chunks_setNodes (h : NodeQueues σ) (q : QueueName) (l : List Node) :
    (h.setNodes q l).chunks + ((h.nodes q).map Node.chunk : List Chunk) =
      h.chunks + (l.map Node.chunk : List Chunk) := by
  cases q <;>
    simp only [chunks, queueChunks, setNodes, recordChunk, Function.update_self, ne_eq,
      reduceCtorEq, not_false_eq_true, Function.update_of_ne, ← Multiset.singleton_add] <;>
    abel

theorem chunks_insert (h : NodeQueues σ) (q : QueueName) (n : Node) :
    (h.setNodes q (h.nodes q ++ [n])).chunks = n.chunk ::ₘ h.chunks := by
  have hset := chunks_setNodes h q (h.nodes q ++ [n])
  rw [List.map_append, ← Multiset.coe_add, ← add_assoc, add_right_comm] at hset
  rw [add_right_cancel hset, add_comm]
  rfl

theorem chunks_unlink (hl : h.nodes q = before ++ n :: after) :
    h.chunks = n.chunk ::ₘ (h.setNodes q (before ++ after)).chunks := by
  have hset := chunks_setNodes h q (before ++ after)
  have hperm : ((h.nodes q).map Node.chunk : Multiset Chunk) =
      n.chunk ::ₘ ((before ++ after).map Node.chunk : List Chunk) := by
    rw [hl, Multiset.cons_coe, Multiset.coe_eq_coe]
    exact List.perm_middle.map Node.chunk
  rw [hperm, ← Multiset.singleton_add, ← add_assoc] at hset
  rw [← add_right_cancel hset, ← Multiset.singleton_add, add_comm]

@[simp] theorem touch_nodes (ts : List Chunk) : (h.touch A ts).nodes = h.nodes := rfl

@[simp] theorem touch_pids (ts : List Chunk) : (h.touch A ts).pids = h.pids := rfl

@[simp] theorem touch_chunks (ts : List Chunk) : (h.touch A ts).chunks = h.chunks := rfl

theorem setNodes_pids (h : NodeQueues σ) (q : QueueName) (l : List Node) :
    (h.setNodes q l).pids = Function.update h.pids q (l.map Node.data) := by
  funext x
  rcases eq_or_ne x q with rfl | hx
  · simp only [pids, setNodes, Function.update_self]
  · simp only [pids, setNodes, Function.update_of_ne hx]

/-- The allocator agrees that the queues hold their chunks. -/
def Held (holds : σ → Multiset Chunk → Prop) (h : NodeQueues σ) : Prop := holds h.mem h.chunks

theorem Held.touch (R : A.Refills sizeofNode holds spare admits) (hh : h.Held holds)
    {ts : List Chunk} (ht : ∀ t ∈ ts, t ∈ h.chunks) : (h.touch A ts).Held holds :=
  R.touches hh ht

/-! ## The operations of `queue.c` -/

/-- `enqueue` is defined. It fails without a change of the queues, and not when there is room. -/
theorem Held.enqueue (R : A.Refills sizeofNode holds spare admits) (hh : h.Held holds)
    (q : QueueName) (pid : Pid) :
    ∃ h' ok, h.enqueue A q pid = some (h', ok) ∧ h'.Held holds ∧ (spare h.mem → ok = true) ∧
      h'.pids = if ok then Function.update h.pids q (h.pids q ++ [pid]) else h.pids := by
  obtain ⟨mem, r, ha, hr⟩ := R.alloc hh
  cases r with
  | none =>
    refine ⟨{ h with mem := mem }, false, ?_, hr, fun hs => absurd ha (R.answers hh hs), rfl⟩
    simp only [NodeQueues.enqueue, ha, Option.bind_eq_bind, Option.bind_some]
  | some a =>
    let h1 : NodeQueues σ := { h with mem := mem }
    have hheld : (h1.setNodes q (h1.nodes q ++ [⟨a, pid⟩])).Held holds := by
      rw [Held, chunks_insert]
      exact hr
    refine ⟨_, true, by
      simp only [NodeQueues.enqueue, ha, Option.bind_eq_bind, Option.bind_some]
      rfl, hheld.touch R ?_, fun _ => rfl, ?_⟩
    · -- the new node, the old rear and the record are held
      intro t ht
      rw [List.mem_append, List.mem_cons, List.mem_singleton, List.mem_map] at ht
      rcases ht with (rfl | ⟨x, hx, rfl⟩) | rfl
      · rw [chunks_insert]
        exact Multiset.mem_cons_self _ _
      · rw [chunks_insert]
        exact Multiset.mem_cons_of_mem (chunk_mem (List.mem_of_getLast? (Option.mem_toList.mp hx)))
      · exact recordChunk_mem (h := h1.setNodes q _)
    · rw [touch_pids, setNodes_pids, if_pos rfl, List.map_append]
      rfl

/-- A node that is linked out gives its room back. -/
theorem Held.release (R : A.Refills sizeofNode holds spare admits) (hh : h.Held holds)
    {ts : List Chunk} (ht : ∀ t ∈ ts, t ∈ h.chunks) (hl : h.nodes q = before ++ n :: after) :
    ∃ h', ((h.touch A ts).setNodes q (before ++ after)).release A q n = some (h', some n.data) ∧
      h'.Held holds ∧ spare h'.mem ∧
      h'.pids = Function.update h.pids q ((before ++ after).map Node.data) := by
  have h1 : holds (ts.foldl A.touch h.mem)
      (n.chunk ::ₘ (h.setNodes q (before ++ after)).chunks) := by
    rw [← chunks_unlink hl]
    exact R.touches hh ht
  obtain ⟨mem, hfree, h2, hs⟩ := R.free h1 rfl
  have hrec : h.recordChunk q ∈ (h.setNodes q (before ++ after)).chunks :=
    recordChunk_mem (h := h.setNodes q _)
  have hone : ∀ t ∈ [h.recordChunk q], t ∈ (h.setNodes q (before ++ after)).chunks :=
    fun t ht => List.mem_singleton.mp ht ▸ hrec
  let h1 : NodeQueues σ := { h.setNodes q (before ++ after) with mem := mem }
  have hheld : (h1.touch A [h.recordChunk q]).Held holds := R.touches h2 hone
  exact ⟨_, Option.bind_eq_some_iff.mpr ⟨mem, hfree, rfl⟩, hheld, R.touches_spare h2 hone hs,
    setNodes_pids h q (before ++ after)⟩

theorem locate_of_mem (hp : pid ∈ l.map Node.data) :
    ∃ before n after, locate pid l = some (before, n, after) ∧ l = before ++ n :: after ∧
      n.data = pid ∧ (before ++ after).map Node.data = (l.map Node.data).erase pid := by
  induction l with
  | nil => exact absurd hp List.not_mem_nil
  | cons current rest ih =>
    rcases eq_or_ne current.data pid with hc | hc
    · exact ⟨[], current, rest, if_pos hc, rfl, hc, by simp [hc]⟩
    · have hrest : pid ∈ rest.map Node.data := (List.mem_cons.mp hp).resolve_left hc.symm
      obtain ⟨before, n, after, hloc, hl, hn, herase⟩ := ih hrest
      refine ⟨current :: before, n, after, ?_, congrArg (current :: ·) hl, hn, ?_⟩
      · rw [locate, if_neg hc, hloc]
        rfl
      · rw [List.cons_append, List.map_cons, List.map_cons, herase,
          List.erase_cons_tail (by simpa using hc)]

theorem locate_of_not_mem (hp : pid ∉ l.map Node.data) : locate pid l = none := by
  induction l with
  | nil => rfl
  | cons current rest ih =>
    rw [List.map_cons, List.mem_cons, not_or] at hp
    rw [locate, if_neg (Ne.symm hp.1), ih hp.2]
    rfl

theorem remove_absent (hp : pid ∉ h.pids q) : h.remove A q pid = some (h, none) := by
  rw [NodeQueues.remove, locate_of_not_mem hp]

theorem Held.remove (R : A.Refills sizeofNode holds spare admits) (hh : h.Held holds)
    (hp : pid ∈ h.pids q) :
    ∃ h', h.remove A q pid = some (h', some pid) ∧ h'.Held holds ∧ spare h'.mem ∧
      h'.pids = Function.update h.pids q ((h.pids q).erase pid) := by
  obtain ⟨before, n, after, hloc, hl, hn, herase⟩ := locate_of_mem hp
  have hlinks : ∀ t ∈ (before.getLast?.map Node.chunk).getD (h.recordChunk q) ::
      (if after.isEmpty then [h.recordChunk q] else []), t ∈ h.chunks := by
    intro t ht
    rcases List.mem_cons.mp ht with rfl | ht
    · cases hlast : before.getLast? with
      | none => exact recordChunk_mem
      | some previous =>
        have hmem : previous ∈ h.nodes q :=
          hl ▸ List.mem_append_left _ (List.mem_of_getLast? hlast)
        exact chunk_mem hmem
    · split at ht
      · exact List.mem_singleton.mp ht ▸ recordChunk_mem
      · exact absurd ht List.not_mem_nil
  obtain ⟨h', hr, hh', hs, hpids⟩ := hh.release R hlinks hl
  refine ⟨h', ?_, hh', hs, hpids.trans (by rw [herase]; rfl)⟩
  rw [NodeQueues.remove, hloc]
  exact hn ▸ hr

theorem Held.dequeue (R : A.Refills sizeofNode holds spare admits) (hh : h.Held holds)
    (hl : h.nodes q = [] ++ n :: after) :
    ∃ h', h.dequeue A q = some (h', some n.data) ∧ h'.Held holds ∧ spare h'.mem ∧
      h'.pids = Function.update h.pids q (after.map Node.data) := by
  have hone : ∀ t ∈ [h.recordChunk q], t ∈ h.chunks :=
    fun t ht => List.mem_singleton.mp ht ▸ recordChunk_mem
  obtain ⟨h', hr, hrest⟩ := hh.release R hone hl
  refine ⟨h', ?_, hrest⟩
  rw [NodeQueues.dequeue, hl]
  exact hr

/-! ## Moves and rotations -/

/-- The queues after a process has gone from one to the end of another. -/
def moved (pids : QueueName → List Pid) (queueFrom queueTo : QueueName) (pid : Pid) :
    QueueName → List Pid :=
  let rest := Function.update pids queueFrom ((pids queueFrom).erase pid)
  Function.update rest queueTo (rest queueTo ++ [pid])

/-- `enqueue` gets its node when there is room. -/
theorem Held.enqueue_spare (R : A.Refills sizeofNode holds spare admits) (hh : h.Held holds)
    (hs : spare h.mem) (q : QueueName) (pid : Pid) :
    ∃ h', h.enqueue A q pid = some (h', true) ∧ h'.Held holds ∧
      h'.pids = Function.update h.pids q (h.pids q ++ [pid]) := by
  obtain ⟨h', ok, he, hh', hok, hpids⟩ := hh.enqueue R q pid
  obtain rfl := hok hs
  exact ⟨h', he, hh', hpids⟩

/-- The process arrives: the node that `remove` frees is there for `enqueue`. -/
theorem Held.switch (R : A.Refills sizeofNode holds spare admits) (hh : h.Held holds)
    (hp : pid ∈ h.pids queueFrom) (queueTo : QueueName) :
    ∃ h', h.switchProcessFromQueues A queueFrom queueTo pid = some (h', some pid) ∧
      h'.Held holds ∧ h'.pids = moved h.pids queueFrom queueTo pid := by
  obtain ⟨h1, hr, hh1, hs, hp1⟩ := hh.remove R hp
  obtain ⟨h2, he, hh2, hp2⟩ := hh1.enqueue_spare R hs queueTo pid
  refine ⟨h2, ?_, hh2, by rw [hp2, hp1]; rfl⟩
  simp only [NodeQueues.switchProcessFromQueues, hr, he, Option.bind_eq_bind, Option.bind_some]

theorem switch_absent (hp : pid ∉ h.pids queueFrom) :
    h.switchProcessFromQueues A queueFrom queueTo pid = some (h, none) := by
  simp only [NodeQueues.switchProcessFromQueues, remove_absent hp, Option.bind_eq_bind,
    Option.bind_some]

/-- The front of the ready queue goes to its end. -/
theorem Held.rotate (R : A.Refills sizeofNode holds spare admits) (hh : h.Held holds)
    (idle : Option Pid) {next : Pid} {rest : List Pid} (hp : h.pids .ready = next :: rest) :
    ∃ h', h.getNextProcess A idle = some (h', some next) ∧ h'.Held holds ∧
      h'.pids = Function.update h.pids .ready (rest ++ [next]) := by
  obtain ⟨n, after, hl, rfl, rfl⟩ := List.map_eq_cons_iff.mp hp
  obtain ⟨h1, hd, hh1, hs, hp1⟩ := hh.dequeue R hl
  obtain ⟨h2, he, hh2, hp2⟩ := hh1.enqueue_spare R hs .ready n.data
  refine ⟨h2, ?_, hh2, by rw [hp2, hp1, Function.update_idem, Function.update_self]⟩
  have hne : h.nodes .ready ≠ [] := by rw [hl]; exact List.cons_ne_nil _ _
  simp only [NodeQueues.getNextProcess, if_neg hne, hd, he, Option.bind_eq_bind, Option.bind_some,
    if_true]

/-! ## The functions that move one process -/

/-- The queue a function finds the process in. -/
def Mover.source (pids : QueueName → List Pid) (pid : Pid) : Mover → Option QueueName
  | .block =>
    if pid ∉ pids .blockedBySem ∧ pid ∈ pids .ready then some .ready else none
  | .blockBySem => if pid ∈ pids .ready then some .ready else none
  | .unblock => if pid ∈ pids .blocked then some .blocked else none
  | .unblockBySem => if pid ∈ pids .blockedBySem then some .blockedBySem else none
  | .kill =>
    if pid ∈ pids .ready then some .ready
    else if pid ∈ pids .blocked then some .blocked
    else if pid ∈ pids .blockedBySem then some .blockedBySem
    else none

/-- The queues after the function. -/
def Mover.result (pids : QueueName → List Pid) (pid : Pid) (m : Mover) : QueueName → List Pid :=
  match m.source pids pid with
  | none => pids
  | some queueFrom => moved pids queueFrom m.target pid

/-- The function of the kernel model. -/
def Mover.onKernel (k : Kernel) (pid : Pid) (ret : Nat) (state : State) :
    Mover → Option (Kernel × Bool)
  | .block => SoKernel.blockProcessQueue k pid
  | .blockBySem => SoKernel.blockProcessQueueBySem k pid
  | .unblock => SoKernel.unblockProcessQueue k pid
  | .unblockBySem => SoKernel.unblockProcessQueueBySem k pid
  | .kill => SoKernel.killProcess k pid ret state

theorem moved_mem (pids : QueueName → List Pid) : pid ∈ moved pids queueFrom queueTo pid queueTo := by
  simp [moved]

theorem Held.move (R : A.Refills sizeofNode holds spare admits) (hh : h.Held holds)
    (hp : pid ∈ h.pids queueFrom) (queueTo : QueueName) :
    ∃ h', h.move A queueFrom queueTo pid = some (h', true) ∧ h'.Held holds ∧
      h'.pids = moved h.pids queueFrom queueTo pid := by
  obtain ⟨h', hs, hrest⟩ := hh.switch R hp queueTo
  refine ⟨h', ?_, hrest⟩
  simp only [NodeQueues.move, hs, Option.bind_eq_bind, Option.bind_some, Option.isSome_some]

theorem move_absent (hp : pid ∉ h.pids queueFrom) :
    h.move A queueFrom queueTo pid = some (h, false) := by
  simp only [NodeQueues.move, switch_absent hp, Option.bind_eq_bind, Option.bind_some,
    Option.isSome_none]

/-- Every such function is defined, and the process is where it is to be if it was found. -/
theorem Held.run (R : A.Refills sizeofNode holds spare admits) (hh : h.Held holds) (m : Mover)
    (pid : Pid) :
    ∃ h', m.run A h pid = some (h', (m.source h.pids pid).isSome) ∧ h'.Held holds ∧
      h'.pids = m.result h.pids pid := by
  -- a move is all there is to do, or nothing is
  have found : ∀ {queueFrom}, m.source h.pids pid = some queueFrom → pid ∈ h.pids queueFrom →
      m.run A h pid = h.move A queueFrom m.target pid → ∃ h',
        m.run A h pid = some (h', (m.source h.pids pid).isSome) ∧ h'.Held holds ∧
        h'.pids = m.result h.pids pid := by
    intro queueFrom hsource hp hrun
    obtain ⟨h', hm, hh', hpids⟩ := hh.move R hp m.target
    refine ⟨h', by rw [hrun, hm, hsource]; rfl, hh', hpids.trans ?_⟩
    rw [Mover.result, hsource]
  have absent : m.source h.pids pid = none → m.run A h pid = some (h, false) → ∃ h',
      m.run A h pid = some (h', (m.source h.pids pid).isSome) ∧ h'.Held holds ∧
      h'.pids = m.result h.pids pid := by
    intro hsource hrun
    exact ⟨h, by rw [hrun, hsource]; rfl, hh, by rw [Mover.result, hsource]⟩
  cases m with
  | block =>
    by_cases hsem : pid ∈ h.pids .blockedBySem
    · exact absent (if_neg fun hn => hn.1 hsem) (if_pos hsem)
    · by_cases hr : pid ∈ h.pids .ready
      · refine found (if_pos ⟨hsem, hr⟩) hr ?_
        rw [Mover.run, blockProcessQueue, if_neg hsem, if_neg (not_not.mpr hr)]
        rfl
      · refine absent (if_neg fun hn => hr hn.2) ?_
        rw [Mover.run, blockProcessQueue, if_neg hsem, if_pos hr]
  | blockBySem =>
    by_cases hp : pid ∈ h.pids .ready
    · exact found (if_pos hp) hp rfl
    · exact absent (if_neg hp) (move_absent hp)
  | unblock =>
    by_cases hp : pid ∈ h.pids .blocked
    · exact found (if_pos hp) hp rfl
    · exact absent (if_neg hp) (move_absent hp)
  | unblockBySem =>
    by_cases hp : pid ∈ h.pids .blockedBySem
    · exact found (if_pos hp) hp rfl
    · exact absent (if_neg hp) (move_absent hp)
  | kill =>
    rcases em (pid ∈ h.pids .ready) with hr | hr
    · refine found (if_pos hr) hr ?_
      obtain ⟨h', hm, _⟩ := hh.move R hr .zombie
      simp [Mover.run, Mover.target, NodeQueues.killProcess, hm]
    rcases em (pid ∈ h.pids .blocked) with hb | hb
    · refine found (by rw [Mover.source, if_neg hr, if_pos hb]) hb ?_
      obtain ⟨h', hm, _⟩ := hh.move R hb .zombie
      simp [Mover.run, Mover.target, NodeQueues.killProcess, move_absent hr, hm]
    have hrun : Mover.run A h pid .kill = h.move A .blockedBySem .zombie pid := by
      simp [Mover.run, NodeQueues.killProcess, move_absent hr, move_absent hb]
    rcases em (pid ∈ h.pids .blockedBySem) with hs | hs
    · exact found (by rw [Mover.source, if_neg hr, if_neg hb, if_pos hs]) hs hrun
    · exact absent (by rw [Mover.source, if_neg hr, if_neg hb, if_neg hs])
        (hrun.trans (move_absent hs))

/-! ## The kernel model -/

section

variable {k k' : Kernel} {ret : Nat} {state : State}

theorem switch_queue (h : SoKernel.switchProcessFromQueues k queueFrom queueTo pid = some k') :
    pid ∈ k.queue queueFrom ∧ k'.queue = moved k.queue queueFrom queueTo pid := by
  unfold SoKernel.switchProcessFromQueues at h
  split at h
  · next hp =>
    obtain rfl := Option.some.inj h
    exact ⟨hp, rfl⟩
  · cases h

theorem switch_none (h : SoKernel.switchProcessFromQueues k queueFrom queueTo pid = none) :
    pid ∉ k.queue queueFrom := by
  unfold SoKernel.switchProcessFromQueues at h
  split at h
  · cases h
  · next hp => exact hp

theorem moveProcess_queue (h : moveProcess k queueFrom queueTo pid state = some (k', ok)) :
    ok = decide (pid ∈ k.queue queueFrom) ∧
      k'.queue =
        if pid ∈ k.queue queueFrom then moved k.queue queueFrom queueTo pid else k.queue := by
  unfold moveProcess at h
  split at h
  · next hnone =>
    obtain ⟨rfl, rfl⟩ := Prod.mk.inj (Option.some.inj h)
    simp [switch_none hnone]
  · next k1 hs =>
    obtain ⟨hp, hq⟩ := switch_queue hs
    obtain ⟨b, _, h⟩ := Option.bind_eq_some_iff.mp h
    obtain ⟨rfl, rfl⟩ := Prod.mk.inj (Option.some.inj h)
    simp [hp, ← hq, Kernel.setPCB]

theorem ite_source (p : Prop) [Decidable p] (queueFrom queueTo : QueueName) (pid : Pid)
    (pids : QueueName → List Pid) :
    (if p then moved pids queueFrom queueTo pid else pids) =
      match (if p then some queueFrom else none : Option QueueName) with
      | none => pids
      | some queueFrom => moved pids queueFrom queueTo pid := by
  split <;> rfl

/-- The queue `killProcess` takes the process from. -/
theorem killProcess_source (k : Kernel) (pid : Pid) :
    match (SoKernel.switchProcessFromQueues k .ready .zombie pid).or
      ((SoKernel.switchProcessFromQueues k .blocked .zombie pid).or
        (SoKernel.switchProcessFromQueues k .blockedBySem .zombie pid)) with
    | none => Mover.kill.source k.queue pid = none
    | some k1 => ∃ queueFrom, Mover.kill.source k.queue pid = some queueFrom ∧
        k1.queue = moved k.queue queueFrom .zombie pid := by
  simp only [Mover.source]
  cases hr : SoKernel.switchProcessFromQueues k .ready .zombie pid with
  | some k1 => exact ⟨.ready, if_pos (switch_queue hr).1, (switch_queue hr).2⟩
  | none =>
    rw [if_neg (switch_none hr)]
    cases hb : SoKernel.switchProcessFromQueues k .blocked .zombie pid with
    | some k1 => exact ⟨.blocked, if_pos (switch_queue hb).1, (switch_queue hb).2⟩
    | none =>
      rw [if_neg (switch_none hb)]
      cases hs : SoKernel.switchProcessFromQueues k .blockedBySem .zombie pid with
      | some k1 => exact ⟨.blockedBySem, if_pos (switch_queue hs).1, (switch_queue hs).2⟩
      | none => exact if_neg (switch_none hs)

theorem killProcess_queue (h : SoKernel.killProcess k pid ret state = some (k', ok)) :
    ok = (Mover.kill.source k.queue pid).isSome ∧ k'.queue = Mover.kill.result k.queue pid := by
  have hsource := killProcess_source (leaveCurrent k pid) pid
  unfold SoKernel.killProcess at h
  dsimp only at h
  split at h
  · next hnone =>
    obtain ⟨rfl, rfl⟩ := Prod.mk.inj (Option.some.inj h)
    rw [hnone] at hsource
    have hno : Mover.kill.source k.queue pid = none := hsource
    rw [Mover.result, hno]
    exact ⟨rfl, rfl⟩
  · next k1 hsome =>
    rw [hsome] at hsource
    obtain ⟨queueFrom, hfrom, hq⟩ := hsource
    have hfrom : Mover.kill.source k.queue pid = some queueFrom := hfrom
    obtain ⟨b, _, h⟩ := Option.bind_eq_some_iff.mp h
    obtain ⟨rfl, rfl⟩ := Prod.mk.inj (Option.some.inj h)
    rw [Mover.result, hfrom]
    exact ⟨rfl, hq⟩

/-- The kernel model moves a process as the queues in the heap do. -/
theorem Mover.onKernel_queue {m : Mover} (h : m.onKernel k pid ret state = some (k', ok)) :
    ok = (m.source k.queue pid).isSome ∧ k'.queue = m.result k.queue pid := by
  cases m with
  | block =>
    simp only [Mover.onKernel, SoKernel.blockProcessQueue] at h
    split at h
    · next hsem =>
      obtain ⟨rfl, rfl⟩ := Prod.mk.inj (Option.some.inj h)
      simp [Mover.result, Mover.source, hsem]
    · next hsem =>
      split at h
      · next hr =>
        obtain ⟨rfl, rfl⟩ := Prod.mk.inj (Option.some.inj h)
        simp [Mover.result, Mover.source, hr]
      · next hr =>
        obtain ⟨rfl, hq⟩ := moveProcess_queue h
        simp [Mover.result, Mover.source, hsem, not_not.mp hr, hq, Mover.target]
  | blockBySem =>
    obtain ⟨rfl, hq⟩ := moveProcess_queue h
    exact ⟨by simp only [Mover.source]; split <;> simp [*], hq.trans (ite_source _ _ _ _ _)⟩
  | unblock =>
    obtain ⟨rfl, hq⟩ := moveProcess_queue h
    exact ⟨by simp only [Mover.source]; split <;> simp [*], hq.trans (ite_source _ _ _ _ _)⟩
  | unblockBySem =>
    obtain ⟨rfl, hq⟩ := moveProcess_queue h
    exact ⟨by simp only [Mover.source]; split <;> simp [*], hq.trans (ite_source _ _ _ _ _)⟩
  | kill => exact killProcess_queue h

theorem getNextProcess_queue {next : Pid} (h : SoKernel.getNextProcess k = some (k', next)) :
    (k.queue .ready = [] ∧ k.idleProcess = some next ∧ k'.queue = k.queue) ∨
    ∃ rest, k.queue .ready = next :: rest ∧
      k'.queue = Function.update k.queue .ready (rest ++ [next]) := by
  unfold SoKernel.getNextProcess at h
  split at h
  · next hready =>
    obtain ⟨idle, hidle, h⟩ := Option.bind_eq_some_iff.mp h
    obtain ⟨rfl, rfl⟩ := Prod.mk.inj (Option.some.inj h)
    exact .inl ⟨hready, hidle, rfl⟩
  · next first rest hready =>
    obtain ⟨process, _, h⟩ := Option.bind_eq_some_iff.mp h
    obtain ⟨rfl, rfl⟩ := Prod.mk.inj (Option.some.inj h)
    refine .inr ⟨rest, hready, ?_⟩
    split <;> rfl

end

/-! ## Runs -/

/-- The other users of the allocator leave the queues alone. -/
def Admitted (admits : σ → Multiset Chunk → ε → Prop) (h : NodeQueues σ) : Event ε → Prop
  | .user e => admits h.mem h.chunks e
  | _ => True

instance [∀ s cs e, Decidable (admits s cs e)] (h : NodeQueues σ) :
    (e : Event ε) → Decidable (Admitted admits h e)
  | .user e => inferInstanceAs (Decidable (admits h.mem h.chunks e))
  | .add _ | .move _ _ | .rotate _ | .remove _ _ => inferInstanceAs (Decidable True)

/-- Every step keeps what the queues hold. -/
theorem Held.step (R : A.Refills sizeofNode holds spare admits) (hh : h.Held holds)
    {e : Event ε} (he : Admitted admits h e) (hs : step A h e = some h') : h'.Held holds := by
  cases e with
  | add pid =>
    obtain ⟨h1, ok, he, hh1, _⟩ := hh.enqueue R .ready pid
    rw [NodeQueues.step, he] at hs
    exact Option.some.inj hs ▸ hh1
  | move m pid =>
    obtain ⟨h1, hr, hh1, _⟩ := hh.run R m pid
    rw [NodeQueues.step, hr] at hs
    exact Option.some.inj hs ▸ hh1
  | rotate idle =>
    cases hp : h.pids .ready with
    | nil =>
      rw [NodeQueues.step, getNextProcess, if_pos (List.map_eq_nil_iff.mp hp)] at hs
      exact Option.some.inj hs ▸ hh
    | cons next rest =>
      obtain ⟨h1, hr, hh1, _⟩ := hh.rotate R idle hp
      rw [NodeQueues.step, hr] at hs
      exact Option.some.inj hs ▸ hh1
  | remove q pid =>
    rcases em (pid ∈ h.pids q) with hp | hp
    · obtain ⟨h1, hr, hh1, _⟩ := hh.remove R hp
      rw [NodeQueues.step, hr] at hs
      exact Option.some.inj hs ▸ hh1
    · rw [NodeQueues.step, remove_absent hp] at hs
      exact Option.some.inj hs ▸ hh
  | user e =>
    obtain ⟨mem, hu, rfl⟩ := Option.map_eq_some_iff.mp hs
    exact R.user hh he hu

/-- No move loses a process: each ends with the process in the target queue, with or without
memory to spare, and the queues are those of the kernel model. -/
structure Lossless (A : Allocator σ ε) (h : NodeQueues σ) : Prop where
  switch : ∀ {queueFrom : QueueName} {pid : Pid} (queueTo : QueueName), pid ∈ h.pids queueFrom →
    ∃ h', h.switchProcessFromQueues A queueFrom queueTo pid = some (h', some pid) ∧
      pid ∈ h'.pids queueTo ∧ h'.pids = moved h.pids queueFrom queueTo pid
  /-- Blocking, unblocking and killing. -/
  run : ∀ (m : Mover) (pid : Pid), ∃ h', m.run A h pid = some (h', (m.source h.pids pid).isSome) ∧
    ((m.source h.pids pid).isSome → pid ∈ h'.pids m.target) ∧
    ∀ {k k' : Kernel} {ret : Nat} {state : State} {ok : Bool}, k.queue = h.pids →
      m.onKernel k pid ret state = some (k', ok) →
        ok = (m.source h.pids pid).isSome ∧ k'.queue = h'.pids
  rotate : ∀ {next : Pid} {rest : List Pid} (idle : Option Pid), h.pids .ready = next :: rest →
    ∃ h', h.getNextProcess A idle = some (h', some next) ∧
      h'.pids = Function.update h.pids .ready (rest ++ [next])
  next : ∀ {k k' : Kernel} {next : Pid}, k.queue = h.pids →
    SoKernel.getNextProcess k = some (k', next) →
    ∃ h', h.getNextProcess A k.idleProcess = some (h', some next) ∧ k'.queue = h'.pids

theorem Held.lossless (R : A.Refills sizeofNode holds spare admits) (hh : h.Held holds) :
    Lossless A h where
  switch queueTo hp := by
    obtain ⟨h', hs, _, hpids⟩ := hh.switch R hp queueTo
    exact ⟨h', hs, hpids ▸ moved_mem _, hpids⟩
  run m pid := by
    obtain ⟨h', hr, _, hpids⟩ := hh.run R m pid
    refine ⟨h', hr, fun hsome => ?_, fun hq hk => ?_⟩
    · obtain ⟨queueFrom, hfrom⟩ := Option.isSome_iff_exists.mp hsome
      rw [hpids, Mover.result, hfrom]
      exact moved_mem _
    · rw [hpids, ← hq]
      exact Mover.onKernel_queue hk
  rotate idle hp := by
    obtain ⟨h', hr, _, hpids⟩ := hh.rotate R idle hp
    exact ⟨h', hr, hpids⟩
  next hq hk := by
    rcases getNextProcess_queue hk with ⟨hready, hidle, hq'⟩ | ⟨rest, hready, hq'⟩
    · rw [hq] at hready
      exact ⟨h, by rw [getNextProcess, if_pos (List.map_eq_nil_iff.mp hready), hidle],
        hq'.trans hq⟩
    · rw [hq] at hready hq'
      obtain ⟨h', hr, _, hpids⟩ := hh.rotate R _ hready
      exact ⟨h', hr, hq'.trans hpids.symm⟩

/-- The states reached from `h0` while the others leave the queues alone. -/
def Reach (A : Allocator σ ε) (admits : σ → Multiset Chunk → ε → Prop) (h0 h : NodeQueues σ) :
    Prop :=
  Run (step A) (Admitted admits) h0 h

theorem Reach.lossless {h0 : NodeQueues σ} (R : A.Refills sizeofNode holds spare admits)
    (hr : Reach A admits h0 h) (h0held : h0.Held holds) : Lossless A h := by
  have hh : h.Held holds := hr.invariant h0held fun hh he hs => hh.step R he hs
  exact hh.lossless R

end NodeQueues

end SoKernel
