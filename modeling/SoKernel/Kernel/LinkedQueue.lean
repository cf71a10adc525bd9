import SoKernel.Lib.Linked

/-!
# The linked queue

`dataStructures/queue.c`, over a heap of nodes. The answer of `allocMemory` is an argument:
an address that is not in use, or NULL. `none` is an access to a node that is not live, or a
loop over the nodes that has met more of them than were ever allocated.

Results:
1. `enqueue_spec` to `dumpQueue_spec`: what each function does to a represented list.
2. `queue_refines`: the functions are those of a list, over any sequence of calls.
-/

namespace SoKernel

universe u

/-- A `Queue` and its `Node`s. The last two fields are history: the nodes allocated and
freed so far. -/
structure LinkedQueue (α : Type u) where
  nodes : Nat → Option (Cell Nat α)
  front : Option Nat
  rear : Option Nat
  size : Int
  allocated : List Nat
  freed : List Nat

namespace LinkedQueue

variable {α : Type u}

/-! ## `queue.c` -/

/-- `freeMemory` -/
def freeMemory (queue : LinkedQueue α) (p : Nat) : Option (LinkedQueue α) := do
  let _ ← queue.nodes p
  some { queue with nodes := Function.update queue.nodes p none, freed := p :: queue.freed }

/-- `p->next = next` -/
def setNext (queue : LinkedQueue α) (p : Nat) (next : Option Nat) : Option (LinkedQueue α) := do
  let node ← queue.nodes p
  some { queue with nodes := Function.update queue.nodes p (some { node with next := next }) }

/-- `createQueue`, when `allocMemory` has an address for it or has not. -/
def createQueue (answer : Bool) : Option (LinkedQueue α) :=
  if answer then
    some { nodes := fun _ => none, front := none, rear := none, size := 0, allocated := []
           freed := [] }
  else none

/-- `enqueue` -/
def enqueue (queue : LinkedQueue α) (data : α) (answer : Option Nat) :
    Option (LinkedQueue α × Int) :=
  match answer with
  | none => some (queue, -1)
  | some newNode => do
    let queue := { queue with
      nodes := Function.update queue.nodes newNode (some ⟨data, none⟩)
      allocated := newNode :: queue.allocated }
    let queue ← match queue.rear with
      | none => some { queue with front := some newNode }
      | some rear => queue.setNext rear (some newNode)
    some ({ queue with rear := some newNode, size := queue.size + 1 }, 0)

/-- `dequeue` -/
def dequeue (queue : LinkedQueue α) : Option (LinkedQueue α × Option α) :=
  match queue.front with
  | none => some (queue, none)
  | some temp => do
    let node ← queue.nodes temp
    let queue := { queue with front := node.next }
    let queue := if queue.front.isNone then { queue with rear := none } else queue
    let queue ← queue.freeMemory temp
    some ({ queue with size := queue.size - 1 }, some node.data)

/-- `queueSize` -/
def queueSize (queue : LinkedQueue α) : Int := queue.size

/-- `isQueueEmpty` -/
def isQueueEmpty (queue : LinkedQueue α) : Int := if queue.size = 0 then 1 else 0

/-- `peekQueue` -/
def peekQueue (queue : LinkedQueue α) : Option (Option α) :=
  match queue.front with
  | none => some none
  | some front => (queue.nodes front).map fun node => some node.data

/-- The loop of `clearQueue` and of `freeQueue`. -/
def clearLoop : Nat → LinkedQueue α → Option Nat → Option (LinkedQueue α)
  | 0, _, _ => none
  | _ + 1, queue, none => some queue
  | fuel + 1, queue, some current => do
    let node ← queue.nodes current
    clearLoop fuel (← queue.freeMemory current) node.next

/-- `clearQueue` -/
def clearQueue (queue : LinkedQueue α) : Option (LinkedQueue α) := do
  let queue ← clearLoop (queue.allocated.length + 1) queue queue.front
  some { queue with front := none, rear := none, size := 0 }

/-- The loop of `containsQueue`. -/
def containsLoop (queue : LinkedQueue α) (data : α) (compare : α → α → Int) :
    Nat → Option Nat → Option (Option α)
  | 0, _ => none
  | _ + 1, none => some none
  | fuel + 1, some current => do
    let node ← queue.nodes current
    if compare node.data data = 0 then some (some node.data)
    else containsLoop queue data compare fuel node.next

/-- `containsQueue` -/
def containsQueue (queue : LinkedQueue α) (data : α) (compare : Option (α → α → Int)) :
    Option (Option α) :=
  match compare with
  | none => some none
  | some compare => queue.containsLoop data compare (queue.allocated.length + 1) queue.front

/-- `remove` puts `next` in the place of the node it has found. -/
def bypass (queue : LinkedQueue α) (previous next : Option Nat) : Option (LinkedQueue α) :=
  match previous with
  | none => some { queue with front := next }
  | some previous => queue.setNext previous next

/-- The loop of `remove`. -/
def removeLoop (queue : LinkedQueue α) (data : α) (compare : α → α → Int) :
    Nat → Option Nat → Option Nat → Option (LinkedQueue α × Option α)
  | 0, _, _ => none
  | _ + 1, _, none => some (queue, none)
  | fuel + 1, previous, some current => do
    let node ← queue.nodes current
    if compare node.data data = 0 then
      let queue ← queue.bypass previous node.next
      let queue := if queue.rear = some current then { queue with rear := previous } else queue
      let queue ← queue.freeMemory current
      some ({ queue with size := queue.size - 1 }, some node.data)
    else removeLoop queue data compare fuel (some current) node.next

/-- `remove` -/
def remove (queue : LinkedQueue α) (data : α) (compare : Option (α → α → Int)) :
    Option (LinkedQueue α × Option α) :=
  match compare with
  | none => some (queue, none)
  | some compare => queue.removeLoop data compare (queue.allocated.length + 1) none queue.front

/-- The loop of `dumpQueue`: the elements in the order in which they are written to the
array. -/
def dumpLoop (queue : LinkedQueue α) : Nat → Option Nat → Option (List α)
  | 0, _ => none
  | _ + 1, none => some []
  | fuel + 1, some current => do
    let node ← queue.nodes current
    let rest ← dumpLoop queue fuel node.next
    some (node.data :: rest)

/-- `dumpQueue`, when `allocMemory` has an address for the array of `size` pointers or has
not. -/
def dumpQueue (queue : LinkedQueue α) (answer : Bool) : Option (Option (List α)) :=
  if queue.size = 0 then some none
  else if answer then
    (queue.dumpLoop (queue.allocated.length + 1) queue.front).map some
  else some none

/-! ## Calls -/

/-- The functions on a `QueueADT`, with the answers of `allocMemory`. -/
inductive Op (α : Type u)
  | enqueue (data : α) (answer : Option Nat)
  | dequeue
  | remove (data : α) (compare : Option (α → α → Int))
  | contains (data : α) (compare : Option (α → α → Int))
  | peek
  | clear
  | dump (answer : Bool)
  | size
  | isEmpty

/-- What a function returns. -/
inductive Result (α : Type u)
  | code (i : Int)
  | data (d : Option α)
  | array (l : Option (List α))
  | done
deriving DecidableEq, Repr

/-- The answer of a function to `queue == NULL`. -/
def Op.onNull : Op α → Result α
  | .enqueue _ _ => .code (-1)
  | .dequeue => .data none
  | .remove _ _ => .data none
  | .contains _ _ => .data none
  | .peek => .data none
  | .clear => .done
  | .dump _ => .array none
  | .size => .code 0
  | .isEmpty => .code 1

/-- A call; the queue is NULL or not. -/
def call : Option (LinkedQueue α) → Op α → Option (Option (LinkedQueue α) × Result α)
  | none, op => some (none, op.onNull)
  | some queue, .enqueue data answer =>
    (queue.enqueue data answer).map fun r => (some r.1, .code r.2)
  | some queue, .dequeue => queue.dequeue.map fun r => (some r.1, .data r.2)
  | some queue, .remove data compare =>
    (queue.remove data compare).map fun r => (some r.1, .data r.2)
  | some queue, .contains data compare =>
    (queue.containsQueue data compare).map fun d => (some queue, .data d)
  | some queue, .peek => queue.peekQueue.map fun d => (some queue, .data d)
  | some queue, .clear => queue.clearQueue.map fun queue => (some queue, .done)
  | some queue, .dump answer => (queue.dumpQueue answer).map fun l => (some queue, .array l)
  | some queue, .size => some (some queue, .code queue.queueSize)
  | some queue, .isEmpty => some (some queue, .code queue.isQueueEmpty)

/-- Some calls, with what they return. -/
def run : Option (LinkedQueue α) → List (Op α) → Option (Option (LinkedQueue α) × List (Result α))
  | queue, [] => some (queue, [])
  | queue, op :: ops => do
    let (queue, r) ← call queue op
    let (queue, rs) ← run queue ops
    some (queue, r :: rs)

/-- A new node is at an address that no live node has. -/
def Op.Fresh : Option (LinkedQueue α) → Op α → Prop
  | some queue, .enqueue _ (some newNode) => queue.nodes newNode = none
  | _, _ => True

def FreshAll : Option (LinkedQueue α) → List (Op α) → Prop
  | _, [] => True
  | queue, op :: ops => op.Fresh queue ∧
    match call queue op with
    | none => True
    | some r => FreshAll r.1 ops

/-! ## 1. What a function does to a represented list -/

/-- The queue holds the listed nodes, with their elements, from `front` to `rear`, and no other
node is live: each of the others has been freed once. -/
structure Represents (queue : LinkedQueue α) (l : List (Nat × α)) : Prop where
  linked : Linked queue.nodes queue.front l
  rear : queue.rear = l.getLast?.map Prod.fst
  size : queue.size = l.length
  live : ∀ p, queue.nodes p ≠ none → p ∈ l.map Prod.fst
  accounted : queue.allocated.Perm (queue.freed ++ l.map Prod.fst)

section

variable {queue queue' : LinkedQueue α} {l u v : List (Nat × α)} {a b : Nat × α}

theorem Represents.length_lt (R : Represents queue l) : l.length < queue.allocated.length + 1 := by
  have hlen := R.accounted.length_eq
  rw [List.length_append, List.length_map] at hlen
  omega

theorem createQueue_represents (h : createQueue true = some queue) : Represents queue [] := by
  cases h
  exact ⟨rfl, rfl, rfl, fun _ hp => absurd rfl hp, .nil⟩

theorem freeMemory_eq {node : Cell Nat α} {p : Nat} (h : queue.nodes p = some node) :
    queue.freeMemory p = some { queue with
      nodes := Function.update queue.nodes p none, freed := p :: queue.freed } := by
  rw [freeMemory, h]
  rfl

theorem setNext_eq {node : Cell Nat α} {p : Nat} (h : queue.nodes p = some node)
    (next : Option Nat) :
    queue.setNext p next = some { queue with
      nodes := Function.update queue.nodes p (some { node with next := next }) } := by
  rw [setNext, h]
  rfl

theorem enqueue_empty (h : queue.rear = none) (data : α) (newNode : Nat) :
    queue.enqueue data (some newNode) = some (
      { nodes := Function.update queue.nodes newNode (some ⟨data, none⟩)
        front := some newNode
        rear := some newNode
        size := queue.size + 1
        allocated := newNode :: queue.allocated
        freed := queue.freed }, 0) := by
  simp only [enqueue, h]
  rfl

theorem enqueue_rear {p : Nat} {d : α} {next : Option Nat} (h : queue.rear = some p)
    (hp : queue.nodes p = some ⟨d, next⟩) (data : α) {newNode : Nat} (hne : p ≠ newNode) :
    queue.enqueue data (some newNode) = some (
      { nodes := Function.update (Function.update queue.nodes newNode (some ⟨data, none⟩)) p
          (some ⟨d, some newNode⟩)
        front := queue.front
        rear := some newNode
        size := queue.size + 1
        allocated := newNode :: queue.allocated
        freed := queue.freed }, 0) := by
  have hnode : Function.update queue.nodes newNode (some ⟨data, none⟩) p = some ⟨d, next⟩ := by
    rw [Function.update_of_ne hne, hp]
  simp only [enqueue, h]
  rw [setNext_eq hnode]
  rfl

/-- A new node becomes the last one. -/
theorem enqueue_spec (R : Represents queue l) (data : α) {newNode : Nat}
    (hnew : queue.nodes newNode = none) :
    ∃ queue', queue.enqueue data (some newNode) = some (queue', 0) ∧
      Represents queue' (l ++ [(newNode, data)]) := by
  have hsize : queue.size + 1 = ((l ++ [(newNode, data)]).length : Int) := by
    rw [R.size, List.length_append, List.length_singleton]
    rfl
  have hacc : (newNode :: queue.allocated).Perm
      (queue.freed ++ (l ++ [(newNode, data)]).map Prod.fst) := by
    rw [List.map_append, ← List.append_assoc]
    exact (R.accounted.cons newNode).trans (List.perm_append_singleton _ _).symm
  rcases List.eq_nil_or_concat l with rfl | ⟨u, r, rfl⟩
  · refine ⟨_, enqueue_empty R.rear data newNode,
      ⟨⟨rfl, none, Function.update_self .., rfl⟩, rfl, hsize, fun p hp => ?_, hacc⟩⟩
    simp only [Function.update_apply] at hp
    split at hp
    · next he => exact List.mem_singleton.mpr he
    · exact absurd (R.live p hp) List.not_mem_nil
  · rw [List.concat_eq_append] at *
    have hmem : r ∈ u ++ [r] := List.mem_append_right u (List.mem_singleton_self r)
    obtain ⟨next, hr⟩ := R.linked.mem hmem
    have hne : r.1 ≠ newNode := by
      intro he
      rw [he, hnew] at hr
      cases hr
    have hrear : queue.rear = some r.1 := by
      rw [R.rear, List.getLast?_concat, Option.map_some]
    refine ⟨_, enqueue_rear hrear hr data hne, ⟨?_, ?_, hsize, fun p hp => ?_, hacc⟩⟩
    · rw [List.append_assoc]
      exact R.linked.snoc (b := (newNode, data)) hr hnew
    · rw [List.getLast?_concat, Option.map_some]
    · rw [List.map_append, List.mem_append]
      by_cases hpn : p = newNode
      · exact .inr (List.mem_singleton.mpr hpn)
      · refine .inl ?_
        by_cases hpr : p = r.1
        · exact hpr ▸ List.mem_map_of_mem hmem
        · simp only [Function.update_of_ne hpr, Function.update_of_ne hpn] at hp
          exact R.live p hp

/-- What is left when a node has been unlinked and freed. -/
theorem Represents.without (R : Represents queue (u ++ b :: v)) {nodes : Nat → Option (Cell Nat α)}
    {front rear : Option Nat} (hlinked : Linked nodes front (u ++ v))
    (hlive : ∀ p, nodes p ≠ none → queue.nodes p ≠ none)
    (hrear : rear = (u ++ v).getLast?.map Prod.fst) :
    Represents
      { nodes := Function.update nodes b.1 none
        front := front
        rear := rear
        size := queue.size - 1
        allocated := queue.allocated
        freed := b.1 :: queue.freed } (u ++ v) := by
  have hnodup := R.linked.nodup
  simp only [List.map_append, List.map_cons] at hnodup
  have hb : b.1 ∉ (u ++ v).map Prod.fst := by
    rw [List.map_append]
    exact (List.nodup_cons.mp (List.nodup_middle.mp hnodup)).1
  refine ⟨hlinked.update hb none, hrear, ?_, fun p hp => ?_, R.accounted.trans ?_⟩
  · simp only [R.size, List.length_append, List.length_cons]
    omega
  · simp only [Function.update_apply] at hp
    split at hp
    · exact absurd rfl hp
    · next hne =>
      have hmem := R.live p (hlive p hp)
      rw [List.map_append, List.map_cons, List.mem_append, List.mem_cons] at hmem
      rw [List.map_append, List.mem_append]
      exact hmem.imp_right fun h => h.resolve_left hne
  · simp only [List.map_append, List.map_cons, List.cons_append]
    exact (List.perm_middle.append_left queue.freed).trans List.perm_middle

/-- `rear` is in step when the node in front of the freed one becomes the last. -/
theorem Represents.rear_without (R : Represents queue (u ++ b :: v)) :
    (if queue.rear = some b.1 then u.getLast?.map Prod.fst else queue.rear) =
      (u ++ v).getLast?.map Prod.fst := by
  have hnodup := R.linked.nodup
  rw [R.rear]
  rcases List.eq_nil_or_concat v with rfl | ⟨w, r, rfl⟩
  · rw [List.getLast?_concat, Option.map_some, if_pos rfl, List.append_nil]
  · have hlast : (u ++ b :: w.concat r).getLast? = some r := by
      rw [List.concat_eq_append, ← List.cons_append, ← List.append_assoc, List.getLast?_concat]
    have hne : r.1 ≠ b.1 := by
      intro he
      rw [List.map_append, List.map_cons, List.concat_eq_append, List.map_append] at hnodup
      have hmem := (List.nodup_cons.mp (List.nodup_append.mp hnodup).2.1).1
      exact hmem (by simp [he])
    rw [hlast, Option.map_some, if_neg (fun h => hne (Option.some.inj h)), List.concat_eq_append,
      ← List.append_assoc, List.getLast?_concat, Option.map_some]

theorem dequeue_front {p : Nat} {d : α} {next : Option Nat} (hfront : queue.front = some p)
    (hp : queue.nodes p = some ⟨d, next⟩) :
    queue.dequeue = some (
      { nodes := Function.update queue.nodes p none
        front := next
        rear := if next.isNone then none else queue.rear
        size := queue.size - 1
        allocated := queue.allocated
        freed := p :: queue.freed }, some d) := by
  simp only [dequeue, hfront, hp, Option.bind_eq_bind, Option.bind_some]
  cases next <;> simp [freeMemory, hp]

/-- The first node is unlinked and freed. -/
theorem dequeue_spec (R : Represents queue l) :
    ∃ queue', queue.dequeue = some (queue', l.head?.map Prod.snd) ∧ Represents queue' l.tail := by
  cases l with
  | nil =>
    have hfront : queue.front = none := R.linked
    exact ⟨queue, by rw [dequeue, hfront]; rfl, R⟩
  | cons b v =>
    obtain ⟨hfront, next, hb, hv⟩ := R.linked
    have hrear : (if next.isNone then none else queue.rear) = v.getLast?.map Prod.fst := by
      cases v with
      | nil => rw [show next = none from hv]; rfl
      | cons c v =>
        rw [hv.1, R.rear, List.getLast?_cons_cons]
        rfl
    exact ⟨_, dequeue_front hfront hb, R.without (u := []) hv (fun p hp => hp) hrear⟩

theorem peekQueue_spec (R : Represents queue l) :
    queue.peekQueue = some (l.head?.map Prod.snd) := by
  cases l with
  | nil =>
    rw [peekQueue, show queue.front = none from R.linked]
    rfl
  | cons b v =>
    obtain ⟨hfront, next, hb, -⟩ := R.linked
    rw [peekQueue, hfront]
    simp only [hb, Option.map_some, List.head?_cons]

/-- The nodes from one on are freed. -/
theorem clearLoop_spec {front : Option Nat} (h : Linked queue.nodes front v)
    {fuel : Nat} (hfuel : v.length < fuel) :
    ∃ queue', clearLoop fuel queue front = some queue' ∧
      (∀ p, queue'.nodes p ≠ none → queue.nodes p ≠ none ∧ p ∉ v.map Prod.fst) ∧
      queue'.allocated = queue.allocated ∧
      queue'.freed = (v.map Prod.fst).reverse ++ queue.freed := by
  induction v generalizing queue front fuel with
  | nil =>
    obtain ⟨fuel, rfl⟩ := Nat.exists_eq_succ_of_ne_zero (Nat.ne_of_gt hfuel)
    rw [show front = none from h]
    exact ⟨queue, rfl, fun p hp => ⟨hp, List.not_mem_nil⟩, rfl, rfl⟩
  | cons b v ih =>
    obtain ⟨fuel, rfl⟩ := Nat.exists_eq_succ_of_ne_zero (Nat.ne_zero_of_lt hfuel)
    have hnodup := h.nodup
    obtain ⟨rfl, next, hb, hv⟩ := h
    have hv' := hv.update (List.nodup_cons.mp hnodup).1 none
    obtain ⟨queue', hloop, hnodes, hall, hfreed⟩ :=
      @ih { queue with nodes := Function.update queue.nodes b.1 none, freed := b.1 :: queue.freed }
        next hv' fuel (Nat.lt_of_succ_lt_succ hfuel)
    refine ⟨queue', ?_, fun p hp => ?_, hall, ?_⟩
    · rw [clearLoop, hb]
      simp only [Option.bind_eq_bind, Option.bind_some, freeMemory_eq hb]
      exact hloop
    · obtain ⟨hlive, hmem⟩ := hnodes p hp
      simp only [Function.update_apply] at hlive
      split at hlive
      · exact absurd rfl hlive
      · next hne => exact ⟨hlive, List.not_mem_cons_of_ne_of_not_mem hne hmem⟩
    · rw [hfreed, List.map_cons, List.reverse_cons, List.append_assoc]
      rfl

/-- Every node is freed. -/
theorem clearQueue_spec (R : Represents queue l) :
    ∃ queue', queue.clearQueue = some queue' ∧ Represents queue' [] := by
  obtain ⟨queue', hloop, hnodes, hall, hfreed⟩ := clearLoop_spec R.linked R.length_lt
  refine ⟨{ queue' with front := none, rear := none, size := 0 }, by rw [clearQueue, hloop]; rfl,
    ⟨rfl, rfl, rfl, fun p hp => ?_, ?_⟩⟩
  · obtain ⟨hlive, hmem⟩ := hnodes p hp
    exact absurd (R.live p hlive) hmem
  · show queue'.allocated.Perm (queue'.freed ++ [])
    rw [hall, hfreed, List.append_nil]
    refine R.accounted.trans (List.perm_append_comm.trans ?_)
    exact (List.reverse_perm _).symm.append_right _

theorem containsLoop_spec {front : Option Nat} (h : Linked queue.nodes front v) (data : α)
    (compare : α → α → Int) {fuel : Nat} (hfuel : v.length < fuel) :
    queue.containsLoop data compare fuel front =
      some ((v.map Prod.snd).find? fun d => compare d data = 0) := by
  induction v generalizing front fuel with
  | nil =>
    obtain ⟨fuel, rfl⟩ := Nat.exists_eq_succ_of_ne_zero (Nat.ne_of_gt hfuel)
    rw [show front = none from h]
    rfl
  | cons b v ih =>
    obtain ⟨fuel, rfl⟩ := Nat.exists_eq_succ_of_ne_zero (Nat.ne_zero_of_lt hfuel)
    obtain ⟨rfl, next, hb, hv⟩ := h
    rw [containsLoop, hb]
    simp only [Option.bind_eq_bind, Option.bind_some, List.map_cons, List.find?_cons]
    by_cases hd : compare b.2 data = 0
    · simp [hd]
    · simp [hd, ih hv (Nat.lt_of_succ_lt_succ hfuel)]

theorem dumpLoop_spec {front : Option Nat} (h : Linked queue.nodes front v) {fuel : Nat}
    (hfuel : v.length < fuel) : queue.dumpLoop fuel front = some (v.map Prod.snd) := by
  induction v generalizing front fuel with
  | nil =>
    obtain ⟨fuel, rfl⟩ := Nat.exists_eq_succ_of_ne_zero (Nat.ne_of_gt hfuel)
    rw [show front = none from h]
    rfl
  | cons b v ih =>
    obtain ⟨fuel, rfl⟩ := Nat.exists_eq_succ_of_ne_zero (Nat.ne_zero_of_lt hfuel)
    obtain ⟨rfl, next, hb, hv⟩ := h
    rw [dumpLoop, hb]
    simp only [Option.bind_eq_bind, Option.bind_some, ih hv (Nat.lt_of_succ_lt_succ hfuel),
      List.map_cons]

/-- The array has room for what is written to it. -/
theorem dumpQueue_spec (R : Represents queue l) (answer : Bool) :
    queue.dumpQueue answer =
      some (if l ≠ [] ∧ answer then some (l.map Prod.snd) else none) ∧
      ((l.map Prod.snd).length : Int) = queue.size := by
  refine ⟨?_, by rw [R.size, List.length_map]⟩
  have hsize : queue.size = 0 ↔ l = [] := by
    rw [R.size, ← List.length_eq_zero_iff]
    omega
  rw [dumpQueue, dumpLoop_spec R.linked R.length_lt]
  by_cases hl : l = []
  · rw [if_pos (hsize.mpr hl), if_neg (fun h => h.1 hl)]
  · rw [if_neg (fun h => hl (hsize.mp h))]
    cases answer <;> simp [hl]

/-- The node at `current` is the one looked for, and has been unlinked by a write that gives
`nodes` and `front`. -/
theorem removeLoop_found {data d : α} {compare : α → α → Int} {p : Nat} {previous next : Option Nat}
    {nodes : Nat → Option (Cell Nat α)} {front : Option Nat} (hp : queue.nodes p = some ⟨d, next⟩)
    (hd : compare d data = 0) (hlive : nodes p = some ⟨d, next⟩)
    (hlink : queue.bypass previous next = some { queue with nodes := nodes, front := front })
    (fuel : Nat) :
    queue.removeLoop data compare (fuel + 1) previous (some p) = some (
      { nodes := Function.update nodes p none
        front := front
        rear := if queue.rear = some p then previous else queue.rear
        size := queue.size - 1
        allocated := queue.allocated
        freed := p :: queue.freed }, some d) := by
  rw [removeLoop, hp]
  simp only [Option.bind_eq_bind, Option.bind_some, if_pos hd, hlink]
  split <;> simp [freeMemory, hlive]

/-- From a node on, `previous` being the last of those in front of it, the first match is
unlinked and freed. -/
theorem removeLoop_spec (R : Represents queue (u ++ v)) (data : α) (compare : α → α → Int)
    {front : Option Nat} (h : Linked queue.nodes front v) {fuel : Nat} (hfuel : v.length < fuel) :
    ∃ queue', queue.removeLoop data compare fuel (u.getLast?.map Prod.fst) front =
        some (queue', (v.map Prod.snd).find? fun d => compare d data = 0) ∧
      Represents queue' (u ++ v.eraseP fun b => compare b.2 data = 0) := by
  induction v generalizing u front fuel with
  | nil =>
    obtain ⟨fuel, rfl⟩ := Nat.exists_eq_succ_of_ne_zero (Nat.ne_of_gt hfuel)
    rw [show front = none from h]
    exact ⟨queue, rfl, R⟩
  | cons b v ih =>
    obtain ⟨fuel, rfl⟩ := Nat.exists_eq_succ_of_ne_zero (Nat.ne_zero_of_lt hfuel)
    obtain ⟨rfl, next, hb, hv⟩ := h
    by_cases hd : compare b.2 data = 0
    · rw [List.eraseP_cons_of_pos (by simpa using hd), List.map_cons,
        List.find?_cons_of_pos (by simpa using hd)]
      rcases List.eq_nil_or_concat u with rfl | ⟨u, r, rfl⟩
      · exact ⟨_, removeLoop_found hb hd hb rfl fuel,
          R.without (u := []) hv (fun p hp => hp) R.rear_without⟩
      · rw [List.concat_eq_append] at *
        obtain ⟨next', hr⟩ := R.linked.mem (List.mem_append_left _ (List.mem_append_right u
          (List.mem_singleton_self r)))
        have hlinked := R.linked
        rw [List.append_assoc] at hlinked
        have hbr : b.1 ≠ r.1 := by
          have hnodup := hlinked.nodup
          simp only [List.map_append, List.singleton_append, List.map_cons] at hnodup
          have hmem := (List.nodup_cons.mp (List.nodup_append.mp hnodup).2.1).1
          exact fun he => hmem (he ▸ List.mem_cons_self)
        have hunlinked := hlinked.unlink hb
        rw [← List.singleton_append, ← List.append_assoc] at hunlinked
        refine ⟨_, removeLoop_found hb hd ?_ (by rw [List.getLast?_concat]; exact setNext_eq hr next) fuel,
          R.without hunlinked (fun p hp => ?_) ?_⟩
        · rw [Function.update_of_ne hbr, hb]
        · rw [Function.update_apply] at hp
          split at hp
          · next he =>
            rw [he, hr]
            exact Option.some_ne_none _
          · exact hp
        · rw [← R.rear_without, List.getLast?_concat, Option.map_some]
    · rw [List.append_cons] at R
      obtain ⟨queue', hloop, R'⟩ := ih R hv (Nat.lt_of_succ_lt_succ hfuel)
      refine ⟨queue', ?_, ?_⟩
      · rw [removeLoop, hb]
        simp only [Option.bind_eq_bind, Option.bind_some, List.map_cons, List.find?_cons]
        rw [List.getLast?_concat, Option.map_some] at hloop
        simp [hd, hloop]
      · rw [List.eraseP_cons_of_neg (by simpa using hd), List.append_cons]
        exact R'

/-- The first match is unlinked and freed. -/
theorem remove_spec (R : Represents queue l) (data : α) (compare : α → α → Int) :
    ∃ queue', queue.remove data (some compare) =
        some (queue', (l.map Prod.snd).find? fun d => compare d data = 0) ∧
      Represents queue' (l.eraseP fun b => compare b.2 data = 0) :=
  removeLoop_spec (u := []) R data compare R.linked R.length_lt

end

/-! ## 2. The functions of a list -/

/-- What a call means on a list; NULL stands for no list. -/
def Op.spec : Option (List α) → Op α → Option (List α) × Result α
  | none, op => (none, op.onNull)
  | some l, .enqueue _ none => (some l, .code (-1))
  | some l, .enqueue data (some _) => (some (l ++ [data]), .code 0)
  | some l, .dequeue => (some l.tail, .data l.head?)
  | some l, .remove _ none => (some l, .data none)
  | some l, .remove data (some compare) =>
    (some (l.eraseP fun d => compare d data = 0), .data (l.find? fun d => compare d data = 0))
  | some l, .contains _ none => (some l, .data none)
  | some l, .contains data (some compare) =>
    (some l, .data (l.find? fun d => compare d data = 0))
  | some l, .peek => (some l, .data l.head?)
  | some _, .clear => (some [], .done)
  | some l, .dump answer => (some l, .array (if l ≠ [] ∧ answer then some l else none))
  | some l, .size => (some l, .code l.length)
  | some l, .isEmpty => (some l, .code (if l = [] then 1 else 0))

def specRun : Option (List α) → List (Op α) → Option (List α) × List (Result α)
  | l, [] => (l, [])
  | l, op :: ops => ((specRun (op.spec l).1 ops).1, (op.spec l).2 :: (specRun (op.spec l).1 ops).2)

/-- The queue holds the list, or both are not there. -/
def Stands : Option (LinkedQueue α) → Option (List α) → Prop
  | none, none => True
  | some queue, some l => ∃ nodes, queue.Represents nodes ∧ nodes.map Prod.snd = l
  | _, _ => False

theorem map_eraseP (compare : α → α → Int) (data : α) (nodes : List (Nat × α)) :
    (nodes.eraseP fun b => compare b.2 data = 0).map Prod.snd =
      (nodes.map Prod.snd).eraseP fun d => compare d data = 0 := by
  rw [List.eraseP_map]
  rfl

/-- A call does what it means. -/
theorem call_spec {queue : Option (LinkedQueue α)} {l : Option (List α)} {op : Op α}
    (h : Stands queue l) (hfresh : op.Fresh queue) :
    ∃ queue', call queue op = some (queue', (op.spec l).2) ∧ Stands queue' (op.spec l).1 := by
  cases queue with
  | none =>
    cases l with
    | none => exact ⟨none, rfl, trivial⟩
    | some l => exact h.elim
  | some queue =>
    cases l with
    | none => exact h.elim
    | some l =>
      obtain ⟨nodes, R, rfl⟩ := h
      cases op with
      | enqueue data answer =>
        cases answer with
        | none => exact ⟨some queue, rfl, nodes, R, rfl⟩
        | some newNode =>
          obtain ⟨queue', hq, R'⟩ := enqueue_spec R data hfresh
          exact ⟨some queue', by rw [call, hq]; rfl, _, R', by simp⟩
      | dequeue =>
        obtain ⟨queue', hq, R'⟩ := dequeue_spec R
        exact ⟨some queue', by rw [call, hq]; simp [Op.spec], _, R', List.map_tail⟩
      | remove data compare =>
        cases compare with
        | none => exact ⟨some queue, rfl, nodes, R, rfl⟩
        | some compare =>
          obtain ⟨queue', hq, R'⟩ := remove_spec R data compare
          exact ⟨some queue', by rw [call, hq]; rfl, _, R', map_eraseP compare data nodes⟩
      | contains data compare =>
        cases compare with
        | none => exact ⟨some queue, rfl, nodes, R, rfl⟩
        | some compare =>
          refine ⟨some queue, ?_, nodes, R, rfl⟩
          rw [call, containsQueue, containsLoop_spec R.linked data compare R.length_lt]
          rfl
      | peek =>
        refine ⟨some queue, ?_, nodes, R, rfl⟩
        rw [call, peekQueue_spec R]
        simp [Op.spec]
      | clear =>
        obtain ⟨queue', hq, R'⟩ := clearQueue_spec R
        exact ⟨some queue', by rw [call, hq]; rfl, [], R', rfl⟩
      | dump answer =>
        refine ⟨some queue, ?_, nodes, R, rfl⟩
        rw [call, (dumpQueue_spec R answer).1]
        simp [Op.spec]
      | size =>
        refine ⟨some queue, ?_, nodes, R, rfl⟩
        rw [call, queueSize, R.size]
        simp [Op.spec]
      | isEmpty =>
        refine ⟨some queue, ?_, nodes, R, rfl⟩
        rw [call, isQueueEmpty, R.size]
        simp [Op.spec]

/-- Over any calls on a queue from `createQueue`, whatever allocations fail, the functions
are those of a list, and the queue holds the list: from `front` the pointers visit its nodes
and end at `rear`, `size` is their number, and each of the other nodes has been freed once. -/
theorem queue_refines (answer : Bool) (ops : List (Op α)) (h : FreshAll (createQueue answer) ops) :
    ∃ queue, run (createQueue answer) ops =
        some (queue, (specRun (if answer then some [] else none) ops).2) ∧
      Stands queue (specRun (if answer then some [] else none) ops).1 := by
  have hrun : ∀ (queue : Option (LinkedQueue α)) (l : Option (List α)), Stands queue l →
      FreshAll queue ops →
      ∃ queue', run queue ops = some (queue', (specRun l ops).2) ∧
        Stands queue' (specRun l ops).1 := by
    clear h
    induction ops with
    | nil => exact fun queue _ hst _ => ⟨queue, rfl, hst⟩
    | cons op ops ih =>
      intro queue l hst hfresh
      obtain ⟨queue₁, hcall, hst₁⟩ := call_spec hst hfresh.1
      have hrest := hfresh.2
      rw [hcall] at hrest
      obtain ⟨queue₂, hops, hst₂⟩ := ih queue₁ _ hst₁ hrest
      refine ⟨queue₂, ?_, hst₂⟩
      rw [run, hcall]
      simp only [Option.bind_eq_bind, Option.bind_some, hops, specRun]
  refine hrun _ _ ?_ h
  cases answer with
  | false => trivial
  | true => exact ⟨[], createQueue_represents rfl, rfl⟩

/-- The last node is removed, and the next one goes behind the one in front of it. -/
theorem queue_refines_tail :
    let compare : Int → Int → Int := fun a b => a - b
    let ops : List (Op Int) := [.enqueue 1 (some 16), .enqueue 2 (some 32),
      .remove 2 (some compare), .enqueue 3 none, .enqueue 4 (some 32), .dump true]
    ∃ queue, run (createQueue true) ops =
        some (queue, [.code 0, .code 0, .data (some 2), .code (-1), .code 0, .array (some [1, 4])]) ∧
      Stands queue (some [1, 4]) :=
  queue_refines true _ ⟨rfl, rfl, trivial, trivial, rfl, trivial, trivial⟩

end LinkedQueue

end SoKernel
