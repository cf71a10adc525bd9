import SoKernel.Kernel.Queues

/-!
# Listing the processes

`getProcessInfo` of `scheduler.c`. Its loop probes the pids from 0 on, and what ends it is the
number of processes found.

Results:
1. `infoLoop_eq`: the loop copies the PCBs of the pids it probes, in their order.
2. `Core.length_listed`: the pids `getProcess` finds are as many as `processCount` says.
3. `reach_processInfo`: with memory, and without processes of the priority of idle, the loop
   ends and the array lists idle and the live processes.
-/

namespace SoKernel

/-- `processCount`: the sizes of the four queues, and idle. -/
def processCount (k : Kernel) : Nat :=
  (k.queue .ready).length + (k.queue .blocked).length + (k.queue .blockedBySem).length +
    (k.queue .zombie).length + 1

/-- `copyProcess`: what `*dest` holds after the call. -/
def copyProcess (dest src : PCB) : PCB :=
  { src with childrenSem := dest.childrenSem, childrenCount := dest.childrenCount }

/-- `copyProcess(&processInfo[j], process)` -/
def copyTo (processInfo : List PCB) (j : Nat) (process : PCB) : Option (List PCB) :=
  processInfo[j]?.map fun dest => processInfo.set j (copyProcess dest process)

/-- The loop of `getProcessInfo`: the array and `j` at its end. -/
def infoLoop (k : Kernel) (count : Nat) : Nat → Nat → Nat → List PCB → Option (List PCB × Nat)
  | 0, _, j, processInfo => if j < count then none else some (processInfo, j)
  | fuel + 1, i, j, processInfo =>
    if j < count then
      match getProcess k i with
      | none => infoLoop k count fuel (i + 1) j processInfo
      | some process => do
        let b ← k.procs process
        let processInfo ← copyTo processInfo j b
        infoLoop k count fuel (i + 1) (j + 1) processInfo
    else some (processInfo, j)

/-- `getProcessInfo`: the array, or `none` for `NULL`, and `*cantProcesses`. `memory` is what
the memory of the array holds. -/
def getProcessInfo (k : Kernel) (fuel : Nat) (memory : Nat → PCB) :
    Option (Kernel × Option (List PCB) × Nat) :=
  let count := processCount k
  let (ok, k) := k.allocMemory
  if !ok then some (k, none, 0)
  else do
    let (processInfo, j) ← infoLoop k count fuel 0 0 ((List.range count).map memory)
    some (k, some processInfo, j)

/-! ## The loop -/

/-- The PCBs `getProcess` finds for the `n` pids from `i` on. -/
def listed (k : Kernel) (i n : Nat) : List PCB :=
  (List.range' i n).filterMap fun p : Nat => (getProcess k p).bind k.procs

section

variable {k : Kernel} {p : Pid} {b : PCB} {i n fuel count : Nat} {copied rest : List PCB}

theorem mem_listed : b ∈ listed k i n ↔
    ∃ p : Nat, i ≤ p ∧ p < i + n ∧ getProcess k p = some (p : Pid) ∧ k.procs p = some b := by
  unfold listed
  rw [List.mem_filterMap]
  constructor
  · rintro ⟨p, hp, hb⟩
    obtain ⟨x, hx, hb⟩ := Option.bind_eq_some_iff.mp hb
    obtain rfl := getProcess_eq hx
    exact ⟨p, (List.mem_range'_1.mp hp).1, (List.mem_range'_1.mp hp).2, hx, hb⟩
  · rintro ⟨p, h1, h2, hp, hb⟩
    exact ⟨p, List.mem_range'_1.mpr ⟨h1, h2⟩, Option.bind_eq_some_iff.mpr ⟨_, hp, hb⟩⟩

theorem copyTo_append {d : PCB} :
    copyTo (copied ++ d :: rest) copied.length b = some ((copied ++ [copyProcess d b]) ++ rest) := by
  simp [copyTo]

/-- The loop stands at the pid `i` with the PCBs of the pids before it `copied`: it copies
those of the next `n` pids to the entries that are left. -/
theorem infoLoop_eq (hlive : ∀ p : Pid, getProcess k p = some p → ∃ b, k.procs p = some b)
    (hrest : rest.length = (listed k i n).length) (hcount : copied.length + rest.length = count)
    (hfuel : n ≤ fuel) :
    infoLoop k count fuel i copied.length (copied ++ rest) =
      some (copied ++ List.zipWith copyProcess rest (listed k i n), count) := by
  induction n generalizing i fuel copied rest with
  | zero =>
    obtain rfl : rest = [] := List.eq_nil_of_length_eq_zero hrest
    cases fuel with
    | zero => simp [infoLoop, ← hcount]
    | succ fuel => simp [infoLoop, ← hcount]
  | succ n ih =>
    obtain ⟨fuel, rfl⟩ := Nat.exists_eq_succ_of_ne_zero (Nat.ne_of_gt (Nat.zero_lt_of_lt hfuel))
    have hle : n ≤ fuel := Nat.le_of_succ_le_succ hfuel
    cases rest with
    | nil => simp [infoLoop, ← hcount]
    | cons d rest =>
      have hmore : copied.length < count :=
        hcount ▸ Nat.lt_add_of_pos_right (Nat.succ_pos rest.length)
      rw [infoLoop, if_pos hmore]
      cases hget : getProcess k i with
      | none =>
        have hnext : listed k i (n + 1) = listed k (i + 1) n := by
          simp [listed, List.range'_succ, hget]
        rw [hnext] at hrest ⊢
        exact ih hrest hcount hle
      | some x =>
        obtain rfl := getProcess_eq hget
        obtain ⟨b, hb⟩ := hlive _ hget
        have hnext : listed k i (n + 1) = b :: listed k (i + 1) n := by
          simp [listed, List.range'_succ, hget, hb]
        rw [hnext] at hrest ⊢
        simp only [hb, Option.bind_eq_bind, Option.bind_some, copyTo_append]
        have hlen : (copied ++ [copyProcess d b]).length = copied.length + 1 := by simp
        rw [← hlen, ih (Nat.succ.inj hrest) (by simp at hcount ⊢; omega) hle]
        simp

/-! ## What the loop finds -/

theorem Core.getProcess_iff (C : Core k) (hcur : ∃ c, k.currentProcess = some c ∧
    (c = 0 ∨ c ∈ k.queue .ready)) : getProcess k p = some p ↔ p = 0 ∨ ∃ q, p ∈ k.queue q := by
  obtain ⟨c, hc, hplace⟩ := hcur
  unfold getProcess
  rw [hc, C.idle]
  constructor
  · intro h
    obtain ⟨h, _⟩ := Option.ite_none_right_eq_some.mp h
    rcases h with h | h | h | h | h | h
    · exact .inr ⟨_, h⟩
    · exact .inr ⟨_, h⟩
    · exact .inr ⟨_, h⟩
    · exact .inr ⟨_, h⟩
    · exact Option.some.inj h ▸ hplace.imp_right fun h => ⟨_, h⟩
    · exact .inl (Option.some.inj h).symm
  · rintro (rfl | ⟨q, hq⟩)
    · simp
    · refine if_pos ?_
      cases q with
      | ready => exact .inl hq
      | blocked => exact .inr (.inl hq)
      | blockedBySem => exact .inr (.inr (.inl hq))
      | zombie => exact .inr (.inr (.inr (.inl hq)))

/-- The pids of the PCBs the loop finds below `nextPid`. -/
theorem Core.mem_pids (C : Core k) (hcur : ∃ c, k.currentProcess = some c ∧
    (c = 0 ∨ c ∈ k.queue .ready)) {n : Nat} (hn : k.nextPid ≤ n) :
    p ∈ (listed k 0 n).map PCB.pid ↔ p = 0 ∨ ∃ q, p ∈ k.queue q := by
  rw [List.mem_map]
  constructor
  · rintro ⟨b, hb, rfl⟩
    obtain ⟨p, _, _, hp, hb⟩ := mem_listed.mp hb
    rw [(C.pcb _ _ hb).1]
    exact (C.getProcess_iff hcur).mp hp
  · intro h
    obtain ⟨b, hb⟩ : ∃ b, k.procs p = some b := by
      rcases h with rfl | ⟨q, hq⟩
      · exact C.idleLive
      · obtain ⟨b, hb, _⟩ := C.member q p hq
        exact ⟨b, hb⟩
    obtain ⟨hpid, h0, hlt⟩ := C.pcb p b hb
    obtain ⟨i, rfl⟩ := Int.eq_ofNat_of_zero_le h0
    refine ⟨b, mem_listed.mpr ⟨i, Nat.zero_le i, ?_, (C.getProcess_iff hcur).mpr h, hb⟩, hpid⟩
    rw [Nat.zero_add]
    exact Int.ofNat_lt.mp (Int.lt_of_lt_of_le hlt hn)

theorem Core.listed_sorted (C : Core k) :
    ((listed k i n).map PCB.pid).Pairwise (· < ·) := by
  rw [List.pairwise_map]
  refine List.pairwise_filterMap.mpr (List.Pairwise.imp ?_ List.pairwise_lt_range')
  intro a a' hlt b hb b' hb'
  obtain ⟨x, hx, hb⟩ := Option.bind_eq_some_iff.mp hb
  obtain ⟨x', hx', hb'⟩ := Option.bind_eq_some_iff.mp hb'
  rw [(C.pcb _ _ hb).1, (C.pcb _ _ hb').1, getProcess_eq hx, getProcess_eq hx']
  exact Int.ofNat_lt.mpr hlt

/-- `processCount` counts the pids `getProcess` finds. -/
theorem Core.length_listed (C : Core k) (hcur : ∃ c, k.currentProcess = some c ∧
    (c = 0 ∨ c ∈ k.queue .ready)) {n : Nat} (hn : k.nextPid ≤ n) :
    (listed k 0 n).length = processCount k := by
  let queues := k.queue .ready ++ k.queue .blocked ++ k.queue .blockedBySem ++ k.queue .zombie
  have hmem : ∀ p, p ∈ queues ↔ ∃ q, p ∈ k.queue q := by
    intro p
    simp only [queues, List.mem_append]
    constructor
    · rintro (((h | h) | h) | h) <;> exact ⟨_, h⟩
    · rintro ⟨q, h⟩
      cases q <;> simp [h]
  have hnodup : (0 :: queues).Nodup := by
    refine List.nodup_cons.mpr ⟨fun h => ?_, C.queues_nodup⟩
    obtain ⟨q, hq⟩ := (hmem 0).mp h
    exact C.ne_zero hq rfl
  have hsorted : ((listed k 0 n).map PCB.pid).Nodup :=
    C.listed_sorted.imp fun h => Int.ne_of_lt h
  have hperm : ((listed k 0 n).map PCB.pid).Perm (0 :: queues) := by
    refine (List.perm_ext_iff_of_nodup hsorted hnodup).mpr fun p => ?_
    rw [C.mem_pids hcur hn, List.mem_cons, hmem]
  have hlen := hperm.length_eq
  rw [List.length_map] at hlen
  rw [hlen]
  simp [queues, processCount, Nat.add_assoc]

theorem map_pid_zipWith {memory found : List PCB} (h : memory.length = found.length) :
    (List.zipWith copyProcess memory found).map PCB.pid = found.map PCB.pid := by
  induction memory generalizing found with
  | nil => rw [List.eq_nil_of_length_eq_zero h.symm]; rfl
  | cons d memory ih =>
    cases found with
    | nil => cases h
    | cons b found =>
      rw [List.zipWith_cons_cons, List.map_cons, List.map_cons, ih (Nat.succ.inj h)]
      rfl

/-- One entry for idle and one for each process that was created and not killed, in the order
of their pids, and each is a copy of the PCB. -/
structure ListsAll (k : Kernel) (processInfo : List PCB) : Prop where
  sorted : (processInfo.map PCB.pid).Pairwise (· < ·)
  mem : ∀ p, p ∈ processInfo.map PCB.pid ↔
    k.idleProcess = some p ∨ 0 < p ∧ p < k.nextPid ∧ ∀ a r, .killed p a r ∉ k.log
  entry : ∀ e ∈ processInfo, ∃ dest b, k.procs e.pid = some b ∧ e = copyProcess dest b

end

/-! ## Runs -/

section

variable {m : Machine} {fuel : Nat}

/-- In every run with memory, and without processes of the priority of idle: `getProcessInfo`
probes no pid from `nextPid` on, and returns the list of all processes and its length. -/
theorem reach_processInfo (h : Reach (fun _ => true) LowPriority m) (hfuel : m.k.nextPid ≤ fuel)
    (memory : Nat → PCB) :
    ∃ k processInfo, getProcessInfo m.k fuel memory =
      some (k, some processInfo, processInfo.length) ∧ processInfo.length = processCount m.k ∧
      ListsAll m.k processInfo := by
  obtain ⟨C, _, hcur⟩ := h.core
  have P := h.lives.partitioned C h.core.2.1 hcur
  have hlive : ∀ p : Pid, getProcess m.k p = some p → ∃ b, m.k.procs p = some b := by
    intro p hp
    rcases (C.getProcess_iff hcur).mp hp with rfl | ⟨q, hq⟩
    · exact C.idleLive
    · obtain ⟨b, hb, _⟩ := C.member q p hq
      exact ⟨b, hb⟩
  let array := (List.range (processCount m.k)).map memory
  have harray : array.length = (listed m.k 0 fuel).length := by
    rw [C.length_listed hcur hfuel]
    simp [array]
  have hcount : ([] : List PCB).length + array.length = processCount m.k := by simp [array]
  let found := List.zipWith copyProcess array (listed m.k 0 fuel)
  have hlen : found.length = processCount m.k := by
    rw [List.length_zipWith, ← harray, Nat.min_self]
    simp [array]
  let k' := m.k.allocMemory.2
  have hloop : infoLoop k' (processCount m.k) fuel 0 0 array = some (found, processCount m.k) :=
    @infoLoop_eq k' 0 fuel fuel (processCount m.k) [] array hlive harray hcount (Nat.le_refl _)
  refine ⟨k', found, ?_, hlen, ?_, fun p => ?_, ?_⟩
  · have halloc : m.k.allocMemory = (true, k') := by
      rw [Kernel.allocMemory, h.lives.allocs 0]
      rfl
    simp only [getProcessInfo, halloc, Bool.not_true, Bool.false_eq_true, if_false, array] at hloop ⊢
    rw [hloop, hlen]
    rfl
  · rw [map_pid_zipWith harray]
    exact C.listed_sorted
  · rw [map_pid_zipWith harray, C.mem_pids hcur hfuel, C.idle, Option.some_inj, eq_comm]
    refine or_congr_right ⟨?_, ?_⟩
    · rintro ⟨q, hq⟩
      obtain ⟨b, hb, _⟩ := C.member q p hq
      obtain ⟨_, h0, hn⟩ := C.pcb p b hb
      exact ⟨Int.lt_iff_le_and_ne.mpr ⟨h0, (C.ne_zero hq).symm⟩, hn,
        fun a r hk => (P.gone p a r hk).2 q hq⟩
    · rintro ⟨h0, hn, hk⟩
      exact (P.placed p h0 hn hk).2.exists
  · intro e he
    simp only [found, ← List.map_uncurry_zip_eq_zipWith] at he
    obtain ⟨⟨dest, b⟩, hpair, rfl⟩ := List.mem_map.mp he
    obtain ⟨p, _, _, _, hb⟩ := mem_listed.mp (List.of_mem_zip hpair).2
    exact ⟨dest, b, (C.pcb _ _ hb).1.symm ▸ hb, rfl⟩

/-- Four processes, of which one is killed, one waits for a semaphore and one is blocked, and
memory that holds copies of idle. -/
theorem reach_processInfo_run :
    ∃ m, Reach (fun _ => true) LowPriority m ∧ m.k.nextPid ≤ (6 : Nat) ∧
      ∀ memory, ∃ k processInfo, getProcessInfo m.k 6 memory =
        some (k, some processInfo, processInfo.length) ∧ processInfo.length = processCount m.k ∧
        ListsAll m.k processInfo := by
  obtain ⟨m, _, hm, hn⟩ :
      ∃ m, Run.exec Machine.step LowPriority (boot fun _ => true) blockAndKill = some m ∧
        Reach (fun _ => true) LowPriority m ∧ m.k.nextPid ≤ (6 : Nat) :=
    Run.exists_exec (by decide +kernel)
  exact ⟨m, hm, hn, fun memory => reach_processInfo hm hn memory⟩

end

end SoKernel
