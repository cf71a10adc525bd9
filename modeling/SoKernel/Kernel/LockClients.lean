import SoKernel.Kernel.Waiting
import Mathlib.Data.Finset.Card

/-!
# A semaphore and its clients

Some processes use one semaphore and no other, and nobody else uses it. Unlike in the
histories of `Ledger.lean` others may be killed and close semaphores of their own.

Results:
1. `Running.bypass`: a step that does not use the semaphore leaves it and its clients alone.
2. `Running.clientWaits`, `Running.clientPosts`: the two operations.
-/

namespace SoKernel

/-- The entry is about the semaphore. -/
def Obs.about (id : Int) : Obs → Bool
  | .opened i _ | .took i _ | .queued i _ | .released i _ _ | .absorbed i _ _ | .incremented i _ =>
    i == id
  | _ => false

/-- How often the semaphore has been used. -/
def Kernel.uses (id : Int) (k : Kernel) : Nat := k.log.countP (Obs.about id)

/-- From `k` to `k'` the semaphore has not been used. -/
structure Bypasses (id : Int) (k k' : Kernel) : Prop where
  sem : k'.sems id = k.sems id
  uses : k'.uses id = k.uses id

instance (id : Int) (k k' : Kernel) : Decidable (Bypasses id k k') :=
  decidable_of_iff (k'.sems id = k.sems id ∧ k'.uses id = k.uses id)
    ⟨fun h => ⟨h.1, h.2⟩, fun h => ⟨h.sem, h.uses⟩⟩

/-- The semaphore is open, its queue holds processes that sleep, and the clients are in the queue
of no other one. -/
structure Clients (W : Finset Pid) (id : Int) (k : Kernel) : Prop where
  used : (k.sems id).used = true
  live : (k.sems id).blocked = .live (k.sems id).waiting
  nodup : (k.sems id).waiting.Nodup
  asleep : ∀ p ∈ (k.sems id).waiting, p ∈ W ∧ p ∈ k.queue .blockedBySem
  only : ∀ p ∈ W, ∀ i, k.WaitsFor i p → i = id

section

variable {W : Finset Pid} {id i : Int} {k k0 k' k1 : Kernel} {l : Label} {p c : Pid} {m m' : Machine}
  {e : Event} {off : Nat}

namespace Clients

theorem congr (H : Clients W id k) (hs : k'.sems = k.sems)
    (hq : ∀ p ∈ (k.sems id).waiting, p ∈ k.queue .blockedBySem → p ∈ k'.queue .blockedBySem) :
    Clients W id k' := by
  refine ⟨hs ▸ H.used, hs ▸ H.live, hs ▸ H.nodup, fun p hp => ?_, fun p hp i hw => ?_⟩
  · rw [hs] at hp
    exact ⟨(H.asleep p hp).1, hq p hp (H.asleep p hp).2⟩
  · rw [Kernel.WaitsFor, hs] at hw
    exact H.only p hp i hw

theorem switch {rsp sp : Sp} {n : Pid} (H : Clients W id k) (S : Switch k rsp k' sp c n) :
    Clients W id k' := H.congr S.rest.sems fun _ _ h => (S.rest.mem .blockedBySem _).mpr h

/-- The semaphore is written. -/
theorem setSem {s : Sem} (H : Clients W id k) (hs : k'.sems = Function.update k.sems id s)
    (hu : s.used = true) (hl : s.blocked = .live s.waiting) (hn : s.waiting.Nodup)
    (ha : ∀ p ∈ s.waiting, p ∈ W ∧ p ∈ k'.queue .blockedBySem) : Clients W id k' := by
  have hself : k'.sems id = s := by rw [hs, Function.update_self]
  refine ⟨hself ▸ hu, hself ▸ hl, hself ▸ hn, hself ▸ ha, fun p hp i hw => ?_⟩
  by_contra hi
  rw [Kernel.WaitsFor, hs, Function.update_of_ne hi] at hw
  exact hi (H.only p hp i hw)

/-- Who is ready does not wait. -/
theorem not_waiting (H : Clients W id k) (C : Core k) (hp : p ∈ k.queue .ready) :
    p ∉ (k.sems id).waiting := fun hw => by cases C.queue_eq hp (H.asleep p hw).2

end Clients

/-- A process leaves `blockedQueueBySem` when a post wakes it or when it dies. -/
theorem Effect.stays_asleep (h : Effect l k k') (C : Core k) (hp : p ∈ k.queue .blockedBySem)
    (hw : ∀ i, l ≠ .wake i p) (hd : l ≠ .die p) : p ∈ k'.queue .blockedBySem := by
  have hmove : ∀ {x f t} (b' : PCB), f ≠ t → (f = .blockedBySem → p ≠ x) →
      p ∈ (k.move f t x b').queue .blockedBySem :=
    fun b' hft hx => (mem_move (C.nodup _) hft).mpr (.inl ⟨hp, fun hf => hx hf.symm⟩)
  cases h with
  | @die _ x f _ b' _ hf =>
    have hmem : p ∈ (k.move f .zombie x b').queue .blockedBySem :=
      hmove b' hf fun _ hx => hd (by rw [hx])
    exact hmem
  | @wake _ i x _ _ b' =>
    have hmem : p ∈ (k.move .blockedBySem .ready x b').queue .blockedBySem :=
      hmove b' (by decide) fun _ hx => hw i (by rw [hx])
    exact hmem
  | block => exact hmove _ (by decide) (by simp)
  | unblock => exact hmove _ (by decide) (by simp)
  | @sleep _ _ _ _ _ b' => exact hmove b' (by decide) (by simp)
  | stray => exact hmove _ (by decide) (by simp)
  | enter _ _ _ _ hq =>
    rcases hq with ⟨rfl, _⟩ | ⟨rfl, _⟩ <;> simpa [Kernel.setQueue] using hp
  | reap => simpa [Kernel.setQueue, Kernel.freePCB] using hp
  | _ => exact hp

/-! ## Steps of others -/

theorem Effect.uses_le (h : Effect l k k') : k.uses id ≤ k'.uses id := by
  unfold Kernel.uses
  rcases h.log with he | ⟨o, he, _⟩
  · rw [he]
  · rw [he, List.countP_cons]
    exact Nat.le_add_right _ _

/-- An effect on the semaphore is in the history, if it does not close it and has memory for the
queue of the semaphore it opens. -/
theorem Effect.uses_of_sem (h : Effect l k k') (hs : k'.sems id ≠ k.sems id) :
    k'.uses id = k.uses id + 1 ∨ (k'.sems id).used = false ∨ (k'.sems id).blocked = .null := by
  have hcount : ∀ {o : Obs} {log : List Obs}, o.about id = true →
      (o :: log).countP (Obs.about id) = log.countP (Obs.about id) + 1 :=
    fun ho => List.countP_cons_of_pos ho
  have hset : ∀ {i : Int} {s : Sem}, (k.setSem i s).sems id ≠ k.sems id → i = id := by
    intro i s hne
    by_contra hi
    exact hne (by simp [Kernel.setSem, Ne.symm hi])
  cases h with
  | took => exact .inl (hcount (by simp [Obs.about, hset hs]))
  | sleep => exact .inl (hcount (by simp [Obs.about, hset hs]))
  | wake => exact .inl (hcount (by simp [Obs.about, hset hs]))
  | absorb => exact .inl (hcount (by simp [Obs.about, hset hs]))
  | incr => exact .inl (hcount (by simp [Obs.about, hset hs]))
  | semOpened => exact .inl (hcount (by simp [Obs.about, hset hs]))
  | semUnqueued =>
    obtain rfl := hset hs
    exact .inr (.inr (by simp [Kernel.setSem]))
  | semClosed =>
    obtain rfl := hset hs
    exact .inr (.inl (by simp [Kernel.setSem]))
  | _ => exact absurd rfl hs

/-- A semaphore that is closed, or has no queue, stays so until it is opened again. -/
theorem Effect.stays_broken (h : Effect l k k')
    (hk : (k.sems id).used = false ∨ (k.sems id).blocked = .null) :
    k.uses id < k'.uses id ∨ (k'.sems id).used = false ∨ (k'.sems id).blocked = .null := by
  by_cases hs : k'.sems id = k.sems id
  · exact .inr (hs ▸ hk)
  · exact (h.uses_of_sem hs).imp_left fun hu => Nat.lt_of_succ_le (Nat.le_of_eq hu.symm)

/-- What may have become of the semaphore between `k0` and `k`. -/
structure Passing (W : Finset Pid) (id : Int) (k0 k : Kernel) : Prop where
  le : k0.uses id ≤ k.uses id
  cases : Clients W id k ∧ k.sems id = k0.sems id ∨ k0.uses id < k.uses id ∨
    (k.sems id).used = false ∨ (k.sems id).blocked = .null

theorem Passing.effect (P : Passing W id k0 k) (C : Core k) (h : Effect l k k')
    (hd : ∀ p ∈ (k0.sems id).waiting, l ≠ .die p) (hsleep : ∀ p ∈ W, ∀ i q, l ≠ .sleep i p q) :
    Passing W id k0 k' := by
  have hle : k.uses id ≤ k'.uses id := h.uses_le
  refine ⟨Nat.le_trans P.le hle, ?_⟩
  rcases P.cases with ⟨H, hsem⟩ | hlt | hbroken
  · by_cases hs : k'.sems id = k.sems id
    · have hwaiting : (k'.sems id).waiting = (k0.sems id).waiting := by rw [hs, hsem]
      refine .inl ⟨⟨hs ▸ H.used, hs ▸ H.live, hs ▸ H.nodup, fun p hp => ?_, fun p hp i hw => ?_⟩,
        hs.trans hsem⟩
      · have hp0 : p ∈ (k.sems id).waiting := hs ▸ hp
        refine ⟨(H.asleep p hp0).1, h.stays_asleep C (H.asleep p hp0).2 ?_ (hd p (hwaiting ▸ hp))⟩
        rintro i rfl
        -- it is in the queue of this semaphore only, and that is as it was
        cases h with
        | @wake _ _ _ pids _ _ _ hb =>
          obtain rfl := H.only p (H.asleep p hp0).1 i ⟨_, hb, List.mem_cons_self⟩
          have hback : SemQueue.live pids = .live (p :: pids) :=
            calc SemQueue.live pids = (Kernel.sems _ i).blocked := by
                  simp [Kernel.observe, Kernel.move, Kernel.setPCB, Kernel.setQueue, Kernel.setSem]
              _ = _ := (congrArg Sem.blocked hs).trans hb
          exact absurd (SemQueue.live.inj hback) (by simp)
      · rcases h.waitsFor hw with hw | rfl
        · exact H.only p hp i hw
        · exact absurd rfl (hsleep p hp i true)
    · refine .inr ((h.uses_of_sem hs).imp_left fun hu => ?_)
      rw [hu]
      exact Nat.lt_succ_of_le P.le
  · exact .inr (.inl (Nat.lt_of_lt_of_le hlt hle))
  · exact .inr ((h.stays_broken hbroken).imp_left (Nat.lt_of_le_of_lt P.le))

theorem Passing.switch {rsp sp : Sp} {n : Pid} (P : Passing W id k0 k)
    (S : Switch k rsp k' sp c n) : Passing W id k0 k' := by
  have hcount : k'.uses id = k.uses id := by
    unfold Kernel.uses
    rw [S.log]
    cases k.first <;> rfl
  refine ⟨hcount ▸ P.le, ?_⟩
  rw [hcount, S.rest.sems]
  exact P.cases.imp_left (And.imp_left fun H => H.switch S)

/-- A step that does not use the semaphore, kills nobody who waits for it and sends no client to
sleep. -/
theorem Running.bypass (R : Running m c) (H : Clients W id m.k) (h : m.step e = some m')
    (hb : Bypasses id m.k m'.k) (hd : ∀ p ∈ (m.k.sems id).waiting, ¬ e.Kills m p)
    (hsleep : ∀ p ∈ W, ∀ i q, ¬ e.Admits m c (.sleep i p q)) : Clients W id m'.k := by
  have hpass : Passing W id m.k m'.k := by
    refine R.kernel (P := Passing W id m.k) h ⟨Nat.le_refl _, .inl ⟨H, rfl⟩⟩ ?_ ?_
    · intro l k k' hl C P he
      refine P.effect C he ?_ ?_
      · rintro p hp rfl
        exact hd p hp ((hl.resolve_left (by simp)).die R.settled.current)
      · rintro p hp i q rfl
        exact hsleep p hp i q (hl.resolve_left (by simp))
    · exact fun _ P S => P.switch S
  rcases hpass.cases with ⟨H', _⟩ | hlt | hu | hn
  · exact H'
  · exact absurd hb.uses (Nat.ne_of_gt hlt)
  · rw [hb.sem, H.used] at hu
    cases hu
  · rw [hb.sem, H.live] at hn
    cases hn

/-- Who goes to sleep is the process executing, in a call or after one. -/
theorem Event.Admits.sleeper {q : Bool} (h : e.Admits m c (.sleep i p q)) :
    p = c ∧ ((∃ off, e = .resume off) ∨ ∃ off sc, e = .call off sc ∧ sc.Pauses) := by
  cases e with
  | tick => cases h
  | resume off => exact ⟨h, .inl ⟨off, rfl⟩⟩
  | ctrlC => simp [Event.Admits, Label.Killing, Label.Mourning] at h
  | call off sc =>
    rcases h with h | ⟨hp, h⟩ | h
    · cases sc <;> simp [Call.Admits, Label.Killing, Label.Mourning, Label.Creating,
        Label.Counting] at h
    · exact ⟨h, .inr ⟨off, sc, rfl, hp⟩⟩
    · cases h

/-! ## Steps of the clients -/

theorem Machine.interrupt_clients (C : Core m.k) (H : Clients W id m.k)
    (h : m.interrupt off = some m') : Clients W id m'.k ∧ m'.k.sems = m.k.sems := by
  rcases Machine.interrupt_cases C h with ⟨_, rfl⟩ | ⟨_, _, _, _, S, _⟩
  · exact ⟨H.congr rfl fun _ _ h => h, rfl⟩
  · exact ⟨H.switch S, S.rest.sems⟩

theorem Running.executing (R : Running m c) (hcalls : m.Calls) :
    Executing m.k c ∧ c ∈ m.k.queue .ready ∧ m.cpu = c := by
  have hne : m.k.currentProcess ≠ m.k.idleProcess := hcalls.2.2
  have h0 : c ≠ 0 := by
    rintro rfl
    exact hne (R.settled.current.trans R.core.idle.symm)
  exact ⟨⟨R.settled.current, hne⟩, R.settled.place.resolve_left h0, R.cpu h0⟩

/-- A client goes to sleep. -/
theorem Clients.sleep (H : Clients W id k) (C : Core k) (hW : p ∈ W)
    (h : Effect (.sleep id p true) k k') : Clients W id k' ∧ (k.sems id).value = 0 ∧
      (k'.sems id).value = 0 ∧ (k'.sems id).waiting = (k.sems id).waiting ++ [p] := by
  cases h with
  | @sleep _ _ _ pids b b' _ hv hb _ hready =>
    have hpids : (k.sems id).waiting = pids := by rw [Sem.waiting, hb]
    have hnot : p ∉ pids := hpids ▸ H.not_waiting C hready
    have hmem : ∀ {x}, x ∈ (k.move .ready .blockedBySem p b').queue .blockedBySem ↔
        x ∈ k.queue .blockedBySem ∨ x = p := by
      intro x
      rw [mem_move (C.nodup .ready) (by decide)]
      simp
    refine ⟨H.setSem rfl H.used rfl ?_ fun x hx => ?_, hv, ?_, ?_⟩
    · refine List.nodup_append.mpr ⟨hpids ▸ H.nodup, List.nodup_singleton p, ?_⟩
      rintro x hx y hy rfl
      exact hnot (List.mem_singleton.mp hy ▸ hx)
    · rcases List.mem_append.mp hx with hx | hx
      · have hx0 := H.asleep x (hpids ▸ hx)
        exact ⟨hx0.1, hmem.mpr (.inl hx0.2)⟩
      · obtain rfl := List.mem_singleton.mp hx
        exact ⟨hW, hmem.mpr (.inr rfl)⟩
    · show (Function.update k.sems id _ id).value = 0
      rw [Function.update_self]
      exact hv
    · show (Function.update k.sems id _ id).waiting = _
      rw [Function.update_self, hpids]
      rfl

/-- The client that has waited longest is woken. -/
theorem Clients.wake (H : Clients W id k) (C : Core k) (h : Effect (.wake id p) k k') :
    Clients W id k' ∧ (k.sems id).waiting = p :: (k'.sems id).waiting ∧
      (k'.sems id).value = (k.sems id).value := by
  cases h with
  | @wake _ _ _ pids _ b' _ hb =>
    have hpids : (k.sems id).waiting = p :: pids := by rw [Sem.waiting, hb]
    have hnd := List.nodup_cons.mp (hpids ▸ H.nodup)
    refine ⟨H.setSem rfl H.used rfl hnd.2 fun x hx => ?_, ?_, ?_⟩
    · have hx0 := H.asleep x (hpids ▸ List.mem_cons_of_mem _ hx)
      have hxp : x ≠ p := fun h => hnd.1 (h ▸ hx)
      have hmem : x ∈ (k.move .blockedBySem .ready p b').queue .blockedBySem :=
        (mem_move (C.nodup .blockedBySem) (by decide)).mpr (.inl ⟨hx0.2, fun _ => hxp⟩)
      exact ⟨hx0.1, hmem⟩
    · show _ = p :: (Function.update k.sems id _ id).waiting
      rw [Function.update_self, hpids]
      rfl
    · show (Function.update k.sems id _ id).value = _
      rw [Function.update_self]

/-- `semWait` takes the token there is, or the client joins the queue. -/
theorem Running.clientWaits (R : Running m c) (H : Clients W id m.k) (hid : Machine.SemIdOk id)
    (hW : c ∈ W) (hall : ∀ n, m.k.allocs n = true)
    (h : m.step (.call off (.semWait id)) = some m') : Clients W id m'.k ∧
      ((m.k.sems id).value = (m'.k.sems id).value + 1 ∧
          (m'.k.sems id).waiting = (m.k.sems id).waiting ∨
        (m.k.sems id).value = 0 ∧ (m'.k.sems id).value = 0 ∧
          (m'.k.sems id).waiting = (m.k.sems id).waiting ++ [c]) := by
  simp only [Machine.step] at h
  split at h
  · next hcalls =>
    obtain ⟨E, hready, _⟩ := R.executing hcalls
    rw [Machine.call, if_pos hid] at h
    obtain ⟨⟨k1, flow⟩, hwait, h⟩ := Option.bind_eq_some_iff.mp h
    rcases wait_cases E.current hready hwait with ⟨he, rfl⟩ | ⟨_, _, ha, _⟩ |
      ⟨a, k2, queued, _, he, rfl, rfl, hq⟩
    · cases he with
      | took _ hv =>
        have hs : m'.k.sems = Function.update m.k.sems id
            { m.k.sems id with value := (m.k.sems id).value - 1 } := by
          cases h
          rfl
        have hq : m'.k.queue = m.k.queue := by
          cases h
          rfl
        refine ⟨H.setSem hs H.used H.live H.nodup (hq ▸ H.asleep), .inl ?_⟩
        rw [hs, Function.update_self]
        exact ⟨(Nat.sub_add_cancel hv).symm, rfl⟩
    · cases (hall 0).symm.trans ha
    · obtain rfl := hq hall ⟨_, H.live⟩
      have C1 : Core { m.k with allocs := a } := R.core.congr rfl rfl rfl rfl rfl rfl rfl
      have H1 : Clients W id { m.k with allocs := a } := H.congr rfl fun _ _ h => h
      obtain ⟨H2, hv, hv2, hw2⟩ := H1.sleep C1 hW he
      have C2 : Core { k2 with quantum := 0 } :=
        (C1.effect he).congr rfl rfl rfl rfl rfl rfl rfl
      obtain ⟨H', hs⟩ := Machine.interrupt_clients
        (m := (m.withKernel { k2 with quantum := 0 }).setCont (.waited id (.ret 0))) C2
        (H2.congr rfl fun _ _ h => h) h
      have hself : m'.k.sems id = k2.sems id := congrFun hs id
      rw [hself]
      exact ⟨H', .inr ⟨hv, hv2, hw2⟩⟩
  · cases h

/-- `semPost` wakes the client that has waited longest, or gives the token back. -/
theorem Running.clientPosts (R : Running m c) (H : Clients W id m.k) (hid : Machine.SemIdOk id)
    (h : m.step (.call off (.semPost id)) = some m') : Clients W id m'.k ∧
      ((∃ p, (m.k.sems id).waiting = p :: (m'.k.sems id).waiting) ∧
          (m'.k.sems id).value = (m.k.sems id).value ∨
        (m.k.sems id).waiting = [] ∧ (m'.k.sems id).waiting = [] ∧
          (m'.k.sems id).value = ((m.k.sems id).value + 1) % 2 ^ 32) := by
  simp only [Machine.step] at h
  split at h
  · rw [Machine.call, if_pos hid] at h
    obtain ⟨⟨k1, flow⟩, hpost, h⟩ := Option.bind_eq_some_iff.mp h
    obtain ⟨rfl, l, he, hl⟩ := semPost_cases hpost
    have hsems : m'.k.sems = k1.sems := by
      cases h
      rfl
    have hqueue : m'.k.queue = k1.queue := by
      cases h
      rfl
    rw [hsems]
    rcases hl with ⟨p, rfl⟩ | ⟨p, rfl⟩ | rfl
    · obtain ⟨H1, hw, hv⟩ := H.wake R.core he
      exact ⟨H1.congr hsems fun _ _ h => hqueue ▸ h, .inl ⟨⟨p, hw⟩, hv⟩⟩
    · cases he with
      | absorb _ hb hp =>
        have hin : p ∈ (m.k.sems id).waiting := by
          rw [Sem.waiting, hb]
          exact List.mem_cons_self
        exact absurd (H.asleep p hin).2 hp
    · cases he with
      | incr _ hb =>
        have hnil : (m.k.sems id).waiting = [] := by
          rcases hb with hb | hb <;> rw [Sem.waiting, hb]
        refine ⟨H.setSem hsems H.used H.live H.nodup ?_, .inr ?_⟩
        · rw [hqueue]
          exact H.asleep
        · show _ ∧ (Function.update m.k.sems id _ id).waiting = [] ∧
            (Function.update m.k.sems id _ id).value = _
          rw [Function.update_self]
          exact ⟨hnil, hnil, rfl⟩
  · cases h

end

end SoKernel
