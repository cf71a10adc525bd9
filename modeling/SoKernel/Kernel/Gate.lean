import SoKernel.Kernel.StackLayout
import SoKernel.Lib.StackCode

/-!
# The way into the kernel and out of it

The handlers of `interrupts.asm` and the `syscall` of the programs, as code of the CPU. The C
functions they call are parameters.

Results:
1. `irq00_spec`: the timer interrupt leaves the context it has interrupted on the stack, and goes
   on with the one that lies where `schedule` points.
2. `syscall_spec`: `syscall` calls `syscallDispatcher` with its own arguments and returns its
   result.
-/

namespace SoKernel.Gate

/-! ## `interrupts.asm` -/

/-- `pushState` -/
def pushState : List Instr :=
  [.r15, .r14, .r13, .r12, .r11, .r10, .r9, .r8, .rbp, .rdi, .rsi, .rdx, .rcx, .rbx, .rax].map
    fun r => .push (.reg r)

/-- The registers of `popState`, in its order. -/
def savedRegs : List Reg :=
  [.rax, .rbx, .rcx, .rdx, .rsi, .rdi, .rbp, .r8, .r9, .r10, .r11, .r12, .r13, .r14, .r15]

/-- `popState` -/
def popState : List Instr := savedRegs.map .pop

/-- `sendEOI` -/
def sendEOI : List Instr := [.movLow .rax 0x20, .out 0x20]

/-- `_irq00Handler` -/
def irq00Handler (timerHandler schedule : Cpu → Cpu) : List Instr :=
  pushState ++ [.call timerHandler, .mov .rdi (.reg .rsp), .call schedule, .mov .rsp (.reg .rax)] ++
    sendEOI ++ popState ++ [.iretq]

/-- `_irq80Handler` -/
def irq80Handler (syscallDispatcher : Cpu → Cpu) : List Instr :=
  [.push (.reg .rbp), .mov .rbp (.reg .rsp), .push (.reg .rbx),
    .mov .rdi (.reg .rax), .mov .rsi (.reg .rbx), .mov .rax (.reg .rdx), .mov .rdx (.reg .rcx),
    .mov .rcx (.reg .rax), .call syscallDispatcher,
    .pop .rbx, .mov .rsp (.reg .rbp), .pop .rbp, .iretq]

/-- `int 80h` -/
def int80 (handler : UInt64) (syscallDispatcher : Cpu → Cpu) : Instr :=
  .call fun c => execAll (c.enter handler) (irq80Handler syscallDispatcher)

/-! ## `syscalls.asm` of the programs -/

/-- `syscall` -/
def syscall (handler : UInt64) (syscallDispatcher : Cpu → Cpu) : List Instr :=
  [.push (.reg .rbp), .mov .rbp (.reg .rsp), .push (.reg .rbx), .push (.reg .r12),
    .push (.reg .r13), .push (.reg .r15),
    .mov .rax (.reg .rdi), .mov .rbx (.reg .rsi), .mov .rdi (.reg .rdx), .mov .rdx (.reg .rcx),
    .mov .rcx (.reg .rdi), int80 handler syscallDispatcher,
    .pop .r15, .pop .r13, .pop .r12, .pop .rbx, .mov .rsp (.reg .rbp), .pop .rbp, .ret]

/-! ## Contexts on the stack -/

/-- A context as the handlers leave it on the stack, from the stack pointer on. -/
def frame (x : Context) : List UInt64 := savedRegs.map x.reg ++ x.pushed

section Handlers

variable {c d : Cpu} {x : Context} {S : Set Nat} {sp handler : UInt64} {ws : List UInt64}
  {timerHandler schedule : Cpu → Cpu} {a : Nat}

theorem savedRegs_nodup : savedRegs.Nodup := by decide

theorem rsp_not_saved : .rsp ∉ savedRegs := by decide

/-- They are all registers but the stack pointer. -/
theorem mem_savedRegs {r : Reg} (h : r ≠ .rsp) : r ∈ savedRegs := by
  cases r <;> first | exact absurd rfl h | decide

theorem execAll_pushState : execAll c pushState = c.pushAll (savedRegs.reverse.map c.reg) :=
  execAll_pushes savedRegs.reverse (by decide)

/-- The handler of the timer has put everything on the stack. -/
def interrupted (c : Cpu) (handler : UInt64) : Cpu := execAll (c.enter handler) pushState

/-- Below the stack pointer there is room for a context. -/
def Room (c : Cpu) : Prop := 8 * 20 ≤ (c.rsp &&& -16).toNat

theorem Room.enter (h : Room c) : 40 ≤ (c.rsp &&& -16).toNat := le_trans (by decide) h

theorem Room.saved (h : Room c) :
    8 * (savedRegs.reverse.map (c.enter handler).reg).length ≤ (c.enter handler).rsp.toNat := by
  rw [enter_rsp h.enter]
  exact Nat.le_sub_of_add_le h

theorem interrupted_stack (handler : UInt64) (h : Room c) :
    Stack (interrupted c handler) (frame c.toContext) := by
  have hstack := (enter_stack handler h.enter).pushAll _ h.saved
  rw [interrupted, execAll_pushState]
  have hregs : (savedRegs.reverse.map (c.enter handler).reg).reverse = savedRegs.map c.reg := by
    rw [List.map_reverse, List.reverse_reverse]
    exact List.map_congr_left fun r hr => enter_reg fun he => rsp_not_saved (he ▸ hr)
  rw [hregs] at hstack
  exact hstack

theorem interrupted_rsp (h : Room c) :
    (interrupted c handler).rsp.toNat = (c.rsp &&& -16).toNat - 8 * 20 := by
  rw [interrupted, execAll_pushState, pushAll_rsp _ h.saved, enter_rsp h.enter]
  exact Nat.sub_sub _ 40 _

/-- Only the context is written. -/
theorem interrupted_mem (h : Room c) (ha : a ∉ span ((c.rsp &&& -16).toNat - 8 * 20) 20) :
    (interrupted c handler).mem a = c.mem a := by
  have hsplit := span_below (m := 5) (n := 15) h
  rw [interrupted, execAll_pushState]
  refine (pushAll_mem _ h.saved fun hin => ha (hsplit (.inr ?_))).trans
    (enter_mem h.enter fun hin => ha (hsplit (.inl hin)))
  rwa [enter_rsp h.enter] at hin

/-! ## The timer -/

/-- The end of the handler, on a stack with a context. -/
theorem popState_iretq (h : Stack c (frame x)) :
    (execAll c (popState ++ [.iretq])).toContext = x ∧
      (execAll c (popState ++ [.iretq])).mem = c.mem := by
  obtain ⟨hs, P⟩ := h.popAll savedRegs (List.length_map ..).symm savedRegs_nodup rsp_not_saved
  rw [execAll_append, popState, execAll_pops]
  have hmem := foldl_pop_mem savedRegs (c := c)
  generalize savedRegs.foldl Cpu.pop c = d at hs P hmem ⊢
  refine ⟨(Stack.iretq (List.append_nil x.pushed ▸ hs)).trans ?_, hmem⟩
  refine Context.ext (funext fun r => ?_) rfl rfl rfl rfl
  rcases eq_or_ne r .rsp with rfl | hr
  · exact Function.update_self Reg.rsp _ d.reg
  · exact (Function.update_of_ne hr _ d.reg).trans
      (List.map_inj_left.mp P.popped r (mem_savedRegs hr))

theorem sendEOI_rsp : (execAll c sendEOI).rsp = c.rsp := set_of_ne (by decide)

theorem sendEOI_mem : (execAll c sendEOI).mem = c.mem := rfl

/-- The timer interrupt. The functions it calls leave `S` alone, and `schedule` returns `sp`. -/
structure Serves (S : Set Nat) (sp : UInt64) (timerHandler schedule : Cpu → Cpu) : Prop where
  timerKeeps : ∀ c, Keeps S c (timerHandler c)
  scheduleKeeps : ∀ c, Keeps S c (schedule c)
  returns : ∀ c, (schedule c).reg .rax = sp

/-- What the handler of the timer leaves in memory, and where it goes on. -/
theorem irq00_spec (hroom : Room c) (hserves : Serves S sp timerHandler schedule)
    (hS : span ((c.rsp &&& -16).toNat - 8 * 20) 20 ⊆ S) {c' : Cpu}
    (hc : c' = execAll (c.enter handler) (irq00Handler timerHandler schedule)) :
    WordsAt c'.mem ((c.rsp &&& -16).toNat - 8 * 20) (frame c.toContext) ∧
      (∀ a ∈ S, a ∉ span ((c.rsp &&& -16).toNat - 8 * 20) 20 → c'.mem a = c.mem a) ∧
      ∀ x, WordsAt c'.mem sp.toNat (frame x) → c'.toContext = x := by
  obtain ⟨d, hd⟩ : ∃ d, d = (timerHandler (interrupted c handler)).set .rdi
      (timerHandler (interrupted c handler)).rsp := ⟨_, rfl⟩
  have hkept : Set.EqOn (schedule d).mem (interrupted c handler).mem S := by
    refine (hserves.scheduleKeeps d).mem.trans ?_
    rw [hd]
    exact (hserves.timerKeeps (interrupted c handler)).mem
  obtain ⟨f, hf⟩ : ∃ f, f = execAll ((schedule d).set .rsp sp) sendEOI := ⟨_, rfl⟩
  have hrun : c' = execAll f (popState ++ [.iretq]) := by
    rw [interrupted] at hd
    simp only [hc, irq00Handler, List.append_assoc, execAll_append, execAll_cons, execAll_nil,
      Instr.exec, Operand.value]
    rw [← hd, hserves.returns, hf]
  have hfmem : f.mem = (schedule d).mem := by rw [hf, sendEOI_mem]; rfl
  have hfsp : f.rsp = sp := by
    rw [hf, sendEOI_rsp]
    exact set_self
  have hmem : c'.mem = (schedule d).mem := by
    rw [hrun, execAll_append, popState, execAll_pops, ← hfmem]
    exact iretq_mem.trans (foldl_pop_mem _)
  refine ⟨?_, fun a ha hout => ?_, fun x hx => ?_⟩
  · have hstack := interrupted_stack handler hroom
    rw [Stack, interrupted_rsp hroom] at hstack
    rw [hmem]
    exact hstack.congr (hkept.mono hS)
  · rw [hmem, hkept ha]
    exact interrupted_mem hroom hout
  · rw [hrun]
    refine (popState_iretq ?_).1
    rw [Stack, hfmem, hfsp, ← hmem]
    exact hx

end Handlers

/-! ## System calls -/

/-- The registers a C function has to preserve. -/
def calleeSaved : List Reg := [.rbx, .rbp, .r12, .r13, .r14, .r15]

/-- A C function that leaves `S` alone. -/
structure CFunction (S : Set Nat) (f : Cpu → Cpu) : Prop where
  keeps : ∀ c, Keeps S c (f c)
  preserved : ∀ c, ∀ r ∈ calleeSaved, (f c).reg r = c.reg r

/-- `f` has been called with the arguments, from code that writes nothing but `T`; its result is
in `rax`. -/
structure Called (f : Cpu → Cpu) (args : List UInt64) (T : Set Nat) (c c' : Cpu) : Prop where
  call : ∃ d : Cpu, [Reg.rdi, .rsi, .rdx, .rcx].map d.reg = args ∧ Set.EqOn d.mem c.mem Tᶜ ∧
    c'.reg .rax = (f d).reg .rax ∧ c'.mem = (f d).mem
  preserved : ∀ r ∈ calleeSaved, c'.reg r = c.reg r

section Calls

variable {c c' : Cpu} {S : Set Nat} {handler : UInt64}
  {syscallDispatcher : Cpu → Cpu} {a : Nat}

/-- `_irq80Handler`, up to the return of `syscallDispatcher`. -/
def passArguments : List Instr :=
  [.mov .rdi (.reg .rax), .mov .rsi (.reg .rbx), .mov .rax (.reg .rdx), .mov .rdx (.reg .rcx),
    .mov .rcx (.reg .rax)]

theorem irq80Handler_eq : irq80Handler syscallDispatcher =
    framed [.rbx] (passArguments ++ [.call syscallDispatcher]) ++ [.iretq] := rfl

theorem passArguments_args : [Reg.rdi, .rsi, .rdx, .rcx].map (execAll c passArguments).reg =
    [c.reg .rax, c.reg .rbx, c.reg .rcx, c.reg .rdx] := rfl

theorem passArguments_other {r : Reg} (h : r ∉ [Reg.rdi, .rsi, .rax, .rdx, .rcx]) :
    (execAll c passArguments).reg r = c.reg r := by
  simp only [List.mem_cons, List.not_mem_nil, or_false, not_or] at h
  obtain ⟨hdi, hsi, hax, hdx, hcx⟩ := h
  simp only [passArguments, execAll_cons, execAll_nil, Instr.exec]
  rw [set_of_ne hcx, set_of_ne hdx, set_of_ne hax, set_of_ne hsi, set_of_ne hdi]

/-- Where a system call can be made. -/
def CallRoom (c : Cpu) : Prop := 8 * 7 ≤ (c.rsp &&& -16).toNat

theorem CallRoom.enter (h : CallRoom c) : 40 ≤ (c.rsp &&& -16).toNat := le_trans (by decide) h

/-- `int 80h` calls `syscallDispatcher` with `rax`, `rbx`, `rcx` and `rdx`. -/
theorem int80_spec (hroom : CallRoom c) (hf : CFunction S syscallDispatcher)
    (hS : span ((c.rsp &&& -16).toNat - 8 * 7) 7 ⊆ S)
    (hc : c' = (int80 handler syscallDispatcher).exec c) :
    Called syscallDispatcher [c.reg .rax, c.reg .rbx, c.reg .rcx, c.reg .rdx]
        (span ((c.rsp &&& -16).toNat - 8 * 7) 7) c c' ∧
      c'.toContext = { c.toContext with reg := c'.reg } ∧ c'.rsp = c.rsp := by
  obtain ⟨e, he⟩ : ∃ e, e = c.enter handler := ⟨_, rfl⟩
  have hsp : e.rsp.toNat = (c.rsp &&& -16).toNat - 40 := he ▸ enter_rsp hroom.enter
  have hreg : ∀ {r : Reg}, r ≠ .rsp → e.reg r = c.reg r := fun h => he ▸ enter_reg h
  have hstack : Stack e c.pushed := he ▸ enter_stack handler hroom.enter
  have hlow : 8 * 2 ≤ e.rsp.toNat := hsp ▸ Nat.le_sub_of_add_le hroom
  obtain ⟨o, ho⟩ : ∃ o, o = execAll e (prologue [.rbx]) := ⟨_, rfl⟩
  have horeg : ∀ {r : Reg}, r ≠ .rsp → r ≠ .rbp → o.reg r = c.reg r := fun h h' =>
    (ho ▸ opened_reg _ (by decide) (by decide) h h').trans (hreg h)
  have hkeeps : Keeps S o (syscallDispatcher (execAll o passArguments)) :=
    ⟨(hf.keeps _).rsp.trans (passArguments_other (by decide)), (hf.keeps _).mem⟩
  have hspan : e.rsp.toNat - 8 * 2 = (c.rsp &&& -16).toNat - 8 * 7 := by rw [hsp, Nat.sub_sub]
  have hrbp : (syscallDispatcher (execAll o passArguments)).reg .rbp = o.reg .rbp :=
    (hf.preserved _ .rbp (by decide)).trans (passArguments_other (by decide))
  have F : Framed [.rbx] c.pushed e (syscallDispatcher (execAll o passArguments))
      (execAll e (framed [.rbx] (passArguments ++ [.call syscallDispatcher]))) := by
    rw [ho] at hkeeps hrbp ⊢
    exact framed_spec [.rbx] (by decide) (by decide) (by decide) hstack hlow
      (by rw [execAll_append]; rfl) hkeeps (hspan.symm ▸ hS) hrbp
  have hrun :
      c' = (execAll e (framed [.rbx] (passArguments ++ [.call syscallDispatcher]))).iretq := by
    rw [hc, he]
    rfl
  have hcontext := Stack.iretq (List.append_nil c.pushed ▸ F.stack)
  rw [← hrun] at hcontext
  have hafter : ∀ {r : Reg}, r ≠ .rsp → c'.reg r =
      (execAll e (framed [.rbx] (passArguments ++ [.call syscallDispatcher]))).reg r := by
    intro r hr
    rw [hcontext]
    exact Function.update_of_ne hr ..
  refine ⟨⟨⟨execAll o passArguments, ?_, fun a ha => ?_, ?_, ?_⟩, fun r hr => ?_⟩, ?_, ?_⟩
  · rw [passArguments_args, horeg (by decide) (by decide), horeg (by decide) (by decide),
      horeg (by decide) (by decide), horeg (by decide) (by decide)]
  · have hsplit := span_below (m := 5) (n := 2) hroom
    show o.mem a = c.mem a
    rw [ho, opened_mem [.rbx] (by decide) (by decide) hlow fun hin => ha (hsplit (.inr ?_)),
      he, enter_mem hroom.enter fun hin => ha (hsplit (.inl hin))]
    rwa [hsp] at hin
  · exact (hafter (by decide)).trans (F.others .rax (by decide) (by decide) (by decide))
  · exact hrun ▸ iretq_mem.trans F.mem
  · have hr' : r ≠ .rsp := ne_of_mem_of_not_mem hr (by decide)
    rw [hafter hr']
    by_cases hs : r ∈ [.rbx] ∨ r = .rbp
    · exact (F.saved r hs).trans (hreg hr')
    · obtain ⟨hbx, hbp⟩ := not_or.mp hs
      rw [F.others r hbx hbp hr', hf.preserved _ r hr, passArguments_other, horeg hr' hbp]
      exact fun h => absurd hr (by revert r; decide)
  · rw [hcontext]
  · simpa only [Function.update_self] using congrFun (congrArg Context.reg hcontext) .rsp

/-- `syscall`, up to its `int 80h`. -/
def passToGate : List Instr :=
  [.mov .rax (.reg .rdi), .mov .rbx (.reg .rsi), .mov .rdi (.reg .rdx), .mov .rdx (.reg .rcx),
    .mov .rcx (.reg .rdi)]

theorem syscall_eq : syscall handler syscallDispatcher =
    framed [.rbx, .r12, .r13, .r15] (passToGate ++ [int80 handler syscallDispatcher]) ++ [.ret] :=
  rfl

theorem passToGate_args : [Reg.rax, .rbx, .rcx, .rdx].map (execAll c passToGate).reg =
    [c.reg .rdi, c.reg .rsi, c.reg .rdx, c.reg .rcx] := rfl

theorem passToGate_other {r : Reg} (h : r ∉ [Reg.rax, .rbx, .rdi, .rdx, .rcx]) :
    (execAll c passToGate).reg r = c.reg r := by
  simp only [List.mem_cons, List.not_mem_nil, or_false, not_or] at h
  obtain ⟨hax, hbx, hdi, hdx, hcx⟩ := h
  simp only [passToGate, execAll_cons, execAll_nil, Instr.exec]
  rw [set_of_ne hcx, set_of_ne hdx, set_of_ne hdi, set_of_ne hbx, set_of_ne hax]

/-- The words `syscall` and the handler push, and what the CPU leaves out to align the stack. -/
def gateWords : Nat := 14

/-- `syscall` calls `syscallDispatcher` with its arguments, and returns its result. -/
theorem syscall_spec {returnAddress : UInt64} (hstack : Stack c [returnAddress])
    (hroom : 8 * gateWords ≤ c.rsp.toNat) (hf : CFunction S syscallDispatcher)
    (hS : span (c.rsp.toNat - 8 * gateWords) (gateWords + 1) ⊆ S)
    (hc : c' = execAll c (syscall handler syscallDispatcher)) :
    Called syscallDispatcher [c.reg .rdi, c.reg .rsi, c.reg .rdx, c.reg .rcx]
        (span (c.rsp.toNat - 8 * gateWords) gateWords) c c' ∧
      c'.rip = returnAddress ∧ c'.rsp = c.rsp + 8 := by
  have h14 : 8 * 14 ≤ c.rsp.toNat := hroom
  have hlow : 8 * ([Reg.rbx, .r12, .r13, .r15].length + 1) ≤ c.rsp.toNat := le_trans (by decide) h14
  obtain ⟨o, ho⟩ : ∃ o, o = execAll c (prologue [.rbx, .r12, .r13, .r15]) := ⟨_, rfl⟩
  have horeg : ∀ {r : Reg}, r ≠ .rsp → r ≠ .rbp → o.reg r = c.reg r := fun h h' =>
    ho ▸ opened_reg _ (by decide) (by decide) h h'
  have hosp : o.rsp.toNat = c.rsp.toNat - 8 * 5 := ho ▸ opened_rsp _ (by decide) (by decide) hlow
  obtain ⟨q, hq⟩ : ∃ q, q = execAll o passToGate := ⟨_, rfl⟩
  have hqother : ∀ {r : Reg}, r ∉ [Reg.rax, .rbx, .rdi, .rdx, .rcx] → q.reg r = o.reg r :=
    fun h => hq ▸ passToGate_other h
  have hqsp : q.rsp = o.rsp := hqother (by decide)
  have hqmem : q.mem = o.mem := by
    rw [hq]
    rfl
  have halign : (q.rsp &&& -16).toNat = o.rsp.toNat - o.rsp.toNat % 16 := hqsp ▸ toNat_and_align
  have hmod : o.rsp.toNat % 16 < 16 := Nat.mod_lt _ (by decide)
  have hgate : CallRoom q := by
    unfold CallRoom
    omega
  have hspan : span ((q.rsp &&& -16).toNat - 8 * 7) 7 ⊆ span (c.rsp.toNat - 8 * 14) 9 := by
    rintro x ⟨hxlow, hxhigh⟩
    exact ⟨by omega, by omega⟩
  have hnine : span (c.rsp.toNat - 8 * 14) 9 ⊆ span (c.rsp.toNat - 8 * 14) 15 :=
    Set.Ico_subset_Ico_right (by omega)
  have hfourteen : span (c.rsp.toNat - 8 * 14) 9 ⊆ span (c.rsp.toNat - 8 * 14) 14 :=
    Set.Ico_subset_Ico_right (by omega)
  have hfive : span (c.rsp.toNat - 8 * 5) 5 ⊆ span (c.rsp.toNat - 8 * 14) 14 :=
    Set.Ico_subset_Ico (by omega) (by omega)
  have hsix : span (c.rsp.toNat - 8 * 5) 6 ⊆ span (c.rsp.toNat - 8 * 14) 15 :=
    Set.Ico_subset_Ico (by omega) (by omega)
  obtain ⟨p, hp⟩ : ∃ p, p = (int80 handler syscallDispatcher).exec q := ⟨_, rfl⟩
  obtain ⟨⟨⟨d, hargs, hdmem, hrax, hpmem⟩, hpreserved⟩, -, hpsp⟩ :=
    int80_spec hgate hf (hspan.trans (hnine.trans hS)) hp
  have hkept : ∀ a ∈ span (c.rsp.toNat - 8 * 5) 6, p.mem a = o.mem a := by
    intro a ha
    rw [hpmem, (hf.keeps d).mem (hS (hsix ha)), hdmem fun h => ?_, hqmem]
    exact Nat.not_lt.mpr ha.1 ((hspan h).2.trans_le (by omega))
  have hkeeps : Keeps (span (c.rsp.toNat - 8 * 5) 6) o p := ⟨hpsp.trans hqsp, hkept⟩
  have hrbp : p.reg .rbp = o.reg .rbp :=
    (hpreserved .rbp (by decide)).trans (hqother (by decide))
  have hbody : p = execAll o (passToGate ++ [int80 handler syscallDispatcher]) := by
    rw [execAll_append, ← hq, hp, execAll_cons, execAll_nil]
  rw [ho] at hkeeps hrbp hbody
  have F := framed_spec [.rbx, .r12, .r13, .r15] (by decide) (by decide) (by decide) hstack
    hlow hbody hkeeps (le_refl _) hrbp
  have hrun : c' = (execAll c (framed [.rbx, .r12, .r13, .r15]
      (passToGate ++ [int80 handler syscallDispatcher]))).ret := by
    simp only [hc, syscall_eq, execAll_append, execAll_cons, execAll_nil, Instr.exec]
  generalize execAll c (framed [.rbx, .r12, .r13, .r15] _) = g at F hrun
  have hafter : ∀ {r : Reg}, r ≠ .rsp → c'.reg r = g.reg r := fun h => hrun ▸ ret_reg h
  have hpass := passToGate_args (c := o)
  rw [← hq, horeg (r := .rdi) (by decide) (by decide), horeg (r := .rsi) (by decide) (by decide),
    horeg (r := .rdx) (by decide) (by decide), horeg (r := .rcx) (by decide) (by decide)] at hpass
  refine ⟨⟨⟨d, ?_, fun a ha => ?_, ?_, ?_⟩, fun r hr => ?_⟩, ?_, ?_⟩
  · exact hargs.trans hpass
  · rw [hdmem fun h => ha ((hspan.trans hfourteen) h), hqmem, ho,
      opened_mem [.rbx, .r12, .r13, .r15] (by decide) (by decide) hlow fun h => ha (hfive h)]
  · exact (hafter (by decide)).trans
      ((F.others .rax (by decide) (by decide) (by decide)).trans hrax)
  · rw [hrun, ret_mem, F.mem, hpmem]
  · have hr' : r ≠ .rsp := ne_of_mem_of_not_mem hr (by decide)
    rw [hafter hr']
    by_cases hs : r ∈ [.rbx, .r12, .r13, .r15] ∨ r = .rbp
    · exact F.saved r hs
    · obtain ⟨hsaved, hbp⟩ := not_or.mp hs
      rw [F.others r hsaved hbp hr', hpreserved r hr, hqother, horeg hr' hbp]
      exact fun h => absurd hr (by revert r; decide)
  · rw [hrun]
    exact F.stack.top
  · rw [hrun, ret_rsp, F.rsp]

/-- A program that has just called `syscall`. -/
def calling : Cpu where
  reg
    | .rsp => 0x700000
    | .rbx => 3
    | _ => 0
  rip := 0
  rflags := 0x202
  cs := 0x8
  ss := 0
  mem _ := 0

/-- The dispatcher returns 5. -/
theorem syscall_spec_five : ∃ c', c' = execAll calling (syscall 0 fun c => c.set .rax 5) ∧
    c'.reg .rax = 5 ∧ c'.reg .rbx = 3 ∧ c'.rsp = 0x700008 := by
  have hf : CFunction Set.univ fun c => c.set .rax 5 :=
    ⟨fun c => ⟨set_of_ne (by decide), Set.eqOn_refl _ _⟩,
      fun c r hr => set_of_ne (ne_of_mem_of_not_mem hr (by decide))⟩
  have hstack : Stack calling [0] := ⟨by decide, by decide⟩
  obtain ⟨⟨⟨d, -, -, hrax, -⟩, hsaved⟩, -, hrsp⟩ := syscall_spec hstack (by decide) hf
    (Set.subset_univ _) (rfl : _ = execAll calling (syscall 0 fun c => c.set .rax 5))
  exact ⟨_, rfl, hrax.trans set_self, hsaved .rbx (by decide), hrsp⟩

end Calls

end SoKernel.Gate
