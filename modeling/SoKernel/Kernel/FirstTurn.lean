import SoKernel.Kernel.Gate

/-!
# The first turn of a process

`process.asm`: the frame on the stack of a new process, and the code the process starts in.

Results:
1. `stackFrameCode_spec`: `stackFrame` as code of the CPU leaves what the model of it writes.
2. `setUp_context`: the stack of a new process holds the context it starts with.
3. `firstTurn`: it starts in its entry point, with its arguments, and ends with the system call
   `exit` and what the entry point has returned.
-/

namespace SoKernel.Gate

/-! ## `process.asm` -/

/-- `wrapper`, up to its loop; `functions` are the functions at the addresses of the memory. -/
def wrapperCode (functions : UInt64 → Cpu → Cpu) (handler : UInt64)
    (syscallDispatcher : Cpu → Cpu) : List Instr :=
  [.call fun c => functions (c.reg .r8) c, .mov .rbx (.reg .rax), .mov .rax (.imm 19),
    int80 handler syscallDispatcher]

/-- The pushes of `stackFrame`. -/
def framePushes (wrapper : UInt64) : List Instr :=
  [.push (.imm 0), .push (.reg .rdi), .push (.imm 0x202), .push (.imm 0x8), .push (.imm wrapper),
    .push (.imm 0), .push (.imm 0), .push (.imm 0), .push (.imm 0), .push (.imm 0),
    .push (.imm 0), .push (.imm 0), .push (.reg .rsi), .push (.imm 0), .push (.reg .rdx),
    .push (.reg .rcx), .push (.imm 0), .push (.imm 0), .push (.imm 0), .push (.imm 0)]

/-- `stackFrame` -/
def stackFrameCode (wrapper : UInt64) : List Instr :=
  [.push (.reg .rbp), .mov .rbp (.reg .rsp), .mov .rsp (.reg .rdi), .and .rsp (-16)] ++
    framePushes wrapper ++ [.mov .rax (.reg .rsp), .mov .rsp (.reg .rbp), .pop .rbp, .ret]

/-- The context of a process that is waiting for its first turn. -/
def initialContext (wrapper base entryPoint argc argv : UInt64) : Context where
  reg := fun
    | .r8 => entryPoint
    | .rdi => argc
    | .rsi => argv
    | .rsp => base
    | _ => 0
  rip := wrapper
  rflags := 0x202
  cs := 0x8
  ss := 0

/-- What `stackFrame` pushes is the context of the new process. -/
theorem frameWords_reverse {wrapper base entryPoint argc argv : UInt64} :
    (frameWords wrapper base entryPoint argc argv).reverse =
      frame (initialContext wrapper base entryPoint argc argv) := rfl

section Routine

variable {c c' : Cpu} {mem : Nat → UInt8} {ws : List UInt64} {a : Nat}
  {wrapper base entryPoint argc argv returnAddress : UInt64}

/-- Pushes of the CPU are those of the model. -/
theorem pushAll_eq (ws : List UInt64) : (c.pushAll ws).rsp = (pushWords c.rsp ws).1 ∧
    (c.pushAll ws).mem = storeAll c.mem (pushWords c.rsp ws).2 := by
  induction ws generalizing c with
  | nil => exact ⟨rfl, rfl⟩
  | cons w ws ih =>
    obtain ⟨hrsp, hmem⟩ := @ih (c.push w)
    rw [push_rsp] at hrsp hmem
    exact ⟨hrsp, hmem⟩

/-- What `stackFrame` writes is a context. -/
theorem stackFrame_context (hroom : 8 * 20 ≤ (base &&& -16).toNat) :
    WordsAt (storeAll mem (stackFrame wrapper base entryPoint argc argv).2)
      (stackFrame wrapper base entryPoint argc argv).1.toNat
      (frame (initialContext wrapper base entryPoint argc argv)) := by
  let c : Cpu := { initialContext wrapper (base &&& -16) entryPoint argc argv with mem := mem }
  have hstack := Stack.nil.pushAll (c := c) (frameWords wrapper base entryPoint argc argv) hroom
  rw [Stack, (pushAll_eq _).1, (pushAll_eq _).2, frameWords_reverse, List.append_nil] at hstack
  exact hstack

theorem framePushes_eq : execAll c (framePushes wrapper) =
    c.pushAll (frameWords wrapper (c.reg .rdi) (c.reg .rsi) (c.reg .rdx) (c.reg .rcx)) :=
  execAll_pushOperands [.imm 0, .reg .rdi, .imm 0x202, .imm 0x8, .imm wrapper,
    .imm 0, .imm 0, .imm 0, .imm 0, .imm 0, .imm 0, .imm 0, .reg .rsi, .imm 0, .reg .rdx,
    .reg .rcx, .imm 0, .imm 0, .imm 0, .imm 0] (by simp)

/-- `stackFrame` as code of the CPU: it writes and returns what the model of it does, and leaves
the stack of its caller alone. -/
theorem stackFrameCode_spec (hstack : Stack c [returnAddress]) (h8 : 8 ≤ c.rsp.toNat)
    (hroom : 8 * 20 ≤ (c.reg .rdi &&& -16).toNat)
    (hapart : Disjoint (span ((c.reg .rdi &&& -16).toNat - 8 * 20) 20) (span (c.rsp.toNat - 8) 2))
    (hc : c' = execAll c (stackFrameCode wrapper)) :
    c'.reg .rax = (stackFrame wrapper (c.reg .rdi) (c.reg .rsi) (c.reg .rdx) (c.reg .rcx)).1 ∧
      c'.mem = storeAll (c.push (c.reg .rbp)).mem
        (stackFrame wrapper (c.reg .rdi) (c.reg .rsi) (c.reg .rdx) (c.reg .rcx)).2 ∧
      c'.rip = returnAddress ∧ c'.rsp = c.rsp + 8 ∧ ∀ r ∈ calleeSaved, c'.reg r = c.reg r := by
  have hsaved : WordsAt (c.push (c.reg .rbp)).mem (c.rsp.toNat - 8) [c.reg .rbp, returnAddress] := by
    have hpush := hstack.push (w := c.reg .rbp) h8
    rwa [Stack, push_rsp, toNat_sub_eight h8] at hpush
  obtain ⟨d, hd⟩ : ∃ d, d = (((c.push (c.reg .rbp)).set .rbp (c.rsp - 8)).set .rsp (c.reg .rdi)).set
      .rsp (c.reg .rdi &&& -16) := ⟨_, rfl⟩
  have hdsp : d.rsp = c.reg .rdi &&& -16 := hd ▸ set_rsp
  have hdmem : d.mem = (c.push (c.reg .rbp)).mem := hd ▸ rfl
  have hdbp : d.reg .rbp = c.rsp - 8 := by
    rw [hd, set_of_ne (by decide), set_of_ne (by decide)]
    exact set_self
  have hdreg : ∀ {r : Reg}, r ≠ .rsp → r ≠ .rbp → d.reg r = c.reg r := by
    intro r hr hr'
    rw [hd, set_of_ne hr, set_of_ne hr, set_of_ne hr', push_reg hr]
  obtain ⟨words, hwords⟩ : ∃ words, words = frameWords wrapper (c.reg .rdi) (c.reg .rsi) (c.reg .rdx)
    (c.reg .rcx) := ⟨_, rfl⟩
  have hlen : words.length = 20 := by rw [hwords]; rfl
  obtain ⟨hgsp, hgmem⟩ := pushAll_eq (c := d) words
  rw [hdsp] at hgsp hgmem
  have hgbp : (d.pushAll words).reg .rbp = c.rsp - 8 := (pushAll_reg _ (by decide)).trans hdbp
  have hrun : c' = ((((d.pushAll words).set .rax (d.pushAll words).rsp).set .rsp (c.rsp - 8)).pop
      .rbp).ret := by
    have hstart : execAll c [.push (.reg .rbp), .mov .rbp (.reg .rsp), .mov .rsp (.reg .rdi),
        .and .rsp (-16)] = d := by
      simp only [execAll_cons, execAll_nil, Instr.exec, Operand.value]
      rw [set_self, set_of_ne (q := .rdi) (by decide), push_reg (r := .rdi) (by decide), hd,
        ← push_rsp (w := c.reg .rbp)]
    have hdi : d.reg .rdi = c.reg .rdi := hdreg (by decide) (by decide)
    have hsi : d.reg .rsi = c.reg .rsi := hdreg (by decide) (by decide)
    have hdx : d.reg .rdx = c.reg .rdx := hdreg (by decide) (by decide)
    have hcx : d.reg .rcx = c.reg .rcx := hdreg (by decide) (by decide)
    rw [hc, stackFrameCode, execAll_append, execAll_append, hstart, framePushes_eq, hdi, hsi, hdx, hcx,
      ← hwords]
    simp only [execAll_cons, execAll_nil, Instr.exec, Operand.value]
    rw [set_of_ne (by decide), hgbp]
  have htop : Stack (((d.pushAll words).set .rax (d.pushAll words).rsp).set .rsp (c.rsp - 8))
      [c.reg .rbp, returnAddress] := by
    rw [Stack, set_rsp, toNat_sub_eight h8]
    refine hsaved.congr fun a ha => ?_
    rw [← hdmem]
    refine pushAll_mem _ (hlen ▸ hdsp ▸ hroom) ?_
    rw [hlen, hdsp]
    exact fun h => Set.disjoint_left.mp hapart h ha
  have hgreg : ∀ {r : Reg}, r ≠ .rsp → r ≠ .rbp → (d.pushAll words).reg r = c.reg r :=
    fun hr hr' => (pushAll_reg _ hr).trans (hdreg hr hr')
  generalize d.pushAll words = g at hrun htop hgsp hgmem hgreg
  have hafter : ∀ {r : Reg}, r ≠ .rsp → r ≠ .rbp → c'.reg r = (g.set .rax g.rsp).reg r := by
    intro r hr hr'
    rw [hrun, ret_reg hr, pop_other hr' hr, set_of_ne hr]
  refine ⟨?_, ?_, ?_, ?_, fun r hr => ?_⟩
  · rw [hafter (by decide) (by decide), set_self, hgsp, hwords]
    rfl
  · rw [hdmem, hwords] at hgmem
    rw [hrun, ret_mem]
    exact hgmem
  · rw [hrun]
    exact (htop.pop (by decide)).top
  · rw [hrun, ret_rsp, pop_rsp (by decide), set_rsp, UInt64.sub_add_cancel]
  · have hr' : r ≠ .rsp := ne_of_mem_of_not_mem hr (by decide)
    rcases eq_or_ne r .rbp with rfl | hbp
    · rw [hrun, ret_reg (by decide), pop_self]
      exact htop.top
    · rw [hafter hr' hbp, set_of_ne (ne_of_mem_of_not_mem hr (by decide)), hgreg hr' hbp]

/-- The kernel has just called `stackFrame`. -/
def building : Cpu where
  reg
    | .rdi => 0x601008
    | .rsi => 0x400000
    | .rsp => 0x700000
    | .rbx => 3
    | _ => 0
  rip := 0
  rflags := 0x202
  cs := 0x8
  ss := 0
  mem _ := 0

/-- A stack for a process without arguments, built from a stack at 7 MiB. -/
theorem stackFrameCode_spec_empty : ∃ c', c' = execAll building (stackFrameCode 0x100000) ∧
    c'.reg .rax = 0x600f60 ∧ c'.rsp = 0x700008 ∧ c'.reg .rbx = 3 := by
  have hstack : Stack building [0] := ⟨by decide, by decide⟩
  obtain ⟨hrax, -, -, hrsp, hsaved⟩ := stackFrameCode_spec hstack (by decide) (by decide)
    (Set.Ico_disjoint_Ico.mpr (by decide)) (rfl : _ = execAll building (stackFrameCode 0x100000))
  exact ⟨_, rfl, hrax.trans (pushWords_final.trans (by decide)), hrsp, hsaved .rbx (by decide)⟩

end Routine

/-! ## From birth to the end -/

section Life

variable {c : Cpu} {mem : Nat → UInt8} {stack : StackBlock} {argv : Argv}

/-- The stack of a new process holds the context it starts with. -/
theorem setUp_context (mem : Nat → UInt8) (wrapper entryPoint : UInt64) (h : Fits stack argv) :
    ∃ base newArgv : UInt64, base.toNat = stack.top - argBytes argv ∧
      (argv.strings ≠ [] → newArgv.toNat = argvAt stack argv) ∧
      WordsAt
        (storeAll mem
          (setUpStackFrame wrapper (some stack) entryPoint (argCounter argv) argv).writes)
        (setUpStackFrame wrapper (some stack) entryPoint (argCounter argv) argv).rsp.toNat
        (frame (initialContext wrapper base entryPoint (argCounter argv) newArgv)) := by
  obtain ⟨base, newArgv, writes, hcopy, hbase, hargv, -⟩ := copyToStack_fits h toNat_base
  have hset : setUpStackFrame wrapper (some stack) entryPoint (argCounter argv) argv =
      { rsp := (stackFrame wrapper base entryPoint (argCounter argv) newArgv).1,
        base := stack.address + UInt64.ofNat processStackSize,
        writes := writes ++ (stackFrame wrapper base entryPoint (argCounter argv) newArgv).2 } := by
    simp only [setUpStackFrame, returned, Option.map_some, Option.getD_some,
      if_neg address_ne_zero, hcopy]
  have hroom : 8 * 20 ≤ (base &&& -16).toNat := by
    rw [toNat_and_align, hbase]
    exact frame_le h
  refine ⟨base, newArgv, hbase, hargv, ?_⟩
  rw [hset, storeAll_append]
  exact stackFrame_context hroom

/-- `int 80h` reaches `syscallDispatcher`, whatever becomes of the call. -/
theorem int80_calls (handler : UInt64) (syscallDispatcher : Cpu → Cpu) :
    ∃ d : Cpu, [Reg.rdi, .rsi, .rdx, .rcx].map d.reg =
        [c.reg .rax, c.reg .rbx, c.reg .rcx, c.reg .rdx] ∧
      (int80 handler syscallDispatcher).exec c =
        execAll (syscallDispatcher d) (epilogue [.rbx] ++ [.iretq]) := by
  refine ⟨execAll (execAll (c.enter handler) (prologue [.rbx])) passArguments, ?_, ?_⟩
  · have hopen : ∀ {r : Reg}, r ≠ .rsp → r ≠ .rbp →
        (execAll (c.enter handler) (prologue [.rbx])).reg r = c.reg r :=
      fun h h' => (opened_reg _ (by decide) (by decide) h h').trans (enter_reg h)
    rw [passArguments_args, hopen (by decide) (by decide), hopen (by decide) (by decide),
      hopen (by decide) (by decide), hopen (by decide) (by decide)]
  · simp only [int80, Instr.exec, irq80Handler_eq, framed, execAll_append, execAll_cons, execAll_nil]

/-- A new process gets the CPU: it runs its entry point with its arguments, and then makes the
system call `exit` with the result. -/
theorem firstTurn (wrapper entryPoint handler : UInt64) (syscallDispatcher : Cpu → Cpu)
    (functions : UInt64 → Cpu → Cpu) (h : Fits stack argv)
    (hmem : c.mem = storeAll mem
      (setUpStackFrame wrapper (some stack) entryPoint (argCounter argv) argv).writes)
    (hrsp : c.rsp = (setUpStackFrame wrapper (some stack) entryPoint (argCounter argv) argv).rsp)
    {started : Cpu} (hstarted : started = execAll c (popState ++ [.iretq])) :
    started.rip = wrapper ∧ started.rsp.toNat = stack.top - argBytes argv ∧
      started.mem = c.mem ∧ started.reg .rdi = argCounter argv ∧
      (argv.strings ≠ [] → (started.reg .rsi).toNat = argvAt stack argv) ∧
      ∃ d : Cpu, d.reg .rdi = 19 ∧ d.reg .rsi = (functions entryPoint started).reg .rax ∧
        execAll started (wrapperCode functions handler syscallDispatcher) =
          execAll (syscallDispatcher d) (epilogue [.rbx] ++ [.iretq]) := by
  obtain ⟨base, newArgv, hbase, hargv, hframe⟩ := setUp_context mem wrapper entryPoint h
  rw [← hmem, ← hrsp] at hframe
  obtain ⟨hcontext, hkept⟩ := popState_iretq hframe
  rw [← hstarted] at hcontext hkept
  have hreg : ∀ r, started.reg r =
      (initialContext wrapper base entryPoint (argCounter argv) newArgv).reg r :=
    fun r => congrArg (fun x : Context => x.reg r) hcontext
  have hsp : started.rsp = base := hreg .rsp
  have hsi : started.reg .rsi = newArgv := hreg .rsi
  refine ⟨congrArg Context.rip hcontext, hsp ▸ hbase, hkept, hreg .rdi, hsi ▸ hargv, ?_⟩
  obtain ⟨d, hargs, hrun⟩ := int80_calls handler syscallDispatcher
    (c := ((functions entryPoint started).set .rbx ((functions entryPoint started).reg .rax)).set
      .rax 19)
  have h8 : started.reg .r8 = entryPoint := hreg .r8
  simp only [List.map_cons, List.map_nil, List.cons.injEq] at hargs
  refine ⟨d, hargs.1.trans set_self, hargs.2.1.trans ?_, ?_⟩
  · rw [set_of_ne (by decide)]
    exact set_self
  · rw [← hrun]
    simp only [wrapperCode, execAll_cons, execAll_nil, Instr.exec, Operand.value, h8]

/-- The stack of a process with the argument "a". -/
def oneStack : StackBlock where
  address := 0x602010
  inHeap := by decide

def oneArgv : Argv where
  strings := [⟨[97], by decide⟩]
  inMemory := by decide
  counted := by decide

def oneFrame : StackFrame :=
  setUpStackFrame 0x100000 (some oneStack) 0x400000 (argCounter oneArgv) oneArgv

/-- The scheduler has switched to the stack of the process. -/
def oneStarting : Cpu where
  reg _ := oneFrame.rsp
  rip := 0
  rflags := 0
  cs := 0x8
  ss := 0
  mem := storeAll (fun _ => 0) oneFrame.writes

/-- Its entry point returns 7. -/
theorem firstTurn_exit : ∃ started d : Cpu,
    started = execAll oneStarting (popState ++ [.iretq]) ∧
    started.rip = 0x100000 ∧ started.reg .rdi = 1 ∧ (started.reg .rsi).toNat = 0x603000 ∧
    d.reg .rdi = 19 ∧ d.reg .rsi = 7 ∧
    execAll started (wrapperCode (fun _ c => c.set .rax 7) 0 id) =
      execAll d (epilogue [.rbx] ++ [.iretq]) := by
  have hfits : Fits oneStack oneArgv := by decide
  obtain ⟨hrip, -, -, hargc, hargv, d, hnumber, hresult, hend⟩ :=
    firstTurn 0x100000 0x400000 0 id (fun _ c => c.set .rax 7) (c := oneStarting) hfits rfl rfl rfl
  exact ⟨_, d, rfl, hrip, hargc, hargv (by decide), hnumber, hresult.trans set_self, hend⟩

end Life

end SoKernel.Gate
