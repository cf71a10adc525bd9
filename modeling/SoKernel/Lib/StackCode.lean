import Mathlib.Data.UInt
import SoKernel.Lib.Memory

/-!
# Code that uses a stack

Straight-line code of an x86-64 with a byte-addressed memory: pushes, pops and moves, calls of
functions that are given by what they do, and the frame of an interrupt.

Results:
1. `Stack.push`, `Stack.pop`: the words on the stack through a push and a pop.
2. `Stack.pushAll`, `Stack.popAll`: a run of pushes, and of pops.
3. `Keeps.stack`: whoever leaves the stack alone leaves the words on it.
4. `Cpu.enter_stack`, `Stack.iretq`: an interrupt puts a context on the stack, and `iretq` takes
   it from there.
-/

namespace SoKernel

inductive Reg
  | rax | rbx | rcx | rdx | rsi | rdi | rbp | rsp | r8 | r9 | r10 | r11 | r12 | r13 | r14 | r15
deriving DecidableEq, Repr

/-- What integer code finds in the CPU: the general registers, and what an interrupt pushes. The
floating point unit is not part of it. -/
@[ext] structure Context where
  reg : Reg → UInt64
  rip : UInt64
  rflags : UInt64
  cs : UInt64
  ss : UInt64

/-- The CPU and the memory. -/
structure Cpu extends Context where
  mem : Nat → UInt8

namespace Cpu

abbrev rsp (c : Cpu) : UInt64 := c.reg .rsp

def set (c : Cpu) (r : Reg) (w : UInt64) : Cpu := { c with reg := Function.update c.reg r w }

def push (c : Cpu) (w : UInt64) : Cpu :=
  { c.set .rsp (c.rsp - 8) with mem := storeAt c.mem (c.rsp - 8).toNat (leBytes 8 w.toNat) }

/-- The word on the top of the stack. -/
def top (c : Cpu) : UInt64 := UInt64.ofNat (wordAt c.mem c.rsp.toNat)

def pop (c : Cpu) (r : Reg) : Cpu := (c.set .rsp (c.rsp + 8)).set r c.top

/-- `ret` -/
def ret (c : Cpu) : Cpu := { c.set .rsp (c.rsp + 8) with rip := c.top }

/-- The words are pushed, the first one first. -/
def pushAll (c : Cpu) (ws : List UInt64) : Cpu := ws.foldl push c

/-- An interrupt in the kernel: the stack is aligned, and the context that `iretq` restores is
pushed. The gate clears the interrupt flag. -/
def enter (c : Cpu) (handler : UInt64) : Cpu :=
  { (c.set .rsp (c.rsp &&& -16)).pushAll [c.ss, c.rsp, c.rflags, c.cs, c.rip] with
    rip := handler, rflags := c.rflags &&& ~~~0x200, cs := 0x8 }

/-- `iretq` -/
def iretq (c : Cpu) : Cpu :=
  let words := (wordsAt c.mem c.rsp.toNat 5).map UInt64.ofNat
  { c.set .rsp (words.getD 3 0) with
    rip := words.getD 0 0, cs := words.getD 1 0, rflags := words.getD 2 0, ss := words.getD 4 0 }

end Cpu

/-! ## Instructions -/

inductive Operand
  | reg (r : Reg)
  | imm (w : UInt64)
deriving DecidableEq, Repr

inductive Instr
  | push (src : Operand)
  | pop (r : Reg)
  | mov (r : Reg) (src : Operand)
  | and (r : Reg) (w : UInt64)
  /-- The lowest byte of the register is written. -/
  | movLow (r : Reg) (b : UInt8)
  /-- A byte goes to a device. -/
  | out (port : UInt8)
  /-- The function is given by what it does up to its return. -/
  | call (f : Cpu → Cpu)
  | ret
  | iretq

def Operand.value (c : Cpu) : Operand → UInt64
  | .reg r => c.reg r
  | .imm w => w

def Instr.exec (c : Cpu) : Instr → Cpu
  | .push src => c.push (src.value c)
  | .pop r => c.pop r
  | .mov r src => c.set r (src.value c)
  | .and r w => c.set r (c.reg r &&& w)
  | .movLow r b => c.set r (c.reg r &&& ~~~0xff ||| b.toUInt64)
  | .out _ => c
  | .call f => f c
  | .ret => c.ret
  | .iretq => c.iretq

def execAll (c : Cpu) (code : List Instr) : Cpu := code.foldl Instr.exec c

/-! ## The words on the stack -/

section Words

variable {c c' : Cpu} {r q : Reg} {rs : List Reg} {w : UInt64} {ws vs : List UInt64} {S : Set Nat}
  {a : Nat}

/-- The words lie at the address. -/
structure WordsAt (mem : Nat → UInt8) (a : Nat) (ws : List UInt64) : Prop where
  room : a + 8 * ws.length < 2 ^ 64
  words : wordsAt mem a ws.length = ws.map UInt64.toNat

/-- The words lie on the stack, the first one on the top. -/
abbrev Stack (c : Cpu) (ws : List UInt64) : Prop := WordsAt c.mem c.rsp.toNat ws

/-- The addresses of some words. -/
def span (a n : Nat) : Set Nat := Set.Ico a (a + 8 * n)

/-- `m` words below an address, and `n` more below them. -/
theorem span_below {b n m : Nat} (h : 8 * (m + n) ≤ b) :
    span (b - 8 * m) m ∪ span (b - 8 * m - 8 * n) n ⊆ span (b - 8 * (m + n)) (m + n) := by
  rw [Nat.mul_add] at h
  unfold span
  rw [Nat.mul_add, Nat.sub_add_cancel h, Nat.sub_add_cancel (Nat.le_of_add_right_le h), Nat.sub_sub,
    Nat.sub_add_eq, Nat.sub_add_cancel (Nat.le_sub_of_add_le' h)]
  refine Set.union_subset (Set.Ico_subset_Ico_left ?_) (Set.Ico_subset_Ico_right (Nat.sub_le _ _))
  exact Nat.sub_le _ _

/-- The stack pointer and some memory are as before. -/
structure Keeps (S : Set Nat) (c c' : Cpu) : Prop where
  rsp : c'.rsp = c.rsp
  mem : Set.EqOn c'.mem c.mem S

theorem toNat_sub_eight (h : 8 ≤ w.toNat) : (w - 8).toNat = w.toNat - 8 :=
  UInt64.toNat_sub_of_le _ _ (UInt64.le_iff_toNat_le.mpr h)

theorem toNat_add_eight (h : w.toNat + 8 < 2 ^ 64) : (w + 8).toNat = w.toNat + 8 := by
  rw [UInt64.toNat_add]
  exact Nat.mod_eq_of_lt h

theorem wordsAt_congr {mem mem' : Nat → UInt8} {n : Nat} (h : Set.EqOn mem' mem (span a n)) :
    wordsAt mem' a n = wordsAt mem a n := by
  refine List.map_congr_left fun i hi => congrArg leValue (loadFrom_congr fun x hx => h ⟨?_, ?_⟩)
  · exact (Nat.le_add_right _ _).trans hx.1
  · refine hx.2.trans_le ?_
    rw [Nat.add_assoc]
    exact Nat.add_le_add_left
      (Nat.mul_succ 8 i ▸ Nat.mul_le_mul_left 8 (List.mem_range.mp hi)) _

theorem WordsAt.congr {mem mem' : Nat → UInt8} (h : WordsAt mem a ws)
    (he : Set.EqOn mem' mem (span a ws.length)) : WordsAt mem' a ws :=
  ⟨h.room, (wordsAt_congr he).trans h.words⟩

/-- Whoever leaves the stack alone leaves the words on it. -/
theorem Keeps.stack (h : Keeps S c c') (hs : Stack c ws)
    (hS : span c.rsp.toNat ws.length ⊆ S) : Stack c' ws := by
  rw [Stack, h.rsp]
  exact hs.congr (h.mem.mono hS)

theorem Stack.nil : Stack c [] := ⟨c.rsp.toNat_lt, rfl⟩

theorem wordsAt_cons {mem : Nat → UInt8} : WordsAt mem a (w :: ws) ↔
    a + 8 < 2 ^ 64 ∧ UInt64.ofNat (wordAt mem a) = w ∧ wordAt mem a < 2 ^ 64 ∧
      WordsAt mem (a + 8) ws := by
  have hlen : a + 8 * (w :: ws).length = a + 8 + 8 * ws.length := by
    rw [List.length_cons, Nat.mul_succ, Nat.add_comm (8 * _), Nat.add_assoc]
  constructor
  · rintro ⟨hroom, hwords⟩
    rw [hlen] at hroom
    rw [List.length_cons, wordsAt_succ, List.map_cons] at hwords
    obtain ⟨hw, hwords⟩ := List.cons.inj hwords
    rw [hw]
    exact ⟨Nat.lt_of_add_right_lt hroom, UInt64.ofNat_toNat, w.toNat_lt, hroom, hwords⟩
  · rintro ⟨-, hw, hlt, hrest⟩
    refine ⟨hlen ▸ hrest.room, ?_⟩
    rw [List.length_cons, wordsAt_succ, hrest.words, List.map_cons, ← hw, UInt64.toNat_ofNat',
      Nat.mod_eq_of_lt hlt]

/-- The words on the top of some others. -/
theorem WordsAt.take {mem : Nat → UInt8} (h : WordsAt mem a (ws ++ vs)) : WordsAt mem a ws := by
  induction ws generalizing a with
  | nil => exact ⟨Nat.lt_of_add_right_lt h.room, rfl⟩
  | cons w ws ih =>
    obtain ⟨hroom, hw, hlt, hrest⟩ := wordsAt_cons.mp h
    exact wordsAt_cons.mpr ⟨hroom, hw, hlt, ih hrest⟩

/-- The words below the top. -/
theorem WordsAt.drop {mem : Nat → UInt8} (h : WordsAt mem a (ws ++ vs)) :
    WordsAt mem (a + 8 * ws.length) vs := by
  induction ws generalizing a with
  | nil => exact h
  | cons w ws ih =>
    have hrest := ih (wordsAt_cons.mp h).2.2.2
    rwa [Nat.add_right_comm, Nat.add_assoc, ← Nat.mul_succ] at hrest

theorem WordsAt.values {mem : Nat → UInt8} (h : WordsAt mem a ws) :
    (wordsAt mem a ws.length).map UInt64.ofNat = ws := by
  rw [h.words, List.map_map]
  exact (List.map_congr_left fun w _ => UInt64.ofNat_toNat).trans (List.map_id _)

theorem Stack.top (h : Stack c (w :: ws)) : c.top = w := (wordsAt_cons.mp h).2.1

theorem Stack.room (h : Stack c (w :: ws)) : c.rsp.toNat + 8 < 2 ^ 64 := (wordsAt_cons.mp h).1

/-! ## Pushes and pops -/

theorem set_self : (c.set r w).reg r = w := Function.update_self ..

theorem set_of_ne (h : q ≠ r) : (c.set r w).reg q = c.reg q := Function.update_of_ne h ..

theorem set_rsp : (c.set .rsp w).rsp = w := set_self

theorem push_rsp : (c.push w).rsp = c.rsp - 8 := set_self

theorem push_reg (h : r ≠ .rsp) : (c.push w).reg r = c.reg r := set_of_ne h

/-- Only the word below the stack pointer is written. -/
theorem push_mem (h : 8 ≤ c.rsp.toNat) (ha : a ∉ span (c.rsp.toNat - 8) 1) :
    (c.push w).mem a = c.mem a := by
  refine storeAt_outside ?_
  rw [length_leBytes, toNat_sub_eight h]
  exact ha

theorem Stack.push (h : Stack c ws) (h8 : 8 ≤ c.rsp.toNat) : Stack (c.push w) (w :: ws) := by
  have hsp : (c.push w).rsp.toNat = c.rsp.toNat - 8 := by rw [push_rsp, toNat_sub_eight h8]
  have hnext : c.rsp.toNat - 8 + 8 = c.rsp.toNat := Nat.sub_add_cancel h8
  have hword : wordAt (c.push w).mem (c.rsp.toNat - 8) = w.toNat := by
    have hload : loadFrom (storeAt c.mem (c.rsp - 8).toNat (leBytes 8 w.toNat)) (c.rsp - 8).toNat
        (leBytes 8 w.toNat).length = leBytes 8 w.toNat := loadFrom_storeAt
    rw [length_leBytes, toNat_sub_eight h8] at hload
    show leValue (loadFrom (storeAt c.mem (c.rsp - 8).toNat _) _ 8) = _
    rw [toNat_sub_eight h8, hload, leValue_leBytes w.toNat_lt]
  rw [Stack, hsp, wordsAt_cons, hword, hnext]
  refine ⟨c.rsp.toNat_lt, UInt64.ofNat_toNat, w.toNat_lt, h.congr fun x hx => push_mem h8 ?_⟩
  intro hx'
  exact Nat.not_lt.mpr hx.1 (hx'.2.trans_eq hnext)

theorem pop_self : (c.pop r).reg r = c.top := set_self

theorem pop_other (hq : q ≠ r) (hrsp : q ≠ .rsp) : (c.pop r).reg q = c.reg q :=
  (set_of_ne hq).trans (set_of_ne hrsp)

theorem pop_rsp (hr : r ≠ .rsp) : (c.pop r).rsp = c.rsp + 8 := (set_of_ne hr.symm).trans set_self

theorem Stack.pop (h : Stack c (w :: ws)) (hr : r ≠ .rsp) : Stack (c.pop r) ws := by
  rw [Stack, pop_rsp hr, toNat_add_eight h.room]
  exact (wordsAt_cons.mp h).2.2.2

theorem ret_reg (h : r ≠ .rsp) : c.ret.reg r = c.reg r := by
  show Function.update c.reg .rsp (c.rsp + 8) r = _
  exact Function.update_of_ne h ..

theorem ret_rsp : c.ret.rsp = c.rsp + 8 := by
  show Function.update c.reg .rsp (c.rsp + 8) .rsp = _
  exact Function.update_self ..

theorem ret_mem : c.ret.mem = c.mem := rfl

/-! ## Many of them -/

/-- Nothing but the stack pointer and the memory changes. -/
theorem pushAll_reg (ws : List UInt64) (hr : r ≠ .rsp) : (c.pushAll ws).reg r = c.reg r := by
  induction ws generalizing c with
  | nil => rfl
  | cons w ws ih => exact ih.trans (push_reg hr)

theorem pushAll_rsp (ws : List UInt64) (h : 8 * ws.length ≤ c.rsp.toNat) :
    (c.pushAll ws).rsp.toNat = c.rsp.toNat - 8 * ws.length := by
  induction ws generalizing c with
  | nil => rfl
  | cons w ws ih =>
    rw [List.length_cons, Nat.mul_succ] at h ⊢
    have h8 : 8 ≤ c.rsp.toNat := Nat.le_of_add_left_le h
    have hnext : (c.push w).rsp.toNat = c.rsp.toNat - 8 := by rw [push_rsp, toNat_sub_eight h8]
    have hrest := @ih (c.push w) (hnext ▸ Nat.le_sub_of_add_le h)
    show ((c.push w).pushAll ws).rsp.toNat = _
    rw [hrest, hnext, Nat.sub_sub, Nat.add_comm]

/-- The words lie on the stack the other way round. -/
theorem Stack.pushAll (h : Stack c ws) (vs : List UInt64) (hv : 8 * vs.length ≤ c.rsp.toNat) :
    Stack (c.pushAll vs) (vs.reverse ++ ws) := by
  induction vs generalizing c ws with
  | nil => exact h
  | cons v vs ih =>
    rw [List.length_cons, Nat.mul_succ] at hv
    have h8 : 8 ≤ c.rsp.toNat := Nat.le_of_add_left_le hv
    have hrest := ih (h.push h8 (w := v))
      (by rw [push_rsp, toNat_sub_eight h8]; exact Nat.le_sub_of_add_le hv)
    rw [List.reverse_cons, List.append_assoc]
    exact hrest

/-- Only the memory below the stack pointer is written. -/
theorem pushAll_mem (ws : List UInt64) (h : 8 * ws.length ≤ c.rsp.toNat)
    (ha : a ∉ span (c.rsp.toNat - 8 * ws.length) ws.length) : (c.pushAll ws).mem a = c.mem a := by
  induction ws generalizing c with
  | nil => rfl
  | cons w ws ih =>
    rw [List.length_cons, Nat.mul_succ] at h ha
    have h8 : 8 ≤ c.rsp.toNat := Nat.le_of_add_left_le h
    have hnext : (c.push w).rsp.toNat = c.rsp.toNat - 8 := by rw [push_rsp, toNat_sub_eight h8]
    have hlow : c.rsp.toNat - (8 * ws.length + 8) + (8 * ws.length + 8) = c.rsp.toNat :=
      Nat.sub_add_cancel h
    refine (@ih (c.push w) (hnext ▸ Nat.le_sub_of_add_le h) fun hin => ha ?_).trans
      (push_mem h8 fun hin => ha ?_)
    · rw [hnext, Nat.sub_sub, Nat.add_comm 8] at hin
      exact ⟨hin.1, hin.2.trans_le (Nat.add_le_add_left (Nat.mul_le_mul_left 8 (Nat.le_succ _)) _)⟩
    · rw [span, Nat.mul_one, Nat.sub_add_cancel h8] at hin
      rw [span, Nat.mul_succ, hlow]
      refine ⟨le_trans (Nat.sub_le_sub_left ?_ _) hin.1, hin.2⟩
      exact Nat.le_add_left 8 _

theorem foldl_pop_mem (rs : List Reg) : (rs.foldl Cpu.pop c).mem = c.mem := by
  induction rs generalizing c with
  | nil => rfl
  | cons r rs ih => exact ih

/-- What pops have done. -/
structure Popped (rs : List Reg) (ws : List UInt64) (c c' : Cpu) : Prop where
  popped : rs.map c'.reg = ws
  others : ∀ r ∉ rs, r ≠ .rsp → c'.reg r = c.reg r

theorem Stack.popAll (h : Stack c (ws ++ vs)) (rs : List Reg) (hlen : rs.length = ws.length)
    (hnd : rs.Nodup) (hrsp : .rsp ∉ rs) :
    Stack (rs.foldl Cpu.pop c) vs ∧ Popped rs ws c (rs.foldl Cpu.pop c) := by
  induction rs generalizing c ws with
  | nil =>
    obtain rfl := List.length_eq_zero_iff.mp hlen.symm
    exact ⟨h, rfl, fun _ _ _ => rfl⟩
  | cons r rs ih =>
    obtain ⟨w, ws, rfl⟩ := List.exists_cons_of_length_eq_add_one hlen.symm
    obtain ⟨hr, hnd⟩ := List.nodup_cons.mp hnd
    have hne := List.ne_of_not_mem_cons hrsp
    have hrsp := List.not_mem_of_not_mem_cons hrsp
    obtain ⟨S, P⟩ := ih (h.pop hne.symm) (Nat.succ.inj hlen) hnd hrsp
    refine ⟨S, ?_, fun q hq hqr => ?_⟩
    · rw [List.map_cons]
      refine congrArg₂ List.cons ?_ P.popped
      exact (P.others r hr hne.symm).trans (pop_self.trans h.top)
    · exact (P.others q (List.not_mem_of_not_mem_cons hq) hqr).trans
        (pop_other (List.ne_of_not_mem_cons hq) hqr)

theorem execAll_append {l l' : List Instr} : execAll c (l ++ l') = execAll (execAll c l) l' :=
  List.foldl_append

theorem execAll_cons {i : Instr} {l : List Instr} : execAll c (i :: l) = execAll (i.exec c) l := rfl

theorem execAll_nil : execAll c [] = c := rfl

/-- Pushes that do not look at the stack pointer. -/
theorem execAll_pushOperands (srcs : List Operand) (h : .reg .rsp ∉ srcs) :
    execAll c (srcs.map .push) = c.pushAll (srcs.map (Operand.value c)) := by
  induction srcs generalizing c with
  | nil => rfl
  | cons src srcs ih =>
    have hsrcs := List.not_mem_of_not_mem_cons h
    have hsame : srcs.map (Operand.value (c.push (src.value c))) = srcs.map (Operand.value c) := by
      refine List.map_congr_left fun s hs => ?_
      cases s with
      | imm w => rfl
      | reg q => exact push_reg fun hq => hsrcs (hq ▸ hs)
    exact (ih hsrcs).trans (congrArg (Cpu.pushAll (c.push (src.value c))) hsame)

/-- Pushes of registers. -/
theorem execAll_pushes (rs : List Reg) (h : .rsp ∉ rs) :
    execAll c (rs.map fun r => .push (.reg r)) = c.pushAll (rs.map c.reg) := by
  have hsrcs : .reg .rsp ∉ rs.map Operand.reg := by simpa using h
  have hrun := execAll_pushOperands _ hsrcs (c := c)
  rw [List.map_map, List.map_map] at hrun
  exact hrun

theorem execAll_pops : execAll c (rs.map .pop) = rs.foldl Cpu.pop c := List.foldl_map

end Words

/-! ## The frame of a function -/

/-- `push rbp`, `mov rbp, rsp`, and the registers of the function that it saves. -/
def prologue (rs : List Reg) : List Instr :=
  [.push (.reg .rbp), .mov .rbp (.reg .rsp)] ++ rs.map fun r => .push (.reg r)

def epilogue (rs : List Reg) : List Instr :=
  rs.reverse.map .pop ++ [.mov .rsp (.reg .rbp), .pop .rbp]

/-- Code between the two. -/
def framed (rs : List Reg) (body : List Instr) : List Instr := prologue rs ++ body ++ epilogue rs

section Frames

variable {c d : Cpu} {rs : List Reg} {r : Reg} {ws : List UInt64} {S : Set Nat} {a : Nat}

theorem prologue_eq (rs : List Reg) (hsp : .rsp ∉ rs) (hbp : .rbp ∉ rs) : execAll c (prologue rs) =
    ((c.push (c.reg .rbp)).set .rbp (c.rsp - 8)).pushAll (rs.map c.reg) := by
  have hregs : rs.map ((c.push (c.reg .rbp)).set .rbp (c.rsp - 8)).reg = rs.map c.reg := by
    refine List.map_congr_left fun r hr => ?_
    exact (set_of_ne (ne_of_mem_of_not_mem hr hbp)).trans (push_reg (ne_of_mem_of_not_mem hr hsp))
  rw [prologue, execAll_append, execAll_pushes rs hsp]
  exact congrArg _ hregs

theorem opened_rsp_eq : ((c.push (c.reg .rbp)).set .rbp (c.rsp - 8)).rsp = c.rsp - 8 :=
  (set_of_ne (by decide)).trans push_rsp

theorem opened_room (h : 8 * (rs.length + 1) ≤ c.rsp.toNat) : 8 * (rs.map c.reg).length ≤
    ((c.push (c.reg .rbp)).set .rbp (c.rsp - 8)).rsp.toNat := by
  rw [Nat.mul_succ] at h
  rw [opened_rsp_eq, List.length_map, toNat_sub_eight (Nat.le_of_add_left_le h)]
  exact Nat.le_sub_of_add_le h

theorem opened_stack (rs : List Reg) (hsp : .rsp ∉ rs) (hbp : .rbp ∉ rs) (hs : Stack c ws)
    (h : 8 * (rs.length + 1) ≤ c.rsp.toNat) :
    Stack (execAll c (prologue rs)) (rs.reverse.map c.reg ++ c.reg .rbp :: ws) := by
  have h8 : 8 ≤ c.rsp.toNat := Nat.le_of_add_left_le (Nat.mul_succ 8 _ ▸ h)
  have hpush : Stack ((c.push (c.reg .rbp)).set .rbp (c.rsp - 8)) (c.reg .rbp :: ws) := by
    rw [Stack, opened_rsp_eq, ← push_rsp]
    exact hs.push h8
  rw [prologue_eq rs hsp hbp, List.map_reverse]
  exact hpush.pushAll _ (opened_room h)

theorem opened_reg (rs : List Reg) (hsp : .rsp ∉ rs) (hbp : .rbp ∉ rs) (hr : r ≠ .rsp)
    (hr' : r ≠ .rbp) : (execAll c (prologue rs)).reg r = c.reg r := by
  rw [prologue_eq rs hsp hbp, pushAll_reg _ hr]
  exact (set_of_ne hr').trans (push_reg hr)

theorem opened_rbp (rs : List Reg) (hsp : .rsp ∉ rs) (hbp : .rbp ∉ rs) :
    (execAll c (prologue rs)).reg .rbp = c.rsp - 8 := by
  rw [prologue_eq rs hsp hbp, pushAll_reg _ (by decide)]
  exact set_self

theorem opened_rsp (rs : List Reg) (hsp : .rsp ∉ rs) (hbp : .rbp ∉ rs)
    (h : 8 * (rs.length + 1) ≤ c.rsp.toNat) :
    (execAll c (prologue rs)).rsp.toNat = c.rsp.toNat - 8 * (rs.length + 1) := by
  have h8 : 8 ≤ c.rsp.toNat := Nat.le_of_add_left_le (Nat.mul_succ 8 _ ▸ h)
  rw [prologue_eq rs hsp hbp, pushAll_rsp _ (opened_room h), opened_rsp_eq, toNat_sub_eight h8,
    List.length_map, Nat.sub_sub, Nat.mul_succ, Nat.add_comm]

theorem opened_mem (rs : List Reg) (hsp : .rsp ∉ rs) (hbp : .rbp ∉ rs)
    (h : 8 * (rs.length + 1) ≤ c.rsp.toNat)
    (ha : a ∉ span (c.rsp.toNat - 8 * (rs.length + 1)) (rs.length + 1)) :
    (execAll c (prologue rs)).mem a = c.mem a := by
  have h8 : 8 ≤ c.rsp.toNat := Nat.le_of_add_left_le (Nat.mul_succ 8 _ ▸ h)
  rw [prologue_eq rs hsp hbp]
  refine (pushAll_mem _ (opened_room h) fun hin => ha ?_).trans (push_mem h8 fun hin => ha ?_)
  · rw [opened_rsp_eq, toNat_sub_eight h8, List.length_map, Nat.sub_sub, Nat.add_comm,
      ← Nat.mul_succ] at hin
    exact ⟨hin.1, hin.2.trans_le (Nat.add_le_add_left (Nat.mul_le_mul_left 8 (Nat.le_succ _)) _)⟩
  · rw [span, Nat.mul_one, Nat.sub_add_cancel h8] at hin
    rw [span, Nat.sub_add_cancel h]
    exact ⟨(Nat.sub_le_sub_left (Nat.le_add_left 8 _) _).trans hin.1, hin.2⟩

/-- What a function with a frame leaves, `d` being where its body ends. -/
structure Framed (rs : List Reg) (ws : List UInt64) (c d c' : Cpu) : Prop where
  stack : Stack c' ws
  rsp : c'.rsp = c.rsp
  saved : ∀ r, r ∈ rs ∨ r = .rbp → c'.reg r = c.reg r
  others : ∀ r, r ∉ rs → r ≠ .rbp → r ≠ .rsp → c'.reg r = d.reg r
  mem : c'.mem = d.mem

/-- The saved registers come back. -/
theorem framed_spec (rs : List Reg) (hsp : .rsp ∉ rs) (hbp : .rbp ∉ rs) (hnd : rs.Nodup)
    (hs : Stack c ws) (h : 8 * (rs.length + 1) ≤ c.rsp.toNat) {body : List Instr}
    (hd : d = execAll (execAll c (prologue rs)) body) (hkeeps : Keeps S (execAll c (prologue rs)) d)
    (hS : span (c.rsp.toNat - 8 * (rs.length + 1)) (rs.length + 1 + ws.length) ⊆ S)
    (hrbp : d.reg .rbp = (execAll c (prologue rs)).reg .rbp) :
    Framed rs ws c d (execAll c (framed rs body)) := by
  have hstack : Stack d (rs.reverse.map c.reg ++ c.reg .rbp :: ws) := by
    refine hkeeps.stack (opened_stack rs hsp hbp hs h) ?_
    rw [opened_rsp rs hsp hbp h]
    simpa [Nat.add_assoc, Nat.add_comm 1] using hS
  obtain ⟨-, P⟩ := hstack.popAll rs.reverse (List.length_map c.reg).symm
    (List.nodup_reverse.mpr hnd) (by simpa using hsp)
  have hmem := foldl_pop_mem rs.reverse (c := d)
  rw [framed, execAll_append, execAll_append, ← hd, epilogue, execAll_append, execAll_pops]
  generalize rs.reverse.foldl Cpu.pop d = f at P hmem ⊢
  have hfbp : f.reg .rbp = c.rsp - 8 := by
    rw [P.others .rbp (by simpa using hbp) (by decide), hrbp, opened_rbp rs hsp hbp]
  have h8 : 8 ≤ c.rsp.toNat := Nat.le_of_add_left_le (Nat.mul_succ 8 _ ▸ h)
  -- `rbp` points to the word below the saved registers
  have htop : Stack (f.set .rsp (c.rsp - 8)) (c.reg .rbp :: ws) := by
    have hdrop := hstack.drop
    rw [hkeeps.rsp, opened_rsp rs hsp hbp h, List.length_map, List.length_reverse, ← hmem] at hdrop
    rw [Stack, set_rsp, toNat_sub_eight h8]
    have haddr : c.rsp.toNat - 8 * (rs.length + 1) + 8 * rs.length = c.rsp.toNat - 8 := by
      rw [Nat.mul_succ, Nat.add_comm (8 * _), ← Nat.sub_sub]
      exact Nat.sub_add_cancel (Nat.le_sub_of_add_le (Nat.mul_succ 8 _ ▸ h))
    exact haddr ▸ hdrop
  have hend : execAll f [.mov .rsp (.reg .rbp), .pop .rbp] = (f.set .rsp (c.rsp - 8)).pop .rbp := by
    simp only [execAll_cons, execAll_nil, Instr.exec, Operand.value, hfbp]
  rw [hend]
  refine ⟨htop.pop (by decide), ?_, fun r hr => ?_, fun r hr hbp' hsp' => ?_, hmem⟩
  · rw [pop_rsp (by decide), set_rsp, UInt64.sub_add_cancel]
  · rcases hr with hr | rfl
    · have hne : r ≠ .rsp := ne_of_mem_of_not_mem hr hsp
      rw [pop_other (ne_of_mem_of_not_mem hr hbp) hne, set_of_ne hne]
      exact List.map_inj_left.mp P.popped r (List.mem_reverse.mpr hr)
    · exact pop_self.trans htop.top
  · rw [pop_other hbp' hsp', set_of_ne hsp', P.others r (by simpa using hr) hsp']

end Frames

/-! ## Interrupts -/

section Interrupts

variable {c : Cpu} {ws : List UInt64} {x : Context} {a : Nat}

/-- What the CPU pushes for an interrupt, from the top of the stack on. -/
def Context.pushed (x : Context) : List UInt64 := [x.rip, x.cs, x.rflags, x.reg .rsp, x.ss]

theorem enter_stack (handler : UInt64) (h : 40 ≤ (c.rsp &&& -16).toNat) :
    Stack (c.enter handler) c.pushed := by
  have hsp : (c.set .rsp (c.rsp &&& -16)).rsp = c.rsp &&& -16 := set_rsp
  exact (Stack.nil.pushAll [c.ss, c.rsp, c.rflags, c.cs, c.rip] (hsp ▸ h) :)

theorem enter_reg {handler : UInt64} {r : Reg} (hr : r ≠ .rsp) :
    (c.enter handler).reg r = c.reg r :=
  (pushAll_reg (c := c.set .rsp (c.rsp &&& -16)) [c.ss, c.rsp, c.rflags, c.cs, c.rip] hr).trans
    (set_of_ne hr)

theorem enter_rsp {handler : UInt64} (h : 40 ≤ (c.rsp &&& -16).toNat) :
    (c.enter handler).rsp.toNat = (c.rsp &&& -16).toNat - 40 := by
  have hsp : (c.set .rsp (c.rsp &&& -16)).rsp = c.rsp &&& -16 := set_rsp
  rw [← hsp]
  exact pushAll_rsp (c := c.set .rsp (c.rsp &&& -16)) [c.ss, c.rsp, c.rflags, c.cs, c.rip] (hsp ▸ h)

theorem enter_mem {handler : UInt64} (h : 40 ≤ (c.rsp &&& -16).toNat)
    (ha : a ∉ span ((c.rsp &&& -16).toNat - 40) 5) :
    (c.enter handler).mem a = c.mem a := by
  have hsp : (c.set .rsp (c.rsp &&& -16)).rsp = c.rsp &&& -16 := set_rsp
  rw [← hsp] at ha
  exact pushAll_mem (c := c.set .rsp (c.rsp &&& -16)) [c.ss, c.rsp, c.rflags, c.cs, c.rip] (hsp ▸ h)
    ha

/-- `iretq` goes on where the interrupt came. -/
theorem Stack.iretq (h : Stack c (x.pushed ++ ws)) : c.iretq.toContext =
    { x with reg := Function.update c.reg .rsp (x.reg .rsp) } := by
  have hwords : (wordsAt c.mem c.rsp.toNat 5).map UInt64.ofNat = x.pushed := h.take.values
  simp only [Cpu.iretq, hwords]
  rfl

theorem iretq_mem : c.iretq.mem = c.mem := rfl

end Interrupts

end SoKernel
