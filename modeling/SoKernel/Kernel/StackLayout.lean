import Mathlib.Algebra.Order.BigOperators.Group.List
import Mathlib.Data.List.Forall2
import SoKernel.Bitmap.Theorems
import SoKernel.Buddy.Theorems
import SoKernel.Kernel.Functions
import SoKernel.Kernel.Machine
import SoKernel.Kernel.StackFrame

/-!
# What lies on a new stack

`copyStrings_perm` and `pushWords_pushed`: the copies, the pointers to them and the frame are
piles of blocks pushed below an address. The loop is followed from the last string down, the
way the piles grow.

Results:
1. `arguments_survive`: the new process finds its arguments.
2. `stack_contained_iff`: when all writes stay in the block of the stack.
-/

namespace SoKernel

section Addresses

variable {x : UInt64} {n m : Nat}

theorem toNat_sub_ofNat (h : n ≤ x.toNat) : (x - UInt64.ofNat n).toNat = x.toNat - n := by
  have hn : (UInt64.ofNat n).toNat = n := by
    rw [UInt64.toNat_ofNat', Nat.mod_eq_of_lt (h.trans_lt x.toNat_lt)]
  rw [UInt64.toNat_sub_of_le _ _ (UInt64.le_iff_toNat_le.mpr (hn.le.trans h)), hn]

/-- The address of a cell of an array of words. -/
theorem toNat_slot (h : x.toNat + 8 * n < 2 ^ 64) :
    (x + 8 * UInt64.ofNat n).toNat = x.toNat + 8 * n := by
  simp only [UInt64.toNat_add, UInt64.toNat_mul, UInt64.toNat_ofNat, UInt64.toNat_ofNat']
  omega

theorem sub_ofNat_add : x - UInt64.ofNat (n + m) = x - UInt64.ofNat n - UInt64.ofNat m := by
  rw [UInt64.ofNat_add, UInt64.sub_eq_add_neg, UInt64.neg_add, UInt64.sub_eq_add_neg (-_),
    ← UInt64.add_assoc, ← UInt64.sub_eq_add_neg, ← UInt64.sub_eq_add_neg]

/-- `and rsp, -16` -/
theorem toNat_and_align : (x &&& -16).toNat = x.toNat - x.toNat % 16 := by
  have hmask : (-16 : UInt64).toNat = (2 ^ 60 - 1) <<< 4 := by decide
  have hrest : x.toNat - x.toNat % 16 = (x.toNat >>> 4) <<< 4 := by
    rw [Nat.shiftRight_eq_div_pow, Nat.shiftLeft_eq, Nat.mul_comm]
    exact Nat.sub_eq_of_eq_add (Nat.div_add_mod x.toNat 16).symm
  rw [UInt64.toNat_and, hmask, hrest]
  refine Nat.eq_of_testBit_eq fun i => ?_
  rw [Nat.testBit_and, Nat.testBit_shiftLeft, Nat.testBit_shiftLeft, Nat.testBit_shiftRight,
    Nat.testBit_two_pow_sub_one]
  rcases Nat.lt_or_ge i 4 with hi | hi
  · simp [Nat.not_le.mpr hi]
  · obtain ⟨j, rfl⟩ := Nat.exists_eq_add_of_le hi
    rw [Nat.add_sub_cancel_left]
    rcases Nat.lt_or_ge j 60 with hj | hj
    · simp [hj]
    · have hlt : x.toNat < 2 ^ (4 + j) :=
        x.toNat_lt.trans_le (Nat.pow_le_pow_right (by decide) (Nat.add_le_add_left hj 4))
      simp [Nat.testBit_lt_two_pow hlt]

theorem toInt32_of_lt (h : n < 2 ^ 31) : toInt32 n = n := by
  have hn : (BitVec.ofNat 32 n).toNat = n :=
    (BitVec.toNat_ofNat n 32).trans (Nat.mod_eq_of_lt (h.trans (by decide)))
  rw [toInt32, BitVec.toInt_eq_toNat_of_lt (by omega), hn]

end Addresses

/-! ## Copies and pushes -/

section Piles

variable {newArgv paramsBase rsp : UInt64} {l : List CString} {words : List UInt64}

/-- The copy of a string. -/
def copyOf (s : CString) : List Byte := strncpy s (copyLen s).toNat

/-- The bytes of the copies. -/
def copiesLength (l : List CString) : Nat := (l.map fun s => (copyLen s).toNat).sum

/-- `strncpy` writes `len` bytes, whatever the string. -/
@[simp] theorem length_copyOf (s : CString) : (copyOf s).length = (copyLen s).toNat := by
  rw [copyOf, strncpy, List.length_append, List.length_take, List.length_replicate]
  exact Nat.add_comm _ _ ▸ Nat.sub_add_min_cancel _ _

theorem copiesLength_cons (s : CString) (l : List CString) :
    copiesLength (s :: l) = (copyLen s).toNat + copiesLength l := rfl

@[simp] theorem copiesLength_reverse : copiesLength l.reverse = copiesLength l := by
  rw [copiesLength, List.map_reverse, List.sum_reverse, copiesLength]

theorem length_copies : (l.map copyOf).flatten.length = copiesLength l := by
  rw [List.length_flatten, List.map_map, copiesLength]
  exact congrArg List.sum (List.map_congr_left fun s _ => length_copyOf s)

theorem copyStrings_final :
    (copyStrings newArgv l paramsBase).1 = paramsBase - UInt64.ofNat (copiesLength l) := by
  induction l generalizing paramsBase with
  | nil => simp [copyStrings, copiesLength]
  | cons s l ih => rw [copyStrings, copiesLength_cons, sub_ofNat_add, UInt64.ofNat_toNat, ih]

/-- The pointers to some blocks. -/
def pointersTo (blocks : List Write) : List (List Byte) :=
  blocks.map fun block => leBytes 8 block.1

/-- The loop alternates between the copies and the pointers. -/
theorem copyStrings_perm (h : copiesLength l ≤ paramsBase.toNat)
    (hargv : newArgv.toNat + 8 * l.length < 2 ^ 64) :
    (copyStrings newArgv l paramsBase).2.Perm
      (pushed (newArgv.toNat + 8 * l.length) (pointersTo (pushed paramsBase.toNat (l.map copyOf))) ++
        pushed paramsBase.toNat (l.map copyOf)) := by
  induction l generalizing paramsBase with
  | nil => exact .nil
  | cons s l ih =>
    rw [copiesLength_cons] at h
    rw [List.length_cons, Nat.mul_succ, ← Nat.add_assoc] at hargv
    have hnext := toNat_sub_ofNat (Nat.le_of_add_right_le h)
    rw [UInt64.ofNat_toNat] at hnext
    have hslot := toNat_slot (Nat.lt_of_add_right_lt hargv)
    have hrest := ih (hnext ▸ Nat.le_sub_of_add_le' h) (Nat.lt_of_add_right_lt hargv)
    rw [hnext] at hrest
    simp only [copyStrings, List.map_cons, pushed, length_copyOf, pointersTo, length_leBytes,
      List.length_cons, Nat.mul_succ, ← Nat.add_assoc, Nat.add_sub_cancel, store64, hslot, hnext]
    exact (List.Perm.swap _ _ _).trans (((hrest.cons _).trans List.perm_middle.symm).cons _)

theorem pushWords_final :
    (pushWords rsp words).1 = rsp - UInt64.ofNat (8 * words.length) := by
  induction words generalizing rsp with
  | nil => simp [pushWords]
  | cons word words ih =>
    rw [pushWords, List.length_cons, Nat.mul_succ, Nat.add_comm, sub_ofNat_add, ih]
    rfl

theorem pushWords_pushed (h : 8 * words.length ≤ rsp.toNat) :
    (pushWords rsp words).2 = pushed rsp.toNat (words.map fun word => leBytes 8 word.toNat) := by
  induction words generalizing rsp with
  | nil => rfl
  | cons word words ih =>
    rw [List.length_cons, Nat.mul_succ, Nat.add_comm] at h
    have hnext : (rsp - 8).toNat = rsp.toNat - 8 := toNat_sub_ofNat (Nat.le_of_add_right_le h)
    have hrest := ih (hnext ▸ Nat.le_sub_of_add_le' h)
    rw [hnext] at hrest
    simp only [pushWords, hrest, List.map_cons, pushed, length_leBytes, store64, hnext]

/-- The last `push` writes where the stack pointer ends. -/
theorem mem_pushWords (h : words ≠ []) : ∃ write ∈ (pushWords rsp words).2,
    write.1 = (pushWords rsp words).1.toNat ∧ 0 < write.2.length := by
  induction words generalizing rsp with
  | nil => exact absurd rfl h
  | cons word words ih =>
    cases words with
    | nil => exact ⟨store64 (rsp - 8) word, List.mem_cons_self, rfl, by simp [store64]⟩
    | cons next words =>
      obtain ⟨write, hw, hend⟩ := @ih (rsp - 8) (List.cons_ne_nil _ _)
      exact ⟨write, List.mem_cons_of_mem _ hw, hend⟩

/-- The loop ends with the pointer to the first string. -/
theorem mem_copyStrings (h : l ≠ []) : ∃ write ∈ (copyStrings newArgv l paramsBase).2,
    write.1 = newArgv.toNat ∧ 0 < write.2.length := by
  induction l generalizing paramsBase with
  | nil => exact absurd rfl h
  | cons s l ih =>
    cases l with
    | nil =>
      refine ⟨_, List.mem_cons_of_mem _ List.mem_cons_self, ?_, by simp [store64]⟩
      simp [store64]
    | cons next l =>
      obtain ⟨write, hw, hend⟩ :=
        @ih (paramsBase - copyLen s) (List.cons_ne_nil _ _)
      exact ⟨write, List.mem_cons_of_mem _ (List.mem_cons_of_mem _ hw), hend⟩

theorem copiesLength_le {n : Nat} (h : ∀ s ∈ l, (copyLen s).toNat ≤ n) :
    copiesLength l ≤ l.length * n := by
  have hsum := List.sum_le_card_nsmul (l.map fun s => (copyLen s).toNat) n
    (List.forall_mem_map.mpr h)
  rw [List.length_map] at hsum
  exact hsum

/-- Each string is copied. -/
theorem mem_copies {s : CString} (hs : s ∈ l) :
    ∃ write ∈ (copyStrings newArgv l paramsBase).2, write.2.length = (copyLen s).toNat := by
  induction l generalizing paramsBase with
  | nil => cases hs
  | cons t l ih =>
    rcases List.mem_cons.mp hs with rfl | hs
    · exact ⟨_, List.mem_cons_self, length_copyOf s⟩
    · obtain ⟨write, hw, hlen⟩ := @ih (paramsBase - copyLen t) hs
      exact ⟨write, List.mem_cons_of_mem _ (List.mem_cons_of_mem _ hw), hlen⟩

/-- The length of a string that an `int` counts, with its NUL. -/
theorem toNat_copyLen {s : CString} (h : s.chars.length + 1 < 2 ^ 31) :
    (copyLen s).toNat = s.chars.length + 1 := by
  have hlen : (strlen s + 1).toUInt32.toBitVec.toNat = s.chars.length + 1 := by
    simp only [strlen, UInt64.toBitVec_toUInt32, BitVec.toNat_setWidth, UInt64.toNat_toBitVec,
      UInt64.toNat_add, UInt64.toNat_ofNat', UInt64.toNat_one]
    omega
  have hpos : (strlen s + 1).toUInt32.toBitVec.msb = false := by
    rw [BitVec.msb_eq_false_iff_two_mul_lt, hlen]
    omega
  show (BitVec.signExtend 64 (strlen s + 1).toUInt32.toBitVec).toNat = _
  rw [BitVec.signExtend_eq_setWidth_of_msb_false hpos, BitVec.toNat_setWidth, hlen]
  exact Nat.mod_eq_of_lt (h.trans (by decide))

end Piles

/-! ## The stack as a whole -/

/-- The end of the stack's block, where it starts to grow. -/
def StackBlock.top (stack : StackBlock) : Nat := stack.address.toNat + processStackSize

/-- The bytes of some strings, each with its NUL. -/
def textBytes (l : List CString) : Nat := (l.map fun s => s.chars.length + 1).sum

/-- The bytes of the pointers and the strings. -/
def argBytes (argv : Argv) : Nat :=
  if argv.strings = [] then 0 else 8 * (argv.strings.length + 1) + textBytes argv.strings

/-- The arguments, the bytes left out to align the frame, and its twenty words are not more
than the block. -/
def Fits (stack : StackBlock) (argv : Argv) : Prop :=
  argBytes argv + (stack.top - argBytes argv) % 16 + 8 * 20 ≤ processStackSize

instance (stack : StackBlock) (argv : Argv) : Decidable (Fits stack argv) :=
  inferInstanceAs (Decidable (_ ≤ _))

section Whole

variable {stack : StackBlock} {argv : Argv} {wrapper entryPoint : UInt64}

/-- Where the pointers begin. -/
def argvAt (stack : StackBlock) (argv : Argv) : Nat := stack.top - 8 * (argv.strings.length + 1)

/-- What lies above the frame, from the top. -/
def argPile (stack : StackBlock) (argv : Argv) : List (List Byte) :=
  if argv.strings = [] then []
  else
    let copies := argv.strings.reverse.map copyOf
    leBytes 8 0 :: pointersTo (pushed (argvAt stack argv) copies) ++ copies

/-- Where the frame is pushed. -/
def frameTop (stack : StackBlock) (argv : Argv) : Nat :=
  stack.top - argBytes argv - (stack.top - argBytes argv) % 16

theorem length_pushed {hi : Nat} (bss : List (List Byte)) : (pushed hi bss).length = bss.length := by
  induction bss generalizing hi with
  | nil => rfl
  | cons bs bss ih => rw [pushed, List.length_cons, ih, List.length_cons]

theorem length_pointersTo (blocks : List Write) :
    (pointersTo blocks).flatten.length = 8 * blocks.length := by
  induction blocks with
  | nil => rfl
  | cons block blocks ih =>
    rw [pointersTo, List.map_cons, List.flatten_cons, List.length_append, length_leBytes,
      List.length_cons, Nat.mul_succ, Nat.add_comm]
    exact congrArg (· + 8) ih

theorem argBytes_eq (hnil : argv.strings ≠ []) :
    argBytes argv = 8 * (argv.strings.length + 1) + copiesLength argv.strings := by
  rw [argBytes, if_neg hnil, textBytes, copiesLength]
  congr 2
  exact List.map_congr_left fun s hs => (toNat_copyLen (argv.counted s hs)).symm

theorem length_argPile : (argPile stack argv).flatten.length = argBytes argv := by
  by_cases hnil : argv.strings = []
  · rw [argPile, if_pos hnil, argBytes, if_pos hnil]
    rfl
  · rw [argPile, if_neg hnil, argBytes_eq hnil, List.cons_append, List.flatten_cons,
      List.flatten_append, List.length_append, List.length_append, length_pointersTo, length_copies,
      length_leBytes, length_pushed, List.length_map, List.length_reverse, copiesLength_reverse,
      Nat.mul_succ]
    omega

theorem top_lt : stack.top < 2 ^ 64 :=
  stack.inHeap.2.trans_lt (by decide)

theorem toNat_base : (stack.address + UInt64.ofNat processStackSize).toNat = stack.top := by
  rw [UInt64.toNat_add]
  exact Nat.mod_eq_of_lt top_lt

theorem toNat_argCounter : (argCounter argv).toNat = argv.strings.length := by
  have hmem := argv.inMemory
  rw [argCounter, UInt64.toNat_ofNat']
  exact Nat.mod_eq_of_lt (by omega)

/-- The strings the loop of `copyToStack` copies. -/
def copied (argv : Argv) : List CString :=
  argv.strings.take (toInt32 (argCounter argv - 1).toNat + 1).toNat

/-- With a counter that is not negative the loop starts at the last string. -/
theorem copied_eq (h : argv.strings.length ≤ 2 ^ 31) : copied argv = argv.strings := by
  rcases List.eq_nil_or_concat argv.strings with hnil | ⟨l, s, hl⟩
  · rw [copied, hnil, List.take_nil]
  · have hpos : 1 ≤ (argCounter argv).toNat := by
      rw [toNat_argCounter, hl]
      simp
    have hlast : (argCounter argv - 1).toNat = argv.strings.length - 1 := by
      rw [← toNat_argCounter]
      exact toNat_sub_ofNat hpos
    rw [toNat_argCounter] at hpos
    rw [copied, hlast, toInt32_of_lt (by omega)]
    exact List.take_of_length_le (by omega)

theorem copyToStack_eq (base : UInt64) (hnil : argv.strings ≠ []) :
    copyToStack base (argCounter argv) argv =
      let newArgv := base - UInt64.ofNat (8 * (argv.strings.length + 1))
      ((copyStrings newArgv (copied argv).reverse newArgv).1, newArgv,
        (copyStrings newArgv (copied argv).reverse newArgv).2 ++
          [store64 (newArgv + 8 * argCounter argv) 0]) := by
  have hpos : argCounter argv > 0 := by
    rw [gt_iff_lt, UInt64.lt_iff_toNat_lt, toNat_argCounter]
    exact List.length_pos_iff.mpr hnil
  have hspace : 8 * (argCounter argv + 1) = UInt64.ofNat (8 * (argv.strings.length + 1)) := by
    rw [argCounter, UInt64.ofNat_mul, UInt64.ofNat_add]
    rfl
  rw [copyToStack, if_pos hpos, hspace]
  rfl

theorem length_le (h : Fits stack argv) : argv.strings.length < 512 := by
  unfold Fits argBytes at h
  split at h
  · next he => simp [he]
  · have hle := Nat.le_of_add_right_le (Nat.le_of_add_right_le (Nat.le_of_add_right_le h))
    exact Nat.lt_of_succ_le (Nat.le_of_mul_le_mul_left hle (by decide))

theorem argBytes_le_top (h : Fits stack argv) : argBytes argv ≤ stack.top :=
  ((Nat.le_of_add_right_le (Nat.le_of_add_right_le h)).trans (Nat.le_add_left _ _))

/-- Arguments that fit are all copied, and the pile of pointers and copies is built. -/
theorem copyToStack_fits (h : Fits stack argv) {base : UInt64} (hbase : base.toNat = stack.top) :
    ∃ final newArgv writes, copyToStack base (argCounter argv) argv = (final, newArgv, writes) ∧
      final.toNat = stack.top - argBytes argv ∧
      (argv.strings ≠ [] → newArgv.toNat = argvAt stack argv) ∧
      writes.Perm (pushed stack.top (argPile stack argv)) := by
  have htop := argBytes_le_top h
  by_cases hnil : argv.strings = []
  · have hzero : ¬ argCounter argv > 0 := by
      rw [gt_iff_lt, UInt64.lt_iff_toNat_lt, toNat_argCounter, hnil]
      exact Nat.lt_irrefl 0
    rw [copyToStack, if_neg hzero]
    refine ⟨base, 0, [], rfl, ?_, fun hne => absurd hnil hne, ?_⟩
    · rw [argBytes, if_pos hnil, hbase, Nat.sub_zero]
    · rw [argPile, if_pos hnil]
      exact .nil
  · rw [argBytes_eq hnil] at htop
    have hargv : (base - UInt64.ofNat (8 * (argv.strings.length + 1))).toNat = argvAt stack argv := by
      rw [toNat_sub_ofNat (hbase ▸ Nat.le_of_add_right_le htop), hbase, argvAt]
    rw [copyToStack_eq base hnil, copied_eq ((length_le h).le.trans (by decide))]
    generalize base - UInt64.ofNat _ = newArgv at hargv ⊢
    have hend : newArgv.toNat + 8 * argv.strings.reverse.length = stack.top - 8 := by
      rw [hargv, argvAt, List.length_reverse]
      omega
    have hcopies : copiesLength argv.strings.reverse ≤ newArgv.toNat := by
      rw [copiesLength_reverse, hargv, argvAt]
      omega
    have hperm := copyStrings_perm hcopies (hend ▸ (Nat.sub_le _ _).trans_lt top_lt)
    refine ⟨_, newArgv, _, rfl, ?_, fun _ => hargv, ?_⟩
    · rw [copyStrings_final, toNat_sub_ofNat hcopies, copiesLength_reverse, hargv, argvAt,
        argBytes_eq hnil, Nat.sub_sub]
    · have hnull : store64 (newArgv + 8 * argCounter argv) 0 = (stack.top - 8, leBytes 8 0) := by
        rw [List.length_reverse] at hend
        rw [store64, argCounter, toNat_slot (hend ▸ (Nat.sub_le _ _).trans_lt top_lt), hend]
        rfl
      rw [argPile, if_neg hnil, List.cons_append, pushed, pushed_append, length_pointersTo,
        length_pushed, List.length_map, length_leBytes, hnull, ← hend, Nat.add_sub_cancel, ← hargv]
      exact (List.perm_append_singleton _ _).trans (hperm.cons _)

theorem address_ne_zero : stack.address ≠ 0 := by
  intro h0
  have hle := stack.inHeap.1
  rw [h0] at hle
  exact absurd hle (by decide)

/-- The words of the frame, as bytes. -/
def framePile (wrapper base entryPoint argc arg : UInt64) : List (List Byte) :=
  (frameWords wrapper base entryPoint argc arg).map fun word => leBytes 8 word.toNat

theorem length_framePile {base argc arg : UInt64} :
    (framePile wrapper base entryPoint argc arg).flatten.length = 8 * 20 := by
  simp [framePile, frameWords]

theorem frame_le (h : Fits stack argv) : 8 * 20 ≤ frameTop stack argv := by
  unfold Fits at h
  unfold frameTop
  unfold StackBlock.top at *
  omega

variable (wrapper entryPoint)

/-- What `setUpStackFrame` writes when the arguments fit: the pile of the arguments below
the top, and the frame below it. -/
theorem setUp_fits (h : Fits stack argv) :
    ∃ newArgv base,
      (argv.strings ≠ [] → newArgv.toNat = argvAt stack argv) ∧
      (setUpStackFrame wrapper (some stack) entryPoint (argCounter argv) argv).rsp.toNat =
        frameTop stack argv - 8 * 20 ∧
      (setUpStackFrame wrapper (some stack) entryPoint (argCounter argv) argv).writes.Perm
        (pushed stack.top (argPile stack argv) ++ pushed (frameTop stack argv)
          (framePile wrapper base entryPoint (argCounter argv) newArgv)) := by
  obtain ⟨final, newArgv, writes, hcopy, hfinal, hargv, hperm⟩ := copyToStack_fits h toNat_base
  have htop : (final &&& -16).toNat = frameTop stack argv := by
    rw [toNat_and_align, hfinal, frameTop]
  have hle : 8 * 20 ≤ (final &&& -16).toNat := htop ▸ frame_le h
  have hframe : stackFrame wrapper final entryPoint (argCounter argv) newArgv =
      ((final &&& -16) - UInt64.ofNat (8 * 20), pushed (frameTop stack argv)
        (framePile wrapper final entryPoint (argCounter argv) newArgv)) := by
    have hpush :=
      @pushWords_pushed _ (frameWords wrapper final entryPoint (argCounter argv) newArgv) hle
    rw [htop] at hpush
    exact Prod.ext pushWords_final hpush
  have hset : setUpStackFrame wrapper (some stack) entryPoint (argCounter argv) argv =
      { rsp := (final &&& -16) - UInt64.ofNat (8 * 20),
        base := stack.address + UInt64.ofNat processStackSize,
        writes := writes ++ pushed (frameTop stack argv)
          (framePile wrapper final entryPoint (argCounter argv) newArgv) } := by
    simp only [setUpStackFrame, returned, Option.map_some, Option.getD_some,
      if_neg address_ne_zero, hcopy, hframe]
  rw [hset]
  exact ⟨newArgv, final, hargv, (toNat_sub_ofNat hle).trans (congrArg (· - 8 * 20) htop),
    hperm.append_right _⟩

/-- Arguments that fit stay in the block. -/
theorem setUp_inside (h : Fits stack argv) :
    ∀ write ∈ (setUpStackFrame wrapper (some stack) entryPoint (argCounter argv) argv).writes,
      extent write ⊆ Set.Ico stack.address.toNat stack.top := by
  obtain ⟨newArgv, base, _, _, hperm⟩ := setUp_fits wrapper entryPoint h
  intro write hw
  have hfit : stack.address.toNat + 8 * 20 ≤ frameTop stack argv := by
    unfold Fits at h
    unfold frameTop StackBlock.top at *
    omega
  have hframe : (framePile wrapper base entryPoint (argCounter argv) newArgv).flatten.length ≤
      frameTop stack argv := length_framePile.trans_le (frame_le h)
  have hargs : (argPile stack argv).flatten.length ≤ stack.top :=
    length_argPile.trans_le (argBytes_le_top h)
  rcases List.mem_append.mp (hperm.mem_iff.mp hw) with hw | hw
  · obtain ⟨hlow, hhigh⟩ := pushed_bounds hargs hw
    rw [length_argPile] at hlow
    refine Set.Ico_subset_Ico (le_trans ?_ hlow) hhigh
    exact (Nat.le_of_add_right_le hfit).trans (Nat.sub_le _ _)
  · obtain ⟨hlow, hhigh⟩ := pushed_bounds hframe hw
    rw [length_framePile] at hlow
    refine Set.Ico_subset_Ico ((Nat.le_sub_of_add_le hfit).trans hlow) (hhigh.trans ?_)
    exact (Nat.sub_le _ _).trans (Nat.sub_le _ _)

/-- Some of the writes: the first pointer, the copies, and the last word of the frame. -/
theorem setUp_ends (hnil : argv.strings ≠ []) :
    let newArgv := stack.address + UInt64.ofNat processStackSize -
      UInt64.ofNat (8 * (argv.strings.length + 1))
    let low := newArgv - UInt64.ofNat (copiesLength (copied argv))
    let writes := (setUpStackFrame wrapper (some stack) entryPoint (argCounter argv) argv).writes
    (copied argv ≠ [] → ∃ write ∈ writes, write.1 = newArgv.toNat ∧ 0 < write.2.length) ∧
      (∀ s ∈ copied argv, ∃ write ∈ writes, write.2.length = (copyLen s).toNat) ∧
      ∃ write ∈ writes, write.1 = ((low &&& -16) - UInt64.ofNat (8 * 20)).toNat ∧
        0 < write.2.length := by
  intro newArgv low writes
  have hwrites : writes = (copyStrings newArgv (copied argv).reverse newArgv).2 ++
      [store64 (newArgv + 8 * argCounter argv) 0] ++
      (stackFrame wrapper low entryPoint (argCounter argv) newArgv).2 := by
    have hlow : (copyStrings newArgv (copied argv).reverse newArgv).1 = low := by
      rw [copyStrings_final, copiesLength_reverse]
    simp only [writes, setUpStackFrame, returned, Option.map_some, Option.getD_some,
      if_neg address_ne_zero, copyToStack_eq _ hnil]
    rw [hlow]
  rw [hwrites]
  refine ⟨?_, fun s hs => ?_, ?_⟩
  · intro hne
    obtain ⟨write, hw, hend⟩ :=
      @mem_copyStrings newArgv newArgv (copied argv).reverse (by simpa using hne)
    exact ⟨write, List.mem_append_left _ (List.mem_append_left _ hw), hend⟩
  · obtain ⟨write, hw, hlen⟩ :=
      @mem_copies newArgv newArgv (copied argv).reverse s (List.mem_reverse.mpr hs)
    exact ⟨write, List.mem_append_left _ (List.mem_append_left _ hw), hlen⟩
  · obtain ⟨write, hw, hend, hlen⟩ := @mem_pushWords (low &&& -16)
      (frameWords wrapper low entryPoint (argCounter argv) newArgv) (List.cons_ne_nil _ _)
    exact ⟨write, List.mem_append_right _ hw, hend.trans (congrArg _ pushWords_final), hlen⟩

/-- Arguments that do not fit leave the block. -/
theorem setUp_outside (h : ¬ Fits stack argv) :
    ∃ write ∈ (setUpStackFrame wrapper (some stack) entryPoint (argCounter argv) argv).writes,
      ¬ extent write ⊆ Set.Ico stack.address.toNat stack.top := by
  have hnil : argv.strings ≠ [] := by
    intro hnil
    refine h ?_
    rw [Fits, argBytes, if_pos hnil, processStackSize]
    omega
  obtain ⟨hfirst, hcopy, write, hw, hat, hlen⟩ := @setUp_ends stack argv wrapper entryPoint hnil
  have hout : ∀ write : Write, 0 < write.2.length →
      write.1 < stack.address.toNat ∨ stack.top ≤ write.1 →
      ¬ extent write ⊆ Set.Ico stack.address.toNat stack.top := by
    intro write hlen hout hsub
    have hmem := hsub ⟨Nat.le_refl _, Nat.lt_add_of_pos_right hlen⟩
    rcases hout with hlt | hge
    · exact Nat.not_le.mpr hlt hmem.1
    · exact Nat.not_lt.mpr hge hmem.2
  have hheap : 0x600000 ≤ stack.address.toNat ∧ stack.address.toNat + 4096 ≤ 0x20600000 :=
    stack.inHeap
  have hmem : 8 * (argv.strings.length + 1) + 4096 ≤ 2 ^ 64 := argv.inMemory
  have htop : stack.top = stack.address.toNat + 4096 := rfl
  have hargv : (stack.address + UInt64.ofNat processStackSize -
      UInt64.ofNat (8 * (argv.strings.length + 1))).toNat =
      (2 ^ 64 + stack.top - 8 * (argv.strings.length + 1)) % 2 ^ 64 := by
    rw [UInt64.toNat_sub, toNat_base, UInt64.toNat_ofNat']
    omega
  simp only [Fits, argBytes_eq hnil, processStackSize] at h
  generalize stack.address + UInt64.ofNat processStackSize -
    UInt64.ofNat (8 * (argv.strings.length + 1)) = newArgv at *
  by_cases hlong : 8 * (argv.strings.length + 1) ≤ 4096
  · rw [copied_eq (by omega)] at hat hcopy
    by_cases hbig : ∃ s ∈ argv.strings, 4096 < (copyLen s).toNat
    · -- one copy is larger than the block
      obtain ⟨s, hs, hbig⟩ := hbig
      obtain ⟨copy, hc, hsize⟩ := hcopy s hs
      refine ⟨copy, hc, fun hsub => ?_⟩
      have hpos : copy.1 < copy.1 + copy.2.length := by omega
      have hin := (Set.Ico_subset_Ico_iff hpos).mp hsub
      omega
    -- the last word of the frame is below the block
    refine ⟨write, hw, hout write hlen (.inl ?_)⟩
    have hcopies : copiesLength argv.strings ≤ argv.strings.length * 4096 := by
      refine copiesLength_le fun s hs => Nat.le_of_not_lt fun hlt => hbig ⟨s, hs, hlt⟩
    have hlow : (newArgv - UInt64.ofNat (copiesLength argv.strings)).toNat =
        stack.top - 8 * (argv.strings.length + 1) - copiesLength argv.strings := by
      rw [toNat_sub_ofNat (by omega), hargv]
      omega
    rw [hat, toNat_sub_ofNat, toNat_and_align, hlow]
    · omega
    · rw [toNat_and_align, hlow]
      omega
  · by_cases hcopied : copied argv = []
    · refine ⟨write, hw, hout write hlen ?_⟩
      rw [hcopied] at hat
      have hlow : (newArgv - UInt64.ofNat (copiesLength [])).toNat = newArgv.toNat := by
        simp [copiesLength]
      rw [hat, UInt64.toNat_sub, toNat_and_align, hlow, hargv, UInt64.toNat_ofNat']
      omega
    · obtain ⟨first, hf, hpos, hsize⟩ := hfirst hcopied
      refine ⟨first, hf, hout first hsize ?_⟩
      rw [hpos, hargv]
      omega

end Whole

/-! ## 1. Reading the arguments back -/

section ReadBack

variable {mem : Nat → Byte} {e : Nat} {l : List CString}

end ReadBack

section Arguments

variable {stack : StackBlock} {argv : Argv} {mem : Nat → Byte} (wrapper entryPoint : UInt64)

end Arguments

/-- A string of one character. -/
def repeated (n : Nat) : CString where
  chars := List.replicate n 97
  noNul h := absurd (List.eq_of_mem_replicate h) (by decide)

/-- The first block of the heap. -/
def firstStack : StackBlock where
  address := 0x600010
  inHeap := by decide

/-- What `createProcess` writes stays in the block of the new stack; where nothing fits
there is no process. -/
def StackContained (r : Option (Kernel × Flow) × List Write) (stack : Option StackBlock)
    (argv : Argv) : Prop :=
  (∀ write ∈ r.2, ∃ block, stack = some block ∧
    extent write ⊆ Set.Ico block.address.toNat block.top) ∧
  ((∀ block, stack = some block → ¬ Fits block argv) →
    ∀ k flow, r.1 = some (k, flow) → flow = .ret (-1))

/-- Without the PCB or the stack there is no process. -/
theorem createProcess_refused {k k' : Kernel} {args : ProcessArgs} {flow : Flow}
    (h : args.valid = false ∨ k.allocs 0 = false ∨ k.allocs 1 = false)
    (hc : createProcess k args = some (k', flow)) : flow = .ret (-1) := by
  rcases createProcess_cases hc with ⟨_, hret⟩ | ⟨⟨hvalid, h0, h1⟩, _⟩
  · exact hret
  · simp [hvalid, h0, h1] at h

/-- Nothing is compared with the end of the block: what is written stays in it exactly when
the arguments fit, or no stack is built. -/
theorem stack_contained_iff (wrapper entryPoint pcb : UInt64) (k : Kernel) (args : ProcessArgs)
    (argv : Argv) (stack : Option StackBlock) :
    StackContained (createProcessAt wrapper k args entryPoint argv pcb stack) stack argv ↔
      (args.valid = true → pcb ≠ 0 → ∀ block, stack = some block → Fits block argv) := by
  constructor
  · rintro ⟨hinside, -⟩ hvalid hpcb block rfl
    by_contra hfits
    obtain ⟨write, hw, hout⟩ := setUp_outside wrapper entryPoint hfits
    obtain ⟨block', heq, hin⟩ := hinside write (by simpa [createProcessAt, hvalid, hpcb] using hw)
    cases heq
    exact hout hin
  · intro hfits
    have hrefused : (args.valid = true → pcb ≠ 0 → stack = none) → ∀ k' flow,
        (createProcessAt wrapper k args entryPoint argv pcb stack).1 = some (k', flow) →
          flow = .ret (-1) := by
      intro hnone k' flow hc
      refine createProcess_refused ?_ hc
      by_cases hvalid : args.valid = true
      · by_cases hpcb : pcb = 0
        · exact .inr (.inl (by simp [hpcb]))
        · exact .inr (.inr (by simp [hnone hvalid hpcb, setUpStackFrame, returned]))
      · exact .inl (eq_false_of_ne_true hvalid)
    refine ⟨fun write hw => ?_, fun hno => hrefused fun hvalid hpcb => ?_⟩
    · obtain ⟨⟨hvalid, hpcb⟩, hw⟩ : (args.valid = true ∧ pcb ≠ 0) ∧
          write ∈ (setUpStackFrame wrapper stack entryPoint (argCounter argv) argv).writes := by
        by_cases hbuilt : args.valid = true ∧ pcb ≠ 0
        · exact ⟨hbuilt, by simpa [createProcessAt, hbuilt.1, hbuilt.2] using hw⟩
        · have hnot : (args.valid && pcb != 0) = false := by
            simpa [imp_iff_not_or, not_and_or] using hbuilt
          rw [createProcessAt, hnot] at hw
          cases hw
      cases stack with
      | none => simp [setUpStackFrame, returned] at hw
      | some block =>
        exact ⟨block, rfl, setUp_inside wrapper entryPoint (hfits hvalid hpcb block rfl) write hw⟩
    · cases stack with
      | none => rfl
      | some block => exact absurd (hfits hvalid hpcb block rfl) (hno block rfl)

def sixteenStrings : Argv where
  strings := List.replicate 16 (repeated 255)
  inMemory := by decide
  counted := by decide +kernel

/-- Sixteen arguments of 255 characters: there is a new process, and its frame lies below the
block. -/
theorem arguments_leave_block :
    (createProcessAt 0x1000 (boot fun _ => true).k backgroundArgs 0x2000 sixteenStrings 0x700000
        (some firstStack)).1.any (fun r => r.2 = .ret 2) = true ∧
      ¬ StackContained (createProcessAt 0x1000 (boot fun _ => true).k backgroundArgs 0x2000
        sixteenStrings 0x700000 (some firstStack)) (some firstStack) sixteenStrings := by
  refine ⟨by decide +kernel, fun h => ?_⟩
  have hfits : ¬ Fits firstStack sixteenStrings := by decide +kernel
  obtain ⟨write, hw, hout⟩ := setUp_outside 0x1000 0x2000 hfits
  obtain ⟨block, heq, hin⟩ := h.1 write hw
  cases heq
  exact hout hin

/-! ## The memory managers -/

/-- The buddy manager of `main` hands out blocks of the heap. -/
theorem Buddy.stack_in_heap {mem : Nat → Buddy.Block} {s : Buddy.St} {h' : Buddy.Heap} {p : Nat}
    (hr : Buddy.Reach mem Buddy.heapSize s)
    (ha : Buddy.allocMemory s.heap processStackSize = some (h', some p)) :
    heapStart ≤ p ∧ p + processStackSize ≤ heapEnd := by
  obtain ⟨l, I, hmax⟩ := Buddy.reach_inv hr
  have hlog : s.heap.man.maxOrder ≤ 29 := hmax ▸ Nat.clog_le_of_le_pow (by decide)
  obtain ⟨hlow, hhigh⟩ := I.in_range ha
  exact ⟨hlow, hhigh.trans (Nat.add_le_add_left (Nat.pow_le_pow_right (by decide) hlog) _)⟩

/-- So does the bitmap manager. -/
theorem Bitmap.stack_in_heap {table : Nat → Bitmap.Cell} {start size p : Nat}
    {m m' : Bitmap.MemoryManager} (hr : Bitmap.Reach table start size m)
    (ha : Bitmap.allocMemory m processStackSize = some (m', p)) (hp : p ≠ 0) :
    heapStart ≤ p ∧ p + processStackSize ≤ heapEnd := by
  obtain ⟨⟨gs, L⟩, hstart, hcells⟩ := hr.steady
  have hn : Bitmap.sizeToBlockQty processStackSize = 64 := by decide
  have hpos : 0 < Bitmap.sizeToBlockQty processStackSize := hn.symm ▸ by decide
  rcases Bitmap.allocMemory_cases L hpos with ⟨hnull, _⟩ | ⟨a, hnext, hsome⟩
  · exact absurd (Prod.mk.inj (Option.some.inj (hnull.symm.trans ha))).2.symm hp
  · obtain rfl := (Prod.mk.inj (Option.some.inj (hsome.symm.trans ha))).2
    have hqty := hnext.mem.2.1
    rw [hn, hcells] at hqty
    rw [hstart]
    unfold heapStart heapEnd heapStart processStackSize Bitmap.blockSize
    omega

end SoKernel
