import SoKernel.Image.Model

/-!
# Loading undoes packing

Results:
1. `buildImage_eq`: the image is the kernel and a list of blocks, each behind its length.
2. `memcpy_eq`: the two paths of `memcpy` copy the same bytes.
3. `load_undoes_pack`: `loadModules` leaves each file at its address.
-/

namespace SoKernel.Image

/-! ## Packing -/

section Packing

variable {target : List Byte} {source : Source} {modules : List (List Byte)}

/-- The chunks of a file, one after the other, are the file. -/
theorem writeFile_eq (h : source.eof = false) : writeFile target source = target ++ source.rest := by
  induction target, source using writeFile.induct with
  | case1 _ _ heof => exact absurd (h.symm.trans heof) Bool.false_ne_true
  | case2 target source _ ih =>
    rw [writeFile, if_neg (by simp [h])]
    by_cases hlt : source.rest.length < bufferSize
    · -- the last chunk sets the indicator
      have hshort : source.rest.take bufferSize = source.rest := List.take_of_length_le hlt.le
      rw [writeFile, if_pos (by simp [fread, hlt])]
      simp [fread, hshort]
    · rw [ih (by simp [fread, h, hlt])]
      simp [fread]

/-- The modules as they lie behind each other. -/
def packed (modules : List (List Byte)) : List Byte :=
  modules.flatMap fun file => leBytes 4 (file.length % 2 ^ 32) ++ file

theorem writeModules_eq : writeModules target modules = target ++ packed modules := by
  induction modules generalizing target with
  | nil => simp [writeModules, packed]
  | cons file modules ih =>
    rw [writeModules, ih, writeFile_eq rfl]
    simp [packed, writeSize, fopen]

theorem buildImage_eq (files : FileArray) : buildImage files =
    files.kernel ++ (leBytes 4 files.modules.length ++ packed files.modules) := by
  rw [buildImage, writeModules_eq, writeFile_eq rfl]
  simp [fopen]

end Packing

/-! ## Copying -/

section Copying

variable {mem : Mem} {d s n : Nat}

theorem copyWords_eq : copyWords mem d s n = copyLoop 4 mem d s n := by
  induction n generalizing mem d s with
  | zero => rfl
  | succ n ih =>
    have hword : leBytes 4 (leValue (loadFrom mem s 4)) = loadFrom mem s 4 := by
      simpa using leBytes_leValue (loadFrom mem s 4)
    rw [copyWords, copyLoop, ih, hword]

theorem copyBytes_eq : copyBytes mem d s n = copyLoop 1 mem d s n := by
  induction n generalizing mem d s with
  | zero => rfl
  | succ n ih =>
    have hbyte : Function.update mem d (mem s) = storeAt mem d (loadFrom mem s 1) := by
      funext x
      rcases Nat.lt_trichotomy x d with hx | rfl | hx
      · simp [storeAt, Nat.not_le.mpr hx, Function.update_of_ne hx.ne]
      · simp [storeAt, loadFrom]
      · have hlen : (loadFrom mem s 1).length ≤ x - d := by
          rw [length_loadFrom]
          exact Nat.sub_pos_of_lt hx
        simp [storeAt, hx.le, List.getElem?_eq_none hlen, Function.update_of_ne hx.ne']
    rw [copyBytes, copyLoop, ih, hbyte]

/-- Both paths of `memcpy` copy the block. -/
theorem memcpy_eq (h : Disjoint (Set.Ico d (d + n)) (Set.Ico s (s + n))) :
    memcpy mem d s n = storeAt mem d (loadFrom mem s n) := by
  unfold memcpy
  split
  · next hal =>
    have hn : 4 * (n / 4) = n := Nat.mul_div_cancel' (Nat.dvd_of_mod_eq_zero hal.2.2)
    rw [copyWords_eq, copyLoop_eq 4 (by rwa [hn]), hn]
  · rw [copyBytes_eq, copyLoop_eq 1 (by rwa [Nat.one_mul]), Nat.one_mul]

theorem memset_eq {c : Byte} : memset mem d c n = storeAt mem d (List.replicate n c) := by
  induction n generalizing mem with
  | zero => simp [memset]
  | succ n ih =>
    rw [memset, ih, List.replicate_succ', storeAt_append, storeAt_singleton, List.length_replicate]
    funext x
    by_cases hx : x = d + n
    · rw [hx, Function.update_self, storeAt_outside (by simp), Function.update_self]
    · rw [Function.update_of_ne hx]
      simp [storeAt, Function.update_of_ne hx]

end Copying

/-! ## Loading -/

section Loading

variable {mem : Mem} {a current n : Nat} {file : List Byte} {modules : List (List Byte)}
  {targets : List Nat}

theorem readUint32_eq (hn : n < 2 ^ 32) (h : loadFrom mem a 4 = leBytes 4 n) :
    readUint32 mem a = (n, a + 4) := by
  rw [readUint32, h, leValue_leBytes (lt_of_lt_of_eq hn (by decide))]

/-- The cursor reads the modules one after the other. -/
theorem loadFollowing_eq (hsize : ∀ file ∈ modules, file.length < 2 ^ 32)
    (hmem : loadFrom mem current (packed modules).length = packed modules)
    (hlen : targets.length = modules.length)
    (hpay : ∀ block ∈ targets.zip modules,
      Disjoint (extent block) (Set.Ico current (current + (packed modules).length))) :
    loadFollowing mem current modules.length targets = some (storeAll mem (targets.zip modules)) := by
  induction modules generalizing mem current targets with
  | nil => simp [loadFollowing, storeAll]
  | cons file modules ih =>
    obtain ⟨target, targets, rfl⟩ := List.exists_cons_of_length_eq_add_one hlen
    obtain ⟨hfile, hsize⟩ := List.forall_mem_cons.mp hsize
    obtain ⟨hfirst, hpay⟩ := List.forall_mem_cons.mp hpay
    have hsplit : packed (file :: modules) = leBytes 4 file.length ++ (file ++ packed modules) := by
      rw [packed, List.flatMap_cons, Nat.mod_eq_of_lt hfile, List.append_assoc, packed]
    have hend : current + (packed (file :: modules)).length =
        current + 4 + file.length + (packed modules).length := by
      rw [hsplit, List.length_append, List.length_append, length_leBytes, Nat.add_assoc,
        Nat.add_assoc]
    rw [hend] at hfirst hpay
    -- the length, the module, and the modules behind it
    obtain ⟨hhead, hbody, hrest⟩ : loadFrom mem current 4 = leBytes 4 file.length ∧
        loadFrom mem (current + 4) file.length = file ∧
        loadFrom mem (current + 4 + file.length) (packed modules).length = packed modules := by
      rw [hsplit, List.length_append, List.length_append, length_leBytes, loadFrom_add,
        loadFrom_add] at hmem
      obtain ⟨hhead, htail⟩ := List.append_inj hmem (by simp)
      obtain ⟨hbody, hrest⟩ := List.append_inj htail (by simp)
      exact ⟨hhead, hbody, hrest⟩
    have hbehind : Set.Ico (current + 4 + file.length)
        (current + 4 + file.length + (packed modules).length) ⊆
        Set.Ico current (current + 4 + file.length + (packed modules).length) :=
      Set.Ico_subset_Ico_left (by rw [Nat.add_assoc]; exact Nat.le_add_right _ _)
    have hload : loadModule mem current target =
        (storeAt mem target file, current + 4 + file.length) := by
      have hapart : Disjoint (Set.Ico target (target + file.length))
          (Set.Ico (current + 4) (current + 4 + file.length)) :=
        hfirst.mono_right (Set.Ico_subset_Ico (Nat.le_add_right _ _) (Nat.le_add_right _ _))
      simp only [loadModule, readUint32_eq hfile hhead, memcpy_eq hapart, hbody]
    rw [List.length_cons, loadFollowing, hload]
    refine ih hsize ?_ (Nat.succ.inj hlen) fun block hb => (hpay block hb).mono_right hbehind
    rw [loadFrom_disjoint (hfirst.symm.mono_left hbehind), hrest]

/-- When the image lies at `base`, each module ends up at its address, and nothing else is
written. -/
theorem load_undoes_pack (files : FileArray) (mem : Mem) (base : Nat) (targets : List Nat)
    (hsize : ∀ file ∈ files.modules, file.length < 2 ^ 32)
    (hmem : loadFrom mem base (buildImage files).length = buildImage files)
    (hlen : targets.length = files.modules.length)
    (hapart : (targets.zip files.modules).Pairwise fun p q => Disjoint (extent p) (extent q))
    (hpay : ∀ block ∈ targets.zip files.modules, Disjoint (extent block)
      (Set.Ico (base + files.kernel.length) (base + (buildImage files).length))) :
    ∃ mem', loadModules mem (base + files.kernel.length) targets = some mem' ∧
      (∀ block ∈ targets.zip files.modules, loadFrom mem' block.1 block.2.length = block.2) ∧
      ∀ x, (∀ block ∈ targets.zip files.modules, x ∉ extent block) → mem' x = mem x := by
  refine ⟨storeAll mem (targets.zip files.modules), ?_, loadFrom_storeAll hapart,
    fun x hx => storeAll_outside hx⟩
  have himage := buildImage_eq files
  have hend : base + (buildImage files).length =
      base + files.kernel.length + 4 + (packed files.modules).length := by
    simp [himage, Nat.add_assoc]
  rw [hend] at hpay
  obtain ⟨hcount, hbody⟩ :
      loadFrom mem (base + files.kernel.length) 4 = leBytes 4 files.modules.length ∧
      loadFrom mem (base + files.kernel.length + 4) (packed files.modules).length =
        packed files.modules := by
    rw [himage, List.length_append, List.length_append, length_leBytes, loadFrom_add,
      loadFrom_add] at hmem
    exact List.append_inj (List.append_inj hmem (by simp)).2 (by simp)
  have hlt : files.modules.length < 2 ^ 32 :=
    Nat.lt_trans (Nat.lt_of_succ_lt files.length_lt) (by decide)
  rw [loadModules, readUint32_eq hlt hcount]
  refine loadFollowing_eq hsize hbody hlen fun block hb => (hpay block hb).mono_right ?_
  exact Set.Ico_subset_Ico_left (Nat.le_add_right _ _)

/-- An odd module, an empty one and one of a word, behind a kernel of three bytes. -/
def threeModules : FileArray where
  kernel := [7, 7, 7]
  modules := [[1, 2, 3, 4, 5], [], [6, 7, 8, 9]]
  length_lt := by decide

theorem load_undoes_pack_three : ∃ mem mem', loadModules mem 0x103 [0x400, 0x500, 0x600] = some mem' ∧
    loadFrom mem' 0x400 5 = [1, 2, 3, 4, 5] ∧ loadFrom mem' 0x600 4 = [6, 7, 8, 9] := by
  have hlen : (buildImage threeModules).length = 28 := by
    rw [buildImage_eq]
    rfl
  have hpay : ∀ block ∈ [0x400, 0x500, 0x600].zip threeModules.modules, Disjoint (extent block)
      (Set.Ico (0x100 + threeModules.kernel.length) (0x100 + (buildImage threeModules).length)) := by
    rw [hlen]
    simp [threeModules, extent]
  obtain ⟨mem', hload, hplaced, _⟩ := load_undoes_pack threeModules
    (storeAt (fun _ => 0) 0x100 (buildImage threeModules)) 0x100 [0x400, 0x500, 0x600] (by decide)
    loadFrom_storeAt rfl (by simp [threeModules, extent]) hpay
  exact ⟨_, mem', hload, hplaced (0x400, [1, 2, 3, 4, 5]) (by simp [threeModules]),
    hplaced (0x600, [6, 7, 8, 9]) (by simp [threeModules])⟩

end Loading

end SoKernel.Image
