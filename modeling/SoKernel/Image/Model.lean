import SoKernel.Lib.Memory

/-!
# The packed image

`Toolchain/ModulePacker/main.c` appends the modules to the kernel binary, and
`Kernel/moduleLoader.c` copies them to where they run. A file is the list of its bytes;
memory is byte-addressed, and a number lies in it with its lowest byte first.
-/

namespace SoKernel.Image

abbrev Byte := UInt8

abbrev Mem := Nat → Byte

/-! ## `main.c` -/

/-- `array_t`: the first file is the kernel. The number of files is an `int`. -/
structure FileArray where
  kernel : List Byte
  modules : List (List Byte)
  length_lt : modules.length + 1 < 2 ^ 31

/-- `BUFFER_SIZE` -/
def bufferSize : Nat := 128

/-- A file open for reading: what has not been read, and the end-of-file indicator. -/
structure Source where
  rest : List Byte
  eof : Bool

/-- `fopen(name, "r")` -/
def fopen (file : List Byte) : Source := { rest := file, eof := false }

/-- `fread(buffer, 1, n, source)`: the indicator is set when the file is too short. -/
def fread (n : Nat) (source : Source) : List Byte × Source :=
  (source.rest.take n,
    { rest := source.rest.drop n, eof := source.eof || decide (source.rest.length < n) })

/-- `write_file` -/
def writeFile (target : List Byte) (source : Source) : List Byte :=
  if source.eof then target
  else writeFile (target ++ (fread bufferSize source).1) (fread bufferSize source).2
termination_by if source.eof then 0 else source.rest.length + 1
decreasing_by
  rename_i h
  have hpos : 0 < bufferSize := by decide
  by_cases hlt : source.rest.length < bufferSize
  · simp [fread, h, hlt]
  · simp only [fread, h, hlt, Bool.false_or, decide_false, Bool.false_eq_true, if_false,
      List.length_drop]
    omega

/-- `write_size`; the size of the file is cut to a `uint32_t`. -/
def writeSize (target file : List Byte) : List Byte :=
  target ++ leBytes 4 (file.length % 2 ^ 32)

/-- The loop of `buildImage`. -/
def writeModules (target : List Byte) : List (List Byte) → List Byte
  | [] => target
  | file :: files => writeModules (writeFile (writeSize target file) (fopen file)) files

/-- `buildImage`: the kernel, the number of modules as an `int`, and the modules. -/
def buildImage (fileArray : FileArray) : List Byte :=
  let target := writeFile [] (fopen fileArray.kernel)
  let extraBinaries := fileArray.modules.length
  writeModules (target ++ leBytes 4 extraBinaries) fileArray.modules

/-! ## `lib.c` -/

/-- `d[i] = s[i]` on words. -/
def copyWords (mem : Mem) (d s : Nat) : Nat → Mem
  | 0 => mem
  | n + 1 =>
    let word := leValue (loadFrom mem s 4)
    copyWords (storeAt mem d (leBytes 4 word)) (d + 4) (s + 4) n

/-- `d[i] = s[i]` on bytes. -/
def copyBytes (mem : Mem) (d s : Nat) : Nat → Mem
  | 0 => mem
  | n + 1 => copyBytes (Function.update mem d (mem s)) (d + 1) (s + 1) n

/-- `memcpy` -/
def memcpy (mem : Mem) (destination source length : Nat) : Mem :=
  if destination % 4 = 0 ∧ source % 4 = 0 ∧ length % 4 = 0 then
    copyWords mem destination source (length / 4)
  else copyBytes mem destination source length

/-- `memset`, from the last byte to the first; `c` is already cut to a byte. -/
def memset (mem : Mem) (destination : Nat) (c : Byte) : Nat → Mem
  | 0 => mem
  | length + 1 => memset (Function.update mem (destination + length) c) destination c length

/-! ## `moduleLoader.c` -/

/-- `readUint32`: the number and the address behind it. -/
def readUint32 (mem : Mem) (address : Nat) : Nat × Nat :=
  (leValue (loadFrom mem address 4), address + 4)

/-- `loadModule`: the memory and the address behind the module. -/
def loadModule (mem : Mem) (module targetModuleAddress : Nat) : Mem × Nat :=
  let (moduleSize, module) := readUint32 mem module
  (memcpy mem targetModuleAddress module moduleSize, module + moduleSize)

/-- The loop of `loadModules`; there must be an address for each module. -/
def loadFollowing (mem : Mem) (currentModule : Nat) : Nat → List Nat → Option Mem
  | 0, _ => some mem
  | _ + 1, [] => none
  | n + 1, target :: targets =>
    let (mem, currentModule) := loadModule mem currentModule target
    loadFollowing mem currentModule n targets

/-- `loadModules` -/
def loadModules (mem : Mem) (payloadStart : Nat) (targetModuleAddress : List Nat) : Option Mem :=
  let (moduleCount, currentModule) := readUint32 mem payloadStart
  loadFollowing mem currentModule moduleCount targetModuleAddress

end SoKernel.Image
