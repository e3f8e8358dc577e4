import BinTools.CString
import BinTools.ByteBuffer

namespace BinTools.Elf

/-!
# ELF64 input objects

The parts of a relocatable ELF64 file that the linker looks at.  A section
header carries its name, which the file keeps in the section-header string
table, and the bytes it describes; where these bytes are symbol-table or
relocation entries, `symAt` and `relaAt` read them as arrays, the way the
source casts `sh_offset`.
-/

/-- A value stored in a `uint32_t`. -/
def u32 (value : Nat) : Nat :=
  value % 2 ^ 32

/-- `SHT_PROGBITS` -/
def shtProgbits : Nat := 1

/-- `SHT_SYMTAB` -/
def shtSymtab : Nat := 2

/-- `SHT_RELA` -/
def shtRela : Nat := 4

/-- `SHT_DYNAMIC` -/
def shtDynamic : Nat := 6

/-- `SHT_NOTE` -/
def shtNote : Nat := 7

/-- `SHT_NOBITS` -/
def shtNobits : Nat := 8

/-- `SHN_UNDEF` -/
def shnUndef : Nat := 0

/-- `SHN_ABS` -/
def shnAbs : Nat := 0xfff1

/-- `SHN_COMMON` -/
def shnCommon : Nat := 0xfff2

/-- `STB_LOCAL` -/
def stbLocal : Nat := 0

/-- `STB_GLOBAL` -/
def stbGlobal : Nat := 1

/-- `STB_WEAK` -/
def stbWeak : Nat := 2

/-- `STT_NOTYPE` -/
def sttNotype : Nat := 0

/-- `STT_OBJECT` -/
def sttObject : Nat := 1

/-- `STT_FUNC` -/
def sttFunc : Nat := 2

/-- `STT_SECTION` -/
def sttSection : Nat := 3

/-- `STV_DEFAULT` -/
def stvDefault : Nat := 0

/-- `sizeof(Elf64_Ehdr)` -/
def sizeofEhdr : Nat := 64

/-- `sizeof(Elf64_Phdr)` -/
def sizeofPhdr : Nat := 56

/-- `sizeof(Elf64_Sym)` -/
def sizeofSym : Nat := 24

/-- `sizeof(Elf64_Rela)` -/
def sizeofRela : Nat := 24

/-- `sizeof(Elf64_Dyn)` -/
def sizeofDyn : Nat := 16

/--
An `Elf64_Sym`.  `name` is the string at `st_name` of the object's symbol
string table; binding and type are the two halves of `st_info`.
-/
structure Sym where
  name : CString := .empty
  stBind : Nat := 0
  stType : Nat := 0
  stVisibility : Nat := 0
  stShndx : Nat := 0
  stValue : Nat := 0
  deriving DecidableEq, Repr, Inhabited

/-- An `Elf64_Rela`; symbol index and type are the two halves of `r_info`. -/
structure Rela where
  rOffset : Nat := 0
  symIndex : Nat := 0
  relType : Nat := 0
  rAddend : Int := 0
  deriving DecidableEq, Repr, Inhabited

/-- An `Elf64_Shdr` with the contents found at its `sh_offset`. -/
structure Shdr where
  name : CString := .empty
  shType : Nat := 0
  shSize : Nat := 0
  shInfo : Nat := 0
  shAddr : Nat := 0
  symAt : Nat → Sym := fun _ => default
  relaAt : Nat → Rela := fun _ => default
  data : ByteBuffer.Bytes := fun _ => 0

instance : Inhabited Shdr :=
  ⟨{}⟩

/-- The relocation records of a header: `rela` runs up to `rela_end`. -/
def Shdr.relas (shdr : Shdr) : List Rela :=
  (List.range ((shdr.shSize + sizeofRela - 1) / sizeofRela)).map shdr.relaAt

/--
An ELF64 object file: its section header table, whose first header is the
null header.
-/
structure ElfFile where
  sections : List Shdr
  nullFirst : sections.head?.map Shdr.shType = some 0

/-- The object file with the given headers after the null header. -/
def ElfFile.ofHeaders (headers : List Shdr) : ElfFile where
  sections := {} :: headers
  nullFirst := rfl

end BinTools.Elf
