import BinTools.ByteBuffer
import BinTools.CountedLoop
import BinTools.LogLine

namespace BinTools.CoffObject

/-!
# Reading COFF objects

For every object `zld` walks the section headers and then the symbol table.
Both walks are loops in assembly that call back for one record after the other.
Sections are put into the container of their name and on the list of their
object; external symbols are put on the list of the object read last.  New
containers and exported symbols are logged under their names.
-/

open ByteBuffer (Bytes loadWord)
open LogLine

/-- A value stored in a `uint32_t`. -/
def u32 (value : Nat) : Nat :=
  value % 2 ^ 32

/-- A value stored in eight bytes. -/
def u64 (value : Nat) : Nat :=
  value % 2 ^ 64

/-- An `int` after an addition. -/
def int32 (value : Int) : Int :=
  value.bmod (2 ^ 32)

/-- The memory that objects are mapped to, and the string at an address. -/
structure Memory where
  bytes : Bytes
  stringAt : Nat → CString

/-- `sizeof(IMAGE_SYMBOL)` -/
def sizeofSymbol : Nat := 0x12

/-- `sizeof(IMAGE_FILE_HEADER)` -/
def sizeofFileHeader : Nat := 0x14

/-- `sizeof(IMAGE_SECTION_HEADER)` -/
def sizeofSectionHeader : Nat := 40

/-- `sizeof(IMAGE_EXPORT_DIRECTORY)` -/
def sizeofExportDirectory : Nat := 40

/-- An `IMAGE_SYMBOL`. -/
structure ImageSymbol where
  short : Nat
  long : Nat
  value : Nat
  sectionNumber : Int
  storageClass : Nat
  numberOfAuxSymbols : Nat
  deriving DecidableEq, Repr

/-- `SymbolChain`: an exported symbol with its section. -/
structure SymbolChain where
  p : Nat
  name : CString
  schain : Option Nat
  deriving DecidableEq, Repr

/-- `SectionChain`: a section header with the address it is given. -/
structure SectionChain where
  p : Nat
  virtualAddress : Nat := 0
  deriving DecidableEq, Repr

/-- `SectionContainer`: the sections that share a name. -/
structure SectionContainer where
  name : Option CString
  chain : List Nat := []
  size : Nat := 0
  virtualAddress : Nat := 0
  deriving DecidableEq, Repr

/-- `ObjectChain`: an object with its sections and its exported symbols. -/
structure ObjectChain where
  symbolTableP : Nat := 0
  strTableP : Nat := 0
  mapBase : Nat := 0
  sections : List Nat := []
  symbols : List SymbolChain := []
  exportSymbolNum : Nat := 0
  deriving DecidableEq, Repr

/--
The linker's lists and counters.  `current` is the object at the end of the
object list; `allocated` says that the object being read is that one, and not
a null pointer.
-/
structure State where
  auxSymbols : Nat := 0
  sections : List SectionChain := []
  containers : List SectionContainer := [{ name := none }]
  earlier : List ObjectChain := []
  current : ObjectChain := {}
  allocated : Bool := false
  exportDirectoryLen : Int := 0
  exportFuncCount : Int := 0
  deriving DecidableEq, Repr

/-- All objects, the empty one that the list starts with included. -/
def State.objects (state : State) : List ObjectChain :=
  state.earlier ++ [state.current]

namespace Memory

variable (mem : Memory)

/-- `NumberOfSections` -/
def numberOfSections (base : Nat) : Nat :=
  loadWord 2 mem.bytes (base + 2)

/-- `PointerToSymbolTable`, as an address. -/
def symbolTable (base : Nat) : Nat :=
  u64 (base + loadWord 4 mem.bytes (base + 8))

/-- `NumberOfSymbols` -/
def numberOfSymbols (base : Nat) : Nat :=
  loadWord 4 mem.bytes (base + 12)

/-- The string table, which is behind the symbol table. -/
def stringTable (base : Nat) : Nat :=
  u64 (mem.symbolTable base + mem.numberOfSymbols base * sizeofSymbol)

/-- The section headers behind the file header and the optional header. -/
def sectionTable (base : Nat) : Nat :=
  u64 (base + sizeofFileHeader + loadWord 2 mem.bytes (base + 16))

/-- The symbol record at an address. -/
def imageSymbol (is : Nat) : ImageSymbol where
  short := loadWord 4 mem.bytes is
  long := loadWord 4 mem.bytes (is + 4)
  value := loadWord 4 mem.bytes (is + 8)
  sectionNumber := (loadWord 2 mem.bytes (is + 12) : Int).bmod (2 ^ 16)
  storageClass := loadWord 1 mem.bytes (is + 16)
  numberOfAuxSymbols := loadWord 1 mem.bytes (is + 17)

/-- `SizeOfRawData` of the section header at an address. -/
def sizeOfRawData (isec : Nat) : Nat :=
  loadWord 4 mem.bytes (isec + 16)

/-- `GET_NAME` -/
def getName (is strTableP : Nat) : CString :=
  if (mem.imageSymbol is).short = 0 then
    mem.stringAt (u64 (strTableP + (mem.imageSymbol is).long))
  else
    mem.stringAt is

/-- A `char` less the character zero. -/
def digitAt (q : Nat) : Int :=
  ((mem.bytes q).toNat : Int).bmod (2 ^ 8) - 0x30

/-- `char_to_digit`, which adds the digits up. -/
def charToDigit (p : Nat) : Int :=
  ((List.range 7).map fun i => mem.digitAt (p + 7 - i)).sum

/-- The name of a section: its own eight bytes, or a string of the table. -/
def sectionName (isec strTableP : Nat) : CString :=
  if (mem.bytes isec).toNat = 0x2f then
    mem.stringAt ((strTableP + mem.charToDigit isec) % 2 ^ 64).toNat
  else
    mem.stringAt isec

end Memory

/-! ## The lists -/

/-- The header that a section points to. -/
def pointerAt (sections : List SectionChain) (id : Nat) : Nat :=
  (sections.getD id { p := 0 }).p

/-- `match_section`: the first container of that name. -/
def matchSection (containers : List SectionContainer) (name : CString) :
    Option Nat :=
  containers.findIdx? fun container => container.name = some name

/-- `alloc_obj_chain`: a new object at the end of the list. -/
def State.allocObjChain (state : State) (oc : ObjectChain) : State :=
  { state with
    earlier := state.objects
    current := oc
    allocated := true }

/-- A new container at the end of the list. -/
def State.addSectionContainer (state : State) (name : CString) : State :=
  { state with containers := state.containers ++ [{ name := some name }] }

/-- `alloc_section_container`: a new container, which is logged. -/
def State.allocSectionContainer (state : State) (name : CString) :
    Option State :=
  if IsLogged (sectionContainerLine name) then
    some (state.addSectionContainer name)
  else
    none

/-- `alloc_section_chain`: a section for a container and the last object. -/
def State.allocSectionChain (state : State) (p index : Nat) : State :=
  { state with
    sections := state.sections ++ [{ p := p }]
    containers :=
      state.containers.modify index fun container =>
        { container with chain := container.chain ++ [state.sections.length] }
    current :=
      { state.current with
        sections := state.current.sections ++ [state.sections.length] } }

/-- Into the container of the name, or a new one. -/
def State.insertSection (state : State) (p : Nat) (name : CString) :
    Option State :=
  match matchSection state.containers name with
  | some index => some (state.allocSectionChain p index)
  | none =>
      (state.allocSectionContainer name).map fun grown =>
        grown.allocSectionChain p state.containers.length

/--
The loop of `alloc_export_symbol_chain` over the sections of the last object:
it goes on while the position *is* the section number.
-/
def exportSchain (shndx i : Int) : List Nat → Option Nat
  | [] => none
  | schain :: next =>
      if i = shndx then
        exportSchain shndx (i + 1) next
      else
        some schain

/-- `alloc_export_symbol_chain`, which logs the name first. -/
def State.allocExportSymbolChain
    (state : State) (is : Nat) (name : CString) (shndx : Int) :
    Option State :=
  if IsLogged (exportChainLine name) then
    some
      { state with
        current :=
          { state.current with
            symbols :=
              state.current.symbols ++
                [{ p := is
                   name := name
                   schain := exportSchain shndx 0 state.current.sections }]
            exportSymbolNum := u32 (state.current.exportSymbolNum + 1) } }
  else
    none

/-! ## The callbacks -/

/-- The object that is read, which its first header allocates. -/
def State.openObject (mem : Memory) (base : Nat) (state : State) : State :=
  if state.allocated then
    state
  else
    state.allocObjChain
      { symbolTableP := mem.symbolTable base
        strTableP := mem.stringTable base
        mapBase := base }

/--
`__z__link__coff_section_callback`: the first header of an object allocates
the object.
-/
def coffSectionCallback
    (mem : Memory) (base : Nat) (state : State) (isec : Nat) :
    Option State :=
  let opened := state.openObject mem base
  opened.insertSection isec (mem.sectionName isec opened.current.strTableP)

/-- What an export adds to the size of the export directory. -/
def State.countExport
    (state : State) (outfileName name : CString) : State :=
  let len :=
    if state.exportDirectoryLen = 0 then
      int32 (sizeofExportDirectory + outfileName.length + 1)
    else
      state.exportDirectoryLen
  { state with
    exportDirectoryLen := int32 (len + (4 + 4 + 2 + name.length + 1))
    exportFuncCount := int32 (state.exportFuncCount + 1) }

/--
`__z__link__coff_symtab_callback`: auxiliary records are counted down, in a
static variable; the section number is compared with zero only.  A null object
pointer is a fault.
-/
def coffSymtabCallback
    (mem : Memory) (outfileName : CString) (state : State) (is : Nat) :
    Option State :=
  if state.auxSymbols ≠ 0 then
    some { state with auxSymbols := state.auxSymbols - 1 }
  else if state.allocated then
    let symbol := mem.imageSymbol is
    let name := mem.getName is state.current.strTableP
    let visited :=
      if symbol.storageClass = 2 ∧ symbol.sectionNumber ≠ 0 then
        (state.allocExportSymbolChain is name symbol.sectionNumber).map
          fun state => state.countExport outfileName name
      else
        some state
    visited.map fun state =>
      if symbol.numberOfAuxSymbols ≠ 0 then
        { state with auxSymbols := symbol.numberOfAuxSymbols }
      else
        state
  else
    none

/-! ## The walks -/

/-- `__z__obj__run_through_coff_shdr3` -/
def runThroughCoffShdr3 (mem : Memory) (base : Nat) (state : State) :
    Option State :=
  if mem.numberOfSections base = 0 then
    some state
  else
    CountedLoop.run 64 (fun r14 => u64 (r14 + sizeofSectionHeader))
      (coffSectionCallback mem base) state (mem.sectionTable base)
      (mem.numberOfSections base)

/-- `__z__obj__run_through_coff_symtable3`, whatever the callback is. -/
def runThroughCoffSymtable3
    {State : Type} (mem : Memory) (base : Nat)
    (callback : State → Nat → Option State) (state : State) :
    Option State :=
  CountedLoop.run 64 (fun r15 => u64 (r15 + sizeofSymbol)) callback state
    (mem.symbolTable base) (mem.numberOfSymbols base)

/-- Register one object: its sections, then its symbols. -/
def readObject
    (mem : Memory) (outfileName : CString) (state : State) (base : Nat) :
    Option State :=
  (runThroughCoffShdr3 mem base { state with allocated := false }).bind
    (runThroughCoffSymtable3 mem base (coffSymtabCallback mem outfileName))

/-- Register all objects in command-line order. -/
def readObjects
    (mem : Memory) (outfileName : CString) (state : State)
    (bases : List Nat) : Option State :=
  bases.foldlM (readObject mem outfileName) state

/-! ## Mapped files -/

/-- The memory with a run of bytes from an address on. -/
def Memory.ofBytes (address : Nat) (bytes : List UInt8) : Memory where
  bytes p := if p < address then 0 else bytes.getD (p - address) 0
  stringAt p := .ofBytes (bytes.drop (p - address))

/-- The section headers of an object, whose data starts at an offset. -/
def sectionHeaders : Nat → List (String × Nat) → List UInt8
  | _, [] => []
  | offset, (name, size) :: rest =>
      (name.toList.map fun c => UInt8.ofNat c.toNat).rightpad 8 0 ++
        ByteBuffer.littleEndian 8 0 ++
        ByteBuffer.littleEndian 4 size ++
        ByteBuffer.littleEndian 4 offset ++
        ByteBuffer.littleEndian 16 0 ++
        sectionHeaders (offset + size) rest

/-- A symbol record. -/
def symbolRecord
    (name : String) (value sectionNumber storageClass auxSymbols : Nat) :
    List UInt8 :=
  (name.toList.map fun c => UInt8.ofNat c.toNat).rightpad 8 0 ++
    ByteBuffer.littleEndian 4 value ++
    ByteBuffer.littleEndian 2 sectionNumber ++
    ByteBuffer.littleEndian 2 0 ++
    ByteBuffer.littleEndian 1 storageClass ++
    ByteBuffer.littleEndian 1 auxSymbols

/-- An object file of sections with names and sizes and of symbol records. -/
def objectFile
    (sections : List (String × Nat)) (symbols : List (List UInt8)) :
    List UInt8 :=
  let offset := sizeofFileHeader + sections.length * sizeofSectionHeader
  let size := (sections.map Prod.snd).sum
  ByteBuffer.littleEndian 2 0x8664 ++
    ByteBuffer.littleEndian 2 sections.length ++
    ByteBuffer.littleEndian 4 0 ++
    ByteBuffer.littleEndian 4 (offset + size) ++
    ByteBuffer.littleEndian 4 symbols.length ++
    ByteBuffer.littleEndian 4 0 ++
    sectionHeaders offset sections ++
    List.replicate size 0 ++
    symbols.flatten ++
    ByteBuffer.littleEndian 4 4

end BinTools.CoffObject
