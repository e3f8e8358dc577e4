import BinTools.CoffImportLayout
import BinTools.CoffObject

namespace BinTools.CoffObject

open ByteBuffer (Bytes loadWord storeWord store)
open Coff (strcpy)

/-!
# Addresses and exports of a COFF link

When all objects are read, `zld` adds a section for the export directory, gives
every section an address and fills the directory.  Addresses are also written
into the section headers, where the objects are mapped.
-/

/-- The mapped objects and the sections, while addresses are given out. -/
structure Arena where
  mem : Memory
  sections : List SectionChain

namespace Arena

/-- `SizeOfRawData` of a section. -/
def sizeAt (arena : Arena) (id : Nat) : Nat :=
  arena.mem.sizeOfRawData (pointerAt arena.sections id)

/-- Give a section an address, in its cell and in its header. -/
def place (arena : Arena) (virtualAddress id : Nat) : Arena where
  mem :=
    { arena.mem with
      bytes :=
        storeWord 4 arena.mem.bytes (pointerAt arena.sections id + 12)
          virtualAddress }
  sections :=
    arena.sections.modify id fun schain =>
      { schain with virtualAddress := virtualAddress }

/-- The loop of `__z__link__coff_set_virtual_address`. -/
def placeChain (start : Nat) : Arena → Nat → List Nat → Arena × Nat
  | arena, size, [] => (arena, size)
  | arena, size, id :: rest =>
      let placed := arena.place (u32 (start + size)) id
      placeChain start placed (u32 (size + placed.sizeAt id)) rest

/--
`__z__link__coff_set_virtual_address`: the offset is `virtual_address_offset`,
by its bits.
-/
def setVirtualAddress (arena : Arena) (offset : Nat) (sc : SectionContainer) :
    (Arena × Nat) × SectionContainer :=
  if sc.chain = [] then
    ((arena, offset), sc)
  else
    let placed := placeChain offset arena 0 sc.chain
    ((placed.1, u32 (offset + placed.2)),
      { sc with
        size := placed.2
        virtualAddress := offset })

/-- `iterate_section_container(&__z__link__coff_set_virtual_address)` -/
def setVirtualAddresses :
    Arena → Nat → List SectionContainer →
      (Arena × Nat) × List SectionContainer
  | arena, offset, [] => ((arena, offset), [])
  | arena, offset, sc :: rest =>
      let first := arena.setVirtualAddress offset sc
      let later := setVirtualAddresses first.1.1 first.1.2 rest
      (later.1, first.2 :: later.2)

end Arena

/-! ## The section of the export directory -/

/-- A link after the objects were read. -/
structure Link where
  mem : Memory
  state : State
  virtualAddressOffset : Nat := 0x1000

/-- The name of the export section. -/
def edata : CString := .ofString ".edata"

/--
`add_coff_section`: a header that is allocated, zeroed, at `sec`, in a
container of its own; the section is put on the list of the last object, too.
The names that are passed are constants, which fit the line of the container.
-/
def Link.addCoffSection
    (link : Link) (sec : Nat) (name : CString) (vaddr size : Nat) : Link :=
  let cleared :=
    store link.mem.bytes sec (List.replicate sizeofSectionHeader 0)
  let named := store cleared sec name.bytes
  let sized := storeWord 4 named (sec + 16) size
  let state :=
    (link.state.addSectionContainer name).allocSectionChain sec
      link.state.containers.length
  { link with
    mem :=
      { link.mem with bytes := storeWord 4 sized (sec + 36) 0xe0500020 }
    state :=
      { state with
        containers :=
          state.containers.modify link.state.containers.length fun scon =>
            { scon with virtualAddress := vaddr }
        sections :=
          state.sections.modify link.state.sections.length fun schain =>
            { schain with virtualAddress := vaddr } } }

/-- Give all sections their addresses. -/
def Link.setVirtualAddresses (link : Link) : Link :=
  let placed :=
    Arena.setVirtualAddresses
      { mem := link.mem
        sections := link.state.sections }
      link.virtualAddressOffset link.state.containers
  { mem := placed.1.1.mem
    state :=
      { link.state with
        sections := placed.1.1.sections
        containers := placed.2 }
    virtualAddressOffset := placed.1.2 }

/-! ## The export directory -/

/--
Where `add_export` is in its tables: the local pointers, as offsets from the
start of the directory, and the number of the next symbol.
-/
structure ExportCursor where
  data : Bytes
  addressOfNameOrdinals : Nat
  addressOfFunctions : Nat
  addressOfNames : Nat
  c : Nat
  i : Nat := 0

/-- What the loop body of `add_export` writes for one symbol. -/
def ExportCursor.write
    (vaddr : Nat) (cursor : ExportCursor) (name : CString)
    (exportAddr : Nat) : ExportCursor :=
  let names :=
    storeWord 4 cursor.data cursor.addressOfNames (vaddr + cursor.c)
  let functions := storeWord 4 names cursor.addressOfFunctions exportAddr
  let ordinals := storeWord 2 functions cursor.addressOfNameOrdinals cursor.i
  { data := strcpy ordinals cursor.c name
    addressOfNameOrdinals := cursor.addressOfNameOrdinals + 2
    addressOfFunctions := cursor.addressOfFunctions + 4
    addressOfNames := cursor.addressOfNames + 4
    c := cursor.c + (name.length + 1)
    i := u32 (cursor.i + 1) }

/-- The loop body of `add_export`; an export without a section is a fault. -/
def addSymbol
    (mem : Memory) (sections : List SectionChain) (vaddr : Nat)
    (oc : ObjectChain) (cursor : ExportCursor) (sc : SymbolChain) :
    Option ExportCursor :=
  (sc.schain.bind fun id => sections[id]?).map fun schain =>
    cursor.write vaddr (mem.getName sc.p oc.strTableP)
      (schain.virtualAddress + (mem.imageSymbol sc.p).value)

/-- The two nested loops of `add_export`. -/
def addSymbols
    (mem : Memory) (sections : List SectionChain) (vaddr : Nat)
    (cursor : ExportCursor) (objects : List ObjectChain) :
    Option ExportCursor :=
  objects.foldlM
    (fun (cursor : ExportCursor) (oc : ObjectChain) =>
      oc.symbols.foldlM (addSymbol mem sections vaddr oc) cursor)
    cursor

/-- A pointer that is moved by `count` elements of a size. -/
def moved (pointer size : Nat) (count : Int) : Nat :=
  (pointer + size * count).toNat

/-- The tables in front of the loops. -/
def exportTables
    (outfileName : CString) (count : Int) (vaddr : Nat) : ExportCursor :=
  let imageName := sizeofExportDirectory
  let ordinals := imageName + outfileName.length + 1
  let functions := moved ordinals 2 count
  let names := moved functions 4 count
  let c := moved names 4 count
  let number := (count % 2 ^ 32).toNat
  let data : Bytes := fun _ => 0
  let data := storeWord 4 data 20 number
  let data := storeWord 4 data 24 number
  let data := strcpy data imageName outfileName
  let data := storeWord 4 data 12 (vaddr + imageName)
  let data := storeWord 4 data 36 (vaddr + ordinals)
  let data := storeWord 4 data 28 (vaddr + functions)
  let data := storeWord 4 data 32 (vaddr + names)
  { data := data
    addressOfNameOrdinals := ordinals
    addressOfFunctions := functions
    addressOfNames := names
    c := c }

/-- What `add_export` keeps in `export_data`, and the section it fills. -/
structure ExportDirectory where
  data : Bytes
  addressOfNameOrdinals : Nat
  addressOfFunctions : Nat
  addressOfNames : Nat
  strP : Nat
  vaddrP : Nat
  sec : Nat

/-- A link after `add_export`. -/
structure Exported where
  link : Link
  directory : Option ExportDirectory

/-- The header of the export section gets the size, if it has none. -/
def Link.setExportSize (link : Link) (isec : Nat) : Link :=
  if link.mem.sizeOfRawData isec = 0 then
    { link with
      mem :=
        { link.mem with
          bytes :=
            storeWord 4 link.mem.bytes (isec + 16)
              (link.state.exportDirectoryLen % 2 ^ 32).toNat } }
  else
    link

/--
Fill the directory of a section.  Writing beyond the `export_directory_len`
bytes that are allocated is a fault.
-/
def Link.fillDirectory (link : Link) (outfileName : CString) (sec : Nat) :
    Option Exported :=
  let isec := pointerAt link.state.sections sec
  let vaddr := loadWord 4 link.mem.bytes (isec + 12)
  let tables := exportTables outfileName link.state.exportFuncCount vaddr
  (addSymbols link.mem link.state.sections vaddr tables
      link.state.objects).bind fun cursor =>
    if (cursor.c : Int) ≤ link.state.exportDirectoryLen then
      some
        { link := link
          directory :=
            some
              { data := cursor.data
                addressOfNameOrdinals := tables.addressOfNameOrdinals
                addressOfFunctions := tables.addressOfFunctions
                addressOfNames := tables.addressOfNames
                strP := tables.c
                vaddrP := vaddr
                sec := sec } }
    else
      none

/--
`add_export`: the last section of the first container of that name is filled.
-/
def Link.addExport (link : Link) (outfileName : CString) : Option Exported :=
  match matchSection link.state.containers edata with
  | none => some { link := link, directory := none }
  | some index =>
      ((link.state.containers[index]?).bind fun scon =>
        scon.chain.getLast?).bind fun sec =>
          (link.setExportSize
            (pointerAt link.state.sections sec)).fillDirectory outfileName sec

/-- `do_coff_task`, up to the export directory. -/
def exportAll
    (mem : Memory) (outfileName : CString) (sec : Nat) (state : State) :
    Option Exported :=
  (Link.addCoffSection
      { mem := mem
        state := state }
      sec edata 0
      (state.exportDirectoryLen % 2 ^ 32).toNat).setVirtualAddresses.addExport
    outfileName

/-- An entry of the export address table. -/
def ExportDirectory.functionAt (directory : ExportDirectory) (i : Nat) : Nat :=
  loadWord 4 directory.data (directory.addressOfFunctions + 4 * i)

end BinTools.CoffObject
