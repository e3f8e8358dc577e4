import BinTools.ByteBuffer
import BinTools.Grouping
import BinTools.NameHash

namespace BinTools.Coff

open ByteBuffer

/-!
# Imports of a PE image

During relocation `__coff_resolve` hands out one 6-byte stub address for every
imported function and files the function under its DLL.  `add_import` later
writes the stubs and the import data: descriptors, the import address table,
the import name table, and the strings.  Only the 64-bit format reaches this
code, so thunks are 8 bytes wide.  Buffers are addressed by offset.
-/

/-- An entry of `DLLHashTable`: a function, its DLL and its stub address. -/
structure DllSymbol where
  name : CString
  dll : CString
  ever : U32
  deriving DecidableEq, Repr

/-- What `__z__link__coff_do_reloc` passes for one relocation entry. -/
structure CallbackArgIn where
  srcVaddr : U32
  dstVaddr : U32
  filledAddr : Nat
  name : CString
  type : Nat
  shndx : Int
  storageClass : Nat
  /-- `VirtualAddress` of the section headers of `src_oc`, by position. -/
  sections : List U32
  deriving DecidableEq

/--
The part of `Config` the import path works on.  `exported` answers
`sysv_lookup_for_coff`; `initialImport` is the list of DLLs with their
functions; `memory` holds the mapped objects; `resolved` collects each
relocation with the address it was resolved to.  `importDirectoryLen` is an
`int`.
-/
structure Config where
  baseAddress : U32
  virtualAddressOffset : U32
  pltOffset : U32
  importDirectoryLen : Int
  dllHashTable : List (List DllSymbol)
  exported : CString → U32
  initialImport : List (CString × List CString)
  memory : Bytes
  resolved : List (CallbackArgIn × U32)

/-- Add to the word at an offset, modulo its width. -/
def addWord (width : Nat) (buffer : Bytes) (offset value : Nat) : Bytes :=
  storeWord width buffer offset (loadWord width buffer offset + value)

/-- `strcpy`. -/
def strcpy (buffer : Bytes) (offset : Nat) (string : CString) : Bytes :=
  store buffer offset (string.bytes ++ [0])

/-- The string with its terminator stands at the offset. -/
def StringAt (buffer : Bytes) (offset : Nat) (string : CString) : Prop :=
  load buffer offset (string.length + 1) = string.bytes ++ [0]

instance (buffer : Bytes) (offset : Nat) (string : CString) :
    Decidable (StringAt buffer offset string) :=
  inferInstanceAs (Decidable (_ = _))

/-- `fill_address`: the relocation arithmetic by type. -/
def fillAddress
    (baseAddress : U32) (memory : Bytes) (addr type : Nat)
    (dstVaddr srcVaddr : U32) : Bytes :=
  match type with
  | 1 => addWord 8 memory addr (baseAddress + dstVaddr).toNat
  | 2 => addWord 4 memory addr (baseAddress + dstVaddr).toNat
  | 3 => addWord 4 memory addr dstVaddr.toNat
  | 4 => addWord 4 memory addr (dstVaddr - (srcVaddr + 4)).toNat
  | 0x14 => addWord 4 memory addr (dstVaddr - (srcVaddr + 4)).toNat
  | _ => memory

/-- Fill the place of a relocation and note the address it was given. -/
def Config.fill
    (config : Config) (arg : CallbackArgIn) (dstVaddr : U32) : Config :=
  { config with
    memory :=
      fillAddress config.baseAddress config.memory arg.filledAddr arg.type
        dstVaddr arg.srcVaddr
    resolved := config.resolved ++ [(arg, dstVaddr)] }

/--
The chain walk of `lookup_dynamic_symbol`: the first entry of the name, its
DLL and the stub address it already had; an entry without one gets the next.
-/
def touch (pltOffset : U32) (name : CString) :
    List DllSymbol → Option (List DllSymbol × CString × U32)
  | [] => none
  | entry :: rest =>
      if entry.name = name then
        if entry.ever = 0 then
          some ({ entry with ever := pltOffset } :: rest, entry.dll, 0)
        else
          some (entry :: rest, entry.dll, entry.ever)
      else
        (touch pltOffset name rest).map fun (rest, found) =>
          (entry :: rest, found)

/-- The bucket of a name. -/
def Config.bucketOf (config : Config) (name : CString) : Nat :=
  (elfHash name).toNat % config.dllHashTable.length

/-- `lookup_dynamic_symbol` with an `ever` to fill in. -/
def lookupDynamicSymbol
    (config : Config) (name : CString) :
    Option (Config × CString × U32) :=
  let bucket := config.bucketOf name
  (config.dllHashTable[bucket]?).bind fun chain =>
    (touch config.pltOffset name chain).map fun (chain, found) =>
      ({ config with
          dllHashTable := config.dllHashTable.set bucket chain }, found)

/--
`add_dynamic_resolved_entry`: file the function under its DLL; answers whether
the DLL is new.
-/
def addDynamicResolvedEntry
    (imports : List (CString × List CString)) (name dllname : CString) :
    List (CString × List CString) × Bool :=
  (Grouping.insert dllname name imports,
    decide (dllname ∉ imports.map Prod.fst))

/-- `update_import_directory_len`: what one new import adds. -/
def updateImportDirectoryLen
    (new : Bool) (importDirectoryLen : Int) (name dllname : CString) : Nat :=
  (if new then
      (if importDirectoryLen = 0 then 20 else 0) +
        (20 + 1 + dllname.length) + 2 * 8
    else
      0) +
    (2 * 8 + 2 + name.length + 1)

/-- `__coff_resolve`. -/
def coffResolve (config : Config) (arg : CallbackArgIn) : Option Config :=
  if arg.storageClass = 3 then
    if 1 ≤ arg.shndx then
      (arg.sections[(arg.shndx - 1).toNat]?).map fun virtualAddress =>
        config.fill arg (arg.dstVaddr + virtualAddress)
    else
      none
  else if arg.storageClass ≠ 2 then
    some config
  else
    let dstVaddr := config.exported arg.name
    if dstVaddr ≠ 0 then
      some (config.fill arg dstVaddr)
    else
      match lookupDynamicSymbol config arg.name with
      | none => some config
      | some (config, dllname, ever) =>
          if ever ≠ 0 then
            some (config.fill arg ever)
          else
            let plt := config.pltOffset
            let config := config.fill arg plt
            let (imports, new) :=
              addDynamicResolvedEntry config.initialImport arg.name dllname
            some
              { config with
                pltOffset := plt + 6
                initialImport := imports
                importDirectoryLen :=
                  (config.importDirectoryLen +
                    updateImportDirectoryLen new config.importDirectoryLen
                      arg.name dllname).bmod (2 ^ 32) }

/-- Resolve relocations in order. -/
def resolveAll (config : Config) (args : List CallbackArgIn) :
    Option Config :=
  args.foldlM coffResolve config

/-- The first loop of `add_import`: one descriptor for each DLL. -/
def writeDescriptors (importVaddr : U32) :
    Bytes → Nat → List (CString × List CString) → Bytes × Nat
  | data, iid, [] => (data, iid)
  | data, iid, _ :: rest =>
      let data := storeWord 4 data iid importVaddr.toNat
      let data := storeWord 4 data (iid + 4) 0
      let data := storeWord 4 data (iid + 8) 0
      let data := storeWord 4 data (iid + 12) importVaddr.toNat
      let data := storeWord 4 data (iid + 16) importVaddr.toNat
      writeDescriptors importVaddr data (iid + 20) rest

/-- The inner loop of `iterate_import`. -/
def iterateFunctions (vaddr : U32) :
    Bytes → Nat → List CString → Bytes × Nat
  | data, iant, [] => (data, iant)
  | data, iant, _ :: rest =>
      iterateFunctions vaddr (storeWord 8 data iant vaddr.toNat) (iant + 8) rest

/-- `iterate_import`: one thunk for each function, a gap after each DLL. -/
def iterateImport (vaddr : U32) :
    Bytes → Nat → List (CString × List CString) → Bytes × Nat
  | data, iant, [] => (data, iant)
  | data, iant, dll :: rest =>
      let (data, iant) := iterateFunctions vaddr data iant dll.2
      iterateImport vaddr data (iant + 8) rest

/-- The write positions of the last loop of `add_import`. -/
structure Cursor where
  data : Bytes
  plt : Bytes
  pltp : Nat
  pltVaddr : U32
  iat : Nat
  int : Nat
  c : Nat

/-- The body of the loop over the functions of a DLL. -/
def emitFunction
    (importVaddr : U32) (cursor : Cursor) (name : CString) : Cursor :=
  let v := importVaddr + BitVec.ofNat 32 cursor.iat
  let pltVaddr := cursor.pltVaddr + 6
  let plt := storeWord 2 cursor.plt cursor.pltp 0x25ff
  let plt := storeWord 4 plt (cursor.pltp + 2) (v - pltVaddr).toNat
  let data := addWord 8 cursor.data cursor.iat cursor.c
  let data := addWord 8 data cursor.int cursor.c
  let data := storeWord 2 data cursor.c 0
  let data := strcpy data (cursor.c + 2) name
  { data := data
    plt := plt
    pltp := cursor.pltp + 6
    pltVaddr := pltVaddr
    iat := cursor.iat + 8
    int := cursor.int + 8
    c := cursor.c + 2 + name.length + 1 }

/-- The descriptor and the name of a DLL. -/
def emitDescriptor
    (cursor : Cursor) (iid : Nat) (dllname : CString) : Cursor :=
  let data := addWord 4 cursor.data (iid + 16) cursor.iat
  let data := addWord 4 data iid cursor.int
  let data := strcpy data cursor.c dllname
  let data := addWord 4 data (iid + 12) cursor.c
  { cursor with
    data := data
    c := cursor.c + dllname.length + 1 }

/-- The last loop of `add_import`. -/
def emitDlls (importVaddr : U32) :
    Cursor → Nat → List (CString × List CString) → Cursor
  | cursor, _, [] => cursor
  | cursor, iid, dll :: rest =>
      let cursor := emitDescriptor cursor iid dll.1
      let cursor := dll.2.foldl (emitFunction importVaddr) cursor
      emitDlls importVaddr
        { cursor with iat := cursor.iat + 8, int := cursor.int + 8 }
        (iid + 20) rest

/-- What `add_import` adds to the image: `.plt` and `.idata`. -/
structure ImportSections where
  pltVaddr : U32
  plt : Bytes
  importVaddr : U32
  data : Bytes
  descriptors : Nat

/--
`add_import`; without any import nothing is added.  The two buffers come from
`__malloc` with whatever they contain.
-/
def addImport (config : Config) (plt data : Bytes) : Option ImportSections :=
  if config.importDirectoryLen = 0 then
    none
  else
    let pltVaddr := config.virtualAddressOffset
    let pltSize := config.pltOffset - config.virtualAddressOffset
    let importVaddr := config.virtualAddressOffset + pltSize
    let imports := config.initialImport
    let (data, iid) := writeDescriptors importVaddr data 0 imports
    let iat := iid + 20
    let (data, int) := iterateImport importVaddr data iat imports
    let (data, c) := iterateImport importVaddr data int imports
    let cursor := emitDlls importVaddr ⟨data, plt, 0, pltVaddr, iat, int, c⟩ 0 imports
    some ⟨pltVaddr, cursor.plt, importVaddr, cursor.data, imports.length⟩

end BinTools.Coff
