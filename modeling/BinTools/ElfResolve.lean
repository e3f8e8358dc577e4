import BinTools.ElfPlacement
import BinTools.ElfImport
import Mathlib.Data.List.Infix

namespace BinTools.Elf

open LogLine

/-!
# Exporting and relocating

After the layout the linker registers the symbols of every object for export,
in command-line order and whatever their binding, and then resolves the
relocations of every object by looking the symbol's name up among the exports.
-/

/-- `R_X86_64_64` -/
def r64 : Nat := 1

/-- `R_X86_64_PC32` -/
def rPc32 : Nat := 2

/-- `R_X86_64_PLT32` -/
def rPlt32 : Nat := 4

/-- `R_X86_64_32S` -/
def r32S : Nat := 11

/-- `R_X86_64_REX_GOTPCRELX` -/
def rRexGotpcrelx : Nat := 42

/--
A symbol as it is registered: with the address of its definition, and with the
two addresses that are logged besides, of the head of its object's sections and
of its own section.
-/
structure Definition where
  name : CString
  shndx : Nat
  value : Nat
  stBind : Nat
  schainAddress : Nat
  sectionAddress : Nat
  deriving DecidableEq, Repr

/--
The values `__z__link__add_export_symbol` computes for a symbol; the source
reads a null pointer when the section index names no section or the object has
none.
-/
def definition (link : Link) (sym : SymbolChain) : Option Definition :=
  (sectionChainByIndex link.containers sym.stShndx).bind fun sc1 =>
    (sym.schain.bind fun p =>
      (elementsOf link.containers).find? fun schain => schain.p = p).map
        fun schain =>
          { name := sym.name
            shndx := sym.stShndx
            value :=
              sub32 (sc1.virtualAddress + sym.sym.stValue) link.baseAddress
            stBind := sym.sym.stBind
            schainAddress := schain.virtualAddress
            sectionAddress := sc1.virtualAddress }

/-- The line of `__z__link__add_export_symbol`. -/
def exportLine (num : Nat) (entry : Definition) : Nat :=
  lineLength "[link/elf/dynamic.c]\t add export symbol:,,,,\n"
    [entry.name.length, intLength num, pointerLength entry.schainAddress,
      pointerLength entry.sectionAddress, pointerLength entry.value]

/-- Log a symbol and register it. -/
def Dynamic.exportSymbol (d : Dynamic) (entry : Definition) :
    Option Dynamic :=
  if IsLogged (exportLine d.dynsym.size entry) then
    d.addExport entry.name entry.shndx entry.value
  else
    none

/-- `__z__link__add_export_symbol`: register every symbol of an object. -/
def addExportSymbol (link : Link) (d : Dynamic) (oc : ObjectChain) :
    Option Dynamic :=
  oc.symbolChain.foldlM
    (fun d sym => (definition link sym).bind d.exportSymbol)
    d

/-- The library names of the command line that are needed (`.so` in them). -/
def neededLibraries (dynlib : List CString) : List CString :=
  dynlib.takeWhile fun name => decide ([46, 115, 111] <:+: name.bytes)

/-- `__z__link__add_dt_needed` -/
def addDtNeededLibraries (d : Dynamic) (dynlib : List CString) :
    Option Dynamic :=
  (neededLibraries dynlib).foldlM Dynamic.addDtNeeded d

/-- The address of the `.plt.got` container. -/
def Link.pltAddress (link : Link) : Nat :=
  ((link.pltGot.bind fun pltGot => link.containers[pltGot.container]?).map
    SectionContainer.virtualAddress).getD 0

/-- `__z__link__add_dynamic` with the linker's own hash-table parameters. -/
def addDynamic (link : Link) : Dynamic :=
  .init link.baseAddress link.pltAddress 1 2 5

/-- The exports of all objects, in command-line order. -/
def addExports (link : Link) (dynlib : List CString) : Option Dynamic :=
  (addDtNeededLibraries (addDynamic link) dynlib).bind fun d =>
    link.objects.foldlM (addExportSymbol link) d

/-- What a relocation was bound to. -/
inductive Resolution where
  | definition (address : Nat)
  | imported (name : CString)
  | unsupported
  deriving DecidableEq, Repr

/-- What the relocation pass changes: the tables and the section contents. -/
structure Relocating where
  dynamic : Dynamic
  data : Nat → ByteBuffer.Bytes

/-- The contents of the sections as they were read. -/
def Link.contents (link : Link) (p : Nat) : ByteBuffer.Bytes :=
  (link.headers[p]?).elim (fun _ => 0) Shdr.data

/--
`fill_address` for the types that store a distance.  The source spins when the
field is not zero or when the distance is.
-/
def fillAddress
    (data : Nat → ByteBuffer.Bytes) (p offset srcAddr dstAddr : Nat) :
    Option (Nat → ByteBuffer.Bytes) :=
  if ByteBuffer.loadWord 4 (data p) offset ≠ 0 then
    none
  else if sub32 dstAddr srcAddr = 0 then
    none
  else
    some
      (Function.update data p
        (ByteBuffer.storeWord 4 (data p) offset (sub32 dstAddr srcAddr)))

/-- Where `resolve_new` found the symbol of a relocation. -/
inductive Target where
  | dynamicFunc
  | internalFunc (address : Nat)
  | internalSection (address : Nat)
  deriving DecidableEq, Repr

/-- The symbol-table entry of a relocation. -/
def symbolOf (link : Link) (oc : ObjectChain) (rela : Rela) : Option Sym :=
  (oc.symbolTable.bind fun p => link.headers[p]?).map fun shdr =>
    shdr.symAt rela.symIndex

/--
The first half of `resolve_new`: the target of a symbol, `none` of the three
kinds for a symbol type that is not supported.
-/
def targetOf (link : Link) (oc : ObjectChain) (d : Dynamic) (sym : Sym) :
    Option (Option Target) :=
  if sym.stType = sttNotype ∨ sym.stType = sttObject ∨
      sym.stType = sttFunc then
    (d.findSym2 sym.name).bind fun index =>
      (d.symAt index).map fun entry =>
        if entry.stValue = 0 then
          some .dynamicFunc
        else
          some (.internalFunc entry.stValue)
  else if sym.stType = sttSection then
    (link.headers[oc.sectionHead + sym.stShndx]?).map fun shdr =>
      some (.internalSection (u32 shdr.shAddr))
  else
    some none

/--
The second half of `resolve_new`: the `switch` over the relocation type.
`srcAddr` is the address of the field and `placeAddr` the one less the addend.
-/
def applyTarget
    (state : Relocating) (p offset srcAddr placeAddr : Nat) (name : CString)
    (relType : Nat) (target : Target) : Option (Relocating × Resolution) :=
  let d := state.dynamic
  if relType = r64 then
    match target with
    | .dynamicFunc =>
        (d.addDynamicEntry2 srcAddr name).map fun d =>
          ({ state with dynamic := d }, .imported name)
    | .internalFunc address | .internalSection address =>
        (d.addRelaPltEntry srcAddr 0 rRelative address).map fun d =>
          ({ state with dynamic := d }, .definition address)
  else if relType = rPc32 ∨ relType = rPlt32 ∨ relType = r32S then
    match target with
    | .dynamicFunc =>
        (d.addDynamicEntry name rJumpSlot true).bind fun (d, address) =>
          (fillAddress state.data p offset placeAddr address).map
            fun data =>
              ({ dynamic := d, data := data }, .imported name)
    | .internalFunc address | .internalSection address =>
        (fillAddress state.data p offset placeAddr address).map fun data =>
          ({ state with data := data }, .definition address)
  else if relType = rRexGotpcrelx then
    match target with
    | .internalSection _ => none
    | _ =>
        (d.addDynamicEntry name rGlobDat false).bind fun (d, address) =>
          (fillAddress state.data p offset placeAddr
              (u32 (address + 8))).map
            fun data =>
              ({ dynamic := d, data := data }, .imported name)
  else
    none

/-- The line of `resolve_new` about a target. -/
def resolutionLine (name : CString) : Target → Nat
  | .dynamicFunc =>
      lineLength "[link/elf/reloc.c]\t resolve dynamically:\n" [name.length]
  | .internalFunc address =>
      lineLength "[link/elf/reloc.c]\t resolve over objects:,\n"
        [name.length, pointerLength address]
  | .internalSection _ =>
      lineLength "[link/elf/reloc.c]\t resolve on an object:\n" [name.length]

/--
`resolve_new`.  A function found among the exports by a relocation of
`.rela.init_array` or `.rela.fini_array` goes to the output's own array; every
other target is logged under the name.
-/
def resolveNew
    (link : Link) (oc : ObjectChain) (state : Relocating)
    (call : RelocCall) : Option (Relocating × Resolution) :=
  (link.headers[call.subShdr]?).bind fun subShdr =>
    (symbolOf link oc call.rela).bind fun sym =>
      let srcAddr := u32 (subShdr.shAddr + call.rela.rOffset)
      let placeAddr := ((srcAddr - call.rela.rAddend) % 2 ^ 32).toNat
      let apply (target : Target) :=
        if IsLogged (resolutionLine sym.name target) then
          applyTarget state call.subShdr call.rela.rOffset srcAddr placeAddr
            sym.name call.rela.relType target
        else
          none
      (targetOf link oc state.dynamic sym).bind fun
        | none => some (state, .unsupported)
        | some (.internalFunc address) =>
            if call.sec = .initArray then
              (state.dynamic.addInitArray address).map fun d =>
                ({ state with dynamic := d }, .definition address)
            else if call.sec = .finiArray then
              (state.dynamic.addFiniArray address).map fun d =>
                ({ state with dynamic := d }, .definition address)
            else
              apply (.internalFunc address)
        | some target => apply target

/-- `__z__link__elf_do_reloc`: resolve the relocations of one object. -/
def elfDoReloc (link : Link) (state : Relocating) (oc : ObjectChain) :
    Option Relocating :=
  (relocCalls link oc).bind fun calls =>
    calls.foldlM
      (fun state call => (resolveNew link oc state call).map Prod.fst)
      state

end BinTools.Elf
