import BinTools.ElfObject
import BinTools.LogLine
import BinTools.PointerList

namespace BinTools.Elf

open LogLine

/-!
# Reading the input objects

`zld` walks the section headers of every object, then its symbol table.
Sections of equal name go to one container, `.rela.*` sections to a list that
hangs off the object, and symbols to the object's symbol chain.  Section
headers live in one arena, in the order the objects are read, and pointers to
them are positions in it.
-/

/-- The relocation sections the linker processes (`RELOC_SEC_*`). -/
inductive RelocSec where
  | relaText
  | relaData
  | initArray
  | finiArray
  deriving DecidableEq, Repr

/-- `RelocationChain`: one relocation section and the next cell of its list. -/
structure RelocationChain where
  sec : RelocSec
  p : Nat
  next : Option Nat
  deriving DecidableEq, Repr

/-- `SectionChain`: one section of a container. -/
structure SectionChain where
  p : Nat
  virtualAddress : Nat := 0
  deriving DecidableEq, Repr

/-- `SectionContainer`: the sections that share a name. -/
structure SectionContainer where
  name : Option CString
  size : Nat := 0
  virtualAddress : Nat := 0
  chain : List SectionChain := []
  deriving DecidableEq, Repr

/--
`SymbolChain`: an exported symbol.  `stShndx` is the section index that the
symbol-table callback wrote over the entry's own one, and `schain` the header of
a section of its object.
-/
structure SymbolChain where
  name : CString
  sym : Sym
  stShndx : Nat
  schain : Option Nat
  deriving DecidableEq, Repr

/-- `ObjectChain`: what is kept of one input object. -/
structure ObjectChain where
  sectionHead : Nat
  symbolNum : Nat := 0
  symbolTable : Option Nat := none
  symbolChain : List SymbolChain := []
  relocSectionHead : Option Nat := none
  relocSectionTail : Option Nat := none
  deriving DecidableEq, Repr

/-- Where `.plt.got` is kept: its container and its own section header. -/
structure PltGot where
  container : Nat
  header : Nat
  deriving DecidableEq, Repr

/-- The linker's data about sections and objects, with the `Config` fields. -/
structure Link where
  headers : List Shdr
  containers : List SectionContainer
  objects : List ObjectChain
  relocs : List RelocationChain
  pltGot : Option PltGot
  hasGnuProperty : Bool
  programHeaderNum : Nat
  programHeaderTail : Nat
  baseAddress : Nat
  virtualAddressOffset : Nat

/-- `__z__link__alloc_reloc_chain`: the kind of a relocation section. -/
def relocSec (name : CString) : Option RelocSec :=
  if name = .ofString ".rela.text" then
    some .relaText
  else if name = .ofString ".rela.data" then
    some .relaData
  else if name = .ofString ".rela.init_array" then
    some .initArray
  else if name = .ofString ".rela.fini_array" then
    some .finiArray
  else
    none

/-- `match_section`: the first container of that name. -/
def matchSection (containers : List SectionContainer) (name : CString) :
    Option Nat :=
  containers.findIdx? fun container => container.name = some name

/-- `alloc_section_chain`: a section at the end of a container. -/
def allocSectionChain
    (containers : List SectionContainer) (index p : Nat) :
    List SectionContainer :=
  containers.modify index fun container =>
    { container with chain := container.chain ++ [{ p := p }] }

/-- The `insert:` branch: into the container of its name, or a new one. -/
def insertSection
    (containers : List SectionContainer) (name : CString) (p : Nat) :
    List SectionContainer :=
  match matchSection containers name with
  | some index => allocSectionChain containers index p
  | none => containers ++ [{ name := some name, chain := [{ p := p }] }]

/-- `Link.insert`: the `insert:` branch on the linker's containers. -/
def Link.insert (link : Link) (name : CString) (p : Nat) : Link :=
  { link with containers := insertSection link.containers name p }

/--
The `SHT_RELA` branch.  A further relocation section is linked behind the
*head* of the list, and the tail is moved to it.
-/
def appendReloc
    (link : Link) (oc : ObjectChain) (name : CString) (p : Nat) :
    Link × ObjectChain :=
  match relocSec name with
  | none => (link, oc)
  | some sec =>
      let cell := link.relocs.length
      let relocs := link.relocs ++ [{ sec := sec, p := p, next := none }]
      match oc.relocSectionHead with
      | some rel =>
          ({ link with
              relocs :=
                relocs.modify rel fun head => { head with next := some cell } },
            { oc with relocSectionTail := some cell })
      | none =>
          ({ link with relocs := relocs },
            { oc with
              relocSectionHead := some cell
              relocSectionTail := some cell })

/--
The `SHT_NOTE` branch: the first `.note.gnu.property` adds a program header,
and its size is added to the tail twice; later notes are skipped.
-/
def insertNote (link : Link) (name : CString) (p : Nat) : Link :=
  if link.hasGnuProperty then
    link
  else if name = .ofString ".note.gnu.property" then
    { link with
      hasGnuProperty := true
      programHeaderNum := link.programHeaderNum + 1
      programHeaderTail := link.programHeaderTail + sizeofPhdr + sizeofPhdr
    }.insert name p
  else
    link.insert name p

/--
`__z__link__on_section_callback_for_link`: the first header only allocates the
object, every other one is treated by its type.
-/
def onSection
    (link : Link) (oc : Option ObjectChain) (p : Nat) (shdr : Shdr) :
    Link × Option ObjectChain :=
  match oc with
  | none => (link, some { sectionHead := p })
  | some oc =>
      if shdr.shType = shtProgbits then
        (link.insert shdr.name p, some oc)
      else if shdr.shType = shtSymtab then
        (link.insert shdr.name p,
          some
            { oc with
              symbolNum := u32 shdr.shSize / sizeofSym
              symbolTable := some p })
      else if shdr.shType = shtRela then
        let (link, oc) := appendReloc link oc shdr.name p
        (link, some oc)
      else if shdr.shType = shtNobits then
        (link.insert shdr.name p, some oc)
      else if shdr.shType = shtNote then
        (insertNote link shdr.name p, some oc)
      else
        (link, some oc)

/-- `__z__obj__run_through_elf_shdr3`: call back for every header in order. -/
def runThroughShdr
    (link : Link) (oc : Option ObjectChain) (p : Nat) :
    List Shdr → Link × Option ObjectChain
  | [] => (link, oc)
  | shdr :: rest =>
      let (link, oc) := onSection link oc p shdr
      runThroughShdr link oc (p + 1) rest

/-- Map an object file and walk its section headers. -/
def readSections (link : Link) (file : ElfFile) : Link × Option ObjectChain :=
  runThroughShdr { link with headers := link.headers ++ file.sections }
    none link.headers.length file.sections

/--
The section index of a header, which holds the container's position in its
high and the position within the container in its low byte.  Both are counted
in a `uint8_t`.
-/
def sectionIndex (container chain : Nat) : Nat :=
  container % 256 * 256 + chain % 256

/-- `get_section_index_by_name`, zero when the header is in no container. -/
def sectionIndexByName
    (containers : List SectionContainer) (name : CString) (q : Nat) : Nat :=
  (containers.zipIdx.findSome? fun (container, i) =>
    if container.name = some name then
      (container.chain.findIdx? fun schain => schain.p = q).map
        (sectionIndex i)
    else
      none).getD 0

/-- `get_section_chain_by_index`: the first section with that index. -/
def sectionChainByIndex
    (containers : List SectionContainer) (index : Nat) :
    Option SectionChain :=
  containers.zipIdx.findSome? fun (container, i) =>
    container.chain.zipIdx.findSome? fun (schain, j) =>
      if i % 256 = index / 256 ∧ j % 256 = index % 256 then
        some schain
      else
        none

/-- All sections, in the order in which they are placed. -/
def elementsOf (containers : List SectionContainer) : List SectionChain :=
  containers.flatMap SectionContainer.chain

/-- The header pointers of all sections, in the order of the containers. -/
def sectionPointers (containers : List SectionContainer) : List Nat :=
  (elementsOf containers).map SectionChain.p

/--
`section_chain_head` of the object that is read, whose headers begin at a
position: the first of its sections that was inserted.
-/
def sectionChainHead
    (containers : List SectionContainer) (sectionHead : Nat) : Option Nat :=
  ((sectionPointers containers).filter fun p => sectionHead ≤ p).min?

/-- The line at the end of the symbol-table callback. -/
def symbolTableLine (name : CString) (index : Nat) : Nat :=
  lineLength "[link/elf/callback.c]\t symbol table callback : ,\n"
    [name.length, pointerLength index]

/--
`__z__link__on_elf_symtab_callback_for_link`: symbols of default visibility
that a section of the object defines join the symbol chain, with the head of the
object's sections, where the loop of `alloc_export_symbol_chain` ends at once
for an index that is not zero.  A symbol whose section is in no container never
gets its index: the source spins.  Two lines have the name in them.
-/
def onSymbol (link : Link) (oc : ObjectChain) (sym : Sym) :
    Option ObjectChain :=
  if sym.stVisibility ≠ stvDefault then
    some oc
  else if sym.stShndx = shnUndef then
    some oc
  else if sym.stShndx = shnAbs then
    some oc
  else if sym.stShndx = shnCommon then
    some oc
  else if sym.stType = sttSection then
    some oc
  else
    (link.headers[oc.sectionHead + sym.stShndx]?).bind fun shdr =>
      let index :=
        sectionIndexByName link.containers shdr.name
          (oc.sectionHead + sym.stShndx)
      if IsLogged (exportChainLine sym.name) ∧ index ≠ 0 ∧
          IsLogged (symbolTableLine sym.name index) then
        some
          { oc with
            symbolChain :=
              oc.symbolChain ++
                [{ name := sym.name
                   sym := sym
                   stShndx := index
                   schain :=
                    sectionChainHead link.containers oc.sectionHead }] }
      else
        none

/-- The entries of an object's symbol table. -/
def symbolTable (link : Link) (oc : ObjectChain) : List Sym :=
  match oc.symbolTable.bind fun p => link.headers[p]? with
  | none => []
  | some shdr => (List.range oc.symbolNum).map shdr.symAt

/-- The names of the containers fit the lines of `alloc_section_container`. -/
def ContainersLogged (containers : List SectionContainer) : Prop :=
  ∀ sc ∈ containers, ∀ name ∈ sc.name, IsLogged (sectionContainerLine name)

instance (containers : List SectionContainer) :
    Decidable (ContainersLogged containers) :=
  inferInstanceAs (Decidable (∀ sc ∈ _, _))

/--
Read one object: its sections, then its symbols.  While the sections are walked,
a container with too long a name overruns `max_name`.
-/
def readObject (link : Link) (file : ElfFile) : Option Link :=
  let (link, oc) := readSections link file
  if ContainersLogged link.containers then
    oc.bind fun oc =>
      ((symbolTable link oc).foldlM (onSymbol link) oc).map fun oc =>
        { link with objects := link.objects ++ [oc] }
  else
    none

/--
The linker before the first object, under `set_elf_default_config`.  The
container list starts with an unnamed container; the empty object that the
object list starts with has nothing to visit and is left out.  `interp` is the
interpreter's name, absent under `-nointerp`.
-/
def Link.init (interp : Option CString) : Link where
  headers := []
  containers := [{ name := none }]
  objects := []
  relocs := []
  pltGot := none
  hasGnuProperty := false
  programHeaderNum := 3 + (interp.elim 0 fun _ => 1)
  programHeaderTail :=
    sizeofEhdr + 3 * sizeofPhdr +
      interp.elim 0 fun name => sizeofPhdr + name.length + 1
  baseAddress := 0
  virtualAddressOffset := 0

/-- Read all objects in command-line order. -/
def readObjects (link : Link) (files : List ElfFile) : Option Link :=
  files.foldlM readObject link

/-- The cells of an object's relocation-section list. -/
def relocationCells (link : Link) (oc : ObjectChain) :
    Option (List RelocationChain) :=
  (PointerList.follow
    (fun cell => (link.relocs[cell]?).bind RelocationChain.next)
    link.relocs.length oc.relocSectionHead).bind fun cells =>
      cells.mapM fun cell => link.relocs[cell]?

/-- One call that `__z__link__elf_do_reloc` makes of the resolver. -/
structure RelocCall where
  rela : Rela
  subShdr : Nat
  sec : RelocSec
  deriving DecidableEq, Repr

/-- The calls for one relocation section: one for every entry, in order. -/
def relocCallsOf (link : Link) (oc : ObjectChain) (reloc : RelocationChain) :
    Option (List RelocCall) :=
  (link.headers[reloc.p]?).map fun relShdr =>
    relShdr.relas.map fun rela =>
      { rela := rela
        subShdr := oc.sectionHead + relShdr.shInfo
        sec := reloc.sec }

/-- The calls `__z__link__elf_do_reloc` makes for one object, in order. -/
def relocCalls (link : Link) (oc : ObjectChain) : Option (List RelocCall) :=
  (relocationCells link oc).bind fun cells =>
    (cells.mapM (relocCallsOf link oc)).map List.flatten

/-! ## What the section callbacks leave alone -/

/-- Two states of the linker that share the arena and the fixed settings. -/
structure SameArena (first second : Link) : Prop where
  headers : second.headers = first.headers
  objects : second.objects = first.objects
  pltGot : second.pltGot = first.pltGot
  baseAddress : second.baseAddress = first.baseAddress

/-- Nothing changes the arena but mapping the next object. -/
theorem SameArena.refl (link : Link) : SameArena link link :=
  ⟨rfl, rfl, rfl, rfl⟩

/-- Sharing the arena is transitive. -/
theorem SameArena.trans
    {first second third : Link}
    (earlier : SameArena first second) (later : SameArena second third) :
    SameArena first third :=
  ⟨later.headers.trans earlier.headers,
    later.objects.trans earlier.objects,
    later.pltGot.trans earlier.pltGot,
    later.baseAddress.trans earlier.baseAddress⟩

/-- Inserting a section keeps the arena. -/
theorem Link.insert_sameArena (link : Link) (name : CString) (p : Nat) :
    SameArena link (link.insert name p) :=
  ⟨rfl, rfl, rfl, rfl⟩

/-- The note branch keeps the arena. -/
theorem insertNote_sameArena (link : Link) (name : CString) (p : Nat) :
    SameArena link (insertNote link name p) := by
  unfold insertNote
  split_ifs <;> exact ⟨rfl, rfl, rfl, rfl⟩

/-- Appending a relocation section keeps the arena. -/
theorem appendReloc_sameArena
    (link : Link) (oc : ObjectChain) (name : CString) (p : Nat) :
    SameArena link (appendReloc link oc name p).1 := by
  unfold appendReloc
  split
  · exact .refl link
  · dsimp only
    split <;> exact ⟨rfl, rfl, rfl, rfl⟩

/-- A section callback keeps the arena. -/
theorem onSection_sameArena
    (link : Link) (oc : Option ObjectChain) (p : Nat) (shdr : Shdr) :
    SameArena link (onSection link oc p shdr).1 := by
  cases oc with
  | none => exact .refl link
  | some oc =>
      unfold onSection
      dsimp only
      split_ifs
      · exact link.insert_sameArena shdr.name p
      · exact link.insert_sameArena shdr.name p
      · exact appendReloc_sameArena link oc shdr.name p
      · exact link.insert_sameArena shdr.name p
      · exact insertNote_sameArena link shdr.name p
      · exact .refl link

/-- So does the walk over the headers. -/
theorem runThroughShdr_sameArena
    (link : Link) (oc : Option ObjectChain) (p : Nat)
    (sections : List Shdr) :
    SameArena link (runThroughShdr link oc p sections).1 := by
  induction sections generalizing link oc p with
  | nil => exact .refl link
  | cons shdr rest inductionHypothesis =>
      exact
        (onSection_sameArena link oc p shdr).trans
          (inductionHypothesis _ _ _)

/-- Reading one object: its headers, then its symbols. -/
theorem readObject_eq_some
    {link next : Link} {file : ElfFile}
    (reading : readObject link file = some next) :
    ∃ walked final,
      (readSections link file).2 = some walked ∧
        (symbolTable (readSections link file).1 walked).foldlM
          (onSymbol (readSections link file).1) walked = some final ∧
        next =
          { (readSections link file).1 with
            objects := (readSections link file).1.objects ++ [final] } := by
  simp only [readObject, Option.ite_none_right_eq_some] at reading
  obtain ⟨_, reading⟩ := reading
  obtain ⟨walked, isWalked, symbols⟩ := Option.bind_eq_some_iff.mp reading
  obtain ⟨final, isFinal, rfl⟩ := Option.map_eq_some_iff.mp symbols
  exact ⟨walked, final, isWalked, isFinal, rfl⟩

/-- Walking the headers of an object appends them to the arena. -/
theorem readSections_headers (link : Link) (file : ElfFile) :
    (readSections link file).1.headers = link.headers ++ file.sections :=
  (runThroughShdr_sameArena _ none link.headers.length file.sections).headers

end BinTools.Elf
