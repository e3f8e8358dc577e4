import BinTools.ElfObjectExports
import BinTools.ElfSymbolPass
import Mathlib.Data.List.Nodup

namespace BinTools.Elf

/-!
# Where a looked-up name leads

Between reading a definition and finding its name again lie a section index,
the address of the section, the export chain, the symbol table and the hash
table.  Each hop keeps the section and the offset, so a lookup leads to the
definition unless another symbol of the name, whatever its binding, comes
before it.  On the way every name is logged, with the addresses of its section
and of its object's first one.
-/

open LogLine

/-- The address of a section: the cursor's start and the sizes in front. -/
def addressOf (link : Link) (p : Nat) : Nat :=
  u32 (link.baseAddress + link.programHeaderTail +
    (((sectionPointers link.containers).takeWhile (· ≠ p)).map
      (shSizeAt link.headers)).sum)

/-- What is registered of a definition. -/
def definitionOf (link : Link) (entry : Nat × Sym) : Definition where
  name := entry.2.name
  shndx := sectionIndexOf link entry.1
  value :=
    sub32 (addressOf link entry.1 + entry.2.stValue) link.baseAddress
  stBind := entry.2.stBind
  schainAddress :=
    (sectionChainHead link.containers (headOf entry)).elim 0 (addressOf link)
  sectionAddress := addressOf link entry.1

/-- The global definitions of a name, with the headers of their sections. -/
def globalDefinitions (files : List ElfFile) (name : CString) :
    List (Nat × Sym) :=
  (sectionSymbols 0 files).filter fun entry =>
    entry.2.name = name ∧ entry.2.stBind = stbGlobal

/--
Looking the name up gives the index of an entry that bears the name and has
the address of the definition.
-/
def BoundTo (exported : LinkExports) (definition : Nat × Sym) : Prop :=
  ∃ index ∈ exported.dynamic.findSym2 definition.2.name,
    index ≠ 0 ∧
      exported.dynamic.nameAt index = some definition.2.name ∧
      ∃ entry ∈ exported.dynamic.dynsym.head.entries[index]?,
        ∃ schain ∈ exported.link.elements,
          schain.p = definition.1 ∧
            (entry.stValue : Int) =
              schain.virtualAddress + definition.2.stValue -
                exported.link.baseAddress

instance (exported : LinkExports) (definition : Nat × Sym) :
    Decidable (BoundTo exported definition) :=
  inferInstanceAs (Decidable (∃ index ∈ _, _))

/-- The link gets through its passes, and the name is bound as it should. -/
def Binds
    (interp : Option CString) (files : List ElfFile) (dynlib : List CString)
    (definition : Nat × Sym) : Prop :=
  ∃ exported ∈ linkExports interp files dynlib, BoundTo exported definition

instance
    (interp : Option CString) (files : List ElfFile) (dynlib : List CString)
    (definition : Nat × Sym) :
    Decidable (Binds interp files dynlib definition) :=
  inferInstanceAs (Decidable (∃ exported ∈ _, _))

/-- The sections of all objects, read from the start. -/
def allSections (interp : Option CString) (files : List ElfFile) : Link :=
  sectionPass (Link.init interp) files

/--
The names of the containers and of the definitions fit the lines they are logged
with.
-/
def NamesLogged (interp : Option CString) (files : List ElfFile) : Prop :=
  ContainersLogged (allSections interp files).containers ∧
    ExportsLogged 1
      ((sectionSymbols 0 files).map (definitionOf (allSections interp files)))

instance (interp : Option CString) (files : List ElfFile) :
    Decidable (NamesLogged interp files) :=
  inferInstanceAs (Decidable (_ ∧ _))

/--
The first findable symbol of the name, of any binding, is at the address of
the definition.
-/
def FirstAtDefinition
    (interp : Option CString) (files : List ElfFile)
    (definition : Nat × Sym) : Prop :=
  ∃ position < (sectionSymbols 0 files).length,
    GnuHashTable.FirstFindable (definedNames files) definition.2.name
        position ∧
      ∃ first ∈ (sectionSymbols 0 files)[position]?,
        u32 (addressOf (allSections interp files) first.1 +
            first.2.stValue) =
          addressOf (allSections interp files) definition.1 +
            definition.2.stValue

instance
    (interp : Option CString) (files : List ElfFile)
    (definition : Nat × Sym) :
    Decidable (FirstAtDefinition interp files definition) :=
  inferInstanceAs (Decidable (∃ position < _, _))

/-! ## The addresses of the sections -/

/-- No header is filed twice. -/
theorem Filed.nodup_sectionPointers
    {headers : List Shdr} {bound : Nat} {containers : List SectionContainer}
    (filed : Filed headers bound containers) :
    (sectionPointers containers).Nodup := by
  unfold sectionPointers elementsOf
  rw [List.map_flatMap, List.nodup_flatMap]
  constructor
  · intro sc isContainer
    exact
      (filed.arranged sc isContainer).2.1.imp fun isLess =>
        Nat.ne_of_lt isLess
  · have distinct := List.pairwise_map.mp filed.distinct
    apply distinct.imp_of_mem
    intro first second isFirst isSecond differs p inFirst inSecond
    apply differs
    obtain ⟨schain, inChain, rfl⟩ := List.mem_map.mp inFirst
    obtain ⟨other, inOther, samePointer⟩ := List.mem_map.mp inSecond
    rw [← filed.named first isFirst schain inChain,
      ← filed.named second isSecond other inOther, samePointer]

/-- The header pointers are those of the outlines. -/
theorem sectionPointers_eq (containers : List SectionContainer) :
    sectionPointers containers =
      (containers.map SectionContainer.outline).flatMap Prod.snd := by
  unfold sectionPointers elementsOf
  rw [List.map_flatMap, List.flatMap_map]
  rfl

/-- `.plt.got` stands behind the sections that were read. -/
theorem elementsOf_addPltgotSc (read : Link) :
    elementsOf (addPltgotSc read).containers =
      elementsOf read.containers ++ [{ p := read.headers.length }] := by
  unfold elementsOf addPltgotSc
  rw [List.flatMap_append]
  rfl

/-- The layout adds one section behind those that were read. -/
theorem sectionPointers_layOut (read : Link) :
    sectionPointers (layOut false read).containers =
      sectionPointers read.containers ++ [read.headers.length] := by
  have outlines :=
    (setVirtualAddress_keeps
      (u32 (read.baseAddress + read.programHeaderTail))
      (addPltgotSc read).headers (addPltgotSc read).containers).2
  have isPlaced :
      (layOut false read).containers =
        (setVirtualAddress (addPltgotSc read).headers
          (u32 (read.baseAddress + read.programHeaderTail))
          (addPltgotSc read).containers).2.2 := rfl
  rw [isPlaced, sectionPointers_eq, outlines, ← sectionPointers_eq,
    sectionPointers, elementsOf_addPltgotSc, List.map_append]
  rfl

/-- The addresses of all sections, in the order of the containers. -/
theorem addresses_layOut {read : Link} (filed : read.Filed) :
    (layOut false read).elements.map SectionChain.virtualAddress =
      (ConsecutiveRanges.starts
        (read.baseAddress + read.programHeaderTail)
        ((sectionPointers read.containers).map (shSizeAt read.headers) ++
          [0])).map u32 := by
  have unplaced : ∀ sc ∈ (addPltgotSc read).containers, sc.size = 0 := by
    intro sc isContainer
    rcases List.mem_append.mp isContainer with isRead | isPlt
    · exact (filed.arranged sc isRead).1
    · cases List.mem_singleton.mp isPlt
      rfl
  have sizes :
      sizesOf (addPltgotSc read).headers (addPltgotSc read).containers =
        (sectionPointers read.containers).map (shSizeAt read.headers) ++
          [0] := by
    have oldSizes :
        (sectionPointers read.containers).map
            (shSizeAt (addPltgotSc read).headers) =
          (sectionPointers read.containers).map (shSizeAt read.headers) := by
      apply List.map_congr_left
      intro p isFiled
      obtain ⟨schain, isElement, rfl⟩ := List.mem_map.mp isFiled
      obtain ⟨sc, isContainer, inChain⟩ := List.mem_flatMap.mp isElement
      have inArena := (filed.arranged sc isContainer).2.2 schain inChain
      unfold shSizeAt addPltgotSc
      rw [List.getElem?_append_left inArena]
    have pltSize :
        shSizeAt (addPltgotSc read).headers read.headers.length = 0 := by
      unfold shSizeAt addPltgotSc
      rw [List.getElem?_append_right (Nat.le_refl _), Nat.sub_self]
      rfl
    rw [← oldSizes, sizesOf, chainSizes, elementsOf_addPltgotSc,
      List.map_append, List.map_singleton, pltSize, sectionPointers,
      List.map_map]
    rfl
  have placed :=
    setVirtualAddress_addresses
      (u32 (read.baseAddress + read.programHeaderTail))
      (addPltgotSc read).headers unplaced
  rw [sizes] at placed
  exact placed.trans (ConsecutiveRanges.starts_mod _ _ _)

/-- The layout gives every section its address. -/
theorem virtualAddress_layOut
    {read : Link} (filed : read.Filed) {schain : SectionChain}
    (isElement : schain ∈ (layOut false read).elements)
    (isFiled : schain.p ∈ sectionPointers read.containers) :
    schain.virtualAddress = addressOf read schain.p := by
  obtain ⟨index, isAt⟩ := List.mem_iff_getElem?.mp isElement
  have pointerAt :
      (sectionPointers read.containers ++ [read.headers.length])[index]? =
        some schain.p := by
    rw [← sectionPointers_layOut, sectionPointers, List.getElem?_map]
    exact congrArg (Option.map SectionChain.p) isAt
  have distinct := Filed.nodup_sectionPointers filed
  have inRange : index < (sectionPointers read.containers).length := by
    rcases Nat.lt_or_ge index (sectionPointers read.containers).length with
      isBefore | isBehind
    · exact isBefore
    · rw [List.getElem?_append_right isBehind] at pointerAt
      have isPlt := List.mem_singleton.mp (List.mem_of_getElem? pointerAt)
      obtain ⟨other, isOther, samePointer⟩ := List.mem_map.mp isFiled
      obtain ⟨sc, isContainer, inChain⟩ := List.mem_flatMap.mp isOther
      have inArena :=
        (Filed.arranged filed sc isContainer).2.2 other inChain
      omega
  rw [List.getElem?_append_left inRange] at pointerAt
  have addressAt := congrArg (·[index]?) (addresses_layOut filed)
  simp only [List.getElem?_map, isAt, Option.map_some] at addressAt
  rw [ConsecutiveRanges.getElem?_starts
      (by rw [List.length_append, List.length_map]; omega),
    List.take_append_of_le_length
      (by rw [List.length_map]; exact Nat.le_of_lt inRange),
    ← List.map_take, ← ConsecutiveRanges.takeWhile_ne_eq_take distinct pointerAt] at addressAt
  exact Option.some.inj addressAt

/-! ## The definitions that are registered -/

/-- Where a header is filed shows in the outlines. -/
theorem filedAt_iff_outline
    {containers : List SectionContainer} {i j p : Nat} :
    FiledAt containers i j p ↔
      ((containers.map SectionContainer.outline)[i]?.bind
        fun outline => outline.2[j]?) = some p := by
  unfold FiledAt chainAt
  rw [List.getElem?_map]
  cases containers[i]? with
  | none => rfl
  | some sc =>
      simp only [Option.bind_some, Option.map_some,
        SectionContainer.outline, List.getElem?_map]

/-- The outlines after the layout. -/
theorem outlines_layOut (read : Link) :
    (layOut false read).containers.map SectionContainer.outline =
      (addPltgotSc read).containers.map SectionContainer.outline :=
  (setVirtualAddress_keeps
    (u32 (read.baseAddress + read.programHeaderTail))
    (addPltgotSc read).headers (addPltgotSc read).containers).2

/-- The layout keeps the limits of section indices, but for one container. -/
theorem AtMost255.layOut
    {read : Link} (atMost : AtMost255 read.containers) :
    (layOut false read).containers.length ≤ 257 ∧
      ∀ sc ∈ (Elf.layOut false read).containers, sc.chain.length ≤ 255 := by
  have outlines := outlines_layOut read
  constructor
  · have lengths := congrArg List.length outlines
    have few := atMost.1
    simp only [List.length_map, addPltgotSc, List.length_append,
      List.length_singleton] at lengths
    omega
  · intro sc isContainer
    have isOutline :
        sc.outline ∈
          (addPltgotSc read).containers.map SectionContainer.outline := by
      rw [← outlines]
      exact List.mem_map_of_mem isContainer
    obtain ⟨before, isBefore, sameOutline⟩ := List.mem_map.mp isOutline
    have sameLength : before.chain.length = sc.chain.length := by
      have pointers := congrArg (fun outline => outline.2.length) sameOutline
      simpa [SectionContainer.outline] using pointers
    rw [← sameLength]
    rcases List.mem_append.mp isBefore with isRead | isPlt
    · exact atMost.2 before isRead
    · cases List.mem_singleton.mp isPlt
      exact Nat.le_of_ble_eq_true rfl

/-- The section index of a filed header is made of its positions. -/
theorem Link.Filed.sectionIndexOf_eq
    {read : Link} (filed : read.Filed) {i j p : Nat}
    (isAt : FiledAt read.containers i j p) :
    sectionIndexOf read p = sectionIndex i j := by
  obtain ⟨before, beforeChain, isPointer⟩ := Option.map_eq_some_iff.mp isAt
  obtain ⟨sc, atI, atJ⟩ := Option.bind_eq_some_iff.mp beforeChain
  have inArena :=
    (Filed.arranged filed sc (List.mem_of_getElem? atI)).2.2 before
      (List.mem_of_getElem? atJ)
  rw [isPointer] at inArena
  have isHeader := List.getElem?_eq_getElem inArena
  unfold sectionIndexOf
  rw [isHeader]
  exact Filed.sectionIndexByName_eq filed isAt isHeader

/-- A section that is read is among the ones that get an address. -/
theorem exists_element_layOut
    {read : Link} {p : Nat} (isFiled : p ∈ sectionPointers read.containers) :
    ∃ schain ∈ (layOut false read).elements, schain.p = p := by
  apply List.mem_map.mp
  have pointers := sectionPointers_layOut read
  unfold sectionPointers at pointers
  unfold Link.elements
  rw [pointers]
  exact List.mem_append_left _ isFiled

/-- The head of the object of a definition is found with its address. -/
theorem Link.Filed.find?_sectionChainHead
    {read : Link} (filed : read.Filed) {entry : Nat × Sym}
    (isFiled : entry.1 ∈ sectionPointers read.containers) :
    ∃ schain,
      ((sectionChainHead read.containers (headOf entry)).bind fun p =>
          (elementsOf (layOut false read).containers).find? fun schain =>
            schain.p = p) = some schain ∧
        schain.virtualAddress = (definitionOf read entry).schainAddress := by
  obtain ⟨first, isFirst⟩ :=
    exists_sectionChainHead isFiled (Nat.sub_le entry.1 entry.2.stShndx)
  have firstFiled := (sectionChainHead_eq_some_iff.mp isFirst).1.1
  obtain ⟨known, isKnown, samePointer⟩ := exists_element_layOut firstFiled
  have found :
      ((elementsOf (layOut false read).containers).find? fun schain =>
        schain.p = first).isSome := by
    rw [List.find?_isSome]
    exact ⟨known, isKnown, decide_eq_true samePointer⟩
  obtain ⟨schain, isSchain⟩ := Option.isSome_iff_exists.mp found
  have pointer : schain.p = first := by
    simpa using List.find?_some isSchain
  refine ⟨schain, ?_, ?_⟩
  · rw [headOf, isFirst, Option.bind_some, isSchain]
  · rw [virtualAddress_layOut filed (List.mem_of_find?_eq_some isSchain)
      (pointer ▸ firstFiled), pointer, definitionOf, headOf, isFirst]
    rfl

/-- A definition in an inserted section is registered with its address. -/
theorem definition_symbolCell
    {read : Link} (filed : read.Filed)
    (atMost : AtMost255 read.containers) {entry : Nat × Sym}
    (isFiled : entry.1 ∈ sectionPointers read.containers) :
    definition (layOut false read) (symbolCell read entry) =
      some (definitionOf read entry) := by
  obtain ⟨i, j, isAt⟩ := mem_sectionPointers_iff.mp isFiled
  have notFirst := Filed.container_pos filed (Nat.le_refl _) isAt
  have isPlaced : FiledAt (layOut false read).containers i j entry.1 := by
    rw [filedAt_iff_outline, outlines_layOut, ← filedAt_iff_outline]
    obtain ⟨schain, isChain, samePointer⟩ := Option.map_eq_some_iff.mp isAt
    obtain ⟨sc, atI, atJ⟩ := Option.bind_eq_some_iff.mp isChain
    have inRange := (List.getElem?_eq_some_iff.mp atI).1
    unfold FiledAt chainAt addPltgotSc
    rw [List.getElem?_append_left inRange, atI, Option.bind_some, atJ]
    exact congrArg some samePointer
  obtain ⟨schain, isChain, samePointer⟩ :=
    Option.map_eq_some_iff.mp isPlaced
  have isElement : schain ∈ (layOut false read).elements := by
    obtain ⟨sc, atI, atJ⟩ := Option.bind_eq_some_iff.mp isChain
    exact
      List.mem_flatMap.mpr
        ⟨sc, List.mem_of_getElem? atI, List.mem_of_getElem? atJ⟩
  have inByte : i < 256 := by
    obtain ⟨before, beforeChain, _⟩ := Option.map_eq_some_iff.mp isAt
    obtain ⟨sc, atI, _⟩ := Option.bind_eq_some_iff.mp beforeChain
    exact
      Nat.lt_of_lt_of_le (List.getElem?_eq_some_iff.mp atI).1 atMost.1
  have isIndex := filed.sectionIndexOf_eq isAt
  obtain ⟨fewContainers, shortChains⟩ := atMost.layOut
  have isFound :=
    sectionChainByIndex_sectionIndex fewContainers shortChains notFirst
      inByte isChain
  have isAddress :=
    virtualAddress_layOut filed isElement (samePointer ▸ isFiled)
  rw [samePointer] at isAddress
  obtain ⟨head, isHead, headAddress⟩ := filed.find?_sectionChainHead isFiled
  unfold definition symbolCell
  dsimp only
  rw [isIndex, isFound, Option.bind_some, isHead, Option.map_some, isAddress,
    headAddress]
  unfold definitionOf
  rw [isIndex]
  rfl

/-- Computing over lists of lists is computing over their concatenation. -/
theorem mapM_flatten
    {Item Result : Type} (compute : Item → Option Result)
    (lists : List (List Item)) :
    (lists.mapM fun (items : List Item) => items.mapM compute).map
        List.flatten =
      lists.flatten.mapM compute := by
  induction lists with
  | nil => rfl
  | cons first rest inductionHypothesis =>
      rw [List.mapM_cons, List.flatten_cons, List.mapM_append,
        ← inductionHypothesis]
      cases first.mapM compute with
      | none => rfl
      | some results =>
          cases rest.mapM fun (items : List Item) => items.mapM compute with
          | none => rfl
          | some others => rfl

/-- A computation that succeeds everywhere computes a list. -/
theorem mapM_eq_some_map
    {Item Result : Type} {compute : Item → Option Result}
    {result : Item → Result} {items : List Item}
    (succeeds : ∀ item ∈ items, compute item = some (result item)) :
    items.mapM compute = some (items.map result) := by
  induction items with
  | nil => rfl
  | cons item rest inductionHypothesis =>
      rw [List.mapM_cons, succeeds item List.mem_cons_self,
        inductionHypothesis fun other isOther =>
          succeeds other (List.mem_cons_of_mem _ isOther)]
      rfl

/-- The definitions of all objects are those of their cells. -/
theorem definitions_eq (link : Link) :
    definitions link = link.symbolCells.mapM (definition link) := by
  unfold definitions Link.symbolCells
  rw [List.flatMap_def, ← mapM_flatten, List.mapM_map]
  rfl

/-- Every definition is in a section that was inserted. -/
theorem SymbolsInserted.mem_sectionPointers
    {containers : List SectionContainer} {head : Nat} {files : List ElfFile}
    (inserted : SymbolsInserted containers head files)
    {entry : Nat × Sym} (isDefined : entry ∈ sectionSymbols head files) :
    entry.1 ∈ sectionPointers containers := by
  induction files generalizing head with
  | nil => cases isDefined
  | cons file rest inductionHypothesis =>
      rcases List.mem_append.mp isDefined with isOwn | isLater
      · obtain ⟨sym, isSym, rfl⟩ := List.mem_map.mp isOwn
        exact (inserted.1 sym isSym).2
      · exact inductionHypothesis inserted.2 isLater

/-- The symbols with their sections are the symbols of the files. -/
theorem map_snd_sectionSymbols (head : Nat) (files : List ElfFile) :
    (sectionSymbols head files).map Prod.snd = definedSymbols files := by
  induction files generalizing head with
  | nil => rfl
  | cons file rest inductionHypothesis =>
      unfold sectionSymbols definedSymbols
      rw [List.map_append, List.map_map, List.flatMap_cons,
        inductionHypothesis]
      exact congrArg (· ++ definedSymbols rest) (List.map_id _)

/-- What the passes leave of objects whose definitions are all inserted. -/
structure Registers
    (interp : Option CString) (files : List ElfFile)
    (exported : LinkExports) : Prop where
  defs :
    exported.defs =
      (sectionSymbols 0 files).map
        (definitionOf (allSections interp files))
  link :
    ∃ objects,
      exported.link =
        layOut false { allSections interp files with objects := objects }

/-- The sections of all objects are filed. -/
theorem filed_allSections (interp : Option CString) (files : List ElfFile) :
    (allSections interp files).Filed :=
  (Link.Filed.sectionPass (filed_init interp) files).1

/-- A name that fits the last line about it fits the ones before. -/
theorem symbolLogged_of_isLogged
    {read : Link} (filed : read.Filed) {entry : Nat × Sym} {num : Nat}
    (isFiled : entry.1 ∈ sectionPointers read.containers)
    (isLogged : IsLogged (exportLine num (definitionOf read entry))) :
    SymbolLogged read entry := by
  have exportText :
      "[link/elf/dynamic.c]\t add export symbol:,,,,\n".length = 45 := rfl
  have symbolText :
      "[link/elf/callback.c]\t symbol table callback : ,\n".length = 49 :=
    rfl
  obtain ⟨i, j, isAt⟩ := mem_sectionPointers_iff.mp isFiled
  have index : pointerLength (sectionIndexOf read entry.1) ≤ 6 := by
    apply pointerLength_le_six
    rw [filed.sectionIndexOf_eq isAt, sectionIndex]
    omega
  have number := intLength_pos num
  have first :=
    three_le_pointerLength (definitionOf read entry).schainAddress
  have second :=
    three_le_pointerLength (definitionOf read entry).sectionAddress
  have third := three_le_pointerLength (definitionOf read entry).value
  have name : (definitionOf read entry).name = entry.2.name := rfl
  simp only [IsLogged, maxName, exportLine, lineLength, exportText, name,
    List.sum_cons, List.sum_nil] at isLogged
  constructor
  · rw [isLogged_exportChainLine_iff]
    omega
  · simp only [IsLogged, maxName, symbolTableLine, lineLength, symbolText,
      List.sum_cons, List.sum_nil]
    omega

/--
Objects whose definitions are all inserted and whose names fit their lines get
through all passes.
-/
theorem linkExports_of_symbolsInserted
    {interp : Option CString} {files : List ElfFile} {dynlib : List CString}
    (atMost : AtMost255 (allSections interp files).containers)
    (fit : TablesFit dynlib files)
    (inserted :
      SymbolsInserted (allSections interp files).containers 0 files)
    (logged : NamesLogged interp files) :
    ∃ exported,
      linkExports interp files dynlib = some exported ∧
        Registers interp files exported := by
  obtain ⟨containers, exportsLogged⟩ := logged
  have symbolsLogged : SymbolsLogged (allSections interp files) 0 files := by
    intro entry isDefined
    obtain ⟨k, isAt⟩ := List.mem_iff_getElem?.mp isDefined
    refine
      symbolLogged_of_isLogged (filed_allSections interp files)
        (inserted.mem_sectionPointers isDefined)
        (exportsLogged
          (definitionOf (allSections interp files) entry, 1 + k) ?_)
    rw [List.mk_mem_zipIdx_iff_le_and_getElem?_sub, Nat.add_sub_cancel_left,
      List.getElem?_map, isAt]
    exact ⟨Nat.le_add_right 1 k, rfl⟩
  obtain ⟨objects, isRead, cells⟩ :=
    Link.Filed.readObjects_eq_some (filed_init interp) atMost inserted
      containers symbolsLogged
  let read := { allSections interp files with objects := objects }
  have reading : readObjects (Link.init interp) files = some read := isRead
  have readFiled : read.Filed := filed_allSections interp files
  have cellsOf :
      (layOut false read).symbolCells =
        (sectionSymbols 0 files).map (symbolCell read) := cells
  have defined :
      definitions (layOut false read) =
        some
          ((sectionSymbols 0 files).map
            (definitionOf (allSections interp files))) := by
    rw [definitions_eq, cellsOf, List.mapM_map]
    apply mapM_eq_some_map
    intro entry isEntry
    exact
      definition_symbolCell readFiled atMost
        (inserted.mem_sectionPointers isEntry)
  have symbols : (layOut false read).symbols = definedSymbols files := by
    rw [layOut_symbols, readObjects_symbols reading]
    rfl
  obtain ⟨d, added, _⟩ := addExports_registered defined symbols fit
  rw [if_pos exportsLogged] at added
  refine
    ⟨{ link := layOut false read
       defs :=
        (sectionSymbols 0 files).map
          (definitionOf (allSections interp files))
       dynamic := d }, ?_, rfl, objects, rfl⟩
  unfold linkExports
  rw [reading, Option.bind_some]
  dsimp only
  rw [defined, Option.bind_some, added]
  rfl

/--
Objects get through all passes only if their definitions are inserted and all
names fit their lines.
-/
theorem symbolsInserted_of_linkExports
    {interp : Option CString} {files : List ElfFile} {dynlib : List CString}
    {exported : LinkExports}
    (atMost : AtMost255 (allSections interp files).containers)
    (fit : TablesFit dynlib files)
    (links : linkExports interp files dynlib = some exported) :
    SymbolsInserted (allSections interp files).containers 0 files ∧
      NamesLogged interp files := by
  obtain ⟨_, _, exportsLogged⟩ := linkExports_registered links fit
  obtain ⟨read, reading, links⟩ := Option.bind_eq_some_iff.mp links
  obtain ⟨defs, defined, links⟩ := Option.bind_eq_some_iff.mp links
  obtain ⟨d, added, rfl⟩ := Option.map_eq_some_iff.mp links
  obtain ⟨inserted, containers, symbols⟩ :=
    Link.Filed.readable_of_readObjects (filed_init interp) atMost
      (by simp [ContainersLogged, Link.init]) reading
  refine ⟨inserted, containers, ?_⟩
  obtain ⟨objects, isRead, cells⟩ :=
    Link.Filed.readObjects_eq_some (filed_init interp) atMost inserted
      containers symbols
  cases isRead.symm.trans reading
  have readFiled :
      Link.Filed { allSections interp files with objects := objects } :=
    filed_allSections interp files
  have cellsOf :
      (layOut false
          { allSections interp files with objects := objects }).symbolCells =
        (sectionSymbols 0 files).map
          (symbolCell { allSections interp files with objects := objects }) :=
    cells
  have alsoDefined :
      definitions
          (layOut false
            { allSections interp files with objects := objects }) =
        some
          ((sectionSymbols 0 files).map
            (definitionOf (allSections interp files))) := by
    rw [definitions_eq, cellsOf, List.mapM_map]
    apply mapM_eq_some_map
    intro entry isEntry
    exact
      definition_symbolCell readFiled atMost
        (inserted.mem_sectionPointers isEntry)
  cases alsoDefined.symm.trans defined
  exact exportsLogged

/-! ## Where a lookup leads -/

/-- Reading sections keeps the base address. -/
theorem baseAddress_sectionPass (link : Link) (files : List ElfFile) :
    (sectionPass link files).baseAddress = link.baseAddress := by
  induction files generalizing link with
  | nil => rfl
  | cons file rest inductionHypothesis =>
      have arena :=
        runThroughShdr_sameArena
          { link with headers := link.headers ++ file.sections }
          none link.headers.length file.sections
      exact (inductionHypothesis _).trans arena.baseAddress

/-- The base address of the output is zero. -/
theorem Registers.baseAddress
    {interp : Option CString} {files : List ElfFile} {exported : LinkExports}
    (registers : Registers interp files exported) :
    exported.link.baseAddress = 0 := by
  obtain ⟨objects, isLink⟩ := registers.link
  rw [isLink]
  exact baseAddress_sectionPass (Link.init interp) files

/-- The value of an export is the address of its definition, in 32 bits. -/
theorem value_definitionOf
    (interp : Option CString) (files : List ElfFile) (entry : Nat × Sym) :
    (definitionOf (allSections interp files) entry).value =
      u32 (addressOf (allSections interp files) entry.1 +
        entry.2.stValue) := by
  have isZero : (allSections interp files).baseAddress = 0 :=
    baseAddress_sectionPass (Link.init interp) files
  unfold definitionOf
  dsimp only
  rw [isZero]
  exact Nat.add_mod_right _ _

/-- The symbol table holds the definitions behind the null symbol. -/
theorem Registers.entryAt
    {interp : Option CString} {files : List ElfFile} {dynlib : List CString}
    {exported : LinkExports}
    (registers : Registers interp files exported)
    (links : linkExports interp files dynlib = some exported)
    (fit : TablesFit dynlib files)
    {position : Nat} {first : Nat × Sym}
    (isAt : (sectionSymbols 0 files)[position]? = some first) :
    (∃ entry,
      exported.dynamic.dynsym.head.entries[position + 1]? = some entry ∧
        entry.stValue =
          u32 (addressOf (allSections interp files) first.1 +
            first.2.stValue)) ∧
      exported.dynamic.nameAt (position + 1) = some first.2.name := by
  obtain ⟨_, ⟨registered, _⟩, _⟩ := linkExports_registered links fit
  have present :
      (exported.defs.map Definition.toExport)[position]? =
        some
          (definitionOf (allSections interp files) first).toExport := by
    rw [registers.defs, List.map_map, List.getElem?_map, isAt]
    rfl
  obtain ⟨strOffset, isEntry, _⟩ :=
    registered.stored position _ present
  have headIs :
      exported.dynamic.dynsym.head = exported.dynamic.dynsym.current := by
    rw [Table.head, registered.dynsymOpen, List.headD_nil]
  refine ⟨⟨_, headIs ▸ isEntry, ?_⟩, ?_⟩
  · exact value_definitionOf interp files first
  · exact (registered.symbolAt (.refl _) present).2

/-- It holds nothing else. -/
theorem Registers.entries_length
    {interp : Option CString} {files : List ElfFile} {dynlib : List CString}
    {exported : LinkExports}
    (registers : Registers interp files exported)
    (links : linkExports interp files dynlib = some exported)
    (fit : TablesFit dynlib files) :
    exported.dynamic.dynsym.head.entries.length =
      (sectionSymbols 0 files).length + 1 := by
  obtain ⟨_, ⟨registered, _⟩, _⟩ := linkExports_registered links fit
  have headIs :
      exported.dynamic.dynsym.head = exported.dynamic.dynsym.current := by
    rw [Table.head, registered.dynsymOpen, List.headD_nil]
  have count := registered.dynsymLength
  dsimp only at count
  rw [headIs, count, registers.defs, List.length_map, List.length_map]

/-- The section of a definition has its address. -/
theorem Registers.virtualAddress
    {interp : Option CString} {files : List ElfFile} {exported : LinkExports}
    (registers : Registers interp files exported)
    {schain : SectionChain} (isElement : schain ∈ exported.link.elements)
    (isFiled :
      schain.p ∈ sectionPointers (allSections interp files).containers) :
    schain.virtualAddress =
      addressOf (allSections interp files) schain.p := by
  obtain ⟨objects, isLink⟩ := registers.link
  rw [isLink] at isElement
  have filed :
      Link.Filed { allSections interp files with objects := objects } :=
    filed_allSections interp files
  exact virtualAddress_layOut filed isElement isFiled

/-- An inserted section is among the ones that got an address. -/
theorem Registers.exists_element
    {interp : Option CString} {files : List ElfFile} {exported : LinkExports}
    (registers : Registers interp files exported) {p : Nat}
    (isFiled : p ∈ sectionPointers (allSections interp files).containers) :
    ∃ schain ∈ exported.link.elements, schain.p = p := by
  obtain ⟨objects, isLink⟩ := registers.link
  rw [isLink]
  exact exists_element_layOut isFiled

/-- The function `f` of the object that is read second. -/
def secondF : Nat × Sym :=
  (4,
    { name := .ofString "f"
      stBind := stbGlobal
      stType := sttFunc
      stShndx := 1 })

end BinTools.Elf
