import BinTools.ElfSectionIndex

namespace BinTools.Elf

/-!
# The symbol pass

Which container a section is in is decided by the section headers alone, so
reading the symbols can be told apart from reading the sections.  The objects
are all read exactly when each definition lies in an inserted section of its own
object and all names fit their lines in the log, and the noted section index is
the one that the final containers give.
-/

open LogLine

/-- Read the section headers of further objects, and none of their symbols. -/
def sectionPass (link : Link) (files : List ElfFile) : Link :=
  files.foldl (fun link file => (readSections link file).1) link

/--
The definitions of objects whose section headers start at a position of the
arena, each with the header of its section.
-/
def sectionSymbols (head : Nat) : List ElfFile → List (Nat × Sym)
  | [] => []
  | file :: rest =>
      (file.definedSymbols.map fun sym => (head + sym.stShndx, sym)) ++
        sectionSymbols (head + file.sections.length) rest

/-- Every definition lies in an inserted section of its own object. -/
def SymbolsInserted (containers : List SectionContainer) (head : Nat) :
    List ElfFile → Prop
  | [] => True
  | file :: rest =>
      (∀ sym ∈ file.definedSymbols,
          sym.stShndx < file.sections.length ∧
            head + sym.stShndx ∈ sectionPointers containers) ∧
        SymbolsInserted containers (head + file.sections.length) rest

/-- The test of all definitions is decidable. -/
def decideSymbolsInserted
    (containers : List SectionContainer) (head : Nat) :
    (files : List ElfFile) →
      Decidable (SymbolsInserted containers head files)
  | [] => .isTrue trivial
  | file :: rest =>
      have :=
        decideSymbolsInserted containers (head + file.sections.length) rest
      inferInstanceAs (Decidable (_ ∧ _))

instance
    (containers : List SectionContainer) (head : Nat)
    (files : List ElfFile) :
    Decidable (SymbolsInserted containers head files) :=
  decideSymbolsInserted containers head files

/-- The section index that `get_section_index_by_name` gives to a header. -/
def sectionIndexOf (link : Link) (p : Nat) : Nat :=
  (link.headers[p]?).elim 0 fun shdr =>
    sectionIndexByName link.containers shdr.name p

/-- Where the headers of the object begin that has a definition. -/
def headOf (entry : Nat × Sym) : Nat :=
  entry.1 - entry.2.stShndx

/-- What is kept of a definition. -/
def symbolCell (link : Link) (entry : Nat × Sym) : SymbolChain where
  name := entry.2.name
  sym := entry.2
  stShndx := sectionIndexOf link entry.1
  schain := sectionChainHead link.containers (headOf entry)

/-- The lines of the symbol pass about a definition fit. -/
def SymbolLogged (link : Link) (entry : Nat × Sym) : Prop :=
  IsLogged (exportChainLine entry.2.name) ∧
    IsLogged (symbolTableLine entry.2.name (sectionIndexOf link entry.1))

instance (link : Link) (entry : Nat × Sym) :
    Decidable (SymbolLogged link entry) :=
  inferInstanceAs (Decidable (_ ∧ _))

/-- The symbol chains of all objects, one after the other. -/
def Link.symbolCells (link : Link) : List SymbolChain :=
  link.objects.flatMap ObjectChain.symbolChain

/-! ## One object -/

/-- A definition has an index, and its lines fit. -/
def Joins (link : Link) (entry : Nat × Sym) : Prop :=
  sectionIndexOf link entry.1 ≠ 0 ∧ SymbolLogged link entry

instance (link : Link) (entry : Nat × Sym) : Decidable (Joins link entry) :=
  inferInstanceAs (Decidable (_ ∧ _))

/-- The symbol callback joins a definition that has an index. -/
theorem onSymbol_of_defined
    {link : Link} {oc : ObjectChain} {sym : Sym} (defined : sym.Defined) :
    onSymbol link oc sym =
      if Joins link (oc.sectionHead + sym.stShndx, sym) then
        some
          { oc with
            symbolChain :=
              oc.symbolChain ++
                [symbolCell link (oc.sectionHead + sym.stShndx, sym)] }
      else
        none := by
  obtain ⟨visible, ⟨notUndef, notAbs, notCommon⟩, notSection⟩ := defined
  have isHead : headOf (oc.sectionHead + sym.stShndx, sym) = oc.sectionHead :=
    Nat.add_sub_cancel _ _
  unfold onSymbol
  rw [if_neg (not_not.mpr visible), if_neg notUndef, if_neg notAbs,
    if_neg notCommon, if_neg notSection]
  obtain noHeader | ⟨shdr, isHeader⟩ :=
    Option.eq_none_or_eq_some (link.headers[oc.sectionHead + sym.stShndx]?)
  · have noIndex : sectionIndexOf link (oc.sectionHead + sym.stShndx) = 0 := by
      rw [sectionIndexOf, noHeader]
      rfl
    rw [noHeader, Option.bind_none, if_neg fun joins => joins.1 noIndex]
  · have isIndex :
        sectionIndexOf link (oc.sectionHead + sym.stShndx) =
          sectionIndexByName link.containers shdr.name
            (oc.sectionHead + sym.stShndx) := by
      rw [sectionIndexOf, isHeader]
      rfl
    rw [isHeader, Option.bind_some]
    dsimp only
    refine if_congr ?_ ?_ rfl
    · unfold Joins SymbolLogged
      rw [isIndex]
      exact and_left_comm
    · unfold symbolCell
      rw [isHead, isIndex]

/-- It skips every other symbol. -/
theorem onSymbol_of_not_defined
    {link : Link} {oc : ObjectChain} {sym : Sym}
    (notDefined : ¬ sym.Defined) :
    onSymbol link oc sym = some oc := by
  unfold onSymbol
  split_ifs with hidden isUndef isAbs isCommon isSection
  · rfl
  · rfl
  · rfl
  · rfl
  · rfl
  · exact
      absurd ⟨not_not.mp hidden, ⟨isUndef, isAbs, isCommon⟩, isSection⟩
        notDefined

/-- The part of a symbol table that its object defines. -/
def definedOf (symbols : List Sym) : List Sym :=
  symbols.filter Sym.Defined

/-- Every definition of a symbol table joins the chain. -/
def AllJoin (link : Link) (head : Nat) (symbols : List Sym) : Prop :=
  ∀ sym ∈ definedOf symbols, Joins link (head + sym.stShndx, sym)

instance (link : Link) (head : Nat) (symbols : List Sym) :
    Decidable (AllJoin link head symbols) :=
  inferInstanceAs (Decidable (∀ sym ∈ _, _))

/-- All definitions of a symbol table are joined if all can be. -/
theorem foldlM_onSymbol_eq
    (link : Link) (oc : ObjectChain) (symbols : List Sym) :
    symbols.foldlM (onSymbol link) oc =
      if AllJoin link oc.sectionHead symbols then
        some
          { oc with
            symbolChain :=
              oc.symbolChain ++
                (definedOf symbols).map fun sym =>
                  symbolCell link (oc.sectionHead + sym.stShndx, sym) }
      else
        none := by
  induction symbols generalizing oc with
  | nil => simp [AllJoin, definedOf]
  | cons sym rest inductionHypothesis =>
      rw [List.foldlM_cons]
      by_cases defined : sym.Defined
      · have isKept : definedOf (sym :: rest) = sym :: definedOf rest :=
          List.filter_cons_of_pos (decide_eq_true defined)
        rw [onSymbol_of_defined defined]
        by_cases joins : Joins link (oc.sectionHead + sym.stShndx, sym)
        · have sameTest :
              AllJoin link oc.sectionHead (sym :: rest) ↔
                AllJoin link oc.sectionHead rest := by
            unfold AllJoin
            rw [isKept, List.forall_mem_cons]
            exact and_iff_right joins
          rw [if_pos joins, Option.bind_eq_bind, Option.bind_some,
            inductionHypothesis]
          simp only [sameTest, isKept, List.map_cons, List.append_assoc,
            List.singleton_append]
        · rw [if_neg joins, if_neg]
          · rfl
          · unfold AllJoin
            rw [isKept]
            exact fun all => joins (all sym List.mem_cons_self)
      · have isSkipped : definedOf (sym :: rest) = definedOf rest :=
          List.filter_cons_of_neg (by simpa using defined)
        have sameTest :
            AllJoin link oc.sectionHead (sym :: rest) ↔
              AllJoin link oc.sectionHead rest := by
          unfold AllJoin
          rw [isSkipped]
        rw [onSymbol_of_not_defined defined, Option.bind_eq_bind,
          Option.bind_some, inductionHypothesis]
        simp only [sameTest, isSkipped]

/-- The object keeps the section head that its first header gave it. -/
theorem runThroughShdr_sectionHead
    {link : Link} {oc : ObjectChain} {p : Nat} {sections : List Shdr}
    {walked : ObjectChain}
    (run : (runThroughShdr link (some oc) p sections).2 = some walked) :
    walked.sectionHead = oc.sectionHead := by
  induction sections generalizing link oc p with
  | nil =>
      cases run
      rfl
  | cons shdr rest inductionHypothesis =>
      have stepped :
          ∃ next, (onSection link (some oc) p shdr).2 = some next ∧
            next.sectionHead = oc.sectionHead := by
        unfold onSection appendReloc
        dsimp only
        split_ifs
        · exact ⟨_, rfl, rfl⟩
        · exact ⟨_, rfl, rfl⟩
        · cases relocSec shdr.name with
          | none => exact ⟨_, rfl, rfl⟩
          | some sec =>
              cases oc.relocSectionHead with
              | none => exact ⟨_, rfl, rfl⟩
              | some rel => exact ⟨_, rfl, rfl⟩
        · exact ⟨_, rfl, rfl⟩
        · exact ⟨_, rfl, rfl⟩
        · exact ⟨_, rfl, rfl⟩
      obtain ⟨next, isNext, sameHead⟩ := stepped
      unfold runThroughShdr at run
      dsimp only at run
      rw [isNext] at run
      exact (inductionHypothesis run).trans sameHead

/-- The section head of an object is where its headers begin. -/
theorem readSections_sectionHead
    {link : Link} {file : ElfFile} {oc : ObjectChain}
    (walked : (readSections link file).2 = some oc) :
    oc.sectionHead = link.headers.length := by
  unfold readSections at walked
  cases isSections : file.sections with
  | nil =>
      rw [isSections] at walked
      cases walked
  | cons null rest =>
      rw [isSections] at walked
      exact runThroughShdr_sectionHead walked

/-- Reading one object succeeds if all its definitions join the chain. -/
theorem readObject_eq (link : Link) (file : ElfFile) :
    ∃ oc : ObjectChain,
      oc.symbolChain =
          (file.definedSymbols.map fun sym =>
            symbolCell (readSections link file).1
              (link.headers.length + sym.stShndx, sym)) ∧
        readObject link file =
          if ContainersLogged (readSections link file).1.containers ∧
              AllJoin (readSections link file).1 link.headers.length
                file.symbols then
            some
              { (readSections link file).1 with
                objects := (readSections link file).1.objects ++ [oc] }
          else
            none := by
  obtain ⟨walked, isWalked, noSymbols, table⟩ :=
    readSections_symbolTable link file
  have isHead := readSections_sectionHead isWalked
  have run :=
    foldlM_onSymbol_eq (readSections link file).1 walked file.symbols
  rw [isHead, noSymbols, List.nil_append] at run
  refine
    ⟨{ walked with
        sectionHead := link.headers.length
        symbolChain :=
          (definedOf file.symbols).map fun sym =>
            symbolCell (readSections link file).1
              (link.headers.length + sym.stShndx, sym) }, rfl, ?_⟩
  unfold readObject
  dsimp only
  rw [isWalked, Option.bind_some, table, run, ite_and]
  split_ifs <;> rfl

/-! ## Sections without symbols -/

/-- A section callback does not look at the objects. -/
theorem onSection_objects
    (link : Link) (objects : List ObjectChain) (oc : Option ObjectChain)
    (p : Nat) (shdr : Shdr) :
    onSection { link with objects := objects } oc p shdr =
      ({ (onSection link oc p shdr).1 with objects := objects },
        (onSection link oc p shdr).2) := by
  cases oc with
  | none => rfl
  | some oc =>
      unfold onSection appendReloc insertNote Link.insert
      dsimp only
      split_ifs
      · rfl
      · rfl
      · cases relocSec shdr.name with
        | none => rfl
        | some sec =>
            cases oc.relocSectionHead with
            | none => rfl
            | some rel => rfl
      · rfl
      · rfl
      · rfl
      · rfl
      · rfl

/-- Nor does the walk over the headers of an object. -/
theorem runThroughShdr_objects
    (link : Link) (objects : List ObjectChain) (oc : Option ObjectChain)
    (p : Nat) (sections : List Shdr) :
    runThroughShdr { link with objects := objects } oc p sections =
      ({ (runThroughShdr link oc p sections).1 with objects := objects },
        (runThroughShdr link oc p sections).2) := by
  induction sections generalizing link oc p with
  | nil => rfl
  | cons shdr rest inductionHypothesis =>
      unfold runThroughShdr
      rw [onSection_objects]
      exact inductionHypothesis _ _ _

/-- Nor does the section pass over further objects. -/
theorem sectionPass_objects
    (link : Link) (objects : List ObjectChain) (files : List ElfFile) :
    sectionPass { link with objects := objects } files =
      { sectionPass link files with objects := objects } := by
  induction files generalizing link with
  | nil => rfl
  | cons file rest inductionHypothesis =>
      have first :
          (readSections { link with objects := objects } file).1 =
            { (readSections link file).1 with objects := objects } :=
        congrArg Prod.fst
          (runThroughShdr_objects
            { link with headers := link.headers ++ file.sections } objects
            none link.headers.length file.sections)
      calc
        sectionPass { link with objects := objects } (file :: rest)
            = sectionPass
                (readSections { link with objects := objects } file).1
                rest := rfl
        _ = sectionPass
              { (readSections link file).1 with objects := objects }
              rest := by rw [first]
        _ = { sectionPass link (file :: rest) with objects := objects } :=
              inductionHypothesis _

/-- The section pass leaves every filed header where it is. -/
theorem Link.Filed.sectionPass
    {link : Link} (filed : link.Filed) (files : List ElfFile) :
    (sectionPass link files).Filed ∧
      link.headers <+: (Elf.sectionPass link files).headers ∧
        FiledMore link.headers.length link.containers
          (Elf.sectionPass link files).containers := by
  induction files generalizing link with
  | nil => exact ⟨filed, List.prefix_refl _, .refl _ _⟩
  | cons file rest inductionHypothesis =>
      obtain ⟨walked, more⟩ := filed.readSections file
      obtain ⟨last, longer, evenMore⟩ := inductionHypothesis walked
      have atLeast : link.headers <+: (Elf.readSections link file).1.headers := by
        rw [readSections_headers]
        exact List.prefix_append _ _
      exact
        ⟨last, atLeast.trans longer,
          more.trans evenMore atLeast.length_le⟩

/-! ## Indices that further objects do not change -/

/-- What a header is filed under now and after further section passes. -/
theorem Link.Filed.sectionIndexOf_sectionPass
    {link : Link} (filed : link.Filed) {files : List ElfFile}
    (atMost : AtMost255 (Elf.sectionPass link files).containers)
    {p : Nat} (inArena : p < link.headers.length) :
    sectionIndexOf link p = sectionIndexOf (Elf.sectionPass link files) p ∧
      (sectionIndexOf link p ≠ 0 ↔
        p ∈ sectionPointers (Elf.sectionPass link files).containers) := by
  obtain ⟨last, longer, more⟩ := filed.sectionPass files
  have isHeader := List.getElem?_eq_getElem inArena
  have stillHeader :
      (Elf.sectionPass link files).headers[p]? = some link.headers[p] := by
    obtain ⟨later, isAll⟩ := longer
    rw [← isAll, List.getElem?_append_left inArena]
    exact isHeader
  unfold sectionIndexOf
  rw [isHeader, stillHeader]
  dsimp only [Option.elim_some]
  by_cases isFiled : p ∈ sectionPointers link.containers
  · obtain ⟨i, j, isAt⟩ := mem_sectionPointers_iff.mp isFiled
    have stillAt := more.kept i j p isAt
    have boundI : i < 256 := by
      obtain ⟨schain, isChain, _⟩ := Option.map_eq_some_iff.mp stillAt
      obtain ⟨sc, atI, _⟩ := Option.bind_eq_some_iff.mp isChain
      have inContainers := (List.getElem?_eq_some_iff.mp atI).1
      have few := atMost.1
      omega
    have notFirst := Filed.container_pos filed (Nat.le_refl _) isAt
    rw [Filed.sectionIndexByName_eq filed isAt isHeader,
      Filed.sectionIndexByName_eq last stillAt stillHeader]
    exact
      ⟨rfl,
        iff_of_true (sectionIndex_ne_zero notFirst boundI)
          (mem_sectionPointers_iff.mpr ⟨i, j, stillAt⟩)⟩
  · have stillNot :
        p ∉ sectionPointers (Elf.sectionPass link files).containers := by
      intro isLater
      obtain ⟨i, j, isAt⟩ := mem_sectionPointers_iff.mp isLater
      exact
        isFiled
          (mem_sectionPointers_iff.mpr ⟨i, j, more.old i j p isAt inArena⟩)
    rw [sectionIndexByName_eq_zero isFiled,
      sectionIndexByName_eq_zero stillNot]
    exact ⟨rfl, iff_of_false (fun notZero => notZero rfl) stillNot⟩

/-- What is kept of a definition does not change when more objects come. -/
theorem Link.Filed.symbolCell_sectionPass
    {link : Link} (filed : link.Filed) {files : List ElfFile}
    (atMost : AtMost255 (Elf.sectionPass link files).containers)
    {head : Nat} {sym : Sym}
    (isFiled :
      head + sym.stShndx ∈
        sectionPointers (Elf.sectionPass link files).containers)
    (inArena : head + sym.stShndx < link.headers.length) :
    symbolCell link (head + sym.stShndx, sym) =
      symbolCell (Elf.sectionPass link files) (head + sym.stShndx, sym) := by
  obtain ⟨_, _, more⟩ := filed.sectionPass files
  have isHead : headOf (head + sym.stShndx, sym) = head :=
    Nat.add_sub_cancel _ _
  have wasFiled : head + sym.stShndx ∈ sectionPointers link.containers := by
    obtain ⟨i, j, isAt⟩ := mem_sectionPointers_iff.mp isFiled
    exact mem_sectionPointers_iff.mpr ⟨i, j, more.old i j _ isAt inArena⟩
  have below :
      ∀ q ∈ sectionPointers link.containers, q < link.headers.length := by
    intro q isSection
    obtain ⟨schain, isElement, rfl⟩ := List.mem_map.mp isSection
    obtain ⟨sc, isContainer, inChain⟩ := List.mem_flatMap.mp isElement
    exact (filed.arranged sc isContainer).2.2 schain inChain
  unfold symbolCell
  rw [(filed.sectionIndexOf_sectionPass atMost inArena).1, isHead,
    more.sectionChainHead_eq below wasFiled (Nat.le_add_right head _)]

/-- Where the arena ends no header has an index. -/
theorem sectionIndexOf_of_length_le
    {link : Link} {p : Nat} (isBeyond : link.headers.length ≤ p) :
    sectionIndexOf link p = 0 := by
  unfold sectionIndexOf
  rw [List.getElem?_eq_none isBeyond]
  rfl

/-- The lines about the definitions of the objects fit. -/
def SymbolsLogged (link : Link) (head : Nat) (files : List ElfFile) : Prop :=
  ∀ entry ∈ sectionSymbols head files, SymbolLogged link entry

instance (link : Link) (head : Nat) (files : List ElfFile) :
    Decidable (SymbolsLogged link head files) :=
  inferInstanceAs (Decidable (∀ entry ∈ _, _))

/--
The definitions of an object join its chain if they are in inserted sections of
its own and their lines fit.
-/
theorem Link.Filed.allJoin_iff
    {link : Link} (filed : link.Filed) {file : ElfFile}
    {rest : List ElfFile}
    (atMost : AtMost255 (Elf.sectionPass link (file :: rest)).containers) :
    AllJoin (Elf.readSections link file).1 link.headers.length file.symbols ↔
      ∀ sym ∈ file.definedSymbols,
        (sym.stShndx < file.sections.length ∧
          link.headers.length + sym.stShndx ∈
            sectionPointers
              (Elf.sectionPass link (file :: rest)).containers) ∧
          SymbolLogged (Elf.sectionPass link (file :: rest))
            (link.headers.length + sym.stShndx, sym) := by
  have length :
      (Elf.readSections link file).1.headers.length =
        link.headers.length + file.sections.length := by
    rw [readSections_headers, List.length_append]
  apply forall₂_congr
  intro sym _
  by_cases isOwn : sym.stShndx < file.sections.length
  · have inArena :
        link.headers.length + sym.stShndx <
          (Elf.readSections link file).1.headers.length := by
      omega
    obtain ⟨sameIndex, hasIndex⟩ :=
      (filed.readSections file).1.sectionIndexOf_sectionPass atMost inArena
    have sameLines :
        SymbolLogged (Elf.readSections link file).1
            (link.headers.length + sym.stShndx, sym) ↔
          SymbolLogged (Elf.sectionPass link (file :: rest))
            (link.headers.length + sym.stShndx, sym) := by
      unfold SymbolLogged
      rw [sameIndex]
      rfl
    exact and_congr (hasIndex.trans (and_iff_right isOwn).symm) sameLines
  · have noIndex :
        sectionIndexOf (Elf.readSections link file).1
          (link.headers.length + sym.stShndx) = 0 :=
      sectionIndexOf_of_length_le (by omega)
    exact
      iff_of_false (fun joins => joins.1 noIndex) fun both => isOwn both.1.1

/-- The definitions of several objects are those of the first and the rest. -/
theorem symbolsLogged_cons_iff
    (link : Link) (head : Nat) (file : ElfFile) (rest : List ElfFile) :
    SymbolsLogged link head (file :: rest) ↔
      (∀ sym ∈ file.definedSymbols,
          SymbolLogged link (head + sym.stShndx, sym)) ∧
        SymbolsLogged link (head + file.sections.length) rest := by
  unfold SymbolsLogged
  rw [sectionSymbols, List.forall_mem_append, List.forall_mem_map]

/-! ## All objects -/

/-- The section pass over all objects, once the first one was read. -/
theorem sectionPass_readSections
    (link : Link) (file : ElfFile) (rest : List ElfFile)
    (objects : List ObjectChain) :
    sectionPass { (readSections link file).1 with objects := objects } rest =
      { sectionPass link (file :: rest) with objects := objects } :=
  sectionPass_objects (readSections link file).1 objects rest

/--
Objects that are read have their definitions in inserted sections, and all of
their names fit.
-/
theorem Link.Filed.readable_of_readObjects
    {link read : Link} (filed : link.Filed) {files : List ElfFile}
    (atMost : AtMost255 (Elf.sectionPass link files).containers)
    (logged : ContainersLogged link.containers)
    (reading : readObjects link files = some read) :
    SymbolsInserted (Elf.sectionPass link files).containers
        link.headers.length files ∧
      ContainersLogged (Elf.sectionPass link files).containers ∧
        SymbolsLogged (Elf.sectionPass link files) link.headers.length
          files := by
  induction files generalizing link with
  | nil => exact ⟨trivial, logged, List.forall_mem_nil _⟩
  | cons file rest inductionHypothesis =>
      obtain ⟨oc, _, isRead⟩ := readObject_eq link file
      rw [readObjects, List.foldlM_cons, isRead] at reading
      obtain ⟨next, isNext, later⟩ := Option.bind_eq_some_iff.mp reading
      rw [Option.ite_none_right_eq_some] at isNext
      obtain ⟨⟨walkedLogged, joined⟩, isNext⟩ := isNext
      cases isNext
      have own := (filed.allJoin_iff atMost).mp joined
      have same :=
        sectionPass_readSections link file rest
          ((Elf.readSections link file).1.objects ++ [oc])
      have length :
          (Elf.readSections link file).1.headers.length =
            link.headers.length + file.sections.length := by
        rw [readSections_headers, List.length_append]
      let walked := (Elf.readSections link file).1
      let next := { walked with objects := walked.objects ++ [oc] }
      have nextFiled : next.Filed := (filed.readSections file).1
      obtain ⟨inserted, containers, symbols⟩ :=
        inductionHypothesis nextFiled (by rw [same]; exact atMost)
          walkedLogged later
      rw [same] at inserted containers symbols
      dsimp only at inserted symbols
      rw [length] at inserted symbols
      refine
        ⟨⟨fun sym isDefined => (own sym isDefined).1, inserted⟩, containers,
          ?_⟩
      rw [symbolsLogged_cons_iff]
      exact ⟨fun sym isDefined => (own sym isDefined).2, symbols⟩

/-- Otherwise it gives every definition the index of its section. -/
theorem Link.Filed.readObjects_eq_some
    {link : Link} (filed : link.Filed) {files : List ElfFile}
    (atMost : AtMost255 (Elf.sectionPass link files).containers)
    (inserted :
      SymbolsInserted (Elf.sectionPass link files).containers
        link.headers.length files)
    (containers : ContainersLogged (Elf.sectionPass link files).containers)
    (symbols :
      SymbolsLogged (Elf.sectionPass link files) link.headers.length files) :
    ∃ objects : List ObjectChain,
      readObjects link files =
          some { Elf.sectionPass link files with objects := objects } ∧
        objects.flatMap ObjectChain.symbolChain =
          link.symbolCells ++
            (sectionSymbols link.headers.length files).map
              (symbolCell (Elf.sectionPass link files)) := by
  induction files generalizing link with
  | nil => exact ⟨link.objects, rfl, (List.append_nil _).symm⟩
  | cons file rest inductionHypothesis =>
      obtain ⟨oc, cells, isRead⟩ := readObject_eq link file
      obtain ⟨walkedFiled, _⟩ := filed.readSections file
      obtain ⟨_, _, more⟩ := walkedFiled.sectionPass rest
      obtain ⟨ownLogged, restLogged⟩ :=
        (symbolsLogged_cons_iff _ _ _ _).mp symbols
      have joined :=
        (filed.allJoin_iff atMost).mpr fun sym isDefined =>
          ⟨inserted.1 sym isDefined, ownLogged sym isDefined⟩
      rw [if_pos ⟨more.logged containers, joined⟩] at isRead
      let walked := (Elf.readSections link file).1
      let next := { walked with objects := walked.objects ++ [oc] }
      have same :
          Elf.sectionPass next rest =
            { Elf.sectionPass link (file :: rest) with
              objects := walked.objects ++ [oc] } :=
        sectionPass_readSections link file rest _
      have length :
          walked.headers.length =
            link.headers.length + file.sections.length := by
        rw [← List.length_append]
        exact congrArg List.length (readSections_headers link file)
      have nextLength : next.headers.length = walked.headers.length := rfl
      have nextFiled : next.Filed := walkedFiled
      obtain ⟨objects, later, laterCells⟩ :=
        inductionHypothesis nextFiled (by rw [same]; exact atMost)
          (by rw [same, nextLength, length]; exact inserted.2)
          (by rw [same]; exact containers)
          (by rw [same, nextLength, length]; exact restLogged)
      refine ⟨objects, ?_, ?_⟩
      · rw [readObjects, List.foldlM_cons, isRead]
        rw [same] at later
        exact later
      · have objectsSame : walked.objects = link.objects :=
          (runThroughShdr_sameArena
            { link with headers := link.headers ++ file.sections } none
            link.headers.length file.sections).objects
        have nextCells :
            next.symbolCells =
              link.symbolCells ++
                file.definedSymbols.map fun sym =>
                  symbolCell (Elf.sectionPass link (file :: rest))
                    (link.headers.length + sym.stShndx, sym) := by
          have ownCells :
              oc.symbolChain =
                file.definedSymbols.map fun sym =>
                  symbolCell (Elf.sectionPass link (file :: rest))
                    (link.headers.length + sym.stShndx, sym) := by
            rw [cells]
            apply List.map_congr_left
            intro sym isDefined
            exact
              walkedFiled.symbolCell_sectionPass atMost
                (inserted.1 sym isDefined).2
                (Nat.lt_of_lt_of_eq
                  (Nat.add_lt_add_left (inserted.1 sym isDefined).1 _)
                  length.symm)
          rw [← ownCells]
          unfold Link.symbolCells
          rw [List.flatMap_append, objectsSame]
          simp
        have sameCell :
            symbolCell (Elf.sectionPass next rest) =
              symbolCell (Elf.sectionPass link (file :: rest)) := by
          rw [same]
          rfl
        rw [laterCells, nextCells, sameCell, nextLength, length,
          sectionSymbols, List.map_append, List.map_map, List.append_assoc]
        rfl

end BinTools.Elf
