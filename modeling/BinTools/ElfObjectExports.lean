import BinTools.ElfExport
import BinTools.ElfInputSymbols
import BinTools.ElfResolve
import BinTools.GnuHashSingle

namespace BinTools.Elf

/-!
# The exports of the input objects

Every symbol that a section of an object defines is registered, local, global
and weak ones alike, in command-line order.  Looking a name up answers with the
first symbol registered under it whose chain slot holds its hash, so the
binding of a definition plays no part in which one is chosen.  The pass comes to
its end when every symbol fits the line it is logged with.
-/

open LogLine

/-- The symbols of all objects with their values, in the order they go in. -/
def definitions (link : Link) : Option (List Definition) :=
  (link.objects.mapM fun (oc : ObjectChain) =>
    oc.symbolChain.mapM (definition link)).map List.flatten

/-- What is registered of a definition. -/
def Definition.toExport (entry : Definition) : Export where
  name := entry.name
  shndx := entry.shndx
  value := entry.value

/-- Needed libraries and exports stay within the first chunks. -/
def TablesFit (dynlib : List CString) (files : List ElfFile) : Prop :=
  (definedSymbols files).length + 1 < defaultNum ∧
    1 + ((neededLibraries dynlib).map fun name => name.length + 1).sum +
        ((definedSymbols files).map fun sym => sym.name.length + 1).sum ≤
      defaultNum

instance (dynlib : List CString) (files : List ElfFile) :
    Decidable (TablesFit dynlib files) :=
  inferInstanceAs (Decidable (_ ∧ _))

/-- The linker with its tables after the exports. -/
structure LinkExports where
  link : Link
  defs : List Definition
  dynamic : Dynamic

/-- Read the objects, lay them out and register their symbols. -/
def linkExports
    (interp : Option CString) (files : List ElfFile)
    (dynlib : List CString) : Option LinkExports :=
  (readObjects (Link.init interp) files).bind fun read =>
    let link := layOut false read
    (definitions link).bind fun defs =>
      (addExports link dynlib).map fun d =>
        { link := link, defs := defs, dynamic := d }

/-! ## One list of exports -/

/-- Computing all arguments first and then folding gives the same result. -/
theorem foldlM_bind_eq
    {Item Argument State : Type}
    (argument : Item → Option Argument)
    (step : State → Argument → Option State)
    (state : State) (items : List Item) :
    items.foldlM (fun state item => (argument item).bind (step state)) state =
      (items.mapM argument).bind fun arguments =>
        arguments.foldlM step state := by
  induction items generalizing state with
  | nil => rfl
  | cons item rest inductionHypothesis =>
      rw [List.foldlM_cons, List.mapM_cons]
      cases argument item with
      | none => rfl
      | some value =>
          cases stepped : step state value with
          | none =>
              cases rest.mapM argument <;> simp [stepped]
          | some next =>
              simp only [Option.bind_some, stepped, Option.bind_eq_bind]
              rw [inductionHypothesis next]
              cases rest.mapM argument <;> simp [stepped]

/-- Folding over lists of lists is folding over their concatenation. -/
theorem foldlM_flatten
    {Argument State : Type}
    (step : State → Argument → Option State)
    (state : State) (lists : List (List Argument)) :
    lists.foldlM (fun state arguments => arguments.foldlM step state) state =
      lists.flatten.foldlM step state := by
  induction lists generalizing state with
  | nil => rfl
  | cons first rest inductionHypothesis =>
      simp [List.foldlM_append, inductionHypothesis]

/-- The objects' exports are the exports of their definitions in one list. -/
theorem foldlM_addExportSymbol (link : Link) (d : Dynamic) :
    link.objects.foldlM (addExportSymbol link) d =
      (definitions link).bind fun defs =>
        defs.foldlM Dynamic.exportSymbol d := by
  have perObject :
      addExportSymbol link = fun (d : Dynamic) (oc : ObjectChain) =>
        (oc.symbolChain.mapM (definition link)).bind fun defs =>
          defs.foldlM Dynamic.exportSymbol d := by
    funext d oc
    exact foldlM_bind_eq _ _ d oc.symbolChain
  rw [perObject, foldlM_bind_eq, definitions, Option.bind_map]
  congr 1
  funext lists
  exact foldlM_flatten _ d lists

/-- Symbols that are registered from a number on fit their lines. -/
def ExportsLogged (num : Nat) (defs : List Definition) : Prop :=
  ∀ entry ∈ defs.zipIdx num, IsLogged (exportLine entry.2 entry.1)

instance (num : Nat) (defs : List Definition) :
    Decidable (ExportsLogged num defs) :=
  inferInstanceAs (Decidable (∀ entry ∈ _, _))

/-- The first symbol fits its line, and so do the others. -/
theorem exportsLogged_cons_iff
    (num : Nat) (entry : Definition) (rest : List Definition) :
    ExportsLogged num (entry :: rest) ↔
      IsLogged (exportLine num entry) ∧ ExportsLogged (num + 1) rest := by
  unfold ExportsLogged
  rw [List.zipIdx_cons, List.forall_mem_cons]

/-! ## Definitions and symbols -/

/-- Results that agree with their arguments do so as lists. -/
theorem map_eq_of_mapM
    {Item Result Seen : Type}
    {compute : Item → Option Result} {ofResult : Result → Seen}
    {ofItem : Item → Seen}
    (agree : ∀ item result,
      compute item = some result → ofResult result = ofItem item)
    {items : List Item} {results : List Result}
    (computed : items.mapM compute = some results) :
    results.map ofResult = items.map ofItem := by
  induction items generalizing results with
  | nil =>
      cases computed
      rfl
  | cons item rest inductionHypothesis =>
      rw [List.mapM_cons] at computed
      obtain ⟨first, isFirst, computed⟩ := Option.bind_eq_some_iff.mp computed
      obtain ⟨later, isLater, isAll⟩ := Option.bind_eq_some_iff.mp computed
      cases isAll
      rw [List.map_cons, List.map_cons, agree item first isFirst,
        inductionHypothesis isLater]

/-- The definitions have the names and bindings of the symbols. -/
theorem definitions_symbols
    {link : Link} {defs : List Definition}
    (defined : definitions link = some defs) :
    (defs.map fun entry => (entry.name, entry.stBind)) =
      link.symbols.map fun sym => (sym.name, sym.stBind) := by
  obtain ⟨lists, computed, rfl⟩ := Option.map_eq_some_iff.mp defined
  have perSymbol :
      ∀ (cell : SymbolChain) (entry : Definition),
        definition link cell = some entry →
          (entry.name, entry.stBind) =
            (cell.symbol.name, cell.symbol.stBind) := by
    intro cell entry isEntry
    obtain ⟨section_, _, isEntry⟩ := Option.bind_eq_some_iff.mp isEntry
    obtain ⟨schain, _, rfl⟩ := Option.map_eq_some_iff.mp isEntry
    rfl
  have perObject :
      ∀ (oc : ObjectChain) (defs : List Definition),
        oc.symbolChain.mapM (definition link) = some defs →
          (defs.map fun entry => (entry.name, entry.stBind)) =
            oc.symbols.map fun sym => (sym.name, sym.stBind) := by
    intro oc defs computed
    rw [map_eq_of_mapM perSymbol computed, ObjectChain.symbols, List.map_map]
    rfl
  have perLink := map_eq_of_mapM perObject computed
  rw [List.map_flatten, perLink, Link.symbols, List.map_flatMap,
    List.flatMap_def]

/-! ## The tables with one bucket -/

/-- What registering leaves in the linker's own tables. -/
structure LinkRegistered (state : Exported) : Prop where
  registered : Registered 1 state
  single :
    GnuHashTable.SingleBucket state.names state.dynamic.gnuHash

/-- The tables before the first library. -/
theorem linkRegistered_addDynamic (link : Link) :
    LinkRegistered { dynamic := addDynamic link, symbols := [] } where
  registered :=
    registered_init link.baseAddress link.pltAddress 1 2 5 1
      (by decide) (by decide)
  single := GnuHashTable.singleBucket_zeroed 2 5 _

/-- A needed library only adds its string. -/
theorem LinkRegistered.addDtNeeded
    {state : Exported} {name : CString}
    (registered : LinkRegistered state)
    (room : state.dynamic.dynstr.size + name.length + 1 ≤ defaultNum) :
    ∃ d,
      state.dynamic.addDtNeeded name = some d ∧
        LinkRegistered { state with dynamic := d } ∧
        d.dynstr.size = state.dynamic.dynstr.size + name.length + 1 := by
  have added :=
    congrArg
      (Option.map fun (result : Dynamic × Nat) =>
        { result.1 with neededNum := result.1.neededNum + 1 })
      (Dynamic.addDynstrEntry_eq (Nat.le_of_succ_le room))
  refine ⟨_, added, ⟨?_, registered.single⟩, rfl⟩
  have before := registered.registered
  have size := before.dynstrSize
  exact
    { before with
      dynstrSize := by simp [size, CString.length, Nat.add_assoc]
      dynstrFits := room
      stored := by
        intro position symbol present
        obtain ⟨strOffset, atIndex, stored⟩ :=
          before.stored position symbol present
        refine ⟨strOffset, atIndex, ?_⟩
        dsimp only
        rw [List.append_assoc]
        exact stored.append _ }

/-- So do all needed libraries. -/
theorem LinkRegistered.addDtNeededLibraries
    {state : Exported} {libraries : List CString}
    (registered : LinkRegistered state)
    (room :
      state.dynamic.dynstr.size +
        (libraries.map fun name => name.length + 1).sum ≤ defaultNum) :
    ∃ d,
      libraries.foldlM Dynamic.addDtNeeded state.dynamic = some d ∧
        LinkRegistered { state with dynamic := d } ∧
        d.dynstr.size =
          state.dynamic.dynstr.size +
            (libraries.map fun name => name.length + 1).sum := by
  induction libraries generalizing state with
  | nil => exact ⟨state.dynamic, rfl, registered, rfl⟩
  | cons name rest inductionHypothesis =>
      rw [List.map_cons, List.sum_cons] at room ⊢
      obtain ⟨next, added, nextRegistered, size⟩ :=
        registered.addDtNeeded (by omega : _ + name.length + 1 ≤ _)
      obtain ⟨d, run, lastRegistered, lastSize⟩ :=
        inductionHypothesis nextRegistered (by dsimp only; omega)
      refine ⟨d, ?_, lastRegistered, ?_⟩
      · rw [List.foldlM_cons, added]
        exact run
      · dsimp only at lastSize
        omega

/-- Exporting one more symbol keeps the shape of the tables. -/
theorem LinkRegistered.add
    {state : Exported} {symbol : Export}
    (registered : LinkRegistered state)
    (room : Room state symbol) :
    ∃ next,
      state.add symbol = some next ∧
        LinkRegistered next ∧
        next.symbols = state.symbols ++ [symbol] ∧
        next.dynamic.dynstr.size =
          state.dynamic.dynstr.size + symbol.name.length + 1 := by
  obtain ⟨next, slot, added, nextRegistered, grown, size, header, lands,
    chain⟩ := registered.registered.add room
  have names : next.names = state.names ++ [symbol.name] := by
    simp [Exported.names, grown]
  have chainRoom :
      state.names.length < state.dynamic.gnuHash.chain.length := by
    have few := registered.registered.fewSymbols
    have slots := registered.registered.slots
    rw [state.length_names]
    omega
  refine ⟨next, added, ⟨nextRegistered, ?_⟩, grown, size⟩
  rw [names]
  exact registered.single.append chainRoom lands header chain

/--
So does exporting the definitions of a list, and it comes to its end when all of
them fit their lines.
-/
theorem LinkRegistered.exportAll
    {state : Exported} {defs : List Definition}
    (registered : LinkRegistered state)
    (fewSymbols : state.symbols.length + defs.length + 1 < defaultNum)
    (shortStrings :
      state.dynamic.dynstr.size +
        (defs.map fun entry => entry.name.length + 1).sum ≤ defaultNum) :
    ∃ last,
      defs.foldlM Dynamic.exportSymbol state.dynamic =
          (if ExportsLogged (state.symbols.length + 1) defs then
            some last
          else
            none) ∧
        LinkRegistered
          { dynamic := last
            symbols := state.symbols ++ defs.map Definition.toExport } := by
  induction defs generalizing state with
  | nil =>
      refine ⟨state.dynamic, ?_, by simpa using registered⟩
      simp [ExportsLogged]
  | cons entry rest inductionHypothesis =>
      rw [List.length_cons] at fewSymbols
      rw [List.map_cons, List.sum_cons] at shortStrings
      have room : Room state entry.toExport := by
        refine ⟨by omega, ?_⟩
        dsimp only [Definition.toExport]
        omega
      obtain ⟨next, added, nextRegistered, grown, size⟩ :=
        registered.add room
      obtain ⟨d, adds, isNext⟩ := Option.map_eq_some_iff.mp added
      obtain ⟨last, run, lastRegistered⟩ :=
        inductionHypothesis nextRegistered
          (by rw [grown, List.length_append, List.length_singleton]; omega)
          (by
            dsimp only [Definition.toExport] at size
            omega)
      have num : state.dynamic.dynsym.size = state.symbols.length + 1 :=
        registered.registered.dynsymNum
      have isDynamic : d = next.dynamic := by rw [← isNext]
      refine ⟨last, ?_, ?_⟩
      · rw [List.foldlM_cons, Dynamic.exportSymbol, num]
        have isAdded :
            state.dynamic.addExport entry.name entry.shndx entry.value =
              some next.dynamic := by
          rw [← isDynamic]
          exact adds
        rw [grown, List.length_append, List.length_singleton] at run
        rw [isAdded]
        by_cases isLogged :
            IsLogged (exportLine (state.symbols.length + 1) entry)
        · have sameTest :
              ExportsLogged (state.symbols.length + 1) (entry :: rest) ↔
                ExportsLogged (state.symbols.length + 1 + 1) rest := by
            rw [exportsLogged_cons_iff]
            exact and_iff_right isLogged
          rw [if_pos isLogged, Option.bind_eq_bind, Option.bind_some, run]
          simp only [sameTest]
        · rw [if_neg isLogged, if_neg fun all =>
            isLogged ((exportsLogged_cons_iff _ _ _).mp all).1]
          rfl
      · rw [grown, List.append_assoc] at lastRegistered
        exact lastRegistered

/--
After the exports the tables hold the definitions of all objects, which fit
their lines.
-/
theorem addExports_registered
    {link : Link} {defs : List Definition} {dynlib : List CString}
    {files : List ElfFile}
    (defined : definitions link = some defs)
    (symbols : link.symbols = definedSymbols files)
    (fit : TablesFit dynlib files) :
    ∃ d,
      addExports link dynlib =
          (if ExportsLogged 1 defs then some d else none) ∧
        LinkRegistered
          { dynamic := d, symbols := defs.map Definition.toExport } := by
  have agree := definitions_symbols defined
  rw [symbols] at agree
  have count : defs.length = (definedSymbols files).length := by
    simpa using congrArg List.length agree
  have lengths :
      (defs.map fun entry => entry.name.length + 1) =
        (definedSymbols files).map fun sym => sym.name.length + 1 := by
    simpa [Function.comp_def] using
      congrArg (List.map fun entry => entry.1.length + 1) agree
  obtain ⟨fewSymbols, shortStrings⟩ := fit
  rw [← count] at fewSymbols
  rw [← lengths] at shortStrings
  have emptySize : (addDynamic link).dynstr.size = 1 := rfl
  obtain ⟨named, librariesAdded, namedRegistered, size⟩ :=
    (linkRegistered_addDynamic link).addDtNeededLibraries
      (by dsimp only; omega :
        _ + ((neededLibraries dynlib).map _).sum ≤ _)
  obtain ⟨last, run, lastRegistered⟩ :=
    namedRegistered.exportAll (by simpa using fewSymbols)
      (by
        dsimp only at size ⊢
        omega)
  refine ⟨last, ?_, by simpa using lastRegistered⟩
  rw [addExports, Elf.addDtNeededLibraries, librariesAdded, Option.bind_some,
    foldlM_addExportSymbol, defined]
  simpa using run

/-! ## Which definition a lookup selects -/

/-- The names that the objects define, in command-line order. -/
def definedNames (files : List ElfFile) : List CString :=
  (definedSymbols files).map Sym.name

/--
After the exports the tables hold the symbols of the input files, which fit
their lines.
-/
theorem linkExports_registered
    {interp : Option CString} {files : List ElfFile}
    {dynlib : List CString} {exported : LinkExports}
    (links : linkExports interp files dynlib = some exported)
    (fit : TablesFit dynlib files) :
    (exported.defs.map fun entry => (entry.name, entry.stBind)) =
        ((definedSymbols files).map fun sym => (sym.name, sym.stBind)) ∧
      LinkRegistered
          { dynamic := exported.dynamic
            symbols := exported.defs.map Definition.toExport } ∧
        ExportsLogged 1 exported.defs := by
  obtain ⟨read, reading, links⟩ := Option.bind_eq_some_iff.mp links
  obtain ⟨defs, defined, links⟩ := Option.bind_eq_some_iff.mp links
  obtain ⟨d, added, rfl⟩ := Option.map_eq_some_iff.mp links
  have symbols : (layOut false read).symbols = definedSymbols files := by
    rw [layOut_symbols, readObjects_symbols reading]
    rfl
  obtain ⟨other, alsoAdded, registered⟩ :=
    addExports_registered defined symbols fit
  rw [added, eq_comm, Option.ite_none_right_eq_some] at alsoAdded
  obtain ⟨areLogged, same⟩ := alsoAdded
  cases same
  exact ⟨symbols ▸ definitions_symbols defined, registered, areLogged⟩

/--
A lookup selects the first symbol of the name that can be found, also after
imports.
-/
theorem findSym2_eq_iff_firstFindable
    {interp : Option CString} {files : List ElfFile}
    {dynlib : List CString} {exported : LinkExports} {later : Dynamic}
    (links : linkExports interp files dynlib = some exported)
    (fit : TablesFit dynlib files)
    (imported : Dynamic.Imported exported.dynamic later)
    (name : CString) {position : Nat}
    (inRange : position < exported.defs.length) :
    later.findSym2 name = some (position + 1) ↔
      GnuHashTable.FirstFindable (definedNames files) name position := by
  obtain ⟨agree, ⟨registered, single⟩, _⟩ := linkExports_registered links fit
  have names :
      Exported.names
          { dynamic := exported.dynamic
            symbols := exported.defs.map Definition.toExport } =
        definedNames files := by
    have firsts := congrArg (List.map Prod.fst) agree
    simpa [Exported.names, definedNames, Function.comp_def,
      Definition.toExport] using firsts
  have count : (definedNames files).length = exported.defs.length := by
    simp [← names, Exported.names]
  have named :
      ∀ position name,
        (definedNames files)[position]? = some name →
          later.nameAt (position + 1) = some name := by
    intro position name present
    rw [← names] at present
    exact registered.nameAt imported.toGrown present
  have few := registered.fewSymbols
  have slots := registered.slots
  have built := registered.built
  rw [names] at single built
  simp only [List.length_map] at few
  rw [Dynamic.findSym2, imported.gnuHash]
  exact
    single.findSym2_iff built registered.powerOfTwo (by omega) named
      (by omega)

/-- The definition that a lookup of the name selects is a global one. -/
def SelectsGlobal (exported : LinkExports) (name : CString) : Prop :=
  ∃ index ∈ exported.dynamic.findSym2 name,
    index ≠ 0 ∧
      ∃ entry ∈ exported.defs[index - 1]?, entry.stBind = stbGlobal

instance (exported : LinkExports) (name : CString) :
    Decidable (SelectsGlobal exported name) :=
  inferInstanceAs (Decidable (∃ index ∈ _, _))

/-- The first symbol of the name that can be found is a global one. -/
def FirstIsGlobal (files : List ElfFile) (name : CString) : Prop :=
  ∃ position < (definedSymbols files).length,
    GnuHashTable.FirstFindable (definedNames files) name position ∧
      ∃ sym ∈ (definedSymbols files)[position]?, sym.stBind = stbGlobal

instance (files : List ElfFile) (name : CString) :
    Decidable (FirstIsGlobal files name) :=
  inferInstanceAs (Decidable (∃ position < _, _))

/-- An object whose `.text` defines one function with the given binding. -/
def oneFunction (name : String) (stBind stValue : Nat) : ElfFile :=
  .ofHeaders
    [sectionHeader ".text" shtProgbits 16,
      { sectionHeader ".symtab" shtSymtab 48 with
        symAt := fun
          | 0 => default
          | _ =>
              { name := .ofString name
                stBind := stBind
                stType := sttFunc
                stShndx := 1
                stValue := stValue } }]

/-- The linker after the exports of objects that can be linked. -/
def exportsOf (files : List ElfFile) : LinkExports :=
  (linkExports none files []).getD
    { link := Link.init none
      defs := []
      dynamic := addDynamic (Link.init none) }

/-- Objects that can be linked are linked to `exportsOf`. -/
theorem linkExports_eq_exportsOf
    {files : List ElfFile}
    (links : (linkExports none files []).isSome) :
    linkExports none files [] = some (exportsOf files) := by
  obtain ⟨exported, isExported⟩ := Option.isSome_iff_exists.mp links
  simp [exportsOf, isExported]

end BinTools.Elf
