import BinTools.CoffImportLayout

namespace BinTools.Coff

/-!
# The size of the import data

`import_directory_len` is counted import by import while relocations are
resolved.  It is an `int`, so it counts correctly as long as the import data
stays below 2^31 bytes.
-/

/-- Filing under a DLL that is known or new changes the number of thunks. -/
theorem importDataSize_insert
    (dll name : CString) (imports : List (CString × List CString)) :
    importDataSize (Grouping.insert dll name imports) =
      importDataSize imports +
        ((if dll ∉ imports.map Prod.fst then
            (20 + 1 + dll.length) + 2 * 8
          else
            0) +
          (2 * 8 + 2 + name.length + 1)) := by
  induction imports with
  | nil =>
      simp [Grouping.insert, importDataSize, thunkCount, stringsSize,
        functionsSize]
      omega
  | cons group rest inductionHypothesis =>
      by_cases same : group.1 = dll
      · simp [Grouping.insert, same, importDataSize, thunkCount, stringsSize,
          functionsSize]
        omega
      · have other : ¬ dll = group.1 := fun reversed => same reversed.symm
        simp only [importDataSize, Grouping.insert, same, ↓reduceIte,
          List.length_cons, thunkCount_cons, stringsSize_cons, List.map_cons,
          List.mem_cons, other, false_or] at inductionHypothesis ⊢
        omega

/--
What is counted: the size of the import data, as far as a word can tell it from
nothing.
-/
structure Sized (config : Config) : Prop where
  isInt :
    -2 ^ 31 ≤ config.importDirectoryLen ∧ config.importDirectoryLen < 2 ^ 31
  len :
    importDataSize config.initialImport < 2 ^ 32 →
      config.importDirectoryLen =
        if config.initialImport = [] then
          0
        else
          (importDataSize config.initialImport : Int).bmod (2 ^ 32)

/-- Nothing is counted before the first import. -/
theorem sized_start
    {config : Config} (isEmpty : config.initialImport = [])
    (isZero : config.importDirectoryLen = 0) : Sized config where
  isInt := by rw [isZero]; decide
  len := fun _ => by rw [isEmpty, isZero, if_pos rfl]

/-- No import is counted as nothing. -/
theorem Sized.len_eq_zero
    {config : Config} (sized : Sized config)
    (isEmpty : config.initialImport = []) :
    config.importDirectoryLen = 0 := by
  rw [sized.len (by rw [isEmpty]; decide), if_pos isEmpty]

/-- Import data of a word's size is not counted as nothing. -/
theorem Sized.len_ne_zero
    {config : Config} (sized : Sized config)
    (notEmpty : config.initialImport ≠ [])
    (fits : importDataSize config.initialImport < 2 ^ 32) :
    config.importDirectoryLen ≠ 0 := by
  rw [sized.len fits, if_neg notEmpty]
  have hasTerminator : 20 ≤ importDataSize config.initialImport := by
    unfold importDataSize
    omega
  rw [Int.bmod_def]
  split_ifs <;> omega

/-- The chain walk answers from one entry, and gives it an address. -/
theorem touch_eq_some
    {pltOffset ever : U32} {name dll : CString}
    {chain touched : List DllSymbol}
    (isTouched :
      touch pltOffset name chain = some (touched, dll, ever)) :
    ∃ front entry back,
      chain = front ++ entry :: back ∧
        entry.name = name ∧ entry.dll = dll ∧ entry.ever = ever ∧
          touched =
            front ++
              { entry with
                ever := if entry.ever = 0 then pltOffset else entry.ever } ::
                back := by
  induction chain generalizing touched with
  | nil => cases isTouched
  | cons entry rest inductionHypothesis =>
      rw [touch] at isTouched
      split_ifs at isTouched with sameName unset
      · cases isTouched
        exact
          ⟨[], entry, rest, rfl, sameName, rfl, unset, by
            rw [if_pos unset, List.nil_append]⟩
      · cases isTouched
        exact
          ⟨[], entry, rest, rfl, sameName, rfl, rfl, by
            rw [if_neg unset, List.nil_append]⟩
      · obtain ⟨⟨later, found⟩, isLater, isSame⟩ :=
          Option.map_eq_some_iff.mp isTouched
        cases isSame
        obtain ⟨front, one, back, rfl, isName, isDll, isEver, rfl⟩ :=
          inductionHypothesis isLater
        exact ⟨entry :: front, one, back, rfl, isName, isDll, isEver, rfl⟩

/-- The relocation leaves the dictionary and the imports as they are. -/
structure SameImports (config later : Config) : Prop where
  dllHashTable : later.dllHashTable = config.dllHashTable
  pltOffset : later.pltOffset = config.pltOffset
  initialImport : later.initialImport = config.initialImport
  importDirectoryLen : later.importDirectoryLen = config.importDirectoryLen

/-- The relocation files the function of an entry that had no stub address. -/
structure FilesImport
    (config later : Config) (name : CString) (entry : DllSymbol) : Prop where
  sameName : entry.name = name
  unset : entry.ever = 0
  dllHashTable :
    ∃ before front back after,
      config.dllHashTable = before ++ (front ++ entry :: back) :: after ∧
        later.dllHashTable =
          before ++
            (front ++ { entry with ever := config.pltOffset } :: back) ::
              after
  pltOffset : later.pltOffset = config.pltOffset + 6
  initialImport :
    later.initialImport =
      Grouping.insert entry.dll name config.initialImport
  importDirectoryLen :
    later.importDirectoryLen =
      (config.importDirectoryLen +
        updateImportDirectoryLen
          (decide (entry.dll ∉ config.initialImport.map Prod.fst))
          config.importDirectoryLen name entry.dll).bmod (2 ^ 32)

/-- One relocation files at most one import. -/
theorem coffResolve_cases
    {config later : Config} {arg : CallbackArgIn}
    (isLater : coffResolve config arg = some later) :
    SameImports config later ∨
      ∃ entry, FilesImport config later arg.name entry := by
  unfold coffResolve at isLater
  by_cases isStatic : arg.storageClass = 3
  · rw [if_pos isStatic] at isLater
    split_ifs at isLater
    obtain ⟨_, _, rfl⟩ := Option.map_eq_some_iff.mp isLater
    exact Or.inl ⟨rfl, rfl, rfl, rfl⟩
  rw [if_neg isStatic] at isLater
  by_cases notExternal : arg.storageClass ≠ 2
  · rw [if_pos notExternal] at isLater
    cases isLater
    exact Or.inl ⟨rfl, rfl, rfl, rfl⟩
  rw [if_neg notExternal] at isLater
  dsimp only at isLater
  by_cases isExported : config.exported arg.name ≠ 0
  · rw [if_pos isExported] at isLater
    cases isLater
    exact Or.inl ⟨rfl, rfl, rfl, rfl⟩
  rw [if_neg isExported] at isLater
  cases found : lookupDynamicSymbol config arg.name with
  | none =>
      rw [found] at isLater
      cases isLater
      exact Or.inl ⟨rfl, rfl, rfl, rfl⟩
  | some answer =>
      obtain ⟨looked, dll, ever⟩ := answer
      rw [found] at isLater
      unfold lookupDynamicSymbol at found
      obtain ⟨chain, isChain, found⟩ := Option.bind_eq_some_iff.mp found
      obtain ⟨⟨touched, _⟩, isTouched, isLooked⟩ :=
        Option.map_eq_some_iff.mp found
      cases isLooked
      obtain ⟨front, entry, back, rfl, isName, rfl, rfl, rfl⟩ :=
        touch_eq_some isTouched
      obtain ⟨inTable, isHere⟩ := List.getElem?_eq_some_iff.mp isChain
      dsimp only at isLater
      by_cases unset : entry.ever = 0
      · rw [if_neg (not_not.mpr unset)] at isLater
        cases isLater
        obtain ⟨before, after, isTable, _, isSet⟩ :=
          List.exists_of_set inTable
        refine
          Or.inr
            ⟨entry,
              { sameName := isName
                unset := unset
                dllHashTable :=
                  ⟨before, front, back, after, ?_, ?_⟩
                pltOffset := rfl
                initialImport := rfl
                importDirectoryLen := rfl }⟩
        · rw [← isHere]
          exact isTable
        · rw [if_pos unset]
          exact isSet
      · rw [if_pos unset] at isLater
        cases isLater
        have isKept :
            config.dllHashTable.set (config.bucketOf arg.name)
                (front ++ entry :: back) =
              config.dllHashTable := by
          rw [← isHere]
          exact List.set_getElem_self inTable
        rw [if_neg unset]
        exact Or.inl ⟨isKept, rfl, rfl, rfl⟩

/-- A relocation counts the import it files. -/
theorem Sized.coffResolve
    {config later : Config} {arg : CallbackArgIn} (sized : Sized config)
    (isLater : Coff.coffResolve config arg = some later) : Sized later := by
  rcases coffResolve_cases isLater with same | ⟨entry, files⟩
  · exact
      { isInt := same.importDirectoryLen ▸ sized.isInt
        len := by
          rw [same.initialImport, same.importDirectoryLen]
          exact sized.len }
  · have isInserted := files.initialImport
    have isCounted := files.importDirectoryLen
    generalize entry.dll = dll at isInserted isCounted
    have isSize := importDataSize_insert dll arg.name config.initialImport
    refine
      { isInt := by
          rw [isCounted, Int.bmod_def]
          split_ifs <;> omega
        len := ?_ }
    intro fits
    rw [isInserted] at fits ⊢
    rw [isSize] at fits
    rw [if_neg (Grouping.insert_ne_nil _ _ _), isSize, isCounted]
    by_cases isFirst : config.initialImport = []
    · have isTerminator : importDataSize [] = 20 := rfl
      rw [sized.len_eq_zero isFirst, isFirst, isTerminator]
      unfold updateImportDirectoryLen
      congr 1
      simp
      omega
    · have isCount := sized.len (by omega)
      rw [if_neg isFirst] at isCount
      unfold updateImportDirectoryLen
      rw [if_neg (sized.len_ne_zero isFirst (by omega)), isCount,
        Int.bmod_add_bmod]
      congr 1
      by_cases isKnown : dll ∈ config.initialImport.map Prod.fst <;>
        simp [isKnown]

/-- A run of relocations counts the imports it files. -/
theorem Sized.resolveAll
    {config final : Config} {args : List CallbackArgIn} (sized : Sized config)
    (isFinal : Coff.resolveAll config args = some final) : Sized final := by
  unfold Coff.resolveAll at isFinal
  induction args generalizing config with
  | nil =>
      cases isFinal
      exact sized
  | cons arg rest inductionHypothesis =>
      rw [List.foldlM_cons] at isFinal
      obtain ⟨next, isNext, isFinal⟩ := Option.bind_eq_some_iff.mp isFinal
      exact inductionHypothesis (sized.coffResolve isNext) isFinal

end BinTools.Coff
