import BinTools.BufferContents
import BinTools.CoffImportStubs
import BinTools.CoffImportTables
import BinTools.PeExportLookup

namespace BinTools.Coff

open ByteBuffer
open CoffObject (moduleBase pointer pointer_moduleBase)

/-!
# Walking the import directory

The emulator takes a descriptor of a mapped image, opens the DLL by its name in
lower case and searches each function that the lookup table names.  What is
found is only printed, and the searches are not run here: of each one the name
is kept.
-/

/-- `tolower` -/
def tolower (c : UInt8) : UInt8 :=
  if 65 ≤ c ∧ c ≤ 90 then
    c + 32
  else
    c

/-- `tolowers` -/
def tolowers : Nat → Bytes → Nat → Option Bytes
  | 0, _, _ => none
  | fuel + 1, memory, t =>
      if memory t ≠ 0 then
        tolowers fuel (store memory t [tolower (memory t)]) (t + 1)
      else
        some memory

/-- The loop of `iterate_import_directory`: the names it searches. -/
def iterateThunks (memory : Bytes) (base : Nat) : Nat → Nat → Option (List Nat)
  | 0, _ => none
  | fuel + 1, intEntry =>
      let thunk := loadWord 8 memory intEntry
      if thunk ≠ 0 then
        (iterateThunks memory base fuel (intEntry + 8)).map
          (pointer base (thunk + 2) :: ·)
      else
        some []

/-- The name of the DLL, the memory before and behind its mapping, the names. -/
structure ImportWalk where
  filename : Nat
  lowered : Bytes
  memory : Bytes
  queries : List Nat

/--
`iterate_import_directory`.  Opening and mapping the DLL of a name gives another
memory, or nothing where the function returns.
-/
def iterateImportDirectory
    (mapLibrary : Bytes → Nat → Option Bytes) (memory : Bytes)
    (moduleBaseForIdataSection iidAddr fuel : Nat) : Option ImportWalk :=
  let filename :=
    pointer moduleBaseForIdataSection (loadWord 4 memory (iidAddr + 12))
  (tolowers fuel memory filename).bind fun lowered =>
    let intEntry :=
      pointer moduleBaseForIdataSection (loadWord 4 lowered iidAddr)
    match mapLibrary lowered filename with
    | some mapped =>
        (iterateThunks mapped moduleBaseForIdataSection fuel intEntry).map
          fun queries => ⟨filename, lowered, mapped, queries⟩
    | none => some ⟨filename, lowered, lowered, []⟩

/-! ## Names in lower case -/

theorem tolower_ne_zero {c : UInt8} (notZero : c ≠ 0) : tolower c ≠ 0 := by
  unfold tolower
  split
  · rename_i isUpper
    intro isZero
    have isSum := congrArg UInt8.toNat isZero
    have isLow := UInt8.le_iff_toNat_le.mp isUpper.1
    have isHigh := UInt8.le_iff_toNat_le.mp isUpper.2
    simp only [UInt8.toNat_add, UInt8.reduceToNat] at isSum isLow isHigh
    omega
  · exact notZero

/-- A name in lower case. -/
def lowerName (name : CString) : CString where
  bytes := name.bytes.map tolower
  noNul := by
    intro isByte
    obtain ⟨c, isOld, isZero⟩ := List.mem_map.mp isByte
    have notZero : c ≠ 0 := fun isNul => name.noNul (isNul ▸ isOld)
    exact tolower_ne_zero notZero isZero

theorem length_lowerName (name : CString) :
    (lowerName name).length = name.length :=
  List.length_map _

/-- The bytes up to the zero byte are stored in lower case. -/
theorem tolowers_eq
    {memory : Bytes} {t fuel : Nat} {bytes : List UInt8} (noNul : 0 ∉ bytes)
    (has : HasAt memory t (bytes ++ [0])) (enough : bytes.length < fuel) :
    tolowers fuel memory t = some (store memory t (bytes.map tolower)) := by
  induction bytes generalizing memory t fuel with
  | nil =>
      obtain _ | fuel := fuel
      · exact absurd enough (Nat.not_lt_zero _)
      · have isZero : memory t = 0 := hasAt_singleton.mp has
        rw [tolowers, if_neg (not_not_intro isZero), List.map_nil, store_nil]
  | cons c rest inductionHypothesis =>
      obtain _ | fuel := fuel
      · exact absurd enough (Nat.not_lt_zero _)
      · rw [List.mem_cons, not_or] at noNul
        obtain ⟨isC, hasRest⟩ := hasAt_cons.mp has
        have notZero : memory t ≠ 0 := isC ▸ Ne.symm noNul.1
        have stillHas :
            HasAt (store memory t [tolower c]) (t + 1) (rest ++ [0]) :=
          hasRest.congr fun position isBehind _ =>
            store_apply_of_outside (.inr isBehind)
        rw [tolowers, if_pos notZero, isC,
          inductionHypothesis noNul.2 stillHas (Nat.lt_of_succ_lt_succ enough)]
        exact
          congrArg some
            (store_append memory t [tolower c] (rest.map tolower)).symm

/-! ## The lookup table -/

/-- The loop searches the names of a table up to its terminator. -/
theorem exists_iterateThunks
    {memory : Bytes} {base entry fuel : Nat} {names : List CString}
    (isThunk :
      ∀ j name, names[j]? = some name →
        loadWord 8 memory (entry + 8 * j) ≠ 0 ∧
          StringAt memory
            (pointer base (loadWord 8 memory (entry + 8 * j) + 2)) name)
    (isEnd : loadWord 8 memory (entry + 8 * names.length) = 0)
    (enough : names.length < fuel) :
    ∃ queries,
      iterateThunks memory base fuel entry = some queries ∧
        List.Forall₂ (StringAt memory) queries names := by
  induction names generalizing entry fuel with
  | nil =>
      obtain _ | fuel := fuel
      · exact absurd enough (Nat.not_lt_zero _)
      · refine ⟨[], ?_, .nil⟩
        rw [iterateThunks]
        exact if_neg (not_not_intro isEnd)
  | cons first rest inductionHypothesis =>
      obtain _ | fuel := fuel
      · exact absurd enough (Nat.not_lt_zero _)
      · have place (j : Nat) : entry + 8 + 8 * j = entry + 8 * (j + 1) := by
          omega
        obtain ⟨notZero, isString⟩ := isThunk 0 first rfl
        obtain ⟨queries, isRest, areNames⟩ :=
          inductionHypothesis
            (fun j name isName => by
              rw [place]
              exact isThunk (j + 1) name isName)
            (by
              rw [place]
              exact isEnd)
            (Nat.lt_of_succ_lt_succ enough)
        refine ⟨_ :: queries, ?_, .cons isString areNames⟩
        rw [iterateThunks, isRest]
        exact if_pos notZero

/-! ## What is imported -/

theorem stringAt_moved
    (memory : Bytes) (start offset : Nat) (string : CString) :
    StringAt (fun position => memory (start + position)) offset string ↔
      StringAt memory (start + offset) string := by
  rw [StringAt, StringAt, load_moved]

theorem stringAt_iff_hasAt
    (memory : Bytes) (offset : Nat) (string : CString) :
    StringAt memory offset string ↔
      HasAt memory offset (string.bytes ++ [0]) := by
  rw [StringAt, HasAt, List.length_append]
  rfl

/-- What the loop meets for a function that is described. -/
theorem FunctionHolds.isThunk
    {memory : Bytes} {vaddr iat int c idataAddr : Nat} {name : CString}
    (holds :
      FunctionHolds (fun position => memory (idataAddr + position)) vaddr iat
        int c name)
    (notFirst : 0 < c) (isWord : vaddr + c < 2 ^ 32)
    (inRange : idataAddr + c + 2 < 2 ^ 64) :
    loadWord 8 memory (idataAddr + int) ≠ 0 ∧
      StringAt memory
        (pointer (moduleBase idataAddr vaddr)
          (loadWord 8 memory (idataAddr + int) + 2))
        name := by
  have isLookup : loadWord 8 memory (idataAddr + int) = vaddr + c :=
    (loadWord_moved memory 8 idataAddr int).symm.trans holds.lookup
  have isPlace :
      pointer (moduleBase idataAddr vaddr) (vaddr + (c + 2)) =
        idataAddr + (c + 2) :=
    pointer_moduleBase (by omega) (by omega)
  rw [isLookup, Nat.add_assoc, isPlace]
  have isString :=
    (stringAt_moved memory idataAddr (c + 2) name).mp holds.spelled
  exact ⟨by omega, isString⟩

/-- The parts of a DLL in import data that is mapped. -/
structure MappedDll
    (data memory : Bytes) (vaddr idataAddr size iid iat int c : Nat)
    (dll : CString × List CString) : Prop where
  holds : DllHolds data vaddr iid iat int c dll
  descriptorBelow : iid + 20 ≤ c
  addressesBelow : iat + 8 * (dll.2.length + 1) ≤ c
  lookupsBelow : int + 8 * (dll.2.length + 1) ≤ c
  inside : c + (dll.1.length + 1 + functionsSize dll.2) ≤ size
  isWord : vaddr + size ≤ 2 ^ 32
  inRange : idataAddr + size ≤ 2 ^ 64
  isShown : (Translation.mappedAt idataAddr size).Shows memory data

namespace MappedDll

variable
  {data memory : Bytes} {vaddr idataAddr size iid iat int c : Nat}
  {dll : CString × List CString}
  (mapped : MappedDll data memory vaddr idataAddr size iid iat int c dll)

include mapped

/-- The bytes are read where they are mapped. -/
theorem load_eq {width offset : Nat} (isInside : offset + width ≤ size) :
    load memory (idataAddr + offset) width = load data offset width :=
  mapped.isShown.load_eq (Translation.mappedAt_covers isInside)

/-- The pointer to the name. -/
theorem filename_eq :
    pointer (moduleBase idataAddr vaddr)
        (loadWord 4 memory (idataAddr + iid + 12)) =
      idataAddr + c := by
  have isWord := mapped.isWord
  have inRange := mapped.inRange
  have inside := mapped.inside
  have below := mapped.descriptorBelow
  rw [loadWord, Nat.add_assoc, mapped.load_eq (by omega), ← loadWord,
    mapped.holds.name, Nat.mod_eq_of_lt (by omega)]
  exact pointer_moduleBase (by omega) (by omega)

/-- The name is read where it is mapped. -/
theorem stringAt_name : StringAt memory (idataAddr + c) dll.1 := by
  have inside := mapped.inside
  rw [StringAt, mapped.load_eq (by omega)]
  exact mapped.holds.spelled

/-- The name is stored in lower case. -/
theorem tolowers_filename {fuel : Nat} (enough : size ≤ fuel) :
    tolowers fuel memory (idataAddr + c) =
      some (store memory (idataAddr + c) (lowerName dll.1).bytes) := by
  have inside := mapped.inside
  apply tolowers_eq dll.1.noNul
    ((stringAt_iff_hasAt _ _ _).mp mapped.stringAt_name)
  have isLength : dll.1.bytes.length = dll.1.length := rfl
  omega

/-- The name stands in lower case. -/
theorem stringAt_lowered :
    StringAt (store memory (idataAddr + c) (lowerName dll.1).bytes)
      (idataAddr + c) (lowerName dll.1) := by
  have isLength : (lowerName dll.1).bytes.length = dll.1.length :=
    length_lowerName dll.1
  obtain ⟨_, isEnd⟩ :=
    hasAt_append.mp ((stringAt_iff_hasAt _ _ _).mp mapped.stringAt_name)
  refine (stringAt_iff_hasAt _ _ _).mpr (hasAt_append.mpr ⟨?_, ?_⟩)
  · exact load_store _ _ _
  · rw [isLength]
    exact isEnd.congr fun position isBehind _ =>
      store_apply_of_outside (.inr (isLength.symm ▸ isBehind))

/-- The pointer to the lookup table, behind the name's change. -/
theorem intEntry_eq :
    pointer (moduleBase idataAddr vaddr)
        (loadWord 4
          (store memory (idataAddr + c) (lowerName dll.1).bytes)
          (idataAddr + iid)) =
      idataAddr + int := by
  have isWord := mapped.isWord
  have inRange := mapped.inRange
  have inside := mapped.inside
  have below := mapped.descriptorBelow
  have lookupsBelow := mapped.lookupsBelow
  have isFirstThunk :
      loadWord 4 (store memory (idataAddr + c) (lowerName dll.1).bytes)
          (idataAddr + iid) =
        (vaddr + int) % 2 ^ 32 := by
    rw [loadWord_congr fun position _ toEnd =>
        store_apply_of_outside (.inl (by omega)),
      loadWord, mapped.load_eq (by omega), ← loadWord]
    exact mapped.holds.originalFirstThunk
  rw [isFirstThunk, Nat.mod_eq_of_lt (by omega)]
  exact pointer_moduleBase (by omega) (by omega)

/-- A memory that keeps all but the name describes the functions. -/
theorem functionHolds_moved
    {later : Bytes}
    (isKept :
      ∀ offset < size, offset < c ∨ c + dll.1.length ≤ offset →
        later (idataAddr + offset) = memory (idataAddr + offset))
    (j : Nat) (name : CString) (isName : dll.2[j]? = some name) :
    FunctionHolds (fun offset => later (idataAddr + offset)) vaddr
      (iat + 8 * j) (int + 8 * j)
      (c + (dll.1.length + 1 + functionsSize (dll.2.take j))) name := by
  have inside := mapped.inside
  have addressesBelow := mapped.addressesBelow
  have lookupsBelow := mapped.lookupsBelow
  have inNames := (List.getElem?_eq_some_iff.mp isName).1
  have inStrings :
      functionsSize (dll.2.take j) + (2 + name.length + 1) ≤
        functionsSize dll.2 :=
    ConsecutiveRanges.sum_map_take_add_le isName _
  have isSame (offset : Nat) (isInside : offset < size)
      (isApart : offset < c ∨ c + dll.1.length ≤ offset) :
      later (idataAddr + offset) = data offset := by
    rw [isKept offset isInside isApart]
    exact mapped.isShown (if_pos isInside)
  apply (mapped.holds.functions j name isName).congr
  · intro q fromStart toEnd
    exact isSame q (by omega) (by omega)
  · intro q fromStart toEnd
    exact isSame q (by omega) (by omega)
  · intro q fromStart toEnd
    exact isSame q (by omega) (by omega)

/-- A memory that keeps all but the name ends the lookup table. -/
theorem lookupsEnd_moved
    {later : Bytes}
    (isKept :
      ∀ offset < size, offset < c ∨ c + dll.1.length ≤ offset →
        later (idataAddr + offset) = memory (idataAddr + offset)) :
    loadWord 8 later (idataAddr + int + 8 * dll.2.length) = 0 := by
  have inside := mapped.inside
  have lookupsBelow := mapped.lookupsBelow
  rw [Nat.add_assoc, ← loadWord_moved,
    loadWord_congr fun q _ toEnd =>
      (isKept q (by omega) (by omega)).trans
        (mapped.isShown (if_pos (by omega)))]
  exact mapped.holds.lookupsEnd

/-- The walk of the descriptor. -/
theorem exists_walk
    (mapLibrary : Bytes → Nat → Option Bytes)
    (isKept :
      ∀ before filename after,
        mapLibrary before filename = some after →
          ∀ position, idataAddr ≤ position → position < idataAddr + size →
            after position = before position)
    {fuel : Nat} (enough : size ≤ fuel) :
    ∃ walk,
      iterateImportDirectory mapLibrary memory (moduleBase idataAddr vaddr)
            (idataAddr + iid) fuel =
          some walk ∧
        StringAt walk.lowered walk.filename (lowerName dll.1) ∧
        (∀ position,
          position < walk.filename ∨
              walk.filename + dll.1.length ≤ position →
            walk.lowered position = memory position) ∧
        ((mapLibrary walk.lowered walk.filename).isSome →
          List.Forall₂ (StringAt walk.memory) walk.queries dll.2) := by
  have isWord := mapped.isWord
  have inRange := mapped.inRange
  have inside := mapped.inside
  have lookupsBelow := mapped.lookupsBelow
  have isLength : (lowerName dll.1).bytes.length = dll.1.length :=
    length_lowerName dll.1
  have isFrame (position : Nat)
      (outside :
        position < idataAddr + c ∨
          idataAddr + c + dll.1.length ≤ position) :
      store memory (idataAddr + c) (lowerName dll.1).bytes position =
        memory position :=
    store_apply_of_outside (isLength.symm ▸ outside)
  rw [iterateImportDirectory, mapped.filename_eq,
    mapped.tolowers_filename enough, Option.bind_some, mapped.intEntry_eq]
  cases isMapped :
      mapLibrary (store memory (idataAddr + c) (lowerName dll.1).bytes)
        (idataAddr + c) with
  | none =>
      refine ⟨_, rfl, mapped.stringAt_lowered, isFrame, fun isSome => ?_⟩
      rw [isMapped] at isSome
      cases isSome
  | some later =>
      have isKeptThere :
          ∀ offset < size, offset < c ∨ c + dll.1.length ≤ offset →
            later (idataAddr + offset) = memory (idataAddr + offset) := by
        intro offset isInside isApart
        rw [isKept _ _ _ isMapped _ (by omega) (by omega)]
        exact isFrame _ (by omega)
      have isThunk (j : Nat) (name : CString) (isName : dll.2[j]? = some name) :
          loadWord 8 later (idataAddr + int + 8 * j) ≠ 0 ∧
            StringAt later
              (pointer (moduleBase idataAddr vaddr)
                (loadWord 8 later (idataAddr + int + 8 * j) + 2))
              name := by
        have inStrings :
            functionsSize (dll.2.take j) + (2 + name.length + 1) ≤
              functionsSize dll.2 :=
          ConsecutiveRanges.sum_map_take_add_le isName _
        rw [Nat.add_assoc]
        exact
          (mapped.functionHolds_moved isKeptThere j name isName).isThunk
            (by omega) (by omega) (by omega)
      have hasSteps : dll.2.length < fuel := by omega
      obtain ⟨queries, isRun, areNames⟩ :=
        exists_iterateThunks isThunk (mapped.lookupsEnd_moved isKeptThere)
          hasSteps
      refine ⟨⟨_, _, later, queries⟩, ?_, mapped.stringAt_lowered, isFrame, ?_⟩
      · exact congrArg (Option.map _) isRun
      · exact fun _ => areNames

end MappedDll

/--
For every run of relocations whose import data stays below 2^31 bytes and is
then mapped, the walk of any descriptor opens the name of its DLL in lower case,
has changed no byte but those of the name up to then, and takes the names of the
functions that were filed under the DLL, in their order and nothing else, when
mapping the DLL keeps the import data.
-/
theorem iterateImportDirectory_resolveAll
    (start : Config) (isEmpty : start.initialImport = [])
    (isZero : start.importDirectoryLen = 0) (args : List CallbackArgIn)
    (final : Config) (isFinal : resolveAll start args = some final)
    (plt : Bytes) (image : ImportSections)
    (isImage : addImport final plt (fun _ => 0) = some image)
    (memory : Bytes) (idataAddr : Nat)
    (isInt : importDataSize final.initialImport < 2 ^ 31)
    (isWord :
      image.importVaddr.toNat + importDataSize final.initialImport ≤ 2 ^ 32)
    (inRange : idataAddr + importDataSize final.initialImport ≤ 2 ^ 64)
    (isShown :
      (Translation.mappedAt idataAddr
          (importDataSize final.initialImport)).Shows memory image.data)
    (mapLibrary : Bytes → Nat → Option Bytes)
    (isKept :
      ∀ before filename after,
        mapLibrary before filename = some after →
          ∀ position, idataAddr ≤ position →
            position < idataAddr + importDataSize final.initialImport →
              after position = before position)
    (d : Nat) (dll : CString × List CString)
    (isDll : final.initialImport[d]? = some dll)
    (fuel : Nat) (enough : importDataSize final.initialImport ≤ fuel) :
    ∃ walk,
      iterateImportDirectory mapLibrary memory
            (moduleBase idataAddr image.importVaddr.toNat)
            (idataAddr + 20 * d) fuel =
          some walk ∧
        StringAt walk.lowered walk.filename (lowerName dll.1) ∧
        (∀ position,
          position < walk.filename ∨
              walk.filename + dll.1.length ≤ position →
            walk.lowered position = memory position) ∧
        ((mapLibrary walk.lowered walk.filename).isSome →
          List.Forall₂ (StringAt walk.memory) walk.queries dll.2) := by
  have sized := (sized_start isEmpty isZero).resolveAll isFinal
  have notEmpty : final.initialImport ≠ [] := by
    intro noImports
    rw [noImports] at isDll
    cases isDll
  obtain ⟨filled, isFilled, fits⟩ := sized.importDataFits notEmpty isInt plt
  have sameImage : filled = image :=
    Option.some.inj (isFilled.symm.trans isImage)
  subst sameImage
  obtain ⟨isIat, isIntStart, isC, isLast⟩ :=
    importRun_positions final plt fun _ => 0
  have inStrings := fits.inside
  have holds := fits.dlls d dll isDll
  have inDlls := (List.getElem?_eq_some_iff.mp isDll).1
  have inTables :
      thunkCount (final.initialImport.take d) + (dll.2.length + 1) ≤
        thunkCount final.initialImport :=
    ConsecutiveRanges.sum_map_take_add_le isDll _
  have inNames :
      stringsSize (final.initialImport.take d) +
          (dll.1.length + 1 + functionsSize dll.2) ≤
        stringsSize final.initialImport :=
    ConsecutiveRanges.sum_map_take_add_le isDll _
  have mapped :
      MappedDll filled.data memory filled.importVaddr.toNat idataAddr
        (importDataSize final.initialImport) _ _ _ _ dll :=
    { holds := holds
      descriptorBelow := by omega
      addressesBelow := by omega
      lookupsBelow := by omega
      inside := by omega
      isWord := isWord
      inRange := inRange
      isShown := isShown }
  exact mapped.exists_walk mapLibrary isKept enough

/-- The functions of two DLLs are searched where the data is mapped. -/
theorem iterateImportDirectory_resolveAll_kernel32 :
    ∃ final ∈
        resolveAll Sample.config
          [Sample.call Sample.exitProcess, Sample.call Sample.f1,
            Sample.call Sample.writeFile],
      ∃ image ∈ addImport final (fun _ => 0) (fun _ => 0),
        ∃ dll ∈ final.initialImport[0]?,
          ∃ walk ∈
              iterateImportDirectory (fun memory _ => some memory)
                (fun position => image.data (position - 0x7f0000000000))
                (moduleBase 0x7f0000000000 image.importVaddr.toNat)
                (0x7f0000000000 + 20 * 0) 0x1000,
            StringAt walk.lowered walk.filename (lowerName dll.1) ∧
              List.Forall₂ (StringAt walk.memory) walk.queries dll.2 := by
  have resolves :
      ∃ final ∈
          resolveAll Sample.config
            [Sample.call Sample.exitProcess, Sample.call Sample.f1,
              Sample.call Sample.writeFile],
        importDataSize final.initialImport < 0x1000 ∧
          ∃ image ∈ addImport final (fun _ => 0) (fun _ => 0),
            image.importVaddr.toNat < 0x10000 ∧
              (final.initialImport[0]?).isSome := by
    decide +kernel
  obtain ⟨final, isFinal, isSmall, image, isImage, isLow, hasDll⟩ := resolves
  obtain ⟨dll, isDll⟩ := Option.isSome_iff_exists.mp hasDll
  obtain ⟨walk, isWalk, isName, _, areNames⟩ :=
    iterateImportDirectory_resolveAll Sample.config rfl rfl
      [Sample.call Sample.exitProcess, Sample.call Sample.f1,
        Sample.call Sample.writeFile]
      final isFinal (fun _ => 0) image isImage
      (fun position => image.data (position - 0x7f0000000000)) 0x7f0000000000
      (by omega) (by omega) (by omega) (Translation.mappedAt_shows _ _ _)
      (fun memory _ => some memory)
      (fun before _ after isSame _ _ _ => by
        cases isSame
        rfl)
      0 dll isDll 0x1000 (by omega)
  exact ⟨final, isFinal, image, isImage, dll, isDll, walk, isWalk, isName,
    areNames rfl⟩

end BinTools.Coff
