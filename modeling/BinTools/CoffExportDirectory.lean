import BinTools.CoffExportAddress

namespace BinTools.CoffObject

open ByteBuffer
open Coff (strcpy StringAt)

/-!
# The export directory as a whole

The directory is sized while the symbols are read and filled when the link is
done.  Its parts lie end to end and fill the allocation exactly, unless there
is nothing to export: then nothing is allocated, but the directory is written.
-/

/-- Where the parts of a directory with these names lie, and their sizes. -/
def ExportDirectory.ranges
    (directory : ExportDirectory) (outfileName : CString)
    (exports : List SymbolChain) : List (Nat × Nat) :=
  [(0, sizeofExportDirectory),
    (sizeofExportDirectory, outfileName.length + 1),
    (directory.addressOfNameOrdinals, 2 * exports.length),
    (directory.addressOfFunctions, 4 * exports.length),
    (directory.addressOfNames, 4 * exports.length)] ++
    (ConsecutiveRanges.starts directory.strP
      (exports.map fun cell => cell.name.length + 1)).zip
      (exports.map fun cell => cell.name.length + 1)

/-- The `IMAGE_EXPORT_DIRECTORY` and the name of the image. -/
structure ExportDirectory.Headed
    (directory : ExportDirectory) (outfileName : CString) (count : Nat) :
    Prop where
  name :
    loadWord 4 directory.data 12 =
      u32 (directory.vaddrP + sizeofExportDirectory)
  numberOfFunctions : loadWord 4 directory.data 20 = count
  numberOfNames : loadWord 4 directory.data 24 = count
  addressOfFunctions :
    loadWord 4 directory.data 28 =
      u32 (directory.vaddrP + directory.addressOfFunctions)
  addressOfNames :
    loadWord 4 directory.data 32 =
      u32 (directory.vaddrP + directory.addressOfNames)
  addressOfNameOrdinals :
    loadWord 4 directory.data 36 =
      u32 (directory.vaddrP + directory.addressOfNameOrdinals)
  imageName : StringAt directory.data sizeofExportDirectory outfileName

/-- The entries at a position describe a symbol. -/
structure ExportDirectory.Describes
    (directory : ExportDirectory) (mem : Memory)
    (sections : List SectionChain) (exports : List SymbolChain) (i : Nat)
    (cell : SymbolChain) : Prop where
  ordinal :
    loadWord 2 directory.data (directory.addressOfNameOrdinals + 2 * i) = i
  name :
    loadWord 4 directory.data (directory.addressOfNames + 4 * i) =
      u32 (directory.vaddrP + (directory.strP +
        ((exports.take i).map fun cell => cell.name.length + 1).sum))
  string :
    StringAt directory.data
      (directory.strP +
        ((exports.take i).map fun cell => cell.name.length + 1).sum)
      cell.name
  function :
    ∃ id ∈ cell.schain, ∃ schain ∈ sections[id]?,
      directory.functionAt i =
        u32 (schain.virtualAddress + (mem.imageSymbol cell.p).value)

/--
The directory is written: its parts do not overlap and end where the
allocation ends, nothing else is written, and the entries describe the
symbols.
-/
structure DirectoryFits
    (mem : Memory) (outfileName : CString) (state : State)
    (exported : Exported) (directory : ExportDirectory) : Prop where
  disjoint :
    (directory.ranges outfileName state.exports).Pairwise fun one two =>
      one.1 + one.2 ≤ two.1
  ends :
    (directory.ranges outfileName state.exports).getLast?.map
        (fun range => ((range.1 + range.2 : Nat) : Int)) =
      some state.exportDirectoryLen
  untouched :
    ∀ q, (∀ range ∈ directory.ranges outfileName state.exports,
        Outside q range.1 range.2) →
      directory.data q = 0
  headed : directory.Headed outfileName state.exports.length
  entries :
    ∀ i cell, state.exports[i]? = some cell →
      directory.Describes mem exported.link.state.sections state.exports i
        cell

/-- The link of what was read has such a directory. -/
def DirectoryRight
    (mem : Memory) (outfileName : CString) (sec : Nat) (state : State) :
    Prop :=
  ∃ exported, exportAll mem outfileName sec state = some exported ∧
    ∃ directory, exported.directory = some directory ∧
      DirectoryFits mem outfileName state exported directory

/-! ## The parts -/

variable {outfileName : CString} {entries : List (CString × Nat)}

/-- The directory of a number of exports that is not negative. -/
theorem parts_directoryOf
    (outfileName : CString) (count : Nat)
    (entries : List (CString × Nat)) (vaddr sec : Nat) :
    (directoryOf outfileName count entries vaddr
          sec).addressOfNameOrdinals =
        sizeofExportDirectory + (outfileName.length + 1) ∧
      (directoryOf outfileName count entries vaddr sec).addressOfFunctions =
        sizeofExportDirectory + (outfileName.length + 1) + 2 * count ∧
      (directoryOf outfileName count entries vaddr sec).addressOfNames =
        sizeofExportDirectory + (outfileName.length + 1) + 2 * count +
          4 * count ∧
      (directoryOf outfileName count entries vaddr sec).strP =
        sizeofExportDirectory + (outfileName.length + 1) + 2 * count +
          4 * count + 4 * count := by
  obtain ⟨ordinals, functions, names, c⟩ :=
    exportTables_natCast outfileName count vaddr
  unfold directoryOf
  dsimp only
  omega

/-- The sizes of all parts of a directory. -/
def partSizes (outfileName : CString) (exports : List SymbolChain) :
    List Nat :=
  [sizeofExportDirectory, outfileName.length + 1, 2 * exports.length,
    4 * exports.length, 4 * exports.length] ++
    exports.map fun cell => cell.name.length + 1

/-- The parts lie end to end. -/
theorem ranges_directoryOf
    (outfileName : CString) (exports : List SymbolChain)
    (entries : List (CString × Nat)) (vaddr sec : Nat) :
    (directoryOf outfileName exports.length entries vaddr sec).ranges
        outfileName exports =
      (ConsecutiveRanges.starts 0 (partSizes outfileName exports)).zip
        (partSizes outfileName exports) := by
  obtain ⟨ordinals, functions, names, strP⟩ :=
    parts_directoryOf outfileName exports.length entries vaddr sec
  unfold ExportDirectory.ranges partSizes
  rw [ordinals, functions, names, strP]
  simp only [ConsecutiveRanges.starts, List.cons_append, List.nil_append,
    List.zip_cons_cons, Nat.zero_add]

/-- What lies in front of the tables is not touched by the entries. -/
theorem data_directoryOf_of_front
    {outfileName : CString} {entries : List (CString × Nat)} {q : Nat}
    (isFront : q < sizeofExportDirectory + (outfileName.length + 1))
    (vaddr sec : Nat) :
    (directoryOf outfileName entries.length entries vaddr sec).data q =
      (exportTables outfileName entries.length vaddr).data q := by
  obtain ⟨ordinals, functions, names, c⟩ :=
    exportTables_natCast outfileName entries.length vaddr
  exact
    ExportCursor.writeAll_apply_of_spared
      { ordinals := Or.inl (by omega)
        functions := Or.inl (by omega)
        names := Or.inl (by omega)
        strings := Or.inl (by omega) }

/-- The header in front of the tables. -/
theorem headed_directoryOf
    {outfileName : CString} {entries : List (CString × Nat)}
    (few : entries.length < 2 ^ 32) (vaddr sec : Nat) :
    (directoryOf outfileName entries.length entries vaddr sec).Headed
      outfileName entries.length := by
  obtain ⟨ordinals, functions, names, c⟩ :=
    exportTables_natCast outfileName entries.length vaddr
  have front :
      ∀ offset, offset + 4 ≤ sizeofExportDirectory →
        loadWord 4
            (directoryOf outfileName entries.length entries vaddr sec).data
            offset =
          loadWord 4 (exportTables outfileName entries.length vaddr).data
            offset :=
    fun offset inFront =>
      loadWord_congr fun q _ toEnd =>
        data_directoryOf_of_front (by omega) vaddr sec
  have isNumber : ((entries.length : Int) % 2 ^ 32).toNat = entries.length := by
    omega
  have apart :
      ∀ {place offset : Nat},
        place + 4 ≤ offset ∨ offset + 4 ≤ place →
          ∀ (buffer : Bytes) (value : Nat),
            loadWord 4 (storeWord 4 buffer offset value) place =
              loadWord 4 buffer place :=
    loadWord_storeWord_of_apart
  have behind :
      ∀ place, place + 4 ≤ sizeofExportDirectory →
        ∀ buffer : Bytes,
          loadWord 4 (strcpy buffer sizeofExportDirectory outfileName) place =
            loadWord 4 buffer place :=
    fun place inFront buffer =>
      loadWord_congr fun q _ _ =>
        Coff.strcpy_apply_of_outside (Or.inl (by omega))
  constructor
  · rw [front 12 (by decide)]
    unfold exportTables
    dsimp only
    rw [apart (by decide), apart (by decide), apart (by decide)]
    exact loadWord_storeWord 4 12 _
  · rw [front 20 (by decide)]
    unfold exportTables
    dsimp only
    rw [apart (by decide), apart (by decide), apart (by decide),
      apart (by decide), behind 20 (by decide), apart (by decide), isNumber]
    exact (loadWord_storeWord 4 20 _).trans (Nat.mod_eq_of_lt few)
  · rw [front 24 (by decide)]
    unfold exportTables
    dsimp only
    rw [apart (by decide), apart (by decide), apart (by decide),
      apart (by decide), behind 24 (by decide), isNumber]
    exact (loadWord_storeWord 4 24 _).trans (Nat.mod_eq_of_lt few)
  · rw [front 28 (by decide)]
    unfold exportTables
    dsimp only
    rw [apart (by decide)]
    exact loadWord_storeWord 4 28 _
  · rw [front 32 (by decide)]
    exact loadWord_storeWord 4 32 _
  · rw [front 36 (by decide)]
    unfold exportTables
    dsimp only
    rw [apart (by decide), apart (by decide)]
    exact loadWord_storeWord 4 36 _
  · apply (Coff.stringAt_strcpy _ sizeofExportDirectory outfileName).congr
    rotate_left
    · exact
        storeWord 4
          (storeWord 4 (fun _ => 0) 20
            ((entries.length : Int) % 2 ^ 32).toNat)
          24 ((entries.length : Int) % 2 ^ 32).toNat
    · intro q fromStart toEnd
      rw [data_directoryOf_of_front toEnd]
      unfold sizeofExportDirectory at fromStart
      unfold exportTables
      dsimp only
      rw [storeWord_apply_of_outside (by omega),
        storeWord_apply_of_outside (by omega),
        storeWord_apply_of_outside (by omega),
        storeWord_apply_of_outside (by omega)]

/-- The parts fill the directory. -/
theorem sum_partSizes (outfileName : CString) (exports : List SymbolChain) :
    (partSizes outfileName exports).sum =
      directorySize outfileName exports := by
  rw [directorySize_eq]
  unfold partSizes
  rw [List.sum_append]
  simp only [List.sum_cons, List.sum_nil]
  omega

/-- Nothing is written besides the parts. -/
theorem untouched_directoryOf
    {outfileName : CString} {exports : List SymbolChain}
    {entries : List (CString × Nat)}
    (sameLength : entries.length = exports.length)
    (sameSize :
      namesSize entries =
        (exports.map fun cell => cell.name.length + 1).sum)
    (vaddr sec : Nat) {q : Nat}
    (isOutside :
      ∀ range ∈
          (directoryOf outfileName exports.length entries vaddr sec).ranges
            outfileName exports,
        Outside q range.1 range.2) :
    (directoryOf outfileName exports.length entries vaddr sec).data q = 0 := by
  have behind : directorySize outfileName exports ≤ q := by
    by_contra inside
    rw [← sum_partSizes] at inside
    obtain ⟨range, isRange, fromStart, toEnd⟩ :=
      ConsecutiveRanges.exists_mem_zip_starts (Nat.zero_le q)
        (by rw [Nat.zero_add]; exact Nat.lt_of_not_le inside)
    rw [ranges_directoryOf] at isOutside
    rcases isOutside range isRange with isBefore | isBehind <;> omega
  rw [directorySize_eq] at behind
  obtain ⟨ordinals, functions, names, c⟩ :=
    exportTables_natCast outfileName exports.length vaddr
  have isSpared :
      (exportTables outfileName exports.length vaddr).Spared entries.length
        (namesSize entries) q :=
    { ordinals := Or.inr (by omega)
      functions := Or.inr (by omega)
      names := Or.inr (by omega)
      strings := Or.inr (by omega) }
  refine (ExportCursor.writeAll_apply_of_spared isSpared).trans ?_
  unfold sizeofExportDirectory at behind
  unfold exportTables
  dsimp only
  rw [storeWord_apply_of_outside (by omega),
    storeWord_apply_of_outside (by omega),
    storeWord_apply_of_outside (by omega),
    storeWord_apply_of_outside (by omega),
    Coff.strcpy_apply_of_outside
      (Or.inr (by unfold sizeofExportDirectory; omega)),
    storeWord_apply_of_outside (by omega),
    storeWord_apply_of_outside (by omega)]

/-- The entries of a directory describe the symbols they were made of. -/
theorem State.Linked.describes
    {mem : Memory} {outfileName : CString} {state : State} {sec : Nat}
    {link : Link}
    (linked : state.Linked mem outfileName)
    (carries : Link.Carries mem state sec link)
    (addresses :
      ∀ id < state.sections.length,
        addressAt link.state.sections id = state.addressOf mem id)
    (few : state.exports.length < 2 ^ 31) {i : Nat} {cell : SymbolChain}
    (isExport : state.exports[i]? = some cell) (isShort : i < 2 ^ 16)
    (vaddr holder : Nat) :
    (directoryOf outfileName state.exportFuncCount (state.entries mem) vaddr
      holder).Describes mem link.state.sections state.exports i cell := by
  have isFunction := linked.functionAt_eq few isExport vaddr holder
  have sameLength : (state.entries mem).length = state.exports.length :=
    List.length_map _
  have inRange := (List.getElem?_eq_some_iff.mp isExport).1
  have isEntry :
      (state.entries mem)[i]? = some (state.entryOf mem cell) := by
    unfold State.entries
    rw [List.getElem?_map, isExport]
    rfl
  have sameNames :
      namesSize ((state.entries mem).take i) =
        ((state.exports.take i).map fun cell => cell.name.length + 1).sum := by
    unfold namesSize State.entries
    rw [← List.map_take, List.map_map]
    rfl
  rw [linked.count, (int32_natCast_eq_iff _).mpr few] at isFunction ⊢
  obtain ⟨ordinals, functions, names, c⟩ :=
    exportTables_natCast outfileName state.exports.length vaddr
  have separated :
      (exportTables outfileName state.exports.length vaddr).Separated
        (state.entries mem).length := by
    constructor <;> omega
  have holds := ExportCursor.holds_writeAll vaddr separated
  constructor
  · refine (holds.ordinals i (by omega)).trans ?_
    have isZero :
        (exportTables outfileName state.exports.length vaddr).i = 0 := rfl
    rw [isZero, Nat.zero_add, Nat.mod_eq_of_lt isShort]
  · rw [← sameNames]
    exact holds.names i (by omega)
  · rw [← sameNames]
    exact holds.strings i _ isEntry
  · obtain ⟨oc, isObject, isCell⟩ :=
      List.mem_flatMap.mp (List.mem_of_getElem? isExport)
    have right := linked.cells oc isObject cell isCell
    obtain ⟨id, rest, isSections⟩ := List.exists_cons_of_ne_nil right.sections
    have isHead : cell.schain = some id := by
      rw [right.schain, isSections]
      rfl
    have isPresent : id < state.sections.length :=
      linked.section_lt isObject (by rw [isSections]; exact List.mem_cons_self)
    have arena := congrArg List.length carries.pointers
    rw [List.length_map, List.length_append, List.length_map,
      List.length_singleton] at arena
    have inArena : id < link.state.sections.length := by omega
    refine
      ⟨id, isHead, _, List.getElem?_eq_getElem inArena, isFunction.trans ?_⟩
    have isAddress :
        (link.state.sections[id]).virtualAddress = state.addressOf mem id := by
      rw [← addresses id isPresent, addressAt,
        List.getD_eq_getElem _ _ inArena]
    unfold State.entryOf
    rw [isHead, isAddress]
    rfl

/--
For every run over objects, the directory is right exactly when something is
exported, an ordinal can number the exports and an `int` can measure them.
-/
theorem directoryRight_iff
    (mem : Memory) (outfileName : CString) (bases : List Nat)
    (state : State)
    (isRead : readObjects mem outfileName {} bases = some state)
    (sec : Nat) (separate : state.Separate sec) :
    DirectoryRight mem outfileName sec state ↔
      state.exports ≠ [] ∧ state.exports.length ≤ 2 ^ 16 ∧
        directorySize outfileName state.exports < 2 ^ 31 := by
  have linked := (State.linked_start mem outfileName).readObjects isRead
  obtain ⟨link, vaddr, holder, carries, addresses, isExported⟩ :=
    linked.exists_exportAll separate
  have fits := linked.directoryEnd_le_iff
  constructor
  · rintro ⟨exported, isSome, directory, isDirectory, right⟩
    rw [isExported] at isSome
    split_ifs at isSome with isSmall
    cases isSome
    obtain ⟨hasExports, hasSize⟩ := fits.mp isSmall
    refine ⟨hasExports, ?_, hasSize⟩
    by_contra isMany
    have inRange : 2 ^ 16 < state.exports.length := Nat.lt_of_not_le isMany
    have isLast :=
      (right.entries (2 ^ 16) _ (List.getElem?_eq_getElem inRange)).ordinal
    have isWord :=
      loadWord_lt 2 directory.data
        (directory.addressOfNameOrdinals + 2 * 2 ^ 16)
    omega
  · rintro ⟨hasExports, areShort, hasSize⟩
    have few : state.exports.length < 2 ^ 31 := by omega
    refine
      ⟨_, isExported.trans (if_pos (fits.mpr ⟨hasExports, hasSize⟩)), _, rfl,
        ?_⟩
    have sameLength : (state.entries mem).length = state.exports.length :=
      List.length_map _
    have sameSize := namesSize_entries mem state
    have isCount :
        state.exportFuncCount = (state.exports.length : Int) :=
      linked.count.trans ((int32_natCast_eq_iff _).mpr few)
    have areEnds := ranges_directoryOf outfileName state.exports
      (state.entries mem) vaddr holder
    refine
      { disjoint := ?_
        ends := ?_
        untouched := ?_
        headed := ?_
        entries := ?_ }
    · rw [isCount, areEnds]
      exact ConsecutiveRanges.pairwise_starts 0 _
    · rw [isCount, areEnds, linked.len hasSize, if_neg hasExports,
        ← sum_partSizes]
      have notEmpty : partSizes outfileName state.exports ≠ [] :=
        List.cons_ne_nil _ _
      have isEnd := ConsecutiveRanges.getLast?_zip_starts 0 notEmpty
      rw [Nat.zero_add] at isEnd
      have isCast :=
        congrArg (Option.map fun position : Nat => (position : Int)) isEnd
      rw [Option.map_map] at isCast
      exact isCast
    · intro q isOutside
      rw [isCount] at isOutside ⊢
      exact untouched_directoryOf sameLength sameSize vaddr holder isOutside
    · rw [isCount, ← sameLength]
      exact headed_directoryOf (by omega) vaddr holder
    · intro i cell isExport
      have inRange := (List.getElem?_eq_some_iff.mp isExport).1
      exact
        linked.describes carries addresses few isExport (by omega) vaddr
          holder

/-- The directory of an object with an external function is right. -/
theorem directoryRight_functionsObject :
    DirectoryRight (.ofBytes 0x1000 functionsObject) (.ofString "a.dll")
      0x9000 (readOf (.ofBytes 0x1000 functionsObject) [0x1000]) :=
  (directoryRight_iff (.ofBytes 0x1000 functionsObject) (.ofString "a.dll")
    [0x1000] (readOf (.ofBytes 0x1000 functionsObject) [0x1000])
    (readObjects_eq_readOf (by decide +kernel)) 0x9000
    (by decide +kernel)).mpr
    (by decide +kernel)

/-- An object with a static function only. -/
def staticObject : List UInt8 :=
  objectFile [(".text", 16)] [symbolRecord "f" 0 1 3 0]

/-- Nothing is exported: nothing is allocated, but the directory is written. -/
theorem not_directoryRight_staticObject :
    (readObjects (.ofBytes 0x1000 staticObject) (.ofString "a.dll") {}
          [0x1000]).isSome ∧
      (readOf (.ofBytes 0x1000 staticObject) [0x1000]).Separate 0x9000 ∧
        (readOf (.ofBytes 0x1000 staticObject)
            [0x1000]).exportDirectoryLen = 0 ∧
          directoryEnd (.ofString "a.dll") 0 [] = 46 ∧
            ¬ DirectoryRight (.ofBytes 0x1000 staticObject)
              (.ofString "a.dll") 0x9000
              (readOf (.ofBytes 0x1000 staticObject) [0x1000]) := by
  refine
    ⟨by decide +kernel, by decide +kernel, by decide +kernel,
      by decide +kernel, ?_⟩
  rintro ⟨exported, isSome, _⟩
  have isFault :
      (exportAll (.ofBytes 0x1000 staticObject) (.ofString "a.dll") 0x9000
        (readOf (.ofBytes 0x1000 staticObject) [0x1000])).isNone := by
    decide +kernel
  rw [isSome] at isFault
  cases isFault

end BinTools.CoffObject
