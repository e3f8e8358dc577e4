import BinTools.CoffExportLink

namespace BinTools.CoffObject

open ByteBuffer

/-!
# The addresses in the export address table

The section of a symbol is chosen while the symbols are read, its address is
taken when the table is filled.  The walk that chooses it stops at the first
section, so a symbol of another section gets its right address only where both
sections lie at the same address.
-/

/-- The section that a symbol's section number, counted from one, names. -/
def ObjectChain.sectionOf
    (mem : Memory) (oc : ObjectChain) (cell : SymbolChain) : Option Nat :=
  oc.sections[((mem.imageSymbol cell.p).sectionNumber - 1).toNat]?

/-- The header that the section number names in the object's own table. -/
def ObjectChain.headerOf
    (mem : Memory) (oc : ObjectChain) (cell : SymbolChain) : Option Nat :=
  (mem.sectionAddresses
    oc.mapBase)[((mem.imageSymbol cell.p).sectionNumber - 1).toNat]?

/-- The number of an object's symbol among all exports. -/
def State.exportIndex (state : State) (o j : Nat) : Nat :=
  ((state.objects.take o).flatMap ObjectChain.symbols).length + j

/--
The table entry of a symbol is the address of the symbol's own section plus
the symbol's value.
-/
def RecordsAddress
    (mem : Memory) (outfileName : CString) (sec : Nat) (state : State)
    (o j : Nat) : Prop :=
  ∃ exported ∈ exportAll mem outfileName sec state,
    ∃ directory ∈ exported.directory,
      ∃ oc ∈ state.objects[o]?, ∃ cell ∈ oc.symbols[j]?,
        ∃ id ∈ oc.sectionOf mem cell,
          ∃ schain ∈ exported.link.state.sections[id]?,
            some schain.p = oc.headerOf mem cell ∧
              directory.functionAt (state.exportIndex o j) =
                schain.virtualAddress + (mem.imageSymbol cell.p).value

instance
    (mem : Memory) (outfileName : CString) (sec : Nat) (state : State)
    (o j : Nat) : Decidable (RecordsAddress mem outfileName sec state o j) :=
  inferInstanceAs (Decidable (∃ exported ∈ _, _))

/--
The section of a symbol is placed where the first section of its object is, and
the symbol's address and the size of the directory fit their words.
-/
def PlacedLikeFirst
    (mem : Memory) (outfileName : CString) (state : State)
    (oc : ObjectChain) (cell : SymbolChain) : Prop :=
  directorySize outfileName state.exports < 2 ^ 31 ∧
    ∃ first ∈ oc.sections.head?, ∃ id ∈ oc.sectionOf mem cell,
      state.addressOf mem first = state.addressOf mem id ∧
        state.addressOf mem id + (mem.imageSymbol cell.p).value < 2 ^ 32

instance
    (mem : Memory) (outfileName : CString) (state : State)
    (oc : ObjectChain) (cell : SymbolChain) :
    Decidable (PlacedLikeFirst mem outfileName state oc cell) :=
  inferInstanceAs (Decidable (_ ∧ _))

/-- The symbols of an object among all exports. -/
theorem getElem?_flatMap_symbols
    {objects : List ObjectChain} {o j : Nat} {oc : ObjectChain}
    {cell : SymbolChain}
    (isObject : objects[o]? = some oc) (isCell : oc.symbols[j]? = some cell) :
    (objects.flatMap ObjectChain.symbols)[
        ((objects.take o).flatMap ObjectChain.symbols).length + j]? =
      some cell := by
  obtain ⟨inRange, isAt⟩ := List.getElem?_eq_some_iff.mp isObject
  have isSplit :
      objects = objects.take o ++ oc :: objects.drop (o + 1) := by
    rw [← isAt, List.getElem_cons_drop, List.take_append_drop]
  have inSymbols := (List.getElem?_eq_some_iff.mp isCell).1
  conv_lhs => rw [isSplit]
  rw [List.flatMap_append, List.flatMap_cons,
    List.take_append_of_le_length (by rw [List.length_take]; omega),
    List.take_take, Nat.min_self,
    List.getElem?_append_right (Nat.le_add_right _ _),
    Nat.add_sub_cancel_left, List.getElem?_append_left inSymbols]
  exact isCell

/-- The entries of a directory that fits are what was written. -/
theorem State.Linked.functionAt_eq
    {mem : Memory} {outfileName : CString} {state : State}
    (linked : state.Linked mem outfileName)
    (few : state.exports.length < 2 ^ 31) {index : Nat} {cell : SymbolChain}
    (isExport : state.exports[index]? = some cell) (vaddr sec : Nat) :
    (directoryOf outfileName state.exportFuncCount (state.entries mem) vaddr
        sec).functionAt index =
      u32 (state.entryOf mem cell).2 := by
  have sameLength : (state.entries mem).length = state.exports.length :=
    List.length_map _
  have isEntry :
      (state.entries mem)[index]? = some (state.entryOf mem cell) := by
    unfold State.entries
    rw [List.getElem?_map, isExport]
    rfl
  rw [linked.count, (int32_natCast_eq_iff _).mpr few]
  obtain ⟨ordinals, functions, names, c⟩ :=
    exportTables_natCast outfileName state.exports.length vaddr
  have separated :
      (exportTables outfileName state.exports.length vaddr).Separated
        (state.entries mem).length := by
    constructor <;> omega
  exact
    (ExportCursor.holds_writeAll vaddr separated).functions index
      (state.entryOf mem cell) isEntry

/-- A sum of a word is another word's sum only if the words are the same. -/
theorem u32_add_eq_add_iff
    {first second value : Nat} (isWord : first < 2 ^ 32)
    (isOtherWord : second < 2 ^ 32) :
    u32 (first + value) = second + value ↔
      first = second ∧ second + value < 2 ^ 32 := by
  unfold u32
  omega

/--
For every run over objects and every exported symbol of a section of its
object, the recorded address is right exactly when that section lies where the
first section of the object lies.
-/
theorem recordsAddress_iff_placedLikeFirst
    (mem : Memory) (outfileName : CString) (bases : List Nat)
    (state : State)
    (isRead : readObjects mem outfileName {} bases = some state)
    (sec : Nat) (separate : state.Separate sec)
    (o j : Nat) (oc : ObjectChain) (isObject : state.objects[o]? = some oc)
    (cell : SymbolChain) (isCell : oc.symbols[j]? = some cell)
    (isDefined :
      1 ≤ (mem.imageSymbol cell.p).sectionNumber ∧
        (mem.imageSymbol cell.p).sectionNumber ≤
          mem.numberOfSections oc.mapBase) :
    RecordsAddress mem outfileName sec state o j ↔
      PlacedLikeFirst mem outfileName state oc cell := by
  have linked := (State.linked_start mem outfileName).readObjects isRead
  have headed :=
    (State.headed_start mem).readObjects
      (State.linked_start mem outfileName) isRead
  have isMember := List.mem_of_getElem? isObject
  have right := linked.cells oc isMember cell (List.mem_of_getElem? isCell)
  obtain ⟨first, rest, isSections⟩ :=
    List.exists_cons_of_ne_nil right.sections
  have isHead : oc.sections.head? = some first := by
    rw [isSections]
    rfl
  have areHeaders :
      oc.sections.map (pointerAt state.sections) =
        mem.sectionAddresses oc.mapBase :=
    headed (oc.outline) (List.mem_map_of_mem isMember) right.sections
  have inRange :
      ((mem.imageSymbol cell.p).sectionNumber - 1).toNat <
        oc.sections.length := by
    have sameLength := congrArg List.length areHeaders
    unfold Memory.sectionAddresses at sameLength
    rw [List.length_map, CountedLoop.length_visited] at sameLength
    omega
  obtain ⟨id, isId⟩ : ∃ id, oc.sectionOf mem cell = some id :=
    ⟨_, List.getElem?_eq_getElem inRange⟩
  have isSection : id ∈ oc.sections := List.mem_of_getElem? isId
  have isPresent := linked.section_lt isMember isSection
  have isExport :
      state.exports[state.exportIndex o j]? = some cell :=
    getElem?_flatMap_symbols isObject isCell
  have hasExports : state.exports ≠ [] := by
    rintro noExports
    rw [noExports] at isExport
    cases isExport
  have isEntry :
      (state.entryOf mem cell).2 =
        state.addressOf mem first + (mem.imageSymbol cell.p).value := by
    unfold State.entryOf
    rw [right.schain, isHead]
    rfl
  have isWord : ∀ other, state.addressOf mem other < 2 ^ 32 :=
    fun other => Nat.mod_lt _ (Nat.two_pow_pos 32)
  obtain ⟨link, vaddr, holder, carries, addresses, isExported⟩ :=
    linked.exists_exportAll separate
  have sameLength := congrArg List.length carries.pointers
  rw [List.length_map, List.length_append, List.length_map,
    List.length_singleton] at sameLength
  have inArena : id < link.state.sections.length := by omega
  have isAt := List.getElem?_eq_getElem inArena
  have isAddress :
      (link.state.sections[id]).virtualAddress = state.addressOf mem id := by
    rw [← addresses id isPresent, addressAt, List.getD_eq_getElem _ _ inArena]
  have fits := linked.directoryEnd_le_iff
  constructor
  · rintro ⟨exported, isSome, directory, isDirectory, object, isObject',
      symbol, isSymbol, number, isNumber, schain, isSchain, _, isRecorded⟩
    rw [isExported] at isSome
    split_ifs at isSome with isSmall
    · cases isSome
      cases isDirectory
      cases isObject.symm.trans isObject'
      cases isCell.symm.trans isSymbol
      cases isId.symm.trans isNumber
      cases isAt.symm.trans isSchain
      obtain ⟨_, hasSize⟩ := fits.mp isSmall
      have few : state.exports.length < 2 ^ 31 := by
        have isSize := directorySize_eq outfileName state.exports
        omega
      rw [linked.functionAt_eq few isExport, isEntry, isAddress,
        u32_add_eq_add_iff (isWord first) (isWord id)] at isRecorded
      exact ⟨hasSize, first, isHead, id, isId, isRecorded⟩
    · cases isSome
  · rintro ⟨hasSize, other, isFirst, number, isNumber, isSame⟩
    cases isHead.symm.trans isFirst
    cases isId.symm.trans isNumber
    have few : state.exports.length < 2 ^ 31 := by
      have isSize := directorySize_eq outfileName state.exports
      omega
    refine
      ⟨_, isExported.trans (if_pos (fits.mpr ⟨hasExports, hasSize⟩)), _, rfl,
        oc, isObject, cell, isCell, id, isId, _, isAt, ?_, ?_⟩
    · unfold ObjectChain.headerOf
      have isHeader : pointerAt link.state.sections id =
          (link.state.sections[id]).p := by
        unfold pointerAt
        rw [List.getD_eq_getElem _ _ inArena]
      rw [← areHeaders, List.getElem?_map, ← isHeader,
        carries.pointerAt_eq isPresent]
      exact congrArg (Option.map (pointerAt state.sections)) isId.symm
    · rw [linked.functionAt_eq few isExport, isEntry, isAddress]
      exact (u32_add_eq_add_iff (isWord first) (isWord id)).mpr isSame

/-- The linker after some objects that can be read. -/
def readOf (mem : Memory) (bases : List Nat) : State :=
  (readObjects mem (.ofString "a.dll") {} bases).getD {}

/-- Objects that can be read are read to `readOf`. -/
theorem readObjects_eq_readOf
    {mem : Memory} {bases : List Nat}
    (reads : (readObjects mem (.ofString "a.dll") {} bases).isSome) :
    readObjects mem (.ofString "a.dll") {} bases = some (readOf mem bases) :=
  (Option.some_get reads).symm.trans
    (congrArg some (Option.get_eq_getD _))

/-- The external function of the object of two functions. -/
def functionG : SymbolChain where
  p := 0x1000 + 130
  name := .ofString "g"
  schain := some 0

/-- A function in the first section of its object has its address. -/
theorem recordsAddress_functionsObject :
    RecordsAddress (.ofBytes 0x1000 functionsObject) (.ofString "a.dll")
      0x9000 (readOf (.ofBytes 0x1000 functionsObject) [0x1000]) 1 0 :=
  (recordsAddress_iff_placedLikeFirst (.ofBytes 0x1000 functionsObject)
    (.ofString "a.dll") [0x1000]
    (readOf (.ofBytes 0x1000 functionsObject) [0x1000])
    (readObjects_eq_readOf (by decide +kernel)) 0x9000 (by decide +kernel)
    1 0
    { symbolTableP := 0x1000 + 76
      strTableP := 0x1000 + 148
      mapBase := 0x1000
      sections := [0]
      symbols := [functionG]
      exportSymbolNum := 1 }
    (by decide +kernel) functionG (by decide +kernel)
    (by decide +kernel)).mpr
    (by decide +kernel)

/-- An object with a variable in its second section. -/
def variableObject : List UInt8 :=
  objectFile [(".text", 16), (".data", 8)] [symbolRecord "v" 4 2 2 0]

/-- The variable gets an address in the first section. -/
theorem not_recordsAddress_variableObject :
    (readObjects (.ofBytes 0x1000 variableObject) (.ofString "a.dll") {}
          [0x1000]).isSome ∧
      (readOf (.ofBytes 0x1000 variableObject) [0x1000]).Separate 0x9000 ∧
        ((readOf (.ofBytes 0x1000 variableObject) [0x1000]).exports.map
            fun cell =>
              ((Memory.ofBytes 0x1000 variableObject).imageSymbol
                cell.p).sectionNumber) = [2] ∧
          ¬ RecordsAddress (.ofBytes 0x1000 variableObject)
            (.ofString "a.dll") 0x9000
            (readOf (.ofBytes 0x1000 variableObject) [0x1000]) 1 0 := by
  decide +kernel

end BinTools.CoffObject
