import BinTools.CoffExportDirectory
import BinTools.GuestMemory
import BinTools.PlacedMemory

namespace BinTools.CoffObject

open ByteBuffer
open Coff (StringAt)
open GuestMemory (Heap findHeap pageSize)

/-!
# Reading the export directory

The emulator maps an image and searches the names of its export directory.  All
addresses in the directory count from the image base, which is found from where
the directory itself is mapped.
-/

/-- `get_host_head` -/
def getHostHead (heaps : List Heap) (guestAddr : U32) : U64 :=
  let guestBegin := guestAddr &&& 0xfffff000
  match findHeap heaps (guestBegin.setWidth 64) with
  | some (h, _) => h.begin
  | none => 0

/-- `get_host_head_from_host`; nothing is written when it is not found. -/
def getHostHeadFromHost (heaps : List Heap) (hostAddr : U64) : Option U64 :=
  let hostPageHead := hostAddr &&& 0xfffffffffffff000
  heaps.findSome? fun h =>
    if h.guestAddr ≠ -1 then
      ((List.range h.pageNum.toNat).find? fun page =>
        hostPageHead = h.begin + BitVec.ofNat 64 (page * pageSize)).map
          fun _ => h.begin
    else
      none

/-- A pointer of 64 bits, some bytes behind another one. -/
def pointer (base offset : Nat) : Nat :=
  (base + offset) % 2 ^ 64

/-- `module_base_for_edata_section` -/
def moduleBase (edataAddr edataVirtualAddressOffset : Nat) : Nat :=
  pointer edataAddr (2 ^ 64 - edataVirtualAddressOffset)

/--
The address that is found, and whether it is taken for one within the export
section; that compares with a pointer which may not be initialised.
-/
structure FoundExport where
  address : Nat
  forward : Option Bool
  deriving DecidableEq, Repr

/-- `find_f_from_export_directory`; the end of the loop returns nothing. -/
def findFFromExportDirectory
    (heaps : List Heap) (memory : Bytes)
    (edataVirtualAddressOffset edataAddr : Nat) (query : CString) :
    Option FoundExport :=
  let base := moduleBase edataAddr edataVirtualAddressOffset
  let addrName := pointer base (loadWord 4 memory (edataAddr + 32))
  let addrFunction := pointer base (loadWord 4 memory (edataAddr + 28))
  let addrOrdinal := pointer base (loadWord 4 memory (edataAddr + 36))
  ((List.range (loadWord 4 memory (edataAddr + 24))).find? fun count =>
    decide
      (StringAt memory
        (pointer base (loadWord 4 memory (addrName + 4 * count))) query)).map
    fun count =>
      let r :=
        loadWord 4 memory
          (addrFunction + 4 * loadWord 2 memory (addrOrdinal + 2 * count))
      { address := r
        forward :=
          (getHostHeadFromHost heaps (BitVec.ofNat 64 edataAddr)).map
            fun head => decide (getHostHead heaps (BitVec.ofNat 32 r) = head) }

/-! ## Pointers and tables -/

/-- What counts from the image base stands behind the directory's start. -/
theorem pointer_moduleBase
    {edataAddr vaddr offset : Nat} (isWord : vaddr ≤ 2 ^ 64)
    (inRange : edataAddr + offset < 2 ^ 64) :
    pointer (moduleBase edataAddr vaddr) (vaddr + offset) =
      edataAddr + offset := by
  rw [pointer, moduleBase, pointer]
  omega

/-- A search by position finds the first item that fits. -/
theorem find?_range_eq_findIdx?
    {Item : Type} {items : List Item} {byPosition : Nat → Bool}
    {isSought : Item → Bool}
    (agree :
      ∀ i item, items[i]? = some item → byPosition i = isSought item) :
    (List.range items.length).find? byPosition = items.findIdx? isSought := by
  have agreeAt (i : Nat) (inRange : i < items.length) :
      byPosition i = isSought items[i] :=
    agree i _ (List.getElem?_eq_getElem inRange)
  cases isFirst : items.findIdx? isSought with
  | none =>
      rw [List.find?_range_eq_none]
      intro i inRange
      rw [List.findIdx?_eq_none_iff] at isFirst
      rw [agreeAt i inRange, isFirst _ (List.getElem_mem inRange)]
      rfl
  | some i =>
      obtain ⟨inRange, isHit, notEarlier⟩ :=
        List.findIdx?_eq_some_iff_getElem.mp isFirst
      rw [List.find?_range_eq_some]
      refine ⟨(agreeAt i inRange).trans isHit, List.mem_range.mpr inRange, ?_⟩
      intro j isEarlier
      rw [agreeAt j (by omega), Bool.not_eq_true']
      exact Bool.eq_false_of_not_eq_true (notEarlier j isEarlier)

/-! ## What is found -/

/-- The tables of some entries that are written. -/
theorem holds_directoryOf
    (outfileName : CString) (entries : List (CString × Nat))
    (vaddr holder : Nat) :
    (exportTables outfileName entries.length vaddr).Holds vaddr entries
      (directoryOf outfileName entries.length entries vaddr holder).data := by
  obtain ⟨ordinals, functions, names, c⟩ :=
    exportTables_natCast outfileName entries.length vaddr
  have separated :
      (exportTables outfileName entries.length vaddr).Separated
        entries.length := by
    constructor <;> omega
  exact ExportCursor.holds_writeAll vaddr separated

/-- The first entry of a name, by the number that its ordinal has. -/
def entryNamed (entries : List (CString × Nat)) (query : CString) :
    Option (CString × Nat) :=
  (entries.findIdx? fun entry => decide (entry.1 = query)).bind fun i =>
    entries[i % 2 ^ 16]?

section Mapped

variable
  {outfileName : CString} {entries : List (CString × Nat)}
  {vaddr holder size : Nat} {memory : Bytes} {edataAddr : Nat}

/-- A directory that is mapped, below the end of the address spaces. -/
structure MappedDirectory
    (outfileName : CString) (entries : List (CString × Nat))
    (vaddr holder : Nat) (memory : Bytes) (edataAddr : Nat) : Prop where
  notEmpty : entries ≠ []
  isWord :
    vaddr + directoryEnd outfileName entries.length entries ≤ 2 ^ 32
  inRange :
    edataAddr + directoryEnd outfileName entries.length entries ≤ 2 ^ 64
  isShown :
    (Translation.mappedAt edataAddr
        (directoryEnd outfileName entries.length entries)).Shows memory
      (directoryOf outfileName entries.length entries vaddr holder).data

/-- The size of the directory with its tables. -/
theorem directoryEnd_eq
    (outfileName : CString) (entries : List (CString × Nat)) :
    directoryEnd outfileName entries.length entries =
      sizeofExportDirectory + outfileName.length + 1 + 10 * entries.length +
        namesSize entries := by
  rw [directoryEnd, (exportTables_natCast outfileName entries.length 0).2.2.2]

/-- A name fits behind the names in front of it. -/
theorem namesSize_take_add_le
    {i : Nat} {entry : CString × Nat} (isEntry : entries[i]? = some entry) :
    namesSize (entries.take i) + (entry.1.length + 1) ≤ namesSize entries :=
  ConsecutiveRanges.sum_map_take_add_le isEntry fun entry =>
    entry.1.length + 1

namespace MappedDirectory

variable
  (mapped : MappedDirectory outfileName entries vaddr holder memory edataAddr)

include mapped

/-- Words are read as they were written. -/
theorem loadWord_eq
    {width offset : Nat}
    (inside :
      offset + width ≤ directoryEnd outfileName entries.length entries) :
    loadWord width memory (edataAddr + offset) =
      loadWord width
        (directoryOf outfileName entries.length entries vaddr holder).data
        offset :=
  mapped.isShown.loadWord_eq (Translation.mappedAt_covers inside)

/-- The fields of the header lead to the tables. -/
theorem pointer_field
    {field offset : Nat} (inHeader : field + 4 ≤ sizeofExportDirectory)
    (inside : offset < directoryEnd outfileName entries.length entries)
    (isField :
      loadWord 4
          (directoryOf outfileName entries.length entries vaddr holder).data
          field =
        u32 (vaddr + offset)) :
    pointer (moduleBase edataAddr vaddr)
        (loadWord 4 memory (edataAddr + field)) =
      edataAddr + offset := by
  have isWord := mapped.isWord
  have inRange := mapped.inRange
  have isEnd := directoryEnd_eq outfileName entries
  rw [mapped.loadWord_eq (by omega), isField, u32,
    Nat.mod_eq_of_lt (by omega)]
  exact pointer_moduleBase (by omega) (by omega)

/-- Each name is compared where it stands. -/
theorem stringAt_iff
    {i : Nat} {entry : CString × Nat} (isEntry : entries[i]? = some entry)
    (query : CString) :
    StringAt memory
        (pointer (moduleBase edataAddr vaddr)
          (loadWord 4 memory
            (edataAddr +
              ((exportTables outfileName entries.length vaddr).addressOfNames +
                4 * i))))
        query ↔
      entry.1 = query := by
  have isWord := mapped.isWord
  have inRange := mapped.inRange
  have isEnd := directoryEnd_eq outfileName entries
  have inNames := namesSize_take_add_le isEntry
  have inEntries := (List.getElem?_eq_some_iff.mp isEntry).1
  have holds := holds_directoryOf outfileName entries vaddr holder
  obtain ⟨ordinals, functions, names, c⟩ :=
    exportTables_natCast outfileName entries.length vaddr
  have isString := holds.strings i entry isEntry
  have isHere :
      StringAt memory
        (edataAddr +
          ((exportTables outfileName entries.length vaddr).c +
            namesSize (entries.take i)))
        entry.1 := by
    rw [StringAt,
      mapped.isShown.load_eq (Translation.mappedAt_covers (by omega))]
    exact isString
  rw [mapped.loadWord_eq (by omega), holds.names i inEntries, u32,
    Nat.mod_eq_of_lt (by omega),
    pointer_moduleBase (by omega) (by omega)]
  exact ⟨fun isThere => isHere.unique isThere, fun isSame => isSame ▸ isHere⟩

/-- The address behind a name's ordinal. -/
theorem function_eq
    {i : Nat} {entry : CString × Nat} (inEntries : i < entries.length)
    (isEntry : entries[i % 2 ^ 16]? = some entry) :
    loadWord 4 memory
        (edataAddr +
            (exportTables outfileName entries.length
              vaddr).addressOfFunctions +
          4 *
            loadWord 2 memory
              (edataAddr +
                  (exportTables outfileName entries.length
                    vaddr).addressOfNameOrdinals +
                2 * i)) =
      u32 entry.2 := by
  have isEnd := directoryEnd_eq outfileName entries
  have inTable := (List.getElem?_eq_some_iff.mp isEntry).1
  have holds := holds_directoryOf outfileName entries vaddr holder
  obtain ⟨ordinals, functions, names, c⟩ :=
    exportTables_natCast outfileName entries.length vaddr
  have isFirst : (exportTables outfileName entries.length vaddr).i = 0 := rfl
  have isOrdinal :
      loadWord 2 memory
          (edataAddr +
              (exportTables outfileName entries.length
                vaddr).addressOfNameOrdinals +
            2 * i) =
        i % 2 ^ 16 := by
    have isWritten := holds.ordinals i inEntries
    rw [isFirst, Nat.zero_add] at isWritten
    rw [Nat.add_assoc, mapped.loadWord_eq (by omega)]
    exact isWritten
  rw [isOrdinal, Nat.add_assoc, mapped.loadWord_eq (by omega)]
  exact holds.functions _ entry isEntry

/-- A name that is searched in a mapped directory is found as it was entered. -/
theorem findFFromExportDirectory_eq
    (heaps : List Heap) (query : CString) :
    (findFFromExportDirectory heaps memory vaddr edataAddr query).map
        FoundExport.address =
      (entryNamed entries query).map fun entry => u32 entry.2 := by
  have isWord := mapped.isWord
  have isEnd := directoryEnd_eq outfileName entries
  have positive := List.length_pos_iff.mpr mapped.notEmpty
  have headed :
      (directoryOf outfileName entries.length entries vaddr holder).Headed
        outfileName entries.length :=
    headed_directoryOf (by omega) vaddr holder
  obtain ⟨ordinals, functions, names, c⟩ :=
    exportTables_natCast outfileName entries.length vaddr
  have isCount : loadWord 4 memory (edataAddr + 24) = entries.length :=
    (mapped.loadWord_eq (by unfold sizeofExportDirectory at isEnd; omega)).trans
      headed.numberOfNames
  have isName :
      pointer (moduleBase edataAddr vaddr)
          (loadWord 4 memory (edataAddr + 32)) =
        edataAddr +
          (exportTables outfileName entries.length vaddr).addressOfNames :=
    mapped.pointer_field (by decide) (by omega) headed.addressOfNames
  have isFunction :
      pointer (moduleBase edataAddr vaddr)
          (loadWord 4 memory (edataAddr + 28)) =
        edataAddr +
          (exportTables outfileName entries.length vaddr).addressOfFunctions :=
    mapped.pointer_field (by decide) (by omega) headed.addressOfFunctions
  have isOrdinal :
      pointer (moduleBase edataAddr vaddr)
          (loadWord 4 memory (edataAddr + 36)) =
        edataAddr +
          (exportTables outfileName entries.length
            vaddr).addressOfNameOrdinals :=
    mapped.pointer_field (by decide) (by omega) headed.addressOfNameOrdinals
  have isSearch :
      (List.range entries.length).find? (fun i =>
          decide
            (StringAt memory
              (pointer (moduleBase edataAddr vaddr)
                (loadWord 4 memory
                  (edataAddr +
                      (exportTables outfileName entries.length
                        vaddr).addressOfNames +
                    4 * i)))
              query)) =
        entries.findIdx? fun entry => decide (entry.1 = query) := by
    apply find?_range_eq_findIdx?
    intro i entry isEntry
    rw [Nat.add_assoc]
    exact decide_eq_decide.mpr (mapped.stringAt_iff isEntry query)
  rw [findFFromExportDirectory]
  dsimp only
  rw [isName, isFunction, isOrdinal, isCount, isSearch, Option.map_map,
    entryNamed]
  cases isFirst : entries.findIdx? fun entry => decide (entry.1 = query) with
  | none => rfl
  | some i =>
      have inEntries := (List.findIdx?_eq_some_iff_getElem.mp isFirst).1
      have inTable : i % 2 ^ 16 < entries.length := by omega
      have isEntry := List.getElem?_eq_getElem inTable
      rw [Option.bind_some, isEntry, Option.map_some, Option.map_some]
      exact congrArg some (mapped.function_eq inEntries isEntry)

end MappedDirectory

end Mapped

/-! ## What was linked -/

/-- The first export of a name, by the number that its ordinal has. -/
def State.exportNamed (state : State) (query : CString) : Option SymbolChain :=
  (state.exports.findIdx? fun cell => decide (cell.name = query)).bind fun i =>
    state.exports[i % 2 ^ 16]?

/-- The entry of a name is that of its export. -/
theorem entryNamed_entries (mem : Memory) (state : State) (query : CString) :
    entryNamed (state.entries mem) query =
      (state.exportNamed query).map (state.entryOf mem) := by
  have sameSearch :
      (state.entries mem).findIdx? (fun entry => decide (entry.1 = query)) =
        state.exports.findIdx? fun cell => decide (cell.name = query) := by
    rw [State.entries, List.findIdx?_map]
    rfl
  rw [entryNamed, State.exportNamed, sameSearch, Option.map_bind]
  congr 1
  funext i
  rw [State.entries, List.getElem?_map]
  rfl

/--
For every run over objects whose export directory is filled and then mapped, a
name that is searched is found with the address that was recorded for its first
export, as long as the ordinal can number it, and no other name is found.
-/
theorem findFFromExportDirectory_exportAll
    (mem : Memory) (outfileName : CString) (bases : List Nat)
    (state : State)
    (isRead : readObjects mem outfileName {} bases = some state)
    (sec : Nat) (separate : state.Separate sec) (exported : Exported)
    (isExported : exportAll mem outfileName sec state = some exported)
    (directory : ExportDirectory)
    (isDirectory : exported.directory = some directory)
    (memory : Bytes) (edataAddr : Nat)
    (isWord :
      directory.vaddrP + directorySize outfileName state.exports ≤ 2 ^ 32)
    (inRange : edataAddr + directorySize outfileName state.exports ≤ 2 ^ 64)
    (isShown :
      (Translation.mappedAt edataAddr
          (directorySize outfileName state.exports)).Shows memory
        directory.data)
    (heaps : List Heap) (query : CString) :
    (findFFromExportDirectory heaps memory directory.vaddrP edataAddr
          query).map FoundExport.address =
      (state.exportNamed query).map fun cell =>
        u32 (state.entryOf mem cell).2 := by
  have linked := (State.linked_start mem outfileName).readObjects isRead
  obtain ⟨link, vaddr, holder, carries, addresses, isFilled⟩ :=
    linked.exists_exportAll separate
  rw [isExported] at isFilled
  split_ifs at isFilled with isSmall
  cases isFilled
  cases isDirectory
  obtain ⟨hasExports, hasSize⟩ := linked.directoryEnd_le_iff.mp isSmall
  have isSize := directorySize_eq outfileName state.exports
  have few : state.exports.length < 2 ^ 31 := by omega
  have sameLength : (state.entries mem).length = state.exports.length :=
    List.length_map _
  have isCount : state.exportFuncCount = ((state.entries mem).length : Int) := by
    rw [linked.count, (int32_natCast_eq_iff _).mpr few, sameLength]
  have isEnd := linked.directoryEnd_eq few
  rw [isCount] at isEnd isShown
  rw [← isEnd] at isWord inRange isShown
  have notEmpty : state.entries mem ≠ [] := by
    intro isEmpty
    exact hasExports (List.map_eq_nil_iff.mp isEmpty)
  have mapped :
      MappedDirectory outfileName (state.entries mem) vaddr holder memory
        edataAddr :=
    { notEmpty := notEmpty
      isWord := isWord
      inRange := inRange
      isShown := isShown }
  have isFound := mapped.findFFromExportDirectory_eq heaps query
  rw [entryNamed_entries, Option.map_map] at isFound
  exact isFound

/-- A function of an object is found in the mapped directory. -/
theorem findFFromExportDirectory_exportAll_functions :
    ∃ exported ∈
        exportAll (.ofBytes 0x1000 functionsObject) (.ofString "a.dll") 0x9000
          (readOf (.ofBytes 0x1000 functionsObject) [0x1000]),
      ∃ directory ∈ exported.directory,
        (findFFromExportDirectory []
              (fun position => directory.data (position - 0x7f0000000000))
              directory.vaddrP 0x7f0000000000 (.ofString "g")).map
            FoundExport.address =
          ((readOf (.ofBytes 0x1000 functionsObject)
                [0x1000]).exportNamed (.ofString "g")).map
            fun cell =>
              u32
                ((readOf (.ofBytes 0x1000 functionsObject) [0x1000]).entryOf
                  (.ofBytes 0x1000 functionsObject) cell).2 := by
  have isFilled :
      ∃ exported ∈
          exportAll (.ofBytes 0x1000 functionsObject) (.ofString "a.dll")
            0x9000 (readOf (.ofBytes 0x1000 functionsObject) [0x1000]),
        ∃ directory ∈ exported.directory,
          directory.vaddrP +
              directorySize (.ofString "a.dll")
                (readOf (.ofBytes 0x1000 functionsObject) [0x1000]).exports ≤
            2 ^ 32 := by
    decide +kernel
  obtain ⟨exported, isExported, directory, isDirectory, isWord⟩ := isFilled
  exact
    ⟨exported, isExported, directory, isDirectory,
      findFFromExportDirectory_exportAll (.ofBytes 0x1000 functionsObject)
        (.ofString "a.dll") [0x1000]
        (readOf (.ofBytes 0x1000 functionsObject) [0x1000])
        (readObjects_eq_readOf (by decide +kernel)) 0x9000
        (by decide +kernel) exported isExported directory isDirectory _ _
        isWord (by omega) (Translation.mappedAt_shows _ _ _) [] _⟩

end BinTools.CoffObject
