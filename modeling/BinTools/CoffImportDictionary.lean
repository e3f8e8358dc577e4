import BinTools.CoffDictionary
import BinTools.CoffImportTables

/-!
# The import data of the linker's dictionary

`init_hashtable` registers five functions.  An entry is filed when it has no
stub address, and the address it then gets is zero at most once in a row of
stubs, so six imports are filed at most.  The import data of six imports with
short names is far below 2^31 bytes.
-/

namespace BinTools.CoffDictionary.DllHashTable

/-- The entries of each bucket in the order of their chains. -/
def entries (table : DllHashTable) : List (List Coff.DllSymbol) :=
  table.bucket.map fun head =>
    ((PointerList.follow table.next table.chains.length head).getD
      []).filterMap table.symbol

/-- A table that is represented by lists has these entries. -/
theorem Represents.entries_eq
    {table : DllHashTable} {chains : Nat → List Coff.DllSymbol}
    (represents : table.Represents chains) :
    table.entries = (List.range 10).map chains := by
  obtain ⟨isTen, lists, holds⟩ := represents
  apply List.ext_getElem
  · rw [entries, List.length_map, List.length_map, List.length_range, isTen]
  · intro bucket inEntries inChains
    have inTable : bucket < table.bucket.length := by
      simpa [entries] using inEntries
    have linked := holds.linked bucket inTable
    rw [List.getD_eq_getElem?_getD, List.getElem?_eq_getElem inTable,
      Option.getD_some] at linked
    have followed := linked.follow_eq (holds.length_le inTable)
    have isMap := holds.entries bucket inTable
    have isFilter :
        (lists bucket).filterMap table.symbol = chains bucket := by
      have sameOptions :
          (lists bucket).filterMap table.symbol =
            ((lists bucket).map table.symbol).filterMap id := by
        rw [List.filterMap_map]
        rfl
      rw [sameOptions, isMap, List.filterMap_map]
      exact List.filterMap_some
    simp [entries, followed, isFilter]

end BinTools.CoffDictionary.DllHashTable

namespace BinTools.Coff

open ByteBuffer CoffDictionary

/-- The calls of `alloc_dynamic_symbol` that `init_hashtable` makes. -/
def initDllHashTableCalls : List (CString × CString) :=
  [(.ofString "f1", .ofString "ex65"),
    (.ofString "ExitProcess", .ofString "kernel32"),
    (.ofString "GetStdHandle", .ofString "kernel32"),
    (.ofString "WriteFile", .ofString "kernel32"),
    (.ofString "MessageBoxA", .ofString "user32")]

/-- `DLLHashTable` behind `init_hashtable`. -/
def initDllHashTable : Option (List (List DllSymbol)) :=
  (DllHashTable.init.allocDynamicSymbols initDllHashTableCalls).map
    DllHashTable.entries

/-- An entry has no stub address. -/
def DllSymbol.isUnset (entry : DllSymbol) : Bool :=
  entry.ever = 0

/-- The names of an entry are not longer than this. -/
def DllSymbol.IsShort (longest : Nat) (entry : DllSymbol) : Prop :=
  entry.name.length ≤ longest ∧ entry.dll.length ≤ longest

instance (longest : Nat) (entry : DllSymbol) :
    Decidable (entry.IsShort longest) :=
  inferInstanceAs (Decidable (_ ∧ _))

/-- The number of entries without a stub address. -/
def Config.unset (config : Config) : Nat :=
  config.dllHashTable.flatten.countP DllSymbol.isUnset

/--
What holds after some imports were filed from a dictionary of short names: an
entry got an address for each of them, except for one that got address zero.
-/
structure Limited
    (functions longest filed : Nat) (config : Config) : Prop where
  short : ∀ entry ∈ config.dllHashTable.flatten, entry.IsShort longest
  left :
    config.unset + filed ≤ functions ∨
      config.unset + filed ≤ functions + 1 ∧
        ∃ since, 1 ≤ since ∧ since ≤ filed ∧
          config.pltOffset = BitVec.ofNat 32 (6 * since)
  size :
    importDataSize config.initialImport ≤ 20 + filed * (56 + 2 * longest)

/-- Nothing is filed before the first import. -/
theorem limited_start
    {config : Config} {longest : Nat} (isEmpty : config.initialImport = [])
    (short : ∀ entry ∈ config.dllHashTable.flatten, entry.IsShort longest) :
    Limited config.unset longest 0 config where
  short := short
  left := Or.inl (Nat.le_refl _)
  size := by
    rw [isEmpty]
    exact Nat.le_add_right _ _

variable {functions longest filed : Nat} {config later : Config}

/-- The address of the next stub behind the address zero. -/
theorem stub_add_six (since : Nat) :
    BitVec.ofNat 32 (6 * since) + 6 = BitVec.ofNat 32 (6 * (since + 1)) := by
  rw [Nat.mul_add, Nat.mul_one, BitVec.ofNat_add]
  rfl

/-- The next stubs behind the address zero have other addresses. -/
theorem stub_ne_zero
    {since : Nat} (isPast : 1 ≤ since) (fits : 6 * since < 2 ^ 32) :
    BitVec.ofNat 32 (6 * since) ≠ 0 := by
  intro isZero
  have sameNumber := congrArg BitVec.toNat isZero
  rw [BitVec.toNat_ofNat, Nat.mod_eq_of_lt fits] at sameNumber
  have isNothing : 6 * since = 0 := sameNumber
  omega

/-- One import more than there are functions is filed at most. -/
theorem Limited.filed_le (limited : Limited functions longest filed config) :
    filed ≤ functions + 1 := by
  have left := limited.left
  omega

/-- An import takes its entry from those without an address. -/
theorem FilesImport.unset_eq
    {name : CString} {entry : DllSymbol}
    (files : FilesImport config later name entry) :
    later.unset + 1 =
      config.unset + if config.pltOffset = 0 then 1 else 0 := by
  obtain ⟨before, front, back, after, isTable, isLater⟩ := files.dllHashTable
  have wasUnset : entry.isUnset = true := by
    simpa [DllSymbol.isUnset] using files.unset
  have isNow :
      DllSymbol.isUnset { entry with ever := config.pltOffset } =
        decide (config.pltOffset = 0) := rfl
  unfold Config.unset
  rw [isTable, isLater]
  simp only [List.flatten_append, List.flatten_cons, List.countP_append,
    List.countP_cons, wasUnset, isNow, decide_eq_true_eq, if_true]
  omega

/-- An import keeps the names of all entries short. -/
theorem FilesImport.short
    {name : CString} {entry : DllSymbol}
    (files : FilesImport config later name entry)
    (short : ∀ entry ∈ config.dllHashTable.flatten, entry.IsShort longest) :
    entry.IsShort longest ∧
      ∀ entry ∈ later.dllHashTable.flatten, entry.IsShort longest := by
  obtain ⟨before, front, back, after, isTable, isLater⟩ := files.dllHashTable
  rw [isTable] at short
  rw [isLater]
  simp only [List.flatten_append, List.flatten_cons, List.forall_mem_append,
    List.forall_mem_cons] at short ⊢
  obtain ⟨inBefore, ⟨inFront, isShort, inBack⟩, inAfter⟩ := short
  exact ⟨isShort, inBefore, ⟨inFront, isShort, inBack⟩, inAfter⟩

/-- One import more is filed. -/
theorem Limited.file
    (limited : Limited functions longest filed config)
    (fits : 6 * (functions + 1) < 2 ^ 32)
    {name : CString} {entry : DllSymbol}
    (files : FilesImport config later name entry) :
    Limited functions longest (filed + 1) later where
  short := (files.short limited.short).2
  left := by
    have isUnset := files.unset_eq
    have isLater := files.pltOffset
    have inRange := limited.filed_le
    rcases limited.left with before | ⟨behind, since, isPast, inFiled, isPlt⟩
    · by_cases isZero : config.pltOffset = 0
      · rw [if_pos isZero] at isUnset
        rw [isZero] at isLater
        exact
          Or.inr
            ⟨by omega, 1, Nat.le_refl _, Nat.le_add_left _ _, isLater⟩
      · rw [if_neg isZero] at isUnset
        exact Or.inl (by omega)
    · have notZero : config.pltOffset ≠ 0 := by
        rw [isPlt]
        exact stub_ne_zero isPast (by omega)
      rw [if_neg notZero] at isUnset
      refine
        Or.inr ⟨by omega, since + 1, by omega, by omega, ?_⟩
      rw [isLater, isPlt, stub_add_six]
  size := by
    obtain ⟨nameShort, dllShort⟩ := (files.short limited.short).1
    have size := limited.size
    rw [files.sameName] at nameShort
    rw [files.initialImport, importDataSize_insert, Nat.add_mul, Nat.one_mul]
    split_ifs <;> omega

/-- A relocation files an import or none. -/
theorem Limited.coffResolve
    (limited : Limited functions longest filed config)
    (fits : 6 * (functions + 1) < 2 ^ 32) {arg : CallbackArgIn}
    (isLater : Coff.coffResolve config arg = some later) :
    ∃ filed, Limited functions longest filed later := by
  rcases coffResolve_cases isLater with same | ⟨entry, files⟩
  · exact
      ⟨filed,
        { short := by
            rw [same.dllHashTable]
            exact limited.short
          left := by
            rw [Config.unset, same.dllHashTable, same.pltOffset]
            exact limited.left
          size := by
            rw [same.initialImport]
            exact limited.size }⟩
  · exact ⟨filed + 1, limited.file fits files⟩

/-- A run of relocations. -/
theorem Limited.resolveAll
    {final : Config} {args : List CallbackArgIn}
    (limited : Limited functions longest filed config)
    (fits : 6 * (functions + 1) < 2 ^ 32)
    (isFinal : Coff.resolveAll config args = some final) :
    ∃ filed, Limited functions longest filed final := by
  unfold Coff.resolveAll at isFinal
  induction args generalizing config filed with
  | nil =>
      cases isFinal
      exact ⟨filed, limited⟩
  | cons arg rest inductionHypothesis =>
      rw [List.foldlM_cons] at isFinal
      obtain ⟨next, isNext, isFinal⟩ := Option.bind_eq_some_iff.mp isFinal
      obtain ⟨count, nextLimited⟩ := limited.coffResolve fits isNext
      exact inductionHypothesis nextLimited isFinal

/-- The five functions are registered, with names of twelve letters at most. -/
theorem initDllHashTable_short :
    ∀ table ∈ initDllHashTable,
      table.flatten.countP DllSymbol.isUnset = 5 ∧
        ∀ entry ∈ table.flatten, entry.IsShort 12 := by
  decide +kernel

/--
The import data is right for every run of relocations with the linker's
dictionary.
-/
theorem importDataRight_initDllHashTable
    (start : Config) (isDictionary : initDllHashTable = some start.dllHashTable)
    (isEmpty : start.initialImport = [])
    (isZero : start.importDirectoryLen = 0) (args : List CallbackArgIn)
    (final : Config) (isFinal : resolveAll start args = some final)
    (plt : Bytes) : ImportDataRight final plt := by
  obtain ⟨isFive, short⟩ := initDllHashTable_short _ isDictionary
  obtain ⟨filed, limited⟩ :=
    (limited_start isEmpty short).resolveAll (by
      rw [Config.unset, isFive]
      decide) isFinal
  have inRange := limited.filed_le
  have size := limited.size
  rw [Config.unset, isFive] at inRange
  refine
    (importDataRight_iff start isEmpty isZero args final isFinal plt).mpr ?_
  omega

/-- Three functions of two DLLs. -/
theorem importDataRight_initDllHashTable_three :
    ∃ table ∈ initDllHashTable,
      ∃ final ∈
          resolveAll { Sample.config with dllHashTable := table }
            [Sample.call Sample.exitProcess, Sample.call Sample.f1,
              Sample.call Sample.writeFile],
        final.initialImport.length = 2 ∧
          ImportDataRight final fun _ => 0 := by
  have resolves :
      ∃ table ∈ initDllHashTable,
        ∃ final ∈
            resolveAll { Sample.config with dllHashTable := table }
              [Sample.call Sample.exitProcess, Sample.call Sample.f1,
                Sample.call Sample.writeFile],
          final.initialImport.length = 2 := by
    decide +kernel
  obtain ⟨table, isTable, final, isFinal, areTwo⟩ := resolves
  exact
    ⟨table, isTable, final, isFinal, areTwo,
      importDataRight_initDllHashTable
        { Sample.config with dllHashTable := table } isTable rfl rfl
        [Sample.call Sample.exitProcess, Sample.call Sample.f1,
          Sample.call Sample.writeFile]
        final isFinal fun _ => 0⟩

end BinTools.Coff
