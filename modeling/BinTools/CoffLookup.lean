import BinTools.CoffExportDirectory
import BinTools.DtHashTable

namespace BinTools.CoffObject

open ByteBuffer
open Coff (StringAt)
open DtHashTable

/-!
# Looking up an export

`add_export` enters every symbol into the hash table under its number, which is
zero for the first one.  Zero also marks an empty bucket and the end of a
chain, so the first symbol is never found.
-/

/-- The names and numbers that the loops of `add_export` enter. -/
def hashEntries (exports : List SymbolChain) : List (CString × Nat) :=
  exports.zipIdx.map fun entry => (entry.1.name, u32 entry.2)

/-- The hash table after `add_export`, which is memory of its own. -/
def Exported.hashTable (exported : Exported) : Option (List Nat) :=
  addDtHashEntries initHashtable (hashEntries exported.link.state.exports)

/--
The comparison in `sysv_lookup_for_coff`; it faults in front of the directory.
-/
def ExportDirectory.isNamed
    (directory : ExportDirectory) (s : CString) (i : Nat) : Option Bool :=
  let sym := loadWord 4 directory.data (directory.addressOfNames + 4 * i)
  if directory.vaddrP ≤ sym then
    some (decide (StringAt directory.data (sym - directory.vaddrP) s))
  else
    none

/-- `sysv_lookup_for_coff` -/
def ExportDirectory.sysvLookupForCoff
    (directory : ExportDirectory) (hashtab : List Nat) (s : CString) :
    Option Nat :=
  (walk hashtab s (directory.isNamed s)).map fun i =>
    if i = 0 then 0 else directory.functionAt i

/-- What the table records for the first export of a name. -/
def ExportDirectory.recorded
    (directory : ExportDirectory) (exports : List SymbolChain)
    (name : CString) : Nat :=
  match exports.findIdx? fun cell => decide (cell.name = name) with
  | some i => directory.functionAt i
  | none => 0

/-- The table is filled, and every name is looked up in it. -/
def LookupRight (exported : Exported) (directory : ExportDirectory) : Prop :=
  ∃ hashtab, exported.hashTable = some hashtab ∧
    ∀ s, directory.sysvLookupForCoff hashtab s =
      some (directory.recorded exported.link.state.exports s)

/-- Where the name of an export stands in the directory. -/
def nameOffset
    (outfileName : CString) (exports : List SymbolChain) (i : Nat) : Nat :=
  sizeofExportDirectory + outfileName.length + 1 + 10 * exports.length +
    ((exports.take i).map fun cell => cell.name.length + 1).sum

/-- The address of the first export of a name, zero if there is none. -/
def State.firstAddress
    (mem : Memory) (state : State) (exports : List SymbolChain)
    (name : CString) : Nat :=
  match exports.find? fun cell => decide (cell.name = name) with
  | some cell => u32 (state.entryOf mem cell).2
  | none => 0

/--
The exports fit the chains, the names of all but the first have an address
behind that of the section, and the first one is recorded with what is found
behind it.
-/
structure LookupFits
    (mem : Memory) (outfileName : CString) (state : State) (vaddr : Nat) :
    Prop where
  few : state.exports.length ≤ 148
  names :
    ∀ i < state.exports.length, i ≠ 0 →
      vaddr + nameOffset outfileName state.exports i < 2 ^ 32
  first :
    ∀ cell ∈ state.exports.head?,
      u32 (state.entryOf mem cell).2 =
        state.firstAddress mem state.exports.tail cell.name

instance
    (mem : Memory) (outfileName : CString) (state : State) (vaddr : Nat) :
    Decidable (LookupFits mem outfileName state vaddr) :=
  decidable_of_iff
    (state.exports.length ≤ 148 ∧
      (∀ i < state.exports.length, i ≠ 0 →
        vaddr + nameOffset outfileName state.exports i < 2 ^ 32) ∧
      ∀ cell ∈ state.exports.head?,
        u32 (state.entryOf mem cell).2 =
          state.firstAddress mem state.exports.tail cell.name)
    ⟨fun ⟨few, names, first⟩ => ⟨few, names, first⟩,
      fun ⟨few, names, first⟩ => ⟨few, names, first⟩⟩

/-! ## The entries of the table -/

/-- The entries of exports that are numbered from a number on. -/
def entriesFrom (number : Nat) (exports : List SymbolChain) :
    List (CString × Nat) :=
  (exports.zipIdx number).map fun entry => (entry.1.name, entry.2)

/-- An entry is an export with its number. -/
theorem mem_entriesFrom
    {number : Nat} {exports : List SymbolChain} {entry : CString × Nat}
    (member : entry ∈ entriesFrom number exports) :
    number ≤ entry.2 ∧
      ∃ cell, exports[entry.2 - number]? = some cell ∧
        entry.1 = cell.name := by
  obtain ⟨numbered, isNumbered, rfl⟩ := List.mem_map.mp member
  obtain ⟨inRange, isAt⟩ :=
    List.mem_zipIdx_iff_le_and_getElem?_sub.mp isNumbered
  exact ⟨inRange, _, isAt, rfl⟩

/-- Few exports keep their numbers. -/
theorem hashEntries_eq
    {exports : List SymbolChain} (few : exports.length < 2 ^ 32) :
    hashEntries exports = entriesFrom 0 exports := by
  refine List.map_congr_left fun entry member => ?_
  obtain ⟨_, inRange, _⟩ := List.mem_zipIdx member
  have isWord : u32 entry.2 = entry.2 := by
    unfold u32
    omega
  rw [isWord]

/-- The numbers of entries. -/
theorem map_snd_entriesFrom (number : Nat) (exports : List SymbolChain) :
    (entriesFrom number exports).map Prod.snd =
      List.range' number exports.length := by
  unfold entriesFrom
  rw [List.map_map]
  exact List.zipIdx_map_snd number exports

/-- The found number and the found export agree. -/
theorem firstOf_entriesFrom
    {directory : ExportDirectory} {address : SymbolChain → Nat}
    {number : Nat} {exports : List SymbolChain} (notZero : number ≠ 0)
    (areRecorded :
      ∀ i cell, exports[i]? = some cell →
        directory.functionAt (number + i) = address cell)
    (name : CString) :
    (if IndexChains.firstOf (entriesFrom number exports) name = 0 then
        0
      else
        directory.functionAt
          (IndexChains.firstOf (entriesFrom number exports) name)) =
      match exports.find? fun cell => decide (cell.name = name) with
      | some cell => address cell
      | none => 0 := by
  induction exports generalizing number with
  | nil => rfl
  | cons cell rest inductionHypothesis =>
      have isFirst := areRecorded 0 cell rfl
      have later :=
        inductionHypothesis (Nat.succ_ne_zero number) fun i other isOther => by
          rw [Nat.succ_add_eq_add_succ]
          exact areRecorded (i + 1) other isOther
      unfold IndexChains.firstOf entriesFrom at later ⊢
      rw [List.zipIdx_cons, List.map_cons, List.find?_cons, List.find?_cons]
      by_cases isNamed : cell.name = name
      · simp only [decide_eq_true isNamed]
        exact (if_neg notZero).trans isFirst
      · simp only [decide_eq_false isNamed]
        exact later

/-- What is recorded for a name is the address of its first export. -/
theorem recorded_eq
    {directory : ExportDirectory} {address : SymbolChain → Nat}
    {number : Nat} {exports : List SymbolChain}
    (areRecorded :
      ∀ i cell, exports[i]? = some cell →
        directory.functionAt (number + i) = address cell)
    (name : CString) :
    (match exports.findIdx? fun cell => decide (cell.name = name) with
      | some i => directory.functionAt (number + i)
      | none => 0) =
      match exports.find? fun cell => decide (cell.name = name) with
      | some cell => address cell
      | none => 0 := by
  induction exports generalizing number with
  | nil => rfl
  | cons cell rest inductionHypothesis =>
      have isFirst := areRecorded 0 cell rfl
      have laterRecorded :
          ∀ i other, rest[i]? = some other →
            directory.functionAt (number + 1 + i) = address other := by
        intro i other isOther
        rw [Nat.succ_add_eq_add_succ]
        exact areRecorded (i + 1) other isOther
      have later := inductionHypothesis laterRecorded
      rw [List.findIdx?_cons, List.find?_cons]
      by_cases isNamed : cell.name = name
      · simp only [decide_eq_true isNamed, if_true]
        exact isFirst
      · simp only [decide_eq_false isNamed, Bool.false_eq_true, if_false]
        rw [← later]
        cases rest.findIdx? fun cell => decide (cell.name = name) with
        | none => rfl
        | some i =>
            exact
              congrArg directory.functionAt
                (Nat.succ_add_eq_add_succ number i).symm

/-! ## The comparisons -/

/-- A name is compared where it was written. -/
theorem State.Linked.isNamed_eq
    {mem : Memory} {outfileName : CString} {state : State}
    (linked : state.Linked mem outfileName)
    (isSmall : directorySize outfileName state.exports < 2 ^ 31) {i : Nat}
    {cell : SymbolChain} (isExport : state.exports[i]? = some cell)
    (vaddr holder : Nat) (s : CString) :
    (directoryOf outfileName state.exportFuncCount (state.entries mem) vaddr
        holder).isNamed s i =
      if vaddr + nameOffset outfileName state.exports i < 2 ^ 32 then
        some (decide (cell.name = s))
      else
        none := by
  have isSize := directorySize_eq outfileName state.exports
  have few : state.exports.length < 2 ^ 31 := by omega
  have inRange := (List.getElem?_eq_some_iff.mp isExport).1
  have sameLength : (state.entries mem).length = state.exports.length :=
    List.length_map _
  have isEntry :
      (state.entries mem)[i]? = some (state.entryOf mem cell) := by
    unfold State.entries
    rw [List.getElem?_map, isExport]
    rfl
  have sameNames :
      namesSize ((state.entries mem).take i) =
        ((state.exports.take i).map fun cell => cell.name.length + 1).sum := by
    unfold namesSize State.entries
    rw [← List.map_take, List.map_map]
    rfl
  have inFront :=
    ConsecutiveRanges.sum_map_take_add_le isExport fun cell =>
      cell.name.length + 1
  rw [linked.count, (int32_natCast_eq_iff _).mpr few]
  obtain ⟨ordinals, functions, names, c⟩ :=
    exportTables_natCast outfileName state.exports.length vaddr
  have separated :
      (exportTables outfileName state.exports.length vaddr).Separated
        (state.entries mem).length := by
    constructor <;> omega
  have holds := ExportCursor.holds_writeAll vaddr separated
  have isOffset :
      (exportTables outfileName state.exports.length vaddr).c +
          namesSize ((state.entries mem).take i) =
        nameOffset outfileName state.exports i := by
    unfold nameOffset
    rw [c, sameNames]
  have isName := holds.names i (by omega)
  have isString := holds.strings i _ isEntry
  rw [isOffset] at isName isString
  have isInside : nameOffset outfileName state.exports i < 2 ^ 31 := by
    unfold nameOffset
    omega
  unfold directoryOf ExportDirectory.isNamed
  dsimp only
  rw [isName]
  unfold u32
  split_ifs with isAbove fits fits
  · have isPlace :
        (vaddr + nameOffset outfileName state.exports i) % 2 ^ 32 - vaddr =
          nameOffset outfileName state.exports i := by
      rw [Nat.mod_eq_of_lt fits, Nat.add_sub_cancel_left]
    rw [isPlace]
    exact
      congrArg some
        (decide_eq_decide.mpr
          ⟨fun isHere => isString.unique isHere,
            fun isSame => isSame ▸ isString⟩)
  · omega
  · rw [Nat.mod_eq_of_lt fits] at isAbove
    exact absurd (Nat.le_add_right _ _) isAbove
  · rfl

/-! ## The table of some exports -/

/-- Exports are numbered through. -/
theorem entriesFrom_append
    (number : Nat) (front back : List SymbolChain) :
    entriesFrom number (front ++ back) =
      entriesFrom number front ++
        entriesFrom (number + front.length) back := by
  unfold entriesFrom
  rw [List.zipIdx_append, List.map_append]

/-- Entries are added one list after the other. -/
theorem addDtHashEntries_append
    (words : List Nat) (front back : List (CString × Nat)) :
    addDtHashEntries words (front ++ back) =
      (addDtHashEntries words front).bind fun next =>
        addDtHashEntries next back :=
  List.foldlM_append

/-- Numbers from one on below the capacity. -/
theorem entriesFrom_one_inside
    {exports : List SymbolChain} (few : exports.length < 148) :
    ∀ entry ∈ entriesFrom 1 exports, entry.2 ≠ 0 ∧ entry.2 < 148 := by
  intro entry member
  obtain ⟨isBehind, cell, isAt, _⟩ := mem_entriesFrom member
  have inRange := (List.getElem?_eq_some_iff.mp isAt).1
  omega

/-- The table of some exports holds all but the first one. -/
theorem exists_hashTable
    (cell : SymbolChain) {rest : List SymbolChain} (few : rest.length < 148) :
    ∃ hashtab,
      addDtHashEntries initHashtable (entriesFrom 0 (cell :: rest)) =
          some hashtab ∧
        Filled hashtab 100 148 (entriesFrom 1 rest) := by
  obtain ⟨first, isFirst, firstFilled⟩ :=
    filled_initHashtable.addDtHashEntry_zero (by decide) cell.name
  have distinct :
      (([] ++ entriesFrom 1 rest).map Prod.snd).Nodup := by
    rw [List.nil_append, map_snd_entriesFrom]
    exact List.nodup_range'
  obtain ⟨hashtab, isTable, filled⟩ :=
    firstFilled.addDtHashEntries (by decide) (entriesFrom_one_inside few)
      distinct
  rw [List.nil_append] at filled
  refine ⟨hashtab, ?_, filled⟩
  rw [entriesFrom, List.zipIdx_cons, List.map_cons, addDtHashEntries,
    List.foldlM_cons, isFirst]
  exact isTable

/-- The table of too many exports leads beyond its end. -/
theorem leads_of_many
    {exports : List SymbolChain} (isMany : 148 < exports.length)
    {hashtab : List Nat}
    (isTable :
      addDtHashEntries initHashtable (entriesFrom 0 exports) =
        some hashtab) :
    ∃ bucket < 100,
      Leads hashtab 100 (fun i => i < exports.length) bucket 148 ∧
        hashtab.length = 250 := by
  obtain ⟨cell, tail, rfl⟩ :=
    List.exists_cons_of_length_pos (Nat.zero_lt_of_lt isMany)
  obtain ⟨front, crossing, back, isSplit, isFront⟩ :
      ∃ front crossing back,
        tail = front ++ crossing :: back ∧ front.length = 147 := by
    have inRange : 147 < tail.length := Nat.lt_of_succ_lt_succ isMany
    refine
      ⟨tail.take 147, tail[147], tail.drop 148, ?_,
        List.length_take_of_le (Nat.le_of_lt inRange)⟩
    rw [List.getElem_cons_drop, List.take_append_drop]
  have isConcat :
      entriesFrom 0 (cell :: tail) =
        entriesFrom 0 (cell :: front) ++
          (crossing.name, 148) :: entriesFrom 149 back := by
    rw [isSplit, ← List.cons_append, entriesFrom_append, List.length_cons,
      isFront]
    rfl
  have isShort : front.length < 148 := by omega
  obtain ⟨held, isHeld, filled⟩ := exists_hashTable cell isShort
  rw [isConcat, addDtHashEntries_append, isHeld, Option.bind_some,
    addDtHashEntries, List.foldlM_cons] at isTable
  obtain ⟨next, isNext, isTable⟩ := Option.bind_eq_some_iff.mp isTable
  have areVisited :
      ∀ entry ∈ entriesFrom 1 front, entry.2 < (cell :: tail).length := by
    intro entry member
    have inside := entriesFrom_one_inside isShort entry member
    omega
  obtain ⟨leads, sameLength⟩ :
      Leads next 100 (fun i => i < (cell :: tail).length)
          (bucketOf 100 crossing.name) 148 ∧
        next.length = held.length :=
    filled.leads (by decide) (Nat.succ_ne_zero 147) areVisited isMany isNext
  obtain ⟨stillLeads, stillLength⟩ := leads.addDtHashEntries isTable
  exact
    ⟨bucketOf 100 crossing.name, Nat.mod_lt _ (by decide), stillLeads,
      stillLength.trans (sameLength.trans filled.holds.length)⟩

/-! ## The lookups of some exports -/

/-- What a directory says about its exports. -/
structure Tells
    (directory : ExportDirectory) (exports : List SymbolChain)
    (address : SymbolChain → Nat) (fits : Nat → Prop) [DecidablePred fits] :
    Prop where
  function :
    ∀ i cell, exports[i]? = some cell → directory.functionAt i = address cell
  named :
    ∀ i cell, exports[i]? = some cell → ∀ s,
      directory.isNamed s i =
        if fits i then some (decide (cell.name = s)) else none

section Lookups

variable
  {directory : ExportDirectory} {exports : List SymbolChain}
  {address : SymbolChain → Nat} {fits : Nat → Prop} [DecidablePred fits]
  {hashtab : List Nat}

/-- No export is found under a name that none of them has. -/
theorem Tells.isNamed_ne_true
    (tells : Tells directory exports address fits) {s : CString}
    (isFresh : s ∉ exports.map SymbolChain.name) {i : Nat}
    (inRange : i < exports.length) :
    directory.isNamed s i ≠ some true := by
  rw [tells.named i _ (List.getElem?_eq_getElem inRange)]
  split_ifs
  · intro isHit
    have isName : exports[i].name = s :=
      of_decide_eq_true (Option.some.inj isHit)
    exact
      isFresh (isName ▸ List.mem_map_of_mem (List.getElem_mem inRange))
  · exact (Option.some_ne_none true).symm

/-- Beyond the chains some lookup faults. -/
theorem Tells.length_le
    (tells : Tells directory exports address fits)
    (isTable :
      addDtHashEntries initHashtable (entriesFrom 0 exports) = some hashtab)
    (areFound :
      ∀ s, directory.sysvLookupForCoff hashtab s =
        some (directory.recorded exports s)) :
    exports.length ≤ 148 := by
  by_contra isMany
  obtain ⟨bucket, isBucket, leads, length⟩ :=
    leads_of_many (Nat.lt_of_not_le isMany) isTable
  obtain ⟨s, isFresh, rfl⟩ :=
    exists_name (exports.map SymbolChain.name) isBucket
  have isFault : walk hashtab s (directory.isNamed s) = none :=
    leads.walk_eq_none (by decide) (by decide) (Nat.le_of_eq length)
      fun i inRange => tells.isNamed_ne_true isFresh inRange
  have isFound := areFound s
  unfold ExportDirectory.sysvLookupForCoff at isFound
  rw [isFault] at isFound
  cases isFound

/-- A name in front of the directory makes a lookup in its bucket fault. -/
theorem Tells.fits_of_found
    (tells : Tells directory exports address fits) {first : SymbolChain}
    {rest : List SymbolChain} (isSplit : exports = first :: rest)
    (filled : Filled hashtab 100 148 (entriesFrom 1 rest))
    (areFound :
      ∀ s, directory.sysvLookupForCoff hashtab s =
        some (directory.recorded exports s))
    {i : Nat} (inRange : i < exports.length) (notFirst : i ≠ 0) :
    fits i := by
  by_contra isUnfit
  have isExport := List.getElem?_eq_getElem inRange
  obtain ⟨s, isFresh, sameBucket⟩ :=
    exists_name (exports.map SymbolChain.name)
      (Nat.mod_lt (sysvHash exports[i].name).toNat (by decide : 100 > 0))
  have isEntry : (exports[i].name, i) ∈ entriesFrom 1 rest := by
    refine List.mem_map.mpr ⟨(exports[i], i), ?_, rfl⟩
    refine
      List.mem_zipIdx_iff_le_and_getElem?_sub.mpr
        ⟨Nat.one_le_iff_ne_zero.mpr notFirst, ?_⟩
    obtain ⟨j, rfl⟩ := Nat.exists_eq_succ_of_ne_zero notFirst
    have isNext : exports[j + 1]? = rest[j]? := by
      rw [isSplit]
      rfl
    exact isNext.symm.trans isExport
  have inChain :
      i ∈ IndexChains.chainOf (bucketOf 100) (entriesFrom 1 rest)
        (bucketOf 100 s) := by
    refine
      List.mem_map.mpr ⟨_, List.mem_filter.mpr ⟨isEntry, ?_⟩, rfl⟩
    exact decide_eq_true sameBucket.symm
  have noHit :
      ∀ index ∈ IndexChains.chainOf (bucketOf 100) (entriesFrom 1 rest)
          (bucketOf 100 s),
        directory.isNamed s index ≠ some true := by
    intro index member
    obtain ⟨entry, isMember, rfl⟩ := List.mem_map.mp member
    obtain ⟨isBehind, cell, isAt, _⟩ :=
      mem_entriesFrom (List.mem_of_mem_filter isMember)
    have isShort := (List.getElem?_eq_some_iff.mp isAt).1
    refine tells.isNamed_ne_true isFresh ?_
    rw [isSplit, List.length_cons]
    omega
  have isFault : walk hashtab s (directory.isNamed s) = none :=
    (filled.walk_eq (by decide) (by decide) s _).trans
      (IndexChains.firstHit_eq_none noHit inChain
        ((tells.named i _ isExport s).trans (if_neg isUnfit)))
  have isFound := areFound s
  unfold ExportDirectory.sysvLookupForCoff at isFound
  rw [isFault] at isFound
  cases isFound

/-- Where nothing faults, a lookup finds the first export behind the first. -/
theorem Tells.sysvLookupForCoff_eq
    (tells : Tells directory exports address fits) {first : SymbolChain}
    {rest : List SymbolChain} (isSplit : exports = first :: rest)
    (filled : Filled hashtab 100 148 (entriesFrom 1 rest))
    (allFit : ∀ i < exports.length, i ≠ 0 → fits i) (s : CString) :
    directory.sysvLookupForCoff hashtab s =
      some
        (match rest.find? fun cell => decide (cell.name = s) with
        | some cell => address cell
        | none => 0) := by
  have isHit :
      ∀ entry ∈ entriesFrom 1 rest,
        directory.isNamed s entry.2 = some (decide (entry.1 = s)) := by
    intro entry member
    obtain ⟨isBehind, cell, isAt, isName⟩ := mem_entriesFrom member
    have inRange := (List.getElem?_eq_some_iff.mp isAt).1
    have isExport : exports[entry.2]? = some cell := by
      obtain ⟨j, isNext⟩ := Nat.exists_eq_add_of_le' isBehind
      rw [isNext, Nat.add_sub_cancel] at isAt
      rw [isNext, isSplit]
      exact isAt
    rw [tells.named _ _ isExport, if_pos, isName]
    exact
      allFit entry.2 (List.getElem?_eq_some_iff.mp isExport).1
        (Nat.ne_of_gt isBehind)
  have areRecorded :
      ∀ i cell, rest[i]? = some cell →
        directory.functionAt (1 + i) = address cell := by
    intro i cell isAt
    apply tells.function
    rw [isSplit, Nat.add_comm]
    exact isAt
  unfold ExportDirectory.sysvLookupForCoff
  rw [filled.walk_eq (by decide) (by decide), IndexChains.firstHit_chainOf isHit,
    Option.map_some, firstOf_entriesFrom (Nat.succ_ne_zero 0) areRecorded]

/-- What is recorded for a name is the address of its first export. -/
theorem Tells.recorded_eq
    (tells : Tells directory exports address fits) (s : CString) :
    directory.recorded exports s =
      match exports.find? fun cell => decide (cell.name = s) with
      | some cell => address cell
      | none => 0 := by
  have areRecorded :
      ∀ i cell, exports[i]? = some cell →
        directory.functionAt (0 + i) = address cell := by
    intro i cell isAt
    rw [Nat.zero_add]
    exact tells.function i cell isAt
  have isRecorded := CoffObject.recorded_eq areRecorded s
  simp only [Nat.zero_add] at isRecorded
  exact isRecorded

/-- When all lookups are right. -/
theorem Tells.lookups_iff
    (tells : Tells directory exports address fits)
    {first : SymbolChain} {rest : List SymbolChain}
    (isSplit : exports = first :: rest) :
    (∃ hashtab,
        addDtHashEntries initHashtable (entriesFrom 0 exports) =
            some hashtab ∧
          ∀ s, directory.sysvLookupForCoff hashtab s =
            some (directory.recorded exports s)) ↔
      exports.length ≤ 148 ∧
        (∀ i < exports.length, i ≠ 0 → fits i) ∧
          address first =
            match rest.find? fun cell => decide (cell.name = first.name) with
            | some cell => address cell
            | none => 0 := by
  constructor
  · rintro ⟨hashtab, isTable, areFound⟩
    have few := tells.length_le isTable areFound
    have isShort : rest.length < 148 := by
      rw [isSplit, List.length_cons] at few
      exact few
    obtain ⟨held, isHeld, filled⟩ := exists_hashTable first isShort
    rw [← isSplit, isTable] at isHeld
    cases isHeld
    have allFit : ∀ i < exports.length, i ≠ 0 → fits i :=
      fun i inRange notFirst =>
        tells.fits_of_found isSplit filled areFound inRange notFirst
    have isFound := areFound first.name
    rw [tells.sysvLookupForCoff_eq isSplit filled allFit, tells.recorded_eq,
      isSplit, List.find?_cons, decide_eq_true rfl] at isFound
    exact ⟨few, allFit, (Option.some.inj isFound).symm⟩
  · rintro ⟨few, allFit, sameAddress⟩
    have isShort : rest.length < 148 := by
      rw [isSplit, List.length_cons] at few
      exact few
    obtain ⟨hashtab, isTable, filled⟩ := exists_hashTable first isShort
    refine ⟨hashtab, isSplit ▸ isTable, fun s => ?_⟩
    rw [tells.sysvLookupForCoff_eq isSplit filled allFit, tells.recorded_eq,
      isSplit, List.find?_cons]
    by_cases isNamed : first.name = s
    · subst isNamed
      rw [decide_eq_true rfl, ← sameAddress]
    · rw [decide_eq_false isNamed]

end Lookups

/--
For every run over objects whose directory is filled, all lookups are right
exactly when the exports fit the chains, the names can be addressed and the
first export has the address of the next one of its name, or zero.
-/
theorem lookupRight_iff_lookupFits
    (mem : Memory) (outfileName : CString) (bases : List Nat)
    (state : State)
    (isRead : readObjects mem outfileName {} bases = some state)
    (sec : Nat) (separate : state.Separate sec) (exported : Exported)
    (isExported : exportAll mem outfileName sec state = some exported)
    (directory : ExportDirectory)
    (isDirectory : exported.directory = some directory) :
    LookupRight exported directory ↔
      LookupFits mem outfileName state directory.vaddrP := by
  have linked := (State.linked_start mem outfileName).readObjects isRead
  obtain ⟨link, vaddr, holder, carries, addresses, isFilled⟩ :=
    linked.exists_exportAll separate
  rw [isExported] at isFilled
  split_ifs at isFilled with isSmall
  cases isFilled
  cases isDirectory
  obtain ⟨hasExports, hasSize⟩ := linked.directoryEnd_le_iff.mp isSmall
  have isSize := directorySize_eq outfileName state.exports
  have few : state.exports.length < 2 ^ 31 := by omega
  obtain ⟨first, rest, isSplit⟩ := List.exists_cons_of_ne_nil hasExports
  have tells :
      Tells
        (directoryOf outfileName state.exportFuncCount (state.entries mem)
          vaddr holder)
        state.exports (fun cell => u32 (state.entryOf mem cell).2)
        (fun i => vaddr + nameOffset outfileName state.exports i < 2 ^ 32) :=
    { function := fun i cell isExport =>
        linked.functionAt_eq few isExport vaddr holder
      named := fun i cell isExport s =>
        linked.isNamed_eq hasSize isExport vaddr holder s }
  have sameLookups := tells.lookups_iff isSplit
  rw [← hashEntries_eq (by omega), ← carries.exports_eq] at sameLookups
  refine sameLookups.trans ?_
  rw [carries.exports_eq]
  constructor
  · rintro ⟨isFew, names, sameAddress⟩
    refine
      { few := isFew
        names := names
        first := ?_ }
    rw [isSplit]
    rintro cell isFirst
    cases isFirst
    exact sameAddress
  · rintro ⟨isFew, names, sameAddress⟩
    refine ⟨isFew, names, ?_⟩
    rw [isSplit] at sameAddress
    exact sameAddress first rfl

/-- An object with two records of one function. -/
def twiceObject : List UInt8 :=
  objectFile [(".text", 16)]
    [symbolRecord "f" 4 1 2 0, symbolRecord "f" 4 1 2 0]

/-- The second record is found, and it has the address of the first. -/
theorem lookupRight_twiceObject :
    ∃ exported ∈
        exportAll (.ofBytes 0x1000 twiceObject) (.ofString "a.dll") 0x9000
          (readOf (.ofBytes 0x1000 twiceObject) [0x1000]),
      ∃ directory ∈ exported.directory, LookupRight exported directory := by
  have isFilled :
      ∃ exported ∈
          exportAll (.ofBytes 0x1000 twiceObject) (.ofString "a.dll") 0x9000
            (readOf (.ofBytes 0x1000 twiceObject) [0x1000]),
        ∃ directory ∈ exported.directory,
          LookupFits (.ofBytes 0x1000 twiceObject) (.ofString "a.dll")
            (readOf (.ofBytes 0x1000 twiceObject) [0x1000])
            directory.vaddrP := by
    decide +kernel
  obtain ⟨exported, isExported, directory, isDirectory, fits⟩ := isFilled
  exact
    ⟨exported, isExported, directory, isDirectory,
      (lookupRight_iff_lookupFits (.ofBytes 0x1000 twiceObject)
        (.ofString "a.dll") [0x1000]
        (readOf (.ofBytes 0x1000 twiceObject) [0x1000])
        (readObjects_eq_readOf (by decide +kernel)) 0x9000
        (by decide +kernel) exported isExported directory isDirectory).mpr
        fits⟩

/-- The only function of an object is not found. -/
theorem not_lookupRight_functionsObject :
    (readObjects (.ofBytes 0x1000 functionsObject) (.ofString "a.dll") {}
          [0x1000]).isSome ∧
      (readOf (.ofBytes 0x1000 functionsObject) [0x1000]).Separate 0x9000 ∧
        ∃ exported ∈
            exportAll (.ofBytes 0x1000 functionsObject) (.ofString "a.dll")
              0x9000 (readOf (.ofBytes 0x1000 functionsObject) [0x1000]),
          ∃ directory ∈ exported.directory,
            ¬ LookupRight exported directory := by
  refine ⟨by decide +kernel, by decide +kernel, ?_⟩
  have isLost :
      ∃ exported ∈
          exportAll (.ofBytes 0x1000 functionsObject) (.ofString "a.dll")
            0x9000 (readOf (.ofBytes 0x1000 functionsObject) [0x1000]),
        ∃ directory ∈ exported.directory,
          ∃ hashtab ∈ exported.hashTable,
            directory.sysvLookupForCoff hashtab (.ofString "g") ≠
              some
                (directory.recorded exported.link.state.exports
                  (.ofString "g")) := by
    decide +kernel
  obtain ⟨exported, isExported, directory, isDirectory, hashtab, isTable,
    notFound⟩ := isLost
  refine ⟨exported, isExported, directory, isDirectory, ?_⟩
  rintro ⟨other, isOther, areFound⟩
  cases isOther.symm.trans isTable
  exact notFound (areFound (.ofString "g"))

end BinTools.CoffObject
