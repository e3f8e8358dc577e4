import BinTools.ElfExport
import BinTools.ElfResolve

namespace BinTools.Elf

/-!
# The values of the dynamic section

After the relocations `__z__link__set_dynanmic` fills `.dynamic`: one
`DT_NEEDED` for every needed library, then an entry for every word of
`DynamicEntryTag`.  File offsets are predicted by a running sum that starts
behind `.plt.got`.  The loop over the tags makes one step for every library too
many, so it reads words behind the tag array.
-/

/-- `DynamicEntryTag` -/
def dynamicEntryTag : List DynTag :=
  [.needed, .initArray, .initArraysz, .finiArray, .finiArraysz, .gnuHash,
    .rela, .relasz, .relaent, .symtab, .syment, .strtab, .strsz, .null]

/-- The word at an index of `DynamicEntryTag`, given the words behind it. -/
def tagAt (tagAfter : Nat → DynTag) (i : Nat) : DynTag :=
  (dynamicEntryTag[i]?).getD (tagAfter (i - dynamicEntryTag.length))

namespace Dynamic

/-- Store an entry at the cursor into the memory of `.dynamic`. -/
def writeDyn (d : Dynamic) (entry : DynEntry) : Option Dynamic :=
  if d.dynamicTable.entries.length < dynamicRoom then
    some
      { d with
        dynamicTable :=
          { d.dynamicTable with
            entries := d.dynamicTable.entries ++ [entry] } }
  else
    none

/-- The bytes of `.dynsym`, which are counted with one entry too many. -/
def dynsymBytes (d : Dynamic) : Nat :=
  (1 + d.dynsym.size) * sizeofSym

/--
The `switch` of `set_dynamic_entry`: the value of the entry, the offset after
it and the tables with their sizes written to their headers.  There is no
`.dt.hash` section, so that branch stores through a null pointer.
-/
def entryEffect (d : Dynamic) (offset : Nat) :
    DynTag → Option (Nat × Nat × Dynamic)
  | .needed => some (offset, offset, d)
  | .initArray => some (offset, u32 (offset + d.initArray.size), d)
  | .finiArray => some (offset, u32 (offset + d.finiArray.size), d)
  | .initArraysz =>
      some
        (d.initArray.size, offset,
          { d with initArray := d.initArray.setShSize d.initArray.size })
  | .finiArraysz =>
      some
        (d.finiArray.size, offset,
          { d with finiArray := d.finiArray.setShSize d.finiArray.size })
  | .hash => none
  | .gnuHash =>
      some
        (offset, u32 (offset + d.gnuHashSize),
          { d with gnuHashShSize := d.gnuHashSize })
  | .rela =>
      some
        (offset, u32 (offset + d.relaPlt.size),
          { d with
            relaPlt := d.relaPlt.setShSize d.relaPlt.size
            pltGotShSize := d.pltGotNum * 0x10 })
  | .relasz => some (d.relaPlt.size, offset, d)
  | .relaent => some (sizeofRela, offset, d)
  | .symtab =>
      some
        (offset, u32 (offset + d.dynsymBytes),
          { d with dynsym := d.dynsym.setShSize d.dynsymBytes })
  | .syment => some (sizeofSym, offset, d)
  | .strtab => some (offset, offset, d)
  | .strsz =>
      some
        (d.dynstr.size, u32 (offset + d.dynstr.size),
          { d with dynstr := d.dynstr.setShSize d.dynstr.size })
  | .null => some (0, offset, d)
  | .other _ => some (0, offset, d)

/-- `set_dynamic_entry` -/
def setDynamicEntry (d : Dynamic) (tag : DynTag) (offset : Nat) :
    Option (Dynamic × Nat) :=
  (d.entryEffect offset tag).bind fun (value, next, d) =>
    (d.writeDyn { dTag := tag, dVal := value }).map fun d => (d, next)

/--
The inner loop over the string table: from one string of the chunk being filled
to the one behind it.
-/
def nextString (d : Dynamic) (p : Nat) : Option Nat :=
  let name := CString.ofBytes (d.dynstr.current.entries.drop p)
  if p + name.length < defaultNum then some (p + 1 + name.length) else none

/-- The first loop of `__z__link__set_dynanmic`: the `DT_NEEDED` entries. -/
def setNeeded (d : Dynamic) (p : Nat) : Nat → Option Dynamic
  | 0 => some d
  | count + 1 =>
      (d.setDynamicEntry .needed p).bind fun (d, _) =>
        (d.nextString p).bind fun p =>
          setNeeded { d with dynamicEntryNum := d.dynamicEntryNum + 1 } p count

/-- One step of the second loop. -/
def setTag (tagAfter : Nat → DynTag) (state : Dynamic × Nat) (i : Nat) :
    Option (Dynamic × Nat) :=
  state.1.setDynamicEntry (tagAt tagAfter i) state.2

/-- `__z__link__set_dynanmic`: the tables and `out_size`. -/
def setDynanmic (d : Dynamic) (tagAfter : Nat → DynTag) :
    Option (Dynamic × Nat) :=
  let r := sub32 (d.pltAddress + d.pltGotNum * 0x10) d.baseAddress
  (d.setNeeded 1 d.neededNum).bind fun d =>
    let size := d.dynamicEntryNum * sizeofDyn
    (List.range' 1 d.dynamicEntryNum).foldlM (setTag tagAfter)
      ({ d with dynamicTable := { d.dynamicTable with shSize := size } },
        u32 (r + size))

/-- The sizes of the sections of `.dynamic` and the tables behind it. -/
def shSizes (d : Dynamic) : List (List Nat) :=
  [[d.dynamicTable.shSize], d.initArray.shSizes, d.finiArray.shSizes,
    [d.gnuHashShSize], d.relaPlt.shSizes, d.dynsym.shSizes, d.dynstr.shSizes]

end Dynamic

/-- A call that adds to the tables. -/
inductive TableCall where
  | addExport (name : CString) (shndx value : Nat)
  | addDynamicEntry (name : CString) (relType : Nat) (check : Bool)
  | addDynamicEntry2 (offset : Nat) (name : CString)
  | addRelaPltEntry (offset symIndex relType addend : Nat)
  | addInitArray (addr : Nat)
  | addFiniArray (addr : Nat)
  deriving DecidableEq, Repr

/-- Make a call that adds to the tables. -/
def Dynamic.call (d : Dynamic) : TableCall → Option Dynamic
  | .addExport name shndx value => d.addExport name shndx value
  | .addDynamicEntry name relType check =>
      (d.addDynamicEntry name relType check).map Prod.fst
  | .addDynamicEntry2 offset name => d.addDynamicEntry2 offset name
  | .addRelaPltEntry offset symIndex relType addend =>
      d.addRelaPltEntry offset symIndex relType addend
  | .addInitArray addr => d.addInitArray addr
  | .addFiniArray addr => d.addFiniArray addr

/-- No table has filled its first chunk. -/
structure Unfilled (d : Dynamic) : Prop where
  initArray : d.initArray.closed = []
  relaPlt : d.relaPlt.closed = []
  dynsym : d.dynsym.closed = []
  dynstr : d.dynstr.closed = []
  dynstrFits : d.dynstr.size ≤ defaultNum

instance (d : Dynamic) : Decidable (Unfilled d) :=
  decidable_of_iff
    (d.initArray.closed = [] ∧ d.relaPlt.closed = [] ∧
      d.dynsym.closed = [] ∧ d.dynstr.closed = [] ∧
      d.dynstr.size ≤ defaultNum)
    ⟨fun ⟨initArray, relaPlt, dynsym, dynstr, dynstrFits⟩ =>
        ⟨initArray, relaPlt, dynsym, dynstr, dynstrFits⟩,
      fun unfilled =>
        ⟨unfilled.initArray, unfilled.relaPlt, unfilled.dynsym,
          unfilled.dynstr, unfilled.dynstrFits⟩⟩

/-! ## What is right -/

/-- The offset at which the first chunk of a container is written. -/
def chunkOffset (positions : List (List Nat)) (index : Nat) : Option Nat :=
  (positions[index]?).bind List.head?

/-- The number of bytes written for a container. -/
def bytesWritten (sizes : List (List Nat)) (index : Nat) : Option Nat :=
  (sizes[index]?).map fun chunks => (chunks.map osWrite).sum

/--
The value of a dynamic entry, given where each table's section is written and
with how many bytes; the tables count from `.dynamic` on.
-/
def RightValue
    (libraries : List CString) (strings : List UInt8)
    (offset bytes : Nat → Option Nat) (index : Nat) (entry : DynEntry) :
    Prop :=
  match entry.dTag with
  | .needed =>
      ∃ name ∈ libraries[index]?, StoredAt strings entry.dVal name
  | .initArray => offset 1 = some entry.dVal
  | .initArraysz => bytes 1 = some entry.dVal
  | .finiArray => offset 2 = some entry.dVal
  | .finiArraysz => bytes 2 = some entry.dVal
  | .gnuHash => offset 3 = some entry.dVal
  | .rela => offset 4 = some entry.dVal
  | .relasz => bytes 4 = some entry.dVal
  | .relaent => entry.dVal = sizeofRela
  | .symtab => offset 5 = some entry.dVal
  | .syment => entry.dVal = sizeofSym
  | .strtab => offset 6 = some entry.dVal
  | .strsz => bytes 6 = some entry.dVal
  | .null => entry.dVal = 0
  | .hash => False
  | .other _ => False

/-- The tags in order: one `DT_NEEDED` a library, then the fixed entries. -/
def expectedTags (libraries : List CString) : List DynTag :=
  libraries.map (fun _ => .needed) ++ dynamicEntryTag.tail

/--
The first `dynamic_entry_num` entries of `.dynamic` are right: there is one for
every library, and the offsets are those at which the file is written.
-/
def ValuesRight
    (libraries : List CString) (link : Link) (d : Dynamic)
    (tagAfter : Nat → DynTag) : Prop :=
  ∃ result ∈ d.setDynanmic tagAfter,
    let written := result.1
    let positions :=
      genElf (link.setPltSize written.pltGotShSize) written.shSizes
    written.dynamicEntryNum = libraries.length + 13 ∧
      ∀ index < written.dynamicEntryNum,
        ∃ entry ∈ written.dynamicTable.entries[index]?,
          (expectedTags libraries)[index]? = some entry.dTag ∧
            RightValue libraries written.dynstr.head.entries
              (fun table =>
                chunkOffset positions (link.containers.length + table))
              (bytesWritten written.shSizes) index entry

/-! ## What the tables hold before the dynamic entries are set -/

/-- The strings of the needed libraries as they stand in the string table. -/
def libraryStrings (libraries : List CString) : List UInt8 :=
  libraries.flatMap fun name => name.bytes ++ [0]

/-- The sizes of tables that have not filled a chunk, and the libraries. -/
structure Ledger
    (baseAddress pltAddress : Nat) (libraries : List CString)
    (d : Dynamic) : Prop where
  baseAddress : d.baseAddress = baseAddress
  pltAddress : d.pltAddress = pltAddress
  neededNum : d.neededNum = libraries.length
  dynamicEntryNum : d.dynamicEntryNum = 13
  dynamicTable : d.dynamicTable = {}
  initArray :
    d.initArray.closed = [] →
      d.initArray.size = 8 * d.initArray.current.entries.length ∧
        d.initArray.current.entries.length ≤ arrayNum
  finiClosed : d.finiArray.closed = []
  finiArray :
    d.finiArray.size = 8 * d.finiArray.current.entries.length ∧
      d.finiArray.current.entries.length ≤ finiRoom
  relaPlt :
    d.relaPlt.closed = [] →
      d.relaPlt.size = sizeofRela * d.relaPlt.current.entries.length ∧
        d.relaPlt.current.entries.length ≤ defaultNum
  dynsym :
    d.dynsym.closed = [] →
      d.dynsym.size = d.dynsym.current.entries.length ∧
        d.dynsym.size ≤ defaultNum ∧
        d.gnuHashSize + 4 ≤ 56 + 4 * d.dynsym.size
  pltGot : d.pltGotNum ≤ defaultNum
  dynstr :
    d.dynstr.closed = [] →
      d.dynstr.size = d.dynstr.current.entries.length ∧
        0 :: libraryStrings libraries <+: d.dynstr.current.entries

/-- The tables before the first library. -/
theorem ledger_addDynamic (link : Link) :
    Ledger link.baseAddress link.pltAddress [] (addDynamic link) where
  baseAddress := rfl
  pltAddress := rfl
  neededNum := rfl
  dynamicEntryNum := rfl
  dynamicTable := rfl
  initArray := fun _ => ⟨rfl, Nat.zero_le _⟩
  finiClosed := rfl
  finiArray := ⟨rfl, Nat.zero_le _⟩
  relaPlt := fun _ => ⟨rfl, Nat.zero_le _⟩
  dynsym := fun _ =>
    ⟨rfl, (by decide : 1 ≤ defaultNum), (by decide : 56 + 4 ≤ 56 + 4 * 1)⟩
  pltGot := Nat.zero_le _
  dynstr := fun _ => ⟨rfl, List.prefix_refl _⟩

/-! ## Adding to the tables -/

namespace Ledger

variable
  {baseAddress pltAddress : Nat} {libraries : List CString}
  {d next : Dynamic}

/-- A string goes to the end of a chunk that stays open. -/
theorem addDynstrEntry
    {name : CString} {strOffset : Nat}
    (ledger : Ledger baseAddress pltAddress libraries d)
    (adds : d.addDynstrEntry name = some (next, strOffset)) :
    Ledger baseAddress pltAddress libraries next := by
  obtain ⟨same, _⟩ := Dynamic.addDynstrEntry_spec adds
  have strings :
      next.dynstr.closed = [] →
        next.dynstr.size = next.dynstr.current.entries.length ∧
          0 :: libraryStrings libraries <+:
            next.dynstr.current.entries := by
    unfold Dynamic.addDynstrEntry at adds
    dsimp only at adds
    by_cases full : defaultNum < d.dynstr.size + name.length
    · simp only [full, ↓reduceIte, Option.ite_none_left_eq_some,
        Option.some.injEq, Prod.mk.injEq] at adds
      obtain ⟨_, rfl, _⟩ := adds
      intro stillOpen
      simp [Table.addDynamicSc] at stillOpen
    · simp only [full, ↓reduceIte, Option.some.injEq, Prod.mk.injEq] at adds
      obtain ⟨rfl, _⟩ := adds
      intro stillOpen
      obtain ⟨size, strings⟩ := ledger.dynstr stillOpen
      refine ⟨by simp [size, CString.length, Nat.add_assoc], ?_⟩
      rw [List.append_assoc]
      exact strings.trans (List.prefix_append _ _)
  rw [same]
  exact { ledger with dynstr := strings }

/-- A symbol goes to the end of a chunk that stays open. -/
theorem addDynsymEntry
    {strOffset shndx value : Nat}
    (ledger : Ledger baseAddress pltAddress libraries d)
    (adds : d.addDynsymEntry strOffset shndx value = some next) :
    Ledger baseAddress pltAddress libraries next ∧
      (next.dynsym.closed = [] →
        d.dynsym.closed = [] ∧ next.dynsym.size = d.dynsym.size + 1) := by
  obtain ⟨same, _⟩ := Dynamic.addDynsymEntry_spec adds
  have symbols :
      next.dynsym.closed = [] →
        d.dynsym.closed = [] ∧
          next.dynsym.size = d.dynsym.size + 1 ∧
          next.dynsym.size = next.dynsym.current.entries.length ∧
          next.dynsym.size ≤ defaultNum := by
    obtain ⟨written, writes, rfl⟩ := Option.map_eq_some_iff.mp adds
    obtain ⟨room, rfl⟩ := Table.write_eq_some writes
    dsimp only
    split
    · intro stillOpen
      simp [Table.addDynamicSc] at stillOpen
    · intro stillOpen
      obtain ⟨size, _⟩ := ledger.dynsym stillOpen
      have count : u32 (d.dynsym.size + 1) = d.dynsym.size + 1 :=
        Nat.mod_eq_of_lt (by simp only [defaultNum] at room; omega)
      refine ⟨stillOpen, count, ?_, ?_⟩
      · rw [count, List.length_append, List.length_singleton, size]
      · rw [count, size]
        exact room
  refine ⟨?_, fun stillOpen =>
    ⟨(symbols stillOpen).1, (symbols stillOpen).2.1⟩⟩
  rw [same]
  refine { ledger with dynsym := ?_ }
  intro stillOpen
  obtain ⟨wasOpen, count, size, fits⟩ := symbols stillOpen
  obtain ⟨_, _, hashSize⟩ := ledger.dynsym wasOpen
  exact ⟨size, fits, by dsimp only; omega⟩

/-- A relocation record goes to the end of a chunk that stays open. -/
theorem addRelaPltEntry
    {offset symIndex relType addend : Nat}
    (ledger : Ledger baseAddress pltAddress libraries d)
    (adds : d.addRelaPltEntry offset symIndex relType addend = some next) :
    Ledger baseAddress pltAddress libraries next := by
  obtain ⟨written, writes, rfl⟩ := Option.map_eq_some_iff.mp adds
  obtain ⟨room, rfl⟩ := Table.write_eq_some writes
  refine { ledger with relaPlt := ?_ }
  dsimp only
  split
  · intro stillOpen
    simp [Table.addDynamicSc] at stillOpen
  · intro stillOpen
    obtain ⟨size, _⟩ := ledger.relaPlt stillOpen
    rw [List.length_append, List.length_singleton, size, Nat.mul_add]
    exact ⟨rfl, room⟩

/-- An address goes to the end of an array that stays open. -/
theorem addInitArray
    {addr : Nat}
    (ledger : Ledger baseAddress pltAddress libraries d)
    (adds : d.addInitArray addr = some next) :
    Ledger baseAddress pltAddress libraries next := by
  obtain ⟨written, writes, rfl⟩ := Option.map_eq_some_iff.mp adds
  obtain ⟨room, rfl⟩ := Table.write_eq_some writes
  refine { ledger with initArray := ?_ }
  dsimp only
  split
  · intro stillOpen
    simp [Table.addDynamicSc] at stillOpen
  · intro stillOpen
    obtain ⟨size, _⟩ := ledger.initArray stillOpen
    rw [List.length_append, List.length_singleton, size, Nat.mul_add]
    exact ⟨rfl, room⟩

/-- `.fini_array` never takes a new chunk. -/
theorem addFiniArray
    {addr : Nat}
    (ledger : Ledger baseAddress pltAddress libraries d)
    (adds : d.addFiniArray addr = some next) :
    Ledger baseAddress pltAddress libraries next := by
  obtain ⟨written, writes, rfl⟩ := Option.map_eq_some_iff.mp adds
  obtain ⟨room, rfl⟩ := Table.write_eq_some writes
  refine
    { ledger with
      finiClosed := ledger.finiClosed
      finiArray := ?_ }
  dsimp only
  rw [List.length_append, List.length_singleton, ledger.finiArray.1,
    Nat.mul_add]
  exact ⟨rfl, room⟩

/-- A `.plt.got` entry changes none of the sizes. -/
theorem addPltgotEntry
    {r : Nat}
    (ledger : Ledger baseAddress pltAddress libraries d)
    (adds : d.addPltgotEntry = some (next, r)) :
    Ledger baseAddress pltAddress libraries next := by
  unfold Dynamic.addPltgotEntry at adds
  split at adds
  · rename_i room
    cases adds
    exact { ledger with pltGot := room }
  · cases adds

/-- An export adds a string, a symbol and a hash word. -/
theorem addExport
    {name : CString} {shndx value : Nat}
    (ledger : Ledger baseAddress pltAddress libraries d)
    (adds : d.addExport name shndx value = some next) :
    Ledger baseAddress pltAddress libraries next := by
  obtain ⟨⟨first, strOffset⟩, strAdds, adds⟩ :=
    Option.bind_eq_some_iff.mp adds
  obtain ⟨second, symAdds, adds⟩ := Option.bind_eq_some_iff.mp adds
  obtain ⟨gnuHash, _, rfl⟩ := Option.map_eq_some_iff.mp adds
  have firstLedger := ledger.addDynstrEntry strAdds
  obtain ⟨secondLedger, grows⟩ := firstLedger.addDynsymEntry symAdds
  have sameHashSize : second.gnuHashSize = first.gnuHashSize := by
    rw [(Dynamic.addDynsymEntry_spec symAdds).1]
  refine { secondLedger with dynsym := ?_ }
  intro stillOpen
  obtain ⟨wasOpen, count⟩ := grows stillOpen
  obtain ⟨_, _, hashSize⟩ := firstLedger.dynsym wasOpen
  obtain ⟨size, fits, _⟩ := secondLedger.dynsym stillOpen
  exact ⟨size, fits, by dsimp only; omega⟩

/-- An import adds an entry of `.plt.got`, a string, a symbol and a record. -/
theorem addDynamicEntry
    {str : CString} {relType r : Nat} {check : Bool}
    (ledger : Ledger baseAddress pltAddress libraries d)
    (adds : d.addDynamicEntry str relType check = some (next, r)) :
    Ledger baseAddress pltAddress libraries next := by
  obtain ⟨_, _, rfl, _⟩ | ⟨_, adds⟩ := Dynamic.addDynamicEntry_eq_some adds
  · exact ledger
  · obtain ⟨⟨first, plt⟩, pltAdds, adds⟩ := Option.bind_eq_some_iff.mp adds
    obtain ⟨⟨second, strOffset⟩, strAdds, adds⟩ :=
      Option.bind_eq_some_iff.mp adds
    obtain ⟨third, symAdds, adds⟩ := Option.bind_eq_some_iff.mp adds
    obtain ⟨fourth, relaAdds, isNext⟩ := Option.map_eq_some_iff.mp adds
    cases isNext
    have firstLedger := ledger.addPltgotEntry pltAdds
    have secondLedger := firstLedger.addDynstrEntry strAdds
    have thirdLedger := (secondLedger.addDynsymEntry symAdds).1
    have fourthLedger := thirdLedger.addRelaPltEntry relaAdds
    exact { fourthLedger with }

/-- An import without an entry of `.plt.got`. -/
theorem addDynamicEntry2
    {offset : Nat} {str : CString}
    (ledger : Ledger baseAddress pltAddress libraries d)
    (adds : d.addDynamicEntry2 offset str = some next) :
    Ledger baseAddress pltAddress libraries next := by
  obtain ⟨_, adds⟩ := Option.ite_none_right_eq_some.mp adds
  obtain ⟨⟨first, strOffset⟩, strAdds, adds⟩ :=
    Option.bind_eq_some_iff.mp adds
  obtain ⟨second, symAdds, relaAdds⟩ := Option.bind_eq_some_iff.mp adds
  have firstLedger := ledger.addDynstrEntry strAdds
  exact (firstLedger.addDynsymEntry symAdds).1.addRelaPltEntry relaAdds

/-- Every call keeps the ledger. -/
theorem call
    {request : TableCall}
    (ledger : Ledger baseAddress pltAddress libraries d)
    (calls : d.call request = some next) :
    Ledger baseAddress pltAddress libraries next := by
  cases request with
  | addExport name shndx value => exact ledger.addExport calls
  | addDynamicEntry name relType check =>
      obtain ⟨⟨_, r⟩, adds, rfl⟩ := Option.map_eq_some_iff.mp calls
      exact ledger.addDynamicEntry adds
  | addDynamicEntry2 offset name => exact ledger.addDynamicEntry2 calls
  | addRelaPltEntry offset symIndex relType addend =>
      exact ledger.addRelaPltEntry calls
  | addInitArray addr => exact ledger.addInitArray calls
  | addFiniArray addr => exact ledger.addFiniArray calls

/-- So do all calls of a list. -/
theorem calls
    {requests : List TableCall}
    (ledger : Ledger baseAddress pltAddress libraries d)
    (run : requests.foldlM Dynamic.call d = some next) :
    Ledger baseAddress pltAddress libraries next := by
  induction requests generalizing d with
  | nil =>
      cases run
      exact ledger
  | cons request rest inductionHypothesis =>
      rw [List.foldlM_cons] at run
      obtain ⟨middle, first, later⟩ := Option.bind_eq_some_iff.mp run
      exact inductionHypothesis (ledger.call first) later

/-- A needed library adds its string behind the ones before it. -/
theorem addDtNeeded
    {name : CString}
    (ledger : Ledger baseAddress pltAddress libraries d)
    (onlyLibraries :
      d.dynstr.closed = [] →
        d.dynstr.current.entries = 0 :: libraryStrings libraries)
    (adds : d.addDtNeeded name = some next) :
    Ledger baseAddress pltAddress (libraries ++ [name]) next ∧
      (next.dynstr.closed = [] →
        next.dynstr.current.entries =
          0 :: libraryStrings (libraries ++ [name])) := by
  obtain ⟨⟨added, strOffset⟩, strAdds, rfl⟩ := Option.map_eq_some_iff.mp adds
  have addedLedger := ledger.addDynstrEntry strAdds
  have strings :
      added.dynstr.closed = [] →
        added.dynstr.current.entries =
          0 :: libraryStrings (libraries ++ [name]) := by
    unfold Dynamic.addDynstrEntry at strAdds
    dsimp only at strAdds
    by_cases full : defaultNum < d.dynstr.size + name.length
    · simp only [full, ↓reduceIte, Option.ite_none_left_eq_some,
        Option.some.injEq, Prod.mk.injEq] at strAdds
      obtain ⟨_, rfl, _⟩ := strAdds
      intro stillOpen
      simp [Table.addDynamicSc] at stillOpen
    · simp only [full, ↓reduceIte, Option.some.injEq, Prod.mk.injEq]
        at strAdds
      obtain ⟨rfl, _⟩ := strAdds
      intro stillOpen
      simp [onlyLibraries stillOpen, libraryStrings]
  refine ⟨{ addedLedger with neededNum := ?_, dynstr := ?_ }, strings⟩
  · simp [addedLedger.neededNum]
  · intro stillOpen
    rw [← strings stillOpen]
    exact ⟨(addedLedger.dynstr stillOpen).1, List.prefix_refl _⟩

/-- So do all of them. -/
theorem addDtNeededLibraries
    {names : List CString}
    (ledger : Ledger baseAddress pltAddress libraries d)
    (onlyLibraries :
      d.dynstr.closed = [] →
        d.dynstr.current.entries = 0 :: libraryStrings libraries)
    (run : names.foldlM Dynamic.addDtNeeded d = some next) :
    Ledger baseAddress pltAddress (libraries ++ names) next := by
  induction names generalizing libraries d with
  | nil =>
      cases run
      simpa using ledger
  | cons name rest inductionHypothesis =>
      rw [List.foldlM_cons] at run
      obtain ⟨middle, first, later⟩ := Option.bind_eq_some_iff.mp run
      obtain ⟨middleLedger, middleStrings⟩ :=
        ledger.addDtNeeded onlyLibraries first
      simpa using inductionHypothesis middleLedger middleStrings later

end Ledger

/-! ## Filling the dynamic section -/

namespace Dynamic

/-- The entries, values and sizes of a list of tags, without storing them. -/
def effects (d : Dynamic) (offset : Nat) :
    List DynTag → Option (List DynEntry × Nat × Dynamic)
  | [] => some ([], offset, d)
  | tag :: rest =>
      (d.entryEffect offset tag).bind fun (value, next, d) =>
        (effects d next rest).map fun (entries, last, d) =>
          ({ dTag := tag, dVal := value } :: entries, last, d)

/-- The effect of an entry does not depend on what `.dynamic` holds. -/
theorem entryEffect_dynamicTable
    (d : Dynamic) (offset : Nat) (tag : DynTag) (table : Chunk DynEntry) :
    ({ d with dynamicTable := table } : Dynamic).entryEffect offset tag =
      (d.entryEffect offset tag).map fun (value, next, d) =>
        (value, next, { d with dynamicTable := table }) := by
  cases tag <;> rfl

/-- Neither do the effects of a list of entries. -/
theorem effects_dynamicTable
    (d : Dynamic) (offset : Nat) (tags : List DynTag)
    (table : Chunk DynEntry) :
    ({ d with dynamicTable := table } : Dynamic).effects offset tags =
      (d.effects offset tags).map fun (entries, last, d) =>
        (entries, last, { d with dynamicTable := table }) := by
  induction tags generalizing d offset with
  | nil => rfl
  | cons tag rest inductionHypothesis =>
      rw [effects, effects, entryEffect_dynamicTable]
      cases d.entryEffect offset tag with
      | none => rfl
      | some effect =>
          obtain ⟨value, next, middle⟩ := effect
          simp only [Option.map_some, Option.bind_some, inductionHypothesis,
            Option.map_map]
          rfl

/-- The effect of an entry leaves `.dynamic` alone. -/
theorem dynamicTable_of_entryEffect
    {d after : Dynamic} {offset value next : Nat} {tag : DynTag}
    (effect : d.entryEffect offset tag = some (value, next, after)) :
    after.dynamicTable = d.dynamicTable := by
  cases tag <;> cases effect <;> rfl

/-- Append entries to `.dynamic`. -/
def appendDyn (d : Dynamic) (entries : List DynEntry) : Dynamic :=
  { d with
    dynamicTable :=
      { d.dynamicTable with entries := d.dynamicTable.entries ++ entries } }

/-- An entry that fits is stored with its value. -/
theorem setDynamicEntry_eq
    {d after : Dynamic} {offset value next : Nat} {tag : DynTag}
    (effect : d.entryEffect offset tag = some (value, next, after))
    (room : d.dynamicTable.entries.length < dynamicRoom) :
    d.setDynamicEntry tag offset =
      some (after.appendDyn [{ dTag := tag, dVal := value }], next) := by
  rw [← dynamicTable_of_entryEffect effect] at room
  simp only [setDynamicEntry, effect, Option.bind_some, writeDyn, room,
    ↓reduceIte, Option.map_some, appendDyn]

/-- Setting entries that fit stores their values in order. -/
theorem foldlM_setDynamicEntry
    {d after : Dynamic} {offset last : Nat} {tags : List DynTag}
    {entries : List DynEntry}
    (effect : d.effects offset tags = some (entries, last, after))
    (room : d.dynamicTable.entries.length + tags.length ≤ dynamicRoom) :
    tags.foldlM
        (fun (state : Dynamic × Nat) tag =>
          state.1.setDynamicEntry tag state.2)
        (d, offset) =
      some
        ({ after with dynamicTable := (d.appendDyn entries).dynamicTable },
          last) := by
  induction tags generalizing d offset after entries with
  | nil =>
      cases effect
      simp [appendDyn]
  | cons tag rest inductionHypothesis =>
      obtain ⟨⟨value, next, middle⟩, first, effect⟩ :=
        Option.bind_eq_some_iff.mp effect
      obtain ⟨⟨later, _, _⟩, rests, isAll⟩ := Option.map_eq_some_iff.mp effect
      cases isAll
      simp only [List.length_cons] at room
      have sameTable := dynamicTable_of_entryEffect first
      have stored := setDynamicEntry_eq first (by omega)
      have rests :
          (middle.appendDyn [{ dTag := tag, dVal := value }]).effects next
              rest =
            some
              (later, last,
                { after with
                  dynamicTable :=
                    (middle.appendDyn
                      [{ dTag := tag, dVal := value }]).dynamicTable }) := by
        rw [appendDyn, effects_dynamicTable, rests]
        rfl
      have run := inductionHypothesis rests (by
        simp only [appendDyn, List.length_append, List.length_singleton,
          sameTable]
        omega)
      rw [List.foldlM_cons, stored, Option.bind_eq_bind, Option.bind_some, run]
      simp [appendDyn, sameTable]

/-- An entry that was set fitted, and was not `DT_HASH`. -/
theorem room_of_setDynamicEntry
    {d next : Dynamic} {offset last : Nat} {tag : DynTag}
    (stepped : d.setDynamicEntry tag offset = some (next, last)) :
    d.dynamicTable.entries.length < dynamicRoom ∧ tag ≠ .hash ∧
      next.dynamicTable.entries.length =
        d.dynamicTable.entries.length + 1 := by
  obtain ⟨⟨value, offset', after⟩, effect, writes⟩ :=
    Option.bind_eq_some_iff.mp stepped
  have sameTable := dynamicTable_of_entryEffect effect
  have notHash : tag ≠ .hash := by
    rintro rfl
    cases effect
  obtain ⟨written, stored, isNext⟩ := Option.map_eq_some_iff.mp writes
  cases isNext
  unfold writeDyn at stored
  split at stored
  · rename_i room
    cases stored
    rw [sameTable] at room
    exact ⟨room, notHash, by simp [sameTable]⟩
  · cases stored

/-- Entries that were set fitted, and none of them was `DT_HASH`. -/
theorem room_of_foldlM_setDynamicEntry
    {d after : Dynamic} {offset last : Nat} {tags : List DynTag}
    (run :
      tags.foldlM
          (fun (state : Dynamic × Nat) tag =>
            state.1.setDynamicEntry tag state.2)
          (d, offset) =
        some (after, last))
    (fits : d.dynamicTable.entries.length ≤ dynamicRoom) :
    d.dynamicTable.entries.length + tags.length ≤ dynamicRoom ∧
      DynTag.hash ∉ tags := by
  induction tags generalizing d offset with
  | nil => simpa using fits
  | cons tag rest inductionHypothesis =>
      rw [List.foldlM_cons] at run
      obtain ⟨⟨middle, next⟩, stepped, later⟩ := Option.bind_eq_some_iff.mp run
      dsimp only at stepped
      obtain ⟨room, notHash, length⟩ := room_of_setDynamicEntry stepped
      have middleFits : middle.dynamicTable.entries.length ≤ dynamicRoom := by
        rw [length]
        exact room
      obtain ⟨restFits, noHash⟩ := inductionHypothesis later middleFits
      refine ⟨by rw [List.length_cons]; omega, ?_⟩
      intro member
      rcases List.mem_cons.mp member with isTag | inRest
      · exact notHash isTag.symm
      · exact noHash inRest

/-- The `DT_NEEDED` entries of libraries whose strings start at an offset. -/
def neededEntries (p : Nat) : List CString → List DynEntry
  | [] => []
  | name :: rest =>
      { dTag := .needed, dVal := p } ::
        neededEntries (p + 1 + name.length) rest

/-- There is one entry for every library. -/
@[simp]
theorem length_neededEntries (p : Nat) (names : List CString) :
    (neededEntries p names).length = names.length := by
  induction names generalizing p with
  | nil => rfl
  | cons name rest inductionHypothesis =>
      simp [neededEntries, inductionHypothesis]

/-- Each entry holds the offset of its library's string. -/
theorem getElem?_neededEntries
    {names : List CString} {before after : List UInt8} {index : Nat}
    {name : CString}
    (present : names[index]? = some name) :
    ∃ offset,
      (neededEntries before.length names)[index]? =
          some { dTag := .needed, dVal := offset } ∧
        StoredAt (before ++ (libraryStrings names ++ after)) offset name := by
  induction names generalizing before index with
  | nil => simp at present
  | cons first rest inductionHypothesis =>
      have strings :
          before ++ (libraryStrings (first :: rest) ++ after) =
            (before ++ (first.bytes ++ [0])) ++
              (libraryStrings rest ++ after) := by
        simp [libraryStrings]
      cases index with
      | zero =>
          cases present
          refine ⟨before.length, rfl, before, libraryStrings rest ++ after,
            ?_, rfl⟩
          simp [libraryStrings]
      | succ index =>
          have next :
              before.length + 1 + first.length =
                (before ++ (first.bytes ++ [0])).length := by
            simp only [List.length_append, List.length_singleton,
              CString.length]
            omega
          rw [neededEntries, List.getElem?_cons_succ, next, strings]
          exact inductionHypothesis (by simpa using present)

/-- The first loop stores one entry for every library string it walks over. -/
theorem setNeeded_eq
    {d : Dynamic} {names : List CString} {before after : List UInt8}
    (strings :
      d.dynstr.current.entries =
        before ++ (libraryStrings names ++ after))
    (fits : before.length + (libraryStrings names).length ≤ defaultNum)
    (room : d.dynamicTable.entries.length + names.length ≤ dynamicRoom) :
    d.setNeeded before.length names.length =
      some
        { d.appendDyn (neededEntries before.length names) with
          dynamicEntryNum := d.dynamicEntryNum + names.length } := by
  induction names generalizing d before with
  | nil => simp [setNeeded, neededEntries, appendDyn]
  | cons name rest inductionHypothesis =>
      simp only [List.length_cons] at room
      have stored :
          d.setDynamicEntry .needed before.length =
            some
              (d.appendDyn [{ dTag := .needed, dVal := before.length }],
                before.length) :=
        setDynamicEntry_eq rfl (by omega)
      have length :
          (libraryStrings (name :: rest)).length =
            name.length + 1 + (libraryStrings rest).length := by
        simp [libraryStrings, CString.length, Nat.add_assoc, Nat.add_comm 1]
      have split :
          libraryStrings (name :: rest) ++ after =
            name.bytes ++ 0 :: (libraryStrings rest ++ after) := by
        simp [libraryStrings]
      have scanned :
          (d.appendDyn
              [{ dTag := .needed, dVal := before.length }]).nextString
                before.length =
            some (before.length + 1 + name.length) := by
        have inChunk : before.length + name.length < defaultNum := by omega
        simp only [nextString, appendDyn, strings, List.drop_left, split,
          CString.ofBytes_append_nul, inChunk, ↓reduceIte]
      have next :
          before.length + 1 + name.length =
            (before ++ (name.bytes ++ [0])).length := by
        simp only [List.length_append, List.length_singleton, CString.length]
        omega
      rw [List.length_cons, setNeeded, stored, Option.bind_some]
      dsimp only
      rw [scanned, Option.bind_some, next, inductionHypothesis]
      · simp [appendDyn, neededEntries, next, Nat.add_assoc, Nat.add_comm 1]
      · simp [appendDyn, strings, libraryStrings]
      · rw [← next]
        omega
      · simp only [appendDyn, List.length_append, List.length_singleton]
        omega

/-- The first loop stores as many entries as it is asked to. -/
theorem length_of_setNeeded
    {d after : Dynamic} {p count : Nat}
    (run : d.setNeeded p count = some after)
    (fits : d.dynamicTable.entries.length ≤ dynamicRoom) :
    after.dynamicTable.entries.length =
        d.dynamicTable.entries.length + count ∧
      d.dynamicTable.entries.length + count ≤ dynamicRoom ∧
      after.dynamicEntryNum = d.dynamicEntryNum + count := by
  induction count generalizing d p with
  | zero =>
      cases run
      exact ⟨rfl, fits, rfl⟩
  | succ count inductionHypothesis =>
      rw [setNeeded] at run
      obtain ⟨⟨middle, next⟩, stepped, scans⟩ := Option.bind_eq_some_iff.mp run
      obtain ⟨p', _, later⟩ := Option.bind_eq_some_iff.mp scans
      have room := (room_of_setDynamicEntry stepped).1
      have stored :
          d.setDynamicEntry .needed p =
            some (d.appendDyn [{ dTag := .needed, dVal := p }], p) :=
        setDynamicEntry_eq rfl room
      cases stored.symm.trans stepped
      have length :
          (d.appendDyn [{ dTag := .needed, dVal := p }]
            ).dynamicTable.entries.length =
              d.dynamicTable.entries.length + 1 := by
        simp [appendDyn]
      obtain ⟨total, totalFits, number⟩ :=
        inductionHypothesis later (by rw [length]; exact room)
      rw [length] at total totalFits
      refine ⟨by omega, by omega, ?_⟩
      rw [number]
      simp only [appendDyn]
      omega

/-- The sizes of the tables behind `.dynamic`, in the order of the file. -/
def tableSizes (d : Dynamic) : List Nat :=
  [d.initArray.size, d.finiArray.size, d.gnuHashSize, d.relaPlt.size,
    d.dynsymBytes, d.dynstr.size]

/-- The tables with their sizes written to their headers. -/
def sized (d : Dynamic) : Dynamic :=
  { d with
    initArray := d.initArray.setShSize d.initArray.size
    finiArray := d.finiArray.setShSize d.finiArray.size
    gnuHashShSize := d.gnuHashSize
    relaPlt := d.relaPlt.setShSize d.relaPlt.size
    pltGotShSize := d.pltGotNum * 0x10
    dynsym := d.dynsym.setShSize d.dynsymBytes
    dynstr := d.dynstr.setShSize d.dynstr.size }

/-- The entries behind `DT_NEEDED`, given the offsets of the tables. -/
def fixedEntries (d : Dynamic) (offset : Nat → Nat) : List DynEntry :=
  [{ dTag := .initArray, dVal := offset 1 },
    { dTag := .initArraysz, dVal := d.initArray.size },
    { dTag := .finiArray, dVal := offset 2 },
    { dTag := .finiArraysz, dVal := d.finiArray.size },
    { dTag := .gnuHash, dVal := offset 3 },
    { dTag := .rela, dVal := offset 4 },
    { dTag := .relasz, dVal := d.relaPlt.size },
    { dTag := .relaent, dVal := sizeofRela },
    { dTag := .symtab, dVal := offset 5 },
    { dTag := .syment, dVal := sizeofSym },
    { dTag := .strtab, dVal := offset 6 },
    { dTag := .strsz, dVal := d.dynstr.size },
    { dTag := .null, dVal := 0 }]

/-- The running sum of the second loop, in 32 bits. -/
def predicted (d : Dynamic) (start table : Nat) : Nat :=
  u32 (start + (d.tableSizes.take (table - 1)).sum)

/-- Reducing a summand changes nothing in 32 bits. -/
theorem u32_u32_add (first second : Nat) :
    u32 (u32 first + second) = u32 (first + second) :=
  Nat.mod_add_mod first (2 ^ 32) second

/-- The words of the tag array set the sizes and the predicted offsets. -/
theorem effects_fixed (d : Dynamic) (start : Nat) :
    d.effects (u32 start) dynamicEntryTag.tail =
      some
        (d.fixedEntries (d.predicted start),
          u32 (start + d.tableSizes.sum), d.sized) := by
  simp only [dynamicEntryTag, List.tail_cons, effects, entryEffect,
    Option.bind_some, Option.map_some, u32_u32_add, Table.setShSize,
    dynsymBytes]
  simp [fixedEntries, predicted, tableSizes, sized, dynsymBytes,
    Table.setShSize, u32_u32_add, Nat.add_assoc]

/-- Once the sizes are set, no further word changes a header. -/
theorem entryEffect_sized
    (d : Dynamic) (offset : Nat) {tag : DynTag} (notHash : tag ≠ .hash) :
    ∃ value next,
      d.sized.entryEffect offset tag = some (value, next, d.sized) := by
  cases tag with
  | hash => exact absurd rfl notHash
  | _ => exact ⟨_, _, rfl⟩

/-- Words behind the tag array only add entries. -/
theorem effects_sized
    (d : Dynamic) (offset : Nat) {tags : List DynTag}
    (noHash : DynTag.hash ∉ tags) :
    ∃ entries last,
      d.sized.effects offset tags = some (entries, last, d.sized) := by
  induction tags generalizing offset with
  | nil => exact ⟨[], offset, rfl⟩
  | cons tag rest inductionHypothesis =>
      have notHash : tag ≠ .hash := by
        rintro rfl
        simp at noHash
      obtain ⟨value, next, effect⟩ := d.entryEffect_sized offset notHash
      obtain ⟨entries, last, effects⟩ :=
        inductionHypothesis next fun member =>
          noHash (List.mem_cons_of_mem _ member)
      refine ⟨{ dTag := tag, dVal := value } :: entries, last, ?_⟩
      simp only [Dynamic.effects, effect, Option.bind_some, effects,
        Option.map_some]

/-- The effects of one list of entries after another. -/
theorem effects_append
    {d middle after : Dynamic} {offset next last : Nat}
    {first second : List DynTag} {earlier later : List DynEntry}
    (firstEffect : d.effects offset first = some (earlier, next, middle))
    (secondEffect : middle.effects next second = some (later, last, after)) :
    d.effects offset (first ++ second) =
      some (earlier ++ later, last, after) := by
  induction first generalizing d offset earlier with
  | nil =>
      cases firstEffect
      exact secondEffect
  | cons tag rest inductionHypothesis =>
      obtain ⟨⟨value, other, stepped⟩, effect, firstEffect⟩ :=
        Option.bind_eq_some_iff.mp firstEffect
      obtain ⟨⟨entries, _, _⟩, rests, isAll⟩ :=
        Option.map_eq_some_iff.mp firstEffect
      cases isAll
      simp only [List.cons_append, effects, effect, Option.bind_some,
        inductionHypothesis rests, Option.map_some]

/-- The tables once the dynamic entries are set. -/
def filled (d : Dynamic) (entries : List DynEntry) : Dynamic :=
  { d.sized with
    dynamicEntryNum := 13 + d.neededNum
    dynamicTable :=
      { entries := entries, shSize := (13 + d.neededNum) * sizeofDyn } }

/-- The loop over the tag array and the words behind it. -/
theorem foldlM_setTag
    (tagAfter : Nat → DynTag) (state : Dynamic × Nat) (count : Nat) :
    (List.range' 1 (13 + count)).foldlM (setTag tagAfter) state =
      (dynamicEntryTag.tail ++ (List.range count).map tagAfter).foldlM
        (fun (state : Dynamic × Nat) tag =>
          state.1.setDynamicEntry tag state.2)
        state := by
  have words :
      (List.range' 1 (13 + count)).map (tagAt tagAfter) =
        dynamicEntryTag.tail ++ (List.range count).map tagAfter := by
    rw [← List.range'_append_1, List.map_append]
    congr 1
    rw [List.range'_eq_map_range, List.map_map]
    apply List.map_congr_left
    intro i _
    have beyond : dynamicEntryTag[1 + 13 + i]? = none :=
      List.getElem?_eq_none (by simp [dynamicEntryTag])
    have index : 1 + 13 + i - dynamicEntryTag.length = i := by
      simp [dynamicEntryTag]
    simp only [Function.comp_apply, tagAt, beyond, index, Option.getD_none]
  rw [← words, List.foldlM_map]
  rfl

/-- The word behind `.plt.got`, where the running sum starts. -/
def tablesStart (d : Dynamic) : Nat :=
  sub32 (d.pltAddress + d.pltGotNum * 0x10) d.baseAddress +
    (13 + d.neededNum) * sizeofDyn

end Dynamic

/--
With room for all entries, and no `DT_HASH` among the words read behind the tag
array, the dynamic section starts with the entries it should have.
-/
theorem Ledger.setDynanmic_eq
    {baseAddress pltAddress : Nat} {libraries : List CString}
    {d : Dynamic} {tagAfter : Nat → DynTag}
    (ledger : Ledger baseAddress pltAddress libraries d)
    (unfilled : Unfilled d)
    (few : libraries.length ≤ 10)
    (noHash : ∀ i < libraries.length, tagAfter i ≠ .hash) :
    ∃ more last,
      d.setDynanmic tagAfter =
        some
          (d.filled
            (Dynamic.neededEntries 1 libraries ++
              (d.fixedEntries (d.predicted d.tablesStart) ++ more)),
            last) := by
  obtain ⟨size, before, isPrefix⟩ := ledger.dynstr unfilled.dynstr
  have strings :
      d.dynstr.current.entries = [0] ++ (libraryStrings libraries ++ before) := by
    simpa using isPrefix.symm
  have stringsFit :
      [(0 : UInt8)].length + (libraryStrings libraries).length ≤
        defaultNum := by
    have total := congrArg List.length strings
    have fits := unfilled.dynstrFits
    simp only [List.length_append] at total
    omega
  have noEntries : d.dynamicTable.entries.length = 0 := by
    simp [ledger.dynamicTable]
  have needed :
      d.setNeeded 1 d.neededNum =
        some
          { d.appendDyn (Dynamic.neededEntries 1 libraries) with
            dynamicEntryNum := d.dynamicEntryNum + libraries.length } := by
    rw [ledger.neededNum]
    exact
      Dynamic.setNeeded_eq strings stringsFit
        (by simp only [noEntries, dynamicRoom_eq]; omega)
  let started : Dynamic :=
    { d with
      dynamicEntryNum := 13 + d.neededNum
      dynamicTable :=
        { entries := Dynamic.neededEntries 1 libraries
          shSize := (13 + d.neededNum) * sizeofDyn } }
  have noHashBehind :
      DynTag.hash ∉ (List.range libraries.length).map tagAfter := by
    intro member
    obtain ⟨i, inRange, isHash⟩ := List.mem_map.mp member
    exact noHash i (List.mem_range.mp inRange) isHash
  obtain ⟨more, last, behind⟩ :=
    started.effects_sized (u32 (d.tablesStart + d.tableSizes.sum))
      noHashBehind
  have effects :=
    Dynamic.effects_append (started.effects_fixed d.tablesStart) behind
  have run :=
    Dynamic.foldlM_setDynamicEntry effects
      (by
        simp only [started, Dynamic.length_neededEntries,
          List.length_append, dynamicEntryTag, List.tail_cons,
          List.length_cons, List.length_nil, List.length_map,
          List.length_range, dynamicRoom_eq]
        omega)
  refine ⟨more, last, ?_⟩
  simp only [Dynamic.setDynanmic, needed, Option.bind_some,
    ledger.dynamicEntryNum, Dynamic.appendDyn, ledger.dynamicTable,
    List.nil_append, Dynamic.foldlM_setTag]
  rw [← ledger.neededNum] at run ⊢
  exact run

/-! ## Where the tables are written -/

/-- There is a list of positions for every container. -/
theorem length_writeContainers (position : Nat) (sizes : List (List Nat)) :
    (writeContainers position sizes).length = sizes.length := by
  induction sizes generalizing position with
  | nil => rfl
  | cons first rest inductionHypothesis =>
      simp [writeContainers, inductionHypothesis]

/-- Complete writes of some containers leave the others behind them. -/
theorem writeContainers_append_eq
    {position : Nat} {sizes later : List (List Nat)}
    (complete : ∀ size ∈ sizes.flatten, size ≤ maxTransfer) :
    writeContainers position (sizes ++ later) =
      writeContainers position sizes ++
        writeContainers (position + sizes.flatten.sum) later := by
  induction sizes generalizing position with
  | nil => rfl
  | cons first rest inductionHypothesis =>
      have firstComplete : ∀ size ∈ first, size ≤ maxTransfer :=
        fun size member => complete size (by simp [member])
      have restComplete : ∀ size ∈ rest.flatten, size ≤ maxTransfer :=
        fun size member => complete size (by
          rw [List.flatten_cons, List.mem_append]
          exact Or.inr member)
      simp only [List.cons_append, writeContainers,
        writeRawData_eq firstComplete, List.flatten_cons, List.sum_append,
        inductionHypothesis restComplete, Nat.add_assoc]

/-- Containers of one section each are written end to end. -/
theorem writeContainers_singletons
    {position : Nat} {sizes : List Nat}
    (complete : ∀ size ∈ sizes, size ≤ maxTransfer) :
    writeContainers position (sizes.map fun size => [size]) =
      (ConsecutiveRanges.starts position sizes).map fun start => [start] := by
  induction sizes generalizing position with
  | nil => rfl
  | cons size rest inductionHypothesis =>
      have restComplete : ∀ other ∈ rest, other ≤ maxTransfer :=
        fun other member => complete other (List.mem_cons_of_mem _ member)
      have first : ∀ other ∈ [size], other ≤ maxTransfer := by
        simpa using complete size (by simp)
      simp only [List.map_cons, writeContainers, writeRawData_eq first,
        ConsecutiveRanges.starts, List.sum_singleton,
        inductionHypothesis restComplete]

/-- The sections behind `.plt.got` start at the running sum of their sizes. -/
theorem chunkOffset_genElf
    {link : Link} {tables : List Nat} {index : Nat}
    (complete : ∀ size ∈ link.shSizes.flatten, size ≤ maxTransfer)
    (tablesComplete : ∀ size ∈ tables, size ≤ maxTransfer)
    (inRange : index < tables.length) :
    chunkOffset (genElf link (tables.map fun size => [size]))
        (link.containers.length + index) =
      some
        (link.programHeaderTail + link.shSizes.flatten.sum +
          (tables.take index).sum) := by
  have count : (writeContainers link.programHeaderTail link.shSizes).length =
      link.containers.length := by
    rw [length_writeContainers, Link.shSizes, List.length_map]
  rw [chunkOffset, genElf, writeContainers_append_eq complete,
    writeContainers_singletons tablesComplete,
    List.getElem?_append_right (by omega), count, Nat.add_sub_cancel_left,
    List.getElem?_map, ConsecutiveRanges.getElem?_starts inRange]
  rfl

/-- The walk over the containers in two parts. -/
theorem setVirtualAddress_append
    (headers : List Shdr) (offset : Nat)
    (first second : List SectionContainer) :
    setVirtualAddress headers offset (first ++ second) =
      let before := setVirtualAddress headers offset first
      let after := setVirtualAddress before.1 before.2.1 second
      (after.1, after.2.1, before.2.2 ++ after.2.2) := by
  induction first generalizing headers offset with
  | nil => rfl
  | cons sc rest inductionHypothesis =>
      simp only [List.cons_append, setVirtualAddress]
      split
      · simp only [inductionHypothesis, List.cons_append]
      · simp only [inductionHypothesis, List.cons_append]

/-- `.plt.got` gets the address behind all sections of the input objects. -/
theorem BetweenObjects.pltAddress_layOut
    {base : Nat} {read : Link}
    (between : BetweenObjects base read)
    (fits :
      read.baseAddress + read.programHeaderTail +
        read.shSizes.flatten.sum < 2 ^ 32) :
    (layOut false read).pltAddress =
      read.baseAddress + read.programHeaderTail +
        read.shSizes.flatten.sum := by
  have unplaced : ∀ sc ∈ read.containers, sc.size = 0 :=
    fun sc member => (between.arranged sc member).1
  let plt : SectionContainer :=
    { name := some (.ofString ".plt.got")
      chain := [{ p := read.headers.length }] }
  let headers := read.headers ++ [{ shType := shtDynamic }]
  have oldSizes :
      ∀ p < read.headers.length,
        shSizeAt headers p = shSizeAt read.headers p := by
    intro p inArena
    simp [headers, shSizeAt, List.getElem?_append_left inArena]
  have sizes : sizesOf headers read.containers = read.shSizes.flatten := by
    have joined := Link.flatten_shSizes { read with headers := headers }
    rw [← joined, Link.shSizes_eq, Link.shSizes_eq,
      between.arranged.shSizes_congr oldSizes]
  have startFits :
      u32 (read.baseAddress + read.programHeaderTail) =
        read.baseAddress + read.programHeaderTail :=
    Nat.mod_eq_of_lt (by omega)
  have inputFits :
      read.baseAddress + read.programHeaderTail +
        (sizesOf headers read.containers).sum < 2 ^ 32 := by
    rw [sizes]
    exact fits
  obtain ⟨placedHeaders, placed, run, _, pointers, _⟩ :=
    setVirtualAddress_spec unplaced inputFits
  have count : placed.length = read.containers.length := by
    simpa using congrArg List.length pointers
  have walk :
      (setVirtualAddress headers
          (u32 (read.baseAddress + read.programHeaderTail))
          (read.containers ++ [plt])).2.2[read.containers.length]? =
        some
          (plt.place
            (read.baseAddress + read.programHeaderTail +
              read.shSizes.flatten.sum)
            (placeChain
              (read.baseAddress + read.programHeaderTail +
                read.shSizes.flatten.sum)
              placedHeaders 0 plt.chain).2.1
            (placeChain
              (read.baseAddress + read.programHeaderTail +
                read.shSizes.flatten.sum)
              placedHeaders 0 plt.chain).2.2) := by
    rw [startFits, setVirtualAddress_append, run, sizes]
    simp only [setVirtualAddress, plt, List.cons_ne_nil, ↓reduceIte]
    rw [List.getElem?_append_right (by omega), count, Nat.sub_self]
    rfl
  simp only [Link.pltAddress, layOut, Bool.false_eq_true, ↓reduceIte,
    Link.setVirtualAddresses, addPltgotSc, Option.bind_some]
  rw [walk]
  rfl

/-! ## The values -/

/-- The file offset of `.dynstr`. -/
def dynstrOffset (read : Link) (d : Dynamic) : Nat :=
  read.programHeaderTail + read.shSizes.flatten.sum + d.pltGotNum * 0x10 +
    ((13 + d.neededNum) * sizeofDyn + (d.tableSizes.take 5).sum)

/-- The sections behind `.plt.got`, once their sizes are written. -/
theorem Ledger.shSizes_filled
    {baseAddress pltAddress : Nat} {libraries : List CString} {d : Dynamic}
    (ledger : Ledger baseAddress pltAddress libraries d)
    (unfilled : Unfilled d) (entries : List DynEntry) :
    (d.filled entries).shSizes =
      ((13 + d.neededNum) * sizeofDyn :: d.tableSizes).map
        fun size => [size] := by
  simp [Dynamic.shSizes, Dynamic.filled, Dynamic.sized, Dynamic.tableSizes,
    Table.shSizes, Table.setShSize, unfilled.initArray, unfilled.relaPlt,
    unfilled.dynsym, unfilled.dynstr, ledger.finiClosed]

/-- Tables within their first chunks are written at once. -/
theorem Ledger.complete
    {baseAddress pltAddress : Nat} {libraries : List CString} {d : Dynamic}
    (ledger : Ledger baseAddress pltAddress libraries d)
    (unfilled : Unfilled d) (few : libraries.length ≤ 10) :
    ∀ size ∈ (13 + d.neededNum) * sizeofDyn :: d.tableSizes,
      size ≤ maxTransfer := by
  obtain ⟨initSize, initFits⟩ := ledger.initArray unfilled.initArray
  obtain ⟨finiSize, finiFits⟩ := ledger.finiArray
  obtain ⟨relaSize, relaFits⟩ := ledger.relaPlt unfilled.relaPlt
  obtain ⟨_, symFits, hashFits⟩ := ledger.dynsym unfilled.dynsym
  have strFits := unfilled.dynstrFits
  have number := ledger.neededNum
  simp only [sizeofDyn, sizeofRela, sizeofSym, arrayNum, finiRoom_eq,
    defaultNum, maxTransfer, Dynamic.tableSizes, Dynamic.dynsymBytes,
    List.mem_cons, List.not_mem_nil, or_false] at *
  rintro size (rfl | rfl | rfl | rfl | rfl | rfl | rfl) <;> omega

/-- Setting the dynamic entries succeeds only with room for all of them. -/
theorem Ledger.room_of_setDynanmic
    {baseAddress pltAddress : Nat} {libraries : List CString}
    {d : Dynamic} {tagAfter : Nat → DynTag} {result : Dynamic × Nat}
    (ledger : Ledger baseAddress pltAddress libraries d)
    (sets : d.setDynanmic tagAfter = some result) :
    libraries.length ≤ 10 ∧ ∀ i < libraries.length, tagAfter i ≠ .hash := by
  simp only [Dynamic.setDynanmic] at sets
  obtain ⟨needed, first, second⟩ := Option.bind_eq_some_iff.mp sets
  have noEntries : d.dynamicTable.entries.length = 0 := by
    simp [ledger.dynamicTable]
  obtain ⟨length, fits, number⟩ :=
    Dynamic.length_of_setNeeded first
      (by rw [noEntries]; exact Nat.zero_le _)
  rw [ledger.neededNum, noEntries, Nat.zero_add] at length fits
  rw [ledger.neededNum, ledger.dynamicEntryNum] at number
  rw [number, Dynamic.foldlM_setTag] at second
  obtain ⟨last, offset⟩ := result
  obtain ⟨room, noHash⟩ :=
    Dynamic.room_of_foldlM_setDynamicEntry second
      (by dsimp only; rw [length]; exact fits)
  simp only [length, List.length_append, dynamicEntryTag, List.tail_cons,
    List.length_cons, List.length_nil, List.length_map, List.length_range,
    dynamicRoom_eq] at room
  refine ⟨by omega, ?_⟩
  intro i inRange isHash
  refine noHash (List.mem_append.mpr (Or.inr ?_))
  exact List.mem_map.mpr ⟨i, List.mem_range.mpr inRange, isHash⟩

/-- The values of the fixed entries are right if the offsets and sizes are. -/
theorem right_fixedEntries
    {libraries : List CString} {strings : List UInt8}
    {offset bytes : Nat → Option Nat} {d : Dynamic}
    {predicted : Nat → Nat}
    (offsets :
      ∀ table, 1 ≤ table → table ≤ 6 →
        offset table = some (predicted table))
    (sizes :
      bytes 1 = some d.initArray.size ∧ bytes 2 = some d.finiArray.size ∧
        bytes 4 = some d.relaPlt.size ∧ bytes 6 = some d.dynstr.size) :
    ∀ entry ∈ d.fixedEntries predicted, ∀ index,
      RightValue libraries strings offset bytes index entry := by
  obtain ⟨initBytes, finiBytes, relaBytes, strBytes⟩ := sizes
  simp [Dynamic.fixedEntries, RightValue, offsets, initBytes, finiBytes,
    relaBytes, strBytes]

/-- The entries of the libraries and the fixed ones are right in order. -/
theorem Ledger.entries_right
    {baseAddress pltAddress : Nat} {libraries : List CString}
    {d : Dynamic} {offset bytes : Nat → Option Nat}
    {predicted : Nat → Nat} {more : List DynEntry} {index : Nat}
    (ledger : Ledger baseAddress pltAddress libraries d)
    (unfilled : Unfilled d)
    (offsets :
      ∀ table, 1 ≤ table → table ≤ 6 →
        offset table = some (predicted table))
    (sizes :
      bytes 1 = some d.initArray.size ∧ bytes 2 = some d.finiArray.size ∧
        bytes 4 = some d.relaPlt.size ∧ bytes 6 = some d.dynstr.size)
    (inEntries : index < libraries.length + 13) :
    ∃ entry ∈
        (Dynamic.neededEntries 1 libraries ++
          (d.fixedEntries predicted ++ more))[index]?,
      (expectedTags libraries)[index]? = some entry.dTag ∧
        RightValue libraries d.sized.dynstr.head.entries offset bytes index
          entry := by
  have sameStrings :
      d.sized.dynstr.head.entries = d.dynstr.current.entries := by
    simp [Dynamic.sized, Table.setShSize, Table.head, unfilled.dynstr]
  rw [sameStrings]
  rcases Nat.lt_or_ge index libraries.length with isLibrary | isFixed
  · obtain ⟨_, after, isPrefix⟩ := ledger.dynstr unfilled.dynstr
    have strings :
        d.dynstr.current.entries =
          [0] ++ (libraryStrings libraries ++ after) := by
      simpa using isPrefix.symm
    have present := List.getElem?_eq_getElem isLibrary
    have needed :
        ∃ offset,
          (Dynamic.neededEntries [(0 : UInt8)].length libraries)[index]? =
              some { dTag := .needed, dVal := offset } ∧
            StoredAt ([0] ++ (libraryStrings libraries ++ after)) offset
              libraries[index] :=
      Dynamic.getElem?_neededEntries present
    obtain ⟨offset, here, stored⟩ := needed
    refine ⟨{ dTag := .needed, dVal := offset }, ?_, ?_, ?_⟩
    · rw [List.getElem?_append_left (by simpa using isLibrary)]
      exact here
    · rw [expectedTags, List.getElem?_append_left (by simpa using isLibrary),
        List.getElem?_map, present]
      rfl
    · rw [strings]
      exact ⟨_, present, stored⟩
  · obtain ⟨fixedIndex, rfl⟩ := Nat.exists_eq_add_of_le isFixed
    have inFixed : fixedIndex < (d.fixedEntries predicted).length := by
      simp only [Dynamic.fixedEntries, List.length_cons, List.length_nil]
      omega
    have here := List.getElem?_eq_getElem inFixed
    have tags :
        (d.fixedEntries predicted).map DynEntry.dTag =
          dynamicEntryTag.tail := rfl
    refine ⟨(d.fixedEntries predicted)[fixedIndex], ?_, ?_, ?_⟩
    · rw [List.getElem?_append_right (by simp),
        Dynamic.length_neededEntries, Nat.add_sub_cancel_left,
        List.getElem?_append_left inFixed]
      exact here
    · rw [expectedTags, List.getElem?_append_right (by simp),
        List.length_map, Nat.add_sub_cancel_left, ← tags,
        List.getElem?_map, here]
      rfl
    · exact
        right_fixedEntries offsets sizes _ (List.getElem_mem inFixed) _

/-- The ledger after the libraries and any calls. -/
theorem ledger_of_calls
    {link : Link} {dynlib : List CString} {requests : List TableCall}
    {named d : Dynamic}
    (libraries :
      addDtNeededLibraries (addDynamic link) dynlib = some named)
    (run : requests.foldlM Dynamic.call named = some d) :
    Ledger link.baseAddress link.pltAddress (neededLibraries dynlib) d :=
  Ledger.calls
    ((ledger_addDynamic link).addDtNeededLibraries (fun _ => rfl) libraries)
    run

/-- The size of `.dynamic` and the sizes of the tables behind it. -/
def behindPltGot (d : Dynamic) : List Nat :=
  (13 + d.neededNum) * sizeofDyn :: d.tableSizes

/-- Subtracting the base address from an address behind it. -/
theorem sub32_add (base distance : Nat) :
    sub32 (base + distance) base = u32 distance := by
  simp only [sub32, u32]
  omega

/-- The predicted offsets are the file positions, in 32 bits. -/
theorem Dynamic.predicted_eq
    {d : Dynamic} {position : Nat}
    (pltAddress : d.pltAddress = d.baseAddress + position)
    {table : Nat} (behind : 1 ≤ table) :
    d.predicted d.tablesStart table =
      u32 (position + d.pltGotNum * 0x10 +
        ((behindPltGot d).take table).sum) := by
  obtain ⟨index, rfl⟩ := Nat.exists_eq_add_of_le' behind
  rw [Dynamic.predicted, Dynamic.tablesStart, pltAddress,
    Nat.add_assoc d.baseAddress, sub32_add, Nat.add_assoc (u32 _),
    u32_u32_add]
  simp [behindPltGot, Nat.add_assoc]

/-- The positions of the tables in the file. -/
theorem Ledger.chunkOffset_tables
    {baseAddress pltAddress base : Nat} {libraries : List CString}
    {d : Dynamic} {read : Link}
    (ledger : Ledger baseAddress pltAddress libraries d)
    (unfilled : Unfilled d) (few : libraries.length ≤ 10)
    (between : BetweenObjects base read)
    (fits :
      read.baseAddress + read.programHeaderTail +
        read.shSizes.flatten.sum < 2 ^ 32)
    (complete : ∀ size ∈ read.shSizes.flatten, size ≤ maxTransfer)
    (entries : List DynEntry) {table : Nat} (inRange : table ≤ 6) :
    chunkOffset
        (genElf
          ((layOut false read).setPltSize (d.pltGotNum * 0x10))
          (d.filled entries).shSizes)
        ((layOut false read).containers.length + table) =
      some
        (read.programHeaderTail + read.shSizes.flatten.sum +
          d.pltGotNum * 0x10 + ((behindPltGot d).take table).sum) := by
  have laidOut := between.laidOut false (d.pltGotNum * 0x10) fits
  have pltFits : d.pltGotNum * 0x10 ≤ maxTransfer := by
    have few := ledger.pltGot
    simp only [defaultNum, maxTransfer] at few ⊢
    omega
  have allComplete :
      ∀ size ∈
          ((layOut false read).setPltSize
            (d.pltGotNum * 0x10)).shSizes.flatten,
        size ≤ maxTransfer := by
    rw [laidOut.shSizes]
    simp only [pltSizes, Bool.false_eq_true, ↓reduceIte, List.flatten_append,
      List.flatten_singleton, List.mem_append, List.mem_singleton]
    rintro size (input | rfl)
    · exact complete size input
    · exact pltFits
  have containers :
      ((layOut false read).setPltSize
        (d.pltGotNum * 0x10)).containers.length =
          (layOut false read).containers.length := by
    unfold Link.setPltSize
    split <;> rfl
  have inTables : table < (behindPltGot d).length := by
    simp only [behindPltGot, Dynamic.tableSizes, List.length_cons,
      List.length_nil]
    omega
  have here :=
    chunkOffset_genElf allComplete (ledger.complete unfilled few) inTables
  rw [containers, laidOut.shSizes, laidOut.programHeaderTail] at here
  rw [ledger.shSizes_filled unfilled entries]
  simpa [pltSizes, behindPltGot, Nat.add_assoc] using here

/-- The number of bytes written for a table is its size. -/
theorem Ledger.bytesWritten_tables
    {baseAddress pltAddress : Nat} {libraries : List CString}
    {d : Dynamic}
    (ledger : Ledger baseAddress pltAddress libraries d)
    (unfilled : Unfilled d) (few : libraries.length ≤ 10)
    (entries : List DynEntry) {table size : Nat}
    (present : (behindPltGot d)[table]? = some size) :
    bytesWritten (d.filled entries).shSizes table = some size := by
  have small := ledger.complete unfilled few size (List.mem_of_getElem? present)
  have fixed := ledger.shSizes_filled unfilled entries
  rw [bytesWritten, fixed, List.getElem?_map]
  rw [behindPltGot] at present
  rw [present]
  simp [osWrite, small]

/-- The library names of a command line with the given number of libraries. -/
def someLibraries (count : Nat) : List CString :=
  List.replicate count (.ofString "libc.so.6")

/-- One export, one import and one address for `.init_array`. -/
def someCalls : List TableCall :=
  [.addExport (.ofString "f") 256 300,
    .addDynamicEntry (.ofString "puts") rJumpSlot true, .addInitArray 300]

/-- The tables with the strings of some libraries, for two objects. -/
def namedTables (count : Nat) : Dynamic :=
  (addDtNeededLibraries (addDynamic (layOut false (readOf twoObjects)))
    (someLibraries count)).getD (addDynamic (readOf twoObjects))

/-- The tables after the calls. -/
def calledTables (count : Nat) : Dynamic :=
  (someCalls.foldlM Dynamic.call (namedTables count)).getD (namedTables count)

/-- A value that is there is the one that its default is replaced by. -/
theorem eq_some_getD
    {α : Type*} {value : Option α} (isThere : value.isSome) (other : α) :
    value = some (value.getD other) := by
  obtain ⟨content, rfl⟩ := Option.isSome_iff_exists.mp isThere
  rfl

end BinTools.Elf
