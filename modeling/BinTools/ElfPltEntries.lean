import BinTools.ChainedTable
import BinTools.ElfImport
import BinTools.ElfExport
import BinTools.NameHash
import Mathlib.Data.List.Nodup

namespace BinTools.Elf

/-!
# Entries of the procedure linkage table

`__z__link__add_dynamic_entry` looks a name up in `DynamicImportHashTable`, and
makes a `.plt.got` entry with a symbol, a string and a relocation record for it
when there is none.  The address found is also the answer to whether there is
one, so that an entry at the address zero is not found again.  A name that gets
an entry is logged, in a buffer that a long one overruns.
-/

open LogLine

/-- `Confp->DynamicImportHashTable`: names with the addresses of entries. -/
abbrev ImportTable :=
  ChainedTable.Buckets CString Nat

/-- The number of buckets that `init_hashtable` sets. -/
def importBuckets : Nat := 10

/-- `elf_hash` as a number. -/
def importHash (name : CString) : Nat :=
  (elfHash name).toNat

/-- `lookup_symbol` -/
def lookupSymbol (table : ImportTable) (name : CString) : Nat :=
  (ChainedTable.lookup importHash table name).getD 0

/-- `__z__link__alloc_dynamic_symbol_chain` -/
def allocDynamicSymbolChain
    (table : ImportTable) (name : CString) (r : Nat) : ImportTable :=
  ChainedTable.add importHash table name r

/-- The code that `add_pltgot_entry` writes. -/
def pltCode : List UInt8 :=
  [0xff, 0x25, 0x2, 0x0, 0x0, 0x0]

/-- The tables, the bytes of `.plt.got` and the names that were imported. -/
structure Importing where
  dynamic : Dynamic
  pltGot : ByteBuffer.Bytes
  table : ImportTable

namespace Importing

/--
`__z__link__add_dynamic_entry` with its lookup: a name that is not found gets
an entry of its own.
-/
def addDynamicEntry
    (state : Importing) (str : CString) (relType : Nat) (check : Bool) :
    Option (Importing × Nat) :=
  let rela := if check then lookupSymbol state.table str else 0
  if rela ≠ 0 then
    some (state, rela)
  else
    (state.dynamic.addDynamicEntry str relType false).map fun (d, r) =>
      ({ dynamic := d
         pltGot :=
          ByteBuffer.store state.pltGot (state.dynamic.pltGotNum * 0x10)
            pltCode
         table := allocDynamicSymbolChain state.table str r },
        r)

/-- The calls for some names, and the addresses they return. -/
def addJumpSlots
    (start : Importing) (names : List CString) :
    Option (Importing × List Nat) :=
  names.foldlM
    (fun (state : Importing × List Nat) (name : CString) =>
      (state.1.addDynamicEntry name rJumpSlot true).map fun (next, r) =>
        (next, state.2 ++ [r]))
    (start, [])

end Importing

/-- A name that is not known gets an entry of its own. -/
theorem Dynamic.addDynamicEntry_of_unknown
    {d : Dynamic} {str : CString} (unknown : d.known str = 0)
    (relType : Nat) :
    d.addDynamicEntry str relType true =
      d.addDynamicEntry str relType false := by
  simp [Dynamic.addDynamicEntry, unknown]

/-- A dictionary that holds the imported names answers like their list. -/
theorem lookupSymbol_eq_known
    {state : Importing}
    (holds :
      ChainedTable.Holds importHash importBuckets state.table
        state.dynamic.imported)
    (str : CString) :
    lookupSymbol state.table str = state.dynamic.known str := by
  rw [lookupSymbol, holds.lookup_eq (by decide), Dynamic.known]
  cases state.dynamic.imported.find? fun entry => entry.1 = str <;> rfl

/-- The tables are those of the linker when the dictionary has its entries. -/
theorem addDynamicEntry_dynamic
    {state : Importing}
    (holds :
      ChainedTable.Holds importHash importBuckets state.table
        state.dynamic.imported)
    (str : CString) (relType : Nat) (check : Bool) :
    (state.addDynamicEntry str relType check).map
        (fun (next, r) => (next.dynamic, r)) =
      state.dynamic.addDynamicEntry str relType check := by
  have sameTables :
      ((state.dynamic.addDynamicEntry str relType false).map
          fun (d, r) =>
            (({ dynamic := d
                pltGot :=
                  ByteBuffer.store state.pltGot
                    (state.dynamic.pltGotNum * 0x10) pltCode
                table := allocDynamicSymbolChain state.table str r } :
                Importing), r)).map
          (fun (next, r) => (next.dynamic, r)) =
        state.dynamic.addDynamicEntry str relType false := by
    rw [Option.map_map]
    exact congrFun Option.map_id_fun' _
  unfold Importing.addDynamicEntry
  cases check with
  | false => simpa using sameTables
  | true =>
      simp only [↓reduceIte, lookupSymbol_eq_known holds]
      by_cases unknown : state.dynamic.known str = 0
      · rw [Dynamic.addDynamicEntry_of_unknown unknown]
        simpa [unknown] using sameTables
      · simp [Dynamic.addDynamicEntry, unknown]

/-! ## What is right -/

/--
The address of the slot that an indirect jump at an address takes its target
from: `jmp *disp(%rip)`.
-/
def jumpSlot : List UInt8 → Nat → Option Nat
  | 0xff :: 0x25 :: d0 :: d1 :: d2 :: d3 :: _, address =>
      some (address + 6 + ByteBuffer.ofLittleEndian [d0, d1, d2, d3])
  | _, _ => none

/-- The address of an entry, a 32-bit word. -/
def entryAddress (pltAddress k : Nat) : Nat :=
  u32 (pltAddress + k * 0x10)

/-- The `r_offset` of a record for the slot of an entry. -/
def slotOffset (d : Dynamic) (k : Nat) : Nat :=
  sub64 (u32 (entryAddress d.pltAddress k + 8)) d.baseAddress

/-- No name was imported, and the tables filled so far are in first chunks. -/
structure NoImports (state : Importing) : Prop where
  imported : state.dynamic.imported = []
  table : state.table = ChainedTable.empty importBuckets
  pltGotNum : state.dynamic.pltGotNum = 0
  pltGot : ∀ i < defaultNum * 0x10, state.pltGot i = 0
  relaPlt : state.dynamic.relaPlt = {}
  dynsymOpen : state.dynamic.dynsym.closed = []
  dynsymSize :
    state.dynamic.dynsym.size = state.dynamic.dynsym.current.entries.length
  dynstrOpen : state.dynamic.dynstr.closed = []
  dynstrSize :
    state.dynamic.dynstr.size = state.dynamic.dynstr.current.entries.length

/-- The tables have room for some new names in their first chunks. -/
def RoomFor (d : Dynamic) (names : List CString) : Prop :=
  d.dynsym.size + names.length < defaultNum ∧
    d.dynstr.size + (names.map fun name => name.length + 1).sum ≤ defaultNum

/-- A name whose entry has the address zero is called once only. -/
def ZeroEntryOnce (pltAddress : Nat) (calls : List CString) : Prop :=
  ∀ k < calls.eraseDups.length,
    entryAddress pltAddress k = 0 →
      ∀ name ∈ calls.eraseDups[k]?, calls.count name = 1

instance (pltAddress : Nat) (calls : List CString) :
    Decidable (ZeroEntryOnce pltAddress calls) :=
  inferInstanceAs (Decidable (∀ k < _, _))

/--
Every name fits the line about its entry, and a name whose entry has the address
zero, which is the answer for a name without an entry, is not called again.
-/
def ImportsFit (pltAddress : Nat) (calls : List CString) : Prop :=
  (∀ name ∈ calls, name.length < 51) ∧ ZeroEntryOnce pltAddress calls

instance (pltAddress : Nat) (calls : List CString) :
    Decidable (ImportsFit pltAddress calls) :=
  inferInstanceAs (Decidable (_ ∧ _))

/-- The entries of a table in all of its chunks. -/
def Table.entries {Entry : Type} (table : Table Entry) : List Entry :=
  (table.closed ++ [table.current]).flatMap Chunk.entries

/-- The record for the slot of an entry. -/
def slotRecord (d : Dynamic) (k symIndex : Nat) : RelaEntry where
  rOffset := slotOffset d k
  symIndex := symIndex
  relType := rJumpSlot
  rAddend := sub64 0 d.baseAddress

/--
The k-th entry is complete: it jumps through its slot, and the one record for
the slot has the index of a symbol with the name.
-/
structure EntryRight
    (start : Dynamic) (state : Importing) (k : Nat) (name : CString) :
    Prop where
  jump :
    ∀ address,
      jumpSlot (ByteBuffer.load state.pltGot (k * 0x10) 0x10) address =
        some (address + 8)
  record :
    ∃ symIndex,
      (state.dynamic.relaPlt.entries.filter fun rela =>
          rela.rOffset = slotOffset start k) =
        [slotRecord start k symIndex] ∧
        state.dynamic.nameAt symIndex = some name

/-- The calls return one address a name, and every name has its entry. -/
structure ImportsRight
    (start : Importing) (calls : List CString)
    (result : Importing × List Nat) : Prop where
  answers : result.2.length = calls.length
  sameAddress :
    ∀ i < calls.length, ∀ j < calls.length,
      result.2[i]? = result.2[j]? ↔ calls[i]? = calls[j]?
  pltEntries : result.1.dynamic.pltGotNum = calls.eraseDups.length
  symbols :
    result.1.dynamic.dynsym.entries.length =
      start.dynamic.dynsym.entries.length + calls.eraseDups.length
  records :
    result.1.dynamic.relaPlt.entries.length = calls.eraseDups.length
  entries :
    ∀ k name, calls.eraseDups[k]? = some name →
      EntryRight start.dynamic result.1 k name ∧
        ∀ i : Nat, calls[i]? = some name →
          result.2[i]? = some (entryAddress start.dynamic.pltAddress k)

/-! ## One new entry -/

/-- The tables after a new entry in first chunks. -/
def Dynamic.withEntry (d : Dynamic) (str : CString) (relType : Nat) : Dynamic :=
  let withRecord (relaPlt : Table RelaEntry) : Table RelaEntry :=
    { relaPlt with
      current :=
        { relaPlt.current with
          entries :=
            relaPlt.current.entries ++
              [{ rOffset := slotOffset d d.pltGotNum
                 symIndex := d.dynsym.size
                 relType := relType
                 rAddend := sub64 0 d.baseAddress }] }
      size := relaPlt.size + sizeofRela }
  { d with
    pltGotNum := d.pltGotNum + 1
    dynstr :=
      { d.dynstr with
        current :=
          { d.dynstr.current with
            entries := d.dynstr.current.entries ++ str.bytes ++ [0] }
        size := d.dynstr.size + str.length + 1 }
    dynsym :=
      { d.dynsym with
        current :=
          { d.dynsym.current with
            entries :=
              d.dynsym.current.entries ++ [{ stName := d.dynstr.size }] }
        size := d.dynsym.size + 1 }
    relaPlt := withRecord d.relaPlt
    imported :=
      d.imported ++ [(str, entryAddress d.pltAddress d.pltGotNum)] }

/-- The state after a new entry. -/
def Importing.withEntry (state : Importing) (name : CString) : Importing where
  dynamic := state.dynamic.withEntry name rJumpSlot
  pltGot :=
    ByteBuffer.store state.pltGot (state.dynamic.pltGotNum * 0x10) pltCode
  table :=
    allocDynamicSymbolChain state.table name
      (entryAddress state.dynamic.pltAddress state.dynamic.pltGotNum)

/-- An entry is made while the first chunks have room. -/
theorem Dynamic.addImport_new
    {d : Dynamic} {str : CString} {relType : Nat}
    (pltRoom : d.pltGotNum < defaultNum)
    (strRoom : d.dynstr.size + str.length ≤ defaultNum)
    (symRoom : d.dynsym.size + 1 < defaultNum)
    (symLength : d.dynsym.size = d.dynsym.current.entries.length)
    (relaRoom : d.relaPlt.current.entries.length + 1 < defaultNum)
    (relaSize :
      d.relaPlt.size = d.relaPlt.current.entries.length * sizeofRela) :
    d.addImport str relType =
      some
        (d.withEntry str relType, entryAddress d.pltAddress d.pltGotNum) := by
  have notFull :
      ¬ d.relaPlt.size + sizeofRela = defaultNum * sizeofRela := by
    rw [relaSize]
    simp only [sizeofRela] at *
    omega
  have pltAdds :
      d.addPltgotEntry =
        some
          ({ d with pltGotNum := d.pltGotNum + 1 },
            entryAddress d.pltAddress d.pltGotNum) :=
    if_pos pltRoom
  have strAdds :
      ({ d with pltGotNum := d.pltGotNum + 1 } : Dynamic).addDynstrEntry str =
        _ :=
    Dynamic.addDynstrEntry_eq strRoom
  have symAdds :
      ∀ withString : Dynamic, withString.dynsym = d.dynsym →
        withString.addDynsymEntry d.dynstr.size 0 0 =
          some
            { withString with
              dynsym :=
                { d.dynsym with
                  current :=
                    { d.dynsym.current with
                      entries :=
                        d.dynsym.current.entries ++
                          [{ stName := d.dynstr.size }] }
                  size := d.dynsym.size + 1 } } := by
    intro withString same
    rw [← same]
    exact Dynamic.addDynsymEntry_eq (by rw [same]; omega) (by rwa [same])
  rw [Dynamic.addImport, pltAdds, Option.bind_some]
  dsimp only
  rw [strAdds, Option.bind_some]
  dsimp only
  rw [symAdds, Option.bind_some]
  · have inChunk : d.relaPlt.current.entries.length < defaultNum := by omega
    dsimp only [Dynamic.addRelaPltEntry, Table.write]
    simp only [inChunk, ↓reduceIte, Option.map_some, notFull]
    rfl
  · rfl

/-- What a number of new entries leaves. -/
structure Stage
    (start state : Importing) (names : List CString) : Prop where
  baseAddress : state.dynamic.baseAddress = start.dynamic.baseAddress
  pltAddress : state.dynamic.pltAddress = start.dynamic.pltAddress
  pltGotNum : state.dynamic.pltGotNum = names.length
  table :
    ChainedTable.Holds importHash importBuckets state.table
      state.dynamic.imported
  imported :
    state.dynamic.imported =
      names.mapIdx fun k name =>
        (name, entryAddress start.dynamic.pltAddress k)
  code :
    ∀ k < names.length,
      ByteBuffer.load state.pltGot (k * 0x10) 0x10 =
        pltCode ++ List.replicate 10 0
  blank :
    ∀ i, names.length * 0x10 ≤ i → i < defaultNum * 0x10 →
      state.pltGot i = 0
  dynstrOpen : state.dynamic.dynstr.closed = []
  dynstrSize :
    state.dynamic.dynstr.size = state.dynamic.dynstr.current.entries.length
  dynstrTotal :
    state.dynamic.dynstr.size =
      start.dynamic.dynstr.size +
        (names.map fun name => name.length + 1).sum
  dynsymOpen : state.dynamic.dynsym.closed = []
  dynsymSize :
    state.dynamic.dynsym.size = state.dynamic.dynsym.current.entries.length
  dynsymTotal :
    state.dynamic.dynsym.size = start.dynamic.dynsym.size + names.length
  named :
    ∀ k name, names[k]? = some name →
      ∃ sym ∈
          state.dynamic.dynsym.current.entries[
            start.dynamic.dynsym.size + k]?,
        StoredAt state.dynamic.dynstr.current.entries sym.stName name
  relaOpen : state.dynamic.relaPlt.closed = []
  relaEntries :
    state.dynamic.relaPlt.current.entries =
      (List.range names.length).map fun k =>
        slotRecord start.dynamic k (start.dynamic.dynsym.size + k)
  relaSize : state.dynamic.relaPlt.size = names.length * sizeofRela

/-- Before the first call. -/
theorem NoImports.stage {start : Importing} (fresh : NoImports start) :
    Stage start start [] where
  baseAddress := rfl
  pltAddress := rfl
  pltGotNum := fresh.pltGotNum
  table := by
    rw [fresh.table, fresh.imported]
    exact ChainedTable.holds_empty
  imported := fresh.imported
  code := fun k noName => absurd noName (Nat.not_lt_zero k)
  blank := fun i _ inBuffer => fresh.pltGot i inBuffer
  dynstrOpen := fresh.dynstrOpen
  dynstrSize := fresh.dynstrSize
  dynstrTotal := rfl
  dynsymOpen := fresh.dynsymOpen
  dynsymSize := fresh.dynsymSize
  dynsymTotal := rfl
  named := fun k name noName => by simp at noName
  relaOpen := by rw [fresh.relaPlt]
  relaEntries := by rw [fresh.relaPlt]; rfl
  relaSize := by rw [fresh.relaPlt]; rfl

namespace Stage

variable
  {start state : Importing} {names : List CString} {name : CString}

/-- A name without an entry is not known. -/
theorem known_of_notMem
    (stage : Stage start state names) (notMem : name ∉ names) :
    state.dynamic.known name = 0 := by
  have absent :
      (state.dynamic.imported.find? fun entry => entry.1 = name) = none := by
    rw [stage.imported, List.find?_eq_none]
    rintro ⟨other, r⟩ member
    obtain ⟨k, inNames, same⟩ := List.mem_mapIdx.mp member
    cases same
    simp only [decide_eq_true_eq]
    rintro rfl
    exact notMem (List.getElem_mem inNames)
  rw [Dynamic.known, absent]
  rfl

/-- A name with an entry is known with the address of the entry. -/
theorem known_of_getElem?
    (stage : Stage start state names) (nodup : names.Nodup) {k : Nat}
    (atK : names[k]? = some name) :
    state.dynamic.known name = entryAddress start.dynamic.pltAddress k := by
  obtain ⟨inNames, rfl⟩ := List.getElem?_eq_some_iff.mp atK
  have found :
      (state.dynamic.imported.find? fun entry => entry.1 = names[k]) =
        some (names[k], entryAddress start.dynamic.pltAddress k) := by
    rw [stage.imported, List.find?_eq_some_iff_getElem]
    refine ⟨by simp, k, by simpa using inNames, by simp, ?_⟩
    intro j before
    simp only [List.getElem_mapIdx, Bool.not_eq_eq_eq_not, Bool.not_true,
      decide_eq_false_iff_not]
    intro same
    have atSamePlace := (List.Nodup.getElem_inj_iff nodup).mp same
    omega
  rw [Dynamic.known, found]
  rfl

/-- A call for a known name returns the address of its entry. -/
theorem addDynamicEntry_known
    (stage : Stage start state names) (nodup : names.Nodup) {k : Nat}
    (atK : names[k]? = some name)
    (nonzero : entryAddress start.dynamic.pltAddress k ≠ 0) :
    state.addDynamicEntry name rJumpSlot true =
      some (state, entryAddress start.dynamic.pltAddress k) := by
  simp only [Importing.addDynamicEntry, ↓reduceIte,
    lookupSymbol_eq_known stage.table, stage.known_of_getElem? nodup atK,
    ne_eq, nonzero, not_false_eq_true]

/-- A call for a new name adds an entry for it. -/
theorem addDynamicEntry_new
    (stage : Stage start state names) (notMem : name ∉ names)
    (isLogged : IsLogged (importLine name))
    (room : RoomFor start.dynamic (names ++ [name])) :
    state.addDynamicEntry name rJumpSlot true =
      some
        (state.withEntry name,
          entryAddress start.dynamic.pltAddress names.length) := by
  obtain ⟨symRoom, strRoom⟩ := room
  rw [List.length_append, List.length_singleton] at symRoom
  rw [List.map_append, List.sum_append, List.map_singleton,
    List.sum_singleton] at strRoom
  have strTotal := stage.dynstrTotal
  have symTotal := stage.dynsymTotal
  have pltNum := stage.pltGotNum
  have relaLength :
      state.dynamic.relaPlt.current.entries.length = names.length := by
    simp [stage.relaEntries]
  have adds :
      state.dynamic.addDynamicEntry name rJumpSlot false =
        some
          (state.dynamic.withEntry name rJumpSlot,
            entryAddress state.dynamic.pltAddress state.dynamic.pltGotNum) := by
    have isNew :
        state.dynamic.addDynamicEntry name rJumpSlot false =
          state.dynamic.addImport name rJumpSlot := by
      simp [Dynamic.addDynamicEntry, isLogged]
    rw [isNew]
    exact
      Dynamic.addImport_new (by omega) (by omega) (by omega)
        stage.dynsymSize (by omega) (by rw [relaLength, stage.relaSize])
  simp only [Importing.addDynamicEntry, ↓reduceIte,
    lookupSymbol_eq_known stage.table, stage.known_of_notMem notMem,
    ne_eq, not_true_eq_false, adds, Option.map_some,
    Importing.withEntry, stage.pltAddress, stage.pltGotNum]

/-- The code of the entries after one more. -/
theorem code_withEntry
    (stage : Stage start state names) (inBuffer : names.length < defaultNum)
    {k : Nat} (inNames : k < names.length + 1) :
    ByteBuffer.load (state.withEntry name).pltGot (k * 0x10) 0x10 =
      pltCode ++ List.replicate 10 0 := by
  rw [Importing.withEntry, stage.pltGotNum]
  dsimp only
  rcases Nat.lt_succ_iff_lt_or_eq.mp inNames with earlier | rfl
  · rw [← stage.code k earlier]
    apply ByteBuffer.load_congr
    intro position _ inEntry
    exact ByteBuffer.store_apply_of_outside (Or.inl (by omega))
  · have code :
        ByteBuffer.load
            (ByteBuffer.store state.pltGot (names.length * 0x10) pltCode)
            (names.length * 0x10) 6 = pltCode :=
      ByteBuffer.load_store _ (names.length * 0x10) pltCode
    have slot :
        ByteBuffer.load
            (ByteBuffer.store state.pltGot (names.length * 0x10) pltCode)
            (names.length * 0x10 + 6) 10 =
          List.replicate 10 0 := by
      apply ByteBuffer.load_eq_replicate
      intro position behind inEntry
      rw [ByteBuffer.store_apply_of_outside (Or.inr behind)]
      exact stage.blank position (by omega) (by omega)
    calc
      _ = _ := ByteBuffer.load_add _ _ 6 10
      _ = _ := by rw [code, slot]

/-- A new entry keeps everything in step. -/
theorem withEntry
    (stage : Stage start state names)
    (inBuffer : names.length < defaultNum) (name : CString) :
    Stage start (state.withEntry name) (names ++ [name]) where
  baseAddress := stage.baseAddress
  pltAddress := stage.pltAddress
  pltGotNum := by
    simp [Importing.withEntry, Dynamic.withEntry, stage.pltGotNum]
  table := stage.table.add _ _
  imported := by
    simp [Importing.withEntry, Dynamic.withEntry, stage.imported,
      stage.pltGotNum, stage.pltAddress]
  code := fun k inNames =>
    stage.code_withEntry inBuffer (by simpa using inNames)
  blank := by
    intro i behind beforeEnd
    rw [List.length_append, List.length_singleton] at behind
    have afterCode :
        state.dynamic.pltGotNum * 0x10 + pltCode.length ≤ i := by
      rw [stage.pltGotNum]
      simp only [pltCode, List.length_cons, List.length_nil]
      omega
    exact
      (ByteBuffer.store_apply_of_outside (Or.inr afterCode)).trans
        (stage.blank i (by omega) beforeEnd)
  dynstrOpen := stage.dynstrOpen
  dynstrSize := by
    simp [Importing.withEntry, Dynamic.withEntry, stage.dynstrSize,
      CString.length, Nat.add_assoc]
  dynstrTotal := by
    simp [Importing.withEntry, Dynamic.withEntry, stage.dynstrTotal,
      Nat.add_assoc]
  dynsymOpen := stage.dynsymOpen
  dynsymSize := by
    simp [Importing.withEntry, Dynamic.withEntry, stage.dynsymSize]
  dynsymTotal := by
    simp [Importing.withEntry, Dynamic.withEntry, stage.dynsymTotal,
      Nat.add_assoc]
  named := by
    intro k other atK
    have symbols :
        (state.withEntry name).dynamic.dynsym.current.entries =
          state.dynamic.dynsym.current.entries ++
            [{ stName := state.dynamic.dynstr.size }] :=
      rfl
    have strings :
        (state.withEntry name).dynamic.dynstr.current.entries =
          state.dynamic.dynstr.current.entries ++ name.bytes ++ [0] :=
      rfl
    have total := stage.dynsymSize.symm.trans stage.dynsymTotal
    rcases Nat.lt_or_ge k names.length with earlier | last
    · rw [List.getElem?_append_left earlier] at atK
      obtain ⟨sym, present, stored⟩ := stage.named k other atK
      refine ⟨sym, ?_, ?_⟩
      · rw [symbols, List.getElem?_append_left (by omega)]
        exact present
      · rw [strings, List.append_assoc]
        exact stored.append _
    · obtain ⟨inNames, _⟩ := List.getElem?_eq_some_iff.mp atK
      rw [List.length_append, List.length_singleton] at inNames
      obtain rfl : k = names.length := by omega
      rw [List.getElem?_append_right le_rfl, Nat.sub_self] at atK
      cases atK
      refine ⟨{ stName := state.dynamic.dynstr.size }, ?_, ?_⟩
      · rw [symbols, List.getElem?_append_right (by omega), ← total,
          Nat.sub_self]
        rfl
      · rw [strings, stage.dynstrSize]
        exact storedAt_end _ _
  relaOpen := stage.relaOpen
  relaEntries := by
    simp [Importing.withEntry, Dynamic.withEntry, stage.relaEntries,
      List.range_succ, stage.pltGotNum, stage.baseAddress, slotOffset,
      stage.pltAddress, stage.dynsymTotal, slotRecord]
  relaSize := by
    simp [Importing.withEntry, Dynamic.withEntry, stage.relaSize, Nat.add_mul]

end Stage

/-! ## Distinct names in order of first call -/

/-- A call adds its name when it is the first one for it. -/
theorem eraseDups_concat (calls : List CString) (name : CString) :
    (calls ++ [name]).eraseDups =
      if name ∈ calls then calls.eraseDups else calls.eraseDups ++ [name] := by
  rw [List.eraseDups_append]
  by_cases called : name ∈ calls
  · simp [List.removeAll, called]
  · simp [List.removeAll, called, List.eraseDups_cons]

/-- Every name is taken once. -/
theorem nodup_eraseDups (calls : List CString) : calls.eraseDups.Nodup := by
  induction calls using List.reverseRecOn with
  | nil => exact List.nodup_nil
  | append_singleton calls name inductionHypothesis =>
      rw [eraseDups_concat]
      split_ifs with called
      · exact inductionHypothesis
      · refine List.Nodup.append inductionHypothesis
          (List.nodup_singleton name) ?_
        simpa [List.mem_eraseDups] using called

/-! ## Every sequence of calls -/

/-- The addresses that some calls return. -/
def answersOf (pltAddress : Nat) (calls : List CString) : List Nat :=
  calls.map fun name =>
    entryAddress pltAddress (calls.eraseDups.idxOf name)

/-- Room for more names is room for fewer. -/
theorem RoomFor.of_append
    {d : Dynamic} {names more : List CString}
    (room : RoomFor d (names ++ more)) : RoomFor d names := by
  obtain ⟨symRoom, strRoom⟩ := room
  rw [List.length_append] at symRoom
  rw [List.map_append, List.sum_append] at strRoom
  exact ⟨by omega, by omega⟩

/-- A repeated name is answered like before, and so are the others. -/
theorem answersOf_concat_of_mem
    (pltAddress : Nat) {calls : List CString} {name : CString}
    (called : name ∈ calls) :
    answersOf pltAddress (calls ++ [name]) =
      answersOf pltAddress calls ++
        [entryAddress pltAddress (calls.eraseDups.idxOf name)] := by
  simp [answersOf, eraseDups_concat, called]

/-- A new name is answered with a new address, and the others like before. -/
theorem answersOf_concat_of_notMem
    (pltAddress : Nat) {calls : List CString} {name : CString}
    (notCalled : name ∉ calls) :
    answersOf pltAddress (calls ++ [name]) =
      answersOf pltAddress calls ++
        [entryAddress pltAddress calls.eraseDups.length] := by
  have notAmong : name ∉ calls.eraseDups := by
    rwa [List.mem_eraseDups]
  have newPlace :
      (calls.eraseDups ++ [name]).idxOf name = calls.eraseDups.length := by
    rw [List.idxOf_append_of_notMem notAmong]
    simp
  have samePlaces :
      ∀ other ∈ calls,
        (calls.eraseDups ++ [name]).idxOf other =
          calls.eraseDups.idxOf other := by
    intro other member
    exact List.idxOf_append_of_mem (List.mem_eraseDups.mpr member)
  rw [answersOf, answersOf, List.map_append, eraseDups_concat,
    if_neg notCalled, List.map_singleton, newPlace]
  congr 1
  apply List.map_congr_left
  intro other member
  rw [samePlaces other member]

/-- Fewer calls fit when more do. -/
theorem ZeroEntryOnce.of_append
    {pltAddress : Nat} {calls : List CString} {name : CString}
    (once : ZeroEntryOnce pltAddress (calls ++ [name])) :
    ZeroEntryOnce pltAddress calls := by
  intro k inNames isZero other isAt
  have stillAt : other ∈ (calls ++ [name]).eraseDups[k]? := by
    rw [eraseDups_concat]
    split_ifs with called
    · exact isAt
    · rwa [List.getElem?_append_left inNames]
  have inAll := (List.getElem?_eq_some_iff.mp stillAt).1
  have onceInAll := once k inAll isZero other stillAt
  have called : other ∈ calls :=
    List.mem_eraseDups.mp (List.mem_of_getElem? isAt)
  have positive := List.count_pos_iff.mpr called
  rw [List.count_append] at onceInAll
  omega

/-- A name that is called again has an entry at another address than zero. -/
theorem ZeroEntryOnce.nonzero
    {pltAddress : Nat} {calls : List CString} {name : CString}
    (once : ZeroEntryOnce pltAddress (calls ++ [name]))
    (called : name ∈ calls) :
    entryAddress pltAddress (calls.eraseDups.idxOf name) ≠ 0 := by
  intro isZero
  have among := List.mem_eraseDups.mpr called
  have isAt :
      name ∈ (calls ++ [name]).eraseDups[calls.eraseDups.idxOf name]? := by
    rw [eraseDups_concat, if_pos called]
    exact List.getElem?_idxOf among
  have counted :=
    once _ (List.getElem?_eq_some_iff.mp isAt).1 isZero name isAt
  have positive := List.count_pos_iff.mpr called
  rw [List.count_append, List.count_singleton_self] at counted
  omega

/-- Calls that fit, with room, keep everything in step. -/
theorem NoImports.addJumpSlots
    {start : Importing} (fresh : NoImports start) {calls : List CString}
    (room : RoomFor start.dynamic calls.eraseDups)
    (areLogged : ∀ name ∈ calls, IsLogged (importLine name))
    (once : ZeroEntryOnce start.dynamic.pltAddress calls) :
    ∃ state,
      start.addJumpSlots calls =
          some (state, answersOf start.dynamic.pltAddress calls) ∧
        Stage start state calls.eraseDups := by
  induction calls using List.reverseRecOn with
  | nil => exact ⟨start, rfl, fresh.stage⟩
  | append_singleton calls name inductionHypothesis =>
      have earlierLogged : ∀ other ∈ calls, IsLogged (importLine other) :=
        fun other member => areLogged other (List.mem_append_left _ member)
      rw [eraseDups_concat] at room ⊢
      by_cases called : name ∈ calls
      · rw [if_pos called] at room ⊢
        obtain ⟨state, run, stage⟩ :=
          inductionHypothesis room earlierLogged once.of_append
        have among := List.mem_eraseDups.mpr called
        have known :=
          stage.addDynamicEntry_known (nodup_eraseDups calls)
            (List.getElem?_idxOf among) (once.nonzero called)
        refine ⟨state, ?_, stage⟩
        rw [answersOf_concat_of_mem _ called]
        unfold Importing.addJumpSlots at run ⊢
        rw [List.foldlM_append, run]
        simp [known]
      · rw [if_neg called] at room ⊢
        obtain ⟨state, run, stage⟩ :=
          inductionHypothesis room.of_append earlierLogged once.of_append
        have added :=
          stage.addDynamicEntry_new
            (fun among => called (List.mem_eraseDups.mp among))
            (areLogged name (by simp)) room
        have inBuffer : calls.eraseDups.length < defaultNum := by
          have symRoom := room.1
          rw [List.length_append, List.length_singleton] at symRoom
          omega
        refine
          ⟨state.withEntry name, ?_, stage.withEntry inBuffer name⟩
        rw [answersOf_concat_of_notMem _ called]
        unfold Importing.addJumpSlots at run ⊢
        rw [List.foldlM_append, run]
        simp [added]

/-! ## Calls that do not fit -/

/--
What holds after any calls: the dictionary has the entries that were made, for
names that were called and fit their lines, and there are so many more entries
than names.
-/
structure Called
    (extra : Nat) (state : Importing) (calls : List CString) : Prop where
  table :
    ChainedTable.Holds importHash importBuckets state.table
      state.dynamic.imported
  isCalled : ∀ entry ∈ state.dynamic.imported, entry.1 ∈ calls
  isLogged : ∀ entry ∈ state.dynamic.imported, IsLogged (importLine entry.1)
  entries : calls.eraseDups.length + extra ≤ state.dynamic.pltGotNum

/-- A known name is one of those that were imported. -/
theorem Dynamic.exists_of_known
    {d : Dynamic} {name : CString} (isKnown : d.known name ≠ 0) :
    ∃ entry ∈ d.imported, entry.1 = name := by
  unfold Dynamic.known at isKnown
  cases found : d.imported.find? fun entry => entry.1 = name with
  | none =>
      rw [found] at isKnown
      exact absurd rfl isKnown
  | some entry =>
      exact
        ⟨entry, List.mem_of_find?_eq_some found,
          by simpa using List.find?_some found⟩

/-- Making an entry takes the next one and remembers the name. -/
theorem Dynamic.addImport_spec
    {d next : Dynamic} {name : CString} {relType r : Nat}
    (adds : d.addImport name relType = some (next, r)) :
    next.pltGotNum = d.pltGotNum + 1 ∧
      next.imported = d.imported ++ [(name, r)] := by
  obtain ⟨⟨first, plt⟩, pltAdds, adds⟩ := Option.bind_eq_some_iff.mp adds
  obtain ⟨⟨second, strOffset⟩, strAdds, adds⟩ :=
    Option.bind_eq_some_iff.mp adds
  obtain ⟨third, symAdds, adds⟩ := Option.bind_eq_some_iff.mp adds
  obtain ⟨fourth, relaAdds, isNext⟩ := Option.map_eq_some_iff.mp adds
  cases isNext
  obtain ⟨_, isFirst⟩ := Option.ite_none_right_eq_some.mp pltAdds
  cases isFirst
  rw [addRelaPltEntry_spec relaAdds, (addDynsymEntry_spec symAdds).1,
    (addDynstrEntry_spec strAdds).1]
  exact ⟨rfl, rfl⟩

/-- A call makes an entry for its name, or the name is known. -/
theorem Importing.addDynamicEntry_eq_some
    {state next : Importing} {name : CString} {r : Nat}
    (adds : state.addDynamicEntry name rJumpSlot true = some (next, r)) :
    (lookupSymbol state.table name ≠ 0 ∧ next = state) ∨
      IsLogged (importLine name) ∧
        next.dynamic.pltGotNum = state.dynamic.pltGotNum + 1 ∧
          next.dynamic.imported = state.dynamic.imported ++ [(name, r)] ∧
            next.table = allocDynamicSymbolChain state.table name r := by
  unfold addDynamicEntry at adds
  simp only [↓reduceIte] at adds
  split at adds
  · rename_i isKnown
    cases adds
    exact Or.inl ⟨isKnown, rfl⟩
  · obtain ⟨⟨d, address⟩, made, isNext⟩ := Option.map_eq_some_iff.mp adds
    cases isNext
    obtain ⟨isChecked, _⟩ | ⟨isLogged, made⟩ :=
      Dynamic.addDynamicEntry_eq_some made
    · cases isChecked
    · obtain ⟨counted, remembered⟩ := Dynamic.addImport_spec made
      exact Or.inr ⟨isLogged, counted, remembered, rfl⟩

/-- One more call adds a name only with an entry for it. -/
theorem Called.addDynamicEntry
    {extra : Nat} {state next : Importing} {calls : List CString}
    {name : CString} {r : Nat} (called : Called extra state calls)
    (adds : state.addDynamicEntry name rJumpSlot true = some (next, r)) :
    Called extra next (calls ++ [name]) ∧ IsLogged (importLine name) := by
  have counted := called.entries
  obtain ⟨isKnown, rfl⟩ | ⟨isLogged, num, imported, table⟩ :=
    Importing.addDynamicEntry_eq_some adds
  · rw [lookupSymbol_eq_known called.table] at isKnown
    obtain ⟨entry, isEntry, rfl⟩ := Dynamic.exists_of_known isKnown
    refine
      ⟨{ called with
          isCalled := fun other member =>
            List.mem_append_left _ (called.isCalled other member)
          entries := ?_ }, called.isLogged entry isEntry⟩
    rwa [eraseDups_concat, if_pos (called.isCalled entry isEntry)]
  · refine
      ⟨{ table := ?_, isCalled := ?_, isLogged := ?_, entries := ?_ },
        isLogged⟩
    · rw [table, imported]
      exact called.table.add _ _
    · rw [imported]
      intro entry member
      rcases List.mem_append.mp member with earlier | added
      · exact List.mem_append_left _ (called.isCalled entry earlier)
      · rw [List.mem_singleton.mp added]
        simp
    · rw [imported]
      intro entry member
      rcases List.mem_append.mp member with earlier | added
      · exact called.isLogged entry earlier
      · rw [List.mem_singleton.mp added]
        exact isLogged
    · rw [num, eraseDups_concat]
      split_ifs
      · omega
      · rw [List.length_append, List.length_singleton]
        omega

/-- The last of some calls. -/
theorem Importing.addJumpSlots_concat
    {start : Importing} {calls : List CString} {name : CString}
    {result : Importing × List Nat}
    (run : start.addJumpSlots (calls ++ [name]) = some result) :
    ∃ earlier r,
      start.addJumpSlots calls = some earlier ∧
        earlier.1.addDynamicEntry name rJumpSlot true = some (result.1, r) := by
  unfold addJumpSlots at run ⊢
  rw [List.foldlM_append] at run
  obtain ⟨earlier, isEarlier, last⟩ := Option.bind_eq_some_iff.mp run
  rw [List.foldlM_cons] at last
  obtain ⟨final, added, isResult⟩ := Option.bind_eq_some_iff.mp last
  obtain ⟨⟨next, r⟩, adds, isFinal⟩ := Option.map_eq_some_iff.mp added
  cases isResult
  cases isFinal
  exact ⟨earlier, r, isEarlier, adds⟩

/-- Nothing was called. -/
theorem NoImports.called {start : Importing} (fresh : NoImports start) :
    Called 0 start [] where
  table := fresh.stage.table
  isCalled := by
    rw [fresh.imported]
    exact List.forall_mem_nil _
  isLogged := by
    rw [fresh.imported]
    exact List.forall_mem_nil _
  entries := by simp

/-- Calls that all return have names that fit. -/
theorem NoImports.called_of_run
    {start : Importing} (fresh : NoImports start) {calls : List CString}
    {result : Importing × List Nat}
    (run : start.addJumpSlots calls = some result) :
    Called 0 result.1 calls ∧ ∀ name ∈ calls, IsLogged (importLine name) := by
  induction calls using List.reverseRecOn generalizing result with
  | nil =>
      cases run
      exact ⟨fresh.called, List.forall_mem_nil _⟩
  | append_singleton calls name inductionHypothesis =>
      obtain ⟨earlier, r, isEarlier, adds⟩ :=
        Importing.addJumpSlots_concat run
      obtain ⟨called, areLogged⟩ := inductionHypothesis isEarlier
      obtain ⟨calledMore, isLogged⟩ := called.addDynamicEntry adds
      refine ⟨calledMore, ?_⟩
      intro other member
      rcases List.mem_append.mp member with before | added
      · exact areLogged other before
      · rw [List.mem_singleton.mp added]
        exact isLogged

/-- The name that is called once too often is the last one. -/
theorem zeroEntry_of_not_once
    {pltAddress : Nat} {calls : List CString} {name : CString}
    (once : ZeroEntryOnce pltAddress calls)
    (notOnce : ¬ ZeroEntryOnce pltAddress (calls ++ [name])) :
    name ∈ calls ∧
      entryAddress pltAddress (calls.eraseDups.idxOf name) = 0 := by
  unfold ZeroEntryOnce at notOnce
  push Not at notOnce
  obtain ⟨k, inNames, isZero, other, isAt, notOne⟩ := notOnce
  have member : other ∈ calls ++ [name] :=
    List.mem_eraseDups.mp (List.mem_of_getElem? isAt)
  by_cases called : name ∈ calls
  · rw [eraseDups_concat, if_pos called] at inNames isAt
    have isLast : other = name := by
      by_contra isOther
      have onceBefore := once k inNames isZero other isAt
      rw [List.count_append, onceBefore] at notOne
      exact notOne (by simp [Ne.symm isOther])
    subst isLast
    obtain ⟨_, atK⟩ := List.getElem?_eq_some_iff.mp isAt
    refine ⟨called, ?_⟩
    rw [← atK, (nodup_eraseDups calls).idxOf_getElem k inNames]
    exact isZero
  · exfalso
    rw [eraseDups_concat, if_neg called] at isAt
    rcases Nat.lt_or_ge k calls.eraseDups.length with earlier | isNew
    · rw [List.getElem?_append_left earlier] at isAt
      have before := List.mem_eraseDups.mp (List.mem_of_getElem? isAt)
      have isOther : other ≠ name := by
        rintro rfl
        exact called before
      have onceBefore := once k earlier isZero other isAt
      rw [List.count_append, onceBefore] at notOne
      exact notOne (by simp [Ne.symm isOther])
    · rw [List.getElem?_append_right isNew] at isAt
      obtain rfl := List.mem_singleton.mp (List.mem_of_getElem? isAt)
      rw [List.count_append, List.count_eq_zero_of_not_mem called] at notOne
      exact notOne (by simp)

/--
A name with an entry at the address zero that is called again gets one entry too
many.
-/
theorem NoImports.called_of_not_once
    {start : Importing} (fresh : NoImports start) {calls : List CString}
    {result : Importing × List Nat}
    (room : RoomFor start.dynamic calls.eraseDups)
    (run : start.addJumpSlots calls = some result)
    (notOnce : ¬ ZeroEntryOnce start.dynamic.pltAddress calls) :
    Called 1 result.1 calls := by
  induction calls using List.reverseRecOn generalizing result with
  | nil => exact absurd (fun k inNames => absurd inNames (by simp)) notOnce
  | append_singleton calls name inductionHypothesis =>
      obtain ⟨earlier, r, isEarlier, adds⟩ :=
        Importing.addJumpSlots_concat run
      have earlierRoom : RoomFor start.dynamic calls.eraseDups := by
        rw [eraseDups_concat] at room
        split_ifs at room
        · exact room
        · exact room.of_append
      by_cases once : ZeroEntryOnce start.dynamic.pltAddress calls
      · obtain ⟨called, isZero⟩ := zeroEntry_of_not_once once notOnce
        obtain ⟨calledBefore, areLogged⟩ := fresh.called_of_run isEarlier
        obtain ⟨state, alsoEarlier, stage⟩ :=
          fresh.addJumpSlots earlierRoom areLogged once
        cases isEarlier.symm.trans alsoEarlier
        have unknown : lookupSymbol state.table name = 0 := by
          rw [lookupSymbol_eq_known stage.table,
            stage.known_of_getElem? (nodup_eraseDups calls)
              (List.getElem?_idxOf (List.mem_eraseDups.mpr called)), isZero]
        have after := (calledBefore.addDynamicEntry adds).1
        refine { after with entries := ?_ }
        obtain ⟨isKnown, _⟩ | ⟨_, num, _⟩ :=
          Importing.addDynamicEntry_eq_some adds
        · exact absurd unknown isKnown
        · rw [eraseDups_concat, if_pos called, num]
          exact Nat.succ_le_succ calledBefore.entries
      · exact
          ((inductionHypothesis earlierRoom isEarlier once).addDynamicEntry
            adds).1

/-! ## The entries are right -/

/-- Different entries have different addresses. -/
theorem entryAddress_inj
    {pltAddress j k : Nat} (first : j < defaultNum) (second : k < defaultNum)
    (same : entryAddress pltAddress j = entryAddress pltAddress k) :
    j = k := by
  simp only [entryAddress, u32, defaultNum] at *
  omega

/-- Different entries have different slots. -/
theorem slotOffset_inj
    {d : Dynamic} {j k : Nat} (first : j < defaultNum)
    (second : k < defaultNum) (same : slotOffset d j = slotOffset d k) :
    j = k := by
  have sameAddress :
      entryAddress d.pltAddress j = entryAddress d.pltAddress k := by
    simp only [slotOffset, sub64, entryAddress, u32] at *
    omega
  exact entryAddress_inj first second sameAddress

/-- The entries of a table that has not filled its first chunk. -/
theorem Table.entries_of_closed
    {Entry : Type} {table : Table Entry} (closed : table.closed = []) :
    table.entries = table.current.entries := by
  simp [Table.entries, closed]

namespace Stage

variable
  {start state : Importing} {names : List CString} {name : CString}

/-- The symbol of an entry has its name. -/
theorem nameAt
    (stage : Stage start state names) (room : RoomFor start.dynamic names)
    {k : Nat} (atK : names[k]? = some name) :
    state.dynamic.nameAt (start.dynamic.dynsym.size + k) = some name := by
  obtain ⟨symRoom, strRoom⟩ := room
  obtain ⟨inNames, _⟩ := List.getElem?_eq_some_iff.mp atK
  obtain ⟨sym, present, stored⟩ := stage.named k name atK
  have symbolHead :
      state.dynamic.dynsym.head.entries =
        state.dynamic.dynsym.current.entries := by
    rw [Table.head, stage.dynsymOpen, List.headD_nil]
  have stringHead :
      state.dynamic.dynstr.head.entries =
        state.dynamic.dynstr.current.entries := by
    rw [Table.head, stage.dynstrOpen, List.headD_nil]
  have inTable : start.dynamic.dynsym.size + k < defaultNum := by omega
  have inStrings := stored.lt_length
  have total := stage.dynstrSize.symm.trans stage.dynstrTotal
  have terminated : sym.stName + name.length < defaultNum := by omega
  rw [Dynamic.nameAt, Dynamic.symAt, if_pos inTable, symbolHead,
    Option.mem_def.mp present, Option.getD_some, Option.bind_some,
    Dynamic.stringAt, stringHead, stored.ofBytes_drop]
  exact if_pos terminated

/-- The records for the slot of an entry. -/
theorem filter_records
    (stage : Stage start state names) (fewNames : names.length ≤ defaultNum)
    {k : Nat} (inNames : k < names.length) :
    (state.dynamic.relaPlt.entries.filter fun rela =>
        rela.rOffset = slotOffset start.dynamic k) =
      [slotRecord start.dynamic k (start.dynamic.dynsym.size + k)] := by
  have sameSlot :
      ∀ j ∈ List.range names.length,
        decide
            ((slotRecord start.dynamic j
              (start.dynamic.dynsym.size + j)).rOffset =
                slotOffset start.dynamic k) =
          (j == k) := by
    intro j inRange
    have inTable := (List.mem_range.mp inRange).trans_le fewNames
    change _ = decide (j = k)
    rw [decide_eq_decide]
    exact
      ⟨slotOffset_inj inTable (inNames.trans_le fewNames),
        congrArg (slotOffset start.dynamic)⟩
  have once : List.count k (List.range names.length) = 1 :=
    List.count_eq_one_of_mem List.nodup_range (List.mem_range.mpr inNames)
  rw [Table.entries_of_closed stage.relaOpen, stage.relaEntries,
    List.filter_map]
  have chosen :
      (List.range names.length).filter (fun j => j == k) = [k] := by
    rw [List.filter_beq, once]
    rfl
  calc
    _ = ((List.range names.length).filter fun j => j == k).map _ :=
      congrArg _ (List.filter_congr sameSlot)
    _ = _ := by rw [chosen, List.map_singleton]

/-- An entry is complete. -/
theorem entryRight
    (stage : Stage start state names) (room : RoomFor start.dynamic names)
    {k : Nat} (atK : names[k]? = some name) :
    EntryRight start.dynamic state k name where
  jump := by
    obtain ⟨inNames, _⟩ := List.getElem?_eq_some_iff.mp atK
    intro address
    rw [stage.code k inNames]
    rfl
  record := by
    obtain ⟨inNames, _⟩ := List.getElem?_eq_some_iff.mp atK
    have symRoom := room.1
    exact ⟨_, stage.filter_records (by omega) inNames, stage.nameAt room atK⟩

end Stage

/-- What calls that keep everything in step return is right. -/
theorem Stage.importsRight
    {start state : Importing} {calls : List CString}
    (fresh : NoImports start)
    (stage : Stage start state calls.eraseDups)
    (room : RoomFor start.dynamic calls.eraseDups) :
    ImportsRight start calls
      (state, answersOf start.dynamic.pltAddress calls) := by
  have symRoom := room.1
  have answerAt :
      ∀ i (called : i < calls.length),
        (answersOf start.dynamic.pltAddress calls)[i]? =
          some
            (entryAddress start.dynamic.pltAddress
              (calls.eraseDups.idxOf calls[i])) := by
    intro i called
    simp [answersOf, called]
  refine
    { answers := by simp [answersOf]
      sameAddress := ?_
      pltEntries := stage.pltGotNum
      symbols := ?_
      records := ?_
      entries := ?_ }
  · intro i calledI j calledJ
    have amongI := List.mem_eraseDups.mpr (List.getElem_mem calledI)
    have amongJ := List.mem_eraseDups.mpr (List.getElem_mem calledJ)
    have placeI := List.idxOf_lt_length_of_mem amongI
    have placeJ := List.idxOf_lt_length_of_mem amongJ
    rw [answerAt i calledI, answerAt j calledJ,
      List.getElem?_eq_getElem calledI, List.getElem?_eq_getElem calledJ,
      Option.some.injEq, Option.some.injEq]
    constructor
    · intro same
      have samePlace :=
        entryAddress_inj (by omega : _ < defaultNum) (by omega) same
      exact (List.idxOf_inj amongI).mp samePlace
    · intro same
      rw [same]
  · rw [Table.entries_of_closed stage.dynsymOpen,
      Table.entries_of_closed fresh.dynsymOpen, ← stage.dynsymSize,
      ← fresh.dynsymSize, stage.dynsymTotal]
  · rw [Table.entries_of_closed stage.relaOpen, stage.relaEntries]
    simp
  · intro k name atK
    refine ⟨stage.entryRight room atK, ?_⟩
    intro i calledI
    obtain ⟨called, rfl⟩ := List.getElem?_eq_some_iff.mp calledI
    obtain ⟨inNames, atK⟩ := List.getElem?_eq_some_iff.mp atK
    have place : calls.eraseDups.idxOf calls[i] = k := by
      rw [← atK]
      exact (nodup_eraseDups calls).idxOf_getElem k inNames
    rw [answerAt i called, place]

/--
Calls for names that fit the first chunks return one address a name and keep the
`.plt.got` entries, the symbols, the strings and the records in step exactly
when every name has fewer than 51 characters and one whose entry has the address
zero is not called again.
-/
theorem importsRight_iff_importsFit
    {start : Importing} (fresh : NoImports start) (calls : List CString)
    (room : RoomFor start.dynamic calls.eraseDups) :
    (∃ result ∈ start.addJumpSlots calls, ImportsRight start calls result) ↔
      ImportsFit start.dynamic.pltAddress calls := by
  constructor
  · rintro ⟨result, run, right⟩
    obtain ⟨_, areLogged⟩ := fresh.called_of_run run
    refine
      ⟨fun name member =>
        (isLogged_importLine_iff name).mp (areLogged name member), ?_⟩
    by_contra notOnce
    have tooMany := (fresh.called_of_not_once room run notOnce).entries
    rw [right.pltEntries] at tooMany
    omega
  · rintro ⟨short, once⟩
    obtain ⟨state, run, stage⟩ :=
      fresh.addJumpSlots room
        (fun name member =>
          (isLogged_importLine_iff name).mpr (short name member)) once
    exact ⟨_, run, stage.importsRight fresh room⟩

/-- The tables of a link before the first import. -/
def freshImporting (baseAddress pltAddress : Nat) : Importing where
  dynamic := .init baseAddress pltAddress 1 2 5
  pltGot := fun _ => 0
  table := ChainedTable.empty importBuckets

/-- Nothing is imported at the start. -/
theorem noImports_freshImporting (baseAddress pltAddress : Nat) :
    NoImports (freshImporting baseAddress pltAddress) where
  imported := rfl
  table := rfl
  pltGotNum := rfl
  pltGot := fun _ _ => rfl
  relaPlt := rfl
  dynsymOpen := rfl
  dynsymSize := rfl
  dynstrOpen := rfl
  dynstrSize := rfl

/-- Three calls for two names. -/
theorem importsRight_three :
    let start := freshImporting 0 0x1000
    let calls :=
      [CString.ofString "puts", CString.ofString "exit",
        CString.ofString "puts"]
    ∃ result ∈ start.addJumpSlots calls, ImportsRight start calls result :=
  (importsRight_iff_importsFit (noImports_freshImporting 0 0x1000) _
    ⟨by decide +kernel, by decide +kernel⟩).mpr (by decide +kernel)

/-- A member function of `std::string`. -/
def appendName : CString :=
  .ofString "_ZNSt7__cxx1112basic_stringIcSt11char_traitsIcESaIcEE6appendEPKc"

/-- Its name overruns the line about its entry. -/
theorem not_importsRight_appendName :
    let start := freshImporting 0 0x1000
    ¬ ∃ result ∈ start.addJumpSlots [appendName],
        ImportsRight start [appendName] result := by
  rintro start ⟨result, run, _⟩
  have overruns : start.addJumpSlots [appendName] = none := by
    decide +kernel
  cases overruns.symm.trans run

end BinTools.Elf
