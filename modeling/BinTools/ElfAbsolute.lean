import BinTools.ElfLoaderReloc
import BinTools.ElfPcRelative
import BinTools.ElfPltEntries

namespace BinTools.Elf

/-!
# Absolute relocations

A field of eight bytes is left to the loader: the linker adds a record by which
the loader stores its base with an addend of the record.  The addend of the
relocation does not get there, and the base address of the output is taken off
once more from the value of an exported symbol.
-/

open LogLine

/-- A symbol stands for an address in the linked objects. -/
inductive RefersTo (link : Link) (oc : ObjectChain) (sym : Sym) :
    Nat → Prop where
  | section (shdr : Shdr)
      (isSection : sym.stType = sttSection)
      (isHeader : link.headers[oc.sectionHead + sym.stShndx]? = some shdr) :
      RefersTo link oc sym shdr.shAddr
  | symbol (owner : ObjectChain) (cell : SymbolChain) (address : Nat)
      (isNamed :
        sym.stType = sttNotype ∨ sym.stType = sttObject ∨
          sym.stType = sttFunc)
      (isOwner : owner ∈ link.objects)
      (isDefined : cell ∈ owner.symbolChain)
      (isSame : cell.name = sym.name)
      (isAddress : ownAddress link owner cell.sym = some address) :
      RefersTo link oc sym address

/-- A record as the loader reads it. -/
def RelaEntry.loaded (record : RelaEntry) : Loader.Rela where
  offset := BitVec.ofNat 64 record.rOffset
  info := BitVec.ofNat 64 (record.symIndex * 2 ^ 32 + record.relType)
  addend := BitVec.ofNat 64 record.rAddend

/-- With this record the loader stores an address at a place of its library. -/
def RelaEntry.Stores (record : RelaEntry) (place value : Int) : Prop :=
  ∀ libraries library memory symVal,
    Loader.relocStep libraries library (memory, symVal) record.loaded =
      some
        (ByteBuffer.storeWord 8 memory
            (library.base + BitVec.ofInt 64 place).toNat
            (library.base + BitVec.ofInt 64 value).toNat,
          symVal)

/--
One record was added and no other, which is relative and has the symbol's address
with the addend, and by which the loader stores that.
-/
def AddsRelative
    (d later : Dynamic) (place symbol : Nat) (addend : Int) : Prop :=
  let offset : Int := place - d.baseAddress
  let value : Int := symbol + addend - d.baseAddress
  ∃ record : RelaEntry,
    later.relaPlt.entries = d.relaPlt.entries ++ [record] ∧
      record.relType = rRelative ∧
      (record.rOffset : Int) = offset % 2 ^ 64 ∧
      (record.rAddend : Int) = value % 2 ^ 64 ∧
      record.Stores offset value

/-- The relocation comes to an end and adds its record. -/
def EmitsRelative
    (link : Link) (oc : ObjectChain) (state : Relocating)
    (call : RelocCall) (place symbol : Nat) : Prop :=
  ∃ result ∈ resolveNew link oc state call,
    AddsRelative state.dynamic result.1.dynamic place symbol
      call.rela.rAddend

/-- The symbol is one that is looked up by its name. -/
def IsNamed (sym : Sym) : Prop :=
  sym.stType = sttNotype ∨ sym.stType = sttObject ∨ sym.stType = sttFunc

instance (sym : Sym) : Decidable (IsNamed sym) :=
  inferInstanceAs (Decidable (_ ∨ _))

/-- The tables have an entry for the name with a value. -/
def HasValue (d : Dynamic) (name : CString) (value : Nat) : Prop :=
  ∃ index ∈ d.findSym2 name,
    ∃ entry ∈ d.symAt index, entry.stValue = value ∧ value ≠ 0

instance (d : Dynamic) (name : CString) (value : Nat) :
    Decidable (HasValue d name value) :=
  inferInstanceAs (Decidable (∃ index ∈ _, _))

/--
The place fits in 32 bits and the table of records has room.  The address of a
section fits in 32 bits and the addend is zero; the value that the tables have
for a name is the symbol's address with the addend already, and the field is
not one of the two arrays.  The name fits the line about it.
-/
structure RelativeFits
    (d : Dynamic) (sym : Sym) (call : RelocCall) (place symbol : Nat) :
    Prop where
  place : place % 2 ^ 64 < 2 ^ 32
  room : d.relaPlt.current.entries.length < defaultNum
  section_ :
    sym.stType = sttSection →
      symbol % 2 ^ 32 = (symbol + call.rela.rAddend) % 2 ^ 64 ∧
        IsLogged (resolutionLine sym.name (.internalSection symbol))
  symbol :
    IsNamed sym →
      call.sec ≠ .initArray ∧ call.sec ≠ .finiArray ∧
        ∃ value,
          HasValue d sym.name value ∧
            (value : Int) % 2 ^ 64 =
              (symbol + call.rela.rAddend) % 2 ^ 64 ∧
            IsLogged (resolutionLine sym.name (.internalFunc value))

/-! ## Records -/

/-- A new chunk has no entries. -/
theorem Table.entries_addDynamicSc {Entry : Type} (table : Table Entry) :
    table.addDynamicSc.entries = table.entries := by
  simp [Table.entries, Table.addDynamicSc]

/-- An entry that is written comes last. -/
theorem Table.entries_write
    {Entry : Type} {table written : Table Entry} {capacity : Nat}
    {entry : Entry} (writes : table.write capacity entry = some written) :
    written.entries = table.entries ++ [entry] := by
  obtain ⟨_, rfl⟩ := Table.write_eq_some writes
  simp [Table.entries]

/-- One record is added to `.rela.plt`. -/
theorem Dynamic.entries_addRelaPltEntry
    {d next : Dynamic} {offset symIndex relType addend : Nat}
    (adds : d.addRelaPltEntry offset symIndex relType addend = some next) :
    next.relaPlt.entries =
      d.relaPlt.entries ++
        [{ rOffset := sub64 offset d.baseAddress
           symIndex := symIndex
           relType := relType
           rAddend := sub64 addend d.baseAddress }] := by
  obtain ⟨written, writes, rfl⟩ := Option.map_eq_some_iff.mp adds
  have isWritten := Table.entries_write writes
  dsimp only
  split
  · rw [Table.entries_addDynamicSc]
    exact isWritten
  · exact isWritten

/-- A record is added when the chunk has room. -/
theorem Dynamic.isSome_addRelaPltEntry
    (d : Dynamic) (offset symIndex relType addend : Nat) :
    (d.addRelaPltEntry offset symIndex relType addend).isSome ↔
      d.relaPlt.current.entries.length < defaultNum := by
  rw [Dynamic.addRelaPltEntry, Option.isSome_map, Table.isSome_write]

/-- An import without a PLT entry adds a record that is not relative. -/
theorem Dynamic.entries_addDynamicEntry2
    {d next : Dynamic} {offset : Nat} {name : CString}
    (adds : d.addDynamicEntry2 offset name = some next) :
    ∃ record : RelaEntry,
      next.relaPlt.entries = d.relaPlt.entries ++ [record] ∧
        record.relType = rGlobDat := by
  obtain ⟨_, adds⟩ := Option.ite_none_right_eq_some.mp adds
  obtain ⟨⟨first, strOffset⟩, addsString, adds⟩ :=
    Option.bind_eq_some_iff.mp adds
  obtain ⟨second, addsSymbol, addsRecord⟩ := Option.bind_eq_some_iff.mp adds
  have isRecord := Dynamic.entries_addRelaPltEntry addsRecord
  rw [(Dynamic.addDynsymEntry_spec addsSymbol).1,
    (Dynamic.addDynstrEntry_spec addsString).1] at isRecord
  exact ⟨_, isRecord, rfl⟩

/-- The difference of two words. -/
theorem sub64_eq (first second : Nat) :
    (sub64 first second : Int) = (first - second : Int) % 2 ^ 64 := by
  unfold sub64
  omega

/-- A number is the same word after a reduction. -/
theorem ofNat_eq_ofInt_of_emod
    {word : Nat} {value : Int} (isWord : (word : Int) = value % 2 ^ 64) :
    BitVec.ofNat 64 word = BitVec.ofInt 64 value := by
  rw [← BitVec.ofInt_natCast, isWord]
  apply BitVec.eq_of_toInt_eq
  rw [BitVec.toInt_ofInt, BitVec.toInt_ofInt]
  exact Int.emod_bmod _ _

/-- A relative record makes the loader store its addend. -/
theorem RelaEntry.stores_of_relative
    {record : RelaEntry} {place value : Int} (noSymbol : record.symIndex = 0)
    (isRelative : record.relType = rRelative)
    (isPlace : (record.rOffset : Int) = place % 2 ^ 64)
    (isValue : (record.rAddend : Int) = value % 2 ^ 64) :
    record.Stores place value := by
  intro libraries library memory symVal
  have isSym : record.loaded.sym = 0 := by
    simp [RelaEntry.loaded, Loader.Rela.sym, noSymbol, isRelative, rRelative]
  have isType : record.loaded.type = 8 := by
    simp [RelaEntry.loaded, Loader.Rela.type, noSymbol, isRelative, rRelative]
  have isOffset : record.loaded.offset = BitVec.ofInt 64 place :=
    ofNat_eq_ofInt_of_emod isPlace
  have isAddend : record.loaded.addend = BitVec.ofInt 64 value :=
    ofNat_eq_ofInt_of_emod isValue
  rw [Loader.relocStep, isSym, if_neg (by decide), Loader.fillPlace, isType,
    Loader.Library.place, isOffset, isAddend]
  rfl

/-- What a call of the table adds. -/
theorem addsRelative_iff
    {d later : Dynamic} {place symbol word : Nat} {addend : Int}
    (adds : d.addRelaPltEntry (u32 place) 0 rRelative word = some later) :
    AddsRelative d later place symbol addend ↔
      place % 2 ^ 64 < 2 ^ 32 ∧
        (word : Int) % 2 ^ 64 = (symbol + addend) % 2 ^ 64 := by
  have isRecord := Dynamic.entries_addRelaPltEntry adds
  have isOffset := sub64_eq (u32 place) d.baseAddress
  have isAddend := sub64_eq word d.baseAddress
  constructor
  · rintro ⟨record, isSame, _, isPlace, isValue, _⟩
    have isOnly := List.append_cancel_left (isRecord.symm.trans isSame)
    cases isOnly
    dsimp only at isPlace isValue
    rw [isOffset] at isPlace
    rw [isAddend] at isValue
    unfold u32 at isPlace
    omega
  · rintro ⟨isShort, isSum⟩
    have isPlace :
        ((sub64 (u32 place) d.baseAddress : Nat) : Int) =
          (place - d.baseAddress) % 2 ^ 64 := by
      rw [isOffset]
      unfold u32
      omega
    have isValue :
        ((sub64 word d.baseAddress : Nat) : Int) =
          (symbol + addend - d.baseAddress) % 2 ^ 64 := by
      rw [isAddend]
      omega
    exact
      ⟨_, isRecord, rfl, isPlace, isValue,
        RelaEntry.stores_of_relative rfl rfl isPlace isValue⟩

/-- A call of the table adds the record when it has room. -/
theorem exists_addsRelative_iff
    {state : Relocating} {place symbol word : Nat} {addend : Int}
    {resolution : Resolution} :
    (∃ result ∈
        (state.dynamic.addRelaPltEntry (u32 place) 0 rRelative word).map
          fun d => (({ state with dynamic := d } : Relocating), resolution),
      AddsRelative state.dynamic result.1.dynamic place symbol addend) ↔
      state.dynamic.relaPlt.current.entries.length < defaultNum ∧
        place % 2 ^ 64 < 2 ^ 32 ∧
        (word : Int) % 2 ^ 64 = (symbol + addend) % 2 ^ 64 := by
  rw [exists_mem_map,
    ← Dynamic.isSome_addRelaPltEntry state.dynamic (u32 place) 0 rRelative
      word,
    Option.isSome_iff_exists]
  constructor
  · rintro ⟨later, adds, isAdded⟩
    exact ⟨⟨later, adds⟩, (addsRelative_iff adds).mp isAdded⟩
  · rintro ⟨⟨later, adds⟩, fits⟩
    exact ⟨later, adds, (addsRelative_iff adds).mpr fits⟩

/-- Without a new record nothing relative is added. -/
theorem not_addsRelative_of_same
    {d later : Dynamic} (isSame : later.relaPlt = d.relaPlt)
    (place symbol : Nat) (addend : Int) :
    ¬ AddsRelative d later place symbol addend := by
  rintro ⟨record, isRecord, _⟩
  rw [isSame] at isRecord
  have lengths := congrArg List.length isRecord
  rw [List.length_append, List.length_singleton] at lengths
  omega

/-! ## The relocation -/

/-- A value of a name is what the resolver finds for it. -/
theorem targetOf_eq_internalFunc_iff
    (link : Link) (oc : ObjectChain) {d : Dynamic} {sym : Sym} {value : Nat}
    (isNamed : IsNamed sym) :
    targetOf link oc d sym = some (some (.internalFunc value)) ↔
      HasValue d sym.name value := by
  rw [targetOf_named isNamed]
  constructor
  · intro isTarget
    obtain ⟨index, isIndex, found⟩ := Option.bind_eq_some_iff.mp isTarget
    obtain ⟨entry, isEntry, isValue⟩ := Option.map_eq_some_iff.mp found
    split_ifs at isValue with noValue
    · cases isValue
    · cases isValue
      exact ⟨index, isIndex, entry, isEntry, rfl, noValue⟩
  · rintro ⟨index, isIndex, entry, isEntry, rfl, hasValue⟩
    rw [isIndex, Option.bind_some, isEntry, Option.map_some,
      if_neg hasValue]

/-- A symbol that is looked up is none of a section. -/
theorem IsNamed.ne_section {sym : Sym} (isNamed : IsNamed sym) :
    sym.stType ≠ sttSection := by
  rcases isNamed with isType | isType | isType <;> rw [isType] <;> decide

/-- A symbol that is looked up is found by its name, imported or neither. -/
theorem targetOf_of_isNamed
    {link : Link} {oc : ObjectChain} {d : Dynamic} {sym : Sym}
    {target : Option Target} (isNamed : IsNamed sym)
    (isTarget : targetOf link oc d sym = some target) :
    target = some .dynamicFunc ∨
      ∃ value, target = some (.internalFunc value) := by
  rw [targetOf_named isNamed] at isTarget
  obtain ⟨index, _, found⟩ := Option.bind_eq_some_iff.mp isTarget
  obtain ⟨entry, _, rfl⟩ := Option.map_eq_some_iff.mp found
  split_ifs
  · exact Or.inl rfl
  · exact Or.inr ⟨_, rfl⟩

/-- What is no section was looked up by its name. -/
theorem isNamed_of_target
    {link : Link} {oc : ObjectChain} {d : Dynamic} {sym : Sym}
    {target : Target} (isTarget : targetOf link oc d sym = some (some target))
    (notSection : ∀ address, target ≠ .internalSection address) :
    IsNamed sym := by
  by_contra notNamed
  unfold IsNamed at notNamed
  rw [targetOf, if_neg notNamed] at isTarget
  split_ifs at isTarget
  · obtain ⟨shdr, _, isSection⟩ := Option.map_eq_some_iff.mp isTarget
    cases isSection
    exact notSection _ rfl
  · cases isTarget

/-- A relocation whose symbol stands for a section. -/
theorem emitsRelative_iff_of_section
    {link : Link} {oc : ObjectChain} {state : Relocating} {call : RelocCall}
    {subShdr shdr : Shdr} {sym : Sym}
    (isSection : link.headers[call.subShdr]? = some subShdr)
    (isSym : symbolOf link oc call.rela = some sym)
    (isAbsolute : call.rela.relType = r64)
    (isType : sym.stType = sttSection)
    (isHeader : link.headers[oc.sectionHead + sym.stShndx]? = some shdr) :
    EmitsRelative link oc state call (subShdr.shAddr + call.rela.rOffset)
        shdr.shAddr ↔
      RelativeFits state.dynamic sym call
        (subShdr.shAddr + call.rela.rOffset) shdr.shAddr := by
  have notNamed : ¬ IsNamed sym := fun isNamed => isNamed.ne_section isType
  unfold IsNamed at notNamed
  have isTarget :
      targetOf link oc state.dynamic sym =
        some (some (.internalSection (u32 shdr.shAddr))) := by
    rw [targetOf, if_neg notNamed, if_pos isType, isHeader]
    rfl
  unfold EmitsRelative resolveNew
  rw [isSection, Option.bind_some, isSym, Option.bind_some, isTarget,
    Option.bind_some]
  dsimp only
  rw [exists_mem_ite, applyTarget, if_pos isAbsolute]
  refine (and_congr_right' exists_addsRelative_iff).trans ?_
  constructor
  · rintro ⟨logged, room, isShort, isSum⟩
    refine
      ⟨isShort, room, fun _ => ⟨?_, logged⟩, fun isNamed =>
        absurd isNamed notNamed⟩
    unfold u32 at isSum
    omega
  · intro fits
    obtain ⟨isSum, logged⟩ := fits.section_ isType
    refine ⟨logged, fits.room, fits.place, ?_⟩
    unfold u32
    omega

/-- A relocation whose symbol is looked up by its name. -/
theorem emitsRelative_iff_of_isNamed
    {link : Link} {oc : ObjectChain} {state : Relocating} {call : RelocCall}
    {subShdr : Shdr} {sym : Sym} {symbol : Nat}
    (isSection : link.headers[call.subShdr]? = some subShdr)
    (isSym : symbolOf link oc call.rela = some sym)
    (isAbsolute : call.rela.relType = r64) (isNamed : IsNamed sym) :
    EmitsRelative link oc state call (subShdr.shAddr + call.rela.rOffset)
        symbol ↔
      RelativeFits state.dynamic sym call
        (subShdr.shAddr + call.rela.rOffset) symbol := by
  have noValue :
      (∀ value,
        targetOf link oc state.dynamic sym ≠
          some (some (.internalFunc value))) →
        ¬ RelativeFits state.dynamic sym call
            (subShdr.shAddr + call.rela.rOffset) symbol := by
    intro notFound fits
    obtain ⟨_, _, value, hasValue, _⟩ := fits.symbol isNamed
    exact
      notFound value
        ((targetOf_eq_internalFunc_iff link oc isNamed).mpr hasValue)
  unfold EmitsRelative resolveNew
  rw [isSection, Option.bind_some, isSym, Option.bind_some]
  cases isTarget : targetOf link oc state.dynamic sym with
  | none =>
      refine iff_of_false ?_ (noValue fun value isFound => ?_)
      · rintro ⟨result, isNone, _⟩
        cases isNone
      · cases isTarget.symm.trans isFound
  | some target =>
      rw [Option.bind_some]
      rcases targetOf_of_isNamed isNamed isTarget with rfl | ⟨value, rfl⟩
      · refine iff_of_false ?_ (noValue fun value isFound => ?_)
        · rintro ⟨result, resolves, record, isRecord, isRelative, _⟩
          have resolves := (logged_of_applied resolves).2
          rw [applyTarget, if_pos isAbsolute] at resolves
          obtain ⟨later, adds, rfl⟩ := Option.map_eq_some_iff.mp resolves
          obtain ⟨other, isOther, isGlobDat⟩ :=
            Dynamic.entries_addDynamicEntry2 adds
          have isOnly := List.append_cancel_left (isOther.symm.trans isRecord)
          cases isOnly
          exact absurd (isGlobDat.symm.trans isRelative) (by decide)
        · cases isTarget.symm.trans isFound
      · have hasValue :=
          (targetOf_eq_internalFunc_iff link oc isNamed).mp isTarget
        dsimp only
        by_cases inInit : call.sec = .initArray
        · rw [if_pos inInit]
          refine iff_of_false ?_ fun fits => (fits.symbol isNamed).1 inInit
          rintro ⟨result, resolves, adds⟩
          obtain ⟨later, isLater, rfl⟩ := Option.map_eq_some_iff.mp resolves
          obtain ⟨_, _, rfl⟩ := Option.map_eq_some_iff.mp isLater
          exact not_addsRelative_of_same rfl _ _ _ adds
        · rw [if_neg inInit]
          by_cases inFini : call.sec = .finiArray
          · rw [if_pos inFini]
            refine
              iff_of_false ?_ fun fits => (fits.symbol isNamed).2.1 inFini
            rintro ⟨result, resolves, adds⟩
            obtain ⟨later, isLater, rfl⟩ := Option.map_eq_some_iff.mp resolves
            obtain ⟨_, _, rfl⟩ := Option.map_eq_some_iff.mp isLater
            exact not_addsRelative_of_same rfl _ _ _ adds
          · rw [if_neg inFini, exists_mem_ite, applyTarget,
              if_pos isAbsolute]
            refine (and_congr_right' exists_addsRelative_iff).trans ?_
            constructor
            · rintro ⟨logged, room, isShort, isSum⟩
              exact
                { place := isShort
                  room := room
                  section_ := fun isType =>
                    absurd isType isNamed.ne_section
                  symbol := fun _ =>
                    ⟨inInit, inFini, value, hasValue, isSum, logged⟩ }
            · intro fits
              obtain ⟨_, _, other, isOther, isSum, logged⟩ :=
                fits.symbol isNamed
              have isFound :
                  targetOf link oc state.dynamic sym =
                    some (some (.internalFunc other)) :=
                (targetOf_eq_internalFunc_iff link oc isNamed).mpr isOther
              cases isTarget.symm.trans isFound
              exact ⟨logged, fits.room, fits.place, isSum⟩

/--
An absolute relocation adds the record for its symbol's address with the addend
exactly when the place fits in 32 bits, the table has room, the name fits its
line and, for a section, the address fits in 32 bits and the addend is zero,
while for a name the value in the tables is not zero and is this sum as it
stands.
-/
theorem emitsRelative_iff_relativeFits
    {link : Link} {oc : ObjectChain} {state : Relocating} {call : RelocCall}
    {subShdr : Shdr} {sym : Sym} {symbol : Nat}
    (isSection : link.headers[call.subShdr]? = some subShdr)
    (isSym : symbolOf link oc call.rela = some sym)
    (isAbsolute : call.rela.relType = r64)
    (refers : RefersTo link oc sym symbol) :
    EmitsRelative link oc state call (subShdr.shAddr + call.rela.rOffset)
        symbol ↔
      RelativeFits state.dynamic sym call
        (subShdr.shAddr + call.rela.rOffset) symbol := by
  cases refers with
  | «section» shdr isType isHeader =>
      exact
        emitsRelative_iff_of_section isSection isSym isAbsolute isType isHeader
  | symbol owner cell address isNamed isOwner isDefined isSame isAddress =>
      exact
        emitsRelative_iff_of_isNamed isSection isSym isAbsolute isNamed

/--
The value that is registered for a symbol has the base address taken off, and is
the address with the addend when the addend takes it off as well.
-/
theorem registered_emod_iff
    {symbol base : Nat} {addend : Int} (isBehind : base ≤ symbol)
    (isShort : symbol < 2 ^ 32) :
    ((sub32 symbol base : Nat) : Int) % 2 ^ 64 = (symbol + addend) % 2 ^ 64 ↔
      (addend + base) % 2 ^ 64 = 0 := by
  have isDifference : sub32 symbol base = symbol - base := by
    simp only [sub32, u32]
    omega
  rw [isDifference]
  omega

/-- An object that stores the address of its function `f`, with an addend. -/
def storesAddressOfF (addend : Int) : ElfFile :=
  .ofHeaders
    [sectionHeader ".text" shtProgbits 16,
      { sectionHeader ".symtab" shtSymtab 48 with
        symAt := fun
          | 0 => default
          | _ => staticF },
      { sectionHeader ".rela.text" shtRela 24 with
        shInfo := 1
        relaAt := fun _ =>
          { rOffset := 8, symIndex := 1, relType := r64, rAddend := addend } }]

/-- Without an addend the record has the address of the function. -/
theorem emitsRelative_storesAddressOfF :
    ∃ item ∈ (relocations (exportsOf [storesAddressOfF 0]).link).getD [],
      EmitsRelative (exportsOf [storesAddressOfF 0]).link item.1
        (exportsOf [storesAddressOfF 0]).relocating item.2 240 232 := by
  have isItem :
      ∃ item ∈ (relocations (exportsOf [storesAddressOfF 0]).link).getD [],
        (∃ subShdr ∈
            (exportsOf [storesAddressOfF 0]).link.headers[item.2.subShdr]?,
          subShdr.shAddr + item.2.rela.rOffset = 240) ∧
        (∃ cell ∈ item.1.symbolChain,
          cell.name = staticF.name ∧
            ownAddress (exportsOf [storesAddressOfF 0]).link item.1 cell.sym =
              some 232) ∧
        item.1 ∈ (exportsOf [storesAddressOfF 0]).link.objects ∧
        symbolOf (exportsOf [storesAddressOfF 0]).link item.1 item.2.rela =
          some staticF ∧
        item.2.rela.relType = r64 ∧ item.2.rela.rAddend = 0 ∧
        item.2.sec = .relaText ∧
        HasValue (exportsOf [storesAddressOfF 0]).relocating.dynamic
          staticF.name 232 ∧
        (exportsOf [storesAddressOfF
            0]).relocating.dynamic.relaPlt.current.entries.length <
          defaultNum := by
    decide +kernel
  obtain ⟨item, member, ⟨subShdr, isSection, isPlace⟩,
    ⟨cell, isCell, isName, isAddress⟩, isOwner, isSym, isAbsolute, noAddend,
    isText, hasValue, room⟩ := isItem
  refine ⟨item, member, ?_⟩
  rw [← isPlace]
  refine
    (emitsRelative_iff_relativeFits isSection isSym isAbsolute
      (.symbol item.1 cell 232 (by decide) isOwner isCell isName
        isAddress)).mpr ?_
  rw [isPlace]
  refine ⟨by decide, room, fun isType => absurd isType (by decide), ?_⟩
  intro _
  rw [isText, noAddend]
  exact ⟨by decide, by decide, 232, hasValue, by decide, by decide⟩

/-- With the addend 8 it has the same address. -/
theorem not_emitsRelative_storesAddressOfF :
    ∃ item ∈ (relocations (exportsOf [storesAddressOfF 8]).link).getD [],
      symbolOf (exportsOf [storesAddressOfF 8]).link item.1 item.2.rela =
          some staticF ∧
        item.2.rela.relType = r64 ∧
        RefersTo (exportsOf [storesAddressOfF 8]).link item.1 staticF 232 ∧
        ¬ EmitsRelative (exportsOf [storesAddressOfF 8]).link item.1
            (exportsOf [storesAddressOfF 8]).relocating item.2 240 232 := by
  have isItem :
      ∃ item ∈ (relocations (exportsOf [storesAddressOfF 8]).link).getD [],
        (∃ subShdr ∈
            (exportsOf [storesAddressOfF 8]).link.headers[item.2.subShdr]?,
          subShdr.shAddr + item.2.rela.rOffset = 240) ∧
        (∃ cell ∈ item.1.symbolChain,
          cell.name = staticF.name ∧
            ownAddress (exportsOf [storesAddressOfF 8]).link item.1 cell.sym =
              some 232) ∧
        item.1 ∈ (exportsOf [storesAddressOfF 8]).link.objects ∧
        symbolOf (exportsOf [storesAddressOfF 8]).link item.1 item.2.rela =
          some staticF ∧
        item.2.rela.relType = r64 ∧ item.2.rela.rAddend = 8 ∧
        targetOf (exportsOf [storesAddressOfF 8]).link item.1
            (exportsOf [storesAddressOfF 8]).relocating.dynamic staticF =
          some (some (.internalFunc 232)) := by
    decide +kernel
  obtain ⟨item, member, ⟨subShdr, isSection, isPlace⟩,
    ⟨cell, isCell, isName, isAddress⟩, isOwner, isSym, isAbsolute, isAddend,
    isTarget⟩ := isItem
  have isNamed : IsNamed staticF := by decide
  refine
    ⟨item, member, isSym, isAbsolute,
      .symbol item.1 cell 232 isNamed isOwner isCell isName isAddress, ?_⟩
  intro emits
  rw [← isPlace] at emits
  have fits :=
    (emitsRelative_iff_of_isNamed isSection isSym isAbsolute isNamed).mp emits
  obtain ⟨_, _, value, hasValue, isSum, _⟩ := fits.symbol isNamed
  have isFound :=
    (targetOf_eq_internalFunc_iff (exportsOf [storesAddressOfF 8]).link item.1
      isNamed).mpr hasValue
  cases isTarget.symm.trans isFound
  rw [isAddend] at isSum
  exact absurd isSum (by decide)

end BinTools.Elf
