import BinTools.ElfAbsolute

namespace BinTools.Elf

/-!
# Slots for addresses

A field can hold the distance to a slot of eight bytes in which the loader puts
the address of a symbol.  Each such relocation takes an entry of `.plt.got` for
itself and uses the slot behind the code of the entry.
-/

open LogLine

/-- The address of the slot that the next entry has. -/
def nextSlot (d : Dynamic) : Nat :=
  u32 (entryAddress d.pltAddress d.pltGotNum + 8)

/-- The records by which the loader puts an address at a place. -/
def globDatsAt (d : Dynamic) (address : Nat) : List RelaEntry :=
  d.relaPlt.entries.filter fun record =>
    record.relType = rGlobDat ∧ record.rOffset = sub64 address d.baseAddress

/--
The relocation takes the next entry, its field holds the distance to the slot of
that entry with the addend, no other byte changes, and one record for the slot
has the index of a symbol with the name.
-/
def StoresSlot
    (link : Link) (oc : ObjectChain) (state : Relocating)
    (call : RelocCall) (place : Nat) (name : CString) : Prop :=
  ∃ result ∈ resolveNew link oc state call,
    result.1.dynamic.pltGotNum = state.dynamic.pltGotNum + 1 ∧
      (((place +
            ByteBuffer.loadWord 4 (result.1.data call.subShdr)
              call.rela.rOffset : Nat) : Int) % 2 ^ 32 =
          (nextSlot state.dynamic + call.rela.rAddend) % 2 ^ 32 ∧
        ∀ p position,
          p ≠ call.subShdr ∨ position < call.rela.rOffset ∨
              call.rela.rOffset + 4 ≤ position →
            result.1.data p position = state.data p position) ∧
      ∃ record,
        globDatsAt result.1.dynamic (nextSlot state.dynamic) = [record] ∧
          result.1.dynamic.nameAt record.symIndex = some name

/-- The tables are in their first chunks and have room for one more entry. -/
structure RoomForEntry (d : Dynamic) (name : CString) : Prop where
  pltRoom : d.pltGotNum < defaultNum
  relaOpen : d.relaPlt.closed = []
  relaSize :
    d.relaPlt.size = d.relaPlt.current.entries.length * sizeofRela
  relaRoom : d.relaPlt.current.entries.length + 1 < defaultNum
  dynsymOpen : d.dynsym.closed = []
  dynsymSize : d.dynsym.size = d.dynsym.current.entries.length
  dynsymRoom : d.dynsym.size + 1 < defaultNum
  dynstrOpen : d.dynstr.closed = []
  dynstrSize : d.dynstr.size = d.dynstr.current.entries.length
  dynstrRoom : d.dynstr.size + name.length < defaultNum

/--
The symbol is looked up by its name, and when it is found the field is not one
of the two arrays.  The lines about the symbol and about its entry have room for
the name, the slot with the addend is not the place, and no record is there for
the slot.
-/
structure SlotFits
    (link : Link) (oc : ObjectChain) (d : Dynamic) (sym : Sym)
    (call : RelocCall) (place : Nat) : Prop where
  isNamed : IsNamed sym
  lookup : ∃ index ∈ d.findSym2 sym.name, (d.symAt index).isSome
  notArray :
    FoundAmongExports link oc d sym →
      call.sec ≠ .initArray ∧ call.sec ≠ .finiArray
  logged :
    ∀ target,
      targetOf link oc d sym = some (some target) →
        IsLogged (resolutionLine sym.name target)
  importLogged : IsLogged (importLine sym.name)
  notZero : ¬ DistanceIsZero place (nextSlot d) call.rela.rAddend
  noRecord : globDatsAt d (nextSlot d) = []

/-- No byte belongs to both of two entries. -/
def Apart (first second : Nat) : Prop :=
  ∀ i < 0x10, ∀ j < 0x10, (first + i) % 2 ^ 32 ≠ (second + j) % 2 ^ 32

/-- The addresses of the entries that some relocations take, in order. -/
def entriesTaken (link : Link) :
    Relocating → List (ObjectChain × RelocCall) → List Nat
  | _, [] => []
  | state, item :: rest =>
      (relocate link state item).elim [] fun next =>
        (if next.dynamic.pltGotNum = state.dynamic.pltGotNum then
          []
        else
          [entryAddress state.dynamic.pltAddress state.dynamic.pltGotNum]) ++
            entriesTaken link next rest

/-! ## The slot that is taken -/

/-- The record for the next slot comes last. -/
theorem Dynamic.globDatsAt_withEntry
    {d : Dynamic} (relaOpen : d.relaPlt.closed = []) (name : CString) :
    globDatsAt (d.withEntry name rGlobDat) (nextSlot d) =
      globDatsAt d (nextSlot d) ++
        [{ rOffset := slotOffset d d.pltGotNum
           symIndex := d.dynsym.size
           relType := rGlobDat
           rAddend := sub64 0 d.baseAddress }] := by
  have isEntries :
      (d.withEntry name rGlobDat).relaPlt.entries =
        d.relaPlt.entries ++
          [{ rOffset := slotOffset d d.pltGotNum
             symIndex := d.dynsym.size
             relType := rGlobDat
             rAddend := sub64 0 d.baseAddress }] := by
    simp [Table.entries, Dynamic.withEntry, relaOpen]
  have isSlot : slotOffset d d.pltGotNum = sub64 (nextSlot d) d.baseAddress :=
    rfl
  rw [globDatsAt, isEntries, List.filter_append, isSlot]
  congr 1
  exact List.filter_cons_of_pos (by simp [Dynamic.withEntry])

/-- The new symbol has the name. -/
theorem Dynamic.nameAt_withEntry
    {d : Dynamic} {name : CString} (room : RoomForEntry d name)
    (relType : Nat) :
    (d.withEntry name relType).nameAt d.dynsym.size = some name := by
  have symbolHead :
      (d.withEntry name relType).dynsym.head.entries =
        d.dynsym.current.entries ++ [{ stName := d.dynstr.size }] := by
    rw [Table.head]
    simp [Dynamic.withEntry, room.dynsymOpen]
  have stringHead :
      (d.withEntry name relType).dynstr.head.entries =
        d.dynstr.current.entries ++ name.bytes ++ [0] := by
    rw [Table.head]
    simp [Dynamic.withEntry, room.dynstrOpen]
  have isSymbol :
      (d.dynsym.current.entries ++
          [({ stName := d.dynstr.size } : DynsymEntry)])[d.dynsym.size]? =
        some { stName := d.dynstr.size } := by
    rw [room.dynsymSize, List.getElem?_concat_length]
  have isStored :
      StoredAt (d.dynstr.current.entries ++ name.bytes ++ [0]) d.dynstr.size
        name := by
    rw [room.dynstrSize]
    exact storedAt_end _ _
  rw [Dynamic.nameAt, Dynamic.symAt, if_pos (Nat.lt_of_succ_lt room.dynsymRoom),
    symbolHead, isSymbol, Option.getD_some, Option.bind_some,
    Dynamic.stringAt, stringHead, isStored.ofBytes_drop]
  exact if_pos room.dynstrRoom

/-- A relocation that takes an entry. -/
theorem exists_storesSlot_iff
    {state : Relocating} {call : RelocCall} {place srcAddr : Nat}
    {name : CString} {target : Target}
    (isGot : call.rela.relType = rRexGotpcrelx)
    (notSection : ∀ address, target ≠ .internalSection address)
    (isZero :
      ByteBuffer.loadWord 4 (state.data call.subShdr)
        call.rela.rOffset = 0)
    (room : RoomForEntry state.dynamic name) :
    (∃ result ∈
        applyTarget state call.subShdr call.rela.rOffset srcAddr
          ((place - call.rela.rAddend) % 2 ^ 32).toNat name
          call.rela.relType target,
      result.1.dynamic.pltGotNum = state.dynamic.pltGotNum + 1 ∧
        (((place +
              ByteBuffer.loadWord 4 (result.1.data call.subShdr)
                call.rela.rOffset : Nat) : Int) % 2 ^ 32 =
            (nextSlot state.dynamic + call.rela.rAddend) % 2 ^ 32 ∧
          ∀ p position,
            p ≠ call.subShdr ∨ position < call.rela.rOffset ∨
                call.rela.rOffset + 4 ≤ position →
              result.1.data p position = state.data p position) ∧
        ∃ record,
          globDatsAt result.1.dynamic (nextSlot state.dynamic) = [record] ∧
            result.1.dynamic.nameAt record.symIndex = some name) ↔
      IsLogged (importLine name) ∧
        ¬ DistanceIsZero place (nextSlot state.dynamic) call.rela.rAddend ∧
        globDatsAt state.dynamic (nextSlot state.dynamic) = [] := by
  have adds :
      state.dynamic.addDynamicEntry name rGlobDat false =
        if IsLogged (importLine name) then
          some
            (state.dynamic.withEntry name rGlobDat,
              entryAddress state.dynamic.pltAddress state.dynamic.pltGotNum)
        else
          none := by
    rw [← Dynamic.addImport_new room.pltRoom room.dynstrRoom.le
      room.dynsymRoom room.dynsymSize room.relaRoom room.relaSize]
    exact if_neg fun again => Bool.false_ne_true again.1
  have isApplied :
      applyTarget state call.subShdr call.rela.rOffset srcAddr
          ((place - call.rela.rAddend) % 2 ^ 32).toNat name
          call.rela.relType target =
        (state.dynamic.addDynamicEntry name rGlobDat false).bind
          fun entry =>
            (fillAddress state.data call.subShdr call.rela.rOffset
                ((place - call.rela.rAddend) % 2 ^ 32).toNat
                (u32 (entry.2 + 8))).map
              fun data =>
                ({ dynamic := entry.1, data := data }, .imported name) := by
    unfold applyTarget
    dsimp only
    rw [isGot, if_neg (by decide), if_neg (by decide), if_pos rfl]
    cases target with
    | internalSection address => exact absurd rfl (notSection address)
    | dynamicFunc => rfl
    | internalFunc address => rfl
  rw [isApplied, adds, exists_bind_ite, Option.bind_some, exists_mem_map]
  apply and_congr_right
  intro _
  dsimp only
  rw [Dynamic.globDatsAt_withEntry room.relaOpen]
  rw [← exists_fillAddress_iff isZero]
  constructor
  · rintro ⟨data, isData, _, isFilled, record, isOnly, _⟩
    refine ⟨⟨data, isData, isFilled⟩, ?_⟩
    have lengths := congrArg List.length isOnly
    rw [List.length_append, List.length_singleton,
      List.length_singleton] at lengths
    exact List.eq_nil_of_length_eq_zero (by omega)
  · rintro ⟨⟨data, isData, isFilled⟩, noRecord⟩
    rw [noRecord, List.nil_append]
    exact
      ⟨data, isData, rfl, isFilled, _, rfl,
        Dynamic.nameAt_withEntry room rGlobDat⟩

/-- Without a new entry nothing is stored for a slot. -/
theorem not_storesSlot_of_same
    {tables : Option Dynamic} {state : Relocating} {resolution : Resolution}
    {rest : Relocating × Resolution → Prop}
    (isSame : ∀ d ∈ tables, d.pltGotNum = state.dynamic.pltGotNum) :
    ¬ ∃ result ∈
        tables.map fun d =>
          (({ state with dynamic := d } : Relocating), resolution),
      result.1.dynamic.pltGotNum = state.dynamic.pltGotNum + 1 ∧
        rest result := by
  rintro ⟨result, isResult, isCount, _⟩
  obtain ⟨d, isTables, rfl⟩ := Option.map_eq_some_iff.mp isResult
  dsimp only at isCount
  rw [isSame d isTables] at isCount
  omega

/-- What is looked up and is no function of an array. -/
theorem slotFits_iff_of_stored
    {link : Link} {oc : ObjectChain} {d : Dynamic} {sym : Sym}
    {call : RelocCall} {place : Nat} {target : Target}
    (isNamed : IsNamed sym)
    (isTarget : targetOf link oc d sym = some (some target))
    (notArray :
      FoundAmongExports link oc d sym →
        call.sec ≠ .initArray ∧ call.sec ≠ .finiArray) :
    SlotFits link oc d sym call place ↔
      IsLogged (resolutionLine sym.name target) ∧
        IsLogged (importLine sym.name) ∧
        ¬ DistanceIsZero place (nextSlot d) call.rela.rAddend ∧
        globDatsAt d (nextSlot d) = [] := by
  constructor
  · intro fits
    exact
      ⟨fits.logged target isTarget, fits.importLogged, fits.notZero,
        fits.noRecord⟩
  · rintro ⟨logged, importLogged, notZero, noRecord⟩
    refine
      ⟨isNamed, ?_, notArray, fun other isOther => ?_, importLogged, notZero,
        noRecord⟩
    · rw [targetOf_named isNamed] at isTarget
      obtain ⟨index, isIndex, found⟩ := Option.bind_eq_some_iff.mp isTarget
      obtain ⟨entry, isEntry, _⟩ := Option.map_eq_some_iff.mp found
      exact ⟨index, isIndex, by rw [isEntry]; rfl⟩
    · cases isTarget.symm.trans isOther
      exact logged

/-- Which relocations take an entry, and which of them are right. -/
theorem storesSlot_iff_slotFits
    {link : Link} {oc : ObjectChain} {state : Relocating} {call : RelocCall}
    {subShdr : Shdr} {sym : Sym}
    (isSection : link.headers[call.subShdr]? = some subShdr)
    (isSym : symbolOf link oc call.rela = some sym)
    (isGot : call.rela.relType = rRexGotpcrelx)
    (isZero :
      ByteBuffer.loadWord 4 (state.data call.subShdr)
        call.rela.rOffset = 0)
    (room : RoomForEntry state.dynamic sym.name) :
    StoresSlot link oc state call (fieldAddress subShdr call.rela) sym.name ↔
      SlotFits link oc state.dynamic sym call
        (fieldAddress subShdr call.rela) := by
  unfold StoresSlot resolveNew
  rw [isSection, Option.bind_some, isSym, Option.bind_some]
  cases isTarget : targetOf link oc state.dynamic sym with
  | none =>
      refine iff_of_false ?_ fun fits => ?_
      · rintro ⟨result, isNone, _⟩
        cases isNone
      · obtain ⟨index, isIndex, isSome⟩ := fits.lookup
        obtain ⟨entry, isEntry⟩ := Option.isSome_iff_exists.mp isSome
        rw [targetOf_named fits.isNamed, isIndex, Option.bind_some, isEntry]
          at isTarget
        cases isTarget
  | some found =>
      rw [Option.bind_some]
      by_cases isNamed : IsNamed sym
      · rcases targetOf_of_isNamed isNamed isTarget with rfl | ⟨value, rfl⟩
        · have notFound : ¬ FoundAmongExports link oc state.dynamic sym := by
            rintro ⟨address, isFound⟩
            cases isTarget.symm.trans isFound
          rw [slotFits_iff_of_stored isNamed isTarget fun isFound =>
            absurd isFound notFound]
          dsimp only
          rw [exists_mem_ite]
          apply and_congr_right
          intro _
          exact
            exists_storesSlot_iff isGot (fun _ isOther => by cases isOther)
              isZero room
        · have isFound : FoundAmongExports link oc state.dynamic sym :=
            ⟨value, isTarget⟩
          dsimp only
          by_cases inInit : call.sec = .initArray
          · rw [if_pos inInit]
            refine iff_of_false (not_storesSlot_of_same ?_) fun fits =>
              (fits.notArray isFound).1 inInit
            intro d adds
            obtain ⟨_, _, rfl⟩ := Option.map_eq_some_iff.mp adds
            rfl
          · rw [if_neg inInit]
            by_cases inFini : call.sec = .finiArray
            · rw [if_pos inFini]
              refine iff_of_false (not_storesSlot_of_same ?_) fun fits =>
                (fits.notArray isFound).2 inFini
              intro d adds
              obtain ⟨_, _, rfl⟩ := Option.map_eq_some_iff.mp adds
              rfl
            · rw [if_neg inFini, exists_mem_ite,
                slotFits_iff_of_stored isNamed isTarget fun _ =>
                  ⟨inInit, inFini⟩]
              apply and_congr_right
              intro _
              exact
                exists_storesSlot_iff isGot (fun _ isOther => by cases isOther)
                  isZero room
      · refine iff_of_false ?_ fun fits => isNamed fits.isNamed
        rintro ⟨result, resolves, isCount, _⟩
        unfold IsNamed at isNamed
        rw [targetOf, if_neg isNamed] at isTarget
        split_ifs at isTarget with isType
        · obtain ⟨shdr, _, rfl⟩ := Option.map_eq_some_iff.mp isTarget
          have resolves := (logged_of_applied resolves).2
          unfold applyTarget at resolves
          dsimp only at resolves
          rw [isGot, if_neg (by decide), if_neg (by decide), if_pos rfl]
            at resolves
          cases resolves
        · cases isTarget
          cases resolves
          dsimp only at isCount
          omega

/-! ## What one relocation does to the entries -/

/--
The addresses stay, at most one entry is taken and only while there is room, and
a record that is new is for that entry or for the field of an absolute relocation.
-/
structure EntryStep
    (place relType : Nat) (d next : Dynamic) : Prop where
  baseAddress : next.baseAddress = d.baseAddress
  pltAddress : next.pltAddress = d.pltAddress
  count :
    next.pltGotNum = d.pltGotNum ∨
      next.pltGotNum = d.pltGotNum + 1 ∧ d.pltGotNum < defaultNum
  record :
    ∀ record ∈ next.relaPlt.entries,
      record.relType = rGlobDat →
        record ∈ d.relaPlt.entries ∨
          next.pltGotNum = d.pltGotNum + 1 ∧
              record.rOffset = slotOffset d d.pltGotNum ∨
          relType = r64 ∧ record.rOffset = sub64 place d.baseAddress

/-- Nothing is taken and nothing is recorded. -/
theorem EntryStep.of_same
    {place relType : Nat} {d next : Dynamic}
    (imported : Dynamic.Imported d next)
    (isCount : next.pltGotNum = d.pltGotNum)
    (isRecords : next.relaPlt = d.relaPlt) :
    EntryStep place relType d next where
  baseAddress := imported.baseAddress
  pltAddress := imported.pltAddress
  count := Or.inl isCount
  record := fun record isRecord _ => Or.inl (by rwa [← isRecords])

/-- A record that is not for a name. -/
theorem Dynamic.addRelaPltEntry_entryStep
    {d next : Dynamic} {place relType address : Nat}
    (adds : d.addRelaPltEntry place 0 rRelative address = some next) :
    EntryStep place relType d next where
  baseAddress := (addRelaPltEntry_imported adds).baseAddress
  pltAddress := (addRelaPltEntry_imported adds).pltAddress
  count := by
    rw [addRelaPltEntry_spec adds]
    exact Or.inl rfl
  record := by
    intro record isRecord isGlobDat
    rw [entries_addRelaPltEntry adds] at isRecord
    rcases List.mem_append.mp isRecord with isOld | isNew
    · exact Or.inl isOld
    · rw [List.mem_singleton.mp isNew] at isGlobDat
      dsimp only at isGlobDat
      exact absurd isGlobDat (by decide)

/-- A record for the field of an absolute relocation. -/
theorem Dynamic.addDynamicEntry2_entryStep
    {d next : Dynamic} {place : Nat} {name : CString}
    (adds : d.addDynamicEntry2 place name = some next) :
    EntryStep place r64 d next where
  baseAddress := (addDynamicEntry2_imported adds).baseAddress
  pltAddress := (addDynamicEntry2_imported adds).pltAddress
  count := by
    obtain ⟨_, adds⟩ := Option.ite_none_right_eq_some.mp adds
    obtain ⟨⟨first, strOffset⟩, addsString, adds⟩ :=
      Option.bind_eq_some_iff.mp adds
    obtain ⟨second, addsSymbol, addsRecord⟩ := Option.bind_eq_some_iff.mp adds
    rw [addRelaPltEntry_spec addsRecord, (addDynsymEntry_spec addsSymbol).1,
      (addDynstrEntry_spec addsString).1]
    exact Or.inl rfl
  record := by
    intro record isRecord _
    obtain ⟨_, adds⟩ := Option.ite_none_right_eq_some.mp adds
    obtain ⟨⟨first, strOffset⟩, addsString, adds⟩ :=
      Option.bind_eq_some_iff.mp adds
    obtain ⟨second, addsSymbol, addsRecord⟩ := Option.bind_eq_some_iff.mp adds
    rw [entries_addRelaPltEntry addsRecord, (addDynsymEntry_spec addsSymbol).1,
      (addDynstrEntry_spec addsString).1] at isRecord
    rcases List.mem_append.mp isRecord with isOld | isNew
    · exact Or.inl isOld
    · rw [List.mem_singleton.mp isNew]
      exact Or.inr (Or.inr ⟨rfl, rfl⟩)

/-- An entry for a name, or the one that the name has. -/
theorem Dynamic.addDynamicEntry_entryStep
    {d next : Dynamic} {name : CString} {kind r place relType : Nat}
    {check : Bool}
    (adds : d.addDynamicEntry name kind check = some (next, r)) :
    EntryStep place relType d next := by
  have imported := addDynamicEntry_imported adds
  rcases addDynamicEntry_eq_some adds with ⟨_, _, rfl, _⟩ | ⟨_, adds⟩
  · exact .of_same imported rfl rfl
  · obtain ⟨⟨first, plt⟩, addsPlt, adds⟩ := Option.bind_eq_some_iff.mp adds
    obtain ⟨⟨second, strOffset⟩, addsString, adds⟩ :=
      Option.bind_eq_some_iff.mp adds
    obtain ⟨third, addsSymbol, adds⟩ := Option.bind_eq_some_iff.mp adds
    obtain ⟨fourth, addsRecord, isNext⟩ := Option.map_eq_some_iff.mp adds
    cases isNext
    have isRecords := entries_addRelaPltEntry addsRecord
    have isFourth := addRelaPltEntry_spec addsRecord
    rw [(addDynsymEntry_spec addsSymbol).1, (addDynstrEntry_spec addsString).1]
      at isRecords isFourth
    unfold addPltgotEntry at addsPlt
    split at addsPlt
    · rename_i room
      cases addsPlt
      have isCount : fourth.pltGotNum = d.pltGotNum + 1 := by
        rw [isFourth]
      refine
        ⟨imported.baseAddress, imported.pltAddress,
          Or.inr ⟨isCount, room⟩, ?_⟩
      intro record isRecord _
      dsimp only at isRecord
      rw [isRecords] at isRecord
      rcases List.mem_append.mp isRecord with isOld | isNew
      · exact Or.inl isOld
      · rw [List.mem_singleton.mp isNew]
        exact Or.inr (Or.inl ⟨isCount, rfl⟩)
    · cases addsPlt

/-- Applying a target. -/
theorem applyTarget_entryStep
    {state : Relocating} {p offset srcAddr placeAddr relType : Nat}
    {name : CString} {target : Target} {result : Relocating × Resolution}
    (applies :
      applyTarget state p offset srcAddr placeAddr name relType target =
        some result) :
    EntryStep srcAddr relType state.dynamic result.1.dynamic := by
  have same (data : Nat → ByteBuffer.Bytes) :
      EntryStep srcAddr relType state.dynamic
        ({ state with data := data } : Relocating).dynamic :=
    .of_same (.refl _) rfl rfl
  unfold applyTarget at applies
  dsimp only at applies
  split_ifs at applies with isAbsolute
  · cases target with
    | dynamicFunc =>
        obtain ⟨d, adds, rfl⟩ := Option.map_eq_some_iff.mp applies
        rw [isAbsolute]
        exact Dynamic.addDynamicEntry2_entryStep adds
    | internalFunc address =>
        obtain ⟨d, adds, rfl⟩ := Option.map_eq_some_iff.mp applies
        exact Dynamic.addRelaPltEntry_entryStep adds
    | internalSection address =>
        obtain ⟨d, adds, rfl⟩ := Option.map_eq_some_iff.mp applies
        exact Dynamic.addRelaPltEntry_entryStep adds
  · cases target with
    | dynamicFunc =>
        obtain ⟨⟨d, address⟩, adds, fills⟩ :=
          Option.bind_eq_some_iff.mp applies
        obtain ⟨data, _, rfl⟩ := Option.map_eq_some_iff.mp fills
        exact Dynamic.addDynamicEntry_entryStep adds
    | internalFunc address =>
        obtain ⟨data, _, rfl⟩ := Option.map_eq_some_iff.mp applies
        exact same data
    | internalSection address =>
        obtain ⟨data, _, rfl⟩ := Option.map_eq_some_iff.mp applies
        exact same data
  · split at applies
    · cases applies
    · obtain ⟨⟨d, address⟩, adds, fills⟩ :=
        Option.bind_eq_some_iff.mp applies
      obtain ⟨data, _, rfl⟩ := Option.map_eq_some_iff.mp fills
      exact Dynamic.addDynamicEntry_entryStep adds

/-- Resolving a relocation. -/
theorem relocate_entryStep
    {link : Link} {state next : Relocating} {item : ObjectChain × RelocCall}
    (stepped : relocate link state item = some next) :
    ∃ subShdr ∈ link.headers[item.2.subShdr]?,
      EntryStep (fieldAddress subShdr item.2.rela) item.2.rela.relType
        state.dynamic next.dynamic := by
  obtain ⟨result, resolves, rfl⟩ := Option.map_eq_some_iff.mp stepped
  have imported := resolveNew_imported resolves
  obtain ⟨subShdr, isSection, resolves⟩ :=
    Option.bind_eq_some_iff.mp resolves
  obtain ⟨sym, _, resolves⟩ := Option.bind_eq_some_iff.mp resolves
  obtain ⟨target, _, resolves⟩ := Option.bind_eq_some_iff.mp resolves
  refine ⟨subShdr, isSection, ?_⟩
  split at resolves
  · cases resolves
    exact .of_same imported rfl rfl
  · split_ifs at resolves
    · obtain ⟨d, adds, rfl⟩ := Option.map_eq_some_iff.mp resolves
      obtain ⟨_, _, rfl⟩ := Option.map_eq_some_iff.mp adds
      exact .of_same imported rfl rfl
    · obtain ⟨d, adds, rfl⟩ := Option.map_eq_some_iff.mp resolves
      obtain ⟨_, _, rfl⟩ := Option.map_eq_some_iff.mp adds
      exact .of_same imported rfl rfl
    · exact applyTarget_entryStep (logged_of_applied resolves).2
  · exact applyTarget_entryStep (logged_of_applied resolves).2

/-! ## What a run does to them -/

/-- The entries that a run takes come one behind the other. -/
theorem exists_entriesTaken_eq
    (link : Link) (items : List (ObjectChain × RelocCall))
    (state : Relocating) :
    ∃ count,
      (0 < count → state.dynamic.pltGotNum + count ≤ defaultNum) ∧
        entriesTaken link state items =
          (List.range' state.dynamic.pltGotNum count).map
            (entryAddress state.dynamic.pltAddress) := by
  induction items generalizing state with
  | nil => exact ⟨0, fun isPositive => absurd isPositive (lt_irrefl 0), rfl⟩
  | cons item rest inductionHypothesis =>
      unfold entriesTaken
      cases stepped : relocate link state item with
      | none =>
          exact ⟨0, fun isPositive => absurd isPositive (lt_irrefl 0), rfl⟩
      | some next =>
          obtain ⟨_, _, step⟩ := relocate_entryStep stepped
          obtain ⟨count, inChunk, isTaken⟩ := inductionHypothesis next
          rw [Option.elim_some, isTaken, step.pltAddress]
          rcases step.count with isSame | ⟨isNext, room⟩
          · refine ⟨count, ?_, ?_⟩
            · rwa [← isSame]
            · rw [if_pos isSame, List.nil_append, isSame]
          · refine ⟨count + 1, fun _ => ?_, ?_⟩
            · rcases Nat.eq_zero_or_pos count with rfl | isPositive
              · omega
              · have := inChunk isPositive
                omega
            · have isOther :
                  next.dynamic.pltGotNum ≠ state.dynamic.pltGotNum := by
                omega
              rw [if_neg isOther, List.range'_succ, List.map_cons, isNext]
              rfl

/-- Two entries of the first chunk are apart. -/
theorem entryAddress_apart
    {pltAddress first second : Nat} (isBefore : first < second)
    (inChunk : second < defaultNum) :
    Apart (entryAddress pltAddress first) (entryAddress pltAddress second) := by
  intro i isFirst j isSecond
  simp only [entryAddress, u32, defaultNum] at *
  omega

/-- The entries that a run takes are apart. -/
theorem pairwise_apart_entriesTaken
    (link : Link) (state : Relocating)
    (items : List (ObjectChain × RelocCall)) :
    (entriesTaken link state items).Pairwise Apart := by
  obtain ⟨count, inChunk, isTaken⟩ := exists_entriesTaken_eq link items state
  rw [isTaken, List.pairwise_map]
  refine (List.pairwise_lt_range' 1).imp_of_mem ?_
  intro first second _ isSecond isBefore
  refine entryAddress_apart isBefore ?_
  obtain ⟨k, isLess, isIndex⟩ := List.mem_range'.mp isSecond
  have := inChunk (by omega)
  omega

/-- A relocation leaves its field to the loader. -/
def AbsoluteAt
    (link : Link) (address : Nat) (item : ObjectChain × RelocCall) : Prop :=
  item.2.rela.relType = r64 ∧
    ∃ subShdr ∈ link.headers[item.2.subShdr]?,
      fieldAddress subShdr item.2.rela = address

/-- The records are for entries that were taken or for absolute relocations. -/
structure RecordsKnown
    (link : Link) (start : Dynamic) (done : List (ObjectChain × RelocCall))
    (d : Dynamic) : Prop where
  baseAddress : d.baseAddress = start.baseAddress
  pltAddress : d.pltAddress = start.pltAddress
  record :
    ∀ record ∈ d.relaPlt.entries,
      record.relType = rGlobDat →
        (∃ k < d.pltGotNum, record.rOffset = slotOffset d k) ∨
          ∃ item ∈ done,
            ∃ address,
              AbsoluteAt link address item ∧
                record.rOffset = sub64 address d.baseAddress

/-- A relocation keeps the records known. -/
theorem RecordsKnown.relocate
    {link : Link} {start : Dynamic} {done : List (ObjectChain × RelocCall)}
    {state next : Relocating} {item : ObjectChain × RelocCall}
    (known : RecordsKnown link start done state.dynamic)
    (stepped : relocate link state item = some next) :
    RecordsKnown link start (done ++ [item]) next.dynamic := by
  obtain ⟨subShdr, isSection, step⟩ := relocate_entryStep stepped
  have sameSlot (k : Nat) :
      slotOffset next.dynamic k = slotOffset state.dynamic k := by
    unfold slotOffset
    rw [step.pltAddress, step.baseAddress]
  refine
    ⟨step.baseAddress.trans known.baseAddress,
      step.pltAddress.trans known.pltAddress, ?_⟩
  intro record isRecord isGlobDat
  rcases step.record record isRecord isGlobDat with
    isOld | ⟨isNext, isSlot⟩ | ⟨isAbsolute, isPlace⟩
  · rcases known.record record isOld isGlobDat with
      ⟨k, isTaken, isSlot⟩ | ⟨earlier, isDone, address, isAt, isPlace⟩
    · refine Or.inl ⟨k, ?_, by rw [sameSlot, isSlot]⟩
      rcases step.count with isSame | ⟨isNext, _⟩ <;> omega
    · exact
        Or.inr
          ⟨earlier, List.mem_append_left _ isDone, address, isAt,
            by rw [step.baseAddress, isPlace]⟩
  · exact
      Or.inl
        ⟨state.dynamic.pltGotNum, by omega, by rw [sameSlot, isSlot]⟩
  · exact
      Or.inr
        ⟨item, List.mem_append_right _ (List.mem_singleton.mpr rfl),
          fieldAddress subShdr item.2.rela,
          ⟨isAbsolute, subShdr, isSection, rfl⟩,
          by rw [step.baseAddress, isPlace]⟩

/-- A record for the next slot is for an absolute relocation. -/
theorem RecordsKnown.exists_absoluteAt
    {link : Link} {start d : Dynamic} {done : List (ObjectChain × RelocCall)}
    (known : RecordsKnown link start done d) (room : d.pltGotNum < defaultNum)
    (isRecorded : globDatsAt d (nextSlot d) ≠ []) :
    ∃ item ∈ done, AbsoluteAt link (nextSlot d) item := by
  obtain ⟨record, isRecord⟩ := List.exists_mem_of_ne_nil _ isRecorded
  obtain ⟨isEntry, isFound⟩ := List.mem_filter.mp isRecord
  obtain ⟨isGlobDat, isPlace⟩ := of_decide_eq_true isFound
  rcases known.record record isEntry isGlobDat with
    ⟨k, isTaken, isSlot⟩ | ⟨item, isDone, address, isAt, isSame⟩
  · have isOther : k = d.pltGotNum :=
      slotOffset_inj (isTaken.trans room) room (isSlot.symm.trans isPlace)
    omega
  · refine ⟨item, isDone, ?_⟩
    obtain ⟨isAbsolute, subShdr, isSection, rfl⟩ := isAt
    refine ⟨isAbsolute, subShdr, isSection, ?_⟩
    have isWord := isSame.symm.trans isPlace
    simp only [sub64, nextSlot, fieldAddress, u32] at isWord ⊢
    omega

/--
When the field is zero and the tables have room, a slot is stored exactly when
the symbol is looked up and no function of an array, the name fits its lines,
the slot with the addend is not the place, and no record is there for it.  The
entries that any relocations take are apart, and a record can only be there for
an absolute relocation whose field is the slot.
-/
theorem storesSlot_iff_and_entries_apart
    {link : Link} {oc : ObjectChain} {state : Relocating} {call : RelocCall}
    {subShdr : Shdr} {sym : Sym}
    (isSection : link.headers[call.subShdr]? = some subShdr)
    (isSym : symbolOf link oc call.rela = some sym)
    (isGot : call.rela.relType = rRexGotpcrelx)
    (isZero :
      ByteBuffer.loadWord 4 (state.data call.subShdr)
        call.rela.rOffset = 0)
    (room : RoomForEntry state.dynamic sym.name) :
    (StoresSlot link oc state call (fieldAddress subShdr call.rela)
          sym.name ↔
        SlotFits link oc state.dynamic sym call
          (fieldAddress subShdr call.rela)) ∧
      (∀ start items, (entriesTaken link start items).Pairwise Apart) ∧
      ∀ (start : Relocating) (items : List (ObjectChain × RelocCall)),
        start.dynamic.relaPlt.entries = [] →
          items.foldlM (relocate link) start = some state →
            globDatsAt state.dynamic (nextSlot state.dynamic) ≠ [] →
              ∃ item ∈ items, AbsoluteAt link (nextSlot state.dynamic) item := by
  refine
    ⟨storesSlot_iff_slotFits isSection isSym isGot isZero room,
      pairwise_apart_entriesTaken link, ?_⟩
  intro start items noRecords completes isRecorded
  have known : RecordsKnown link start.dynamic items state.dynamic := by
    refine
      GuardedRun.invariant_of_foldlM
        (fun state done =>
          RecordsKnown link start.dynamic done state.dynamic)
        (fun _ _ _ _ known stepped => known.relocate stepped) ?_ completes
    refine ⟨rfl, rfl, fun record isRecord _ => ?_⟩
    rw [noRecords] at isRecord
    cases isRecord
  exact known.exists_absoluteAt room.pltRoom isRecorded

/-- An object that loads the address of its function `f` from a slot. -/
def loadsAddressOfF (addend : Int) : ElfFile :=
  .ofHeaders
    [sectionHeader ".text" shtProgbits 16,
      { sectionHeader ".symtab" shtSymtab 48 with
        symAt := fun
          | 0 => default
          | _ => staticF },
      { sectionHeader ".rela.text" shtRela 24 with
        shInfo := 1
        relaAt := fun _ =>
          { rOffset := 8
            symIndex := 1
            relType := rRexGotpcrelx
            rAddend := addend } }]

instance (d : Dynamic) (name : CString) : Decidable (RoomForEntry d name) :=
  decidable_of_iff
    (d.pltGotNum < defaultNum ∧ d.relaPlt.closed = [] ∧
      d.relaPlt.size = d.relaPlt.current.entries.length * sizeofRela ∧
      d.relaPlt.current.entries.length + 1 < defaultNum ∧
      d.dynsym.closed = [] ∧
      d.dynsym.size = d.dynsym.current.entries.length ∧
      d.dynsym.size + 1 < defaultNum ∧ d.dynstr.closed = [] ∧
      d.dynstr.size = d.dynstr.current.entries.length ∧
      d.dynstr.size + name.length < defaultNum)
    ⟨fun ⟨pltRoom, relaOpen, relaSize, relaRoom, dynsymOpen, dynsymSize,
        dynsymRoom, dynstrOpen, dynstrSize, dynstrRoom⟩ =>
      ⟨pltRoom, relaOpen, relaSize, relaRoom, dynsymOpen, dynsymSize,
        dynsymRoom, dynstrOpen, dynstrSize, dynstrRoom⟩,
      fun room =>
        ⟨room.pltRoom, room.relaOpen, room.relaSize, room.relaRoom,
          room.dynsymOpen, room.dynsymSize, room.dynsymRoom, room.dynstrOpen,
          room.dynstrSize, room.dynstrRoom⟩⟩

/-- The relocation is one for a slot, of the function, with a zero field. -/
def LoadsF (addend : Int) (item : ObjectChain × RelocCall) : Prop :=
  (∃ subShdr ∈
      (exportsOf [loadsAddressOfF addend]).link.headers[item.2.subShdr]?,
    fieldAddress subShdr item.2.rela = 240) ∧
    symbolOf (exportsOf [loadsAddressOfF addend]).link item.1 item.2.rela =
      some staticF ∧
    item.2.rela.relType = rRexGotpcrelx ∧
    ByteBuffer.loadWord 4
        ((exportsOf [loadsAddressOfF addend]).relocating.data item.2.subShdr)
        item.2.rela.rOffset =
      0 ∧
    RoomForEntry (exportsOf [loadsAddressOfF addend]).relocating.dynamic
      staticF.name

instance (addend : Int) (item : ObjectChain × RelocCall) :
    Decidable (LoadsF addend item) :=
  inferInstanceAs (Decidable (_ ∧ _))

/-- With the addend of a load the slot is stored. -/
theorem storesSlot_loadsAddressOfF :
    ∃ item ∈ (relocations (exportsOf [loadsAddressOfF (-4)]).link).getD [],
      StoresSlot (exportsOf [loadsAddressOfF (-4)]).link item.1
        (exportsOf [loadsAddressOfF (-4)]).relocating item.2 240
        staticF.name := by
  have isLoad :
      ∃ item ∈ (relocations (exportsOf [loadsAddressOfF (-4)]).link).getD [],
        LoadsF (-4) item ∧
          (∃ index ∈
              (exportsOf [loadsAddressOfF
                (-4)]).relocating.dynamic.findSym2 staticF.name,
            ((exportsOf [loadsAddressOfF
              (-4)]).relocating.dynamic.symAt index).isSome) ∧
          targetOf (exportsOf [loadsAddressOfF (-4)]).link item.1
              (exportsOf [loadsAddressOfF (-4)]).relocating.dynamic staticF =
            some (some (.internalFunc 232)) ∧
          item.2.sec = .relaText ∧
          ¬ DistanceIsZero 240
              (nextSlot
                (exportsOf [loadsAddressOfF (-4)]).relocating.dynamic)
              item.2.rela.rAddend ∧
          globDatsAt (exportsOf [loadsAddressOfF (-4)]).relocating.dynamic
              (nextSlot
                (exportsOf [loadsAddressOfF (-4)]).relocating.dynamic) =
            [] := by
    decide +kernel
  obtain ⟨item, member, ⟨⟨subShdr, isSection, isPlace⟩, isSym, isGot, isZero,
    room⟩, lookup, isTarget, isText, notZero, noRecord⟩ := isLoad
  refine ⟨item, member, ?_⟩
  have stores :=
    (storesSlot_iff_and_entries_apart isSection isSym isGot isZero
      room).1.mpr
  rw [isPlace] at stores
  refine
    stores
      { isNamed := by decide
        lookup := lookup
        notArray := fun _ => ?_
        logged := fun target isOther => ?_
        importLogged := by decide
        notZero := notZero
        noRecord := noRecord }
  · rw [isText]
    exact ⟨by decide, by decide⟩
  · cases isTarget.symm.trans isOther
    decide

/-- When the slot with the addend is the field, the resolver does not end. -/
theorem not_storesSlot_loadsAddressOfF :
    ∃ item ∈ (relocations (exportsOf [loadsAddressOfF (-64)]).link).getD [],
      LoadsF (-64) item ∧
        ¬ StoresSlot (exportsOf [loadsAddressOfF (-64)]).link item.1
            (exportsOf [loadsAddressOfF (-64)]).relocating item.2 240
            staticF.name := by
  have fails :
      ∃ item ∈ (relocations (exportsOf [loadsAddressOfF (-64)]).link).getD [],
        LoadsF (-64) item ∧
          (resolveNew (exportsOf [loadsAddressOfF (-64)]).link item.1
            (exportsOf [loadsAddressOfF (-64)]).relocating item.2).isNone := by
    decide +kernel
  obtain ⟨item, member, loads, isNone⟩ := fails
  refine ⟨item, member, loads, ?_⟩
  rintro ⟨result, resolves, _⟩
  rw [Option.isNone_iff_eq_none.mp isNone] at resolves
  cases resolves

end BinTools.Elf
