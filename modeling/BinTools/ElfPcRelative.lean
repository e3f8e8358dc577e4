import BinTools.ElfLocalBinding

namespace BinTools.Elf

/-!
# PC-relative relocations

A field of four zero bytes gets the distance from its place to the symbol with
the addend.  `fill_address` spins when this distance is zero, functions found
among the exports are not stored into the fields of the two arrays, and the
lines about the symbol have room for names of some length only.
-/

open LogLine

/-- The `.plt.got` entry of an import: the one it has, or a new one. -/
def Dynamic.pltEntry (d : Dynamic) (str : CString) : Option (Dynamic × Nat) :=
  if d.known str ≠ 0 then some (d, d.known str) else d.addImport str rJumpSlot

/-- The address that the symbol is resolved to, and the tables afterwards. -/
def resolvedAddress
    (link : Link) (oc : ObjectChain) (d : Dynamic) (sym : Sym) :
    Option (Dynamic × Nat) :=
  (targetOf link oc d sym).bind fun
    | none => none
    | some .dynamicFunc => d.pltEntry sym.name
    | some (.internalFunc address) => some (d, address)
    | some (.internalSection address) => some (d, address)

/-- The address of the field that is relocated. -/
def fieldAddress (subShdr : Shdr) (rela : Rela) : Nat :=
  u32 (subShdr.shAddr + rela.rOffset)

/--
The relocation comes to an end, its field holds the distance from its place to
the symbol's address with the addend, and no other byte changes.
-/
def StoresDistance
    (link : Link) (oc : ObjectChain) (state : Relocating)
    (call : RelocCall) (place symbol : Nat) : Prop :=
  ∃ result ∈ resolveNew link oc state call,
    ((place +
          ByteBuffer.loadWord 4 (result.1.data call.subShdr)
            call.rela.rOffset : Nat) : Int) % 2 ^ 32 =
        (symbol + call.rela.rAddend) % 2 ^ 32 ∧
      ∀ p position,
        p ≠ call.subShdr ∨ position < call.rela.rOffset ∨
            call.rela.rOffset + 4 ≤ position →
          result.1.data p position = state.data p position

/-- The address of the symbol with the addend is the place. -/
def DistanceIsZero (place symbol : Nat) (addend : Int) : Prop :=
  (place : Int) % 2 ^ 32 = (symbol + addend) % 2 ^ 32

instance (place symbol : Nat) (addend : Int) :
    Decidable (DistanceIsZero place symbol addend) :=
  inferInstanceAs (Decidable (_ = _))

/-- The symbol is found among the exports. -/
def FoundAmongExports
    (link : Link) (oc : ObjectChain) (d : Dynamic) (sym : Sym) : Prop :=
  ∃ address, targetOf link oc d sym = some (some (.internalFunc address))

/--
The lines about a target have room for the name.  There are two for an import
that gets a new entry.
-/
def LinesFit (d : Dynamic) (name : CString) : Target → Prop
  | .dynamicFunc =>
      IsLogged (resolutionLine name .dynamicFunc) ∧
        (d.known name = 0 → IsLogged (importLine name))
  | target => IsLogged (resolutionLine name target)

instance (d : Dynamic) (name : CString) (target : Target) :
    Decidable (LinesFit d name target) :=
  match target with
  | .dynamicFunc => inferInstanceAs (Decidable (_ ∧ _))
  | .internalFunc _ => inferInstanceAs (Decidable (IsLogged _))
  | .internalSection _ => inferInstanceAs (Decidable (IsLogged _))

/-- The lines about the symbol have room for its name. -/
def SymbolFits
    (link : Link) (oc : ObjectChain) (d : Dynamic) (sym : Sym) : Prop :=
  ∀ target,
    targetOf link oc d sym = some (some target) → LinesFit d sym.name target

/--
The distance is not zero and the name fits its lines.  For an exported symbol of
the two arrays, where nothing is stored, the distance is zero and the array has
room.
-/
structure DistanceFits
    (link : Link) (oc : ObjectChain) (d : Dynamic) (sym : Sym)
    (call : RelocCall) (place symbol : Nat) : Prop where
  initArray :
    FoundAmongExports link oc d sym → call.sec = .initArray →
      DistanceIsZero place symbol call.rela.rAddend ∧
        d.initArray.current.entries.length < arrayNum
  finiArray :
    FoundAmongExports link oc d sym → call.sec = .finiArray →
      DistanceIsZero place symbol call.rela.rAddend ∧
        d.finiArray.current.entries.length < finiRoom
  stored :
    ¬ (FoundAmongExports link oc d sym ∧
        (call.sec = .initArray ∨ call.sec = .finiArray)) →
      ¬ DistanceIsZero place symbol call.rela.rAddend ∧
        SymbolFits link oc d sym

/-! ## Filling the field -/

/-- The distance that is stored. -/
theorem sub32_placeAddr (place symbol : Nat) (addend : Int) :
    (sub32 symbol ((place - addend) % 2 ^ 32).toNat : Int) =
      (symbol + addend - place) % 2 ^ 32 := by
  simp only [sub32, u32]
  omega

/-- It is zero exactly when the symbol with the addend is at the place. -/
theorem sub32_placeAddr_eq_zero_iff (place symbol : Nat) (addend : Int) :
    sub32 symbol ((place - addend) % 2 ^ 32).toNat = 0 ↔
      DistanceIsZero place symbol addend := by
  have isDistance := sub32_placeAddr place symbol addend
  unfold DistanceIsZero
  omega

/-- A field that is left at zero is right when the distance is zero. -/
theorem zero_isDistance_iff
    {place symbol word : Nat} {addend : Int} (isZero : word = 0) :
    ((place + word : Nat) : Int) % 2 ^ 32 = (symbol + addend) % 2 ^ 32 ↔
      DistanceIsZero place symbol addend := by
  rw [isZero, Nat.add_zero]
  rfl

/-- A zero field is filled with the distance unless that is zero. -/
theorem exists_fillAddress_iff
    {data : Nat → ByteBuffer.Bytes} {p offset place symbol : Nat}
    {addend : Int}
    (isZero : ByteBuffer.loadWord 4 (data p) offset = 0) :
    (∃ later ∈
        fillAddress data p offset ((place - addend) % 2 ^ 32).toNat symbol,
      ((place + ByteBuffer.loadWord 4 (later p) offset : Nat) : Int) %
            2 ^ 32 =
          (symbol + addend) % 2 ^ 32 ∧
        ∀ other position,
          other ≠ p ∨ position < offset ∨ offset + 4 ≤ position →
            later other position = data other position) ↔
      ¬ DistanceIsZero place symbol addend := by
  rw [← sub32_placeAddr_eq_zero_iff, fillAddress,
    if_neg (not_not.mpr isZero)]
  split_ifs with noDistance
  · constructor
    · rintro ⟨_, isNone, _⟩
      cases isNone
    · intro isDistance
      exact absurd noDistance isDistance
  · refine iff_of_true ⟨_, rfl, ?_, ?_⟩ noDistance
    · have isDistance := sub32_placeAddr place symbol addend
      rw [Function.update_self, ByteBuffer.loadWord_storeWord]
      omega
    · intro other position outside
      by_cases isSame : other = p
      · subst isSame
        rw [Function.update_self]
        refine ByteBuffer.storeWord_apply_of_outside ?_
        rcases outside with isOther | isOutside
        · exact absurd rfl isOther
        · exact isOutside
      · rw [Function.update_of_ne isSame]

section

variable
  {link : Link} {oc : ObjectChain} {state : Relocating} {call : RelocCall}
  {sym : Sym} {place symbol address : Nat}

/-- The lines about a symbol are those about what it was found to be. -/
theorem symbolFits_iff
    {d : Dynamic} {target : Target}
    (isTarget : targetOf link oc d sym = some (some target)) :
    SymbolFits link oc d sym ↔ LinesFit d sym.name target := by
  constructor
  · intro fits
    exact fits target isTarget
  · intro fits other isOther
    cases isTarget.symm.trans isOther
    exact fits

/--
A symbol for which a distance is stored fits when that is not zero and its name
fits its lines.
-/
theorem distanceFits_iff_of_stored
    {d : Dynamic} {target : Target}
    (isTarget : targetOf link oc d sym = some (some target))
    (isStored :
      ¬ (FoundAmongExports link oc d sym ∧
          (call.sec = .initArray ∨ call.sec = .finiArray))) :
    DistanceFits link oc d sym call place symbol ↔
      LinesFit d sym.name target ∧
        ¬ DistanceIsZero place symbol call.rela.rAddend := by
  rw [← symbolFits_iff isTarget, and_comm]
  constructor
  · intro fits
    exact fits.stored isStored
  · intro isRight
    exact
      { initArray := fun isFound isArray =>
          absurd ⟨isFound, Or.inl isArray⟩ isStored
        finiArray := fun isFound isArray =>
          absurd ⟨isFound, Or.inr isArray⟩ isStored
        stored := fun _ => isRight }

/-- Something holds of a mapped value when it holds of what it is mapped to. -/
theorem exists_mem_map
    {α β : Type*} {value : Option α} {f : α → β} {good : β → Prop} :
    (∃ result ∈ value.map f, good result) ↔ ∃ a ∈ value, good (f a) := by
  simp

/-- Something holds of a guarded value when the guard holds and it does. -/
theorem exists_mem_ite
    {α : Type*} {guard : Prop} [Decidable guard] {value : Option α}
    {good : α → Prop} :
    (∃ result ∈ if guard then value else none, good result) ↔
      guard ∧ ∃ result ∈ value, good result := by
  split_ifs with isRight <;> simp [isRight]

/-- So it does of what is made of the guarded value. -/
theorem exists_bind_ite
    {α β : Type*} {guard : Prop} [Decidable guard] {value : Option α}
    {next : α → Option β} {good : β → Prop} :
    (∃ result ∈ (if guard then value else none).bind next, good result) ↔
      guard ∧ ∃ result ∈ value.bind next, good result := by
  split_ifs with isRight <;> simp [isRight]

/-- An import gets its entry when the line about a new one has room. -/
theorem Dynamic.addDynamicEntry_checked (d : Dynamic) (str : CString) :
    d.addDynamicEntry str rJumpSlot true =
      if d.known str = 0 → IsLogged (importLine str) then
        d.pltEntry str
      else
        none := by
  unfold Dynamic.addDynamicEntry Dynamic.pltEntry
  by_cases isNew : d.known str = 0 <;> simp [isNew]

/-- A relocation that stores nothing is right when the distance is zero. -/
theorem exists_of_notStored
    {tables : Option Dynamic} {resolution : Resolution}
    (isZero :
      ByteBuffer.loadWord 4 (state.data call.subShdr)
        call.rela.rOffset = 0) :
    (∃ result ∈
        tables.map fun d =>
          (({ state with dynamic := d } : Relocating), resolution),
      ((place +
            ByteBuffer.loadWord 4 (result.1.data call.subShdr)
              call.rela.rOffset : Nat) : Int) % 2 ^ 32 =
          (symbol + call.rela.rAddend) % 2 ^ 32 ∧
        ∀ p position,
          p ≠ call.subShdr ∨ position < call.rela.rOffset ∨
              call.rela.rOffset + 4 ≤ position →
            result.1.data p position = state.data p position) ↔
      DistanceIsZero place symbol call.rela.rAddend ∧ tables.isSome := by
  rw [exists_mem_map]
  dsimp only
  rw [← zero_isDistance_iff isZero]
  constructor
  · rintro ⟨d, isTables, isDistance, _⟩
    exact ⟨isDistance, Option.isSome_iff_exists.mpr ⟨d, isTables⟩⟩
  · rintro ⟨isDistance, isSome⟩
    obtain ⟨d, isTables⟩ := Option.isSome_iff_exists.mp isSome
    exact ⟨d, isTables, isDistance, fun _ _ _ => rfl⟩

end

/--
When the symbol of a PC-relative relocation is resolved and the field is zero,
the distance is stored exactly when it is not zero and the name fits its lines,
but for exported symbols of the two arrays.
-/
theorem storesDistance_iff_distanceFits
    {link : Link} {oc : ObjectChain} {state : Relocating} {call : RelocCall}
    {subShdr : Shdr} {sym : Sym} {later : Dynamic} {symbol : Nat}
    (isSection : link.headers[call.subShdr]? = some subShdr)
    (isSym : symbolOf link oc call.rela = some sym)
    (isPcRelative :
      call.rela.relType = rPc32 ∨ call.rela.relType = rPlt32)
    (isResolved :
      resolvedAddress link oc state.dynamic sym = some (later, symbol))
    (isZero :
      ByteBuffer.loadWord 4 (state.data call.subShdr)
        call.rela.rOffset = 0) :
    StoresDistance link oc state call (fieldAddress subShdr call.rela)
        symbol ↔
      DistanceFits link oc state.dynamic sym call
        (fieldAddress subShdr call.rela) symbol := by
  have not64 : call.rela.relType ≠ r64 := by
    rcases isPcRelative with isType | isType <;> rw [isType] <;> decide
  have isType :
      call.rela.relType = rPc32 ∨ call.rela.relType = rPlt32 ∨
        call.rela.relType = r32S := by
    rcases isPcRelative with isPc32 | isPlt32
    · exact Or.inl isPc32
    · exact Or.inr (Or.inl isPlt32)
  unfold StoresDistance resolveNew
  rw [isSection, Option.bind_some, isSym, Option.bind_some]
  cases isTarget : targetOf link oc state.dynamic sym with
  | none =>
      rw [resolvedAddress, isTarget] at isResolved
      cases isResolved
  | some found =>
      rw [resolvedAddress, isTarget, Option.bind_some] at isResolved
      cases found with
      | none => cases isResolved
      | some target =>
          rw [Option.bind_some]
          cases target with
          | dynamicFunc =>
              have notFound :
                  ¬ FoundAmongExports link oc state.dynamic sym := by
                rintro ⟨address, isFound⟩
                cases isTarget.symm.trans isFound
              rw [distanceFits_iff_of_stored isTarget fun isFound =>
                notFound isFound.1]
              dsimp only at isResolved ⊢
              rw [applyTarget, if_neg not64, if_pos isType, exists_mem_ite,
                LinesFit, and_assoc]
              apply and_congr_right
              intro _
              dsimp only
              rw [Dynamic.addDynamicEntry_checked, isResolved,
                exists_bind_ite, Option.bind_some, exists_mem_map]
              apply and_congr_right
              intro _
              exact exists_fillAddress_iff isZero
          | internalSection address =>
              have notFound :
                  ¬ FoundAmongExports link oc state.dynamic sym := by
                rintro ⟨address, isFound⟩
                cases isTarget.symm.trans isFound
              rw [distanceFits_iff_of_stored isTarget fun isFound =>
                notFound isFound.1]
              cases isResolved
              dsimp only
              rw [applyTarget, if_neg not64, if_pos isType, exists_mem_ite]
              apply and_congr_right
              intro _
              rw [exists_mem_map]
              exact exists_fillAddress_iff isZero
          | internalFunc address =>
              have isFound : FoundAmongExports link oc state.dynamic sym :=
                ⟨address, isTarget⟩
              cases isResolved
              dsimp only
              by_cases inInit : call.sec = .initArray
              · rw [if_pos inInit, exists_of_notStored isZero,
                  Dynamic.addInitArray, Option.isSome_map,
                  Table.isSome_write]
                constructor
                · intro isRight
                  exact
                    { initArray := fun _ _ => isRight
                      finiArray := fun _ inFini =>
                        absurd (inInit.symm.trans inFini) (by decide)
                      stored := fun isStored =>
                        absurd ⟨isFound, Or.inl inInit⟩ isStored }
                · intro fits
                  exact fits.initArray isFound inInit
              · rw [if_neg inInit]
                by_cases inFini : call.sec = .finiArray
                · rw [if_pos inFini, exists_of_notStored isZero,
                    Dynamic.addFiniArray, Option.isSome_map,
                    Table.isSome_write]
                  constructor
                  · intro isRight
                    exact
                      { initArray := fun _ isInit => absurd isInit inInit
                        finiArray := fun _ _ => isRight
                        stored := fun isStored =>
                          absurd ⟨isFound, Or.inr inFini⟩ isStored }
                  · intro fits
                    exact fits.finiArray isFound inFini
                · rw [if_neg inFini, exists_mem_ite,
                    distanceFits_iff_of_stored isTarget fun isArray =>
                      isArray.2.elim inInit inFini]
                  apply and_congr_right
                  intro _
                  rw [applyTarget, if_neg not64, if_pos isType, exists_mem_map]
                  exact exists_fillAddress_iff isZero

/-- An exported symbol has its own value. -/
theorem resolvedAddress_of_internalFunc
    {link : Link} {oc : ObjectChain} {d : Dynamic} {sym : Sym} {address : Nat}
    (isTarget : targetOf link oc d sym = some (some (.internalFunc address))) :
    resolvedAddress link oc d sym = some (d, address) := by
  rw [resolvedAddress, isTarget]
  rfl

/-- The call of the static function gets its distance. -/
theorem storesDistance_call :
    ∃ item ∈ (relocations (exportsOf [callsStaticF]).link).getD [],
      StoresDistance (exportsOf [callsStaticF]).link item.1
        (exportsOf [callsStaticF]).relocating item.2 240 232 := by
  have isCall :
      ∃ item ∈ (relocations (exportsOf [callsStaticF]).link).getD [],
        (∃ subShdr ∈ (exportsOf [callsStaticF]).link.headers[item.2.subShdr]?,
            fieldAddress subShdr item.2.rela = 240) ∧
          symbolOf (exportsOf [callsStaticF]).link item.1 item.2.rela =
            some staticF ∧
          (item.2.rela.relType = rPc32 ∨ item.2.rela.relType = rPlt32) ∧
          targetOf (exportsOf [callsStaticF]).link item.1
              (exportsOf [callsStaticF]).relocating.dynamic staticF =
            some (some (.internalFunc 232)) ∧
          ByteBuffer.loadWord 4
              ((exportsOf [callsStaticF]).relocating.data item.2.subShdr)
              item.2.rela.rOffset =
            0 ∧
          item.2.sec = .relaText ∧
          ¬ DistanceIsZero 240 232 item.2.rela.rAddend := by
    decide +kernel
  obtain ⟨item, member, ⟨subShdr, isSection, isPlace⟩, isSym, isPcRelative,
    isTarget, isZero, isText, notZero⟩ := isCall
  refine ⟨item, member, ?_⟩
  have stores :=
    (storesDistance_iff_distanceFits isSection isSym isPcRelative
      (resolvedAddress_of_internalFunc isTarget) isZero).mpr
  rw [isPlace] at stores
  refine stores ?_
  exact
    { initArray := fun _ isArray =>
        absurd (isText.symm.trans isArray) (by decide)
      finiArray := fun _ isArray =>
        absurd (isText.symm.trans isArray) (by decide)
      stored := fun _ =>
        ⟨notZero, (symbolFits_iff isTarget).mpr (by decide)⟩ }

/-- An object with a function `f` and its distance to a place inside of it. -/
def refersToItself : ElfFile :=
  .ofHeaders
    [sectionHeader ".text" shtProgbits 16,
      { sectionHeader ".symtab" shtSymtab 48 with
        symAt := fun
          | 0 => default
          | _ => staticF },
      { sectionHeader ".rela.text" shtRela 24 with
        shInfo := 1
        relaAt := fun _ =>
          { rOffset := 8, symIndex := 1, relType := rPc32, rAddend := 8 } }]

/-- Its distance is zero, and the resolver does not come to an end. -/
theorem not_storesDistance_refersToItself :
    ∃ item ∈ (relocations (exportsOf [refersToItself]).link).getD [],
      symbolOf (exportsOf [refersToItself]).link item.1 item.2.rela =
          some staticF ∧
        item.2.rela.relType = rPc32 ∧
        resolvedAddress (exportsOf [refersToItself]).link item.1
            (exportsOf [refersToItself]).relocating.dynamic staticF =
          some ((exportsOf [refersToItself]).relocating.dynamic, 232) ∧
        ByteBuffer.loadWord 4
            ((exportsOf [refersToItself]).relocating.data item.2.subShdr)
            item.2.rela.rOffset =
          0 ∧
        ¬ StoresDistance (exportsOf [refersToItself]).link item.1
            (exportsOf [refersToItself]).relocating item.2 240 232 := by
  have fails :
      ∃ item ∈ (relocations (exportsOf [refersToItself]).link).getD [],
        symbolOf (exportsOf [refersToItself]).link item.1 item.2.rela =
            some staticF ∧
          item.2.rela.relType = rPc32 ∧
          targetOf (exportsOf [refersToItself]).link item.1
              (exportsOf [refersToItself]).relocating.dynamic staticF =
            some (some (.internalFunc 232)) ∧
          ByteBuffer.loadWord 4
              ((exportsOf [refersToItself]).relocating.data item.2.subShdr)
              item.2.rela.rOffset =
            0 ∧
          (resolveNew (exportsOf [refersToItself]).link item.1
            (exportsOf [refersToItself]).relocating item.2).isNone := by
    decide +kernel
  obtain ⟨item, member, isSym, isType, isTarget, isZero, isNone⟩ := fails
  refine
    ⟨item, member, isSym, isType, resolvedAddress_of_internalFunc isTarget,
      isZero, ?_⟩
  rintro ⟨result, resolves, _⟩
  rw [Option.isNone_iff_eq_none.mp isNone] at resolves
  cases resolves

end BinTools.Elf
