import BinTools.ElfObjectExports

namespace BinTools.Elf

/-!
# Relocations against local symbols

A relocation is resolved by the name of its symbol alone, also when the symbol
is local to the object.  It reaches the object's own definition exactly when
that is the address of the first definition of the name among all objects.
Resolving other relocations before it does not change the exported symbols.
-/

open LogLine

/-- A definition of binding `STB_LOCAL` that is looked up by its name. -/
def LocalDefinition (sym : Sym) : Prop :=
  sym.stBind = stbLocal ∧
    (sym.stType = sttNotype ∨ sym.stType = sttObject ∨
      sym.stType = sttFunc) ∧
    sym.Defined

instance (sym : Sym) : Decidable (LocalDefinition sym) :=
  inferInstanceAs (Decidable (_ ∧ _))

/-- The address of a symbol within the section of its own object. -/
def ownAddress (link : Link) (oc : ObjectChain) (sym : Sym) : Option Nat :=
  (link.headers[oc.sectionHead + sym.stShndx]?).map fun shdr =>
    u32 (shdr.shAddr + sym.stValue)

/-- The relocation is resolved to the definition at an address. -/
def ResolvedTo
    (link : Link) (oc : ObjectChain) (state : Relocating)
    (call : RelocCall) (address : Nat) : Prop :=
  ∃ result ∈ resolveNew link oc state call,
    result.2 = .definition address

instance
    (link : Link) (oc : ObjectChain) (state : Relocating)
    (call : RelocCall) (address : Nat) :
    Decidable (ResolvedTo link oc state call address) :=
  inferInstanceAs (Decidable (∃ result ∈ _, _))

/-- The relocation is resolved to the symbol's address in its own object. -/
def ResolvedToOwn
    (link : Link) (oc : ObjectChain) (state : Relocating)
    (call : RelocCall) (sym : Sym) : Prop :=
  ∃ own ∈ ownAddress link oc sym, ResolvedTo link oc state call own

instance
    (link : Link) (oc : ObjectChain) (state : Relocating)
    (call : RelocCall) (sym : Sym) :
    Decidable (ResolvedToOwn link oc state call sym) :=
  inferInstanceAs (Decidable (∃ own ∈ _, _))

/-- The first definition under a name that can be found has the address. -/
def FirstIsOwn
    (files : List ElfFile) (defs : List Definition) (name : CString)
    (address : Nat) : Prop :=
  ∃ position < defs.length,
    GnuHashTable.FirstFindable (definedNames files) name position ∧
      ∃ entry ∈ defs[position]?, entry.value = address

instance
    (files : List ElfFile) (defs : List Definition) (name : CString)
    (address : Nat) :
    Decidable (FirstIsOwn files defs name address) :=
  inferInstanceAs (Decidable (∃ position < _, _))

/-- The address of a relocated field, less the addend. -/
def placeAddress (subShdr : Shdr) (rela : Rela) : Nat :=
  ((u32 (subShdr.shAddr + rela.rOffset) - rela.rAddend) % 2 ^ 32).toNat

/--
The resolver gets through with a definition at an address: the array or table
it writes to has room, or the field is empty and the distance is not zero.
-/
def Applicable
    (link : Link) (state : Relocating) (call : RelocCall) (address : Nat) :
    Prop :=
  ∃ subShdr ∈ link.headers[call.subShdr]?,
    if call.sec = .initArray then
      state.dynamic.initArray.current.entries.length < arrayNum
    else if call.sec = .finiArray then
      state.dynamic.finiArray.current.entries.length < finiRoom
    else if call.rela.relType = r64 then
      state.dynamic.relaPlt.current.entries.length < defaultNum
    else
      (call.rela.relType = rPc32 ∨ call.rela.relType = rPlt32 ∨
          call.rela.relType = r32S) ∧
        ByteBuffer.loadWord 4 (state.data call.subShdr)
          call.rela.rOffset = 0 ∧
        sub32 address (placeAddress subShdr call.rela) ≠ 0

instance
    (link : Link) (state : Relocating) (call : RelocCall) (address : Nat) :
    Decidable (Applicable link state call address) :=
  inferInstanceAs (Decidable (∃ subShdr ∈ _, _))

/-! ## The relocation pass -/

/-- Resolve one relocation of an object. -/
def relocate
    (link : Link) (state : Relocating) (item : ObjectChain × RelocCall) :
    Option Relocating :=
  (resolveNew link item.1 state item.2).map Prod.fst

/-- The relocations of all objects in the order they are resolved. -/
def relocations (link : Link) : Option (List (ObjectChain × RelocCall)) :=
  (link.objects.mapM fun (oc : ObjectChain) =>
    (relocCalls link oc).map fun calls =>
      calls.map fun call => (oc, call)).map List.flatten

/-- The relocation pass resolves one relocation after the other. -/
theorem foldlM_elfDoReloc (link : Link) (state : Relocating) :
    link.objects.foldlM (elfDoReloc link) state =
      (relocations link).bind fun items =>
        items.foldlM (relocate link) state := by
  have perObject :
      elfDoReloc link = fun (state : Relocating) (oc : ObjectChain) =>
        ((relocCalls link oc).map fun calls =>
          calls.map fun call => (oc, call)).bind fun items =>
            items.foldlM (relocate link) state := by
    funext state oc
    rw [elfDoReloc, Option.bind_map]
    congr 1
    funext calls
    rw [Function.comp_apply, List.foldlM_map]
    rfl
  rw [perObject, foldlM_bind_eq, relocations, Option.bind_map]
  congr 1
  funext lists
  exact foldlM_flatten _ state lists

/-- Applying a target only imports. -/
theorem applyTarget_imported
    {state : Relocating} {p offset srcAddr placeAddr relType : Nat}
    {name : CString} {target : Target} {result : Relocating × Resolution}
    (applies :
      applyTarget state p offset srcAddr placeAddr name relType target =
        some result) :
    Dynamic.Imported state.dynamic result.1.dynamic := by
  unfold applyTarget at applies
  dsimp only at applies
  split_ifs at applies
  · cases target with
    | dynamicFunc =>
        obtain ⟨d, adds, rfl⟩ := Option.map_eq_some_iff.mp applies
        exact Dynamic.addDynamicEntry2_imported adds
    | internalFunc address =>
        obtain ⟨d, adds, rfl⟩ := Option.map_eq_some_iff.mp applies
        exact Dynamic.addRelaPltEntry_imported adds
    | internalSection address =>
        obtain ⟨d, adds, rfl⟩ := Option.map_eq_some_iff.mp applies
        exact Dynamic.addRelaPltEntry_imported adds
  · cases target with
    | dynamicFunc =>
        obtain ⟨⟨d, address⟩, adds, fills⟩ :=
          Option.bind_eq_some_iff.mp applies
        obtain ⟨data, _, rfl⟩ := Option.map_eq_some_iff.mp fills
        exact Dynamic.addDynamicEntry_imported adds
    | internalFunc address =>
        obtain ⟨data, _, rfl⟩ := Option.map_eq_some_iff.mp applies
        exact .refl _
    | internalSection address =>
        obtain ⟨data, _, rfl⟩ := Option.map_eq_some_iff.mp applies
        exact .refl _
  · split at applies
    · cases applies
    · obtain ⟨⟨d, address⟩, adds, fills⟩ :=
        Option.bind_eq_some_iff.mp applies
      obtain ⟨data, _, rfl⟩ := Option.map_eq_some_iff.mp fills
      exact Dynamic.addDynamicEntry_imported adds

/-- A target that is applied was logged before. -/
theorem logged_of_applied
    {line : Nat} {applied : Option (Relocating × Resolution)}
    {result : Relocating × Resolution}
    (applies : (if IsLogged line then applied else none) = some result) :
    IsLogged line ∧ applied = some result :=
  Option.ite_none_right_eq_some.mp applies

/-- Resolving a relocation only imports. -/
theorem resolveNew_imported
    {link : Link} {oc : ObjectChain} {state : Relocating}
    {call : RelocCall} {result : Relocating × Resolution}
    (resolves : resolveNew link oc state call = some result) :
    Dynamic.Imported state.dynamic result.1.dynamic := by
  obtain ⟨subShdr, _, resolves⟩ := Option.bind_eq_some_iff.mp resolves
  obtain ⟨sym, _, resolves⟩ := Option.bind_eq_some_iff.mp resolves
  obtain ⟨target, _, resolves⟩ := Option.bind_eq_some_iff.mp resolves
  split at resolves
  · cases resolves
    exact .refl _
  · split_ifs at resolves with inInit inFini
    · obtain ⟨d, adds, rfl⟩ := Option.map_eq_some_iff.mp resolves
      exact Dynamic.addInitArray_imported adds
    · obtain ⟨d, adds, rfl⟩ := Option.map_eq_some_iff.mp resolves
      exact Dynamic.addFiniArray_imported adds
    · exact applyTarget_imported (logged_of_applied resolves).2
  · exact applyTarget_imported (logged_of_applied resolves).2

/-- So does resolving a list of them. -/
theorem foldlM_relocate_imported
    {link : Link} {state last : Relocating}
    {items : List (ObjectChain × RelocCall)}
    (run : items.foldlM (relocate link) state = some last) :
    Dynamic.Imported state.dynamic last.dynamic := by
  induction items generalizing state with
  | nil =>
      cases run
      exact .refl _
  | cons item rest inductionHypothesis =>
      rw [List.foldlM_cons] at run
      obtain ⟨next, stepped, later⟩ := Option.bind_eq_some_iff.mp run
      obtain ⟨result, resolves, rfl⟩ := Option.map_eq_some_iff.mp stepped
      exact (resolveNew_imported resolves).trans (inductionHypothesis later)

/-! ## What a found definition is used for -/

/-- An attempt that ends with a definition when it succeeds. -/
theorem exists_definition_iff
    {α : Type} (attempt : Option α) (next : α → Relocating)
    (address own : Nat) :
    (∃ result ∈ attempt.map fun value =>
        (next value, Resolution.definition address),
      result.2 = .definition own) ↔
        address = own ∧ attempt.isSome := by
  cases attempt <;> simp

/-- An import never ends with a definition. -/
theorem applyTarget_dynamicFunc
    {state : Relocating} {p offset srcAddr placeAddr relType : Nat}
    {name : CString} {result : Relocating × Resolution}
    (applies :
      applyTarget state p offset srcAddr placeAddr name relType
        .dynamicFunc = some result) :
    result.2 = .imported name := by
  unfold applyTarget at applies
  dsimp only at applies
  split_ifs at applies
  · obtain ⟨d, _, rfl⟩ := Option.map_eq_some_iff.mp applies
    rfl
  · obtain ⟨⟨d, address⟩, _, fills⟩ := Option.bind_eq_some_iff.mp applies
    obtain ⟨data, _, rfl⟩ := Option.map_eq_some_iff.mp fills
    rfl
  · obtain ⟨⟨d, address⟩, _, fills⟩ := Option.bind_eq_some_iff.mp applies
    obtain ⟨data, _, rfl⟩ := Option.map_eq_some_iff.mp fills
    rfl

/-- A table takes an entry when its chunk has room. -/
theorem Table.isSome_write
    {Entry : Type} (table : Table Entry) (capacity : Nat) (entry : Entry) :
    (table.write capacity entry).isSome ↔
      table.current.entries.length < capacity := by
  unfold Table.write
  split <;> simp_all

/-- A field is filled when it is empty and the distance is not zero. -/
theorem isSome_fillAddress
    (data : Nat → ByteBuffer.Bytes) (p offset srcAddr dstAddr : Nat) :
    (fillAddress data p offset srcAddr dstAddr).isSome ↔
      ByteBuffer.loadWord 4 (data p) offset = 0 ∧
        sub32 dstAddr srcAddr ≠ 0 := by
  unfold fillAddress
  split
  · simp_all
  · split <;> simp_all

/-- A definition that was logged when it was exported fits its line again. -/
theorem isLogged_resolutionLine
    {num : Nat} {entry : Definition}
    (exportLogged : IsLogged (exportLine num entry)) :
    IsLogged (resolutionLine entry.name (.internalFunc entry.value)) := by
  have exportText :
      "[link/elf/dynamic.c]\t add export symbol:,,,,\n".length = 45 := rfl
  have resolutionText :
      "[link/elf/reloc.c]\t resolve over objects:,\n".length = 43 := rfl
  have number := intLength_pos num
  have first := three_le_pointerLength entry.schainAddress
  have second := three_le_pointerLength entry.sectionAddress
  simp only [IsLogged, maxName, exportLine, resolutionLine, lineLength,
    exportText, resolutionText, List.sum_cons, List.sum_nil]
    at exportLogged ⊢
  omega

/-- So does every one of them when all were logged. -/
theorem ExportsLogged.resolutionLine
    {num position : Nat} {defs : List Definition} {entry : Definition}
    (logged : ExportsLogged num defs)
    (present : defs[position]? = some entry) :
    IsLogged (Elf.resolutionLine entry.name (.internalFunc entry.value)) := by
  apply isLogged_resolutionLine
  apply logged (entry, num + position)
  rw [List.mk_mem_zipIdx_iff_le_and_getElem?_sub, Nat.add_sub_cancel_left]
  exact ⟨Nat.le_add_right num position, present⟩

/--
When a definition was found that fits its line, the relocation is resolved to
it exactly when the resolver gets through.
-/
theorem resolvedTo_iff_applicable
    {link : Link} {oc : ObjectChain} {state : Relocating}
    {call : RelocCall} {sym : Sym} {address own : Nat}
    (isSym : symbolOf link oc call.rela = some sym)
    (found :
      targetOf link oc state.dynamic sym =
        some (some (.internalFunc address)))
    (logged : IsLogged (resolutionLine sym.name (.internalFunc address))) :
    ResolvedTo link oc state call own ↔
      address = own ∧ Applicable link state call address := by
  unfold ResolvedTo resolveNew Applicable
  cases headers : link.headers[call.subShdr]? with
  | none => simp
  | some subShdr =>
      simp only [Option.bind_some, isSym, found, if_pos logged,
        Option.mem_some_iff, exists_eq_left']
      split_ifs with inInit inFini is64
      · rw [exists_definition_iff, Dynamic.addInitArray, Option.isSome_map,
          Table.isSome_write]
      · rw [exists_definition_iff, Dynamic.addFiniArray, Option.isSome_map,
          Table.isSome_write]
      · simp only [applyTarget, is64, ↓reduceIte]
        rw [exists_definition_iff, Dynamic.addRelaPltEntry,
          Option.isSome_map, Table.isSome_write]
      · by_cases distance :
            call.rela.relType = rPc32 ∨ call.rela.relType = rPlt32 ∨
              call.rela.relType = r32S
        · simp only [applyTarget, is64, distance, ↓reduceIte]
          rw [exists_definition_iff, isSome_fillAddress]
          simp [placeAddress]
        · simp only [applyTarget, is64, distance, ↓reduceIte, false_and,
            and_false, iff_false]
          rintro ⟨result, applies, isDefinition⟩
          split at applies
          · obtain ⟨⟨d, address⟩, _, fills⟩ :=
              Option.bind_eq_some_iff.mp applies
            obtain ⟨data, _, rfl⟩ := Option.map_eq_some_iff.mp fills
            cases isDefinition
          · cases applies

/-! ## Which definition is found -/

/-- A symbol with a value is one of the definitions, and has its value. -/
theorem definition_of_symAt
    {state : Exported} {later : Dynamic} {index : Nat}
    {entry : DynsymEntry}
    (registered : LinkRegistered state)
    (imported : Dynamic.Imported state.dynamic later)
    (present : later.symAt index = some entry)
    (notZero : entry.stValue ≠ 0) :
    ∃ position symbol,
      index = position + 1 ∧ state.symbols[position]? = some symbol ∧
        symbol.value = entry.stValue := by
  have known := registered.registered
  have headIs :
      state.dynamic.dynsym.head = state.dynamic.dynsym.current := by
    rw [Table.head, known.dynsymOpen, List.headD_nil]
  have entryHere : later.dynsym.head.entries[index]? = some entry := by
    unfold Dynamic.symAt at present
    split at present
    · cases here : later.dynsym.head.entries[index]? with
      | none =>
          rw [here] at present
          cases present
          exact absurd rfl notZero
      | some other => simpa [here] using present
    · cases present
  have inRange : index < state.dynamic.dynsym.head.entries.length := by
    by_contra beyond
    exact
      notZero (imported.noValue index entry entryHere (Nat.le_of_not_lt beyond))
  cases index with
  | zero =>
      rw [Dynamic.getElem?_of_prefix imported.dynsym inRange, headIs,
        known.nullSymbol] at entryHere
      cases entryHere
      exact absurd rfl notZero
  | succ position =>
      rw [headIs, known.dynsymLength] at inRange
      have here := List.getElem?_eq_getElem (Nat.lt_of_succ_lt_succ inRange)
      obtain ⟨⟨other, atIndex, sameValue⟩, _⟩ :=
        known.symbolAt imported.toGrown here
      cases present.symm.trans atIndex
      exact ⟨position, _, rfl, here, sameValue.symm⟩

/-- The target of a symbol that is looked up by its name. -/
theorem targetOf_named
    {link : Link} {oc : ObjectChain} {d : Dynamic} {sym : Sym}
    (type :
      sym.stType = sttNotype ∨ sym.stType = sttObject ∨
        sym.stType = sttFunc) :
    targetOf link oc d sym =
      (d.findSym2 sym.name).bind fun index =>
        (d.symAt index).map fun entry =>
          if entry.stValue = 0 then
            some .dynamicFunc
          else
            some (.internalFunc entry.stValue) := by
  rw [targetOf, if_pos type]

/-- A relocation resolved to a definition found its symbol with a value. -/
theorem targetOf_of_resolvedTo
    {link : Link} {oc : ObjectChain} {state : Relocating}
    {call : RelocCall} {sym : Sym} {own : Nat}
    (isSym : symbolOf link oc call.rela = some sym)
    (type :
      sym.stType = sttNotype ∨ sym.stType = sttObject ∨
        sym.stType = sttFunc)
    (resolved : ResolvedTo link oc state call own) :
    ∃ index entry,
      state.dynamic.findSym2 sym.name = some index ∧
        state.dynamic.symAt index = some entry ∧
        entry.stValue ≠ 0 ∧
        targetOf link oc state.dynamic sym =
          some (some (.internalFunc entry.stValue)) := by
  obtain ⟨result, resolves, isDefinition⟩ := resolved
  obtain ⟨subShdr, _, resolves⟩ := Option.bind_eq_some_iff.mp resolves
  obtain ⟨_, alsoSym, resolves⟩ := Option.bind_eq_some_iff.mp resolves
  cases isSym.symm.trans alsoSym
  obtain ⟨target, isTarget, resolves⟩ := Option.bind_eq_some_iff.mp resolves
  have named := isTarget
  rw [targetOf_named type] at named
  obtain ⟨index, found, named⟩ := Option.bind_eq_some_iff.mp named
  obtain ⟨entry, symHere, rfl⟩ := Option.map_eq_some_iff.mp named
  by_cases noValue : entry.stValue = 0
  · rw [if_pos noValue] at resolves
    rw [applyTarget_dynamicFunc (logged_of_applied resolves).2]
      at isDefinition
    cases isDefinition
  · rw [if_neg noValue] at isTarget
    exact ⟨index, entry, found, symHere, noValue, isTarget⟩

/-- The tables and the section contents before the first relocation. -/
def LinkExports.relocating (exported : LinkExports) : Relocating where
  dynamic := exported.dynamic
  data := exported.link.contents

/--
A relocation is resolved to an address exactly when that is the address, not
zero, of the first findable definition of the name, and the resolver gets
through with it.
-/
theorem resolvedTo_iff_firstIsOwn
    {interp : Option CString} {files : List ElfFile}
    {dynlib : List CString} {exported : LinkExports}
    {earlier : List (ObjectChain × RelocCall)} {state : Relocating}
    {oc : ObjectChain} {call : RelocCall} {sym : Sym} {own : Nat}
    (links : linkExports interp files dynlib = some exported)
    (fit : TablesFit dynlib files)
    (run :
      earlier.foldlM (relocate exported.link) exported.relocating =
        some state)
    (isSym : symbolOf exported.link oc call.rela = some sym)
    (type :
      sym.stType = sttNotype ∨ sym.stType = sttObject ∨
        sym.stType = sttFunc) :
    ResolvedTo exported.link oc state call own ↔
      FirstIsOwn files exported.defs sym.name own ∧ own ≠ 0 ∧
        Applicable exported.link state call own := by
  have imported := foldlM_relocate_imported run
  dsimp only [LinkExports.relocating] at imported
  obtain ⟨names, registered, logged⟩ := linkExports_registered links fit
  have nameOf :
      ∀ {position : Nat} {entry : Definition},
        GnuHashTable.FirstFindable (definedNames files) sym.name position →
          exported.defs[position]? = some entry →
            entry.name = sym.name := by
    intro position entry first present
    have nameAt := first.1.1
    have atPosition := congrArg (·[position]?) names
    simp only [List.getElem?_map, present, Option.map_some] at atPosition
    rw [definedNames, List.getElem?_map] at nameAt
    obtain ⟨symbol, isAt, isName⟩ := Option.map_eq_some_iff.mp nameAt
    rw [isAt, Option.map_some] at atPosition
    rw [← isName]
    exact congrArg Prod.fst (Option.some.inj atPosition)
  constructor
  · intro resolved
    obtain ⟨index, atIndex, found, symHere, notZero, target⟩ :=
      targetOf_of_resolvedTo isSym type resolved
    obtain ⟨position, symbol, rfl, present, sameValue⟩ :=
      definition_of_symAt registered imported symHere notZero
    rw [List.getElem?_map] at present
    obtain ⟨entry, here, rfl⟩ := Option.map_eq_some_iff.mp present
    have inRange := (List.getElem?_eq_some_iff.mp here).1
    have first :=
      (findSym2_eq_iff_firstFindable links fit imported sym.name
        inRange).mp found
    have entryLogged := logged.resolutionLine here
    rw [nameOf first here] at entryLogged
    have value : entry.value = atIndex.stValue := sameValue
    rw [value] at entryLogged
    obtain ⟨isValue, applicable⟩ :=
      (resolvedTo_iff_applicable isSym target entryLogged).mp resolved
    rw [isValue] at value notZero applicable
    exact
      ⟨⟨position, inRange, first, entry, here, value⟩, notZero, applicable⟩
  · rintro ⟨⟨position, inRange, first, entry, present, isValue⟩, notZero,
      applicable⟩
    have found :=
      (findSym2_eq_iff_firstFindable links fit imported sym.name
        inRange).mpr first
    have exportedHere :
        (exported.defs.map Definition.toExport)[position]? =
          some entry.toExport := by
      rw [List.getElem?_map, present, Option.map_some]
    obtain ⟨⟨atIndex, symHere, sameValue⟩, _⟩ :=
      registered.registered.symbolAt imported.toGrown exportedHere
    have value : atIndex.stValue = own := sameValue.trans isValue
    have target :
        targetOf exported.link oc state.dynamic sym =
          some (some (.internalFunc own)) := by
      rw [targetOf_named type, found, Option.bind_some, symHere,
        Option.map_some, value, if_neg notZero]
    have entryLogged := logged.resolutionLine present
    rw [nameOf first present, isValue] at entryLogged
    exact
      (resolvedTo_iff_applicable isSym target entryLogged).mpr
        ⟨rfl, applicable⟩

/-- The symbol of a static function `f`. -/
def staticF : Sym where
  name := .ofString "f"
  stBind := stbLocal
  stType := sttFunc
  stShndx := 1

/-- An object with a static function `f` and a call of it. -/
def callsStaticF : ElfFile :=
  .ofHeaders
    [sectionHeader ".text" shtProgbits 16,
      { sectionHeader ".symtab" shtSymtab 48 with
        symAt := fun
          | 0 => default
          | _ => staticF },
      { sectionHeader ".rela.text" shtRela 24 with
        shInfo := 1
        relaAt := fun _ =>
          { rOffset := 8, symIndex := 1, relType := rPlt32, rAddend := -4 } }]

end BinTools.Elf
