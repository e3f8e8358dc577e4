import BinTools.CoffImportStubs
import BinTools.CoffLookup
import BinTools.CoffRelocLayout
import BinTools.ElfPltEntries

namespace BinTools.CoffObject

open ByteBuffer (Bytes loadWord)

/-!
# What relocation writes

Every entry of a section adds its value to one field.  Static symbols stand for
an address in their own section, external ones for an exported address or for the
stub of an import; entries for other symbols are passed over.
-/

/-- The field of an entry for an address, added to modulo its width. -/
structure Applied
    (config : Coff.Config) (arg : Coff.CallbackArgIn) (s : U32)
    (before after : Bytes) : Prop where
  absolute :
    arg.type = 1 ∨ arg.type = 2 →
      (loadWord (fieldWidth arg.type) after arg.filledAddr : Int) =
        (loadWord (fieldWidth arg.type) before arg.filledAddr +
            (config.baseAddress.toInt + s.toNat)) %
          2 ^ (8 * fieldWidth arg.type)
  imageRelative :
    arg.type = 3 →
      (loadWord 4 after arg.filledAddr : Int) =
        (loadWord 4 before arg.filledAddr + s.toNat) % 2 ^ 32
  pcRelative :
    arg.type = 4 ∨ arg.type = 0x14 →
      (loadWord 4 after arg.filledAddr : Int) =
        (loadWord 4 before arg.filledAddr +
            (s.toNat - (arg.srcVaddr.toNat + 4))) %
          2 ^ 32
  others :
    ∀ q, q < arg.filledAddr ∨ arg.filledAddr + fieldWidth arg.type ≤ q →
      after q = before q

namespace Link

variable (link : Link)

/-- `Confp` when the relocation pass starts. -/
def config
    (baseAddress : U32) (dllHashTable : List (List Coff.DllSymbol))
    (exported : CString → U32) : Coff.Config where
  baseAddress := baseAddress
  virtualAddressOffset := BitVec.ofNat 32 link.virtualAddressOffset
  pltOffset := BitVec.ofNat 32 link.virtualAddressOffset
  importDirectoryLen := 0
  dllHashTable := dllHashTable
  exported := exported
  initialImport := []
  memory := link.mem.bytes
  resolved := []

/-- The symbol of the entry is defined in a section of its object. -/
def Defined (entry : Entry) : Prop :=
  1 ≤ (link.argOf entry).shndx ∧
    (link.argOf entry).shndx ≤ link.mem.numberOfSections entry.oc.mapBase

instance (entry : Entry) : Decidable (link.Defined entry) :=
  inferInstanceAs (Decidable (_ ∧ _))

/-- The entry refers to a function that a DLL has and no object exports. -/
def Imports (config : Coff.Config) (entry : Entry) : Prop :=
  (link.argOf entry).storageClass = 2 ∧
    config.exported (link.argOf entry).name = 0 ∧
      config.dllOf (link.argOf entry).name ≠ none

instance (config : Coff.Config) (entry : Entry) :
    Decidable (link.Imports config entry) :=
  inferInstanceAs (Decidable (_ ∧ _))

/-- The functions that some entries import, in the order of first reference. -/
def importsOf (config : Coff.Config) (entries : List Entry) : List CString :=
  ((entries.filter fun entry => decide (link.Imports config entry)).map
    fun entry => (link.argOf entry).name).eraseDups

/-- The address of the stub of a function: stubs have 6 bytes each. -/
def stubOf (config : Coff.Config) (name : CString) : Option U32 :=
  if name ∈ link.importsOf config link.entries then
    some
      (config.virtualAddressOffset +
        BitVec.ofNat 32
          (6 * (link.importsOf config link.entries).idxOf name))
  else
    none

/--
What the symbol of an entry stands for: the address of its own section with its
value, or what the exports have for its name, or the stub of its import.
-/
def symbolAddress (config : Coff.Config) (entry : Entry) : Option U32 :=
  let arg := link.argOf entry
  if arg.storageClass = 3 ∧ link.Defined entry then
    (entry.oc.sections[(arg.shndx - 1).toNat]?).map fun id =>
      BitVec.ofNat 32 (addressAt link.state.sections id) + arg.dstVaddr
  else if config.exported arg.name ≠ 0 then
    some (config.exported arg.name)
  else
    link.stubOf config arg.name

/-- The symbol is static and defined, or external and found in some way. -/
def Resolvable (config : Coff.Config) (entry : Entry) : Prop :=
  (link.argOf entry).storageClass = 3 ∧ link.Defined entry ∨
    (link.argOf entry).storageClass = 2 ∧
      (config.exported (link.argOf entry).name ≠ 0 ∨
        config.dllOf (link.argOf entry).name ≠ none)

instance (config : Coff.Config) (entry : Entry) :
    Decidable (link.Resolvable config entry) :=
  inferInstanceAs (Decidable (_ ∨ _))

/-- The entry is applied with the address of its symbol. -/
def Applies
    (config : Coff.Config) (entry : Entry) (before after : Bytes) : Prop :=
  ∃ s ∈ link.symbolAddress config entry,
    Applied config (link.argOf entry) s before after

/-- Something happens to the bytes at one entry after the other. -/
def Chained (happens : Entry → Bytes → Bytes → Prop) :
    List Entry → Bytes → Bytes → Prop
  | [], before, after => after = before
  | entry :: rest, before, after =>
      ∃ middle,
        happens entry before middle ∧ Chained happens rest middle after

/-- The four types are applied, whatever the class of the symbol. -/
def AppliesAll
    (config : Coff.Config) (entry : Entry) (before after : Bytes) : Prop :=
  (link.argOf entry).type ∈ [1, 2, 3, 4] →
    link.Applies config entry before after

/--
An entry whose symbol can be resolved is applied, and any other changes nothing.
-/
def AppliesResolvable
    (config : Coff.Config) (entry : Entry) (before after : Bytes) : Prop :=
  if link.Resolvable config entry then
    link.Applies config entry before after
  else
    after = before

end Link

/-- The file header of every object is apart from the section headers. -/
def State.FilesApart (state : State) (sec : Nat) : Prop :=
  ∀ oc ∈ state.objects,
    ∀ p ∈ state.sections.map SectionChain.p ++ [sec],
      oc.mapBase + sizeofFileHeader ≤ p ∨
        p + sizeofSectionHeader ≤ oc.mapBase

instance (state : State) (sec : Nat) : Decidable (state.FilesApart sec) :=
  inferInstanceAs (Decidable (∀ oc ∈ _, _))

/--
No field overlaps what the pass reads, static symbols are defined in their
objects, a field of eight bytes gets an address that has 32 bits, and the stubs
are below the end of the address space.
-/
structure Link.Relocatable (link : Link) (config : Coff.Config) : Prop where
  fields : link.FieldsApart
  defined :
    ∀ entry ∈ link.entries,
      (link.argOf entry).storageClass = 3 → link.Defined entry
  carry :
    ∀ entry ∈ link.entries,
      (link.argOf entry).type = 1 →
        ∀ s ∈ link.symbolAddress config entry,
          0 ≤ config.baseAddress.toInt + s.toNat ∧
            config.baseAddress.toInt + s.toNat < 2 ^ 32
  mapped : config.virtualAddressOffset ≠ 0
  stubs :
    config.virtualAddressOffset.toNat +
        6 * (link.importsOf config link.entries).length ≤
      2 ^ 32

/-! ## One field -/

/-- The image base as a word. -/
theorem toInt_emod (word : U32) :
    (word.toInt : Int) % 2 ^ 32 = word.toNat := by
  have isWord := word.isLt
  rw [BitVec.toInt_eq_toNat_cond]
  split_ifs <;> omega

/-- Filling a field applies the entry. -/
theorem applied_fillAddress
    {config : Coff.Config} {arg : Coff.CallbackArgIn} {s : U32}
    (carry :
      arg.type = 1 →
        0 ≤ config.baseAddress.toInt + s.toNat ∧
          config.baseAddress.toInt + s.toNat < 2 ^ 32)
    (before : Bytes) :
    Applied config arg s before
      (Coff.fillAddress config.baseAddress before arg.filledAddr arg.type s
        arg.srcVaddr) where
  absolute := by
    have isBase := toInt_emod config.baseAddress
    have isSum := BitVec.toNat_add config.baseAddress s
    rintro (isType | isType)
    · have noCarry := carry isType
      rw [isType, Coff.fillAddress]
      have isField :=
        Coff.loadWord_addWord 8 before arg.filledAddr
          (config.baseAddress + s).toNat
      rw [show fieldWidth 1 = 8 from rfl, isField]
      omega
    · rw [isType, Coff.fillAddress]
      have isField :=
        Coff.loadWord_addWord 4 before arg.filledAddr
          (config.baseAddress + s).toNat
      rw [show fieldWidth 2 = 4 from rfl, isField]
      omega
  imageRelative := by
    intro isType
    rw [isType, Coff.fillAddress]
    have isField := Coff.loadWord_addWord 4 before arg.filledAddr s.toNat
    rw [isField]
    omega
  pcRelative := by
    have isNext := BitVec.toNat_add arg.srcVaddr 4
    have isDistance := BitVec.toNat_sub s (arg.srcVaddr + 4)
    have isFour : (4 : U32).toNat = 4 := rfl
    have isField :=
      Coff.loadWord_addWord 4 before arg.filledAddr
        (s - (arg.srcVaddr + 4)).toNat
    rintro (isType | isType)
    · rw [isType, Coff.fillAddress, isField]
      omega
    · rw [isType, Coff.fillAddress, isField]
      omega
  others := fun _ isOutside => fillAddress_apply_of_outside isOutside

/-! ## Stubs -/

/-- What a number of imports leaves of the configuration. -/
structure Stubs
    (start : Coff.Config) (names : List CString) (config : Coff.Config) :
    Prop where
  baseAddress : config.baseAddress = start.baseAddress
  exported : config.exported = start.exported
  pltOffset :
    config.pltOffset =
      start.virtualAddressOffset + BitVec.ofNat 32 (6 * names.length)
  unseen :
    ∀ name, name ∉ names →
      config.entryOf name = (start.dllOf name).map fun dll => (dll, 0)
  seen :
    ∀ i name, names[i]? = some name →
      ∃ dll,
        config.entryOf name =
          some
            (dll, start.virtualAddressOffset + BitVec.ofNat 32 (6 * i))

/-- Nothing is imported at the start. -/
theorem stubs_nil
    {start : Coff.Config} (isStart : start.pltOffset = start.virtualAddressOffset)
    (noEver :
      ∀ chain ∈ start.dllHashTable, ∀ entry ∈ chain, entry.ever = 0) :
    Stubs start [] start where
  baseAddress := rfl
  exported := rfl
  pltOffset := by simp [isStart]
  unseen := by
    intro name _
    rw [Coff.Config.dllOf, Option.map_map]
    cases isEntry : start.entryOf name with
    | none => rfl
    | some found =>
        obtain ⟨chain, isChain, isFound⟩ :=
          Option.bind_eq_some_iff.mp isEntry
        obtain ⟨symbol, isSymbol, rfl⟩ := Option.map_eq_some_iff.mp isFound
        simp [noEver chain (List.mem_of_getElem? isChain) symbol
          (List.mem_of_find?_eq_some isSymbol)]
  seen := by
    intro i name isName
    cases isName

/-- Filling a field leaves the imports alone. -/
theorem Stubs.fill
    {start config : Coff.Config} {names : List CString}
    (stubs : Stubs start names config) (arg : Coff.CallbackArgIn) (s : U32) :
    Stubs start names (config.fill arg s) :=
  ⟨stubs.baseAddress, stubs.exported, stubs.pltOffset, stubs.unseen,
    stubs.seen⟩

/-- A chain without the name. -/
theorem touch_eq_none
    (pltOffset : U32) {name : CString} {chain : List Coff.DllSymbol}
    (isAbsent : chain.find? (fun entry => entry.name = name) = none) :
    Coff.touch pltOffset name chain = none := by
  induction chain with
  | nil => rfl
  | cons head rest inductionHypothesis =>
      rw [List.find?_eq_none, List.forall_mem_cons] at isAbsent
      have isOther : ¬ head.name = name := by simpa using isAbsent.1
      rw [Coff.touch, if_neg isOther, Option.map_eq_none_iff]
      exact inductionHypothesis (List.find?_eq_none.mpr isAbsent.2)

/-- A function without a DLL is not found. -/
theorem lookupDynamicSymbol_eq_none
    {config : Coff.Config} {name : CString}
    (noEntry : config.entryOf name = none) :
    Coff.lookupDynamicSymbol config name = none := by
  unfold Coff.Config.entryOf at noEntry
  unfold Coff.lookupDynamicSymbol
  dsimp only
  cases isChain : config.dllHashTable[config.bucketOf name]? with
  | none => rfl
  | some chain =>
      rw [isChain, Option.bind_some, Option.map_eq_none_iff] at noEntry
      rw [Option.bind_some, touch_eq_none config.pltOffset noEntry]
      rfl

/-- A reference to a function that has a stub fills in its address. -/
theorem Stubs.resolve_seen
    {start config : Coff.Config} {names : List CString}
    (stubs : Stubs start names config)
    (mapped : start.virtualAddressOffset ≠ 0)
    (fits : start.virtualAddressOffset.toNat + 6 * names.length ≤ 2 ^ 32)
    {arg : Coff.CallbackArgIn} (isExternal : arg.storageClass = 2)
    (notExported : start.exported arg.name = 0) {i : Nat}
    (isName : names[i]? = some arg.name) :
    ∃ next ∈ Coff.coffResolve config arg,
      Stubs start names next ∧
        next.memory =
          Coff.fillAddress start.baseAddress config.memory arg.filledAddr
            arg.type
            (start.virtualAddressOffset + BitVec.ofNat 32 (6 * i))
            arg.srcVaddr := by
  obtain ⟨dll, isEntry⟩ := stubs.seen i arg.name isName
  have inRange := (List.getElem?_eq_some_iff.mp isName).1
  have nonzero := Coff.stubAddress_ne_zero mapped fits inRange
  obtain ⟨table, looked, same, others⟩ :=
    Coff.lookupDynamicSymbol_spec isEntry
  rw [if_neg nonzero] at same
  have entries :
      ∀ other,
        Coff.Config.entryOf { config with dllHashTable := table } other =
          config.entryOf other := by
    intro other
    by_cases isSame : other = arg.name
    · rw [isSame, same, isEntry]
    · exact others other isSame
  have isNone : config.exported arg.name = 0 := by
    rw [stubs.exported]
    exact notExported
  have touched : Stubs start names { config with dllHashTable := table } :=
    { baseAddress := stubs.baseAddress
      exported := stubs.exported
      pltOffset := stubs.pltOffset
      unseen := fun other absent =>
        (entries other).trans (stubs.unseen other absent)
      seen := by
        intro j other isThere
        obtain ⟨otherDll, isOther⟩ := stubs.seen j other isThere
        exact ⟨otherDll, (entries other).trans isOther⟩ }
  refine
    ⟨_, Coff.coffResolve_of_ever isExternal isNone looked nonzero,
      touched.fill arg _, ?_⟩
  rw [← stubs.baseAddress]
  rfl

/-- The first reference to a function fills in the address of a new stub. -/
theorem Stubs.resolve_unseen
    {start config : Coff.Config} {names : List CString}
    (stubs : Stubs start names config)
    {arg : Coff.CallbackArgIn} (isExternal : arg.storageClass = 2)
    (notExported : start.exported arg.name = 0)
    (isKnown : start.dllOf arg.name ≠ none) (isNew : arg.name ∉ names) :
    ∃ next ∈ Coff.coffResolve config arg,
      Stubs start (names ++ [arg.name]) next ∧
        next.memory =
          Coff.fillAddress start.baseAddress config.memory arg.filledAddr
            arg.type
            (start.virtualAddressOffset +
              BitVec.ofNat 32 (6 * names.length))
            arg.srcVaddr := by
  obtain ⟨dll, isDll⟩ := Option.ne_none_iff_exists'.mp isKnown
  have isEntry := stubs.unseen arg.name isNew
  rw [isDll, Option.map_some] at isEntry
  obtain ⟨table, looked, same, others⟩ :=
    Coff.lookupDynamicSymbol_spec isEntry
  rw [if_pos rfl] at same
  have isNone : config.exported arg.name = 0 := by
    rw [stubs.exported]
    exact notExported
  refine
    ⟨_, Coff.coffResolve_of_new isExternal isNone looked,
      { baseAddress := stubs.baseAddress
        exported := stubs.exported
        pltOffset := ?_
        unseen := ?_
        seen := ?_ }, ?_⟩
  · dsimp only
    rw [stubs.pltOffset, List.length_append, List.length_singleton]
    have isNext :
        BitVec.ofNat 32 (6 * (names.length + 1)) =
          BitVec.ofNat 32 (6 * names.length) + 6 := by
      rw [Nat.mul_add, BitVec.ofNat_add]
      rfl
    rw [isNext, BitVec.add_assoc]
  · intro other absent
    rw [List.mem_append, List.mem_singleton, not_or] at absent
    exact (others other absent.2).trans (stubs.unseen other absent.1)
  · intro i other isThere
    rw [List.getElem?_append] at isThere
    split_ifs at isThere with isOld
    · have isDifferent : other ≠ arg.name := by
        rintro rfl
        exact isNew (List.mem_of_getElem? isThere)
      obtain ⟨otherDll, isOther⟩ := stubs.seen i other isThere
      exact ⟨otherDll, (others other isDifferent).trans isOther⟩
    · rw [List.getElem?_singleton] at isThere
      split_ifs at isThere with isLast
      have isIndex : i = names.length := by omega
      cases isThere
      refine ⟨dll, same.trans ?_⟩
      rw [stubs.pltOffset, isIndex]
  · dsimp only
    rw [← stubs.pltOffset, ← stubs.baseAddress]
    rfl

/-! ## Imports of some entries -/

/-- One more entry. -/
theorem Link.importsOf_concat
    (link : Link) (config : Coff.Config) (entries : List Entry)
    (entry : Entry) :
    link.importsOf config (entries ++ [entry]) =
      if link.Imports config entry ∧
          (link.argOf entry).name ∉ link.importsOf config entries then
        link.importsOf config entries ++ [(link.argOf entry).name]
      else
        link.importsOf config entries := by
  unfold importsOf
  rw [List.filter_append, List.map_append]
  by_cases imports : link.Imports config entry
  · have isOnly :
        [entry].filter (fun entry => decide (link.Imports config entry)) =
          [entry] := by
      simp [imports]
    rw [isOnly, List.map_singleton, Elf.eraseDups_concat]
    by_cases isSeen :
        (link.argOf entry).name ∈
          (entries.filter fun entry =>
              decide (link.Imports config entry)).map
            fun entry => (link.argOf entry).name
    · have isOld := List.mem_eraseDups.mpr isSeen
      rw [if_pos isSeen, if_neg fun isNew => isNew.2 isOld]
    · have isNew := fun isOld => isSeen (List.mem_eraseDups.mp isOld)
      rw [if_neg isSeen, if_pos ⟨imports, isNew⟩]
  · have isNone :
        [entry].filter (fun entry => decide (link.Imports config entry)) =
          [] := by
      simp [imports]
    rw [isNone, List.map_nil, List.append_nil,
      if_neg fun isNew => imports isNew.1]

/-- A function that is imported is one of a DLL. -/
theorem Link.dllOf_ne_none_of_mem
    {link : Link} {config : Coff.Config} {entries : List Entry}
    {name : CString} (isImported : name ∈ link.importsOf config entries) :
    config.dllOf name ≠ none := by
  obtain ⟨entry, isEntry, rfl⟩ :=
    List.mem_map.mp (List.mem_eraseDups.mp isImported)
  exact (of_decide_eq_true (List.mem_filter.mp isEntry).2).2.2

/-- More entries only add imports. -/
theorem Link.importsOf_prefix
    (link : Link) (config : Coff.Config) (first second : List Entry) :
    link.importsOf config first <+:
      link.importsOf config (first ++ second) := by
  unfold importsOf
  rw [List.filter_append, List.map_append, List.eraseDups_append]
  exact List.prefix_append _ _

/-- The stub of a function that some of the entries import. -/
theorem Link.stubOf_eq
    {link : Link} {first second : List Entry}
    (isSplit : link.entries = first ++ second) {config : Coff.Config}
    {name : CString} (isImported : name ∈ link.importsOf config first) :
    link.stubOf config name =
      some
        (config.virtualAddressOffset +
          BitVec.ofNat 32 (6 * (link.importsOf config first).idxOf name)) := by
  obtain ⟨more, isMore⟩ := link.importsOf_prefix config first second
  rw [← isSplit] at isMore
  unfold stubOf
  rw [← isMore, if_pos (List.mem_append_left more isImported),
    List.idxOf_append_of_mem isImported]

/-! ## The symbol's own section -/

/-- An entry is one of a section of its object that was read. -/
theorem Link.Laid.exists_object
    {mem : Memory} {state : State} {sec : Nat} {link : Link}
    (laid : Link.Laid mem state sec link) {entry : Entry}
    (isEntry : entry ∈ link.entries) :
    ∃ oc ∈ state.objects,
      oc.mapBase = entry.oc.mapBase ∧ oc.sections ≠ [] ∧
        oc.sections <+: entry.oc.sections := by
  obtain ⟨id, isFiled, isEntry⟩ := List.mem_flatMap.mp isEntry
  obtain ⟨oc, isOwner, isEntry⟩ := List.mem_flatMap.mp isEntry
  obtain ⟨i, inRange, rfl⟩ := List.mem_map.mp isEntry
  rw [Option.mem_toList] at isOwner
  have isObject := List.mem_of_find?_eq_some isOwner
  have isSection : id ∈ oc.sections := by
    simpa using List.find?_some isOwner
  have notAdded : id ≠ state.sections.length := by
    rintro rfl
    have isAdded :
        pointerAt link.state.sections state.sections.length = sec := by
      rw [pointerAt_eq_getD, laid.pointers, List.getD_append_right]
      · rw [List.length_map, Nat.sub_self]
        rfl
      · rw [List.length_map]
    rw [isAdded, laid.noRelocations] at inRange
    cases inRange
  rw [laid.objects] at isObject
  dsimp only
  rcases List.mem_append.mp isObject with isEarlier | isLast
  · exact
      ⟨oc, List.mem_append_left _ isEarlier, rfl,
        List.ne_nil_of_mem isSection, List.prefix_refl _⟩
  · rw [List.mem_singleton.mp isLast] at isSection ⊢
    refine
      ⟨state.current,
        List.mem_append_right _ (List.mem_singleton.mpr rfl), rfl, ?_,
        List.prefix_append _ _⟩
    rcases List.mem_append.mp isSection with isOld | isAdded
    · exact List.ne_nil_of_mem isOld
    · exact absurd (List.mem_singleton.mp isAdded) notAdded

/-- The section number of a defined symbol names a section of its object. -/
theorem Link.Laid.own_section
    {mem : Memory} {outfileName : CString} {state : State} {sec : Nat}
    {link : Link} (laid : Link.Laid mem state sec link)
    (linked : state.Linked mem outfileName) (headed : state.Headed mem)
    (files : state.FilesApart sec) {entry : Entry}
    (isEntry : entry ∈ link.entries) (defined : link.Defined entry) :
    ∃ id,
      entry.oc.sections[((link.argOf entry).shndx - 1).toNat]? = some id ∧
        (link.argOf entry).sections[((link.argOf entry).shndx - 1).toNat]? =
          some
            (BitVec.ofNat 32 (addressAt link.state.sections id)) := by
  obtain ⟨oc, isObject, isBase, hasSections, isPrefix⟩ :=
    laid.exists_object isEntry
  obtain ⟨isPositive, inTable⟩ := defined
  have sameBytes :
      ∀ width offset, offset + width ≤ sizeofFileHeader →
        loadWord width link.mem.bytes (entry.oc.mapBase + offset) =
          loadWord width mem.bytes (entry.oc.mapBase + offset) := by
    intro width offset fits
    apply ByteBuffer.loadWord_congr
    intro q fromStart toEnd
    apply laid.bytes
    intro p isHeader
    have isApart := files oc isObject p isHeader
    rw [isBase] at isApart
    omega
  have sameCount :
      link.mem.numberOfSections entry.oc.mapBase =
        mem.numberOfSections entry.oc.mapBase :=
    sameBytes 2 2 (by decide)
  have sameTable :
      link.mem.sectionAddresses entry.oc.mapBase =
        mem.sectionAddresses entry.oc.mapBase := by
    unfold Memory.sectionAddresses Memory.sectionTable
    rw [sameCount, sameBytes 2 16 (by decide)]
  have areHeaders :
      oc.sections.map (pointerAt state.sections) =
        mem.sectionAddresses oc.mapBase :=
    headed oc.outline (List.mem_map_of_mem isObject) hasSections
  have sameLength := congrArg List.length areHeaders
  rw [List.length_map, Memory.sectionAddresses, CountedLoop.length_visited,
    isBase, ← sameCount] at sameLength
  have inRange :
      ((link.argOf entry).shndx - 1).toNat < oc.sections.length := by
    omega
  generalize ((link.argOf entry).shndx - 1).toNat = k at inRange ⊢
  have isId := List.getElem?_eq_getElem inRange
  have isOld := linked.section_lt isObject (List.mem_of_getElem? isId)
  refine ⟨oc.sections[k], ?_, ?_⟩
  · obtain ⟨more, isMore⟩ := isPrefix
    rw [← isMore, List.getElem?_append_left inRange]
    exact isId
  · have isAddress :
        (link.argOf entry).sections =
          (link.mem.sectionAddresses entry.oc.mapBase).map fun isec =>
            BitVec.ofNat 32 (link.mem.virtualAddress isec) :=
      rfl
    rw [isAddress, List.getElem?_map, sameTable, ← isBase, ← areHeaders,
      List.getElem?_map, isId, Option.map_some, Option.map_some,
      laid.headers _ isOld, laid.addresses _ isOld]

/-! ## One entry -/

section

variable
  {link : Link} {start config : Coff.Config} {done rest : List Entry}
  {entry : Entry}

/-- An entry that imports nothing adds no import. -/
theorem Link.importsOf_of_not_imports
    (notImported : ¬ link.Imports start entry) :
    link.importsOf start (done ++ [entry]) = link.importsOf start done := by
  rw [link.importsOf_concat, if_neg fun isNew => notImported isNew.1]

/-- A static symbol that is defined in its object. -/
theorem Stubs.relocEntry_static
    (stubs : Stubs start (link.importsOf start done) config)
    (carry :
      (link.argOf entry).type = 1 →
        ∀ s ∈ link.symbolAddress start entry,
          0 ≤ start.baseAddress.toInt + s.toNat ∧
            start.baseAddress.toInt + s.toNat < 2 ^ 32)
    (isStatic : (link.argOf entry).storageClass = 3)
    (isDefined : link.Defined entry) {id : Nat}
    (isOwn :
      entry.oc.sections[((link.argOf entry).shndx - 1).toNat]? = some id)
    (isHeader :
      (link.argOf entry).sections[((link.argOf entry).shndx - 1).toNat]? =
        some (BitVec.ofNat 32 (addressAt link.state.sections id))) :
    ∃ next ∈ link.relocEntry config entry,
      Stubs start (link.importsOf start (done ++ [entry])) next ∧
        link.AppliesResolvable start entry config.memory next.memory := by
  have notImported : ¬ link.Imports start entry := by
    rintro ⟨isExternal, _⟩
    exact absurd (isStatic.symm.trans isExternal) (by decide)
  have isAddress :
      link.symbolAddress start entry =
        some
          (BitVec.ofNat 32 (addressAt link.state.sections id) +
            (link.argOf entry).dstVaddr) := by
    unfold Link.symbolAddress
    dsimp only
    rw [if_pos ⟨isStatic, isDefined⟩, isOwn]
    rfl
  have resolves :
      link.relocEntry config entry =
        some
          (config.fill (link.argOf entry)
            (BitVec.ofNat 32 (addressAt link.state.sections id) +
              (link.argOf entry).dstVaddr)) := by
    unfold Link.relocEntry Coff.coffResolve
    rw [if_pos isStatic, if_pos isDefined.1, isHeader, Option.map_some,
      BitVec.add_comm]
  refine ⟨_, resolves, ?_, ?_⟩
  · rw [Link.importsOf_of_not_imports notImported]
    exact stubs.fill _ _
  · have isResolvable : link.Resolvable start entry :=
      Or.inl ⟨isStatic, isDefined⟩
    rw [Link.AppliesResolvable, if_pos isResolvable]
    refine ⟨_, isAddress, ?_⟩
    have applied :=
      applied_fillAddress (fun isType => carry isType _ isAddress)
        config.memory
    unfold Coff.Config.fill
    rw [stubs.baseAddress]
    exact applied

/-- An external symbol for which there is an export. -/
theorem Stubs.relocEntry_exported
    (stubs : Stubs start (link.importsOf start done) config)
    (carry :
      (link.argOf entry).type = 1 →
        ∀ s ∈ link.symbolAddress start entry,
          0 ≤ start.baseAddress.toInt + s.toNat ∧
            start.baseAddress.toInt + s.toNat < 2 ^ 32)
    (isExternal : (link.argOf entry).storageClass = 2)
    (isExported : start.exported (link.argOf entry).name ≠ 0) :
    ∃ next ∈ link.relocEntry config entry,
      Stubs start (link.importsOf start (done ++ [entry])) next ∧
        link.AppliesResolvable start entry config.memory next.memory := by
  have notImported : ¬ link.Imports start entry :=
    fun imports => isExported imports.2.1
  have notStatic : (link.argOf entry).storageClass ≠ 3 := by
    rw [isExternal]
    decide
  have isAddress :
      link.symbolAddress start entry =
        some (start.exported (link.argOf entry).name) := by
    unfold Link.symbolAddress
    dsimp only
    rw [if_neg fun isDefined => notStatic isDefined.1, if_pos isExported]
  have resolves :
      link.relocEntry config entry =
        some
          (config.fill (link.argOf entry)
            (start.exported (link.argOf entry).name)) := by
    unfold Link.relocEntry Coff.coffResolve
    rw [if_neg notStatic, if_neg (not_not.mpr isExternal)]
    dsimp only
    rw [stubs.exported, if_pos isExported]
  refine ⟨_, resolves, ?_, ?_⟩
  · rw [Link.importsOf_of_not_imports notImported]
    exact stubs.fill _ _
  · have isResolvable : link.Resolvable start entry :=
      Or.inr ⟨isExternal, Or.inl isExported⟩
    rw [Link.AppliesResolvable, if_pos isResolvable]
    refine ⟨_, isAddress, ?_⟩
    have applied :=
      applied_fillAddress (fun isType => carry isType _ isAddress)
        config.memory
    unfold Coff.Config.fill
    rw [stubs.baseAddress]
    exact applied

/-- A symbol that is neither static nor found changes nothing. -/
theorem Stubs.relocEntry_passed
    (stubs : Stubs start (link.importsOf start done) config)
    (notStatic : (link.argOf entry).storageClass ≠ 3)
    (notResolvable : ¬ link.Resolvable start entry) :
    ∃ next ∈ link.relocEntry config entry,
      Stubs start (link.importsOf start (done ++ [entry])) next ∧
        link.AppliesResolvable start entry config.memory next.memory := by
  have notImported : ¬ link.Imports start entry :=
    fun ⟨isExternal, _, isKnown⟩ =>
      notResolvable (Or.inr ⟨isExternal, Or.inr isKnown⟩)
  have resolves : link.relocEntry config entry = some config := by
    unfold Link.relocEntry Coff.coffResolve
    rw [if_neg notStatic]
    by_cases isExternal : (link.argOf entry).storageClass = 2
    · have notExported :
          ¬ start.exported (link.argOf entry).name ≠ 0 := fun isExported =>
        notResolvable (Or.inr ⟨isExternal, Or.inl isExported⟩)
      have noDll : start.dllOf (link.argOf entry).name = none := by
        by_contra isKnown
        exact notResolvable (Or.inr ⟨isExternal, Or.inr isKnown⟩)
      have noEntry : config.entryOf (link.argOf entry).name = none := by
        rw [stubs.unseen, noDll]
        · rfl
        · exact fun isSeen => Link.dllOf_ne_none_of_mem isSeen noDll
      rw [if_neg (not_not.mpr isExternal)]
      dsimp only
      rw [stubs.exported, if_neg notExported,
        lookupDynamicSymbol_eq_none noEntry]
    · rw [if_pos isExternal]
  refine ⟨_, resolves, ?_, ?_⟩
  · rw [Link.importsOf_of_not_imports notImported]
    exact stubs
  · rw [Link.AppliesResolvable, if_neg notResolvable]

/-- An external symbol that a DLL has. -/
theorem Stubs.relocEntry_imported
    (stubs : Stubs start (link.importsOf start done) config)
    (isSplit : link.entries = done ++ entry :: rest)
    (relocatable : link.Relocatable start)
    (imports : link.Imports start entry) :
    ∃ next ∈ link.relocEntry config entry,
      Stubs start (link.importsOf start (done ++ [entry])) next ∧
        link.AppliesResolvable start entry config.memory next.memory := by
  obtain ⟨isExternal, notExported, isKnown⟩ := imports
  have isEntry : entry ∈ link.entries := by
    rw [isSplit]
    exact List.mem_append_right _ List.mem_cons_self
  have notStatic : (link.argOf entry).storageClass ≠ 3 := by
    rw [isExternal]
    decide
  have isStub :
      link.symbolAddress start entry =
        link.stubOf start (link.argOf entry).name := by
    unfold Link.symbolAddress
    dsimp only
    rw [if_neg fun isDefined => notStatic isDefined.1,
      if_neg (not_not.mpr notExported)]
  have isNext : link.entries = (done ++ [entry]) ++ rest := by
    rw [isSplit, List.append_assoc, List.singleton_append]
  have applies {next : Coff.Config} {k : Nat}
      (isImported :
        (link.argOf entry).name ∈ link.importsOf start (done ++ [entry]))
      (isIndex :
        (link.importsOf start (done ++ [entry])).idxOf
            (link.argOf entry).name =
          k)
      (isFilled :
        next.memory =
          Coff.fillAddress start.baseAddress config.memory
            (link.argOf entry).filledAddr (link.argOf entry).type
            (start.virtualAddressOffset + BitVec.ofNat 32 (6 * k))
            (link.argOf entry).srcVaddr) :
      link.AppliesResolvable start entry config.memory next.memory := by
    have isAddress := isStub.trans (Link.stubOf_eq isNext isImported)
    rw [isIndex] at isAddress
    have isResolvable : link.Resolvable start entry :=
      Or.inr ⟨isExternal, Or.inr isKnown⟩
    rw [Link.AppliesResolvable, if_pos isResolvable, isFilled]
    exact
      ⟨_, isAddress,
        applied_fillAddress
          (fun isType => relocatable.carry entry isEntry isType _ isAddress)
          config.memory⟩
  have concat := link.importsOf_concat start done entry
  by_cases isSeen :
      (link.argOf entry).name ∈ link.importsOf start done
  · rw [if_neg fun isNew => isNew.2 isSeen] at concat
    have isFew :
        (link.importsOf start done).length ≤
          (link.importsOf start link.entries).length := by
      rw [isSplit]
      exact (link.importsOf_prefix start done _).length_le
    have isIndex := List.idxOf_lt_length_iff.mpr isSeen
    obtain ⟨next, resolves, nextStubs, isFilled⟩ :=
      stubs.resolve_seen relocatable.mapped
        (by have := relocatable.stubs; omega) isExternal notExported
        (List.getElem?_eq_some_iff.mpr ⟨isIndex, List.getElem_idxOf isIndex⟩)
    refine ⟨next, resolves, by rwa [concat], ?_⟩
    exact applies (by rwa [concat]) (by rw [concat]) isFilled
  · rw [if_pos ⟨⟨isExternal, notExported, isKnown⟩, isSeen⟩] at concat
    obtain ⟨next, resolves, nextStubs, isFilled⟩ :=
      stubs.resolve_unseen isExternal notExported isKnown isSeen
    refine ⟨next, resolves, by rwa [concat], ?_⟩
    refine applies ?_ ?_ isFilled
    · rw [concat]
      exact List.mem_append_right _ (List.mem_singleton.mpr rfl)
    · rw [concat, List.idxOf_append_of_notMem isSeen, List.idxOf_cons_self,
        Nat.add_zero]

end

/-! ## The whole pass -/

/-- Every entry is applied, or changes nothing when it cannot be resolved. -/
theorem Stubs.relocEntry
    {link : Link} {start config : Coff.Config} {done rest : List Entry}
    {entry : Entry}
    (stubs : Stubs start (link.importsOf start done) config)
    (isSplit : link.entries = done ++ entry :: rest)
    (relocatable : link.Relocatable start)
    (own :
      link.Defined entry →
        ∃ id,
          entry.oc.sections[((link.argOf entry).shndx - 1).toNat]? =
              some id ∧
            (link.argOf entry).sections[
                ((link.argOf entry).shndx - 1).toNat]? =
              some (BitVec.ofNat 32 (addressAt link.state.sections id))) :
    ∃ next ∈ link.relocEntry config entry,
      Stubs start (link.importsOf start (done ++ [entry])) next ∧
        link.AppliesResolvable start entry config.memory next.memory := by
  have isEntry : entry ∈ link.entries := by
    rw [isSplit]
    exact List.mem_append_right _ List.mem_cons_self
  have carry := relocatable.carry entry isEntry
  by_cases isStatic : (link.argOf entry).storageClass = 3
  · have isDefined := relocatable.defined entry isEntry isStatic
    obtain ⟨id, isOwn, isHeader⟩ := own isDefined
    exact stubs.relocEntry_static carry isStatic isDefined isOwn isHeader
  · by_cases isResolvable : link.Resolvable start entry
    · obtain ⟨isClass, _⟩ | ⟨isExternal, isFound⟩ := isResolvable
      · exact absurd isClass isStatic
      · by_cases isExported : start.exported (link.argOf entry).name ≠ 0
        · exact stubs.relocEntry_exported carry isExternal isExported
        · exact
            stubs.relocEntry_imported isSplit relocatable
              ⟨isExternal, not_not.mp isExported,
                isFound.resolve_left isExported⟩
    · exact stubs.relocEntry_passed isStatic isResolvable

/-- All entries from some point on. -/
theorem Stubs.foldlM_relocEntry
    {link : Link} {start : Coff.Config}
    (relocatable : link.Relocatable start)
    (own :
      ∀ entry ∈ link.entries,
        link.Defined entry →
          ∃ id,
            entry.oc.sections[((link.argOf entry).shndx - 1).toNat]? =
                some id ∧
              (link.argOf entry).sections[
                  ((link.argOf entry).shndx - 1).toNat]? =
                some
                  (BitVec.ofNat 32 (addressAt link.state.sections id)))
    {done rest : List Entry} (isSplit : link.entries = done ++ rest)
    {config : Coff.Config}
    (stubs : Stubs start (link.importsOf start done) config) :
    ∃ final ∈ rest.foldlM link.relocEntry config,
      Link.Chained (link.AppliesResolvable start) rest config.memory
        final.memory := by
  induction rest generalizing done config with
  | nil => exact ⟨config, rfl, rfl⟩
  | cons entry rest inductionHypothesis =>
      have isEntry : entry ∈ link.entries := by
        rw [isSplit]
        exact List.mem_append_right _ List.mem_cons_self
      obtain ⟨next, resolves, nextStubs, applies⟩ :=
        stubs.relocEntry isSplit relocatable (own entry isEntry)
      obtain ⟨final, run, chained⟩ :=
        inductionHypothesis
          (by rw [isSplit, List.append_assoc, List.singleton_append])
          nextStubs
      refine ⟨final, ?_, next.memory, applies, chained⟩
      rw [Option.mem_def] at resolves
      rw [List.foldlM_cons, resolves]
      exact run

/-- Every section of the containers was read with an object. -/
theorem Link.Laid.isSome_objectOf
    {mem : Memory} {outfileName : CString} {state : State} {sec : Nat}
    {link : Link} (laid : Link.Laid mem state sec link)
    (linked : state.Linked mem outfileName) :
    ∀ id ∈ link.state.filed, (link.state.objectOf id).isSome := by
  intro id isFiled
  have isOwned :
      link.state.objects.flatMap ObjectChain.sections =
        List.range state.sections.length ++ [state.sections.length] := by
    rw [← linked.owned, laid.objects]
    unfold State.objects
    simp only [List.flatMap_append, List.flatMap_singleton,
      List.append_assoc]
  have isPresent :
      id ∈ link.state.objects.flatMap ObjectChain.sections := by
    rw [isOwned]
    rw [laid.filed] at isFiled
    rcases List.mem_append.mp isFiled with isOld | isAdded
    · exact
        List.mem_append_left _
          (List.mem_range.mpr (linked.mem_filed_iff.mp isOld))
    · exact List.mem_append_right _ isAdded
  obtain ⟨oc, isObject, isSection⟩ := List.mem_flatMap.mp isPresent
  unfold State.objectOf
  rw [List.find?_isSome]
  exact ⟨oc, isObject, decide_eq_true isSection⟩

/--
For every list of objects that is read, laid out and exported, the pass over all
sections comes to an end, applies every entry once whose symbol is a static one of
its object or an external one that is exported or imported, with the address of
that symbol, and changes nothing for any other entry.
-/
theorem doRelocs_applies
    {mem : Memory} {outfileName : CString} {bases : List Nat}
    {state : State} {sec : Nat} {exported : Exported}
    (isRead : readObjects mem outfileName {} bases = some state)
    (separate : state.Separate sec) (files : state.FilesApart sec)
    (distinct : (state.sections.map SectionChain.p).Nodup)
    (isExported : exportAll mem outfileName sec state = some exported)
    (baseAddress : U32) (dllHashTable : List (List Coff.DllSymbol))
    (lookup : CString → U32)
    (noEver : ∀ chain ∈ dllHashTable, ∀ symbol ∈ chain, symbol.ever = 0)
    (relocatable :
      exported.link.Relocatable
        (exported.link.config baseAddress dllHashTable lookup)) :
    ∃ final ∈
        exported.link.doRelocs
          (exported.link.config baseAddress dllHashTable lookup),
      Link.Chained
        (exported.link.AppliesResolvable
          (exported.link.config baseAddress dllHashTable lookup))
        exported.link.entries exported.link.mem.bytes final.memory := by
  have linked := (State.linked_start mem outfileName).readObjects isRead
  have headed :=
    (State.headed_start mem).readObjects
      (State.linked_start mem outfileName) isRead
  have laid := linked.laid_of_exportAll separate distinct isExported
  have isPass :=
    Link.doRelocs_eq
      (exported.link.config baseAddress dllHashTable lookup)
      (laid.isSome_objectOf linked) relocatable.fields rfl
  rw [isPass]
  have stubs :
      Stubs (exported.link.config baseAddress dllHashTable lookup)
        (exported.link.importsOf
          (exported.link.config baseAddress dllHashTable lookup) [])
        (exported.link.config baseAddress dllHashTable lookup) :=
    stubs_nil rfl noEver
  exact
    Stubs.foldlM_relocEntry relocatable
      (fun entry isEntry defined =>
        laid.own_section linked headed files isEntry defined)
      (List.nil_append _).symm stubs

/-- What `sysv_lookup_for_coff` answers, zero when it does not come back. -/
def Exported.lookup (exported : Exported) (name : CString) : U32 :=
  ((exported.hashTable.bind fun hashtab =>
    exported.directory.bind fun directory =>
      directory.sysvLookupForCoff hashtab name).map (BitVec.ofNat 32)).getD 0

/-- An object with 16 bytes of `.text`, one relocation and symbol records. -/
def relocatedObject (type : Nat) (symbols : List (List UInt8)) :
    List UInt8 :=
  ByteBuffer.littleEndian 2 0x8664 ++
    ByteBuffer.littleEndian 2 1 ++
    ByteBuffer.littleEndian 4 0 ++
    ByteBuffer.littleEndian 4 86 ++
    ByteBuffer.littleEndian 4 symbols.length ++
    ByteBuffer.littleEndian 4 0 ++
    (".text".toList.map fun c => UInt8.ofNat c.toNat).rightpad 8 0 ++
    ByteBuffer.littleEndian 8 0 ++
    ByteBuffer.littleEndian 4 16 ++
    ByteBuffer.littleEndian 4 60 ++
    ByteBuffer.littleEndian 4 76 ++
    ByteBuffer.littleEndian 4 0 ++
    ByteBuffer.littleEndian 2 1 ++
    ByteBuffer.littleEndian 6 0 ++
    List.replicate 16 0 ++
    ByteBuffer.littleEndian 4 4 ++
    ByteBuffer.littleEndian 4 0 ++
    ByteBuffer.littleEndian 2 type ++
    symbols.flatten ++
    ByteBuffer.littleEndian 4 4

/-- The object with a relocation for its first record, and one with `g`. -/
def referringMemory (type : Nat) (first second : List UInt8) : Memory :=
  .ofBytes 0x1000
    (relocatedObject type [first, second, symbolRecord "f" 0 1 2 0] ++
      objectFile [(".text", 16)] [symbolRecord "g" 8 1 2 0])

/-- The two objects are linked up to their exports. -/
def referringLink (type : Nat) (first second : List UInt8) : Exported :=
  let mem := referringMemory type first second
  (exportAll mem (.ofString "a.dll") 0x9000
    (readOf mem [0x1000, 0x1090])).getD
    { link :=
        { mem := mem
          state := {} }
      directory := none }

/-- The configuration for the pass, with an empty dictionary of functions. -/
def referringConfig (type : Nat) (first second : List UInt8) : Coff.Config :=
  (referringLink type first second).link.config 0x40000
    (List.replicate 10 []) (referringLink type first second).lookup

/-- The two objects can be linked, and nothing overlaps. -/
def ReferringFits (type : Nat) (first second : List UInt8) : Prop :=
  let mem := referringMemory type first second
  (readObjects mem (.ofString "a.dll") {} [0x1000, 0x1090]).isSome ∧
    (readOf mem [0x1000, 0x1090]).Separate 0x9000 ∧
    (readOf mem [0x1000, 0x1090]).FilesApart 0x9000 ∧
    ((readOf mem [0x1000, 0x1090]).sections.map SectionChain.p).Nodup ∧
    (exportAll mem (.ofString "a.dll") 0x9000
      (readOf mem [0x1000, 0x1090])).isSome ∧
    (referringLink type first second).link.FieldsApart

instance (type : Nat) (first second : List UInt8) :
    Decidable (ReferringFits type first second) :=
  inferInstanceAs (Decidable (_ ∧ _))

/-- The pass over the two objects comes to an end as it should. -/
def ReferringRelocates
    (happens : Link → Coff.Config → Entry → Bytes → Bytes → Prop)
    (type : Nat) (first second : List UInt8) : Prop :=
  let link := (referringLink type first second).link
  let config := referringConfig type first second
  ∃ final ∈ link.doRelocs config,
    Link.Chained (happens link config) link.entries link.mem.bytes
      final.memory

/-- A distance to a static symbol is applied. -/
theorem doRelocs_applies_static :
    ReferringRelocates Link.AppliesResolvable 4 (symbolRecord "s" 8 1 3 0)
      (symbolRecord "t" 0 1 3 0) := by
  have fits :
      ReferringFits 4 (symbolRecord "s" 8 1 3 0)
        (symbolRecord "t" 0 1 3 0) := by
    decide +kernel
  obtain ⟨isRead, separate, files, distinct, isExported, fields⟩ := fits
  exact
    doRelocs_applies (readObjects_eq_readOf isRead) separate files distinct
      ((Option.some_get isExported).symm.trans
        (congrArg some (Option.get_eq_getD _)))
      0x40000 (List.replicate 10 [])
      (referringLink 4 (symbolRecord "s" 8 1 3 0)
        (symbolRecord "t" 0 1 3 0)).lookup
      (by decide)
      { fields := fields
        defined := by decide +kernel
        carry := by decide +kernel
        mapped := by decide +kernel
        stubs := by decide +kernel }

/-- The auxiliary record of a weak external symbol with a default. -/
def weakRecord (tagIndex : Nat) : List UInt8 :=
  ByteBuffer.littleEndian 4 tagIndex ++ ByteBuffer.littleEndian 14 3

/-- The two objects with a weak reference to `g`. -/
def weakLink : Exported :=
  referringLink 3 (symbolRecord "g" 0 0 105 1) (weakRecord 2)

/-- The configuration for them. -/
def weakConfig : Coff.Config :=
  referringConfig 3 (symbolRecord "g" 0 0 105 1) (weakRecord 2)

/-- A reference to a weak external symbol is passed over. -/
theorem not_doRelocs_applies_weak :
    ReferringFits 3 (symbolRecord "g" 0 0 105 1) (weakRecord 2) ∧
      weakLink.lookup (.ofString "g") ≠ 0 ∧
        ¬ ReferringRelocates Link.AppliesAll 3
            (symbolRecord "g" 0 0 105 1) (weakRecord 2) := by
  obtain ⟨fits, isNamed, isOne, isReference, isZero, isKept⟩ :
      ReferringFits 3 (symbolRecord "g" 0 0 105 1) (weakRecord 2) ∧
        weakLink.lookup (.ofString "g") ≠ 0 ∧
          weakLink.link.entries.length = 1 ∧
            (∀ entry ∈ weakLink.link.entries,
              (weakLink.link.argOf entry).type = 3 ∧
                (weakLink.link.argOf entry).filledAddr = 0x1040 ∧
                  weakLink.link.symbolAddress weakConfig entry =
                    some 0x1018) ∧
              loadWord 4 weakLink.link.mem.bytes 0x1040 = 0 ∧
                ∀ final ∈ weakLink.link.doRelocs weakConfig,
                  loadWord 4 final.memory 0x1040 = 0 := by
    decide +kernel
  refine ⟨fits, isNamed, ?_⟩
  rintro ⟨final, run, chained⟩
  obtain ⟨entry, isOnly⟩ := List.length_eq_one_iff.mp isOne
  have isEntry : entry ∈ weakLink.link.entries := by
    rw [isOnly]
    exact List.mem_singleton.mpr rfl
  obtain ⟨isType, isPlace, isG⟩ := isReference entry isEntry
  have happens :
      Link.Chained (weakLink.link.AppliesAll weakConfig) [entry]
        weakLink.link.mem.bytes final.memory := by
    rw [← isOnly]
    exact chained
  obtain ⟨middle, applies, isLast⟩ := happens
  have isListed :
      (weakLink.link.argOf entry).type ∈ [1, 2, 3, 4] := by
    rw [isType]
    decide
  obtain ⟨s, isAddress, applied⟩ := applies isListed
  have isField := applied.imageRelative isType
  have isStill := isKept final run
  rw [isLast] at isStill
  rw [isPlace, isStill, isZero] at isField
  cases isG.symm.trans isAddress
  exact absurd isField (by decide)

end BinTools.CoffObject
