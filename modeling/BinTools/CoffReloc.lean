import BinTools.CoffLayout

namespace BinTools.CoffObject

open ByteBuffer (Bytes loadWord)

/-!
# The relocation pass over COFF objects

Container by container and section by section, `__z__link__coff_do_reloc` reads
the relocation entries where the objects are mapped and resolves them one after
the other.  As long as no field that is filled overlaps what the pass reads, this
comes down to one list of entries.
-/

/-- `sizeof(CoffReloc)` -/
def sizeofReloc : Nat := 10

/-- A `CoffReloc`. -/
structure CoffReloc where
  virtualAddress : Nat
  symbolTableIndex : Nat
  type : Nat
  deriving DecidableEq, Repr

namespace Memory

variable (mem : Memory)

/-- `VirtualAddress` of the section header at an address. -/
def virtualAddress (isec : Nat) : Nat :=
  loadWord 4 mem.bytes (isec + 12)

/-- `PointerToRawData` -/
def pointerToRawData (isec : Nat) : Nat :=
  loadWord 4 mem.bytes (isec + 20)

/-- `PointerToRelocations` -/
def pointerToRelocations (isec : Nat) : Nat :=
  loadWord 4 mem.bytes (isec + 24)

/-- `NumberOfRelocations` -/
def numberOfRelocations (isec : Nat) : Nat :=
  loadWord 2 mem.bytes (isec + 32)

/-- The relocation entry at an address. -/
def coffReloc (reloc : Nat) : CoffReloc where
  virtualAddress := loadWord 4 mem.bytes reloc
  symbolTableIndex := loadWord 4 mem.bytes (reloc + 4)
  type := loadWord 2 mem.bytes (reloc + 8)

/-- Where the name of a symbol stands. -/
def nameAddress (is strTableP : Nat) : Nat :=
  if (mem.imageSymbol is).short = 0 then
    u64 (strTableP + (mem.imageSymbol is).long)
  else
    is

end Memory

/-- `schain->obj`: the object a section was read with. -/
def State.objectOf (state : State) (id : Nat) : Option ObjectChain :=
  state.objects.find? fun oc => decide (id ∈ oc.sections)

/-- A relocation entry: its position in the table of a section of an object. -/
structure Entry where
  oc : ObjectChain
  id : Nat
  i : Nat
  deriving DecidableEq

namespace Entry

variable (mem : Memory) (state : State) (entry : Entry)

/-- The section header. -/
def ish : Nat :=
  pointerAt state.sections entry.id

/-- Where the entry stands. -/
def reloc : Nat :=
  u64
    (entry.oc.mapBase + mem.pointerToRelocations (entry.ish state) +
      entry.i * sizeofReloc)

/-- Where the record of the symbol of an entry stands. -/
def is1 (reloc : Nat) : Nat :=
  u64
    (entry.oc.symbolTableP +
      (mem.coffReloc reloc).symbolTableIndex * sizeofSymbol)

/-- What `__z__link__coff_do_reloc` fills in for the entry at a place. -/
def callbackArg (place : Nat) : Coff.CallbackArgIn :=
  let reloc := mem.coffReloc place
  let is1 := entry.is1 mem place
  { srcVaddr :=
      BitVec.ofNat 32
        (addressAt state.sections entry.id + reloc.virtualAddress)
    dstVaddr := BitVec.ofNat 32 (mem.imageSymbol is1).value
    filledAddr :=
      u64
        (entry.oc.mapBase + mem.pointerToRawData (entry.ish state) +
          reloc.virtualAddress)
    name := mem.getName is1 entry.oc.strTableP
    type := reloc.type
    shndx := (mem.imageSymbol is1).sectionNumber
    storageClass := (mem.imageSymbol is1).storageClass
    sections :=
      (mem.sectionAddresses entry.oc.mapBase).map fun isec =>
        BitVec.ofNat 32 (mem.virtualAddress isec) }

/-- The ranges that are read for the entry, with their sizes. -/
def reads : List (Nat × Nat) :=
  (entry.ish state, sizeofSectionHeader) ::
    (entry.reloc mem state, sizeofReloc) ::
    (entry.is1 mem (entry.reloc mem state), sizeofSymbol) ::
    (mem.nameAddress (entry.is1 mem (entry.reloc mem state))
        entry.oc.strTableP,
      (entry.callbackArg mem state (entry.reloc mem state)).name.length +
        1) ::
    (entry.oc.mapBase, sizeofFileHeader) ::
    (mem.sectionAddresses entry.oc.mapBase).map fun isec =>
      (isec, sizeofSectionHeader)

end Entry

namespace Link

variable (link : Link)

/-- The mapped objects with the fields filled so far. -/
def filled (config : Coff.Config) : Memory :=
  { link.mem with bytes := config.memory }

/--
The loop over the entries of a section from the start of their table; its
16-bit bound is read again in every round.
-/
def relocEntries (oc : ObjectChain) (id table : Nat) :
    Nat → Nat → Coff.Config → Option Coff.Config
  | 0, _, config => some config
  | fuel + 1, i, config =>
      if i < (link.filled config).numberOfRelocations
          (pointerAt link.state.sections id) then
        (Coff.coffResolve config
            (Entry.callbackArg (link.filled config) link.state
              { oc := oc
                id := id
                i := i }
              (u64 (table + i * sizeofReloc)))).bind
          (relocEntries oc id table fuel (i + 1))
      else
        some config

/-- The entries of one section. -/
def relocSection (config : Coff.Config) (id : Nat) : Option Coff.Config :=
  (link.state.objectOf id).bind fun oc =>
    link.relocEntries oc id
      (oc.mapBase +
        (link.filled config).pointerToRelocations
          (pointerAt link.state.sections id))
      (2 ^ 16) 0 config

/-- `__z__link__coff_do_reloc` -/
def coffDoReloc (config : Coff.Config) (sc : SectionContainer) :
    Option Coff.Config :=
  sc.chain.foldlM link.relocSection config

/-- `iterate_section_container(&__z__link__coff_do_reloc)` -/
def doRelocs (config : Coff.Config) : Option Coff.Config :=
  link.state.containers.foldlM link.coffDoReloc config

/-- The entries of a section. -/
def entriesOf (id : Nat) : List Entry :=
  (link.state.objectOf id).toList.flatMap fun oc =>
    (List.range
      (link.mem.numberOfRelocations
        (pointerAt link.state.sections id))).map fun i =>
      { oc := oc
        id := id
        i := i }

/-- All entries, in the order of the pass. -/
def entries : List Entry :=
  link.state.filed.flatMap link.entriesOf

/-- The entry's argument before any field is filled. -/
def argOf (entry : Entry) : Coff.CallbackArgIn :=
  entry.callbackArg link.mem link.state (entry.reloc link.mem link.state)

/-- What the pass reads. -/
def reads : List (Nat × Nat) :=
  (link.state.filed.map fun id =>
    (pointerAt link.state.sections id, sizeofSectionHeader)) ++
    link.entries.flatMap (Entry.reads link.mem link.state)

end Link

/-- The size of the field of a relocation, zero for types that are left alone. -/
def fieldWidth (type : Nat) : Nat :=
  if type = 1 then
    8
  else if type = 2 ∨ type = 3 ∨ type = 4 ∨ type = 0x14 then
    4
  else
    0

/-- The fields of the entries do not overlap what the pass reads. -/
def Link.FieldsApart (link : Link) : Prop :=
  ∀ entry ∈ link.entries,
    ∀ range ∈ link.reads,
      (link.argOf entry).filledAddr + fieldWidth (link.argOf entry).type ≤
          range.1 ∨
        range.1 + range.2 ≤ (link.argOf entry).filledAddr

instance (link : Link) : Decidable link.FieldsApart :=
  inferInstanceAs (Decidable (∀ entry ∈ _, _))

/-- The bytes that the pass reads are as they were. -/
def Link.Agrees (link : Link) (bytes : Bytes) : Prop :=
  ∀ range ∈ link.reads,
    ∀ q, range.1 ≤ q → q < range.1 + range.2 → bytes q = link.mem.bytes q

/-! ## Reading the entries -/

/-- A word of a range that is read. -/
theorem Link.Agrees.loadWord_eq
    {link : Link} {bytes : Bytes} (agrees : link.Agrees bytes)
    {start size : Nat} (isRead : (start, size) ∈ link.reads)
    {width offset : Nat} (fits : offset + width ≤ size) :
    loadWord width bytes (start + offset) =
      loadWord width link.mem.bytes (start + offset) :=
  ByteBuffer.loadWord_congr fun q fromStart toEnd =>
    agrees (start, size) isRead q (by dsimp only; omega)
      (by dsimp only; omega)

/-- The header of a section in a container is read. -/
theorem Link.mem_reads_of_mem_filed
    {link : Link} {id : Nat} (isFiled : id ∈ link.state.filed) :
    (pointerAt link.state.sections id, sizeofSectionHeader) ∈ link.reads :=
  List.mem_append_left _
    (List.mem_map_of_mem
      (f := fun id =>
        (pointerAt link.state.sections id, sizeofSectionHeader)) isFiled)

/-- What is read for an entry is read. -/
theorem Link.mem_reads_of_mem_entries
    {link : Link} {entry : Entry} (isEntry : entry ∈ link.entries)
    {range : Nat × Nat}
    (isRead : range ∈ entry.reads link.mem link.state) :
    range ∈ link.reads :=
  List.mem_append_right _ (List.mem_flatMap.mpr ⟨entry, isEntry, isRead⟩)

/-- The number of entries stays. -/
theorem Link.Agrees.numberOfRelocations_eq
    {link : Link} {config : Coff.Config}
    (agrees : link.Agrees config.memory) {id : Nat}
    (isFiled : id ∈ link.state.filed) :
    (link.filled config).numberOfRelocations
        (pointerAt link.state.sections id) =
      link.mem.numberOfRelocations (pointerAt link.state.sections id) :=
  agrees.loadWord_eq (Link.mem_reads_of_mem_filed isFiled) (by decide)

/-- The table of entries stays where it is. -/
theorem Link.Agrees.pointerToRelocations_eq
    {link : Link} {config : Coff.Config}
    (agrees : link.Agrees config.memory) {id : Nat}
    (isFiled : id ∈ link.state.filed) :
    (link.filled config).pointerToRelocations
        (pointerAt link.state.sections id) =
      link.mem.pointerToRelocations (pointerAt link.state.sections id) :=
  agrees.loadWord_eq (Link.mem_reads_of_mem_filed isFiled) (by decide)

/-- A record at a place where the bytes are the same. -/
theorem Memory.coffReloc_congr
    {first second : Memory} {reloc : Nat}
    (agree :
      ∀ width offset, offset + width ≤ sizeofReloc →
        loadWord width first.bytes (reloc + offset) =
          loadWord width second.bytes (reloc + offset)) :
    first.coffReloc reloc = second.coffReloc reloc := by
  have isFirst := agree 4 0 (by decide)
  rw [Nat.add_zero] at isFirst
  unfold Memory.coffReloc
  rw [isFirst, agree 4 4 (by decide), agree 2 8 (by decide)]

/-- The argument of an entry stays. -/
theorem Link.Agrees.callbackArg_eq
    {link : Link} {config : Coff.Config}
    (agrees : link.Agrees config.memory) {entry : Entry}
    (isEntry : entry ∈ link.entries) :
    entry.callbackArg (link.filled config) link.state
        (entry.reloc link.mem link.state) =
      link.argOf entry := by
  have word :
      ∀ {start size}, (start, size) ∈ entry.reads link.mem link.state →
        ∀ width offset, offset + width ≤ size →
          loadWord width (link.filled config).bytes (start + offset) =
            loadWord width link.mem.bytes (start + offset) :=
    fun isRead _ _ fits =>
      agrees.loadWord_eq (Link.mem_reads_of_mem_entries isEntry isRead) fits
  have isHeader := word (List.mem_cons_self)
  have sameRecord :
      (link.filled config).coffReloc (entry.reloc link.mem link.state) =
        link.mem.coffReloc (entry.reloc link.mem link.state) :=
    Memory.coffReloc_congr
      (word (List.mem_cons_of_mem _ List.mem_cons_self))
  have sameIs1 :
      entry.is1 (link.filled config) (entry.reloc link.mem link.state) =
        entry.is1 link.mem (entry.reloc link.mem link.state) := by
    unfold Entry.is1
    rw [sameRecord]
  have isSymbol :=
    word
      (List.mem_cons_of_mem _ (List.mem_cons_of_mem _ List.mem_cons_self))
  have sameSymbol :
      (link.filled config).imageSymbol
          (entry.is1 link.mem (entry.reloc link.mem link.state)) =
        link.mem.imageSymbol
          (entry.is1 link.mem (entry.reloc link.mem link.state)) := by
    have isFirst := isSymbol 4 0 (by decide)
    rw [Nat.add_zero] at isFirst
    unfold Memory.imageSymbol
    rw [isFirst, isSymbol 4 4 (by decide), isSymbol 4 8 (by decide),
      isSymbol 2 12 (by decide), isSymbol 1 16 (by decide),
      isSymbol 1 17 (by decide)]
  have inFile {range : Nat × Nat}
      (isRead :
        range ∈ (entry.oc.mapBase, sizeofFileHeader) ::
          (link.mem.sectionAddresses entry.oc.mapBase).map fun isec =>
            (isec, sizeofSectionHeader)) :
      range ∈ entry.reads link.mem link.state :=
    List.mem_cons_of_mem _
      (List.mem_cons_of_mem _
        (List.mem_cons_of_mem _ (List.mem_cons_of_mem _ isRead)))
  have isFile := word (inFile List.mem_cons_self)
  have sameTable :
      (link.filled config).sectionAddresses entry.oc.mapBase =
        link.mem.sectionAddresses entry.oc.mapBase := by
    unfold Memory.sectionAddresses Memory.sectionTable Memory.numberOfSections
    rw [isFile 2 2 (by decide), isFile 2 16 (by decide)]
  have sameAddresses :
      ((link.filled config).sectionAddresses entry.oc.mapBase).map
          (fun isec =>
            BitVec.ofNat 32 ((link.filled config).virtualAddress isec)) =
        (link.mem.sectionAddresses entry.oc.mapBase).map fun isec =>
          BitVec.ofNat 32 (link.mem.virtualAddress isec) := by
    rw [sameTable]
    apply List.map_congr_left
    intro isec isSection
    have isOther :=
      word
        (inFile
          (List.mem_cons_of_mem _
            (List.mem_map_of_mem
              (f := fun isec => (isec, sizeofSectionHeader)) isSection)))
        4 12 (by decide)
    unfold Memory.virtualAddress
    rw [isOther]
  have sameName :
      (link.filled config).getName
          (entry.is1 link.mem (entry.reloc link.mem link.state))
          entry.oc.strTableP =
        link.mem.getName
          (entry.is1 link.mem (entry.reloc link.mem link.state))
          entry.oc.strTableP := by
    unfold Memory.getName
    rw [sameSymbol]
    rfl
  unfold Link.argOf Entry.callbackArg Memory.pointerToRawData
  dsimp only
  rw [sameRecord, sameIs1, sameSymbol, sameName, sameAddresses,
    isHeader 4 20 (by decide)]

/-! ## The pass as a list of entries -/

/-- Filling a field changes no byte outside of it. -/
theorem fillAddress_apply_of_outside
    {baseAddress dstVaddr srcVaddr : U32} {memory : Bytes}
    {addr type q : Nat}
    (isOutside : q < addr ∨ addr + fieldWidth type ≤ q) :
    Coff.fillAddress baseAddress memory addr type dstVaddr srcVaddr q =
      memory q := by
  unfold Coff.fillAddress
  unfold fieldWidth at isOutside
  split <;>
    first
    | exact Coff.addWord_apply_of_outside isOutside
    | rfl

/-- Resolving an entry leaves the bytes as they are or fills its field. -/
theorem memory_of_coffResolve
    {config next : Coff.Config} {arg : Coff.CallbackArgIn}
    (resolves : Coff.coffResolve config arg = some next) :
    next.memory = config.memory ∨
      ∃ dstVaddr,
        next.memory =
          Coff.fillAddress config.baseAddress config.memory arg.filledAddr
            arg.type dstVaddr arg.srcVaddr := by
  unfold Coff.coffResolve at resolves
  by_cases isStatic : arg.storageClass = 3
  · rw [if_pos isStatic] at resolves
    split_ifs at resolves
    obtain ⟨virtualAddress, _, rfl⟩ := Option.map_eq_some_iff.mp resolves
    exact Or.inr ⟨_, rfl⟩
  rw [if_neg isStatic] at resolves
  by_cases notExternal : arg.storageClass ≠ 2
  · rw [if_pos notExternal] at resolves
    cases resolves
    exact Or.inl rfl
  rw [if_neg notExternal] at resolves
  dsimp only at resolves
  by_cases isExported : config.exported arg.name ≠ 0
  · rw [if_pos isExported] at resolves
    cases resolves
    exact Or.inr ⟨_, rfl⟩
  rw [if_neg isExported] at resolves
  cases found : Coff.lookupDynamicSymbol config arg.name with
  | none =>
      rw [found] at resolves
      cases resolves
      exact Or.inl rfl
  | some answer =>
      obtain ⟨looked, dll, ever⟩ := answer
      rw [found] at resolves
      obtain ⟨chain, _, found⟩ := Option.bind_eq_some_iff.mp found
      obtain ⟨touched, _, isLooked⟩ := Option.map_eq_some_iff.mp found
      rw [Prod.mk.injEq] at isLooked
      obtain ⟨rfl, _⟩ := isLooked
      dsimp only at resolves
      split_ifs at resolves
      · cases resolves
        exact Or.inr ⟨_, rfl⟩
      · cases resolves
        exact Or.inr ⟨_, rfl⟩

/-- Resolving an entry keeps what the pass reads. -/
theorem Link.Agrees.coffResolve
    {link : Link} {config next : Coff.Config} {entry : Entry}
    (agrees : link.Agrees config.memory) (apart : link.FieldsApart)
    (isEntry : entry ∈ link.entries)
    (resolves : Coff.coffResolve config (link.argOf entry) = some next) :
    link.Agrees next.memory := by
  rcases memory_of_coffResolve resolves with isSame | ⟨dstVaddr, isFilled⟩
  · rw [isSame]
    exact agrees
  · rw [isFilled]
    intro range isRead q fromStart toEnd
    rw [fillAddress_apply_of_outside]
    · exact agrees range isRead q fromStart toEnd
    · rcases apart entry isEntry range isRead with isBehind | isBefore <;>
        omega

/-- Resolve an entry whose argument is read before any field is filled. -/
def Link.relocEntry (link : Link) (config : Coff.Config) (entry : Entry) :
    Option Coff.Config :=
  Coff.coffResolve config (link.argOf entry)

/-- So does resolving some of the entries. -/
theorem Link.Agrees.foldlM
    {link : Link} {config last : Coff.Config} {entries : List Entry}
    (agrees : link.Agrees config.memory) (apart : link.FieldsApart)
    (areEntries : ∀ entry ∈ entries, entry ∈ link.entries)
    (run : entries.foldlM link.relocEntry config = some last) :
    link.Agrees last.memory := by
  induction entries generalizing config with
  | nil =>
      cases run
      exact agrees
  | cons entry rest inductionHypothesis =>
      rw [List.forall_mem_cons] at areEntries
      rw [List.foldlM_cons] at run
      obtain ⟨next, resolves, later⟩ := Option.bind_eq_some_iff.mp run
      exact
        inductionHypothesis (agrees.coffResolve apart areEntries.1 resolves)
          areEntries.2 later

/-- The loop over the entries of a section from a position on. -/
theorem Link.relocEntries_eq
    {link : Link} {oc : ObjectChain} {id : Nat}
    (isFiled : id ∈ link.state.filed) (apart : link.FieldsApart)
    {i count fuel : Nat}
    (isBound :
      i + count =
        link.mem.numberOfRelocations (pointerAt link.state.sections id))
    (enough : count ≤ fuel)
    (areEntries :
      ∀ j ∈ List.range' i count,
        ({ oc := oc
           id := id
           i := j } : Entry) ∈ link.entries)
    {config : Coff.Config} (agrees : link.Agrees config.memory) :
    link.relocEntries oc id
        (oc.mapBase +
          link.mem.pointerToRelocations (pointerAt link.state.sections id))
        fuel i config =
      ((List.range' i count).map fun j =>
          ({ oc := oc
             id := id
             i := j } : Entry)).foldlM link.relocEntry config := by
  induction count generalizing i fuel config with
  | zero =>
      cases fuel with
      | zero => rfl
      | succ fuel =>
          rw [Link.relocEntries, agrees.numberOfRelocations_eq isFiled,
            if_neg (by omega)]
          rfl
  | succ count inductionHypothesis =>
      obtain ⟨fuel, rfl⟩ := Nat.exists_eq_add_of_le' (Nat.pos_of_ne_zero
        (Nat.ne_of_gt (Nat.lt_of_lt_of_le (Nat.succ_pos count) enough)))
      rw [List.range'_succ, List.forall_mem_cons] at areEntries
      have isArg := agrees.callbackArg_eq areEntries.1
      unfold Entry.reloc Entry.ish at isArg
      dsimp only at isArg
      rw [Link.relocEntries, agrees.numberOfRelocations_eq isFiled,
        if_pos (by omega), isArg, List.range'_succ, List.map_cons,
        List.foldlM_cons]
      unfold Link.relocEntry
      cases resolves :
          Coff.coffResolve config
            (link.argOf
              { oc := oc
                id := id
                i := i }) with
      | none => rfl
      | some next =>
          exact
            inductionHypothesis (by omega) (by omega) areEntries.2
              (agrees.coffResolve apart areEntries.1 resolves)

/-- The entries of one section. -/
theorem Link.relocSection_eq
    {link : Link} {id : Nat} (isFiled : id ∈ link.state.filed)
    (isOwned : (link.state.objectOf id).isSome) (apart : link.FieldsApart)
    {config : Coff.Config} (agrees : link.Agrees config.memory) :
    link.relocSection config id =
      (link.entriesOf id).foldlM link.relocEntry config := by
  obtain ⟨oc, isOwner⟩ := Option.isSome_iff_exists.mp isOwned
  have isList :
      link.entriesOf id =
        (List.range
          (link.mem.numberOfRelocations
            (pointerAt link.state.sections id))).map fun i =>
          { oc := oc
            id := id
            i := i } := by
    unfold Link.entriesOf
    rw [isOwner, Option.toList_some, List.flatMap_singleton]
  have areEntries :
      ∀ entry ∈ link.entriesOf id, entry ∈ link.entries :=
    fun entry isEntry => List.mem_flatMap.mpr ⟨id, isFiled, isEntry⟩
  have isWord :
      link.mem.numberOfRelocations (pointerAt link.state.sections id) <
        256 ^ 2 :=
    ByteBuffer.loadWord_lt 2 _ _
  rw [isList] at areEntries ⊢
  rw [List.range_eq_range'] at areEntries ⊢
  rw [Link.relocSection, isOwner, Option.bind_some,
    agrees.pointerToRelocations_eq isFiled]
  refine
    Link.relocEntries_eq isFiled apart (Nat.zero_add _)
      (by omega) (fun j inRange => ?_) agrees
  exact areEntries _ (List.mem_map_of_mem inRange)

/-- Folding lists of entries one after the other. -/
theorem Link.foldlM_flatMap_eq
    {link : Link} {Item : Type} {step : Coff.Config → Item →
      Option Coff.Config} {entriesIn : Item → List Entry}
    (apart : link.FieldsApart) (items : List Item)
    (isStep :
      ∀ item ∈ items, ∀ config : Coff.Config, link.Agrees config.memory →
        step config item = (entriesIn item).foldlM link.relocEntry config)
    (areEntries :
      ∀ item ∈ items, ∀ entry ∈ entriesIn item, entry ∈ link.entries)
    {config : Coff.Config} (agrees : link.Agrees config.memory) :
    items.foldlM step config =
      (items.flatMap entriesIn).foldlM link.relocEntry config := by
  induction items generalizing config with
  | nil => rfl
  | cons item rest inductionHypothesis =>
      rw [List.forall_mem_cons] at isStep areEntries
      rw [List.foldlM_cons, List.flatMap_cons, List.foldlM_append,
        isStep.1 config agrees]
      cases run : (entriesIn item).foldlM link.relocEntry config with
      | none => rfl
      | some next =>
          exact
            inductionHypothesis isStep.2 areEntries.2
              (agrees.foldlM apart areEntries.1 run)

/--
As long as no field overlaps what the pass reads, the pass resolves the entries
of the list in order.
-/
theorem Link.doRelocs_eq
    {link : Link} (config : Coff.Config)
    (areOwned : ∀ id ∈ link.state.filed, (link.state.objectOf id).isSome)
    (apart : link.FieldsApart) (isStart : config.memory = link.mem.bytes) :
    link.doRelocs config = link.entries.foldlM link.relocEntry config := by
  have agrees : link.Agrees config.memory := by
    rw [isStart]
    exact fun _ _ _ _ _ => rfl
  have isSection :
      ∀ id ∈ link.state.filed,
        ∀ config : Coff.Config, link.Agrees config.memory →
          link.relocSection config id =
            (link.entriesOf id).foldlM link.relocEntry config :=
    fun id isFiled config agrees =>
      Link.relocSection_eq isFiled (areOwned id isFiled) apart agrees
  have inEntries :
      ∀ id ∈ link.state.filed,
        ∀ entry ∈ link.entriesOf id, entry ∈ link.entries :=
    fun id isFiled entry isEntry =>
      List.mem_flatMap.mpr ⟨id, isFiled, isEntry⟩
  have inFiled :
      ∀ sc ∈ link.state.containers, ∀ id ∈ sc.chain,
        id ∈ link.state.filed :=
    fun sc isContainer id isFiled =>
      List.mem_flatMap.mpr ⟨sc, isContainer, isFiled⟩
  have isWhole :
      link.entries =
        link.state.containers.flatMap fun sc =>
          sc.chain.flatMap link.entriesOf := by
    unfold Link.entries State.filed
    exact List.flatMap_assoc
  rw [isWhole]
  refine
    Link.foldlM_flatMap_eq apart link.state.containers
      (fun sc isContainer config agrees => ?_)
      (fun sc isContainer entry isEntry => ?_) agrees
  · exact
      Link.foldlM_flatMap_eq apart sc.chain
        (fun id isFiled => isSection id (inFiled sc isContainer id isFiled))
        (fun id isFiled => inEntries id (inFiled sc isContainer id isFiled))
        agrees
  · obtain ⟨id, isFiled, isEntry⟩ := List.mem_flatMap.mp isEntry
    exact inEntries id (inFiled sc isContainer id isFiled) entry isEntry

end BinTools.CoffObject
