import BinTools.CoffExportTables
import BinTools.CoffLayout

namespace BinTools.CoffObject

open ByteBuffer

/-!
# From the objects to the export directory

Between reading the objects and filling the directory a section is added, all
sections are placed and headers are written.  The symbol records are not
touched, so the directory is made of what was read.
-/

/-- The raw size of a section. -/
def State.sizeOf (mem : Memory) (state : State) (id : Nat) : Nat :=
  mem.sizeOfRawData (pointerAt state.sections id)

/-- The address of a section: the start and the sizes placed in front. -/
def State.addressOf (mem : Memory) (state : State) (id : Nat) : Nat :=
  u32 (0x1000 +
    ((state.filed.takeWhile (· ≠ id)).map (state.sizeOf mem)).sum)

/-- What is entered for an exported symbol: its name and its address. -/
def State.entryOf (mem : Memory) (state : State) (cell : SymbolChain) :
    CString × Nat :=
  (cell.name,
    (cell.schain.map (state.addressOf mem)).getD 0 +
      (mem.imageSymbol cell.p).value)

/-- The entries of all exported symbols. -/
def State.entries (mem : Memory) (state : State) : List (CString × Nat) :=
  state.exports.map (state.entryOf mem)

/--
Section headers, the added one at `sec` included, overlap neither each other
nor the records of the exported symbols.
-/
structure State.Separate (state : State) (sec : Nat) : Prop where
  headers :
    ∀ p ∈ state.sections.map SectionChain.p,
      ∀ q ∈ state.sections.map SectionChain.p, p = q ∨ Apart p q
  fresh : ∀ p ∈ state.sections.map SectionChain.p, Apart p sec
  records :
    ∀ cell ∈ state.exports,
      ∀ p ∈ state.sections.map SectionChain.p ++ [sec],
        cell.p + sizeofSymbol ≤ p ∨ p + sizeofSectionHeader ≤ cell.p

instance (state : State) (sec : Nat) : Decidable (state.Separate sec) :=
  decidable_of_iff
    ((∀ p ∈ state.sections.map SectionChain.p,
        ∀ q ∈ state.sections.map SectionChain.p, p = q ∨ Apart p q) ∧
      (∀ p ∈ state.sections.map SectionChain.p, Apart p sec) ∧
        ∀ cell ∈ state.exports,
          ∀ p ∈ state.sections.map SectionChain.p ++ [sec],
            cell.p + sizeofSymbol ≤ p ∨ p + sizeofSectionHeader ≤ cell.p)
    ⟨fun separate => ⟨separate.1, separate.2.1, separate.2.2⟩,
      fun separate => ⟨separate.headers, separate.fresh, separate.records⟩⟩

/-- What later passes read of an object. -/
def ObjectChain.exported (oc : ObjectChain) : Nat × List SymbolChain :=
  (oc.strTableP, oc.symbols)

/-- A link that still has what the export directory is made of. -/
structure Link.Carries
    (mem : Memory) (state : State) (sec : Nat) (link : Link) : Prop where
  pointers :
    link.state.sections.map SectionChain.p =
      state.sections.map SectionChain.p ++ [sec]
  named : ∀ sc ∈ link.state.containers, sc.name ≠ none → sc.chain ≠ []
  hasEdata : ∃ sc ∈ link.state.containers, sc.name = some edata
  filed : link.state.filed = state.filed ++ [state.sections.length]
  objects :
    link.state.objects.map ObjectChain.exported =
      state.objects.map ObjectChain.exported
  count : link.state.exportFuncCount = state.exportFuncCount
  len : link.state.exportDirectoryLen = state.exportDirectoryLen
  stringAt : link.mem.stringAt = mem.stringAt
  records :
    ∀ cell ∈ state.exports, ∀ q, cell.p ≤ q → q < cell.p + sizeofSymbol →
      link.mem.bytes q = mem.bytes q

/-! ## The added section -/

/-- The header of the added section does not touch what lies outside. -/
theorem Link.addCoffSection_bytes
    (link : Link) {sec q : Nat} {name : CString}
    (fits : name.length ≤ sizeofSectionHeader)
    (isOutside : q < sec ∨ sec + sizeofSectionHeader ≤ q)
    (vaddr size : Nat) :
    (link.addCoffSection sec name vaddr size).mem.bytes q =
      link.mem.bytes q := by
  unfold CString.length at fits
  unfold sizeofSectionHeader at fits isOutside
  unfold Link.addCoffSection
  dsimp only
  rw [storeWord_apply_of_outside (by omega),
    storeWord_apply_of_outside (by omega),
    store_apply_of_outside (by omega),
    store_apply_of_outside
      (by rw [List.length_replicate]; exact isOutside)]

/-- A change at the end of a list. -/
theorem modify_concat {Item : Type} (items : List Item) (item : Item)
    (update : Item → Item) :
    (items ++ [item]).modify items.length update = items ++ [update item] := by
  induction items with
  | nil => rfl
  | cons first rest inductionHypothesis =>
      exact congrArg (first :: ·) inductionHypothesis

/-- A new container with its first section. -/
theorem containers_addCoffSection
    (link : Link) (sec : Nat) (name : CString) (vaddr size : Nat) :
    (link.addCoffSection sec name vaddr size).state.containers =
      link.state.containers ++
        [{ name := some name
           chain := [link.state.sections.length]
           virtualAddress := vaddr }] := by
  unfold Link.addCoffSection State.allocSectionChain
    State.addSectionContainer
  dsimp only
  rw [modify_concat, modify_concat]
  rfl

/-- The section that is added for the directory. -/
theorem State.Linked.carries_addCoffSection
    {mem : Memory} {outfileName : CString} {state : State} {sec : Nat}
    (linked : state.Linked mem outfileName) (separate : state.Separate sec)
    (size : Nat) :
    Link.Carries mem state sec
      (Link.addCoffSection
        { mem := mem
          state := state }
        sec edata 0 size) where
  pointers := by
    unfold Link.addCoffSection State.allocSectionChain
      State.addSectionContainer
    dsimp only
    rw [modify_concat, List.map_append]
    rfl
  named := by
    rw [containers_addCoffSection]
    intro sc member isNamed
    rcases List.mem_append.mp member with isOld | isNew
    · exact linked.named sc isOld isNamed
    · rw [List.mem_singleton.mp isNew]
      exact List.cons_ne_nil _ _
  hasEdata := by
    rw [containers_addCoffSection]
    exact ⟨_, List.mem_append_right _ (List.mem_singleton_self _), rfl⟩
  filed := by
    unfold State.filed
    rw [containers_addCoffSection, List.flatMap_append]
    rfl
  objects := by
    unfold Link.addCoffSection State.objects
    rw [List.map_append, List.map_append]
    rfl
  count := rfl
  len := rfl
  stringAt := rfl
  records := by
    intro cell isExport q fromStart toEnd
    have isApart :=
      separate.records cell isExport sec
        (List.mem_append_right _ (List.mem_singleton_self sec))
    exact Link.addCoffSection_bytes _ (by decide) (by omega) 0 size

/-! ## The addresses -/

/-- Every section is filed once. -/
theorem State.Linked.nodup_filed
    {mem : Memory} {outfileName : CString} {state : State}
    (linked : state.Linked mem outfileName) : state.filed.Nodup :=
  linked.filed.nodup_iff.mpr List.nodup_range

/-- The sections that are filed are all sections. -/
theorem State.Linked.mem_filed_iff
    {mem : Memory} {outfileName : CString} {state : State}
    (linked : state.Linked mem outfileName) {id : Nat} :
    id ∈ state.filed ↔ id < state.sections.length :=
  linked.filed.mem_iff.trans List.mem_range

/-- Earlier sections keep their headers. -/
theorem Link.Carries.pointerAt_eq
    {mem : Memory} {state : State} {sec : Nat} {link : Link}
    (carries : Link.Carries mem state sec link) {id : Nat}
    (isOld : id < state.sections.length) :
    pointerAt link.state.sections id = pointerAt state.sections id :=
  pointerAt_kept carries.pointers isOld

/-- The header of the added section. -/
theorem Link.Carries.pointerAt_last
    {mem : Memory} {state : State} {sec : Nat} {link : Link}
    (carries : Link.Carries mem state sec link) :
    pointerAt link.state.sections state.sections.length = sec := by
  rw [pointerAt_eq_getD, carries.pointers, List.getD_append_right]
  · rw [List.length_map, Nat.sub_self]
    rfl
  · rw [List.length_map]

/-- The header of a section is one of the pointers. -/
theorem pointerAt_mem
    {sections : List SectionChain} {id : Nat}
    (isPresent : id < sections.length) :
    pointerAt sections id ∈ sections.map SectionChain.p := by
  rw [pointerAt_eq_getD,
    List.getD_eq_getElem _ _ (by rw [List.length_map]; exact isPresent)]
  exact List.getElem_mem _

/-- The headers of a link with the added section. -/
theorem Link.Carries.apart
    {mem : Memory} {state : State} {sec : Nat} {link : Link}
    (carries : Link.Carries mem state sec link)
    (separate : state.Separate sec) {id other : Nat}
    (isPresent : id < state.sections.length + 1)
    (isOtherPresent : other < state.sections.length + 1) :
    pointerAt link.state.sections id = pointerAt link.state.sections other ∨
      Apart (pointerAt link.state.sections id)
        (pointerAt link.state.sections other) := by
  rcases Nat.lt_succ_iff_lt_or_eq.mp isPresent with isOld | rfl
  · rw [carries.pointerAt_eq isOld]
    rcases Nat.lt_succ_iff_lt_or_eq.mp isOtherPresent with isOtherOld | rfl
    · rw [carries.pointerAt_eq isOtherOld]
      exact
        separate.headers _ (pointerAt_mem isOld) _ (pointerAt_mem isOtherOld)
    · rw [carries.pointerAt_last]
      exact Or.inr (separate.fresh _ (pointerAt_mem isOld))
  · rw [carries.pointerAt_last]
    rcases Nat.lt_succ_iff_lt_or_eq.mp isOtherPresent with isOtherOld | rfl
    · rw [carries.pointerAt_eq isOtherOld]
      exact Or.inr (separate.fresh _ (pointerAt_mem isOtherOld)).symm
    · exact Or.inl carries.pointerAt_last.symm

/-- The arena of a link. -/
def Link.arena (link : Link) : Arena where
  mem := link.mem
  sections := link.state.sections

/-- Giving out the addresses of a link is placing section by section. -/
theorem Link.Carries.arena_setVirtualAddresses
    {mem : Memory} {state : State} {sec : Nat} {link : Link}
    (carries : Link.Carries mem state sec link)
    (isStart : link.virtualAddressOffset = 0x1000) :
    link.setVirtualAddresses.arena =
      (link.arena.placeFrom 0x1000
        (state.filed ++ [state.sections.length])).1 := by
  have sameStart : u32 0x1000 = u32 0x1000 := rfl
  have isWord : u32 0x1000 = 0x1000 := rfl
  have inOne :=
    Arena.setVirtualAddresses_eq sameStart isWord link.arena
      link.state.containers
  unfold Link.setVirtualAddresses
  rw [isStart, ← carries.filed]
  exact congrArg (fun result => result.1) inOne

/-- The sections of the containers are there. -/
theorem Link.Carries.present
    {mem : Memory} {outfileName : CString} {state : State} {sec : Nat}
    {link : Link}
    (carries : Link.Carries mem state sec link)
    (linked : state.Linked mem outfileName) :
    ∀ id ∈ state.filed ++ [state.sections.length],
      id < state.sections.length + 1 ∧ id < link.state.sections.length := by
  have sameLength := congrArg List.length carries.pointers
  rw [List.length_map, List.length_append, List.length_map,
    List.length_singleton] at sameLength
  intro id member
  rw [sameLength, and_self]
  rcases List.mem_append.mp member with isFiled | isLast
  · exact Nat.lt_succ_of_lt (linked.mem_filed_iff.mp isFiled)
  · rw [List.mem_singleton.mp isLast]
    exact Nat.lt_succ_self _

/-- No section is in the containers twice. -/
theorem State.Linked.nodup_filed_append
    {mem : Memory} {outfileName : CString} {state : State}
    (linked : state.Linked mem outfileName) :
    (state.filed ++ [state.sections.length]).Nodup := by
  refine List.nodup_append.mpr ⟨linked.nodup_filed, by simp, ?_⟩
  intro id isFiled last isLast
  rw [List.mem_singleton.mp isLast]
  exact Nat.ne_of_lt (linked.mem_filed_iff.mp isFiled)

/-- Giving out the addresses of a link is placing its sections. -/
theorem Link.Carries.places
    {mem : Memory} {outfileName : CString} {state : State} {sec : Nat}
    {link : Link}
    (carries : Link.Carries mem state sec link)
    (linked : state.Linked mem outfileName) (separate : state.Separate sec)
    (isStart : link.virtualAddressOffset = 0x1000) :
    Arena.Places (state.filed ++ [state.sections.length]) 0x1000 link.arena
      link.setVirtualAddresses.arena := by
  have isPresent := carries.present linked
  rw [carries.arena_setVirtualAddresses isStart]
  apply Arena.places_placeFrom linked.nodup_filed_append
  · exact fun id member => (isPresent id member).2
  · exact fun id isId other isOther =>
      carries.apart separate (isPresent id isId).1 (isPresent other isOther).1

/-- Placing the sections keeps what the directory is made of. -/
theorem Link.Carries.setVirtualAddresses
    {mem : Memory} {outfileName : CString} {state : State} {sec : Nat}
    {link : Link}
    (carries : Link.Carries mem state sec link)
    (linked : state.Linked mem outfileName) (separate : state.Separate sec)
    (isStart : link.virtualAddressOffset = 0x1000) :
    Link.Carries mem state sec link.setVirtualAddresses := by
  have places := carries.places linked separate isStart
  have isContainers :
      link.setVirtualAddresses.state.containers.map
          (fun sc => (sc.name, sc.chain)) =
        link.state.containers.map fun sc => (sc.name, sc.chain) :=
    Arena.setVirtualAddresses_containers _ _ _
  refine
    { pointers := places.pointers.trans carries.pointers
      named := ?_
      hasEdata := ?_
      filed := ?_
      objects := carries.objects
      count := carries.count
      len := carries.len
      stringAt := places.stringAt.trans carries.stringAt
      records := ?_ }
  · intro sc member isNamed
    have inMap := List.mem_map_of_mem (f := fun (sc : SectionContainer) => (sc.name, sc.chain)) member
    rw [isContainers] at inMap
    obtain ⟨old, isOld, samePair⟩ := List.mem_map.mp inMap
    rw [Prod.mk.injEq] at samePair
    rw [← samePair.1] at isNamed
    rw [← samePair.2]
    exact carries.named old isOld isNamed
  · obtain ⟨sc, member, isNamed⟩ := carries.hasEdata
    have inMap :=
      List.mem_map_of_mem
        (f := fun (sc : SectionContainer) => (sc.name, sc.chain)) member
    rw [← isContainers] at inMap
    obtain ⟨placed, isPlaced, samePair⟩ := List.mem_map.mp inMap
    rw [Prod.mk.injEq] at samePair
    exact ⟨placed, isPlaced, samePair.1.trans isNamed⟩
  · rw [← carries.filed]
    unfold State.filed
    have sameChains := congrArg (List.map Prod.snd) isContainers
    rw [List.map_map, List.map_map] at sameChains
    rw [List.flatMap_def, List.flatMap_def]
    exact congrArg List.flatten sameChains
  · intro cell isExport q fromStart toEnd
    rw [← carries.records cell isExport q fromStart toEnd]
    apply places.bytes
    intro id isFiled
    have isHeader :
        pointerAt link.state.sections id ∈
          state.sections.map SectionChain.p ++ [sec] := by
      rw [← carries.pointers]
      apply pointerAt_mem
      have sameLength := congrArg List.length carries.pointers
      rw [List.length_map, List.length_append, List.length_map,
        List.length_singleton] at sameLength
      rw [sameLength]
      rcases List.mem_append.mp isFiled with isOld | isLast
      · exact Nat.lt_succ_of_lt (linked.mem_filed_iff.mp isOld)
      · rw [List.mem_singleton.mp isLast]
        exact Nat.lt_succ_self _
    have isApart := separate.records cell isExport _ isHeader
    unfold sizeofSectionHeader at isApart
    unfold Link.arena
    dsimp only
    omega

/-- Every section that was read gets its address. -/
theorem State.Linked.addressAt_eq
    {mem : Memory} {outfileName : CString} {state : State} {sec : Nat}
    (linked : state.Linked mem outfileName) (separate : state.Separate sec)
    {size id : Nat} (isPresent : id < state.sections.length) :
    addressAt
        (Link.addCoffSection
          { mem := mem
            state := state }
          sec edata 0 size).setVirtualAddresses.state.sections id =
      state.addressOf mem id := by
  have carries := linked.carries_addCoffSection separate size
  have places := carries.places linked separate rfl
  obtain ⟨index, isAt⟩ :=
    List.mem_iff_getElem?.mp (linked.mem_filed_iff.mpr isPresent)
  have inRange := (List.getElem?_eq_some_iff.mp isAt).1
  have sameSizes :
      ∀ other ∈ state.filed,
        (Link.addCoffSection
            { mem := mem
              state := state }
            sec edata 0 size).arena.sizeAt other =
          state.sizeOf mem other := by
    intro other isFiled
    have isOther := linked.mem_filed_iff.mp isFiled
    have isApart := separate.fresh _ (pointerAt_mem isOther)
    unfold Apart sizeofSectionHeader at isApart
    have samePointer := carries.pointerAt_eq isOther
    unfold Arena.sizeAt State.sizeOf Link.arena Memory.sizeOfRawData
    dsimp only
    rw [samePointer]
    apply loadWord_congr
    intro q _ _
    exact
      Link.addCoffSection_bytes _ (by decide)
        (by unfold sizeofSectionHeader; omega) 0 size
  have isPlaced :=
    congrArg (fun (addresses : List Nat) => addresses[index]?)
      places.addresses
  rw [List.map_append, List.getElem?_append_left
      (by rw [List.length_map]; exact inRange), List.getElem?_map, isAt,
    List.map_append, ConsecutiveRanges.starts_append, List.map_append,
    List.getElem?_append_left
      (by
        rw [List.length_map, ConsecutiveRanges.length_starts,
          List.length_map]
        exact inRange),
    List.getElem?_map, ConsecutiveRanges.getElem?_starts
      (by rw [List.length_map]; exact inRange), ← List.map_take,
    List.map_congr_left fun other member =>
      sameSizes other (List.mem_of_mem_take member)] at isPlaced
  unfold State.addressOf
  rw [ConsecutiveRanges.takeWhile_ne_eq_take linked.nodup_filed isAt]
  exact Option.some.inj isPlaced

/-! ## The directory -/

/-- A record whose bytes are the same reads the same. -/
theorem Memory.imageSymbol_congr
    {first second : Memory} {is : Nat}
    (agree :
      ∀ q, is ≤ q → q < is + sizeofSymbol → first.bytes q = second.bytes q) :
    first.imageSymbol is = second.imageSymbol is := by
  have sameWord :
      ∀ width offset, offset + width ≤ sizeofSymbol →
        loadWord width first.bytes (is + offset) =
          loadWord width second.bytes (is + offset) :=
    fun width offset fits =>
      loadWord_congr fun q fromStart toEnd => agree q (by omega) (by omega)
  have sameShort := sameWord 4 0 (by decide)
  rw [Nat.add_zero] at sameShort
  unfold Memory.imageSymbol
  rw [sameShort, sameWord 4 4 (by decide), sameWord 4 8 (by decide),
    sameWord 2 12 (by decide), sameWord 1 16 (by decide),
    sameWord 1 17 (by decide)]

/-- The loops of `add_export` write one entry for every symbol. -/
theorem addSymbols_eq
    {mem : Memory} {sections : List SectionChain} {vaddr : Nat}
    {objects : List ObjectChain} {entry : SymbolChain → CString × Nat}
    (isEntry :
      ∀ oc ∈ objects, ∀ cell ∈ oc.symbols, ∀ cursor,
        addSymbol mem sections vaddr oc cursor cell =
          some (cursor.write vaddr (entry cell).1 (entry cell).2))
    (cursor : ExportCursor) :
    addSymbols mem sections vaddr cursor objects =
      some
        (cursor.writeAll vaddr
          ((objects.flatMap ObjectChain.symbols).map entry)) := by
  have oneObject :
      ∀ (oc : ObjectChain) (cells : List SymbolChain)
          (cursor : ExportCursor),
        (∀ cell ∈ cells, ∀ cursor,
            addSymbol mem sections vaddr oc cursor cell =
              some (cursor.write vaddr (entry cell).1 (entry cell).2)) →
          cells.foldlM (addSymbol mem sections vaddr oc) cursor =
            some (cursor.writeAll vaddr (cells.map entry)) := by
    intro oc cells
    induction cells with
    | nil => exact fun cursor _ => rfl
    | cons cell rest inductionHypothesis =>
        intro cursor areEntries
        rw [List.forall_mem_cons] at areEntries
        rw [List.foldlM_cons, areEntries.1]
        exact inductionHypothesis _ areEntries.2
  unfold addSymbols
  induction objects generalizing cursor with
  | nil => rfl
  | cons oc rest inductionHypothesis =>
      rw [List.forall_mem_cons] at isEntry
      rw [List.foldlM_cons, oneObject oc oc.symbols cursor isEntry.1]
      refine (inductionHypothesis isEntry.2 _).trans ?_
      rw [List.flatMap_cons, List.map_append, ExportCursor.writeAll,
        ExportCursor.writeAll, ← List.foldl_append]
      rfl

/-- What `add_export` leaves for some entries and an address of its own. -/
def directoryOf
    (outfileName : CString) (count : Int) (entries : List (CString × Nat))
    (vaddr sec : Nat) : ExportDirectory :=
  let tables := exportTables outfileName count vaddr
  { data := (tables.writeAll vaddr entries).data
    addressOfNameOrdinals := tables.addressOfNameOrdinals
    addressOfFunctions := tables.addressOfFunctions
    addressOfNames := tables.addressOfNames
    strP := tables.c
    vaddrP := vaddr
    sec := sec }

/-- The number of bytes up to which `add_export` writes. -/
def directoryEnd
    (outfileName : CString) (count : Int) (entries : List (CString × Nat)) :
    Nat :=
  (exportTables outfileName count 0).c + namesSize entries

/-- One symbol of a link that carries what was read. -/
theorem Link.Carries.addSymbol_eq
    {mem : Memory} {outfileName : CString} {state : State} {sec : Nat}
    {link : Link}
    (carries : Link.Carries mem state sec link)
    (linked : state.Linked mem outfileName)
    (addresses :
      ∀ id < state.sections.length,
        addressAt link.state.sections id = state.addressOf mem id)
    {oc : ObjectChain} (isObject : oc ∈ link.state.objects)
    {cell : SymbolChain} (isCell : cell ∈ oc.symbols)
    (vaddr : Nat) (cursor : ExportCursor) :
    addSymbol link.mem link.state.sections vaddr oc cursor cell =
      some
        (cursor.write vaddr (state.entryOf mem cell).1
          (state.entryOf mem cell).2) := by
  have inMap := List.mem_map_of_mem (f := ObjectChain.exported) isObject
  rw [carries.objects] at inMap
  obtain ⟨read, isRead, samePair⟩ := List.mem_map.mp inMap
  unfold ObjectChain.exported at samePair
  rw [Prod.mk.injEq] at samePair
  rw [← samePair.2] at isCell
  have right := linked.cells read isRead cell isCell
  obtain ⟨id, rest, isSections⟩ := List.exists_cons_of_ne_nil right.sections
  have isHead : cell.schain = some id := by
    rw [right.schain, isSections]
    rfl
  have isPresent : id < state.sections.length :=
    linked.section_lt isRead (by rw [isSections]; exact List.mem_cons_self)
  have sameLength := congrArg List.length carries.pointers
  rw [List.length_map, List.length_append, List.length_map,
    List.length_singleton] at sameLength
  have inArena : id < link.state.sections.length := by omega
  have isAddress :
      (link.state.sections[id]).virtualAddress = state.addressOf mem id := by
    rw [← addresses id isPresent, addressAt, List.getD_eq_getElem _ _ inArena]
  have isExport : cell ∈ state.exports :=
    List.mem_flatMap.mpr ⟨read, isRead, isCell⟩
  have sameRecord : link.mem.imageSymbol cell.p = mem.imageSymbol cell.p :=
    Memory.imageSymbol_congr (carries.records cell isExport)
  have sameName :
      link.mem.getName cell.p oc.strTableP = cell.name := by
    rw [right.name, ← samePair.1]
    unfold Memory.getName
    rw [sameRecord, carries.stringAt]
  unfold addSymbol State.entryOf
  rw [isHead, Option.bind_some, List.getElem?_eq_getElem inArena,
    Option.map_some, Option.map_some, Option.getD_some, isAddress, sameName,
    sameRecord]

/-- Setting the size of a header leaves the rest alone. -/
theorem Link.Carries.setExportSize
    {mem : Memory} {state : State} {sec : Nat} {link : Link}
    (carries : Link.Carries mem state sec link)
    (separate : state.Separate sec) {isec : Nat}
    (isHeader : isec ∈ state.sections.map SectionChain.p ++ [sec]) :
    Link.Carries mem state sec (link.setExportSize isec) ∧
      (link.setExportSize isec).state = link.state := by
  unfold Link.setExportSize
  split_ifs
  · refine
      ⟨{ pointers := carries.pointers
         named := carries.named
         hasEdata := carries.hasEdata
         filed := carries.filed
         objects := carries.objects
         count := carries.count
         len := carries.len
         stringAt := carries.stringAt
         records := ?_ }, rfl⟩
    intro cell isExport q fromStart toEnd
    rw [← carries.records cell isExport q fromStart toEnd]
    have isApart := separate.records cell isExport isec isHeader
    unfold sizeofSectionHeader at isApart
    exact storeWord_apply_of_outside (by omega)
  · exact ⟨carries, rfl⟩

/-- The section that `add_export` fills. -/
theorem Link.Carries.exists_section
    {mem : Memory} {outfileName : CString} {state : State} {sec : Nat}
    {link : Link}
    (carries : Link.Carries mem state sec link)
    (linked : state.Linked mem outfileName) :
    ∃ index scon id,
      matchSection link.state.containers edata = some index ∧
        link.state.containers[index]? = some scon ∧
        scon.chain.getLast? = some id ∧
        pointerAt link.state.sections id ∈
          state.sections.map SectionChain.p ++ [sec] := by
  obtain ⟨sc, member, isNamed⟩ := carries.hasEdata
  have isFound : (matchSection link.state.containers edata).isSome := by
    unfold matchSection
    rw [List.findIdx?_isSome, List.any_eq_true]
    exact ⟨sc, member, decide_eq_true isNamed⟩
  obtain ⟨index, isMatch⟩ := Option.isSome_iff_exists.mp isFound
  obtain ⟨scon, isAt, isEdata⟩ := getElem?_of_matchSection isMatch
  have isContainer := List.mem_of_getElem? isAt
  have notEmpty : scon.chain ≠ [] :=
    carries.named scon isContainer (by rw [isEdata]; exact Option.some_ne_none _)
  have isLast := List.getLast?_eq_some_getLast notEmpty
  refine ⟨index, scon, _, isMatch, isAt, isLast, ?_⟩
  rw [← carries.pointers]
  apply pointerAt_mem
  have isFiled :
      scon.chain.getLast notEmpty ∈ link.state.filed :=
    List.mem_flatMap.mpr ⟨scon, isContainer, List.getLast_mem notEmpty⟩
  rw [carries.filed] at isFiled
  have sameLength := congrArg List.length carries.pointers
  rw [List.length_map, List.length_append, List.length_map,
    List.length_singleton] at sameLength
  rw [sameLength]
  rcases List.mem_append.mp isFiled with isOld | isAdded
  · exact Nat.lt_succ_of_lt (linked.mem_filed_iff.mp isOld)
  · rw [List.mem_singleton.mp isAdded]
    exact Nat.lt_succ_self _

/-- The exports are those that were read. -/
theorem Link.Carries.exports_eq
    {mem : Memory} {state : State} {sec : Nat} {link : Link}
    (carries : Link.Carries mem state sec link) :
    link.state.exports = state.exports := by
  have sameSymbols := congrArg (List.map Prod.snd) carries.objects
  rw [List.map_map, List.map_map] at sameSymbols
  unfold State.exports
  rw [List.flatMap_def, List.flatMap_def]
  exact congrArg List.flatten sameSymbols

/-- The directory is filled with the entries that were read. -/
theorem Link.Carries.fillDirectory_eq
    {mem : Memory} {outfileName : CString} {state : State} {sec : Nat}
    {link : Link}
    (carries : Link.Carries mem state sec link)
    (linked : state.Linked mem outfileName)
    (addresses :
      ∀ id < state.sections.length,
        addressAt link.state.sections id = state.addressOf mem id)
    (id : Nat) :
    link.fillDirectory outfileName id =
      if (directoryEnd outfileName state.exportFuncCount
          (state.entries mem) : Int) ≤ state.exportDirectoryLen then
        some
          { link := link
            directory :=
              some
                (directoryOf outfileName state.exportFuncCount
                  (state.entries mem)
                  (loadWord 4 link.mem.bytes
                    (pointerAt link.state.sections id + 12))
                  id) }
      else
        none := by
  have sameExports :
      link.state.objects.flatMap ObjectChain.symbols = state.exports :=
    carries.exports_eq
  have areAdded :
      ∀ vaddr cursor,
        addSymbols link.mem link.state.sections vaddr cursor
            link.state.objects =
          some (cursor.writeAll vaddr (state.entries mem)) := by
    intro vaddr cursor
    unfold State.entries
    rw [← sameExports]
    exact
      addSymbols_eq
        (fun oc isObject cell isCell cursor =>
          carries.addSymbol_eq linked addresses isObject isCell vaddr cursor)
        cursor
  unfold Link.fillDirectory
  dsimp only
  rw [areAdded, Option.bind_some, ExportCursor.c_writeAll, carries.len,
    carries.count]
  rfl

/-- `do_coff_task` fills the directory with the entries that were read. -/
theorem State.Linked.exists_exportAll
    {mem : Memory} {outfileName : CString} {state : State} {sec : Nat}
    (linked : state.Linked mem outfileName) (separate : state.Separate sec) :
    ∃ link vaddr id,
      Link.Carries mem state sec link ∧
        (∀ id < state.sections.length,
          addressAt link.state.sections id = state.addressOf mem id) ∧
        exportAll mem outfileName sec state =
          if (directoryEnd outfileName state.exportFuncCount
              (state.entries mem) : Int) ≤ state.exportDirectoryLen then
            some
              { link := link
                directory :=
                  some
                    (directoryOf outfileName state.exportFuncCount
                      (state.entries mem) vaddr id) }
          else
            none := by
  have addressOf :
      ∀ id < state.sections.length,
        addressAt
            (Link.addCoffSection
              { mem := mem
                state := state }
              sec edata 0
              (state.exportDirectoryLen %
                2 ^ 32).toNat).setVirtualAddresses.state.sections id =
          state.addressOf mem id :=
    fun id isPresent => linked.addressAt_eq separate isPresent
  have placed :=
    (linked.carries_addCoffSection separate
      (state.exportDirectoryLen % 2 ^ 32).toNat).setVirtualAddresses linked
      separate rfl
  unfold exportAll
  generalize
    (Link.addCoffSection
      { mem := mem
        state := state }
      sec edata 0
      (state.exportDirectoryLen % 2 ^ 32).toNat).setVirtualAddresses = link
    at addressOf placed ⊢
  obtain ⟨index, scon, id, isMatch, isAt, isLast, isHeader⟩ :=
    placed.exists_section linked
  obtain ⟨sized, sameState⟩ := placed.setExportSize separate isHeader
  have stillAddresses :
      ∀ other < state.sections.length,
        addressAt
            (link.setExportSize
              (pointerAt link.state.sections id)).state.sections other =
          state.addressOf mem other := by
    rw [sameState]
    exact addressOf
  have isFilled := sized.fillDirectory_eq linked stillAddresses id
  refine ⟨_, _, id, sized, stillAddresses, Eq.trans ?_ isFilled⟩
  unfold Link.addExport
  rw [isMatch]
  dsimp only
  rw [isAt, Option.bind_some, isLast, Option.bind_some]

/-! ## The size of the directory -/

/-- The names of the entries are the names of the symbols. -/
theorem namesSize_entries (mem : Memory) (state : State) :
    namesSize (state.entries mem) =
      (state.exports.map fun cell => cell.name.length + 1).sum := by
  unfold namesSize State.entries
  rw [List.map_map]
  rfl

/-- What an entry takes besides its name. -/
theorem directorySize_eq (outfileName : CString) (exports : List SymbolChain) :
    directorySize outfileName exports =
      sizeofExportDirectory + outfileName.length + 1 + 10 * exports.length +
        (exports.map fun cell => cell.name.length + 1).sum := by
  induction exports with
  | nil => rfl
  | cons cell rest inductionHypothesis =>
      unfold directorySize at inductionHypothesis ⊢
      rw [List.map_cons, List.sum_cons, List.map_cons, List.sum_cons,
        List.length_cons]
      omega

/-- The tables for a number that is not negative. -/
theorem exportTables_natCast (outfileName : CString) (count vaddr : Nat) :
    (exportTables outfileName count vaddr).addressOfNameOrdinals =
        sizeofExportDirectory + outfileName.length + 1 ∧
      (exportTables outfileName count vaddr).addressOfFunctions =
        sizeofExportDirectory + outfileName.length + 1 + 2 * count ∧
      (exportTables outfileName count vaddr).addressOfNames =
        sizeofExportDirectory + outfileName.length + 1 + 6 * count ∧
      (exportTables outfileName count vaddr).c =
        sizeofExportDirectory + outfileName.length + 1 + 10 * count := by
  unfold exportTables moved
  dsimp only
  refine ⟨rfl, ?_, ?_, ?_⟩ <;> omega

/-- No more symbols than bytes in their names and terminators. -/
theorem length_le_sum_names (exports : List SymbolChain) :
    exports.length ≤
      (exports.map fun cell => cell.name.length + 1).sum := by
  induction exports with
  | nil => exact Nat.le_refl _
  | cons cell rest inductionHypothesis =>
      rw [List.map_cons, List.sum_cons, List.length_cons]
      omega

/-- A directory that an `int` can measure is written as far as it is sized. -/
theorem State.Linked.directoryEnd_eq
    {mem : Memory} {outfileName : CString} {state : State}
    (linked : state.Linked mem outfileName)
    (few : state.exports.length < 2 ^ 31) :
    directoryEnd outfileName state.exportFuncCount (state.entries mem) =
      directorySize outfileName state.exports := by
  rw [linked.count, (int32_natCast_eq_iff _).mpr few, directoryEnd,
    (exportTables_natCast outfileName _ 0).2.2.2, directorySize_eq,
    namesSize_entries]

/-- The directory fits the allocation if it is not empty and has a size. -/
theorem State.Linked.directoryEnd_le_iff
    {mem : Memory} {outfileName : CString} {state : State}
    (linked : state.Linked mem outfileName) :
    (directoryEnd outfileName state.exportFuncCount (state.entries mem) :
        Int) ≤ state.exportDirectoryLen ↔
      state.exports ≠ [] ∧
        directorySize outfileName state.exports < 2 ^ 31 := by
  have isInt := linked.isInt
  have atLeast := length_le_sum_names state.exports
  have isSize := directorySize_eq outfileName state.exports
  constructor
  · intro fits
    have few : state.exports.length < 2 ^ 31 := by
      unfold directoryEnd at fits
      rw [namesSize_entries] at fits
      omega
    rw [linked.directoryEnd_eq few] at fits
    have isSmall : directorySize outfileName state.exports < 2 ^ 31 := by
      omega
    refine ⟨fun noExports => ?_, isSmall⟩
    rw [linked.len isSmall, if_pos noExports] at fits
    unfold sizeofExportDirectory at isSize
    omega
  · rintro ⟨hasExports, isSmall⟩
    have few : state.exports.length < 2 ^ 31 := by omega
    rw [linked.directoryEnd_eq few, linked.len isSmall, if_neg hasExports]

end BinTools.CoffObject
