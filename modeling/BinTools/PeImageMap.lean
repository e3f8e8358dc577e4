import BinTools.GuestAccess

namespace BinTools.GuestMemory

open ByteBuffer (Bytes)

/-!
# Mapping a PE image

`map_pe` maps a page for the headers and some pages for every section, and
copies each of them from the file.  The calls of `mmap` give the addresses that
the mappings begin at.
-/

/-- `IMAGE_SECTION_HEADER`, as far as `map_pe` computes with it. -/
structure SectionHeader where
  virtualAddress : U32
  sizeOfRawData : U32
  pointerToRawData : U32
  deriving DecidableEq, Repr

/-- The mappings, the host's memory and `current_page_tail`. -/
structure ImageState where
  heaps : List Heap
  memory : Bytes
  currentPageTail : U32

/-- A mapping and what is copied to it. -/
structure Part where
  call : MmapCall
  source : Nat
  length : Nat
  deriving DecidableEq, Repr

/-- `mmap` gives zeros, and `memcpy` copies to the begin of the mapping. -/
def Part.copy (memory : Bytes) (part : Part) : Bytes :=
  let mapped :=
    ByteBuffer.store memory part.call.begin.toNat
      (List.replicate part.call.mapSize.toNat 0)
  ByteBuffer.store mapped part.call.begin.toNat
    (ByteBuffer.load mapped part.source part.length)

/-- `guest_mmap` and `memcpy` -/
def mapPart (state : ImageState) (part : Part) : Option ImageState :=
  (guestMmap state.heaps part.call).map fun heaps =>
    { state with heaps := heaps, memory := part.copy state.memory }

/-- The headers in front of the section table. -/
def headerPart (pDosHeader sectionHead : Nat) (imageBase : U32) (h1 : U64) :
    Part where
  call := ⟨imageBase, (0 + 0x1000) &&& 0xfffff000, h1⟩
  source := pDosHeader
  length := (BitVec.ofNat 32 sectionHead - BitVec.ofNat 32 pDosHeader).toNat

/-- A section's data. -/
def SectionHeader.part
    (pDosHeader : Nat) (imageBase : U32) (s : SectionHeader) (h2 : U64) :
    Part where
  call :=
    ⟨imageBase + s.virtualAddress,
      (s.sizeOfRawData + 0x1000) &&& 0xfffff000, h2⟩
  source := pDosHeader + s.pointerToRawData.toNat
  length := s.sizeOfRawData.toNat

/-- The body of the loop over the sections. -/
def mapSection
    (pDosHeader : Nat) (imageBase : U32) (state : ImageState)
    (s : SectionHeader × U64) : Option ImageState :=
  (mapPart state (s.1.part pDosHeader imageBase s.2)).map fun state =>
    let tail := imageBase + s.1.virtualAddress + s.1.sizeOfRawData
    if state.currentPageTail < tail then
      { state with currentPageTail := tail }
    else
      state

/-- The fields of a section header. -/
def readSection (memory : Bytes) (s : Nat) : SectionHeader where
  virtualAddress := BitVec.ofNat 32 (ByteBuffer.loadWord 4 memory (s + 12))
  sizeOfRawData := BitVec.ofNat 32 (ByteBuffer.loadWord 4 memory (s + 16))
  pointerToRawData := BitVec.ofNat 32 (ByteBuffer.loadWord 4 memory (s + 20))

/-- The loop over the sections, each with the begin of its mapping. -/
def mapSections (pDosHeader : Nat) (imageBase : U32) :
    Nat → List U64 → ImageState → Option ImageState
  | _, [], state => some state
  | s, h2 :: rest, state =>
      (mapSection pDosHeader imageBase state
          (readSection state.memory s, h2)).bind
        fun state => mapSections pDosHeader imageBase (s + 40) rest state

/-- `map_pe` -/
def mapPe
    (pDosHeader sectionHead : Nat) (imageBase : U32) (h1 : U64)
    (h2s : List U64) (state : ImageState) : Option ImageState :=
  (mapPart state (headerPart pDosHeader sectionHead imageBase h1)).bind
    fun state => mapSections pDosHeader imageBase sectionHead h2s state

/-! ## What is copied -/

namespace Part

/-- The bytes of a mapping in the host's memory. -/
def HasPlace (part : Part) (position : Nat) : Prop :=
  part.call.begin.toNat ≤ position ∧
    position < part.call.begin.toNat + part.call.mapSize.toNat

/-- What is copied fits the mapping. -/
def Fits (part : Part) : Prop :=
  part.length ≤ part.call.mapSize.toNat

/-- What is copied is not in a mapping. -/
def Apart (part other : Part) : Prop :=
  ∀ i < part.length, ¬ other.HasPlace (part.source + i)

instance (part : Part) (position : Nat) : Decidable (part.HasPlace position) :=
  inferInstanceAs (Decidable (_ ∧ _))

instance (part other : Part) : Decidable (part.Apart other) :=
  inferInstanceAs (Decidable (∀ i < part.length, ¬ other.HasPlace _))

variable {part : Part} {memory : Bytes}

theorem copy_of_outside
    (fits : part.Fits) {position : Nat} (outside : ¬ part.HasPlace position) :
    part.copy memory position = memory position := by
  unfold HasPlace at outside
  unfold Fits at fits
  have isLength (buffer : Bytes) :
      (ByteBuffer.load buffer part.source part.length).length =
        part.length := by
    simp [ByteBuffer.load]
  rw [copy, ByteBuffer.store_apply_of_outside (by rw [isLength]; omega),
    ByteBuffer.store_apply_of_outside (by rw [List.length_replicate]; omega)]

theorem copy_of_inside
    (isApart : part.Apart part) {i : Nat}
    (inRange : i < part.call.mapSize.toNat) :
    part.copy memory (part.call.begin.toNat + i) =
      if i < part.length then memory (part.source + i) else 0 := by
  have isZero :
      ByteBuffer.store memory part.call.begin.toNat
          (List.replicate part.call.mapSize.toNat 0)
          (part.call.begin.toNat + i) =
        0 := by
    simp [ByteBuffer.store, inRange]
  split
  · rename_i isCopied
    have isSource :
        ByteBuffer.store memory part.call.begin.toNat
            (List.replicate part.call.mapSize.toNat 0) (part.source + i) =
          memory (part.source + i) := by
      have outside := isApart i isCopied
      unfold HasPlace at outside
      apply ByteBuffer.store_apply_of_outside
      rw [List.length_replicate]
      omega
    rw [← isSource]
    simp [copy, ByteBuffer.store, ByteBuffer.load, isCopied]
  · rename_i notCopied
    refine Eq.trans (ByteBuffer.store_apply_of_outside (.inr ?_)) isZero
    simp only [ByteBuffer.load, List.length_map, List.length_range]
    omega

/-- Copies leave every byte outside of their mappings alone. -/
theorem foldl_copy_of_outside
    {parts : List Part} (fits : ∀ part ∈ parts, part.Fits) {position : Nat}
    (outside : ∀ part ∈ parts, ¬ part.HasPlace position) :
    parts.foldl copy memory position = memory position := by
  induction parts generalizing memory with
  | nil => rfl
  | cons first rest inductionHypothesis =>
      rw [List.forall_mem_cons] at fits outside
      rw [List.foldl_cons, inductionHypothesis fits.2 outside.2,
        copy_of_outside fits.1 outside.1]

/-- Copies to mappings that are apart fill every one of them. -/
theorem foldl_copy_of_mem
    {parts : List Part} (fits : ∀ part ∈ parts, part.Fits)
    (hostApart :
      parts.Pairwise fun one two =>
        ∀ position, one.HasPlace position → ¬ two.HasPlace position)
    (isApart : ∀ part ∈ parts, ∀ other ∈ parts, part.Apart other)
    (inParts : part ∈ parts) {i : Nat}
    (inRange : i < part.call.mapSize.toNat) :
    parts.foldl copy memory (part.call.begin.toNat + i) =
      if i < part.length then memory (part.source + i) else 0 := by
  induction parts generalizing memory with
  | nil => cases inParts
  | cons first rest inductionHypothesis =>
      have restApart (one : Part) (oneIn : one ∈ rest) (two : Part)
          (twoIn : two ∈ rest) : one.Apart two :=
        isApart one (List.mem_cons_of_mem _ oneIn) two
          (List.mem_cons_of_mem _ twoIn)
      have firstApart := isApart part inParts first List.mem_cons_self
      rw [List.forall_mem_cons] at fits
      rw [List.pairwise_cons] at hostApart
      rw [List.foldl_cons]
      rcases List.mem_cons.mp inParts with rfl | inRest
      · have hasPlace : part.HasPlace (part.call.begin.toNat + i) := by
          unfold HasPlace
          omega
        rw [foldl_copy_of_outside fits.2 fun other otherIn =>
          hostApart.1 other otherIn _ hasPlace]
        exact copy_of_inside firstApart inRange
      · rw [inductionHypothesis fits.2 hostApart.2 restApart inRest]
        split
        · rename_i isCopied
          exact copy_of_outside fits.1 (firstApart i isCopied)
        · rfl

end Part

/-! ## What is mapped -/

/-- The section table, with the begins of the mappings. -/
def sectionsOf (memory : Bytes) : Nat → List U64 → List (SectionHeader × U64)
  | _, [] => []
  | s, h2 :: rest =>
      (readSection memory s, h2) :: sectionsOf memory (s + 40) rest

/-- All that `map_pe` copies. -/
def imageParts
    (pDosHeader sectionHead : Nat) (imageBase : U32) (h1 : U64)
    (h2s : List U64) (memory : Bytes) : List Part :=
  headerPart pDosHeader sectionHead imageBase h1 ::
    (sectionsOf memory sectionHead h2s).map fun s =>
      s.1.part pDosHeader imageBase s.2

theorem length_sectionsOf (memory : Bytes) (s : Nat) (h2s : List U64) :
    (sectionsOf memory s h2s).length = h2s.length := by
  induction h2s generalizing s with
  | nil => rfl
  | cons h2 rest inductionHypothesis =>
      exact congrArg Nat.succ (inductionHypothesis (s + 40))

/-- The table is read alike from memories that agree on it. -/
theorem sectionsOf_congr
    {memory later : Bytes} {s : Nat} {h2s : List U64}
    (agree : ∀ i < 40 * h2s.length, later (s + i) = memory (s + i)) :
    sectionsOf later s h2s = sectionsOf memory s h2s := by
  induction h2s generalizing s with
  | nil => rfl
  | cons h2 rest inductionHypothesis =>
      rw [List.length_cons] at agree
      have isSame (field : Nat) (inHeader : field + 4 ≤ 40) :
          ByteBuffer.loadWord 4 later (s + field) =
            ByteBuffer.loadWord 4 memory (s + field) := by
        apply ByteBuffer.loadWord_congr
        intro position fromStart toEnd
        obtain ⟨i, rfl⟩ := Nat.exists_eq_add_of_le (show s ≤ position by omega)
        exact agree i (by omega)
      have isRest : sectionsOf later (s + 40) rest =
          sectionsOf memory (s + 40) rest := by
        apply inductionHypothesis
        intro i inRange
        rw [Nat.add_assoc]
        exact agree (40 + i) (by omega)
      rw [sectionsOf, sectionsOf, isRest, readSection, readSection,
        isSame 12 (by decide), isSame 16 (by decide), isSame 20 (by decide)]

/-- A section's mapping is as long as the section. -/
theorem le_mapSize {size : U32} (isSmall : size.toNat + 0x1000 < 2 ^ 32) :
    size.toNat ≤ ((size + 0x1000) &&& 0xfffff000).toNat := by
  have isSum : (size + 0x1000).toNat = size.toNat + 0x1000 := by
    rw [BitVec.toNat_add]
    exact Nat.mod_eq_of_lt isSmall
  rw [and_pageMask, isSum, BitVec.toNat_ofNat, pageSize]
  omega

theorem mapPart_eq
    {state : ImageState} (part : Part) (room : state.heaps.length < heapMax) :
    mapPart state part =
      some
        { state with
          heaps := state.heaps ++ [part.call.header]
          memory := part.copy state.memory } := by
  rw [mapPart, guestMmap, if_pos room]
  rfl

/-- One section is mapped. -/
theorem exists_mapSection
    {state : ImageState} (pDosHeader : Nat) (imageBase : U32)
    (s : SectionHeader × U64) (room : state.heaps.length < heapMax) :
    ∃ next,
      mapSection pDosHeader imageBase state s = some next ∧
        next.heaps =
          state.heaps ++ [(s.1.part pDosHeader imageBase s.2).call.header] ∧
        next.memory =
          (s.1.part pDosHeader imageBase s.2).copy state.memory := by
  rw [mapSection, mapPart_eq _ room, Option.map_some]
  refine ⟨_, rfl, ?_, ?_⟩ <;> dsimp only <;> split <;> rfl

/-- The sections are mapped one after another. -/
theorem exists_mapSections
    (state : ImageState) (pDosHeader : Nat) (imageBase : U32)
    (sections : List (SectionHeader × U64))
    (room : state.heaps.length + sections.length ≤ heapMax) :
    ∃ final,
      sections.foldlM (mapSection pDosHeader imageBase) state = some final ∧
        final.heaps =
          state.heaps ++
            ((sections.map fun s =>
              s.1.part pDosHeader imageBase s.2).map Part.call).map
                MmapCall.header ∧
        final.memory =
          (sections.map fun s =>
            s.1.part pDosHeader imageBase s.2).foldl Part.copy
              state.memory := by
  induction sections generalizing state with
  | nil => exact ⟨state, rfl, (List.append_nil _).symm, rfl⟩
  | cons s rest inductionHypothesis =>
      rw [List.length_cons] at room
      obtain ⟨next, isNext, nextHeaps, nextMemory⟩ :=
        exists_mapSection pDosHeader imageBase s
          (show state.heaps.length < heapMax by omega)
      have nextRoom : next.heaps.length + rest.length ≤ heapMax := by
        rw [nextHeaps, List.length_append, List.length_singleton]
        omega
      obtain ⟨final, isFinal, finalHeaps, finalMemory⟩ :=
        inductionHypothesis next nextRoom
      refine ⟨final, ?_, ?_, ?_⟩
      · rw [List.foldlM_cons, isNext]
        exact isFinal
      · rw [finalHeaps, nextHeaps, List.append_assoc]
        rfl
      · rw [finalMemory, nextMemory]
        rfl

/-- A section that is mapped is copied. -/
theorem memory_of_mapSection
    {state next : ImageState} {pDosHeader : Nat} {imageBase : U32}
    {s : SectionHeader × U64}
    (isNext : mapSection pDosHeader imageBase state s = some next) :
    next.memory = (s.1.part pDosHeader imageBase s.2).copy state.memory := by
  obtain ⟨mapped, isMapped, isTail⟩ := Option.map_eq_some_iff.mp isNext
  obtain ⟨heaps, _, rfl⟩ := Option.map_eq_some_iff.mp isMapped
  rw [← isTail]
  dsimp only
  split <;> rfl

/-- A table that no mapping covers is read as it was in front of the loop. -/
theorem mapSections_eq
    (state : ImageState) (pDosHeader : Nat) (imageBase : U32) (s : Nat)
    (h2s : List U64)
    (fits :
      ∀ entry ∈ sectionsOf state.memory s h2s,
        (entry.1.part pDosHeader imageBase entry.2).Fits)
    (tableApart :
      ∀ entry ∈ sectionsOf state.memory s h2s, ∀ i < 40 * h2s.length,
        ¬ (entry.1.part pDosHeader imageBase entry.2).HasPlace (s + i)) :
    mapSections pDosHeader imageBase s h2s state =
      (sectionsOf state.memory s h2s).foldlM
        (mapSection pDosHeader imageBase) state := by
  induction h2s generalizing state s with
  | nil => rfl
  | cons h2 rest inductionHypothesis =>
      rw [sectionsOf, List.forall_mem_cons] at fits tableApart
      rw [List.length_cons] at tableApart
      rw [mapSections, sectionsOf, List.foldlM_cons]
      cases isNext :
          mapSection pDosHeader imageBase state
            (readSection state.memory s, h2) with
      | none => rfl
      | some next =>
          have isMemory := memory_of_mapSection isNext
          have sameTable :
              sectionsOf next.memory (s + 40) rest =
                sectionsOf state.memory (s + 40) rest := by
            apply sectionsOf_congr
            intro i inRange
            rw [isMemory, Nat.add_assoc]
            exact
              Part.copy_of_outside fits.1 (tableApart.1 (40 + i) (by omega))
          rw [← sameTable] at fits tableApart
          rw [← sameTable]
          apply inductionHypothesis next (s + 40) fits.2
          intro entry isSection i inRange
          rw [Nat.add_assoc]
          exact tableApart.2 entry isSection (40 + i) (by omega)

/-- `map_pe` maps and copies all parts. -/
theorem exists_mapPe
    {state : ImageState} (pDosHeader sectionHead : Nat) (imageBase : U32)
    (h1 : U64) (h2s : List U64)
    (room : state.heaps.length + (h2s.length + 1) ≤ heapMax)
    (fits :
      ∀ part ∈
          imageParts pDosHeader sectionHead imageBase h1 h2s state.memory,
        part.Fits)
    (tableApart :
      ∀ part ∈
          imageParts pDosHeader sectionHead imageBase h1 h2s state.memory,
        ∀ i < 40 * h2s.length, ¬ part.HasPlace (sectionHead + i)) :
    ∃ final,
      mapPe pDosHeader sectionHead imageBase h1 h2s state = some final ∧
        final.heaps =
          state.heaps ++
            ((imageParts pDosHeader sectionHead imageBase h1 h2s
                state.memory).map Part.call).map MmapCall.header ∧
        final.memory =
          (imageParts pDosHeader sectionHead imageBase h1 h2s
            state.memory).foldl Part.copy state.memory := by
  rw [imageParts, List.forall_mem_cons] at fits tableApart
  have isFirst :=
    mapPart_eq (headerPart pDosHeader sectionHead imageBase h1)
      (show state.heaps.length < heapMax by omega)
  generalize isMiddle :
    { state with
      heaps :=
        state.heaps ++
          [(headerPart pDosHeader sectionHead imageBase h1).call.header]
      memory :=
        (headerPart pDosHeader sectionHead imageBase h1).copy state.memory } =
      middle at isFirst
  have sameTable :
      sectionsOf middle.memory sectionHead h2s =
        sectionsOf state.memory sectionHead h2s := by
    apply sectionsOf_congr
    intro i inRange
    rw [← isMiddle]
    exact Part.copy_of_outside fits.1 (tableApart.1 i inRange)
  have middleRoom :
      middle.heaps.length +
          (sectionsOf state.memory sectionHead h2s).length ≤
        heapMax := by
    rw [← isMiddle, length_sectionsOf, List.length_append,
      List.length_singleton]
    omega
  obtain ⟨final, isFinal, finalHeaps, finalMemory⟩ :=
    exists_mapSections middle pDosHeader imageBase
      (sectionsOf state.memory sectionHead h2s) middleRoom
  have isRun :
      mapSections pDosHeader imageBase sectionHead h2s middle = some final := by
    rw [mapSections_eq, sameTable]
    · exact isFinal
    · rw [sameTable]
      exact fun entry isSection =>
        fits.2 _ (List.mem_map_of_mem isSection)
    · rw [sameTable]
      exact fun entry isSection =>
        tableApart.2 _ (List.mem_map_of_mem isSection)
  refine ⟨final, ?_, ?_, ?_⟩
  · rw [mapPe, isFirst]
    exact isRun
  · rw [finalHeaps, ← isMiddle, List.append_assoc]
    rfl
  · rw [finalMemory, ← isMiddle]
    rfl

/-- The first mappings of a guest. -/
def Space.front
    (space : Space) {earlier later : List MmapCall}
    (isSpace : space.calls = earlier ++ later) : Space where
  calls := earlier
  mappable :=
    { room := by
        have room := space.mappable.room
        rw [isSpace, List.length_append] at room
        omega
      aligned := fun call inFront =>
        space.mappable.aligned call
          (isSpace ▸ List.mem_append_left later inFront)
      positive := fun call inFront =>
        space.mappable.positive call
          (isSpace ▸ List.mem_append_left later inFront)
      apart := (List.pairwise_append.mp (isSpace ▸ space.mappable.apart)).1
      host := fun call inFront =>
        space.mappable.host call
          (isSpace ▸ List.mem_append_left later inFront) }
  isCounted := fun call inFront =>
    space.isCounted call (isSpace ▸ List.mem_append_left later inFront)
  hostApart := (List.pairwise_append.mp (isSpace ▸ space.hostApart)).1

/-- A byte that is mapped is found at its place. -/
theorem Space.toNat_getHostAddr
    (space : Space) {call : MmapCall} (inCalls : call ∈ space.calls)
    {address : U32} (hasByte : call.HasByte address.toNat) :
    (getHostAddr (space.calls.map MmapCall.header) address).toNat =
      call.placeOf address.toNat := by
  have isCounted := space.page_counted inCalls hasByte
  rw [(space.mappable.lookups_counted inCalls isCounted).1,
    space.toNat_hostAddr inCalls hasByte]

/--
For every image whose headers in front of the section table fit a page and whose
mappings are counted and apart from each other, from all earlier ones and from
the file: `map_pe` maps it, every address of a part is translated to the byte of
the file that it stands for, or to a zero behind it, and no byte that was mapped
before changes.
-/
theorem mapPe_getHostAddr
    (space : Space) (earlier : List MmapCall)
    (pDosHeader sectionHead : Nat) (imageBase : U32) (h1 : U64)
    (h2s : List U64)
    (state : ImageState) (parts : List Part)
    (areParts :
      imageParts pDosHeader sectionHead imageBase h1 h2s state.memory = parts)
    (isSpace : space.calls = earlier ++ parts.map Part.call)
    (isHeaps : earlier.foldlM guestMmap [] = some state.heaps)
    (headersFit :
      (headerPart pDosHeader sectionHead imageBase h1).length ≤ 0x1000)
    (sectionsFit :
      ∀ s ∈ sectionsOf state.memory sectionHead h2s,
        s.1.sizeOfRawData.toNat + 0x1000 < 2 ^ 32)
    (isApart : ∀ part ∈ parts, ∀ other ∈ parts, part.Apart other)
    (tableApart :
      ∀ part ∈ parts, ∀ i < 40 * h2s.length,
        ¬ part.HasPlace (sectionHead + i)) :
    ∃ final,
      mapPe pDosHeader sectionHead imageBase h1 h2s state = some final ∧
        (∀ part ∈ parts, ∀ address : U32, part.call.HasByte address.toNat →
            let i := address.toNat - part.call.guestAddr.toNat
            final.memory (getHostAddr final.heaps address).toNat =
              if i < part.length then state.memory (part.source + i)
              else 0) ∧
        ∀ call ∈ earlier, ∀ address : U32, call.HasByte address.toNat →
          final.memory (getHostAddr final.heaps address).toNat =
            state.memory (getHostAddr state.heaps address).toNat := by
  have fits : ∀ part ∈ parts, part.Fits := by
    rw [← areParts, imageParts, List.forall_mem_cons]
    refine ⟨headersFit, fun part inSections => ?_⟩
    obtain ⟨s, isSection, rfl⟩ := List.mem_map.mp inSections
    exact le_mapSize (sectionsFit s isSection)
  have earlierHeaps : state.heaps = earlier.map MmapCall.header := by
    have isRun := (space.front isSpace).mappable.heaps_eq
    exact Option.some.inj (isHeaps.symm.trans isRun)
  have room : state.heaps.length + (h2s.length + 1) ≤ heapMax := by
    have isRoom := space.mappable.room
    rw [isSpace, List.length_append, List.length_map, ← areParts, imageParts,
      List.length_cons, List.length_map, length_sectionsOf] at isRoom
    rw [earlierHeaps, List.length_map]
    exact isRoom
  obtain ⟨final, isFinal, finalHeaps, finalMemory⟩ :=
    exists_mapPe pDosHeader sectionHead imageBase h1 h2s room
      (areParts ▸ fits) (areParts ▸ tableApart)
  rw [areParts] at finalHeaps finalMemory
  have allHeaps : final.heaps = space.calls.map MmapCall.header := by
    rw [finalHeaps, earlierHeaps, isSpace, List.map_append]
  have allApart := space.hostApart
  rw [isSpace, List.pairwise_append] at allApart
  obtain ⟨-, partsApart, earlierApart⟩ := allApart
  refine ⟨final, isFinal, ?_, ?_⟩
  · intro part inParts address hasByte
    have inCalls : part.call ∈ space.calls :=
      isSpace ▸ List.mem_append_right _ (List.mem_map_of_mem inParts)
    have inRange :
        address.toNat - part.call.guestAddr.toNat <
          part.call.mapSize.toNat := by
      obtain ⟨-, above, below⟩ := hasByte
      omega
    have hostApart :
        parts.Pairwise fun one two =>
          ∀ position, one.HasPlace position → ¬ two.HasPlace position := by
      refine (List.pairwise_map.mp partsApart).imp ?_
      intro one two isBeside position inOne inTwo
      unfold Part.HasPlace at inOne inTwo
      omega
    rw [allHeaps, space.toNat_getHostAddr inCalls hasByte, finalMemory]
    exact Part.foldl_copy_of_mem fits hostApart isApart inParts inRange
  · intro call inEarlier address hasByte
    have inCalls : call ∈ space.calls :=
      isSpace ▸ List.mem_append_left _ inEarlier
    have wasAt :=
      (space.front isSpace).toNat_getHostAddr inEarlier hasByte
    rw [allHeaps, space.toNat_getHostAddr inCalls hasByte, earlierHeaps]
    rw [show (space.front isSpace).calls = earlier from rfl] at wasAt
    rw [wasAt, finalMemory]
    apply Part.foldl_copy_of_outside fits
    intro part inParts inPlace
    have isBeside :=
      earlierApart call inEarlier part.call (List.mem_map_of_mem inParts)
    obtain ⟨-, above, below⟩ := hasByte
    unfold Part.HasPlace at inPlace
    unfold MmapCall.placeOf at inPlace
    omega

namespace Sample

/-- A section of three bytes behind its header. -/
def image : Bytes :=
  ByteBuffer.store
    (ByteBuffer.storeWord 4
      (ByteBuffer.storeWord 4
        (ByteBuffer.storeWord 4 (fun _ => 0) 0x1110 0x1000) 0x1114 3)
      0x1118 0x40)
    0x1040 [7, 8, 9]

/-- An earlier mapping, and those of the image. -/
def space : Space where
  calls :=
    [⟨0x600000, 0x1000, 0x7f0000200000⟩, ⟨0x400000, 0x1000, 0x7f0000000000⟩,
      ⟨0x401000, 0x1000, 0x7f0000100000⟩]
  mappable :=
    { room := by decide
      aligned := by decide
      positive := by decide
      apart := by decide
      host := by decide }
  isCounted := by decide
  hostApart := by decide

/-- The state when the image is mapped. -/
def state : ImageState where
  heaps := [MmapCall.header ⟨0x600000, 0x1000, 0x7f0000200000⟩]
  memory := image
  currentPageTail := 0

end Sample

/-- The last byte of the section is found in the guest's memory. -/
theorem mapPe_getHostAddr_section :
    ∃ final,
      mapPe 0x1000 0x1104 0x400000 0x7f0000000000 [0x7f0000100000]
          Sample.state =
        some final ∧
        final.memory (getHostAddr final.heaps 0x401002).toNat = 9 := by
  obtain ⟨final, isFinal, areCopied, -⟩ :=
    mapPe_getHostAddr Sample.space [⟨0x600000, 0x1000, 0x7f0000200000⟩] 0x1000
      0x1104 0x400000 0x7f0000000000 [0x7f0000100000] Sample.state
      [⟨⟨0x400000, 0x1000, 0x7f0000000000⟩, 0x1000, 0x104⟩,
        ⟨⟨0x401000, 0x1000, 0x7f0000100000⟩, 0x1040, 3⟩]
      (by decide +kernel) rfl rfl (by decide) (by decide +kernel)
      (by decide +kernel) (by decide +kernel)
  refine ⟨final, isFinal, ?_⟩
  have isByte :=
    areCopied ⟨⟨0x401000, 0x1000, 0x7f0000100000⟩, 0x1040, 3⟩ (by simp)
      0x401002 (by decide)
  exact isByte.trans (by decide +kernel)

end BinTools.GuestMemory
