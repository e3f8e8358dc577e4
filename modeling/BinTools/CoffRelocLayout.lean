import BinTools.CoffExportLink
import BinTools.CoffReloc

namespace BinTools.CoffObject

open ByteBuffer

/-!
# What relocation finds after the layout

When the export directory is filled every section has its address, in its cell
and in its header; the objects have their sections and the rest of their bytes,
and the added section has no relocation entries.
-/

/-- Placed sections whose headers are apart have their addresses there. -/
theorem Arena.header_placeFrom
    {arena : Arena} {ids : List Nat} (distinct : ids.Nodup)
    (arePresent : ∀ id ∈ ids, id < arena.sections.length)
    (areApart :
      ∀ id ∈ ids, ∀ other ∈ ids,
        id ≠ other →
          Apart (pointerAt arena.sections id)
            (pointerAt arena.sections other))
    (position : Nat) :
    ∀ id ∈ ids,
      (arena.placeFrom position ids).1.mem.virtualAddress
          (pointerAt arena.sections id) =
        addressAt (arena.placeFrom position ids).1.sections id := by
  induction ids generalizing arena position with
  | nil => exact fun id isNone => absurd isNone List.not_mem_nil
  | cons first rest inductionHypothesis =>
      rw [List.nodup_cons] at distinct
      rw [List.forall_mem_cons] at arePresent
      have samePointers := arena.pointers_place (u32 position) first
      have samePointer := pointerAt_congr samePointers
      have sameLength := congrArg List.length samePointers
      rw [List.length_map, List.length_map] at sameLength
      have stillPresent :
          ∀ id ∈ rest,
            id < (arena.place (u32 position) first).sections.length := by
        rw [sameLength]
        exact arePresent.2
      have stillApart :
          ∀ id ∈ rest, ∀ other ∈ rest,
            id ≠ other →
              Apart
                (pointerAt (arena.place (u32 position) first).sections id)
                (pointerAt (arena.place (u32 position) first).sections
                  other) := by
        intro id isId other isOther isDifferent
        rw [samePointer, samePointer]
        exact
          areApart id (List.mem_cons_of_mem _ isId) other
            (List.mem_cons_of_mem _ isOther) isDifferent
      have later :=
        inductionHypothesis distinct.2 stillPresent stillApart
          (position + (arena.place (u32 position) first).sizeAt first)
      have places :=
        Arena.places_placeFrom distinct.2 stillPresent
          (fun id isId other isOther =>
            (eq_or_ne id other).imp
              (congrArg
                (pointerAt (arena.place (u32 position) first).sections))
              (stillApart id isId other isOther))
          (position + (arena.place (u32 position) first).sizeAt first)
      intro id member
      rw [Arena.placeFrom]
      rcases List.mem_cons.mp member with rfl | isRest
      · rw [places.others id distinct.1,
          Arena.addressAt_place arePresent.1, if_pos rfl]
        have keeps :
            ((arena.place (u32 position) id).placeFrom
                (position + (arena.place (u32 position) id).sizeAt id)
                rest).1.mem.virtualAddress
                (pointerAt arena.sections id) =
              (arena.place (u32 position) id).mem.virtualAddress
                (pointerAt arena.sections id) := by
          apply loadWord_congr
          intro q fromStart toEnd
          apply places.bytes
          intro other isOther
          rw [samePointer]
          have isApart :=
            areApart id List.mem_cons_self other
              (List.mem_cons_of_mem _ isOther)
              (fun isSame => distinct.1 (isSame ▸ isOther))
          unfold Apart sizeofSectionHeader at isApart
          omega
        have isStored :
            (arena.place (u32 position) id).mem.virtualAddress
                (pointerAt arena.sections id) =
              u32 position % 256 ^ 4 :=
          loadWord_storeWord 4 _ _
        rw [keeps, isStored]
        unfold u32
        omega
      · have isLater := later id isRest
        rw [samePointer] at isLater
        exact isLater

/-- What a link has when its sections are placed. -/
structure Link.Laid
    (mem : Memory) (state : State) (sec : Nat) (link : Link) : Prop where
  pointers :
    link.state.sections.map SectionChain.p =
      state.sections.map SectionChain.p ++ [sec]
  objects :
    link.state.objects =
      state.earlier ++
        [{ state.current with
            sections := state.current.sections ++ [state.sections.length] }]
  filed : link.state.filed = state.filed ++ [state.sections.length]
  addresses :
    ∀ id < state.sections.length,
      addressAt link.state.sections id = state.addressOf mem id
  headers :
    ∀ id < state.sections.length,
      link.mem.virtualAddress (pointerAt state.sections id) =
        state.addressOf mem id
  stringAt : link.mem.stringAt = mem.stringAt
  bytes :
    ∀ q, (∀ p ∈ state.sections.map SectionChain.p ++ [sec],
        q < p ∨ p + sizeofSectionHeader ≤ q) →
      link.mem.bytes q = mem.bytes q
  noRelocations : link.mem.numberOfRelocations sec = 0

/-- Headers of different sections, the added one included, are apart. -/
theorem Link.Carries.apart_of_ne
    {mem : Memory} {state : State} {sec : Nat} {link : Link}
    (carries : Link.Carries mem state sec link)
    (separate : state.Separate sec)
    (distinct : (state.sections.map SectionChain.p).Nodup) {id other : Nat}
    (isPresent : id < state.sections.length + 1)
    (isOtherPresent : other < state.sections.length + 1)
    (isDifferent : id ≠ other) :
    Apart (pointerAt link.state.sections id)
      (pointerAt link.state.sections other) := by
  refine
    (carries.apart separate isPresent isOtherPresent).resolve_left
      fun isSame => isDifferent ?_
  have areDistinct :
      (link.state.sections.map SectionChain.p).Nodup := by
    rw [carries.pointers]
    refine List.nodup_append.mpr ⟨distinct, List.nodup_singleton sec, ?_⟩
    intro p isPointer last isLast
    rw [List.mem_singleton.mp isLast]
    rintro rfl
    have isApart := separate.fresh p isPointer
    unfold Apart sizeofSectionHeader at isApart
    omega
  have sameLength := congrArg List.length carries.pointers
  rw [List.length_map, List.length_append, List.length_map,
    List.length_singleton] at sameLength
  have inList : id < (link.state.sections.map SectionChain.p).length := by
    rw [List.length_map]
    omega
  have inListOther :
      other < (link.state.sections.map SectionChain.p).length := by
    rw [List.length_map]
    omega
  rw [pointerAt_eq_getD, pointerAt_eq_getD, List.getD_eq_getElem _ _ inList,
    List.getD_eq_getElem _ _ inListOther] at isSame
  exact (areDistinct.getElem_inj_iff).mp isSame

/-- Placing the sections behind the added one. -/
theorem State.Linked.laid_setVirtualAddresses
    {mem : Memory} {outfileName : CString} {state : State} {sec : Nat}
    (linked : state.Linked mem outfileName) (separate : state.Separate sec)
    (distinct : (state.sections.map SectionChain.p).Nodup) (size : Nat) :
    Link.Laid mem state sec
      (Link.addCoffSection
        { mem := mem
          state := state }
        sec edata 0 size).setVirtualAddresses := by
  have addresses :
      ∀ id < state.sections.length,
        addressAt
            (Link.addCoffSection
              { mem := mem
                state := state }
              sec edata 0 size).setVirtualAddresses.state.sections id =
          state.addressOf mem id :=
    fun id isPresent => linked.addressAt_eq separate isPresent
  have added := linked.carries_addCoffSection separate size
  have carries := added.setVirtualAddresses linked separate rfl
  have places := added.places linked separate rfl
  have isPresent := added.present linked
  have headerOf :
      ∀ id ∈ state.filed ++ [state.sections.length],
        pointerAt
            (Link.addCoffSection
              { mem := mem
                state := state }
              sec edata 0 size).state.sections id ∈
          state.sections.map SectionChain.p ++ [sec] := by
    intro id member
    rw [← added.pointers]
    exact pointerAt_mem (isPresent id member).2
  refine
    { pointers := carries.pointers
      objects := rfl
      filed := carries.filed
      addresses := addresses
      headers := ?_
      stringAt := carries.stringAt
      bytes := ?_
      noRelocations := ?_ }
  · intro id isOld
    have areApart :
        ∀ id ∈ state.filed ++ [state.sections.length],
          ∀ other ∈ state.filed ++ [state.sections.length],
            id ≠ other →
              Apart
                (pointerAt
                  (Link.addCoffSection
                    { mem := mem
                      state := state }
                    sec edata 0 size).arena.sections id)
                (pointerAt
                  (Link.addCoffSection
                    { mem := mem
                      state := state }
                    sec edata 0 size).arena.sections other) :=
      fun id isId other isOther =>
        added.apart_of_ne separate distinct (isPresent id isId).1
          (isPresent other isOther).1
    have isHeader :=
      Arena.header_placeFrom linked.nodup_filed_append
        (fun id member => (isPresent id member).2) areApart 0x1000 id
        (List.mem_append_left _ (linked.mem_filed_iff.mpr isOld))
    rw [← added.arena_setVirtualAddresses rfl] at isHeader
    rw [← addresses id isOld, ← added.pointerAt_eq isOld]
    exact isHeader
  · intro q isOutside
    refine (places.bytes q ?_).trans ?_
    · intro id member
      have isBeside := isOutside _ (headerOf id member)
      unfold sizeofSectionHeader at isBeside
      unfold Link.arena
      dsimp only
      omega
    · exact
        Link.addCoffSection_bytes _ (by decide)
          (isOutside sec
            (List.mem_append_right _ (List.mem_singleton.mpr rfl)))
          0 size
  · have isPlaced :
        (Link.addCoffSection
            { mem := mem
              state := state }
            sec edata 0 size).setVirtualAddresses.mem.numberOfRelocations
            sec =
          (Link.addCoffSection
            { mem := mem
              state := state }
            sec edata 0 size).mem.numberOfRelocations sec := by
      apply loadWord_congr
      intro q fromStart toEnd
      apply places.bytes
      intro id member
      have isHeader := headerOf id member
      unfold Link.arena
      dsimp only
      rcases List.mem_append.mp isHeader with isOld | isLast
      · have isApart := separate.fresh _ isOld
        unfold Apart sizeofSectionHeader at isApart
        omega
      · rw [List.mem_singleton.mp isLast]
        omega
    rw [isPlaced]
    unfold Memory.numberOfRelocations Link.addCoffSection
    dsimp only
    rw [loadWord_storeWord_of_apart (by omega),
      loadWord_storeWord_of_apart (by omega)]
    have isCleared :
        ∀ q, sec + 32 ≤ q → q < sec + 32 + 2 →
          store
              (store mem.bytes sec (List.replicate sizeofSectionHeader 0))
              sec edata.bytes q =
            (fun _ => 0 : Bytes) q := by
      intro q fromStart toEnd
      have isShort : edata.bytes.length = 6 := rfl
      have isInside : q - sec < sizeofSectionHeader := by
        unfold sizeofSectionHeader
        omega
      rw [store_apply_of_outside (by omega), store, if_pos (by omega),
        List.getElem?_replicate, if_pos isInside]
      rfl
    rw [loadWord_congr isCleared]
    rfl

/-- Setting the size of a header leaves the rest alone. -/
theorem Link.Laid.setExportSize
    {mem : Memory} {state : State} {sec : Nat} {link : Link}
    (laid : Link.Laid mem state sec link) (separate : state.Separate sec)
    {isec : Nat}
    (isHeader : isec ∈ state.sections.map SectionChain.p ++ [sec]) :
    Link.Laid mem state sec (link.setExportSize isec) := by
  unfold Link.setExportSize
  split_ifs
  · have isBeside :
        ∀ p ∈ state.sections.map SectionChain.p ++ [sec],
          isec = p ∨ Apart isec p := by
      intro p isOther
      rcases List.mem_append.mp isHeader with isOld | isLast
      · rcases List.mem_append.mp isOther with isOldToo | isLastToo
        · exact separate.headers isec isOld p isOldToo
        · rw [List.mem_singleton.mp isLastToo]
          exact Or.inr (separate.fresh isec isOld)
      · rw [List.mem_singleton.mp isLast]
        rcases List.mem_append.mp isOther with isOldToo | isLastToo
        · exact Or.inr (separate.fresh p isOldToo).symm
        · exact Or.inl (List.mem_singleton.mp isLastToo).symm
    unfold Apart sizeofSectionHeader at isBeside
    exact
      { laid with
        headers := by
          intro id isOld
          rw [← laid.headers id isOld]
          have isOther :=
            isBeside _ (List.mem_append_left _ (pointerAt_mem isOld))
          exact loadWord_storeWord_of_apart (by omega) _ _
        bytes := by
          intro q isOutside
          have isBehind := isOutside isec isHeader
          unfold sizeofSectionHeader at isBehind
          rw [← laid.bytes q isOutside]
          exact storeWord_apply_of_outside (by omega)
        noRelocations := by
          rw [← laid.noRelocations]
          have isOther :=
            isBeside sec
              (List.mem_append_right _ (List.mem_singleton.mpr rfl))
          exact loadWord_storeWord_of_apart (by omega) _ _ }
  · exact laid

/-- When the directory is filled the sections are placed. -/
theorem State.Linked.laid_of_exportAll
    {mem : Memory} {outfileName : CString} {state : State} {sec : Nat}
    {exported : Exported} (linked : state.Linked mem outfileName)
    (separate : state.Separate sec)
    (distinct : (state.sections.map SectionChain.p).Nodup)
    (isExported : exportAll mem outfileName sec state = some exported) :
    Link.Laid mem state sec exported.link := by
  have laid :=
    linked.laid_setVirtualAddresses separate distinct
      (state.exportDirectoryLen % 2 ^ 32).toNat
  have carries :=
    (linked.carries_addCoffSection separate
      (state.exportDirectoryLen % 2 ^ 32).toNat).setVirtualAddresses linked
      separate rfl
  unfold exportAll at isExported
  generalize
    (Link.addCoffSection
      { mem := mem
        state := state }
      sec edata 0
      (state.exportDirectoryLen % 2 ^ 32).toNat).setVirtualAddresses = link
    at laid carries isExported
  obtain ⟨index, scon, id, isMatch, isAt, isLast, isHeader⟩ :=
    carries.exists_section linked
  unfold Link.addExport at isExported
  rw [isMatch] at isExported
  dsimp only at isExported
  rw [isAt, Option.bind_some, isLast, Option.bind_some] at isExported
  obtain ⟨cursor, _, isFilled⟩ := Option.bind_eq_some_iff.mp isExported
  split_ifs at isFilled
  cases isFilled
  exact laid.setExportSize separate isHeader

end BinTools.CoffObject
