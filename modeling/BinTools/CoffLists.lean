import BinTools.CoffSymbolPass
import Mathlib.Data.List.GetD

namespace BinTools.CoffObject

/-!
# The lists that reading leaves

Whatever the objects hold, when they are read every section is in one container
and on the list of one object, and every exported symbol is on the list of an
object whose first section it was given.
-/

/-- All exported symbols, in the order of the objects. -/
def State.exports (state : State) : List SymbolChain :=
  state.objects.flatMap ObjectChain.symbols

/-- The sections, container by container. -/
def State.filed (state : State) : List Nat :=
  state.containers.flatMap SectionContainer.chain

/-- What the export directory of a list of symbols takes. -/
def directorySize (outfileName : CString) (exports : List SymbolChain) : Nat :=
  sizeofExportDirectory + outfileName.length + 1 +
    (exports.map fun cell => 4 + 4 + 2 + cell.name.length + 1).sum

/-- An exported symbol on the list of its object. -/
structure SymbolChain.Right
    (mem : Memory) (oc : ObjectChain) (cell : SymbolChain) : Prop where
  defined : (mem.imageSymbol cell.p).sectionNumber ≠ 0
  name : cell.name = mem.getName cell.p oc.strTableP
  schain : cell.schain = oc.sections.head?
  sections : oc.sections ≠ []

/-- The lists and the counters agree with each other. -/
structure State.Linked
    (mem : Memory) (outfileName : CString) (state : State) : Prop where
  filed : state.filed.Perm (List.range state.sections.length)
  owned :
    state.objects.flatMap ObjectChain.sections =
      List.range state.sections.length
  named : ∀ sc ∈ state.containers, sc.name ≠ none → sc.chain ≠ []
  cells : ∀ oc ∈ state.objects, ∀ cell ∈ oc.symbols, cell.Right mem oc
  count : state.exportFuncCount = int32 state.exports.length
  isInt : state.exportDirectoryLen < 2 ^ 31
  len :
    directorySize outfileName state.exports < 2 ^ 31 →
      state.exportDirectoryLen =
        if state.exports = [] then
          0
        else
          (directorySize outfileName state.exports : Int)

/-! ## Sections -/

/-- A section at the end of a container is one more of all sections. -/
theorem perm_flatMap_modify
    {containers : List SectionContainer} {index : Nat}
    (inRange : index < containers.length) (id : Nat) :
    ((containers.modify index fun container =>
        { container with
          chain := container.chain ++ [id] }).flatMap
      SectionContainer.chain).Perm
      (containers.flatMap SectionContainer.chain ++ [id]) := by
  induction containers generalizing index with
  | nil => exact absurd inRange (Nat.not_lt_zero index)
  | cons container rest inductionHypothesis =>
      cases index with
      | zero =>
          rw [List.modify_zero_cons, List.flatMap_cons, List.flatMap_cons,
            List.append_assoc, List.append_assoc]
          exact List.Perm.append_left _ List.perm_append_comm
      | succ index =>
          rw [List.modify_succ_cons, List.flatMap_cons, List.flatMap_cons,
            List.append_assoc]
          exact
            List.Perm.append_left _
              (inductionHypothesis (Nat.lt_of_succ_lt_succ inRange))

/-- Where a section is inserted; the other containers are left alone. -/
theorem State.filed_of_insertSection
    {state next : State} {p : Nat} {name : CString}
    (isNext : state.insertSection p name = some next) :
    ∃ containers index,
      index < containers.length ∧
        containers.flatMap SectionContainer.chain = state.filed ∧
        (∀ k sc, containers[k]? = some sc → k ≠ index →
          sc ∈ state.containers) ∧
        next =
          State.allocSectionChain
            { state with containers := containers } p index := by
  obtain ⟨containers, index, isGrown, ⟨target, isTarget, _⟩, isChain⟩ :=
    State.exists_of_insertSection isNext
  refine
    ⟨containers, index, (List.getElem?_eq_some_iff.mp isTarget).1, ?_, ?_,
      isChain⟩
  · rcases isGrown with rfl | ⟨_, rfl, _⟩
    · rfl
    · rw [List.flatMap_append]
      exact List.append_nil _
  · intro k sc isAt notHere
    rcases isGrown with rfl | ⟨_, rfl, rfl⟩
    · exact List.mem_of_getElem? isAt
    · have inRange := (List.getElem?_eq_some_iff.mp isAt).1
      rw [List.length_append, List.length_singleton] at inRange
      rw [List.getElem?_append_left (by omega)] at isAt
      exact List.mem_of_getElem? isAt

/-- A new object has no sections and no symbols. -/
theorem State.Linked.allocObjChain
    {mem : Memory} {outfileName : CString} {state : State}
    (linked : state.Linked mem outfileName) {oc : ObjectChain}
    (noSections : oc.sections = []) (noSymbols : oc.symbols = []) :
    (state.allocObjChain oc).Linked mem outfileName := by
  have isObjects :
      (state.allocObjChain oc).objects = state.objects ++ [oc] := rfl
  have sameExports : (state.allocObjChain oc).exports = state.exports := by
    unfold State.exports
    rw [isObjects, List.flatMap_append, List.flatMap_singleton, noSymbols,
      List.append_nil]
  exact
    { filed := linked.filed
      owned := by
        rw [isObjects, List.flatMap_append, List.flatMap_singleton,
          noSections, List.append_nil]
        exact linked.owned
      named := linked.named
      cells := by
        intro other member
        rcases List.mem_append.mp (isObjects ▸ member) with isOld | isNew
        · exact linked.cells other isOld
        · rw [List.mem_singleton.mp isNew, noSymbols]
          exact fun cell isCell => absurd isCell List.not_mem_nil
      count := by
        rw [sameExports]
        exact linked.count
      isInt := linked.isInt
      len := by
        rw [sameExports]
        exact linked.len }

/-- A section of an object that has no symbols yet. -/
theorem State.Linked.insertSection
    {mem : Memory} {outfileName : CString} {state next : State}
    (linked : state.Linked mem outfileName)
    (noSymbols : state.current.symbols = []) {p : Nat} {name : CString}
    (isNext : state.insertSection p name = some next) :
    next.Linked mem outfileName := by
  obtain ⟨containers, index, inRange, sameFiled, isOld, isInserted⟩ :=
    State.filed_of_insertSection isNext
  have isExports : next.exports = state.exports := by
    rw [isInserted]
    unfold State.exports State.objects
    rw [List.flatMap_append, List.flatMap_append]
    rfl
  have oneMore :
      List.range next.sections.length =
        List.range state.sections.length ++ [state.sections.length] := by
    rw [isInserted]
    unfold State.allocSectionChain
    rw [List.length_append, List.length_singleton, List.range_succ]
  refine
    { filed := ?_
      owned := ?_
      named := ?_
      cells := ?_
      count := ?_
      isInt := ?_
      len := ?_ }
  · rw [oneMore, isInserted]
    have isFiled := perm_flatMap_modify inRange state.sections.length
    rw [sameFiled] at isFiled
    exact isFiled.trans (linked.filed.append_right _)
  · rw [oneMore, ← linked.owned, isInserted]
    unfold State.objects State.allocSectionChain
    simp only [List.flatMap_append, List.flatMap_singleton,
      List.append_assoc]
  · rw [isInserted]
    intro sc member isNamed
    obtain ⟨k, isAt⟩ := List.mem_iff_getElem?.mp member
    unfold State.allocSectionChain at isAt
    rw [List.getElem?_modify] at isAt
    obtain ⟨old, isAtOld, rfl⟩ := Option.map_eq_some_iff.mp isAt
    by_cases isHere : index = k
    · simp [isHere]
    · simp only [isHere, ↓reduceIte] at isNamed ⊢
      exact
        linked.named old (isOld k old isAtOld (Ne.symm isHere)) isNamed
  · rw [isInserted]
    intro oc member
    rcases List.mem_append.mp member with isEarlier | isLast
    · exact linked.cells oc (List.mem_append_left _ isEarlier)
    · rw [List.mem_singleton.mp isLast]
      unfold State.allocSectionChain
      dsimp only
      rw [noSymbols]
      exact fun cell isCell => absurd isCell List.not_mem_nil
  · rw [isExports, isInserted]
    exact linked.count
  · rw [isInserted]
    exact linked.isInt
  · rw [isExports, isInserted]
    exact linked.len

/-! ## Symbols -/

/-- The first section, unless the section number is zero. -/
theorem exportSchain_eq_head?
    {shndx : Int} (isDefined : shndx ≠ 0) (sections : List Nat) :
    exportSchain shndx 0 sections = sections.head? := by
  cases sections with
  | nil => rfl
  | cons schain next => exact if_neg isDefined.symm

/-- An export that is counted extends the directory. -/
theorem directorySize_append
    (outfileName : CString) (exports : List SymbolChain)
    (cell : SymbolChain) :
    directorySize outfileName (exports ++ [cell]) =
      directorySize outfileName exports +
        (4 + 4 + 2 + cell.name.length + 1) := by
  unfold directorySize
  rw [List.map_append, List.sum_append, List.map_singleton,
    List.sum_singleton, Nat.add_assoc _ _ (4 + 4 + 2 + cell.name.length + 1)]

/-- An export whose section number is not zero. -/
theorem State.Linked.exportRecord
    {mem : Memory} {outfileName : CString} {state next : State}
    (linked : state.Linked mem outfileName) {is : Nat}
    (isNext : state.exportRecord mem outfileName is = some next)
    (isDefined : (mem.imageSymbol is).sectionNumber ≠ 0)
    (hasSections : state.current.sections ≠ []) :
    next.Linked mem outfileName := by
  have exports := (State.exports_of_exportRecord isNext).2
  have isLen := State.exportDirectoryLen_of_exportRecord isNext
  have isExports :
      next.exports = state.exports ++ [mem.symbolCell state.current is] := by
    unfold State.exports State.objects
    rw [List.flatMap_append, List.flatMap_append, List.flatMap_singleton,
      List.flatMap_singleton, exports.earlier, exports.symbols,
      List.append_assoc]
    rfl
  refine
    { filed := ?_
      owned := ?_
      named := ?_
      cells := ?_
      count := ?_
      isInt := ?_
      len := ?_ }
  · unfold State.filed
    rw [exports.containers, exports.sections]
    exact linked.filed
  · rw [exports.sections, ← linked.owned]
    unfold State.objects
    rw [List.flatMap_append, List.flatMap_append, List.flatMap_singleton,
      List.flatMap_singleton, exports.earlier, exports.objectSections]
  · rw [exports.containers]
    exact linked.named
  · intro oc member cell isCell
    rcases List.mem_append.mp member with isEarlier | isLast
    · rw [exports.earlier] at isEarlier
      exact linked.cells oc (List.mem_append_left _ isEarlier) cell isCell
    · rw [List.mem_singleton.mp isLast] at isCell ⊢
      rw [exports.symbols] at isCell
      rcases List.mem_append.mp isCell with isOld | isNew
      · have old :=
          linked.cells state.current
            (List.mem_append_right _ (List.mem_singleton_self _)) cell isOld
        exact
          { defined := old.defined
            name := by rw [exports.strTableP]; exact old.name
            schain := by rw [exports.objectSections]; exact old.schain
            sections := by rw [exports.objectSections]; exact old.sections }
      · rw [List.mem_singleton.mp isNew]
        exact
          { defined := isDefined
            name := by rw [exports.strTableP]; rfl
            schain := by
              rw [exports.objectSections]
              exact exportSchain_eq_head? isDefined _
            sections := by rw [exports.objectSections]; exact hasSections }
  · rw [isExports, exports.exportFuncCount _ linked.count,
      List.length_append, List.length_singleton]
    rfl
  · rw [isLen]
    exact Int.bmod_lt (m := 2 ^ 32) (by decide)
  · rw [isExports, directorySize_append]
    intro fits
    rw [if_neg (by simp), isLen]
    have previousFits :
        directorySize outfileName state.exports < 2 ^ 31 := by omega
    have isPrevious := linked.len previousFits
    have isStarted :
        (if state.exportDirectoryLen = 0 then
            int32 (sizeofExportDirectory + outfileName.length + 1)
          else
            state.exportDirectoryLen) =
          (directorySize outfileName state.exports : Int) := by
      by_cases noExports : state.exports = []
      · have isEmpty :
            directorySize outfileName state.exports =
              sizeofExportDirectory + outfileName.length + 1 := by
          rw [noExports]
          rfl
        rw [if_pos noExports] at isPrevious
        rw [if_pos isPrevious]
        rw [isEmpty] at previousFits ⊢
        exact_mod_cast (int32_natCast_eq_iff _).mpr previousFits
      · have isPositive : 0 < directorySize outfileName state.exports := by
          unfold directorySize
          omega
        rw [if_neg noExports] at isPrevious
        rw [if_neg (by omega), isPrevious]
    rw [isStarted]
    exact_mod_cast (int32_natCast_eq_iff _).mpr fits

/-! ## Reading an object -/

/-- The object that is being read has no symbols yet. -/
structure State.InSections
    (mem : Memory) (outfileName : CString) (state : State) : Prop where
  linked : state.Linked mem outfileName
  noSymbols : state.allocated = true → state.current.symbols = []
  hasSections : state.allocated = true → state.current.sections ≠ []

/-- The object that is being read has all its sections. -/
structure State.InSymbols
    (mem : Memory) (outfileName : CString) (state : State) : Prop where
  linked : state.Linked mem outfileName
  hasSections : state.allocated = true → state.current.sections ≠ []

/-- An inserted section is on the list of the object. -/
theorem State.sections_ne_nil_of_insertSection
    {state next : State} {p : Nat} {name : CString}
    (isNext : state.insertSection p name = some next) :
    next.current.sections ≠ [] := by
  obtain ⟨containers, index, _, _, _, rfl⟩ :=
    State.filed_of_insertSection isNext
  exact List.concat_ne_nil _ _

/-- A section callback leaves the lists linked. -/
theorem State.InSections.callback
    {mem : Memory} {outfileName : CString} {state next : State}
    (reading : state.InSections mem outfileName) {base isec : Nat}
    (isNext : coffSectionCallback mem base state isec = some next) :
    next.InSections mem outfileName := by
  have opened :
      (state.openObject mem base).Linked mem outfileName ∧
        (state.openObject mem base).current.symbols = [] := by
    unfold State.openObject
    split_ifs with isOpen
    · exact ⟨reading.linked, reading.noSymbols isOpen⟩
    · exact ⟨reading.linked.allocObjChain rfl rfl, rfl⟩
  exact
    { linked := opened.1.insertSection opened.2 isNext
      noSymbols := fun _ =>
        (State.insertSection_fields isNext).2.2.2.1.trans opened.2
      hasSections := fun _ => State.sections_ne_nil_of_insertSection isNext }

/-- Only the countdown changes. -/
theorem State.Linked.withAuxSymbols
    {mem : Memory} {outfileName : CString} {state : State}
    (linked : state.Linked mem outfileName) (count : Nat) :
    State.Linked mem outfileName { state with auxSymbols := count } :=
  ⟨linked.filed, linked.owned, linked.named, linked.cells, linked.count,
    linked.isInt, linked.len⟩

/-- A symbol callback leaves the lists linked. -/
theorem State.InSymbols.callback
    {mem : Memory} {outfileName : CString} {state next : State}
    (reading : state.InSymbols mem outfileName) {is : Nat}
    (isNext : coffSymtabCallback mem outfileName state is = some next) :
    next.InSymbols mem outfileName := by
  obtain ⟨visited, count, rfl, isVisited⟩ :=
    visits_of_coffSymtabCallback isNext
  have isReading : visited.InSymbols mem outfileName := by
    rcases isVisited with rfl | ⟨isOpen, isVisited⟩
    · exact reading
    · unfold State.visitRecord at isVisited
      split_ifs at isVisited with isRegistered
      · have exports := (State.exports_of_exportRecord isVisited).2
        exact
          { linked :=
              reading.linked.exportRecord isVisited isRegistered.2
                (reading.hasSections isOpen)
            hasSections := fun _ => by
              rw [exports.objectSections]
              exact reading.hasSections isOpen }
      · cases isVisited
        exact reading
  exact ⟨isReading.linked.withAuxSymbols count, isReading.hasSections⟩

/-- Reading an object leaves the lists linked. -/
theorem State.Linked.readObject
    {mem : Memory} {outfileName : CString} {state next : State}
    (linked : state.Linked mem outfileName) {base : Nat}
    (isNext : readObject mem outfileName state base = some next) :
    next.Linked mem outfileName := by
  obtain ⟨opened, isOpened, isNext⟩ := Option.bind_eq_some_iff.mp isNext
  have isStart :
      State.InSections mem outfileName { state with allocated := false } :=
    { linked :=
        ⟨linked.filed, linked.owned, linked.named, linked.cells,
          linked.count, linked.isInt, linked.len⟩
      noSymbols := fun isOpen => by cases isOpen
      hasSections := fun isOpen => by cases isOpen }
  have inSections : opened.InSections mem outfileName := by
    unfold runThroughCoffShdr3 at isOpened
    split_ifs at isOpened with noSections
    · cases isOpened
      exact isStart
    · apply CountedLoop.run_keeps _ isOpened isStart
      exact fun _ _ _ reading isNext => reading.callback isNext
  have inSymbols : next.InSymbols mem outfileName :=
    CountedLoop.run_keeps
      (fun _ _ _ reading isNext => reading.callback isNext) isNext
      ⟨inSections.linked, inSections.hasSections⟩
  exact inSymbols.linked

/-- The lists at the start of the linker. -/
theorem State.linked_start (mem : Memory) (outfileName : CString) :
    State.Linked mem outfileName {} where
  filed := List.Perm.refl _
  owned := rfl
  named := by
    intro sc member isNamed
    rw [List.mem_singleton.mp member] at isNamed
    exact absurd rfl isNamed
  cells := by
    intro oc member cell isCell
    rw [List.mem_singleton.mp member] at isCell
    exact absurd isCell List.not_mem_nil
  count := rfl
  isInt := by decide
  len := fun _ => rfl

/-- However many objects are read, the lists are linked. -/
theorem State.Linked.readObjects
    {mem : Memory} {outfileName : CString} {state final : State}
    (linked : state.Linked mem outfileName) {bases : List Nat}
    (isFinal : readObjects mem outfileName state bases = some final) :
    final.Linked mem outfileName := by
  unfold CoffObject.readObjects at isFinal
  induction bases generalizing state with
  | nil =>
      cases isFinal
      exact linked
  | cons base bases inductionHypothesis =>
      rw [List.foldlM_cons] at isFinal
      obtain ⟨next, isNext, isRest⟩ := Option.bind_eq_some_iff.mp isFinal
      exact inductionHypothesis (linked.readObject isNext) isRest

/-! ## Section headers -/

/-- The sections of an object, with the address of the object. -/
def ObjectChain.outline (oc : ObjectChain) : List Nat × Nat :=
  (oc.sections, oc.mapBase)

/-- The sections of every object are the headers of its section table. -/
def State.Headed (mem : Memory) (state : State) : Prop :=
  ∀ outline ∈ state.objects.map ObjectChain.outline, outline.1 ≠ [] →
    outline.1.map (pointerAt state.sections) =
      mem.sectionAddresses outline.2

/-- What section callbacks for an open object do. -/
structure State.Walks (addresses : List Nat) (state last : State) : Prop where
  sections :
    last.sections.map SectionChain.p =
      state.sections.map SectionChain.p ++ addresses
  objectSections :
    last.current.sections =
      state.current.sections ++
        List.range' state.sections.length addresses.length
  mapBase : last.current.mapBase = state.current.mapBase
  earlier : last.earlier = state.earlier

/-- Section callbacks and then further ones. -/
theorem State.Walks.append
    {first second : List Nat} {state next last : State}
    (earlier : state.Walks first next) (later : next.Walks second last) :
    state.Walks (first ++ second) last := by
  have more := congrArg List.length earlier.sections
  rw [List.length_map, List.length_append, List.length_map] at more
  exact
    { sections := by
        rw [later.sections, earlier.sections, List.append_assoc]
      objectSections := by
        rw [later.objectSections, earlier.objectSections, more,
          List.append_assoc, List.length_append, List.range'_append_1]
      mapBase := later.mapBase.trans earlier.mapBase
      earlier := later.earlier.trans earlier.earlier }

/-- An inserted section is the last one of its object. -/
theorem State.walks_insertSection
    {state next : State} {p : Nat} {name : CString}
    (isNext : state.insertSection p name = some next) :
    state.Walks [p] next := by
  obtain ⟨containers, index, _, _, _, rfl⟩ :=
    State.filed_of_insertSection isNext
  exact ⟨List.map_append, rfl, rfl, rfl⟩

/-- The rest of a section table. -/
theorem State.walks_foldlM
    {mem : Memory} {base : Nat} {addresses : List Nat} {state last : State}
    (isOpen : state.allocated = true)
    (isLast :
      addresses.foldlM (coffSectionCallback mem base) state = some last) :
    state.Walks addresses last := by
  induction addresses generalizing state with
  | nil =>
      cases isLast
      exact
        ⟨(List.append_nil _).symm, (List.append_nil _).symm, rfl, rfl⟩
  | cons isec rest inductionHypothesis =>
      rw [List.foldlM_cons] at isLast
      obtain ⟨next, isNext, isLast⟩ := Option.bind_eq_some_iff.mp isLast
      have isSame : state.openObject mem base = state := if_pos isOpen
      unfold coffSectionCallback at isNext
      rw [isSame] at isNext
      have stillOpen :=
        (State.insertSection_fields isNext).2.1.trans isOpen
      exact
        (State.walks_insertSection isNext).append
          (inductionHypothesis stillOpen isLast)

/-- Pointers are read from the list of all pointers. -/
theorem pointerAt_eq_getD (sections : List SectionChain) (id : Nat) :
    pointerAt sections id = (sections.map SectionChain.p).getD id 0 :=
  (List.getD_map _ _ SectionChain.p).symm

/-- More sections do not change where the earlier ones point. -/
theorem pointerAt_kept
    {earlier later : List SectionChain} {addresses : List Nat}
    (isAppended :
      later.map SectionChain.p = earlier.map SectionChain.p ++ addresses)
    {id : Nat} (isOld : id < earlier.length) :
    pointerAt later id = pointerAt earlier id := by
  rw [pointerAt_eq_getD, pointerAt_eq_getD, isAppended]
  exact List.getD_append _ _ _ _ (by rwa [List.length_map])

/-- The new sections point to the addresses they were read from. -/
theorem map_pointerAt_range'
    {earlier later : List SectionChain} {addresses : List Nat}
    (isAppended :
      later.map SectionChain.p = earlier.map SectionChain.p ++ addresses) :
    (List.range' earlier.length addresses.length).map (pointerAt later) =
      addresses := by
  apply List.ext_getElem
  · rw [List.length_map, List.length_range']
  · intro index _ inRange
    have isNew :
        (earlier.map SectionChain.p).length ≤ earlier.length + index := by
      rw [List.length_map]
      exact Nat.le_add_right _ _
    rw [List.getElem_map, List.getElem_range', Nat.one_mul,
      pointerAt_eq_getD, isAppended, List.getD_append_right _ _ _ _ isNew, List.length_map,
      Nat.add_sub_cancel_left]
    exact List.getD_eq_getElem _ _ inRange

/-- The sections of an object are numbered below the number of sections. -/
theorem State.Linked.section_lt
    {mem : Memory} {outfileName : CString} {state : State}
    (linked : state.Linked mem outfileName) {oc : ObjectChain}
    (isObject : oc ∈ state.objects) {id : Nat} (isSection : id ∈ oc.sections) :
    id < state.sections.length := by
  apply List.mem_range.mp
  rw [← linked.owned]
  exact List.mem_flatMap.mpr ⟨oc, isObject, isSection⟩

/-- A whole section table, from an object that is not allocated. -/
theorem State.exists_walks
    {mem : Memory} {base : Nat} {state last : State}
    (isNull : state.allocated = false) {isec : Nat} {rest : List Nat}
    (isLast :
      (isec :: rest).foldlM (coffSectionCallback mem base) state =
        some last) :
    ∃ opened : State,
      opened.Walks (isec :: rest) last ∧
        opened.sections = state.sections ∧
        opened.earlier = state.objects ∧
        opened.current.sections = [] ∧ opened.current.mapBase = base := by
  rw [List.foldlM_cons] at isLast
  obtain ⟨next, isNext, isLast⟩ := Option.bind_eq_some_iff.mp isLast
  have isOpen := (State.opens_first isNull isNext).allocated
  have isClosed : ¬ state.allocated = true := by simp [isNull]
  have isOpened :
      state.openObject mem base =
        state.allocObjChain
          { symbolTableP := mem.symbolTable base
            strTableP := mem.stringTable base
            mapBase := base } :=
    if_neg isClosed
  unfold coffSectionCallback at isNext
  rw [isOpened] at isNext
  exact
    ⟨_,
      (State.walks_insertSection isNext).append
        (State.walks_foldlM isOpen isLast),
      rfl, rfl, rfl, rfl⟩

/-- Reading the sections of an object keeps the headers in order. -/
theorem State.Headed.runThroughCoffShdr3
    {mem : Memory} {outfileName : CString} {state opened : State}
    (headed : state.Headed mem) (linked : state.Linked mem outfileName)
    (isNull : state.allocated = false) {base : Nat}
    (isOpened : runThroughCoffShdr3 mem base state = some opened) :
    opened.Headed mem := by
  rw [runThroughCoffShdr3_eq] at isOpened
  cases isTable : mem.sectionAddresses base with
  | nil =>
      rw [isTable] at isOpened
      cases isOpened
      exact headed
  | cons isec rest =>
      rw [isTable] at isOpened
      obtain ⟨start, walks, sameSections, isEarlier, noneYet, isBase⟩ :=
        State.exists_walks isNull isOpened
      rw [← isTable] at walks
      intro outline member hasSections
      unfold State.objects at member
      rw [walks.earlier, isEarlier, List.map_append, List.mem_append,
        List.map_singleton, List.mem_singleton] at member
      rcases member with isOld | rfl
      · rw [← headed outline isOld hasSections]
        obtain ⟨oc, isObject, rfl⟩ := List.mem_map.mp isOld
        apply List.map_congr_left
        intro id isSection
        rw [pointerAt_kept walks.sections
          (by rw [sameSections]; exact linked.section_lt isObject isSection),
          sameSections]
      · unfold ObjectChain.outline
        dsimp only
        rw [walks.objectSections, noneYet, walks.mapBase, isBase,
          List.nil_append]
        exact map_pointerAt_range' walks.sections

/-- The symbol callback changes neither sections nor their lists. -/
theorem coffSymtabCallback_outlines
    {mem : Memory} {outfileName : CString} {state next : State} {is : Nat}
    (isNext : coffSymtabCallback mem outfileName state is = some next) :
    next.sections = state.sections ∧
      next.objects.map ObjectChain.outline =
        state.objects.map ObjectChain.outline := by
  obtain ⟨visited, count, rfl, rfl | ⟨_, isVisited⟩⟩ :=
    visits_of_coffSymtabCallback isNext
  · exact ⟨rfl, rfl⟩
  · unfold State.visitRecord at isVisited
    split_ifs at isVisited
    · obtain ⟨grown, isGrown, rfl⟩ := Option.map_eq_some_iff.mp isVisited
      obtain ⟨_, isGrown⟩ := Option.ite_none_right_eq_some.mp isGrown
      cases isGrown
      refine ⟨rfl, ?_⟩
      unfold State.objects
      rw [List.map_append, List.map_append]
      rfl
    · cases isVisited
      exact ⟨rfl, rfl⟩

/-- Reading an object keeps the headers in order. -/
theorem State.Headed.readObject
    {mem : Memory} {outfileName : CString} {state next : State}
    (headed : state.Headed mem) (linked : state.Linked mem outfileName)
    {base : Nat}
    (isNext : readObject mem outfileName state base = some next) :
    next.Headed mem := by
  obtain ⟨opened, isOpened, isNext⟩ := Option.bind_eq_some_iff.mp isNext
  have linkedStart :
      State.Linked mem outfileName { state with allocated := false } :=
    ⟨linked.filed, linked.owned, linked.named, linked.cells, linked.count,
      linked.isInt, linked.len⟩
  have headedStart : State.Headed mem { state with allocated := false } :=
    headed
  apply CountedLoop.run_keeps _ isNext
    (headedStart.runThroughCoffShdr3 linkedStart rfl isOpened)
  intro state is next headed isNext
  obtain ⟨sameSections, sameOutlines⟩ := coffSymtabCallback_outlines isNext
  unfold State.Headed
  rw [sameSections, sameOutlines]
  exact headed

/-- However many objects are read, the headers are in order. -/
theorem State.Headed.readObjects
    {mem : Memory} {outfileName : CString} {state final : State}
    (headed : state.Headed mem) (linked : state.Linked mem outfileName)
    {bases : List Nat}
    (isFinal : readObjects mem outfileName state bases = some final) :
    final.Headed mem := by
  unfold CoffObject.readObjects at isFinal
  induction bases generalizing state with
  | nil =>
      cases isFinal
      exact headed
  | cons base bases inductionHypothesis =>
      rw [List.foldlM_cons] at isFinal
      obtain ⟨next, isNext, isRest⟩ := Option.bind_eq_some_iff.mp isFinal
      exact
        inductionHypothesis (headed.readObject linked isNext)
          (linked.readObject isNext) isRest

/-- No object has sections at the start of the linker. -/
theorem State.headed_start (mem : Memory) : State.Headed mem {} := by
  intro outline member hasSections
  rw [List.mem_singleton.mp member] at hasSections
  exact absurd rfl hasSections

end BinTools.CoffObject
