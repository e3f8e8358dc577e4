import BinTools.ElfLoaderStart

namespace BinTools.Loader

/-!
# The dependency graph after loading

With the loader behind the start-up libraries, the program and what it needs
follow.  The loader's own slot only has the bits of its four needs.
-/

variable {libs : Libraries} {state : State}

namespace State

/-- The loader keeps its name. -/
theorem name_addLoader (k : Nat) : state.addLoader.name k = state.name k := by
  unfold addLoader State.name
  dsimp only
  rw [field_modify Dso.name, field_modify Dso.name]
  · exact fun _ => rfl
  · exact fun _ => rfl

/-- The loader is behind the slot 3. -/
theorem next_addLoader (isSize : state.dsos.length = 10) (k : Nat) :
    state.addLoader.next k = if k = 3 then some 4 else state.next k := by
  have inRange : 3 < state.dsos.length := by omega
  unfold addLoader next
  dsimp only
  rw [field_modify Dso.next]
  · exact PointerList.link_modify inRange (by intro; rfl) k
  · exact fun _ => rfl

/-- The loader has the bits of four slots. -/
theorem depsIndex_addLoader (isSize : state.dsos.length = 10) (k : Nat) :
    state.addLoader.depsIndex k =
      if k = 4 then 15 else state.depsIndex k := by
  unfold addLoader depsIndex
  by_cases isLoader : k = 4
  · subst isLoader
    simp [isSize]
  · rw [if_neg isLoader]
    dsimp only
    rw [List.getElem?_modify_ne _ _ (Ne.symm isLoader), List.getElem?_modify]
    cases state.dsos[k]? with
    | none => rfl
    | some dso => by_cases isThird : 3 = k <;> simp [isThird]

end State

/-- The libraries in the slots 0 to 4. -/
def Libraries.first (libs : Libraries) : List CString :=
  libs.startup ++ [loaderName]

/-- Five libraries. -/
theorem length_first (libs : Libraries) : libs.first.length = 5 := by
  rw [Libraries.first, List.length_append, Libraries.startup, libs.four,
    List.length_singleton]

/-- There are start-up libraries. -/
theorem Begun.started
    (begun : Begun state libs.startup) : Started state libs.startup := by
  rcases begun with ⟨isEmpty, _⟩ | started
  · have isFour := libs.four
    rw [← Libraries.startup, isEmpty] at isFour
    cases isFour
  · exact started

/-- The slots once the loader has its place. -/
theorem Started.open
    (started : Started state libs.startup) :
    Open libs state.addLoader libs.first := by
  have isFour : libs.startup.length = 4 := libs.four
  have isFive := length_first libs
  have isName (slot : Nat) :
      state.name slot =
        if slot < 4 then libs.startup[slot]?
        else if slot = 4 then some loaderName else none := by
    split_ifs with isStartup isLoader
    · exact started.lists.named slot (by omega)
    · rw [started.others slot (by omega), if_pos isLoader]
    · rw [started.others slot (by omega), if_neg isLoader]
  have isFirst (slot : Nat) : libs.first[slot]? = state.name slot := by
    rw [isName, Libraries.first]
    split_ifs with isStartup isLoader
    · rw [List.getElem?_append_left (by omega)]
    · rw [isLoader, ← isFour, List.getElem?_concat_length]
    · rw [List.getElem?_eq_none]
      rw [List.length_append, List.length_singleton]
      omega
  refine
    { lists := ⟨?_, ?_, isFive.symm⟩
      ends := ?_
      empty := ?_
      size := by simp [State.addLoader, started.size]
      relocated := rfl
      distinct := ?_
      known := ?_
      needed := ?_
      filled := ?_ }
  · intro slot _
    rw [State.name_addLoader, isFirst]
  · intro slot isInner
    rw [State.next_addLoader started.size]
    split_ifs with isThird
    · rw [isThird]
    · exact started.lists.linked slot (by omega)
  · intro slot isBehind
    rw [State.next_addLoader started.size, if_neg (by omega)]
    exact started.ends slot (by omega)
  · intro slot isBehind
    rw [State.name_addLoader, isName, if_neg (by omega), if_neg (by omega)]
  · refine
      List.nodup_append.mpr
        ⟨libs.apart, List.nodup_singleton loaderName, ?_⟩
    rintro one isOne two isTwo rfl
    rw [List.mem_singleton.mp isTwo] at isOne
    exact libs.others isOne
  · intro name member
    rcases List.mem_append.mp member with isStartup | isLoader
    · exact libs.closed loaderName libs.hasLoader name isStartup
    · exact List.mem_singleton.mp isLoader ▸ libs.hasLoader
  · intro name member
    rcases List.mem_append.mp member with isStartup | isLoader
    · exact .need .loader isStartup
    · exact List.mem_singleton.mp isLoader ▸ .loader
  · intro fill member
    rw [State.name_addLoader]
    exact started.filled fill member

/-- The names of the slots are the list. -/
theorem Open.name_eq
    {names : List CString} (isOpen : Open libs state names) (slot : Nat) :
    state.name slot = names[slot]? := by
  rcases Nat.lt_or_ge slot names.length with inList | isBehind
  · exact isOpen.lists.named slot inList
  · rw [isOpen.empty slot isBehind, List.getElem?_eq_none isBehind]

/-- A library is at its place in the list. -/
theorem Open.name_eq_some_iff
    {names : List CString} (isOpen : Open libs state names)
    {name : CString} (member : name ∈ names) (slot : Nat) :
    state.name slot = some name ↔ names.idxOf name = slot := by
  rw [isOpen.name_eq]
  constructor
  · intro isName
    obtain ⟨inList, same⟩ := List.getElem?_eq_some_iff.mp isName
    rw [← same]
    exact isOpen.distinct.idxOf_getElem slot inList
  · rintro rfl
    exact List.getElem?_idxOf member

/-- The bits of the needs are those of their slots. -/
theorem Open.bits_iff
    {names : List CString} (isOpen : Open libs state names)
    {slot : Nat} {needs : List CString}
    (bits : Bits state names slot needs) (bit : Nat) :
    (state.depsIndex slot).testBit bit = true ↔
      bit = slot ∨ ∃ need ∈ needs, state.name bit = some need := by
  rw [bits.bits]
  refine or_congr_right (exists_congr fun need => and_congr_right ?_)
  intro member
  rw [isOpen.name_eq_some_iff (bits.listed need member)]

/-- The slots in use are the cells of the list. -/
theorem Open.listed
    {names : List CString} (isOpen : Open libs state names) :
    ∃ slots,
      PointerList.Linked state.next (some 0) slots ∧ slots.Nodup ∧
        ∀ slot, slot ∈ slots ↔ (state.name slot).isSome := by
  have isLast := isOpen.lists.last
  have links :
      ∀ k < names.length,
        state.next k =
          if k + 1 < names.length then some (k + 1) else none := by
    intro k inList
    split_ifs with isInner
    · exact isOpen.lists.linked k isInner
    · exact isOpen.ends k (by omega)
  have linked :=
    PointerList.linked_of_chain links (Nat.zero_add names.length)
  rw [if_neg (by omega)] at linked
  refine
    ⟨List.range' 0 names.length, linked, List.nodup_range', fun slot => ?_⟩
  rw [isOpen.name_eq, List.mem_range'_1, Option.isSome_iff_exists]
  constructor
  · rintro ⟨_, inList⟩
    rw [Nat.zero_add] at inList
    exact ⟨_, List.getElem?_eq_getElem inList⟩
  · rintro ⟨name, isName⟩
    have inList := (List.getElem?_eq_some_iff.mp isName).1
    omega

/-- All slots in use once the program was loaded. -/
structure Complete
    (libs : Libraries) (state : State) (names : List CString) : Prop where
  isOpen : Open libs state names
  isPrefix : libs.first ++ [libs.program] <+: names
  loader : state.depsIndex 4 = 15
  bits :
    ∀ slot name, slot ≠ 4 → names[slot]? = some name →
      Bits state names slot (libs.needs name)

/-- The program was loaded behind the loader. -/
theorem Open.complete
    {before : State} {names : List CString}
    (isOpen : Open libs state names)
    (isPrefix : libs.first ++ [libs.program] <+: names)
    (grown : Grown libs before.addLoader libs.first state names)
    (isSize : before.dsos.length = 10)
    (bits :
      ∀ slot name, libs.startup[slot]? = some name →
        Bits before libs.startup slot (libs.needs name)) :
    Complete libs state names where
  isOpen := isOpen
  isPrefix := isPrefix
  loader := by
    rw [grown.kept 4 (by rw [length_first]; decide),
      State.depsIndex_addLoader isSize, if_pos rfl]
  bits := by
    intro slot name isOther isName
    have isFour : libs.startup.length = 4 := libs.four
    have isFive := length_first libs
    rcases Nat.lt_or_ge slot 4 with isStartup | isBehind
    · have isFirst : libs.startup <+: names :=
        (List.prefix_append _ _).trans grown.isPrefix
      have wasName : libs.startup[slot]? = some name := by
        obtain ⟨more, rfl⟩ := isFirst
        rwa [List.getElem?_append_left (by omega)] at isName
      refine (bits slot name wasName).mono isFirst ?_
      rw [grown.kept slot (by omega), State.depsIndex_addLoader isSize,
        if_neg isOther]
    · exact grown.bits slot name (by omega) isName

/-- The place of the loader. -/
theorem Complete.loader_eq
    {names : List CString} (complete : Complete libs state names) :
    names[4]? = some loaderName := by
  have isFour : libs.startup.length = 4 := libs.four
  obtain ⟨more, rfl⟩ := complete.isPrefix
  rw [Libraries.first, List.append_assoc, List.append_assoc,
    List.getElem?_append_right (by omega), isFour]
  rfl

/-- Every needed library is in the list. -/
theorem Complete.mem_of_needed
    {names : List CString} (complete : Complete libs state names)
    {name : CString} (isNeeded : Needed libs name) : name ∈ names := by
  induction isNeeded with
  | loader => exact List.mem_of_getElem? complete.loader_eq
  | program => exact complete.isPrefix.subset (by simp)
  | @need name need isNeeded member inductionHypothesis =>
      obtain ⟨slot, isSlot⟩ := List.mem_iff_getElem?.mp inductionHypothesis
      by_cases isLoader : slot = 4
      · rw [isLoader, complete.loader_eq, Option.some_inj] at isSlot
        rw [← isSlot] at member
        exact
          complete.isPrefix.subset
            (List.mem_append_left _ (List.mem_append_left _ member))
      · exact (complete.bits slot name isLoader isSlot).listed need member

/-- The start-up libraries have the first four slots. -/
theorem Complete.startup_iff
    {names : List CString} (complete : Complete libs state names)
    (bit : Nat) :
    (∃ need ∈ libs.needs loaderName, state.name bit = some need) ↔
      bit < 4 := by
  have isFour : libs.startup.length = 4 := libs.four
  have isFirst : libs.startup <+: names :=
    (List.prefix_append _ [loaderName]).trans
      ((List.prefix_append _ [libs.program]).trans complete.isPrefix)
  obtain ⟨more, rfl⟩ := isFirst
  constructor
  · rintro ⟨need, member, isName⟩
    have inStartup : need ∈ libs.startup := member
    have isPlace :=
      (complete.isOpen.name_eq_some_iff
        (List.mem_append_left more inStartup) bit).mp isName
    rw [List.idxOf_append_of_mem inStartup] at isPlace
    have inRange := List.idxOf_lt_length_of_mem inStartup
    omega
  · intro isSmall
    have inRange : bit < libs.startup.length := by omega
    refine ⟨libs.startup[bit], List.getElem_mem inRange, ?_⟩
    rw [complete.isOpen.name_eq, List.getElem?_append_left inRange,
      List.getElem?_eq_getElem inRange]

/-- Then loading has done what it is for. -/
theorem Complete.loaded
    {names : List CString} (complete : Complete libs state names) :
    Loaded (fun slot => slot ≠ 4) libs state where
  needed := by
    intro slot name isName
    rw [complete.isOpen.name_eq] at isName
    exact complete.isOpen.needed name (List.mem_of_getElem? isName)
  once := by
    intro name isNeeded
    have member := complete.mem_of_needed isNeeded
    refine
      ⟨names.idxOf name,
        (complete.isOpen.name_eq_some_iff member _).mpr rfl,
        fun other isOther => ?_⟩
    exact ((complete.isOpen.name_eq_some_iff member other).mp isOther).symm
  kept := by
    intro one isOne two isTwo sameSlot
    have oneName := complete.isOpen.filled one isOne
    rw [sameSlot, complete.isOpen.filled two isTwo, Option.some_inj] at oneName
    exact oneName.symm
  listed := complete.isOpen.listed
  bits := by
    intro slot name isName bit
    rw [complete.isOpen.name_eq] at isName
    by_cases isLoader : slot = 4
    · subst isLoader
      rw [complete.loader_eq, Option.some_inj] at isName
      subst isName
      have isStartup := complete.startup_iff bit
      have isMask : (15 : Nat) = 2 ^ 4 - 1 := rfl
      rw [isStartup, complete.loader, isMask, Nat.testBit_two_pow_sub_one]
      simp
    · rw [complete.isOpen.bits_iff (complete.bits slot name isLoader isName)]
      simp [isLoader]

/-- Loading in order does what it is for. -/
theorem StartsInOrder.loads
    (inOrder : StartsInOrder libs) :
    Loads (fun slot => slot ≠ 4) libs := by
  have known : ∀ name ∈ libs.startup, name ∈ libs.names :=
    libs.closed loaderName libs.hasLoader
  have isFour : libs.startup.length = 4 := libs.four
  obtain ⟨before, isBefore, begun, bits⟩ :=
    exists_loadStartup (show 4 ≤ 10 by decide) (Nat.le_of_eq isFour) known
      inOrder.inOrder
  have started := begun.started
  have isNew : libs.program ∉ libs.first := by
    have notLoaded := inOrder.isNew
    rw [Libraries.first]
    simpa [not_or, and_comm] using notLoaded
  have isDeep : libs.names.length < libs.first.length + 10 := by
    have few := libs.few
    rw [length_first]
    omega
  obtain ⟨later, names, isLater, isOpen, isPrefix, grown⟩ :=
    started.open.loadLibrary (Nat.le_refl 10) isDeep libs.hasProgram isNew
      .program
  have complete := isOpen.complete isPrefix grown started.size bits
  refine ⟨10, later, ?_, complete.loaded⟩
  rw [start, isBefore, Option.bind_some, isLater]
  rfl

/-- Loading that does what it is for was in order. -/
theorem startsInOrder_of_loaded
    {own : Nat → Prop} {fuel : Nat} (isStart : start libs fuel = some state)
    (loaded : Loaded own libs state) : StartsInOrder libs := by
  have isFour : libs.startup.length = 4 := libs.four
  obtain ⟨before, isBefore, isRest⟩ := Option.bind_eq_some_iff.mp isStart
  obtain ⟨⟨later, dso⟩, isLater, rfl⟩ := Option.map_eq_some_iff.mp isRest
  obtain ⟨inOrder, begun⟩ :=
    of_loadStartup (Nat.le_of_eq isFour) isBefore
  have isOpen := begun.started.open
  obtain ⟨keeps, _, isProgram⟩ := keeps_loadLibrary isLater
  refine ⟨inOrder, fun member => ?_⟩
  have inFirst : libs.program ∈ libs.first := by
    rw [Libraries.first]
    simpa [or_comm] using member
  have inList := List.idxOf_lt_length_of_mem inFirst
  rw [length_first] at inList
  have isFirst :
      later.name (libs.first.idxOf libs.program) = some libs.program := by
    have isTail : before.addLoader.tail = 4 := rfl
    rw [keeps.names _ (by omega)]
    exact (isOpen.name_eq_some_iff inFirst _).mpr rfl
  have isSame :=
    (loaded.once libs.program .program).unique isFirst isProgram
  have isTail : before.addLoader.tail + 1 = 5 := rfl
  omega

/--
Loading comes to an end with every needed library in one slot, linked once and
with the bits of its needs, exactly when the start-up libraries are in order and
the program is none of the libraries that are loaded by then.
-/
theorem loads_iff_startsInOrder (libs : Libraries) :
    Loads (fun slot => slot ≠ 4) libs ↔ StartsInOrder libs := by
  constructor
  · rintro ⟨fuel, state, isStart, loaded⟩
    exact startsInOrder_of_loaded isStart loaded
  · exact StartsInOrder.loads

/-- The loader's own slot never has its own bit. -/
theorem depsIndex_loader
    {fuel : Nat} (isStart : start libs fuel = some state) :
    state.name 4 = some loaderName ∧ state.depsIndex 4 = 15 := by
  have isFour : libs.startup.length = 4 := libs.four
  obtain ⟨before, isBefore, isRest⟩ := Option.bind_eq_some_iff.mp isStart
  obtain ⟨⟨later, dso⟩, isLater, rfl⟩ := Option.map_eq_some_iff.mp isRest
  obtain ⟨_, begun⟩ := of_loadStartup (Nat.le_of_eq isFour) isBefore
  have started := begun.started
  obtain ⟨keeps, _, _⟩ := keeps_loadLibrary isLater
  have isTail : before.addLoader.tail = 4 := rfl
  constructor
  · rw [keeps.names 4 (Nat.le_of_eq isTail.symm), State.name_addLoader,
      started.others 4 (Nat.le_of_eq isFour), if_pos rfl]
  · rw [keeps.deps 4 (Nat.le_of_eq isTail.symm),
      State.depsIndex_addLoader started.size, if_pos rfl]

/-- The needs of a program with a library of its own. -/
def sampleNeeds (name : CString) : List CString :=
  if name = loaderName then
    [CString.ofString "__z__os.so", CString.ofString "__z__logger.so",
      CString.ofString "__z__mem.so", CString.ofString "__z__obj.so"]
  else if name = CString.ofString "__z__mem.so" then
    [CString.ofString "__z__os.so", CString.ofString "__z__logger.so"]
  else if name = CString.ofString "main" then
    [CString.ofString "__z__mem.so", CString.ofString "util.so"]
  else if name = CString.ofString "util.so" then
    [CString.ofString "__z__os.so", CString.ofString "main"]
  else
    []

/-- The loader and the program, with any needs of the first library. -/
def sample (first : List CString)
    (known :
      ∀ need ∈ first,
        need ∈
          [CString.ofString "__z__os.so",
            CString.ofString "__z__logger.so"]) :
    Libraries where
  names :=
    [CString.ofString "__z__os.so", CString.ofString "__z__logger.so",
      CString.ofString "__z__mem.so", CString.ofString "__z__obj.so",
      loaderName, CString.ofString "main", CString.ofString "util.so"]
  needs := fun name =>
    if name = CString.ofString "__z__os.so" then first else sampleNeeds name
  program := CString.ofString "main"
  distinct := by decide +kernel
  few := by decide
  closed := by
    intro name member need isNeed
    by_cases isFirst : name = CString.ofString "__z__os.so"
    · rw [if_pos isFirst] at isNeed
      have isKnown := known need isNeed
      simp only [List.mem_cons, List.not_mem_nil, or_false] at isKnown ⊢
      tauto
    · rw [if_neg isFirst] at isNeed
      revert name need
      decide +kernel
  hasLoader := by decide +kernel
  hasProgram := by decide +kernel
  four := by
    rw [if_neg (by decide +kernel)]
    decide +kernel
  apart := by
    rw [if_neg (by decide +kernel)]
    decide +kernel
  others := by
    rw [if_neg (by decide +kernel)]
    decide +kernel

/--
Without any needs of the first library the loader still lacks its own bit, and
a first library that needs the second one is never loaded.
-/
theorem not_loads_sample :
    ¬ Loads (fun _ => True) (sample [] (by simp)) ∧
      ¬ Loads (fun _ => True)
        (sample [CString.ofString "__z__logger.so"] (by simp)) := by
  constructor
  · rintro ⟨fuel, state, isStart, loaded⟩
    obtain ⟨isName, isIndex⟩ := depsIndex_loader isStart
    have isOwn :=
      (loaded.bits 4 loaderName isName 4).mpr (Or.inl ⟨rfl, trivial⟩)
    rw [isIndex] at isOwn
    cases isOwn
  · rintro ⟨fuel, state, isStart, loaded⟩
    have inOrder := (startsInOrder_of_loaded isStart loaded).inOrder
    have isEarlier :=
      inOrder 0 (CString.ofString "__z__os.so") (by decide +kernel)
        (CString.ofString "__z__logger.so") (by decide +kernel)
    revert isEarlier
    decide +kernel

end BinTools.Loader
