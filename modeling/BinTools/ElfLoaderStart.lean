import BinTools.ElfLoaderRun
import Mathlib.Data.List.Induction

namespace BinTools.Loader

/-!
# The start-up libraries

While the start-up libraries are loaded, no library can be loaded without a
given slot.  So every one of them needs only itself and those before it, and
then the loader and the program follow in order.
-/

variable {libs : Libraries} {state : State} {names : List CString}

/-- The state of the slots after some start-up libraries. -/
structure Started (state : State) (names : List CString) : Prop where
  lists : Lists state names
  ends : ∀ slot, names.length ≤ slot → state.next slot = none
  turns : ∀ slot, state.next state.tail = some slot → slot = state.tail
  others :
    ∀ slot, names.length ≤ slot →
      state.name slot = if slot = 4 then some loaderName else none
  size : state.dsos.length = 10
  unbound : state.relocated = false
  filled : ∀ fill ∈ state.filled, state.name fill.1 = some fill.2

/-- A new dependency changes nothing else. -/
theorem Started.addDep
    (started : Started state names) (slot dso : Nat) :
    Started (state.addDep slot dso) names where
  lists := started.lists.addDep slot dso
  ends := fun k isBehind =>
    (state.next_addDep dso k).trans (started.ends k isBehind)
  turns := by
    intro k isNext
    rw [State.next_addDep] at isNext
    exact started.turns k isNext
  others := fun k isBehind =>
    (state.name_addDep dso k).trans (started.others k isBehind)
  size := (state.length_addDep dso).trans started.size
  unbound := started.unbound
  filled := fun fill member =>
    (state.name_addDep dso fill.1).trans (started.filled fill member)

/-- The first library is linked to itself. -/
theorem started_first (name : CString) :
    Started (initial.enter 0 name) [name] := by
  have inRange : 0 < initial.dsos.length := by decide
  have inRangeTail : initial.tail < initial.dsos.length := by decide
  have noNext : ∀ slot, initial.next slot = none := by
    intro slot
    rcases Nat.lt_or_ge slot 10 with isSlot | isBehind
    · revert isSlot
      revert slot
      decide
    · rw [State.next, List.getElem?_eq_none (by simpa [initial])]
      rfl
  have isName :
      ∀ slot,
        initial.name slot = if slot = 4 then some loaderName else none := by
    intro slot
    rcases Nat.lt_or_ge slot 10 with isSlot | isBehind
    · revert isSlot
      revert slot
      decide +kernel
    · rw [State.name, List.getElem?_eq_none (by simpa [initial]),
        if_neg (by omega)]
      rfl
  refine
    { lists := ⟨?_, ?_, rfl⟩
      ends := ?_
      turns := ?_
      others := ?_
      size := State.length_enter
      unbound := rfl
      filled := ?_ }
  · intro slot isFirst
    obtain rfl : slot = 0 := by simpa using isFirst
    rw [State.name_enter inRange, if_pos rfl]
    rfl
  · intro slot isInner
    simp at isInner
  · intro slot isBehind
    have isOther : slot ≠ initial.tail := by
      intro isTail
      rw [isTail] at isBehind
      exact Nat.not_succ_le_zero 0 isBehind
    rw [State.next_enter inRangeTail, if_neg isOther, noNext]
  · intro slot isNext
    have isTail : (initial.enter 0 name).tail = initial.tail := rfl
    rw [isTail, State.next_enter inRangeTail, if_pos rfl] at isNext
    cases isNext
    rfl
  · intro slot isBehind
    have isOther : slot ≠ 0 := by
      rintro rfl
      exact Nat.not_succ_le_zero 0 isBehind
    rw [State.name_enter inRange, if_neg isOther, isName]
  · intro fill member
    rw [State.name_enter inRange]
    have isFill : fill = (4, loaderName) ∨ fill = (0, name) := by
      simpa [State.enter, initial] using member
    rcases isFill with rfl | rfl
    · rw [if_neg (by decide), isName, if_pos rfl]
    · rw [if_pos rfl]

/-- Another start-up library. -/
theorem Started.enter
    (started : Started state names) (isShort : names.length < 4)
    (name : CString) :
    Started (state.enter names.length name) (names ++ [name]) := by
  have isLast := started.lists.last
  have inRange : names.length < state.dsos.length := by
    rw [started.size]
    omega
  have isLength : (names ++ [name]).length = names.length + 1 := by
    rw [List.length_append, List.length_singleton]
  refine
    { lists := started.lists.enter name inRange
      ends := ?_
      turns := ?_
      others := ?_
      size := State.length_enter.trans started.size
      unbound := started.unbound
      filled := ?_ }
  · intro slot isBehind
    rw [isLength] at isBehind
    rw [State.next_enter (by omega), if_neg (by omega)]
    exact started.ends slot (by omega)
  · intro slot isNext
    have isTail : (state.enter names.length name).tail = names.length := rfl
    rw [isTail, State.next_enter (by omega), if_neg (by omega),
      started.ends _ (Nat.le_refl _)] at isNext
    cases isNext
  · intro slot isBehind
    rw [isLength] at isBehind
    rw [State.name_enter inRange, if_neg (by omega)]
    exact started.others slot (by omega)
  · intro fill member
    rw [State.name_enter inRange]
    rcases List.mem_append.mp member with isOld | isNew
    · have wasName := started.filled fill isOld
      rw [if_neg ?_]
      · exact wasName
      · intro isSlot
        rw [isSlot, started.others _ (Nat.le_refl _),
          if_neg (Nat.ne_of_lt isShort)] at wasName
        cases wasName
    · rw [List.mem_singleton.mp isNew, if_pos rfl]

/-- Without a given slot nothing is loaded. -/
theorem Started.loadLibrary_eq_none
    (started : Started state names) (libs : Libraries) (bound fuel : Nat)
    (name : CString) :
    loadLibrary libs bound fuel state name none = none := by
  cases fuel with
  | zero => rfl
  | succ fuel =>
      have noSlot : state.slotFor none = none := by
        rw [State.slotFor, started.unbound]
        rfl
      rw [loadLibrary, noSlot, Option.bind_none, ite_self]

/-- Only the libraries in the list are found. -/
theorem Started.mem_of_loadDirectDeps
    (started : Started state names) {bound fuel : Nat} {need : CString}
    {found : State} {dso : Nat}
    (isFound :
      loadDirectDeps
          (fun state need => loadLibrary libs bound fuel state need none)
          bound state need =
        some (found, dso)) :
    need ∈ names ∧ found = state := by
  unfold loadDirectDeps at isFound
  obtain ⟨walked, isWalked, isRest⟩ := Option.bind_eq_some_iff.mp isFound
  cases walked with
  | miss last =>
      dsimp only at isRest
      rw [started.loadLibrary_eq_none] at isRest
      cases isRest
  | hit q =>
      cases isRest
      have closed :
          ∀ one two, one < names.length → state.next one = some two →
            two < names.length := by
        intro one two inList isNext
        have isLast := started.lists.last
        by_cases isInner : one + 1 < names.length
        · rw [started.lists.linked one isInner] at isNext
          cases isNext
          exact isInner
        · have isTail : one = state.tail := by omega
          rw [isTail] at isNext
          rw [started.turns two isNext]
          omega
      have starts : ∀ slot, some 0 = some slot → slot < names.length := by
        rintro slot isZero
        cases isZero
        have isLast := started.lists.last
        omega
      obtain ⟨inList, isHit⟩ :=
        PointerList.of_walk_eq_hit closed starts isWalked
      have isName := started.lists.named _ inList
      rw [List.getElem?_eq_getElem inList] at isName
      rw [isName, Option.map_some, Option.some_inj, decide_eq_true_eq] at isHit
      exact ⟨isHit ▸ List.getElem_mem inList, rfl⟩

/-- The needs of a start-up library are all in the list. -/
theorem Started.mem_of_loadDeps
    {needs : List CString} (started : Started state names)
    {bound fuel p : Nat} {later : State}
    (isLater :
      loadDeps (fun state need => loadLibrary libs bound fuel state need none)
          bound p needs state =
        some later) :
    (∀ need ∈ needs, need ∈ names) ∧ Started later names := by
  induction needs generalizing state with
  | nil =>
      cases isLater
      exact ⟨fun _ member => absurd member List.not_mem_nil, started⟩
  | cons need needs inductionHypothesis =>
      unfold loadDeps at isLater
      rw [List.foldlM_cons] at isLater
      obtain ⟨middle, isMiddle, isRest⟩ := Option.bind_eq_some_iff.mp isLater
      obtain ⟨⟨found, dso⟩, isFound, rfl⟩ :=
        Option.map_eq_some_iff.mp isMiddle
      obtain ⟨member, rfl⟩ := started.mem_of_loadDirectDeps isFound
      obtain ⟨restMembers, laterStarted⟩ :=
        inductionHypothesis (started.addDep p dso) isRest
      refine ⟨?_, laterStarted⟩
      intro other isOther
      rcases List.mem_cons.mp isOther with rfl | isLater
      · exact member
      · exact restMembers other isLater

/-! ## All start-up libraries -/

/-- Some libraries, or none before the first one. -/
def Begun (state : State) (names : List CString) : Prop :=
  (names = [] ∧ state = initial) ∨ Started state names

/-- The next start-up library. -/
theorem Begun.enter
    (begun : Begun state names) (isShort : names.length < 4)
    (name : CString) :
    Started (state.enter names.length name) (names ++ [name]) := by
  rcases begun with ⟨rfl, rfl⟩ | started
  · exact started_first name
  · exact started.enter isShort name

/-- A start-up library that was loaded needs what is in the list. -/
theorem Begun.of_loadLibrary
    (begun : Begun state names) (isShort : names.length < 4)
    {name : CString} {bound fuel dso : Nat} {later : State}
    (isLater :
      loadLibrary libs bound fuel state name (some names.length) =
        some (later, dso)) :
    (∀ need ∈ libs.needs name, need ∈ names ++ [name]) ∧
      Started later (names ++ [name]) := by
  cases fuel with
  | zero => cases isLater
  | succ fuel =>
      obtain ⟨isSlot, _, isLoaded⟩ := Loader.of_loadLibrary isLater
      have isDso : dso = names.length := by
        rcases isSlot with isSame | ⟨isNone, _⟩
        · exact (Option.some_inj.mp isSame).symm
        · cases isNone
      rw [isDso] at isLoaded
      exact (begun.enter isShort name).mem_of_loadDeps isLoaded

/-- A start-up library whose needs are in the list is loaded. -/
theorem Begun.loadLibrary
    (begun : Begun state names) (isShort : names.length < 4)
    {name : CString} (isKnown : name ∈ libs.names) {bound : Nat}
    (enough : 4 ≤ bound) (fuel : Nat)
    (inList : ∀ need ∈ libs.needs name, need ∈ names ++ [name]) :
    ∃ later,
      loadLibrary libs bound (fuel + 1) state name (some names.length) =
          some (later, names.length) ∧
        Started later (names ++ [name]) ∧
          Bits later (names ++ [name]) names.length (libs.needs name) ∧
            ∀ slot < names.length,
              later.depsIndex slot = state.depsIndex slot := by
  have entered := begun.enter isShort name
  have isSize := entered.size
  rw [State.length_enter] at isSize
  have inRange : names.length < state.dsos.length := by omega
  have loading :
      Loading libs (state.enter names.length name) (names ++ [name])
        names.length [] := by
    refine ⟨by simp, by rwa [State.length_enter], ?_, ?_⟩
    · exact bits_enter name inRange _
    · intro slot other isBehind isOther
      rw [List.getElem?_eq_none (by simp; omega)] at isOther
      cases isOther
  have direct :
      ∀ state others,
        Started state others ∧ others = names ++ [name] →
          names.length < others.length →
            ∀ need ∈ libs.needs name,
              ∃ found longer,
                loadDirectDeps
                      (fun state need =>
                        Loader.loadLibrary libs bound fuel state need none)
                      bound state need =
                    some (found, longer.idxOf need) ∧
                  need ∈ longer ∧
                    (Started found longer ∧ longer = names ++ [name]) ∧
                      Grown libs state others found longer ∧
                        found.dsos.length = state.dsos.length := by
    rintro state _ ⟨stateStarted, rfl⟩ _ need member
    refine
      ⟨state, names ++ [name], ?_, inList need member, ⟨stateStarted, rfl⟩,
        Grown.refl libs state _, rfl⟩
    have isBound : (names ++ [name]).length ≤ bound := by
      rw [List.length_append, List.length_singleton]
      omega
    rw [loadDirectDeps,
      stateStarted.lists.search_of_mem isBound (inList need member)]
    rfl
  obtain ⟨later, _, isLater, ⟨laterStarted, rfl⟩, _, kept, isLoaded⟩ :=
    loadDeps_spec
      (fun _ _ dso holds => ⟨holds.1.addDep names.length dso, holds.2⟩)
      direct ⟨entered, rfl⟩ loading
  refine ⟨later, ?_, laterStarted, isLoaded.own, ?_⟩
  · rw [Loader.loadLibrary, if_pos isKnown, State.slotFor, Option.bind_some,
      if_pos inRange, isLater]
    rfl
  · intro slot isBefore
    rw [kept slot isBefore, State.depsIndex_enter inRange,
      if_neg (Nat.ne_of_lt isBefore)]

/-- One more start-up library. -/
theorem loadStartup_concat
    (libs : Libraries) (fuel : Nat) (names : List CString)
    (name : CString) :
    loadStartup libs fuel (names ++ [name]) =
      (loadStartup libs fuel names).bind fun state =>
        (loadLibrary libs fuel fuel state name (some names.length)).map
          Prod.fst := by
  unfold loadStartup
  rw [List.zipIdx_append, List.foldlM_append]
  simp

/-- Every library of a list needs only itself and those before it. -/
def InOrder (libs : Libraries) (names : List CString) : Prop :=
  ∀ k name, names[k]? = some name →
    ∀ need ∈ libs.needs name, need ∈ names.take (k + 1)

/-- One more library. -/
theorem inOrder_concat_iff
    (libs : Libraries) (names : List CString) (name : CString) :
    InOrder libs (names ++ [name]) ↔
      InOrder libs names ∧
        ∀ need ∈ libs.needs name, need ∈ names ++ [name] := by
  constructor
  · intro inOrder
    refine ⟨fun k other isOther need member => ?_, fun need member => ?_⟩
    · have inNames := (List.getElem?_eq_some_iff.mp isOther).1
      have inTake :=
        inOrder k other
          (by rwa [List.getElem?_append_left inNames]) need member
      rwa [List.take_append_of_le_length inNames] at inTake
    · have inTake :=
        inOrder names.length name List.getElem?_concat_length need member
      rwa [List.take_of_length_le (by simp)] at inTake
  · rintro ⟨inOrder, isLast⟩ k other isOther need member
    rcases Nat.lt_or_ge k names.length with inNames | isBehind
    · rw [List.getElem?_append_left inNames] at isOther
      rw [List.take_append_of_le_length inNames]
      exact inOrder k other isOther need member
    · have inRange := (List.getElem?_eq_some_iff.mp isOther).1
      rw [List.length_append, List.length_singleton] at inRange
      obtain rfl : k = names.length := by omega
      rw [List.getElem?_concat_length, Option.some_inj] at isOther
      subst isOther
      rw [List.take_of_length_le (by simp)]
      exact isLast need member

/-- Start-up libraries that were loaded are in order. -/
theorem of_loadStartup
    {fuel : Nat} (isShort : names.length ≤ 4)
    (isState : loadStartup libs fuel names = some state) :
    InOrder libs names ∧ Begun state names := by
  induction names using List.reverseRecOn generalizing state with
  | nil =>
      cases isState
      refine ⟨fun k name isName => ?_, Or.inl ⟨rfl, rfl⟩⟩
      cases isName
  | append_singleton names name inductionHypothesis =>
      rw [List.length_append, List.length_singleton] at isShort
      rw [loadStartup_concat] at isState
      obtain ⟨before, isBefore, isLast⟩ :=
        Option.bind_eq_some_iff.mp isState
      obtain ⟨⟨later, dso⟩, isLater, rfl⟩ :=
        Option.map_eq_some_iff.mp isLast
      obtain ⟨inOrder, begun⟩ := inductionHypothesis (by omega) isBefore
      obtain ⟨inList, started⟩ := begun.of_loadLibrary isShort isLater
      exact
        ⟨(inOrder_concat_iff libs names name).mpr ⟨inOrder, inList⟩,
          Or.inr started⟩

/-- Start-up libraries in order are loaded. -/
theorem exists_loadStartup
    {fuel : Nat} (enough : 4 ≤ fuel) (isShort : names.length ≤ 4)
    (known : ∀ name ∈ names, name ∈ libs.names)
    (inOrder : InOrder libs names) :
    ∃ state,
      loadStartup libs fuel names = some state ∧ Begun state names ∧
        ∀ slot name, names[slot]? = some name →
          Bits state names slot (libs.needs name) := by
  induction names using List.reverseRecOn with
  | nil =>
      refine ⟨initial, rfl, Or.inl ⟨rfl, rfl⟩, fun slot name isName => ?_⟩
      cases isName
  | append_singleton names name inductionHypothesis =>
      rw [List.length_append, List.length_singleton] at isShort
      obtain ⟨earlier, inList⟩ :=
        (inOrder_concat_iff libs names name).mp inOrder
      obtain ⟨before, isBefore, begun, bits⟩ :=
        inductionHypothesis (by omega)
          (fun other member => known other (List.mem_append_left _ member))
          earlier
      obtain ⟨depth, rfl⟩ : ∃ depth, fuel = depth + 1 :=
        ⟨fuel - 1, by omega⟩
      obtain ⟨later, isLater, started, laterBits, kept⟩ :=
        begun.loadLibrary isShort (known name (by simp)) enough depth inList
      refine ⟨later, ?_, Or.inr started, ?_⟩
      · rw [loadStartup_concat, isBefore, Option.bind_some, isLater]
        rfl
      · intro slot other isOther
        rcases Nat.lt_or_ge slot names.length with isOld | isNew
        · rw [List.getElem?_append_left isOld] at isOther
          exact
            (bits slot other isOther).mono (List.prefix_append _ _)
              (kept slot isOld)
        · have inRange := (List.getElem?_eq_some_iff.mp isOther).1
          rw [List.length_append, List.length_singleton] at inRange
          obtain rfl : slot = names.length := by omega
          rw [List.getElem?_concat_length, Option.some_inj] at isOther
          subst isOther
          exact laterBits

end BinTools.Loader
