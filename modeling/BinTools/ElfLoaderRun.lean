import BinTools.ElfLoaderLists
import Mathlib.Data.List.Nodup
import Mathlib.Data.List.Perm.Subperm

namespace BinTools.Loader

/-!
# Loading in order

When no start-up library needs a later one, loading comes to an end with every
needed library in a slot of its own.
-/

variable {libs : Libraries} {state : State} {names : List CString}

/-! ## Behind the loader -/

/-- The state of the slots once the loader has its place. -/
structure Open
    (libs : Libraries) (state : State) (names : List CString) : Prop where
  lists : Lists state names
  ends : ∀ slot, names.length ≤ slot + 1 → state.next slot = none
  empty : ∀ slot, names.length ≤ slot → state.name slot = none
  size : state.dsos.length = 10
  relocated : state.relocated = true
  distinct : names.Nodup
  known : ∀ name ∈ names, name ∈ libs.names
  needed : ∀ name ∈ names, Needed libs name
  filled : ∀ fill ∈ state.filled, state.name fill.1 = some fill.2

/-- A new dependency changes nothing else. -/
theorem Open.addDep
    (isOpen : Open libs state names) (slot dso : Nat) :
    Open libs (state.addDep slot dso) names where
  lists := isOpen.lists.addDep slot dso
  ends := fun k isBehind =>
    (state.next_addDep dso k).trans (isOpen.ends k isBehind)
  empty := fun k isBehind =>
    (state.name_addDep dso k).trans (isOpen.empty k isBehind)
  size := (state.length_addDep dso).trans isOpen.size
  relocated := isOpen.relocated
  distinct := isOpen.distinct
  known := isOpen.known
  needed := isOpen.needed
  filled := fun fill member =>
    (state.name_addDep dso fill.1).trans (isOpen.filled fill member)

/-- There is a slot for every library. -/
theorem Open.length_lt
    (isOpen : Open libs state names) {name : CString}
    (isKnown : name ∈ libs.names) (absent : name ∉ names) :
    names.length < libs.names.length := by
  have distinct : (name :: names).Nodup :=
    List.nodup_cons.mpr ⟨absent, isOpen.distinct⟩
  have isSubset : name :: names ⊆ libs.names := by
    intro other member
    rcases List.mem_cons.mp member with rfl | isOld
    · exact isKnown
    · exact isOpen.known other isOld
  exact (distinct.subperm isSubset).length_le

/-- A library gets the next slot. -/
theorem Open.enter
    (isOpen : Open libs state names) {name : CString}
    (isKnown : name ∈ libs.names) (absent : name ∉ names)
    (isNeeded : Needed libs name) :
    Open libs (state.enter names.length name) (names ++ [name]) := by
  have isLast := isOpen.lists.last
  have inRange : names.length < state.dsos.length := by
    rw [isOpen.size]
    exact
      Nat.lt_of_lt_of_le (isOpen.length_lt isKnown absent) libs.few
  have isLength : (names ++ [name]).length = names.length + 1 := by
    rw [List.length_append, List.length_singleton]
  refine
    { lists := isOpen.lists.enter name inRange
      ends := ?_
      empty := ?_
      size := State.length_enter.trans isOpen.size
      relocated := isOpen.relocated
      distinct := ?_
      known := ?_
      needed := ?_
      filled := ?_ }
  · intro slot isBehind
    rw [isLength] at isBehind
    rw [State.next_enter (by omega), if_neg (by omega)]
    exact isOpen.ends slot (by omega)
  · intro slot isBehind
    rw [isLength] at isBehind
    rw [State.name_enter inRange, if_neg (by omega)]
    exact isOpen.empty slot (by omega)
  · exact
      List.nodup_append.mpr
        ⟨isOpen.distinct, List.nodup_singleton name, by
          rintro one isOne two isTwo rfl
          exact absent (List.mem_singleton.mp isTwo ▸ isOne)⟩
  · intro other member
    rcases List.mem_append.mp member with isOld | isNew
    · exact isOpen.known other isOld
    · exact List.mem_singleton.mp isNew ▸ isKnown
  · intro other member
    rcases List.mem_append.mp member with isOld | isNew
    · exact isOpen.needed other isOld
    · exact List.mem_singleton.mp isNew ▸ isNeeded
  · intro fill member
    rw [State.name_enter inRange]
    rcases List.mem_append.mp member with isOld | isNew
    · have wasName := isOpen.filled fill isOld
      rw [if_neg ?_]
      · exact wasName
      · intro isSlot
        rw [isSlot, isOpen.empty _ (Nat.le_refl _)] at wasName
        cases wasName
    · rw [List.mem_singleton.mp isNew, if_pos rfl]

/-- A need is found in the list, or loaded behind it. -/
theorem Open.loadDirectDeps
    (isOpen : Open libs state names) {bound : Nat} (enough : 10 ≤ bound)
    {load : State → CString → Option (State × Nat)} {need : CString}
    (loads :
      need ∉ names →
        ∃ found longer,
          load state need = some (found, names.length) ∧
            Open libs found longer ∧ names ++ [need] <+: longer ∧
              Grown libs state names found longer) :
    ∃ found longer,
      loadDirectDeps load bound state need =
          some (found, longer.idxOf need) ∧
        need ∈ longer ∧ Open libs found longer ∧
          Grown libs state names found longer ∧
            found.dsos.length = state.dsos.length := by
  have isShort : names.length ≤ bound := by
    have isSubset : names ⊆ libs.names := isOpen.known
    have isSmall := (isOpen.distinct.subperm isSubset).length_le
    have few := libs.few
    omega
  by_cases member : need ∈ names
  · refine
      ⟨state, names, ?_, member, isOpen, Grown.refl libs state names, rfl⟩
    rw [Loader.loadDirectDeps, isOpen.lists.search_of_mem isShort member]
    rfl
  · have isTail : names.length ≤ state.tail + 1 :=
      Nat.le_of_eq isOpen.lists.last.symm
    obtain ⟨last, isMiss⟩ :=
      isOpen.lists.search_of_not_mem (isOpen.ends _ isTail) isShort member
    obtain ⟨found, longer, isFound, foundOpen, isPrefix, grown⟩ := loads member
    have isPlace : longer.idxOf need = names.length := by
      obtain ⟨more, rfl⟩ := isPrefix
      rw [List.idxOf_append_of_mem (by simp), List.idxOf_append, if_neg member]
      simp
    refine
      ⟨found, longer, ?_, isPrefix.subset (by simp), foundOpen, grown,
        foundOpen.size.trans isOpen.size.symm⟩
    rw [Loader.loadDirectDeps, isMiss, isPlace]
    exact isFound

/-- A library behind the loader is loaded with all its needs. -/
theorem Open.loadLibrary
    (isOpen : Open libs state names) {bound : Nat} (enough : 10 ≤ bound)
    {fuel : Nat} (isDeep : libs.names.length < names.length + fuel)
    {name : CString} (isKnown : name ∈ libs.names) (absent : name ∉ names)
    (isNeeded : Needed libs name) :
    ∃ later longer,
      loadLibrary libs bound fuel state name none =
          some (later, names.length) ∧
        Open libs later longer ∧ names ++ [name] <+: longer ∧
          Grown libs state names later longer := by
  induction fuel generalizing state names name with
  | zero =>
      have isSmall := isOpen.length_lt isKnown absent
      omega
  | succ fuel inductionHypothesis =>
      have entered := isOpen.enter isKnown absent isNeeded
      have inRange : names.length < state.dsos.length := by
        have isSmall := isOpen.length_lt isKnown absent
        have few := libs.few
        rw [isOpen.size]
        omega
      have loading :
          Loading libs (state.enter names.length name) (names ++ [name])
            names.length [] := by
        refine ⟨by simp, by rwa [State.length_enter], ?_, ?_⟩
        · exact bits_enter name inRange _
        · intro slot other isBehind isOther
          rw [List.getElem?_eq_none (by simp; omega)] at isOther
          cases isOther
      have direct :
          ∀ state others, Open libs state others →
            names.length < others.length →
              ∀ need ∈ libs.needs name,
                ∃ found longer,
                  Loader.loadDirectDeps
                        (fun state need =>
                          Loader.loadLibrary libs bound fuel state need none)
                        bound state need =
                      some (found, longer.idxOf need) ∧
                    need ∈ longer ∧ Open libs found longer ∧
                      Grown libs state others found longer ∧
                        found.dsos.length = state.dsos.length := by
        intro state others stateOpen inList need member
        refine stateOpen.loadDirectDeps enough fun isNew => ?_
        exact
          inductionHypothesis stateOpen (by omega)
            (libs.closed name isKnown need member) isNew
            (.need isNeeded member)
      obtain ⟨later, longer, isLater, laterOpen, isPrefix, kept, isLoaded⟩ :=
        loadDeps_spec
          (fun _ _ dso stateOpen => stateOpen.addDep names.length dso)
          direct entered loading
      refine ⟨later, longer, ?_, laterOpen, isPrefix, ?_⟩
      · have isSlot : state.slotFor none = some names.length := by
          rw [State.slotFor, if_pos isOpen.relocated, isOpen.lists.last]
        rw [Loader.loadLibrary, if_pos isKnown, isSlot, Option.bind_some,
          if_pos inRange, isLater]
        rfl
      · refine ⟨(List.prefix_append _ _).trans isPrefix, ?_, ?_⟩
        · intro slot isOld
          rw [kept slot isOld, State.depsIndex_enter inRange,
            if_neg (by omega)]
        · intro slot other isBehind isOther
          rw [List.nil_append] at isLoaded
          rcases Nat.eq_or_lt_of_le isBehind with rfl | isLater
          · have isName : other = name := by
              obtain ⟨more, rfl⟩ := isPrefix
              rw [List.append_assoc,
                List.getElem?_append_right (Nat.le_refl _),
                Nat.sub_self] at isOther
              exact (Option.some_inj.mp isOther).symm
            rw [isName]
            exact isLoaded.own
          · exact isLoaded.behind slot other isLater isOther

end BinTools.Loader
