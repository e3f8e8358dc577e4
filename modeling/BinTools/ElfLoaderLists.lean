import BinTools.ElfLoaderSlots

namespace BinTools.Loader

open PointerList (walk_of_chain linked_of_chain walk_eq_miss)

/-!
# The list of libraries

The libraries that were loaded are a list of names in the order of their slots.
The list only grows at its end, so the place of a library never changes.
-/

/-! ## Searching -/

/-- The name of a slot is compared. -/
def isNamed (state : State) (name : CString) (slot : Nat) : Option Bool :=
  (state.name slot).map fun other => decide (other = name)

/-- The libraries are in the slots from 0 on, and linked up to the last. -/
structure Lists (state : State) (names : List CString) : Prop where
  named : ∀ slot < names.length, state.name slot = names[slot]?
  linked : ∀ slot, slot + 1 < names.length → state.next slot = some (slot + 1)
  last : state.tail + 1 = names.length

variable {libs : Libraries} {state : State} {names : List CString}

/-- The search finds a library that is in the list. -/
theorem Lists.search_of_mem
    (lists : Lists state names) {bound : Nat} (enough : names.length ≤ bound)
    {name : CString} (member : name ∈ names) :
    state.search bound name = some (.hit (names.idxOf name)) := by
  have inRange := List.idxOf_lt_length_of_mem member
  have isHit : isNamed state name (names.idxOf name) = some true := by
    rw [isNamed, lists.named _ inRange, List.getElem?_idxOf member,
      Option.map_some, decide_eq_true rfl]
  refine
    walk_of_chain isHit (Nat.zero_add _) ?_ ?_
      (Nat.lt_of_lt_of_le inRange enough) none
  · intro k _ isBefore
    exact lists.linked k (by omega)
  · intro k _ isBefore
    have inNames : k < names.length := Nat.lt_trans isBefore inRange
    rw [isNamed, lists.named k inNames, List.getElem?_eq_getElem inNames,
      Option.map_some, Option.some_inj, decide_eq_false_iff_not]
    intro same
    have isFirst := List.not_of_lt_findIdx isBefore
    simp [same] at isFirst

/-- The search for another library ends behind the list. -/
theorem Lists.search_of_not_mem
    (lists : Lists state names) (ends : state.next state.tail = none)
    {bound : Nat} (enough : names.length ≤ bound) {name : CString}
    (absent : name ∉ names) :
    ∃ last, state.search bound name = some (.miss last) := by
  have links :
      ∀ k < names.length,
        state.next k =
          if k + 1 < names.length then some (k + 1) else none := by
    intro k inRange
    split_ifs with isInner
    · exact lists.linked k isInner
    · have isTail : k = state.tail := by
        have isLast := lists.last
        omega
      rw [isTail, ends]
  have linked := linked_of_chain links (Nat.zero_add names.length)
  have isSome : names.length ≠ 0 := by
    have isLast := lists.last
    omega
  rw [if_neg isSome] at linked
  have noHit :
      ∀ slot ∈ List.range' 0 names.length,
        isNamed state name slot = some false := by
    intro slot member
    have inNames : slot < names.length := by
      simpa using List.mem_range'_1.mp member
    rw [isNamed, lists.named slot inNames, List.getElem?_eq_getElem inNames,
      Option.map_some, Option.some_inj, decide_eq_false_iff_not]
    intro same
    exact absent (same ▸ List.getElem_mem inNames)
  exact
    ⟨_, walk_eq_miss noHit linked
      (by rwa [List.length_range'])⟩

/-- A new dependency leaves the list alone. -/
theorem Lists.addDep
    (lists : Lists state names) (slot dso : Nat) :
    Lists (state.addDep slot dso) names where
  named := fun k inRange =>
    (state.name_addDep dso k).trans (lists.named k inRange)
  linked := fun k inRange =>
    (state.next_addDep dso k).trans (lists.linked k inRange)
  last := lists.last

/-- A library that gets the next slot is the last one of the list. -/
theorem Lists.enter
    (lists : Lists state names) (name : CString)
    (inRange : names.length < state.dsos.length) :
    Lists (state.enter names.length name) (names ++ [name]) where
  named := by
    intro slot isListed
    rw [State.name_enter inRange]
    rw [List.length_append, List.length_singleton] at isListed
    split_ifs with isLast
    · rw [isLast, List.getElem?_concat_length]
    · rw [List.getElem?_append_left (by omega)]
      exact lists.named slot (by omega)
  linked := by
    intro slot isInner
    have isLast := lists.last
    rw [State.next_enter (by omega)]
    rw [List.length_append, List.length_singleton] at isInner
    split_ifs with isTail
    · rw [isTail, isLast]
    · exact lists.linked slot (by omega)
  last := by
    rw [List.length_append, List.length_singleton]
    rfl

/-! ## The bits of the needs -/

/--
`deps_index` of a slot has its own bit and the bits of some needs, which are all
in the list.
-/
structure Bits
    (state : State) (names : List CString) (slot : Nat)
    (needs : List CString) : Prop where
  listed : ∀ need ∈ needs, need ∈ names
  bits :
    ∀ bit,
      (state.depsIndex slot).testBit bit = true ↔
        bit = slot ∨ ∃ need ∈ needs, names.idxOf need = bit

/-- A longer list has the same places. -/
theorem Bits.mono
    {later : State} {slot : Nat} {needs longer : List CString}
    (bits : Bits state names slot needs) (isPrefix : names <+: longer)
    (sameIndex : later.depsIndex slot = state.depsIndex slot) :
    Bits later longer slot needs where
  listed := fun need member => isPrefix.subset (bits.listed need member)
  bits := by
    obtain ⟨more, rfl⟩ := isPrefix
    intro bit
    rw [sameIndex, bits.bits bit]
    refine or_congr_right (exists_congr fun need => and_congr_right ?_)
    intro member
    rw [List.idxOf_append_of_mem (bits.listed need member)]

/-- One more need. -/
theorem Bits.addDep
    {slot : Nat} {needs : List CString} (bits : Bits state names slot needs)
    (inRange : slot < state.dsos.length) {need : CString}
    (member : need ∈ names) :
    Bits (state.addDep slot (names.idxOf need)) names slot
      (needs ++ [need]) where
  listed := by
    intro other isOther
    rcases List.mem_append.mp isOther with isOld | isNew
    · exact bits.listed other isOld
    · rwa [List.mem_singleton.mp isNew]
  bits := by
    intro bit
    rw [State.depsIndex_addDep inRange, if_pos rfl, Nat.testBit_or,
      Bool.or_eq_true, bits.bits bit, Nat.one_shiftLeft,
      Nat.testBit_two_pow, decide_eq_true_eq]
    simp only [List.mem_append, List.mem_singleton, or_and_right,
      exists_or, exists_eq_left]
    rw [or_assoc]

/-- A library that just got its slot only has its own bit. -/
theorem bits_enter
    (name : CString) {slot : Nat} (inRange : slot < state.dsos.length)
    (names : List CString) :
    Bits (state.enter slot name) names slot [] where
  listed := fun _ member => absurd member List.not_mem_nil
  bits := by
    intro bit
    rw [State.depsIndex_enter inRange, if_pos rfl, Nat.one_shiftLeft,
      Nat.testBit_two_pow]
    simp [eq_comm]

/--
The list has grown: the slots that were in use keep their bits, and the new
ones have the bits of their needs.
-/
structure Grown
    (libs : Libraries) (state : State) (names : List CString)
    (later : State) (longer : List CString) : Prop where
  isPrefix : names <+: longer
  kept : ∀ slot < names.length, later.depsIndex slot = state.depsIndex slot
  bits :
    ∀ slot name, names.length ≤ slot → longer[slot]? = some name →
      Bits later longer slot (libs.needs name)

/-- Nothing was loaded. -/
theorem Grown.refl
    (libs : Libraries) (state : State) (names : List CString) :
    Grown libs state names state names where
  isPrefix := List.prefix_refl names
  kept := fun _ _ => rfl
  bits := by
    intro slot name isBehind isName
    rw [List.getElem?_eq_none isBehind] at isName
    cases isName

/-- What holds of a slot whose needs are being loaded. -/
structure Loading
    (libs : Libraries) (state : State) (names : List CString) (p : Nat)
    (done : List CString) : Prop where
  inList : p < names.length
  inRange : p < state.dsos.length
  own : Bits state names p done
  behind :
    ∀ slot name, p < slot → names[slot]? = some name →
      Bits state names slot (libs.needs name)

/-- One more need was loaded. -/
theorem Loading.step
    {p : Nat} {done : List CString} (loading : Loading libs state names p done)
    {found : State} {longer : List CString}
    (grown : Grown libs state names found longer)
    (sameSize : found.dsos.length = state.dsos.length) {need : CString}
    (member : need ∈ longer) :
    Loading libs (found.addDep p (longer.idxOf need)) longer p
      (done ++ [need]) := by
  have inFound : p < found.dsos.length := by
    rw [sameSize]
    exact loading.inRange
  have kept (slot : Nat) (isOther : slot ≠ p) :
      (found.addDep p (longer.idxOf need)).depsIndex slot =
        found.depsIndex slot := by
    rw [State.depsIndex_addDep inFound, if_neg isOther]
  refine ⟨?_, ?_, ?_, ?_⟩
  · exact Nat.lt_of_lt_of_le loading.inList grown.isPrefix.length_le
  · rwa [State.length_addDep]
  · exact
      (loading.own.mono grown.isPrefix
        (grown.kept p loading.inList)).addDep inFound member
  · intro slot name isBehind isName
    rcases Nat.lt_or_ge slot names.length with isOld | isNew
    · have wasName : names[slot]? = some name := by
        obtain ⟨more, rfl⟩ := grown.isPrefix
        rwa [List.getElem?_append_left isOld] at isName
      refine (loading.behind slot name isBehind wasName).mono grown.isPrefix ?_
      rw [kept slot (by omega), grown.kept slot isOld]
    · exact
        (grown.bits slot name isNew isName).mono (List.prefix_refl _)
          (kept slot (by omega))

/--
The loop of `load_deps`, when every single need can be loaded in the states
that the loop goes through.
-/
theorem loadDeps_spec
    {invariant : State → List CString → Prop}
    {load : State → CString → Option (State × Nat)} {bound p : Nat}
    (addDep :
      ∀ state names dso, invariant state names →
        invariant (state.addDep p dso) names)
    {needs : List CString}
    (direct :
      ∀ state names, invariant state names → p < names.length →
        ∀ need ∈ needs,
          ∃ found longer,
            loadDirectDeps load bound state need =
                some (found, longer.idxOf need) ∧
              need ∈ longer ∧ invariant found longer ∧
                Grown libs state names found longer ∧
                  found.dsos.length = state.dsos.length)
    {done : List CString} (holds : invariant state names)
    (loading : Loading libs state names p done) :
    ∃ later longer,
      loadDeps load bound p needs state = some later ∧
        invariant later longer ∧ names <+: longer ∧
          (∀ slot < p, later.depsIndex slot = state.depsIndex slot) ∧
            Loading libs later longer p (done ++ needs) := by
  induction needs generalizing state names done with
  | nil =>
      refine
        ⟨state, names, rfl, holds, List.prefix_refl _, fun _ _ => rfl, ?_⟩
      rwa [List.append_nil]
  | cons need needs inductionHypothesis =>
      obtain ⟨found, longer, isFound, member, foundHolds, grown, sameSize⟩ :=
        direct state names holds loading.inList need List.mem_cons_self
      have nextLoading := loading.step grown sameSize member
      obtain ⟨later, longest, isLater, laterHolds, isPrefix, kept, isLoaded⟩ :=
        inductionHypothesis
          (fun state names stateHolds inList other isOther =>
            direct state names stateHolds inList other
              (List.mem_cons_of_mem _ isOther))
          (addDep found longer _ foundHolds) nextLoading
      refine
        ⟨later, longest, ?_, laterHolds, grown.isPrefix.trans isPrefix, ?_, ?_⟩
      · unfold loadDeps at isLater ⊢
        rw [List.foldlM_cons, isFound]
        exact isLater
      · intro slot isBefore
        have inFound : p < found.dsos.length := by
          rw [sameSize]
          exact loading.inRange
        rw [kept slot isBefore, State.depsIndex_addDep inFound,
          if_neg (by omega),
          grown.kept slot (Nat.lt_trans isBefore loading.inList)]
      · rw [List.append_assoc] at isLoaded
        exact isLoaded

end BinTools.Loader
