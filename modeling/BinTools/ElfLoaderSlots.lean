import BinTools.ElfLoader

namespace BinTools.Loader

/-!
# What loading does to the slots

Loading a library without a given slot takes the slots behind `TAIL` and leaves
the others alone.
-/

/-- Changing other fields of a slot. -/
theorem field_modify
    {Field : Type*} (field : Dso → Option Field) (change : Dso → Dso)
    (same : ∀ dso, field (change dso) = field dso) (dsos : List Dso)
    (slot k : Nat) :
    ((dsos.modify slot change)[k]?).bind field = (dsos[k]?).bind field :=
  PointerList.link_modify_of_kept slot same k

namespace State

variable {state : State} {slot : Nat} {name : CString}

/-- The number of slots does not change. -/
theorem length_enter :
    (state.enter slot name).dsos.length = state.dsos.length := by
  simp [enter]

/-- The number of slots does not change. -/
theorem length_addDep (dso : Nat) :
    (state.addDep slot dso).dsos.length = state.dsos.length := by
  simp [addDep]

/-- The names after a library got a slot. -/
theorem name_enter (inRange : slot < state.dsos.length) (k : Nat) :
    (state.enter slot name).name k =
      if k = slot then some name else state.name k := by
  unfold enter State.name
  dsimp only
  rw [field_modify Dso.name, field_modify Dso.name]
  · by_cases isSlot : k = slot
    · subst isSlot
      simp [inRange]
    · rw [if_neg isSlot, List.getElem?_modify_ne _ _ (Ne.symm isSlot)]
  · exact fun _ => rfl
  · exact fun _ => rfl

/-- The links after a library got a slot. -/
theorem next_enter (inRange : state.tail < state.dsos.length) (k : Nat) :
    (state.enter slot name).next k =
      if k = state.tail then some slot else state.next k := by
  let named :=
    state.dsos.modify slot fun dso => { dso with name := some name }
  have inNamed : state.tail < named.length := by
    rwa [List.length_modify]
  have isLinked :
      ((named.modify state.tail fun dso =>
            { dso with next := some slot })[k]?).bind Dso.next =
        if k = state.tail then some slot else (named[k]?).bind Dso.next :=
    PointerList.link_modify inNamed (by intro; rfl) k
  have isNamed : (named[k]?).bind Dso.next = (state.dsos[k]?).bind Dso.next :=
    field_modify Dso.next _ (by intro; rfl) _ _ _
  unfold enter next
  dsimp only
  rw [field_modify Dso.next, isLinked, isNamed]
  exact fun _ => rfl

/-- The dependencies after a library got a slot. -/
theorem depsIndex_enter (inRange : slot < state.dsos.length) (k : Nat) :
    (state.enter slot name).depsIndex k =
      if k = slot then 1 <<< slot else state.depsIndex k := by
  unfold enter depsIndex
  by_cases isSlot : k = slot
  · subst isSlot
    simp [inRange]
  · rw [if_neg isSlot, List.getElem?_modify_ne _ _ (Ne.symm isSlot),
      List.getElem?_modify, List.getElem?_modify_ne _ _ (Ne.symm isSlot)]
    cases state.dsos[k]? with
    | none => rfl
    | some dso => by_cases isTail : state.tail = k <;> simp [isTail]

/-- A new dependency is no new name. -/
theorem name_addDep (dso k : Nat) :
    (state.addDep slot dso).name k = state.name k := by
  unfold addDep State.name
  rw [field_modify Dso.name]
  exact fun _ => rfl

/-- A new dependency is no new link. -/
theorem next_addDep (dso k : Nat) :
    (state.addDep slot dso).next k = state.next k := by
  unfold addDep next
  rw [field_modify Dso.next]
  exact fun _ => rfl

/-- A new dependency is a bit of its slot. -/
theorem depsIndex_addDep
    (inRange : slot < state.dsos.length) (dso k : Nat) :
    (state.addDep slot dso).depsIndex k =
      if k = slot then state.depsIndex k ||| 1 <<< dso
      else state.depsIndex k := by
  unfold addDep depsIndex
  by_cases isSlot : k = slot
  · subst isSlot
    simp [inRange]
  · rw [if_neg isSlot, List.getElem?_modify_ne _ _ (Ne.symm isSlot)]

end State

/-- What stays of the slots up to some place. -/
structure Keeps (state later : State) (last : Nat) : Prop where
  names : ∀ k ≤ state.tail, later.name k = state.name k
  deps : ∀ k ≤ last, later.depsIndex k = state.depsIndex k
  size : later.dsos.length = state.dsos.length
  further : state.tail ≤ later.tail
  relocated : later.relocated = state.relocated

/-- Nothing is done. -/
theorem Keeps.refl (state : State) (last : Nat) : Keeps state state last :=
  ⟨fun _ _ => rfl, fun _ _ => rfl, rfl, Nat.le_refl _, rfl⟩

/-- Two steps. -/
theorem Keeps.trans
    {state middle later : State} {last : Nat}
    (first : Keeps state middle last) (second : Keeps middle later last) :
    Keeps state later last where
  names := fun k inRange =>
    (second.names k (Nat.le_trans inRange first.further)).trans
      (first.names k inRange)
  deps := fun k inRange =>
    (second.deps k inRange).trans (first.deps k inRange)
  size := second.size.trans first.size
  further := Nat.le_trans first.further second.further
  relocated := second.relocated.trans first.relocated

/-- What stays up to a place also stays up to one before. -/
theorem Keeps.mono
    {state later : State} {last before : Nat}
    (keeps : Keeps state later last) (isBefore : before ≤ last) :
    Keeps state later before :=
  ⟨keeps.names, fun k inRange => keeps.deps k (Nat.le_trans inRange isBefore),
    keeps.size, keeps.further, keeps.relocated⟩

/-- A new dependency only changes its slot. -/
theorem keeps_addDep
    {state : State} {p : Nat} (inRange : p < state.dsos.length) (dso : Nat)
    {last : Nat} (isBehind : last < p) :
    Keeps state (state.addDep p dso) last where
  names := fun k _ => state.name_addDep dso k
  deps := by
    intro k isBefore
    rw [State.depsIndex_addDep inRange, if_neg (by omega)]
  size := state.length_addDep dso
  further := Nat.le_refl _
  relocated := rfl

/-- The loop over the needs of a slot keeps what loading keeps. -/
theorem keeps_loadDeps
    {load : State → CString → Option (State × Nat)} {bound p : Nat}
    (loads :
      ∀ state name later dso, load state name = some (later, dso) →
        Keeps state later state.tail)
    {needs : List CString} {state later : State}
    (inRange : p < state.dsos.length) (isListed : p ≤ state.tail) {last : Nat}
    (isBehind : last < p)
    (isLater : loadDeps load bound p needs state = some later) :
    Keeps state later last := by
  induction needs generalizing state with
  | nil =>
      cases isLater
      exact Keeps.refl _ _
  | cons need needs inductionHypothesis =>
      unfold loadDeps at isLater
      rw [List.foldlM_cons] at isLater
      obtain ⟨middle, isMiddle, isRest⟩ := Option.bind_eq_some_iff.mp isLater
      obtain ⟨⟨found, dso⟩, isFound, rfl⟩ :=
        Option.map_eq_some_iff.mp isMiddle
      have keepsFound : Keeps state found state.tail := by
        unfold loadDirectDeps at isFound
        obtain ⟨walked, _, isWalked⟩ := Option.bind_eq_some_iff.mp isFound
        cases walked with
        | hit q =>
            cases isWalked
            exact Keeps.refl _ _
        | miss pre => exact loads _ _ _ _ isWalked
      have inFound : p < found.dsos.length := by
        rwa [keepsFound.size]
      refine
        ((keepsFound.mono (by omega)).trans
          (keeps_addDep inFound dso isBehind)).trans ?_
      refine inductionHypothesis ?_ ?_ isRest
      · rwa [State.length_addDep]
      · exact Nat.le_trans isListed keepsFound.further

/-- Giving a slot behind `TAIL` to a library. -/
theorem keeps_enter
    {state : State} (name : CString)
    (inRange : state.tail + 1 < state.dsos.length) :
    Keeps state (state.enter (state.tail + 1) name) state.tail where
  names := by
    intro k isBefore
    rw [State.name_enter inRange, if_neg (by omega)]
  deps := by
    intro k isBefore
    rw [State.depsIndex_enter inRange, if_neg (by omega)]
  size := State.length_enter
  further := Nat.le_succ _
  relocated := rfl

variable {libs : Libraries} {bound fuel : Nat} {state later : State}

/-- What a run of `load_library` with a slot went through. -/
theorem of_loadLibrary
    {name : CString} {given : Option Nat} {dso : Nat}
    (isLater :
      loadLibrary libs bound (fuel + 1) state name given =
        some (later, dso)) :
    (given = some dso ∨
        given = none ∧ state.relocated = true ∧ dso = state.tail + 1) ∧
      dso < state.dsos.length ∧
        loadDeps
            (fun state need => loadLibrary libs bound fuel state need none)
            bound dso (libs.needs name) (state.enter dso name) =
          some later := by
  rw [loadLibrary] at isLater
  split_ifs at isLater with isOpen
  obtain ⟨slot, isSlot, isLoaded⟩ := Option.bind_eq_some_iff.mp isLater
  split_ifs at isLoaded with inRange
  obtain ⟨found, isFound, same⟩ := Option.map_eq_some_iff.mp isLoaded
  cases same
  refine ⟨?_, inRange, isFound⟩
  cases given with
  | some slot => exact Or.inl isSlot
  | none =>
      rw [State.slotFor] at isSlot
      split_ifs at isSlot with isRelocated
      cases isSlot
      exact Or.inr ⟨rfl, isRelocated, rfl⟩

/-- Loading a library without a slot takes the slots behind `TAIL`. -/
theorem keeps_loadLibrary
    {name : CString} {dso : Nat}
    (isLater :
      loadLibrary libs bound fuel state name none = some (later, dso)) :
    Keeps state later state.tail ∧ dso = state.tail + 1 ∧
      later.name (state.tail + 1) = some name := by
  induction fuel generalizing state name later dso with
  | zero => cases isLater
  | succ fuel inductionHypothesis =>
      obtain ⟨isSlot, inRange, isLoaded⟩ := of_loadLibrary isLater
      obtain ⟨_, _, rfl⟩ :=
        isSlot.resolve_left (by simp)
      have inEntered :
          state.tail + 1 <
            (state.enter (state.tail + 1) name).dsos.length := by
        rwa [State.length_enter]
      have keeps :=
        keeps_loadDeps
          (fun _ _ _ _ isNext => (inductionHypothesis isNext).1)
          inEntered (Nat.le_refl _) (Nat.lt_succ_self state.tail) isLoaded
      have entered := keeps_enter name inRange
      refine ⟨entered.trans keeps, rfl, ?_⟩
      have isNamed :
          later.name (state.tail + 1) =
            (state.enter (state.tail + 1) name).name (state.tail + 1) :=
        keeps.names _ (Nat.le_refl _)
      rw [isNamed, State.name_enter inRange, if_pos rfl]

end BinTools.Loader
