import BinTools.SectionLists
import Mathlib.Data.List.Induction

namespace BinTools.Sections

open LogLine PointerList

/-!
# Merging sections by name

Whatever objects come with whatever sections: there is one container a name,
a section is in the container of its name and in the list of its object, each
list is in the order in which the sections were inserted, and the pointers to
the ends of lists point to their ends.
-/

/-- The lists after some insertions, with the names of the containers. -/
structure Threaded
    (lists : Lists) (done : Insertions) (names : List CString) : Prop where
  chainCount : lists.chains.length = done.sections.length
  payload :
    ∀ (i : Nat) (entry : Inserted), done.sections[i]? = some entry →
      ∃ chain ∈ lists.chains[i]?,
        chain.p = entry.shdr ∧ chain.obj = entry.object
  containerNames :
    lists.containers.map SectionContainer.name = none :: names.map some
  distinct : names.Nodup
  logged : ∀ name ∈ names, IsLogged (sectionContainerLine name)
  covered : ∀ entry ∈ done.sections, entry.name ∈ names
  containerList :
    Queue lists.nextContainer (some 0) (some lists.currentSection)
      (List.range lists.containers.length)
  containerSections :
    ∀ (k : Nat) (container : SectionContainer),
      lists.containers[k]? = some container →
        Queue lists.thisOf container.init container.this
          (positionsNamed done.sections container.name)
  objectCount : lists.objects.length = done.objects + 1
  currentObject : lists.currentObject = done.objects
  objectList :
    Queue lists.nextObject (some 0) (some lists.currentObject)
      (List.range lists.objects.length)
  objectSections :
    ∀ (k : Nat) (object : ObjectChain), lists.objects[k]? = some object →
      Queue lists.nextOf object.sectionChainHead object.sectionChainTail
        (positionsOf done.sections k)
  objectBound : ∀ entry ∈ done.sections, entry.object ≤ done.objects

/-- Nothing was inserted. -/
theorem threaded_start : Threaded .start {} [] where
  chainCount := rfl
  payload := fun i entry absent => by simp at absent
  containerNames := rfl
  distinct := List.nodup_nil
  logged := fun name absent => absurd absent (List.not_mem_nil)
  covered := fun entry absent => absurd absent (List.not_mem_nil)
  containerList := Queue.single rfl
  containerSections := by
    intro k container present
    cases k with
    | zero =>
        cases present
        exact Queue.empty _
    | succ k => cases present
  objectCount := rfl
  currentObject := rfl
  objectList := Queue.single rfl
  objectSections := by
    intro k object present
    cases k with
    | zero =>
        cases present
        exact Queue.empty _
    | succ k => cases present
  objectBound := fun entry absent => absurd absent (List.not_mem_nil)

/-! ## A new object and a new container -/

/-- The cells of an arena, the last of which is kept, and a fresh one. -/
theorem queue_range_append
    {next later : Nat → Option Nat} {current count : Nat}
    (queue : Queue next (some 0) (some current) (List.range count))
    (redirected : later current = some count)
    (others : ∀ cell, cell ≠ current → later cell = next cell)
    (ends : next count = none) :
    Queue later (some 0) (some count) (List.range (count + 1)) := by
  obtain ⟨front, last, cells, isLast⟩ := queue.exists_last
  cases isLast
  have beyond : count ≠ current := by
    have member : current ∈ List.range count := by
      rw [cells]
      exact List.mem_append_right _ (List.mem_singleton_self _)
    exact (List.mem_range.mp member).ne'
  rw [List.range_succ, cells]
  rw [cells] at queue
  refine
    queue.append (by rw [← cells]; exact List.nodup_range) redirected ?_
      fun cell _ => others cell
  rw [others count beyond, ends]

/-- The last cell of an arena is in it. -/
theorem current_lt
    {next : Nat → Option Nat} {current count : Nat}
    (queue : Queue next (some 0) (some current) (List.range count)) :
    current < count := by
  obtain ⟨front, last, cells, isLast⟩ := queue.exists_last
  cases isLast
  apply List.mem_range.mp
  rw [cells]
  exact List.mem_append_right _ (List.mem_singleton_self _)

/-- No section was inserted that has a property. -/
theorem positions_eq_nil
    {sections : List Inserted} {keep : Inserted → Bool}
    (none : ∀ entry ∈ sections, keep entry = false) :
    positions sections keep = [] := by
  rw [List.eq_nil_iff_forall_not_mem]
  intro i member
  obtain ⟨entry, atI, kept⟩ := mem_positions_iff.mp member
  rw [none entry (List.mem_of_getElem? atI)] at kept
  cases kept

/-- A section that is kept twice has both properties. -/
theorem exists_of_mem_positions
    {sections : List Inserted} {one other : Inserted → Bool} {i : Nat}
    (inOne : i ∈ positions sections one)
    (inOther : i ∈ positions sections other) :
    ∃ entry, one entry = true ∧ other entry = true := by
  obtain ⟨entry, atI, isOne⟩ := mem_positions_iff.mp inOne
  obtain ⟨same, atSame, isOther⟩ := mem_positions_iff.mp inOther
  cases atI.symm.trans atSame
  exact ⟨entry, isOne, isOther⟩

namespace Threaded

variable
  {lists : Lists} {done : Insertions} {names : List CString}

/-- A new object has no sections, and the others keep theirs. -/
theorem allocObjChain (threaded : Threaded lists done names) :
    ∃ next ∈ lists.allocObjChain,
      Threaded next (done.note .allocObjChain) names := by
  have inArena := current_lt threaded.objectList
  refine ⟨_, if_pos inArena, ?_⟩
  refine
    { chainCount := threaded.chainCount
      payload := threaded.payload
      containerNames := threaded.containerNames
      distinct := threaded.distinct
      logged := threaded.logged
      covered := threaded.covered
      containerList := threaded.containerList
      containerSections := threaded.containerSections
      objectCount := ?_
      currentObject := threaded.objectCount
      objectList := ?_
      objectSections := ?_
      objectBound := ?_ }
  · simp [threaded.objectCount, Insertions.note]
  · rw [List.length_append, List.length_modify, List.length_singleton]
    refine queue_range_append threaded.objectList ?_ ?_ ?_
    · rw [Lists.nextObject, link_append rfl,
        link_modify inArena fun _ => rfl, if_pos rfl]
    · intro cell other
      rw [Lists.nextObject, link_append rfl,
        link_modify inArena fun _ => rfl, if_neg other]
      rfl
    · simp [Lists.nextObject]
  · intro k object present
    rcases getElem?_modify_append present with
      ⟨old, atK, rfl | rfl⟩ | ⟨rfl, rfl⟩
    · exact threaded.objectSections k object atK
    · exact threaded.objectSections k old atK
    · have noSections :
          positionsOf done.sections lists.objects.length = [] := by
        apply positions_eq_nil
        intro entry member
        have bound := threaded.objectBound entry member
        have count := threaded.objectCount
        simp only [decide_eq_false_iff_not]
        omega
      rw [Insertions.note, noSections]
      exact Queue.empty _
  · intro entry member
    exact (threaded.objectBound entry member).trans (Nat.le_succ _)

/-- A new container has no sections, and the others keep theirs. -/
theorem allocSectionContainer
    (threaded : Threaded lists done names) {name : CString}
    (new : name ∉ names) (isLogged : IsLogged (sectionContainerLine name)) :
    ∃ next,
      lists.allocSectionContainer name =
          some (next, lists.containers.length) ∧
        Threaded next done (names ++ [name]) := by
  have inArena := current_lt threaded.containerList
  refine ⟨_, if_pos ⟨inArena, isLogged⟩, ?_⟩
  refine
    { chainCount := threaded.chainCount
      payload := threaded.payload
      containerNames := ?_
      distinct := ?_
      logged := ?_
      covered := ?_
      containerList := ?_
      containerSections := ?_
      objectCount := threaded.objectCount
      currentObject := threaded.currentObject
      objectList := threaded.objectList
      objectSections := threaded.objectSections
      objectBound := threaded.objectBound }
  · have sameNames :
        ((lists.containers.modify lists.currentSection fun current =>
            { current with next := some lists.containers.length }).map
          SectionContainer.name) =
          lists.containers.map SectionContainer.name :=
      map_modify_of_kept _ _ fun _ => rfl
    rw [List.map_append, sameNames, threaded.containerNames]
    simp
  · refine List.Nodup.append threaded.distinct (List.nodup_singleton name) ?_
    simpa using new
  · intro other member
    rcases List.mem_append.mp member with earlier | added
    · exact threaded.logged other earlier
    · rw [List.mem_singleton.mp added]
      exact isLogged
  · intro entry member
    exact List.mem_append_left _ (threaded.covered entry member)
  · rw [List.length_append, List.length_modify, List.length_singleton]
    refine queue_range_append threaded.containerList ?_ ?_ ?_
    · rw [Lists.nextContainer, link_append rfl,
        link_modify inArena fun _ => rfl, if_pos rfl]
    · intro cell other
      rw [Lists.nextContainer, link_append rfl,
        link_modify inArena fun _ => rfl, if_neg other]
      rfl
    · simp [Lists.nextContainer]
  · intro k container present
    rcases getElem?_modify_append present with
      ⟨old, atK, rfl | rfl⟩ | ⟨rfl, rfl⟩
    · exact threaded.containerSections k container atK
    · exact threaded.containerSections k old atK
    · have noSections : positionsNamed done.sections (some name) = [] := by
        apply positions_eq_nil
        intro entry member
        simp only [Option.some.injEq, decide_eq_false_iff_not]
        rintro rfl
        exact new (threaded.covered entry member)
      rw [noSections]
      exact Queue.empty _

end Threaded

/-! ## Looking for a container -/

/-- The walk over a list of containers finds the first one of the name. -/
theorem matchFrom_eq
    {lists : Lists} {name : CString} {head : Option Nat} {cells : List Nat}
    {fuel : Nat} (linked : Linked lists.nextContainer head cells)
    (inArena : ∀ cell ∈ cells, cell < lists.containers.length)
    (enough : cells.length ≤ fuel) :
    lists.matchFrom name fuel head =
      some
        (cells.find? fun cell =>
          (lists.containers[cell]?).bind SectionContainer.name =
            some name) := by
  induction cells generalizing head fuel with
  | nil =>
      cases linked
      cases fuel <;> rfl
  | cons cell rest inductionHypothesis =>
      obtain ⟨rfl, restLinked⟩ := linked
      cases fuel with
      | zero => simp at enough
      | succ fuel =>
          obtain ⟨container, present⟩ :
              ∃ container, lists.containers[cell]? = some container :=
            ⟨_, List.getElem?_eq_getElem (inArena cell (by simp))⟩
          rw [Lists.nextContainer, present, Option.bind_some] at restLinked
          rw [Lists.matchFrom, present, Option.bind_some, List.find?_cons,
            present, Option.bind_some]
          by_cases named : container.name = some name
          · simp [named]
          · simp only [named, ↓reduceIte, decide_false]
            exact
              inductionHypothesis restLinked
                (fun other member => inArena other (by simp [member]))
                (by simpa using enough)

namespace Threaded

variable
  {lists : Lists} {done : Insertions} {names : List CString}

/-- What `match_section` answers. -/
theorem matchSection_eq
    (threaded : Threaded lists done names) (name : CString) :
    lists.matchSection name =
      some
        ((List.range lists.containers.length).find? fun cell =>
          (lists.containers[cell]?).bind SectionContainer.name =
            some name) :=
  matchFrom_eq threaded.containerList.linked
    (fun _ member => List.mem_range.mp member) (by simp)

/-- The name of the container in a place. -/
theorem name_at
    (threaded : Threaded lists done names) (k : Nat) :
    (lists.containers[k]?).map SectionContainer.name =
      (none :: names.map some)[k]? := by
  rw [← threaded.containerNames, List.getElem?_map]

/-- A name that has a container. -/
theorem matchSection_of_mem
    (threaded : Threaded lists done names) {name : CString}
    (known : name ∈ names) :
    ∃ k container,
      lists.matchSection name = some (some k) ∧
        lists.containers[k]? = some container ∧
          container.name = some name := by
  obtain ⟨j, inNames, atJ⟩ := List.getElem_of_mem known
  have named := threaded.name_at (j + 1)
  rw [List.getElem?_cons_succ, List.getElem?_map,
    List.getElem?_eq_getElem inNames, atJ, Option.map_some] at named
  obtain ⟨container, present, hasName⟩ := Option.map_eq_some_iff.mp named
  have found :
      ((List.range lists.containers.length).find? fun cell =>
        (lists.containers[cell]?).bind SectionContainer.name =
          some name).isSome := by
    rw [List.find?_isSome]
    refine
      ⟨j + 1,
        List.mem_range.mpr (List.getElem?_eq_some_iff.mp present).1, ?_⟩
    simp [present, hasName]
  obtain ⟨k, isFound⟩ := Option.isSome_iff_exists.mp found
  have holds := List.find?_some isFound
  simp only [decide_eq_true_eq] at holds
  obtain ⟨chosen, atK, chosenName⟩ := Option.bind_eq_some_iff.mp holds
  exact ⟨k, chosen, by rw [threaded.matchSection_eq, isFound], atK, chosenName⟩

/-- A name that has no container. -/
theorem matchSection_of_notMem
    (threaded : Threaded lists done names) {name : CString}
    (new : name ∉ names) :
    lists.matchSection name = some none := by
  rw [threaded.matchSection_eq, Option.some.injEq, List.find?_eq_none]
  intro k _
  simp only [decide_eq_true_eq]
  intro named
  obtain ⟨container, present, hasName⟩ := Option.bind_eq_some_iff.mp named
  have atK := threaded.name_at k
  rw [present, Option.map_some, hasName] at atK
  have member := List.mem_of_getElem? atK.symm
  simp only [List.mem_cons, reduceCtorEq, List.mem_map, Option.some.injEq,
    exists_eq_right, false_or] at member
  exact new member

end Threaded

/-! ## Linking a section -/

/-- A section was linked behind the others of its container. -/
structure ThisLinked
    (lists next : Lists) (scon sec2 : Nat) (cells : List Nat) : Prop where
  chains :
    (next.chains.map fun chain => (chain.p, chain.obj, chain.next)) =
      lists.chains.map fun chain => (chain.p, chain.obj, chain.next)
  others : ∀ cell ∉ cells, next.thisOf cell = lists.thisOf cell
  containers :
    (next.containers.map fun container => (container.name, container.next)) =
      lists.containers.map fun container => (container.name, container.next)
  otherContainers :
    ∀ k, k ≠ scon → next.containers[k]? = lists.containers[k]?
  container :
    ∀ after, next.containers[scon]? = some after →
      Queue next.thisOf after.init after.this (cells ++ [sec2])
  objects : next.objects = lists.objects
  currentSection : next.currentSection = lists.currentSection
  currentObject : next.currentObject = lists.currentObject

/-- Linking a section into its container succeeds. -/
theorem linkThis_spec
    (lists : Lists) {scon : Nat} (sec2 : Nat)
    {container : SectionContainer} {cells : List Nat}
    (present : lists.containers[scon]? = some container)
    (queue : Queue lists.thisOf container.init container.this cells)
    (inArena : ∀ cell ∈ cells, cell < lists.chains.length)
    (nodup : cells.Nodup) (unlinked : lists.thisOf sec2 = none)
    (fresh : sec2 ∉ cells) :
    ∃ next,
      lists.linkThis scon sec2 = some next ∧
        ThisLinked lists next scon sec2 cells := by
  rw [Lists.linkThis, present, Option.bind_some]
  cases isInit : container.init with
  | none =>
      rw [isInit] at queue
      cases queue.eq_nil
      refine
        ⟨_, rfl,
          { chains := rfl
            others := fun _ _ => rfl
            containers := map_modify_of_kept _ _ fun _ => rfl
            otherContainers := fun k other => ?_
            container := fun after isAfter => ?_
            objects := rfl
            currentSection := rfl
            currentObject := rfl }⟩
      · exact List.getElem?_modify_ne _ _ other.symm
      · rw [List.getElem?_modify_eq, present] at isAfter
        cases isAfter
        exact Queue.single unlinked
  | some first =>
      rw [isInit] at queue
      obtain ⟨front, last, rfl, isLast⟩ := queue.exists_last
      have lastInArena : last < lists.chains.length := inArena last (by simp)
      dsimp only
      rw [isLast, Option.bind_some, if_pos lastInArena]
      have redirected :
          ∀ cell,
            (((lists.chains.modify last fun chain =>
              { chain with this := some sec2 })[cell]?).bind
                SectionChain.this) =
              if cell = last then some sec2 else lists.thisOf cell :=
        link_modify lastInArena fun _ => rfl
      refine
        ⟨_, rfl,
          { chains := map_modify_of_kept _ _ fun _ => rfl
            others := fun cell notMem => ?_
            containers := map_modify_of_kept _ _ fun _ => rfl
            otherContainers := fun k other => ?_
            container := fun after isAfter => ?_
            objects := rfl
            currentSection := rfl
            currentObject := rfl }⟩
      · refine (redirected cell).trans (if_neg ?_)
        rintro rfl
        exact notMem (by simp)
      · exact List.getElem?_modify_ne _ _ other.symm
      · rw [List.getElem?_modify_eq, present] at isAfter
        cases isAfter
        have notLast : sec2 ≠ last := by
          rintro rfl
          exact fresh (by simp)
        rw [isInit]
        refine queue.append nodup ?_ ?_ ?_
        · exact (redirected last).trans (if_pos rfl)
        · exact ((redirected sec2).trans (if_neg notLast)).trans unlinked
        · intro cell _ other
          exact (redirected cell).trans (if_neg other)

/-- A section was linked behind the others of its object. -/
structure NextLinked
    (lists next : Lists) (sec2 : Nat) (cells : List Nat) : Prop where
  chains :
    (next.chains.map fun chain => (chain.p, chain.obj, chain.this)) =
      lists.chains.map fun chain => (chain.p, chain.obj, chain.this)
  others : ∀ cell ∉ cells, next.nextOf cell = lists.nextOf cell
  objects :
    next.objects.map ObjectChain.next = lists.objects.map ObjectChain.next
  otherObjects :
    ∀ k, k ≠ lists.currentObject → next.objects[k]? = lists.objects[k]?
  object :
    ∀ after, next.objects[lists.currentObject]? = some after →
      Queue next.nextOf after.sectionChainHead after.sectionChainTail
        (cells ++ [sec2])
  containers : next.containers = lists.containers
  currentSection : next.currentSection = lists.currentSection
  currentObject : next.currentObject = lists.currentObject

/-- Linking a section into the current object succeeds. -/
theorem linkNext_spec
    (lists : Lists) (sec2 : Nat) {object : ObjectChain} {cells : List Nat}
    (present : lists.objects[lists.currentObject]? = some object)
    (queue :
      Queue lists.nextOf object.sectionChainHead object.sectionChainTail
        cells)
    (inArena : ∀ cell ∈ cells, cell < lists.chains.length)
    (nodup : cells.Nodup) (unlinked : lists.nextOf sec2 = none)
    (fresh : sec2 ∉ cells) :
    ∃ next,
      lists.linkNext sec2 = some next ∧ NextLinked lists next sec2 cells := by
  rw [Lists.linkNext, present, Option.bind_some]
  cases isHead : object.sectionChainHead with
  | none =>
      rw [isHead] at queue
      cases queue.eq_nil
      refine
        ⟨_, rfl,
          { chains := rfl
            others := fun _ _ => rfl
            objects := map_modify_of_kept _ _ fun _ => rfl
            otherObjects := fun k other => ?_
            object := fun after isAfter => ?_
            containers := rfl
            currentSection := rfl
            currentObject := rfl }⟩
      · exact List.getElem?_modify_ne _ _ other.symm
      · rw [List.getElem?_modify_eq, present] at isAfter
        cases isAfter
        exact Queue.single unlinked
  | some first =>
      rw [isHead] at queue
      obtain ⟨front, last, rfl, isLast⟩ := queue.exists_last
      have lastInArena : last < lists.chains.length := inArena last (by simp)
      dsimp only
      rw [isLast, Option.bind_some, if_pos lastInArena]
      have redirected :
          ∀ cell,
            (((lists.chains.modify last fun chain =>
              { chain with next := some sec2 })[cell]?).bind
                SectionChain.next) =
              if cell = last then some sec2 else lists.nextOf cell :=
        link_modify lastInArena fun _ => rfl
      refine
        ⟨_, rfl,
          { chains := map_modify_of_kept _ _ fun _ => rfl
            others := fun cell notMem => ?_
            objects := map_modify_of_kept _ _ fun _ => rfl
            otherObjects := fun k other => ?_
            object := fun after isAfter => ?_
            containers := rfl
            currentSection := rfl
            currentObject := rfl }⟩
      · refine (redirected cell).trans (if_neg ?_)
        rintro rfl
        exact notMem (by simp)
      · exact List.getElem?_modify_ne _ _ other.symm
      · rw [List.getElem?_modify_eq, present] at isAfter
        cases isAfter
        have notLast : sec2 ≠ last := by
          rintro rfl
          exact fresh (by simp)
        rw [isHead]
        refine queue.append nodup ?_ ?_ ?_
        · exact (redirected last).trans (if_pos rfl)
        · exact ((redirected sec2).trans (if_neg notLast)).trans unlinked
        · intro cell _ other
          exact (redirected cell).trans (if_neg other)

/-- A link is read from the fields that were kept. -/
theorem link_eq_of_map_eq
    {Cell Field : Type} {first second : List Cell} {field : Cell → Field}
    {link : Cell → Option Nat} (linkOf : Field → Option Nat)
    (same : second.map field = first.map field)
    (isField : ∀ cell, linkOf (field cell) = link cell) (k : Nat) :
    (second[k]?).bind link = (first[k]?).bind link := by
  have atK := congrArg (·[k]?) same
  simp only [List.getElem?_map] at atK
  have ofField :
      ∀ cell : Option Cell, cell.bind link = (cell.map field).bind linkOf := by
    intro cell
    cases cell with
    | none => rfl
    | some present => exact (isField present).symm
  rw [ofField, ofField, atK]

namespace Threaded

variable
  {lists : Lists} {done : Insertions} {names : List CString}

/-- Two containers of one name are one. -/
theorem container_unique
    (threaded : Threaded lists done names) {name : CString} {j k : Nat}
    {first second : SectionContainer}
    (atJ : lists.containers[j]? = some first)
    (atK : lists.containers[k]? = some second)
    (firstNamed : first.name = some name)
    (secondNamed : second.name = some name) :
    j = k := by
  have nodup : (none :: names.map some).Nodup := by
    refine List.nodup_cons.mpr ⟨by simp, ?_⟩
    exact threaded.distinct.map fun _ _ => Option.some.inj
  have nameJ := threaded.name_at j
  have nameK := threaded.name_at k
  rw [atJ, Option.map_some, firstNamed] at nameJ
  rw [atK, Option.map_some, secondNamed] at nameK
  obtain ⟨inJ, isJ⟩ := List.getElem?_eq_some_iff.mp nameJ.symm
  obtain ⟨inK, isK⟩ := List.getElem?_eq_some_iff.mp nameK.symm
  exact nodup.getElem_inj_iff.mp (isJ.trans isK.symm)

/-- The sections with a property are cells of the arena. -/
theorem positions_lt
    (threaded : Threaded lists done names) (keep : Inserted → Bool) :
    ∀ i ∈ positions done.sections keep, i < lists.chains.length := by
  intro i member
  obtain ⟨entry, atI, _⟩ := mem_positions_iff.mp member
  rw [threaded.chainCount]
  exact (List.getElem?_eq_some_iff.mp atI).1

end Threaded

/-- The lists with a new section that is not linked yet. -/
def Lists.withChain (lists : Lists) (shdr : Nat) : Lists :=
  { lists with
    chains := lists.chains ++ [{ p := shdr, obj := lists.currentObject }] }

/-- A section was linked into its container and into its object. -/
structure ChainLinked
    (lists next : Lists) (shdr k : Nat) (named ofObject : List Nat) :
    Prop where
  payload :
    (next.chains.map fun chain => (chain.p, chain.obj)) =
      (lists.chains.map fun chain => (chain.p, chain.obj)) ++
        [(shdr, lists.currentObject)]
  thisOthers : ∀ cell ∉ named, next.thisOf cell = lists.thisOf cell
  nextOthers : ∀ cell ∉ ofObject, next.nextOf cell = lists.nextOf cell
  containers :
    (next.containers.map fun container => (container.name, container.next)) =
      lists.containers.map fun container => (container.name, container.next)
  otherContainers :
    ∀ j, j ≠ k → next.containers[j]? = lists.containers[j]?
  container :
    ∀ after, next.containers[k]? = some after →
      Queue next.thisOf after.init after.this
        (named ++ [lists.chains.length])
  objects :
    next.objects.map ObjectChain.next = lists.objects.map ObjectChain.next
  otherObjects :
    ∀ j, j ≠ lists.currentObject → next.objects[j]? = lists.objects[j]?
  object :
    ∀ after, next.objects[lists.currentObject]? = some after →
      Queue next.nextOf after.sectionChainHead after.sectionChainTail
        (ofObject ++ [lists.chains.length])
  currentSection : next.currentSection = lists.currentSection
  currentObject : next.currentObject = lists.currentObject

/-- `alloc_section_chain` links a section into both of its lists. -/
theorem allocSectionChain_spec
    {lists : Lists} (shdr : Nat) {k : Nat} {container : SectionContainer}
    {object : ObjectChain} {named ofObject : List Nat}
    (atK : lists.containers[k]? = some container)
    (atCurrent : lists.objects[lists.currentObject]? = some object)
    (namedQueue :
      Queue lists.thisOf container.init container.this named)
    (objectQueue :
      Queue lists.nextOf object.sectionChainHead object.sectionChainTail
        ofObject)
    (namedIn : ∀ cell ∈ named, cell < lists.chains.length)
    (objectIn : ∀ cell ∈ ofObject, cell < lists.chains.length)
    (namedNodup : named.Nodup) (objectNodup : ofObject.Nodup) :
    ∃ next,
      lists.allocSectionChain shdr k = some next ∧
        ChainLinked lists next shdr k named ofObject := by
  have sameThis :
      ∀ cell, (lists.withChain shdr).thisOf cell = lists.thisOf cell :=
    link_append rfl
  have sameNext :
      ∀ cell, (lists.withChain shdr).nextOf cell = lists.nextOf cell :=
    link_append rfl
  have beyond :
      ∀ {cells : List Nat}, (∀ cell ∈ cells, cell < lists.chains.length) →
        lists.chains.length ∉ cells :=
    fun inArena member => absurd (inArena _ member) (Nat.lt_irrefl _)
  have longer :
      (lists.withChain shdr).chains.length = lists.chains.length + 1 := by
    simp [Lists.withChain]
  obtain ⟨linked, linksThis, inContainer⟩ :=
    linkThis_spec (lists.withChain shdr) lists.chains.length atK
      (namedQueue.frame fun cell _ => sameThis cell)
      (fun cell member => by have := namedIn cell member; omega)
      namedNodup (by rw [sameThis]; simp [Lists.thisOf]) (beyond namedIn)
  have linkedNext :
      ∀ cell, linked.nextOf cell = lists.nextOf cell := by
    intro cell
    rw [← sameNext]
    exact
      link_eq_of_map_eq (fun fields => fields.2.2) inContainer.chains
        (fun _ => rfl) cell
  have linkedLength :
      linked.chains.length = lists.chains.length + 1 := by
    have lengths := congrArg List.length inContainer.chains
    simpa [longer] using lengths
  have linkedCurrent : linked.currentObject = lists.currentObject :=
    inContainer.currentObject
  have linkedObject : linked.objects[linked.currentObject]? = some object := by
    rw [linkedCurrent, inContainer.objects]
    exact atCurrent
  obtain ⟨next, linksNext, inObject⟩ :=
    linkNext_spec linked lists.chains.length linkedObject
      (objectQueue.frame fun cell _ => linkedNext cell)
      (fun cell member => by have := objectIn cell member; omega)
      objectNodup (by rw [linkedNext]; simp [Lists.nextOf])
      (beyond objectIn)
  have nextThis : ∀ cell, next.thisOf cell = linked.thisOf cell :=
    link_eq_of_map_eq (fun fields => fields.2.2) inObject.chains fun _ => rfl
  refine ⟨next, Option.bind_eq_some_iff.mpr ⟨linked, linksThis, linksNext⟩, ?_⟩
  refine
    { payload := ?_
      thisOthers := fun cell notMem => ?_
      nextOthers := fun cell notMem => ?_
      containers := ?_
      otherContainers := fun j other => ?_
      container := fun after isAfter => ?_
      objects := ?_
      otherObjects := fun j other => ?_
      object := fun after isAfter => ?_
      currentSection := ?_
      currentObject := ?_ }
  · have inNext :=
      congrArg (List.map fun fields => (fields.1, fields.2.1)) inObject.chains
    have inLinked :=
      congrArg (List.map fun fields => (fields.1, fields.2.1))
        inContainer.chains
    rw [List.map_map, List.map_map] at inNext inLinked
    refine (inNext.trans inLinked).trans ?_
    simp [Lists.withChain, Function.comp_def]
  · rw [nextThis, inContainer.others cell notMem, sameThis]
  · rw [inObject.others cell notMem, linkedNext]
  · rw [inObject.containers]
    exact inContainer.containers
  · rw [inObject.containers]
    exact inContainer.otherContainers j other
  · rw [inObject.containers] at isAfter
    exact (inContainer.container after isAfter).frame fun cell _ => nextThis cell
  · rw [inObject.objects, inContainer.objects]
    rfl
  · rw [inObject.otherObjects j (by rwa [linkedCurrent]),
      inContainer.objects]
    rfl
  · rw [← linkedCurrent] at isAfter
    exact inObject.object after isAfter
  · exact inObject.currentSection.trans inContainer.currentSection
  · exact inObject.currentObject.trans inContainer.currentObject

namespace Threaded

variable
  {lists : Lists} {done : Insertions} {names : List CString}

/-- The sections with one that is linked behind them. -/
theorem payload_concat
    {next : Lists} {shdr k : Nat} {named ofObject : List Nat}
    (threaded : Threaded lists done names)
    (linked : ChainLinked lists next shdr k named ofObject)
    (name : CString) (i : Nat) (entry : Inserted)
    (atI :
      (done.sections ++
          [{ object := done.objects, name := name, shdr := shdr }])[i]? =
        some entry) :
    ∃ chain ∈ next.chains[i]?,
      chain.p = entry.shdr ∧ chain.obj = entry.object := by
  have fields := congrArg (·[i]?) linked.payload
  simp only [List.getElem?_map] at fields
  rcases Nat.lt_or_ge i done.sections.length with earlier | new
  · rw [List.getElem?_append_left earlier] at atI
    obtain ⟨chain, isChain, isEntry⟩ := threaded.payload i entry atI
    rw [List.getElem?_append_left
        (by rwa [List.length_map, threaded.chainCount]),
      List.getElem?_map, Option.mem_def.mp isChain] at fields
    obtain ⟨after, isAfter, sameFields⟩ := Option.map_eq_some_iff.mp fields
    simp only [Prod.mk.injEq] at sameFields
    refine ⟨after, isAfter, ?_⟩
    rwa [sameFields.1, sameFields.2]
  · rw [List.getElem?_append_right new] at atI
    obtain ⟨isLast, isEntry⟩ := List.getElem?_eq_some_iff.mp atI
    rw [List.length_singleton] at isLast
    obtain rfl : i = done.sections.length := by omega
    rw [List.getElem?_append_right
        (by rw [List.length_map, threaded.chainCount]),
      List.length_map, threaded.chainCount, Nat.sub_self] at fields
    obtain ⟨after, isAfter, sameFields⟩ := Option.map_eq_some_iff.mp fields
    simp only [Prod.mk.injEq] at sameFields
    refine ⟨after, isAfter, ?_⟩
    rw [sameFields.1, sameFields.2, ← isEntry, threaded.currentObject]
    simp

/-- A section joins a container of its name and the current object. -/
theorem insertInto
    (threaded : Threaded lists done names) {name : CString} (shdr : Nat)
    {k : Nat}
    {container : SectionContainer}
    (atK : lists.containers[k]? = some container)
    (named : container.name = some name) (known : name ∈ names) :
    ∃ next,
      lists.allocSectionChain shdr k = some next ∧
        Threaded next (done.note (.insert name shdr)) names := by
  obtain ⟨object, atCurrent⟩ :
      ∃ object, lists.objects[lists.currentObject]? = some object :=
    ⟨_, List.getElem?_eq_getElem (current_lt threaded.objectList)⟩
  have nodup : ∀ keep, (positions done.sections keep).Nodup :=
    fun keep => (pairwise_positions done.sections keep).imp Nat.ne_of_lt
  obtain ⟨next, links, linked⟩ :=
    allocSectionChain_spec shdr atK atCurrent
      (threaded.containerSections k container atK)
      (threaded.objectSections _ object atCurrent)
      (threaded.positions_lt _) (threaded.positions_lt _) (nodup _) (nodup _)
  refine ⟨next, links, ?_⟩
  have lengths : next.chains.length = lists.chains.length + 1 := by
    have sameLength := congrArg List.length linked.payload
    simpa using sameLength
  have containerCount : next.containers.length = lists.containers.length := by
    have sameLength := congrArg List.length linked.containers
    simpa using sameLength
  have objectCount : next.objects.length = lists.objects.length := by
    have sameLength := congrArg List.length linked.objects
    simpa using sameLength
  have noted :
      done.note (.insert name shdr) =
        { done with
          sections :=
            done.sections ++
              [{ object := done.objects, name := name, shdr := shdr }] } :=
    rfl
  rw [noted]
  refine
    { chainCount := ?_
      payload := ?_
      containerNames := ?_
      distinct := threaded.distinct
      logged := threaded.logged
      covered := ?_
      containerList := ?_
      containerSections := ?_
      objectCount := objectCount.trans threaded.objectCount
      currentObject := linked.currentObject.trans threaded.currentObject
      objectList := ?_
      objectSections := ?_
      objectBound := ?_ }
  · rw [lengths, threaded.chainCount, List.length_append,
      List.length_singleton]
  · exact threaded.payload_concat linked name
  · have sameNames := congrArg (List.map Prod.fst) linked.containers
    rw [List.map_map, List.map_map] at sameNames
    exact sameNames.trans threaded.containerNames
  · intro entry member
    rcases List.mem_append.mp member with earlier | new
    · exact threaded.covered entry earlier
    · rw [List.mem_singleton.mp new]
      exact known
  · rw [containerCount, linked.currentSection]
    exact
      threaded.containerList.frame fun cell _ =>
        link_eq_of_map_eq Prod.snd linked.containers (fun _ => rfl) cell
  · intro j after atJ
    by_cases isK : j = k
    · subst isK
      have fields := congrArg (·[j]?) linked.containers
      simp only [List.getElem?_map, atJ, atK, Option.map_some,
        Option.some.injEq, Prod.mk.injEq] at fields
      rw [fields.1, positionsNamed, positions_concat, if_pos (by simp [named]),
        ← threaded.chainCount]
      exact linked.container after atJ
    · rw [linked.otherContainers j isK] at atJ
      have otherName : after.name ≠ some name :=
        fun same => isK (threaded.container_unique atJ atK same named)
      rw [positionsNamed, positions_concat,
        if_neg (by simpa using otherName.symm), List.append_nil]
      refine (threaded.containerSections j after atJ).frame ?_
      intro cell member
      refine linked.thisOthers cell ?_
      intro inContainer
      obtain ⟨entry, isOther, isNamed⟩ :=
        exists_of_mem_positions member inContainer
      simp only [decide_eq_true_eq] at isOther isNamed
      exact otherName (isOther.symm.trans (isNamed.trans named))
  · rw [objectCount, linked.currentObject]
    exact
      threaded.objectList.frame fun cell _ =>
        link_eq_of_map_eq id linked.objects (fun _ => rfl) cell
  · intro j after atJ
    by_cases isCurrent : j = lists.currentObject
    · subst isCurrent
      rw [positionsOf, positions_concat,
        if_pos (by simp [threaded.currentObject]), ← threaded.chainCount]
      exact linked.object after atJ
    · rw [linked.otherObjects j isCurrent] at atJ
      have otherObject : done.objects ≠ j := by
        rw [← threaded.currentObject]
        exact Ne.symm isCurrent
      rw [positionsOf, positions_concat, if_neg (by simpa using otherObject),
        List.append_nil]
      refine (threaded.objectSections j after atJ).frame ?_
      intro cell member
      refine linked.nextOthers cell ?_
      intro inObject
      obtain ⟨entry, isOther, isOf⟩ :=
        exists_of_mem_positions member inObject
      simp only [decide_eq_true_eq] at isOther isOf
      exact isCurrent (isOther.symm.trans isOf)
  · intro entry member
    rcases List.mem_append.mp member with earlier | new
    · exact threaded.objectBound entry earlier
    · rw [List.mem_singleton.mp new]

/-- A section goes to the container of its name, which may be a new one. -/
theorem insert
    (threaded : Threaded lists done names) {name : CString} (shdr : Nat)
    (isLogged : IsLogged (sectionContainerLine name)) :
    ∃ next later,
      lists.insert name shdr = some next ∧
        Threaded next (done.note (.insert name shdr)) later := by
  by_cases known : name ∈ names
  · obtain ⟨k, container, found, atK, named⟩ :=
      threaded.matchSection_of_mem known
    obtain ⟨next, links, kept⟩ :=
      threaded.insertInto shdr atK named known
    refine ⟨next, names, ?_, kept⟩
    rw [Lists.insert, found, Option.bind_some]
    exact links
  · obtain ⟨withContainer, allocates, extended⟩ :=
      threaded.allocSectionContainer known isLogged
    have added : name ∈ names ++ [name] := by simp
    obtain ⟨container, atEnd, named⟩ :
        ∃ container,
          withContainer.containers[lists.containers.length]? =
              some container ∧
            container.name = some name := by
      have atEnd := extended.name_at lists.containers.length
      have count := congrArg List.length threaded.containerNames
      simp only [List.length_map, List.length_cons] at count
      rw [count, List.getElem?_cons_succ, List.map_append,
        List.getElem?_append_right (by simp), List.length_map,
        Nat.sub_self] at atEnd
      rw [count]
      exact Option.map_eq_some_iff.mp atEnd
    obtain ⟨next, links, kept⟩ :=
      extended.insertInto shdr atEnd named added
    refine ⟨next, names ++ [name], ?_, kept⟩
    rw [Lists.insert, threaded.matchSection_of_notMem known,
      Option.bind_some]
    exact Option.bind_eq_some_iff.mpr ⟨_, allocates, links⟩

/-- For a name that does not fit its line there is never a container. -/
theorem insert_eq_none
    (threaded : Threaded lists done names) {name : CString} (shdr : Nat)
    (tooLong : ¬ IsLogged (sectionContainerLine name)) :
    lists.insert name shdr = none := by
  have new : name ∉ names := fun known => tooLong (threaded.logged name known)
  rw [Lists.insert, threaded.matchSection_of_notMem new, Option.bind_some]
  exact Option.bind_eq_none_iff.mpr fun _ allocates => by
    rw [Lists.allocSectionContainer, if_neg fun both => tooLong both.2]
      at allocates
    cases allocates

end Threaded

/-- The line of a new container has room for the name of every section. -/
def Action.Logged : Action → Prop
  | .allocObjChain => True
  | .insert name _ => IsLogged (sectionContainerLine name)

instance (action : Action) : Decidable action.Logged :=
  match action with
  | .allocObjChain => .isTrue trivial
  | .insert name _ =>
      inferInstanceAs (Decidable (IsLogged (sectionContainerLine name)))

/-- What a callback does keeps the lists threaded, if its line fits. -/
theorem Threaded.step
    {lists : Lists} {done : Insertions} {names : List CString}
    (threaded : Threaded lists done names) {action : Action}
    (isLogged : action.Logged) :
    ∃ next later,
      lists.step action = some next ∧
        Threaded next (done.note action) later := by
  cases action with
  | allocObjChain =>
      obtain ⟨next, allocates, kept⟩ := threaded.allocObjChain
      exact ⟨next, names, allocates, kept⟩
  | insert name shdr => exact threaded.insert shdr isLogged

/-- A callback gets through only if its line fits. -/
theorem Threaded.logged_of_step
    {lists next : Lists} {done : Insertions} {names : List CString}
    (threaded : Threaded lists done names) {action : Action}
    (steps : lists.step action = some next) : action.Logged := by
  cases action with
  | allocObjChain => trivial
  | insert name shdr =>
      by_contra tooLong
      cases (threaded.insert_eq_none shdr tooLong).symm.trans steps

/-- The lists stay threaded, whatever the callbacks do. -/
theorem threaded_of_actions
    {actions : List Action}
    (areLogged : ∀ action ∈ actions, action.Logged) :
    ∃ lists names,
      actions.foldlM Lists.step .start = some lists ∧
        Threaded lists (insertionsOf actions) names := by
  induction actions using List.reverseRecOn with
  | nil => exact ⟨.start, [], rfl, threaded_start⟩
  | append_singleton actions action inductionHypothesis =>
      obtain ⟨lists, names, run, threaded⟩ :=
        inductionHypothesis fun other member =>
          areLogged other (List.mem_append_left _ member)
      obtain ⟨next, later, steps, kept⟩ :=
        threaded.step (areLogged action (by simp))
      refine ⟨next, later, ?_, ?_⟩
      · rw [List.foldlM_append, run]
        simp [steps]
      · rw [insertionsOf, List.foldl_append]
        exact kept

/-- Callbacks all get through only if their lines fit. -/
theorem logged_of_run
    {actions : List Action} {lists : Lists}
    (run : actions.foldlM Lists.step .start = some lists) :
    ∀ action ∈ actions, action.Logged := by
  induction actions using List.reverseRecOn generalizing lists with
  | nil => simp
  | append_singleton actions action inductionHypothesis =>
      rw [List.foldlM_append] at run
      obtain ⟨earlier, isEarlier, last⟩ := Option.bind_eq_some_iff.mp run
      have areLogged := inductionHypothesis isEarlier
      obtain ⟨lists, names, same, threaded⟩ := threaded_of_actions areLogged
      cases isEarlier.symm.trans same
      intro other member
      rcases List.mem_append.mp member with earlier | added
      · exact areLogged other earlier
      · rw [List.mem_singleton.mp added]
        exact threaded.logged_of_step (by simpa using last)

/-- The sections that are noted are those that were inserted. -/
theorem mem_names_iff (actions : List Action) (name : CString) :
    (∃ entry ∈ (insertionsOf actions).sections, entry.name = name) ↔
      ∃ shdr, Action.insert name shdr ∈ actions := by
  induction actions using List.reverseRecOn with
  | nil => simp [insertionsOf]
  | append_singleton actions action inductionHypothesis =>
      have noted :
          insertionsOf (actions ++ [action]) =
            (insertionsOf actions).note action := by
        rw [insertionsOf, List.foldl_append]
        rfl
      rw [noted]
      cases action with
      | allocObjChain => simpa [Insertions.note] using inductionHypothesis
      | insert other shdr =>
          simp only [Insertions.note, List.mem_append, or_and_right,
            exists_or, inductionHypothesis]
          simp [eq_comm]

/-- All lines fit exactly when all sections have short names. -/
theorem logged_iff_shortNames (actions : List Action) :
    (∀ action ∈ actions, action.Logged) ↔
      ∀ entry ∈ (insertionsOf actions).sections, entry.name.length < 55 := by
  constructor
  · intro areLogged entry member
    obtain ⟨shdr, isAction⟩ :=
      (mem_names_iff actions entry.name).mp ⟨entry, member, rfl⟩
    exact
      (isLogged_sectionContainerLine_iff entry.name).mp (areLogged _ isAction)
  · intro short action member
    cases action with
    | allocObjChain => trivial
    | insert name shdr =>
        obtain ⟨entry, isNoted, rfl⟩ :=
          (mem_names_iff actions name).mpr ⟨shdr, member⟩
        exact (isLogged_sectionContainerLine_iff entry.name).mpr
          (short entry isNoted)

/-! ## The partition -/

/-- The sections of a container, by following `this` from `init`. -/
def Lists.containerChain (lists : Lists) (k : Nat) : Option (List Nat) :=
  (lists.containers[k]?).bind fun container =>
    follow lists.thisOf lists.chains.length container.init

/-- The sections of an object, by following `next` from its head. -/
def Lists.objectChain (lists : Lists) (k : Nat) : Option (List Nat) :=
  (lists.objects[k]?).bind fun object =>
    follow lists.nextOf lists.chains.length object.sectionChainHead

/-- A list of sections in order, with its ends. -/
structure Listing
    (head tail : Option Nat) (chain : Option (List Nat))
    (sections : List Inserted) (keep : Inserted → Prop) : Prop where
  complete :
    ∃ cells, chain = some cells ∧ head = cells.head? ∧
      tail = cells.getLast? ∧ cells.Pairwise (· < ·) ∧
        ∀ i, i ∈ cells ↔ ∃ entry, sections[i]? = some entry ∧ keep entry

/--
The containers partition the inserted sections by name and in order, and the
objects by object.
-/
structure StablePartition
    (lists : Lists) (sections : List Inserted) : Prop where
  inserted :
    ∀ (i : Nat) (entry : Inserted), sections[i]? = some entry →
      ∃ chain ∈ lists.chains[i]?,
        chain.p = entry.shdr ∧ chain.obj = entry.object
  allContainers :
    follow lists.nextContainer lists.containers.length (some 0) =
      some (List.range lists.containers.length)
  lastContainer : lists.currentSection + 1 = lists.containers.length
  distinctNames :
    (lists.containers.filterMap SectionContainer.name).Nodup
  containers :
    ∀ (k : Nat) (container : SectionContainer),
      lists.containers[k]? = some container →
        Listing container.init container.this (lists.containerChain k)
          sections fun entry => some entry.name = container.name
  objects :
    ∀ (k : Nat) (object : ObjectChain), lists.objects[k]? = some object →
      Listing object.sectionChainHead object.sectionChainTail
        (lists.objectChain k) sections fun entry => entry.object = k
  oneContainer :
    ∀ (i : Nat) (entry : Inserted), sections[i]? = some entry →
      ∃! k, ∃ cells, lists.containerChain k = some cells ∧ i ∈ cells
  itsObject :
    ∀ (i : Nat) (entry : Inserted), sections[i]? = some entry →
      ∃ cells, lists.objectChain entry.object = some cells ∧ i ∈ cells

/-- A property is had by no more sections than there are. -/
theorem length_positions_le
    (sections : List Inserted) (keep : Inserted → Bool) :
    (positions sections keep).length ≤ sections.length := by
  rw [positions, List.length_map]
  calc (sections.zipIdx.filter fun entry => keep entry.1).length
      ≤ sections.zipIdx.length := List.length_filter_le _ _
    _ = sections.length := List.length_zipIdx

/-- The list of the sections with a property, found by following a link. -/
theorem listing_of_queue
    {next : Nat → Option Nat} {head tail : Option Nat}
    {sections : List Inserted} {keep : Inserted → Bool} {fuel : Nat}
    (queue : Queue next head tail (positions sections keep))
    (enough : sections.length ≤ fuel) :
    Listing head tail (follow next fuel head) sections
      fun entry => keep entry := by
  have short : (positions sections keep).length ≤ fuel :=
    (length_positions_le sections keep).trans enough
  exact
    ⟨positions sections keep, queue.linked.follow_eq short,
      queue.linked.head_eq, queue.last, pairwise_positions sections keep,
      fun _ => mem_positions_iff⟩

namespace Threaded

variable
  {lists : Lists} {done : Insertions} {names : List CString}

/-- The sections of a container are those of its name. -/
theorem listing_container
    (threaded : Threaded lists done names)
    {k : Nat} {container : SectionContainer}
    (present : lists.containers[k]? = some container) :
    Listing container.init container.this (lists.containerChain k)
      done.sections fun entry => some entry.name = container.name := by
  have listing :=
    listing_of_queue (threaded.containerSections k container present)
      threaded.chainCount.ge
  rw [Lists.containerChain, present]
  simpa using listing

/-- The sections of an object are those that were inserted for it. -/
theorem listing_object
    (threaded : Threaded lists done names)
    {k : Nat} {object : ObjectChain}
    (present : lists.objects[k]? = some object) :
    Listing object.sectionChainHead object.sectionChainTail
      (lists.objectChain k) done.sections fun entry => entry.object = k := by
  have listing :=
    listing_of_queue (threaded.objectSections k object present)
      threaded.chainCount.ge
  rw [Lists.objectChain, present]
  simpa using listing

/-- The name of a section is that of a container. -/
theorem exists_container
    (threaded : Threaded lists done names) {entry : Inserted}
    (member : entry ∈ done.sections) :
    ∃ (k : Nat) (container : SectionContainer),
      lists.containers[k]? = some container ∧
        container.name = some entry.name := by
  have named : some entry.name ∈ lists.containers.map SectionContainer.name := by
    rw [threaded.containerNames]
    apply List.mem_cons_of_mem
    exact List.mem_map_of_mem (threaded.covered entry member)
  obtain ⟨container, inContainers, sameName⟩ := List.mem_map.mp named
  obtain ⟨k, present⟩ := List.mem_iff_getElem?.mp inContainers
  exact ⟨k, container, present, sameName⟩

/-- A section is in the one container that has its name. -/
theorem existsUnique_container
    (threaded : Threaded lists done names)
    {i : Nat} {entry : Inserted}
    (inserted : done.sections[i]? = some entry) :
    ∃! k, ∃ cells, lists.containerChain k = some cells ∧ i ∈ cells := by
  obtain ⟨k, container, present, named⟩ :=
    threaded.exists_container (List.mem_of_getElem? inserted)
  obtain ⟨cells, chain, _, _, _, members⟩ :=
    (threaded.listing_container present).complete
  refine
    ⟨k, ⟨cells, chain, (members i).mpr ⟨entry, inserted, named.symm⟩⟩, ?_⟩
  rintro other ⟨otherCells, otherChain, isMember⟩
  obtain ⟨otherContainer, otherPresent, _⟩ :=
    Option.bind_eq_some_iff.mp otherChain
  obtain ⟨listed, otherIs, _, _, _, otherMembers⟩ :=
    (threaded.listing_container otherPresent).complete
  cases otherChain.symm.trans otherIs
  obtain ⟨same, atI, otherNamed⟩ := (otherMembers i).mp isMember
  cases atI.symm.trans inserted
  exact
    threaded.container_unique otherPresent present otherNamed.symm named

/-- A section is in the list of its object. -/
theorem mem_objectChain
    (threaded : Threaded lists done names)
    {i : Nat} {entry : Inserted}
    (inserted : done.sections[i]? = some entry) :
    ∃ cells, lists.objectChain entry.object = some cells ∧ i ∈ cells := by
  have inArena : entry.object < lists.objects.length := by
    rw [threaded.objectCount]
    apply Nat.lt_succ_of_le
    exact threaded.objectBound entry (List.mem_of_getElem? inserted)
  obtain ⟨cells, chain, _, _, _, members⟩ :=
    (threaded.listing_object (List.getElem?_eq_getElem inArena)).complete
  exact ⟨cells, chain, (members i).mpr ⟨entry, inserted, rfl⟩⟩

/-- The names that containers were made for. -/
theorem filterMap_name (threaded : Threaded lists done names) :
    lists.containers.filterMap SectionContainer.name = names := by
  calc lists.containers.filterMap SectionContainer.name
      = (lists.containers.map SectionContainer.name).filterMap id := by
        rw [List.filterMap_map]
        rfl
    _ = names := by
        rw [threaded.containerNames]
        simp

/-- The last container is the current one. -/
theorem currentSection_succ (threaded : Threaded lists done names) :
    lists.currentSection + 1 = lists.containers.length := by
  have last := threaded.containerList.last
  rw [List.getLast?_range] at last
  split_ifs at last with empty
  have isLast : lists.currentSection = lists.containers.length - 1 :=
    Option.some.inj last
  have inArena := current_lt threaded.containerList
  omega

end Threaded

/--
Merging gets to its end with a stable partition exactly when every section has a
name of fewer than 55 characters, whatever sections are inserted for however
many objects.
-/
theorem stablePartition_iff_shortNames (actions : List Action) :
    (∃ lists ∈ actions.foldlM Lists.step .start,
        StablePartition lists (insertionsOf actions).sections) ↔
      ∀ entry ∈ (insertionsOf actions).sections, entry.name.length < 55 := by
  rw [← logged_iff_shortNames]
  constructor
  · rintro ⟨lists, run, _⟩
    exact logged_of_run run
  · intro areLogged
    obtain ⟨lists, names, run, threaded⟩ := threaded_of_actions areLogged
    refine ⟨lists, run, ?_⟩
    exact
      { inserted := threaded.payload
        allContainers :=
          threaded.containerList.linked.follow_eq (by rw [List.length_range])
        lastContainer := threaded.currentSection_succ
        distinctNames := by
          rw [threaded.filterMap_name]
          exact threaded.distinct
        containers := fun _ _ => threaded.listing_container
        objects := fun _ _ => threaded.listing_object
        oneContainer := fun _ _ => threaded.existsUnique_container
        itsObject := fun _ _ => threaded.mem_objectChain }

/-- The section of a function template, as `-ffunction-sections` names it. -/
def instantiationSection : CString :=
  .ofString ".text._ZNSt6vectorIiSaIiEE17_M_realloc_insertIJRKiEEEvPiDpOT_"

/-- Its name does not fit the line of its container. -/
theorem not_stablePartition_instantiationSection :
    ¬ ∃ lists ∈
        [Action.allocObjChain, .insert instantiationSection 1].foldlM
          Lists.step .start,
      StablePartition lists
        (insertionsOf
          [Action.allocObjChain, .insert instantiationSection 1]).sections := by
  have overruns :
      [Action.allocObjChain, .insert instantiationSection 1].foldlM
        Lists.step .start = none := by
    decide +kernel
  rintro ⟨lists, run, _⟩
  cases overruns.symm.trans run

end BinTools.Sections
