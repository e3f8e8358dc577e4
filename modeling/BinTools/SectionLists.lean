import BinTools.LogLine
import BinTools.PointerList
import Mathlib.Data.List.Nodup

namespace BinTools.Sections

open LogLine

/-!
# The lists of sections

Every section has a cell that is linked into two lists: `this` leads to the
next section of its container, `next` to the next section of its object.
Containers keep the first and the last section of theirs in `init` and `this`,
objects in `section_chain_head` and `section_chain_tail`, and `Config` the last
container and the last object.  Cells are positions in arenas; an access through
a null pointer is a fault.
-/

/-- `SectionContainer` -/
structure SectionContainer where
  name : Option CString
  next : Option Nat := none
  init : Option Nat := none
  this : Option Nat := none
  deriving DecidableEq, Repr

/-- `SectionChain` -/
structure SectionChain where
  p : Nat
  obj : Nat
  next : Option Nat := none
  this : Option Nat := none
  deriving DecidableEq, Repr

/-- `ObjectChain` -/
structure ObjectChain where
  next : Option Nat := none
  sectionChainHead : Option Nat := none
  sectionChainTail : Option Nat := none
  deriving DecidableEq, Repr

/-- The arenas, with `current_section` and `current_object` of `Config`. -/
structure Lists where
  containers : List SectionContainer
  chains : List SectionChain
  objects : List ObjectChain
  currentSection : Nat
  currentObject : Nat
  deriving DecidableEq, Repr

namespace Lists

/--
What `main` sets up: a container without a name, which `initial_section` and
`current_section` point to, and an object for `initial_object` and
`current_object`.
-/
def start : Lists where
  containers := [{ name := none }]
  chains := []
  objects := [{}]
  currentSection := 0
  currentObject := 0

/-- The link from a container to the next one. -/
def nextContainer (lists : Lists) (cell : Nat) : Option Nat :=
  (lists.containers[cell]?).bind SectionContainer.next

/-- The link from an object to the next one. -/
def nextObject (lists : Lists) (cell : Nat) : Option Nat :=
  (lists.objects[cell]?).bind ObjectChain.next

/-- The link from a section to the next one of its container. -/
def thisOf (lists : Lists) (cell : Nat) : Option Nat :=
  (lists.chains[cell]?).bind SectionChain.this

/-- The link from a section to the next one of its object. -/
def nextOf (lists : Lists) (cell : Nat) : Option Nat :=
  (lists.chains[cell]?).bind SectionChain.next

/-- `__z__link__alloc_obj_chain` -/
def allocObjChain (lists : Lists) : Option Lists :=
  let oc := lists.objects.length
  if lists.currentObject < oc then
    some
      { lists with
        objects :=
          (lists.objects.modify lists.currentObject fun current =>
            { current with next := some oc }) ++ [{}]
        currentObject := oc }
  else
    none

/--
`alloc_section_container`, with the new container.  The line it logs has the
name in it, and `max_name` is overrun by a name that is too long.
-/
def allocSectionContainer (lists : Lists) (name : CString) :
    Option (Lists × Nat) :=
  let sc := lists.containers.length
  if lists.currentSection < sc ∧ IsLogged (sectionContainerLine name) then
    some
      ({ lists with
          containers :=
            (lists.containers.modify lists.currentSection fun current =>
              { current with next := some sc }) ++ [{ name := some name }]
          currentSection := sc }, sc)
  else
    none

/--
The loop of `match_section` from a container on; `none` when it has not come to
an end within the given number of containers.
-/
def matchFrom (lists : Lists) (name : CString) :
    Nat → Option Nat → Option (Option Nat)
  | _, none => some none
  | 0, some _ => none
  | fuel + 1, some sec1 =>
      (lists.containers[sec1]?).bind fun container =>
        if container.name = some name then
          some (some sec1)
        else
          matchFrom lists name fuel container.next

/-- `match_section` -/
def matchSection (lists : Lists) (name : CString) : Option (Option Nat) :=
  lists.matchFrom name lists.containers.length (some 0)

/-- Link a section behind the others of its container. -/
def linkThis (lists : Lists) (scon sec2 : Nat) : Option Lists :=
  (lists.containers[scon]?).bind fun container =>
    match container.init with
    | some _ =>
        container.this.bind fun last =>
          if last < lists.chains.length then
            some
              { lists with
                chains :=
                  lists.chains.modify last fun chain =>
                    { chain with this := some sec2 }
                containers :=
                  lists.containers.modify scon fun container =>
                    { container with this := some sec2 } }
          else
            none
    | none =>
        some
          { lists with
            containers :=
              lists.containers.modify scon fun container =>
                { container with init := some sec2, this := some sec2 } }

/-- Link a section behind the others of the current object. -/
def linkNext (lists : Lists) (sec2 : Nat) : Option Lists :=
  (lists.objects[lists.currentObject]?).bind fun object =>
    match object.sectionChainHead with
    | some _ =>
        object.sectionChainTail.bind fun last =>
          if last < lists.chains.length then
            some
              { lists with
                chains :=
                  lists.chains.modify last fun chain =>
                    { chain with next := some sec2 }
                objects :=
                  lists.objects.modify lists.currentObject fun object =>
                    { object with sectionChainTail := some sec2 } }
          else
            none
    | none =>
        some
          { lists with
            objects :=
              lists.objects.modify lists.currentObject fun object =>
                { object with
                  sectionChainHead := some sec2
                  sectionChainTail := some sec2 } }

/-- `alloc_section_chain` for a section of the current object. -/
def allocSectionChain (lists : Lists) (s scon : Nat) : Option Lists :=
  let sec2 := lists.chains.length
  let fresh : SectionChain := { p := s, obj := lists.currentObject }
  ({ lists with chains := lists.chains ++ [fresh] }.linkThis scon sec2).bind
    fun lists => lists.linkNext sec2

/-- The `insert:` branch of the section callback. -/
def insert (lists : Lists) (name : CString) (shdr : Nat) : Option Lists :=
  (lists.matchSection name).bind fun found =>
    match found with
    | some sc => lists.allocSectionChain shdr sc
    | none =>
        (lists.allocSectionContainer name).bind fun (lists, sc) =>
          lists.allocSectionChain shdr sc

end Lists

/-- What the callbacks do to the lists. -/
inductive Action where
  | allocObjChain
  | insert (name : CString) (shdr : Nat)
  deriving DecidableEq, Repr

/-- Do what a callback does. -/
def Lists.step (lists : Lists) : Action → Option Lists
  | .allocObjChain => lists.allocObjChain
  | .insert name shdr => lists.insert name shdr

/-! ## The sections that were inserted -/

/-- A section with its object, its name and its header. -/
structure Inserted where
  object : Nat
  name : CString
  shdr : Nat
  deriving DecidableEq, Repr

/-- The sections inserted so far and the number of objects begun. -/
structure Insertions where
  sections : List Inserted := []
  objects : Nat := 0
  deriving DecidableEq, Repr

/-- Note an action. -/
def Insertions.note (insertions : Insertions) : Action → Insertions
  | .allocObjChain => { insertions with objects := insertions.objects + 1 }
  | .insert name shdr =>
      { insertions with
        sections :=
          insertions.sections ++
            [{ object := insertions.objects, name := name, shdr := shdr }] }

/-- The sections that some actions insert. -/
def insertionsOf (actions : List Action) : Insertions :=
  actions.foldl Insertions.note {}

/-- The positions of the inserted sections with a property, in order. -/
def positions
    (sections : List Inserted) (keep : Inserted → Bool) : List Nat :=
  (sections.zipIdx.filter fun entry => keep entry.1).map Prod.snd

/-- The sections of a container. -/
def positionsNamed (sections : List Inserted) (name : Option CString) :
    List Nat :=
  positions sections fun entry => some entry.name = name

/-- The sections of an object. -/
def positionsOf (sections : List Inserted) (object : Nat) : List Nat :=
  positions sections fun entry => entry.object = object

/-- One more section. -/
theorem positions_concat
    (sections : List Inserted) (keep : Inserted → Bool) (added : Inserted) :
    positions (sections ++ [added]) keep =
      positions sections keep ++
        if keep added then [sections.length] else [] := by
  by_cases kept : keep added <;>
    simp [positions, List.zipIdx_append, List.filter_append, kept]

/-- The positions of the sections with a property. -/
theorem mem_positions_iff
    {sections : List Inserted} {keep : Inserted → Bool} {i : Nat} :
    i ∈ positions sections keep ↔
      ∃ entry, sections[i]? = some entry ∧ keep entry := by
  simp only [positions, List.mem_map, List.mem_filter]
  constructor
  · rintro ⟨⟨entry, i⟩, ⟨member, kept⟩, rfl⟩
    exact ⟨entry, List.mk_mem_zipIdx_iff_getElem?.mp member, kept⟩
  · rintro ⟨entry, atI, kept⟩
    exact
      ⟨(entry, i), ⟨List.mk_mem_zipIdx_iff_getElem?.mpr atI, kept⟩, rfl⟩

/-- Positions are in the order of insertion. -/
theorem pairwise_positions
    (sections : List Inserted) (keep : Inserted → Bool) :
    (positions sections keep).Pairwise (· < ·) := by
  have allPositions :
      sections.zipIdx.map Prod.snd = List.range sections.length := by
    simp [List.zipIdx_map_snd, List.range_eq_range']
  have inOrder : (sections.zipIdx.map Prod.snd).Pairwise (· < ·) := by
    rw [allPositions]
    exact List.pairwise_lt_range
  exact inOrder.sublist (List.filter_sublist.map Prod.snd)

end BinTools.Sections
