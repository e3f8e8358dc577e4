import BinTools.CoffExport
import BinTools.CoffLists
import BinTools.ConsecutiveRanges

namespace BinTools.CoffObject

open ByteBuffer

/-!
# Where the sections of COFF objects are placed

Container by container every section gets the address behind its predecessor.
The addresses are written into the section headers while the sizes are still
read from them; headers that do not overlap keep their sizes.
-/

/-- The virtual address of a section. -/
def addressAt (sections : List SectionChain) (id : Nat) : Nat :=
  (sections.getD id { p := 0 }).virtualAddress

/-- Two ranges of the size of a section header do not overlap. -/
def Apart (p q : Nat) : Prop :=
  p + sizeofSectionHeader ≤ q ∨ q + sizeofSectionHeader ≤ p

instance (p q : Nat) : Decidable (Apart p q) :=
  inferInstanceAs (Decidable (_ ∨ _))

namespace Arena

/-- Place sections from a position on, each behind its predecessor. -/
def placeFrom : Arena → Nat → List Nat → Arena × Nat
  | arena, position, [] => (arena, position)
  | arena, position, id :: rest =>
      let placed := arena.place (u32 position) id
      placeFrom placed (position + placed.sizeAt id) rest

/-- Some sections and then others. -/
theorem placeFrom_append
    (arena : Arena) (position : Nat) (first second : List Nat) :
    arena.placeFrom position (first ++ second) =
      (arena.placeFrom position first).1.placeFrom
        (arena.placeFrom position first).2 second := by
  induction first generalizing arena position with
  | nil => rfl
  | cons id rest inductionHypothesis => exact inductionHypothesis _ _

/-- The loop over a chain counts modulo a word what it places. -/
theorem placeChain_eq
    {start size position : Nat}
    (samePosition : u32 (start + size) = u32 position)
    (arena : Arena) (ids : List Nat) :
    (placeChain start arena size ids).1 = (arena.placeFrom position ids).1 ∧
      u32 (start + (placeChain start arena size ids).2) =
        u32 (arena.placeFrom position ids).2 := by
  induction ids generalizing arena size position with
  | nil => exact ⟨rfl, samePosition⟩
  | cons id rest inductionHypothesis =>
      rw [placeChain, placeFrom, samePosition]
      apply inductionHypothesis
      unfold u32 at samePosition ⊢
      omega

/-- One container. -/
theorem setVirtualAddress_eq
    {offset position : Nat} (samePosition : u32 offset = u32 position)
    (isWord : u32 offset = offset) (arena : Arena) (sc : SectionContainer) :
    (arena.setVirtualAddress offset sc).1 =
      ((arena.placeFrom position sc.chain).1,
        u32 (arena.placeFrom position sc.chain).2) := by
  unfold setVirtualAddress
  split_ifs with isEmpty
  · rw [isEmpty, placeFrom, ← samePosition, isWord]
  · have sameStart : u32 (offset + 0) = u32 position := samePosition
    obtain ⟨sameArena, sameOffset⟩ := placeChain_eq sameStart arena sc.chain
    rw [← sameArena, ← sameOffset]

/-- All containers. -/
theorem setVirtualAddresses_eq
    {offset position : Nat} (samePosition : u32 offset = u32 position)
    (isWord : u32 offset = offset) (arena : Arena)
    (containers : List SectionContainer) :
    (arena.setVirtualAddresses offset containers).1 =
      ((arena.placeFrom position
          (containers.flatMap SectionContainer.chain)).1,
        u32 (arena.placeFrom position
          (containers.flatMap SectionContainer.chain)).2) := by
  induction containers generalizing arena offset position with
  | nil =>
      rw [setVirtualAddresses, List.flatMap_nil, placeFrom, ← samePosition,
        isWord]
  | cons sc rest inductionHypothesis =>
      rw [setVirtualAddresses, List.flatMap_cons, placeFrom_append]
      have first := setVirtualAddress_eq samePosition isWord arena sc
      dsimp only
      rw [first]
      exact inductionHypothesis (Nat.mod_mod _ _) (Nat.mod_mod _ _) _

/-- Placing keeps names and chains of the containers. -/
theorem setVirtualAddresses_containers
    (arena : Arena) (offset : Nat) (containers : List SectionContainer) :
    (arena.setVirtualAddresses offset containers).2.map
        (fun sc => (sc.name, sc.chain)) =
      containers.map fun sc => (sc.name, sc.chain) := by
  induction containers generalizing arena offset with
  | nil => rfl
  | cons sc rest inductionHypothesis =>
      rw [setVirtualAddresses, List.map_cons, List.map_cons,
        inductionHypothesis]
      unfold setVirtualAddress
      split_ifs <;> rfl

end Arena

/-! ## Placing one section -/

/-- What placing some sections changes. -/
structure Arena.Places
    (ids : List Nat) (position : Nat) (before after : Arena) : Prop where
  pointers :
    after.sections.map SectionChain.p = before.sections.map SectionChain.p
  stringAt : after.mem.stringAt = before.mem.stringAt
  addresses :
    ids.map (addressAt after.sections) =
      (ConsecutiveRanges.starts position (ids.map before.sizeAt)).map u32
  others :
    ∀ id ∉ ids, addressAt after.sections id = addressAt before.sections id
  bytes :
    ∀ q, (∀ id ∈ ids,
        q < pointerAt before.sections id + 12 ∨
          pointerAt before.sections id + 16 ≤ q) →
      after.mem.bytes q = before.mem.bytes q

/-- A placed section has the same header. -/
theorem Arena.pointers_place
    (arena : Arena) (virtualAddress id : Nat) :
    (arena.place virtualAddress id).sections.map SectionChain.p =
      arena.sections.map SectionChain.p := by
  unfold Arena.place
  apply List.ext_getElem?
  intro index
  rw [List.getElem?_map, List.getElem?_map, List.getElem?_modify]
  cases arena.sections[index]? with
  | none => rfl
  | some schain =>
      by_cases isHere : id = index <;> simp [isHere]

/-- Where a section points depends on the pointers only. -/
theorem pointerAt_congr
    {first second : List SectionChain}
    (samePointers :
      first.map SectionChain.p = second.map SectionChain.p) (id : Nat) :
    pointerAt first id = pointerAt second id := by
  rw [pointerAt_eq_getD, pointerAt_eq_getD, samePointers]

/-- A placed section has the address, the others have theirs. -/
theorem Arena.addressAt_place
    {arena : Arena} {id : Nat} (isPresent : id < arena.sections.length)
    (virtualAddress other : Nat) :
    addressAt (arena.place virtualAddress id).sections other =
      if other = id then
        virtualAddress
      else
        addressAt arena.sections other := by
  unfold addressAt Arena.place
  dsimp only
  rw [List.getD_eq_getElem?_getD, List.getElem?_modify]
  by_cases isHere : other = id
  · subst isHere
    rw [List.getElem?_eq_getElem isPresent]
    simp
  · rw [if_neg isHere, List.getD_eq_getElem?_getD]
    cases arena.sections[other]? with
    | none => rfl
    | some schain => simp [Ne.symm isHere]

/-- Placing a section keeps the sizes of all sections apart from it. -/
theorem Arena.sizeAt_place
    {arena : Arena} {id other : Nat}
    (isApart :
      pointerAt arena.sections id = pointerAt arena.sections other ∨
        Apart (pointerAt arena.sections id)
          (pointerAt arena.sections other))
    (virtualAddress : Nat) :
    (arena.place virtualAddress id).sizeAt other = arena.sizeAt other := by
  have samePointer :=
    pointerAt_congr (arena.pointers_place virtualAddress id) other
  unfold Arena.sizeAt
  rw [samePointer]
  unfold Apart sizeofSectionHeader at isApart
  exact
    loadWord_congr fun q _ _ => storeWord_apply_of_outside (by omega)

/-- Sections with headers apart from each other are placed end to end. -/
theorem Arena.places_placeFrom
    {arena : Arena} {ids : List Nat} (distinct : ids.Nodup)
    (arePresent : ∀ id ∈ ids, id < arena.sections.length)
    (areApart :
      ∀ id ∈ ids, ∀ other ∈ ids,
        pointerAt arena.sections id = pointerAt arena.sections other ∨
          Apart (pointerAt arena.sections id)
            (pointerAt arena.sections other))
    (position : Nat) :
    Arena.Places ids position arena (arena.placeFrom position ids).1 := by
  induction ids generalizing arena position with
  | nil => exact ⟨rfl, rfl, rfl, fun _ _ => rfl, fun _ _ => rfl⟩
  | cons id rest inductionHypothesis =>
      rw [List.nodup_cons] at distinct
      rw [List.forall_mem_cons] at arePresent
      have samePointers := arena.pointers_place (u32 position) id
      have samePointer := pointerAt_congr samePointers
      have sameSize :
          ∀ other ∈ id :: rest,
            (arena.place (u32 position) id).sizeAt other =
              arena.sizeAt other :=
        fun other member =>
          Arena.sizeAt_place (areApart id (by simp) other member) _
      have sameLength := congrArg List.length samePointers
      rw [List.length_map, List.length_map] at sameLength
      have stillPresent :
          ∀ other ∈ rest,
            other < (arena.place (u32 position) id).sections.length := by
        rw [sameLength]
        exact arePresent.2
      have stillApart :
          ∀ one ∈ rest, ∀ two ∈ rest,
            pointerAt (arena.place (u32 position) id).sections one =
                pointerAt (arena.place (u32 position) id).sections two ∨
              Apart
                (pointerAt (arena.place (u32 position) id).sections one)
                (pointerAt (arena.place (u32 position) id).sections two) := by
        intro one isOne two isTwo
        rw [samePointer, samePointer]
        exact
          areApart one (List.mem_cons_of_mem _ isOne) two
            (List.mem_cons_of_mem _ isTwo)
      have later :=
        inductionHypothesis distinct.2 stillPresent stillApart
          (position + (arena.place (u32 position) id).sizeAt id)
      refine
        { pointers := later.pointers.trans samePointers
          stringAt := later.stringAt
          addresses := ?_
          others := ?_
          bytes := ?_ }
      · have sameSizes :
            rest.map (arena.place (u32 position) id).sizeAt =
              rest.map arena.sizeAt :=
          List.map_congr_left fun other member =>
            sameSize other (List.mem_cons_of_mem _ member)
        have isFirst := later.others id distinct.1
        rw [Arena.addressAt_place arePresent.1, if_pos rfl] at isFirst
        have areLater := later.addresses
        rw [sameSize id (by simp), sameSizes] at areLater
        rw [Arena.placeFrom, List.map_cons, List.map_cons,
          ConsecutiveRanges.starts, List.map_cons]
        rw [isFirst, ← areLater, sameSize id (by simp)]
      · intro other isOther
        rw [List.mem_cons, not_or] at isOther
        refine (later.others other isOther.2).trans ?_
        rw [Arena.addressAt_place arePresent.1, if_neg isOther.1]
      · intro q isOutside
        rw [List.forall_mem_cons] at isOutside
        refine (later.bytes q ?_).trans ?_
        · intro other member
          rw [samePointer]
          exact isOutside.2 other member
        · unfold Arena.place
          exact storeWord_apply_of_outside isOutside.1

end BinTools.CoffObject
