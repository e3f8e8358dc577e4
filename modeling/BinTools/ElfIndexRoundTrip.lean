import BinTools.ElfGlobalBinding

namespace BinTools.Elf

/-!
# Section indices as names of sections

An index keeps one byte of the number of the container and one byte of the
position in it.  It names a section as long as no section in front of it agrees
with it in both bytes.
-/

/-- Containers whose sections have headers of their own. -/
structure Filing where
  containers : List SectionContainer
  ownHeaders : (sectionPointers containers).Nodup

/-- What the linker has filed after reading its objects. -/
def Filed.filing
    {headers : List Shdr} {bound : Nat} {containers : List SectionContainer}
    (filed : Filed headers bound containers) : Filing where
  containers := containers
  ownHeaders := filed.nodup_sectionPointers

/-- A section in a named container other than the first one. -/
structure Filing.Element (filing : Filing) (i j : Nat) where
  name : CString
  schain : SectionChain
  notFirst : 0 < i
  isNamed : (filing.containers[i]?).map SectionContainer.name = some (some name)
  isAt : chainAt filing.containers i j = some schain

/-- The index that the name of the container and the header give. -/
def Filing.Element.index
    {filing : Filing} {i j : Nat} (element : filing.Element i j) : Nat :=
  sectionIndexByName filing.containers element.name element.schain.p

/-- Every index leads back, and no two sections have the same one, or zero. -/
structure RoundTrips (filing : Filing) : Prop where
  leadsBack :
    ∀ {i j} (element : filing.Element i j),
      sectionChainByIndex filing.containers element.index =
        some element.schain
  nonzero :
    ∀ {i j} (element : filing.Element i j), element.index ≠ 0
  distinct :
    ∀ {i j k l} (first : filing.Element i j) (second : filing.Element k l),
      first.index = second.index → i = k ∧ j = l

/-- The position comes first in the order of the containers. -/
def Precedes (k l i j : Nat) : Prop :=
  k < i ∨ k = i ∧ l < j

/--
No section has numbers that are both multiples of 256, or that agree with those
of a section in front of it modulo 256.
-/
structure Unambiguous (filing : Filing) : Prop where
  nonzero :
    ∀ {i j}, filing.Element i j → ¬ (i % 256 = 0 ∧ j % 256 = 0)
  foremost :
    ∀ {i j k l}, filing.Element i j →
      (chainAt filing.containers k l).isSome → Precedes k l i j →
        ¬ (k % 256 = i % 256 ∧ l % 256 = j % 256)

/-! ## Where a header stands -/

/-- A header stands in one place. -/
theorem Filing.position_unique
    (filing : Filing) {i j k l p : Nat}
    (first : FiledAt filing.containers i j p)
    (second : FiledAt filing.containers k l p) :
    i = k ∧ j = l := by
  obtain ⟨schain, isAt, rfl⟩ := Option.map_eq_some_iff.mp first
  obtain ⟨sc, atI, atJ⟩ := Option.bind_eq_some_iff.mp isAt
  obtain ⟨other, isOther, samePointer⟩ := Option.map_eq_some_iff.mp second
  obtain ⟨container, atK, atL⟩ := Option.bind_eq_some_iff.mp isOther
  have ownHeaders := filing.ownHeaders
  unfold sectionPointers elementsOf at ownHeaders
  rw [List.map_flatMap, List.nodup_flatMap] at ownHeaders
  obtain ⟨within, between⟩ := ownHeaders
  obtain ⟨boundI, isSc⟩ := List.getElem?_eq_some_iff.mp atI
  obtain ⟨boundK, isContainer⟩ := List.getElem?_eq_some_iff.mp atK
  have inFirst : schain.p ∈ sc.chain.map SectionChain.p :=
    List.mem_map_of_mem (List.mem_of_getElem? atJ)
  have inSecond : schain.p ∈ container.chain.map SectionChain.p := by
    rw [← samePointer]
    exact List.mem_map_of_mem (List.mem_of_getElem? atL)
  have sameContainer : i = k := by
    rw [List.pairwise_iff_getElem] at between
    rcases Nat.lt_trichotomy i k with isBefore | isSame | isBehind
    · have apart := between i k boundI boundK isBefore
      rw [isSc, isContainer] at apart
      exact absurd inSecond (apart inFirst)
    · exact isSame
    · have apart := between k i boundK boundI isBehind
      rw [isSc, isContainer] at apart
      exact absurd inFirst (apart inSecond)
  subst sameContainer
  rw [atI] at atK
  cases atK
  refine ⟨rfl, ?_⟩
  have inRange : j < (sc.chain.map SectionChain.p).length := by
    rw [List.length_map]
    exact (List.getElem?_eq_some_iff.mp atJ).1
  apply
    (List.getElem?_inj inRange
      (within sc (List.mem_of_getElem? atI))).mp
  rw [List.getElem?_map, List.getElem?_map, atJ, atL]
  exact congrArg some samePointer.symm

/-- The index of a section is made of its two numbers. -/
theorem Filing.Element.index_eq
    {filing : Filing} {i j : Nat} (element : filing.Element i j) :
    element.index = sectionIndex i j := by
  obtain ⟨name, schain, _, isNamed, isAt⟩ := element
  obtain ⟨sc, atI, atJ⟩ := Option.bind_eq_some_iff.mp isAt
  have isName : sc.name = some name := by
    rw [atI] at isNamed
    exact Option.some.inj isNamed
  have isHere : FiledAt filing.containers i j schain.p := by
    rw [FiledAt, isAt, Option.map_some]
  have filedThere :
      ∀ {k l container other}, filing.containers[k]? = some container →
        container.chain[l]? = some other → other.p = schain.p →
          FiledAt filing.containers k l schain.p := by
    intro k l container other atK atL samePointer
    rw [FiledAt, chainAt, atK, Option.bind_some, atL, Option.map_some,
      samePointer]
  have isFirst :
      (sc.chain.findIdx? fun other => other.p = schain.p) = some j := by
    obtain ⟨inRange, isItem⟩ := List.getElem?_eq_some_iff.mp atJ
    rw [List.findIdx?_eq_some_iff_getElem]
    refine ⟨inRange, by simp [isItem], ?_⟩
    intro k isEarlier
    have notSame : sc.chain[k].p ≠ schain.p := by
      intro samePointer
      have twice :=
        filedThere atI (List.getElem?_eq_getElem (by omega)) samePointer
      exact Nat.ne_of_lt isEarlier (filing.position_unique twice isHere).2
    simpa using notSame
  unfold Filing.Element.index sectionIndexByName
  rw [findSome?_zipIdx_eq_some atI
    (by simp only [isName, ↓reduceIte, isFirst]; rfl)]
  · rfl
  · intro container k atK isOther
    dsimp only
    split_ifs with sameName
    · rw [List.findIdx?_eq_none_iff.mpr]
      · rfl
      · intro other inChain
        apply decide_eq_false
        intro samePointer
        obtain ⟨l, atL⟩ := List.mem_iff_getElem?.mp inChain
        exact
          isOther
            (filing.position_unique (filedThere atK atL samePointer) isHere).1
    · rfl

/-! ## What an index leads to -/

/-- An index leads to the first section that has both bytes. -/
theorem sectionChainByIndex_eq_some_iff
    {containers : List SectionContainer} {index : Nat}
    {schain : SectionChain} :
    sectionChainByIndex containers index = some schain ↔
      ∃ i j,
        chainAt containers i j = some schain ∧
          (i % 256 = index / 256 ∧ j % 256 = index % 256) ∧
            ∀ k l, (chainAt containers k l).isSome → Precedes k l i j →
              ¬ (k % 256 = index / 256 ∧ l % 256 = index % 256) := by
  have inner :
      ∀ (sc : SectionContainer) (i : Nat) (result : SectionChain),
        (sc.chain.zipIdx.findSome? fun entry =>
            if i % 256 = index / 256 ∧ entry.2 % 256 = index % 256 then
              some entry.1
            else none) = some result ↔
          ∃ j,
            sc.chain[j]? = some result ∧
              (i % 256 = index / 256 ∧ j % 256 = index % 256) ∧
                ∀ l, (sc.chain[l]?).isSome → l < j →
                  ¬ (i % 256 = index / 256 ∧ l % 256 = index % 256) := by
    intro sc i result
    rw [findSome?_zipIdx_eq_some_iff]
    simp only [Option.ite_none_right_eq_some, Option.some.injEq,
      ite_eq_right_iff, reduceCtorEq, imp_false]
    constructor
    · rintro ⟨j, element, atJ, ⟨agrees, rfl⟩, fails⟩
      refine ⟨j, atJ, agrees, ?_⟩
      intro l isPresent isEarlier
      obtain ⟨other, atL⟩ := Option.isSome_iff_exists.mp isPresent
      exact fails other l atL isEarlier
    · rintro ⟨j, atJ, agrees, fails⟩
      refine ⟨j, result, atJ, ⟨agrees, rfl⟩, ?_⟩
      intro other l atL isEarlier
      exact fails l (Option.isSome_of_eq_some atL) isEarlier
  unfold sectionChainByIndex
  rw [findSome?_zipIdx_eq_some_iff]
  constructor
  · rintro ⟨i, sc, atI, found, others⟩
    obtain ⟨j, atJ, agrees, fails⟩ := (inner sc i schain).mp found
    refine ⟨i, j, ?_, agrees, ?_⟩
    · rw [chainAt, atI, Option.bind_some, atJ]
    · intro k l isPresent isEarlier sameBytes
      obtain ⟨element, isAt⟩ := Option.isSome_iff_exists.mp isPresent
      obtain ⟨container, atK, atL⟩ := Option.bind_eq_some_iff.mp isAt
      rcases isEarlier with isBefore | ⟨rfl, isBefore⟩
      · have isNone := others container k atK isBefore
        rw [List.findSome?_eq_none_iff] at isNone
        have inZip : (element, l) ∈ container.chain.zipIdx := by
          apply List.mem_of_getElem? (i := l)
          rw [List.getElem?_zipIdx, atL]
          simp
        have notHere := isNone (element, l) inZip
        dsimp only at notHere
        rw [if_pos sameBytes] at notHere
        cases notHere
      · rw [atI] at atK
        cases atK
        exact fails l (Option.isSome_of_eq_some atL) isBefore sameBytes
  · rintro ⟨i, j, isAt, agrees, foremost⟩
    obtain ⟨sc, atI, atJ⟩ := Option.bind_eq_some_iff.mp isAt
    refine ⟨i, sc, atI, (inner sc i schain).mpr ⟨j, atJ, agrees, ?_⟩, ?_⟩
    · intro l isPresent isEarlier
      apply foremost i l _ (Or.inr ⟨rfl, isEarlier⟩)
      rwa [chainAt, atI, Option.bind_some]
    · intro container k atK isEarlier
      apply List.findSome?_eq_none_iff.mpr
      rintro ⟨element, l⟩ inZip
      apply if_neg
      apply foremost k l _ (Or.inl isEarlier)
      obtain ⟨_, isElement⟩ := List.mem_zipIdx' inZip
      rw [chainAt, atK, Option.bind_some, Option.isSome_iff_exists]
      refine ⟨element, ?_⟩
      rw [isElement]
      exact List.getElem?_eq_getElem _

/-! ## The round trip -/

/-- Two sections have the same index when they agree in both bytes. -/
theorem sectionIndex_eq_iff (i j k l : Nat) :
    sectionIndex i j = sectionIndex k l ↔
      i % 256 = k % 256 ∧ j % 256 = l % 256 := by
  unfold sectionIndex
  omega

/-- The bytes of an index. -/
theorem sectionIndex_bytes (i j : Nat) :
    sectionIndex i j / 256 = i % 256 ∧ sectionIndex i j % 256 = j % 256 := by
  unfold sectionIndex
  omega

/-- A section in front that agrees in both bytes is found instead. -/
theorem RoundTrips.foremost
    {filing : Filing} (trips : RoundTrips filing) {i j k l : Nat}
    (element : filing.Element i j)
    (isPresent : (chainAt filing.containers k l).isSome)
    (isEarlier : Precedes k l i j) :
    ¬ (k % 256 = i % 256 ∧ l % 256 = j % 256) := by
  have leadsBack := trips.leadsBack element
  obtain ⟨high, low⟩ := sectionIndex_bytes i j
  rw [element.index_eq, sectionChainByIndex_eq_some_iff, high, low]
    at leadsBack
  obtain ⟨m, n, isFound, _, first⟩ := leadsBack
  have foundHere : FiledAt filing.containers m n element.schain.p := by
    rw [FiledAt, isFound, Option.map_some]
  have isHere : FiledAt filing.containers i j element.schain.p := by
    rw [FiledAt, element.isAt, Option.map_some]
  obtain ⟨rfl, rfl⟩ := filing.position_unique foundHere isHere
  exact first k l isPresent isEarlier

/-- An index with both bytes zero is no name. -/
theorem RoundTrips.nonzeroBytes
    {filing : Filing} (trips : RoundTrips filing) {i j : Nat}
    (element : filing.Element i j) :
    ¬ (i % 256 = 0 ∧ j % 256 = 0) := by
  have nonzero := trips.nonzero element
  rw [element.index_eq, sectionIndex] at nonzero
  omega

/-- Two positions are the same or one of them comes first. -/
theorem precedes_trichotomy (i j k l : Nat) :
    Precedes i j k l ∨ (i = k ∧ j = l) ∨ Precedes k l i j := by
  unfold Precedes
  omega

/--
The indices of sections lead back, are not zero and differ exactly when none of
the sections agrees with an earlier one, or with zero, in both bytes.
-/
theorem roundTrips_iff_unambiguous (filing : Filing) :
    RoundTrips filing ↔ Unambiguous filing := by
  constructor
  · intro trips
    exact ⟨trips.nonzeroBytes, trips.foremost⟩
  · intro unambiguous
    constructor
    · intro i j element
      obtain ⟨high, low⟩ := sectionIndex_bytes i j
      rw [element.index_eq, sectionChainByIndex_eq_some_iff, high, low]
      exact
        ⟨i, j, element.isAt, ⟨rfl, rfl⟩, fun k l isPresent isEarlier =>
          unambiguous.foremost element isPresent isEarlier⟩
    · intro i j element isZero
      rw [element.index_eq, sectionIndex] at isZero
      exact unambiguous.nonzero element (by omega)
    · intro i j k l first second sameIndex
      rw [first.index_eq, second.index_eq, sectionIndex_eq_iff] at sameIndex
      rcases precedes_trichotomy i j k l with isBefore | isSame | isBehind
      · exact
          absurd sameIndex
            (unambiguous.foremost second
              (Option.isSome_of_eq_some first.isAt) isBefore)
      · exact isSame
      · exact
          absurd ⟨sameIndex.1.symm, sameIndex.2.symm⟩
            (unambiguous.foremost first
              (Option.isSome_of_eq_some second.isAt) isBehind)

/-- Containers and sections whose numbers fit a byte are unambiguous. -/
theorem unambiguous_of_numbersFit
    {filing : Filing}
    (fewContainers : filing.containers.length ≤ 256)
    (shortChains :
      ∀ sc ∈ filing.containers, sc.chain.length ≤ 256) :
    Unambiguous filing := by
  have inBytes :
      ∀ {i j}, (chainAt filing.containers i j).isSome → i < 256 ∧ j < 256 := by
    intro i j isPresent
    obtain ⟨element, isAt⟩ := Option.isSome_iff_exists.mp isPresent
    obtain ⟨sc, atI, atJ⟩ := Option.bind_eq_some_iff.mp isAt
    have boundI := (List.getElem?_eq_some_iff.mp atI).1
    have boundJ := (List.getElem?_eq_some_iff.mp atJ).1
    have short := shortChains sc (List.mem_of_getElem? atI)
    omega
  constructor
  · intro i j element isZero
    have fits := inBytes (Option.isSome_of_eq_some element.isAt)
    have notFirst := element.notFirst
    omega
  · intro i j k l element isPresent isEarlier sameBytes
    have fits := inBytes (Option.isSome_of_eq_some element.isAt)
    have fitsToo := inBytes isPresent
    unfold Precedes at isEarlier
    omega

/-- A container `.text` with a section of 257 objects. -/
def crowdedText : Filing where
  containers :=
    [{ name := none },
      { name := some (.ofString ".text")
        chain := (List.range 257).map fun p => { p := p } }]
  ownHeaders := by
    have isRange :
        sectionPointers
            [{ name := none },
              { name := some (.ofString ".text")
                chain := (List.range 257).map fun p => { p := p } }] =
          List.range 257 := by
      simp [sectionPointers, elementsOf, Function.comp_def]
    rw [isRange]
    exact List.nodup_range

/-- The last section of 257 is not the one that its index leads to. -/
theorem not_roundTrips_crowdedText :
    ¬ RoundTrips crowdedText := by
  intro trips
  have last : crowdedText.Element 1 256 :=
    { name := .ofString ".text"
      schain := { p := 256 }
      notFirst := by decide
      isNamed := rfl
      isAt := by simp [crowdedText, chainAt] }
  have isPresent : (chainAt crowdedText.containers 1 0).isSome := by
    simp [crowdedText, chainAt]
  exact trips.foremost last isPresent (Or.inr ⟨rfl, by decide⟩) (by decide)

end BinTools.Elf
