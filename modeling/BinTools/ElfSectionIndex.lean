import BinTools.ElfInputSymbols

namespace BinTools.Elf

/-!
# Section indices

The section of a symbol is noted as the position of its container together with
the position within the container.  Reading further objects adds containers at
the end and sections at the ends of containers, so the index goes on naming the
same section header.
-/

/-- The section at a position of the container at a position. -/
def chainAt (containers : List SectionContainer) (i j : Nat) :
    Option SectionChain :=
  (containers[i]?).bind fun sc => sc.chain[j]?

/-- The header is the one filed at these positions. -/
def FiledAt (containers : List SectionContainer) (i j p : Nat) : Prop :=
  (chainAt containers i j).map SectionChain.p = some p

/--
Every container has a name of its own, which its headers bear, but for the
unnamed first one; the headers below the bound have been read.
-/
structure Filed
    (headers : List Shdr) (bound : Nat)
    (containers : List SectionContainer) : Prop where
  arranged : Arranged bound containers
  unnamed : (containers[0]?).map SectionContainer.name = some none
  distinct : (containers.map SectionContainer.name).Nodup
  named :
    ∀ sc ∈ containers, ∀ schain ∈ sc.chain,
      (headers[schain.p]?).map Shdr.name = sc.name

/--
At most 255 containers besides the unnamed one, and as many sections in each:
both halves of a section index fit a byte.
-/
def AtMost255 (containers : List SectionContainer) : Prop :=
  containers.length ≤ 256 ∧ ∀ sc ∈ containers, sc.chain.length ≤ 255

instance (containers : List SectionContainer) :
    Decidable (AtMost255 containers) :=
  inferInstanceAs (Decidable (_ ∧ _))

/-! ## Where a header is filed -/

/-- The containers file a header somewhere. -/
theorem mem_sectionPointers_iff
    {containers : List SectionContainer} {p : Nat} :
    p ∈ sectionPointers containers ↔ ∃ i j, FiledAt containers i j p := by
  constructor
  · intro member
    obtain ⟨schain, isElement, rfl⟩ := List.mem_map.mp member
    obtain ⟨sc, isContainer, inChain⟩ := List.mem_flatMap.mp isElement
    obtain ⟨i, atI⟩ := List.mem_iff_getElem?.mp isContainer
    obtain ⟨j, atJ⟩ := List.mem_iff_getElem?.mp inChain
    refine ⟨i, j, ?_⟩
    rw [FiledAt, chainAt, atI, Option.bind_some, atJ, Option.map_some]
  · rintro ⟨i, j, isFiled⟩
    obtain ⟨schain, isAt, rfl⟩ := Option.map_eq_some_iff.mp isFiled
    obtain ⟨sc, atI, atJ⟩ := Option.bind_eq_some_iff.mp isAt
    apply List.mem_map_of_mem
    exact
      List.mem_flatMap.mpr
        ⟨sc, List.mem_of_getElem? atI, List.mem_of_getElem? atJ⟩

/-- A name is the name of one container. -/
theorem Filed.container_unique
    {headers : List Shdr} {bound : Nat} {containers : List SectionContainer}
    (filed : Filed headers bound containers)
    {i k : Nat} {first second : SectionContainer}
    (atI : containers[i]? = some first) (atK : containers[k]? = some second)
    (sameName : first.name = second.name) :
    i = k := by
  have inRange : i < (containers.map SectionContainer.name).length := by
    rw [List.length_map]
    exact (List.getElem?_eq_some_iff.mp atI).1
  apply (List.getElem?_inj inRange filed.distinct).mp
  rw [List.getElem?_map, List.getElem?_map, atI, atK]
  exact congrArg some sameName

/-- A header is filed once. -/
theorem Filed.position_unique
    {headers : List Shdr} {bound : Nat} {containers : List SectionContainer}
    (filed : Filed headers bound containers)
    {i j k l p : Nat}
    (first : FiledAt containers i j p) (second : FiledAt containers k l p) :
    i = k ∧ j = l := by
  obtain ⟨schain, isAt, rfl⟩ := Option.map_eq_some_iff.mp first
  obtain ⟨sc, atI, atJ⟩ := Option.bind_eq_some_iff.mp isAt
  obtain ⟨other, isOther, samePointer⟩ := Option.map_eq_some_iff.mp second
  obtain ⟨container, atK, atL⟩ := Option.bind_eq_some_iff.mp isOther
  have sameContainer : i = k := by
    have firstName :=
      filed.named sc (List.mem_of_getElem? atI) schain
        (List.mem_of_getElem? atJ)
    have secondName :=
      filed.named container (List.mem_of_getElem? atK) other
        (List.mem_of_getElem? atL)
    rw [samePointer, firstName] at secondName
    exact filed.container_unique atI atK secondName
  subst sameContainer
  rw [atI] at atK
  cases atK
  have ordered := (filed.arranged sc (List.mem_of_getElem? atI)).2.1
  have inRange : j < (sc.chain.map SectionChain.p).length := by
    rw [List.length_map]
    exact (List.getElem?_eq_some_iff.mp atJ).1
  refine ⟨rfl, ?_⟩
  have noRepetition : (sc.chain.map SectionChain.p).Nodup :=
    ordered.imp fun isLess => Nat.ne_of_lt isLess
  apply (List.getElem?_inj inRange noRepetition).mp
  rw [List.getElem?_map, List.getElem?_map, atJ, atL]
  exact congrArg some samePointer.symm

/-! ## Encoding and decoding -/

/-- A scan over positions stops at the first one where it succeeds. -/
theorem findSome?_zipIdx_eq_some_iff
    {Item Result : Type} {items : List Item}
    {probe : Item × Nat → Option Result} {result : Result} :
    items.zipIdx.findSome? probe = some result ↔
      ∃ i item,
        items[i]? = some item ∧ probe (item, i) = some result ∧
          ∀ other k, items[k]? = some other → k < i →
            probe (other, k) = none := by
  rw [List.findSome?_eq_some_iff]
  constructor
  · rintro ⟨front, ⟨item, i⟩, back, isSplit, succeeds, fails⟩
    have atFront : (items.zipIdx)[front.length]? = some (item, i) := by
      rw [isSplit]
      simp
    rw [List.getElem?_zipIdx, Nat.zero_add] at atFront
    obtain ⟨_, isItem, samePair⟩ := Option.map_eq_some_iff.mp atFront
    cases samePair
    refine ⟨front.length, item, isItem, succeeds, ?_⟩
    intro other k atK isEarlier
    apply fails
    have inZip : (items.zipIdx)[k]? = some (other, k) := by
      rw [List.getElem?_zipIdx, atK]
      simp
    rw [isSplit, List.getElem?_append_left isEarlier] at inZip
    exact List.mem_of_getElem? inZip
  · rintro ⟨i, item, present, succeeds, others⟩
    have inZip : (items.zipIdx)[i]? = some (item, i) := by
      rw [List.getElem?_zipIdx, present]
      simp
    obtain ⟨inRange, isItem⟩ := List.getElem?_eq_some_iff.mp inZip
    refine
      ⟨items.zipIdx.take i, (item, i), items.zipIdx.drop (i + 1), ?_, succeeds,
        ?_⟩
    · rw [← isItem, List.getElem_cons_drop, List.take_append_drop]
    · intro entry inFront
      obtain ⟨k, isAt⟩ := List.mem_iff_getElem?.mp inFront
      rw [List.getElem?_take] at isAt
      split_ifs at isAt with isEarlier
      rw [List.getElem?_zipIdx, Nat.zero_add] at isAt
      obtain ⟨other, isOther, rfl⟩ := Option.map_eq_some_iff.mp isAt
      exact others other k isOther isEarlier

/-- A scan over positions that succeeds at one of them only. -/
theorem findSome?_zipIdx_eq_some
    {Item Result : Type} {items : List Item}
    {probe : Item × Nat → Option Result} {i : Nat} {item : Item}
    {result : Result}
    (present : items[i]? = some item)
    (succeeds : probe (item, i) = some result)
    (others :
      ∀ other k, items[k]? = some other → k ≠ i → probe (other, k) = none) :
    items.zipIdx.findSome? probe = some result :=
  findSome?_zipIdx_eq_some_iff.mpr
    ⟨i, item, present, succeeds, fun other k isOther isEarlier =>
      others other k isOther (Nat.ne_of_lt isEarlier)⟩

/-- The index of a filed header is made of its two positions. -/
theorem Filed.sectionIndexByName_eq
    {headers : List Shdr} {bound : Nat} {containers : List SectionContainer}
    (filed : Filed headers bound containers)
    {i j p : Nat} (isFiled : FiledAt containers i j p)
    {shdr : Shdr} (isHeader : headers[p]? = some shdr) :
    sectionIndexByName containers shdr.name p = sectionIndex i j := by
  obtain ⟨schain, isAt, rfl⟩ := Option.map_eq_some_iff.mp isFiled
  obtain ⟨sc, atI, atJ⟩ := Option.bind_eq_some_iff.mp isAt
  have sameName : sc.name = some shdr.name := by
    rw [← filed.named sc (List.mem_of_getElem? atI) schain
      (List.mem_of_getElem? atJ), isHeader]
    rfl
  have isFirst :
      (sc.chain.findIdx? fun other => other.p = schain.p) = some j := by
    obtain ⟨inRange, isItem⟩ := List.getElem?_eq_some_iff.mp atJ
    rw [List.findIdx?_eq_some_iff_getElem]
    refine ⟨inRange, by simp [isItem], ?_⟩
    intro k isEarlier
    have filedThere :
        ∀ l, (∃ other, sc.chain[l]? = some other ∧ other.p = schain.p) →
          FiledAt containers i l schain.p := by
      rintro l ⟨other, isOther, samePointer⟩
      rw [FiledAt, chainAt, atI, Option.bind_some, isOther]
      exact congrArg some samePointer
    have notSame : sc.chain[k].p ≠ schain.p := by
      intro samePointer
      have twice :=
        filedThere k ⟨_, List.getElem?_eq_getElem (by omega), samePointer⟩
      exact
        Nat.ne_of_lt isEarlier (filed.position_unique twice isFiled).2
    simpa using notSame
  unfold sectionIndexByName
  rw [findSome?_zipIdx_eq_some atI
    (by simp only [sameName, ↓reduceIte, isFirst]; rfl)]
  · rfl
  · intro other k atK isOther
    have otherName : other.name ≠ some shdr.name := fun same =>
      isOther (filed.container_unique atK atI (same.trans sameName.symm))
    exact if_neg otherName

/-- A header that is filed nowhere has the index zero. -/
theorem sectionIndexByName_eq_zero
    {containers : List SectionContainer} {p : Nat}
    (isNowhere : p ∉ sectionPointers containers) (name : CString) :
    sectionIndexByName containers name p = 0 := by
  unfold sectionIndexByName
  rw [List.findSome?_eq_none_iff.mpr]
  · rfl
  · rintro ⟨sc, i⟩ member
    have isContainer : sc ∈ containers := (List.mem_zipIdx' member).2 ▸
      List.getElem_mem _
    dsimp only
    split_ifs with isNamed
    · rw [List.findIdx?_eq_none_iff.mpr]
      · rfl
      · intro schain inChain
        apply decide_eq_false
        rintro rfl
        apply isNowhere
        apply List.mem_map_of_mem
        exact List.mem_flatMap.mpr ⟨sc, isContainer, inChain⟩
    · rfl

/--
An index made of two positions leads back to what is there, also when one more
container is on the list: its number is zero in a byte, like the first one's.
-/
theorem sectionChainByIndex_sectionIndex
    {containers : List SectionContainer} {i j : Nat} {schain : SectionChain}
    (fewContainers : containers.length ≤ 257)
    (shortChains : ∀ sc ∈ containers, sc.chain.length ≤ 255)
    (notFirst : 0 < i) (inByte : i < 256)
    (isAt : chainAt containers i j = some schain) :
    sectionChainByIndex containers (sectionIndex i j) = some schain := by
  obtain ⟨sc, atI, atJ⟩ := Option.bind_eq_some_iff.mp isAt
  have boundI := (List.getElem?_eq_some_iff.mp atI).1
  have boundJ := (List.getElem?_eq_some_iff.mp atJ).1
  have shortChain := shortChains sc (List.mem_of_getElem? atI)
  have high : sectionIndex i j / 256 = i := by
    unfold sectionIndex
    omega
  have low : sectionIndex i j % 256 = j := by
    unfold sectionIndex
    omega
  unfold sectionChainByIndex
  rw [high, low]
  apply findSome?_zipIdx_eq_some atI
  · apply findSome?_zipIdx_eq_some atJ
    · exact if_pos ⟨by omega, by omega⟩
    · intro other l atL isOther
      have boundL := (List.getElem?_eq_some_iff.mp atL).1
      exact if_neg (by omega)
  · intro other k atK isOther
    have boundK := (List.getElem?_eq_some_iff.mp atK).1
    apply List.findSome?_eq_none_iff.mpr
    rintro ⟨element, l⟩ _
    exact if_neg (by omega)

/-- An index below both limits is not the one of an unfiled header. -/
theorem sectionIndex_ne_zero
    {i j : Nat} (isNamed : 0 < i) (fits : i < 256) :
    sectionIndex i j ≠ 0 := by
  unfold sectionIndex
  omega

/-! ## Inserting a section -/

/-- Inserting a section leaves every filed header where it is. -/
theorem FiledAt.insertSection
    {containers : List SectionContainer} {i j p : Nat}
    (isFiled : FiledAt containers i j p) (name : CString) (q : Nat) :
    FiledAt (insertSection containers name q) i j p := by
  obtain ⟨schain, isAt, rfl⟩ := Option.map_eq_some_iff.mp isFiled
  obtain ⟨sc, atI, atJ⟩ := Option.bind_eq_some_iff.mp isAt
  have boundI := (List.getElem?_eq_some_iff.mp atI).1
  have boundJ := (List.getElem?_eq_some_iff.mp atJ).1
  unfold Elf.insertSection FiledAt chainAt
  cases matchSection containers name with
  | none =>
      dsimp only
      rw [List.getElem?_append_left boundI, atI, Option.bind_some, atJ]
      rfl
  | some index =>
      simp only [allocSectionChain, List.getElem?_modify, atI]
      by_cases isHere : index = i
      · simp [isHere, List.getElem?_append_left boundJ, atJ]
      · simp [isHere, atJ]

/-- Inserting a section files its header and no other. -/
theorem FiledAt.of_insertSection
    {containers : List SectionContainer} {name : CString} {i j p q : Nat}
    (isFiled : FiledAt (Elf.insertSection containers name q) i j p) :
    FiledAt containers i j p ∨ p = q := by
  obtain ⟨schain, isAt, rfl⟩ := Option.map_eq_some_iff.mp isFiled
  obtain ⟨sc, atI, atJ⟩ := Option.bind_eq_some_iff.mp isAt
  unfold Elf.insertSection at atI
  cases isMatch : matchSection containers name with
  | none =>
      rw [isMatch] at atI
      dsimp only at atI
      rcases Nat.lt_or_ge i containers.length with isOld | isNew
      · rw [List.getElem?_append_left isOld] at atI
        left
        rw [FiledAt, chainAt, atI, Option.bind_some, atJ]
        rfl
      · right
        rw [List.getElem?_append_right isNew] at atI
        have isOnly := List.mem_singleton.mp (List.mem_of_getElem? atI)
        subst isOnly
        have isElement := List.mem_singleton.mp (List.mem_of_getElem? atJ)
        rw [isElement]
  | some index =>
      rw [isMatch] at atI
      simp only [allocSectionChain, List.getElem?_modify] at atI
      obtain ⟨old, isOld, rfl⟩ := Option.map_eq_some_iff.mp atI
      by_cases isHere : index = i
      · simp only [isHere, ↓reduceIte] at atJ
        rcases Nat.lt_or_ge j old.chain.length with isEarlier | isLast
        · rw [List.getElem?_append_left isEarlier] at atJ
          left
          rw [FiledAt, chainAt, isOld, Option.bind_some, atJ]
          rfl
        · right
          rw [List.getElem?_append_right isLast] at atJ
          have isElement := List.mem_singleton.mp (List.mem_of_getElem? atJ)
          rw [isElement]
      · simp only [isHere, ↓reduceIte] at atJ
        left
        rw [FiledAt, chainAt, isOld, Option.bind_some]
        exact congrArg (Option.map SectionChain.p) atJ

/-- A section in a container changes no name. -/
theorem names_allocSectionChain
    (containers : List SectionContainer) (index p : Nat) :
    (allocSectionChain containers index p).map SectionContainer.name =
      containers.map SectionContainer.name := by
  apply List.ext_getElem?
  intro i
  simp only [allocSectionChain, List.getElem?_map, List.getElem?_modify]
  cases containers[i]? with
  | none => rfl
  | some sc => by_cases isHere : index = i <;> simp [isHere]

/-- The name of an inserted section is added if it is new. -/
theorem names_insertSection
    (containers : List SectionContainer) (name : CString) (p : Nat) :
    (insertSection containers name p).map SectionContainer.name =
      containers.map SectionContainer.name ++
        if matchSection containers name = none then [some name] else [] := by
  unfold insertSection
  cases isMatch : matchSection containers name with
  | none =>
      rw [List.map_append]
      rfl
  | some index =>
      dsimp only
      rw [names_allocSectionChain]
      simp

/-- The container that a section is inserted into bears its name. -/
theorem Filed.insertSection
    {headers : List Shdr} {p : Nat} {containers : List SectionContainer}
    (filed : Filed headers p containers)
    {shdr : Shdr} (isHeader : headers[p]? = some shdr) :
    Filed headers (p + 1) (insertSection containers shdr.name p) where
  arranged := filed.arranged.insertSection shdr.name
  unnamed := by
    have isFirst := filed.unnamed
    rw [← List.getElem?_map] at isFirst ⊢
    have inRange := (List.getElem?_eq_some_iff.mp isFirst).1
    rw [names_insertSection, List.getElem?_append_left inRange]
    exact isFirst
  distinct := by
    rw [names_insertSection]
    cases isMatch : matchSection containers shdr.name with
    | none =>
        rw [if_pos rfl, List.nodup_append]
        refine ⟨filed.distinct, by simp, ?_⟩
        intro old isOld new isNew
        obtain ⟨sc, isContainer, rfl⟩ := List.mem_map.mp isOld
        have isOnly : new = some shdr.name := by simpa using isNew
        have differs :=
          List.findIdx?_eq_none_iff.mp isMatch sc isContainer
        subst isOnly
        exact of_decide_eq_false differs
    | some index =>
        simpa using filed.distinct
  named := by
    intro sc isContainer schain inChain
    unfold Elf.insertSection at isContainer
    cases isMatch : matchSection containers shdr.name with
    | none =>
        rw [isMatch] at isContainer
        rcases List.mem_append.mp isContainer with isOld | isNew
        · exact filed.named sc isOld schain inChain
        · cases List.mem_singleton.mp isNew
          cases List.mem_singleton.mp inChain
          rw [isHeader]
          rfl
    | some index =>
        rw [isMatch] at isContainer
        obtain ⟨i, atI⟩ := List.mem_iff_getElem?.mp isContainer
        simp only [allocSectionChain, List.getElem?_modify] at atI
        obtain ⟨old, isOld, rfl⟩ := Option.map_eq_some_iff.mp atI
        have wasContainer := List.mem_of_getElem? isOld
        by_cases isHere : index = i
        · simp only [isHere, ↓reduceIte] at inChain ⊢
          rcases List.mem_append.mp inChain with isEarlier | isLast
          · exact filed.named old wasContainer schain isEarlier
          · cases List.mem_singleton.mp isLast
            have isNamed :=
              List.findIdx?_eq_some_iff_getElem.mp isMatch
            obtain ⟨inRange, sameName, _⟩ := isNamed
            subst isHere
            have isSame := (List.getElem?_eq_some_iff.mp isOld).2
            rw [isHeader, ← isSame]
            exact (of_decide_eq_true sameName).symm
        · simp only [isHere, ↓reduceIte] at inChain ⊢
          exact filed.named old wasContainer schain inChain

/-- More headers may count as read. -/
theorem Filed.mono
    {headers : List Shdr} {bound larger : Nat}
    {containers : List SectionContainer}
    (filed : Filed headers bound containers) (atLeast : bound ≤ larger) :
    Filed headers larger containers :=
  { filed with arranged := filed.arranged.mono atLeast }

/-- A further object appends its headers to the arena. -/
theorem Filed.append
    {headers : List Shdr} {containers : List SectionContainer}
    (filed : Filed headers headers.length containers)
    (more : List Shdr) :
    Filed (headers ++ more) headers.length containers where
  arranged := filed.arranged
  unnamed := filed.unnamed
  distinct := filed.distinct
  named := by
    intro sc isContainer schain inChain
    have inArena := (filed.arranged sc isContainer).2.2 schain inChain
    rw [List.getElem?_append_left inArena]
    exact filed.named sc isContainer schain inChain

/-- Nothing is filed in the unnamed container. -/
theorem Filed.container_pos
    {headers : List Shdr} {bound : Nat} {containers : List SectionContainer}
    (filed : Filed headers bound containers) (inArena : bound ≤ headers.length)
    {i j p : Nat} (isFiled : FiledAt containers i j p) :
    0 < i := by
  apply Nat.pos_of_ne_zero
  rintro rfl
  obtain ⟨schain, isAt, rfl⟩ := Option.map_eq_some_iff.mp isFiled
  obtain ⟨sc, atI, atJ⟩ := Option.bind_eq_some_iff.mp isAt
  have isContainer := List.mem_of_getElem? atI
  have inChain := List.mem_of_getElem? atJ
  have isUnnamed := filed.unnamed
  rw [atI, Option.map_some] at isUnnamed
  have isBelow := (filed.arranged sc isContainer).2.2 schain inChain
  have isNamed := filed.named sc isContainer schain inChain
  rw [Option.some.inj isUnnamed,
    List.getElem?_eq_getElem (by omega : schain.p < headers.length)] at isNamed
  cases isNamed

/-! ## Reading more sections -/

/--
Headers below a bound are filed where they were before, and containers were only
added.
-/
structure FiledMore (bound : Nat) (before after : List SectionContainer) :
    Prop where
  kept : ∀ i j p, FiledAt before i j p → FiledAt after i j p
  old : ∀ i j p, FiledAt after i j p → p < bound → FiledAt before i j p
  names :
    before.map SectionContainer.name <+: after.map SectionContainer.name

/-- Containers that do not change. -/
theorem FiledMore.refl (bound : Nat) (containers : List SectionContainer) :
    FiledMore bound containers containers :=
  ⟨fun _ _ _ isFiled => isFiled, fun _ _ _ isFiled _ => isFiled,
    List.prefix_refl _⟩

/-- Adding headers above a bound and then above a larger one. -/
theorem FiledMore.trans
    {bound larger : Nat} {first second third : List SectionContainer}
    (earlier : FiledMore bound first second)
    (later : FiledMore larger second third) (atLeast : bound ≤ larger) :
    FiledMore bound first third :=
  ⟨fun i j p isFiled => later.kept i j p (earlier.kept i j p isFiled),
    fun i j p isFiled isBelow =>
      earlier.old i j p
        (later.old i j p isFiled (Nat.lt_of_lt_of_le isBelow atLeast))
        isBelow,
    earlier.names.trans later.names⟩

/-- Names that fit their lines after more headers fitted them before. -/
theorem FiledMore.logged
    {bound : Nat} {before after : List SectionContainer}
    (more : FiledMore bound before after) (logged : ContainersLogged after) :
    ContainersLogged before := by
  intro sc isContainer name isName
  have named : some name ∈ before.map SectionContainer.name :=
    List.mem_map.mpr ⟨sc, isContainer, isName⟩
  obtain ⟨later, isLater, sameName⟩ :=
    List.mem_map.mp (more.names.subset named)
  exact logged later isLater name sameName

/-- The head of an object's sections is the least of them. -/
theorem sectionChainHead_eq_some_iff
    {containers : List SectionContainer} {head first : Nat} :
    sectionChainHead containers head = some first ↔
      (first ∈ sectionPointers containers ∧ head ≤ first) ∧
        ∀ q ∈ sectionPointers containers, head ≤ q → first ≤ q := by
  simp [sectionChainHead, List.min?_eq_some_iff]

/-- An object with a section has a head. -/
theorem exists_sectionChainHead
    {containers : List SectionContainer} {head p : Nat}
    (isFiled : p ∈ sectionPointers containers) (isOwn : head ≤ p) :
    ∃ first, sectionChainHead containers head = some first := by
  have isCandidate :
      p ∈ (sectionPointers containers).filter fun q => head ≤ q :=
    List.mem_filter.mpr ⟨isFiled, decide_eq_true isOwn⟩
  exact Option.isSome_iff_exists.mp (List.isSome_min?_of_mem isCandidate)

/-- The head of an object's sections stays when more headers are filed. -/
theorem FiledMore.sectionChainHead_eq
    {bound head p : Nat} {before after : List SectionContainer}
    (more : FiledMore bound before after)
    (below : ∀ q ∈ sectionPointers before, q < bound)
    (isFiled : p ∈ sectionPointers before) (isOwn : head ≤ p) :
    sectionChainHead before head = sectionChainHead after head := by
  obtain ⟨first, isFirst⟩ := exists_sectionChainHead isFiled isOwn
  obtain ⟨⟨firstFiled, firstOwn⟩, isLeast⟩ :=
    sectionChainHead_eq_some_iff.mp isFirst
  rw [isFirst, eq_comm, sectionChainHead_eq_some_iff]
  refine ⟨⟨?_, firstOwn⟩, ?_⟩
  · obtain ⟨i, j, isAt⟩ := mem_sectionPointers_iff.mp firstFiled
    exact mem_sectionPointers_iff.mpr ⟨i, j, more.kept i j first isAt⟩
  · intro q laterFiled laterOwn
    rcases Nat.lt_or_ge q bound with isOld | isNew
    · obtain ⟨i, j, isAt⟩ := mem_sectionPointers_iff.mp laterFiled
      exact
        isLeast q
          (mem_sectionPointers_iff.mpr ⟨i, j, more.old i j q isAt isOld⟩)
          laterOwn
    · exact Nat.le_of_lt (Nat.lt_of_lt_of_le (below first firstFiled) isNew)

/-- A section callback files its header or none. -/
theorem Filed.onSection
    {headers : List Shdr} {p : Nat} {link : Link}
    (filed : Filed headers p link.containers)
    {shdr : Shdr} (isHeader : headers[p]? = some shdr)
    (oc : Option ObjectChain) :
    Filed headers (p + 1) (onSection link oc p shdr).1.containers ∧
      FiledMore p link.containers
        (onSection link oc p shdr).1.containers := by
  rcases onSection_containers link oc p shdr with isSame | isInserted
  · rw [isSame]
    exact ⟨filed.mono (Nat.le_succ p), .refl p _⟩
  · rw [isInserted]
    refine ⟨filed.insertSection isHeader, ?_, ?_, ?_⟩
    · exact fun i j q isFiled => isFiled.insertSection shdr.name p
    · intro i j q isFiled isBelow
      rcases isFiled.of_insertSection with isOld | isNew
      · exact isOld
      · exact absurd isNew (Nat.ne_of_lt isBelow)
    · rw [names_insertSection]
      exact List.prefix_append _ _

/-- The walk over the headers of an object files some of them. -/
theorem Filed.runThroughShdr
    {headers : List Shdr} {p : Nat} {link : Link}
    (filed : Filed headers p link.containers) (oc : Option ObjectChain)
    {sections : List Shdr}
    (present :
      ∀ index shdr, sections[index]? = some shdr →
        headers[p + index]? = some shdr) :
    Filed headers (p + sections.length)
        (runThroughShdr link oc p sections).1.containers ∧
      FiledMore p link.containers
        (runThroughShdr link oc p sections).1.containers := by
  induction sections generalizing link oc p with
  | nil => exact ⟨filed, .refl p _⟩
  | cons shdr rest inductionHypothesis =>
      obtain ⟨next, more⟩ := filed.onSection (present 0 shdr rfl) oc
      have laterPresent :
          ∀ index other, rest[index]? = some other →
            headers[p + 1 + index]? = some other := by
        intro index other isOther
        have shifted := present (index + 1) other isOther
        rwa [Nat.add_assoc, Nat.add_comm 1 index]
      obtain ⟨last, evenMore⟩ :=
        inductionHypothesis next (Elf.onSection link oc p shdr).2 laterPresent
      constructor
      · have length : p + (shdr :: rest).length = p + 1 + rest.length := by
          rw [List.length_cons]
          omega
        rw [length]
        exact last
      · exact more.trans evenMore (Nat.le_succ p)

/-- The containers of a linker file headers of its arena. -/
def Link.Filed (link : Link) : Prop :=
  Elf.Filed link.headers link.headers.length link.containers

/-- Reading the headers of an object files some of them. -/
theorem Link.Filed.readSections
    {link : Link} (filed : link.Filed) (file : ElfFile) :
    (readSections link file).1.Filed ∧
      FiledMore link.headers.length link.containers
        (readSections link file).1.containers := by
  have present :
      ∀ index shdr, file.sections[index]? = some shdr →
        (link.headers ++ file.sections)[link.headers.length + index]? =
          some shdr := by
    intro index shdr isHeader
    rw [List.getElem?_append_right (Nat.le_add_right _ _),
      Nat.add_sub_cancel_left]
    exact isHeader
  let loaded := { link with headers := link.headers ++ file.sections }
  have isFiled :
      Elf.Filed loaded.headers link.headers.length loaded.containers :=
    filed.append file.sections
  obtain ⟨walked, more⟩ := Filed.runThroughShdr isFiled none present
  refine ⟨?_, more⟩
  unfold Link.Filed
  rw [readSections_headers, List.length_append]
  exact walked

/-- The linker starts with the unnamed container. -/
theorem filed_init (interp : Option CString) : (Link.init interp).Filed where
  arranged := by simp [Arranged, Link.init]
  unnamed := rfl
  distinct := by simp [Link.init]
  named := by simp [Link.init]

end BinTools.Elf
