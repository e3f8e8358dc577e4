import BinTools.ElfSections
import BinTools.ConsecutiveRanges

namespace BinTools.Elf

/-!
# Placing sections in memory and in the file

Addresses are given out by one walk over the section containers and the bytes
are written by another one.  Both lay the sections end to end, the first in a
32-bit cursor and the second by the position in the output file, so they agree
as long as neither of the two runs out of range.
-/

/-- `__z__link__add_pltgot_sc`: the `.plt.got` container, of size zero yet. -/
def addPltgotSc (link : Link) : Link :=
  { link with
    headers := link.headers ++ [{ shType := shtDynamic }]
    containers :=
      link.containers ++
        [{ name := some (.ofString ".plt.got")
           chain := [{ p := link.headers.length }] }]
    pltGot :=
      some
        { container := link.containers.length
          header := link.headers.length } }

/-- `sh_size` behind a header pointer. -/
def shSizeAt (headers : List Shdr) (p : Nat) : Nat :=
  (headers[p]?).elim 0 Shdr.shSize

/--
The loop of `__z__link__elf_set_virtual_address` over one container: every
section gets the cursor plus the size in front of it, in 32 bits.
-/
def placeChain (offset : Nat) (headers : List Shdr) (size : Nat) :
    List SectionChain → List Shdr × Nat × List SectionChain
  | [] => (headers, size, [])
  | schain :: rest =>
      let address := u32 (offset + size)
      let headers :=
        headers.modify schain.p fun shdr => { shdr with shAddr := address }
      let (headers, size, placed) :=
        placeChain offset headers (u32 (size + shSizeAt headers schain.p)) rest
      (headers, size, { schain with virtualAddress := address } :: placed)

/--
A container after its sections were placed; it keeps an address that was set
before.
-/
def SectionContainer.place
    (sc : SectionContainer) (offset size : Nat) (chain : List SectionChain) :
    SectionContainer :=
  { sc with
    size := size
    virtualAddress :=
      if sc.virtualAddress = 0 then offset else sc.virtualAddress
    chain := chain }

/-- `__z__link__elf_set_virtual_address` for every container in turn. -/
def setVirtualAddress (headers : List Shdr) (offset : Nat) :
    List SectionContainer → List Shdr × Nat × List SectionContainer
  | [] => (headers, offset, [])
  | sc :: rest =>
      if sc.chain = [] then
        let (headers, offset, placed) := setVirtualAddress headers offset rest
        (headers, offset, sc :: placed)
      else
        let (headers, size, chain) :=
          placeChain offset headers sc.size sc.chain
        let (headers, last, placed) :=
          setVirtualAddress headers (u32 (offset + size)) rest
        (headers, last, sc.place offset size chain :: placed)

/--
Give out the addresses: start the cursor behind the program headers and visit
every container.
-/
def Link.setVirtualAddresses (link : Link) : Link :=
  let (headers, offset, containers) :=
    setVirtualAddress link.headers
      (u32 (link.baseAddress + link.programHeaderTail)) link.containers
  { link with
    headers := headers
    containers := containers
    virtualAddressOffset := offset }

/--
The layout part of `do_elf_task`: `.plt.got` is added unless the output is
`-nodynamic`, then the addresses are given out.
-/
def layOut (nodynamic : Bool) (link : Link) : Link :=
  (if nodynamic then link else addPltgotSc link).setVirtualAddresses

/-- The final size of `.plt.got`, known once everything was relocated. -/
def Link.setPltSize (link : Link) (size : Nat) : Link :=
  match link.pltGot with
  | none => link
  | some pltGot =>
      { link with
        headers :=
          link.headers.modify pltGot.header fun shdr =>
            { shdr with shSize := size } }

/-- The sizes of the sections of every container. -/
def Link.shSizes (link : Link) : List (List Nat) :=
  link.containers.map fun sc =>
    sc.chain.map fun schain => shSizeAt link.headers schain.p

/-- The most bytes one `write` call transfers on Linux. -/
def maxTransfer : Nat :=
  0x7ffff000

/-- `__os__write`: the number of bytes a call transfers. -/
def osWrite (count : Nat) : Nat :=
  min count maxTransfer

/--
`write_raw_data` for one container, given the `sh_size` of its sections: the
file position each section is written at and the position afterwards.
-/
def writeRawData (position : Nat) : List Nat → List Nat × Nat
  | [] => ([], position)
  | shSize :: rest =>
      let after := if shSize ≠ 0 then position + osWrite shSize else position
      let (positions, last) := writeRawData after rest
      (position :: positions, last)

/-- `write_raw_data` for every container in turn. -/
def writeContainers (position : Nat) : List (List Nat) → List (List Nat)
  | [] => []
  | sizes :: rest =>
      let (positions, next) := writeRawData position sizes
      positions :: writeContainers next rest

/--
`__z__link__gen_elf`: seek behind the program headers and write every
container.  `later` are the sizes of the containers that were added after the
layout.
-/
def genElf (link : Link) (later : List (List Nat)) : List (List Nat) :=
  writeContainers link.programHeaderTail (link.shSizes ++ later)

/-- All sections that got an address, in the order of the containers. -/
def Link.elements (link : Link) : List SectionChain :=
  elementsOf link.containers

/--
The two walks agree: every section is written where its address says, the
address ranges are laid end to end from the program header tail on, and the
sections of a container come in input order.
-/
structure Placed (link : Link) (offsets : List (List Nat)) : Prop where
  fileOffset :
    ∀ (index : Nat) (element : SectionChain),
      link.elements[index]? = some element →
        ∃ offset,
          offsets.flatten[index]? = some offset ∧
            element.virtualAddress = link.baseAddress + offset
  contiguous :
    ∀ (index : Nat) (element : SectionChain),
      link.elements[index]? = some element →
        element.virtualAddress =
          link.baseAddress + link.programHeaderTail +
            (link.shSizes.flatten.take index).sum
  disjoint :
    link.elements.Pairwise fun earlier later =>
      earlier.virtualAddress + shSizeAt link.headers earlier.p ≤
        later.virtualAddress
  inputOrder :
    ∀ sc ∈ link.containers, (sc.chain.map SectionChain.p).Pairwise (· < ·)

/-! ## What reading the objects leaves in the containers -/

/-- Containers not placed yet, with their headers in the order of the arena. -/
def Arranged (bound : Nat) (containers : List SectionContainer) : Prop :=
  ∀ sc ∈ containers,
    sc.size = 0 ∧
      (sc.chain.map SectionChain.p).Pairwise (· < ·) ∧
        ∀ schain ∈ sc.chain, schain.p < bound

/-- A larger arena changes nothing for the headers in use. -/
theorem Arranged.mono
    {bound larger : Nat} {containers : List SectionContainer}
    (arranged : Arranged bound containers)
    (atLeast : bound ≤ larger) :
    Arranged larger containers := by
  intro sc member
  obtain ⟨unplaced, ordered, inArena⟩ := arranged sc member
  exact
    ⟨unplaced, ordered,
      fun schain inChain =>
        Nat.lt_of_lt_of_le (inArena schain inChain) atLeast⟩

/-- Inserting the next header keeps every container in order. -/
theorem Arranged.insertSection
    {p : Nat} {containers : List SectionContainer}
    (arranged : Arranged p containers) (name : CString) :
    Arranged (p + 1) (insertSection containers name p) := by
  have kept := arranged.mono (Nat.le_succ p)
  unfold Elf.insertSection
  cases matchSection containers name with
  | none =>
      intro sc member
      rcases List.mem_append.mp member with earlier | added
      · exact kept sc earlier
      · cases List.mem_singleton.mp added
        simp
  | some index =>
      intro sc member
      obtain ⟨position, atPosition⟩ := List.mem_iff_getElem?.mp member
      simp only [allocSectionChain, List.getElem?_modify, Option.map_eq_map]
        at atPosition
      obtain ⟨old, oldThere, rfl⟩ := Option.map_eq_some_iff.mp atPosition
      have oldMember := List.mem_of_getElem? oldThere
      by_cases here : index = position
      · obtain ⟨unplaced, ordered, inArena⟩ := arranged old oldMember
        simp only [here, ↓reduceIte]
        refine ⟨unplaced, ?_, ?_⟩
        · simp only [List.map_append, List.map_cons, List.map_nil]
          refine List.pairwise_append.mpr ⟨ordered, by simp, ?_⟩
          intro earlier inOld last isLast
          cases List.mem_singleton.mp isLast
          obtain ⟨schain, inChain, rfl⟩ := List.mem_map.mp inOld
          exact inArena schain inChain
        · intro schain inChain
          rcases List.mem_append.mp inChain with earlier | added
          · exact Nat.lt_succ_of_lt (inArena schain earlier)
          · cases List.mem_singleton.mp added
            exact Nat.lt_succ_self p
      · simpa [here] using kept old oldMember

/-- The note branch inserts the header or leaves the containers alone. -/
theorem insertNote_containers (link : Link) (name : CString) (p : Nat) :
    (insertNote link name p).containers = link.containers ∨
      (insertNote link name p).containers =
        insertSection link.containers name p := by
  unfold insertNote
  split_ifs
  · exact Or.inl rfl
  · exact Or.inr rfl
  · exact Or.inr rfl

/-- A relocation section goes to no container. -/
theorem appendReloc_containers
    (link : Link) (oc : ObjectChain) (name : CString) (p : Nat) :
    (appendReloc link oc name p).1.containers = link.containers := by
  unfold appendReloc
  split
  · rfl
  · dsimp only
    split <;> rfl

/-- A section callback inserts the header or leaves the containers alone. -/
theorem onSection_containers
    (link : Link) (oc : Option ObjectChain) (p : Nat) (shdr : Shdr) :
    (onSection link oc p shdr).1.containers = link.containers ∨
      (onSection link oc p shdr).1.containers =
        insertSection link.containers shdr.name p := by
  cases oc with
  | none => exact Or.inl rfl
  | some oc =>
      unfold onSection
      dsimp only
      split_ifs
      · exact Or.inr rfl
      · exact Or.inr rfl
      · exact Or.inl (appendReloc_containers link oc shdr.name p)
      · exact Or.inr rfl
      · exact insertNote_containers link shdr.name p
      · exact Or.inl rfl

/-- The walk over consecutive headers keeps the containers in order. -/
theorem Arranged.runThroughShdr
    {p : Nat} (link : Link)
    (arranged : Arranged p link.containers)
    (oc : Option ObjectChain) (sections : List Shdr) :
    Arranged (p + sections.length)
      (runThroughShdr link oc p sections).1.containers := by
  induction sections generalizing p link oc with
  | nil => exact arranged
  | cons shdr rest inductionHypothesis =>
      have next :
          Arranged (p + 1) (onSection link oc p shdr).1.containers := by
        rcases onSection_containers link oc p shdr with same | inserted
        · rw [same]
          exact arranged.mono (Nat.le_succ p)
        · rw [inserted]
          exact arranged.insertSection shdr.name
      have later := inductionHypothesis _ next (onSection link oc p shdr).2
      rwa [Nat.add_assoc, Nat.add_comm 1] at later

/-- What holds between two objects: the containers in order, no `.plt.got`. -/
structure BetweenObjects (base : Nat) (link : Link) : Prop where
  arranged : Arranged link.headers.length link.containers
  noPlt : link.pltGot = none
  baseAddress : link.baseAddress = base

/-- Reading an object extends the arena by its headers. -/
theorem BetweenObjects.readObject
    {base : Nat} {link next : Link} {file : ElfFile}
    (between : BetweenObjects base link)
    (reading : readObject link file = some next) :
    BetweenObjects base next := by
  obtain ⟨walked, final, _, _, rfl⟩ := readObject_eq_some reading
  have arena :=
    runThroughShdr_sameArena
      { link with headers := link.headers ++ file.sections }
      none link.headers.length file.sections
  constructor
  · simp only [readSections_headers, List.length_append]
    exact
      Arranged.runThroughShdr
        { link with headers := link.headers ++ file.sections }
        between.arranged none file.sections
  · exact arena.pltGot.trans between.noPlt
  · exact arena.baseAddress.trans between.baseAddress

/-- Reading a list of objects does so too. -/
theorem BetweenObjects.readObjects
    {base : Nat} {link read : Link} {files : List ElfFile}
    (between : BetweenObjects base link)
    (reading : readObjects link files = some read) :
    BetweenObjects base read := by
  induction files generalizing link with
  | nil =>
      cases reading
      exact between
  | cons file rest inductionHypothesis =>
      simp only [Elf.readObjects, List.foldlM_cons] at reading
      obtain ⟨next, first, later⟩ := Option.bind_eq_some_iff.mp reading
      exact inductionHypothesis (between.readObject first) later

/-- The lists of the linker start out with an empty container. -/
theorem betweenObjects_init (interp : Option CString) (base : Nat) :
    BetweenObjects base { Link.init interp with baseAddress := base } where
  arranged := by simp [Arranged, Link.init]
  noPlt := rfl
  baseAddress := rfl

/-! ## The address walk -/

/-- Giving a header its address does not change any size. -/
theorem shSizeAt_modify
    {headers : List Shdr} {p : Nat} {change : Shdr → Shdr}
    (sameSize : ∀ shdr, (change shdr).shSize = shdr.shSize) (q : Nat) :
    shSizeAt (headers.modify p change) q = shSizeAt headers q := by
  simp only [shSizeAt, List.getElem?_modify]
  cases headers[q]? with
  | none => rfl
  | some shdr => by_cases here : p = q <;> simp [here, sameSize]

/-- Addresses are written to headers that exist. -/
theorem length_placeChain
    (offset size : Nat) (headers : List Shdr) (chain : List SectionChain) :
    (placeChain offset headers size chain).1.length = headers.length := by
  induction chain generalizing size headers with
  | nil => rfl
  | cons schain rest inductionHypothesis =>
      simp only [placeChain, inductionHypothesis, List.length_modify]

/-- No walk over the containers adds or drops a header. -/
theorem length_setVirtualAddress
    (offset : Nat) (headers : List Shdr)
    (containers : List SectionContainer) :
    (setVirtualAddress headers offset containers).1.length =
      headers.length := by
  induction containers generalizing offset headers with
  | nil => rfl
  | cons sc rest inductionHypothesis =>
      unfold setVirtualAddress
      split_ifs
      · exact inductionHypothesis _ _
      · exact
          (inductionHypothesis _ _).trans (length_placeChain _ _ _ _)

/-- The name of a container and the headers of its sections. -/
def SectionContainer.outline (sc : SectionContainer) :
    Option CString × List Nat :=
  (sc.name, sc.chain.map SectionChain.p)

/-- Placing the sections of a container changes neither sizes nor pointers. -/
theorem placeChain_keeps
    (offset size : Nat) (headers : List Shdr) (chain : List SectionChain) :
    shSizeAt (placeChain offset headers size chain).1 = shSizeAt headers ∧
      (placeChain offset headers size chain).2.2.map SectionChain.p =
        chain.map SectionChain.p := by
  induction chain generalizing size headers with
  | nil => exact ⟨rfl, rfl⟩
  | cons schain rest inductionHypothesis =>
      obtain ⟨sizes, pointers⟩ :=
        inductionHypothesis
          (u32 (size + shSizeAt
            (headers.modify schain.p fun shdr =>
              { shdr with shAddr := u32 (offset + size) }) schain.p))
          (headers.modify schain.p fun shdr =>
            { shdr with shAddr := u32 (offset + size) })
      constructor
      · exact sizes.trans (funext (shSizeAt_modify fun _ => rfl))
      · rw [placeChain, List.map_cons, List.map_cons]
        exact congrArg _ pointers

/-- Nor does placing all containers, which keep their names as well. -/
theorem setVirtualAddress_keeps
    (offset : Nat) (headers : List Shdr)
    (containers : List SectionContainer) :
    shSizeAt (setVirtualAddress headers offset containers).1 =
        shSizeAt headers ∧
      (setVirtualAddress headers offset containers).2.2.map
          SectionContainer.outline =
        containers.map SectionContainer.outline := by
  induction containers generalizing offset headers with
  | nil => exact ⟨rfl, rfl⟩
  | cons sc rest inductionHypothesis =>
      unfold setVirtualAddress
      split_ifs with empty
      · obtain ⟨sizes, outlines⟩ := inductionHypothesis offset headers
        exact ⟨sizes, congrArg (sc.outline :: ·) outlines⟩
      · obtain ⟨chainSame, pointers⟩ :=
          placeChain_keeps offset sc.size headers sc.chain
        obtain ⟨sizes, outlines⟩ :=
          inductionHypothesis
            (u32 (offset + (placeChain offset headers sc.size sc.chain).2.1))
            (placeChain offset headers sc.size sc.chain).1
        refine ⟨sizes.trans chainSame, ?_⟩
        dsimp only
        rw [List.map_cons, List.map_cons, outlines]
        refine congrArg (· :: _) ?_
        exact congrArg (sc.name, ·) pointers

/-- Setting the size of a header in the arena. -/
theorem shSizeAt_setSize
    {headers : List Shdr} {p : Nat} (inArena : p < headers.length)
    (size q : Nat) :
    shSizeAt (headers.modify p fun shdr => { shdr with shSize := size }) q =
      if p = q then size else shSizeAt headers q := by
  simp only [shSizeAt, List.getElem?_modify]
  by_cases here : p = q
  · subst here
    simp [inArena]
  · cases headers[q]? <;> simp [here]

/-- The sizes of the sections of a container. -/
def chainSizes (headers : List Shdr) (chain : List SectionChain) : List Nat :=
  chain.map fun schain => shSizeAt headers schain.p

/-- Giving a header its address changes the size of no section. -/
theorem shSizeAt_setAddress (headers : List Shdr) (p address q : Nat) :
    shSizeAt
        (headers.modify p fun shdr => { shdr with shAddr := address }) q =
      shSizeAt headers q := by
  apply shSizeAt_modify
  intro shdr
  rfl

/-- Nor those of a chain. -/
theorem chainSizes_setAddress
    (headers : List Shdr) (p address : Nat) (chain : List SectionChain) :
    chainSizes
        (headers.modify p fun shdr => { shdr with shAddr := address })
        chain =
      chainSizes headers chain := by
  unfold chainSizes
  simp only [shSizeAt_setAddress]

/-- The size of a container adds up in 32 bits. -/
theorem placeChain_size
    (offset size : Nat) (headers : List Shdr) (chain : List SectionChain) :
    (placeChain offset headers size chain).2.1 =
      if chain = [] then
        size
      else
        u32 (size + (chainSizes headers chain).sum) := by
  induction chain generalizing size headers with
  | nil => rfl
  | cons schain rest inductionHypothesis =>
      rw [placeChain, if_neg (List.cons_ne_nil schain rest)]
      dsimp only
      rw [inductionHypothesis, chainSizes_setAddress, shSizeAt_setAddress]
      have split :
          (chainSizes headers (schain :: rest)).sum =
            shSizeAt headers schain.p + (chainSizes headers rest).sum := rfl
      split_ifs with isLast
      · rw [split, isLast]
        rfl
      · rw [split, ← Nat.add_assoc]
        exact Nat.mod_add_mod _ _ _

/-- The sections of a container lie end to end in 32 bits. -/
theorem placeChain_addresses
    (offset size : Nat) (headers : List Shdr) (chain : List SectionChain) :
    (placeChain offset headers size chain).2.2.map
        SectionChain.virtualAddress =
      (ConsecutiveRanges.starts (offset + size)
        (chainSizes headers chain)).map u32 := by
  induction chain generalizing size headers with
  | nil => rfl
  | cons schain rest inductionHypothesis =>
      rw [placeChain]
      dsimp only
      rw [List.map_cons, inductionHypothesis, chainSizes_setAddress,
        shSizeAt_setAddress]
      apply congrArg (u32 (offset + size) :: ·)
      calc
        (ConsecutiveRanges.starts
            (offset + u32 (size + shSizeAt headers schain.p))
            (chainSizes headers rest)).map u32
            = (ConsecutiveRanges.starts
                (u32 (offset + u32 (size + shSizeAt headers schain.p)))
                (chainSizes headers rest)).map u32 :=
              (ConsecutiveRanges.starts_mod _ _ _).symm
        _ = (ConsecutiveRanges.starts
              (u32 (offset + (size + shSizeAt headers schain.p)))
              (chainSizes headers rest)).map u32 := by
              unfold u32
              rw [Nat.add_mod_mod]
        _ = (ConsecutiveRanges.starts
              (offset + size + shSizeAt headers schain.p)
              (chainSizes headers rest)).map u32 := by
              rw [Nat.add_assoc]
              exact ConsecutiveRanges.starts_mod _ _ _

/-- The sizes of all sections of a list of containers. -/
def sizesOf (headers : List Shdr) (containers : List SectionContainer) :
    List Nat :=
  chainSizes headers (elementsOf containers)

/-- No walk over further containers changes the sizes of their sections. -/
theorem sizesOf_placeChain
    (offset size : Nat) (headers : List Shdr) (chain : List SectionChain)
    (containers : List SectionContainer) :
    sizesOf (placeChain offset headers size chain).1 containers =
      sizesOf headers containers := by
  unfold sizesOf chainSizes
  rw [(placeChain_keeps offset size headers chain).1]

/-- The sizes of the sections, container by container. -/
theorem sizesOf_cons
    (headers : List Shdr) (sc : SectionContainer)
    (rest : List SectionContainer) :
    sizesOf headers (sc :: rest) =
      chainSizes headers sc.chain ++ sizesOf headers rest := by
  unfold sizesOf elementsOf chainSizes
  rw [List.flatMap_cons, List.map_append]

/-- The sections of all containers lie end to end in 32 bits. -/
theorem setVirtualAddress_addresses
    (offset : Nat) (headers : List Shdr)
    {containers : List SectionContainer}
    (unplaced : ∀ sc ∈ containers, sc.size = 0) :
    (elementsOf (setVirtualAddress headers offset containers).2.2).map
        SectionChain.virtualAddress =
      (ConsecutiveRanges.starts offset (sizesOf headers containers)).map
        u32 := by
  induction containers generalizing offset headers with
  | nil => rfl
  | cons sc rest inductionHypothesis =>
      have restUnplaced : ∀ other ∈ rest, other.size = 0 :=
        fun other member => unplaced other (List.mem_cons_of_mem _ member)
      have isUnplaced : sc.size = 0 := unplaced sc List.mem_cons_self
      rw [sizesOf_cons]
      unfold setVirtualAddress
      split_ifs with empty
      · dsimp only
        rw [elementsOf, List.flatMap_cons, empty]
        exact inductionHypothesis offset headers restUnplaced
      · dsimp only
        rw [elementsOf, List.flatMap_cons, List.map_append,
          ConsecutiveRanges.starts_append, List.map_append]
        congr 1
        · rw [isUnplaced]
          exact placeChain_addresses offset 0 headers sc.chain
        · refine (inductionHypothesis _ _ restUnplaced).trans ?_
          rw [sizesOf_placeChain, isUnplaced, placeChain_size,
            if_neg empty, Nat.zero_add]
          calc
            (ConsecutiveRanges.starts
                (u32 (offset + u32 (chainSizes headers sc.chain).sum))
                (sizesOf headers rest)).map u32
                = (ConsecutiveRanges.starts
                    (u32 (offset + (chainSizes headers sc.chain).sum))
                    (sizesOf headers rest)).map u32 := by
                  unfold u32
                  rw [Nat.add_mod_mod]
            _ = (ConsecutiveRanges.starts
                  (offset + (chainSizes headers sc.chain).sum)
                  (sizesOf headers rest)).map u32 :=
                  ConsecutiveRanges.starts_mod _ _ _

/-- The cursor ends behind all sections if they fit the address range. -/
theorem setVirtualAddress_offset
    {offset : Nat} {headers : List Shdr} {containers : List SectionContainer}
    (unplaced : ∀ sc ∈ containers, sc.size = 0)
    (fits : offset + (sizesOf headers containers).sum < 2 ^ 32) :
    (setVirtualAddress headers offset containers).2.1 =
      offset + (sizesOf headers containers).sum := by
  induction containers generalizing offset headers with
  | nil => rfl
  | cons sc rest inductionHypothesis =>
      have restUnplaced : ∀ other ∈ rest, other.size = 0 :=
        fun other member => unplaced other (List.mem_cons_of_mem _ member)
      have isUnplaced : sc.size = 0 := unplaced sc List.mem_cons_self
      rw [sizesOf_cons, List.sum_append] at fits ⊢
      unfold setVirtualAddress
      split_ifs with empty
      · have noSizes : chainSizes headers sc.chain = [] := by
          rw [empty]
          rfl
        rw [noSizes, List.sum_nil, Nat.zero_add] at fits ⊢
        exact inductionHypothesis restUnplaced fits
      · have sizeFits :
            (placeChain offset headers sc.size sc.chain).2.1 =
              (chainSizes headers sc.chain).sum := by
          rw [placeChain_size, if_neg empty, isUnplaced, Nat.zero_add]
          exact Nat.mod_eq_of_lt (by omega)
        have offsetFits :
            u32 (offset + (chainSizes headers sc.chain).sum) =
              offset + (chainSizes headers sc.chain).sum :=
          Nat.mod_eq_of_lt (by omega)
        dsimp only
        rw [sizeFits, offsetFits, ← Nat.add_assoc]
        refine (inductionHypothesis restUnplaced ?_).trans ?_
        · rw [sizesOf_placeChain]
          omega
        · rw [sizesOf_placeChain]

/-- The whole walk: addresses end to end over all containers. -/
theorem setVirtualAddress_spec
    {offset : Nat} {headers : List Shdr} {containers : List SectionContainer}
    (unplaced : ∀ sc ∈ containers, sc.size = 0)
    (fits : offset + (sizesOf headers containers).sum < 2 ^ 32) :
    ∃ placedHeaders placed,
      setVirtualAddress headers offset containers =
          (placedHeaders, offset + (sizesOf headers containers).sum, placed) ∧
        shSizeAt placedHeaders = shSizeAt headers ∧
        placed.map (fun sc => sc.chain.map SectionChain.p) =
          containers.map (fun sc => sc.chain.map SectionChain.p) ∧
        (elementsOf placed).map SectionChain.virtualAddress =
          ConsecutiveRanges.starts offset (sizesOf headers containers) := by
  obtain ⟨sizes, outlines⟩ :=
    setVirtualAddress_keeps offset headers containers
  refine
    ⟨(setVirtualAddress headers offset containers).1,
      (setVirtualAddress headers offset containers).2.2, ?_, sizes, ?_, ?_⟩
  · rw [← setVirtualAddress_offset unplaced fits]
  · have pointers := congrArg (List.map Prod.snd) outlines
    rw [List.map_map, List.map_map] at pointers
    exact pointers
  · rw [setVirtualAddress_addresses offset headers unplaced]
    apply (List.map_congr_left _).trans (List.map_id _)
    intro address isStart
    apply Nat.mod_eq_of_lt
    exact
      Nat.lt_of_le_of_lt
        (ConsecutiveRanges.le_sum_of_mem_starts isStart) fits

/-! ## The file walk -/

/-- Complete writes lay the sections of a container end to end. -/
theorem writeRawData_eq
    {position : Nat} {sizes : List Nat}
    (complete : ∀ size ∈ sizes, size ≤ maxTransfer) :
    writeRawData position sizes =
      (ConsecutiveRanges.starts position sizes, position + sizes.sum) := by
  induction sizes generalizing position with
  | nil => rfl
  | cons size rest inductionHypothesis =>
      have restComplete : ∀ other ∈ rest, other ≤ maxTransfer :=
        fun other member => complete other (List.mem_cons_of_mem _ member)
      have transferred : osWrite size = size :=
        Nat.min_eq_left (complete size (by simp))
      have after :
          (if size ≠ 0 then position + osWrite size else position) =
            position + size := by
        rw [transferred]
        split <;> omega
      simp [writeRawData, after, inductionHypothesis restComplete,
        ConsecutiveRanges.starts, Nat.add_assoc]

/-- Complete writes lay the sections of all containers end to end. -/
theorem writeContainers_append
    {position : Nat} {sizes later : List (List Nat)}
    (complete : ∀ size ∈ sizes.flatten, size ≤ maxTransfer) :
    (writeContainers position (sizes ++ later)).flatten =
      ConsecutiveRanges.starts position sizes.flatten ++
        (writeContainers (position + sizes.flatten.sum) later).flatten := by
  induction sizes generalizing position with
  | nil => simp [ConsecutiveRanges.starts]
  | cons first rest inductionHypothesis =>
      have firstComplete : ∀ size ∈ first, size ≤ maxTransfer :=
        fun size member => complete size (by simp [member])
      have restComplete : ∀ size ∈ rest.flatten, size ≤ maxTransfer :=
        fun size member => complete size (by
          rw [List.flatten_cons, List.mem_append]
          exact Or.inr member)
      simp only [List.cons_append, writeContainers,
        writeRawData_eq firstComplete, List.flatten_cons, List.sum_append,
        inductionHypothesis restComplete, ConsecutiveRanges.starts_append,
        List.append_assoc, Nat.add_assoc]

/-! ## Both walks together -/

/-- The sizes of the containers, joined. -/
theorem Link.flatten_shSizes (link : Link) :
    link.shSizes.flatten = sizesOf link.headers link.containers := by
  rw [Link.shSizes, sizesOf, chainSizes, elementsOf, List.map_flatMap,
    List.flatMap_def]

/-- Addresses and file positions that start at the same point agree. -/
theorem placed_of_starts
    {link : Link} {offsets : List (List Nat)} {rest : List Nat}
    (addresses :
      link.elements.map SectionChain.virtualAddress =
        ConsecutiveRanges.starts (link.baseAddress + link.programHeaderTail)
          (sizesOf link.headers link.containers))
    (positions :
      offsets.flatten =
        ConsecutiveRanges.starts link.programHeaderTail
          (sizesOf link.headers link.containers) ++ rest)
    (inputOrder :
      ∀ sc ∈ link.containers,
        (sc.chain.map SectionChain.p).Pairwise (· < ·)) :
    Placed link offsets where
  fileOffset := by
    intro index element present
    have address := congrArg (·[index]?) addresses
    simp only [List.getElem?_map, present, Option.map_some,
      ConsecutiveRanges.starts_add] at address
    obtain ⟨offset, atIndex, isAddress⟩ :=
      Option.map_eq_some_iff.mp address.symm
    have inBounds := (List.getElem?_eq_some_iff.mp atIndex).1
    refine ⟨offset, ?_, isAddress.symm⟩
    rw [positions, List.getElem?_append_left inBounds, atIndex]
  contiguous := by
    intro index element present
    have address := congrArg (·[index]?) addresses
    have inBounds :
        index < (sizesOf link.headers link.containers).length := by
      have inElements := (List.getElem?_eq_some_iff.mp present).1
      simpa [sizesOf, chainSizes, Link.elements] using inElements
    simp only [List.getElem?_map, present, Option.map_some,
      ConsecutiveRanges.getElem?_starts inBounds, Option.some.injEq]
      at address
    rw [address, link.flatten_shSizes]
  disjoint := by
    have ranges :=
      ConsecutiveRanges.pairwise_starts
        (link.baseAddress + link.programHeaderTail)
        (sizesOf link.headers link.containers)
    rw [← addresses, sizesOf, chainSizes] at ranges
    rw [Link.elements, List.zip_map', List.pairwise_map] at ranges
    exact ranges
  inputOrder := inputOrder

/-- The header pointers of every container. -/
def pointersOf (containers : List SectionContainer) : List (List Nat) :=
  containers.map fun sc => sc.chain.map SectionChain.p

/-- Sizes only depend on the header pointers. -/
theorem Link.shSizes_eq (link : Link) :
    link.shSizes =
      (pointersOf link.containers).map
        (List.map (shSizeAt link.headers)) := by
  simp [Link.shSizes, pointersOf, Function.comp_def]

/-- The sections of an arranged container stay where they are in the arena. -/
theorem Arranged.shSizes_congr
    {bound : Nat} {containers : List SectionContainer}
    {first second : Nat → Nat}
    (arranged : Arranged bound containers)
    (same : ∀ p < bound, second p = first p) :
    (pointersOf containers).map (List.map second) =
      (pointersOf containers).map (List.map first) := by
  apply List.map_congr_left
  intro pointers member
  apply List.map_congr_left
  intro p inPointers
  obtain ⟨sc, inContainers, rfl⟩ := List.mem_map.mp member
  obtain ⟨schain, inChain, rfl⟩ := List.mem_map.mp inPointers
  exact same _ ((arranged sc inContainers).2.2 schain inChain)

/-- The sizes `.plt.got` contributes: none under `-nodynamic`. -/
def pltSizes (nodynamic : Bool) (size : Nat) : List (List Nat) :=
  if nodynamic then [] else [[size]]

/-- `.plt.got` is written where the walk arrives, whatever its size. -/
theorem writeContainers_pltSizes
    (position : Nat) (nodynamic : Bool) (size : Nat)
    (later : List (List Nat)) :
    ∃ rest,
      (writeContainers position (pltSizes nodynamic size ++ later)).flatten =
        ConsecutiveRanges.starts position (pltSizes nodynamic size).flatten ++
          rest := by
  cases nodynamic with
  | true => exact ⟨_, rfl⟩
  | false => exact ⟨_, rfl⟩

/-- What the layout leaves, once the size of `.plt.got` is known. -/
structure LaidOut
    (nodynamic : Bool) (pltSize : Nat) (read link : Link) : Prop where
  baseAddress : link.baseAddress = read.baseAddress
  programHeaderTail : link.programHeaderTail = read.programHeaderTail
  shSizes : link.shSizes = read.shSizes ++ pltSizes nodynamic pltSize
  addresses :
    link.elements.map SectionChain.virtualAddress =
      ConsecutiveRanges.starts (read.baseAddress + read.programHeaderTail)
        link.shSizes.flatten
  inputOrder :
    ∀ pointers ∈ pointersOf link.containers, pointers.Pairwise (· < ·)

/-- What giving out the addresses changes. -/
structure Addressed (before after : Link) : Prop where
  baseAddress : after.baseAddress = before.baseAddress
  programHeaderTail : after.programHeaderTail = before.programHeaderTail
  pltGot : after.pltGot = before.pltGot
  arena : after.headers.length = before.headers.length
  shSizeAt : shSizeAt after.headers = shSizeAt before.headers
  pointers : pointersOf after.containers = pointersOf before.containers
  addresses :
    after.elements.map SectionChain.virtualAddress =
      ConsecutiveRanges.starts
        (before.baseAddress + before.programHeaderTail)
        before.shSizes.flatten

/-- Sections that fit the address range are addressed end to end. -/
theorem addressed_setVirtualAddresses
    {link : Link}
    (unplaced : ∀ sc ∈ link.containers, sc.size = 0)
    (fits :
      link.baseAddress + link.programHeaderTail +
        link.shSizes.flatten.sum < 2 ^ 32) :
    Addressed link link.setVirtualAddresses := by
  have startFits :
      u32 (link.baseAddress + link.programHeaderTail) =
        link.baseAddress + link.programHeaderTail :=
    Nat.mod_eq_of_lt (by omega)
  rw [link.flatten_shSizes] at fits
  obtain ⟨headers, placed, run, sizes, pointers, addresses⟩ :=
    setVirtualAddress_spec unplaced fits
  have result :
      link.setVirtualAddresses =
        { link with
          headers := headers
          containers := placed
          virtualAddressOffset :=
            link.baseAddress + link.programHeaderTail +
              (sizesOf link.headers link.containers).sum } := by
    simp only [Link.setVirtualAddresses, startFits, run]
  rw [result]
  exact
    { baseAddress := rfl
      programHeaderTail := rfl
      pltGot := rfl
      arena := by
        have sameLength :=
          length_setVirtualAddress
            (link.baseAddress + link.programHeaderTail)
            link.headers link.containers
        rwa [run] at sameLength
      shSizeAt := sizes
      pointers := pointers
      addresses := by
        rw [link.flatten_shSizes]
        exact addresses }

/-- The layout of objects whose sections fit the address range. -/
theorem BetweenObjects.laidOut
    {base : Nat} {read : Link}
    (between : BetweenObjects base read)
    (nodynamic : Bool) (pltSize : Nat)
    (fits :
      read.baseAddress + read.programHeaderTail +
        read.shSizes.flatten.sum < 2 ^ 32) :
    LaidOut nodynamic pltSize read
      ((layOut nodynamic read).setPltSize pltSize) := by
  have unplaced : ∀ sc ∈ read.containers, sc.size = 0 :=
    fun sc member => (between.arranged sc member).1
  have ordered :
      ∀ pointers ∈ pointersOf read.containers, pointers.Pairwise (· < ·) := by
    intro pointers member
    obtain ⟨sc, inContainers, rfl⟩ := List.mem_map.mp member
    exact (between.arranged sc inContainers).2.1
  cases nodynamic with
  | true =>
      have addressed := addressed_setVirtualAddresses unplaced fits
      have sameSizes :
          read.setVirtualAddresses.shSizes = read.shSizes := by
        rw [Link.shSizes_eq, Link.shSizes_eq, addressed.pointers,
          addressed.shSizeAt]
      have noPlt : read.setVirtualAddresses.pltGot = none :=
        addressed.pltGot.trans between.noPlt
      simp only [layOut, ↓reduceIte, Link.setPltSize, noPlt]
      exact
        { baseAddress := addressed.baseAddress
          programHeaderTail := addressed.programHeaderTail
          shSizes := by simpa [pltSizes] using sameSizes
          addresses := by
            rw [sameSizes]
            exact addressed.addresses
          inputOrder := by
            rw [addressed.pointers]
            exact ordered }
  | false =>
      let plt := addPltgotSc read
      have oldSizes :
          ∀ p < read.headers.length,
            shSizeAt plt.headers p = shSizeAt read.headers p := by
        intro p inArena
        simp [plt, addPltgotSc, shSizeAt, List.getElem?_append_left inArena]
      have pltPointers :
          pointersOf plt.containers =
            pointersOf read.containers ++ [[read.headers.length]] := by
        simp [plt, addPltgotSc, pointersOf]
      have pltShSizes : plt.shSizes = read.shSizes ++ [[0]] := by
        rw [Link.shSizes_eq, Link.shSizes_eq, pltPointers, List.map_append,
          between.arranged.shSizes_congr oldSizes]
        simp [plt, addPltgotSc, shSizeAt]
      have pltUnplaced : ∀ sc ∈ plt.containers, sc.size = 0 := by
        intro sc member
        rcases List.mem_append.mp member with earlier | added
        · exact unplaced sc earlier
        · cases List.mem_singleton.mp added
          rfl
      have pltFits :
          read.baseAddress + read.programHeaderTail +
            plt.shSizes.flatten.sum < 2 ^ 32 := by
        simpa [pltShSizes] using fits
      have addressed := addressed_setVirtualAddresses pltUnplaced pltFits
      have hasPlt :
          plt.setVirtualAddresses.pltGot =
            some
              { container := read.containers.length
                header := read.headers.length } :=
        addressed.pltGot
      have inArena :
          read.headers.length < plt.setVirtualAddresses.headers.length := by
        rw [addressed.arena]
        simp [plt, addPltgotSc]
      have finalSizes := shSizeAt_setSize inArena pltSize
      have keptSizes :
          ∀ p < read.headers.length,
            shSizeAt
                (plt.setVirtualAddresses.headers.modify read.headers.length
                  fun shdr => { shdr with shSize := pltSize }) p =
              shSizeAt read.headers p := by
        intro p inOldArena
        rw [finalSizes, if_neg (by omega), addressed.shSizeAt,
          oldSizes p inOldArena]
      have finalShSizes :
          (plt.setVirtualAddresses.setPltSize pltSize).shSizes =
            read.shSizes ++ [[pltSize]] := by
        simp only [Link.shSizes_eq, Link.setPltSize, hasPlt,
          addressed.pointers, pltPointers, List.map_append,
          between.arranged.shSizes_congr keptSizes]
        simp [finalSizes]
      have layoutEq :
          layOut false read = plt.setVirtualAddresses := rfl
      have elementsEq :
          (plt.setVirtualAddresses.setPltSize pltSize).elements =
            plt.setVirtualAddresses.elements := by
        simp only [Link.setPltSize, hasPlt, Link.elements]
      rw [layoutEq]
      constructor
      · simp only [Link.setPltSize, hasPlt]
        exact addressed.baseAddress
      · simp only [Link.setPltSize, hasPlt]
        exact addressed.programHeaderTail
      · simpa [pltSizes] using finalShSizes
      · rw [elementsEq, addressed.addresses, finalShSizes, pltShSizes]
        simp [ConsecutiveRanges.starts_append, ConsecutiveRanges.starts, plt,
          addPltgotSc]
      · simp only [Link.setPltSize, hasPlt, addressed.pointers, pltPointers]
        intro pointers member
        rcases List.mem_append.mp member with earlier | added
        · exact ordered pointers earlier
        · cases List.mem_singleton.mp added
          exact List.pairwise_singleton _ _

/-- A section header of the given name, type and size. -/
def sectionHeader (name : String) (shType shSize : Nat) : Shdr where
  name := .ofString name
  shType := shType
  shSize := shSize

/-- The linker after the objects were read, for a base address of zero. -/
def readOf (files : List ElfFile) : Link :=
  (readObjects (Link.init none) files).getD (Link.init none)

/-- Objects that can be read are read to `readOf`. -/
theorem readObjects_eq_readOf
    {files : List ElfFile}
    (reads : (readObjects (Link.init none) files).isSome) :
    readObjects (Link.init none) files = some (readOf files) := by
  obtain ⟨read, reading⟩ := Option.isSome_iff_exists.mp reads
  simp [readOf, reading]

/-- The layout of the objects, with an empty `.plt.got`. -/
def layoutOf (files : List ElfFile) : Link :=
  (layOut false (readOf files)).setPltSize 0

/-- Two objects with a `.text` and a `.data` section each. -/
def twoObjects : List ElfFile :=
  [.ofHeaders
    [sectionHeader ".text" shtProgbits 10,
      sectionHeader ".data" shtProgbits 6],
    .ofHeaders
      [sectionHeader ".text" shtProgbits 7,
        sectionHeader ".data" shtProgbits 3]]

/-- Three objects whose `.bss` sections exceed four gigabytes together. -/
def largeBss : List ElfFile :=
  [.ofHeaders [sectionHeader ".bss" shtNobits 0x60000000],
    .ofHeaders [sectionHeader ".bss" shtNobits 0x60000000],
    .ofHeaders
      [sectionHeader ".bss" shtNobits 0x60000000,
        sectionHeader ".data" shtProgbits 16]]

/-- One object with a section that a single write does not transfer. -/
def longBss : List ElfFile :=
  [.ofHeaders
    [sectionHeader ".bss" shtNobits 0x7ffff010,
      sectionHeader ".data" shtProgbits 16]]

/-- A section whose address is not that of its file position is misplaced. -/
theorem not_placed_of_mismatch
    {link : Link} {offsets : List (List Nat)} {index offset : Nat}
    {element : SectionChain}
    (present : link.elements[index]? = some element)
    (written : offsets.flatten[index]? = some offset)
    (differs : element.virtualAddress ≠ link.baseAddress + offset) :
    ¬ Placed link offsets := by
  intro placed
  obtain ⟨position, atIndex, address⟩ :=
    placed.fileOffset index element present
  cases written.symm.trans atIndex
  exact differs address

end BinTools.Elf
