import BinTools.ElfSections

namespace BinTools.HeaderWalk

/-!
# Section headers rewritten in place

`__z__obj__run_through_elf_shdr3` calls
`__z__link__on_section_callback_for_link` for one section header after the
other.  The callback turns `sh_offset` from an offset in the file into an
address, in the header itself, and at the symbol table it reads the header
that `sh_link` names, which the walk may or may not have reached.
-/

open Elf (u32 shtProgbits shtSymtab shtRela shtNobits shtNote sizeofSym)

/-- A value stored in eight bytes. -/
def u64 (value : Nat) : Nat :=
  value % 2 ^ 64

/-- `SHT_NULL` -/
def shtNull : Nat := 0

/-- `SHT_STRTAB` -/
def shtStrtab : Nat := 3

/-- `SHN_LORESERVE`, where `e_shnum` gives way to the first header's size. -/
def shnLoreserve : Nat := 0xff00

/-- The fields of an `Elf64_Shdr` that the callback reads or writes. -/
structure Header where
  shName : Nat := 0
  shType : Nat := 0
  shOffset : Nat := 0
  shSize : Nat := 0
  shLink : Nat := 0
  deriving DecidableEq, Repr, Inhabited

/--
A mapped object file.  The linker took memory for it at `p`; `nameAt` is the
string at an address and `bssAt` the block that `__malloc` returns for the
contents of the header at a position.
-/
structure Image where
  p : Nat
  headers : List Header
  eShstrndx : Nat
  nameAt : Nat → CString
  bssAt : Nat → Nat

/-- The fields of an `ObjectChain` that the callback writes. -/
structure ObjectChain where
  shStrTableP : Nat
  mapBase : Nat
  symbolNum : Nat := 0
  symbolTableP : Nat := 0
  strTableP : Nat := 0
  deriving DecidableEq, Repr

/--
The walk in progress: the headers as they stand in memory, the object, the
positions of the headers put into a section container, and
`has_gnu_property` of the configuration.
-/
structure State where
  headers : List Header
  oc : Option ObjectChain := none
  inserted : List Nat := []
  hasGnuProperty : Bool
  deriving DecidableEq, Repr

/-- `shdr64->sh_offset += p` -/
def Header.rebase (header : Header) (p : Nat) : Header :=
  { header with shOffset := u64 (header.shOffset + p) }

/-- The `insert:` branch. -/
def State.insert (state : State) (index : Nat) : State :=
  { state with inserted := state.inserted ++ [index] }

/-- Write a header. -/
def State.setHeader (state : State) (index : Nat) (header : Header) : State :=
  { state with headers := state.headers.set index header }

namespace Image

variable (image : Image)

/--
The string table of section names.  The walk masks the index with
`0x7fff0000`, so its topmost bit is lost.
-/
def strtable : Nat :=
  u64 (image.p +
    (image.headers.getD (image.eShstrndx % 2 ^ 15) default).shOffset)

/-- `sh_name` -/
def shName (header : Header) : CString :=
  image.nameAt (u64 (image.strtable + header.shName))

/-- `e_shnum`, which is zero when the headers are too many for it. -/
def eShnum : Nat :=
  if image.headers.length < shnLoreserve then
    image.headers.length
  else
    0

/-- The object that the first call allocates. -/
def allocObjChain : ObjectChain where
  shStrTableP := image.strtable
  mapBase := image.p

/--
The `SHT_SYMTAB` branch: the symbol table's own header was rebased just now,
and the base is added to the offset that the string table's header holds.
-/
def onSymtab (state : State) (oc : ObjectChain) (header : Header) :
    ObjectChain :=
  { oc with
    symbolNum := u32 header.shSize / sizeofSym
    symbolTableP := header.shOffset
    strTableP :=
      u64 (image.p + (state.headers.getD header.shLink default).shOffset) }

/-- The `SHT_NOTE` branch. -/
def onNote (state : State) (index : Nat) (header : Header) : State :=
  if state.hasGnuProperty then
    state
  else if image.shName header = .ofString ".note.gnu.property" then
    { state with hasGnuProperty := true }.insert index
  else
    state.insert index

/-- What follows the rebasing of a header: the switch over `sh_type`. -/
def onType
    (state : State) (oc : ObjectChain) (index : Nat) (header : Header) :
    State :=
  if header.shType = shtProgbits then
    state.insert index
  else if header.shType = shtSymtab then
    { state with oc := some (image.onSymtab state oc header) }.insert index
  else if header.shType = shtRela then
    state
  else if header.shType = shtNobits then
    (state.setHeader index
      { header with shOffset := image.bssAt index }).insert index
  else if header.shType = shtNote then
    image.onNote state index header
  else
    state

/--
`__z__link__on_section_callback_for_link`: the first call only allocates the
object, every later one rebases its header first.
-/
def onSection (state : State) (index : Nat) : State :=
  match state.oc with
  | none => { state with oc := some image.allocObjChain }
  | some oc =>
      let header := (state.headers.getD index default).rebase image.p
      image.onType (state.setHeader index header) oc index header

/-- The first calls of the walk. -/
def walk (hasGnuProperty : Bool) (count : Nat) : State :=
  (List.range count).foldl image.onSection
    { headers := image.headers, hasGnuProperty := hasGnuProperty }

/-- `__z__obj__run_through_elf_shdr3` -/
def runThroughElfShdr3 (hasGnuProperty : Bool) : State :=
  image.walk hasGnuProperty image.eShnum

/-- Where in memory the contents of a header of the file lie. -/
def address (header : Header) : Nat :=
  u64 (header.shOffset + image.p)

/-- The object's fields describe the symbol table under this header. -/
structure Describes (oc : ObjectChain) (symtab : Header) : Prop where
  symbolTableP : oc.symbolTableP = image.address symtab
  symbolNum : oc.symbolNum = symtab.shSize / sizeofSym
  strTableP :
    ∀ strtab, image.headers[symtab.shLink]? = some strtab →
      oc.strTableP = image.address strtab

/-- After a walk, the symbol table and the inserted sections are found. -/
structure Located (state : State) : Prop where
  symbols :
    ∃ oc, state.oc = some oc ∧
      ∀ symtab ∈ image.headers, symtab.shType = shtSymtab →
        image.Describes oc symtab
  contents :
    ∀ index ∈ state.inserted, ∀ header, image.headers[index]? = some header →
      header.shType ≠ shtNobits →
        (state.headers[index]?).map Header.shOffset =
          some (image.address header)

end Image

/--
A well-formed object at a proper address: a null header comes first, there is
at most one symbol table, and it names a string table.
-/
structure Object extends Image where
  p_pos : 0 < p
  p_lt : p < 2 ^ 64
  null : (headers[0]?).map Header.shType = some shtNull
  oneSymtab :
    ∀ (i j : Nat) (first second : Header), headers[i]? = some first →
      headers[j]? = some second → first.shType = shtSymtab →
        second.shType = shtSymtab → i = j
  linked :
    ∀ symtab ∈ headers, symtab.shType = shtSymtab →
      ∃ strtab, headers[symtab.shLink]? = some strtab ∧
        strtab.shType = shtStrtab

/-! ## What one call does -/

namespace Image

variable (image : Image)

/-- A header after the walk has passed it. -/
def visited (index : Nat) (header : Header) : Header :=
  if header.shType = shtNobits then
    { header with shOffset := image.bssAt index }
  else
    header.rebase image.p

/-- The header at a position when so many calls have been made. -/
def headerAfter (count index : Nat) (header : Header) : Header :=
  if 0 < index ∧ index < count then
    image.visited index header
  else
    header

/-- Only the contents of `SHT_NOBITS` are moved by the switch. -/
theorem onType_headers
    (state : State) (oc : ObjectChain) (index : Nat) (header : Header) :
    (image.onType state oc index header).headers =
      if header.shType = shtNobits then
        state.headers.set index
          { header with shOffset := image.bssAt index }
      else
        state.headers := by
  unfold onType
  by_cases isNobits : header.shType = shtNobits
  · simp [isNobits, State.insert, State.setHeader, shtProgbits, shtSymtab,
      shtRela, shtNobits]
  · simp only [isNobits, if_false]
    unfold onNote
    split_ifs <;> rfl

/-- Only a symbol table writes the object. -/
theorem onType_oc
    (state : State) (oc : ObjectChain) (index : Nat) (header : Header) :
    (image.onType state oc index header).oc =
      if header.shType = shtSymtab then
        some (image.onSymtab state oc header)
      else
        state.oc := by
  unfold onType
  by_cases isSymtab : header.shType = shtSymtab
  · simp [isSymtab, State.insert, shtProgbits, shtSymtab]
  · simp only [isSymtab, if_false]
    unfold onNote
    split_ifs <;> rfl

/-- A call inserts its own header or none. -/
theorem onType_inserted
    {state : State} {oc : ObjectChain} {index : Nat} {header : Header}
    {other : Nat}
    (isInserted : other ∈ (image.onType state oc index header).inserted) :
    other ∈ state.inserted ∨ other = index := by
  have one_of
      (inserted : List Nat)
      (isOne : inserted = state.inserted ∨ inserted = state.inserted ++ [index])
      (isMember : other ∈ inserted) :
      other ∈ state.inserted ∨ other = index := by
    rcases isOne with rfl | rfl
    · exact .inl isMember
    · simpa using isMember
  apply one_of _ _ isInserted
  unfold onType onNote
  split_ifs <;> simp [State.insert, State.setHeader]

/-- A header of the file, where the walk stands at its position. -/
theorem headerAfter_self (index : Nat) (header : Header) :
    image.headerAfter index index header = header :=
  if_neg (by omega)

/-- The call at a later position than the first has passed its header. -/
theorem headerAfter_succ
    {index : Nat} (isLater : 0 < index) (header : Header) :
    image.headerAfter (index + 1) index header = image.visited index header :=
  if_pos ⟨isLater, by omega⟩

/-- The call at another position leaves a header as it is. -/
theorem headerAfter_of_ne
    {count index : Nat} (isOther : index ≠ count) (header : Header) :
    image.headerAfter (count + 1) index header =
      image.headerAfter count index header := by
  unfold headerAfter
  have same : (0 < index ∧ index < count + 1) ↔ (0 < index ∧ index < count) := by
    omega
  simp only [same]

end Image

/-! ## The walk -/

namespace Object

variable (object : Object)

/-- What the object chain holds once the symbol table was passed. -/
structure Noted (oc : ObjectChain) (index : Nat) (symtab : Header) : Prop where
  symbolTableP : oc.symbolTableP = object.address symtab
  symbolNum : oc.symbolNum = u32 symtab.shSize / sizeofSym
  strTableP :
    ∀ strtab, object.headers[symtab.shLink]? = some strtab →
      oc.strTableP =
        u64 (object.p +
          (object.headerAfter index symtab.shLink strtab).shOffset)

/-- The walk after so many calls. -/
structure Walked (count : Nat) (state : State) : Prop where
  headers :
    ∀ index, state.headers[index]? =
      (object.headers[index]?).map (object.headerAfter count index)
  started : count = 0 → state.oc = none
  allocated : 0 < count → ∃ oc, state.oc = some oc
  noted :
    ∀ oc, state.oc = some oc → ∀ index symtab, index < count →
      object.headers[index]? = some symtab → symtab.shType = shtSymtab →
        object.Noted oc index symtab
  inserted : ∀ index ∈ state.inserted, 0 < index ∧ index < count

/-- Before the first call the headers are those of the file. -/
theorem walked_zero (hasGnuProperty : Bool) :
    object.Walked 0 (object.walk hasGnuProperty 0) where
  headers := by
    intro index
    have unchanged : object.headerAfter 0 index = id :=
      funext fun header => if_neg (by omega)
    rw [unchanged, Option.map_id_fun]
    rfl
  started := fun _ => rfl
  allocated := fun isPositive => absurd isPositive (Nat.lt_irrefl 0)
  noted := fun oc isNone => absurd isNone (by simp [Image.walk])
  inserted := fun index isInserted =>
    absurd isInserted (List.not_mem_nil)

variable {object}

/-- The header that a call reads is still the one of the file. -/
theorem Walked.getD_eq
    {count : Nat} {state : State} (walked : object.Walked count state)
    {header : Header} (isHeader : object.headers[count]? = some header) :
    state.headers.getD count default = header := by
  rw [List.getD_eq_getElem?_getD, walked.headers, isHeader]
  exact object.headerAfter_self count header

/-- A later call leaves its header rebased or moved, and no other touched. -/
theorem onSection_headers
    {state : State} {oc : ObjectChain} (isSome : state.oc = some oc)
    {count : Nat} {header : Header}
    (isRead : state.headers.getD count default = header) :
    (object.onSection state count).headers =
      state.headers.set count (object.visited count header) := by
  unfold Image.onSection
  simp only [isSome, isRead]
  rw [Image.onType_headers]
  unfold Image.visited State.setHeader
  by_cases isNobits : header.shType = shtNobits
  · have stillNobits : (header.rebase object.p).shType = shtNobits :=
      isNobits
    simp only [isNobits, stillNobits, if_true, List.set_set]
    rfl
  · have stillNot : (header.rebase object.p).shType ≠ shtNobits :=
      isNobits
    simp only [isNobits, stillNot, if_false]

/-- The object after a later call. -/
theorem onSection_oc
    {state : State} {oc : ObjectChain} (isSome : state.oc = some oc)
    {count : Nat} {header : Header}
    (isRead : state.headers.getD count default = header) :
    (object.onSection state count).oc =
      if header.shType = shtSymtab then
        some
          (object.onSymtab (state.setHeader count (header.rebase object.p)) oc
            (header.rebase object.p))
      else
        some oc := by
  unfold Image.onSection
  simp only [isSome, isRead]
  rw [Image.onType_oc]
  simp only [State.setHeader, isSome]
  rfl

/-- The symbol-table branch notes the linked header as it stands. -/
theorem Walked.noted_onSymtab
    {count : Nat} {state : State} (walked : object.Walked count state)
    {symtab : Header} (isHeader : object.headers[count]? = some symtab)
    (isSymtab : symtab.shType = shtSymtab) (oc : ObjectChain) :
    object.Noted
      (object.onSymtab
        (state.setHeader count (symtab.rebase object.p)) oc
        (symtab.rebase object.p))
      count symtab where
  symbolTableP := rfl
  symbolNum := rfl
  strTableP := by
    intro strtab isLinked
    have isOther : count ≠ symtab.shLink := by
      intro isSame
      rw [← isSame, isHeader] at isLinked
      obtain ⟨table, isTable, isStrtab⟩ :=
        object.linked symtab (List.mem_of_getElem? isHeader) isSymtab
      rw [← isSame, isHeader] at isTable
      cases isTable
      rw [isSymtab] at isStrtab
      exact absurd isStrtab (by decide)
    have isRead :
        (state.headers.set count (symtab.rebase object.p)).getD
            symtab.shLink default =
          object.headerAfter count symtab.shLink strtab := by
      rw [List.getD_eq_getElem?_getD, List.getElem?_set_ne isOther,
        walked.headers, isLinked]
      rfl
    exact congrArg (fun header => u64 (object.p + header.shOffset)) isRead

/-- One call of the walk. -/
theorem Walked.step
    {count : Nat} {state : State} (walked : object.Walked count state)
    (inRange : count < object.headers.length) :
    object.Walked (count + 1) (object.onSection state count) := by
  obtain ⟨header, isHeader⟩ : ∃ header, object.headers[count]? = some header :=
    ⟨_, List.getElem?_eq_getElem inRange⟩
  rcases isOc : state.oc with _ | oc
  · -- The first call: only the object is allocated.
    have isFirst : count = 0 := by
      rcases Nat.eq_zero_or_pos count with isZero | isPositive
      · exact isZero
      · obtain ⟨oc, isSome⟩ := walked.allocated isPositive
        rw [isOc] at isSome
        cases isSome
    subst isFirst
    have onlyAllocates :
        object.onSection state 0 =
          { state with oc := some object.allocObjChain } := by
      simp only [Image.onSection, isOc]
    rw [onlyAllocates]
    exact
      { headers := by
          intro index
          have same : object.headerAfter 1 index = object.headerAfter 0 index :=
            funext fun header =>
              (if_neg (by omega)).trans (if_neg (by omega)).symm
          rw [same]
          exact walked.headers index
        started := fun isZero => absurd isZero (by omega)
        allocated := fun _ => ⟨_, rfl⟩
        noted := by
          intro oc _ index symtab isBelow isAt isSymtab
          have isZero : index = 0 := by omega
          have isNull := object.null
          rw [← isZero, isAt] at isNull
          rw [Option.map_some, isSymtab] at isNull
          exact absurd isNull (by decide)
        inserted := fun index isInserted =>
          absurd (walked.inserted index isInserted).2 (Nat.not_lt_zero _) }
  · have isLater : 0 < count := by
      rcases Nat.eq_zero_or_pos count with isZero | isPositive
      · rw [walked.started isZero] at isOc
        cases isOc
      · exact isPositive
    have isRead := walked.getD_eq isHeader
    have isNext := @onSection_oc object state oc isOc count _ isRead
    exact
      { headers := by
          intro index
          rw [onSection_headers isOc isRead]
          rcases eq_or_ne index count with rfl | isOther
          · have inState : index < state.headers.length := by
              apply (List.getElem?_eq_some_iff.mp _).1
              · exact header
              · rw [walked.headers, isHeader]
                exact
                  congrArg some (object.headerAfter_self index header)
            rw [List.getElem?_set_self inState, isHeader]
            exact
              congrArg some (object.headerAfter_succ isLater header).symm
          · rw [List.getElem?_set_ne isOther.symm, walked.headers]
            apply Option.map_congr
            intro other _
            exact (object.headerAfter_of_ne isOther other).symm
        started := fun isZero => absurd isZero (by omega)
        allocated := by
          rw [isNext]
          split_ifs <;> exact fun _ => ⟨_, rfl⟩
        noted := by
          intro next isSome index symtab isBelow isAt isSymtab
          rw [isNext] at isSome
          by_cases isTable : header.shType = shtSymtab
          · have isHere : index = count :=
              object.oneSymtab index count symtab header isAt isHeader
                isSymtab isTable
            subst isHere
            rw [isHeader] at isAt
            cases isAt
            rw [if_pos isTable] at isSome
            cases isSome
            exact walked.noted_onSymtab isHeader isTable oc
          · rw [if_neg isTable] at isSome
            cases isSome
            have isOther : index ≠ count := by
              rintro rfl
              rw [isHeader] at isAt
              cases isAt
              exact isTable isSymtab
            exact
              walked.noted oc isOc index symtab (by omega) isAt isSymtab
        inserted := by
          intro index isInserted
          unfold Image.onSection at isInserted
          simp only [isOc] at isInserted
          rcases object.onType_inserted isInserted with isOld | isHere
          · have bounds := walked.inserted index isOld
            omega
          · omega }

/-- Every stage of the walk. -/
theorem walked_walk
    (hasGnuProperty : Bool) {count : Nat}
    (inRange : count ≤ object.headers.length) :
    object.Walked count (object.walk hasGnuProperty count) := by
  induction count with
  | zero =>
      exact object.walked_zero hasGnuProperty
  | succ count inductionHypothesis =>
      have isNext :
          object.walk hasGnuProperty (count + 1) =
            object.onSection (object.walk hasGnuProperty count) count := by
        unfold Image.walk
        rw [List.range_succ, List.foldl_append]
        rfl
      rw [isNext]
      exact (inductionHypothesis (by omega)).step (by omega)

/-! ## Which orders the walk gets right -/

/-- The entry count survives its `uint32_t` exactly below four gigabytes. -/
theorem symbolNum_eq_iff (size : Nat) :
    u32 size / sizeofSym = size / sizeofSym ↔ size < 2 ^ 32 := by
  unfold u32 sizeofSym
  omega

/-- The string table's header is not the first one. -/
theorem shLink_pos
    {symtab : Header} (isHeader : symtab ∈ object.headers)
    (isSymtab : symtab.shType = shtSymtab) :
    0 < symtab.shLink := by
  obtain ⟨strtab, isLinked, isStrtab⟩ :=
    object.linked symtab isHeader isSymtab
  apply Nat.pos_of_ne_zero
  intro isZero
  have isNull := object.null
  rw [← isZero, isLinked, Option.map_some, isStrtab] at isNull
  exact absurd isNull (by decide)

/-- A symbol table does not name itself. -/
theorem shLink_ne
    {index : Nat} {symtab : Header}
    (isHeader : object.headers[index]? = some symtab)
    (isSymtab : symtab.shType = shtSymtab) :
    symtab.shLink ≠ index := by
  obtain ⟨strtab, isLinked, isStrtab⟩ :=
    object.linked symtab (List.mem_of_getElem? isHeader) isSymtab
  rintro isSame
  rw [isSame, isHeader] at isLinked
  cases isLinked
  rw [isSymtab] at isStrtab
  exact absurd isStrtab (by decide)

/-- Adding the base twice never gives the address. -/
theorem strTableP_ne_address
    (strtab : Header) :
    u64 (object.p + u64 (strtab.shOffset + object.p)) ≠
      object.address strtab := by
  have isPositive := object.p_pos
  have isBelow := object.p_lt
  unfold Image.address u64
  omega

/-- The noted string table is right if the walk meets its header later. -/
theorem strTableP_eq_iff
    {index : Nat} {symtab strtab : Header}
    (isHeader : object.headers[index]? = some symtab)
    (isSymtab : symtab.shType = shtSymtab)
    (isLinked : object.headers[symtab.shLink]? = some strtab) :
    u64 (object.p +
        (object.headerAfter index symtab.shLink strtab).shOffset) =
      object.address strtab ↔
    index < symtab.shLink := by
  have isPositive := shLink_pos (List.mem_of_getElem? isHeader) isSymtab
  have isOther := shLink_ne isHeader isSymtab
  rcases Nat.lt_or_gt_of_ne isOther with isEarlier | isLater
  · -- The walk was there before: the header already holds an address.
    obtain ⟨table, isTable, isStrtab⟩ :=
      object.linked symtab (List.mem_of_getElem? isHeader) isSymtab
    rw [isLinked] at isTable
    cases isTable
    have isRebased :
        object.headerAfter index symtab.shLink strtab =
          strtab.rebase object.p := by
      have isFull : strtab.shType ≠ shtNobits := by
        rw [isStrtab]
        decide
      exact (if_pos ⟨isPositive, isEarlier⟩).trans (if_neg isFull)
    rw [isRebased]
    exact
      iff_of_false (strTableP_ne_address strtab) (Nat.lt_asymm isEarlier)
  · have isUntouched :
        object.headerAfter index symtab.shLink strtab = strtab :=
      if_neg fun bounds => Nat.lt_asymm isLater bounds.2
    rw [isUntouched]
    apply iff_of_true _ isLater
    exact congrArg u64 (Nat.add_comm _ _)

/-- Every inserted section with contents was rebased once. -/
theorem Walked.contents
    {count : Nat} {state : State} (walked : object.Walked count state)
    {index : Nat} (isInserted : index ∈ state.inserted)
    {header : Header} (isHeader : object.headers[index]? = some header)
    (isFull : header.shType ≠ shtNobits) :
    (state.headers[index]?).map Header.shOffset =
      some (object.address header) := by
  have isVisited :
      object.headerAfter count index header = header.rebase object.p :=
    (if_pos (walked.inserted index isInserted)).trans (if_neg isFull)
  rw [walked.headers, isHeader, Option.map_some, isVisited]
  rfl

/--
An object with the order that LLVM gives it: `.strtab`, `.text`, `.symtab`.
-/
def strtabFirst : Object where
  p := 0x10000
  headers :=
    [{}, { shName := 1, shType := 3, shOffset := 256, shSize := 32 },
      { shName := 9, shType := 1, shOffset := 64, shSize := 16 },
      { shName := 15, shType := 2, shOffset := 128, shSize := 48, shLink := 1 }]
  eShstrndx := 1
  nameAt := fun _ => .empty
  bssAt := fun _ => 0
  p_pos := by decide
  p_lt := by decide
  null := rfl
  oneSymtab := by
    intro i j first second isFirst isSecond
    match i, j with
    | 0, _ | 1, _ | 2, _ =>
        cases isFirst
        exact fun isSymtab => absurd isSymtab (by decide)
    | 3, 3 =>
        exact fun _ _ => rfl
    | 3, 0 | 3, 1 | 3, 2 =>
        cases isSecond
        exact fun _ isSymtab => absurd isSymtab (by decide)
    | 3, j + 4 =>
        cases isSecond
    | i + 4, _ =>
        cases isFirst
  linked := by decide

end Object

end BinTools.HeaderWalk
