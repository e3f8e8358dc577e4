import BinTools.ElfDynamicValues

namespace BinTools.Elf

/-!
# Program headers

`__z__link__gen_elf` writes the sections first and notes where it meets
`.dynamic` and `.note.gnu.property`, then goes back to the start of the file for
the ELF header, the program headers and the name of the interpreter.  How many
program headers there are and where the sections begin was settled while the
options and the objects were read.
-/

/-- `p_type` -/
inductive PhdrType where
  | phdr
  | interp
  | load
  | dynamic
  | gnuProperty
  deriving DecidableEq, Repr

/-- `PF_X` -/
def pfX : Nat := 1

/-- `PF_W` -/
def pfW : Nat := 2

/-- `PF_R` -/
def pfR : Nat := 4

/-- `Elf64_Phdr` -/
structure Phdr where
  pType : PhdrType
  pFlags : Nat
  pOffset : Nat
  pVaddr : Nat
  pPaddr : Nat
  pFilesz : Nat
  pMemsz : Nat
  pAlign : Nat
  deriving DecidableEq, Repr

/-- An `int` widened to 64 bits. -/
def widen (value : Nat) : Nat :=
  if u32 value < 2 ^ 31 then
    u32 value
  else
    2 ^ 64 - 2 ^ 32 + u32 value

/-- A container as it is written: its name and the sizes of its sections. -/
structure Emitted where
  name : Option CString
  shSizes : List Nat
  deriving DecidableEq, Repr

/-- The fields of `Config` and the containers that `__z__link__gen_elf` reads. -/
structure Emission where
  programHeaderNum : Nat
  programHeaderTail : Nat
  baseAddress : Nat
  outSize : Nat
  bssSize : Nat := 0
  dynamicEntryNum : Nat
  interp : Option CString
  containers : List Emitted
  deriving DecidableEq, Repr

/-- The name of `.dynamic`. -/
def dynamicName : CString :=
  .ofString ".dynamic"

/-- The name of `.note.gnu.property`. -/
def gnuPropertyName : CString :=
  .ofString ".note.gnu.property"

/-- The position in the file, `DynamicOffset` and `GnuPropertyOffset`. -/
structure Cursor where
  position : Nat
  dynamicOffset : Nat := 0
  gnuPropertyOffset : Nat := 0
  deriving DecidableEq, Repr

/-- `write_raw_data`: the position before a section is kept in an `int`. -/
def Cursor.writeRawData (cursor : Cursor) (sc : Emitted) : Cursor :=
  if sc.shSizes = [] then
    cursor
  else
    { position := (Elf.writeRawData cursor.position sc.shSizes).2
      dynamicOffset :=
        if sc.name = some dynamicName then
          widen cursor.position
        else
          cursor.dynamicOffset
      gnuPropertyOffset :=
        if sc.name = some gnuPropertyName then
          widen cursor.position
        else
          cursor.gnuPropertyOffset }

namespace Emission

variable (e : Emission)

/-- The cursor after all sections were written. -/
def cursor : Cursor :=
  e.containers.foldl Cursor.writeRawData { position := e.programHeaderTail }

/-- `e_phnum` -/
def ePhnum : Nat :=
  e.programHeaderNum % 2 ^ 16

/-- The `PT_PHDR` header. -/
def phdrHeader : Phdr where
  pType := .phdr
  pFlags := pfR + pfW
  pOffset := sizeofEhdr
  pVaddr := widen (e.baseAddress + sizeofEhdr)
  pPaddr := widen (e.baseAddress + sizeofEhdr)
  pFilesz := e.programHeaderNum * sizeofPhdr
  pMemsz := e.programHeaderNum * sizeofPhdr
  pAlign := 0x8

/-- `interp_offset` -/
def interpOffset : Nat :=
  sizeofEhdr + e.programHeaderNum * sizeofPhdr

/-- The `PT_INTERP` header. -/
def interpHeader : Phdr where
  pType := .interp
  pFlags := pfR + pfW
  pOffset := widen e.interpOffset
  pVaddr := widen (e.baseAddress + e.interpOffset)
  pPaddr := widen (e.baseAddress + e.interpOffset)
  pFilesz := 0x1c
  pMemsz := 0x1c
  pAlign := 0x1

/-- The `PT_LOAD` header. -/
def loadHeader : Phdr where
  pType := .load
  pFlags := pfR + pfW + pfX
  pOffset := 0
  pVaddr := widen e.baseAddress
  pPaddr := widen e.baseAddress
  pFilesz := widen e.outSize
  pMemsz := widen (e.outSize + e.bssSize)
  pAlign := 0x200000

/-- A header for a section that holds the dynamic entries. -/
def sectionHeaderAt (pType : PhdrType) (offset : Nat) : Phdr where
  pType := pType
  pFlags := pfR + pfW
  pOffset := offset
  pVaddr := (widen e.baseAddress + offset) % 2 ^ 64
  pPaddr := (widen e.baseAddress + offset) % 2 ^ 64
  pFilesz := e.dynamicEntryNum * sizeofDyn
  pMemsz := e.dynamicEntryNum * sizeofDyn
  pAlign := 0x8

/-- `write_fixed_program_header` without `-p`: the headers in order. -/
def programHeaders : List Phdr :=
  e.phdrHeader ::
    (e.interp.elim [] fun _ => [e.interpHeader]) ++
    [e.loadHeader, e.sectionHeaderAt .dynamic e.cursor.dynamicOffset] ++
    if e.cursor.gnuPropertyOffset = 0 then
      []
    else
      [e.sectionHeaderAt .gnuProperty e.cursor.gnuPropertyOffset]

/-! ## What is where in the file -/

/-- The end of the program headers, which follow the ELF header. -/
def headersEnd : Nat :=
  sizeofEhdr + e.programHeaders.length * sizeofPhdr

/-- The bytes of the interpreter's name that are written. -/
def interpBytes : Nat :=
  e.interp.elim 0 fun name => osWrite (name.length + 1)

end Emission

/-- The number of bytes that are written for a container. -/
def Emitted.bytes (sc : Emitted) : Nat :=
  (sc.shSizes.map osWrite).sum

/-- The range of a container at some position, if it has the name. -/
def Emitted.rangeAt (sc : Emitted) (name : CString) (position : Nat) :
    Option (Nat × Nat) :=
  if sc.name = some name ∧ sc.shSizes ≠ [] then
    some (position, sc.bytes)
  else
    none

/--
The range in the file of the last container with a name, when they are written
from a position on.
-/
def rangeOf (name : CString) (position : Nat) :
    List Emitted → Option (Nat × Nat)
  | [] => none
  | sc :: rest =>
      (rangeOf name (position + sc.bytes) rest).or (sc.rangeAt name position)

namespace Emission

/-- The range in the file of what a header of some type names. -/
def thing (e : Emission) : PhdrType → Option (Nat × Nat)
  | .phdr => some (sizeofEhdr, e.programHeaders.length * sizeofPhdr)
  | .interp => e.interp.map fun _ => (e.headersEnd, e.interpBytes)
  | .load => none
  | .dynamic => rangeOf dynamicName e.programHeaderTail e.containers
  | .gnuProperty => rangeOf gnuPropertyName e.programHeaderTail e.containers

/-- The program headers describe the file. -/
structure Described (e : Emission) : Prop where
  number : e.programHeaders.length = e.ePhnum
  inFront : e.headersEnd + e.interpBytes ≤ e.programHeaderTail
  ranges :
    ∀ phdr ∈ e.programHeaders, phdr.pType ≠ .load →
      e.thing phdr.pType = some (phdr.pOffset, phdr.pFilesz)

instance (e : Emission) : Decidable e.Described :=
  decidable_of_iff
    (e.programHeaders.length = e.ePhnum ∧
      e.headersEnd + e.interpBytes ≤ e.programHeaderTail ∧
      ∀ phdr ∈ e.programHeaders, phdr.pType ≠ .load →
        e.thing phdr.pType = some (phdr.pOffset, phdr.pFilesz))
    ⟨fun ⟨number, inFront, ranges⟩ => ⟨number, inFront, ranges⟩,
      fun described =>
        ⟨described.number, described.inFront, described.ranges⟩⟩

end Emission

/-! ## The links -/

/-- `interp_name` as `set_elf_default_config` leaves it. -/
def interpOf (noInterp : Bool) (interpName : Option CString) :
    Option CString :=
  if noInterp then
    none
  else
    some (interpName.getD (.ofString "/lib64/ld-linux-x86-64.so.3"))

/-- The linker before the first object. -/
def Link.start
    (noInterp : Bool) (interpName : Option CString) (base : Nat) : Link :=
  { Link.init (interpOf noInterp interpName) with baseAddress := base }

/--
The tables before `__z__link__set_dynanmic`.  Under `-nodynamic` there are none
and whatever adds to them is a fault.
-/
def tablesOf
    (nodynamic : Bool) (dynlib : List CString) (requests : List TableCall)
    (link : Link) : Option (Option Dynamic) :=
  if nodynamic then
    if neededLibraries dynlib = [] ∧ requests = [] then some none else none
  else
    ((addDtNeededLibraries (addDynamic link) dynlib).bind fun d =>
      requests.foldlM Dynamic.call d).map some

/-- The containers of the linker as they are written. -/
def Link.emitted (link : Link) : List Emitted :=
  link.containers.map fun sc =>
    { name := sc.name
      shSizes := sc.chain.map fun schain => shSizeAt link.headers schain.p }

/-- The names of the containers that `add_dynamic` makes. -/
def tableNames : List CString :=
  [dynamicName, .ofString ".init_array", .ofString ".fini_array",
    .ofString ".gnu.hash", .ofString ".rela.plt", .ofString ".dynsym",
    .ofString ".dynstr"]

/-- The containers of the tables as they are written. -/
def Dynamic.emitted (d : Dynamic) : List Emitted :=
  List.zipWith (fun name shSizes => { name := some name, shSizes := shSizes })
    tableNames d.shSizes

/-- `__z__link__set_dynanmic`, and what is to be written after it. -/
def emissionOf
    (interp : Option CString) (link : Link) (tagAfter : Nat → DynTag) :
    Option Dynamic → Option Emission
  | none =>
      some
        { programHeaderNum := link.programHeaderNum
          programHeaderTail := link.programHeaderTail
          baseAddress := link.baseAddress
          outSize :=
            u32 (sub32 link.virtualAddressOffset link.baseAddress + 0x10)
          dynamicEntryNum := 1
          interp := interp
          containers := link.emitted }
  | some d =>
      (d.setDynanmic tagAfter).map fun (written, outSize) =>
        { programHeaderNum := link.programHeaderNum
          programHeaderTail := link.programHeaderTail
          baseAddress := link.baseAddress
          outSize := outSize
          dynamicEntryNum := written.dynamicEntryNum
          interp := interp
          containers :=
            (link.setPltSize written.pltGotShSize).emitted ++
              written.emitted }

/-- What a link writes, from its options, its objects and the table calls. -/
structure Linking where
  noInterp : Bool
  interpName : Option CString
  base : Nat
  nodynamic : Bool
  files : List ElfFile
  dynlib : List CString
  requests : List TableCall
  tagAfter : Nat → DynTag
  read : Link
  tables : Option Dynamic
  emission : Emission
  reading : readObjects (.start noInterp interpName base) files = some read
  calling :
    tablesOf nodynamic dynlib requests (layOut nodynamic read) = some tables
  emitting :
    emissionOf (interpOf noInterp interpName) (layOut nodynamic read) tagAfter
        tables =
      some emission

/-! ## The walk over the sections -/

/-- The position after a container. -/
theorem writeRawData_snd (position : Nat) (sizes : List Nat) :
    (writeRawData position sizes).2 = position + (sizes.map osWrite).sum := by
  induction sizes generalizing position with
  | nil => rfl
  | cons size rest inductionHypothesis =>
      have after :
          (if size ≠ 0 then position + osWrite size else position) =
            position + osWrite size := by
        split_ifs with empty
        · rfl
        · simp [not_not.mp empty, osWrite]
      simp only [writeRawData, inductionHypothesis, after, List.map_cons,
        List.sum_cons, Nat.add_assoc]

/-- What one container leaves. -/
theorem Cursor.writeRawData_eq (cursor : Cursor) (sc : Emitted) :
    cursor.writeRawData sc =
      { position := cursor.position + sc.bytes
        dynamicOffset :=
          (sc.rangeAt dynamicName cursor.position).elim
            cursor.dynamicOffset fun range => widen range.1
        gnuPropertyOffset :=
          (sc.rangeAt gnuPropertyName cursor.position).elim
            cursor.gnuPropertyOffset fun range => widen range.1 } := by
  by_cases empty : sc.shSizes = []
  · simp [Cursor.writeRawData, Emitted.rangeAt, Emitted.bytes, empty]
  · have offset (name : CString) (kept : Nat) :
        (if sc.name = some name then widen cursor.position else kept) =
          (sc.rangeAt name cursor.position).elim kept
            fun range => widen range.1 := by
      by_cases named : sc.name = some name <;>
        simp [Emitted.rangeAt, empty, named]
    rw [Cursor.writeRawData, if_neg empty, writeRawData_snd, offset, offset]
    rfl

/-- What a walk leaves: the end, and where the named containers started. -/
theorem foldl_writeRawData (cursor : Cursor) (containers : List Emitted) :
    containers.foldl Cursor.writeRawData cursor =
      { position := cursor.position + (containers.map Emitted.bytes).sum
        dynamicOffset :=
          (rangeOf dynamicName cursor.position containers).elim
            cursor.dynamicOffset fun range => widen range.1
        gnuPropertyOffset :=
          (rangeOf gnuPropertyName cursor.position containers).elim
            cursor.gnuPropertyOffset fun range => widen range.1 } := by
  induction containers generalizing cursor with
  | nil => rfl
  | cons sc rest inductionHypothesis =>
      have offset (name : CString) (kept : Nat) :
          (rangeOf name cursor.position (sc :: rest)).elim kept
              (fun range => widen range.1) =
            (rangeOf name (cursor.position + sc.bytes) rest).elim
              ((sc.rangeAt name cursor.position).elim kept
                fun range => widen range.1)
              fun range => widen range.1 := by
        rw [rangeOf]
        cases rangeOf name (cursor.position + sc.bytes) rest <;> rfl
      rw [List.foldl_cons, inductionHypothesis, cursor.writeRawData_eq, offset,
        offset, List.map_cons, List.sum_cons, Nat.add_assoc]

/-- The last container with a name, among some and some more. -/
theorem rangeOf_append
    (name : CString) (position : Nat) (front back : List Emitted) :
    rangeOf name position (front ++ back) =
      (rangeOf name (position + (front.map Emitted.bytes).sum) back).or
        (rangeOf name position front) := by
  induction front generalizing position with
  | nil => simp [rangeOf]
  | cons sc rest inductionHypothesis =>
      simp only [List.cons_append, rangeOf, inductionHypothesis,
        List.map_cons, List.sum_cons, Nat.add_assoc, Option.or_assoc]

/-- No container has a name. -/
theorem rangeOf_eq_none
    {name : CString} {containers : List Emitted}
    (others : ∀ sc ∈ containers, sc.name ≠ some name) (position : Nat) :
    rangeOf name position containers = none := by
  induction containers generalizing position with
  | nil => rfl
  | cons sc rest inductionHypothesis =>
      obtain ⟨first, later⟩ := List.forall_mem_cons.mp others
      rw [rangeOf, inductionHypothesis later, Emitted.rangeAt,
        if_neg fun named => first named.1]
      rfl

/-- A container with a name that has sections. -/
theorem rangeOf_ne_none
    {name : CString} {containers : List Emitted} {sc : Emitted}
    (member : sc ∈ containers) (named : sc.name = some name)
    (filled : sc.shSizes ≠ []) (position : Nat) :
    rangeOf name position containers ≠ none := by
  induction containers generalizing position with
  | nil => exact absurd member List.not_mem_nil
  | cons first rest inductionHypothesis =>
      rw [rangeOf, Ne, Option.or_eq_none_iff, not_and_or]
      rcases List.mem_cons.mp member with rfl | later
      · right
        rw [Emitted.rangeAt, if_pos ⟨named, filled⟩]
        exact Option.some_ne_none _
      · exact Or.inl (inductionHypothesis later _)

/-- Ranges start at or behind the position of the first container. -/
theorem le_of_rangeOf
    {name : CString} {position : Nat} {containers : List Emitted}
    {range : Nat × Nat}
    (found : rangeOf name position containers = some range) :
    position ≤ range.1 := by
  induction containers generalizing position with
  | nil => cases found
  | cons sc rest inductionHypothesis =>
      rcases Option.or_eq_some_iff.mp found with later | ⟨_, first⟩
      · exact (Nat.le_add_right _ _).trans (inductionHypothesis later)
      · unfold Emitted.rangeAt at first
        split_ifs at first
        cases first
        exact Nat.le_refl _

/-! ## When the headers describe the file -/

/-- Small values fit an `int`. -/
theorem widen_of_lt {value : Nat} (small : value < 2 ^ 31) :
    widen value = value := by
  have fits : u32 value = value := Nat.mod_eq_of_lt (by omega)
  rw [widen, fits, if_pos small]

namespace Emission

/-- Whether the interpreter has a header. -/
def interpNum (e : Emission) : Nat :=
  e.interp.elim 0 fun _ => 1

/--
The counters as the options and the objects leave them: a property note was
counted with one header and twice its size.
-/
structure Counted (e : Emission) (noted : Bool) : Prop where
  num : e.programHeaderNum = 3 + e.interpNum + noted.toNat
  tail :
    e.programHeaderTail =
      sizeofEhdr + (3 + e.interpNum + 2 * noted.toNat) * sizeofPhdr +
        e.interp.elim 0 fun name => name.length + 1
  container : noted → e.thing .gnuProperty ≠ none

/-- `DynamicOffset` -/
theorem dynamicOffset_eq (e : Emission) :
    e.cursor.dynamicOffset =
      (e.thing .dynamic).elim 0 fun range => widen range.1 := by
  rw [cursor, foldl_writeRawData]
  rfl

/-- `GnuPropertyOffset` -/
theorem gnuPropertyOffset_eq (e : Emission) :
    e.cursor.gnuPropertyOffset =
      (e.thing .gnuProperty).elim 0 fun range => widen range.1 := by
  rw [cursor, foldl_writeRawData]
  rfl

/-- The number of the program headers that are written. -/
theorem length_programHeaders (e : Emission) :
    e.programHeaders.length =
      3 + e.interpNum +
        if e.cursor.gnuPropertyOffset = 0 then 0 else 1 := by
  unfold programHeaders interpNum
  cases e.interp <;> split_ifs <;> rfl

/-- What has to be right about every header. -/
theorem forall_programHeaders_iff (e : Emission) (right : Phdr → Prop) :
    (∀ phdr ∈ e.programHeaders, right phdr) ↔
      right e.phdrHeader ∧ (e.interp.isSome → right e.interpHeader) ∧
        right e.loadHeader ∧
        right (e.sectionHeaderAt .dynamic e.cursor.dynamicOffset) ∧
        (e.cursor.gnuPropertyOffset ≠ 0 →
          right
            (e.sectionHeaderAt .gnuProperty e.cursor.gnuPropertyOffset)) := by
  unfold programHeaders
  cases e.interp <;> split_ifs with absent <;> simp [absent]

/-- The dynamic entries are found by their header. -/
def DynamicFound (e : Emission) : Prop :=
  ∃ range ∈ e.thing .dynamic,
    widen range.1 = range.1 ∧ range.2 = e.dynamicEntryNum * sizeofDyn

/--
A property section is found by its header, or it has none and was not counted
either.
-/
def PropertyFound (e : Emission) (noted : Bool) : Prop :=
  ∀ range ∈ e.thing .gnuProperty,
    noted ∧ widen range.1 = range.1 ∧
        range.2 = e.dynamicEntryNum * sizeofDyn ∨
      noted = false ∧ widen range.1 = 0

/-- A section lies behind the program headers. -/
theorem thing_pos
    {e : Emission} {range : Nat × Nat}
    (behind : 0 < e.programHeaderTail)
    (found : e.thing .gnuProperty = some range) : 0 < range.1 :=
  Nat.lt_of_lt_of_le behind (le_of_rangeOf found)

namespace Counted

variable {e : Emission} {noted : Bool}

/-- The sections begin behind the headers that were counted. -/
theorem tail_pos (counted : e.Counted noted) : 0 < e.programHeaderTail := by
  rw [counted.tail, sizeofEhdr]
  omega

/-- The counted number of headers fits `e_phnum`. -/
theorem ePhnum_eq (counted : e.Counted noted) :
    e.ePhnum = 3 + e.interpNum + noted.toNat := by
  have atMost : e.interpNum ≤ 1 := by
    unfold interpNum
    cases e.interp <;> simp
  have once := noted.toNat_le
  rw [ePhnum, counted.num]
  omega

/-- As many headers are written as were counted. -/
theorem number_iff (counted : e.Counted noted) :
    e.programHeaders.length = e.ePhnum ↔
      (e.cursor.gnuPropertyOffset = 0 ↔ noted = false) := by
  rw [counted.ePhnum_eq, length_programHeaders]
  cases noted <;> split_ifs with absent <;> simp [absent]

/-- The headers in front of the sections leave room for what was counted. -/
theorem inFront (counted : e.Counted noted)
    (number : e.programHeaders.length = e.ePhnum) :
    e.headersEnd + e.interpBytes ≤ e.programHeaderTail := by
  have written : e.interpBytes ≤ e.interp.elim 0 fun name => name.length + 1 := by
    unfold interpBytes
    cases e.interp with
    | none => exact Nat.le_refl _
    | some name => exact Nat.min_le_left _ _
  rw [headersEnd, number, counted.ePhnum_eq, counted.tail]
  have room :
      (3 + e.interpNum + noted.toNat) * sizeofPhdr ≤
        (3 + e.interpNum + 2 * noted.toNat) * sizeofPhdr :=
    Nat.mul_le_mul_right _ (by omega)
  omega

/-- The name of the interpreter is where its header says. -/
theorem interp_iff (counted : e.Counted noted)
    (number : e.programHeaders.length = e.ePhnum) :
    (e.interp.isSome →
        e.thing .interp =
          some (e.interpHeader.pOffset, e.interpHeader.pFilesz)) ↔
      ∀ name ∈ e.interp, name.length = 27 := by
  have headers : e.headersEnd = e.interpOffset := by
    rw [headersEnd, number, counted.ePhnum_eq, interpOffset, counted.num]
  have atMost : e.interpNum ≤ 1 := by
    unfold interpNum
    cases e.interp <;> simp
  have once := noted.toNat_le
  have offset : e.interpHeader.pOffset = e.headersEnd := by
    rw [headers]
    refine widen_of_lt ?_
    rw [interpOffset, counted.num, sizeofEhdr, sizeofPhdr]
    omega
  cases isInterp : e.interp with
  | none => simp
  | some name =>
      have written :
          osWrite (name.length + 1) = 0x1c ↔ name.length = 27 := by
        rw [osWrite, maxTransfer]
        omega
      rw [offset]
      simpa [thing, isInterp, interpBytes, interpHeader] using written

/-- The range that the dynamic header gives. -/
theorem dynamic_iff :
    e.thing .dynamic =
        some (e.cursor.dynamicOffset, e.dynamicEntryNum * sizeofDyn) ↔
      e.DynamicFound := by
  rw [dynamicOffset_eq, DynamicFound]
  cases e.thing .dynamic with
  | none => simp
  | some range =>
      simp [Prod.ext_iff, eq_comm, and_comm]

/-- The range that the property header gives, if there is one. -/
theorem property_iff (counted : e.Counted noted) :
    ((e.cursor.gnuPropertyOffset = 0 ↔ noted = false) ∧
        (e.cursor.gnuPropertyOffset ≠ 0 →
          e.thing .gnuProperty =
            some
              (e.cursor.gnuPropertyOffset,
                e.dynamicEntryNum * sizeofDyn))) ↔
      e.PropertyFound noted := by
  rw [gnuPropertyOffset_eq, PropertyFound]
  cases found : e.thing .gnuProperty with
  | none =>
      have notNoted : noted = false := by
        rw [Bool.eq_false_iff]
        exact fun isNoted => counted.container isNoted found
      simp [notNoted]
  | some range =>
      have positive := thing_pos counted.tail_pos found
      rw [Option.elim_some]
      constructor
      · rintro ⟨same, ranges⟩ _ ⟨⟩
        cases noted with
        | false => exact Or.inr ⟨rfl, same.mpr rfl⟩
        | true =>
            have nonzero : widen range.1 ≠ 0 := by simpa using same
            obtain ⟨start, bytes⟩ :=
              Prod.ext_iff.mp (Option.some.inj (ranges nonzero))
            exact Or.inl ⟨rfl, start.symm, bytes⟩
      · intro right
        rcases right range rfl with
          ⟨isNoted, start, bytes⟩ | ⟨notNoted, zero⟩
        · rw [start]
          refine ⟨by simp [isNoted, positive.ne'], fun _ => ?_⟩
          rw [← bytes]
        · exact ⟨by simp [notNoted, zero], fun nonzero => absurd zero nonzero⟩

/--
The program headers describe the file when the interpreter's name has the length
that is written into its header, `.dynamic` begins where an `int` reaches it and
a property section is a counted one, as long as the dynamic entries.
-/
theorem described_iff (counted : e.Counted noted) :
    e.Described ↔
      (∀ name ∈ e.interp, name.length = 27) ∧ e.DynamicFound ∧
        e.PropertyFound noted := by
  constructor
  · intro described
    obtain ⟨_, interp, _, dynamic, property⟩ :=
      (e.forall_programHeaders_iff _).mp described.ranges
    refine
      ⟨(counted.interp_iff described.number).mp
          fun isSome => interp isSome (by simp [interpHeader]),
        dynamic_iff.mp (dynamic (by simp [sectionHeaderAt])),
        counted.property_iff.mp
          ⟨counted.number_iff.mp described.number,
            fun present => property present (by simp [sectionHeaderAt])⟩⟩
  · rintro ⟨interp, dynamic, property⟩
    obtain ⟨same, ranges⟩ := counted.property_iff.mpr property
    have number := counted.number_iff.mpr same
    refine ⟨number, counted.inFront number, ?_⟩
    refine (e.forall_programHeaders_iff _).mpr ⟨fun _ => ?_, ?_, ?_, ?_, ?_⟩
    · rw [phdrHeader, thing, number, counted.ePhnum_eq, counted.num]
    · exact fun isSome _ => (counted.interp_iff number).mpr interp isSome
    · exact fun notLoad => absurd rfl notLoad
    · exact fun _ => dynamic_iff.mpr dynamic
    · exact fun present _ => ranges present

end Counted

end Emission

/-! ## What is written of the objects -/

/-- What is written depends on the outlines of the containers only. -/
theorem emitted_eq (link : Link) :
    link.emitted =
      (link.containers.map SectionContainer.outline).map fun outline =>
        { name := outline.1
          shSizes := outline.2.map (shSizeAt link.headers) } := by
  simp [Link.emitted, SectionContainer.outline, Function.comp_def]

/-- Giving out the addresses changes nothing of it. -/
theorem emitted_setVirtualAddresses (link : Link) :
    link.setVirtualAddresses.emitted = link.emitted := by
  obtain ⟨sizes, outlines⟩ :=
    setVirtualAddress_keeps (u32 (link.baseAddress + link.programHeaderTail))
      link.headers link.containers
  rw [emitted_eq, emitted_eq]
  simp only [Link.setVirtualAddresses, sizes, outlines]

/-- The sizes of other containers do not change when a header is added. -/
theorem Arranged.emitted_congr
    {link : Link} {headers : List Shdr}
    (arranged : Arranged link.headers.length link.containers)
    (same :
      ∀ p < link.headers.length,
        shSizeAt headers p = shSizeAt link.headers p) :
    { link with headers := headers }.emitted = link.emitted := by
  apply List.map_congr_left
  intro sc member
  have sizes :
      (sc.chain.map fun schain => shSizeAt headers schain.p) =
        sc.chain.map fun schain => shSizeAt link.headers schain.p := by
    apply List.map_congr_left
    intro schain inChain
    exact same _ ((arranged sc member).2.2 schain inChain)
  rw [sizes]

/-- The containers of the objects are written first, then `.plt.got`. -/
theorem BetweenObjects.emitted_layOut
    {base : Nat} {read : Link} (between : BetweenObjects base read)
    (pltSize : Nat) :
    ((layOut false read).setPltSize pltSize).emitted =
      read.emitted ++
        [{ name := some (.ofString ".plt.got"), shSizes := [pltSize] }] := by
  let plt := addPltgotSc read
  obtain ⟨sizes, outlines⟩ :=
    setVirtualAddress_keeps (u32 (plt.baseAddress + plt.programHeaderTail))
      plt.headers plt.containers
  have inArena :
      read.headers.length < plt.setVirtualAddresses.headers.length := by
    have sameLength :=
      length_setVirtualAddress (u32 (plt.baseAddress + plt.programHeaderTail))
        plt.headers plt.containers
    rw [Link.setVirtualAddresses, sameLength]
    simp [plt, addPltgotSc]
  have finalSizes := shSizeAt_setSize inArena pltSize
  have kept :
      ∀ p < read.headers.length,
        shSizeAt
            (plt.setVirtualAddresses.headers.modify read.headers.length
              fun shdr => { shdr with shSize := pltSize }) p =
          shSizeAt read.headers p := by
    intro p inOldArena
    rw [finalSizes, if_neg inOldArena.ne', Link.setVirtualAddresses, sizes]
    simp [plt, addPltgotSc, shSizeAt, List.getElem?_append_left inOldArena]
  have finalLink :
      ((layOut false read).setPltSize pltSize).emitted =
        { plt with
          headers :=
            plt.setVirtualAddresses.headers.modify read.headers.length
              fun shdr => { shdr with shSize := pltSize } }.emitted := by
    rw [emitted_eq, emitted_eq]
    exact congrArg _ outlines
  rw [finalLink, ← between.arranged.emitted_congr kept]
  have ownSize := finalSizes read.headers.length
  rw [if_pos rfl] at ownSize
  simpa [Link.emitted, plt, addPltgotSc] using ownSize

/-! ## What was counted while the objects were read -/

/-- A property note. -/
def Shdr.IsPropertyNote (shdr : Shdr) : Prop :=
  shdr.shType = shtNote ∧ shdr.name = gnuPropertyName

/-- A section that is no note is no property note. -/
theorem not_isPropertyNote
    {shdr : Shdr} {shType : Nat} (isType : shdr.shType = shType)
    (other : shType ≠ shtNote) : ¬ shdr.IsPropertyNote :=
  fun isNote => other (isType.symm.trans isNote.1)

/--
The counters after some headers: they are changed once, by a property note, for
which there is a container then.
-/
structure Noted (start : Link) (noted : Prop) (link : Link) : Prop where
  num :
    link.programHeaderNum =
      start.programHeaderNum + link.hasGnuProperty.toNat
  tail :
    link.programHeaderTail =
      start.programHeaderTail + 2 * link.hasGnuProperty.toNat * sizeofPhdr
  flag : link.hasGnuProperty ↔ noted
  container :
    link.hasGnuProperty →
      ∃ sc ∈ link.containers,
        sc.name = some gnuPropertyName ∧ sc.chain ≠ []

/-- A container with sections keeps them when a section is inserted. -/
theorem exists_insertSection
    {containers : List SectionContainer} {sc : SectionContainer}
    (member : sc ∈ containers) (filled : sc.chain ≠ [])
    (name : CString) (p : Nat) :
    ∃ after ∈ insertSection containers name p,
      after.name = sc.name ∧ after.chain ≠ [] := by
  unfold insertSection
  cases matchSection containers name with
  | none => exact ⟨sc, List.mem_append_left _ member, rfl, filled⟩
  | some index =>
      obtain ⟨k, present⟩ := List.mem_iff_getElem?.mp member
      by_cases here : index = k
      · refine
          ⟨{ sc with chain := sc.chain ++ [{ p := p }] },
            List.mem_of_getElem? (i := k) ?_, rfl, by simp⟩
        simp [allocSectionChain, present, here]
      · refine
          ⟨sc, List.mem_of_getElem? (i := k) ?_, rfl, filled⟩
        simp [allocSectionChain, present, here]

/-- An inserted section is in a container of its name. -/
theorem exists_insertSection_self
    (containers : List SectionContainer) (name : CString) (p : Nat) :
    ∃ sc ∈ insertSection containers name p,
      sc.name = some name ∧ sc.chain ≠ [] := by
  unfold insertSection
  cases found : matchSection containers name with
  | none =>
      exact
        ⟨_, List.mem_append_right _ (List.mem_singleton_self _), rfl,
          List.cons_ne_nil _ _⟩
  | some index =>
      obtain ⟨inBounds, named, _⟩ :=
        List.findIdx?_eq_some_iff_getElem.mp found
      refine
        ⟨{ containers[index] with
            chain := containers[index].chain ++ [{ p := p }] },
          List.mem_of_getElem? (i := index) ?_, by simpa using named,
          by simp⟩
      simp [allocSectionChain, List.getElem?_eq_getElem inBounds]

namespace Noted

variable {start link : Link} {noted : Prop}

/-- Inserting a section changes no counter. -/
theorem insert (kept : Noted start noted link) (name : CString) (p : Nat) :
    Noted start noted (link.insert name p) where
  num := kept.num
  tail := kept.tail
  flag := kept.flag
  container := by
    intro flagged
    obtain ⟨sc, member, named, filled⟩ := kept.container flagged
    obtain ⟨after, inserted, sameName, stillFilled⟩ :=
      exists_insertSection member filled name p
    exact ⟨after, inserted, sameName.trans named, stillFilled⟩

/-- A note may be the property note. -/
theorem insertNote
    (kept : Noted start noted link) (name : CString) (p : Nat) :
    Noted start (noted ∨ name = gnuPropertyName)
      (insertNote link name p) := by
  unfold Elf.insertNote
  split_ifs with flagged named
  · have already : noted := kept.flag.mp flagged
    exact
      { num := kept.num
        tail := kept.tail
        flag := by simp [flagged, already]
        container := kept.container }
  · have fresh : link.hasGnuProperty = false := by simpa using flagged
    have isName : name = gnuPropertyName := named
    exact
      { num := by simp [Link.insert, kept.num, fresh]
        tail := by
          simp only [Link.insert, kept.tail, fresh, Bool.toNat_false,
            Bool.toNat_true]
          omega
        flag := by simp [Link.insert, isName]
        container := by
          intro _
          rw [isName]
          exact exists_insertSection_self link.containers gnuPropertyName p }
  · have inserted := kept.insert name p
    have otherName : ¬ name = gnuPropertyName := named
    rwa [or_iff_left otherName]

/-- A relocation section changes no counter. -/
theorem appendReloc
    (kept : Noted start noted link) (oc : ObjectChain) (name : CString)
    (p : Nat) :
    Noted start noted (appendReloc link oc name p).1 := by
  unfold Elf.appendReloc
  split
  · exact kept
  · dsimp only
    split <;>
      exact
        { num := kept.num
          tail := kept.tail
          flag := kept.flag
          container := kept.container }

/-- One header. -/
theorem onSection
    (kept : Noted start noted link) (oc : ObjectChain) (p : Nat)
    (shdr : Shdr) :
    Noted start (noted ∨ shdr.IsPropertyNote)
      (onSection link (some oc) p shdr).1 := by
  unfold Elf.onSection
  dsimp only
  split_ifs with isProgbits isSymtab isRela isNobits isNote
  · rw [or_iff_left (not_isPropertyNote isProgbits (by decide))]
    exact kept.insert shdr.name p
  · rw [or_iff_left (not_isPropertyNote isSymtab (by decide))]
    exact kept.insert shdr.name p
  · rw [or_iff_left (not_isPropertyNote isRela (by decide))]
    exact kept.appendReloc oc shdr.name p
  · rw [or_iff_left (not_isPropertyNote isNobits (by decide))]
    exact kept.insert shdr.name p
  · have isProperty : shdr.IsPropertyNote ↔ shdr.name = gnuPropertyName :=
      and_iff_right isNote
    rw [isProperty]
    exact kept.insertNote shdr.name p
  · rw [or_iff_left fun isProperty => isNote isProperty.1]
    exact kept

/-- The callback goes on with the object it was given. -/
theorem onSection_isSome
    (link : Link) (oc : ObjectChain) (p : Nat) (shdr : Shdr) :
    ∃ later, (Elf.onSection link (some oc) p shdr).2 = some later := by
  unfold Elf.onSection
  dsimp only
  split_ifs <;> exact ⟨_, rfl⟩

/-- The headers behind the first one. -/
theorem runThroughShdr
    (kept : Noted start noted link) (oc : ObjectChain) (p : Nat)
    (sections : List Shdr) :
    Noted start (noted ∨ ∃ shdr ∈ sections, shdr.IsPropertyNote)
      (runThroughShdr link (some oc) p sections).1 := by
  induction sections generalizing link oc p noted with
  | nil => simpa [Elf.runThroughShdr] using kept
  | cons shdr rest inductionHypothesis =>
      obtain ⟨later, goesOn⟩ := onSection_isSome link oc p shdr
      have run := inductionHypothesis (kept.onSection oc p shdr) later (p + 1)
      rw [← goesOn] at run
      simpa [Elf.runThroughShdr, or_assoc] using run

/-- The headers of an object, of which the first one is not looked at. -/
theorem readObject
    {next : Link} {file : ElfFile} (kept : Noted start noted link)
    (reading : readObject link file = some next) :
    Noted start (noted ∨ ∃ shdr ∈ file.sections.tail, shdr.IsPropertyNote)
      next := by
  obtain ⟨walked, final, _, _, rfl⟩ := readObject_eq_some reading
  have mapped :
      Noted start noted
        { link with headers := link.headers ++ file.sections } :=
    { num := kept.num
      tail := kept.tail
      flag := kept.flag
      container := kept.container }
  obtain ⟨null, rest, sections⟩ :
      ∃ null rest, file.sections = null :: rest := by
    cases isEmpty : file.sections with
    | nil => simpa [isEmpty] using file.nullFirst
    | cons null rest => exact ⟨null, rest, rfl⟩
  have run :=
    mapped.runThroughShdr { sectionHead := link.headers.length }
      (link.headers.length + 1) rest
  have walk :
      (readSections link file).1 =
        (Elf.runThroughShdr
          { link with headers := link.headers ++ file.sections }
          (some { sectionHead := link.headers.length })
          (link.headers.length + 1) rest).1 := by
    rw [readSections, sections]
    rfl
  rw [sections, List.tail_cons, walk]
  exact
    { num := run.num
      tail := run.tail
      flag := run.flag
      container := run.container }

/-- All objects. -/
theorem readObjects
    {read : Link} {files : List ElfFile} (kept : Noted start noted link)
    (reading : readObjects link files = some read) :
    Noted start
      (noted ∨
        ∃ file ∈ files, ∃ shdr ∈ file.sections.tail, shdr.IsPropertyNote)
      read := by
  induction files generalizing link noted with
  | nil =>
      cases reading
      simpa using kept
  | cons file rest inductionHypothesis =>
      simp only [Elf.readObjects, List.foldlM_cons] at reading
      obtain ⟨next, first, later⟩ := Option.bind_eq_some_iff.mp reading
      have run := inductionHypothesis (kept.readObject first) later
      simpa [or_assoc] using run

end Noted

/-! ## What `__z__link__set_dynanmic` leaves -/

/-- What the entries leave alone, apart from the sizes in the headers. -/
structure SetDynamic (before after : Dynamic) : Prop where
  entryNum : after.dynamicEntryNum = before.dynamicEntryNum
  ownSize : after.dynamicTable.shSize = before.dynamicTable.shSize
  pltGotNum : after.pltGotNum = before.pltGotNum
  pltGotShSize :
    after.pltGotShSize = before.pltGotShSize ∨
      after.pltGotShSize = before.pltGotNum * 0x10

/-- Setting an entry. -/
theorem setDynamic_setDynamicEntry
    {d after : Dynamic} {tag : DynTag} {offset next : Nat}
    (sets : d.setDynamicEntry tag offset = some (after, next)) :
    SetDynamic d after ∧
      (tag = .rela → after.pltGotShSize = d.pltGotNum * 0x10) := by
  obtain ⟨⟨value, behind, sized⟩, effect, written⟩ :=
    Option.bind_eq_some_iff.mp sets
  obtain ⟨stored, stores, same⟩ := Option.map_eq_some_iff.mp written
  cases same
  unfold Dynamic.writeDyn at stores
  split_ifs at stores
  cases stores
  cases tag <;> cases effect <;>
    exact
      ⟨{ entryNum := rfl
         ownSize := rfl
         pltGotNum := rfl
         pltGotShSize := by simp },
        by simp⟩

/-- Setting entries one after the other. -/
theorem setDynamic_foldlM
    {d after : Dynamic} {tags : List DynTag} {offset last : Nat}
    (run :
      tags.foldlM
          (fun (state : Dynamic × Nat) tag =>
            state.1.setDynamicEntry tag state.2)
          (d, offset) =
        some (after, last)) :
    SetDynamic d after ∧
      (.rela ∈ tags → after.pltGotShSize = d.pltGotNum * 0x10) := by
  induction tags generalizing d offset with
  | nil =>
      cases run
      exact ⟨⟨rfl, rfl, rfl, Or.inl rfl⟩, fun absent => absurd absent (by simp)⟩
  | cons tag rest inductionHypothesis =>
      rw [List.foldlM_cons] at run
      obtain ⟨⟨middle, next⟩, stepped, later⟩ := Option.bind_eq_some_iff.mp run
      obtain ⟨first, atRela⟩ := setDynamic_setDynamicEntry stepped
      obtain ⟨others, inRest⟩ := inductionHypothesis later
      dsimp only at first atRela
      refine
        ⟨⟨others.entryNum.trans first.entryNum,
            others.ownSize.trans first.ownSize,
            others.pltGotNum.trans first.pltGotNum, ?_⟩, ?_⟩
      · rcases others.pltGotShSize with kept | set
        · rw [kept]
          exact first.pltGotShSize
        · exact Or.inr (by rw [set, first.pltGotNum])
      · intro member
        rcases List.mem_cons.mp member with isRela | later
        · rcases others.pltGotShSize with kept | set
          · rw [kept, atRela isRela.symm]
          · rw [set, first.pltGotNum]
        · rw [inRest later, first.pltGotNum]

/-- The entries for the libraries leave `.plt.got` alone. -/
theorem pltGotNum_of_setNeeded
    {d after : Dynamic} {p count : Nat}
    (run : d.setNeeded p count = some after) :
    after.pltGotNum = d.pltGotNum := by
  induction count generalizing d p with
  | zero =>
      cases run
      rfl
  | succ count inductionHypothesis =>
      rw [Dynamic.setNeeded] at run
      obtain ⟨⟨middle, next⟩, stepped, scans⟩ := Option.bind_eq_some_iff.mp run
      obtain ⟨p', _, later⟩ := Option.bind_eq_some_iff.mp scans
      exact
        (inductionHypothesis later).trans
          (setDynamic_setDynamicEntry stepped).1.pltGotNum

/-- The sizes of `.dynamic` and `.plt.got`, and the number of entries. -/
theorem Ledger.sizes_of_setDynanmic
    {baseAddress pltAddress : Nat} {libraries : List CString}
    {d : Dynamic} {tagAfter : Nat → DynTag} {result : Dynamic × Nat}
    (ledger : Ledger baseAddress pltAddress libraries d)
    (sets : d.setDynanmic tagAfter = some result) :
    result.1.dynamicEntryNum = 13 + libraries.length ∧
      result.1.dynamicTable.shSize = (13 + libraries.length) * sizeofDyn ∧
      result.1.pltGotShSize = d.pltGotNum * 0x10 := by
  simp only [Dynamic.setDynanmic] at sets
  obtain ⟨needed, first, second⟩ := Option.bind_eq_some_iff.mp sets
  obtain ⟨_, _, number⟩ :=
    Dynamic.length_of_setNeeded first (by simp [ledger.dynamicTable])
  rw [ledger.neededNum, ledger.dynamicEntryNum] at number
  have pltGotNum := pltGotNum_of_setNeeded first
  rw [number, Dynamic.foldlM_setTag] at second
  obtain ⟨last, offset⟩ := result
  obtain ⟨kept, atRela⟩ := setDynamic_foldlM second
  refine ⟨kept.entryNum, kept.ownSize, ?_⟩
  rw [atRela (by simp [dynamicEntryTag])]
  exact congrArg (· * 0x10) pltGotNum

/-! ## All links -/

/-- The counters before the first object. -/
theorem noted_start
    (noInterp : Bool) (interpName : Option CString) (base : Nat) :
    Noted (.start noInterp interpName base) False
      (.start noInterp interpName base) where
  num := rfl
  tail := rfl
  flag := by simp [Link.start, Link.init]
  container := by
    intro flagged
    cases flagged

/-- There are no tables under `-nodynamic` only. -/
theorem nodynamic_of_tablesOf
    {nodynamic : Bool} {dynlib : List CString} {requests : List TableCall}
    {link : Link}
    (calling : tablesOf nodynamic dynlib requests link = some none) :
    nodynamic = true := by
  cases nodynamic with
  | true => rfl
  | false =>
      obtain ⟨d, _, isNone⟩ := Option.map_eq_some_iff.mp calling
      cases isNone

/-- The tables are those that the libraries and the calls leave. -/
theorem calls_of_tablesOf
    {nodynamic : Bool} {dynlib : List CString} {requests : List TableCall}
    {link : Link} {d : Dynamic}
    (calling : tablesOf nodynamic dynlib requests link = some (some d)) :
    nodynamic = false ∧
      ∃ named,
        addDtNeededLibraries (addDynamic link) dynlib = some named ∧
          requests.foldlM Dynamic.call named = some d := by
  cases nodynamic with
  | true =>
      simp only [tablesOf, ↓reduceIte] at calling
      split_ifs at calling
      cases calling
  | false =>
      obtain ⟨made, calls, same⟩ := Option.map_eq_some_iff.mp calling
      cases same
      exact ⟨rfl, Option.bind_eq_some_iff.mp calls⟩

namespace Linking

variable (linking : Linking)

/-- One of the objects has a property note. -/
def HasPropertyNote : Prop :=
  ∃ file ∈ linking.files, ∃ shdr ∈ file.sections.tail, shdr.IsPropertyNote

/-- Where the sections of the objects that have a name are written. -/
def inputRange (name : CString) : Option (Nat × Nat) :=
  rangeOf name linking.read.programHeaderTail linking.read.emitted

/-- Where `.dynamic` is written. -/
def dynamicStart (d : Dynamic) : Nat :=
  linking.read.programHeaderTail +
    (linking.read.emitted.map Emitted.bytes).sum + d.pltGotNum * 0x10

/-- The number of dynamic entries. -/
def entryNum : Nat :=
  linking.tables.elim 1 fun _ => 13 + (neededLibraries linking.dynlib).length

/--
There are dynamic entries where an `int` reaches them: those of the linker, or,
under `-nodynamic`, a single one in the objects.
-/
def DynamicReached : Prop :=
  match linking.tables with
  | none =>
      ∃ range ∈ linking.inputRange dynamicName,
        widen range.1 = range.1 ∧ range.2 = sizeofDyn
  | some d => widen (linking.dynamicStart d) = linking.dynamicStart d

/--
Sections that are called like a property note: one of them is a note and they
are as long as the dynamic entries, or they are at a multiple of four gigabytes.
-/
def PropertyMeasured : Prop :=
  ∀ range ∈ linking.inputRange gnuPropertyName,
    linking.HasPropertyNote ∧ widen range.1 = range.1 ∧
        range.2 = linking.entryNum * sizeofDyn ∨
      ¬ linking.HasPropertyNote ∧ widen range.1 = 0

/-- What the objects leave in the counters. -/
theorem noted :
    Noted
      (.start linking.noInterp linking.interpName linking.base)
      linking.HasPropertyNote linking.read := by
  have run := (noted_start _ _ _).readObjects linking.reading
  rwa [false_or] at run

/-- What the objects leave in the containers. -/
theorem between : BetweenObjects linking.base linking.read :=
  (betweenObjects_init _ _).readObjects linking.reading

/-- Without tables the containers of the objects are all that is written. -/
theorem emission_of_none (noTables : linking.tables = none) :
    linking.emission.containers = linking.read.emitted ∧
      linking.emission.dynamicEntryNum = 1 := by
  have calling := linking.calling
  have emitting := linking.emitting
  rw [noTables] at calling emitting
  rw [nodynamic_of_tablesOf calling] at emitting
  rw [← Option.some.inj emitting]
  exact ⟨emitted_setVirtualAddresses linking.read, rfl⟩

/-- With tables, `.plt.got` and they follow. -/
theorem emission_of_some {d : Dynamic} (isSome : linking.tables = some d) :
    ∃ others : List Emitted,
      linking.emission.containers =
          linking.read.emitted ++
            ([{ name := some (.ofString ".plt.got")
                shSizes := [d.pltGotNum * 0x10] },
              { name := some dynamicName
                shSizes := [linking.entryNum * sizeofDyn] }] ++ others) ∧
        (∀ sc ∈ others,
          sc.name ≠ some dynamicName ∧ sc.name ≠ some gnuPropertyName) ∧
        linking.emission.dynamicEntryNum = linking.entryNum ∧
        linking.entryNum * sizeofDyn ≤ maxTransfer ∧
        d.pltGotNum * 0x10 ≤ maxTransfer := by
  have calling := linking.calling
  have emitting := linking.emitting
  rw [isSome] at calling emitting
  obtain ⟨isDynamic, named, libraries, run⟩ := calls_of_tablesOf calling
  rw [isDynamic] at emitting libraries
  have ledger := ledger_of_calls libraries run
  obtain ⟨⟨written, outSize⟩, sets, emission⟩ :=
    Option.map_eq_some_iff.mp emitting
  obtain ⟨number, ownSize, pltSize⟩ := ledger.sizes_of_setDynanmic sets
  obtain ⟨few, _⟩ := ledger.room_of_setDynanmic sets
  have entries :
      linking.entryNum = 13 + (neededLibraries linking.dynlib).length := by
    rw [entryNum, isSome]
    rfl
  rw [← entries] at number ownSize
  dsimp only at number ownSize pltSize
  refine
    ⟨(List.zipWith
        (fun name shSizes => { name := some name, shSizes := shSizes })
        tableNames.tail written.shSizes.tail),
      ?_, ?_, ?_, ?_, ?_⟩
  · rw [← emission]
    dsimp only
    rw [linking.between.emitted_layOut, pltSize, List.append_assoc]
    simp [Dynamic.emitted, tableNames, Dynamic.shSizes, ownSize]
  · intro sc member
    have named : sc.name ∈ tableNames.tail.map some := by
      simp only [tableNames, List.tail_cons, Dynamic.shSizes,
        List.zipWith_cons_cons, List.zipWith_nil_right, List.mem_cons,
        List.not_mem_nil, or_false] at member
      rcases member with rfl | rfl | rfl | rfl | rfl | rfl <;>
        simp [tableNames]
    constructor <;>
    · intro isName
      rw [isName] at named
      revert named
      decide
  · rw [← emission]
    exact number
  · rw [entries, sizeofDyn, maxTransfer]
    omega
  · have few := ledger.pltGot
    rw [defaultNum] at few
    rw [maxTransfer]
    omega

/-- The counters, the interpreter and the base do not change after reading. -/
theorem emission_config :
    linking.emission.programHeaderNum = linking.read.programHeaderNum ∧
      linking.emission.programHeaderTail = linking.read.programHeaderTail ∧
      linking.emission.interp =
        interpOf linking.noInterp linking.interpName := by
  have emitting := linking.emitting
  have layout :
      (layOut linking.nodynamic linking.read).programHeaderNum =
          linking.read.programHeaderNum ∧
        (layOut linking.nodynamic linking.read).programHeaderTail =
          linking.read.programHeaderTail := by
    cases linking.nodynamic <;> exact ⟨rfl, rfl⟩
  cases isTables : linking.tables with
  | none =>
      rw [isTables] at emitting
      rw [← Option.some.inj emitting]
      exact ⟨layout.1, layout.2, rfl⟩
  | some d =>
      rw [isTables] at emitting
      obtain ⟨_, _, emission⟩ := Option.map_eq_some_iff.mp emitting
      rw [← emission]
      exact ⟨layout.1, layout.2, rfl⟩

/-- A property section is one of the objects. -/
theorem thing_gnuProperty :
    linking.emission.thing .gnuProperty =
      linking.inputRange gnuPropertyName := by
  obtain ⟨_, tail, _⟩ := linking.emission_config
  rw [Emission.thing, tail]
  cases isTables : linking.tables with
  | none =>
      rw [(linking.emission_of_none isTables).1]
      rfl
  | some d =>
      obtain ⟨others, containers, otherNames, _⟩ :=
        linking.emission_of_some isTables
      rw [containers, rangeOf_append, rangeOf_eq_none]
      · rfl
      · intro sc member
        rcases List.mem_append.mp member with first | later
        · have pltGot :
              some (CString.ofString ".plt.got") ≠ some gnuPropertyName := by
            decide
          have dynamic : some dynamicName ≠ some gnuPropertyName := by decide
          rcases List.mem_pair.mp first with rfl | rfl
          · exact pltGot
          · exact dynamic
        · exact (otherNames sc later).2

/-- Where the dynamic entries are. -/
theorem thing_dynamic :
    linking.emission.thing .dynamic =
      linking.tables.elim (linking.inputRange dynamicName) fun d =>
        some (linking.dynamicStart d, linking.entryNum * sizeofDyn) := by
  obtain ⟨_, tail, _⟩ := linking.emission_config
  rw [Emission.thing, tail]
  cases isTables : linking.tables with
  | none =>
      rw [(linking.emission_of_none isTables).1]
      rfl
  | some d =>
      obtain ⟨others, containers, otherNames, _, ownFits, pltFits⟩ :=
        linking.emission_of_some isTables
      have noOther :=
        rangeOf_eq_none fun sc member => (otherNames sc member).1
      rw [containers, rangeOf_append, rangeOf_append, noOther]
      simp [rangeOf, Emitted.rangeAt, Emitted.bytes, dynamicStart, osWrite,
        ownFits, pltFits]

/-- The counters are those that the options and the objects leave. -/
theorem counted :
    linking.emission.Counted linking.read.hasGnuProperty := by
  obtain ⟨num, tail, interp⟩ := linking.emission_config
  have noted := linking.noted
  constructor
  · rw [num, noted.num, Emission.interpNum, interp]
    rfl
  · rw [tail, noted.tail, Emission.interpNum, interp, Link.start]
    cases interpOf linking.noInterp linking.interpName <;>
      simp only [Link.init, Option.elim_none, Option.elim_some,
        Nat.add_mul] <;>
      omega
  · intro flagged
    obtain ⟨sc, member, named, filled⟩ := noted.container flagged
    rw [linking.thing_gnuProperty]
    refine
      rangeOf_ne_none (List.mem_map_of_mem member) named ?_ _
    simpa using filled

/-- The dynamic entries are found where they can be reached. -/
theorem dynamicFound_iff :
    linking.emission.DynamicFound ↔ linking.DynamicReached := by
  rw [Emission.DynamicFound, linking.thing_dynamic, DynamicReached]
  cases isTables : linking.tables with
  | none =>
      rw [(linking.emission_of_none isTables).2, Nat.one_mul]
      rfl
  | some d =>
      obtain ⟨_, _, _, number, _⟩ := linking.emission_of_some isTables
      rw [number]
      simp

/-- A property section is found where it was counted and has the length. -/
theorem propertyFound_iff :
    linking.emission.PropertyFound linking.read.hasGnuProperty ↔
      linking.PropertyMeasured := by
  have number : linking.emission.dynamicEntryNum = linking.entryNum := by
    cases isTables : linking.tables with
    | none =>
        rw [(linking.emission_of_none isTables).2, entryNum, isTables]
        rfl
    | some d =>
        obtain ⟨_, _, _, number, _⟩ := linking.emission_of_some isTables
        exact number
  rw [Emission.PropertyFound, linking.thing_gnuProperty, number,
    PropertyMeasured, ← linking.noted.flag, Bool.not_eq_true]

/-- The interpreter's name has the length that its header gives. -/
theorem interp_iff :
    (∀ name ∈ linking.emission.interp, name.length = 27) ↔
      (linking.noInterp = false →
        ∀ name ∈ linking.interpName, name.length = 27) := by
  obtain ⟨_, _, interp⟩ := linking.emission_config
  rw [interp, interpOf]
  cases linking.noInterp with
  | true => simp
  | false =>
      cases linking.interpName with
      | none =>
          have default :
              (CString.ofString "/lib64/ld-linux-x86-64.so.3").length = 27 := by
            decide +kernel
          simp [default]
      | some name => simp

end Linking

/-- A link of some objects without libraries that has no relocations to do. -/
def plainLink
    (interpName : Option CString) (files : List ElfFile)
    (reads : (readObjects (.start false interpName 0) files).isSome)
    (calls :
      (tablesOf false [] [] (layOut false (Option.get _ reads))).isSome)
    (emits :
      (emissionOf (interpOf false interpName)
        (layOut false (Option.get _ reads)) (fun _ => .null)
        (Option.get _ calls)).isSome) :
    Linking where
  noInterp := false
  interpName := interpName
  base := 0
  nodynamic := false
  files := files
  dynlib := []
  requests := []
  tagAfter := fun _ => .null
  read := Option.get _ reads
  tables := Option.get _ calls
  emission := Option.get _ emits
  reading := (Option.some_get reads).symm
  calling := (Option.some_get calls).symm
  emitting := (Option.some_get emits).symm

/-- Two objects under the name of an interpreter of 24 characters. -/
def muslLink : Linking :=
  plainLink (some (.ofString "/lib/ld-musl-x86_64.so.1")) twoObjects
    (by decide +kernel) (by decide +kernel) (by decide +kernel)

/-- An object with a property note, under the default interpreter. -/
def noteLink : Linking :=
  plainLink none
    [.ofHeaders
      [sectionHeader ".text" shtProgbits 16,
        sectionHeader ".note.gnu.property" shtNote 0x20]]
    (by decide +kernel) (by decide +kernel) (by decide +kernel)

/-- The default interpreter without property notes is described. -/
example :
    (plainLink none twoObjects (by decide +kernel) (by decide +kernel)
      (by decide +kernel)).emission.Described := by
  decide +kernel

end BinTools.Elf
