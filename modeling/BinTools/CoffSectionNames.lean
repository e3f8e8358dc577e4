import BinTools.CoffLists
import BinTools.CoffNames

namespace BinTools.CoffObject

open ByteBuffer (Bytes load loadWord)
open Coff (StringAt)
open LogLine

/-!
# Names of COFF sections

A section with a long name has a slash and the decimal offset of the name in its
field.  The linker adds the digits up, the terminators in the field included, and
looks the name up at the sum.  A name without a container is logged when it gets
one.
-/

/-- The digits behind the slash. -/
def digitsOf (field : List UInt8) : List UInt8 :=
  (field.drop 1).takeWhile (· ≠ 0)

/-- A slash and decimal digits. -/
def IsLong (field : List UInt8) : Prop :=
  field.head? = some 0x2f ∧ digitsOf field ≠ [] ∧
    ∀ digit ∈ digitsOf field, 0x30 ≤ digit ∧ digit ≤ 0x39

instance (field : List UInt8) : Decidable (IsLong field) :=
  inferInstanceAs (Decidable (_ ∧ _))

/-- The number that some digits denote in base ten. -/
def decimal (digits : List UInt8) : Nat :=
  digits.foldl (fun number digit => 10 * number + (digit.toNat - 0x30)) 0

/-- Seven digits, of which all but the last are zero. -/
def IsPadded (field : List UInt8) : Prop :=
  (digitsOf field).length = 7 ∧
    ∀ digit ∈ (digitsOf field).dropLast, digit = 0x30

instance (field : List UInt8) : Decidable (IsPadded field) :=
  inferInstanceAs (Decidable (_ ∧ _))

/-- The sum of the seven bytes behind the slash, each less the digit zero. -/
def digitSum (field : List UInt8) : Int :=
  ((field.drop 1).map fun byte =>
    (byte.toNat : Int).bmod (2 ^ 8) - 0x30).sum

namespace Memory

variable (mem : Memory)

/-- The name of a section header. -/
def headerName (isec strTableP : Nat) : CString :=
  if IsLong (load mem.bytes isec 8) then
    mem.tableString strTableP (decimal (digitsOf (load mem.bytes isec 8)))
  else
    fieldName (load mem.bytes isec 8)

/--
The digits behind a slash are seven and all but the last are zero, or the name
happens to stand at their sum as well; any other field ends the name.
-/
def HeaderNameFits (isec strTableP : Nat) : Prop :=
  if mem.bytes isec = 0x2f then
    IsLong (load mem.bytes isec 8) ∧ IsPadded (load mem.bytes isec 8) ∨
      mem.stringAt
          ((strTableP + digitSum (load mem.bytes isec 8)) % 2 ^ 64).toNat =
        mem.headerName isec strTableP
  else
    EndsInField mem.bytes isec 8

instance (isec strTableP : Nat) :
    Decidable (mem.HeaderNameFits isec strTableP) :=
  inferInstanceAs (Decidable (ite _ _ _))

/-- The section headers of some objects, with their string tables. -/
def sectionEntries (bases : List Nat) : List (Nat × Nat) :=
  bases.flatMap fun base =>
    (mem.sectionAddresses base).map fun isec => (isec, mem.stringTable base)

end Memory

/-! ## Sums of digits -/

/-- A decimal digit. -/
def IsDigit (byte : UInt8) : Prop :=
  0x30 ≤ byte ∧ byte ≤ 0x39

/-- What a digit adds to the sum is its value. -/
theorem IsDigit.value
    {byte : UInt8} (isDigit : IsDigit byte) :
    (byte.toNat : Int).bmod (2 ^ 8) - 0x30 = (byte.toNat - 0x30 : Nat) ∧
      (byte.toNat - 0x30 = 0 ↔ byte = 0x30) := by
  have low : 0x30 ≤ byte.toNat := UInt8.le_iff_toNat_le.mp isDigit.1
  have high : byte.toNat ≤ 0x39 := UInt8.le_iff_toNat_le.mp isDigit.2
  have isZero : byte = 0x30 ↔ byte.toNat = 0x30 :=
    UInt8.toNat_inj.symm
  refine ⟨?_, by rw [isZero]; omega⟩
  rw [Int.bmod_eq_of_le (by omega) (by omega)]
  omega

/-- One more digit at the end of a number. -/
theorem decimal_concat (digits : List UInt8) (digit : UInt8) :
    decimal (digits ++ [digit]) =
      10 * decimal digits + (digit.toNat - 0x30) := by
  unfold decimal
  rw [List.foldl_append]
  rfl

/-- The sum of some digits is not above their number, which can be zero. -/
theorem sum_le_decimal
    {digits : List UInt8} (areDigits : ∀ digit ∈ digits, IsDigit digit) :
    0 ≤ (digits.map fun byte =>
        (byte.toNat : Int).bmod (2 ^ 8) - 0x30).sum ∧
      (digits.map fun byte =>
          (byte.toNat : Int).bmod (2 ^ 8) - 0x30).sum ≤ decimal digits ∧
        (decimal digits = 0 ↔ ∀ digit ∈ digits, digit = 0x30) := by
  induction digits using List.reverseRecOn with
  | nil => simp [decimal]
  | append_singleton digits digit inductionHypothesis =>
      obtain ⟨isValue, isZero⟩ :=
        (areDigits digit (List.mem_append_right _
          (List.mem_singleton_self _))).value
      obtain ⟨notNegative, notAbove, allZero⟩ :=
        inductionHypothesis fun other isOther =>
          areDigits other (List.mem_append_left _ isOther)
      rw [List.map_append, List.sum_append, List.map_singleton,
        List.sum_singleton, decimal_concat, List.forall_mem_append,
        List.forall_mem_singleton, ← isZero, ← allZero, isValue]
      omega

/--
In a field that zeros fill up, the bytes behind the slash add up to the number
of the digits exactly when there are no zeros and all digits but the last are
zero.
-/
theorem digitSum_eq_decimal_iff
    {digits : List UInt8} (areDigits : ∀ digit ∈ digits, IsDigit digit)
    (count : Nat) :
    digitSum (0x2f :: (digits ++ List.replicate count 0)) = decimal digits ↔
      count = 0 ∧ ∀ digit ∈ digits.dropLast, digit = 0x30 := by
  have isSum :
      digitSum (0x2f :: (digits ++ List.replicate count 0)) =
        (digits.map fun byte =>
          (byte.toNat : Int).bmod (2 ^ 8) - 0x30).sum - 0x30 * count := by
    have isZero : ((0 : UInt8).toNat : Int).bmod (2 ^ 8) - 0x30 = -0x30 := by
      decide
    rw [digitSum, List.drop_one, List.tail_cons, List.map_append,
      List.sum_append, List.map_replicate, isZero, List.sum_replicate]
    simp
    ring
  rw [isSum]
  rcases List.eq_nil_or_concat digits with rfl | ⟨init, last, rfl⟩
  · simp [decimal]
  · rw [List.concat_eq_append] at areDigits ⊢
    obtain ⟨isValue, _⟩ :=
      (areDigits last (List.mem_append_right _
        (List.mem_singleton_self _))).value
    obtain ⟨notNegative, notAbove, allZero⟩ :=
      sum_le_decimal fun digit isMember =>
        areDigits digit (List.mem_append_left _ isMember)
    rw [List.map_append, List.sum_append, List.map_singleton,
      List.sum_singleton, decimal_concat, List.dropLast_concat, ← allZero,
      isValue]
    omega

/-- The digits of a padded field add up to their number. -/
theorem IsPadded.digitSum_eq
    {field : List UInt8} (isPadded : IsPadded field) (isLong : IsLong field)
    (isField : field.length = 8) :
    digitSum field = decimal (digitsOf field) := by
  obtain ⟨isSeven, allZero⟩ := isPadded
  have isAll : digitsOf field = field.drop 1 := by
    refine (List.takeWhile_prefix _).eq_of_length ?_
    rw [List.length_drop, isField]
    exact isSeven
  have isSplit : field = 0x2f :: (digitsOf field ++ List.replicate 0 0) := by
    obtain ⟨rest, rfl⟩ := List.head?_eq_some_iff.mp isLong.1
    rw [isAll, List.replicate_zero, List.append_nil]
    rfl
  have isSum :=
    (digitSum_eq_decimal_iff isLong.2.2 0).mpr ⟨rfl, allZero⟩
  rwa [← isSplit] at isSum

/-! ## The name of a header -/

/-- `char_to_digit` adds up the bytes behind the slash. -/
theorem charToDigit_eq (mem : Memory) (isec : Nat) :
    mem.charToDigit isec = digitSum (load mem.bytes isec 8) := by
  have backwards :
      mem.charToDigit isec =
        ((List.range 7).map fun i => mem.digitAt (isec + 7 - i)).sum := rfl
  have forwards :
      digitSum (load mem.bytes isec 8) =
        ((List.range 7).map fun i => mem.digitAt (isec + (i + 1))).sum := rfl
  have isReverse :
      ((List.range 7).map fun i => mem.digitAt (isec + 7 - i)).reverse =
        (List.range 7).map fun i => mem.digitAt (isec + (i + 1)) := rfl
  rw [backwards, forwards, ← isReverse, List.sum_reverse]

/-- The first byte of a field. -/
theorem head?_load (bytes : Bytes) (p width : Nat) :
    (load bytes p (width + 1)).head? = some (bytes p) := by
  simp [load, List.range_succ_eq_map]

/-- A name that a padded field refers to is at the sum of the digits. -/
theorem Memory.stringAt_digitSum
    {mem : Memory} {isec : Nat} (isLong : IsLong (load mem.bytes isec 8))
    (isPadded : IsPadded (load mem.bytes isec 8)) (strTableP : Nat) :
    mem.stringAt
        ((strTableP + digitSum (load mem.bytes isec 8)) % 2 ^ 64).toNat =
      mem.headerName isec strTableP := by
  have isField : (load mem.bytes isec 8).length = 8 := by simp [load]
  rw [isPadded.digitSum_eq isLong isField, Memory.headerName, if_pos isLong,
    Memory.tableString, u64]
  exact congrArg mem.stringAt (by omega)

/-- The linker's name of a section is the one of its header when that fits. -/
theorem Text.sectionName_eq_iff (text : Text) (isec strTableP : Nat) :
    text.sectionName isec strTableP = text.headerName isec strTableP ↔
      text.HeaderNameFits isec strTableP := by
  unfold Memory.sectionName Memory.HeaderNameFits
  have isSlash :
      (text.bytes isec).toNat = 0x2f ↔ text.bytes isec = 0x2f := by
    rw [← UInt8.toNat_inj]
    rfl
  by_cases hasSlash : text.bytes isec = 0x2f
  · rw [if_pos (isSlash.mpr hasSlash), if_pos hasSlash, charToDigit_eq]
    constructor
    · exact Or.inr
    · rintro (⟨isLong, isPadded⟩ | isName)
      · exact text.stringAt_digitSum isLong isPadded strTableP
      · exact isName
  · have notLong : ¬ IsLong (load text.bytes isec 8) := by
      rintro ⟨isHead, _⟩
      rw [head?_load] at isHead
      exact hasSlash (Option.some.inj isHead)
    rw [if_neg (mt isSlash.mp hasSlash), if_neg hasSlash,
      Memory.headerName, if_neg notLong, text.stringAt_eq_iff]

/-! ## Filing sections -/

/-- The sections of all objects are read, and nothing else of them. -/
def sectionPass (mem : Memory) (state : State) (bases : List Nat) :
    Option State :=
  bases.foldlM
    (fun state base =>
      runThroughCoffShdr3 mem base { state with allocated := false })
    state

/-- Every section is in the one container of its name. -/
structure State.Files (state : State) (names : List CString) : Prop where
  length : state.sections.length = names.length
  named :
    ∀ sc ∈ state.containers, ∀ id ∈ sc.chain,
      ∃ name, sc.name = some name ∧ names[id]? = some name
  placed :
    ∀ id name, names[id]? = some name →
      ∃ sc ∈ state.containers, sc.name = some name ∧ id ∈ sc.chain
  distinct : (state.containers.map SectionContainer.name).Nodup

/-- No section is filed at the start of the linker. -/
theorem State.files_start : State.Files {} [] where
  length := rfl
  named := by
    intro sc isContainer id inChain
    rw [List.mem_singleton.mp isContainer] at inChain
    exact absurd inChain List.not_mem_nil
  placed := by
    intro id name isName
    cases isName
  distinct := List.nodup_singleton _

/-- A name without a container gets an empty one. -/
theorem State.Files.addSectionContainer
    {state : State} {names : List CString} (files : state.Files names)
    {name : CString} (isNew : matchSection state.containers name = none) :
    (state.addSectionContainer name).Files names where
  length := files.length
  named := by
    intro sc isContainer id inChain
    rcases List.mem_append.mp isContainer with isOld | isLast
    · exact files.named sc isOld id inChain
    · rw [List.mem_singleton.mp isLast] at inChain
      exact absurd inChain List.not_mem_nil
  placed := by
    intro id other isName
    obtain ⟨sc, isContainer, isFiled⟩ := files.placed id other isName
    exact ⟨sc, List.mem_append_left _ isContainer, isFiled⟩
  distinct := by
    have isContainers :
        (state.addSectionContainer name).containers =
          state.containers ++ [{ name := some name }] := rfl
    rw [isContainers, List.map_append, List.map_singleton,
      ← List.concat_eq_append, List.nodup_concat]
    refine ⟨?_, files.distinct⟩
    intro isUsed
    obtain ⟨sc, isContainer, isNamed⟩ := List.mem_map.mp isUsed
    have notNamed :=
      List.findIdx?_eq_none_iff.mp isNew sc isContainer
    exact of_decide_eq_false notNamed isNamed

/-- A section at the end of the container of its name. -/
theorem State.Files.allocSectionChain
    {state : State} {names : List CString} (files : state.Files names)
    {name : CString} {index : Nat}
    (isMatch :
      ∃ sc, state.containers[index]? = some sc ∧ sc.name = some name)
    (p : Nat) :
    (state.allocSectionChain p index).Files (names ++ [name]) := by
  obtain ⟨target, atIndex, isNamed⟩ := isMatch
  have isContainers :
      (state.allocSectionChain p index).containers =
        state.containers.modify index fun container =>
          { container with
            chain := container.chain ++ [state.sections.length] } := rfl
  have oldName :
      ∀ {id : Nat} {other : CString}, names[id]? = some other →
        (names ++ [name])[id]? = some other := by
    intro id other isName
    rw [List.getElem?_append_left (List.getElem?_eq_some_iff.mp isName).1]
    exact isName
  have newName :
      (names ++ [name])[state.sections.length]? = some name := by
    rw [files.length]
    exact List.getElem?_concat_length
  refine
    { length := ?_
      named := ?_
      placed := ?_
      distinct := ?_ }
  · have isSections :
        (state.allocSectionChain p index).sections =
          state.sections ++ [{ p := p }] := rfl
    rw [isSections, List.length_append, List.length_append, files.length]
    rfl
  · intro sc isContainer id inChain
    rw [isContainers] at isContainer
    obtain ⟨k, isAt⟩ := List.mem_iff_getElem?.mp isContainer
    rw [List.getElem?_modify] at isAt
    obtain ⟨old, isOld, rfl⟩ := Option.map_eq_some_iff.mp isAt
    by_cases isHere : index = k
    · subst isHere
      rw [atIndex] at isOld
      cases isOld
      rw [if_pos rfl] at inChain ⊢
      rcases List.mem_append.mp inChain with isEarlier | isLast
      · obtain ⟨other, isOther, isName⟩ :=
          files.named target (List.mem_of_getElem? atIndex) id isEarlier
        exact ⟨other, isOther, oldName isName⟩
      · rw [List.mem_singleton.mp isLast]
        exact ⟨name, isNamed, newName⟩
    · rw [if_neg isHere] at inChain ⊢
      obtain ⟨other, isOther, isName⟩ :=
        files.named old (List.mem_of_getElem? isOld) id inChain
      exact ⟨other, isOther, oldName isName⟩
  · have atNew :
        (state.allocSectionChain p index).containers[index]? =
          some
            { target with chain := target.chain ++ [state.sections.length] } := by
      rw [isContainers, List.getElem?_modify, atIndex]
      simp
    intro id other isName
    rcases Nat.lt_trichotomy id names.length with isOld | isLast | isBehind
    · rw [List.getElem?_append_left isOld] at isName
      obtain ⟨sc, isContainer, isOther, inChain⟩ :=
        files.placed id other isName
      obtain ⟨k, isAt⟩ := List.mem_iff_getElem?.mp isContainer
      by_cases isHere : index = k
      · subst isHere
        rw [atIndex] at isAt
        cases isAt
        exact
          ⟨_, List.mem_of_getElem? atNew, isOther,
            List.mem_append_left _ inChain⟩
      · refine ⟨sc, ?_, isOther, inChain⟩
        apply List.mem_of_getElem? (i := k)
        rw [isContainers, List.getElem?_modify, isAt]
        simp [isHere]
    · subst isLast
      rw [List.getElem?_concat_length] at isName
      cases isName
      refine ⟨_, List.mem_of_getElem? atNew, isNamed, ?_⟩
      rw [files.length]
      exact List.mem_append_right _ (List.mem_singleton_self _)
    · rw [List.getElem?_eq_none (by simp; omega)] at isName
      cases isName
  · have sameNames :
        (state.allocSectionChain p index).containers.map
            SectionContainer.name =
          state.containers.map SectionContainer.name := by
      rw [isContainers]
      apply List.ext_getElem?
      intro k
      rw [List.getElem?_map, List.getElem?_map, List.getElem?_modify]
      cases state.containers[k]? with
      | none => rfl
      | some sc =>
          by_cases isHere : index = k <;> simp [isHere]
    rw [sameNames]
    exact files.distinct

/-- An inserted section is filed under its name. -/
theorem State.Files.insertSection
    {state next : State} {names : List CString} (files : state.Files names)
    {p : Nat} {name : CString}
    (isNext : state.insertSection p name = some next) :
    next.Files (names ++ [name]) := by
  unfold State.insertSection at isNext
  cases isMatch : matchSection state.containers name with
  | none =>
      rw [isMatch] at isNext
      obtain ⟨grown, isGrown, rfl⟩ := Option.map_eq_some_iff.mp isNext
      obtain ⟨_, isGrown⟩ := Option.ite_none_right_eq_some.mp isGrown
      cases isGrown
      exact
        (files.addSectionContainer isMatch).allocSectionChain
          ⟨_, List.getElem?_concat_length, rfl⟩ p
  | some index =>
      rw [isMatch] at isNext
      cases isNext
      exact files.allocSectionChain (getElem?_of_matchSection isMatch) p

/-! ## Reading the sections of all objects -/

/-- An opened object has no sections yet. -/
theorem State.Files.openObject
    {state : State} {names : List CString} (files : state.Files names)
    (mem : Memory) (base : Nat) :
    (state.openObject mem base).Files names := by
  unfold State.openObject
  split_ifs
  · exact files
  · exact ⟨files.length, files.named, files.placed, files.distinct⟩

/-- The sections of an object are filed under the linker's names. -/
theorem State.Files.foldlM
    {mem : Memory} {base : Nat} {addresses : List Nat} {state last : State}
    {names : List CString} (files : state.Files names)
    (ready : state.ReadyFor mem base)
    (isLast :
      addresses.foldlM (coffSectionCallback mem base) state = some last) :
    last.Files
      (names ++
        addresses.map fun isec =>
          mem.sectionName isec (mem.stringTable base)) := by
  induction addresses generalizing state names with
  | nil =>
      cases isLast
      rw [List.map_nil, List.append_nil]
      exact files
  | cons isec rest inductionHypothesis =>
      rw [List.foldlM_cons] at isLast
      obtain ⟨next, isNext, isLast⟩ := Option.bind_eq_some_iff.mp isLast
      have stillReady := ready.callback isNext
      rw [ready.callback_eq] at isNext
      rw [List.map_cons, List.append_cons names]
      exact
        inductionHypothesis
          ((files.openObject mem base).insertSection isNext) stillReady
          isLast

/-- All sections are filed under the linker's names. -/
theorem State.Files.sectionPass
    {mem : Memory} {bases : List Nat} {state final : State}
    {names : List CString} (files : state.Files names)
    (isFinal : sectionPass mem state bases = some final) :
    final.Files
      (names ++
        (mem.sectionEntries bases).map fun entry =>
          mem.sectionName entry.1 entry.2) := by
  induction bases generalizing state names with
  | nil =>
      cases isFinal
      rw [Memory.sectionEntries, List.flatMap_nil, List.map_nil,
        List.append_nil]
      exact files
  | cons base rest inductionHypothesis =>
      unfold CoffObject.sectionPass at isFinal
      rw [List.foldlM_cons] at isFinal
      obtain ⟨next, isNext, isFinal⟩ := Option.bind_eq_some_iff.mp isFinal
      rw [runThroughCoffShdr3_eq] at isNext
      have closed : State.Files { state with allocated := false } names :=
        ⟨files.length, files.named, files.placed, files.distinct⟩
      have first := closed.foldlM (fun isOpen => by cases isOpen) isNext
      have isSplit :
          mem.sectionEntries (base :: rest) =
            ((mem.sectionAddresses base).map fun isec =>
                (isec, mem.stringTable base)) ++
              mem.sectionEntries rest := List.flatMap_cons
      rw [isSplit, List.map_append, List.map_map, ← List.append_assoc]
      exact inductionHypothesis first isFinal

/-- The pass comes to its end exactly when all names fit their lines. -/
theorem State.Logged.exists_sectionPass_iff
    {mem : Memory} {bases : List Nat} {state : State}
    (logged : state.Logged) :
    (∃ final, sectionPass mem state bases = some final) ↔
      ∀ base ∈ bases, mem.SectionsLogged base := by
  induction bases generalizing state with
  | nil =>
      exact
        iff_of_true ⟨state, rfl⟩ fun _ isMember =>
          absurd isMember List.not_mem_nil
  | cons base rest inductionHypothesis =>
      have closed : State.Logged { state with allocated := false } := logged
      have first :
          (∃ next,
            (mem.sectionAddresses base).foldlM (coffSectionCallback mem base)
              { state with allocated := false } = some next) ↔
            mem.SectionsLogged base :=
        closed.foldlM_iff fun isOpen => by cases isOpen
      rw [List.forall_mem_cons]
      unfold sectionPass
      constructor
      · rintro ⟨final, isFinal⟩
        rw [List.foldlM_cons] at isFinal
        obtain ⟨next, isNext, isFinal⟩ := Option.bind_eq_some_iff.mp isFinal
        rw [runThroughCoffShdr3_eq] at isNext
        exact
          ⟨first.mp ⟨next, isNext⟩,
            (inductionHypothesis (closed.foldlM isNext)).mp ⟨final, isFinal⟩⟩
      · rintro ⟨isLogged, restLogged⟩
        obtain ⟨next, isNext⟩ := first.mpr isLogged
        obtain ⟨final, isFinal⟩ :=
          (inductionHypothesis (closed.foldlM isNext)).mpr restLogged
        refine ⟨final, ?_⟩
        rw [List.foldlM_cons, runThroughCoffShdr3_eq, isNext]
        exact isFinal

/-- The lists of sections are the same. -/
structure State.SameSections (state other : State) : Prop where
  sections : other.sections = state.sections
  containers : other.containers = state.containers
  allocated : other.allocated = state.allocated
  strTableP : other.current.strTableP = state.current.strTableP

/-- Sameness goes on from state to state. -/
theorem State.SameSections.trans
    {first second third : State} (earlier : first.SameSections second)
    (later : second.SameSections third) :
    first.SameSections third :=
  ⟨later.sections.trans earlier.sections,
    later.containers.trans earlier.containers,
    later.allocated.trans earlier.allocated,
    later.strTableP.trans earlier.strTableP⟩

/-- Inserting a section looks at these lists only. -/
theorem State.SameSections.insertSection
    {state other next : State} (same : state.SameSections other) {p : Nat}
    {name : CString} (isNext : other.insertSection p name = some next) :
    ∃ passed,
      state.insertSection p name = some passed ∧
        passed.SameSections next := by
  obtain ⟨sections, containers, allocated, strTableP⟩ := same
  unfold State.insertSection at isNext ⊢
  rw [containers] at isNext
  cases isMatch : matchSection state.containers name with
  | none =>
      rw [isMatch] at isNext
      obtain ⟨grown, isGrown, rfl⟩ := Option.map_eq_some_iff.mp isNext
      obtain ⟨isLogged, isGrown⟩ := Option.ite_none_right_eq_some.mp isGrown
      cases isGrown
      refine
        ⟨_, congrArg (Option.map _) (if_pos isLogged), ?_, ?_, allocated,
          strTableP⟩
      · exact congrArg (· ++ [{ p := p }]) sections
      · unfold State.addSectionContainer State.allocSectionChain
        dsimp only
        rw [containers, sections]
  | some index =>
      rw [isMatch] at isNext
      cases isNext
      refine ⟨_, rfl, ?_, ?_, allocated, strTableP⟩
      · exact congrArg (· ++ [{ p := p }]) sections
      · unfold State.allocSectionChain
        dsimp only
        rw [containers, sections]

/-- So does the section callback. -/
theorem State.SameSections.callback
    {mem : Memory} {base isec : Nat} {state other next : State}
    (same : state.SameSections other)
    (isNext : coffSectionCallback mem base other isec = some next) :
    ∃ passed,
      coffSectionCallback mem base state isec = some passed ∧
        passed.SameSections next := by
  have opened :
      (state.openObject mem base).SameSections
        (other.openObject mem base) := by
    unfold State.openObject
    rw [same.allocated]
    split_ifs
    · exact same
    · exact ⟨same.sections, same.containers, rfl, rfl⟩
  unfold coffSectionCallback at isNext ⊢
  dsimp only at isNext ⊢
  rw [opened.strTableP] at isNext
  exact opened.insertSection isNext

/-- The symbol callback leaves the sections alone. -/
theorem sameSections_coffSymtabCallback
    {mem : Memory} {outfileName : CString} {state next : State} {is : Nat}
    (isNext : coffSymtabCallback mem outfileName state is = some next) :
    state.SameSections next := by
  obtain ⟨visited, count, rfl, rfl | ⟨_, isVisited⟩⟩ :=
    visits_of_coffSymtabCallback isNext
  · exact ⟨rfl, rfl, rfl, rfl⟩
  · unfold State.visitRecord at isVisited
    split_ifs at isVisited
    · have exports := (State.exports_of_exportRecord isVisited).2
      exact
        ⟨exports.sections, exports.containers, exports.allocated,
          exports.strTableP⟩
    · cases isVisited
      exact ⟨rfl, rfl, rfl, rfl⟩

/-- Sections are the same after the sections of one more object. -/
theorem State.SameSections.foldlM
    {mem : Memory} {base : Nat} {addresses : List Nat}
    {state other last : State} (same : state.SameSections other)
    (isLast :
      addresses.foldlM (coffSectionCallback mem base) other = some last) :
    ∃ passed,
      addresses.foldlM (coffSectionCallback mem base) state = some passed ∧
        passed.SameSections last := by
  induction addresses generalizing state other with
  | nil =>
      cases isLast
      exact ⟨state, rfl, same⟩
  | cons isec rest inductionHypothesis =>
      rw [List.foldlM_cons] at isLast
      obtain ⟨next, isNext, isLast⟩ := Option.bind_eq_some_iff.mp isLast
      obtain ⟨first, isFirst, isSame⟩ := same.callback isNext
      obtain ⟨passed, isPassed, alsoSame⟩ :=
        inductionHypothesis isSame isLast
      refine ⟨passed, ?_, alsoSame⟩
      rw [List.foldlM_cons, isFirst]
      exact isPassed

/-- Reading whole objects leaves the sections that the section pass leaves. -/
theorem exists_sectionPass_of_readObjects
    {mem : Memory} {outfileName : CString} {state other final : State}
    (same : state.SameSections other) {bases : List Nat}
    (isFinal : readObjects mem outfileName other bases = some final) :
    ∃ passed,
      sectionPass mem state bases = some passed ∧
        passed.SameSections final := by
  induction bases generalizing state other with
  | nil =>
      cases isFinal
      exact ⟨state, rfl, same⟩
  | cons base rest inductionHypothesis =>
      unfold readObjects at isFinal
      rw [List.foldlM_cons] at isFinal
      obtain ⟨next, isNext, isRest⟩ := Option.bind_eq_some_iff.mp isFinal
      unfold readObject at isNext
      obtain ⟨opened, isOpened, isNext⟩ := Option.bind_eq_some_iff.mp isNext
      rw [runThroughCoffShdr3_eq] at isOpened
      have closed :
          State.SameSections { state with allocated := false }
            { other with allocated := false } :=
        ⟨same.sections, same.containers, rfl, same.strTableP⟩
      obtain ⟨first, isFirst, isSame⟩ := closed.foldlM isOpened
      have isRead :=
        CountedLoop.run_keeps
          (fun _ _ _ keeps isSecond =>
            State.SameSections.trans keeps
              (sameSections_coffSymtabCallback isSecond))
          isNext isSame
      obtain ⟨passed, isPassed, alsoSame⟩ := inductionHypothesis isRead isRest
      refine ⟨passed, ?_, alsoSame⟩
      unfold sectionPass
      rw [List.foldlM_cons, runThroughCoffShdr3_eq, isFirst]
      exact isPassed

/-! ## What is right about the containers -/

/-- Two sections are in one container. -/
def State.Share (state : State) (id other : Nat) : Prop :=
  ∃ sc ∈ state.containers, id ∈ sc.chain ∧ other ∈ sc.chain

/--
Every section is filed under the name of its header, and sections share a
container exactly when their names are equal.
-/
structure FilesRight
    (mem : Memory) (bases : List Nat) (final : State) : Prop where
  filed :
    ∀ id isec strTableP,
      (mem.sectionEntries bases)[id]? = some (isec, strTableP) →
        ∃ sc ∈ final.containers,
          id ∈ sc.chain ∧ sc.name = some (mem.headerName isec strTableP)
  shared :
    ∀ id isec strTableP other otherIsec otherTable,
      (mem.sectionEntries bases)[id]? = some (isec, strTableP) →
        (mem.sectionEntries bases)[other]? = some (otherIsec, otherTable) →
          (final.Share id other ↔
            mem.headerName isec strTableP =
              mem.headerName otherIsec otherTable)

/-- Sections with names share a container when the names are equal. -/
theorem State.Files.share_iff
    {state : State} {names : List CString} (files : state.Files names)
    {id other : Nat} {name otherName : CString}
    (isName : names[id]? = some name)
    (isOther : names[other]? = some otherName) :
    state.Share id other ↔ name = otherName := by
  constructor
  · rintro ⟨sc, isContainer, inChain, alsoInChain⟩
    obtain ⟨first, isFirst, atId⟩ := files.named sc isContainer id inChain
    obtain ⟨second, isSecond, atOther⟩ :=
      files.named sc isContainer other alsoInChain
    rw [isName] at atId
    rw [isOther] at atOther
    rw [isFirst] at isSecond
    cases atId
    cases atOther
    exact Option.some.inj isSecond
  · rintro rfl
    obtain ⟨sc, isContainer, isNamed, inChain⟩ := files.placed id name isName
    obtain ⟨twin, isTwin, twinNamed, inTwin⟩ :=
      files.placed other name isOther
    have isSame : sc = twin :=
      List.inj_on_of_nodup_map files.distinct isContainer isTwin
        (isNamed.trans twinNamed.symm)
    subst isSame
    exact ⟨sc, isContainer, inChain, inTwin⟩

/-- A section that is filed right has a name that fits. -/
theorem headerNameFits_of_filesRight
    {text : Text} {bases : List Nat} {final : State}
    (isFinal : sectionPass text.toMemory {} bases = some final)
    (right : FilesRight text.toMemory bases final) {entry : Nat × Nat}
    (isMember : entry ∈ text.sectionEntries bases) :
    text.HeaderNameFits entry.1 entry.2 := by
  have files := State.files_start.sectionPass isFinal
  obtain ⟨isec, strTableP⟩ := entry
  obtain ⟨id, isEntry⟩ := List.mem_iff_getElem?.mp isMember
  obtain ⟨sc, isContainer, inChain, isHeader⟩ :=
    right.filed id isec strTableP isEntry
  obtain ⟨name, isNamed, atId⟩ := files.named sc isContainer id inChain
  rw [List.nil_append, List.getElem?_map, isEntry] at atId
  cases atId
  rw [isNamed] at isHeader
  exact (text.sectionName_eq_iff isec strTableP).mp (Option.some.inj isHeader)

/-- The names of all objects' sections, one by one. -/
theorem forall_sectionsLogged_iff (mem : Memory) (bases : List Nat) :
    (∀ base ∈ bases, mem.SectionsLogged base) ↔
      ∀ entry ∈ mem.sectionEntries bases,
        IsLogged (sectionContainerLine (mem.sectionName entry.1 entry.2)) := by
  unfold Memory.sectionEntries Memory.SectionsLogged
  rw [List.forall_mem_flatMap]
  simp only [List.forall_mem_map]

/--
The sections of all objects are filed under the names of their headers, and
merged by them, exactly when every header's name fits its field and the line
about a new container.
-/
theorem filesRight_iff_namesFit (text : Text) (bases : List Nat) :
    (∃ final,
      sectionPass text.toMemory {} bases = some final ∧
        FilesRight text.toMemory bases final) ↔
      ∀ entry ∈ text.sectionEntries bases,
        text.HeaderNameFits entry.1 entry.2 ∧
          (text.headerName entry.1 entry.2).length < 55 := by
  have passes :
      (∃ final, sectionPass text.toMemory {} bases = some final) ↔
        ∀ entry ∈ text.sectionEntries bases,
          IsLogged
            (sectionContainerLine (text.sectionName entry.1 entry.2)) :=
    State.logged_start.exists_sectionPass_iff.trans
      (forall_sectionsLogged_iff text.toMemory bases)
  constructor
  · rintro ⟨final, isFinal, right⟩ entry isMember
    have fits := headerNameFits_of_filesRight isFinal right isMember
    refine ⟨fits, ?_⟩
    rw [← isLogged_sectionContainerLine_iff,
      ← (text.sectionName_eq_iff _ _).mpr fits]
    exact passes.mp ⟨final, isFinal⟩ entry isMember
  · intro fits
    have isName :
        ∀ {entry : Nat × Nat}, entry ∈ text.sectionEntries bases →
          text.sectionName entry.1 entry.2 =
            text.headerName entry.1 entry.2 :=
      fun isMember =>
        (text.sectionName_eq_iff _ _).mpr (fits _ isMember).1
    obtain ⟨final, isFinal⟩ :=
      passes.mpr fun entry isMember => by
        rw [isName isMember, isLogged_sectionContainerLine_iff]
        exact (fits entry isMember).2
    have files := State.files_start.sectionPass isFinal
    rw [List.nil_append] at files
    have nameOf :
        ∀ {id : Nat} {isec strTableP : Nat},
          (text.sectionEntries bases)[id]? = some (isec, strTableP) →
            ((text.sectionEntries bases).map fun entry =>
                text.sectionName entry.1 entry.2)[id]? =
              some (text.headerName isec strTableP) := by
      intro id isec strTableP isEntry
      rw [List.getElem?_map, isEntry]
      exact congrArg some (isName (List.mem_of_getElem? isEntry))
    refine ⟨final, isFinal, ?_, ?_⟩
    · intro id isec strTableP isEntry
      obtain ⟨sc, isContainer, isNamed, inChain⟩ :=
        files.placed id _ (nameOf isEntry)
      exact ⟨sc, isContainer, inChain, isNamed⟩
    · intro id isec strTableP other otherIsec otherTable isEntry isOther
      exact files.share_iff (nameOf isEntry) (nameOf isOther)

/-- An object with a section whose name is the string at the offset 4. -/
def longNameObject : Text :=
  .ofBytes
    (objectFile [("/4", 0)] [] ++ (CString.ofString ".text$mn").bytes ++ [0])

/-- The terminators behind the one digit are counted, too. -/
theorem not_filesRight_longNameObject :
    ¬ ∃ final,
        sectionPass longNameObject.toMemory {} [0] = some final ∧
          FilesRight longNameObject.toMemory [0] final := by
  rintro ⟨final, isFinal, right⟩
  have isEntry : (20, 60) ∈ longNameObject.sectionEntries [0] := by
    decide +kernel
  have fits := headerNameFits_of_filesRight isFinal right isEntry
  revert fits
  decide +kernel

end BinTools.CoffObject
