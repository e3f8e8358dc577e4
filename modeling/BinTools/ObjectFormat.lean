import BinTools.ByteBuffer
import Mathlib.Data.List.GetD

namespace BinTools.ObjectFormat

open ByteBuffer (Bytes store load loadWord ofLittleEndian)

/-!
# Detecting the format of a file

`__z__obj__detect_format` looks at the first bytes of a file and then, one after
another, asks four checks.  They share the position of the descriptor, and each
stores a size if the caller gave it a pointer.
-/

/-- `enum OBJECT_FORMAT` -/
inductive Format where
  | none
  | elf32
  | elf64
  | macho32
  | macho64
  | pe32
  | pe64
  | coffI386
  | coffAmd64
  deriving DecidableEq, Repr

/-- An open file with its position. -/
structure Descriptor where
  content : List UInt8
  position : Nat
  deriving DecidableEq, Repr

/-- The values that `SEEK_SET` and `SEEK_CUR` stand for. -/
inductive Whence where
  | set
  | cur
  deriving DecidableEq, Repr

/-- `__os__read`: the bytes that are left, up to a length. -/
def Descriptor.read (fd : Descriptor) (len : Nat) :
    List UInt8 × Descriptor :=
  ((fd.content.drop fd.position).take len,
    { fd with
      position :=
        fd.position + ((fd.content.drop fd.position).take len).length })

/-- `__os__lseek`: it fails in front of the file only. -/
def Descriptor.lseek (fd : Descriptor) (offset : Int) (whence : Whence) :
    Option Descriptor :=
  let position : Int :=
    match whence with
    | .set => offset
    | .cur => fd.position + offset
  if position < 0 then
    none
  else
    some { fd with position := position.toNat }

/-- What the local variables hold before something is read into them. -/
structure Locals where
  ehdr : Bytes
  mh : Bytes
  eLfanew : Bytes
  signature : Bytes
  machineT : Bytes
  numberOfSections : Bytes

/-- A value stored through a `uint32_t*`. -/
def u32 (value : Nat) : Nat :=
  value % 2 ^ 32

/-- `sizeof(Elf32_Ehdr)`, `sizeof(Elf32_Phdr)` and so on. -/
def sizeofElf32Ehdr : Nat := 52
def sizeofElf32Phdr : Nat := 32
def sizeofElf64Ehdr : Nat := 64
def sizeofElf64Phdr : Nat := 56
def sizeofMachHeader : Nat := 28
def sizeofMachHeader64 : Nat := 32
def sizeofSectionHeader : Nat := 40
def sizeofNtHeaders32 : Nat := 248
def sizeofNtHeaders64 : Nat := 264

/-! ## The checks -/

/-- The bytes that every ELF file starts with. -/
def isElf (e : Bytes) : Bool :=
  e 0 = 0x7f ∧ e 1 = 0x45 ∧ e 2 = 0x4c ∧ e 3 = 0x46

/-- `check_elf`; the size is a null pointer or what the pointer leads to. -/
def checkElf (locals : Locals) (fd : Descriptor) (e : Bytes)
    (size : Option Nat) : Format × Descriptor × Option Nat :=
  if isElf e then
    let (byte, fd) := fd.read 1
    if byte = [] then
      (.none, fd, size)
    else
      match fd.lseek 0 .set with
      | none => (.none, fd, size)
      | some fd =>
          if byte = [1] then
            let (bytes, fd) := fd.read sizeofElf32Ehdr
            let ehdr := store locals.ehdr 0 bytes
            if bytes = [] then
              (.none, fd, size)
            else
              (.elf32, fd,
                size.map fun _ =>
                  u32 (loadWord 4 ehdr 28 +
                    loadWord 2 ehdr 44 * sizeofElf32Phdr))
          else if byte = [2] then
            let (bytes, fd) := fd.read sizeofElf64Ehdr
            let ehdr := store locals.ehdr 0 bytes
            if bytes = [] then
              (.none, fd, size)
            else
              (.elf64, fd,
                size.map fun _ =>
                  u32 (loadWord 8 ehdr 32 +
                    loadWord 2 ehdr 56 * sizeofElf64Phdr))
          else
            (.none, fd, size)
  else
    (.none, fd, size)

/-- `MH_MAGIC` -/
def mhMagic : Nat := 0xfeedface

/-- `MH_MAGIC_64` -/
def mhMagic64 : Nat := 0xfeedfacf

/-- A branch of `check_macho`; the store through a null pointer is a fault. -/
def readMachHeader (locals : Locals) (fd : Descriptor) (format : Format)
    (sizeofHeader : Nat) (size : Option Nat) :
    Option (Format × Descriptor × Option Nat) :=
  let (bytes, fd) := fd.read sizeofHeader
  let mh := store locals.mh 0 bytes
  size.map fun _ =>
    (format, fd, some (u32 (loadWord 4 mh 20 + sizeofHeader)))

/-- `check_macho` -/
def checkMacho (locals : Locals) (fd : Descriptor) (p : Bytes)
    (size : Option Nat) : Option (Format × Descriptor × Option Nat) :=
  if loadWord 4 p 0 = mhMagic then
    readMachHeader locals fd .macho32 sizeofMachHeader size
  else if loadWord 4 p 0 = mhMagic64 then
    readMachHeader locals fd .macho64 sizeofMachHeader64 size
  else
    some (.none, fd, size)

/-- Read a word into a local variable; nothing read is an error. -/
def readWord (width : Nat) (buffer : Bytes) (fd : Descriptor) :
    Option (Nat × Descriptor) :=
  let (bytes, fd) := fd.read width
  if bytes = [] then
    none
  else
    some (loadWord width (store buffer 0 bytes) 0, fd)

/-- What `check_pe` reads. -/
structure PeHeader where
  eLfanew : Nat
  machineT : Nat
  numberOfSections : Nat

/-- The part of `check_pe` that reads; `none` is `goto error`. -/
def readPeHeader (locals : Locals) (fd : Descriptor) : Option PeHeader :=
  (fd.lseek (0x3c - 0x04) .cur).bind fun fd =>
    (readWord 4 locals.eLfanew fd).bind fun (eLfanew, fd) =>
      (fd.lseek ((eLfanew : Int).bmod (2 ^ 32)) .set).bind fun fd =>
        (readWord 4 locals.signature fd).bind fun (signature, fd) =>
          if signature ≠ 0x4550 then
            none
          else
            (readWord 2 locals.machineT fd).bind fun (machineT, fd) =>
              (readWord 2 locals.numberOfSections fd).map
                fun (numberOfSections, _) =>
                  { eLfanew := eLfanew
                    machineT := machineT
                    numberOfSections := numberOfSections }

/-- The formats by the machine, at the end of `check_pe`. -/
def peFormat (machineT : Nat) : Format :=
  if machineT = 0x14c then .pe32
  else if machineT = 0x8664 then .pe64
  else .none

/-- `check_pe`; nothing is read from the descriptor after it. -/
def checkPe (locals : Locals) (fd : Descriptor) (p : Bytes)
    (size : Option Nat) : Format × Option Nat :=
  if loadWord 2 p 0 = 0x5a4d then
    match readPeHeader locals fd with
    | none => (.none, size)
    | some header =>
        match size with
        | none => (peFormat header.machineT, none)
        | some old =>
            let _size :=
              0x40 + header.eLfanew + 0x18 +
                header.numberOfSections * sizeofSectionHeader
            if header.machineT = 0x86 then
              (peFormat header.machineT,
                some (u32 (u32 _size + sizeofNtHeaders32)))
            else if header.machineT = 0x8664 then
              (.pe64, some (u32 (u32 _size + sizeofNtHeaders64)))
            else
              (.none, some old)
  else
    (.none, size)

/-- `check_coff` -/
def checkCoff (p : Bytes) : Format :=
  if loadWord 2 p 0 = 0x8664 then .coffAmd64
  else if loadWord 2 p 0 = 0x14c then .coffI386
  else .none

/--
`__z__obj__detect_format` on a freshly opened descriptor: the format, and what
the size pointer leads to then.
-/
def detectFormat (locals : Locals) (content : List UInt8)
    (hSize : Option Nat) : Option (Format × Option Nat) :=
  let (bytes, fd) := (Descriptor.mk content 0).read 4
  let p := store (fun _ => 0) 0 bytes
  match checkElf locals fd p hSize with
  | (.none, fd, hSize) =>
      (checkMacho locals fd p hSize).map fun
        | (.none, fd, hSize) =>
            match checkPe locals fd p hSize with
            | (.none, hSize) => (checkCoff p, hSize)
            | (o, hSize) => (o, hSize)
        | (o, _, hSize) => (o, hSize)
  | (o, _, hSize) => some (o, hSize)

/-! ## What the file says -/

/-- The file starts like a Mach-O file. -/
def StartsMacho (content : List UInt8) : Prop :=
  [0xce, 0xfa, 0xed, 0xfe] <+: content ∨ [0xcf, 0xfa, 0xed, 0xfe] <+: content

instance (content : List UInt8) : Decidable (StartsMacho content) :=
  inferInstanceAs (Decidable (_ ∨ _))

/--
Where a DOS header leads to; when the file ends within the field, a local
variable completes it.
-/
def ntOffset (locals : Locals) (content : List UInt8) : Nat :=
  loadWord 4 (store locals.eLfanew 0 ((content.drop 0x3c).take 4)) 0

/-- The machine of a PE file. -/
def peMachine (locals : Locals) (content : List UInt8) : Option Nat :=
  let offset := ntOffset locals content
  if [0x4d, 0x5a] <+: content ∧ 0x3c < content.length ∧ offset < 2 ^ 31 ∧
      [0x50, 0x45, 0, 0] <+: content.drop offset ∧
        offset + 6 < content.length then
    some (ofLittleEndian ((content.drop (offset + 4)).take 2))
  else
    none

/--
Without and with a pointer for the size, the format is the same, and the call
without the pointer does not store through it.
-/
def SameFormat
    (first second : Locals) (content : List UInt8) (old : Nat) : Prop :=
  ∃ format size,
    detectFormat first content none = some (format, none) ∧
      detectFormat second content (some old) = some (format, size)

/-! ## The first bytes -/

/-- The first four bytes of a file, with zeros for those that are missing. -/
def firstBytes (content : List UInt8) : Bytes :=
  store (fun _ => 0) 0 (content.take 4)

/-- The first bytes are compared with a number by comparing bytes. -/
theorem loadWord_firstBytes_iff
    {magic content : List UInt8} (isShort : magic.length ≤ 4)
    (lastNonzero : ∃ byte ∈ magic.getLast?, byte ≠ 0) :
    loadWord magic.length (firstBytes content) 0 = ofLittleEndian magic ↔
      magic <+: content := by
  have byteAt :
      ∀ index, index < 4 →
        firstBytes content index = content.getD index 0 := by
    intro index isFirst
    simp [firstBytes, store, isFirst, List.getD_eq_getElem?_getD]
  have isLoaded :
      loadWord magic.length (firstBytes content) 0 = ofLittleEndian magic ↔
        ∀ index (inRange : index < magic.length),
          content.getD index 0 = magic[index] := by
    constructor
    · intro same index inRange
      have isMagic :=
        ByteBuffer.ofLittleEndian_inj (by simp [load]) same
      have atIndex := congrArg (·[index]?) isMagic
      simp only [load, Nat.zero_add, List.getElem?_map,
        List.getElem?_range inRange, Option.map_some,
        List.getElem?_eq_getElem inRange] at atIndex
      rw [← byteAt index (by omega)]
      exact Option.some.inj atIndex
    · intro same
      apply congrArg ofLittleEndian
      apply List.ext_getElem
      · simp [load]
      · intro index _ inRange
        simp only [load, Nat.zero_add, List.getElem_map,
          List.getElem_range]
        rw [byteAt index (by omega), same index inRange]
  rw [isLoaded]
  constructor
  · intro same
    obtain ⟨byte, isLast, nonzero⟩ := lastNonzero
    have isLong : magic.length ≤ content.length := by
      by_contra isShorter
      obtain ⟨front, rfl⟩ := List.getLast?_eq_some_iff.mp isLast
      have atLast := same front.length (by simp)
      rw [List.length_append, List.length_singleton] at isShorter
      rw [List.getD_eq_default _ _ (by omega)] at atLast
      simp at atLast
      exact nonzero atLast.symm
    rw [List.prefix_iff_eq_take]
    apply List.ext_getElem
    · simp [isLong]
    · intro index inRange _
      have isByte := same index inRange
      rw [List.getD_eq_getElem _ _ (by omega)] at isByte
      simp [isByte]
  · rintro ⟨rest, rfl⟩ index inRange
    rw [List.getD_eq_getElem _ _ (by simp; omega),
      List.getElem_append_left inRange]

/-! ## The PE header -/

/-- A word is read as long as there is a byte left. -/
theorem readWord_eq
    {width : Nat} (isWord : 0 < width) (buffer : Bytes)
    (content : List UInt8) (position : Nat) :
    readWord width buffer ⟨content, position⟩ =
      if position < content.length then
        some
          (loadWord width
            (store buffer 0 ((content.drop position).take width)) 0,
            ⟨content, position + min width (content.length - position)⟩)
      else
        none := by
  unfold readWord Descriptor.read
  by_cases isLeft : position < content.length
  · have isSome : (content.drop position).take width ≠ [] := by
      apply List.ne_nil_of_length_pos
      simp
      omega
    rw [if_pos isLeft]
    simp [isSome]
  · have isNone : (content.drop position).take width = [] := by
      simp [List.drop_eq_nil_of_le (Nat.not_lt.mp isLeft)]
    rw [if_neg isLeft]
    simp [isNone]

/-- A word that is all there does not depend on what it is read into. -/
theorem loadWord_store_take
    {width : Nat} {content : List UInt8} {position : Nat}
    (isThere : position + width ≤ content.length) (buffer : Bytes) :
    loadWord width (store buffer 0 ((content.drop position).take width)) 0 =
      ofLittleEndian ((content.drop position).take width) := by
  have isLength : ((content.drop position).take width).length = width := by
    simp
    omega
  have isRead :=
    ByteBuffer.load_store buffer 0 ((content.drop position).take width)
  rw [isLength] at isRead
  exact congrArg ofLittleEndian isRead

/-- The position behind a word that is all there. -/
theorem min_add_of_le {position width length : Nat}
    (isThere : position + width ≤ length) :
    position + min width (length - position) = position + width := by
  omega

/-- Going to a position of the file. -/
theorem lseek_set {fd : Descriptor} {offset : Nat} (isInt : offset < 2 ^ 31) :
    fd.lseek ((offset : Int).bmod (2 ^ 32)) .set =
      some ⟨fd.content, offset⟩ := by
  have isSame : (offset : Int).bmod (2 ^ 32) = offset := by
    rw [Int.bmod_eq_of_le] <;> omega
  rw [isSame]
  unfold Descriptor.lseek
  simp

/-- An offset that is negative as an `int` is refused. -/
theorem lseek_eq_none
    {fd : Descriptor} {offset : Nat} (isWord : offset < 2 ^ 32)
    (notInt : ¬ offset < 2 ^ 31) :
    fd.lseek ((offset : Int).bmod (2 ^ 32)) .set = none := by
  have isNegative : (offset : Int).bmod (2 ^ 32) < 0 := by
    rw [Int.bmod_def]
    split_ifs <;> omega
  unfold Descriptor.lseek
  exact if_pos isNegative

/-- The signature is read right where four bytes are left. -/
theorem signature_iff
    {content : List UInt8} {offset : Nat}
    (isThere : offset + 4 ≤ content.length) (buffer : Bytes) :
    loadWord 4 (store buffer 0 ((content.drop offset).take 4)) 0 = 0x4550 ↔
      [0x50, 0x45, 0, 0] <+: content.drop offset := by
  have isNumber : ofLittleEndian [0x50, 0x45, 0, 0] = 0x4550 := by decide
  rw [loadWord_store_take isThere, List.prefix_iff_eq_take, ← isNumber]
  constructor
  · intro same
    exact (ByteBuffer.ofLittleEndian_inj (by simp; omega) same).symm
  · intro same
    exact congrArg ofLittleEndian same.symm

/-- The machine that `check_pe` reads is the one of the file. -/
theorem machineT_readPeHeader
    (locals : Locals) {content : List UInt8}
    (isDos : [0x4d, 0x5a] <+: content) :
    (readPeHeader locals ⟨content, (content.take 4).length⟩).map
        PeHeader.machineT =
      peMachine locals content := by
  have isSought :
      Descriptor.lseek ⟨content, (content.take 4).length⟩ (0x3c - 0x04)
          .cur =
        some ⟨content, (content.take 4).length + 0x38⟩ := by
    unfold Descriptor.lseek
    dsimp only
    rw [if_neg (by omega)]
    congr 2
  unfold readPeHeader peMachine
  rw [isSought, Option.bind_some]
  by_cases isLong : 0x3c < content.length
  · have isField : (content.take 4).length + 0x38 = 0x3c := by
      rw [List.length_take]
      omega
    rw [isField, readWord_eq (by decide), if_pos isLong, Option.bind_some]
    have isOffset :
        loadWord 4 (store locals.eLfanew 0 ((content.drop 0x3c).take 4)) 0 =
          ntOffset locals content := rfl
    have isWord : ntOffset locals content < 2 ^ 32 :=
      ByteBuffer.loadWord_lt 4 _ 0
    dsimp only
    rw [isOffset]
    generalize ntOffset locals content = offset at isWord
    by_cases isInt : offset < 2 ^ 31
    · rw [lseek_set isInt, Option.bind_some, readWord_eq (by decide)]
      dsimp only
      by_cases isInside : offset + 6 < content.length
      · have isThere : offset + 4 ≤ content.length := by omega
        rw [if_pos (by omega), Option.bind_some,
          min_add_of_le isThere]
        dsimp only
        have isIff := signature_iff isThere locals.signature
        by_cases isPe : [0x50, 0x45, 0, 0] <+: content.drop offset
        · rw [isIff.mpr isPe, if_neg (by decide), readWord_eq (by decide),
            if_pos (by omega), Option.bind_some,
            min_add_of_le (by omega), readWord_eq (by decide),
            if_pos (by omega), loadWord_store_take (by omega),
            if_pos ⟨isDos, isLong, isInt, isPe, isInside⟩]
          rfl
        · rw [if_pos (mt isIff.mp isPe),
            if_neg fun all => isPe all.2.2.2.1]
          rfl
      · rw [if_neg fun all : _ ∧ _ ∧ _ ∧ _ ∧ _ => isInside all.2.2.2.2]
        by_cases hasSignature : offset < content.length
        · rw [if_pos hasSignature, Option.bind_some]
          dsimp only
          split_ifs with isOther
          · rfl
          · rw [readWord_eq (by decide)]
            by_cases hasMachine :
                offset + min 4 (content.length - offset) < content.length
            · rw [if_pos hasMachine, Option.bind_some,
                readWord_eq (by decide), if_neg (by omega)]
              rfl
            · rw [if_neg hasMachine]
              rfl
        · rw [if_neg hasSignature]
          rfl
    · rw [lseek_eq_none isWord isInt, if_neg fun all => isInt all.2.2.1]
      rfl
  · have isBehind :
        ¬ (content.take 4).length + 0x38 < content.length := by
      rw [List.length_take]
      omega
    rw [readWord_eq (by decide), if_neg isBehind,
      if_neg fun all => isLong all.2.1]
    rfl

/-! ## The checks one after another -/

/-- The magic numbers of Mach-O are compared with the first bytes. -/
theorem startsMacho_iff (content : List UInt8) :
    StartsMacho content ↔
      loadWord 4 (firstBytes content) 0 = mhMagic ∨
        loadWord 4 (firstBytes content) 0 = mhMagic64 := by
  have isMagic : ofLittleEndian [0xce, 0xfa, 0xed, 0xfe] = mhMagic := by
    decide
  have isMagic64 : ofLittleEndian [0xcf, 0xfa, 0xed, 0xfe] = mhMagic64 := by
    decide
  rw [StartsMacho, ← isMagic, ← isMagic64]
  exact
    or_congr
      (loadWord_firstBytes_iff (by decide) ⟨0xfe, rfl, by decide⟩).symm
      (loadWord_firstBytes_iff (by decide) ⟨0xfe, rfl, by decide⟩).symm

/-- So is the one of DOS files. -/
theorem startsDos_iff (content : List UInt8) :
    [0x4d, 0x5a] <+: content ↔
      loadWord 2 (firstBytes content) 0 = 0x5a4d := by
  have isMagic : ofLittleEndian [0x4d, 0x5a] = 0x5a4d := by decide
  rw [← isMagic]
  exact
    (loadWord_firstBytes_iff (by decide) ⟨0x5a, rfl, by decide⟩).symm

/-- The words at the start of an ELF file. -/
theorem words_of_isElf {p : Bytes} (isElfFile : isElf p = true) :
    loadWord 2 p 0 = 0x457f ∧ loadWord 4 p 0 = 0x464c457f := by
  obtain ⟨first, second, third, fourth⟩ := of_decide_eq_true isElfFile
  simp [loadWord, load, List.range_succ, ofLittleEndian, first, second, third,
    fourth]

/-- The ELF check stores a size only if there is a pointer. -/
theorem exists_checkElf (fd : Descriptor) (e : Bytes) :
    ∃ format later, ∀ locals size, ∃ stored,
      checkElf locals fd e size = (format, later, stored) ∧
        (size = none → stored = none) := by
  unfold checkElf
  by_cases isElfFile : isElf e = true
  · simp only [if_pos isElfFile]
    obtain ⟨byte, next⟩ := fd.read 1
    dsimp only
    by_cases isEmpty : byte = []
    · simp only [if_pos isEmpty]
      exact ⟨_, _, fun _ size => ⟨size, rfl, id⟩⟩
    · simp only [if_neg isEmpty]
      cases next.lseek 0 .set with
      | none => exact ⟨_, _, fun _ size => ⟨size, rfl, id⟩⟩
      | some later =>
          dsimp only
          split_ifs
          · exact ⟨_, _, fun _ size => ⟨size, rfl, id⟩⟩
          · exact
              ⟨_, _, fun _ size => ⟨_, rfl, fun isNull => by rw [isNull]; rfl⟩⟩
          · exact ⟨_, _, fun _ size => ⟨size, rfl, id⟩⟩
          · exact
              ⟨_, _, fun _ size => ⟨_, rfl, fun isNull => by rw [isNull]; rfl⟩⟩
          · exact ⟨_, _, fun _ size => ⟨size, rfl, id⟩⟩
  · simp only [if_neg isElfFile]
    exact ⟨_, _, fun _ size => ⟨size, rfl, id⟩⟩

/-- The checks behind the one for ELF. -/
def detectFurther (locals : Locals) (fd : Descriptor) (p : Bytes)
    (hSize : Option Nat) : Option (Format × Option Nat) :=
  (checkMacho locals fd p hSize).map fun
    | (.none, fd, hSize) =>
        match checkPe locals fd p hSize with
        | (.none, hSize) => (checkCoff p, hSize)
        | (o, hSize) => (o, hSize)
    | (o, _, hSize) => (o, hSize)

/-- The checks, with the first bytes read. -/
theorem detectFormat_eq
    (locals : Locals) (content : List UInt8) (hSize : Option Nat) :
    detectFormat locals content hSize =
      match
        checkElf locals ⟨content, (content.take 4).length⟩
          (firstBytes content) hSize with
      | (.none, fd, hSize) =>
          detectFurther locals fd (firstBytes content) hSize
      | (o, _, hSize) => some (o, hSize) := by
  unfold detectFormat
  simp only [Descriptor.read, List.drop_zero, Nat.zero_add]
  rfl

/-- An ELF file is known by the first check, or is of no known format. -/
theorem exists_detectFormat_of_isElf
    {content : List UInt8} (isElfFile : isElf (firstBytes content) = true) :
    ∃ format, ∀ locals size, ∃ stored,
      detectFormat locals content size = some (format, stored) ∧
        (size = none → stored = none) := by
  obtain ⟨two, four⟩ := words_of_isElf isElfFile
  obtain ⟨format, later, checked⟩ :=
    exists_checkElf ⟨content, (content.take 4).length⟩ (firstBytes content)
  have further :
      ∀ locals size,
        detectFurther locals later (firstBytes content) size =
          some (.none, size) := by
    intro locals size
    simp [detectFurther, checkMacho, checkPe, checkCoff, two, four, mhMagic,
      mhMagic64]
  refine ⟨format, fun locals size => ?_⟩
  obtain ⟨stored, isChecked, isNull⟩ := checked locals size
  refine ⟨stored, ?_, isNull⟩
  rw [detectFormat_eq, isChecked]
  cases format with
  | none => exact further locals stored
  | elf32 | elf64 | macho32 | macho64 | pe32 | pe64 | coffI386 | coffAmd64 =>
      rfl

/-- Other files are left to the further checks. -/
theorem detectFormat_of_not_isElf
    (locals : Locals) {content : List UInt8} (size : Option Nat)
    (notElf : ¬ isElf (firstBytes content) = true) :
    detectFormat locals content size =
      detectFurther locals ⟨content, (content.take 4).length⟩
        (firstBytes content) size := by
  rw [detectFormat_eq, checkElf, if_neg notElf]

/-- The format that a PE file has when no size is asked for. -/
def machineFormat (machine : Option Nat) : Format :=
  if machine = some 0x14c then .pe32
  else if machine = some 0x8664 then .pe64
  else .none

/-- The format that a PE file has when a size is asked for. -/
def sizedFormat (machine : Option Nat) : Format :=
  if machine = some 0x8664 then .pe64 else .none

/-- The further checks on a file that starts like a DOS file. -/
theorem detectFurther_of_dos
    (locals : Locals) {content : List UInt8}
    (isDos : [0x4d, 0x5a] <+: content) :
    detectFurther locals ⟨content, (content.take 4).length⟩
          (firstBytes content) none =
        some (machineFormat (peMachine locals content), none) ∧
      ∀ old, ∃ stored,
        detectFurther locals ⟨content, (content.take 4).length⟩
            (firstBytes content) (some old) =
          some (sizedFormat (peMachine locals content), stored) := by
  have isWord := (startsDos_iff content).mp isDos
  have notMacho : ¬ StartsMacho content := by
    rintro (isMacho | isMacho) <;>
      exact absurd (List.prefix_of_prefix_length_le isDos isMacho (by simp)) (by decide)
  have notMagic := mt (startsMacho_iff content).mpr notMacho
  rw [not_or] at notMagic
  have noCoff : checkCoff (firstBytes content) = .none := by
    simp [checkCoff, isWord]
  have isMachine := machineT_readPeHeader locals isDos
  simp only [detectFurther, checkMacho, if_neg notMagic.1, if_neg notMagic.2,
    Option.map_some, checkPe, if_pos isWord]
  rw [← isMachine]
  cases readPeHeader locals ⟨content, (content.take 4).length⟩ with
  | none =>
      refine ⟨by simp [noCoff, machineFormat], fun old => ⟨some old, ?_⟩⟩
      simp [noCoff, sizedFormat]
  | some header =>
      refine ⟨?_, fun old => ?_⟩
      · simp only [Option.map_some, machineFormat, Option.some.injEq,
          peFormat]
        split_ifs <;> simp [noCoff]
      · simp only [Option.map_some, sizedFormat, Option.some.injEq, peFormat]
        split_ifs <;> simp_all

/-! ## Both ways of calling -/

/-- The two formats of a PE file agree. -/
theorem machineFormat_eq_sizedFormat_iff (first second : Option Nat) :
    machineFormat first = sizedFormat second ↔
      first ≠ some 0x14c ∧ (first = some 0x8664 ↔ second = some 0x8664) := by
  unfold machineFormat sizedFormat
  split_ifs with isI386 isAmd64 isAmd64 isAmd64 <;> simp_all

/-- A file that is not a DOS file has no PE header. -/
theorem peMachine_of_not_dos
    (locals : Locals) {content : List UInt8}
    (notDos : ¬ [0x4d, 0x5a] <+: content) :
    peMachine locals content = none :=
  if_neg fun all => notDos all.1

/-- Only files that end within the field depend on what it is read into. -/
theorem peMachine_congr
    {content : List UInt8}
    (isComplete : content.length ≤ 0x3c ∨ 0x40 ≤ content.length)
    (first second : Locals) :
    peMachine first content = peMachine second content := by
  rcases isComplete with isShort | isLong
  · have noHeader : ∀ locals, peMachine locals content = none :=
      fun locals => if_neg fun all => by omega
    rw [noHeader, noHeader]
  · have sameOffset : ntOffset first content = ntOffset second content := by
      unfold ntOffset
      rw [loadWord_store_take (by omega), loadWord_store_take (by omega)]
    unfold peMachine
    rw [sameOffset]

/--
Both ways of calling give the same format, without a store through the null
pointer, exactly when the file does not start like a Mach-O file and has no PE
header for i386, and both find the machine AMD64 or neither does.
-/
theorem sameFormat_iff
    (first second : Locals) (content : List UInt8) (old : Nat) :
    SameFormat first second content old ↔
      ¬ StartsMacho content ∧ peMachine first content ≠ some 0x14c ∧
        (peMachine first content = some 0x8664 ↔
          peMachine second content = some 0x8664) := by
  have noMachine :
      ¬ [0x4d, 0x5a] <+: content →
        peMachine first content ≠ some 0x14c ∧
          (peMachine first content = some 0x8664 ↔
            peMachine second content = some 0x8664) := by
    intro notDos
    rw [peMachine_of_not_dos first notDos, peMachine_of_not_dos second notDos]
    exact ⟨Option.some_ne_none _ |>.symm, Iff.rfl⟩
  unfold SameFormat
  by_cases isElfFile : isElf (firstBytes content) = true
  · obtain ⟨two, four⟩ := words_of_isElf isElfFile
    have notMacho : ¬ StartsMacho content := by
      rw [startsMacho_iff, four]
      decide
    have notDos : ¬ [0x4d, 0x5a] <+: content := by
      rw [startsDos_iff, two]
      decide
    refine iff_of_true ?_ ⟨notMacho, noMachine notDos⟩
    obtain ⟨format, detected⟩ := exists_detectFormat_of_isElf isElfFile
    obtain ⟨empty, isNull, isNone⟩ := detected first none
    obtain ⟨stored, isStored, _⟩ := detected second (some old)
    rw [isNone rfl] at isNull
    exact ⟨format, stored, isNull, isStored⟩
  · rw [detectFormat_of_not_isElf first none isElfFile,
      detectFormat_of_not_isElf second (some old) isElfFile]
    by_cases isMacho : StartsMacho content
    · refine iff_of_false ?_ fun all => all.1 isMacho
      rintro ⟨format, size, isNull, _⟩
      have isFault :
          checkMacho first ⟨content, (content.take 4).length⟩
              (firstBytes content) none =
            none := by
        unfold checkMacho
        rcases (startsMacho_iff content).mp isMacho with is32 | is64
        · rw [if_pos is32]
          rfl
        · rw [if_neg (by rw [is64]; decide), if_pos is64]
          rfl
      rw [detectFurther, isFault] at isNull
      cases isNull
    · by_cases isDos : [0x4d, 0x5a] <+: content
      · obtain ⟨isNull, _⟩ := detectFurther_of_dos first isDos
        obtain ⟨stored, isSized⟩ := (detectFurther_of_dos second isDos).2 old
        rw [isNull, isSized, ← machineFormat_eq_sizedFormat_iff]
        constructor
        · rintro ⟨format, size, isFormat, isSame⟩
          cases isFormat
          refine ⟨isMacho, ?_⟩
          exact (congrArg Prod.fst (Option.some.inj isSame)).symm
        · rintro ⟨_, same⟩
          exact ⟨_, stored, rfl, by rw [same]⟩
      · refine iff_of_true ?_ ⟨isMacho, noMachine isDos⟩
        have notMagic := mt (startsMacho_iff content).mpr isMacho
        rw [not_or] at notMagic
        have notWord := mt (startsDos_iff content).mpr isDos
        have isCoff :
            ∀ locals size,
              detectFurther locals ⟨content, (content.take 4).length⟩
                  (firstBytes content) size =
                some (checkCoff (firstBytes content), size) := by
          intro locals size
          simp only [detectFurther, checkMacho, if_neg notMagic.1,
            if_neg notMagic.2, Option.map_some, checkPe, if_neg notWord]
        exact ⟨_, _, isCoff first none, isCoff second (some old)⟩

/-- A PE file for i386 with one section. -/
def pe32File : List UInt8 :=
  [0x4d, 0x5a] ++ List.replicate 58 0 ++ [0x40, 0, 0, 0] ++
    [0x50, 0x45, 0, 0] ++ [0x4c, 0x01] ++ [1, 0]

/-- Local variables that hold zeros. -/
def zeroLocals : Locals :=
  ⟨fun _ => 0, fun _ => 0, fun _ => 0, fun _ => 0, fun _ => 0, fun _ => 0⟩

/-- The file is not a PE file any more when its size is asked for. -/
theorem not_sameFormat_pe32File :
    ¬ SameFormat zeroLocals zeroLocals pe32File 0 := by
  rintro ⟨format, size, isNull, isSized⟩
  have isPe32 :
      detectFormat zeroLocals pe32File none = some (.pe32, none) := by
    decide +kernel
  have isNothing :
      detectFormat zeroLocals pe32File (some 0) = some (.none, some 0) := by
    decide +kernel
  rw [isPe32] at isNull
  rw [isNothing] at isSized
  cases isNull
  cases isSized

end BinTools.ObjectFormat
