import BinTools.CoffImportLayout
import BinTools.CoffObject

namespace BinTools.CoffObject

open ByteBuffer (Bytes load loadWord)
open Coff (StringAt)

/-!
# Names in COFF records

A name field has eight bytes and a terminator only when the name is shorter.
The linker reads the field as a terminated string, which goes on into what
follows the field.
-/

/-- Memory whose strings are the ones that its bytes spell. -/
structure Text extends Memory where
  spells : ∀ p, StringAt bytes p (stringAt p)

/-- The name in a field: its bytes up to the first zero, or all of them. -/
def fieldName (field : List UInt8) : CString :=
  .ofBytes field

/-- The field ends the string that starts with it, or a zero follows. -/
def EndsInField (bytes : Bytes) (p width : Nat) : Prop :=
  0 ∈ load bytes p width ∨ bytes (p + width) = 0

instance (bytes : Bytes) (p width : Nat) :
    Decidable (EndsInField bytes p width) :=
  inferInstanceAs (Decidable (_ ∨ _))

/-- A string of the string table. -/
def Memory.tableString (mem : Memory) (strTableP offset : Nat) : CString :=
  mem.stringAt (u64 (strTableP + offset))

/-- The name of a symbol record. -/
def Memory.symbolName (mem : Memory) (is strTableP : Nat) : CString :=
  if load mem.bytes is 4 = [0, 0, 0, 0] then
    mem.tableString strTableP (loadWord 4 mem.bytes (is + 4))
  else
    fieldName (load mem.bytes is 8)

/-- The record refers to the string table, or its field ends the name. -/
def Memory.SymbolNameFits (mem : Memory) (is : Nat) : Prop :=
  load mem.bytes is 4 = [0, 0, 0, 0] ∨ EndsInField mem.bytes is 8

/-! ## Fields as strings -/

/-- A list of bytes with a zero is a terminated string and a rest. -/
theorem exists_fieldName_append
    {field : List UInt8} (hasZero : 0 ∈ field) :
    ∃ rest, field = ((fieldName field).bytes ++ [0]) ++ rest := by
  induction field with
  | nil => exact absurd hasZero List.not_mem_nil
  | cons byte field inductionHypothesis =>
      by_cases isZero : byte = 0
      · subst isZero
        exact ⟨field, by simp [fieldName, CString.ofBytes]⟩
      · obtain isHere | isLater := List.mem_cons.mp hasZero
        · exact absurd isHere.symm isZero
        · obtain ⟨rest, isSplit⟩ := inductionHypothesis isLater
          have isName :
              (fieldName (byte :: field)).bytes =
                byte :: (fieldName field).bytes := by
            simp [fieldName, CString.ofBytes, isZero]
          refine ⟨rest, ?_⟩
          rw [isName, List.cons_append, List.cons_append, ← isSplit]

/-- A field without a zero is the name as a whole. -/
theorem fieldName_of_noZero
    {field : List UInt8} (noZero : 0 ∉ field) :
    (fieldName field).bytes = field := by
  apply List.takeWhile_eq_self_iff.mpr
  intro byte member
  apply decide_eq_true
  rintro rfl
  exact noZero member

/-- The name in a field is the string that starts there if it ends there. -/
theorem stringAt_fieldName_iff (bytes : Bytes) (p width : Nat) :
    StringAt bytes p (fieldName (load bytes p width)) ↔
      EndsInField bytes p width := by
  by_cases hasZero : 0 ∈ load bytes p width
  · refine iff_of_true ?_ (Or.inl hasZero)
    obtain ⟨rest, isSplit⟩ := exists_fieldName_append hasZero
    generalize fieldName (load bytes p width) = name at isSplit ⊢
    have isWidth : width = (name.length + 1) + rest.length := by
      have lengths := congrArg List.length isSplit
      simp only [load, List.length_map, List.length_range,
        List.length_append, List.length_singleton] at lengths
      exact lengths
    have isLoaded :=
      ByteBuffer.load_add bytes p (name.length + 1) rest.length
    rw [← isWidth, isSplit] at isLoaded
    exact
      ((List.append_inj isLoaded (by simp [load, CString.length])).1).symm
  · have isWhole := fieldName_of_noZero hasZero
    have isLength : (fieldName (load bytes p width)).length = width := by
      rw [CString.length, isWhole]
      simp [load]
    have isLast : load bytes (p + width) 1 = [bytes (p + width)] := by
      simp [load]
    rw [StringAt, isLength, isWhole, ByteBuffer.load_add, isLast,
      List.append_cancel_left_eq, List.cons.injEq, EndsInField]
    simp [hasZero]

/-- What stands at an address is the name of the field there. -/
theorem Text.stringAt_eq_iff (text : Text) (p width : Nat) :
    text.stringAt p = fieldName (load text.bytes p width) ↔
      EndsInField text.bytes p width := by
  rw [← stringAt_fieldName_iff]
  constructor
  · intro isName
    rw [← isName]
    exact text.spells p
  · exact (text.spells p).unique

/-! ## Symbol names -/

/-- Four bytes are zero as a word when they are all zero. -/
theorem short_eq_zero_iff (mem : Memory) (is : Nat) :
    (mem.imageSymbol is).short = 0 ↔ load mem.bytes is 4 = [0, 0, 0, 0] := by
  have isWord :
      (mem.imageSymbol is).short =
        ByteBuffer.ofLittleEndian (load mem.bytes is 4) := rfl
  constructor
  · intro isZero
    rw [isWord] at isZero
    simp only [load, List.range_succ, List.range_zero, List.nil_append,
      List.map_cons, List.map_nil, List.cons_append,
      ByteBuffer.ofLittleEndian] at isZero ⊢
    have zeroByte :
        ∀ byte : UInt8, byte.toNat = 0 → byte = 0 := fun byte same =>
      UInt8.toNat_inj.mp same
    rw [zeroByte (mem.bytes (is + 0)) (by omega),
      zeroByte (mem.bytes (is + 1)) (by omega),
      zeroByte (mem.bytes (is + 2)) (by omega),
      zeroByte (mem.bytes (is + 3)) (by omega)]
  · intro isZero
    rw [isWord, isZero]
    rfl

/--
The linker's name of a symbol is the name in its record exactly when the record
refers to the string table or the name ends in its field, or a zero byte
follows.
-/
theorem getName_eq_symbolName_iff (text : Text) (is strTableP : Nat) :
    text.getName is strTableP = text.symbolName is strTableP ↔
      text.SymbolNameFits is := by
  unfold Memory.getName Memory.symbolName Memory.SymbolNameFits
  by_cases isLong : load text.bytes is 4 = [0, 0, 0, 0]
  · rw [if_pos ((short_eq_zero_iff text.toMemory is).mpr isLong),
      if_pos isLong]
    exact iff_of_true rfl (Or.inl isLong)
  · rw [if_neg (mt (short_eq_zero_iff text.toMemory is).mp isLong),
      if_neg isLong, text.stringAt_eq_iff]
    simp [isLong]

/-! ## Mapped files -/

/-- A file mapped to the address zero spells its strings. -/
theorem spells_ofBytes (bytes : List UInt8) (p : Nat) :
    StringAt (Memory.ofBytes 0 bytes).bytes p
      ((Memory.ofBytes 0 bytes).stringAt p) := by
  have isRest :
      load (Memory.ofBytes 0 bytes).bytes p (bytes.length - p) =
        bytes.drop p := by
    apply List.ext_getElem
    · simp [load]
    · intro index _ inRange
      rw [List.length_drop] at inRange
      have isInside : p + index < bytes.length := by omega
      simp [load, Memory.ofBytes, List.getElem?_eq_getElem isInside]
  have isBehind : bytes.length ≤ p + (bytes.length - p) := by omega
  have isEnd :
      EndsInField (Memory.ofBytes 0 bytes).bytes p (bytes.length - p) :=
    Or.inr (by simp [Memory.ofBytes, List.getElem?_eq_none isBehind])
  have isSpelled := (stringAt_fieldName_iff _ _ _).mpr isEnd
  rw [isRest] at isSpelled
  exact isSpelled

/-- A file that is mapped to the address zero, with zeros behind it. -/
def Text.ofBytes (bytes : List UInt8) : Text where
  toMemory := .ofBytes 0 bytes
  spells := spells_ofBytes bytes

/-- An external symbol with a name of eight characters and the value 16. -/
def initialRecord : Text :=
  .ofBytes (symbolRecord "_initial" 16 1 2 0)

/-- The name of eight bytes goes on into the value. -/
theorem not_getName_initialRecord :
    ¬ initialRecord.getName 0 18 = initialRecord.symbolName 0 18 := by
  decide

end BinTools.CoffObject
