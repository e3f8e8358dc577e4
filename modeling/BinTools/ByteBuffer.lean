import Mathlib.Data.List.Basic
import Mathlib.Tactic.Common
import Mathlib.Tactic.Ring

namespace ByteBuffer

/-!
# Byte buffers

A buffer maps offsets to bytes.  Words are stored with their least significant
byte first.  What a buffer holds at one place is decided by the last store that
covers it; stores elsewhere do not matter.
-/

/-- The bytes of a buffer by their offset. -/
abbrev Bytes := Nat → UInt8

/-- The low bytes of a number, least significant first. -/
def littleEndian : Nat → Nat → List UInt8
  | 0, _ => []
  | width + 1, value => UInt8.ofNat value :: littleEndian width (value / 256)

/-- The number with the given bytes, least significant first. -/
def ofLittleEndian : List UInt8 → Nat
  | [] => 0
  | byte :: rest => byte.toNat + 256 * ofLittleEndian rest

/-- Write bytes from an offset on. -/
def store (buffer : Bytes) (offset : Nat) (bytes : List UInt8) : Bytes :=
  fun position =>
    if offset ≤ position then
      (bytes[position - offset]?).getD (buffer position)
    else
      buffer position

/-- Read bytes from an offset on. -/
def load (buffer : Bytes) (offset count : Nat) : List UInt8 :=
  (List.range count).map fun position => buffer (offset + position)

/-- Write a word of the given width in bytes. -/
def storeWord (width : Nat) (buffer : Bytes) (offset value : Nat) : Bytes :=
  store buffer offset (littleEndian width value)

/-- Read a word of the given width in bytes. -/
def loadWord (width : Nat) (buffer : Bytes) (offset : Nat) : Nat :=
  ofLittleEndian (load buffer offset width)

variable {buffer later : Bytes}

/-- A word takes as many bytes as it is wide. -/
@[simp]
theorem length_littleEndian (width value : Nat) :
    (littleEndian width value).length = width := by
  induction width generalizing value with
  | zero => rfl
  | succ width inductionHypothesis =>
      simp [littleEndian, inductionHypothesis]

/-- Splitting into bytes and joining again keeps what fits the width. -/
theorem ofLittleEndian_littleEndian (width value : Nat) :
    ofLittleEndian (littleEndian width value) = value % 256 ^ width := by
  induction width generalizing value with
  | zero => simp [littleEndian, ofLittleEndian, Nat.mod_one]
  | succ width inductionHypothesis =>
      rw [littleEndian, ofLittleEndian, inductionHypothesis, pow_succ',
        Nat.mod_mul]
      simp

/-- A number is below the power of 256 that its bytes can tell apart. -/
theorem ofLittleEndian_lt (bytes : List UInt8) :
    ofLittleEndian bytes < 256 ^ bytes.length := by
  induction bytes with
  | nil => simp [ofLittleEndian]
  | cons byte rest inductionHypothesis =>
      have inByte := byte.toNat_lt
      rw [ofLittleEndian, List.length_cons, pow_succ']
      omega

/-- Equally many bytes are told apart by the number they make. -/
theorem ofLittleEndian_inj
    {first second : List UInt8} (sameLength : first.length = second.length)
    (sameNumber : ofLittleEndian first = ofLittleEndian second) :
    first = second := by
  induction first generalizing second with
  | nil => exact (List.length_eq_zero_iff.mp sameLength.symm).symm
  | cons byte rest inductionHypothesis =>
      cases second with
      | nil => cases sameLength
      | cons other others =>
          simp only [ofLittleEndian] at sameNumber
          have bound := byte.toNat_lt
          have otherBound := other.toNat_lt
          have sameByte : byte = other := UInt8.toNat_inj.mp (by omega)
          rw [sameByte,
            inductionHypothesis (Nat.succ.inj sameLength) (by omega)]

/-- Reading back what was written. -/
theorem load_store
    (buffer : Bytes) (offset : Nat) (bytes : List UInt8) :
    load (store buffer offset bytes) offset bytes.length = bytes := by
  apply List.ext_getElem
  · simp [load]
  · intro position _ inBytes
    simp [load, store, inBytes]

/-- A word is below the power of 256 for its width. -/
theorem loadWord_lt (width : Nat) (buffer : Bytes) (offset : Nat) :
    loadWord width buffer offset < 256 ^ width := by
  have isLess := ofLittleEndian_lt (load buffer offset width)
  rwa [load, List.length_map, List.length_range] at isLess

/-- Writing nothing changes nothing. -/
@[simp]
theorem store_nil (buffer : Bytes) (offset : Nat) :
    store buffer offset [] = buffer := by
  funext position
  simp [store]

/-- Buffers that agree on a range read alike there. -/
theorem load_congr
    {offset count : Nat}
    (agree :
      ∀ position, offset ≤ position → position < offset + count →
        later position = buffer position) :
    load later offset count = load buffer offset count := by
  apply List.map_congr_left
  intro position inRange
  exact agree _ (Nat.le_add_right _ _)
    (Nat.add_lt_add_left (List.mem_range.mp inRange) offset)

/-- A store leaves every byte outside of its range alone. -/
theorem store_apply_of_outside
    {offset position : Nat} {bytes : List UInt8}
    (outside : position < offset ∨ offset + bytes.length ≤ position) :
    store buffer offset bytes position = buffer position := by
  rcases outside with before | behind
  · simp [store, Nat.not_le_of_lt before]
  · have past : bytes.length ≤ position - offset := by omega
    simp [store, past]

/-- A word store leaves every byte outside of its range alone. -/
theorem storeWord_apply_of_outside
    {width offset position value : Nat}
    (outside : position < offset ∨ offset + width ≤ position) :
    storeWord width buffer offset value position = buffer position := by
  apply store_apply_of_outside
  rwa [length_littleEndian]

/-- Reading back a word. -/
theorem loadWord_storeWord (width offset value : Nat) :
    loadWord width (storeWord width buffer offset value) offset =
      value % 256 ^ width := by
  have readBack :=
    load_store buffer offset (littleEndian width value)
  rw [length_littleEndian] at readBack
  rw [loadWord, storeWord, readBack, ofLittleEndian_littleEndian]

/-- Buffers that agree on a word's bytes hold the same word. -/
theorem loadWord_congr
    {width offset : Nat}
    (agree :
      ∀ position, offset ≤ position → position < offset + width →
        later position = buffer position) :
    loadWord width later offset = loadWord width buffer offset := by
  rw [loadWord, loadWord, load_congr agree]

/-- A word is read alike after a word is stored apart from it. -/
theorem loadWord_storeWord_of_apart
    {width other place offset : Nat}
    (apart : place + width ≤ offset ∨ offset + other ≤ place)
    (buffer : Bytes) (value : Nat) :
    loadWord width (storeWord other buffer offset value) place =
      loadWord width buffer place :=
  loadWord_congr fun position _ _ =>
    storeWord_apply_of_outside (by omega)

/-- A range is read part by part. -/
theorem load_add (buffer : Bytes) (offset first second : Nat) :
    load buffer offset (first + second) =
      load buffer offset first ++ load buffer (offset + first) second := by
  simp [load, List.range_add, Function.comp_def, Nat.add_assoc]

/-- A part of a range is read alike. -/
theorem load_prefix
    (buffer : Bytes) (offset : Nat) {count total : Nat}
    (part : count ≤ total) :
    load buffer offset count <+: load buffer offset total := by
  obtain ⟨rest, rfl⟩ := Nat.exists_eq_add_of_le part
  rw [load_add]
  exact List.prefix_append _ _

/-- A range that holds one byte throughout. -/
theorem load_eq_replicate
    {offset count : Nat} {byte : UInt8}
    (same :
      ∀ position, offset ≤ position → position < offset + count →
        buffer position = byte) :
    load buffer offset count = List.replicate count byte := by
  rw [load, List.eq_replicate_iff]
  refine ⟨by simp, ?_⟩
  intro loaded member
  obtain ⟨position, inRange, rfl⟩ := List.mem_map.mp member
  exact
    same _ (Nat.le_add_right _ _)
      (Nat.add_lt_add_left (List.mem_range.mp inRange) offset)

/-- A word of zeros. -/
theorem loadWord_eq_zero
    {width offset : Nat}
    (isZero :
      ∀ position, offset ≤ position → position < offset + width →
        buffer position = 0) :
    loadWord width buffer offset = 0 := by
  rw [loadWord, load_eq_replicate isZero]
  clear isZero
  induction width with
  | zero => rfl
  | succ width inductionHypothesis =>
      rw [List.replicate_succ, ofLittleEndian, inductionHypothesis]
      rfl

end ByteBuffer
