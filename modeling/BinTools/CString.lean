import Mathlib.Tactic.Common
import Mathlib.Tactic.Ring
import Mathlib.Data.List.TakeWhile

namespace BinTools

/-!
# C strings and machine words

Names travel through the tools as zero-terminated byte strings.  A `CString`
holds the bytes before the terminator together with the proof that none of
them is the terminator, so `strcmp` is equality and `strlen` is the length of
the byte list.
-/

/-- An unsigned 32-bit word of the source (`uint32_t`). -/
abbrev U32 := BitVec 32

/-- An unsigned 64-bit word of the source (`uint64_t`, `size_t`). -/
abbrev U64 := BitVec 64

/-- A zero-terminated string: the bytes in front of the terminator. -/
structure CString where
  bytes : List UInt8
  noNul : 0 ∉ bytes
  deriving DecidableEq, Repr

namespace CString

/-- The empty string, which an untouched zero byte denotes. -/
def empty : CString :=
  ⟨[], by simp⟩

instance : Inhabited CString :=
  ⟨empty⟩

/-- The string stored at the front of a run of bytes: up to the first zero. -/
def ofBytes (bytes : List UInt8) : CString where
  bytes := bytes.takeWhile (· ≠ 0)
  noNul := by
    intro member
    simpa using List.mem_takeWhile_imp member

/-- A string literal of the source, which uses characters below 256 only. -/
def ofString (text : String) : CString :=
  ofBytes (text.toList.map fun c => UInt8.ofNat c.toNat)

/-- `strlen`: the number of bytes before the terminator. -/
def length (name : CString) : Nat :=
  name.bytes.length

/-- Strings are equal exactly when their bytes are. -/
theorem eq_of_bytes_eq
    {first second : CString}
    (same : first.bytes = second.bytes) :
    first = second := by
  cases first
  cases second
  cases same
  rfl

/-- A terminated string reads back as itself, whatever follows it. -/
theorem ofBytes_append_nul (name : CString) (rest : List UInt8) :
    ofBytes (name.bytes ++ 0 :: rest) = name := by
  apply eq_of_bytes_eq
  have inside : ∀ byte ∈ name.bytes, decide (byte ≠ 0) = true := by
    intro byte member
    have differs : byte ≠ 0 := by
      rintro rfl
      exact name.noNul member
    simpa using differs
  simp only [ofBytes, List.takeWhile_append_of_pos inside]
  simp

end CString

end BinTools
