import BinTools.ByteBuffer

namespace ByteBuffer

/-!
# What a buffer has at an offset

Bytes that follow each other in a buffer, taken apart and put together, and
stores that leave them or change some of them.
-/

/-- From the offset on the buffer has these bytes. -/
def HasAt (buffer : Bytes) (offset : Nat) (bytes : List UInt8) : Prop :=
  load buffer offset bytes.length = bytes

variable
  {buffer later : Bytes}
  {offset : Nat}
  {byte : UInt8}
  {bytes first second : List UInt8}

theorem hasAt_nil : HasAt buffer offset [] :=
  rfl

theorem hasAt_append :
    HasAt buffer offset (first ++ second) ↔
      HasAt buffer offset first ∧
        HasAt buffer (offset + first.length) second := by
  rw [HasAt, List.length_append, load_add]
  constructor
  · intro has
    exact List.append_inj has (by simp [load])
  · rintro ⟨hasFirst, hasSecond⟩
    rw [show load buffer offset first.length = first from hasFirst,
      show load buffer (offset + first.length) second.length = second from
        hasSecond]

theorem hasAt_singleton : HasAt buffer offset [byte] ↔ buffer offset = byte := by
  simp [HasAt, load]

theorem hasAt_cons :
    HasAt buffer offset (byte :: bytes) ↔
      buffer offset = byte ∧ HasAt buffer (offset + 1) bytes := by
  rw [← List.singleton_append, hasAt_append, hasAt_singleton,
    List.length_singleton]

theorem HasAt.congr
    (has : HasAt buffer offset bytes)
    (agree :
      ∀ position, offset ≤ position → position < offset + bytes.length →
        later position = buffer position) :
    HasAt later offset bytes :=
  (load_congr agree).trans has

/-- Storing what the buffer has changes nothing. -/
theorem HasAt.store_eq (has : HasAt buffer offset bytes) :
    store buffer offset bytes = buffer := by
  funext position
  by_cases inside : offset ≤ position ∧ position - offset < bytes.length
  · have isByte := congrArg (·[position - offset]?) has
    simp only [load, List.getElem?_map, List.getElem?_range inside.2,
      Option.map_some] at isByte
    rw [store, if_pos inside.1, ← isByte, Option.getD_some]
    congr 1
    omega
  · exact store_apply_of_outside (by omega)

/-- What is stored in two parts. -/
theorem store_append
    (buffer : Bytes) (offset : Nat) (first second : List UInt8) :
    store buffer offset (first ++ second) =
      store (store buffer offset first) (offset + first.length) second := by
  funext position
  by_cases isBefore : position < offset + first.length
  · rw [store_apply_of_outside (.inl isBefore)]
    by_cases inside : offset ≤ position
    · have inFirst : position - offset < first.length := by omega
      rw [store, if_pos inside, store, if_pos inside,
        List.getElem?_append_left inFirst]
    · rw [store_apply_of_outside (by omega), store_apply_of_outside (by omega)]
  · have isBehind : offset + first.length ≤ position := by omega
    have past : position - offset - first.length =
        position - (offset + first.length) := by
      omega
    rw [store, if_pos (by omega), List.getElem?_append_right (by omega), past,
      store, if_pos isBehind, store_apply_of_outside (.inr isBehind)]

/-- A store of bytes that the buffer has in front. -/
theorem store_append_of_hasAt
    (has : HasAt buffer offset first) (second : List UInt8) :
    store buffer offset (first ++ second) =
      store buffer (offset + first.length) second := by
  rw [store_append, has.store_eq]

/-- A store of bytes that the buffer has behind. -/
theorem store_append_of_hasAt_right
    (has : HasAt buffer (offset + first.length) second) :
    store buffer offset (first ++ second) = store buffer offset first := by
  rw [store_append]
  refine HasAt.store_eq (has.congr fun position isBehind _ => ?_)
  exact store_apply_of_outside (.inr isBehind)

end ByteBuffer
