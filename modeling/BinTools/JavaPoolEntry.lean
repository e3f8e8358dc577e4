import BinTools.JavaPoolNumbers

namespace BinTools.Java

open ByteBuffer

/-!
# One entry of a constant pool

The round for an entry leaves what is in front of it alone.  It converts the
entry when its numbers are right, and otherwise leaves a number that is wrong.
-/

namespace Field

@[simp]
theorem length_file_number (width value : Nat) :
    (number width value).file.length = width := by
  rw [file, List.length_reverse, length_littleEndian]

@[simp]
theorem length_converted_number (width value : Nat) :
    (number width value).converted.length = width :=
  length_littleEndian width value

end Field

namespace Constant

theorem file_utf8 (text : List UInt8) (short : text.length < 2 ^ 16) :
    (utf8 text short).file =
      [constantUtf8] ++ ((Field.number 2 text.length).file ++ text) := by
  have isText : (text.map Field.byte).flatMap Field.file = text := by
    simp [List.flatMap_map, Field.file]
  simp [file, fields, isText, Field.file]

theorem converted_utf8 (text : List UInt8) (short : text.length < 2 ^ 16) :
    (utf8 text short).converted =
      [constantUtf8] ++ ((Field.number 2 text.length).converted ++ text) := by
  have isText : (text.map Field.byte).flatMap Field.converted = text := by
    simp [List.flatMap_map, Field.converted]
  simp [converted, fields, isText, Field.converted]

theorem file_word (tag : UInt8) (isTag : IsWordTag tag) (value : U32) :
    (word tag isTag value).file =
      [tag] ++ ((Field.number 4 value.toNat).file ++ []) :=
  rfl

theorem file_long (tag : UInt8) (isTag : IsLongTag tag) (value : U64) :
    (long tag isTag value).file =
      [tag] ++ ((Field.number 8 value.toNat).file ++ []) :=
  rfl

theorem file_index (tag : UInt8) (isTag : IsIndexTag tag) (value : U16) :
    (index tag isTag value).file =
      [tag] ++ ((Field.number 2 value.toNat).file ++ []) :=
  rfl

theorem file_handle (kind : UInt8) (value : U16) :
    (handle kind value).file =
      [constantMethodHandle, kind] ++
        ((Field.number 2 value.toNat).file ++ []) :=
  rfl

theorem file_pair
    (tag : UInt8) (isTag : IsPairTag tag) (first second : U16) :
    (pair tag isTag first second).file =
      [tag] ++ ((Field.number 2 first.toNat).file ++
        ((Field.number 2 second.toNat).file ++ [])) :=
  rfl

theorem converted_pair
    (tag : UInt8) (isTag : IsPairTag tag) (first second : U16) :
    (pair tag isTag first second).converted =
      [tag] ++ ((Field.number 2 first.toNat).converted ++
        ((Field.number 2 second.toNat).converted ++ [])) :=
  rfl

/-- The conversion keeps the lengths. -/
theorem length_converted (constant : Constant) :
    constant.converted.length = constant.file.length := by
  cases constant with
  | utf8 text short => simp [file_utf8, converted_utf8]
  | _ => simp [file, converted, fields, Field.file, Field.converted]

theorem length_file_pos (constant : Constant) : 0 < constant.file.length := by
  cases constant <;> simp [file, fields, Field.file]

end Constant

/-! ## What a round does for a tag -/

section Round

variable {st : PoolState}

theorem readEntry_utf8 (isTag : st.memory st.p = constantUtf8) :
    readEntry st =
      ⟨writeHalf st.memory (st.p + 1),
        st.p + 1 + (2 + half st.memory (st.p + 1)), st.s, st.h ++ [st.p]⟩ := by
  rw [readEntry, if_pos isTag]

theorem readEntry_word (isTag : IsWordTag (st.memory st.p)) :
    readEntry st =
      ⟨storeWord 4 st.memory (st.p + 1)
          (sumBytes 32 4 st.memory 4 (st.p + 1) st.s 0).toNat,
        st.p + 1 + 4, st.s + 4 * 4, st.h ++ [st.p]⟩ := by
  have notUtf8 : st.memory st.p ≠ constantUtf8 := fun isUtf8 =>
    absurd (isUtf8 ▸ isTag) (by decide)
  rw [readEntry, if_neg notUtf8, if_pos isTag]

theorem readEntry_long (isTag : IsLongTag (st.memory st.p)) :
    readEntry st =
      ⟨storeWord 8 st.memory (st.p + 1)
          (sumBytes 64 8 st.memory 8 (st.p + 1) st.s 0).toNat,
        st.p + 1 + 8, st.s + 8 * 8, st.h ++ [st.p]⟩ := by
  have others :
      ¬ st.memory st.p = constantUtf8 ∧ ¬ IsWordTag (st.memory st.p) := by
    rcases isTag with isTag | isTag <;> rw [isTag] <;> decide
  rw [readEntry, if_neg others.1, if_neg others.2, if_pos isTag]

theorem readEntry_index (isTag : IsIndexTag (st.memory st.p)) :
    readEntry st =
      ⟨writeHalf st.memory (st.p + 1), st.p + 1 + 2, st.s,
        st.h ++ [st.p]⟩ := by
  have others :
      ¬ st.memory st.p = constantUtf8 ∧ ¬ IsWordTag (st.memory st.p) ∧
        ¬ IsLongTag (st.memory st.p) := by
    rcases isTag with isTag | isTag | isTag <;> rw [isTag] <;> decide
  rw [readEntry, if_neg others.1, if_neg others.2.1, if_neg others.2.2,
    if_pos isTag]

theorem readEntry_handle (isTag : st.memory st.p = constantMethodHandle) :
    readEntry st =
      ⟨writeHalf st.memory (st.p + 1 + 1), st.p + 1 + 3, st.s,
        st.h ++ [st.p]⟩ := by
  have others :
      ¬ st.memory st.p = constantUtf8 ∧ ¬ IsWordTag (st.memory st.p) ∧
        ¬ IsLongTag (st.memory st.p) ∧ ¬ IsIndexTag (st.memory st.p) := by
    rw [isTag]
    decide
  rw [readEntry, if_neg others.1, if_neg others.2.1, if_neg others.2.2.1,
    if_neg others.2.2.2, if_pos isTag]

theorem readEntry_pair (isTag : IsPairTag (st.memory st.p)) :
    readEntry st =
      ⟨writeHalf (writeHalf st.memory (st.p + 1)) (st.p + 1 + 2),
        st.p + 1 + 4, st.s, st.h ++ [st.p]⟩ := by
  have others :
      ¬ st.memory st.p = constantUtf8 ∧ ¬ IsWordTag (st.memory st.p) ∧
        ¬ IsLongTag (st.memory st.p) ∧ ¬ IsIndexTag (st.memory st.p) ∧
        ¬ st.memory st.p = constantMethodHandle := by
    rcases isTag with isTag | isTag | isTag | isTag | isTag <;> rw [isTag] <;>
      decide
  rw [readEntry, if_neg others.1, if_neg others.2.1, if_neg others.2.2.1,
    if_neg others.2.2.2.1, if_neg others.2.2.2.2, if_pos isTag]

/-- Without a tag the pointer stays where it is. -/
theorem readEntry_of_not_isTag (noTag : ¬ IsTag (st.memory st.p)) :
    readEntry st = { st with h := st.h ++ [st.p] } := by
  rw [IsTag, not_or, not_or, not_or, not_or, not_or] at noTag
  obtain ⟨notUtf8, notWord, notLong, notIndex, notHandle, notPair⟩ := noTag
  rw [readEntry, if_neg notUtf8, if_neg notWord, if_neg notLong,
    if_neg notIndex, if_neg notHandle, if_neg notPair]

end Round

/-- A half is read alike behind one that is written. -/
theorem half_writeHalf (memory : Bytes) (p : Nat) :
    half (writeHalf memory p) (p + 2) = half memory (p + 2) := by
  have kept : ∀ position, p + 2 ≤ position →
      writeHalf memory p position = memory position := fun position isBehind =>
    storeWord_apply_of_outside (.inr isBehind)
  rw [half, half, kept _ (Nat.le_refl _), kept _ (Nat.le_succ _)]

theorem writeHalf_of_lt
    {memory : Bytes} {p position : Nat} (isBefore : position < p) :
    writeHalf memory p position = memory position :=
  storeWord_apply_of_outside (.inl isBefore)

/-- A round leaves what is in front of its entry. -/
theorem readEntry_of_lt
    {st : PoolState} {position : Nat} (isBefore : position < st.p) :
    (readEntry st).memory position = st.memory position := by
  by_cases isTag : IsTag (st.memory st.p)
  · rcases isTag with isTag | isTag | isTag | isTag | isTag | isTag
    · rw [readEntry_utf8 isTag]
      exact writeHalf_of_lt (by omega)
    · rw [readEntry_word isTag]
      exact storeWord_apply_of_outside (.inl (by omega))
    · rw [readEntry_long isTag]
      exact storeWord_apply_of_outside (.inl (by omega))
    · rw [readEntry_index isTag]
      exact writeHalf_of_lt (by omega)
    · rw [readEntry_handle isTag]
      exact writeHalf_of_lt (by omega)
    · rw [readEntry_pair isTag]
      exact
        (writeHalf_of_lt (by omega)).trans (writeHalf_of_lt (by omega))
  · rw [readEntry_of_not_isTag isTag]

/-- A round with a tag moves the pointer. -/
theorem lt_readEntry {st : PoolState} (isTag : IsTag (st.memory st.p)) :
    st.p < (readEntry st).p := by
  rcases isTag with isTag | isTag | isTag | isTag | isTag | isTag
  · rw [readEntry_utf8 isTag]
    show st.p < st.p + 1 + (2 + _)
    omega
  · rw [readEntry_word isTag]
    show st.p < st.p + 1 + 4
    omega
  · rw [readEntry_long isTag]
    show st.p < st.p + 1 + 8
    omega
  · rw [readEntry_index isTag]
    show st.p < st.p + 1 + 2
    omega
  · rw [readEntry_handle isTag]
    show st.p < st.p + 1 + 3
    omega
  · rw [readEntry_pair isTag]
    show st.p < st.p + 1 + 4
    omega

/-- No round moves the pointer back. -/
theorem le_readEntry (st : PoolState) : st.p ≤ (readEntry st).p := by
  by_cases isTag : IsTag (st.memory st.p)
  · exact (lt_readEntry isTag).le
  · rw [readEntry_of_not_isTag isTag]

/-! ## An entry that is right -/

/-- The shift in front of an entry. -/
def ShiftIs (s : U8) (odd : Bool) : Prop :=
  s.toNat % 32 = if odd then 16 else 0

/-- The round for an entry converts it and goes to the next one. -/
structure Converts (constant : Constant) (odd : Bool) (st next : PoolState) :
    Prop where
  memory : next.memory = store st.memory st.p constant.converted
  p : next.p = st.p + constant.file.length
  h : next.h = st.h ++ [st.p]
  shift : ShiftIs next.s (odd ^^ constant.isWord)

/-- A number that is stored in front of bytes that stay. -/
theorem storeWord_eq_store
    {memory : Bytes} {p width value : Nat} {front behind : List UInt8}
    (hasFront : HasAt memory p front)
    (hasBehind : HasAt memory (p + front.length + width) behind) :
    storeWord width memory (p + front.length) value =
      store memory p
        (front ++ ((Field.number width value).converted ++ behind)) := by
  rw [store_append_of_hasAt hasFront, store_append_of_hasAt_right, storeWord,
    Field.converted]
  rwa [Field.length_converted_number]

theorem writeHalf_eq_store
    {memory : Bytes} {p value : Nat} {front behind : List UInt8}
    (small : value < 256) (hasFront : HasAt memory p front)
    (hasNumber :
      HasAt memory (p + front.length) (Field.number 2 value).file)
    (hasBehind : HasAt memory (p + front.length + 2) behind) :
    writeHalf memory (p + front.length) =
      store memory p
        (front ++ ((Field.number 2 value).converted ++ behind)) := by
  have isHalf := (half_eq_iff (by omega) hasNumber).mpr small
  rw [writeHalf, isHalf]
  exact storeWord_eq_store hasFront hasBehind

/-- An entry whose numbers are right is converted. -/
theorem converts_of_right
    {constant : Constant} {odd : Bool} {st : PoolState}
    (has : HasAt st.memory st.p constant.file) (isShift : ShiftIs st.s odd)
    (right : constant.Right odd) :
    Converts constant odd st (readEntry st) := by
  cases constant with
  | utf8 text short =>
      have small : text.length < 256 := right
      rw [Constant.file_utf8] at has
      obtain ⟨hasTag, hasRest⟩ := hasAt_append.mp has
      obtain ⟨hasNumber, hasText⟩ := hasAt_append.mp hasRest
      have isHalf : half st.memory (st.p + 1) = text.length :=
        (half_eq_iff short hasNumber).mpr small
      rw [readEntry_utf8 (hasAt_singleton.mp hasTag)]
      constructor
      · rw [Constant.converted_utf8]
        exact writeHalf_eq_store small hasTag hasNumber (by simpa using hasText)
      · show st.p + 1 + (2 + half st.memory (st.p + 1)) = _
        rw [isHalf, Constant.file_utf8]
        simp only [List.length_append, List.length_singleton,
          Field.length_file_number]
        omega
      · rfl
      · simpa [Constant.isWord] using isShift
  | word tag isTag value =>
      rw [Constant.file_word] at has
      obtain ⟨hasTag, hasNumber⟩ := hasAt_append.mp has
      rw [List.append_nil] at hasNumber
      have isSum := (sumWord_eq_iff isShift hasNumber).mpr right
      have isAt : st.memory st.p = tag := hasAt_singleton.mp hasTag
      rw [readEntry_word (isAt ▸ isTag)]
      refine ⟨?_, ?_, rfl, ?_⟩
      · show storeWord 4 st.memory (st.p + 1) _ = _
        rw [show (sumBytes 32 4 st.memory 4 (st.p + 1) st.s 0).toNat =
          value.toNat from isSum]
        exact storeWord_eq_store hasTag hasAt_nil
      · rw [Constant.file_word]
        simp
      · have isSixteen : (4 * 4 : U8).toNat = 16 := rfl
        rw [ShiftIs, shift_add, isShift, isSixteen]
        cases odd <;> rfl
  | long tag isTag value =>
      rw [Constant.file_long] at has
      obtain ⟨hasTag, hasNumber⟩ := hasAt_append.mp has
      rw [List.append_nil] at hasNumber
      have isSum := (sumLong_eq_iff isShift hasNumber).mpr right
      have isAt : st.memory st.p = tag := hasAt_singleton.mp hasTag
      rw [readEntry_long (isAt ▸ isTag)]
      refine ⟨?_, ?_, rfl, ?_⟩
      · show storeWord 8 st.memory (st.p + 1) _ = _
        rw [show (sumBytes 64 8 st.memory 8 (st.p + 1) st.s 0).toNat =
          value.toNat from isSum]
        exact storeWord_eq_store hasTag hasAt_nil
      · rw [Constant.file_long]
        simp
      · have isAround : (8 * 8 : U8).toNat = 64 := rfl
        rw [ShiftIs, shift_add, isShift, isAround]
        cases odd <;> rfl
  | index tag isTag value =>
      rw [Constant.file_index] at has
      obtain ⟨hasTag, hasNumber⟩ := hasAt_append.mp has
      rw [List.append_nil] at hasNumber
      have isAt : st.memory st.p = tag := hasAt_singleton.mp hasTag
      rw [readEntry_index (isAt ▸ isTag)]
      refine ⟨?_, ?_, rfl, ?_⟩
      · exact writeHalf_eq_store right hasTag hasNumber hasAt_nil
      · rw [Constant.file_index]
        simp
      · simpa [Constant.isWord] using isShift
  | handle kind value =>
      rw [Constant.file_handle] at has
      obtain ⟨hasFront, hasNumber⟩ := hasAt_append.mp has
      rw [List.append_nil] at hasNumber
      have isAt : st.memory st.p = constantMethodHandle :=
        (hasAt_cons.mp hasFront).1
      rw [readEntry_handle isAt]
      refine ⟨?_, ?_, rfl, ?_⟩
      · exact writeHalf_eq_store right hasFront hasNumber hasAt_nil
      · rw [Constant.file_handle]
        simp
      · simpa [Constant.isWord] using isShift
  | pair tag isTag first second =>
      rw [Constant.file_pair] at has
      obtain ⟨hasTag, hasRest⟩ := hasAt_append.mp has
      obtain ⟨hasFirst, hasSecond⟩ := hasAt_append.mp hasRest
      rw [List.append_nil] at hasSecond
      have isAt : st.memory st.p = tag := hasAt_singleton.mp hasTag
      rw [readEntry_pair (isAt ▸ isTag)]
      refine ⟨?_, ?_, rfl, ?_⟩
      · have isFirst : writeHalf st.memory (st.p + 1) = _ :=
          writeHalf_eq_store right.1 hasTag hasFirst hasAt_nil
        have isHalf : half st.memory (st.p + 1 + 2) = second.toNat := by
          refine (half_eq_iff second.isLt ?_).mpr right.2
          simpa using hasSecond
        rw [List.append_nil] at isFirst
        show writeHalf (writeHalf st.memory (st.p + 1)) (st.p + 1 + 2) = _
        rw [writeHalf, half_writeHalf, isHalf, isFirst, Constant.converted_pair,
          ← List.append_assoc, List.append_nil,
          store_append st.memory st.p ([tag] ++ _), List.length_append,
          Field.length_converted_number]
        rfl
      · rw [Constant.file_pair]
        simp
      · simpa [Constant.isWord] using isShift

/-! ## An entry that is converted -/

/-- A number that is stored, kept and found to be another one is that one. -/
theorem eq_of_hasAt_converted
    {memory later : Bytes} {p width code value : Nat}
    (agree :
      ∀ position, p ≤ position → position < p + width →
        later position = storeWord width memory p code position)
    (has : HasAt later p (Field.number width value).converted)
    (codeLess : code < 256 ^ width) (valueLess : value < 256 ^ width) :
    code = value := by
  have isCode : loadWord width later p = code := by
    rw [loadWord_congr agree, loadWord_storeWord, Nat.mod_eq_of_lt codeLess]
  have isValue : loadWord width later p = value := by
    have isBytes : load later p width = littleEndian width value := by
      rw [HasAt, Field.length_converted_number] at has
      exact has
    rw [loadWord, isBytes, ofLittleEndian_littleEndian,
      Nat.mod_eq_of_lt valueLess]
  exact isCode.symm.trans isValue

theorem half_lt (memory : Bytes) (p : Nat) : half memory p < 256 ^ 2 := by
  have first := (memory p).toNat_lt
  have second := (memory (p + 1)).toNat_lt
  rw [half]
  omega

/-- A half that is written, kept and converted is right. -/
theorem lt_of_writeHalf
    {memory later : Bytes} {p : Nat} {value : Nat} (inHalf : value < 2 ^ 16)
    (agree :
      ∀ position, p ≤ position → position < p + 2 →
        later position = writeHalf memory p position)
    (hasNumber : HasAt memory p (Field.number 2 value).file)
    (has : HasAt later p (Field.number 2 value).converted) :
    value < 256 :=
  (half_eq_iff inHalf hasNumber).mp
    (eq_of_hasAt_converted agree has (half_lt memory p) inHalf)

/-- An entry that is found converted, with nothing written to it later, is right. -/
theorem right_of_agree
    {constant : Constant} {odd : Bool} {st : PoolState} {later : Bytes}
    (has : HasAt st.memory st.p constant.file) (isShift : ShiftIs st.s odd)
    (agree :
      ∀ position, st.p ≤ position → position < (readEntry st).p →
        later position = (readEntry st).memory position)
    (hasLater : HasAt later st.p constant.converted) :
    constant.Right odd := by
  cases constant with
  | utf8 text short =>
      rw [Constant.file_utf8] at has
      rw [Constant.converted_utf8] at hasLater
      obtain ⟨hasTag, hasRest⟩ := hasAt_append.mp has
      obtain ⟨hasNumber, -⟩ := hasAt_append.mp hasRest
      obtain ⟨-, laterRest⟩ := hasAt_append.mp hasLater
      obtain ⟨laterNumber, -⟩ := hasAt_append.mp laterRest
      rw [readEntry_utf8 (hasAt_singleton.mp hasTag)] at agree
      refine lt_of_writeHalf short (fun position isBehind inside => ?_)
        hasNumber laterNumber
      have inNumber : position < st.p + 1 + 2 := inside
      have inEntry : position < st.p + 1 + (2 + half st.memory (st.p + 1)) := by
        omega
      exact agree position (Nat.le_of_succ_le isBehind) inEntry
  | word tag isTag value =>
      rw [Constant.file_word] at has
      obtain ⟨hasTag, hasNumber⟩ := hasAt_append.mp has
      obtain ⟨-, laterNumber⟩ :=
        hasAt_append.mp
          (show HasAt later st.p
            ([tag] ++ ((Field.number 4 value.toNat).converted ++ [])) from
            hasLater)
      rw [List.append_nil] at hasNumber laterNumber
      have isAt : st.memory st.p = tag := hasAt_singleton.mp hasTag
      rw [readEntry_word (isAt ▸ isTag)] at agree
      have kept :
          ∀ position, st.p + 1 ≤ position → position < st.p + 1 + 4 →
            later position =
              storeWord 4 st.memory (st.p + 1)
                (sumBytes 32 4 st.memory 4 (st.p + 1) st.s 0).toNat
                position :=
        fun position isBehind inside =>
          agree position (Nat.le_of_succ_le isBehind) inside
      exact
        (sumWord_eq_iff isShift hasNumber).mp
          (eq_of_hasAt_converted kept laterNumber (BitVec.isLt _) value.isLt)
  | long tag isTag value =>
      rw [Constant.file_long] at has
      obtain ⟨hasTag, hasNumber⟩ := hasAt_append.mp has
      obtain ⟨-, laterNumber⟩ :=
        hasAt_append.mp
          (show HasAt later st.p
            ([tag] ++ ((Field.number 8 value.toNat).converted ++ [])) from
            hasLater)
      rw [List.append_nil] at hasNumber laterNumber
      have isAt : st.memory st.p = tag := hasAt_singleton.mp hasTag
      rw [readEntry_long (isAt ▸ isTag)] at agree
      have kept :
          ∀ position, st.p + 1 ≤ position → position < st.p + 1 + 8 →
            later position =
              storeWord 8 st.memory (st.p + 1)
                (sumBytes 64 8 st.memory 8 (st.p + 1) st.s 0).toNat
                position :=
        fun position isBehind inside =>
          agree position (Nat.le_of_succ_le isBehind) inside
      exact
        (sumLong_eq_iff isShift hasNumber).mp
          (eq_of_hasAt_converted kept laterNumber (BitVec.isLt _) value.isLt)
  | index tag isTag value =>
      rw [Constant.file_index] at has
      obtain ⟨hasTag, hasNumber⟩ := hasAt_append.mp has
      obtain ⟨-, laterNumber⟩ :=
        hasAt_append.mp
          (show HasAt later st.p
            ([tag] ++ ((Field.number 2 value.toNat).converted ++ [])) from
            hasLater)
      rw [List.append_nil] at hasNumber laterNumber
      have isAt : st.memory st.p = tag := hasAt_singleton.mp hasTag
      rw [readEntry_index (isAt ▸ isTag)] at agree
      refine lt_of_writeHalf value.isLt (fun position isBehind inside => ?_)
        hasNumber laterNumber
      exact agree position (Nat.le_of_succ_le isBehind) inside
  | handle kind value =>
      rw [Constant.file_handle] at has
      obtain ⟨hasFront, hasNumber⟩ := hasAt_append.mp has
      obtain ⟨-, laterNumber⟩ :=
        hasAt_append.mp
          (show HasAt later st.p
            ([constantMethodHandle, kind] ++
              ((Field.number 2 value.toNat).converted ++ [])) from hasLater)
      rw [List.append_nil] at hasNumber laterNumber
      rw [readEntry_handle (hasAt_cons.mp hasFront).1] at agree
      refine lt_of_writeHalf value.isLt (fun position isBehind inside => ?_)
        hasNumber laterNumber
      have isAfter : st.p + 2 ≤ position := isBehind
      exact agree position (by omega) inside
  | pair tag isTag first second =>
      rw [Constant.file_pair] at has
      rw [Constant.converted_pair] at hasLater
      obtain ⟨hasTag, hasRest⟩ := hasAt_append.mp has
      obtain ⟨hasFirst, hasSecond⟩ := hasAt_append.mp hasRest
      obtain ⟨-, laterRest⟩ := hasAt_append.mp hasLater
      obtain ⟨laterFirst, laterSecond⟩ := hasAt_append.mp laterRest
      rw [List.append_nil] at hasSecond laterSecond
      rw [Field.length_file_number] at hasSecond
      rw [Field.length_converted_number] at laterSecond
      have isAt : st.memory st.p = tag := hasAt_singleton.mp hasTag
      rw [readEntry_pair (isAt ▸ isTag)] at agree
      constructor
      · refine lt_of_writeHalf first.isLt (fun position isBehind inside => ?_)
          hasFirst laterFirst
        have inFirst : position < st.p + 1 + 2 := inside
        exact
          (agree position (Nat.le_of_succ_le isBehind)
            (show position < st.p + 1 + 4 by omega)).trans
            (writeHalf_of_lt inFirst)
      · have hasWritten :
            HasAt (writeHalf st.memory (st.p + 1)) (st.p + 1 + 2)
              (Field.number 2 second.toNat).file :=
          HasAt.congr hasSecond fun position isBehind _ =>
            storeWord_apply_of_outside (.inr isBehind)
        refine lt_of_writeHalf second.isLt (fun position isBehind inside => ?_)
          hasWritten laterSecond
        have isAfter : st.p + 1 + 2 ≤ position := isBehind
        exact agree position (by omega) inside

end BinTools.Java
