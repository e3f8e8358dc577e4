import BinTools.JavaConstantPool

namespace BinTools.Java

open ByteBuffer

/-!
# The numbers of a constant pool

The bytes of a number are shifted in rising order by an amount that is never set
back.  Two numbers of four bytes leave it as it was, one moves it by sixteen, and
numbers of eight bytes leave it.  What is added up is the number of the file for
few bytes only.
-/

/-! ## Numbers from their bytes -/

/-- Four bytes, the least significant first. -/
def low (b0 b1 b2 b3 : Nat) : Nat :=
  b0 + 2 ^ 8 * b1 + 2 ^ 16 * b2 + 2 ^ 24 * b3

/-- What an `int` adds to a word of 64 bits. -/
def extended (value : Nat) : Nat :=
  if value < 2 ^ 31 then value else value + (2 ^ 64 - 2 ^ 32)

section Bytes

variable
  {b0 b1 b2 b3 : Nat}
  (in0 : b0 < 256)
  (in1 : b1 < 256)
  (in2 : b2 < 256)
  (in3 : b3 < 256)

include in0 in1 in2 in3

theorem low_lt : low b0 b1 b2 b3 < 2 ^ 32 := by
  unfold low
  omega

/-- Four bytes that are not shifted before give the number they are for. -/
theorem word_even_iff :
    (b0 + 2 ^ 4 * b1 + 2 ^ 8 * b2 + 2 ^ 12 * b3) % 2 ^ 32 =
        low b3 b2 b1 b0 ↔
      b0 = 0 ∧ b3 = 16 * b1 := by
  have small : b0 + 2 ^ 4 * b1 + 2 ^ 8 * b2 + 2 ^ 12 * b3 < 2 ^ 21 := by
    omega
  rw [Nat.mod_eq_of_lt (small.trans (by decide)), low]
  constructor
  · intro same
    have noTop : b0 = 0 := by omega
    subst noTop
    exact ⟨rfl, by omega⟩
  · rintro ⟨rfl, rfl⟩
    ring

/-- Four bytes that are shifted by sixteen give the number they are for. -/
theorem word_odd_iff :
    (2 ^ 16 * b0 + 2 ^ 20 * b1 + 2 ^ 24 * b2 + 2 ^ 28 * b3) % 2 ^ 32 =
        low b3 b2 b1 b0 ↔
      b3 = 0 ∧ b2 = 0 ∧ b1 = 17 * b0 := by
  unfold low
  constructor
  · intro same
    have noLow : 2 ^ 8 * b2 + b3 = 0 := by omega
    have no3 : b3 = 0 := by omega
    have no2 : b2 = 0 := by omega
    subst no2 no3
    exact ⟨rfl, rfl, by omega⟩
  · rintro ⟨rfl, rfl, rfl⟩
    omega

end Bytes

/-- A number and its bytes in another order differ by a multiple of 255. -/
theorem low_mod (b0 b1 b2 b3 : Nat) :
    low b0 b1 b2 b3 % 255 = (b0 + b1 + b2 + b3) % 255 := by
  unfold low
  omega

/--
The sum of two extended numbers, where `high` and `value` have the bytes of the
first and of the second one in another order.
-/
theorem extended_add_iff
    {first second high value : Nat}
    (firstLess : first < 2 ^ 32) (secondLess : second < 2 ^ 32)
    (highLess : high < 2 ^ 32) (valueLess : value < 2 ^ 32)
    (zero : high = 0 ↔ first = 0)
    (ones : high = 2 ^ 32 - 1 → first = 2 ^ 32 - 1)
    (secondZero : second = 0 → value = 0)
    (notNext : second ≠ value + 1) :
    (extended first + extended second) % 2 ^ 64 = 2 ^ 32 * high + value ↔
      first = 0 ∧ second = value ∧ value < 2 ^ 31 := by
  unfold extended
  constructor
  · intro same
    by_cases firstSmall : first < 2 ^ 31
    · rw [if_pos firstSmall] at same
      by_cases secondSmall : second < 2 ^ 31
      · rw [if_pos secondSmall] at same
        have noHigh : high = 0 := by omega
        have noFirst := zero.mp noHigh
        omega
      · rw [if_neg secondSmall] at same
        have noHigh : high = 0 ∨ high = 2 ^ 32 - 1 := by omega
        rcases noHigh with noHigh | allOnes
        · have noFirst := zero.mp noHigh
          omega
        · have := ones allOnes
          omega
    · rw [if_neg firstSmall] at same
      by_cases secondSmall : second < 2 ^ 31
      · rw [if_pos secondSmall] at same
        have noHigh : high = 0 ∨ high = 2 ^ 32 - 1 := by omega
        rcases noHigh with noHigh | allOnes
        · have noFirst := zero.mp noHigh
          omega
        · have isOnes := ones allOnes
          have noSecond : second = 0 := by omega
          have noValue := secondZero noSecond
          omega
      · rw [if_neg secondSmall] at same
        have allOnes : high = 2 ^ 32 - 1 := by omega
        have isOnes := ones allOnes
        omega
  · rintro ⟨rfl, rfl, isSmall⟩
    have noHigh := zero.mpr rfl
    rw [if_pos (by decide), if_pos isSmall]
    omega

/-- An extended number is the sum of its extended bytes. -/
theorem extended_low
    {b0 b1 b2 b3 : Nat}
    (in0 : b0 < 256) (in1 : b1 < 256) (in2 : b2 < 256) (in3 : b3 < 256) :
    extended (low b0 b1 b2 b3) =
      extended (b0 * 2 ^ 0 % 2 ^ 32) + extended (b1 * 2 ^ 8 % 2 ^ 32) +
        extended (b2 * 2 ^ 16 % 2 ^ 32) + extended (b3 * 2 ^ 24 % 2 ^ 32) := by
  have small : ∀ value, value < 2 ^ 31 → extended value = value :=
    fun value isSmall => if_pos isSmall
  rw [small (b0 * 2 ^ 0 % 2 ^ 32) (by omega),
    small (b1 * 2 ^ 8 % 2 ^ 32) (by omega),
    small (b2 * 2 ^ 16 % 2 ^ 32) (by omega)]
  unfold extended low
  split <;> split <;> omega

section Longs

variable
  {b0 b1 b2 b3 b4 b5 b6 b7 : Nat}
  (in0 : b0 < 256)
  (in1 : b1 < 256)
  (in2 : b2 < 256)
  (in3 : b3 < 256)
  (in4 : b4 < 256)
  (in5 : b5 < 256)
  (in6 : b6 < 256)
  (in7 : b7 < 256)

include in0 in1 in2 in3 in4 in5 in6 in7

/-- Eight bytes that are not shifted before. -/
theorem long_even_iff :
    (extended (low b0 b1 b2 b3) + extended (low b4 b5 b6 b7)) % 2 ^ 64 =
        2 ^ 32 * low b3 b2 b1 b0 + low b7 b6 b5 b4 ↔
      low b3 b2 b1 b0 = 0 ∧ low b7 b6 b5 b4 < 2 ^ 31 ∧
        b4 = b7 ∧ b5 = b6 := by
  have notNext : low b4 b5 b6 b7 ≠ low b7 b6 b5 b4 + 1 := by
    have first := low_mod b4 b5 b6 b7
    have second := low_mod b7 b6 b5 b4
    omega
  rw [extended_add_iff (low_lt in0 in1 in2 in3) (low_lt in4 in5 in6 in7)
    (low_lt in3 in2 in1 in0) (low_lt in7 in6 in5 in4)
    (by unfold low; omega) (by unfold low; omega) (by unfold low; omega)
    notNext]
  constructor
  · rintro ⟨noFirst, same, isSmall⟩
    refine ⟨?_, isSmall, ?_⟩
    · unfold low at noFirst ⊢
      omega
    · unfold low at same
      omega
  · rintro ⟨noHigh, isSmall, rfl, rfl⟩
    refine ⟨?_, rfl, isSmall⟩
    unfold low at noHigh ⊢
    omega

/-- Eight bytes that are shifted by sixteen. -/
theorem long_odd_iff :
    (extended (low b2 b3 b0 b1) + extended (low b6 b7 b4 b5)) % 2 ^ 64 =
        2 ^ 32 * low b3 b2 b1 b0 + low b7 b6 b5 b4 ↔
      low b3 b2 b1 b0 = 0 ∧ low b7 b6 b5 b4 < 2 ^ 31 ∧
        b4 = b5 ∧ b6 = b7 := by
  have notNext : low b6 b7 b4 b5 ≠ low b7 b6 b5 b4 + 1 := by
    have first := low_mod b6 b7 b4 b5
    have second := low_mod b7 b6 b5 b4
    omega
  rw [extended_add_iff (low_lt in2 in3 in0 in1) (low_lt in6 in7 in4 in5)
    (low_lt in3 in2 in1 in0) (low_lt in7 in6 in5 in4)
    (by unfold low; omega) (by unfold low; omega) (by unfold low; omega)
    notNext]
  constructor
  · rintro ⟨noFirst, same, isSmall⟩
    refine ⟨?_, isSmall, ?_⟩
    · unfold low at noFirst ⊢
      omega
    · unfold low at same
      omega
  · rintro ⟨noHigh, isSmall, rfl, rfl⟩
    refine ⟨?_, rfl, isSmall⟩
    unfold low at noHigh ⊢
    omega

end Longs

/-! ## What is added up -/

/-- One more step moves the shift. -/
theorem shift_add (s step : U8) :
    (s + step).toNat % 32 = (s.toNat % 32 + step.toNat) % 32 := by
  rw [BitVec.toNat_add]
  omega

theorem mod_word_mod (x : Nat) : x % 2 ^ 8 % 32 = x % 32 :=
  Nat.mod_mod_of_dvd x (by decide)

theorem toNat_shifted (byte : UInt8) (s : U8) :
    (shifted byte s).toNat =
      byte.toNat * 2 ^ (s.toNat % 32) % 2 ^ 32 := by
  have inByte := byte.toNat_lt
  rw [shifted, BitVec.toNat_shiftLeft, BitVec.toNat_ofNat,
    Nat.mod_eq_of_lt (inByte.trans (by decide)), Nat.shiftLeft_eq]

theorem toNat_signExtend_shifted (byte : UInt8) (s : U8) :
    ((shifted byte s).signExtend 64).toNat =
      extended (byte.toNat * 2 ^ (s.toNat % 32) % 2 ^ 32) := by
  have inWord : byte.toNat * 2 ^ (s.toNat % 32) % 2 ^ 32 < 2 ^ 32 :=
    Nat.mod_lt _ (by decide)
  rw [BitVec.toNat_signExtend, BitVec.msb_eq_decide, BitVec.toNat_setWidth,
    toNat_shifted, extended]
  simp only [decide_eq_true_eq]
  split <;> split <;> omega

section Sums

variable
  {memory : Bytes}
  {p : Nat}
  {s : U8}

/-- The sum of four bytes. -/
theorem toNat_sumWord :
    (sumBytes 32 4 memory 4 p s 0).toNat =
      ((memory p).toNat * 2 ^ (s.toNat % 32) +
          (memory (p + 1)).toNat * 2 ^ ((s.toNat % 32 + 4) % 32) +
          (memory (p + 2)).toNat * 2 ^ ((s.toNat % 32 + 8) % 32) +
          (memory (p + 3)).toNat * 2 ^ ((s.toNat % 32 + 12) % 32)) %
        2 ^ 32 := by
  have isFour : (4 : U8).toNat = 4 := rfl
  have isZero : (0 : U32).toNat = 0 := rfl
  simp only [sumBytes, BitVec.signExtend_eq, BitVec.toNat_add, toNat_shifted,
    mod_word_mod, isFour, isZero, Nat.mod_add_mod, Nat.add_mod_mod,
    Nat.zero_add, Nat.add_assoc, Nat.reduceAdd]

/-- The sum of eight bytes. -/
theorem toNat_sumLong :
    (sumBytes 64 8 memory 8 p s 0).toNat =
      (extended ((memory p).toNat * 2 ^ (s.toNat % 32) % 2 ^ 32) +
          extended
            ((memory (p + 1)).toNat * 2 ^ ((s.toNat % 32 + 8) % 32) %
              2 ^ 32) +
          extended
            ((memory (p + 2)).toNat * 2 ^ ((s.toNat % 32 + 16) % 32) %
              2 ^ 32) +
          extended
            ((memory (p + 3)).toNat * 2 ^ ((s.toNat % 32 + 24) % 32) %
              2 ^ 32) +
          extended
            ((memory (p + 4)).toNat * 2 ^ ((s.toNat % 32 + 32) % 32) %
              2 ^ 32) +
          extended
            ((memory (p + 5)).toNat * 2 ^ ((s.toNat % 32 + 40) % 32) %
              2 ^ 32) +
          extended
            ((memory (p + 6)).toNat * 2 ^ ((s.toNat % 32 + 48) % 32) %
              2 ^ 32) +
          extended
            ((memory (p + 7)).toNat * 2 ^ ((s.toNat % 32 + 56) % 32) %
              2 ^ 32)) %
        2 ^ 64 := by
  have isEight : (8 : U8).toNat = 8 := rfl
  have isZero : (0 : U64).toNat = 0 := rfl
  simp only [sumBytes, BitVec.toNat_add, toNat_signExtend_shifted,
    mod_word_mod, isEight, isZero, Nat.mod_add_mod, Nat.zero_add,
    Nat.add_assoc, Nat.reduceAdd]

end Sums

/-! ## The sums that are right -/

/-- Four bytes make up a number below `2 ^ 32`. -/
theorem low_byteOf {value : Nat} (inWord : value < 2 ^ 32) :
    low (byteOf value 0) (byteOf value 1) (byteOf value 2) (byteOf value 3) =
      value := by
  unfold low byteOf
  omega

/-- Eight bytes make up a number below `2 ^ 64`. -/
theorem low_byteOf_high {value : Nat} (inLong : value < 2 ^ 64) :
    2 ^ 32 *
          low (byteOf value 4) (byteOf value 5) (byteOf value 6)
            (byteOf value 7) +
        low (byteOf value 0) (byteOf value 1) (byteOf value 2)
          (byteOf value 3) =
      value := by
  unfold low byteOf
  omega

/-- A number below the sign bit of its low half. -/
theorem lt_iff_low {value : Nat} (inLong : value < 2 ^ 64) :
    value < 2 ^ 31 ↔
      low (byteOf value 4) (byteOf value 5) (byteOf value 6)
            (byteOf value 7) = 0 ∧
        low (byteOf value 0) (byteOf value 1) (byteOf value 2)
            (byteOf value 3) < 2 ^ 31 := by
  have isValue := low_byteOf_high inLong
  omega

theorem byteOf_lt (value number : Nat) : byteOf value number < 256 :=
  Nat.mod_lt _ (by decide)

/-- The bytes of a number are those of its quotient and the last one. -/
theorem hasAt_number_succ
    {memory : Bytes} {p width value : Nat} :
    HasAt memory p (Field.number (width + 1) value).file ↔
      HasAt memory p (Field.number width (value / 256)).file ∧
        memory (p + width) = UInt8.ofNat value := by
  rw [Field.file, littleEndian, List.reverse_cons, hasAt_append,
    hasAt_singleton, List.length_reverse, length_littleEndian, Field.file]

/-- The byte of a number in the file. -/
theorem toNat_of_hasAt
    {memory : Bytes} {p width value : Nat}
    (has : HasAt memory p (Field.number width value).file)
    {number : Nat} (inField : number < width) :
    (memory (p + (width - 1 - number))).toNat = byteOf value number := by
  induction width generalizing value number with
  | zero => cases inField
  | succ width inductionHypothesis =>
      obtain ⟨hasFront, isLast⟩ := hasAt_number_succ.mp has
      cases number with
      | zero =>
          rw [Nat.add_sub_cancel, Nat.sub_zero, isLast, UInt8.toNat_ofNat',
            byteOf, pow_zero, Nat.div_one]
      | succ number =>
          have inFront := inductionHypothesis hasFront
            (Nat.lt_of_succ_lt_succ inField)
          have sameByte :
              byteOf (value / 256) number = byteOf value (number + 1) := by
            rw [byteOf, byteOf, Nat.div_div_eq_div_mul, ← pow_succ']
          have samePlace : width + 1 - 1 - (number + 1) = width - 1 - number := by
            omega
          rw [samePlace, inFront, sameByte]

section Right

variable
  {memory : Bytes}
  {p : Nat}
  {s : U8}
  {odd : Bool}
  (isShift : s.toNat % 32 = if odd then 16 else 0)

/-- A half is read as it is when its high byte is zero. -/
theorem half_eq_iff
    {value : Nat} (inHalf : value < 2 ^ 16)
    (has : HasAt memory p (Field.number 2 value).file) :
    half memory p = value ↔ value < 256 := by
  have first := toNat_of_hasAt has (by decide : 1 < 2)
  have second := toNat_of_hasAt has (by decide : 0 < 2)
  change (memory p).toNat = byteOf value 1 at first
  change (memory (p + 1)).toNat = byteOf value 0 at second
  rw [half, first, second]
  unfold byteOf
  omega

include isShift

/-- The sum of a word is its number exactly when the word is right. -/
theorem sumWord_eq_iff
    {tag : UInt8} {isTag : IsWordTag tag} {value : U32}
    (has : HasAt memory p (Field.number 4 value.toNat).file) :
    (sumBytes 32 4 memory 4 p s 0).toNat = value.toNat ↔
      (Constant.word tag isTag value).Right odd := by
  have first := toNat_of_hasAt has (by decide : 3 < 4)
  have second := toNat_of_hasAt has (by decide : 2 < 4)
  have third := toNat_of_hasAt has (by decide : 1 < 4)
  have fourth := toNat_of_hasAt has (by decide : 0 < 4)
  change (memory p).toNat = _ at first
  change (memory (p + 1)).toNat = _ at second
  change (memory (p + 2)).toNat = _ at third
  change (memory (p + 3)).toNat = _ at fourth
  have in0 := byteOf_lt value.toNat 0
  have in1 := byteOf_lt value.toNat 1
  have in2 := byteOf_lt value.toNat 2
  have in3 := byteOf_lt value.toNat 3
  have isValue := low_byteOf value.isLt
  rw [toNat_sumWord, isShift, first, second, third, fourth]
  cases odd with
  | false =>
      have isEven := word_even_iff in3 in2 in1 in0
      rw [isValue] at isEven
      rw [Constant.Right, if_neg Bool.false_ne_true,
        if_neg Bool.false_ne_true, ← isEven]
      ring_nf
  | true =>
      have isOdd := word_odd_iff in3 in2 in1 in0
      rw [isValue] at isOdd
      rw [Constant.Right, if_pos rfl, if_pos rfl, ← isOdd]
      ring_nf

/-- The sum of a long is its number exactly when the long is right. -/
theorem sumLong_eq_iff
    {tag : UInt8} {isTag : IsLongTag tag} {value : U64}
    (has : HasAt memory p (Field.number 8 value.toNat).file) :
    (sumBytes 64 8 memory 8 p s 0).toNat = value.toNat ↔
      (Constant.long tag isTag value).Right odd := by
  have first := toNat_of_hasAt has (by decide : 7 < 8)
  have second := toNat_of_hasAt has (by decide : 6 < 8)
  have third := toNat_of_hasAt has (by decide : 5 < 8)
  have fourth := toNat_of_hasAt has (by decide : 4 < 8)
  have fifth := toNat_of_hasAt has (by decide : 3 < 8)
  have sixth := toNat_of_hasAt has (by decide : 2 < 8)
  have seventh := toNat_of_hasAt has (by decide : 1 < 8)
  have eighth := toNat_of_hasAt has (by decide : 0 < 8)
  change (memory p).toNat = _ at first
  change (memory (p + 1)).toNat = _ at second
  change (memory (p + 2)).toNat = _ at third
  change (memory (p + 3)).toNat = _ at fourth
  change (memory (p + 4)).toNat = _ at fifth
  change (memory (p + 5)).toNat = _ at sixth
  change (memory (p + 6)).toNat = _ at seventh
  change (memory (p + 7)).toNat = _ at eighth
  have in0 := byteOf_lt value.toNat 0
  have in1 := byteOf_lt value.toNat 1
  have in2 := byteOf_lt value.toNat 2
  have in3 := byteOf_lt value.toNat 3
  have in4 := byteOf_lt value.toNat 4
  have in5 := byteOf_lt value.toNat 5
  have in6 := byteOf_lt value.toNat 6
  have in7 := byteOf_lt value.toNat 7
  have isValue := low_byteOf_high value.isLt
  have isSmall := lt_iff_low value.isLt
  rw [toNat_sumLong, isShift, first, second, third, fourth, fifth, sixth,
    seventh, eighth]
  cases odd with
  | false =>
      have isEven := long_even_iff in7 in6 in5 in4 in3 in2 in1 in0
      rw [isValue, ← and_assoc, ← isSmall, extended_low in7 in6 in5 in4,
        extended_low in3 in2 in1 in0] at isEven
      rw [Constant.Right, if_neg Bool.false_ne_true,
        if_neg Bool.false_ne_true, ← isEven]
      simp only [Nat.add_assoc]
  | true =>
      have isOdd := long_odd_iff in7 in6 in5 in4 in3 in2 in1 in0
      rw [isValue, ← and_assoc, ← isSmall, extended_low in5 in4 in7 in6,
        extended_low in1 in0 in3 in2] at isOdd
      rw [Constant.Right, if_pos rfl, if_pos rfl, ← isOdd]
      simp only [Nat.add_comm, Nat.add_left_comm, Nat.add_assoc,
        Nat.reduceAdd, Nat.reduceMod]

end Right

end BinTools.Java
