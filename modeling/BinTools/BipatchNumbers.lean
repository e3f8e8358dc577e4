import BinTools.BipatchRead

namespace BinTools.Bipatch

/-!
# Hexadecimal numbers in a patch

`ascii_to_bin` adds the digits of a number as shifted values of type `int`.  The
eighth digit reaches the sign bit, which is extended to 64 bits.
-/

/-- A digit in lower case. -/
def IsHexDigit (c : UInt8) : Prop :=
  48 ≤ c ∧ c ≤ 57 ∨ 97 ≤ c ∧ c ≤ 102

instance (c : UInt8) : Decidable (IsHexDigit c) :=
  inferInstanceAs (Decidable (_ ∨ _))

/-- The value of a digit. -/
def hexDigit (c : UInt8) : Nat :=
  if c ≤ 57 then c.toNat - 48 else c.toNat - 87

/-- The number that some digits denote. -/
def hexValue (digits : List UInt8) : Nat :=
  digits.foldl (fun value c => 16 * value + hexDigit c) 0

/-- The literal of some digits. -/
def literal (digits : List UInt8) : List UInt8 :=
  48 :: 120 :: digits

/--
`ascii_to_bin` returns the number that the digits denote, and the literal is no
error.
-/
structure ReadsNumber
    (text : Mapped) (p : Nat) (digits : List UInt8) : Prop where
  value :
    asciiToBin text p (literal digits).length =
      some (BitVec.ofNat 64 (hexValue digits))
  noError : asciiToBin text p (literal digits).length ≠ some (-1)

/-- One more digit. -/
theorem hexValue_concat (digits : List UInt8) (c : UInt8) :
    hexValue (digits ++ [c]) = 16 * hexValue digits + hexDigit c := by
  rw [hexValue, List.foldl_append]
  rfl

/-- A digit is written for its value. -/
theorem hexDigit_spec {c : UInt8} (isDigit : IsHexDigit c) :
    hexDigit c < 16 ∧
      UInt8.ofNat
          (if hexDigit c < 10 then 48 + hexDigit c else 87 + hexDigit c) =
        c := by
  have all :
      ∀ n < 256, IsHexDigit (UInt8.ofNat n) →
        hexDigit (UInt8.ofNat n) < 16 ∧
          UInt8.ofNat
              (if hexDigit (UInt8.ofNat n) < 10 then
                48 + hexDigit (UInt8.ofNat n)
              else
                87 + hexDigit (UInt8.ofNat n)) =
            UInt8.ofNat n := by
    decide +kernel
  have isOfNat := all c.toNat c.toNat_lt
  rw [UInt8.ofNat_toNat] at isOfNat
  exact isOfNat isDigit

/-- Digits are those of the number that they denote. -/
theorem digits_hexValue
    {digits : List UInt8} (areDigits : ∀ c ∈ digits, IsHexDigit c) :
    Edit.digits (hexValue digits) digits.length = digits := by
  induction digits using List.reverseRecOn with
  | nil => rfl
  | append_singleton front c inductionHypothesis =>
      have frontDigits : ∀ d ∈ front, IsHexDigit d := fun d member =>
        areDigits d (List.mem_append_left _ member)
      obtain ⟨isSmall, isWritten⟩ := hexDigit_spec (areDigits c (by simp))
      have isQuotient :
          (16 * hexValue front + hexDigit c) / 16 = hexValue front := by
        omega
      have isRemainder :
          (16 * hexValue front + hexDigit c) % 16 = hexDigit c := by
        omega
      rw [hexValue_concat, List.length_append, List.length_singleton,
        Edit.digits, isQuotient, isRemainder, inductionHypothesis frontDigits,
        isWritten]

/-- Some digits denote a number below a power of 16. -/
theorem hexValue_lt
    {digits : List UInt8} (areDigits : ∀ c ∈ digits, IsHexDigit c) :
    hexValue digits < 16 ^ digits.length := by
  induction digits using List.reverseRecOn with
  | nil => exact Nat.one_pos
  | append_singleton front c inductionHypothesis =>
      have frontDigits : ∀ d ∈ front, IsHexDigit d := fun d member =>
        areDigits d (List.mem_append_left _ member)
      have isSmall := (hexDigit_spec (areDigits c (by simp))).1
      have frontSmall := inductionHypothesis frontDigits
      rw [hexValue_concat, List.length_append, List.length_singleton, pow_succ]
      omega

/-- The sign bit is what makes the difference. -/
theorem signExtend_eq_ofNat_iff {value : Nat} (inWord : value < 2 ^ 32) :
    (BitVec.ofNat 32 value).signExtend 64 = BitVec.ofNat 64 value ↔
      value < 2 ^ 31 := by
  have isValue : (BitVec.ofNat 32 value).toNat = value :=
    Nat.mod_eq_of_lt inWord
  rw [← BitVec.toNat_inj, BitVec.toNat_signExtend, BitVec.msb_eq_decide,
    isValue, BitVec.toNat_setWidth, isValue, BitVec.toNat_ofNat]
  simp only [decide_eq_true_eq]
  split <;> omega

/-- What `ascii_to_bin` adds up for a number of at most eight digits. -/
theorem sumDigits_eq_signExtend
    {value count : Nat} (short : count ≤ 8) (below : value < 16 ^ count) :
    sumDigits value count 0 0 =
      (BitVec.ofNat 32 value).signExtend 64 := by
  have inWord : value < 2 ^ 32 :=
    below.trans_le (Nat.pow_le_pow_right (by decide) short)
  have isValue : (BitVec.ofNat 32 value).toNat = value :=
    Nat.mod_eq_of_lt inWord
  rcases Nat.lt_or_ge count 8 with isLow | isEight
  · have isSum := sumDigits_low (by omega : 0 + count ≤ 7) value 0
    rw [Nat.mul_zero, pow_zero, Nat.mul_one, Nat.mod_eq_of_lt below] at isSum
    have isPositive : value < 2 ^ 31 := by
      have isLess : 16 ^ count ≤ 16 ^ 7 :=
        Nat.pow_le_pow_right (by decide) (by omega)
      omega
    rw [isSum, (signExtend_eq_ofNat_iff inWord).mpr isPositive]
    exact BitVec.zero_add _
  · have isCount : count = 8 := by omega
    have isWord := sumDigits_word (BitVec.ofNat 32 value)
    rw [isValue] at isWord
    rw [isCount, isWord]

/--
For every literal of at most eight digits, wherever it stands in a text, the
number is returned exactly when it is below the sign bit.
-/
theorem readsNumber_iff_lt
    {text : Mapped} (covered : text.Covered) {p : Nat}
    {digits : List UInt8} (short : digits.length ≤ 8)
    (areDigits : ∀ c ∈ digits, IsHexDigit c)
    (holds : text.Holds p (literal digits)) :
    ReadsNumber text p digits ↔ hexValue digits < 2 ^ 31 := by
  have below := hexValue_lt areDigits
  have inWord : hexValue digits < 2 ^ 32 :=
    below.trans_le (Nat.pow_le_pow_right (by decide) short)
  have isNumber : literal digits = Edit.number (hexValue digits) digits.length := by
    rw [literal, Edit.number, digits_hexValue areDigits]
  rw [isNumber] at holds
  have isRead :
      asciiToBin text p (literal digits).length =
        some ((BitVec.ofNat 32 (hexValue digits)).signExtend 64) := by
    rw [← sumDigits_eq_signExtend short below, ← asciiToBin_number covered holds]
    rfl
  constructor
  · intro reads
    have isValue := reads.value
    rw [isRead, Option.some_inj] at isValue
    exact (signExtend_eq_ofNat_iff inWord).mp isValue
  · intro isPositive
    have isValue := (signExtend_eq_ofNat_iff inWord).mpr isPositive
    have isMinusOne : (-1 : U64).toNat = 2 ^ 64 - 1 := rfl
    refine ⟨by rw [isRead, isValue], ?_⟩
    rw [isRead, isValue, ne_eq, Option.some_inj, ← BitVec.toNat_inj,
      BitVec.toNat_ofNat, isMinusOne]
    omega

/-- The literal 0x7f. -/
theorem readsNumber_7f :
    ReadsNumber (.ofFile (literal [55, 102])) 0 [55, 102] := by
  have covered : (Mapped.ofFile (literal [55, 102])).Covered :=
    covered_ofFile (by decide)
  have holds :
      (Mapped.ofFile (literal [55, 102])).Holds 0 (literal [55, 102]) :=
    List.prefix_refl (literal [55, 102])
  exact
    (readsNumber_iff_lt covered (by decide) (by simp [IsHexDigit]) holds).mpr
      (by decide)

/-- The literal 0xffffffff is read as the error value. -/
theorem not_readsNumber_ffffffff :
    ¬ ReadsNumber (.ofFile (literal (List.replicate 8 102))) 0
        (List.replicate 8 102) := by
  intro reads
  have isError :
      asciiToBin (.ofFile (literal (List.replicate 8 102))) 0
          (literal (List.replicate 8 102)).length =
        some (-1) := by
    decide +kernel
  exact reads.noError isError

end BinTools.Bipatch
