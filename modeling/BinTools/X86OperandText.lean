import BinTools.X86Disasm

namespace BinTools.X86

/-!
# The texts of memory operands

What is written is compared with the text that names the parts of the operand,
form by form.
-/

/-! ## Digits -/

theorem length_hexDigits (value count : Nat) :
    (hexDigits value count).length = count := by
  induction count generalizing value with
  | zero => rfl
  | succ count inductionHypothesis =>
      rw [hexDigits, List.length_append, inductionHypothesis]
      rfl

theorem digitChar_inj {first second : Nat}
    (inFirst : first < 16) (inSecond : second < 16)
    (same : digitChar first = digitChar second) : first = second := by
  have all :
      ∀ first second : Fin 16,
        digitChar first = digitChar second → first = second := by
    decide
  exact congrArg Fin.val (all ⟨first, inFirst⟩ ⟨second, inSecond⟩ same)

/-- Digits tell apart what they are the last digits of. -/
theorem hexDigits_eq_iff (first second count : Nat) :
    hexDigits first count = hexDigits second count ↔
      first % 16 ^ count = second % 16 ^ count := by
  induction count generalizing first second with
  | zero => simp [hexDigits, Nat.mod_one]
  | succ count inductionHypothesis =>
      have inFirst : first % 16 < 16 := Nat.mod_lt _ (by decide)
      have inSecond : second % 16 < 16 := Nat.mod_lt _ (by decide)
      rw [hexDigits, hexDigits, List.append_singleton_inj, inductionHypothesis,
        pow_succ', Nat.mod_mul, Nat.mod_mul]
      constructor
      · rintro ⟨sameFront, sameLast⟩
        rw [digitChar_inj inFirst inSecond sameLast, sameFront]
      · intro same
        have sameLast : first % 16 = second % 16 := by omega
        exact ⟨by omega, by rw [sameLast]⟩

/-- Digits in two parts. -/
theorem hexDigits_add (value high low : Nat) :
    hexDigits value (high + low) =
      hexDigits (value / 16 ^ low) high ++ hexDigits value low := by
  induction low generalizing value with
  | zero => simp [hexDigits]
  | succ low inductionHypothesis =>
      rw [← Nat.add_assoc, hexDigits, inductionHypothesis, hexDigits,
        Nat.div_div_eq_div_mul, ← pow_succ', List.append_assoc]

/-- Every digit is a hexadecimal one. -/
theorem mem_hexDigits {value count : Nat} {c : Char}
    (member : c ∈ hexDigits value count) : c ∈ hexChars := by
  induction count generalizing value with
  | zero => cases member
  | succ count inductionHypothesis =>
      rw [hexDigits, List.mem_append, List.mem_singleton] at member
      rcases member with inFront | isLast
      · exact inductionHypothesis inFront
      · rw [isLast, hexChars]
        exact
          List.mem_map_of_mem
            (List.mem_range.mpr (Nat.mod_lt _ (by decide)))

/-! ## Names -/

theorem registerName_eq (register : Fin 16) :
    registerName register 0x18 = some (nameOf register) := by
  have all :
      ∀ register : Fin 16,
        registerName register 0x18 = some (nameOf register) := by
    decide
  exact all register

/-- A pointer to a register has the name of the register. -/
theorem getRegisterName_eq {p : Address} {register : Fin 16}
    (isRegister : p = .register register) :
    getRegisterName p 0x18 = some (nameOf register) := by
  rw [isRegister]
  exact registerName_eq register

/-! ## Signs and digits that are written -/

theorem flatten_sign (sign : Char) (text : List Char) :
    [[sign], text].flatten = sign :: text := by
  simp

section Written

variable (buffer : DigitBuffer)

theorem checkSign_byte (value : BitVec 8) :
    (checkSign buffer (value.setWidth 64) 8).flatten =
      signed value.toNat 2 ++ buffer.digits.drop 2 := by
  have bound := value.isLt
  have isPow : (powOf 8).toNat = 256 := rfl
  have isHalf : (powOf 8 >>> 1).toNat = 128 := rfl
  have isValue : (value.setWidth 64).toNat = value.toNat := by
    rw [BitVec.toNat_setWidth]
    exact Nat.mod_eq_of_lt (by omega)
  rw [checkSign, signed]
  by_cases isSmall : value.toNat < 128
  · rw [if_neg (by rw [BitVec.le_def, isHalf, isValue]; omega),
      if_pos (by exact isSmall)]
    simp [itoh, isValue]
  · have isNegated :
        (powOf 8 - value.setWidth 64).toNat = 256 - value.toNat := by
      rw [BitVec.toNat_sub, isPow, isValue]
      omega
    rw [if_pos (by rw [BitVec.le_def, isHalf, isValue]; omega),
      if_neg (by exact isSmall)]
    simp [itoh, isNegated]

/-- With the rule for a byte, only the last byte of a displacement is written. -/
theorem checkSign_rip (value : U32) :
    (checkSign buffer (value.setWidth 64) 8).flatten =
      (if value.toNat < 128 then '+' else '-') :: '0' :: 'x' ::
        (hexDigits
            (if value.toNat < 128 then value.toNat
              else 2 ^ 32 - value.toNat) 2 ++
          buffer.digits.drop 2) := by
  have bound := value.isLt
  have isPow : (powOf 8).toNat = 256 := rfl
  have isHalf : (powOf 8 >>> 1).toNat = 128 := rfl
  have isValue : (value.setWidth 64).toNat = value.toNat := by
    rw [BitVec.toNat_setWidth]
    exact Nat.mod_eq_of_lt (by omega)
  rw [checkSign]
  by_cases isSmall : value.toNat < 128
  · rw [if_neg (by rw [BitVec.le_def, isHalf, isValue]; omega),
      if_pos isSmall, if_pos isSmall]
    simp [itoh, isValue]
  · have isNegated :
        hexDigits (powOf 8 - value.setWidth 64).toNat 2 =
          hexDigits (2 ^ 32 - value.toNat) 2 := by
      rw [hexDigits_eq_iff, BitVec.toNat_sub, isPow, isValue]
      omega
    rw [if_pos (by rw [BitVec.le_def, isHalf, isValue]; omega),
      if_neg isSmall, if_neg isSmall, flatten_sign, ← isNegated]
    rfl

/-- The power for 32 digits is one, so that every number is negated. -/
theorem checkSign_dword (value : U64) :
    (checkSign buffer value 32).flatten =
      '-' :: '0' :: 'x' ::
        (hexDigits (2 ^ 32 + 1 - value.toNat % 2 ^ 32) 8 ++
          buffer.digits.drop 8) := by
  have bound := value.isLt
  have isPow : (powOf 32).toNat = 1 := rfl
  have isHalf : (powOf 32 >>> 1).toNat = 0 := rfl
  have isNegated :
      hexDigits (powOf 32 - value).toNat 8 =
        hexDigits (2 ^ 32 + 1 - value.toNat % 2 ^ 32) 8 := by
    rw [hexDigits_eq_iff, BitVec.toNat_sub, isPow]
    omega
  rw [checkSign, if_pos (by rw [BitVec.le_def, isHalf]; omega), flatten_sign,
    ← isNegated]
  rfl

/-- No sign is a bracket. -/
theorem head_checkSign (value : U64) (digit : Nat) (later : List (List Char)) :
    (checkSign buffer value digit ++ later).head?.bind List.head? ≠
      some '[' := by
  rw [checkSign]
  split
  · exact (by decide : some '-' ≠ some '[')
  · exact (by decide : some '+' ≠ some '[')

end Written

/-! ## Brackets -/

/-- Strings with a bracket in front get one behind. -/
theorem cons_bracket (buf : List (List Char)) :
    cons (['['] :: buf) = '[' :: (buf.flatten ++ [']']) :=
  rfl

/-- Strings without a bracket in front stay as they are. -/
theorem cons_of_ne {buf : List (List Char)}
    (noBracket : buf.head?.bind List.head? ≠ some '[') :
    cons buf = buf.flatten := by
  rw [cons, if_neg noBracket]

/-- Nothing stands in front of a bracket. -/
theorem append_bracket_iff (more : List Char) :
    more ++ [']'] = [']'] ↔ more = [] := by
  constructor
  · intro same
    exact List.append_cancel_right (same.trans (List.nil_append _).symm)
  · rintro rfl
    rfl

/-- Equally many digits, and what follows them. -/
theorem digits_append_iff
    (first second count : Nat) (tail later : List Char) :
    hexDigits first count ++ tail = hexDigits second count ++ later ↔
      first % 16 ^ count = second % 16 ^ count ∧ tail = later := by
  rw [← hexDigits_eq_iff]
  constructor
  · intro same
    exact
      List.append_inj same
        (by rw [length_hexDigits, length_hexDigits])
  · rintro ⟨sameDigits, rfl⟩
    rw [sameDigits]

theorem drop_eq_nil_iff (buffer : DigitBuffer) (count : Nat) :
    buffer.digits.drop count = [] ↔ buffer.digits.length ≤ count :=
  List.drop_eq_nil_iff

/-! ## Operands without a SIB byte -/

/-- Eight digits behind two that are written and those that are left. -/
theorem eight_digits_iff
    (buffer : DigitBuffer) {written value : Nat} (inWord : value < 2 ^ 32) :
    hexDigits written 2 ++ (buffer.digits.drop 2 ++ [']']) =
        hexDigits value 8 ++ [']'] ↔
      value / 2 ^ 24 = written % 2 ^ 8 ∧
        buffer.digits.drop 2 = hexDigits value 6 := by
  rw [show 8 = 2 + 6 from rfl, hexDigits_add, List.append_assoc,
    digits_append_iff, List.append_cancel_right_eq]
  constructor
  · rintro ⟨sameHigh, sameLow⟩
    exact ⟨by omega, sameLow⟩
  · rintro ⟨sameHigh, sameLow⟩
    exact ⟨by omega, sameLow⟩

/-- A displacement that is not negative. -/
theorem signed_positive {value : Nat} (isPositive : value < 2 ^ 31) :
    signed value 8 = '+' :: '0' :: 'x' :: hexDigits value 8 :=
  if_pos isPositive

/-- A negative displacement. -/
theorem signed_negative {value : Nat} (isNegative : ¬ value < 2 ^ 31) :
    signed value 8 = '-' :: '0' :: 'x' :: hexDigits (2 ^ 32 - value) 8 :=
  if_neg isNegative

section NoSib

variable
  {con : State}
  {buffer : DigitBuffer}
  (aflag : con.aflag = 0x18)

include aflag

/-- A base register and the displacement behind it. -/
theorem t1_base_iff
    {register : Fin 16} {displacement : Displacement}
    (isIn : (Operand.base register displacement).IsIn con) :
    t1 con true buffer = some (Operand.base register displacement).text ↔
      DisplacementShown con buffer displacement := by
  obtain ⟨noSib, noRip, isRegister, isDisplacement⟩ := isIn
  have isName := getRegisterName_eq isRegister
  rw [← aflag] at isName
  cases displacement with
  | none =>
      have isMod : con.mod = 0x00 := isDisplacement
      rw [t1, if_pos rfl, if_pos isMod, if_neg (not_not.mpr noSib),
        if_neg (not_not.mpr noRip), isName, Option.map_some, cons_bracket]
      simp [Operand.text, Displacement.text, DisplacementShown]
  | byte value =>
      obtain ⟨isMod, isValue⟩ := isDisplacement
      have notZero : con.mod ≠ 0x00 := by rw [isMod]; decide
      rw [t1, if_pos rfl, if_neg notZero, if_pos isMod,
        if_neg (not_not.mpr noSib), isName, Option.map_some, isValue,
        List.cons_append, cons_bracket, List.singleton_append,
        List.flatten_cons, checkSign_byte, Option.some_inj, Operand.text,
        List.cons_inj_right, Displacement.text, List.append_assoc,
        List.append_cancel_left_eq, List.append_assoc,
        List.append_cancel_left_eq, append_bracket_iff, drop_eq_nil_iff]
      rfl
  | dword value =>
      obtain ⟨isMod, isValue⟩ := isDisplacement
      have notZero : con.mod ≠ 0x00 := by rw [isMod]; decide
      have notByte : con.mod ≠ 0x08 := by rw [isMod]; decide
      have bound := value.isLt
      rw [t1, if_pos rfl, if_neg notZero, if_neg notByte, if_pos isMod,
        if_neg (not_not.mpr noSib), isName, Option.map_some,
        List.cons_append, cons_bracket, List.singleton_append,
        List.flatten_cons, checkSign_dword, Option.some_inj, Operand.text,
        List.cons_inj_right, Displacement.text, List.append_assoc,
        List.append_cancel_left_eq]
      rw [DisplacementShown]
      by_cases isSmall : value.toNat < 2 ^ 31
      · rw [signed_positive isSmall]
        have otherSign : '-' ≠ '+' := by decide
        simp only [List.cons_append, List.cons.injEq, otherSign, false_and,
          false_iff]
        omega
      · rw [signed_negative isSmall]
        simp only [List.cons_append, List.cons.injEq, true_and,
          List.append_assoc, digits_append_iff, append_bracket_iff,
          drop_eq_nil_iff]
        constructor
        · rintro ⟨sameNumber, isShort⟩
          exact ⟨by omega, by omega, isShort⟩
        · rintro ⟨-, sameNumber, isShort⟩
          exact ⟨by omega, isShort⟩

omit aflag in
/-- The text for an operand that is relative to the instruction pointer. -/
theorem t1_rip
    {displacement : U32} (isIn : (Operand.rip displacement).IsIn con) :
    t1 con true buffer =
      some
        ('[' :: (['r', 'i', 'p'] ++
          ((if displacement.toNat < 128 then '+' else '-') :: '0' :: 'x' ::
            (hexDigits
                (if displacement.toNat < 128 then displacement.toNat
                  else 2 ^ 32 - displacement.toNat) 2 ++
              (buffer.digits.drop 2 ++ [']']))))) := by
  obtain ⟨noSib, isMod, isRip, isValue⟩ := isIn
  rw [t1, if_pos rfl, if_pos isMod, if_neg (not_not.mpr noSib), if_pos isRip,
    isValue, List.cons_append, cons_bracket, List.singleton_append,
    List.flatten_cons, checkSign_rip]
  simp only [List.cons_append, List.nil_append, List.append_assoc]

omit aflag in
/-- The instruction pointer and its displacement. -/
theorem t1_rip_iff
    {displacement : U32} (isIn : (Operand.rip displacement).IsIn con) :
    t1 con true buffer = some (Operand.rip displacement).text ↔
      (displacement = 0 ∨ 2 ^ 31 ≤ displacement.toNat) ∧
        magnitude displacement / 2 ^ 24 = magnitude displacement % 2 ^ 8 ∧
        buffer.digits.drop 2 = hexDigits (magnitude displacement) 6 := by
  have bound := displacement.isLt
  have isZero : displacement = 0 ↔ displacement.toNat = 0 :=
    (BitVec.toNat_inj (y := 0)).symm
  have otherSign : '-' ≠ '+' := by decide
  rw [t1_rip isIn, Option.some_inj, Operand.text, Displacement.text,
    isZero]
  by_cases isPositive : displacement.toNat < 2 ^ 31
  · have isMagnitude : magnitude displacement = displacement.toNat :=
      if_pos isPositive
    rw [signed_positive isPositive, isMagnitude]
    by_cases isByte : displacement.toNat < 128
    · rw [if_pos isByte, if_pos isByte]
      simp only [List.cons_append, List.nil_append, List.cons.injEq, true_and,
        eight_digits_iff buffer bound]
      have noHigh : displacement.toNat / 2 ^ 24 = 0 := by omega
      constructor
      · rintro ⟨sameHigh, sameLow⟩
        exact ⟨by omega, sameHigh, sameLow⟩
      · rintro ⟨-, sameHigh, sameLow⟩
        exact ⟨sameHigh, sameLow⟩
    · rw [if_neg isByte, if_neg isByte]
      simp only [List.cons_append, List.nil_append, List.cons.injEq, true_and,
        otherSign, false_and, false_iff]
      omega
  · have isMagnitude :
        magnitude displacement = 2 ^ 32 - displacement.toNat :=
      if_neg isPositive
    have notByte : ¬ displacement.toNat < 128 := by omega
    have inWord : 2 ^ 32 - displacement.toNat < 2 ^ 32 := by omega
    rw [signed_negative isPositive, isMagnitude, if_neg notByte,
      if_neg notByte]
    simp only [List.cons_append, List.nil_append, List.cons.injEq, true_and,
      eight_digits_iff buffer inWord]
    constructor
    · rintro ⟨sameHigh, sameLow⟩
      exact ⟨by omega, sameHigh, sameLow⟩
    · rintro ⟨-, sameHigh, sameLow⟩
      exact ⟨sameHigh, sameLow⟩

end NoSib

/-! ## Operands with a SIB byte -/

/-- What is written behind the base. -/
def writtenIndex (con : State) (index : Option (Fin 16 × Fin 4)) : List Char :=
  if con.sibScale = 0 then
    [')']
  else
    ',' :: (nameOf ((index.map Prod.fst).getD 4) ++
      ',' :: (scaleText con.sibScale).flatten)

/-- The index is written as expected when a scale of zero stands for none. -/
theorem writtenIndex_iff
    {con : State} {index : Option (Fin 16 × Fin 4)}
    (isIndex : IndexIsIn con index) :
    writtenIndex con index = indexText index ++ [')'] ↔
      IndexShown con index := by
  have otherSign : ',' ≠ ')' := by decide
  rw [IndexShown, writtenIndex]
  cases index with
  | none =>
      by_cases isZero : con.sibScale = 0
      · simp [indexText, isZero]
      · simp [indexText, isZero]
  | some indexed =>
      obtain ⟨register, scale⟩ := indexed
      obtain ⟨-, -, isScale⟩ := isIndex
      by_cases isZero : con.sibScale = 0
      · simp [indexText, isZero]
      · have isFactor :
            (scaleText con.sibScale).flatten = [factor scale, ')'] := by
          have all :
              ∀ scale : Fin 4, UInt8.ofNat scale ≠ 0 →
                (scaleText (UInt8.ofNat scale)).flatten =
                  [factor scale, ')'] := by
            decide
          rw [isScale] at isZero ⊢
          exact all scale isZero
        rw [if_neg isZero, isFactor]
        simp [indexText, isZero]

/-- What is behind the displacement is cancelled from its bracket on. -/
theorem append_paren_iff
    {more : List Char} (noParen : '(' ∉ more) (first second : List Char) :
    more ++ '(' :: first = '(' :: second ↔ more = [] ∧ first = second := by
  cases more with
  | nil => simp
  | cons c more =>
      have notParen : c ≠ '(' := fun isParen => noParen (isParen ▸ List.mem_cons_self)
      simp [notParen]

theorem paren_not_mem (buffer : DigitBuffer) (count : Nat) :
    '(' ∉ buffer.digits.drop count := by
  intro member
  have isDigit := buffer.areDigits '(' (List.mem_of_mem_drop member)
  exact absurd isDigit (by decide)

section Sib

variable
  {con : State}
  (aflag : con.aflag = 0x18)

include aflag

/-- The text of base and index behind the strings that are there. -/
theorem writeScaleIndexBase_eq
    {lowest : Option (Fin 16)} {index : Option (Fin 16 × Fin 4)}
    {buf : List (List Char)}
    (isBase : con.sibBase = baseAddress lowest)
    (isIndex : IndexIsIn con index)
    (noBracket :
      ∀ later, (buf ++ ['('] :: later).head?.bind List.head? ≠ some '[') :
    writeScaleIndexBase con buf =
      some
        (buf.flatten ++
          '(' :: (baseText lowest ++ writtenIndex con index)) := by
  have isName : baseName con = some (baseText lowest) := by
    rw [baseName, isBase, aflag]
    cases lowest with
    | none => rfl
    | some register =>
        rw [if_neg (by simp [baseAddress])]
        exact getRegisterName_eq rfl
  have isIndexName :
      getRegisterName con.sibIndex con.aflag =
        some (nameOf ((index.map Prod.fst).getD 4)) := by
    rw [aflag]
    cases index with
    | none => exact getRegisterName_eq isIndex.1
    | some indexed => exact getRegisterName_eq isIndex.2.1
  rw [writeScaleIndexBase, isName, writtenIndex]
  by_cases isZero : con.sibScale = 0
  · rw [Option.bind_eq_bind, Option.bind_some, if_pos isZero, if_pos isZero,
      cons_of_ne (noBracket _)]
    simp
  · rw [Option.bind_eq_bind, Option.bind_some, if_neg isZero, if_neg isZero,
      isIndexName, Option.bind_some, List.append_assoc, List.cons_append,
      cons_of_ne (noBracket _)]
    simp

/-- Base and index, and the displacement in front of them. -/
theorem t1_sib_iff
    {buffer : DigitBuffer} {lowest : Option (Fin 16)}
    {index : Option (Fin 16 × Fin 4)} {displacement : Displacement}
    (isIn : (Operand.sib lowest index displacement).IsIn con) :
    t1 con true buffer = some (Operand.sib lowest index displacement).text ↔
      SibShown con buffer index displacement := by
  obtain ⟨isSib, isBase, isIndex, isDisplacement⟩ := isIn
  cases displacement with
  | none =>
      have isMod : con.mod = 0x00 := isDisplacement
      have noBracket :
          ∀ later : List (List Char),
            (['('] :: later).head?.bind List.head? ≠ some '[' := fun _ =>
        (by decide : some '(' ≠ some '[')
      rw [t1, if_pos rfl, if_pos isMod, if_pos isSib,
        writeScaleIndexBase_eq aflag isBase isIndex noBracket,
        Option.some_inj, Operand.text, Displacement.text, List.flatten_nil,
        List.append_cancel_left_eq, List.cons_inj_right,
        List.append_cancel_left_eq, writtenIndex_iff isIndex]
      rfl
  | byte value =>
      obtain ⟨isMod, isValue⟩ := isDisplacement
      have notZero : con.mod ≠ 0x00 := by rw [isMod]; decide
      rw [t1, if_pos rfl, if_neg notZero, if_pos isMod, if_pos isSib,
        writeScaleIndexBase_eq aflag isBase isIndex fun later =>
          head_checkSign buffer con.displacement 8 _,
        isValue, checkSign_byte, Option.some_inj, Operand.text,
        Displacement.text, List.append_assoc, List.append_cancel_left_eq,
        append_paren_iff (paren_not_mem buffer 2), drop_eq_nil_iff,
        List.append_cancel_left_eq, writtenIndex_iff isIndex, and_comm]
      rfl
  | dword value =>
      obtain ⟨isMod, isValue⟩ := isDisplacement
      have notZero : con.mod ≠ 0x00 := by rw [isMod]; decide
      have notByte : con.mod ≠ 0x08 := by rw [isMod]; decide
      have bound := value.isLt
      have isNumber : (value.setWidth 64).toNat = value.toNat := by
        rw [BitVec.toNat_setWidth]
        exact Nat.mod_eq_of_lt (by omega)
      rw [t1, if_pos rfl, if_neg notZero, if_neg notByte, if_pos isMod,
        if_pos isSib,
        writeScaleIndexBase_eq aflag isBase isIndex fun later =>
          head_checkSign buffer con.displacement 32 _,
        isValue, checkSign_dword, isNumber, Option.some_inj, Operand.text,
        Displacement.text, SibShown]
      by_cases isPositive : value.toNat < 2 ^ 31
      · rw [signed_positive isPositive]
        simp
      · rw [signed_negative isPositive]
        simp only [List.cons_append, List.cons.injEq, true_and,
          List.append_assoc, digits_append_iff, iff_false, not_and]
        intro sameNumber
        omega

end Sib

/-- The text of a memory operand is the one that names its parts. -/
theorem named_iff_shown (context : DecodedContext) (buffer : DigitBuffer) :
    context.Named buffer ↔ context.Shown buffer := by
  obtain ⟨con, operand, isIn, aflag⟩ := context
  cases operand with
  | base register displacement => exact t1_base_iff aflag isIn
  | rip displacement => exact t1_rip_iff isIn
  | sib lowest index displacement => exact t1_sib_iff aflag isIn

/-! ## Texts that tell operands apart -/

/-- Two texts with an end that is recognised are split alike. -/
theorem append_inj_of_stop
    {stop : Char → Bool} {first second later other : List Char}
    (inFirst : ∀ c ∈ first, stop c = false)
    (inSecond : ∀ c ∈ second, stop c = false)
    (atLater : ∀ c ∈ later.head?, stop c = true)
    (atOther : ∀ c ∈ other.head?, stop c = true)
    (same : first ++ later = second ++ other) :
    first = second ∧ later = other := by
  induction first generalizing second with
  | nil =>
      cases second with
      | nil => exact ⟨rfl, same⟩
      | cons c second =>
          have isHead : c ∈ later.head? := by
            rw [show later = c :: second ++ other from same]
            rfl
          have isStop := atLater c isHead
          rw [inSecond c List.mem_cons_self] at isStop
          cases isStop
  | cons c first inductionHypothesis =>
      cases second with
      | nil =>
          have isHead : c ∈ other.head? := by
            rw [show other = c :: first ++ later from same.symm]
            rfl
          have isStop := atOther c isHead
          rw [inFirst c List.mem_cons_self] at isStop
          cases isStop
      | cons d second =>
          obtain ⟨rfl, sameRest⟩ := List.cons_eq_cons.mp same
          obtain ⟨rfl, sameLater⟩ :=
            inductionHypothesis
              (fun e member => inFirst e (List.mem_cons_of_mem _ member))
              (fun e member => inSecond e (List.mem_cons_of_mem _ member))
              sameRest
          exact ⟨rfl, sameLater⟩

theorem nameOf_injective : Function.Injective nameOf := by
  have all :
      ∀ first second : Fin 16, nameOf first = nameOf second → first = second := by
    decide
  exact fun first second => all first second

theorem nameOf_ne_rip (register : Fin 16) : nameOf register ≠ ['r', 'i', 'p'] := by
  have all : ∀ register : Fin 16, nameOf register ≠ ['r', 'i', 'p'] := by
    decide
  exact all register

theorem baseText_injective : Function.Injective baseText := by
  have noBlank : ∀ register : Fin 16, nameOf register ≠ [' '] := by
    decide
  intro first second same
  cases first with
  | none =>
      cases second with
      | none => rfl
      | some other => exact absurd same.symm (noBlank other)
  | some register =>
      cases second with
      | none => exact absurd same (noBlank register)
      | some other => rw [nameOf_injective same]

theorem factor_injective : Function.Injective factor := by
  have all :
      ∀ first second : Fin 4, factor first = factor second → first = second := by
    decide
  exact fun first second => all first second

/-- The characters that end a name. -/
def endsName (c : Char) : Bool :=
  c == '+' || c == '-' || c == ']' || c == ',' || c == ')'

theorem endsName_nameOf {register : Fin 16} {c : Char}
    (member : c ∈ nameOf register) : endsName c = false := by
  have all :
      ∀ register : Fin 16,
        ((nameOf register).all fun c => !endsName c) = true := by
    decide
  simpa using List.all_eq_true.mp (all register) c member

/-- A displacement is recognised from its sign and its digits. -/
theorem signed_inj
    {first second count : Nat} (positive : 0 < count)
    (inFirst : first < 16 ^ count) (inSecond : second < 16 ^ count)
    (same : signed first count = signed second count) : first = second := by
  have isLarge : 16 ≤ 16 ^ count := Nat.le_self_pow positive.ne' 16
  have otherSign : '-' ≠ '+' := by decide
  rw [signed, signed] at same
  split at same
  · split at same
    · simp only [List.cons.injEq, true_and, hexDigits_eq_iff] at same
      rwa [Nat.mod_eq_of_lt inFirst, Nat.mod_eq_of_lt inSecond] at same
    · simp only [List.cons.injEq, otherSign.symm, false_and] at same
  · split at same
    · simp only [List.cons.injEq, otherSign, false_and] at same
    · simp only [List.cons.injEq, true_and, hexDigits_eq_iff] at same
      rw [Nat.mod_eq_of_lt (by omega), Nat.mod_eq_of_lt (by omega)] at same
      omega

theorem length_signed (value count : Nat) :
    (signed value count).length = count + 3 := by
  rw [signed]
  split <;> rw [List.length_cons, List.length_cons, List.length_cons,
    length_hexDigits]

theorem head_signed {value count : Nat} {c : Char} {later : List Char}
    (isHead : c ∈ (signed value count ++ later).head?) :
    c = '+' ∨ c = '-' := by
  rw [signed] at isHead
  split at isHead
  · exact .inl (Option.some.inj isHead).symm
  · exact .inr (Option.some.inj isHead).symm

theorem paren_not_mem_signed (value count : Nat) :
    '(' ∉ signed value count := by
  have noDigit : ∀ number, '(' ∉ hexDigits number count := fun number member =>
    absurd (mem_hexDigits member) (by decide)
  rw [signed]
  split <;> simp [noDigit]

theorem displacementText_injective :
    Function.Injective Displacement.text := by
  intro first second same
  have sameLength := congrArg List.length same
  cases first with
  | none =>
      cases second with
      | none => rfl
      | byte value => simp [Displacement.text, length_signed] at sameLength
      | dword value => simp [Displacement.text, length_signed] at sameLength
  | byte value =>
      cases second with
      | none => simp [Displacement.text, length_signed] at sameLength
      | byte other =>
          have isSame :=
            signed_inj (by decide) value.isLt other.isLt same
          rw [BitVec.toNat_inj.mp isSame]
      | dword other => simp [Displacement.text, length_signed] at sameLength
  | dword value =>
      cases second with
      | none => simp [Displacement.text, length_signed] at sameLength
      | byte other => simp [Displacement.text, length_signed] at sameLength
      | dword other =>
          have isSame :=
            signed_inj (by decide) value.isLt other.isLt same
          rw [BitVec.toNat_inj.mp isSame]

/-- A name and the displacement behind it. -/
theorem name_displacement_inj
    {first second : List Char} {one two : Displacement}
    (inFirst : ∀ c ∈ first, endsName c = false)
    (inSecond : ∀ c ∈ second, endsName c = false)
    (same :
      first ++ (one.text ++ [']']) = second ++ (two.text ++ [']'])) :
    first = second ∧ one = two := by
  have ends :
      ∀ displacement : Displacement,
        ∀ c ∈ (displacement.text ++ [']']).head?, endsName c = true := by
    intro displacement c isHead
    cases displacement with
    | none =>
        rw [← Option.some.inj isHead]
        rfl
    | byte value => rcases head_signed isHead with rfl | rfl <;> rfl
    | dword value => rcases head_signed isHead with rfl | rfl <;> rfl
  obtain ⟨sameName, sameRest⟩ :=
    append_inj_of_stop inFirst inSecond (ends one) (ends two) same
  exact
    ⟨sameName,
      displacementText_injective (List.append_cancel_right sameRest)⟩

/-- A base and what is behind it. -/
theorem base_index_inj
    {one two : Option (Fin 16)} {first second : Option (Fin 16 × Fin 4)}
    (same :
      baseText one ++ (indexText first ++ [')']) =
        baseText two ++ (indexText second ++ [')'])) :
    one = two ∧ first = second := by
  have inBase :
      ∀ lowest : Option (Fin 16), ∀ c ∈ baseText lowest,
        endsName c = false := by
    intro lowest c member
    cases lowest with
    | none =>
        rw [List.mem_singleton.mp member]
        rfl
    | some register => exact endsName_nameOf member
  have ends :
      ∀ index : Option (Fin 16 × Fin 4),
        ∀ c ∈ (indexText index ++ [')']).head?, endsName c = true := by
    intro index c isHead
    cases index with
    | none =>
        rw [← Option.some.inj isHead]
        rfl
    | some indexed =>
        rw [← Option.some.inj isHead]
        rfl
  obtain ⟨sameBase, sameRest⟩ :=
    append_inj_of_stop (inBase one) (inBase two) (ends first) (ends second)
      same
  refine ⟨baseText_injective sameBase, ?_⟩
  have sameIndex := List.append_cancel_right sameRest
  cases first with
  | none =>
      cases second with
      | none => rfl
      | some _ => cases sameIndex
  | some one =>
      cases second with
      | none => cases sameIndex
      | some two =>
          have sameNames := (List.cons_eq_cons.mp sameIndex).2
          obtain ⟨sameName, sameFactor⟩ :=
            append_inj_of_stop (fun c => endsName_nameOf)
              (fun c => endsName_nameOf)
              (fun c isHead => by rw [← Option.some.inj isHead]; rfl)
              (fun c isHead => by rw [← Option.some.inj isHead]; rfl)
              sameNames
          have sameRegister := nameOf_injective sameName
          have sameScale : one.2 = two.2 := by
            apply factor_injective
            simpa using sameFactor
          rw [Prod.ext sameRegister sameScale]

/-- Operands with the same text are the same. -/
theorem operandText_injective : Function.Injective Operand.text := by
  have inRip : ∀ c ∈ ['r', 'i', 'p'], endsName c = false := by
    simp [endsName]
  have heads :
      ∀ (lowest : Option (Fin 16)) (index : Option (Fin 16 × Fin 4))
        (displacement : Displacement) (rest : List Char),
        (Operand.sib lowest index displacement).text ≠ '[' :: rest := by
    intro lowest index displacement rest isBracket
    have isHead : '[' ∈ (Operand.sib lowest index displacement).text.head? := by
      rw [isBracket]
      rfl
    cases displacement with
    | none => exact absurd (Option.some.inj isHead) (by decide)
    | byte value =>
        rcases head_signed isHead with isSign | isSign <;> cases isSign
    | dword value =>
        rcases head_signed isHead with isSign | isSign <;> cases isSign
  intro first second same
  cases first with
  | base register displacement =>
      cases second with
      | base other more =>
          obtain ⟨sameName, rfl⟩ :=
            name_displacement_inj (fun c => endsName_nameOf)
              (fun c => endsName_nameOf) (List.cons_eq_cons.mp same).2
          rw [nameOf_injective sameName]
      | rip more =>
          obtain ⟨sameName, -⟩ :=
            name_displacement_inj (fun c => endsName_nameOf) inRip
              (List.cons_eq_cons.mp same).2
          exact absurd sameName (nameOf_ne_rip register)
      | sib lowest index more => exact absurd same.symm (heads _ _ _ _)
  | rip displacement =>
      cases second with
      | base other more =>
          obtain ⟨sameName, -⟩ :=
            name_displacement_inj inRip (fun c => endsName_nameOf)
              (List.cons_eq_cons.mp same).2
          exact absurd sameName.symm (nameOf_ne_rip other)
      | rip more =>
          obtain ⟨-, sameValue⟩ :=
            name_displacement_inj inRip inRip (List.cons_eq_cons.mp same).2
          rw [Displacement.dword.inj sameValue]
      | sib lowest index more => exact absurd same.symm (heads _ _ _ _)
  | sib lowest index displacement =>
      cases second with
      | base other more => exact absurd same (heads _ _ _ _)
      | rip more => exact absurd same (heads _ _ _ _)
      | sib other more later =>
          have noParen :
              ∀ displacement : Displacement, ∀ c ∈ displacement.text,
                (c == '(') = false := by
            intro displacement c member
            rw [beq_eq_false_iff_ne]
            rintro rfl
            cases displacement with
            | none => cases member
            | byte value => exact paren_not_mem_signed _ _ member
            | dword value => exact paren_not_mem_signed _ _ member
          obtain ⟨sameText, sameRest⟩ :=
            append_inj_of_stop (noParen displacement) (noParen later)
              (fun c isHead => by rw [← Option.some.inj isHead]; rfl)
              (fun c isHead => by rw [← Option.some.inj isHead]; rfl) same
          obtain ⟨rfl, rfl⟩ :=
            base_index_inj (List.cons_eq_cons.mp sameRest).2
          rw [displacementText_injective sameText]

/--
For every context with a memory operand, and whatever is left in the buffer of
digits, the text names the parts of the operand exactly when they are shown, and
two operands that are named by one text are the same.
-/
theorem named_iff_and_tells_apart
    (context : DecodedContext) (buffer : DigitBuffer) :
    (context.Named buffer ↔ context.Shown buffer) ∧
      ∀ (other : DecodedContext) (otherBuffer : DigitBuffer),
        context.Named buffer → other.Named otherBuffer →
          t1 context.con true buffer = t1 other.con true otherBuffer →
            context.operand = other.operand := by
  refine ⟨named_iff_shown context buffer, ?_⟩
  intro other otherBuffer named otherNamed same
  rw [DecodedContext.Named] at named otherNamed
  rw [named, otherNamed, Option.some_inj] at same
  exact operandText_injective same

end BinTools.X86
