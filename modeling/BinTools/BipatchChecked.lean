import BinTools.BipatchNumbers

namespace BinTools.Bipatch

/-!
# Reading a patch with every access checked

`read_patch` for any bytes as the patch file: what it reads is a byte of the file
in the mapping and what it writes is in one of the two tables, or it fails.
-/

/-! ## The checked reading -/

/-- The bytes of a file that are in its mapping, and nothing behind them. -/
def Mapped.inFile (bytes : List UInt8) : Mapped where
  bytes := bytes
  mapSize := min bytes.length (mapSizeOf (BitVec.ofNat 64 bytes.length))

/-- `read_patch` returns 0 or 1 with every access inside the file and the tables. -/
def ReadsSafely (patch : List UInt8) : Prop :=
  ∃ fuel, (readLines (.inFile patch) fuel ⟨0, [], 0, 0⟩).isSome

/-! ## What is left of the text -/

/-- The bytes that can be read. -/
def Mapped.window (text : Mapped) : List UInt8 :=
  text.bytes.take text.mapSize

/-- From the address on there are these bytes and no others. -/
structure Mapped.Left (text : Mapped) (p : Nat) (rest : List UInt8) : Prop where
  rest : text.window.drop p = rest
  inside : p ≤ text.window.length

namespace Mapped.Left

variable
  {text : Mapped}
  {p : Nat}
  {c : UInt8}
  {front rest : List UInt8}

theorem append (left : text.Left p (front ++ rest)) :
    text.Left (p + front.length) rest := by
  have isLength := congrArg List.length left.rest
  rw [List.length_drop, List.length_append] at isLength
  have inside := left.inside
  refine ⟨?_, by omega⟩
  rw [← List.drop_drop, left.rest, List.drop_left]

theorem tail (left : text.Left p (c :: rest)) : text.Left (p + 1) rest :=
  append (show text.Left p ([c] ++ rest) from left)

theorem length_eq (left : text.Left p rest) :
    p + rest.length = text.window.length := by
  have isLength := congrArg List.length left.rest
  rw [List.length_drop] at isLength
  have inside := left.inside
  omega

theorem length_lt_fuel (left : text.Left p rest) : rest.length < text.fuel := by
  have isLength := left.length_eq
  have inText : text.window.length ≤ text.bytes.length := by
    rw [window, List.length_take]
    exact Nat.min_le_right _ _
  rw [fuel, pageSize]
  omega

end Mapped.Left

/-- Only bytes of the file are mapped. -/
def Mapped.Exact (text : Mapped) : Prop :=
  text.mapSize ≤ text.bytes.length

theorem exact_inFile (bytes : List UInt8) : (Mapped.inFile bytes).Exact :=
  Nat.min_le_left _ _

section Exact

variable
  {text : Mapped}
  (exactly : text.Exact)

include exactly

theorem readAt_eq_window (p : Nat) : text.readAt p = text.window[p]? := by
  rw [Mapped.readAt, Mapped.window, List.getElem?_take]
  split
  · have inFile : p < text.bytes.length := Nat.lt_of_lt_of_le ‹_› exactly
    rw [List.getD_eq_getElem?_getD, List.getElem?_eq_getElem inFile]
    rfl
  · rfl

theorem readAt_left {p : Nat} {rest : List UInt8} (left : text.Left p rest) :
    text.readAt p = rest.head? := by
  rw [readAt_eq_window exactly, ← left.rest, List.head?_drop]

theorem readAt_behind {p : Nat} (behind : text.window.length ≤ p) :
    text.readAt p = none := by
  rw [readAt_eq_window exactly]
  exact List.getElem?_eq_none behind

/-- A run of bytes is skipped up to the first one that fails the test. -/
theorem skipWhile_iff
    {test : UInt8 → Bool} {fuel p next : Nat} {rest : List UInt8}
    (left : text.Left p rest) (enough : rest.length < fuel) :
    skipWhile text test fuel p = some next ↔
      ∃ run c later,
        rest = run ++ c :: later ∧ (∀ x ∈ run, test x = true) ∧
          test c = false ∧ next = p + run.length := by
  induction rest generalizing p fuel with
  | nil =>
      obtain ⟨fuel, rfl⟩ := Nat.exists_eq_succ_of_ne_zero enough.ne'
      rw [skipWhile, readAt_left exactly left]
      simp
  | cons x rest inductionHypothesis =>
      obtain ⟨fuel, rfl⟩ :=
        Nat.exists_eq_succ_of_ne_zero (Nat.ne_of_gt (Nat.zero_lt_of_lt enough))
      rw [skipWhile, readAt_left exactly left, List.head?_cons,
        Option.bind_eq_bind, Option.bind_some]
      cases isTest : test x with
      | false =>
          rw [if_neg Bool.false_ne_true, Option.some_inj]
          constructor
          · rintro rfl
            exact ⟨[], x, rest, rfl, by simp, isTest, rfl⟩
          · rintro ⟨run, c, later, isRest, areRun, -, rfl⟩
            cases run with
            | nil => rfl
            | cons y run =>
                have := areRun y (by simp)
                rw [← (List.cons_eq_cons.mp isRest).1, isTest] at this
                exact absurd this Bool.false_ne_true
      | true =>
          rw [if_pos rfl,
            inductionHypothesis left.tail (Nat.lt_of_succ_lt_succ enough)]
          constructor
          · rintro ⟨run, c, later, rfl, areRun, isStop, rfl⟩
            refine ⟨x :: run, c, later, rfl, ?_, isStop, ?_⟩
            · intro y member
              cases member with
              | head => exact isTest
              | tail _ member => exact areRun y member
            · rw [List.length_cons]
              omega
          · rintro ⟨run, c, later, isRest, areRun, isStop, rfl⟩
            cases run with
            | nil =>
                rw [← (List.cons_eq_cons.mp isRest).1, isTest] at isStop
                exact absurd isStop.symm Bool.false_ne_true
            | cons y run =>
                refine
                  ⟨run, c, later, (List.cons_eq_cons.mp isRest).2,
                    fun z member => areRun z (List.mem_cons_of_mem _ member),
                    isStop, ?_⟩
                rw [List.length_cons]
                omega

end Exact

/-! ## Numbers in a malformed patch -/

/-- What `ascii_to_bin` refuses after it has read it. -/
inductive Refused (count : Nat) : List UInt8 → Prop where
  | noZero {c : UInt8} (rest : List UInt8) (isOther : c ≠ 48) :
      Refused count (c :: rest)
  | noX {c : UInt8} (rest : List UInt8) (isOther : c ≠ 120) :
      Refused count (48 :: c :: rest)
  | noNumber {digits : List UInt8} (rest : List UInt8)
      (isLength : digits.length = count)
      (isWrong :
        (∃ c ∈ digits, ¬ IsHexDigit c) ∨ digits = List.replicate 8 102) :
      Refused count (literal digits ++ rest)

/-- The digits of a number that is none of the error value. -/
structure Accepted (count : Nat) (digits : List UInt8) : Prop where
  isLength : digits.length = count
  areDigits : ∀ c ∈ digits, IsHexDigit c
  noError : digits ≠ List.replicate 8 102

theorem digit?_eq_none_iff (c : UInt8) : digit? c = none ↔ ¬ IsHexDigit c := by
  rw [digit?, IsHexDigit]
  split
  · simp_all
  · split <;> simp_all

/-- A number of at most eight digits is the error value for one literal alone. -/
theorem signExtend_hexValue_eq_neg_one_iff
    {digits : List UInt8} (short : digits.length ≤ 8)
    (areDigits : ∀ c ∈ digits, IsHexDigit c) :
    (BitVec.ofNat 32 (hexValue digits)).signExtend 64 = -1 ↔
      digits = List.replicate 8 102 := by
  have below := hexValue_lt areDigits
  have inWord : hexValue digits < 2 ^ 32 :=
    below.trans_le (Nat.pow_le_pow_right (by decide) short)
  have isValue : (BitVec.ofNat 32 (hexValue digits)).toNat = hexValue digits :=
    Nat.mod_eq_of_lt inWord
  rw [signExtend_eq_neg_one_iff, isValue]
  constructor
  · intro isError
    have isEight : digits.length = 8 := by
      by_contra notEight
      have isLess : 16 ^ digits.length ≤ 16 ^ 7 :=
        Nat.pow_le_pow_right (by decide) (by omega)
      omega
    rw [← digits_hexValue areDigits, isEight, isError]
    decide
  · rintro rfl
    decide

section Numbers

variable
  {text : Mapped}
  (exactly : text.Exact)

include exactly

/-- Digits that are left are read; one of them can be none. -/
theorem exists_asciiDigits
    {start : Nat} {digits rest : List UInt8}
    (left : text.Left (start + 2) (digits ++ rest)) (r : U64) (s : Nat) :
    ∃ d,
      asciiDigits text start digits.length r s = some d ∧
        ((∃ c ∈ digits, ¬ IsHexDigit c) → d = -1) := by
  induction digits using List.reverseRecOn generalizing rest r s with
  | nil => exact ⟨r, rfl, by simp⟩
  | append_singleton front c inductionHypothesis =>
      rw [List.append_assoc] at left
      have isLast := readAt_left exactly left.append
      rw [List.length_append, List.length_singleton, asciiDigits, isLast]
      simp only [List.cons_append, List.head?_cons, Option.bind_eq_bind,
        Option.bind_some]
      cases isDigit : digit? c with
      | none => exact ⟨-1, rfl, fun _ => rfl⟩
      | some d =>
          obtain ⟨value, isRead, isError⟩ :=
            inductionHypothesis left
              (r + ((BitVec.ofNat 32 d) <<< s).signExtend 64) (s + 4)
          refine ⟨value, isRead, ?_⟩
          rintro ⟨e, member, isWrong⟩
          rcases List.mem_append.mp member with inFront | isC
          · exact isError ⟨e, inFront, isWrong⟩
          · rw [List.mem_singleton.mp isC, ← digit?_eq_none_iff, isDigit]
              at isWrong
            cases isWrong

/-- A literal that is left is read. -/
theorem asciiToBin_literal
    {p : Nat} {digits rest : List UInt8}
    (left : text.Left p (literal digits ++ rest)) :
    asciiToBin text p (digits.length + 2) =
      asciiDigits text p digits.length 0 0 := by
  have isZero := readAt_left exactly left
  have isX := readAt_left exactly left.tail
  rw [asciiToBin, isZero, isX]
  simp [literal]

/-- A literal of at most eight digits is read as a word with a sign. -/
theorem asciiToBin_of_digits
    {p : Nat} {digits rest : List UInt8}
    (short : digits.length ≤ 8) (areDigits : ∀ c ∈ digits, IsHexDigit c)
    (left : text.Left p (literal digits ++ rest)) :
    asciiToBin text p (digits.length + 2) =
      some ((BitVec.ofNat 32 (hexValue digits)).signExtend 64) := by
  let big : Mapped := ⟨text.bytes, text.bytes.length + pageSize⟩
  have within : text.Within big :=
    ⟨rfl, Nat.le_trans exactly (Nat.le_add_right _ _)⟩
  have covered : big.Covered := Nat.lt_add_of_pos_right (by decide)
  have holds : big.Holds p (literal digits) :=
    (List.prefix_append _ rest).trans
      (left.rest ▸ (List.take_prefix _ _).drop p)
  have isNumber :
      literal digits = Edit.number (hexValue digits) digits.length := by
    rw [literal, Edit.number, digits_hexValue areDigits]
  rw [isNumber] at holds
  have inBig := asciiToBin_number covered holds
  obtain ⟨d, isRead, -⟩ := exists_asciiDigits exactly left.tail.tail 0 0
  rw [← asciiToBin_literal exactly left] at isRead
  rw [isRead, ← asciiToBin_within within isRead, inBig,
    sumDigits_eq_signExtend short (hexValue_lt areDigits)]

theorem asciiToBin_refused
    {p count : Nat} {rest : List UInt8} (short : count ≤ 8)
    (left : text.Left p rest) (refused : Refused count rest) :
    asciiToBin text p (count + 2) = some (-1) := by
  cases refused with
  | noZero rest isOther =>
      rw [asciiToBin, readAt_left exactly left]
      simp [isOther]
  | noX rest isOther =>
      rw [asciiToBin, readAt_left exactly left, readAt_left exactly left.tail]
      simp [isOther]
  | @noNumber digits rest isLength isWrong =>
      rw [← isLength]
      by_cases areDigits : ∀ c ∈ digits, IsHexDigit c
      · have isError : digits = List.replicate 8 102 :=
          isWrong.resolve_left (by simpa using areDigits)
        rw [asciiToBin_of_digits exactly (by omega) areDigits left,
          (signExtend_hexValue_eq_neg_one_iff (by omega) areDigits).mpr isError]
      · obtain ⟨d, isRead, isError⟩ :=
          exists_asciiDigits exactly left.tail.tail 0 0
        rw [asciiToBin_literal exactly left, isRead,
          isError (by simpa using areDigits)]

theorem exists_asciiToBin_accepted
    {p count : Nat} {digits rest : List UInt8} (short : count ≤ 8)
    (accepted : Accepted count digits)
    (left : text.Left p (literal digits ++ rest)) :
    ∃ d, asciiToBin text p (count + 2) = some d ∧ d ≠ -1 := by
  have isShort : digits.length ≤ 8 := accepted.isLength.trans_le short
  rw [← accepted.isLength]
  exact
    ⟨_, asciiToBin_of_digits exactly isShort accepted.areDigits left,
      mt (signExtend_hexValue_eq_neg_one_iff isShort accepted.areDigits).mp
        accepted.noError⟩

/-- A digit further back is read before the ones in front of it. -/
theorem length_of_asciiDigits
    {start count : Nat} {rest : List UInt8} {r d : U64} {s : Nat}
    (positive : 0 < count)
    (left : text.Left (start + 2) rest)
    (isRead : asciiDigits text start count r s = some d) :
    count ≤ rest.length := by
  obtain ⟨count, rfl⟩ := Nat.exists_eq_succ_of_ne_zero positive.ne'
  by_contra tooShort
  have isLength := left.length_eq
  rw [asciiDigits, readAt_behind exactly (by omega)] at isRead
  cases isRead

/-- What is read is refused or is a number. -/
theorem cases_asciiToBin
    {p count : Nat} {rest : List UInt8} {d : U64}
    (positive : 0 < count) (short : count ≤ 8)
    (left : text.Left p rest)
    (isRead : asciiToBin text p (count + 2) = some d) :
    d = -1 ∧ Refused count rest ∨
      d ≠ -1 ∧
        ∃ digits later,
          Accepted count digits ∧ rest = literal digits ++ later := by
  suffices isEither :
      Refused count rest ∨
        ∃ digits later,
          Accepted count digits ∧ rest = literal digits ++ later by
    rcases isEither with refused | ⟨digits, later, accepted, rfl⟩
    · rw [asciiToBin_refused exactly short left refused] at isRead
      exact .inl ⟨(Option.some.inj isRead).symm, refused⟩
    · obtain ⟨value, isValue, noError⟩ :=
        exists_asciiToBin_accepted exactly short accepted left
      rw [isValue] at isRead
      exact
        .inr ⟨Option.some.inj isRead ▸ noError, digits, later, accepted, rfl⟩
  rw [asciiToBin, readAt_left exactly left] at isRead
  cases rest with
  | nil => cases isRead
  | cons zero rest =>
      by_cases isZero : zero = 48
      swap
      · exact .inl (.noZero rest isZero)
      subst isZero
      rw [List.head?_cons, Option.bind_eq_bind, Option.bind_some, if_pos rfl,
        readAt_left exactly left.tail] at isRead
      cases rest with
      | nil => cases isRead
      | cons x rest =>
          by_cases isX : x = 120
          swap
          · exact .inl (.noX rest isX)
          subst isX
          rw [List.head?_cons, Option.bind_some, if_pos rfl,
            Nat.add_sub_cancel] at isRead
          have enough :=
            length_of_asciiDigits exactly positive left.tail.tail isRead
          have isLength : (rest.take count).length = count :=
            List.length_take_of_le enough
          have isRest :
              48 :: 120 :: rest =
                literal (rest.take count) ++ rest.drop count := by
            rw [literal, List.cons_append, List.cons_append,
              List.take_append_drop]
          rw [isRest]
          by_cases isWrong :
              (∃ c ∈ rest.take count, ¬ IsHexDigit c) ∨
                rest.take count = List.replicate 8 102
          · exact .inl (.noNumber _ isLength isWrong)
          · obtain ⟨areDigits, noError⟩ := not_or.mp isWrong
            refine .inr ⟨_, _, ⟨isLength, ?_, noError⟩, rfl⟩
            simpa using areDigits

end Numbers

end BinTools.Bipatch
