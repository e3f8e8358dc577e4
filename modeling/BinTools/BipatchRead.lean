import BinTools.Bipatch
import Mathlib.Data.List.Basic
import Mathlib.Data.BitVec
import Mathlib.Tactic.IntervalCases
import Mathlib.Tactic.Ring

namespace BinTools.Bipatch

/-!
# Reading a patch file

A line gives one entry while the pages have room.  The lines of a patch file are
therefore a fold over its edits, whatever stands around them.
-/

/-! ## Bytes in a text -/

/-- The mapping has a byte behind the file's last one. -/
def Mapped.Covered (text : Mapped) : Prop :=
  text.bytes.length < text.mapSize

/-- The bytes stand at the address. -/
def Mapped.Holds (text : Mapped) (p : Nat) (bytes : List UInt8) : Prop :=
  bytes <+: text.bytes.drop p

namespace Mapped.Holds

variable
  {text : Mapped}
  {p : Nat}
  {byte : UInt8}
  {bytes later : List UInt8}

theorem left
    (holds : text.Holds p (bytes ++ later)) :
    text.Holds p bytes :=
  (List.prefix_append bytes later).trans holds

theorem right
    (holds : text.Holds p (bytes ++ later)) :
    text.Holds (p + bytes.length) later := by
  obtain ⟨rest, isRest⟩ := holds
  refine ⟨rest, ?_⟩
  rw [← List.drop_drop, ← isRest, List.append_assoc, List.drop_left]

theorem tail
    (holds : text.Holds p (byte :: bytes)) :
    text.Holds (p + 1) bytes :=
  right (show text.Holds p ([byte] ++ bytes) from holds)

theorem read
    (covered : text.Covered)
    (holds : text.Holds p (byte :: bytes)) :
    text.readAt p = some byte := by
  obtain ⟨rest, isRest⟩ := holds
  have isByte : text.bytes[p]? = some byte := by
    have := congrArg (·[0]?) isRest
    simpa using this.symm
  have below : p < text.bytes.length :=
    (List.getElem?_eq_some_iff.1 isByte).1
  have inMap : p < text.mapSize := below.trans covered
  rw [Mapped.readAt, if_pos inMap, List.getD_eq_getElem?_getD, isByte]
  rfl

end Mapped.Holds

/-! ## Numbers -/

/-- What the digits of a number add to a word. -/
def sumDigits : Nat → Nat → U64 → Nat → U64
  | _, 0, r, _ => r
  | value, count + 1, r, s =>
      sumDigits (value / 16) count
        (r + ((BitVec.ofNat 32 (value % 16)) <<< s).signExtend 64) (s + 4)

theorem length_digits
    (value count : Nat) :
    (Edit.digits value count).length = count := by
  induction count generalizing value with
  | zero => rfl
  | succ count inductionHypothesis =>
      rw [Edit.digits, List.length_append, inductionHypothesis]
      rfl

theorem length_number
    (value count : Nat) :
    (Edit.number value count).length = count + 2 := by
  simp [Edit.number, length_digits]

theorem digit?_digit
    {d : Nat}
    (isDigit : d < 16) :
    digit? (UInt8.ofNat (if d < 10 then 48 + d else 87 + d)) = some d := by
  have all :
      ∀ d : Fin 16,
        digit? (UInt8.ofNat (if d.val < 10 then 48 + d.val else 87 + d.val)) =
          some d.val := by
    decide
  exact all ⟨d, isDigit⟩

section Reading

variable
  {text : Mapped}
  (covered : text.Covered)

include covered

theorem asciiDigits_digits
    {start count value : Nat}
    (holds : text.Holds (start + 2) (Edit.digits value count))
    (r : U64)
    (s : Nat) :
    asciiDigits text start count r s = some (sumDigits value count r s) := by
  induction count generalizing value r s with
  | zero => rfl
  | succ count inductionHypothesis =>
      rw [Edit.digits] at holds
      have last := holds.right.read covered
      rw [length_digits] at last
      have isDigit : value % 16 < 16 := Nat.mod_lt _ (by decide)
      rw [asciiDigits, last, Option.bind_eq_bind, Option.bind_some,
        digit?_digit isDigit]
      exact inductionHypothesis holds.left _ _

theorem asciiToBin_number
    {p count value : Nat}
    (holds : text.Holds p (Edit.number value count)) :
    asciiToBin text p (count + 2) = some (sumDigits value count 0 0) := by
  have zero := holds.read covered
  have x := holds.tail.read covered
  rw [asciiToBin, zero, Option.bind_eq_bind, Option.bind_some, if_pos rfl, x,
    Option.bind_some, if_pos rfl, Nat.add_sub_cancel]
  exact asciiDigits_digits covered holds.tail.tail 0 0

theorem skipWhile_stop
    {test : UInt8 → Bool}
    {p fuel : Nat}
    {byte : UInt8}
    {bytes : List UInt8}
    (holds : text.Holds p (byte :: bytes))
    (stops : test byte = false)
    (enough : 0 < fuel) :
    skipWhile text test fuel p = some p := by
  obtain ⟨fuel, rfl⟩ := Nat.exists_eq_succ_of_ne_zero enough.ne'
  rw [skipWhile, holds.read covered, Option.bind_eq_bind, Option.bind_some,
    stops]
  rfl

theorem skipWhile_one
    {test : UInt8 → Bool}
    {p fuel : Nat}
    {byte next : UInt8}
    {bytes : List UInt8}
    (holds : text.Holds p (byte :: next :: bytes))
    (goesOn : test byte = true)
    (stops : test next = false)
    (enough : 1 < fuel) :
    skipWhile text test fuel p = some (p + 1) := by
  obtain ⟨fuel, rfl⟩ :=
    Nat.exists_eq_succ_of_ne_zero (Nat.ne_of_gt (Nat.zero_lt_of_lt enough))
  rw [skipWhile, holds.read covered, Option.bind_eq_bind, Option.bind_some,
    goesOn, if_pos rfl]
  exact skipWhile_stop covered holds.tail stops (by omega)

end Reading

/-- A digit below the sign bit is shifted without a sign. -/
theorem signExtend_lowDigit
    {d k : Nat}
    (isDigit : d < 16)
    (low : k < 7) :
    ((BitVec.ofNat 32 d) <<< (4 * k)).signExtend 64 =
      BitVec.ofNat 64 (d * 16 ^ k) := by
  have all :
      ∀ k : Fin 7, ∀ d : Fin 16,
        ((BitVec.ofNat 32 d.val) <<< (4 * k.val)).signExtend 64 =
          BitVec.ofNat 64 (d.val * 16 ^ k.val) := by
    decide +kernel
  exact all ⟨k, low⟩ ⟨d, isDigit⟩

/-- The eighth digit has the sign. -/
theorem signExtend_topDigit
    {d : Nat}
    (isDigit : d < 16) :
    ((BitVec.ofNat 32 d) <<< 28).signExtend 64 =
      BitVec.ofNat 64
        (d * 2 ^ 28 + if d < 8 then 0 else 0xffffffff00000000) := by
  have all :
      ∀ d : Fin 16,
        ((BitVec.ofNat 32 d.val) <<< 28).signExtend 64 =
          BitVec.ofNat 64
            (d.val * 2 ^ 28 +
              if d.val < 8 then 0 else 0xffffffff00000000) := by
    decide +kernel
  exact all ⟨d, isDigit⟩

/-- The low digits of a number add its low part. -/
theorem sumDigits_low
    {count k : Nat}
    (low : k + count ≤ 7)
    (value : Nat)
    (r : U64) :
    sumDigits value count r (4 * k) =
      r + BitVec.ofNat 64 (value % 16 ^ count * 16 ^ k) := by
  induction count generalizing value r k with
  | zero => simp [sumDigits, Nat.mod_one]
  | succ count inductionHypothesis =>
      have isDigit : value % 16 < 16 := Nat.mod_lt _ (by decide)
      have shift : 4 * k + 4 = 4 * (k + 1) := by ring
      rw [sumDigits, signExtend_lowDigit isDigit (by omega), shift,
        inductionHypothesis (by omega), BitVec.add_assoc,
        ← BitVec.ofNat_add]
      congr 2
      rw [pow_succ' 16 count, Nat.mod_mul]
      ring

/-- Two digits are a byte. -/
theorem sumDigits_byte
    (value : UInt8) :
    sumDigits value.toNat 2 0 0 = BitVec.ofNat 64 value.toNat := by
  have below : value.toNat < 16 ^ 2 := value.toNat_lt
  have := sumDigits_low (by decide : 0 + 2 ≤ 7) value.toNat 0
  rw [Nat.mod_eq_of_lt below] at this
  simpa using this

/-- The digits of a number can be added in two parts. -/
theorem sumDigits_add
    (value one two : Nat)
    (r : U64)
    (s : Nat) :
    sumDigits value (one + two) r s =
      sumDigits (value / 16 ^ one) two (sumDigits value one r s)
        (s + 4 * one) := by
  induction one generalizing value r s with
  | zero => simp [sumDigits]
  | succ one inductionHypothesis =>
      rw [Nat.add_right_comm, sumDigits, inductionHypothesis, sumDigits,
        Nat.div_div_eq_div_mul, ← pow_succ']
      congr 1
      ring

/-- Seven digits have no sign. -/
theorem sumDigits_seven
    (value : Nat) :
    sumDigits value 7 0 0 = BitVec.ofNat 64 (value % 16 ^ 7) := by
  have added := sumDigits_low (by decide : 0 + 7 ≤ 7) value 0
  rw [Nat.mul_zero, pow_zero, Nat.mul_one] at added
  exact added.trans (BitVec.zero_add _)

/-- The eighth digit gives a word its sign. -/
theorem signExtend_split
    (value : U32) :
    BitVec.ofNat 64 (value.toNat % 16 ^ 7) +
        BitVec.ofNat 64
          (value.toNat / 16 ^ 7 * 2 ^ 28 +
            if value.toNat / 16 ^ 7 < 8 then 0 else 0xffffffff00000000) =
      value.signExtend 64 := by
  have below := value.isLt
  apply BitVec.eq_of_toNat_eq
  rw [BitVec.toNat_signExtend, BitVec.toNat_add, BitVec.toNat_ofNat,
    BitVec.toNat_ofNat, BitVec.toNat_setWidth, BitVec.msb_eq_decide]
  by_cases isLow : value.toNat / 16 ^ 7 < 8
  · have notTop : ¬ 2 ^ (32 - 1) ≤ value.toNat := by omega
    simp only [isLow, notTop, if_true, decide_false, Bool.false_eq_true,
      if_false]
    omega
  · have isTop : 2 ^ (32 - 1) ≤ value.toNat := by omega
    simp only [isLow, isTop, if_true, decide_true, if_false]
    omega

/-- Eight digits are a word with a sign. -/
theorem sumDigits_word
    (value : U32) :
    sumDigits value.toNat 8 0 0 = value.signExtend 64 := by
  have below := value.isLt
  have isDigit : value.toNat / 16 ^ 7 < 16 := by omega
  have one :
      ∀ r : U64,
        sumDigits (value.toNat / 16 ^ 7) 1 r 28 =
          r +
            ((BitVec.ofNat 32 (value.toNat / 16 ^ 7)) <<< 28).signExtend
              64 := by
    intro r
    rw [sumDigits, sumDigits, Nat.mod_eq_of_lt isDigit]
  calc
    sumDigits value.toNat 8 0 0 =
        sumDigits (value.toNat / 16 ^ 7) 1
          (sumDigits value.toNat 7 0 0) 28 :=
      sumDigits_add value.toNat 7 1 0 0
    _ = value.signExtend 64 := by
      rw [sumDigits_seven, one, signExtend_topDigit isDigit,
        signExtend_split]

/-! ## Lines -/

namespace Edit

/-- The entry of an edit. -/
def entry : Edit → PatchFormat
  | insert addr bytes =>
      ⟨1, addr.signExtend 64, BitVec.ofNat 16 bytes.length, bytes⟩
  | delete addr count =>
      ⟨0, addr.signExtend 64, BitVec.ofNat 16 count.toNat, []⟩

/-- There is room for the entry and its bytes, and the address is none of `-1`. -/
def Fits (edit : Edit) (st : ReadState) : Prop :=
  st.entries.length < entryMax ∧
    edit.addr ≠ 2 ^ 32 - 1 ∧
    st.data + edit.bytes.length ≤ pageSize

instance (edit : Edit) (st : ReadState) : Decidable (edit.Fits st) :=
  inferInstanceAs (Decidable (_ ∧ _ ∧ _))

/-- The reading of the line of an edit. -/
def store (st : ReadState) (edit : Edit) : Reading :=
  if edit.Fits st then
    some
      (.ok
        { p := st.p + edit.line.length
          entries := st.entries ++ [edit.entry]
          data := st.data + edit.bytes.length
          sizeUpdown :=
            st.sizeUpdown + BitVec.ofNat 32 edit.bytes.length -
              BitVec.ofNat 32 edit.count })
  else if st.entries.length < entryMax ∧ edit.addr = 2 ^ 32 - 1 then
    some (.error (st.write ⟨edit.entry.cmd, 0, 0, []⟩))
  else
    none

end Edit

/-- The lines of the edits, up to the first error. -/
def storeAll : List Edit → ReadState → Reading
  | [], st => some (.ok st)
  | edit :: later, st => (edit.store st).andThen (storeAll later)

/-- Without room or with the error's address nothing behind is read. -/
theorem Edit.store_of_addr
    {st : ReadState}
    {edit : Edit}
    {line rest : Reading}
    {next : ReadState → Reading}
    (isLine :
      line =
        if st.entries.length < entryMax then
          if edit.addr = 2 ^ 32 - 1 then
            some (.error (st.write ⟨edit.entry.cmd, 0, 0, []⟩))
          else
            rest
        else
          none)
    (isRest :
      st.entries.length < entryMax → edit.addr ≠ 2 ^ 32 - 1 →
        rest.andThen next = edit.store st) :
    line.andThen next = edit.store st := by
  rw [isLine]
  by_cases room : st.entries.length < entryMax
  · rw [if_pos room]
    by_cases isError : edit.addr = 2 ^ 32 - 1
    · rw [if_pos isError, Reading.andThen_error, Edit.store,
        if_neg (fun fits => fits.2.1 isError), if_pos ⟨room, isError⟩]
    · rw [if_neg isError]
      exact isRest room isError
  · rw [if_neg room, Reading.andThen_none, Edit.store,
      if_neg (fun fits => room fits.1), if_neg (fun both => room both.1)]

/-- An address is an error exactly when all its bits are set. -/
theorem signExtend_eq_neg_one_iff
    (addr : U32) :
    addr.signExtend 64 = -1 ↔ addr.toNat = 2 ^ 32 - 1 := by
  have below := addr.isLt
  have minus : (-1 : U64).toNat = 2 ^ 64 - 1 := rfl
  rw [← BitVec.toNat_inj, BitVec.toNat_signExtend, BitVec.toNat_setWidth,
    minus, BitVec.msb_eq_decide]
  simp only [decide_eq_true_eq]
  split <;> omega

/-- The number of a byte is no error. -/
theorem byte_ne_neg_one
    (value : UInt8) :
    BitVec.ofNat 64 value.toNat ≠ -1 := by
  have below := value.toNat_lt
  intro isMinus
  have minus : (-1 : U64).toNat = 2 ^ 64 - 1 := rfl
  have := congrArg BitVec.toNat isMinus
  rw [BitVec.toNat_ofNat, minus] at this
  omega

/-- What follows the address of an insertion. -/
def elemTail (bytes : List UInt8) : List UInt8 :=
  bytes.flatMap (fun byte => 32 :: Edit.number byte.toNat 2) ++ [10]

/-- The same without its first space. -/
def elemText : List UInt8 → List UInt8
  | [] => [10]
  | byte :: later => Edit.number byte.toNat 2 ++ elemTail later

theorem elemTail_nil :
    elemTail [] = [10] :=
  rfl

theorem elemTail_cons
    (byte : UInt8)
    (later : List UInt8) :
    elemTail (byte :: later) = 32 :: elemText (byte :: later) := by
  simp [elemTail, elemText]

theorem length_elemTail
    (bytes : List UInt8) :
    (elemTail bytes).length = 5 * bytes.length + 1 := by
  induction bytes with
  | nil => rfl
  | cons byte later inductionHypothesis =>
      rw [elemTail_cons, elemText, List.length_cons, List.length_append,
        length_number, inductionHypothesis, List.length_cons]
      omega

section Lines

variable
  {text : Mapped}
  (covered : text.Covered)

include covered

/-- The end of the spaces in front of the bytes that are left. -/
theorem skipWhile_elemTail
    {p fuel : Nat}
    {bytes : List UInt8}
    (holds : text.Holds p (elemTail bytes))
    (enough : 1 < fuel) :
    ∃ next,
      skipWhile text (· == 32) fuel p = some next ∧
        text.Holds next (elemText bytes) ∧
        next + (elemText bytes).length = p + (elemTail bytes).length := by
  cases bytes with
  | nil =>
      exact ⟨p, skipWhile_stop covered holds rfl (by omega), holds, rfl⟩
  | cons byte later =>
      rw [elemTail_cons] at holds
      refine ⟨p + 1, skipWhile_one covered holds rfl rfl enough,
        holds.tail, ?_⟩
      rw [elemTail_cons, List.length_cons]
      omega

/-- The bytes of an insertion are read while the data page has room. -/
theorem readElem_elemText
    {data : Nat}
    {bytes : List UInt8}
    {p fuel : Nat}
    (holds : text.Holds p (elemText bytes))
    (elem : List UInt8)
    (room : data + elem.length ≤ pageSize)
    (enough : bytes.length < fuel) :
    readElem text data fuel p elem =
      if data + (elem ++ bytes).length ≤ pageSize then
        some (.ok (p + (elemText bytes).length - 1, elem ++ bytes))
      else
        none := by
  induction bytes generalizing p elem fuel with
  | nil =>
      obtain ⟨fuel, rfl⟩ := Nat.exists_eq_succ_of_ne_zero enough.ne'
      rw [readElem, holds.read covered, Option.bind_eq_bind,
        Option.bind_some, if_pos rfl, List.append_nil, if_pos room]
      rfl
  | cons byte later inductionHypothesis =>
      obtain ⟨fuel, rfl⟩ :=
        Nat.exists_eq_succ_of_ne_zero (Nat.ne_of_gt (Nat.zero_lt_of_lt enough))
      rw [elemText] at holds
      have isZero : text.readAt p = some 48 :=
        holds.left.read covered
      have isNumber := asciiToBin_number covered holds.left
      rw [sumDigits_byte] at isNumber
      have isByte :
          UInt8.ofNat (BitVec.ofNat 64 byte.toNat).toNat = byte := by
        have below := byte.toNat_lt
        rw [BitVec.toNat_ofNat, Nat.mod_eq_of_lt (by omega),
          UInt8.ofNat_toNat]
      have behind := holds.right
      rw [length_number] at behind
      obtain ⟨next, isNext, nextHolds, nextEnd⟩ :=
        skipWhile_elemTail covered behind
          (show 1 < text.fuel by simp only [Mapped.fuel, pageSize]; omega)
      rw [readElem, isZero, Option.bind_eq_bind, Option.bind_some,
        if_neg (by decide), isNumber, Option.bind_eq_bind, Option.bind_some,
        if_neg (byte_ne_neg_one byte)]
      by_cases hasRoom : data + elem.length < pageSize
      · rw [if_pos hasRoom, isNext, Option.bind_eq_bind, Option.bind_some,
          isByte, inductionHypothesis nextHolds]
        · have same : elem ++ [byte] ++ later = elem ++ byte :: later := by
            simp
          have place :
              next + (elemText later).length - 1 =
                p + (elemText (byte :: later)).length - 1 := by
            rw [nextEnd, elemText, List.length_append, length_number]
            omega
          rw [same, place]
        · rw [List.length_append, List.length_singleton]
          omega
        · simpa using enough
      · have noRoom :
            ¬ data + (elem ++ byte :: later).length ≤ pageSize := by
          rw [List.length_append, List.length_cons]
          omega
        rw [if_neg hasRoom, if_neg noRoom]

/-- The address of a line, and where the bytes behind it begin. -/
theorem readLine_addr
    {st : ReadState}
    {cmd : UInt8}
    {addr : U32}
    {bytes : List UInt8}
    (isCmd : cmd = 48 ∨ cmd = 49)
    (holds :
      text.Holds st.p
        (cmd :: 32 :: Edit.number addr.toNat 8 ++ elemTail bytes)) :
    ∃ next,
      text.Holds next (elemText bytes) ∧
        next + (elemText bytes).length =
          st.p + 12 + (elemTail bytes).length ∧
        readLine text st =
          if st.entries.length < entryMax then
            if addr.toNat = 2 ^ 32 - 1 then
              some (.error (st.write ⟨cmd - 48, 0, 0, []⟩))
            else if cmd = 48 then
              readDelete text (addr.signExtend 64) { st with p := next }
            else
              readInsert text (addr.signExtend 64) { st with p := next }
          else
            none := by
  have enough : 1 < text.fuel := by
    simp only [Mapped.fuel, pageSize]
    omega
  have space :
      skipWhile text (· != 32) text.fuel (st.p + 1) = some (st.p + 1) :=
    skipWhile_stop covered holds.tail rfl (by omega)
  have isNumber := asciiToBin_number covered holds.tail.tail.left
  rw [sumDigits_word] at isNumber
  have behind := holds.tail.tail.right
  rw [length_number] at behind
  obtain ⟨next, isNext, nextHolds, nextEnd⟩ :=
    skipWhile_elemTail covered behind enough
  refine ⟨next, nextHolds, by omega, ?_⟩
  rw [readLine, holds.read covered, Option.bind_eq_bind, Option.bind_some,
    if_pos isCmd]
  by_cases room : st.entries.length < entryMax
  · rw [if_pos room, if_pos room, space, Option.bind_eq_bind, Option.bind_some,
      isNumber, Option.bind_eq_bind, Option.bind_some]
    by_cases isError : addr.toNat = 2 ^ 32 - 1
    · rw [if_pos ((signExtend_eq_neg_one_iff addr).2 isError),
        if_pos isError]
    · rw [if_neg (mt (signExtend_eq_neg_one_iff addr).1 isError),
        if_neg isError, isNext, Option.bind_some]
  · rw [if_neg room, if_neg room]

/-- A line is stored. -/
theorem readLine_line
    {st : ReadState}
    {edit : Edit}
    (holds : text.Holds st.p edit.line)
    (dataFits : st.data ≤ pageSize) :
    (readLine text st).andThen
        (fun next => some (.ok { next with p := next.p + 1 })) =
      edit.store st := by
  cases edit with
  | insert addr bytes =>
      have isLine :
          (Edit.insert addr bytes).line =
            49 :: 32 :: Edit.number addr.toNat 8 ++ elemTail bytes := by
        simp [Edit.line, elemTail]
      rw [isLine] at holds
      have enough : bytes.length < text.fuel := by
        have := holds.length_le
        simp only [List.length_drop, List.length_cons, List.length_append,
          length_elemTail] at this
        simp only [Mapped.fuel, pageSize]
        omega
      obtain ⟨next, nextHolds, nextEnd, isRead⟩ :=
        readLine_addr covered (.inr rfl) holds
      have isElem :=
        readElem_elemText covered nextHolds [] dataFits enough
      refine Edit.store_of_addr isRead fun room noError => ?_
      rw [if_neg (by decide : (49 : UInt8) ≠ 48), readInsert, isElem,
        Edit.store, isLine]
      by_cases dataRoom : st.data + bytes.length ≤ pageSize
      · rw [List.nil_append, if_pos dataRoom,
          if_pos ⟨room, noError, dataRoom⟩]
        simp only [Option.bind_eq_bind, Option.bind_some,
          Reading.andThen_ok, Option.some.injEq, Except.ok.injEq,
          ReadState.mk.injEq]
        refine ⟨?_, rfl, rfl, ?_⟩
        · simp only [List.length_cons, List.length_append,
            length_number, length_elemTail] at nextEnd ⊢
          omega
        · have narrow :
              (BitVec.ofNat 16 bytes.length).setWidth 32 =
                BitVec.ofNat 32 bytes.length := by
            apply BitVec.eq_of_toNat_eq
            rw [pageSize] at dataRoom
            simp only [BitVec.toNat_setWidth, BitVec.toNat_ofNat]
            omega
          rw [narrow]
          exact (BitVec.sub_zero _).symm
      · rw [List.nil_append, if_neg dataRoom,
          if_neg (fun fits => dataRoom fits.2.2),
          if_neg (fun both => noError both.2)]
        rfl
  | delete addr count =>
      have isLine :
          (Edit.delete addr count).line =
            48 :: 32 :: Edit.number addr.toNat 8 ++ elemTail [count] := by
        simp [Edit.line, elemTail]
      rw [isLine] at holds
      obtain ⟨next, nextHolds, nextEnd, isRead⟩ :=
        readLine_addr covered (.inl rfl) holds
      have isNumber :=
        asciiToBin_number covered
          (show text.Holds next (Edit.number count.toNat 2) from
            nextHolds.left)
      rw [sumDigits_byte] at isNumber
      refine Edit.store_of_addr isRead fun room noError => ?_
      rw [if_pos rfl, Edit.store, if_pos ⟨room, noError, dataFits⟩, isLine,
        readDelete, isNumber, Option.bind_eq_bind, Option.bind_some,
        if_neg (byte_ne_neg_one count)]
      simp only [Reading.andThen_ok, Option.some.injEq, Except.ok.injEq,
        ReadState.mk.injEq]
      refine ⟨?_, ?_, rfl, ?_⟩
      · simp only [elemText, elemTail_nil, List.length_cons,
          List.length_append, List.length_nil, length_number,
          length_elemTail] at nextEnd ⊢
        omega
      · rw [BitVec.setWidth_ofNat_of_le (by decide)]
        rfl
      · rw [BitVec.setWidth_ofNat_of_le (by decide)]
        exact congrArg (· - _) (BitVec.add_zero _).symm

end Lines

/-! ## The whole file -/

/-- A line has a command and more. -/
theorem exists_line
    (edit : Edit) :
    ∃ cmd later, edit.line = cmd :: later ∧ cmd ≠ 10 := by
  cases edit with
  | insert addr bytes => exact ⟨49, _, rfl, by decide⟩
  | delete addr count => exact ⟨48, _, rfl, by decide⟩

/-- What is stored leaves the place behind the line and keeps the data. -/
theorem store_spec
    {st next : ReadState}
    {edit : Edit}
    (stored : edit.store st = some (.ok next)) :
    edit.Fits st ∧
      next =
        { p := st.p + edit.line.length
          entries := st.entries ++ [edit.entry]
          data := st.data + edit.bytes.length
          sizeUpdown :=
            st.sizeUpdown + BitVec.ofNat 32 edit.bytes.length -
              BitVec.ofNat 32 edit.count } := by
  rw [Edit.store] at stored
  split at stored
  · cases stored
    exact ⟨‹_›, rfl⟩
  · split at stored <;> cases stored

/-- An error is that of the address, and leaves an entry without one. -/
theorem store_error
    {st last : ReadState}
    {edit : Edit}
    (isError : edit.store st = some (.error last)) :
    st.entries.length < entryMax ∧ edit.addr = 2 ^ 32 - 1 ∧
      last = st.write ⟨edit.entry.cmd, 0, 0, []⟩ := by
  rw [Edit.store] at isError
  split at isError
  · cases isError
  · split at isError
    · rename_i _ both
      cases isError
      exact ⟨both.1, both.2, rfl⟩
    · cases isError

/-- The loop over the lines stores one edit after the other. -/
theorem readLines_patchFile
    {text : Mapped}
    (covered : text.Covered)
    {edits : List Edit}
    {st : ReadState}
    {fuel : Nat}
    (holds : text.Holds st.p (patchFile edits))
    (atEnd : st.p + (patchFile edits).length = text.bytes.length)
    (dataFits : st.data ≤ pageSize)
    (enough : edits.length < fuel) :
    readLines text fuel st = storeAll edits st := by
  induction edits generalizing st fuel with
  | nil =>
      obtain ⟨fuel, rfl⟩ := Nat.exists_eq_succ_of_ne_zero enough.ne'
      have isEnd : st.p = text.bytes.length := atEnd
      rw [readLines, if_pos isEnd]
      rfl
  | cons edit later inductionHypothesis =>
      obtain ⟨fuel, rfl⟩ :=
        Nat.exists_eq_succ_of_ne_zero (Nat.ne_of_gt (Nat.zero_lt_of_lt enough))
      have isFile : patchFile (edit :: later) = edit.line ++ patchFile later :=
        rfl
      rw [isFile] at holds atEnd
      have isStored := readLine_line covered holds.left dataFits
      obtain ⟨cmd, rest, isLine, notEnd⟩ := exists_line edit
      have isCmd : text.readAt st.p = some cmd := by
        have := holds.left
        rw [isLine] at this
        exact this.read covered
      have inside : st.p ≠ text.bytes.length := by
        rw [isLine, List.length_append, List.length_cons] at atEnd
        omega
      rw [readLines, if_neg inside, isCmd, Option.bind_eq_bind,
        Option.bind_some, if_neg notEnd, storeAll, ← isStored]
      cases isRead : readLine text st with
      | none => rfl
      | some read =>
          cases read with
          | error last => rfl
          | ok next =>
              rw [isRead, Reading.andThen_ok] at isStored
              obtain ⟨fits, isNext⟩ := store_spec isStored.symm
              rw [Reading.andThen_ok, Reading.andThen_ok, Reading.andThen_ok,
                isNext]
              apply inductionHypothesis
              · exact holds.right
              · rw [List.length_append] at atEnd
                show st.p + edit.line.length + _ = _
                omega
              · exact fits.2.2
              · simpa using enough

/-! ## Larger mappings -/

/-- The same file with at least as many pages. -/
structure Mapped.Within (small big : Mapped) : Prop where
  bytes : small.bytes = big.bytes
  mapSize : small.mapSize ≤ big.mapSize

section Within

variable
  {small big : Mapped}
  (within : small.Within big)

include within

theorem readAt_within
    {p : Nat}
    {x : UInt8}
    (isRead : small.readAt p = some x) :
    big.readAt p = some x := by
  unfold Mapped.readAt at isRead ⊢
  split at isRead
  · rename_i inMap
    rw [if_pos (inMap.trans_le within.mapSize), ← within.bytes]
    exact isRead
  · cases isRead

theorem fuel_within :
    small.fuel = big.fuel := by
  rw [Mapped.fuel, Mapped.fuel, within.bytes]

theorem asciiDigits_within
    {start count s : Nat}
    {r value : U64}
    (isRead : asciiDigits small start count r s = some value) :
    asciiDigits big start count r s = some value := by
  induction count generalizing r s with
  | zero => exact isRead
  | succ count inductionHypothesis =>
      obtain ⟨x, isX, isValue⟩ := Option.bind_eq_some_iff.1 isRead
      refine Option.bind_eq_some_iff.2 ⟨x, readAt_within within isX, ?_⟩
      cases isDigit : digit? x with
      | none => simpa only [isDigit] using isValue
      | some d =>
          simp only [isDigit] at isValue ⊢
          exact inductionHypothesis isValue

theorem asciiToBin_within
    {start length : Nat}
    {value : U64}
    (isRead : asciiToBin small start length = some value) :
    asciiToBin big start length = some value := by
  obtain ⟨x, isX, isValue⟩ := Option.bind_eq_some_iff.1 isRead
  refine Option.bind_eq_some_iff.2 ⟨x, readAt_within within isX, ?_⟩
  split at isValue
  · obtain ⟨y, isY, isDigits⟩ := Option.bind_eq_some_iff.1 isValue
    rw [if_pos ‹_›]
    refine Option.bind_eq_some_iff.2 ⟨y, readAt_within within isY, ?_⟩
    split at isDigits
    · rw [if_pos ‹_›]
      exact asciiDigits_within within isDigits
    · rw [if_neg ‹_›]
      exact isDigits
  · rw [if_neg ‹_›]
    exact isValue

theorem skipWhile_within
    {test : UInt8 → Bool}
    {fuel p next : Nat}
    (isRead : skipWhile small test fuel p = some next) :
    skipWhile big test fuel p = some next := by
  induction fuel generalizing p with
  | zero => cases isRead
  | succ fuel inductionHypothesis =>
      obtain ⟨x, isX, isNext⟩ := Option.bind_eq_some_iff.1 isRead
      refine Option.bind_eq_some_iff.2 ⟨x, readAt_within within isX, ?_⟩
      split at isNext
      · rw [if_pos ‹_›]
        exact inductionHypothesis isNext
      · rw [if_neg ‹_›]
        exact isNext

theorem readElem_within
    {data fuel p : Nat}
    {elem : List UInt8}
    {result : Except (List UInt8) (Nat × List UInt8)}
    (isRead : readElem small data fuel p elem = some result) :
    readElem big data fuel p elem = some result := by
  induction fuel generalizing p elem with
  | zero => cases isRead
  | succ fuel inductionHypothesis =>
      obtain ⟨x, isX, isElem⟩ := Option.bind_eq_some_iff.1 isRead
      refine Option.bind_eq_some_iff.2 ⟨x, readAt_within within isX, ?_⟩
      split at isElem
      · rw [if_pos ‹_›]
        exact isElem
      · rw [if_neg ‹_›]
        obtain ⟨d, isD, isLater⟩ := Option.bind_eq_some_iff.1 isElem
        refine
          Option.bind_eq_some_iff.2 ⟨d, asciiToBin_within within isD, ?_⟩
        split at isLater
        · rw [if_pos ‹_›]
          exact isLater
        · rw [if_neg ‹_›]
          split at isLater
          · obtain ⟨next, isNext, isRest⟩ :=
              Option.bind_eq_some_iff.1 isLater
            rw [if_pos ‹_›, ← fuel_within within]
            exact
              Option.bind_eq_some_iff.2
                ⟨next, skipWhile_within within isNext,
                  inductionHypothesis isRest⟩
          · cases isLater

theorem readDelete_within
    {addr : U64}
    {st : ReadState}
    {read : Except ReadState ReadState}
    (isRead : readDelete small addr st = some read) :
    readDelete big addr st = some read := by
  obtain ⟨d, isD, isNext⟩ := Option.bind_eq_some_iff.1 isRead
  exact
    Option.bind_eq_some_iff.2 ⟨d, asciiToBin_within within isD, isNext⟩

theorem readInsert_within
    {addr : U64}
    {st : ReadState}
    {read : Except ReadState ReadState}
    (isRead : readInsert small addr st = some read) :
    readInsert big addr st = some read := by
  obtain ⟨elem, isElem, isNext⟩ := Option.bind_eq_some_iff.1 isRead
  rw [readInsert, ← fuel_within within]
  exact
    Option.bind_eq_some_iff.2
      ⟨elem, readElem_within within isElem, isNext⟩

theorem readLine_within
    {st : ReadState}
    {read : Except ReadState ReadState}
    (isRead : readLine small st = some read) :
    readLine big st = some read := by
  obtain ⟨x, isX, isLine⟩ := Option.bind_eq_some_iff.1 isRead
  refine Option.bind_eq_some_iff.2 ⟨x, readAt_within within isX, ?_⟩
  rw [← fuel_within within]
  split at isLine
  · rw [if_pos ‹_›]
    split at isLine
    · rw [if_pos ‹_›]
      obtain ⟨space, isSpace, isAddress⟩ := Option.bind_eq_some_iff.1 isLine
      refine
        Option.bind_eq_some_iff.2 ⟨space, skipWhile_within within isSpace, ?_⟩
      obtain ⟨addr, isAddr, isLater⟩ := Option.bind_eq_some_iff.1 isAddress
      refine
        Option.bind_eq_some_iff.2 ⟨addr, asciiToBin_within within isAddr, ?_⟩
      split at isLater
      · rw [if_pos ‹_›]
        exact isLater
      · rw [if_neg ‹_›]
        obtain ⟨p, isP, isRest⟩ := Option.bind_eq_some_iff.1 isLater
        refine
          Option.bind_eq_some_iff.2 ⟨p, skipWhile_within within isP, ?_⟩
        split at isRest
        · rw [if_pos ‹_›]
          exact readDelete_within within isRest
        · rw [if_neg ‹_›]
          exact readInsert_within within isRest
    · cases isLine
  · rw [if_neg ‹_›]
    exact isLine

theorem readLines_within
    {fuel : Nat}
    {st : ReadState}
    {read : Except ReadState ReadState}
    (isRead : readLines small fuel st = some read) :
    readLines big fuel st = some read := by
  induction fuel generalizing st with
  | zero => cases isRead
  | succ fuel inductionHypothesis =>
      rw [readLines, within.bytes] at isRead
      rw [readLines]
      split at isRead
      · rw [if_pos ‹_›]
        exact isRead
      · rw [if_neg ‹_›]
        obtain ⟨x, isX, isLine⟩ := Option.bind_eq_some_iff.1 isRead
        refine Option.bind_eq_some_iff.2 ⟨x, readAt_within within isX, ?_⟩
        split at isLine
        · rw [if_pos ‹_›]
          exact isLine
        · rw [if_neg ‹_›]
          cases isSmall : readLine small st with
          | none =>
              rw [isSmall, Reading.andThen_none] at isLine
              cases isLine
          | some line =>
              rw [isSmall] at isLine
              rw [readLine_within within isSmall]
              cases line with
              | error last =>
                  rw [Reading.andThen_error] at isLine ⊢
                  exact isLine
              | ok next =>
                  rw [Reading.andThen_ok] at isLine ⊢
                  exact inductionHypothesis isLine

end Within

/-! ## Sizes of mappings -/

/-- A size is cut to 32 bits and to whole pages. -/
theorem mapSizeOf_eq
    (size : U64) :
    mapSizeOf size = (size.toNat + 4096) % 2 ^ 32 / 4096 * 4096 := by
  have shifts :
      ∀ value : U64,
        value &&& (0xfffff000 : U64) = ((value <<< 32) >>> 44) <<< 12 := by
    intro value
    ext index inRange
    interval_cases index <;> simp
  have isSum : (size + 0x1000).toNat = (size.toNat + 4096) % 2 ^ 64 := rfl
  rw [mapSizeOf, shifts, BitVec.toNat_shiftLeft, BitVec.toNat_ushiftRight,
    BitVec.toNat_shiftLeft, isSum, Nat.shiftLeft_eq, Nat.shiftLeft_eq,
    Nat.shiftRight_eq_div_pow]
  omega

/-- A mapping whose size is no error covers its file. -/
theorem covered_ofFile
    {bytes : List UInt8}
    (small : bytes.length + 0x1000 < 2 ^ 32) :
    (Mapped.ofFile bytes).Covered := by
  have isSize : (Mapped.ofFile bytes).mapSize = mapSizeOf _ := rfl
  show bytes.length < _
  rw [isSize, mapSizeOf_eq, BitVec.toNat_ofNat]
  omega

/-- A mapping is at most a page larger than its file. -/
theorem within_ofFile
    (bytes : List UInt8) :
    (Mapped.ofFile bytes).Within ⟨bytes, bytes.length + pageSize⟩ := by
  refine ⟨rfl, ?_⟩
  have isSize : (Mapped.ofFile bytes).mapSize = mapSizeOf _ := rfl
  rw [isSize, mapSizeOf_eq, BitVec.toNat_ofNat]
  show _ ≤ bytes.length + 4096
  omega

/-! ## The entries of a patch file -/

/-- The reading of a whole patch. -/
def stored (edits : List Edit) : Reading :=
  storeAll edits ⟨0, [], 0, 0⟩

/-- No line is shorter than a command. -/
theorem length_le_patchFile
    (edits : List Edit) :
    edits.length ≤ (patchFile edits).length := by
  induction edits with
  | nil => exact Nat.le_refl 0
  | cons edit later inductionHypothesis =>
      obtain ⟨cmd, rest, isLine, -⟩ := exists_line edit
      have isFile : patchFile (edit :: later) = edit.line ++ patchFile later :=
        rfl
      rw [isFile, isLine, List.length_append, List.length_cons,
        List.length_cons]
      omega

/-- The lines of a mapping that covers its patch file are stored. -/
theorem readLines_covered
    {text : Mapped}
    (covered : text.Covered)
    {edits : List Edit}
    (isFile : text.bytes = patchFile edits) :
    readLines text text.fuel ⟨0, [], 0, 0⟩ = stored edits := by
  apply readLines_patchFile covered
  · show patchFile edits <+: text.bytes.drop 0
    rw [List.drop_zero, isFile]
  · rw [isFile]
    exact Nat.zero_add _
  · exact Nat.zero_le _
  · have := length_le_patchFile edits
    rw [Mapped.fuel, isFile, pageSize]
    omega

/-- A patch file that is mapped whole is stored. -/
theorem readPatch_patchFile
    {edits : List Edit}
    (small : (patchFile edits).length + 0x1000 < 2 ^ 32) :
    readPatch (patchFile edits) = (stored edits).map returned := by
  rw [readPatch, readLines_covered (covered_ofFile small) rfl]

/-- What is read of a patch file is stored. -/
theorem stored_of_readPatch
    {edits : List Edit}
    {result : Bool × PatchInfo}
    (isRead : readPatch (patchFile edits) = some result) :
    ∃ read, stored edits = some read ∧ returned read = result := by
  obtain ⟨read, isLines, isResult⟩ := Option.map_eq_some_iff.1 isRead
  refine ⟨read, ?_, isResult⟩
  have within := within_ofFile (patchFile edits)
  have wide := readLines_within within isLines
  rw [fuel_within within] at wide
  rw [← wide]
  refine (readLines_covered ?_ rfl).symm
  show (patchFile edits).length < (patchFile edits).length + pageSize
  rw [pageSize]
  omega

/-- The first edit and those behind it are stored. -/
theorem storeAll_cons
    {edit : Edit}
    {later : List Edit}
    {st last : ReadState}
    (isStored : storeAll (edit :: later) st = some (.ok last)) :
    ∃ next,
      edit.store st = some (.ok next) ∧
        storeAll later next = some (.ok last) := by
  rw [storeAll] at isStored
  cases isFirst : edit.store st with
  | none =>
      rw [isFirst] at isStored
      cases isStored
  | some read =>
      rw [isFirst] at isStored
      cases read with
      | error other => cases isStored
      | ok next => exact ⟨next, rfl, isStored⟩

/-- What is stored: an entry for each edit, within both pages. -/
theorem storeAll_spec
    {edits : List Edit}
    {st last : ReadState}
    (isStored : storeAll edits st = some (.ok last)) :
    (edits ≠ [] → st.entries.length + edits.length ≤ entryMax) ∧
      (edits ≠ [] → st.data + inserted edits ≤ pageSize) ∧
      last.entries = st.entries ++ edits.map Edit.entry ∧
      last.sizeUpdown =
        st.sizeUpdown + BitVec.ofNat 32 (inserted edits) -
          BitVec.ofNat 32 (removed edits) := by
  induction edits generalizing st with
  | nil =>
      cases isStored
      simp [inserted, removed]
  | cons edit later inductionHypothesis =>
      obtain ⟨next, isNext, isLater⟩ := storeAll_cons isStored
      obtain ⟨fits, isNext⟩ := store_spec isNext
      obtain ⟨room, data, entries, size⟩ := inductionHypothesis isLater
      have isInserted :
          inserted (edit :: later) = edit.bytes.length + inserted later := by
        simp [inserted]
      have isRemoved :
          removed (edit :: later) = edit.count + removed later := by
        simp [removed]
      subst isNext
      simp only [List.length_append, List.length_singleton] at room data
      refine ⟨fun _ => ?_, fun _ => ?_, ?_, ?_⟩
      · have := fits.1
        cases later with
        | nil => exact this
        | cons _ _ =>
            have := room (by simp)
            rw [List.length_cons]
            omega
      · have := fits.2.2
        rw [isInserted]
        cases later with
        | nil => simpa [inserted] using this
        | cons _ _ =>
            have := data (by simp)
            omega
      · rw [entries]
        simp
      · rw [size, isInserted, isRemoved, BitVec.ofNat_add, BitVec.ofNat_add]
        ring

/-- An error is that of an edit, with the edits in front of it stored. -/
theorem storeAll_error
    {edits : List Edit}
    {st last : ReadState}
    (isError : storeAll edits st = some (.error last)) :
    ∃ front edit later before,
      edits = front ++ edit :: later ∧
        storeAll front st = some (.ok before) ∧
        edit.store before = some (.error last) := by
  induction edits generalizing st with
  | nil => cases isError
  | cons edit later inductionHypothesis =>
      rw [storeAll] at isError
      cases isFirst : edit.store st with
      | none =>
          rw [isFirst] at isError
          cases isError
      | some read =>
          rw [isFirst] at isError
          cases read with
          | error other =>
              cases isError
              exact ⟨[], edit, later, st, rfl, rfl, isFirst⟩
          | ok next =>
              obtain ⟨front, other, behind, before, rfl, isFront, isOther⟩ :=
                inductionHypothesis isError
              refine
                ⟨edit :: front, other, behind, before, rfl, ?_, isOther⟩
              rw [storeAll, isFirst]
              exact isFront

/-- Edits for which there is room are stored. -/
theorem exists_storeAll
    {edits : List Edit}
    {st : ReadState}
    (room : st.entries.length + edits.length ≤ entryMax)
    (data : st.data + inserted edits ≤ pageSize)
    (noError : ∀ edit ∈ edits, edit.addr ≠ 2 ^ 32 - 1) :
    ∃ last, storeAll edits st = some (.ok last) := by
  induction edits generalizing st with
  | nil => exact ⟨st, rfl⟩
  | cons edit later inductionHypothesis =>
      have isInserted :
          inserted (edit :: later) = edit.bytes.length + inserted later := by
        simp [inserted]
      rw [isInserted] at data
      rw [List.length_cons] at room
      have fits : edit.Fits st :=
        ⟨by omega, noError edit (by simp), by omega⟩
      rw [storeAll, Edit.store, if_pos fits, Reading.andThen_ok]
      apply inductionHypothesis
      · rw [List.length_append, List.length_singleton]
        omega
      · show st.data + edit.bytes.length + _ ≤ _
        omega
      · intro other otherIn
        exact noError other (List.mem_cons_of_mem _ otherIn)

end BinTools.Bipatch
