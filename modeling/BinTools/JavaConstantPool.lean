import BinTools.BufferContents
import BinTools.CString

namespace BinTools.Java

open ByteBuffer

/-!
# The constant pool of a class file

`read_constant_pool` steps over the entries of the pool, notes where they begin
and rewrites their numbers in place.  Addresses are offsets into one memory, and
the table of addresses is apart from it.
-/

abbrev U8 := BitVec 8
abbrev U16 := BitVec 16

def constantUtf8 : UInt8 := 0x01
def constantInteger : UInt8 := 0x03
def constantFloat : UInt8 := 0x04
def constantLong : UInt8 := 0x05
def constantDouble : UInt8 := 0x06
def constantClass : UInt8 := 0x07
def constantString : UInt8 := 0x08
def constantFieldref : UInt8 := 0x09
def constantMethodref : UInt8 := 0x0a
def constantInterfaceMethodref : UInt8 := 0x0b
def constantNameAndType : UInt8 := 0x0c
def constantMethodHandle : UInt8 := 0x0f
def constantMethodType : UInt8 := 0x10
def constantInvokeDynamic : UInt8 := 0x12

/-- The tags of an entry with four bytes. -/
def IsWordTag (tag : UInt8) : Prop :=
  tag = constantInteger ∨ tag = constantFloat

/-- The tags of an entry with eight bytes. -/
def IsLongTag (tag : UInt8) : Prop :=
  tag = constantLong ∨ tag = constantDouble

/-- The tags of an entry with one index. -/
def IsIndexTag (tag : UInt8) : Prop :=
  tag = constantClass ∨ tag = constantString ∨ tag = constantMethodType

/-- The tags of an entry with two indices. -/
def IsPairTag (tag : UInt8) : Prop :=
  tag = constantFieldref ∨ tag = constantMethodref ∨
    tag = constantInterfaceMethodref ∨ tag = constantNameAndType ∨
    tag = constantInvokeDynamic

/-- The tags that the `switch` has a case for. -/
def IsTag (tag : UInt8) : Prop :=
  tag = constantUtf8 ∨ IsWordTag tag ∨ IsLongTag tag ∨ IsIndexTag tag ∨
    tag = constantMethodHandle ∨ IsPairTag tag

instance (tag : UInt8) : Decidable (IsWordTag tag) :=
  inferInstanceAs (Decidable (_ ∨ _))

instance (tag : UInt8) : Decidable (IsLongTag tag) :=
  inferInstanceAs (Decidable (_ ∨ _))

instance (tag : UInt8) : Decidable (IsIndexTag tag) :=
  inferInstanceAs (Decidable (_ ∨ _ ∨ _))

instance (tag : UInt8) : Decidable (IsPairTag tag) :=
  inferInstanceAs (Decidable (_ ∨ _ ∨ _ ∨ _ ∨ _))

instance (tag : UInt8) : Decidable (IsTag tag) :=
  inferInstanceAs (Decidable (_ ∨ _ ∨ _ ∨ _ ∨ _ ∨ _))

/-! ## The reader -/

/-- The memory, the pointer, the shift and the addresses that are set. -/
structure PoolState where
  memory : Bytes
  p : Nat
  s : U8
  h : List Nat

/-- `(*p)*16+*(p+1)` -/
def half (memory : Bytes) (p : Nat) : Nat :=
  (memory p).toNat * 16 + (memory (p + 1)).toNat

/-- `*(uint16_t*)p = v16` -/
def writeHalf (memory : Bytes) (p : Nat) : Bytes :=
  storeWord 2 memory p (half memory p)

/-- `*p << s`, an `int`: the shift of a register is taken modulo 32. -/
def shifted (byte : UInt8) (s : U8) : U32 :=
  BitVec.ofNat 32 byte.toNat <<< (s.toNat % 32)

/-- A loop that adds up the bytes of a number and goes on with the shift. -/
def sumBytes (width : Nat) (step : U8) (memory : Bytes) :
    Nat → Nat → U8 → BitVec width → BitVec width
  | 0, _, _, v => v
  | count + 1, p, s, v =>
      sumBytes width step memory count (p + 1) (s + step)
        (v + (shifted (memory p) s).signExtend width)

/-- One round of the loop over the entries. -/
def readEntry (st : PoolState) : PoolState :=
  let h := st.h ++ [st.p]
  let tag := st.memory st.p
  let p := st.p + 1
  if tag = constantUtf8 then
    let v16 := half st.memory p
    ⟨writeHalf st.memory p, p + (2 + v16), st.s, h⟩
  else if IsWordTag tag then
    let v32 := sumBytes 32 4 st.memory 4 p st.s 0
    ⟨storeWord 4 st.memory p v32.toNat, p + 4, st.s + 4 * 4, h⟩
  else if IsLongTag tag then
    let v64 := sumBytes 64 8 st.memory 8 p st.s 0
    ⟨storeWord 8 st.memory p v64.toNat, p + 8, st.s + 8 * 8, h⟩
  else if IsIndexTag tag then
    ⟨writeHalf st.memory p, p + 2, st.s, h⟩
  else if tag = constantMethodHandle then
    ⟨writeHalf st.memory (p + 1), p + 3, st.s, h⟩
  else if IsPairTag tag then
    ⟨writeHalf (writeHalf st.memory p) (p + 2), p + 4, st.s, h⟩
  else
    { st with h := h }

/-- The loop over the entries; its counter has eight bits. -/
def readEntries (c : U16) : Nat → U8 → PoolState → Option PoolState
  | 0, _, _ => none
  | fuel + 1, i, st =>
      if i.toNat < c.toNat then
        readEntries c fuel (i + 1) (readEntry st)
      else
        some st

/-- `read_constant_pool`, with what it leaves in `p`, in memory and in `h`. -/
def readConstantPool (memory : Bytes) (p fuel : Nat) : Option PoolState :=
  readEntries (BitVec.ofNat 16 (half memory p)) fuel 1 ⟨memory, p + 2, 0, []⟩

/-! ## Well-formed pools -/

/-- A part of an entry: a byte, or a number of some bytes. -/
inductive Field where
  | byte (value : UInt8)
  | number (width value : Nat)
  deriving DecidableEq, Repr

namespace Field

/-- A field in the file: numbers are big-endian. -/
def file : Field → List UInt8
  | byte value => [value]
  | number width value => (littleEndian width value).reverse

/-- A field with its number in little-endian order. -/
def converted : Field → List UInt8
  | byte value => [value]
  | number width value => littleEndian width value

end Field

/-- An entry of a pool. -/
inductive Constant where
  | utf8 (text : List UInt8) (short : text.length < 2 ^ 16)
  | word (tag : UInt8) (isTag : IsWordTag tag) (value : U32)
  | long (tag : UInt8) (isTag : IsLongTag tag) (value : U64)
  | index (tag : UInt8) (isTag : IsIndexTag tag) (value : U16)
  | handle (kind : UInt8) (value : U16)
  | pair (tag : UInt8) (isTag : IsPairTag tag) (first second : U16)

namespace Constant

/-- The parts of an entry. -/
def fields : Constant → List Field
  | utf8 text _ =>
      .byte constantUtf8 :: .number 2 text.length :: text.map .byte
  | word tag _ value => [.byte tag, .number 4 value.toNat]
  | long tag _ value => [.byte tag, .number 8 value.toNat]
  | index tag _ value => [.byte tag, .number 2 value.toNat]
  | handle kind value =>
      [.byte constantMethodHandle, .byte kind, .number 2 value.toNat]
  | pair tag _ first second =>
      [.byte tag, .number 2 first.toNat, .number 2 second.toNat]

/-- An entry in the file. -/
def file (constant : Constant) : List UInt8 :=
  constant.fields.flatMap Field.file

/-- An entry with its numbers converted. -/
def converted (constant : Constant) : List UInt8 :=
  constant.fields.flatMap Field.converted

/-- The indices that an entry takes. -/
def slots : Constant → Nat
  | long _ _ _ => 2
  | _ => 1

end Constant

/-- The index behind those of some entries, less one. -/
def indices (entries : List Constant) : Nat :=
  (entries.map Constant.slots).sum

/-- The bytes of some entries in the file. -/
def entriesFile (entries : List Constant) : List UInt8 :=
  entries.flatMap Constant.file

/-- The bytes of some entries with their numbers converted. -/
def entriesConverted (entries : List Constant) : List UInt8 :=
  entries.flatMap Constant.converted

/-- A pool: its count is one more than its indices. -/
structure Pool where
  entries : List Constant
  inCount : 1 + indices entries < 2 ^ 16

/-- A pool in the file. -/
def Pool.file (pool : Pool) : List UInt8 :=
  (Field.number 2 (1 + indices pool.entries)).file ++ entriesFile pool.entries

/--
The reading ends behind the pool, every entry's address is set for its index, and
its numbers are converted and nothing else.
-/
structure ReadsPool (memory : Bytes) (p : Nat) (pool : Pool)
    (last : PoolState) : Prop where
  atEnd : last.p = p + pool.file.length
  address :
    ∀ front entry later, pool.entries = front ++ entry :: later →
      last.h[indices front]? = some (p + 2 + (entriesFile front).length)
  memory : last.memory = store memory (p + 2) (entriesConverted pool.entries)

/-- `read_constant_pool` ends and reads the pool. -/
def Reads (memory : Bytes) (p : Nat) (pool : Pool) : Prop :=
  ∃ fuel last,
    readConstantPool memory p fuel = some last ∧ ReadsPool memory p pool last

/-! ## The condition -/

/-- The low byte of a number, the next one and so on. -/
def byteOf (value : Nat) (number : Nat) : Nat :=
  value / 256 ^ number % 256

/--
The numbers of an entry come out right; `odd` says whether an odd number of
Integer and Float entries is in front of it.
-/
def Constant.Right (odd : Bool) : Constant → Prop
  | utf8 text _ => text.length < 256
  | word _ _ value =>
      if odd then
        byteOf value.toNat 0 = 0 ∧ byteOf value.toNat 1 = 0 ∧
          byteOf value.toNat 2 = 17 * byteOf value.toNat 3
      else
        byteOf value.toNat 3 = 0 ∧
          byteOf value.toNat 0 = 16 * byteOf value.toNat 2
  | long _ _ value =>
      value.toNat < 2 ^ 31 ∧
        if odd then
          byteOf value.toNat 3 = byteOf value.toNat 2 ∧
            byteOf value.toNat 1 = byteOf value.toNat 0
        else
          byteOf value.toNat 3 = byteOf value.toNat 0 ∧
            byteOf value.toNat 2 = byteOf value.toNat 1
  | index _ _ value => value.toNat < 256
  | handle _ value => value.toNat < 256
  | pair _ _ first second => first.toNat < 256 ∧ second.toNat < 256

/-- An entry whose bytes are shifted by four. -/
def Constant.isWord : Constant → Bool
  | word _ _ _ => true
  | _ => false

/-- The numbers of all entries come out right. -/
def AllRight : Bool → List Constant → Prop
  | _, [] => True
  | odd, constant :: later =>
      constant.Right odd ∧ AllRight (odd ^^ constant.isWord) later

/-- Only the last entry takes two indices. -/
def Single (entries : List Constant) : Prop :=
  ∀ front entry later, entries = front ++ entry :: later → later ≠ [] →
    entry.slots = 1

/-- The condition for a pool in front of a byte to be read. -/
structure Readable (entries : List Constant) (behind : UInt8) : Prop where
  count : 1 + indices entries < 256
  right : AllRight false entries
  single : Single entries
  /-- The round behind such an entry finds no tag. -/
  stops : indices entries ≠ entries.length → ¬ IsTag behind

end BinTools.Java
