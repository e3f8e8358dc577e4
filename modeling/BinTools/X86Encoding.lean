import BinTools.CString

namespace BinTools.X86

/-!
# Encoded instructions

Instructions of the 64-bit mode as bytes: prefixes, opcode, ModRM, SIB,
displacement and immediate value.  Only opcodes of one byte that the decoder knows
are described.
-/

/-- Opcodes with a ModRM byte. -/
def modrmOpcodes : List UInt8 :=
  [0x00, 0x01, 0x02, 0x03, 0x08, 0x09, 0x0a, 0x0b, 0x18, 0x19, 0x1a, 0x1b,
    0x20, 0x21, 0x22, 0x23, 0x28, 0x29, 0x2a, 0x2b, 0x30, 0x31, 0x32, 0x33,
    0x38, 0x39, 0x3a, 0x3b, 0x80, 0x81, 0x83, 0x84, 0x85, 0x86, 0x87, 0x88,
    0x89, 0x8a, 0x8b, 0x8d, 0xc0, 0xc1, 0xc6, 0xc7, 0xf6, 0xf7, 0xfe, 0xff]

/-- Opcodes without a ModRM byte. -/
def plainOpcodes : List UInt8 :=
  [0x50, 0x51, 0x52, 0x53, 0x54, 0x55, 0x56, 0x57, 0x58, 0x59, 0x5a, 0x5b,
    0x5c, 0x5d, 0x5e, 0x5f, 0x68, 0x6a, 0x70, 0x71, 0x72, 0x73, 0x74, 0x75,
    0x76, 0x77, 0x78, 0x79, 0x7a, 0x7b, 0x7c, 0x7d, 0x7e, 0x7f, 0xb0, 0xb1,
    0xb2, 0xb3, 0xb4, 0xb5, 0xb6, 0xb7, 0xb8, 0xb9, 0xba, 0xbb, 0xbc, 0xbd,
    0xbe, 0xbf, 0xe8, 0xe9, 0xeb]

/-- The mode of a ModRM byte. -/
def modOf (modrm : UInt8) : UInt8 :=
  modrm >>> 6

/-- The register, or the operation, of a ModRM byte. -/
def regOf (modrm : UInt8) : UInt8 :=
  (modrm &&& 0x38) >>> 3

/-- The operand of a ModRM byte. -/
def rmOf (modrm : UInt8) : UInt8 :=
  modrm &&& 0x07

/-- A SIB byte follows. -/
def needsSib (modrm : UInt8) : Bool :=
  modOf modrm ≠ 3 ∧ rmOf modrm = 4

/-- The number of bytes of the displacement. -/
def displacementSize (modrm sib : UInt8) : Nat :=
  if modOf modrm = 0 then
    if rmOf modrm = 5 ∨ rmOf modrm = 4 ∧ sib &&& 0x07 = 5 then 4 else 0
  else if modOf modrm = 1 then 1
  else if modOf modrm = 2 then 4
  else 0

/-- ModRM, SIB and displacement. -/
def operandsSize (modrm sib : UInt8) : Nat :=
  1 + (if needsSib modrm then 1 else 0) + displacementSize modrm sib

/-- The size of an operand by the prefixes: 8, 2 or 4 bytes. -/
def operandSize (wide data : Bool) : Nat :=
  if wide then 8 else if data then 2 else 4

/-- The size of an immediate value, which has no 8 bytes. -/
def immediateOperandSize (wide data : Bool) : Nat :=
  min (operandSize wide data) 4

/--
The number of bytes of the immediate value.  The operation 1 of the opcodes f6
and f7 is `test`, like the operation 0.
-/
def immediateSize (opcode : UInt8) (wide data : Bool) (modrm : UInt8) : Nat :=
  if opcode = 0x68 ∨ opcode = 0x81 ∨ opcode = 0xc7 then
    immediateOperandSize wide data
  else if opcode = 0x6a ∨ opcode = 0x80 ∨ opcode = 0x83 ∨ opcode = 0xc0 ∨
      opcode = 0xc1 ∨ opcode = 0xc6 ∨ opcode = 0xeb then
    1
  else if 0x70 ≤ opcode ∧ opcode ≤ 0x7f ∨
      0xb0 ≤ opcode ∧ opcode ≤ 0xb7 then
    1
  else if 0xb8 ≤ opcode ∧ opcode ≤ 0xbf then
    operandSize wide data
  else if opcode = 0xe8 ∨ opcode = 0xe9 then
    4
  else if opcode = 0xf6 then
    if regOf modrm ≤ 1 then 1 else 0
  else if opcode = 0xf7 then
    if regOf modrm ≤ 1 then immediateOperandSize wide data else 0
  else
    0

/-- An instruction with at most the prefix 66 and one REX prefix. -/
structure Instruction where
  data : Bool
  rex : Option UInt8
  opcode : UInt8
  modrm : Option UInt8
  sib : Option UInt8
  displacement : List UInt8
  immediate : List UInt8
  isRex : ∀ byte ∈ rex, byte &&& 0xf0 = 0x40
  known : opcode ∈ modrmOpcodes ++ plainOpcodes
  hasModrm : modrm.isSome = decide (opcode ∈ modrmOpcodes)
  hasSib : sib.isSome = modrm.any needsSib
  displacementLength :
    displacement.length =
      modrm.elim 0 fun byte => displacementSize byte (sib.getD 0)
  immediateLength :
    immediate.length =
      immediateSize opcode (rex.any fun byte => byte &&& 0x08 = 0x08) data
        (modrm.getD 0)

namespace Instruction

variable (instruction : Instruction)

/-- The operand size is 64 bits. -/
def wide : Bool :=
  instruction.rex.any fun byte => byte &&& 0x08 = 0x08

/-- The prefixes. -/
def prefixes : List UInt8 :=
  (if instruction.data then [0x66] else []) ++ instruction.rex.toList

/-- What follows the opcode. -/
def rest : List UInt8 :=
  instruction.modrm.toList ++ instruction.sib.toList ++
    instruction.displacement ++ instruction.immediate

/-- All bytes. -/
def bytes : List UInt8 :=
  instruction.prefixes ++ instruction.opcode :: instruction.rest

/-- The number of bytes. -/
def length : Nat :=
  instruction.bytes.length

end Instruction

/-- Some bytes are stored from an address on. -/
def StoredAt (memory : U64 → UInt8) : U64 → List UInt8 → Prop
  | _, [] => True
  | address, byte :: bytes =>
      memory address = byte ∧ StoredAt memory (address + 1) bytes

end BinTools.X86
