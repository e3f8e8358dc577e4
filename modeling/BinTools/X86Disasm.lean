import BinTools.X86Operands

namespace BinTools.X86

/-!
# Printing operands

`t1` writes the text of an operand from what the decoder left in the context.
Numbers are written into one buffer of digits, which keeps what an earlier and
longer number left behind a shorter one.
-/

/-! ## Numbers -/

/-- The character of a digit. -/
def digitChar (b : Nat) : Char :=
  Char.ofNat (if b < 10 then 48 + b else 87 + b)

/-- The last `count` digits of a number. -/
def hexDigits (value : Nat) : Nat → List Char
  | 0 => []
  | count + 1 => hexDigits (value / 16) count ++ [digitChar (value % 16)]

/-- The characters that can be left in the buffer of digits. -/
def hexChars : List Char :=
  (List.range 16).map digitChar

/-- What is in `__DIGIT` behind its first two characters. -/
structure DigitBuffer where
  digits : List Char
  areDigits : ∀ c ∈ digits, c ∈ hexChars

/-- `itoh`: the digits are written over those in the buffer. -/
def itoh (buffer : DigitBuffer) (a : U64) (digit : Nat) : List Char :=
  ['0', 'x'] ++
    (hexDigits a.toNat (digit / 4) ++ buffer.digits.drop (digit / 4))

/-- `1 << digit`, an `int`: the shift of a register is taken modulo 32. -/
def powOf (digit : Nat) : U64 :=
  ((1 : U32) <<< (digit % 32)).signExtend 64

/-- `check_sign`: the strings that it puts into the buffer of strings. -/
def checkSign (buffer : DigitBuffer) (immVal : U64) (digit : Nat) :
    List (List Char) :=
  let pow := powOf digit
  if pow >>> 1 ≤ immVal then
    [['-'], itoh buffer (pow - immVal) digit]
  else
    [['+'], itoh buffer immVal digit]

/-! ## Registers -/

/-- `set_name1`: `none` is a loop without an end. -/
def setName1 (letter : Char) (flag : UInt8) : List Char :=
  if flag = 0x00 then [letter, 'l']
  else if flag = 0x04 then [letter, 'h']
  else if flag = 0x08 then [letter, 'x']
  else if flag = 0x10 then ['e', letter, 'x']
  else if flag = 0x18 then ['r', letter, 'x']
  else []

/-- `set_name2` -/
def setName2 (first second : Char) (flag : UInt8) : Option (List Char) :=
  if flag = 0x00 then some [first, second, 'l']
  else if flag = 0x04 then none
  else if flag = 0x08 then some [first, second]
  else if flag = 0x10 then some ['e', first, second]
  else if flag = 0x18 then some ['r', first, second]
  else some []

/-- `set_name3` behind the digits of a register. -/
def setName3 (front : List Char) (flag : UInt8) : Option (List Char) :=
  if flag = 0x00 then some (front ++ ['b'])
  else if flag = 0x04 then none
  else if flag = 0x08 then some (front ++ ['w'])
  else if flag = 0x10 then some (front ++ ['d'])
  else some front

/-- `get_register_name` for the index of a register. -/
def registerName (r : Nat) (flag : UInt8) : Option (List Char) :=
  match r with
  | 0 => some (setName1 'a' flag)
  | 1 => some (setName1 'c' flag)
  | 2 => some (setName1 'd' flag)
  | 3 => some (setName1 'b' flag)
  | 4 => setName2 's' 'p' flag
  | 5 => setName2 'b' 'p' flag
  | 6 => setName2 's' 'i' flag
  | 7 => setName2 'd' 'i' flag
  | 8 => setName3 ['r', '8'] flag
  | 9 => setName3 ['r', '9'] flag
  | r =>
      if r < 16 then
        setName3 ['r', '1', Char.ofNat (r + 0x26)] flag
      else
        none

/-- `get_register_name` for a pointer. -/
def getRegisterName (p : Address) (flag : UInt8) : Option (List Char) :=
  match p with
  | .register r => registerName r flag
  | _ => none

/-! ## Operands -/

/-- `cons`: the strings one behind the other, and the end of a bracket. -/
def cons (buf : List (List Char)) : List Char :=
  if buf.head?.bind List.head? = some '[' then
    buf.flatten ++ [']']
  else
    buf.flatten

/-- The factor that is printed for a scale. -/
def scaleText (scale : UInt8) : List (List Char) :=
  if scale = 1 then [['2'], [')']]
  else if scale = 2 then [['4'], [')']]
  else if scale = 3 then [['8'], [')']]
  else []

/-- The name of the base, or a blank. -/
def baseName (con : State) : Option (List Char) :=
  if con.sibBase = .null then
    some [' ']
  else
    getRegisterName con.sibBase con.aflag

/-- `write_scale_index_base` behind the strings in the buffer. -/
def writeScaleIndexBase (con : State) (buf : List (List Char)) :
    Option (List Char) := do
  let base ← baseName con
  if con.sibScale = 0 then
    some (cons (buf ++ [['('], base, [')']]))
  else
    let index ← getRegisterName con.sibIndex con.aflag
    some
      (cons
        (buf ++ [['('], base, [','], index, [',']] ++ scaleText con.sibScale))

/-- `t1`: the text in `out`, `none` where it does not return. -/
def t1 (con : State) (applyMod : Bool) (buffer : DigitBuffer) :
    Option (List Char) :=
  if applyMod then
    if con.mod = 0x00 then
      if con.sib ≠ 0 then
        writeScaleIndexBase con []
      else if con.ripRel ≠ 0 then
        some
          (cons
            ([['['], ['r', 'i', 'p']] ++
              checkSign buffer con.displacement 8))
      else
        (getRegisterName con.rm con.aflag).map fun name => cons [['['], name]
    else if con.mod = 0x08 then
      if con.sib ≠ 0 then
        writeScaleIndexBase con (checkSign buffer con.displacement 8)
      else
        (getRegisterName con.rm con.aflag).map fun name =>
          cons ([['['], name] ++ checkSign buffer con.displacement 8)
    else if con.mod = 0x10 then
      if con.sib ≠ 0 then
        writeScaleIndexBase con (checkSign buffer con.displacement 32)
      else
        (getRegisterName con.rm con.aflag).map fun name =>
          cons ([['['], name] ++ checkSign buffer con.immVal 32)
    else if con.mod = 0x18 then
      (getRegisterName con.rm con.dflag).map fun name => cons [name]
    else
      some []
  else
    (getRegisterName con.reg con.dflag).map fun name => cons [name]

/-! ## Address expressions -/

instance sixteenRegisters : NeZero 16 :=
  ⟨by decide⟩

/-- The displacement of an operand. -/
inductive Displacement where
  | none
  | byte (value : BitVec 8)
  | dword (value : U32)
  deriving DecidableEq, Repr

/-- A memory operand. -/
inductive Operand where
  | base (register : Fin 16) (displacement : Displacement)
  | rip (displacement : U32)
  | sib (base : Option (Fin 16)) (index : Option (Fin 16 × Fin 4))
      (displacement : Displacement)
  deriving DecidableEq, Repr

/-- The displacement is the one that the context has. -/
def Displacement.IsIn (con : State) : Displacement → Prop
  | none => con.mod = 0x00
  | byte value => con.mod = 0x08 ∧ con.displacement = value.setWidth 64
  | dword value => con.mod = 0x10 ∧ con.displacement = value.setWidth 64

/-- What `_context._sib_base` is for a base. -/
def baseAddress : Option (Fin 16) → Address
  | none => .null
  | some register => .register register

/-- The context has the index; the register 4 stands for none. -/
def IndexIsIn (con : State) : Option (Fin 16 × Fin 4) → Prop
  | none => con.sibIndex = .register 4 ∧ con.sibScale < 4
  | some (register, scale) =>
      register ≠ 4 ∧ con.sibIndex = .register register ∧
        con.sibScale = UInt8.ofNat scale

/-- The context has the operand. -/
def Operand.IsIn (con : State) : Operand → Prop
  | base register displacement =>
      con.sib = 0 ∧ con.ripRel = 0 ∧ con.rm = .register register ∧
        displacement.IsIn con
  | rip displacement =>
      con.sib = 0 ∧ con.mod = 0x00 ∧ con.ripRel ≠ 0 ∧
        con.displacement = displacement.setWidth 64
  | sib lowest index displacement =>
      con.sib ≠ 0 ∧ con.sibBase = baseAddress lowest ∧
        IndexIsIn con index ∧ displacement.IsIn con

/-- A context with a memory operand, for addresses of 64 bits. -/
structure DecodedContext where
  con : State
  operand : Operand
  isIn : operand.IsIn con
  aflag : con.aflag = 0x18

/-! ## The text of an address expression -/

/-- The name of a register of 64 bits. -/
def nameOf (register : Fin 16) : List Char :=
  (registerName register 0x18).getD []

/-- A sign and so many digits. -/
def signed (value count : Nat) : List Char :=
  if value < 16 ^ count / 2 then
    '+' :: '0' :: 'x' :: hexDigits value count
  else
    '-' :: '0' :: 'x' :: hexDigits (16 ^ count - value) count

/-- A displacement in its own width. -/
def Displacement.text : Displacement → List Char
  | none => []
  | byte value => signed value.toNat 2
  | dword value => signed value.toNat 8

/-- A base, or a blank. -/
def baseText : Option (Fin 16) → List Char
  | none => [' ']
  | some register => nameOf register

/-- The scale factor. -/
def factor : Fin 4 → Char
  | 0 => '1'
  | 1 => '2'
  | 2 => '4'
  | 3 => '8'

/-- An index with its factor. -/
def indexText : Option (Fin 16 × Fin 4) → List Char
  | none => []
  | some (register, scale) => ',' :: (nameOf register ++ [',', factor scale])

/-- The text that names the parts of an operand. -/
def Operand.text : Operand → List Char
  | base register displacement =>
      '[' :: (nameOf register ++ (displacement.text ++ [']']))
  | rip displacement =>
      '[' :: (['r', 'i', 'p'] ++
        ((Displacement.dword displacement).text ++ [']']))
  | sib lowest index displacement =>
      displacement.text ++
        '(' :: (baseText lowest ++ (indexText index ++ [')']))

/-- The text that is written names the parts of the operand. -/
def DecodedContext.Named (context : DecodedContext) (buffer : DigitBuffer) :
    Prop :=
  t1 context.con true buffer = some context.operand.text

/-! ## The condition -/

/-- The magnitude of a displacement of 32 bits. -/
def magnitude (value : U32) : Nat :=
  if value.toNat < 2 ^ 31 then value.toNat else 2 ^ 32 - value.toNat

/-- A scale of zero stands for no index. -/
def IndexShown (con : State) (index : Option (Fin 16 × Fin 4)) : Prop :=
  index.isSome ↔ con.sibScale ≠ 0

/-- The displacement is written in its own width. -/
def DisplacementShown (con : State) (buffer : DigitBuffer) :
    Displacement → Prop
  | .none => True
  | .byte _ => buffer.digits.length ≤ 2
  | .dword value =>
      2 ^ 31 ≤ value.toNat ∧
        con.immVal.toNat % 2 ^ 32 = (value.toNat + 1) % 2 ^ 32 ∧
        buffer.digits.length ≤ 8

/-- An operand with a SIB byte is written as it should be. -/
def SibShown (con : State) (buffer : DigitBuffer)
    (index : Option (Fin 16 × Fin 4)) : Displacement → Prop
  | .none => IndexShown con index
  | .byte _ => IndexShown con index ∧ buffer.digits.length ≤ 2
  | .dword _ => False

/-- The condition for the operand of a context to be named. -/
def DecodedContext.Shown (context : DecodedContext) (buffer : DigitBuffer) :
    Prop :=
  match context.operand with
  | .base _ displacement => DisplacementShown context.con buffer displacement
  | .rip displacement =>
      (displacement = 0 ∨ 2 ^ 31 ≤ displacement.toNat) ∧
        magnitude displacement / 2 ^ 24 = magnitude displacement % 2 ^ 8 ∧
        buffer.digits.drop 2 = hexDigits (magnitude displacement) 6
  | .sib _ index displacement =>
      SibShown context.con buffer index displacement

end BinTools.X86
