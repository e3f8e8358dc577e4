import BinTools.ByteBuffer
import BinTools.PointerLoop

namespace BinTools.TableWalk

/-!
# Walks over the tables of an ELF file

The walks are written in assembly: a cursor goes from the start of a table to its
end and stays in a register that a called function keeps.  The callback may
change the other registers and the memory, but no register that it has to keep
and nothing on the stack of its caller.
-/

abbrev Word := BitVec 64

/-- The registers that a function has to keep, besides `rsp`. -/
structure Saved where
  rbx : Word
  rbp : Word
  r12 : Word
  r13 : Word
  r14 : Word
  r15 : Word
  deriving DecidableEq, Repr

/-- Registers that a function may change. -/
structure Scratch where
  rax : Word
  rcx : Word
  rdx : Word
  rsi : Word
  rdi : Word
  deriving DecidableEq, Repr

/-- A call of the callback, with its arguments. -/
structure Call where
  target : Word
  rdi : Word
  rsi : Word
  rdx : Word
  rcx : Word
  deriving DecidableEq, Repr

/-- The machine; the stack is a list of the words from `rsp` on. -/
structure Machine where
  saved : Saved
  scratch : Scratch
  rsp : Word
  stack : List Word
  memory : Word → UInt8
  elfSymSize : UInt8
  calls : List Call

/-- What the functions at an address leave in registers and memory. -/
abbrev Code := Word → Machine → Scratch × (Word → UInt8)

namespace Machine

variable (machine : Machine)

/-- Read a number of bytes. -/
def load (address : Word) (width : Nat) : Nat :=
  ByteBuffer.loadWord width
    (fun offset => machine.memory (address + BitVec.ofNat 64 offset)) 0

/-- `mov rax,[address]` -/
def load64 (address : Word) : Word :=
  BitVec.ofNat 64 (machine.load address 8)

/-- `mov eax,[address]` clears the upper half. -/
def load32 (address : Word) : Word :=
  BitVec.ofNat 64 (machine.load address 4)

/-- `push` -/
def push (value : Word) : Machine :=
  { machine with
    rsp := machine.rsp - 8
    stack := value :: machine.stack }

/-- The word at `[rsp+8*index]` -/
def peek (index : Nat) : Word :=
  machine.stack.getD index 0

/-- Take a number of words from the stack. -/
def pop (count : Nat) : Machine :=
  { machine with
    rsp := machine.rsp + BitVec.ofNat 64 (8 * count)
    stack := machine.stack.drop count }

/-- `call r12` -/
def callR12 (code : Code) : Machine :=
  { machine with
    scratch := (code machine.saved.r12 machine).1
    memory := (code machine.saved.r12 machine).2
    calls :=
      machine.calls ++
        [{ target := machine.saved.r12
           rdi := machine.scratch.rdi
           rsi := machine.scratch.rsi
           rdx := machine.scratch.rdx
           rcx := machine.scratch.rcx }] }

end Machine

/-- `and rax,0x7fff0000` and `shr rax,0x10` -/
def upperHalf (rax : Word) : Word :=
  (rax &&& 0x7fff0000) >>> 16

/-- `and rax,0x0000ffff` -/
def lowerHalf (rax : Word) : Word :=
  rax &&& 0x0000ffff

/-! ## Program headers -/

/-- `run_through_elf_phdr3` up to `._b1` -/
def phdrEnter (machine : Machine) : Machine :=
  let machine := machine.push machine.scratch.rdi
  let machine := machine.push machine.scratch.rsi
  let machine := machine.push machine.scratch.rdx
  let rdi := machine.scratch.rdi
  let r13 := machine.load64 (rdi + 0x20) + rdi
  let r14 := upperHalf (machine.load64 (rdi + 0x34))
  let rax := lowerHalf (machine.load64 (rdi + 0x38)) * r14
  { machine with
    saved :=
      { machine.saved with
        rbx := r13 + rax
        r12 := machine.scratch.rsi
        r13 := r13
        r14 := r14
        r15 := rdi }
    scratch := { machine.scratch with rax := rax } }

/-- A round of `run_through_elf_phdr3`. -/
def phdrRound (code : Code) (machine : Machine) : Machine :=
  let r13 := machine.saved.r13 + machine.saved.r14
  let machine :=
    { machine with
      saved := { machine.saved with r13 := r13 }
      scratch :=
        { machine.scratch with
          rdi := machine.saved.r15
          rsi := r13
          rdx := machine.peek 0 } }
  machine.callR12 code

/-- `run_through_elf_phdr3` from `._b2` on -/
def phdrLeave (machine : Machine) : Machine :=
  { machine with
    scratch :=
      { machine.scratch with
        rdx := machine.peek 0
        rsi := machine.peek 1
        rdi := machine.peek 2 } }.pop 3

/-! ## Symbols -/

/-- `__z__obj__run_through_elf_symtable4_64` up to `._b1` -/
def symtableEnter (machine : Machine) : Machine :=
  { machine with
    elfSymSize := 0x18
    saved :=
      { machine.saved with
        rbx := machine.scratch.rsi
        r12 := machine.scratch.rdx
        r13 := machine.scratch.rdi
        r14 := machine.scratch.rcx }
    scratch :=
      { machine.scratch with
        rax := (machine.scratch.rax &&& ~~~0xff) ||| 0x18 } }

/-- A round of `run_through_elf_symtable3`. -/
def symtableRound (code : Code) (machine : Machine) : Machine :=
  let machine :=
    { machine with
      scratch :=
        { machine.scratch with
          rdi := machine.saved.r13
          rsi := machine.saved.r14 } }
  let machine := machine.callR12 code
  let rax := BitVec.ofNat 64 machine.elfSymSize.toNat
  { machine with
    saved := { machine.saved with r13 := machine.saved.r13 + rax }
    scratch := { machine.scratch with rax := rax } }

/-- `run_through_elf_symtable3` from `._b2` on -/
def symtableLeave (machine : Machine) : Machine :=
  machine

/-! ## Section headers -/

/-- `._32bit` -/
def shdrTable32 (machine : Machine) : Machine :=
  let rdi := machine.scratch.rdi
  let r13 := machine.load32 (rdi + 0x20) + rdi
  let r14 := upperHalf (machine.load64 (rdi + 0x2c))
  let rbx := r13 + lowerHalf (machine.load64 (rdi + 0x30)) * r14
  let rax := upperHalf (machine.load64 (rdi + 0x30)) * r14 + r13
  let rax := machine.load32 (rax + 0x10) + rdi
  { machine with
    saved :=
      { machine.saved with rbx := rbx, r13 := r13, r14 := r14, r15 := rax }
    scratch := { machine.scratch with rax := rax } }

/-- `._64bit` -/
def shdrTable64 (machine : Machine) : Machine :=
  let rdi := machine.scratch.rdi
  let r13 := machine.load64 (rdi + 0x28) + rdi
  let r14 := upperHalf (machine.load64 (rdi + 0x38))
  let rbx := r13 + lowerHalf (machine.load64 (rdi + 0x3c)) * r14
  let rax := upperHalf (machine.load64 (rdi + 0x3c)) * r14 + r13
  let rax := machine.load64 (rax + 0x18) + rdi
  { machine with
    saved :=
      { machine.saved with rbx := rbx, r13 := r13, r14 := r14, r15 := rax }
    scratch := { machine.scratch with rax := rax } }

/-- `run_through_elf_shdr3` up to the test of the class -/
def shdrSave (machine : Machine) : Machine :=
  let machine := machine.push machine.saved.rbp
  let machine :=
    { machine with saved := { machine.saved with rbp := machine.rsp } }
  let machine := machine.push machine.saved.rbx
  let machine := machine.push machine.saved.r12
  let machine := machine.push machine.saved.r13
  let machine := machine.push machine.saved.r14
  let machine := machine.push machine.saved.r15
  let machine := machine.push machine.scratch.rdi
  let machine := machine.push machine.scratch.rsi
  let machine := machine.push machine.scratch.rdx
  { machine with
    saved := { machine.saved with r12 := machine.scratch.rsi } }

/-- `run_through_elf_shdr3` up to `._b1` -/
def shdrEnter (machine : Machine) : Machine :=
  let machine := shdrSave machine
  if machine.memory (machine.scratch.rdi + 0x4) = 0x2 then
    shdrTable64 machine
  else
    shdrTable32 machine

/-- A round of `run_through_elf_shdr3`. -/
def shdrRound (code : Code) (machine : Machine) : Machine :=
  let machine :=
    { machine with
      scratch :=
        { machine.scratch with
          rdi := machine.peek 2
          rsi := machine.saved.r15
          rdx := machine.saved.r13
          rcx := machine.peek 0 } }
  let machine := machine.callR12 code
  { machine with
    saved :=
      { machine.saved with
        r13 := machine.saved.r13 + machine.saved.r14 } }

/-- `run_through_elf_shdr3` from `._b2` on -/
def shdrLeave (machine : Machine) : Machine :=
  { machine with
    scratch :=
      { machine.scratch with
        rdx := machine.peek 0
        rsi := machine.peek 1
        rdi := machine.peek 2 }
    saved :=
      { r15 := machine.peek 3
        r14 := machine.peek 4
        r13 := machine.peek 5
        r12 := machine.peek 6
        rbx := machine.peek 7
        rbp := machine.peek 8 } }.pop 9

/-! ## The walks -/

/-- `cmp r13,rbx` -/
def atEnd (machine : Machine) : Bool :=
  machine.saved.r13 = machine.saved.rbx

/-- `run_through_elf_phdr3` -/
def runThroughElfPhdr3 (code : Code) (fuel : Nat) (machine : Machine) :
    Option Machine :=
  (PointerLoop.run atEnd (phdrRound code) fuel (phdrEnter machine)).map
    phdrLeave

/-- `__z__obj__run_through_elf_symtable4_64` -/
def runThroughElfSymtable4 (code : Code) (fuel : Nat) (machine : Machine) :
    Option Machine :=
  (PointerLoop.run atEnd (symtableRound code) fuel
    (symtableEnter machine)).map symtableLeave

/-- `run_through_elf_shdr3` -/
def runThroughElfShdr3 (code : Code) (fuel : Nat) (machine : Machine) :
    Option Machine :=
  (PointerLoop.run atEnd (shdrRound code) fuel (shdrEnter machine)).map
    shdrLeave

end BinTools.TableWalk
