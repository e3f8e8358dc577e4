import BinTools.CString

namespace BinTools.X86

/-!
# The state of the x86 decoder

`_exec` decodes one instruction.  Handlers pass the context in global variables,
and one of them in a register of the host, `r15b`.  Pointers to virtual registers
and to tables of operations stand for what they point to: the tables are placed
so that the 16-bit additions to their addresses do not carry, and the virtual
registers so that the 8-bit one of `_select_rm` does not.
-/

/-- What is stored for an operand. -/
inductive Address where
  | null
  | register (index : Nat)
  | overwritten (index : Nat) (low : UInt8)
  | xmm (index : Nat)
  | value (contents : U64)
  deriving DecidableEq, Repr

/-- The tables of operations that `_context._imm_op` points into. -/
inductive OpBase where
  | op01
  | shift
  | f6
  | fe
  deriving DecidableEq, Repr

/-- `_context._opcode_table` -/
inductive OpcodeTable where
  | main
  | extend
  deriving DecidableEq, Repr

/-- `_context._override_reg` -/
inductive Segment where
  | es
  | ss
  | ds
  | fs
  | gs
  deriving DecidableEq, Repr

/--
What no handler changes: the code, the architecture, what loads through operands
give by the mod and the size, and the low byte of an address in the table of
loads.
-/
structure Machine where
  memory : U64 → UInt8
  architecture : UInt8
  loaded : UInt8 → UInt8 → Address → U64
  loadEntry : UInt8

/-- `_rip`, `_rax`, `_eflags`, `r15b` and `_context` -/
structure State where
  machine : Machine
  rip : U64
  rax : U64
  eflags : U64
  r15b : UInt8
  opcodeTable : OpcodeTable
  displacement : U64
  res : U64
  immOp : Option (OpBase × Nat)
  overrideReg : Option Segment
  reg : Address
  rm : Address
  immVal : U64
  sibIndex : Address
  sibBase : Address
  opcode : UInt8
  rex : UInt8
  dataPrefix : UInt8
  addrPrefix : UInt8
  repz : UInt8
  repnz : UInt8
  lock : UInt8
  override : UInt8
  mod : UInt8
  sib : UInt8
  sibScale : UInt8
  ripRel : UInt8
  dflag : UInt8
  aflag : UInt8
  isRmSrc : UInt8

/-- `_clear_state` -/
def clearState (s : State) : State :=
  { s with
    rex := 0
    mod := 0
    reg := .null
    rm := .null
    dflag := 0
    aflag := 0
    sib := 0
    ripRel := 0
    immVal := 0
    displacement := 0
    dataPrefix := 0
    repz := 0
    repnz := 0
    isRmSrc := 0
    lock := 0
    opcodeTable := .main }

/-! ## The instruction pointer -/

/-- An addition to the low bits of a word. -/
def addLow (bits : Nat) (rip : U64) (n : Nat) : U64 :=
  BitVec.ofNat 64
    (rip.toNat / 2 ^ bits * 2 ^ bits + (rip.toNat + n) % 2 ^ bits)

/-- `add byte [_rip],1` -/
def addByteRip (s : State) : State :=
  { s with rip := addLow 8 s.rip 1 }

/-- `add dword [_rip],n` -/
def addDwordRip (n : Nat) (s : State) : State :=
  { s with rip := addLow 32 s.rip n }

/-- `add qword [_rip],1` -/
def addQwordRip (s : State) : State :=
  { s with rip := s.rip + 1 }

/-- Some bytes of the memory, the lowest one first. -/
def bytesAt (memory : U64 → UInt8) (address : U64) : Nat → Nat
  | 0 => 0
  | n + 1 =>
      (memory address).toNat + 256 * bytesAt memory (address + 1) n

/-- The fetches store some bytes and go on behind them. -/
def fetchBytes (n : Nat) (s : State) : State :=
  addDwordRip n
    { s with res := BitVec.ofNat 64 (bytesAt s.machine.memory s.rip n) }

/-- `_fetch8` -/
def fetch8 : State → State :=
  fetchBytes 1

/-- `_fetch16` -/
def fetch16 : State → State :=
  fetchBytes 2

/-- `_fetch32` -/
def fetch32 : State → State :=
  fetchBytes 4

/-- `_fetch64` -/
def fetch64 : State → State :=
  fetchBytes 8

/-- A call through `_fetch_base`. -/
def fetchBase (offset : UInt8) (s : State) : Option State :=
  if offset = 0x00 then some (fetch8 s)
  else if offset = 0x08 then some (fetch16 s)
  else if offset = 0x10 then some (fetch32 s)
  else if offset = 0x18 then some (fetch64 s)
  else none

/-- `_fetch` -/
def fetch (s : State) : Option State :=
  fetchBase s.dflag s

/-- `_fetch_no64` -/
def fetchNo64 (s : State) : Option State :=
  fetchBase (if s.dflag = 0x18 then s.dflag - 0x08 else s.dflag) s

/-- The low byte of `_context._res`. -/
def State.resByte (s : State) : UInt8 :=
  UInt8.ofNat s.res.toNat

/-- `mov byte` into a word. -/
def setByte (word : U64) (byte : UInt8) : U64 :=
  BitVec.ofNat 64 (word.toNat / 2 ^ 8 * 2 ^ 8 + byte.toNat)

/-- `mov dword` into a word. -/
def setDword (word : U64) (dword : Nat) : U64 :=
  BitVec.ofNat 64 (word.toNat / 2 ^ 32 * 2 ^ 32 + dword % 2 ^ 32)

/-- `_context._imm_val` gets `_context._res`. -/
def setImmVal (s : State) : State :=
  { s with immVal := s.res }

/-! ## ModRM -/

/-- `_set_mod` -/
def setMod (al : UInt8) (s : State) : State :=
  { s with mod := (al &&& 0xc0) >>> 3 }

/-- The index of a register, by a bit of the prefix. -/
def registerIndex (rex bit field : UInt8) : Nat :=
  (if rex &&& bit = bit then 8 else 0) + field.toNat

/-- `_set_reg` -/
def setReg (al bl : UInt8) (s : State) : State :=
  { s with reg := .register (registerIndex bl 0x04 ((al &&& 0x38) >>> 3)) }

/-- `_set_xmm_to_reg` -/
def setXmmToReg (al bl : UInt8) (s : State) : State :=
  { s with reg := .xmm (registerIndex bl 0x04 ((al &&& 0x38) >>> 3)) }

/-- `_set_rm` -/
def setRm (al bl : UInt8) (s : State) : State :=
  { s with
    rm := .register (registerIndex bl 0x01 (al &&& 0x07))
    ripRel :=
      if (al &&& 0x07) <<< 3 = 0x28 ∧ al &&& 0xc0 = 0 then 0xff
      else s.ripRel }

/-- `_set_xmm_to_rm` -/
def setXmmToRm (al bl : UInt8) (s : State) : State :=
  { s with rm := .xmm (registerIndex bl 0x01 (al &&& 0x07)) }

/-- `_set_imm_op_base` -/
def setImmOpBase (base : OpBase) (s : State) : State :=
  { s with immOp := some (base, 0) }

/-- `_set_imm_op` -/
def setImmOp (al : UInt8) (s : State) : State :=
  { s with
    immOp :=
      s.immOp.map fun op => (op.1, op.2 + ((al &&& 0x38) >>> 3).toNat) }

/-- `_set_dflag` -/
def setDflag (s : State) : State :=
  { s with
    dflag :=
      if s.rex &&& 0x08 = 0x08 then 0x18
      else if s.dataPrefix = 0xff then 0x08
      else 0x10 }

/-- `_set_dflag_as_1byte`, and `mov byte [_context._dflag],0x00` -/
def setDflagAs1byte (s : State) : State :=
  { s with dflag := 0x00 }

/-- `_set_aflag` -/
def setAflag (s : State) : State :=
  { s with
    aflag :=
      if s.machine.architecture = 0x1 ∨ s.addrPrefix = 0xff then 0x10
      else 0x18 }

/-- `_get_mod_reg_rm` -/
def getModRegRm (s : State) : State :=
  let s := fetch8 s
  let al := s.resByte
  let bl := s.rex
  s |> setMod al |> setReg al bl |> setRm al bl |> setDflag |> setAflag

/-- `_get_mod_op_rm` -/
def getModOpRm (s : State) : State :=
  let s := fetch8 s
  let al := s.resByte
  let bl := s.rex
  s |> setMod al |> setImmOp al |> setRm al bl |> setDflag |> setAflag

/-- `_get_mod_xmm_rm` -/
def getModXmmRm (s : State) : State :=
  let s := fetch8 s
  let al := s.resByte
  let bl := s.rex
  s |> setMod al |> setXmmToReg al bl |> setRm al bl |> setDflag |> setAflag

/-- `_get_mod_xmm_xmm` -/
def getModXmmXmm (s : State) : State :=
  let s := fetch8 s
  let al := s.resByte
  let bl := s.rex
  s |> setMod al |> setXmmToReg al bl |> setXmmToRm al bl |> setDflag |>
    setAflag

/-- `_reset_higher8_access` -/
def resetHigher8Access (s : State) : State :=
  if s.rex = 0 ∧ s.resByte &&& 0x20 = 0x20 then
    { s with
      reg :=
        match s.reg with
        | .register index => .register (index - 4)
        | other => other
      dflag := 0x4 }
  else
    { s with dflag := 0x0 }

/-! ## SIB and displacement -/

/-- `compute_scale_index`; the low byte of `_context._rm` is the SIB byte. -/
def computeScaleIndex (dl : UInt8) (s : State) : State :=
  { s with
    sibScale := (dl &&& 0xc0) >>> 6
    sibIndex :=
      .register (registerIndex s.rex 0x02 ((s.resByte &&& 0x38) >>> 3)) }

/-- `compute_base` -/
def computeBase (dl : UInt8) (s : State) : State :=
  if s.mod = 0x00 ∧ (dl &&& 0x07) <<< 3 = 0x28 then
    { s with mod := 0x10, sibBase := .null }
  else
    { s with sibBase := .register (registerIndex s.rex 0x01 (dl &&& 0x07)) }

/-- The SIB byte is stored in the low byte of the pointer in `_context._rm`. -/
def fetchSib (index : Nat) (s : State) : State :=
  let s := fetch8 s
  let al := s.resByte
  let s := { s with rm := .overwritten index al }
  { s |> computeScaleIndex al |> computeBase al with sib := 0xff }

/-- `_set_scale_index_base` -/
def setScaleIndexBase (s : State) : State :=
  if s.mod = 0x18 then s
  else if s.rm = .register 4 then fetchSib 4 s
  else if s.rm = .register 12 then fetchSib 12 s
  else s

/-- A displacement of 8 bits. -/
def displacement8 (s : State) : State :=
  addDwordRip 1
    { s with
      displacement := setByte s.displacement (s.machine.memory s.rip) }

/-- A displacement of 32 bits. -/
def displacement32 (s : State) : State :=
  addDwordRip 4
    { s with
      displacement :=
        setDword s.displacement (bytesAt s.machine.memory s.rip 4) }

/-- `_fetch_displacement_by_mod`, which is `_inc_displacement` -/
def fetchDisplacementByMod (s : State) : State :=
  if s.mod = 0x00 then
    if s.ripRel = 0x00 then s else displacement32 s
  else if s.mod = 0x08 then displacement8 s
  else if s.mod = 0x10 then displacement32 s
  else s

/-! ## Selecting registers -/

/-- The register that the opcode and the prefix select. -/
def selected (s : State) : Address :=
  .register (registerIndex s.rex 0x01 (s.opcode &&& 0x07))

/-- `_select_reg` -/
def selectReg (s : State) : State :=
  { s with reg := selected s }

/-- `_select_rm` -/
def selectRm (s : State) : State :=
  { s with rm := selected s }

/-- `_context._rm` gets the address of `_rax`. -/
def setRmRax (s : State) : State :=
  { s with rm := .register 0 }

/-- `_context._reg` gets the address of `_rax`. -/
def setRegRax (s : State) : State :=
  { s with reg := .register 0 }

/-- `_context._rm` gets the contents of `_rax`. -/
def setRmContents (s : State) : State :=
  { s with rm := .value s.rax }

/-- `_context._mod` gets the mode of a register. -/
def setMod11 (s : State) : State :=
  { s with mod := 0x18 }

/-- `mov byte [_context._is_rm_src],0xff` -/
def setIsRmSrc (s : State) : State :=
  { s with isRmSrc := 0xff }

/-- `mov r15b,0xff` -/
def setR15b (s : State) : State :=
  { s with r15b := 0xff }

/-- `print` saves `rdx` in `r15`. -/
def print (rdx : UInt8) (s : State) : State :=
  { s with r15b := rdx }

/-- `_load_rm_by_mod`; the load for `mod` 01 prints. -/
def loadRmByMod (s : State) : State :=
  let s := if s.mod = 0x08 then print s.machine.loadEntry s else s
  { s with res := s.machine.loaded s.mod s.dflag s.rm }

/-! ## Shared handlers -/

/-- `_do01` -/
def do01 (s : State) : Option State :=
  let s := s |> addQwordRip |> getModRegRm
  let s := if s.r15b = 0xff then setDflagAs1byte { s with r15b := 0 } else s
  some (s |> setScaleIndexBase |> fetchDisplacementByMod)

/-- `_do02` -/
def do02 (s : State) : Option State :=
  (fetchNo64 (addDwordRip 1 s)).map fun s => s |> setImmVal |> setRegRax

/-- `_do_xmm_xmm` -/
def doXmmXmm (s : State) : Option State :=
  some
    (s |> addDwordRip 1 |> getModXmmXmm |> setScaleIndexBase |>
      fetchDisplacementByMod)

/-- `_do_xmm_rm` -/
def doXmmRm (s : State) : Option State :=
  some
    (s |> addDwordRip 1 |> getModXmmRm |> setScaleIndexBase |>
      fetchDisplacementByMod)

/-- A handler that returns at once. -/
def ret (s : State) : Option State :=
  some s

/-- A handler that goes to the next byte only. -/
def next (s : State) : Option State :=
  some (addDwordRip 1 s)

/-- A handler that prints; `_exec` has left the address in `rdx`. -/
def prints (s : State) : Option State :=
  some (print (UInt8.ofNat s.rip.toNat) s)

end BinTools.X86
