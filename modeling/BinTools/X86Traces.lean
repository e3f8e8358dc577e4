import BinTools.X86Agreement

namespace BinTools.X86

/-!
# What an instruction shows and leaves behind

The disassembler reads some fields of the decoded instruction.  Later
instructions read the virtual `rax`, a host register and the prefix 67, which
`_clear_state` leaves alone; the routines of the handlers do not write them.
-/

/-! ## What the disassembler reads -/

/-- The opcodes for which `_context._imm_op` is read. -/
def immOpOpcodes : List Nat :=
  [0x80, 0x81, 0x82, 0x83, 0xc0, 0xc1, 0xd0, 0xd1, 0xf6, 0xf7, 0xfe, 0xff]

/--
The fields that `__z__x86__dis` reads: scale, index and base behind a SIB byte
only, and the operation for some opcodes only.
-/
structure Shown where
  rip : U64
  opcodeTable : OpcodeTable
  opcode : UInt8
  mod : UInt8
  reg : Address
  rm : Address
  sib : UInt8
  sibParts : Option (UInt8 × Address × Address)
  ripRel : UInt8
  dflag : UInt8
  aflag : UInt8
  displacement : U64
  immVal : U64
  immOp : Option (Option (OpBase × Nat))
  deriving DecidableEq, Repr

/-- These fields, with the operation or without it. -/
def State.shownWith (operates : Bool) (s : State) : Shown where
  rip := s.rip
  opcodeTable := s.opcodeTable
  opcode := s.opcode
  mod := s.mod
  reg := s.reg
  rm := s.rm
  sib := s.sib
  sibParts :=
    if s.sib = 0 then none else some (s.sibScale, s.sibIndex, s.sibBase)
  ripRel := s.ripRel
  dflag := s.dflag
  aflag := s.aflag
  displacement := s.displacement
  immVal := s.immVal
  immOp := if operates then some s.immOp else none

/-- The operation is read. -/
def State.operates (s : State) : Bool :=
  s.opcodeTable = .main ∧ s.opcode.toNat ∈ immOpOpcodes

/-- What is read of a decoded instruction. -/
def State.shown (s : State) : Shown :=
  s.shownWith s.operates

/-- States that agree show the same. -/
theorem Agree.shownWith_eq
    {res op : Bool} {s t : State} (agree : Agree res op s t) :
    t.shownWith op = s.shownWith op := by
  obtain ⟨x, rfl, like⟩ := agree
  have sameParts :
      (if s.sib = 0 then none else some (x.sibScale, x.sibIndex, x.sibBase)) =
        if s.sib = 0 then none
        else some (s.sibScale, s.sibIndex, s.sibBase) := by
    by_cases noSib : s.sib = 0
    · rw [if_pos noSib, if_pos noSib]
    · obtain ⟨sameIndex, sameBase, sameScale⟩ := like.sibParts noSib
      rw [sameIndex, sameBase, sameScale]
      rfl
  have sameOp :
      (if op then some x.immOp else none) =
        if op then some s.immOp else none := by
    cases op
    · rfl
    · exact congrArg some (like.immOp rfl)
  have isShown :
      (s.withStale x).shownWith op =
        { s.shownWith op with
          sibParts :=
            if s.sib = 0 then none
            else some (x.sibScale, x.sibIndex, x.sibBase)
          immOp := if op then some x.immOp else none } := rfl
  rw [isShown, sameParts, sameOp]
  rfl

/-! ## What is left behind -/

/-- What later instructions read, and what tells the handler. -/
def State.trace (s : State) :
    Machine × U64 × UInt8 × UInt8 × UInt8 × OpcodeTable :=
  (s.machine, s.rax, s.r15b, s.addrPrefix, s.opcode, s.opcodeTable)

/-- Moving the instruction pointer changes none of this. -/
theorem withRip_trace (rip : U64) (s : State) :
    ({ s with rip := rip } : State).trace = s.trace :=
  rfl

@[simp] theorem addByteRip_trace (s : State) :
    (addByteRip s).trace = s.trace := by
  cases s
  exact withRip_trace _ _

@[simp] theorem addDwordRip_trace (n : Nat) (s : State) :
    (addDwordRip n s).trace = s.trace := by
  cases s
  exact withRip_trace _ _

@[simp] theorem addQwordRip_trace (s : State) :
    (addQwordRip s).trace = s.trace := by
  cases s
  exact withRip_trace _ _

@[simp] theorem setImmVal_trace (s : State) :
    (setImmVal s).trace = s.trace := by
  cases s
  rfl

@[simp] theorem setMod_trace (al : UInt8) (s : State) :
    (setMod al s).trace = s.trace := by
  cases s
  rfl

@[simp] theorem setReg_trace (al bl : UInt8) (s : State) :
    (setReg al bl s).trace = s.trace := by
  cases s
  rfl

@[simp] theorem setXmmToReg_trace (al bl : UInt8) (s : State) :
    (setXmmToReg al bl s).trace = s.trace := by
  cases s
  rfl

@[simp] theorem setRm_trace (al bl : UInt8) (s : State) :
    (setRm al bl s).trace = s.trace := by
  cases s
  rfl

@[simp] theorem setXmmToRm_trace (al bl : UInt8) (s : State) :
    (setXmmToRm al bl s).trace = s.trace := by
  cases s
  rfl

@[simp] theorem setImmOpBase_trace (base : OpBase) (s : State) :
    (setImmOpBase base s).trace = s.trace := by
  cases s
  rfl

@[simp] theorem setImmOp_trace (al : UInt8) (s : State) :
    (setImmOp al s).trace = s.trace := by
  cases s
  rfl

@[simp] theorem setDflag_trace (s : State) :
    (setDflag s).trace = s.trace := by
  cases s
  rfl

@[simp] theorem setDflagAs1byte_trace (s : State) :
    (setDflagAs1byte s).trace = s.trace := by
  cases s
  rfl

@[simp] theorem setAflag_trace (s : State) :
    (setAflag s).trace = s.trace := by
  cases s
  rfl

@[simp] theorem setIsRmSrc_trace (s : State) :
    (setIsRmSrc s).trace = s.trace := by
  cases s
  rfl

@[simp] theorem selectReg_trace (s : State) :
    (selectReg s).trace = s.trace := by
  cases s
  rfl

@[simp] theorem selectRm_trace (s : State) :
    (selectRm s).trace = s.trace := by
  cases s
  rfl

@[simp] theorem setRmRax_trace (s : State) :
    (setRmRax s).trace = s.trace := by
  cases s
  rfl

@[simp] theorem setRegRax_trace (s : State) :
    (setRegRax s).trace = s.trace := by
  cases s
  rfl

@[simp] theorem setRmContents_trace (s : State) :
    (setRmContents s).trace = s.trace := by
  cases s
  rfl

@[simp] theorem setMod11_trace (s : State) :
    (setMod11 s).trace = s.trace := by
  cases s
  rfl

@[simp] theorem setImmOne_trace (s : State) :
    (setImmOne s).trace = s.trace := by
  cases s
  rfl

theorem withRm_trace (rm : Address) (s : State) :
    ({ s with rm := rm } : State).trace = s.trace :=
  rfl

theorem withSib_trace (sib : UInt8) (s : State) :
    ({ s with sib := sib } : State).trace = s.trace :=
  rfl

@[simp] theorem computeScaleIndex_trace (dl : UInt8) (s : State) :
    (computeScaleIndex dl s).trace = s.trace := by
  cases s
  rfl

@[simp] theorem computeBase_trace (dl : UInt8) (s : State) :
    (computeBase dl s).trace = s.trace := by
  unfold computeBase
  split_ifs <;> rfl

/-- Nor does a result. -/
theorem withRes_trace (res : U64) (s : State) :
    ({ s with res := res } : State).trace = s.trace :=
  rfl

@[simp] theorem fetchBytes_trace (n : Nat) (s : State) :
    (fetchBytes n s).trace = s.trace := by
  rw [fetchBytes, addDwordRip_trace]
  exact withRes_trace _ s

@[simp] theorem fetch8_trace (s : State) :
    (fetch8 s).trace = s.trace :=
  fetchBytes_trace 1 s

@[simp] theorem fetch16_trace (s : State) :
    (fetch16 s).trace = s.trace :=
  fetchBytes_trace 2 s

@[simp] theorem fetch32_trace (s : State) :
    (fetch32 s).trace = s.trace :=
  fetchBytes_trace 4 s

@[simp] theorem getModRegRm_trace (s : State) :
    (getModRegRm s).trace = s.trace := by
  simp [getModRegRm]

@[simp] theorem getModOpRm_trace (s : State) :
    (getModOpRm s).trace = s.trace := by
  simp [getModOpRm]

@[simp] theorem getModXmmRm_trace (s : State) :
    (getModXmmRm s).trace = s.trace := by
  simp [getModXmmRm]

@[simp] theorem getModXmmXmm_trace (s : State) :
    (getModXmmXmm s).trace = s.trace := by
  simp [getModXmmXmm]

@[simp] theorem resetHigher8Access_trace (s : State) :
    (resetHigher8Access s).trace = s.trace := by
  unfold resetHigher8Access
  split_ifs <;> rfl

@[simp] theorem fetchSib_trace (index : Nat) (s : State) :
    (fetchSib index s).trace = s.trace := by
  simp [fetchSib, withRm_trace, withSib_trace]

@[simp] theorem setScaleIndexBase_trace (s : State) :
    (setScaleIndexBase s).trace = s.trace := by
  unfold setScaleIndexBase
  split_ifs <;> simp

/-- Nor does a displacement. -/
theorem withDisplacement_trace (displacement : U64) (s : State) :
    ({ s with displacement := displacement } : State).trace = s.trace :=
  rfl

@[simp] theorem displacement8_trace (s : State) :
    (displacement8 s).trace = s.trace := by
  rw [displacement8, addDwordRip_trace]
  exact withDisplacement_trace _ s

@[simp] theorem displacement32_trace (s : State) :
    (displacement32 s).trace = s.trace := by
  rw [displacement32, addDwordRip_trace]
  exact withDisplacement_trace _ s

@[simp] theorem fetchDisplacementByMod_trace (s : State) :
    (fetchDisplacementByMod s).trace = s.trace := by
  unfold fetchDisplacementByMod
  split_ifs <;> simp

@[simp] theorem operands_trace (s : State) :
    (operands s).trace = s.trace := by
  simp [operands]

@[simp] theorem setImmRax_trace (s : State) :
    (setImmRax s).trace = s.trace := by
  simp [setImmRax]

/-- The fetches change none of this. -/
theorem fetchBase_trace
    {offset : UInt8} {s u : State} (fetched : fetchBase offset s = some u) :
    u.trace = s.trace := by
  unfold fetchBase at fetched
  split_ifs at fetched <;> cases fetched
  · exact fetch8_trace s
  · exact fetch16_trace s
  · exact fetch32_trace s
  · exact fetchBytes_trace 8 s

end BinTools.X86
