import BinTools.X86Moves

namespace BinTools.X86

/-!
# Instruction boundaries

The decoder ends at the end of an instruction unless an addition to the low bits of
the instruction pointer carries, or the handler takes another size for the
immediate value, or does not step behind its opcode.
-/

/-- The opcodes whose handlers add to the low byte. -/
def byteOpcodes : List UInt8 :=
  [0x00, 0x30, 0x84, 0x86, 0x87, 0x8a, 0x8b, 0xfe]

/-- The opcodes whose handlers add to all 64 bits. -/
def qwordOpcodes : List UInt8 :=
  [0x08, 0x09, 0x0a, 0x0b, 0x18, 0x19, 0x1a, 0x1b, 0x20, 0x21, 0x22, 0x23,
    0x28, 0x29, 0x2a, 0x2b, 0x31, 0x33, 0x38, 0x39, 0x3a, 0x3b]

/-- How the handler of an opcode steps behind it. -/
def stepOf (opcode : UInt8) : Step :=
  if opcode = 0x32 then .none
  else if opcode ∈ byteOpcodes then .byte
  else if opcode ∈ qwordOpcodes then .qword
  else .dword

/-- The number of bytes that are fetched as the immediate value. -/
def fetchedSize
    (opcode : UInt8) (wide data : Bool) (modrm : UInt8) : Nat :=
  if opcode = 0x68 ∨ opcode = 0xc7 then 4
  else if opcode = 0xf6 then
    if regOf modrm = 0 then 1 else 0
  else if opcode = 0xf7 then
    if regOf modrm = 0 then operandSize wide data else 0
  else immediateSize opcode wide data modrm

/-! ## The entries of the table -/

/-- The handlers of the opcodes with a ModRM byte. -/
theorem entry_modrm :
    ∀ opcode ∈ modrmOpcodes,
      ∃ handler,
        opcodeTable[opcode.toNat]? = some (run handler) ∧
          Moves (stepOf opcode)
            (fun wide data modrm sib =>
              operandsSize modrm sib + fetchedSize opcode wide data modrm)
            handler := by
  simp only [modrmOpcodes, List.forall_mem_cons]
  exact ⟨
    ⟨x00Add, rfl, moves_x00Add⟩,
    ⟨x01Add, rfl, moves_dwordOperands⟩,
    ⟨x02Add, rfl, moves_x02Add⟩,
    ⟨x03Add, rfl, moves_dwordOperands⟩,
    ⟨x08Or, rfl, moves_do01.comp keeps_setR15b⟩,
    ⟨x09Or, rfl, moves_do01⟩,
    ⟨x0aOr, rfl, (moves_do01.comp keeps_setIsRmSrc).comp keeps_setR15b⟩,
    ⟨x0bOr, rfl, moves_do01.comp keeps_setIsRmSrc⟩,
    ⟨x18Sbb, rfl, moves_do01.comp keeps_setR15b⟩,
    ⟨x19Sbb, rfl, moves_do01⟩,
    ⟨x1aSbb, rfl, (moves_do01.comp keeps_setIsRmSrc).comp keeps_setR15b⟩,
    ⟨x1bSbb, rfl, moves_do01.comp keeps_setIsRmSrc⟩,
    ⟨x20And, rfl, moves_do01.comp keeps_setR15b⟩,
    ⟨x21And, rfl, moves_do01⟩,
    ⟨x22And, rfl, (moves_do01.comp keeps_setIsRmSrc).comp keeps_setR15b⟩,
    ⟨x23And, rfl, moves_do01.comp keeps_setIsRmSrc⟩,
    ⟨x28Sub, rfl, moves_do01.comp keeps_setR15b⟩,
    ⟨x29Sub, rfl, moves_do01⟩,
    ⟨x2aSub, rfl, (moves_do01.comp keeps_setIsRmSrc).comp keeps_setR15b⟩,
    ⟨x2bSub, rfl, moves_do01.comp keeps_setIsRmSrc⟩,
    ⟨x30Xor, rfl, moves_x30Xor⟩,
    ⟨x31Xor, rfl, moves_do01⟩,
    ⟨x32Xor, rfl, moves_x32Xor⟩,
    ⟨x33Xor, rfl, moves_do01.comp keeps_setIsRmSrc⟩,
    ⟨x38Cmp, rfl, moves_do01.comp keeps_setR15b⟩,
    ⟨x39Cmp, rfl, moves_do01⟩,
    ⟨x3aCmp, rfl, (moves_do01.comp keeps_setIsRmSrc).comp keeps_setR15b⟩,
    ⟨x3bCmp, rfl, moves_do01.comp keeps_setIsRmSrc⟩,
    ⟨x80ArithImm, rfl, moves_com01⟩,
    ⟨x81ArithImm, rfl, moves_com02.comp keeps_setDflag⟩,
    ⟨x83ArithImm, rfl, moves_com01⟩,
    ⟨x84Test, rfl, moves_byteOperands⟩,
    ⟨x85Test, rfl, moves_dwordOperands⟩,
    ⟨x86Xchg, rfl, moves_x86Xchg⟩,
    ⟨x87Xchg, rfl, moves_byteOperands⟩,
    ⟨x88Mov, rfl, moves_x88Mov⟩,
    ⟨x89Mov, rfl, moves_dwordOperands⟩,
    ⟨x8aMov, rfl, moves_x86Xchg⟩,
    ⟨x8bMov, rfl, moves_byteOperands⟩,
    ⟨x8dLea, rfl, moves_dwordOperands⟩,
    ⟨xc0Shift, rfl, moves_xc0Shift⟩,
    ⟨xc1Shift, rfl, moves_xc1Shift⟩,
    ⟨xc6Mov, rfl, moves_xc6Mov⟩,
    ⟨xc7Mov, rfl, moves_xc7Mov⟩,
    ⟨xf6Op, rfl, moves_xf6Op⟩,
    ⟨xf7Op, rfl, moves_xf7Op⟩,
    ⟨xfeOp, rfl, moves_xfeOp⟩,
    ⟨xffOp, rfl, moves_xffOp⟩,
    fun _ absent => absurd absent List.not_mem_nil⟩

/-- The handlers of the other opcodes. -/
theorem entry_plain :
    ∀ opcode ∈ plainOpcodes,
      ∃ handler,
        opcodeTable[opcode.toNat]? = some (run handler) ∧
          Moves (stepOf opcode)
            (fun wide data modrm _ => fetchedSize opcode wide data modrm)
            handler := by
  simp only [plainOpcodes, List.forall_mem_cons]
  exact ⟨
    ⟨x50Push, rfl, moves_pushPop⟩,
    ⟨x51Push, rfl, moves_pushPop⟩,
    ⟨x52Push, rfl, moves_pushPop⟩,
    ⟨x53Push, rfl, moves_pushPop⟩,
    ⟨x54Push, rfl, moves_pushPop⟩,
    ⟨x55Push, rfl, moves_pushPop⟩,
    ⟨x56Push, rfl, moves_pushPop⟩,
    ⟨x57Push, rfl, moves_pushPop⟩,
    ⟨x58Pop, rfl, moves_pushPop⟩,
    ⟨x59Pop, rfl, moves_pushPop⟩,
    ⟨x5aPop, rfl, moves_pushPop⟩,
    ⟨x5bPop, rfl, moves_pushPop⟩,
    ⟨x5cPop, rfl, moves_pushPop⟩,
    ⟨x5dPop, rfl, moves_pushPop⟩,
    ⟨x5ePop, rfl, moves_pushPop⟩,
    ⟨x5fPop, rfl, moves_pushPop⟩,
    ⟨x68PushIv, rfl, moves_xe8Call⟩,
    ⟨x6aPushIv, rfl, moves_fetchAndSetImm⟩,
    ⟨x70Jo, rfl, moves_fetchAndSetImm⟩,
    ⟨x71Jno, rfl, moves_fetchAndSetImm⟩,
    ⟨x72Jnae, rfl, moves_fetchAndSetImm⟩,
    ⟨x73Jnc, rfl, moves_fetchAndSetImm⟩,
    ⟨x74Je, rfl, moves_fetchAndSetImm⟩,
    ⟨x75Jne, rfl, moves_fetchAndSetImm⟩,
    ⟨x76Jna, rfl, moves_fetchAndSetImm⟩,
    ⟨x77Ja, rfl, moves_fetchAndSetImm⟩,
    ⟨x78Js, rfl, moves_fetchAndSetImm⟩,
    ⟨x79Jns, rfl, moves_fetchAndSetImm⟩,
    ⟨x7aJpe, rfl, moves_fetchAndSetImm⟩,
    ⟨x7bJpo, rfl, moves_fetchAndSetImm⟩,
    ⟨x7cJnge, rfl, moves_fetchAndSetImm⟩,
    ⟨x7dJge, rfl, moves_fetchAndSetImm⟩,
    ⟨x7eJng, rfl, moves_fetchAndSetImm⟩,
    ⟨x7fJnle, rfl, moves_fetchAndSetImm⟩,
    ⟨xb0Mov, rfl, moves_movByte⟩,
    ⟨xb1Mov, rfl, moves_movByte⟩,
    ⟨xb2Mov, rfl, moves_movByte⟩,
    ⟨xb3Mov, rfl, moves_movByte⟩,
    ⟨xb4Mov, rfl, moves_movByte⟩,
    ⟨xb5Mov, rfl, moves_movByte⟩,
    ⟨xb6Mov, rfl, moves_movByte⟩,
    ⟨xb7Mov, rfl, moves_movByte⟩,
    ⟨xb8Mov, rfl, moves_movBytes⟩,
    ⟨xb9Mov, rfl, moves_movBytes⟩,
    ⟨xbaMov, rfl, moves_movBytes⟩,
    ⟨xbbMov, rfl, moves_movBytes⟩,
    ⟨xbcMov, rfl, moves_movBytes⟩,
    ⟨xbdMov, rfl, moves_movBytes⟩,
    ⟨xbeMov, rfl, moves_movBytes⟩,
    ⟨xbfMov, rfl, moves_movBytes⟩,
    ⟨xe8Call, rfl, moves_xe8Call⟩,
    ⟨xe9Jmp, rfl, moves_xe8Call⟩,
    ⟨xebJmp, rfl, moves_xebJmp⟩,
    fun _ absent => absurd absent List.not_mem_nil⟩

end BinTools.X86
