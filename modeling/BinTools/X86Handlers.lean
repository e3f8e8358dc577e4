import BinTools.X86Decoder

namespace BinTools.X86

/-!
# Handlers of the opcodes

One handler for each entry of the two opcode tables.  The handlers of 10, 11,
a7, ae, af and c8, and of 20 and 22 in the second table, run an instruction on
guest data and return; they are not modelled.  Their entries are `none`, like
those of the handlers that never return and the null entries of the second
table.
-/


/-! ## 00 to 0f -/

/-- ModRM, SIB and displacement. -/
def operands (s : State) : State :=
  s |> getModRegRm |> setScaleIndexBase |> fetchDisplacementByMod


/-- `_0x00_add` -/
def x00Add (s : State) : Option State :=
  some
    (s |> addByteRip |> getModRegRm |> resetHigher8Access |>
      setScaleIndexBase |> fetchDisplacementByMod)

/-- `_0x01_add` -/
def x01Add (s : State) : Option State :=
  some (s |> addDwordRip 1 |> operands)

/-- `_0x02_add` -/
def x02Add (s : State) : Option State :=
  some (s |> addDwordRip 1 |> operands |> loadRmByMod)

/-- `_0x03_add` -/
def x03Add (s : State) : Option State :=
  some (s |> addDwordRip 1 |> operands)

/-- `_0x04_add` -/
def x04Add (s : State) : Option State :=
  some (s |> addByteRip |> fetch8)

/-- `_0x05_add` -/
def x05Add (s : State) : Option State :=
  (s |> addDwordRip 1 |> setDflag |> fetchNo64).map fun s =>
    s |> setImmVal |> setRmContents

/-- `_0x09_or` -/
def x09Or : State → Option State :=
  do01

/-- `_0x08_or` -/
def x08Or (s : State) : Option State :=
  x09Or (setR15b s)

/-- `_0x0b_or` -/
def x0bOr (s : State) : Option State :=
  do01 (setIsRmSrc s)

/-- `_0x0a_or` -/
def x0aOr (s : State) : Option State :=
  x0bOr (setR15b s)

/-- `_0x0c_or` -/
def x0cOr : State → Option State :=
  do02

/-- `_0x0d_or` -/
def x0dOr (s : State) : Option State :=
  do02 (setDflag s)

/-- `_0x0f`, which goes on with the second table. -/
def x0f (s : State) : State :=
  { addDwordRip 1 s with opcodeTable := .extend }


/-! ## 10 to 1f -/

/-- `_0x12_adc` to `_0x15_adc` -/
def x12Adc : State → Option State := ret
def x13Adc : State → Option State := ret
def x14Adc : State → Option State := ret
def x15Adc : State → Option State := ret

/-- `_0x19_sbb` -/
def x19Sbb : State → Option State :=
  do01

/-- `_0x18_sbb` -/
def x18Sbb (s : State) : Option State :=
  x19Sbb (setR15b s)

/-- `_0x1b_sbb` -/
def x1bSbb (s : State) : Option State :=
  do01 (setIsRmSrc s)

/-- `_0x1a_sbb` -/
def x1aSbb (s : State) : Option State :=
  x1bSbb (setR15b s)

/-- `_0x1c_sbb` -/
def x1cSbb (s : State) : Option State :=
  do02 (setDflagAs1byte s)

/-- `_0x1d_sbb` -/
def x1dSbb (s : State) : Option State :=
  do02 (setDflag s)

/-- `_0x1f` -/
def x1f : State → State :=
  x0f


/-! ## 20 to 2f -/

/-- `_0x20_and` -/
def x20And (s : State) : Option State :=
  do01 (setR15b s)

/-- `_0x21_and` -/
def x21And : State → Option State :=
  do01

/-- `_0x22_and` -/
def x22And (s : State) : Option State :=
  do01 (setIsRmSrc (setR15b s))

/-- `_0x23_and` -/
def x23And (s : State) : Option State :=
  do01 (setIsRmSrc s)

/-- `_0x24_and` -/
def x24And : State → Option State :=
  do02

/-- `_0x25_and` -/
def x25And (s : State) : Option State :=
  do02 (setDflag s)

/-- `_0x28_sub` -/
def x28Sub (s : State) : Option State :=
  do01 (setR15b s)

/-- `_0x29_sub` -/
def x29Sub : State → Option State :=
  do01

/-- `_0x2a_sub` -/
def x2aSub (s : State) : Option State :=
  do01 (setIsRmSrc (setR15b s))

/-- `_0x2b_sub` -/
def x2bSub (s : State) : Option State :=
  do01 (setIsRmSrc s)

/-- `_0x2c_sub` -/
def x2cSub (s : State) : Option State :=
  some
    (s |> addByteRip |> setDflag |> fetch8 |> setImmVal |> setRmContents)

/-- `_0x2d_sub` -/
def x2dSub (s : State) : Option State :=
  (s |> addByteRip |> setDflag |> fetchNo64).map fun s =>
    s |> setImmVal |> setRmRax

/-- `_0x2e_prefix_seg_cs` -/
def x2ePrefixSegCs : State → State :=
  addDwordRip 1


/-- `_0x2f_bcd_das` -/
def x2fBcdDas : State → Option State :=
  ret

/-! ## 30 to 3f -/

/-- `__com` -/
def com (s : State) : Option State :=
  some (operands s)


/-- `_0x30_xor` -/
def x30Xor (s : State) : Option State :=
  s |> setR15b |> addByteRip |> com

/-- `_0x31_xor` -/
def x31Xor : State → Option State :=
  do01

/-- `_0x32_xor` -/
def x32Xor : State → Option State :=
  com

/-- `_0x33_xor` -/
def x33Xor (s : State) : Option State :=
  do01 (setIsRmSrc s)

/-- `_0x34_xor` and `_0x35_xor` -/
def x34Xor : State → Option State := com
def x35Xor : State → Option State := com

/-- The prefixes of the segments. -/
def prefixSeg (segment : Segment) (s : State) : State :=
  { addDwordRip 1 s with override := 0xff, overrideReg := some segment }

/-- `_0x36_prefix_seg_ss` -/
def x36PrefixSegSs : State → State :=
  prefixSeg .ss


/-- `_0x38_cmp` -/
def x38Cmp (s : State) : Option State :=
  do01 (setR15b s)

/-- `_0x39_cmp` -/
def x39Cmp : State → Option State :=
  do01

/-- `_0x3a_cmp` -/
def x3aCmp (s : State) : Option State :=
  do01 (setIsRmSrc (setR15b s))

/-- `_0x3b_cmp` -/
def x3bCmp (s : State) : Option State :=
  do01 (setIsRmSrc s)

/-- `_0x3c_cmp` -/
def x3cCmp (s : State) : Option State :=
  (s |> addDwordRip 1 |> setMod11 |> setRmRax |> setDflagAs1byte |>
    fetch).map setImmVal

/-- `_0x3d_cmp` -/
def x3dCmp (s : State) : Option State :=
  (s |> addDwordRip 1 |> setMod11 |> setRmRax |> setDflag |> fetch).map
    setImmVal

/-! ## 40 to 4f -/

/-- The prefixes that `_context._rex` keeps. -/
def setRex (s : State) : State :=
  { addDwordRip 1 s with rex := s.opcode }


/-- `_0x40_set_rex` to `_0x4f_set_rex` -/
def x40SetRex : State → State := setRex
def x41SetRex : State → State := setRex
def x42SetRex : State → State := setRex
def x43SetRex : State → State := setRex
def x44SetRex : State → State := setRex
def x45SetRex : State → State := setRex
def x46SetRex : State → State := setRex
def x47SetRex : State → State := setRex
def x48SetRex : State → State := setRex
def x49SetRex : State → State := setRex
def x4aSetRex : State → State := setRex
def x4bSetRex : State → State := setRex
def x4cSetRex : State → State := setRex
def x4dSetRex : State → State := setRex
def x4eSetRex : State → State := setRex
def x4fSetRex : State → State := setRex

/-! ## 50 to 5f -/

/-- A register is selected by the opcode. -/
def pushPop (s : State) : Option State :=
  some (s |> addDwordRip 1 |> selectReg)


/-- `_0x50_push` to `_0x5f_pop` -/
def x50Push : State → Option State := pushPop
def x51Push : State → Option State := pushPop
def x52Push : State → Option State := pushPop
def x53Push : State → Option State := pushPop
def x54Push : State → Option State := pushPop
def x55Push : State → Option State := pushPop
def x56Push : State → Option State := pushPop
def x57Push : State → Option State := pushPop
def x58Pop : State → Option State := pushPop
def x59Pop : State → Option State := pushPop
def x5aPop : State → Option State := pushPop
def x5bPop : State → Option State := pushPop
def x5cPop : State → Option State := pushPop
def x5dPop : State → Option State := pushPop
def x5ePop : State → Option State := pushPop
def x5fPop : State → Option State := pushPop

/-! ## 60 to 6f -/

/-- `_0x60_pusha` to `_0x62_bound` -/
def x60Pusha : State → Option State := ret
def x61Popa : State → Option State := ret
def x62Bound : State → Option State := ret

/-- `_0x63_movslS` -/
def x63MovslS (s : State) : Option State :=
  some
    (s |> addDwordRip 1 |> getModRegRm |> setDflagAs1byte |>
      setScaleIndexBase |> fetchDisplacementByMod)

/-- `_0x64_prefix_seg_fs` -/
def x64PrefixSegFs : State → State :=
  prefixSeg .fs

/-- `_0x65_prefix_seg_gs` -/
def x65PrefixSegGs : State → State :=
  prefixSeg .gs

/-- `_0x66_prefix_data` -/
def x66PrefixData (s : State) : State :=
  { addDwordRip 1 s with dataPrefix := 0xff }

/-- `_0x67_prefix_addr` -/
def x67PrefixAddr (s : State) : State :=
  { addDwordRip 1 s with addrPrefix := 0xff }


/-- `_0x68_push_iv` -/
def x68PushIv (s : State) : Option State :=
  some (s |> addDwordRip 1 |> fetch32 |> setImmVal)

/-- `_0x69_imul` -/
def x69Imul : State → Option State :=
  ret

/-- `_0x6a_push_iv` -/
def x6aPushIv (s : State) : Option State :=
  some (s |> addDwordRip 1 |> fetch8 |> setImmVal)

/-- `_0x6b_imul` to `_0x6f_outsS` -/
def x6bImul : State → Option State := ret
def x6cInsS : State → Option State := ret
def x6dInsS : State → Option State := ret
def x6eOutsS : State → Option State := ret
def x6fOutsS : State → Option State := ret

/-! ## 70 to 7f -/

/-- `_fetch_and_set_imm` -/
def fetchAndSetImm (s : State) : Option State :=
  some (s |> addDwordRip 1 |> fetch8 |> setImmVal)


/-- `_0x70_jo` to `_0x7f_jnle` -/
def x70Jo : State → Option State := fetchAndSetImm
def x71Jno : State → Option State := fetchAndSetImm
def x72Jnae : State → Option State := fetchAndSetImm
def x73Jnc : State → Option State := fetchAndSetImm
def x74Je : State → Option State := fetchAndSetImm
def x75Jne : State → Option State := fetchAndSetImm
def x76Jna : State → Option State := fetchAndSetImm
def x77Ja : State → Option State := fetchAndSetImm
def x78Js : State → Option State := fetchAndSetImm
def x79Jns : State → Option State := fetchAndSetImm
def x7aJpe : State → Option State := fetchAndSetImm
def x7bJpo : State → Option State := fetchAndSetImm
def x7cJnge : State → Option State := fetchAndSetImm
def x7dJge : State → Option State := fetchAndSetImm
def x7eJng : State → Option State := fetchAndSetImm
def x7fJnle : State → Option State := fetchAndSetImm

/-! ## 80 to 8f -/

/-- `__com01` -/
def com01 (s : State) : Option State :=
  some
    (s |> addDwordRip 1 |> setImmOpBase .op01 |> getModOpRm |>
      setScaleIndexBase |> fetchDisplacementByMod |> fetch8 |> setImmVal)

/-- `__com02` -/
def com02 (s : State) : Option State :=
  (s |> addDwordRip 1 |> setImmOpBase .op01 |> getModOpRm |>
    setScaleIndexBase |> fetchDisplacementByMod |> fetchNo64).map setImmVal


/-- `_0x80_arith_imm` -/
def x80ArithImm : State → Option State :=
  com01

/-- `_0x81_arith_imm` -/
def x81ArithImm (s : State) : Option State :=
  com02 (setDflag s)

/-- `_0x82_arith_imm` and `_0x83_arith_imm` -/
def x82ArithImm : State → Option State := com01
def x83ArithImm : State → Option State := com01

/-- `_0x84_test` -/
def x84Test (s : State) : Option State :=
  some (s |> addByteRip |> operands)

/-- `_0x85_test` -/
def x85Test (s : State) : Option State :=
  some (s |> addDwordRip 1 |> operands)

/-- `_0x86_xchg` -/
def x86Xchg (s : State) : Option State :=
  some
    (s |> addByteRip |> getModRegRm |> setDflagAs1byte |>
      setScaleIndexBase |> fetchDisplacementByMod)

/-- `_0x87_xchg` -/
def x87Xchg (s : State) : Option State :=
  some (s |> addByteRip |> operands)

/-- `_0x88_mov` -/
def x88Mov (s : State) : Option State :=
  some
    (s |> addDwordRip 1 |> getModRegRm |> setDflagAs1byte |>
      setScaleIndexBase |> fetchDisplacementByMod)

/-- `_0x89_mov` -/
def x89Mov (s : State) : Option State :=
  some (s |> addDwordRip 1 |> operands)

/-- `_0x8a_mov` -/
def x8aMov (s : State) : Option State :=
  some
    (s |> addByteRip |> getModRegRm |> setDflagAs1byte |>
      setScaleIndexBase |> fetchDisplacementByMod)

/-- `_0x8b_mov` -/
def x8bMov (s : State) : Option State :=
  some (s |> addByteRip |> operands)

/-- `_0x8d_lea` -/
def x8dLea (s : State) : Option State :=
  some (s |> addDwordRip 1 |> operands)

/-- `_0x8f_pop_ev` -/
def x8fPopEv : State → Option State :=
  ret

/-! ## 90 to 9f -/

/-- `_xchg_internal` -/
def xchgInternal (s : State) : Option State :=
  some
    (s |> addDwordRip 1 |> setDflag |> setMod11 |> selectRm |> setRegRax)


/-- `_0x90_nop` to `_0x97_xchg_eax` -/
def x90Nop : State → Option State := xchgInternal
def x91XchgEax : State → Option State := xchgInternal
def x92XchgEax : State → Option State := xchgInternal
def x93XchgEax : State → Option State := xchgInternal
def x94XchgEax : State → Option State := xchgInternal
def x95XchgEax : State → Option State := xchgInternal
def x96XchgEax : State → Option State := xchgInternal
def x97XchgEax : State → Option State := xchgInternal

/-- `_0x98_convert` -/
def x98Convert (s : State) : Option State :=
  some (s |> setDflag |> addDwordRip 1)

/-- `_0x99_convert` -/
def x99Convert : State → Option State :=
  next

/-- `_0x9a_lcall` and `_0x9b_fwait` -/
def x9aLcall : State → Option State := ret
def x9bFwait : State → Option State := ret

/-- `_0x9c_pushf` and `_0x9d_popf` -/
def x9cPushf : State → Option State := next
def x9dPopf : State → Option State := next

/-- `_0x9e_sahf` -/
def x9eSahf (s : State) : Option State :=
  some { addDwordRip 1 s with eflags := s.rax }

/-- `_0x9f_lahf` -/
def x9fLahf (s : State) : Option State :=
  some
    { addDwordRip 1 s with
      rax := BitVec.ofNat 64 (s.eflags.toNat % 2 ^ 8 * 2 ^ 8) }

/-! ## a0 to af -/

/-- The immediate value and the register of `_0xa0_mov` and the next ones. -/
def setImmRax (s : State) : State :=
  s |> setImmVal |> setRmRax |> setMod11


/-- `_0xa0_mov` -/
def xa0Mov (s : State) : Option State :=
  some (s |> addDwordRip 1 |> fetch8 |> setImmRax)

/-- `_0xa1_mov` -/
def xa1Mov (s : State) : Option State :=
  some (s |> addDwordRip 1 |> fetch32 |> setImmRax)

/-- `_0xa2_mov` -/
def xa2Mov (s : State) : Option State :=
  some (s |> addDwordRip 1 |> setIsRmSrc |> fetch8 |> setImmRax)

/-- `_0xa3_mov` -/
def xa3Mov (s : State) : Option State :=
  some (s |> addDwordRip 1 |> setIsRmSrc |> fetch32 |> setImmRax)

/-- `_0xa5_movsS` and `_0xa6_cmpsS` -/
def xa5MovsS : State → Option State := next
def xa6CmpsS : State → Option State := next

/-- `_0xa8_test` -/
def xa8Test (s : State) : Option State :=
  let s := s |> addDwordRip 1 |> setDflagAs1byte |> setRmRax |> fetch8
  some { s with immVal := BitVec.ofNat 64 s.resByte.toNat }

/-- `_0xa9_test` -/
def xa9Test (s : State) : Option State :=
  let s := s |> addDwordRip 1 |> setMod11 |> setDflag |> setRmRax |> fetch32
  some { s with immVal := BitVec.ofNat 64 (s.res.toNat % 2 ^ 32) }

/-- `_0xab_stosS` -/
def xabStosS (s : State) : Option State :=
  some (s |> addDwordRip 1 |> setDflag |> selectReg)

/-! ## b0 to bf -/

/-- `_gen_0xb0` -/
def gen0xb0 (s : State) : Option State :=
  (s |> addDwordRip 1 |> fetch).map fun s => s |> setImmVal |> selectReg

/-- A move of one byte. -/
def movByte (s : State) : Option State :=
  gen0xb0 (setDflagAs1byte s)

/-- A move of several bytes. -/
def movBytes (s : State) : Option State :=
  gen0xb0 (setDflag s)


/-- `_0xb0_mov` to `_0xb7_mov` -/
def xb0Mov : State → Option State := movByte
def xb1Mov : State → Option State := movByte
def xb2Mov : State → Option State := movByte
def xb3Mov : State → Option State := movByte
def xb4Mov : State → Option State := movByte
def xb5Mov : State → Option State := movByte
def xb6Mov : State → Option State := movByte
def xb7Mov : State → Option State := movByte

/-- `_0xb8_mov` to `_0xbf_mov` -/
def xb8Mov : State → Option State := movBytes
def xb9Mov : State → Option State := movBytes
def xbaMov : State → Option State := movBytes
def xbbMov : State → Option State := movBytes
def xbcMov : State → Option State := movBytes
def xbdMov : State → Option State := movBytes
def xbeMov : State → Option State := movBytes
def xbfMov : State → Option State := movBytes

/-! ## c0 to cf -/

/-- `_0xc0_shift` -/
def xc0Shift (s : State) : Option State :=
  some
    (s |> addDwordRip 1 |> setImmOpBase .shift |> getModOpRm |>
      setDflagAs1byte |> setScaleIndexBase |> fetchDisplacementByMod |>
      fetch8 |> setImmVal)

/-- `_0xc1_shift` -/
def xc1Shift (s : State) : Option State :=
  some
    (s |> addDwordRip 1 |> setImmOpBase .shift |> getModOpRm |> setDflag |>
      setScaleIndexBase |> fetchDisplacementByMod |> fetch8 |> setImmVal)

/-- `_0xc2_ret` -/
def xc2Ret (s : State) : Option State :=
  some (s |> addDwordRip 1 |> fetch16 |> setImmVal)

/-- `_0xc3_ret` -/
def xc3Ret : State → Option State :=
  next

/-- `_0xc4_les` and `_0xc5_lds` -/
def xc4Les : State → Option State := ret
def xc5Lds : State → Option State := ret

/-- `_0xc6_mov` -/
def xc6Mov (s : State) : Option State :=
  some
    (s |> addDwordRip 1 |> getModRegRm |> setDflagAs1byte |>
      setScaleIndexBase |> fetchDisplacementByMod |> fetch8 |> setImmVal)

/-- `_0xc7_mov` -/
def xc7Mov (s : State) : Option State :=
  some (s |> addDwordRip 1 |> operands |> fetch32 |> setImmVal)

/-- `_0xc9_leave` -/
def xc9Leave : State → Option State :=
  next

/-- `_0xca_lret` to `_0xcf_iret` -/
def xcaLret : State → Option State := ret
def xcbLret : State → Option State := ret
def xccInt3 : State → Option State := ret
def xcdInt : State → Option State := ret
def xceInto : State → Option State := ret
def xcfIret : State → Option State := ret

/-! ## d0 to df -/

/-- `mov byte [_context._imm_val],1` -/
def setImmOne (s : State) : State :=
  { s with immVal := setByte s.immVal 1 }


/-- `_0xd0_shift` -/
def xd0Shift (s : State) : Option State :=
  some
    (s |> addByteRip |> setImmOpBase .shift |> getModOpRm |>
      setDflagAs1byte |> setScaleIndexBase |> fetchDisplacementByMod |>
      setImmOne)

/-- `_0xd1_shift` -/
def xd1Shift (s : State) : Option State :=
  some
    (s |> addDwordRip 1 |> setImmOpBase .shift |> getModOpRm |> setDflag |>
      setScaleIndexBase |> fetchDisplacementByMod |> setImmOne)

/-- `_0xd2_shift` to `_0xd7_xlat` -/
def xd2Shift : State → Option State := ret
def xd3Shift : State → Option State := ret
def xd4Aam : State → Option State := ret
def xd5Aad : State → Option State := ret
def xd6Salc : State → Option State := ret
def xd7Xlat : State → Option State := ret

/-- `_0xd8_float` to `_0xda_float` -/
def xd8Float : State → Option State := do01
def xd9Float : State → Option State := do01
def xdaFloat : State → Option State := do01

/-- `_0xdb_float` -/
def xdbFloat (s : State) : Option State :=
  some (s |> addDwordRip 1 |> addDwordRip 1)

/-- `_0xdc_float` to `_0xde_float` -/
def xdcFloat : State → Option State := do01
def xddFloat : State → Option State := do01
def xdeFloat : State → Option State := do01

/-- `_0xdf_float` -/
def xdfFloat : State → Option State :=
  ret

/-! ## e0 to ef -/

/-- `_0xe0_loopnz` -/
def xe0Loopnz : State → Option State :=
  prints

/-- `_0xe1_loopz` to `_0xe6_port_io` -/
def xe1Loopz : State → Option State := ret
def xe2Loop : State → Option State := ret
def xe3Jecxz : State → Option State := ret
def xe4PortIo : State → Option State := ret
def xe5PortIo : State → Option State := ret
def xe6PortIo : State → Option State := ret

/-- `_0xe7_port_io` -/
def xe7PortIo : State → Option State :=
  prints

/-- `_0xe8_call` -/
def xe8Call (s : State) : Option State :=
  some (s |> addDwordRip 1 |> fetch32 |> setImmVal)

/-- `_0xe9_jmp` -/
def xe9Jmp (s : State) : Option State :=
  some (s |> addDwordRip 1 |> fetch32 |> setImmVal)

/-- `_0xea_jmp` -/
def xeaJmp : State → Option State :=
  prints

/-- `_0xeb_jmp` -/
def xebJmp (s : State) : Option State :=
  let s := s |> addDwordRip 1 |> fetch8
  some { s with immVal := setByte s.immVal s.resByte }

/-- `_0xec_port_io` and `_0xed_port_io` -/
def xecPortIo : State → Option State := ret
def xedPortIo : State → Option State := ret

/-- `_0xee_port_io` and `_0xef_port_io` -/
def xeePortIo : State → Option State := prints
def xefPortIo : State → Option State := prints

/-! ## f0 to ff -/

/-- `_0xf0_prefix_lock` -/
def xf0PrefixLock (s : State) : State :=
  { addDwordRip 1 s with lock := 1 }


/-- `_0xf1_icebp` -/
def xf1Icebp : State → Option State :=
  prints

/-- `_0xf2_prefix_repnz` -/
def xf2PrefixRepnz (s : State) : State :=
  { addDwordRip 1 s with repz := 0xff }

/-- `_0xf3_prefix_repz` -/
def xf3PrefixRepz (s : State) : State :=
  { addDwordRip 1 s with repnz := 0xff }


/-- `_0xf4_hlt` and `_0xf5_cmc` -/
def xf4Hlt : State → Option State := ret
def xf5Cmc : State → Option State := ret

/-- The operations in `_op_f6_f_base`. -/
inductive OpF6 where
  | test
  | not
  | neg
  | mul
  | imul
  | div
  | idiv
  deriving DecidableEq, Repr

/-- `_op_f6_f_base` -/
def opF6FBase : List (Option OpF6) :=
  [some .test, none, some .not, some .neg, some .mul, some .imul, some .div,
    some .idiv]

/-- What `_context._imm_op` points to when it is in `_op_f6_f_base`. -/
def immOpF6 (s : State) : Option OpF6 :=
  s.immOp.bind fun op => (opF6FBase[op.2]?).join

/-- `_compensate_reg_f6f7` -/
def compensateRegF6f7 (s : State) : Option State :=
  match immOpF6 s with
  | some .test => (fetch s).map setImmVal
  | some .not | some .neg => some s
  | _ => some (setRegRax s)


/-- `_0xf6_op` -/
def xf6Op (s : State) : Option State :=
  s |> addDwordRip 1 |> setImmOpBase .f6 |> getModOpRm |>
    setDflagAs1byte |> setScaleIndexBase |> fetchDisplacementByMod |>
    compensateRegF6f7

/-- `_0xf7_op` -/
def xf7Op (s : State) : Option State :=
  s |> addDwordRip 1 |> setImmOpBase .f6 |> getModOpRm |>
    setScaleIndexBase |> fetchDisplacementByMod |> compensateRegF6f7

/-- `_0xf8_clc` -/
def xf8Clc : State → Option State :=
  prints

/-- `_0xf9_stc` -/
def xf9Stc : State → Option State :=
  ret

/-- `_0xfa_cli` -/
def xfaCli (s : State) : Option State :=
  some (print (UInt8.ofNat s.rip.toNat) (addDwordRip 1 s))

/-- `_0xfb_sti` -/
def xfbSti (s : State) : Option State :=
  some { addDwordRip 1 s with eflags := s.eflags ||| 0x0400 }

/-- `_0xfc_cld` -/
def xfcCld (s : State) : Option State :=
  some { addDwordRip 1 s with eflags := s.eflags &&& ~~~0x0400 }

/-- `_0xfd_std` -/
def xfdStd : State → Option State :=
  prints

/-- `_0xfe_op` -/
def xfeOp (s : State) : Option State :=
  some
    (s |> addByteRip |> setImmOpBase .fe |> getModOpRm |> setDflagAs1byte |>
      setScaleIndexBase |> fetchDisplacementByMod)

/-- `_0xff_op` -/
def xffOp (s : State) : Option State :=
  some
    (s |> addDwordRip 1 |> setImmOpBase .fe |> getModOpRm |>
      setScaleIndexBase |> fetchDisplacementByMod)

/-! ## Handlers of the second table -/

/-- `_0x0f05_syscall` -/
def x0f05Syscall : State → Option State :=
  next

/-- `_0x0f10_mov_xmm` and `_0x0f11_mov_xmm` -/
def x0f10MovXmm : State → Option State := doXmmRm
def x0f11MovXmm : State → Option State := doXmmRm

/-- `_0x0f14_mov_xmm` -/
def x0f14MovXmm : State → Option State :=
  doXmmXmm

/-- `_0x0f15_mov_xmm` -/
def x0f15MovXmm : State → Option State :=
  doXmmRm

/-- `_0x0f18_hint_nop` to `_0x0f1e_hint_nop` -/
def x0f18HintNop : State → Option State := ret
def x0f19HintNop : State → Option State := ret
def x0f1aHintNop : State → Option State := ret
def x0f1bHintNop : State → Option State := ret
def x0f1cHintNop : State → Option State := ret
def x0f1dHintNop : State → Option State := ret
def x0f1eHintNop : State → Option State := ret

/-- `_0x0f1f_hint_nop` -/
def x0f1fHintNop (s : State) : Option State :=
  let s := addDwordRip 1 s
  let al := s.machine.memory s.rip
  if al = 0x00 then
    some (addDwordRip 1 s)
  else if al < 0x80 then
    if al = 0x40 then some (addDwordRip 2 s)
    else some (s |> addDwordRip 1 |> addDwordRip 2)
  else if al = 0x80 ∧ s.dataPrefix ≠ 0xff then
    some (addDwordRip 5 s)
  else
    some (s |> addDwordRip 1 |> addDwordRip 5)

/-- `_0x0f21_mov_drn` and `_0x0f23_mov_drn` -/
def x0f21MovDrn : State → Option State := ret
def x0f23MovDrn : State → Option State := ret

/-- `_0x0f28_movaps` and `_0x0f29_movaps` -/
def x0f28Movaps : State → Option State := doXmmRm
def x0f29Movaps : State → Option State := doXmmRm

/-- `_0x0f2a_convert_xmm` to `_0x0f2d_convert_xmm` -/
def x0f2aConvertXmm : State → Option State := ret
def x0f2bMovXmm : State → Option State := ret
def x0f2cConvertXmm : State → Option State := ret
def x0f2dConvertXmm : State → Option State := ret

/-- `_0x0f2e_ucmp_xmm` and `_0x0f2f_cmp_xmm` -/
def x0f2eUcmpXmm : State → Option State := doXmmXmm
def x0f2fCmpXmm : State → Option State := doXmmXmm

/-- A conditional move. -/
def cmov (s : State) : Option State :=
  some (s |> addDwordRip 1 |> operands)


/-- `_0x0f40_cmovo` to `_0x0f4f_cmovnle` -/
def x0f40Cmovo : State → Option State := cmov
def x0f41Cmovno : State → Option State := cmov
def x0f42Cmovb : State → Option State := cmov
def x0f43Cmovnb : State → Option State := cmov
def x0f44Cmovz : State → Option State := cmov
def x0f45Cmovnz : State → Option State := cmov
def x0f46Cmovbe : State → Option State := cmov
def x0f47Cmovnbe : State → Option State := cmov
def x0f48Cmovs : State → Option State := cmov
def x0f49Cmovns : State → Option State := cmov
def x0f4aCmovp : State → Option State := cmov
def x0f4bCmovnp : State → Option State := cmov
def x0f4cCmovl : State → Option State := cmov
def x0f4dCmovnl : State → Option State := cmov
def x0f4eCmovle : State → Option State := cmov
def x0f4fCmovnle : State → Option State := cmov

/-- `_0x0f50_movmskp` to `_0x0f5f_max` -/
def x0f50Movmskp : State → Option State := doXmmXmm
def x0f51Sqrt : State → Option State := doXmmXmm
def x0f52Rsqrt : State → Option State := doXmmXmm
def x0f53Rcp : State → Option State := doXmmXmm
def x0f54Rcp : State → Option State := doXmmXmm
def x0f55Andnp : State → Option State := doXmmXmm
def x0f56Orp : State → Option State := doXmmXmm
def x0f57Xorp : State → Option State := doXmmXmm
def x0f58Add : State → Option State := doXmmXmm
def x0f59Mul : State → Option State := doXmmXmm
def x0f5aCvt2 : State → Option State := doXmmXmm
def x0f5bCvt2 : State → Option State := doXmmXmm
def x0f5cSub : State → Option State := doXmmXmm
def x0f5dMin : State → Option State := doXmmXmm
def x0f5eDiv : State → Option State := doXmmXmm
def x0f5fMax : State → Option State := doXmmXmm

/-- `__com` of the second table. -/
def com0f80 (s : State) : Option State :=
  let s := s |> addDwordRip 1 |> fetch32
  some { s with immVal := setDword s.immVal s.res.toNat }


/-- `_0x0f80_jo` to `_0x0f8f_jnle` -/
def x0f80Jo : State → Option State := com0f80
def x0f81Jno : State → Option State := com0f80
def x0f82Jnae : State → Option State := com0f80
def x0f83Jnc : State → Option State := com0f80
def x0f84Je : State → Option State := com0f80
def x0f85Jne : State → Option State := com0f80
def x0f86Jna : State → Option State := com0f80
def x0f87Jnbe : State → Option State := com0f80
def x0f88Js : State → Option State := com0f80
def x0f89Jns : State → Option State := com0f80
def x0f8aJpe : State → Option State := com0f80
def x0f8bJpo : State → Option State := com0f80
def x0f8cJnl : State → Option State := com0f80
def x0f8dJng : State → Option State := com0f80
def x0f8eJng : State → Option State := com0f80
def x0f8fJnle : State → Option State := com0f80

/-- Setting a byte by a condition. -/
def setcc (s : State) : Option State :=
  let s := s |> addDwordRip 1 |> getModRegRm
  let s := if s.r15b = 0xff then { setDflagAs1byte s with r15b := 0 } else s
  some (s |> setScaleIndexBase |> fetchDisplacementByMod)


/-- `_0x0f90_seto` to `_0x0f9f_setnle` -/
def x0f90Seto : State → Option State := setcc
def x0f91Setno : State → Option State := setcc
def x0f92Setb : State → Option State := setcc
def x0f93Setnb : State → Option State := setcc
def x0f94Sete : State → Option State := setcc
def x0f95Setne : State → Option State := setcc
def x0f96Setbe : State → Option State := setcc
def x0f97Setnbe : State → Option State := setcc
def x0f98Sets : State → Option State := setcc
def x0f99Setns : State → Option State := setcc
def x0f9aSetp : State → Option State := setcc
def x0f9bSetnp : State → Option State := setcc
def x0f9cSetl : State → Option State := setcc
def x0f9dSetnl : State → Option State := setcc
def x0f9eSetle : State → Option State := setcc
def x0f9fSetnle : State → Option State := setcc

/-- `_0x0fa2_cpuid` -/
def x0fa2Cpuid : State → Option State :=
  next

/-- `_0x0fae_fpu` -/
def x0faeFpu : State → Option State :=
  do01

/-- `_0x0fb0_cmpxchg` and `_0x0fb1_cmpxchg` -/
def x0fb0Cmpxchg : State → Option State := do01
def x0fb1Cmpxchg : State → Option State := do01

/-- `_0x0fb6_movzbS` -/
def x0fb6MovzbS (s : State) : Option State :=
  some
    (s |> addDwordRip 1 |> getModRegRm |> setDflagAs1byte |>
      setScaleIndexBase |> fetchDisplacementByMod)

/-- `_0x0fb7_movzwS` -/
def x0fb7MovzwS (s : State) : Option State :=
  some (s |> addDwordRip 1 |> operands)

/-- `_0x0fbe_movsbS` -/
def x0fbeMovsbS (s : State) : Option State :=
  some
    (s |> addDwordRip 1 |> getModRegRm |> setDflagAs1byte |>
      setScaleIndexBase |> fetchDisplacementByMod)

/-! ## The tables -/

/-- A handler that ends with the instruction, or goes on with the next byte. -/
inductive Entry where
  | run (handler : State → Option State)
  | jump (handler : State → State)

/-- A handler that returns. -/
def run (handler : State → Option State) : Option Entry :=
  some (.run handler)

/-- A handler that ends with `jmp _exec_one`. -/
def jump (handler : State → State) : Option Entry :=
  some (.jump handler)

/-- `_opcode_table` from 00 to 0f -/
def row00 : List (Option Entry) :=
  [run x00Add, run x01Add, run x02Add, run x03Add, run x04Add, run x05Add,
    run x00Add, run x00Add, run x08Or, run x09Or, run x0aOr, run x0bOr,
    run x0cOr, run x0dOr, run x00Add, jump x0f]

/-- `_opcode_table` from 10 to 1f -/
def row10 : List (Option Entry) :=
  [none, none, run x12Adc, run x13Adc, run x14Adc, run x15Adc, run x00Add,
    run x00Add, run x18Sbb, run x19Sbb, run x1aSbb, run x1bSbb, run x1cSbb,
    run x1dSbb, run x00Add, jump x1f]

/-- `_opcode_table` from 20 to 2f -/
def row20 : List (Option Entry) :=
  [run x20And, run x21And, run x22And, run x23And, run x24And, run x25And,
    run x00Add, run x00Add, run x28Sub, run x29Sub, run x2aSub, run x2bSub,
    run x2cSub, run x2dSub, jump x2ePrefixSegCs, run x2fBcdDas]

/-- `_opcode_table` from 30 to 3f -/
def row30 : List (Option Entry) :=
  [run x30Xor, run x31Xor, run x32Xor, run x33Xor, run x34Xor, run x35Xor,
    jump x36PrefixSegSs, run x00Add, run x38Cmp, run x39Cmp, run x3aCmp,
    run x3bCmp, run x3cCmp, run x3dCmp, run x00Add, run x00Add]

/-- `_opcode_table` from 40 to 4f -/
def row40 : List (Option Entry) :=
  [jump x40SetRex, jump x41SetRex, jump x42SetRex, jump x43SetRex,
    jump x44SetRex, jump x45SetRex, jump x46SetRex, jump x47SetRex,
    jump x48SetRex, jump x49SetRex, jump x4aSetRex, jump x4bSetRex,
    jump x4cSetRex, jump x4dSetRex, jump x4eSetRex, jump x4fSetRex]

/-- `_opcode_table` from 50 to 5f -/
def row50 : List (Option Entry) :=
  [run x50Push, run x51Push, run x52Push, run x53Push, run x54Push,
    run x55Push, run x56Push, run x57Push, run x58Pop, run x59Pop,
    run x5aPop, run x5bPop, run x5cPop, run x5dPop, run x5ePop, run x5fPop]

/-- `_opcode_table` from 60 to 6f -/
def row60 : List (Option Entry) :=
  [run x60Pusha, run x61Popa, run x62Bound, run x63MovslS,
    jump x64PrefixSegFs, jump x65PrefixSegGs, jump x66PrefixData,
    jump x67PrefixAddr, run x68PushIv, run x69Imul, run x6aPushIv,
    run x6bImul, run x6cInsS, run x6dInsS, run x6eOutsS, run x6fOutsS]

/-- `_opcode_table` from 70 to 7f -/
def row70 : List (Option Entry) :=
  [run x70Jo, run x71Jno, run x72Jnae, run x73Jnc, run x74Je, run x75Jne,
    run x76Jna, run x77Ja, run x78Js, run x79Jns, run x7aJpe, run x7bJpo,
    run x7cJnge, run x7dJge, run x7eJng, run x7fJnle]

/-- `_opcode_table` from 80 to 8f -/
def row80 : List (Option Entry) :=
  [run x80ArithImm, run x81ArithImm, run x82ArithImm, run x83ArithImm,
    run x84Test, run x85Test, run x86Xchg, run x87Xchg, run x88Mov,
    run x89Mov, run x8aMov, run x8bMov, none, run x8dLea, none, run x8fPopEv]

/-- `_opcode_table` from 90 to 9f -/
def row90 : List (Option Entry) :=
  [run x90Nop, run x91XchgEax, run x92XchgEax, run x93XchgEax,
    run x94XchgEax, run x95XchgEax, run x96XchgEax, run x97XchgEax,
    run x98Convert, run x99Convert, run x9aLcall, run x9bFwait, run x9cPushf,
    run x9dPopf, run x9eSahf, run x9fLahf]

/-- `_opcode_table` from a0 to af -/
def rowA0 : List (Option Entry) :=
  [run xa0Mov, run xa1Mov, run xa2Mov, run xa3Mov, none, run xa5MovsS,
    run xa6CmpsS, none, run xa8Test, run xa9Test, none, run xabStosS, none,
    none, none, none]

/-- `_opcode_table` from b0 to bf -/
def rowB0 : List (Option Entry) :=
  [run xb0Mov, run xb1Mov, run xb2Mov, run xb3Mov, run xb4Mov, run xb5Mov,
    run xb6Mov, run xb7Mov, run xb8Mov, run xb9Mov, run xbaMov, run xbbMov,
    run xbcMov, run xbdMov, run xbeMov, run xbfMov]

/-- `_opcode_table` from c0 to cf -/
def rowC0 : List (Option Entry) :=
  [run xc0Shift, run xc1Shift, run xc2Ret, run xc3Ret, run xc4Les,
    run xc5Lds, run xc6Mov, run xc7Mov, none, run xc9Leave, run xcaLret,
    run xcbLret, run xccInt3, run xcdInt, run xceInto, run xcfIret]

/-- `_opcode_table` from d0 to df -/
def rowD0 : List (Option Entry) :=
  [run xd0Shift, run xd1Shift, run xd2Shift, run xd3Shift, run xd4Aam,
    run xd5Aad, run xd6Salc, run xd7Xlat, run xd8Float, run xd9Float,
    run xdaFloat, run xdbFloat, run xdcFloat, run xddFloat, run xdeFloat,
    run xdfFloat]

/-- `_opcode_table` from e0 to ef -/
def rowE0 : List (Option Entry) :=
  [run xe0Loopnz, run xe1Loopz, run xe2Loop, run xe3Jecxz, run xe4PortIo,
    run xe5PortIo, run xe6PortIo, run xe7PortIo, run xe8Call, run xe9Jmp,
    run xeaJmp, run xebJmp, run xecPortIo, run xedPortIo, run xeePortIo,
    run xefPortIo]

/-- `_opcode_table` from f0 to ff -/
def rowF0 : List (Option Entry) :=
  [jump xf0PrefixLock, run xf1Icebp, jump xf2PrefixRepnz,
    jump xf3PrefixRepz, run xf4Hlt, run xf5Cmc, run xf6Op, run xf7Op,
    run xf8Clc, run xf9Stc, run xfaCli, run xfbSti, run xfcCld, run xfdStd,
    run xfeOp, run xffOp]

/-- `_opcode_table` -/
def opcodeTable : List (Option Entry) :=
  row00 ++ row10 ++ row20 ++ row30 ++
    row40 ++ row50 ++ row60 ++ row70 ++
    row80 ++ row90 ++ rowA0 ++ rowB0 ++
    rowC0 ++ rowD0 ++ rowE0 ++ rowF0

/-- A row without handlers that return. -/
def emptyRow : List (Option Entry) :=
  List.replicate 16 none

/-- `_extend_opcode_table` from 00 to 0f -/
def row0f00 : List (Option Entry) :=
  [none, none, none, none, none, run x0f05Syscall, none, none, none, none,
    none, none, none, none, none, none]

/-- `_extend_opcode_table` from 10 to 1f -/
def row0f10 : List (Option Entry) :=
  [run x0f10MovXmm, run x0f11MovXmm, none, none, run x0f14MovXmm,
    run x0f15MovXmm, none, none, run x0f18HintNop, run x0f19HintNop,
    run x0f1aHintNop, run x0f1bHintNop, run x0f1cHintNop, run x0f1dHintNop,
    run x0f1eHintNop, run x0f1fHintNop]

/-- `_extend_opcode_table` from 20 to 2f -/
def row0f20 : List (Option Entry) :=
  [none, run x0f21MovDrn, none, run x0f23MovDrn, none, none, none, none,
    run x0f28Movaps, run x0f29Movaps, run x0f2aConvertXmm, run x0f2bMovXmm,
    run x0f2cConvertXmm, run x0f2dConvertXmm, run x0f2eUcmpXmm,
    run x0f2fCmpXmm]

/-- `_extend_opcode_table` from 40 to 4f -/
def row0f40 : List (Option Entry) :=
  [run x0f40Cmovo, run x0f41Cmovno, run x0f42Cmovb, run x0f43Cmovnb,
    run x0f44Cmovz, run x0f45Cmovnz, run x0f46Cmovbe, run x0f47Cmovnbe,
    run x0f48Cmovs, run x0f49Cmovns, run x0f4aCmovp, run x0f4bCmovnp,
    run x0f4cCmovl, run x0f4dCmovnl, run x0f4eCmovle, run x0f4fCmovnle]

/-- `_extend_opcode_table` from 50 to 5f -/
def row0f50 : List (Option Entry) :=
  [run x0f50Movmskp, run x0f51Sqrt, run x0f52Rsqrt, run x0f53Rcp,
    run x0f54Rcp, run x0f55Andnp, run x0f56Orp, run x0f57Xorp, run x0f58Add,
    run x0f59Mul, run x0f5aCvt2, run x0f5bCvt2, run x0f5cSub, run x0f5dMin,
    run x0f5eDiv, run x0f5fMax]

/-- `_extend_opcode_table` from 80 to 8f -/
def row0f80 : List (Option Entry) :=
  [run x0f80Jo, run x0f81Jno, run x0f82Jnae, run x0f83Jnc, run x0f84Je,
    run x0f85Jne, run x0f86Jna, run x0f87Jnbe, run x0f88Js, run x0f89Jns,
    run x0f8aJpe, run x0f8bJpo, run x0f8cJnl, run x0f8dJng, run x0f8eJng,
    run x0f8fJnle]

/-- `_extend_opcode_table` from 90 to 9f -/
def row0f90 : List (Option Entry) :=
  [run x0f90Seto, run x0f91Setno, run x0f92Setb, run x0f93Setnb,
    run x0f94Sete, run x0f95Setne, run x0f96Setbe, run x0f97Setnbe,
    run x0f98Sets, run x0f99Setns, run x0f9aSetp, run x0f9bSetnp,
    run x0f9cSetl, run x0f9dSetnl, run x0f9eSetle, run x0f9fSetnle]

/-- `_extend_opcode_table` from a0 to af -/
def row0fA0 : List (Option Entry) :=
  [none, none, run x0fa2Cpuid, none, none, none, none, none, none, none,
    none, none, none, none, run x0faeFpu, none]

/-- `_extend_opcode_table` from b0 to bf -/
def row0fB0 : List (Option Entry) :=
  [run x0fb0Cmpxchg, run x0fb1Cmpxchg, none, none, none, none,
    run x0fb6MovzbS, run x0fb7MovzwS, none, none, none, none, none, none,
    run x0fbeMovsbS, none]

/-- `_extend_opcode_table` -/
def extendOpcodeTable : List (Option Entry) :=
  row0f00 ++ row0f10 ++ row0f20 ++ emptyRow ++
    row0f40 ++ row0f50 ++ emptyRow ++ emptyRow ++
    row0f80 ++ row0f90 ++ row0fA0 ++ row0fB0 ++
    emptyRow ++ emptyRow ++ emptyRow ++ emptyRow

/-- The table that `_context._opcode_table` points to. -/
def State.table (s : State) : List (Option Entry) :=
  match s.opcodeTable with
  | .main => X86.opcodeTable
  | .extend => extendOpcodeTable

/-- The opcode is read; the handler starts with it in `_context._opcode`. -/
def readOpcode (s : State) : State :=
  { s with opcode := s.machine.memory s.rip }

/-- `_exec` -/
def exec : Nat → State → Option State
  | 0, _ => none
  | fuel + 1, s =>
      let s := readOpcode s
      ((s.table[s.opcode.toNat]?).join).bind fun
        | .run handler => handler s
        | .jump handler => exec fuel (handler s)

end BinTools.X86
