import BinTools.X86OperandText

namespace BinTools.X86

/-!
# Contexts that the decoder leaves

From a cleared state, ModRM, SIB and displacement leave a context that has a
memory operand, unless the mode is the one of a register.
-/

/-- The state in front of a ModRM byte, for addresses of 64 bits. -/
structure Cleared (s : State) : Prop where
  sib : s.sib = 0
  ripRel : s.ripRel = 0
  displacement : s.displacement = 0
  architecture : s.machine.architecture ≠ 0x1
  addrPrefix : s.addrPrefix ≠ 0xff

/-- The routines that read an operand. -/
def readOperand (s : State) : State :=
  s |> getModRegRm |> setScaleIndexBase |> fetchDisplacementByMod

theorem registerIndex_lt (rex bit : UInt8) {field : UInt8} (small : field < 8) :
    registerIndex rex bit field < 16 := by
  have below : field.toNat < 8 := small
  unfold registerIndex
  split <;> omega

theorem masks_lt (m : UInt8) :
    m &&& 0x07 < 8 ∧ (m &&& 0x38) >>> 3 < 8 ∧ (m &&& 0xc0) >>> 6 < 4 := by
  have all :
      ∀ n < 256,
        UInt8.ofNat n &&& 0x07 < 8 ∧ (UInt8.ofNat n &&& 0x38) >>> 3 < 8 ∧
          (UInt8.ofNat n &&& 0xc0) >>> 6 < 4 := by
    decide +kernel
  have isOfNat := all m.toNat m.toNat_lt
  rwa [UInt8.ofNat_toNat] at isOfNat

/-- A byte in a cleared word. -/
theorem setByte_zero (byte : UInt8) :
    setByte 0 byte = (BitVec.ofNat 8 byte.toNat).setWidth 64 := by
  have inByte := byte.toNat_lt
  apply BitVec.eq_of_toNat_eq
  rw [setByte, BitVec.toNat_ofNat, BitVec.toNat_setWidth, BitVec.toNat_ofNat]
  show (0 + byte.toNat) % 2 ^ 64 = _
  omega

/-- Four bytes in a cleared word. -/
theorem setDword_zero (dword : Nat) :
    setDword 0 dword = (BitVec.ofNat 32 dword).setWidth 64 := by
  apply BitVec.eq_of_toNat_eq
  rw [setDword, BitVec.toNat_ofNat, BitVec.toNat_setWidth, BitVec.toNat_ofNat]
  show (0 + dword % 2 ^ 32) % 2 ^ 64 = _
  omega

/-- What the displacement leaves of a context. -/
structure SameOperand (t u : State) : Prop where
  mod : u.mod = t.mod
  sib : u.sib = t.sib
  ripRel : u.ripRel = t.ripRel
  rm : u.rm = t.rm
  sibBase : u.sibBase = t.sibBase
  sibIndex : u.sibIndex = t.sibIndex
  sibScale : u.sibScale = t.sibScale
  aflag : u.aflag = t.aflag

theorem sameOperand_displacement8 (t : State) :
    SameOperand t (displacement8 t) := by
  cases t
  constructor <;> rfl

theorem sameOperand_displacement32 (t : State) :
    SameOperand t (displacement32 t) := by
  cases t
  constructor <;> rfl

/-- A displacement of eight bits that is read. -/
theorem displacement8_displacement {t : State} (isClear : t.displacement = 0) :
    (displacement8 t).displacement =
      (BitVec.ofNat 8 (t.machine.memory t.rip).toNat).setWidth 64 := by
  have isSet :
      (displacement8 t).displacement =
        setByte t.displacement (t.machine.memory t.rip) := by
    cases t
    rfl
  rw [isSet, isClear, setByte_zero]

/-- A displacement of 32 bits that is read. -/
theorem displacement32_displacement
    {t : State} (isClear : t.displacement = 0) :
    (displacement32 t).displacement =
      (BitVec.ofNat 32 (bytesAt t.machine.memory t.rip 4)).setWidth 64 := by
  have isSet :
      (displacement32 t).displacement =
        setDword t.displacement (bytesAt t.machine.memory t.rip 4) := by
    cases t
    rfl
  rw [isSet, isClear, setDword_zero]

section Displacement

variable
  {t : State}
  (isClear : t.displacement = 0)

/-- No displacement. -/
theorem isIn_none (isZero : t.mod = 0x00) (notRelative : t.ripRel = 0) :
    SameOperand t (fetchDisplacementByMod t) ∧
      ∃ displacement : Displacement,
        displacement.IsIn (fetchDisplacementByMod t) := by
  have isSame : fetchDisplacementByMod t = t := by
    rw [fetchDisplacementByMod, if_pos isZero, if_pos notRelative]
  rw [isSame]
  exact ⟨⟨rfl, rfl, rfl, rfl, rfl, rfl, rfl, rfl⟩, .none, isZero⟩

include isClear

/-- The displacement from the instruction pointer. -/
theorem isIn_rip (isZero : t.mod = 0x00) (isRelative : t.ripRel ≠ 0) :
    SameOperand t (fetchDisplacementByMod t) ∧
      ∃ value : U32,
        (fetchDisplacementByMod t).displacement = value.setWidth 64 := by
  have isRead : fetchDisplacementByMod t = displacement32 t := by
    rw [fetchDisplacementByMod, if_pos isZero, if_neg isRelative]
  rw [isRead]
  exact
    ⟨sameOperand_displacement32 t, _, displacement32_displacement isClear⟩

/-- A displacement of eight bits. -/
theorem isIn_byte (isEight : t.mod = 0x08) :
    SameOperand t (fetchDisplacementByMod t) ∧
      ∃ displacement : Displacement,
        displacement.IsIn (fetchDisplacementByMod t) := by
  have notZero : t.mod ≠ 0x00 := by rw [isEight]; decide
  have isRead : fetchDisplacementByMod t = displacement8 t := by
    rw [fetchDisplacementByMod, if_neg notZero, if_pos isEight]
  have same := sameOperand_displacement8 t
  rw [isRead]
  exact
    ⟨same, .byte _, same.mod.trans isEight,
      displacement8_displacement isClear⟩

/-- A displacement of 32 bits. -/
theorem isIn_dword (isSixteen : t.mod = 0x10) :
    SameOperand t (fetchDisplacementByMod t) ∧
      ∃ displacement : Displacement,
        displacement.IsIn (fetchDisplacementByMod t) := by
  have notZero : t.mod ≠ 0x00 := by rw [isSixteen]; decide
  have notEight : t.mod ≠ 0x08 := by rw [isSixteen]; decide
  have isRead : fetchDisplacementByMod t = displacement32 t := by
    rw [fetchDisplacementByMod, if_neg notZero, if_neg notEight,
      if_pos isSixteen]
  have same := sameOperand_displacement32 t
  rw [isRead]
  exact
    ⟨same, .dword _, same.mod.trans isSixteen,
      displacement32_displacement isClear⟩

/-- A displacement that is not one from the instruction pointer. -/
theorem isIn_fetchDisplacement
    (notRelative : t.mod = 0x00 → t.ripRel = 0)
    (isMode : t.mod = 0x00 ∨ t.mod = 0x08 ∨ t.mod = 0x10) :
    SameOperand t (fetchDisplacementByMod t) ∧
      ∃ displacement : Displacement,
        displacement.IsIn (fetchDisplacementByMod t) := by
  rcases isMode with isZero | isEight | isSixteen
  · exact isIn_none isZero (notRelative isZero)
  · exact isIn_byte isClear isEight
  · exact isIn_dword isClear isSixteen

end Displacement

/-- What a ModRM byte leaves of a cleared state. -/
structure ClearedModrm (s t : State) : Prop extends ReadsModrm s t where
  sib : t.sib = 0
  displacement : t.displacement = 0
  aflag : t.aflag = 0x18

theorem clearedModrm_getModRegRm {s : State} (cleared : Cleared s) :
    ClearedModrm s (getModRegRm s) := by
  have notShort :
      ¬ (s.machine.architecture = 0x1 ∨ s.addrPrefix = 0xff) :=
    not_or.mpr ⟨cleared.architecture, cleared.addrPrefix⟩
  have kept :
      (getModRegRm s).sib = s.sib ∧
        (getModRegRm s).displacement = s.displacement ∧
          (getModRegRm s).aflag =
            if s.machine.architecture = 0x1 ∨ s.addrPrefix = 0xff then 0x10
            else 0x18 := by
    cases s
    exact ⟨rfl, rfl, rfl⟩
  obtain ⟨sameSib, sameDisplacement, isAflag⟩ := kept
  exact
    ⟨readsModrm_getModRegRm s, sameSib.trans cleared.sib,
      sameDisplacement.trans cleared.displacement,
      isAflag.trans (if_neg notShort)⟩

/-- The mode of a memory operand. -/
theorem mode_of_memory {m : UInt8} (isMemory : modOf m ≠ 3) :
    (m &&& 0xc0) >>> 3 = 0x00 ∨ (m &&& 0xc0) >>> 3 = 0x08 ∨
      (m &&& 0xc0) >>> 3 = 0x10 := by
  have all :
      ∀ n < 256, modOf (UInt8.ofNat n) ≠ 3 →
        (UInt8.ofNat n &&& 0xc0) >>> 3 = 0x00 ∨
          (UInt8.ofNat n &&& 0xc0) >>> 3 = 0x08 ∨
            (UInt8.ofNat n &&& 0xc0) >>> 3 = 0x10 := by
    decide +kernel
  have isOfNat := all m.toNat m.toNat_lt
  rw [UInt8.ofNat_toNat] at isOfNat
  exact isOfNat isMemory

/-- What a SIB byte leaves. -/
structure ReadsSib (t u : State) : Prop where
  sib : u.sib ≠ 0
  ripRel : u.ripRel = t.ripRel
  displacement : u.displacement = t.displacement
  aflag : u.aflag = t.aflag
  mode : u.mod = t.mod ∨ u.mod = 0x10
  base : ∃ lowest : Option (Fin 16), u.sibBase = baseAddress lowest
  index : ∃ index : Option (Fin 16 × Fin 4), IndexIsIn u index

/-- The index of a SIB byte; the register 4 is none. -/
theorem exists_index
    {u : State} {register : Nat} {scale : UInt8}
    (small : register < 16) (inScale : scale < 4)
    (isIndex : u.sibIndex = .register register) (isScale : u.sibScale = scale) :
    ∃ index : Option (Fin 16 × Fin 4), IndexIsIn u index := by
  by_cases isNone : register = 4
  · exact ⟨none, by rw [isIndex, isNone], by rw [isScale]; exact inScale⟩
  · have inFin : scale.toNat < 4 := inScale
    refine ⟨some (⟨register, small⟩, ⟨scale.toNat, inFin⟩), ?_, isIndex, ?_⟩
    · exact fun isFour => isNone (congrArg Fin.val isFour)
    · rw [isScale]
      exact UInt8.ofNat_toNat.symm

/-- What the base of a SIB byte leaves. -/
theorem kept_computeBase (dl : UInt8) (s : State) :
    (computeBase dl s).displacement = s.displacement ∧
      (computeBase dl s).aflag = s.aflag ∧
        (computeBase dl s).sibIndex = s.sibIndex ∧
          (computeBase dl s).sibScale = s.sibScale ∧
            ∃ lowest : Option (Fin 16),
              (computeBase dl s).sibBase = baseAddress lowest := by
  unfold computeBase
  split
  · exact ⟨rfl, rfl, rfl, rfl, none, rfl⟩
  · have isRegister := registerIndex_lt s.rex 0x01 (masks_lt dl).1
    exact ⟨rfl, rfl, rfl, rfl, some ⟨_, isRegister⟩, rfl⟩

/-- What scale and index of a SIB byte leave. -/
theorem kept_sibFetched (number : Nat) (t : State) :
    (sibFetched number t).displacement = t.displacement ∧
      (sibFetched number t).aflag = t.aflag ∧
        (sibFetched number t).sibIndex =
            .register
              (registerIndex t.rex 0x02
                (((fetch8 t).resByte &&& 0x38) >>> 3)) ∧
          (sibFetched number t).sibScale =
            ((fetch8 t).resByte &&& 0xc0) >>> 6 := by
  cases t
  exact ⟨rfl, rfl, rfl, rfl⟩

theorem readsSib_fetchSib (number : Nat) (t : State) :
    ReadsSib t (fetchSib number t) := by
  obtain ⟨-, isRel, isMode⟩ := behind_fetchSib number t
  obtain ⟨-, inIndex, inScale⟩ := masks_lt (fetch8 t).resByte
  obtain ⟨sameDisplacement, sameAflag, isIndex, isScale⟩ :=
    kept_sibFetched number t
  obtain ⟨basedDisplacement, basedAflag, basedIndex, basedScale, isBase⟩ :=
    kept_computeBase (fetch8 t).resByte (sibFetched number t)
  have isFetched :
      fetchSib number t =
        { computeBase (fetch8 t).resByte (sibFetched number t) with
          sib := 0xff } := by
    cases t
    rfl
  refine ⟨?_, isRel, ?_, ?_, ?_, ?_, ?_⟩
  · rw [isFetched]
    exact (by decide : (0xff : UInt8) ≠ 0)
  · rw [isFetched]
    exact basedDisplacement.trans sameDisplacement
  · rw [isFetched]
    exact basedAflag.trans sameAflag
  · rw [isMode]
    split
    · exact .inr rfl
    · exact .inl rfl
  · rw [isFetched]
    exact isBase
  · rw [isFetched]
    exact
      exists_index (registerIndex_lt t.rex 0x02 inIndex) inScale
        (basedIndex.trans isIndex) (basedScale.trans isScale)

/-- The displacement counts from the instruction pointer in mode 0 only. -/
theorem ripRel_of_cleared {s t : State} (cleared : Cleared s)
    (modrm : ReadsModrm s t) :
    t.ripRel = 0 ∨ t.ripRel ≠ 0 ∧ t.mod = 0x00 := by
  obtain ⟨isZero, -, -, -, isHigh, -⟩ := modrm_bits s.code
  rw [modrm.ripRel, modrm.mod, cleared.ripRel]
  split
  · exact .inr ⟨by decide, isZero.mpr (isHigh.mp ‹_ ∧ _›.2)⟩
  · exact .inl rfl

/-- In front of a SIB byte it does not count from there. -/
theorem ripRel_of_needsSib {s t : State} (cleared : Cleared s)
    (modrm : ReadsModrm s t) (needs : needsSib s.code = true) :
    t.ripRel = 0 := by
  obtain ⟨-, -, -, -, -, isFive⟩ := modrm_bits s.code
  have isFour : rmOf s.code = 4 := (of_decide_eq_true needs).2
  have notFive : ¬ ((s.code &&& 0x07) <<< 3 = 0x28 ∧ s.code &&& 0xc0 = 0) := by
    rintro ⟨isRelative, -⟩
    rw [isFour] at isFive
    exact absurd (isFive.mp isRelative) (by decide)
  rw [modrm.ripRel, if_neg notFive, cleared.ripRel]

/-- The displacement leaves the index as it is. -/
theorem SameOperand.indexIsIn {t u : State} (same : SameOperand t u)
    {index : Option (Fin 16 × Fin 4)} (isIndex : IndexIsIn t index) :
    IndexIsIn u index := by
  cases index with
  | none => exact ⟨same.sibIndex.trans isIndex.1, same.sibScale ▸ isIndex.2⟩
  | some scaled =>
      obtain ⟨notFour, isRegister, isScale⟩ := isIndex
      exact
        ⟨notFour, same.sibIndex.trans isRegister,
          same.sibScale.trans isScale⟩

/-- The decoder leaves a memory operand, and addresses of 64 bits. -/
theorem exists_operand
    {s : State} (cleared : Cleared s) (isMemory : modOf s.code ≠ 3) :
    ∃ context : DecodedContext, context.con = readOperand s := by
  have modrm := clearedModrm_getModRegRm cleared
  have isMode := mode_of_memory isMemory
  rw [← modrm.mod] at isMode
  have isSib := modrm.setScaleIndexBase_eq
  have isRel := ripRel_of_cleared cleared modrm.toReadsModrm
  have register :=
    registerIndex_lt s.rex 0x01 (masks_lt s.code).1
  rw [readOperand]
  cases needs : needsSib s.code with
  | true =>
      rw [if_pos needs] at isSib
      obtain ⟨number, isFetched⟩ := isSib
      have reads := readsSib_fetchSib number (getModRegRm s)
      obtain ⟨lowest, isBase⟩ := reads.base
      obtain ⟨index, isIndex⟩ := reads.index
      have notRelative : (fetchSib number (getModRegRm s)).ripRel = 0 :=
        reads.ripRel.trans
          (ripRel_of_needsSib cleared modrm.toReadsModrm needs)
      have isSibMode :
          (fetchSib number (getModRegRm s)).mod = 0x00 ∨
            (fetchSib number (getModRegRm s)).mod = 0x08 ∨
              (fetchSib number (getModRegRm s)).mod = 0x10 := by
        rcases reads.mode with isSame | isSixteen
        · rw [isSame]
          exact isMode
        · exact .inr (.inr isSixteen)
      obtain ⟨same, displacement, isDisplacement⟩ :=
        isIn_fetchDisplacement (reads.displacement.trans modrm.displacement)
          (fun _ => notRelative) isSibMode
      rw [isFetched]
      exact
        ⟨⟨_, .sib lowest index displacement,
            ⟨same.sib ▸ reads.sib, same.sibBase.trans isBase,
              same.indexIsIn isIndex, isDisplacement⟩,
            same.aflag.trans (reads.aflag.trans modrm.aflag)⟩, rfl⟩
  | false =>
      rw [if_neg (by rw [needs]; decide)] at isSib
      rw [isSib]
      rcases isRel with notRelative | ⟨isRelative, isZero⟩
      · obtain ⟨same, displacement, isDisplacement⟩ :=
          isIn_fetchDisplacement modrm.displacement
            (fun _ => notRelative) isMode
        exact
          ⟨⟨_, .base ⟨_, register⟩ displacement,
              ⟨same.sib.trans modrm.sib, same.ripRel.trans notRelative,
                same.rm.trans modrm.rm, isDisplacement⟩,
              same.aflag.trans modrm.aflag⟩, rfl⟩
      · obtain ⟨same, value, isValue⟩ :=
          isIn_rip modrm.displacement isZero isRelative
        exact
          ⟨⟨_, .rip value,
              ⟨same.sib.trans modrm.sib, same.mod.trans isZero,
                same.ripRel ▸ isRelative, isValue⟩,
              same.aflag.trans modrm.aflag⟩, rfl⟩

/-! ## A factor of one -/

/-- A state in front of a ModRM byte and a SIB byte. -/
def operandState (modrm sib : UInt8) : State where
  machine :=
    { memory := fun address =>
        if address = 0 then modrm else if address = 1 then sib else 0
      architecture := 0
      loaded := fun _ _ _ => 0
      loadEntry := 0 }
  rip := 0
  rax := 0
  eflags := 0
  r15b := 0
  opcodeTable := .main
  displacement := 0
  res := 0
  immOp := none
  overrideReg := none
  reg := .null
  rm := .null
  immVal := 0
  sibIndex := .null
  sibBase := .null
  opcode := 0
  rex := 0
  dataPrefix := 0
  addrPrefix := 0
  repz := 0
  repnz := 0
  lock := 0
  override := 0
  mod := 0
  sib := 0
  sibScale := 0
  ripRel := 0
  dflag := 0
  aflag := 0
  isRmSrc := 0

/-- A buffer of digits in which no number was written. -/
def noDigits : DigitBuffer where
  digits := []
  areDigits := List.forall_mem_nil _

theorem isIn_indexed :
    (Operand.sib (some 0) (some (1, 0)) .none).IsIn
      (readOperand (operandState 0x04 0x08)) := by
  refine ⟨by decide, by decide, ⟨by decide, by decide, by decide⟩, ?_⟩
  show (readOperand (operandState 0x04 0x08)).mod = 0x00
  decide

theorem isIn_plain :
    (Operand.sib (some 0) none .none).IsIn
      (readOperand (operandState 0x04 0x20)) := by
  refine ⟨by decide, by decide, ⟨by decide, by decide⟩, ?_⟩
  show (readOperand (operandState 0x04 0x20)).mod = 0x00
  decide

/-- `[rax+rcx*1]` -/
def indexedContext : DecodedContext where
  con := readOperand (operandState 0x04 0x08)
  operand := .sib (some 0) (some (1, 0)) .none
  isIn := isIn_indexed
  aflag := rfl

/-- `[rax]` with a SIB byte. -/
def plainContext : DecodedContext where
  con := readOperand (operandState 0x04 0x20)
  operand := .sib (some 0) none .none
  isIn := isIn_plain
  aflag := rfl

/-- The index with a factor of one is left out of the text. -/
theorem not_named_indexed :
    ¬ indexedContext.Named noDigits ∧
      t1 indexedContext.con true noDigits =
          t1 plainContext.con true noDigits ∧
        indexedContext.operand ≠ plainContext.operand := by
  have isText :
      t1 indexedContext.con true noDigits =
        some ['(', 'r', 'a', 'x', ')'] := by
    decide
  have isPlainText :
      t1 plainContext.con true noDigits =
        some ['(', 'r', 'a', 'x', ')'] := by
    decide
  refine ⟨?_, isText.trans isPlainText.symm, by decide⟩
  rw [DecodedContext.Named, isText]
  decide

end BinTools.X86
