import BinTools.X86Encoding
import BinTools.X86Handlers

namespace BinTools.X86

/-!
# Reading operands

The instruction pointer is moved by additions to its low 32 bits while ModRM, SIB
and displacement are read, so that only the sum of their sizes counts.
-/

/-! ## Additions -/

/-- An addition to the low 32 bits. -/
theorem addLow_toNat (rip : U64) (n : Nat) :
    (addLow 32 rip n).toNat =
      rip.toNat / 2 ^ 32 * 2 ^ 32 + (rip.toNat + n) % 2 ^ 32 := by
  have bound := rip.isLt
  rw [addLow, BitVec.toNat_ofNat]
  omega

/-- An addition to the low byte. -/
theorem addLow_byte_toNat (rip : U64) :
    (addLow 8 rip 1).toNat =
      rip.toNat / 2 ^ 8 * 2 ^ 8 + (rip.toNat + 1) % 2 ^ 8 := by
  have bound := rip.isLt
  rw [addLow, BitVec.toNat_ofNat]
  omega

/-- Additions add up. -/
theorem addLow_addLow (rip : U64) (m n : Nat) :
    addLow 32 (addLow 32 rip m) n = addLow 32 rip (m + n) := by
  apply BitVec.eq_of_toNat_eq
  rw [addLow_toNat, addLow_toNat, addLow_toNat]
  omega

/-- Nothing is added. -/
theorem addLow_zero (rip : U64) :
    addLow 32 rip 0 = rip := by
  apply BitVec.eq_of_toNat_eq
  rw [addLow_toNat]
  omega

/-- An addition that does not carry. -/
theorem addLow_eq_add
    {rip : U64} {n : Nat} (noCarry : rip.toNat % 2 ^ 32 + n < 2 ^ 32) :
    addLow 32 rip n = rip + BitVec.ofNat 64 n := by
  have bound := rip.isLt
  apply BitVec.eq_of_toNat_eq
  rw [addLow_toNat, BitVec.toNat_add, BitVec.toNat_ofNat]
  omega

/-- An addition to a low byte that does not carry. -/
theorem addLow_byte_eq_add
    {rip : U64} (noCarry : rip.toNat % 2 ^ 8 ≠ 2 ^ 8 - 1) :
    addLow 8 rip 1 = rip + 1 := by
  have bound := rip.isLt
  apply BitVec.eq_of_toNat_eq
  have isOne : (1 : U64).toNat = 1 := rfl
  rw [addLow_byte_toNat, BitVec.toNat_add, isOne]
  omega

/-! ## ModRM, SIB and displacement -/

/-- The bits of a ModRM byte as the source keeps them. -/
theorem modrm_bits (m : UInt8) :
    ((m &&& 0xc0) >>> 3 = 0x00 ↔ modOf m = 0) ∧
      ((m &&& 0xc0) >>> 3 = 0x08 ↔ modOf m = 1) ∧
        ((m &&& 0xc0) >>> 3 = 0x10 ↔ modOf m = 2) ∧
          ((m &&& 0xc0) >>> 3 = 0x18 ↔ modOf m = 3) ∧
            (m &&& 0xc0 = 0 ↔ modOf m = 0) ∧
              ((m &&& 0x07) <<< 3 = 0x28 ↔ rmOf m = 5) := by
  have all :
      ∀ n < 256,
        (((UInt8.ofNat n &&& 0xc0) >>> 3 = 0x00 ↔ modOf (UInt8.ofNat n) = 0) ∧
          ((UInt8.ofNat n &&& 0xc0) >>> 3 = 0x08 ↔
              modOf (UInt8.ofNat n) = 1) ∧
            ((UInt8.ofNat n &&& 0xc0) >>> 3 = 0x10 ↔
                modOf (UInt8.ofNat n) = 2) ∧
              ((UInt8.ofNat n &&& 0xc0) >>> 3 = 0x18 ↔
                  modOf (UInt8.ofNat n) = 3) ∧
                (UInt8.ofNat n &&& 0xc0 = 0 ↔ modOf (UInt8.ofNat n) = 0) ∧
                  ((UInt8.ofNat n &&& 0x07) <<< 3 = 0x28 ↔
                      rmOf (UInt8.ofNat n) = 5)) := by
    decide +kernel
  have isOfNat := all m.toNat m.toNat_lt
  rwa [UInt8.ofNat_toNat] at isOfNat

/-- The byte at the instruction pointer. -/
def State.code (s : State) : UInt8 :=
  s.machine.memory s.rip

/-- A fetched byte is the one at the instruction pointer. -/
theorem fetch8_resByte (s : State) :
    (fetch8 s).resByte = s.code := by
  have isRes :
      (fetch8 s).res = BitVec.ofNat 64 (s.code.toNat + 256 * 0) := rfl
  have bound : s.code.toNat < 256 := s.code.toNat_lt
  rw [State.resByte, isRes, BitVec.toNat_ofNat,
    Nat.mod_eq_of_lt (by omega), Nat.mul_zero, Nat.add_zero,
    UInt8.ofNat_toNat]

/-- What the routines that read a ModRM byte do. -/
structure ReadsModrm (s t : State) : Prop where
  machine : t.machine = s.machine
  rip : t.rip = addLow 32 s.rip 1
  rex : t.rex = s.rex
  dataPrefix : t.dataPrefix = s.dataPrefix
  mod : t.mod = (s.code &&& 0xc0) >>> 3
  rm : t.rm = .register (registerIndex s.rex 0x01 (s.code &&& 0x07))
  ripRel :
    t.ripRel =
      if (s.code &&& 0x07) <<< 3 = 0x28 ∧ s.code &&& 0xc0 = 0 then 0xff
      else s.ripRel

/-- `_get_mod_reg_rm` reads a ModRM byte. -/
theorem readsModrm_getModRegRm (s : State) :
    ReadsModrm s (getModRegRm s) := by
  have isByte := fetch8_resByte s
  constructor
  case mod | rm | ripRel =>
    rw [← isByte]
    cases s
    rfl
  all_goals
    cases s
    rfl

/-- `_get_mod_op_rm` reads a ModRM byte. -/
theorem readsModrm_getModOpRm (s : State) :
    ReadsModrm s (getModOpRm s) := by
  have isByte := fetch8_resByte s
  constructor
  case mod | rm | ripRel =>
    rw [← isByte]
    cases s
    rfl
  all_goals
    cases s
    rfl

/-- Only the registers 4 and 12 are those of a SIB byte. -/
theorem registerIndex_eq_iff (rex m : UInt8) :
    (registerIndex rex 0x01 (m &&& 0x07) = 4 ∨
        registerIndex rex 0x01 (m &&& 0x07) = 12) ↔
      rmOf m = 4 := by
  have small : (m &&& 0x07).toNat < 8 := by
    have isMask : (0x07 : UInt8).toNat = 2 ^ 3 - 1 := rfl
    rw [UInt8.toNat_and, isMask, Nat.and_two_pow_sub_one_eq_mod]
    omega
  have isFour : rmOf m = 4 ↔ (m &&& 0x07).toNat = 4 := by
    rw [rmOf, ← UInt8.toNat_inj]
    rfl
  rw [isFour]
  unfold registerIndex
  split_ifs <;> omega

/-- What the routines behind a ModRM byte keep, and where they end. -/
structure BehindOperands (t u : State) (rip : U64) : Prop where
  machine : u.machine = t.machine
  rip : u.rip = rip
  rex : u.rex = t.rex
  dataPrefix : u.dataPrefix = t.dataPrefix
  dflag : u.dflag = t.dflag
  immOp : u.immOp = t.immOp

/-- The bytes that `_fetch_displacement_by_mod` fetches. -/
def fetchedDisplacement (mod ripRel : UInt8) : Nat :=
  if mod = 0x00 then
    if ripRel = 0x00 then 0 else 4
  else if mod = 0x08 then 1
  else if mod = 0x10 then 4
  else 0

/-- An 8-bit displacement. -/
theorem behind_displacement8 (s : State) :
    BehindOperands s (displacement8 s) (addLow 32 s.rip 1) := by
  cases s
  constructor <;> rfl

/-- A 32-bit displacement. -/
theorem behind_displacement32 (s : State) :
    BehindOperands s (displacement32 s) (addLow 32 s.rip 4) := by
  cases s
  constructor <;> rfl

/-- Nothing is read. -/
theorem behind_refl (s : State) :
    BehindOperands s s s.rip :=
  ⟨rfl, rfl, rfl, rfl, rfl, rfl⟩

/-- The displacement. -/
theorem behind_fetchDisplacementByMod (s : State) :
    BehindOperands s (fetchDisplacementByMod s)
      (addLow 32 s.rip (fetchedDisplacement s.mod s.ripRel)) := by
  have behindNone : BehindOperands s s (addLow 32 s.rip 0) := by
    rw [addLow_zero]
    exact behind_refl s
  unfold fetchDisplacementByMod fetchedDisplacement
  by_cases isZero : s.mod = 0x00
  · rw [if_pos isZero, if_pos isZero]
    by_cases notRelative : s.ripRel = 0x00
    · rw [if_pos notRelative, if_pos notRelative]
      exact behindNone
    · rw [if_neg notRelative, if_neg notRelative]
      exact behind_displacement32 s
  · rw [if_neg isZero, if_neg isZero]
    by_cases isByte : s.mod = 0x08
    · rw [if_pos isByte, if_pos isByte]
      exact behind_displacement8 s
    · rw [if_neg isByte, if_neg isByte]
      by_cases isDword : s.mod = 0x10
      · rw [if_pos isDword, if_pos isDword]
        exact behind_displacement32 s
      · rw [if_neg isDword, if_neg isDword]
        exact behindNone

/-- The base of a SIB byte. -/
theorem behind_computeBase (dl : UInt8) (s : State) :
    BehindOperands s (computeBase dl s) s.rip ∧
      (computeBase dl s).ripRel = s.ripRel ∧
        (computeBase dl s).mod =
          if s.mod = 0x00 ∧ (dl &&& 0x07) <<< 3 = 0x28 then 0x10
          else s.mod := by
  unfold computeBase
  by_cases isBase : s.mod = 0x00 ∧ (dl &&& 0x07) <<< 3 = 0x28
  · rw [if_pos isBase, if_pos isBase]
    exact ⟨⟨rfl, rfl, rfl, rfl, rfl, rfl⟩, rfl, rfl⟩
  · rw [if_neg isBase, if_neg isBase]
    exact ⟨⟨rfl, rfl, rfl, rfl, rfl, rfl⟩, rfl, rfl⟩

/-- The state in which the base of a SIB byte is computed. -/
def sibFetched (index : Nat) (s : State) : State :=
  computeScaleIndex (fetch8 s).resByte
    { fetch8 s with rm := .overwritten index (fetch8 s).resByte }

/-- The SIB byte. -/
theorem behind_fetchSib (index : Nat) (s : State) :
    BehindOperands s (fetchSib index s) (addLow 32 s.rip 1) ∧
      (fetchSib index s).ripRel = s.ripRel ∧
        (fetchSib index s).mod =
          if s.mod = 0x00 ∧ (s.code &&& 0x07) <<< 3 = 0x28 then 0x10
          else s.mod := by
  have isFetched :
      fetchSib index s =
        { computeBase (fetch8 s).resByte (sibFetched index s) with
          sib := 0xff } := by
    cases s
    rfl
  have fetched :
      BehindOperands s (sibFetched index s) (addLow 32 s.rip 1) ∧
        (sibFetched index s).ripRel = s.ripRel ∧
          (sibFetched index s).mod = s.mod := by
    cases s
    exact ⟨⟨rfl, rfl, rfl, rfl, rfl, rfl⟩, rfl, rfl⟩
  obtain ⟨front, frontRel, frontMod⟩ := fetched
  obtain ⟨based, basedRel, basedMod⟩ :=
    behind_computeBase (fetch8 s).resByte (sibFetched index s)
  rw [frontMod] at basedMod
  rw [fetch8_resByte] at isFetched based basedRel basedMod
  rw [isFetched]
  exact
    ⟨⟨based.machine.trans front.machine, based.rip.trans front.rip,
        based.rex.trans front.rex, based.dataPrefix.trans front.dataPrefix,
        based.dflag.trans front.dflag, based.immOp.trans front.immOp⟩,
      basedRel.trans frontRel, basedMod⟩

/-- Where a SIB byte follows, it is fetched. -/
theorem ReadsModrm.setScaleIndexBase_eq
    {s t : State} (reads : ReadsModrm s t) :
    if needsSib s.code then
      ∃ index, setScaleIndexBase t = fetchSib index t
    else
      setScaleIndexBase t = t := by
  obtain ⟨_, _, _, isRegister, _, _⟩ := modrm_bits s.code
  have isIndex := registerIndex_eq_iff s.rex s.code
  unfold setScaleIndexBase
  rw [reads.mod, reads.rm]
  by_cases modRegister : modOf s.code = 3
  · have notSib : ¬ needsSib s.code = true := by
      simp [needsSib, modRegister]
    rw [if_neg notSib, if_pos (isRegister.mpr modRegister)]
  · rw [if_neg (mt isRegister.mp modRegister)]
    simp only [Address.register.injEq]
    by_cases isFour : rmOf s.code = 4
    · have isSib : needsSib s.code = true := by
        simp [needsSib, modRegister, isFour]
      rw [if_pos isSib]
      rcases isIndex.mpr isFour with isFirst | isSecond
      · exact ⟨4, if_pos isFirst⟩
      · refine ⟨12, ?_⟩
        rw [if_neg (by omega), if_pos isSecond]
    · have notSib : ¬ needsSib s.code = true := by
        simp [needsSib, isFour]
      have notIndex := mt isIndex.mp isFour
      rw [not_or] at notIndex
      rw [if_neg notSib, if_neg notIndex.1, if_neg notIndex.2]

/-- The displacement when no SIB byte follows. -/
theorem fetchedDisplacement_of_noSib
    {m : UInt8} (notSib : needsSib m = false) (sib : UInt8) :
    fetchedDisplacement ((m &&& 0xc0) >>> 3)
        (if (m &&& 0x07) <<< 3 = 0x28 ∧ m &&& 0xc0 = 0 then 0xff else 0) =
      displacementSize m sib := by
  obtain ⟨isZero, isByte, isDword, _, isHigh, isFive⟩ := modrm_bits m
  simp only [fetchedDisplacement, displacementSize, isZero, isByte, isDword,
    isHigh, isFive]
  by_cases noMod : modOf m = 0
  · have notFour : rmOf m ≠ 4 := by
      intro isFour
      simp [needsSib, noMod, isFour] at notSib
    by_cases isRelative : rmOf m = 5 <;>
      simp [noMod, isRelative, notFour]
  · simp [noMod]

/-- The displacement behind a SIB byte. -/
theorem fetchedDisplacement_of_sib
    {m : UInt8} (isSib : needsSib m = true) (sib : UInt8) :
    fetchedDisplacement
        (if (m &&& 0xc0) >>> 3 = 0x00 ∧ (sib &&& 0x07) <<< 3 = 0x28 then 0x10
          else (m &&& 0xc0) >>> 3)
        (if (m &&& 0x07) <<< 3 = 0x28 ∧ m &&& 0xc0 = 0 then 0xff else 0) =
      displacementSize m sib := by
  obtain ⟨isZero, isByte, isDword, _, isHigh, isFive⟩ := modrm_bits m
  obtain ⟨_, _, _, _, _, isBase⟩ := modrm_bits sib
  have isFour : rmOf m = 4 := by
    simp only [needsSib, decide_eq_true_eq] at isSib
    exact isSib.2
  by_cases noMod : modOf m = 0
  · by_cases isFifth : sib &&& 0x07 = 5
    · rw [if_pos ⟨isZero.mpr noMod, isBase.mpr isFifth⟩]
      simp [fetchedDisplacement, displacementSize, noMod, isFour, isFifth]
    · have notBase : ¬ (sib &&& 0x07) <<< 3 = 0x28 := mt isBase.mp isFifth
      rw [if_neg fun both => notBase both.2]
      simp [fetchedDisplacement, displacementSize, isZero, noMod, isFour,
        isFifth, isFive]
  · rw [if_neg fun both => noMod (isZero.mp both.1)]
    simp [fetchedDisplacement, displacementSize, isZero, isByte, isDword,
      noMod]

/-- The operands behind a ModRM byte. -/
theorem ReadsModrm.operands
    {s t : State} (reads : ReadsModrm s t) (cleared : s.ripRel = 0) :
    BehindOperands t (fetchDisplacementByMod (setScaleIndexBase t))
      (addLow 32 s.rip
        (operandsSize s.code (s.machine.memory (addLow 32 s.rip 1)))) := by
  have isCode : t.code = s.machine.memory (addLow 32 s.rip 1) := by
    rw [State.code, reads.machine, reads.rip]
  have isSet := reads.setScaleIndexBase_eq
  by_cases isSib : needsSib s.code = true
  · rw [if_pos isSib] at isSet
    obtain ⟨index, isSet⟩ := isSet
    obtain ⟨fetched, isRelative, isMod⟩ := behind_fetchSib index t
    have behind := behind_fetchDisplacementByMod (fetchSib index t)
    rw [isMod, isRelative, reads.ripRel, cleared, reads.mod, isCode,
      fetchedDisplacement_of_sib isSib, fetched.rip, reads.rip,
      addLow_addLow, addLow_addLow] at behind
    rw [isSet, operandsSize, if_pos isSib, Nat.add_assoc]
    exact
      ⟨behind.machine.trans fetched.machine, behind.rip,
        behind.rex.trans fetched.rex,
        behind.dataPrefix.trans fetched.dataPrefix,
        behind.dflag.trans fetched.dflag,
        behind.immOp.trans fetched.immOp⟩
  · rw [if_neg isSib] at isSet
    have notSib : needsSib s.code = false := by simpa using isSib
    have behind := behind_fetchDisplacementByMod t
    rw [reads.ripRel, cleared, reads.mod,
      fetchedDisplacement_of_noSib notSib
        (s.machine.memory (addLow 32 s.rip 1)),
      reads.rip, addLow_addLow] at behind
    rw [isSet, operandsSize, if_neg isSib, Nat.add_zero]
    exact behind

end BinTools.X86
