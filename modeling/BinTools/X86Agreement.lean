import BinTools.X86Operands

namespace BinTools.X86

/-!
# Two decoders that differ in what is left behind

`_clear_state` leaves some fields alone.  The routines of the handlers are
followed through two states that differ in these fields only, which become equal
where a routine writes them.
-/

/-- The fields that `_clear_state` leaves alone, but for the prefix 67. -/
structure Stale where
  rax : U64
  eflags : U64
  r15b : UInt8
  res : U64
  immOp : Option (OpBase × Nat)
  overrideReg : Option Segment
  sibIndex : Address
  sibBase : Address
  override : UInt8
  sibScale : UInt8

/-- The fields of a state. -/
def State.stale (s : State) : Stale where
  rax := s.rax
  eflags := s.eflags
  r15b := s.r15b
  res := s.res
  immOp := s.immOp
  overrideReg := s.overrideReg
  sibIndex := s.sibIndex
  sibBase := s.sibBase
  override := s.override
  sibScale := s.sibScale

/-- A state with other fields left behind. -/
def State.withStale (s : State) (x : Stale) : State :=
  { s with
    rax := x.rax
    eflags := x.eflags
    r15b := x.r15b
    res := x.res
    immOp := x.immOp
    overrideReg := x.overrideReg
    sibIndex := x.sibIndex
    sibBase := x.sibBase
    override := x.override
    sibScale := x.sibScale }

/--
What of this matters: the virtual `rax`, whether the host register is ff, SIB
behind a SIB byte, and the result and the operation where they are set.
-/
structure Stale.Like (res op : Bool) (x y : Stale) (sib : UInt8) : Prop where
  rax : x.rax = y.rax
  r15b : x.r15b = 0xff ↔ y.r15b = 0xff
  sibParts :
    sib ≠ 0 →
      x.sibIndex = y.sibIndex ∧ x.sibBase = y.sibBase ∧
        x.sibScale = y.sibScale
  res : res = true → x.res = y.res
  immOp : op = true → x.immOp = y.immOp

/-- The states differ only in what is left behind and does not matter. -/
def Agree (res op : Bool) (s t : State) : Prop :=
  ∃ x, t = s.withStale x ∧ x.Like res op s.stale s.sib

variable {res op : Bool} {s t : State}

/-- A routine that neither reads nor writes these fields. -/
theorem Agree.map
    (agree : Agree res op s t) (routine : State → State)
    (commutes : ∀ s x, routine (s.withStale x) = (routine s).withStale x)
    (same : ∀ s, (routine s).stale = s.stale)
    (sameSib : ∀ s, (routine s).sib = s.sib) :
    Agree res op (routine s) (routine t) := by
  obtain ⟨x, rfl, like⟩ := agree
  refine ⟨x, commutes s x, ?_⟩
  rw [same, sameSib]
  exact like

/-- The result does not have to be known. -/
theorem Agree.forget (agree : Agree res op s t) : Agree false op s t := by
  obtain ⟨x, isStale, like⟩ := agree
  exact ⟨x, isStale, like.rax, like.r15b, like.sibParts, nofun, like.immOp⟩

/-! ## Additions and fetches -/

/-- The instruction pointer is moved in the same way. -/
theorem Agree.moveRip (agree : Agree res op s t) (move : U64 → U64) :
    Agree res op { s with rip := move s.rip } { t with rip := move t.rip } :=
  agree.map (fun s => { s with rip := move s.rip }) (fun _ _ => rfl)
    (fun _ => rfl) fun _ => rfl

theorem Agree.addByteRip (agree : Agree res op s t) :
    Agree res op (addByteRip s) (addByteRip t) :=
  agree.moveRip fun rip => addLow 8 rip 1

theorem Agree.addDwordRip (agree : Agree res op s t) (n : Nat) :
    Agree res op (addDwordRip n s) (addDwordRip n t) :=
  agree.moveRip fun rip => addLow 32 rip n

theorem Agree.addQwordRip (agree : Agree res op s t) :
    Agree res op (addQwordRip s) (addQwordRip t) :=
  agree.moveRip fun rip => rip + 1

theorem Agree.readOpcode (agree : Agree res op s t) :
    Agree res op (readOpcode s) (readOpcode t) :=
  agree.map X86.readOpcode (fun _ _ => rfl) (fun _ => rfl) fun _ => rfl

/-- The result is known behind a fetch. -/
theorem Agree.fetchBytes (agree : Agree res op s t) (n : Nat) :
    Agree true op (fetchBytes n s) (fetchBytes n t) := by
  refine Agree.addDwordRip ?_ n
  obtain ⟨x, rfl, like⟩ := agree
  refine
    ⟨{ x with res := BitVec.ofNat 64 (bytesAt s.machine.memory s.rip n) }, rfl,
      ?_⟩
  exact ⟨like.rax, like.r15b, like.sibParts, fun _ => rfl, like.immOp⟩

theorem Agree.fetch8 (agree : Agree res op s t) :
    Agree true op (fetch8 s) (fetch8 t) :=
  agree.fetchBytes 1

theorem Agree.fetch16 (agree : Agree res op s t) :
    Agree true op (fetch16 s) (fetch16 t) :=
  agree.fetchBytes 2

theorem Agree.fetch32 (agree : Agree res op s t) :
    Agree true op (fetch32 s) (fetch32 t) :=
  agree.fetchBytes 4

/-- The results of fetches are known, or there is none. -/
theorem Agree.fetchBase (agree : Agree res op s t) (offset : UInt8) :
    (fetchBase offset s = none ∧ fetchBase offset t = none) ∨
      ∃ u v,
        fetchBase offset s = some u ∧ fetchBase offset t = some v ∧
          Agree true op u v := by
  unfold X86.fetchBase
  split_ifs
  · exact Or.inr ⟨_, _, rfl, rfl, agree.fetchBytes 1⟩
  · exact Or.inr ⟨_, _, rfl, rfl, agree.fetchBytes 2⟩
  · exact Or.inr ⟨_, _, rfl, rfl, agree.fetchBytes 4⟩
  · exact Or.inr ⟨_, _, rfl, rfl, agree.fetchBytes 8⟩
  · exact Or.inl ⟨rfl, rfl⟩

/-- Sizes of operands are the same. -/
theorem Agree.dflag_eq (agree : Agree res op s t) : t.dflag = s.dflag := by
  obtain ⟨x, rfl, -⟩ := agree
  rfl

/-- A known result. -/
theorem Agree.setImmVal (agree : Agree true op s t) :
    Agree true op (setImmVal s) (setImmVal t) := by
  obtain ⟨x, rfl, like⟩ := agree
  refine ⟨x, ?_, like⟩
  have isRes : x.res = s.res := like.res rfl
  simp only [X86.setImmVal, State.withStale, isRes]

/-! ## Fields that are set -/

theorem Agree.setDflag (agree : Agree res op s t) :
    Agree res op (setDflag s) (setDflag t) :=
  agree.map X86.setDflag (fun _ _ => rfl) (fun _ => rfl) fun _ => rfl

theorem Agree.setDflagAs1byte (agree : Agree res op s t) :
    Agree res op (setDflagAs1byte s) (setDflagAs1byte t) :=
  agree.map X86.setDflagAs1byte (fun _ _ => rfl) (fun _ => rfl) fun _ => rfl

theorem Agree.setMod11 (agree : Agree res op s t) :
    Agree res op (setMod11 s) (setMod11 t) :=
  agree.map X86.setMod11 (fun _ _ => rfl) (fun _ => rfl) fun _ => rfl

theorem Agree.setIsRmSrc (agree : Agree res op s t) :
    Agree res op (setIsRmSrc s) (setIsRmSrc t) :=
  agree.map X86.setIsRmSrc (fun _ _ => rfl) (fun _ => rfl) fun _ => rfl

theorem Agree.selectReg (agree : Agree res op s t) :
    Agree res op (selectReg s) (selectReg t) :=
  agree.map X86.selectReg (fun _ _ => rfl) (fun _ => rfl) fun _ => rfl

theorem Agree.selectRm (agree : Agree res op s t) :
    Agree res op (selectRm s) (selectRm t) :=
  agree.map X86.selectRm (fun _ _ => rfl) (fun _ => rfl) fun _ => rfl

theorem Agree.setRmRax (agree : Agree res op s t) :
    Agree res op (setRmRax s) (setRmRax t) :=
  agree.map X86.setRmRax (fun _ _ => rfl) (fun _ => rfl) fun _ => rfl

theorem Agree.setRegRax (agree : Agree res op s t) :
    Agree res op (setRegRax s) (setRegRax t) :=
  agree.map X86.setRegRax (fun _ _ => rfl) (fun _ => rfl) fun _ => rfl

theorem Agree.setImmOne (agree : Agree res op s t) :
    Agree res op (setImmOne s) (setImmOne t) :=
  agree.map X86.setImmOne (fun _ _ => rfl) (fun _ => rfl) fun _ => rfl

/-- The contents of the virtual `rax` matter here. -/
theorem Agree.setRmContents (agree : Agree res op s t) :
    Agree res op (setRmContents s) (setRmContents t) := by
  obtain ⟨x, rfl, like⟩ := agree
  refine ⟨x, ?_, like⟩
  have isRax : x.rax = s.rax := like.rax
  simp only [X86.setRmContents, State.withStale, isRax]

/-- The base of the operations makes the operation known. -/
theorem Agree.setImmOpBase (agree : Agree res op s t) (base : OpBase) :
    Agree res true (setImmOpBase base s) (setImmOpBase base t) := by
  obtain ⟨x, rfl, like⟩ := agree
  refine ⟨{ x with immOp := some (base, 0) }, rfl, ?_⟩
  exact ⟨like.rax, like.r15b, like.sibParts, like.res, fun _ => rfl⟩

/-- A byte in the host register. -/
theorem Agree.withR15b (agree : Agree res op s t) (r15b : UInt8) :
    Agree res op { s with r15b := r15b } { t with r15b := r15b } := by
  obtain ⟨x, rfl, like⟩ := agree
  refine ⟨{ x with r15b := r15b }, rfl, ?_⟩
  exact ⟨like.rax, Iff.rfl, like.sibParts, like.res, like.immOp⟩

/-! ## ModRM, SIB and displacement -/

/-- The low byte of a known result. -/
theorem Agree.resByte_eq (agree : Agree true op s t) :
    t.resByte = s.resByte := by
  obtain ⟨x, rfl, like⟩ := agree
  rw [State.resByte, State.resByte,
    show (s.withStale x).res = s.res from like.res rfl]

/-- The prefix is the same. -/
theorem Agree.rex_eq (agree : Agree res op s t) : t.rex = s.rex := by
  obtain ⟨x, rfl, -⟩ := agree
  rfl

theorem Agree.setMod (agree : Agree res op s t) (al : UInt8) :
    Agree res op (setMod al s) (setMod al t) :=
  agree.map (X86.setMod al) (fun _ _ => rfl) (fun _ => rfl) fun _ => rfl

theorem Agree.setReg (agree : Agree res op s t) (al bl : UInt8) :
    Agree res op (setReg al bl s) (setReg al bl t) :=
  agree.map (X86.setReg al bl) (fun _ _ => rfl) (fun _ => rfl) fun _ => rfl

theorem Agree.setRm (agree : Agree res op s t) (al bl : UInt8) :
    Agree res op (setRm al bl s) (setRm al bl t) :=
  agree.map (X86.setRm al bl) (fun _ _ => rfl) (fun _ => rfl) fun _ => rfl

theorem Agree.setXmmToReg (agree : Agree res op s t) (al bl : UInt8) :
    Agree res op (setXmmToReg al bl s) (setXmmToReg al bl t) :=
  agree.map (X86.setXmmToReg al bl) (fun _ _ => rfl) (fun _ => rfl) fun _ => rfl

theorem Agree.setXmmToRm (agree : Agree res op s t) (al bl : UInt8) :
    Agree res op (setXmmToRm al bl s) (setXmmToRm al bl t) :=
  agree.map (X86.setXmmToRm al bl) (fun _ _ => rfl) (fun _ => rfl) fun _ => rfl

theorem Agree.setAflag (agree : Agree res op s t) :
    Agree res op (setAflag s) (setAflag t) :=
  agree.map X86.setAflag (fun _ _ => rfl) (fun _ => rfl) fun _ => rfl

/-- The fields of a ModRM byte with a register. -/
theorem Agree.getModRegRm (agree : Agree res op s t) :
    Agree true op (getModRegRm s) (getModRegRm t) := by
  unfold X86.getModRegRm
  dsimp only
  rw [agree.fetch8.resByte_eq, agree.fetch8.rex_eq]
  exact (((agree.fetch8.setMod _).setReg _ _).setRm _ _).setDflag.setAflag

/-- The fields of a ModRM byte with a register for floating point. -/
theorem Agree.getModXmmRm (agree : Agree res op s t) :
    Agree true op (getModXmmRm s) (getModXmmRm t) := by
  unfold X86.getModXmmRm
  dsimp only
  rw [agree.fetch8.resByte_eq, agree.fetch8.rex_eq]
  exact (((agree.fetch8.setMod _).setXmmToReg _ _).setRm _ _).setDflag.setAflag

/-- The fields of a ModRM byte with two of them. -/
theorem Agree.getModXmmXmm (agree : Agree res op s t) :
    Agree true op (getModXmmXmm s) (getModXmmXmm t) := by
  unfold X86.getModXmmXmm
  dsimp only
  rw [agree.fetch8.resByte_eq, agree.fetch8.rex_eq]
  exact
    (((agree.fetch8.setMod _).setXmmToReg _ _).setXmmToRm _ _).setDflag.setAflag

/-- The operation of a known base. -/
theorem Agree.setImmOp (agree : Agree res true s t) (al : UInt8) :
    Agree res true (setImmOp al s) (setImmOp al t) := by
  obtain ⟨x, rfl, like⟩ := agree
  have sameOp : x.immOp = s.immOp := like.immOp rfl
  refine
    ⟨{ x with
        immOp :=
          s.immOp.map fun op => (op.1, op.2 + ((al &&& 0x38) >>> 3).toNat) },
      ?_, ?_⟩
  · unfold X86.setImmOp
    rw [show (s.withStale x).immOp = s.immOp from sameOp]
    rfl
  · exact ⟨like.rax, like.r15b, like.sibParts, like.res, fun _ => rfl⟩

/-- The fields of a ModRM byte with an operation. -/
theorem Agree.getModOpRm (agree : Agree res true s t) :
    Agree true true (getModOpRm s) (getModOpRm t) := by
  unfold X86.getModOpRm
  dsimp only
  rw [agree.fetch8.resByte_eq, agree.fetch8.rex_eq]
  exact (((agree.fetch8.setMod _).setImmOp _).setRm _ _).setDflag.setAflag

/-- The register is the same. -/
theorem Agree.reg_eq (agree : Agree res op s t) : t.reg = s.reg := by
  obtain ⟨x, rfl, -⟩ := agree
  rfl

/-- The high bytes of registers. -/
theorem Agree.resetHigher8Access (agree : Agree true op s t) :
    Agree true op (resetHigher8Access s) (resetHigher8Access t) := by
  have sameTest :
      (t.rex = 0 ∧ t.resByte &&& 0x20 = 0x20) =
        (s.rex = 0 ∧ s.resByte &&& 0x20 = 0x20) := by
    rw [agree.resByte_eq, agree.rex_eq]
  unfold X86.resetHigher8Access
  by_cases isHigh : s.rex = 0 ∧ s.resByte &&& 0x20 = 0x20
  · rw [if_pos isHigh, if_pos (sameTest.mpr isHigh), agree.reg_eq]
    cases s.reg with
    | register index =>
        exact
          agree.map
            (fun s => { s with reg := .register (index - 4), dflag := 0x4 })
            (fun _ _ => rfl) (fun _ => rfl) fun _ => rfl
    | _ =>
        exact
          agree.map (fun s => { s with reg := _, dflag := 0x4 })
            (fun _ _ => rfl) (fun _ => rfl) fun _ => rfl
  · rw [if_neg isHigh, if_neg fun high => isHigh (sameTest.mp high)]
    exact
      agree.map (fun s => { s with dflag := 0x0 }) (fun _ _ => rfl)
        (fun _ => rfl) fun _ => rfl

/-- The mode is the same. -/
theorem Agree.mod_eq (agree : Agree res op s t) : t.mod = s.mod := by
  obtain ⟨x, rfl, -⟩ := agree
  rfl

/-- The operand is the same. -/
theorem Agree.rm_eq (agree : Agree res op s t) : t.rm = s.rm := by
  obtain ⟨x, rfl, -⟩ := agree
  rfl

/-- The scale and the index become known. -/
theorem Agree.computeScaleIndex (agree : Agree true op s t) (dl : UInt8) :
    ∃ x,
      computeScaleIndex dl t = (computeScaleIndex dl s).withStale x ∧
        x.Like true op (computeScaleIndex dl s).stale s.sib ∧
          x.sibIndex = (computeScaleIndex dl s).sibIndex ∧
            x.sibScale = (computeScaleIndex dl s).sibScale := by
  have sameByte := agree.resByte_eq
  obtain ⟨x, rfl, like⟩ := agree
  refine
    ⟨{ x with
        sibScale := (dl &&& 0xc0) >>> 6
        sibIndex :=
          .register (registerIndex s.rex 0x02 ((s.resByte &&& 0x38) >>> 3)) },
      ?_, ?_, rfl, rfl⟩
  · unfold X86.computeScaleIndex
    rw [sameByte]
    rfl
  · exact
      ⟨like.rax, like.r15b, fun hasSib => ⟨rfl, (like.sibParts hasSib).2.1, rfl⟩,
        like.res, like.immOp⟩

/-- The base becomes known, and with it all parts. -/
theorem like_computeBase
    {x : Stale} (like : x.Like true op s.stale s.sib)
    (sameIndex : x.sibIndex = s.sibIndex) (sameScale : x.sibScale = s.sibScale)
    (dl : UInt8) :
    Agree true op { computeBase dl s with sib := 0xff }
      { computeBase dl (s.withStale x) with sib := 0xff } := by
  unfold computeBase
  by_cases isBase : s.mod = 0x00 ∧ (dl &&& 0x07) <<< 3 = 0x28
  · rw [if_pos isBase, if_pos (show (s.withStale x).mod = 0x00 ∧ _ from isBase)]
    exact
      ⟨{ x with sibBase := .null }, rfl, like.rax, like.r15b,
        fun _ => ⟨sameIndex, rfl, sameScale⟩, like.res, like.immOp⟩
  · rw [if_neg isBase,
      if_neg (show ¬ ((s.withStale x).mod = 0x00 ∧ _) from isBase)]
    exact
      ⟨{ x with
          sibBase := .register (registerIndex s.rex 0x01 (dl &&& 0x07)) },
        rfl, like.rax, like.r15b, fun _ => ⟨sameIndex, rfl, sameScale⟩,
        like.res, like.immOp⟩

/-- The parts of a SIB byte become known. -/
theorem Agree.fetchSib (agree : Agree res op s t) (index : Nat) :
    Agree true op (fetchSib index s) (fetchSib index t) := by
  have fetched (al : UInt8) :=
    agree.fetch8.map (fun s => { s with rm := .overwritten index al })
      (fun _ _ => rfl) (fun _ => rfl) fun _ => rfl
  unfold X86.fetchSib
  dsimp only
  rw [agree.fetch8.resByte_eq]
  obtain ⟨x, isStale, like, sameIndex, sameScale⟩ :=
    (fetched (X86.fetch8 s).resByte).computeScaleIndex (X86.fetch8 s).resByte
  rw [isStale]
  exact like_computeBase like sameIndex sameScale _

/-- `_set_scale_index_base` -/
theorem Agree.setScaleIndexBase (agree : Agree true op s t) :
    Agree true op (setScaleIndexBase s) (setScaleIndexBase t) := by
  unfold X86.setScaleIndexBase
  rw [agree.mod_eq, agree.rm_eq]
  split_ifs
  · exact agree
  · exact agree.fetchSib 4
  · exact agree.fetchSib 12
  · exact agree

/-- A displacement by the code. -/
theorem Agree.setDisplacement
    (agree : Agree res op s t) (read : U64 → (U64 → UInt8) → U64 → U64) :
    Agree res op
      { s with displacement := read s.displacement s.machine.memory s.rip }
      { t with displacement := read t.displacement t.machine.memory t.rip } :=
  agree.map
    (fun s =>
      { s with displacement := read s.displacement s.machine.memory s.rip })
    (fun _ _ => rfl) (fun _ => rfl) fun _ => rfl

theorem Agree.displacement8 (agree : Agree res op s t) :
    Agree res op (displacement8 s) (displacement8 t) :=
  (agree.setDisplacement fun old memory rip =>
    setByte old (memory rip)).addDwordRip 1

theorem Agree.displacement32 (agree : Agree res op s t) :
    Agree res op (displacement32 s) (displacement32 t) :=
  (agree.setDisplacement fun old memory rip =>
    setDword old (bytesAt memory rip 4)).addDwordRip 4

/-- Whether `rip` is the base is the same. -/
theorem Agree.ripRel_eq (agree : Agree res op s t) : t.ripRel = s.ripRel := by
  obtain ⟨x, rfl, -⟩ := agree
  rfl

/-- `_fetch_displacement_by_mod` -/
theorem Agree.fetchDisplacementByMod (agree : Agree res op s t) :
    Agree res op (fetchDisplacementByMod s) (fetchDisplacementByMod t) := by
  unfold X86.fetchDisplacementByMod
  rw [agree.mod_eq, agree.ripRel_eq]
  split_ifs
  · exact agree
  · exact agree.displacement32
  · exact agree.displacement8
  · exact agree.displacement32
  · exact agree

/-- ModRM, SIB and displacement. -/
theorem Agree.operands (agree : Agree res op s t) :
    Agree true op (operands s) (operands t) :=
  agree.getModRegRm.setScaleIndexBase.fetchDisplacementByMod

end BinTools.X86
