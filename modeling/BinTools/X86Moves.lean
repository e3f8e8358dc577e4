import BinTools.X86Operands

namespace BinTools.X86

/-!
# How far a handler moves the instruction pointer

Every handler first goes behind the opcode, by an addition of 8, 32 or 64 bits,
or not at all.  All that follows are additions of 32 bits.
-/

/-- The first addition of a handler. -/
inductive Step where
  | none
  | byte
  | dword
  | qword
  deriving DecidableEq, Repr

/-- The instruction pointer behind the opcode. -/
def Step.apply (step : Step) (rip : U64) : U64 :=
  match step with
  | .none => rip
  | .byte => addLow 8 rip 1
  | .dword => addLow 32 rip 1
  | .qword => rip + 1

/-- The operand size is 64 bits. -/
def State.wide (s : State) : Bool :=
  s.rex &&& 0x08 = 0x08

/-- The prefix 66 was read. -/
def State.data (s : State) : Bool :=
  s.dataPrefix = 0xff

/--
Where a handler ends: behind the opcode, and as many bytes further as its size
says by the prefixes and the next two bytes.
-/
def Moves
    (step : Step) (size : Bool → Bool → UInt8 → UInt8 → Nat)
    (handler : State → Option State) : Prop :=
  ∀ s, s.ripRel = 0 →
    ∃ t,
      handler s = some t ∧
        t.machine = s.machine ∧
          t.rip =
            addLow 32 (step.apply s.rip)
              (size s.wide s.data
                (s.machine.memory (step.apply s.rip))
                (s.machine.memory (addLow 32 (step.apply s.rip) 1)))

/-- What is kept in front of the ModRM byte. -/
structure Keeps (s u : State) (rip : U64) : Prop where
  machine : u.machine = s.machine
  rip : u.rip = rip
  ripRel : u.ripRel = s.ripRel
  rex : u.rex = s.rex
  dataPrefix : u.dataPrefix = s.dataPrefix

/-- A handler behind a change that keeps all of this. -/
theorem Moves.comp
    {step : Step} {size : Bool → Bool → UInt8 → UInt8 → Nat}
    {handler : State → Option State} (moves : Moves step size handler)
    {change : State → State} (keeps : ∀ s, Keeps s (change s) s.rip) :
    Moves step size fun s => handler (change s) := by
  intro s cleared
  obtain ⟨sameMachine, sameRip, sameRel, sameRex, sameData⟩ := keeps s
  obtain ⟨t, isEnd, isMachine, isRip⟩ :=
    moves (change s) (sameRel.trans cleared)
  refine ⟨t, isEnd, isMachine.trans sameMachine, ?_⟩
  have sameWide : (change s).wide = s.wide := by
    rw [State.wide, sameRex, State.wide]
  have sameDataPrefix : (change s).data = s.data := by
    rw [State.data, sameData, State.data]
  rw [isRip, sameRip, sameMachine, sameWide, sameDataPrefix]

/-- Operands, and what is fetched behind them. -/
theorem moves_operands
    {step : Step} {size : Bool → Bool → UInt8 → Nat}
    {handler : State → Option State}
    (shape :
      ∀ s, ∃ (u t : State) (tail : State → Option State),
        Keeps s u (step.apply s.rip) ∧
          ReadsModrm u t ∧
            handler s =
              tail (fetchDisplacementByMod (setScaleIndexBase t)) ∧
              ∀ v rip, BehindOperands t v rip →
                ∃ w,
                  tail v = some w ∧
                    w.machine = v.machine ∧
                      w.rip =
                        addLow 32 v.rip
                          (size s.wide s.data (u.machine.memory u.rip))) :
    Moves step
      (fun wide data modrm sib => operandsSize modrm sib + size wide data modrm)
      handler := by
  intro s cleared
  obtain ⟨u, t, tail, keeps, reads, isHandler, tails⟩ := shape s
  have behind := reads.operands (keeps.ripRel.trans cleared)
  obtain ⟨w, isEnd, isMachine, isRip⟩ := tails _ _ behind
  refine ⟨w, isHandler.trans isEnd, ?_, ?_⟩
  · rw [isMachine, behind.machine, reads.machine, keeps.machine]
  · rw [isRip, behind.rip, addLow_addLow, State.code, keeps.rip,
      keeps.machine]

/-! ## Steps -/

/-- `add byte [_rip],1` -/
theorem keeps_addByteRip (s : State) :
    Keeps s (addByteRip s) (Step.byte.apply s.rip) := by
  cases s
  exact ⟨rfl, rfl, rfl, rfl, rfl⟩

/-- `add dword [_rip],1` -/
theorem keeps_addDwordRip (s : State) :
    Keeps s (addDwordRip 1 s) (Step.dword.apply s.rip) := by
  cases s
  exact ⟨rfl, rfl, rfl, rfl, rfl⟩

/-- `add qword [_rip],1` -/
theorem keeps_addQwordRip (s : State) :
    Keeps s (addQwordRip s) (Step.qword.apply s.rip) := by
  cases s
  exact ⟨rfl, rfl, rfl, rfl, rfl⟩

/-- `mov r15b,0xff` -/
theorem keeps_setR15b (s : State) :
    Keeps s (setR15b s) s.rip := by
  cases s
  exact ⟨rfl, rfl, rfl, rfl, rfl⟩

/-- `mov byte [_context._is_rm_src],0xff` -/
theorem keeps_setIsRmSrc (s : State) :
    Keeps s (setIsRmSrc s) s.rip := by
  cases s
  exact ⟨rfl, rfl, rfl, rfl, rfl⟩

/-- `_set_dflag` -/
theorem keeps_setDflag (s : State) :
    Keeps s (setDflag s) s.rip := by
  cases s
  exact ⟨rfl, rfl, rfl, rfl, rfl⟩

/-- `_set_dflag_as_1byte` -/
theorem keeps_setDflagAs1byte (s : State) :
    Keeps s (setDflagAs1byte s) s.rip := by
  cases s
  exact ⟨rfl, rfl, rfl, rfl, rfl⟩

/-- A step, and the base of the operations. -/
theorem keeps_setImmOpBase (base : OpBase) (s : State) :
    Keeps s (setImmOpBase base (addDwordRip 1 s)) (Step.dword.apply s.rip) := by
  cases s
  exact ⟨rfl, rfl, rfl, rfl, rfl⟩

/-! ## Sizes of operands -/

/-- The size is set behind the ModRM byte. -/
theorem ReadsModrm.setDflagAs1byte
    {s t : State} (reads : ReadsModrm s t) :
    ReadsModrm s (setDflagAs1byte t) :=
  ⟨reads.machine, reads.rip, reads.rex, reads.dataPrefix, reads.mod, reads.rm,
    reads.ripRel⟩

/-- The size is computed behind the ModRM byte. -/
theorem ReadsModrm.setDflag
    {s t : State} (reads : ReadsModrm s t) :
    ReadsModrm s (setDflag t) :=
  ⟨reads.machine, reads.rip, reads.rex, reads.dataPrefix, reads.mod, reads.rm,
    reads.ripRel⟩

/-- The high bytes of registers. -/
theorem ReadsModrm.resetHigher8Access
    {s t : State} (reads : ReadsModrm s t) :
    ReadsModrm s (resetHigher8Access t) := by
  unfold X86.resetHigher8Access
  split_ifs <;>
    exact
      ⟨reads.machine, reads.rip, reads.rex, reads.dataPrefix, reads.mod,
        reads.rm, reads.ripRel⟩

/-! ## Handlers without an immediate value -/

/-- Nothing follows the operands. -/
theorem moves_operands_only
    {step : Step} {handler : State → Option State}
    (shape :
      ∀ s, ∃ u t : State,
        Keeps s u (step.apply s.rip) ∧
          ReadsModrm u t ∧
            handler s =
              some (fetchDisplacementByMod (setScaleIndexBase t))) :
    Moves step
      (fun _ _ modrm sib => operandsSize modrm sib + 0) handler := by
  refine moves_operands fun s => ?_
  obtain ⟨u, t, keeps, reads, isHandler⟩ := shape s
  exact
    ⟨u, t, some, keeps, reads, isHandler, fun v _ _ =>
      ⟨v, rfl, rfl, (addLow_zero v.rip).symm⟩⟩

/-- `_do01` -/
theorem moves_do01 :
    Moves .qword (fun _ _ modrm sib => operandsSize modrm sib + 0) do01 := by
  refine moves_operands_only fun s => ?_
  have reads := readsModrm_getModRegRm (addQwordRip s)
  by_cases isByte : (getModRegRm (addQwordRip s)).r15b = 0xff
  · refine
      ⟨addQwordRip s,
        setDflagAs1byte { getModRegRm (addQwordRip s) with r15b := 0 },
        keeps_addQwordRip s,
        ⟨reads.machine, reads.rip, reads.rex, reads.dataPrefix, reads.mod,
          reads.rm, reads.ripRel⟩, ?_⟩
    unfold do01
    dsimp only
    rw [if_pos isByte]
  · refine
      ⟨addQwordRip s, getModRegRm (addQwordRip s), keeps_addQwordRip s, reads,
        ?_⟩
    unfold do01
    dsimp only
    rw [if_neg isByte]

/-- A step of 32 bits and operands. -/
theorem moves_dwordOperands :
    Moves .dword (fun _ _ modrm sib => operandsSize modrm sib + 0)
      fun s => some (operands (addDwordRip 1 s)) :=
  moves_operands_only fun s =>
    ⟨addDwordRip 1 s, getModRegRm (addDwordRip 1 s), keeps_addDwordRip s,
      readsModrm_getModRegRm _, rfl⟩

/-- A step of 8 bits and operands. -/
theorem moves_byteOperands :
    Moves .byte (fun _ _ modrm sib => operandsSize modrm sib + 0)
      fun s => some (operands (addByteRip s)) :=
  moves_operands_only fun s =>
    ⟨addByteRip s, getModRegRm (addByteRip s), keeps_addByteRip s,
      readsModrm_getModRegRm _, rfl⟩

/-- Operands of one byte behind a step of 8 bits. -/
theorem moves_x86Xchg :
    Moves .byte (fun _ _ modrm sib => operandsSize modrm sib + 0) x86Xchg :=
  moves_operands_only fun s =>
    ⟨addByteRip s, setDflagAs1byte (getModRegRm (addByteRip s)),
      keeps_addByteRip s, (readsModrm_getModRegRm _).setDflagAs1byte, rfl⟩

/-- Operands of one byte behind a step of 32 bits. -/
theorem moves_x88Mov :
    Moves .dword (fun _ _ modrm sib => operandsSize modrm sib + 0) x88Mov :=
  moves_operands_only fun s =>
    ⟨addDwordRip 1 s, setDflagAs1byte (getModRegRm (addDwordRip 1 s)),
      keeps_addDwordRip s, (readsModrm_getModRegRm _).setDflagAs1byte, rfl⟩

/-- The opcode 00. -/
theorem moves_x00Add :
    Moves .byte (fun _ _ modrm sib => operandsSize modrm sib + 0) x00Add :=
  moves_operands_only fun s =>
    ⟨addByteRip s, resetHigher8Access (getModRegRm (addByteRip s)),
      keeps_addByteRip s, (readsModrm_getModRegRm _).resetHigher8Access, rfl⟩

/-- The opcode 02 loads its operand. -/
theorem moves_x02Add :
    Moves .dword (fun _ _ modrm sib => operandsSize modrm sib + 0) x02Add := by
  refine moves_operands fun s => ?_
  refine
    ⟨addDwordRip 1 s, getModRegRm (addDwordRip 1 s),
      fun v => some (loadRmByMod v), keeps_addDwordRip s,
      readsModrm_getModRegRm _, rfl, fun v _ _ => ⟨_, rfl, ?_, ?_⟩⟩
  · unfold loadRmByMod
    cases v
    dsimp only
    split_ifs <;> rfl
  · rw [addLow_zero]
    unfold loadRmByMod
    cases v
    dsimp only
    split_ifs <;> rfl

/-- The opcode fe. -/
theorem moves_xfeOp :
    Moves .byte (fun _ _ modrm sib => operandsSize modrm sib + 0) xfeOp := by
  refine moves_operands_only fun s => ?_
  have keeps :
      Keeps s (setImmOpBase .fe (addByteRip s)) (Step.byte.apply s.rip) := by
    cases s
    exact ⟨rfl, rfl, rfl, rfl, rfl⟩
  exact ⟨_, _, keeps, (readsModrm_getModOpRm _).setDflagAs1byte, rfl⟩

/-- The opcode ff. -/
theorem moves_xffOp :
    Moves .dword (fun _ _ modrm sib => operandsSize modrm sib + 0) xffOp :=
  moves_operands_only fun s =>
    ⟨_, _, keeps_setImmOpBase .fe s, readsModrm_getModOpRm _, rfl⟩

/-- The opcode 30. -/
theorem moves_x30Xor :
    Moves .byte (fun _ _ modrm sib => operandsSize modrm sib + 0) x30Xor :=
  moves_byteOperands.comp keeps_setR15b

/-- The opcode 32 does not go behind itself. -/
theorem moves_x32Xor :
    Moves .none (fun _ _ modrm sib => operandsSize modrm sib + 0) x32Xor :=
  moves_operands_only fun s =>
    ⟨s, getModRegRm s, ⟨rfl, rfl, rfl, rfl, rfl⟩, readsModrm_getModRegRm s,
      rfl⟩

/-! ## Immediate values -/

/-- Some bytes are fetched as the immediate value. -/
theorem fetched_immVal (n : Nat) (s : State) :
    (setImmVal (fetchBytes n s)).machine = s.machine ∧
      (setImmVal (fetchBytes n s)).rip = addLow 32 s.rip n := by
  cases s
  exact ⟨rfl, rfl⟩

/-- Operands and an immediate value of a fixed size. -/
theorem moves_operands_immVal
    {step : Step} {handler : State → Option State} (n : Nat)
    (shape :
      ∀ s, ∃ u t : State,
        Keeps s u (step.apply s.rip) ∧
          ReadsModrm u t ∧
            handler s =
              some
                (setImmVal
                  (fetchBytes n
                    (fetchDisplacementByMod (setScaleIndexBase t))))) :
    Moves step (fun _ _ modrm sib => operandsSize modrm sib + n) handler := by
  refine moves_operands fun s => ?_
  obtain ⟨u, t, keeps, reads, isHandler⟩ := shape s
  exact
    ⟨u, t, fun v => some (setImmVal (fetchBytes n v)), keeps, reads,
      isHandler, fun v _ _ => ⟨_, rfl, fetched_immVal n v⟩⟩

/-- `__com01` -/
theorem moves_com01 :
    Moves .dword (fun _ _ modrm sib => operandsSize modrm sib + 1) com01 :=
  moves_operands_immVal 1 fun s =>
    ⟨_, _, keeps_setImmOpBase .op01 s, readsModrm_getModOpRm _, rfl⟩

/-- The opcode c0. -/
theorem moves_xc0Shift :
    Moves .dword (fun _ _ modrm sib => operandsSize modrm sib + 1)
      xc0Shift :=
  moves_operands_immVal 1 fun s =>
    ⟨_, _, keeps_setImmOpBase .shift s,
      (readsModrm_getModOpRm _).setDflagAs1byte, rfl⟩

/-- The opcode c1. -/
theorem moves_xc1Shift :
    Moves .dword (fun _ _ modrm sib => operandsSize modrm sib + 1)
      xc1Shift :=
  moves_operands_immVal 1 fun s =>
    ⟨_, _, keeps_setImmOpBase .shift s, (readsModrm_getModOpRm _).setDflag,
      rfl⟩

/-- The opcode c6. -/
theorem moves_xc6Mov :
    Moves .dword (fun _ _ modrm sib => operandsSize modrm sib + 1) xc6Mov :=
  moves_operands_immVal 1 fun s =>
    ⟨_, _, keeps_addDwordRip s, (readsModrm_getModRegRm _).setDflagAs1byte,
      rfl⟩

/-- The opcode c7. -/
theorem moves_xc7Mov :
    Moves .dword (fun _ _ modrm sib => operandsSize modrm sib + 4) xc7Mov :=
  moves_operands_immVal 4 fun s =>
    ⟨_, _, keeps_addDwordRip s, readsModrm_getModRegRm _, rfl⟩

/-- `_context._dflag` by the prefixes. -/
def dflagOf (wide data : Bool) : UInt8 :=
  if wide then 0x18 else if data then 0x08 else 0x10

/-- `_set_dflag` -/
theorem setDflag_dflag (s : State) :
    (setDflag s).dflag = dflagOf s.wide s.data := by
  unfold setDflag dflagOf State.wide State.data
  simp

/-- The size behind a ModRM byte. -/
theorem getModOpRm_dflag (s : State) :
    (getModOpRm s).dflag = dflagOf s.wide s.data := by
  have isSet : (getModOpRm s).dflag = (setDflag s).dflag := by
    cases s
    rfl
  rw [isSet, setDflag_dflag]

/-- `_fetch` by the prefixes. -/
theorem fetch_eq
    {s : State} {wide data : Bool} (isFlag : s.dflag = dflagOf wide data) :
    fetch s = some (fetchBytes (operandSize wide data) s) := by
  unfold fetch
  rw [isFlag]
  cases wide <;> cases data <;> rfl

/-- `_fetch_no64` by the prefixes. -/
theorem fetchNo64_eq
    {s : State} {wide data : Bool} (isFlag : s.dflag = dflagOf wide data) :
    fetchNo64 s = some (fetchBytes (immediateOperandSize wide data) s) := by
  unfold fetchNo64
  rw [isFlag]
  cases wide <;> cases data <;> rfl

/-- `__com02` -/
theorem moves_com02 :
    Moves .dword
      (fun wide data modrm sib =>
        operandsSize modrm sib + immediateOperandSize wide data)
      com02 := by
  refine moves_operands fun s => ?_
  have keeps := keeps_setImmOpBase .op01 s
  refine
    ⟨_, _, fun v => (fetchNo64 v).map setImmVal, keeps,
      readsModrm_getModOpRm _, rfl, fun v _ behind => ?_⟩
  have isFlag : v.dflag = dflagOf s.wide s.data := by
    rw [behind.dflag, getModOpRm_dflag, State.wide, State.data, keeps.rex,
      keeps.dataPrefix]
    rfl
  dsimp only
  rw [fetchNo64_eq isFlag]
  exact ⟨_, rfl, fetched_immVal _ v⟩

/-- Only the first operation is `test`. -/
theorem opF6FBase_test_iff (k : Nat) :
    (opF6FBase[k]?).join = some .test ↔ k = 0 := by
  match k with
  | 0 | 1 | 2 | 3 | 4 | 5 | 6 | 7 => decide
  | k + 8 => simp [opF6FBase]

/-- `_compensate_reg_f6f7` fetches the immediate value of `test`. -/
theorem compensateRegF6f7_moves
    {s : State} {modrm : UInt8} {n : Nat}
    (isOp : s.immOp = some (.f6, 0 + (regOf modrm).toNat))
    (isFetch : fetch s = some (fetchBytes n s)) :
    ∃ w,
      compensateRegF6f7 s = some w ∧
        w.machine = s.machine ∧
          w.rip = addLow 32 s.rip (if regOf modrm = 0 then n else 0) := by
  have isPointed :
      immOpF6 s = (opF6FBase[(regOf modrm).toNat]?).join := by
    rw [immOpF6, isOp, Option.bind_some, Nat.zero_add]
  have testIff := opF6FBase_test_iff (regOf modrm).toNat
  have zeroIff : (regOf modrm).toNat = 0 ↔ regOf modrm = 0 := by
    rw [← UInt8.toNat_inj]
    rfl
  rw [← isPointed, zeroIff] at testIff
  unfold compensateRegF6f7
  by_cases isTest : regOf modrm = 0
  · rw [testIff.mpr isTest, if_pos isTest]
    dsimp only
    rw [isFetch]
    exact ⟨_, rfl, fetched_immVal n s⟩
  · have notTest := mt testIff.mp isTest
    rw [if_neg isTest, addLow_zero]
    cases operation : immOpF6 s with
    | none => exact ⟨_, rfl, rfl, rfl⟩
    | some op =>
        cases op with
        | test => exact absurd operation notTest
        | not => exact ⟨_, rfl, rfl, rfl⟩
        | neg => exact ⟨_, rfl, rfl, rfl⟩
        | mul => exact ⟨_, rfl, rfl, rfl⟩
        | imul => exact ⟨_, rfl, rfl, rfl⟩
        | div => exact ⟨_, rfl, rfl, rfl⟩
        | idiv => exact ⟨_, rfl, rfl, rfl⟩

/-- The operation that a ModRM byte selects. -/
theorem getModOpRm_immOp (base : OpBase) (s : State) :
    (getModOpRm (setImmOpBase base (addDwordRip 1 s))).immOp =
      some
        (base,
          0 + (regOf (s.machine.memory (addLow 32 s.rip 1))).toNat) := by
  have isByte :
      (fetch8 (setImmOpBase base (addDwordRip 1 s))).resByte =
        s.machine.memory (addLow 32 s.rip 1) :=
    fetch8_resByte _
  rw [← isByte]
  cases s
  rfl

/-- The opcode f6. -/
theorem moves_xf6Op :
    Moves .dword
      (fun _ _ modrm sib =>
        operandsSize modrm sib + if regOf modrm = 0 then 1 else 0)
      xf6Op := by
  refine moves_operands fun s => ?_
  refine
    ⟨_, _, compensateRegF6f7, keeps_setImmOpBase .f6 s,
      (readsModrm_getModOpRm _).setDflagAs1byte, rfl, fun v _ behind => ?_⟩
  have isFetch : fetch v = some (fetchBytes 1 v) := by
    rw [fetch, behind.dflag]
    rfl
  exact
    compensateRegF6f7_moves
      (behind.immOp.trans (getModOpRm_immOp .f6 s)) isFetch

/-- The opcode f7. -/
theorem moves_xf7Op :
    Moves .dword
      (fun wide data modrm sib =>
        operandsSize modrm sib +
          if regOf modrm = 0 then operandSize wide data else 0)
      xf7Op := by
  refine moves_operands fun s => ?_
  have keeps := keeps_setImmOpBase .f6 s
  refine
    ⟨_, _, compensateRegF6f7, keeps, readsModrm_getModOpRm _, rfl,
      fun v _ behind => ?_⟩
  have isFlag : v.dflag = dflagOf s.wide s.data := by
    rw [behind.dflag, getModOpRm_dflag, State.wide, State.data, keeps.rex,
      keeps.dataPrefix]
    rfl
  exact
    compensateRegF6f7_moves
      (behind.immOp.trans (getModOpRm_immOp .f6 s)) (fetch_eq isFlag)

/-! ## Opcodes without a ModRM byte -/

/-- Some bytes behind the opcode. -/
theorem moves_plain
    {handler : State → Option State} {size : Bool → Bool → Nat}
    (shape :
      ∀ s, ∃ (u w : State),
        Keeps s u (Step.dword.apply s.rip) ∧
          handler s = some w ∧
            w.machine = u.machine ∧
              w.rip = addLow 32 u.rip (size s.wide s.data)) :
    Moves .dword (fun wide data _ _ => size wide data) handler := by
  intro s _
  obtain ⟨u, w, keeps, isHandler, isMachine, isRip⟩ := shape s
  refine ⟨w, isHandler, isMachine.trans keeps.machine, ?_⟩
  rw [isRip, keeps.rip]

/-- Pushing and popping a register. -/
theorem moves_pushPop :
    Moves .dword (fun _ _ _ _ => 0) pushPop := by
  refine moves_plain fun s => ?_
  refine ⟨_, _, keeps_addDwordRip s, rfl, ?_, ?_⟩
  · cases s
    rfl
  · rw [addLow_zero]
    cases s
    rfl

/-- An immediate value of one byte. -/
theorem moves_fetchAndSetImm :
    Moves .dword (fun _ _ _ _ => 1) fetchAndSetImm :=
  moves_plain fun s =>
    ⟨_, _, keeps_addDwordRip s, rfl, fetched_immVal 1 _⟩

/-- An immediate value of four bytes. -/
theorem moves_xe8Call :
    Moves .dword (fun _ _ _ _ => 4) xe8Call :=
  moves_plain fun s =>
    ⟨_, _, keeps_addDwordRip s, rfl, fetched_immVal 4 _⟩

/-- The opcode eb. -/
theorem moves_xebJmp :
    Moves .dword (fun _ _ _ _ => 1) xebJmp := by
  refine moves_plain fun s => ?_
  refine ⟨_, _, keeps_addDwordRip s, rfl, ?_, ?_⟩ <;>
    · cases s
      rfl

/-- A move to a register. -/
theorem moves_gen0xb0
    {handler : State → Option State} {size : Bool → Bool → Nat}
    {change : State → State} (keeps : ∀ s, Keeps s (change s) s.rip)
    (isHandler : ∀ s, handler s = gen0xb0 (change s))
    (isFetch :
      ∀ s, fetch (addDwordRip 1 (change s)) =
        some
          (fetchBytes (size s.wide s.data) (addDwordRip 1 (change s)))) :
    Moves .dword (fun wide data _ _ => size wide data) handler := by
  refine moves_plain fun s => ?_
  have stepped : Keeps s (addDwordRip 1 (change s)) (Step.dword.apply s.rip) := by
    have first := keeps s
    have second := keeps_addDwordRip (change s)
    exact
      ⟨second.machine.trans first.machine,
        second.rip.trans (by rw [first.rip]),
        second.ripRel.trans first.ripRel, second.rex.trans first.rex,
        second.dataPrefix.trans first.dataPrefix⟩
  have isEnd :
      handler s =
        some
          (selectReg
            (setImmVal
              (fetchBytes (size s.wide s.data)
                (addDwordRip 1 (change s))))) := by
    rw [isHandler, gen0xb0, isFetch]
    rfl
  obtain ⟨isMachine, isRip⟩ :=
    fetched_immVal (size s.wide s.data) (addDwordRip 1 (change s))
  exact ⟨_, _, stepped, isEnd, isMachine, isRip⟩

/-- A move of one byte. -/
theorem moves_movByte :
    Moves .dword (fun _ _ _ _ => 1) movByte :=
  moves_gen0xb0 keeps_setDflagAs1byte (fun _ => rfl) fun s => by
    cases s
    rfl

/-- A move of several bytes. -/
theorem moves_movBytes :
    Moves .dword (fun wide data _ _ => operandSize wide data) movBytes := by
  refine moves_gen0xb0 keeps_setDflag (fun _ => rfl) fun s => ?_
  refine fetch_eq ?_
  rw [← setDflag_dflag s]
  rfl

end BinTools.X86
