import BinTools.X86Moves
import Mathlib.Tactic.IntervalCases

namespace BinTools.X86

/-!
# What no handler changes

Handlers leave the code alone and the high half of the instruction pointer.  Only
an addition of 64 bits reaches that, and only from the last address below.
-/

/-- The high half of an address. -/
def high (address : U64) : Nat :=
  address.toNat / 2 ^ 32

/-- The code and the high half of the instruction pointer. -/
def State.frame (s : State) : Machine × Nat :=
  (s.machine, high s.rip)

/-- The next address has another high half. -/
def State.AtEnd (s : State) : Prop :=
  s.rip.toNat % 2 ^ 32 = 2 ^ 32 - 1

/-! ## Routines -/

/-- Additions to 32 bits keep the high half. -/
theorem high_addLow (rip : U64) (n : Nat) :
    high (addLow 32 rip n) = high rip := by
  rw [high, addLow_toNat, high]
  omega

/-- Additions to 8 bits keep the high half. -/
theorem high_addLow_byte (rip : U64) :
    high (addLow 8 rip 1) = high rip := by
  rw [high, addLow_byte_toNat, high]
  omega

@[simp] theorem addByteRip_frame (s : State) :
    (addByteRip s).frame = s.frame := by
  have isFrame :
      (addByteRip s).frame = (s.machine, high (addLow 8 s.rip 1)) := by
    cases s
    rfl
  rw [isFrame, high_addLow_byte, State.frame]

@[simp] theorem addDwordRip_frame (n : Nat) (s : State) :
    (addDwordRip n s).frame = s.frame := by
  have isFrame :
      (addDwordRip n s).frame = (s.machine, high (addLow 32 s.rip n)) := by
    cases s
    rfl
  rw [isFrame, high_addLow, State.frame]

/-- In front of the end an addition to 64 bits does so as well. -/
theorem addQwordRip_frame {s : State} (inFront : ¬ s.AtEnd) :
    (addQwordRip s).frame = s.frame := by
  have bound := s.rip.isLt
  have isOne : (1 : U64).toNat = 1 := rfl
  have notEnd : s.rip.toNat % 2 ^ 32 ≠ 2 ^ 32 - 1 := inFront
  have isHigh : high (s.rip + 1) = high s.rip := by
    rw [high, BitVec.toNat_add, isOne, high]
    omega
  have isFrame :
      (addQwordRip s).frame = (s.machine, high (s.rip + 1)) := by
    cases s
    rfl
  rw [isFrame, isHigh, State.frame]

@[simp] theorem fetchBytes_frame (n : Nat) (s : State) :
    (fetchBytes n s).frame = s.frame := by
  rw [fetchBytes, addDwordRip_frame]
  cases s
  rfl

@[simp] theorem fetch8_frame (s : State) :
    (fetch8 s).frame = s.frame :=
  fetchBytes_frame 1 s

@[simp] theorem fetch16_frame (s : State) :
    (fetch16 s).frame = s.frame :=
  fetchBytes_frame 2 s

@[simp] theorem fetch32_frame (s : State) :
    (fetch32 s).frame = s.frame :=
  fetchBytes_frame 4 s

@[simp] theorem setImmVal_frame (s : State) :
    (setImmVal s).frame = s.frame := by
  cases s
  rfl

@[simp] theorem setMod_frame (al : UInt8) (s : State) :
    (setMod al s).frame = s.frame := by
  cases s
  rfl

@[simp] theorem setReg_frame (al bl : UInt8) (s : State) :
    (setReg al bl s).frame = s.frame := by
  cases s
  rfl

@[simp] theorem setXmmToReg_frame (al bl : UInt8) (s : State) :
    (setXmmToReg al bl s).frame = s.frame := by
  cases s
  rfl

@[simp] theorem setRm_frame (al bl : UInt8) (s : State) :
    (setRm al bl s).frame = s.frame := by
  cases s
  rfl

@[simp] theorem setXmmToRm_frame (al bl : UInt8) (s : State) :
    (setXmmToRm al bl s).frame = s.frame := by
  cases s
  rfl

@[simp] theorem setImmOpBase_frame (base : OpBase) (s : State) :
    (setImmOpBase base s).frame = s.frame := by
  cases s
  rfl

@[simp] theorem setImmOp_frame (al : UInt8) (s : State) :
    (setImmOp al s).frame = s.frame := by
  cases s
  rfl

@[simp] theorem setDflag_frame (s : State) :
    (setDflag s).frame = s.frame := by
  cases s
  rfl

@[simp] theorem setDflagAs1byte_frame (s : State) :
    (setDflagAs1byte s).frame = s.frame := by
  cases s
  rfl

@[simp] theorem setAflag_frame (s : State) :
    (setAflag s).frame = s.frame := by
  cases s
  rfl

@[simp] theorem computeScaleIndex_frame (dl : UInt8) (s : State) :
    (computeScaleIndex dl s).frame = s.frame := by
  cases s
  rfl

@[simp] theorem selectReg_frame (s : State) :
    (selectReg s).frame = s.frame := by
  cases s
  rfl

@[simp] theorem selectRm_frame (s : State) :
    (selectRm s).frame = s.frame := by
  cases s
  rfl

@[simp] theorem setRmRax_frame (s : State) :
    (setRmRax s).frame = s.frame := by
  cases s
  rfl

@[simp] theorem setRegRax_frame (s : State) :
    (setRegRax s).frame = s.frame := by
  cases s
  rfl

@[simp] theorem setRmContents_frame (s : State) :
    (setRmContents s).frame = s.frame := by
  cases s
  rfl

@[simp] theorem setMod11_frame (s : State) :
    (setMod11 s).frame = s.frame := by
  cases s
  rfl

@[simp] theorem setIsRmSrc_frame (s : State) :
    (setIsRmSrc s).frame = s.frame := by
  cases s
  rfl

@[simp] theorem setR15b_frame (s : State) :
    (setR15b s).frame = s.frame := by
  cases s
  rfl

@[simp] theorem print_frame (rdx : UInt8) (s : State) :
    (print rdx s).frame = s.frame := by
  cases s
  rfl

@[simp] theorem setImmRax_frame (s : State) :
    (setImmRax s).frame = s.frame := by
  cases s
  rfl

@[simp] theorem setImmOne_frame (s : State) :
    (setImmOne s).frame = s.frame := by
  cases s
  rfl


@[simp] theorem getModRegRm_frame (s : State) :
    (getModRegRm s).frame = s.frame := by
  simp [getModRegRm]

@[simp] theorem getModOpRm_frame (s : State) :
    (getModOpRm s).frame = s.frame := by
  simp [getModOpRm]

@[simp] theorem getModXmmRm_frame (s : State) :
    (getModXmmRm s).frame = s.frame := by
  simp [getModXmmRm]

@[simp] theorem getModXmmXmm_frame (s : State) :
    (getModXmmXmm s).frame = s.frame := by
  simp [getModXmmXmm]

@[simp] theorem resetHigher8Access_frame (s : State) :
    (resetHigher8Access s).frame = s.frame := by
  unfold resetHigher8Access
  split_ifs <;> rfl

@[simp] theorem computeBase_frame (dl : UInt8) (s : State) :
    (computeBase dl s).frame = s.frame := by
  unfold computeBase
  split_ifs <;> rfl

@[simp] theorem fetchSib_frame (index : Nat) (s : State) :
    (fetchSib index s).frame = s.frame := by
  obtain ⟨behind, _, _⟩ := behind_fetchSib index s
  rw [State.frame, behind.machine, behind.rip, high_addLow, State.frame]

@[simp] theorem setScaleIndexBase_frame (s : State) :
    (setScaleIndexBase s).frame = s.frame := by
  unfold setScaleIndexBase
  split_ifs <;> simp

@[simp] theorem fetchDisplacementByMod_frame (s : State) :
    (fetchDisplacementByMod s).frame = s.frame := by
  have behind := behind_fetchDisplacementByMod s
  rw [State.frame, behind.machine, behind.rip, high_addLow, State.frame]

@[simp] theorem operands_frame (s : State) :
    (operands s).frame = s.frame := by
  simp [operands]

@[simp] theorem loadRmByMod_frame (s : State) :
    (loadRmByMod s).frame = s.frame := by
  unfold loadRmByMod
  cases s
  dsimp only
  split_ifs <;> rfl

/-! ## Fields that handlers set themselves -/

@[simp] theorem withR15b_frame (r15b : UInt8) (s : State) :
    ({ s with r15b := r15b } : State).frame = s.frame := by
  cases s
  rfl

@[simp] theorem withOpcodeTable_frame (opcodeTable : OpcodeTable) (s : State) :
    ({ s with opcodeTable := opcodeTable } : State).frame = s.frame := by
  cases s
  rfl

@[simp] theorem withRex_frame (rex : UInt8) (s : State) :
    ({ s with rex := rex } : State).frame = s.frame := by
  cases s
  rfl

@[simp] theorem withDataPrefix_frame (dataPrefix : UInt8) (s : State) :
    ({ s with dataPrefix := dataPrefix } : State).frame = s.frame := by
  cases s
  rfl

@[simp] theorem withAddrPrefix_frame (addrPrefix : UInt8) (s : State) :
    ({ s with addrPrefix := addrPrefix } : State).frame = s.frame := by
  cases s
  rfl

@[simp] theorem withRepz_frame (repz : UInt8) (s : State) :
    ({ s with repz := repz } : State).frame = s.frame := by
  cases s
  rfl

@[simp] theorem withRepnz_frame (repnz : UInt8) (s : State) :
    ({ s with repnz := repnz } : State).frame = s.frame := by
  cases s
  rfl

@[simp] theorem withLock_frame (lock : UInt8) (s : State) :
    ({ s with lock := lock } : State).frame = s.frame := by
  cases s
  rfl

@[simp] theorem withRax_frame (rax : U64) (s : State) :
    ({ s with rax := rax } : State).frame = s.frame := by
  cases s
  rfl

@[simp] theorem withEflags_frame (eflags : U64) (s : State) :
    ({ s with eflags := eflags } : State).frame = s.frame := by
  cases s
  rfl

@[simp] theorem withImmVal_frame (immVal : U64) (s : State) :
    ({ s with immVal := immVal } : State).frame = s.frame := by
  cases s
  rfl

@[simp] theorem prefixSeg_frame (segment : Segment) (s : State) :
    (prefixSeg segment s).frame = s.frame := by
  rw [← addDwordRip_frame 1 s]
  cases s
  rfl

/-! ## Handlers -/

/-- The fetches keep the frame. -/
theorem fetchBase_frame
    {offset : UInt8} {s t : State} (fetched : fetchBase offset s = some t) :
    t.frame = s.frame := by
  unfold fetchBase at fetched
  split_ifs at fetched <;> cases fetched
  · exact fetch8_frame s
  · exact fetch16_frame s
  · exact fetch32_frame s
  · exact fetchBytes_frame 8 s

/-- What an entry of the tables keeps. -/
def Framed : Option Entry → Prop
  | none => True
  | some (.run handler) =>
      ∀ s t, ¬ s.AtEnd → handler s = some t → t.frame = s.frame
  | some (.jump handler) => ∀ s, (handler s).frame = s.frame

/-- A handler that always ends. -/
theorem framed_total
    {handler : State → Option State} {change : State → State}
    (isTotal : ∀ s, handler s = some (change s))
    (keeps : ∀ s, (change s).frame = s.frame) :
    Framed (run handler) := by
  intro s t _ ends
  rw [isTotal] at ends
  cases ends
  exact keeps s

/-- A handler that fetches a value by its size. -/
theorem framed_fetch
    {handler : State → Option State} {before after : State → State}
    (isFetch : ∀ s, handler s = (fetch (before s)).map after)
    (keepsBefore : ∀ s, (before s).frame = s.frame)
    (keepsAfter : ∀ s, (after s).frame = s.frame) :
    Framed (run handler) := by
  intro s t _ ends
  rw [isFetch] at ends
  obtain ⟨u, fetched, rfl⟩ := Option.map_eq_some_iff.mp ends
  rw [keepsAfter, fetchBase_frame fetched, keepsBefore]

/-- A handler that fetches a value of at most 32 bits. -/
theorem framed_fetchNo64
    {handler : State → Option State} {before after : State → State}
    (isFetch : ∀ s, handler s = (fetchNo64 (before s)).map after)
    (keepsBefore : ∀ s, (before s).frame = s.frame)
    (keepsAfter : ∀ s, (after s).frame = s.frame) :
    Framed (run handler) := by
  intro s t _ ends
  rw [isFetch] at ends
  obtain ⟨u, fetched, rfl⟩ := Option.map_eq_some_iff.mp ends
  rw [keepsAfter, fetchBase_frame fetched, keepsBefore]

/-- A handler that goes on with `_do01`. -/
theorem framed_do01_comp
    {handler : State → Option State} {change : State → State}
    (isHandler : ∀ s, handler s = do01 (change s))
    (same : ∀ s, (change s).machine = s.machine ∧ (change s).rip = s.rip) :
    Framed (run handler) := by
  intro s t inFront ends
  rw [isHandler] at ends
  have stillFront : ¬ (change s).AtEnd := by
    unfold State.AtEnd
    rwa [(same s).2]
  have sameFrame : (change s).frame = s.frame := by
    rw [State.frame, (same s).1, (same s).2, State.frame]
  rw [← sameFrame, ← addQwordRip_frame stillFront]
  unfold do01 at ends
  dsimp only at ends
  split_ifs at ends <;> cases ends <;> simp

/-- A handler that goes on with `_do02`. -/
theorem framed_do02_comp
    {handler : State → Option State} {change : State → State}
    (isHandler : ∀ s, handler s = do02 (change s))
    (keeps : ∀ s, (change s).frame = s.frame) :
    Framed (run handler) := by
  refine framed_fetchNo64 (fun s => isHandler s) (fun s => ?_) fun s => ?_
  · rw [addDwordRip_frame, keeps]
  · simp

/-- `_compensate_reg_f6f7` -/
theorem compensateRegF6f7_frame
    {s t : State} (ends : compensateRegF6f7 s = some t) :
    t.frame = s.frame := by
  unfold compensateRegF6f7 at ends
  split at ends
  · obtain ⟨u, fetched, rfl⟩ := Option.map_eq_some_iff.mp ends
    rw [setImmVal_frame, fetchBase_frame fetched]
  all_goals
    cases ends
    simp

/-! ## Shared handlers -/

/-- A handler that returns at once. -/
theorem framed_ret : Framed (run ret) :=
  framed_total (fun _ => rfl) fun _ => rfl

theorem framed_next : Framed (run next) :=
  framed_total (fun _ => rfl) fun s => by simp

theorem framed_prints : Framed (run prints) :=
  framed_total (fun _ => rfl) fun s => by simp

theorem framed_x00Add : Framed (run x00Add) :=
  framed_total (fun _ => rfl) fun s => by simp

theorem framed_com : Framed (run com) :=
  framed_total (fun _ => rfl) fun s => by simp

/-- Operands behind a step of 32 bits. -/
theorem framed_dwordOperands :
    Framed (run fun s => some (operands (addDwordRip 1 s))) :=
  framed_total (fun _ => rfl) fun s => by simp

/-- Operands behind a step of 8 bits. -/
theorem framed_byteOperands :
    Framed (run fun s => some (operands (addByteRip s))) :=
  framed_total (fun _ => rfl) fun s => by simp

/-- Operands of one byte behind a step of 32 bits. -/
theorem framed_dwordByteOperands : Framed (run x88Mov) :=
  framed_total (fun _ => rfl) fun s => by simp

/-- Operands of one byte behind a step of 8 bits. -/
theorem framed_byteByteOperands : Framed (run x86Xchg) :=
  framed_total (fun _ => rfl) fun s => by simp

theorem framed_do01 : Framed (run do01) :=
  framed_do01_comp (fun _ => rfl) fun _ => ⟨rfl, rfl⟩

theorem framed_do01R15b : Framed (run fun s => do01 (setR15b s)) :=
  framed_do01_comp (fun _ => rfl) fun _ => ⟨rfl, rfl⟩

theorem framed_do01RmSrc : Framed (run fun s => do01 (setIsRmSrc s)) :=
  framed_do01_comp (fun _ => rfl) fun _ => ⟨rfl, rfl⟩

theorem framed_do01Both :
    Framed (run fun s => do01 (setIsRmSrc (setR15b s))) :=
  framed_do01_comp (fun _ => rfl) fun _ => ⟨rfl, rfl⟩

theorem framed_do02 : Framed (run do02) :=
  framed_do02_comp (fun _ => rfl) fun _ => rfl

theorem framed_do02Dflag : Framed (run fun s => do02 (setDflag s)) :=
  framed_do02_comp (fun _ => rfl) fun s => by simp

theorem framed_pushPop : Framed (run pushPop) :=
  framed_total (fun _ => rfl) fun s => by simp

theorem framed_xchgInternal : Framed (run xchgInternal) :=
  framed_total (fun _ => rfl) fun s => by simp

theorem framed_fetch8Imm : Framed (run fetchAndSetImm) :=
  framed_total (fun _ => rfl) fun s => by simp

theorem framed_fetch32Imm : Framed (run xe8Call) :=
  framed_total (fun _ => rfl) fun s => by simp

theorem framed_com01 : Framed (run com01) :=
  framed_total (fun _ => rfl) fun s => by simp

theorem framed_com0f80 : Framed (run com0f80) :=
  framed_total (fun _ => rfl) fun s => by simp

theorem framed_doXmmXmm : Framed (run doXmmXmm) :=
  framed_total (fun _ => rfl) fun s => by simp

theorem framed_doXmmRm : Framed (run doXmmRm) :=
  framed_total (fun _ => rfl) fun s => by simp

theorem framed_movByte : Framed (run movByte) :=
  framed_fetch
    (fun s =>
      show
        movByte s =
          (fetch (addDwordRip 1 (setDflagAs1byte s))).map fun t =>
            selectReg (setImmVal t) from
        rfl)
    (fun s => by simp) fun s => by simp

theorem framed_movBytes : Framed (run movBytes) :=
  framed_fetch
    (fun s =>
      show
        movBytes s =
          (fetch (addDwordRip 1 (setDflag s))).map fun t =>
            selectReg (setImmVal t) from
        rfl)
    (fun s => by simp) fun s => by simp

theorem framed_setcc : Framed (run setcc) := by
  intro s t _ ends
  unfold setcc at ends
  dsimp only at ends
  split_ifs at ends <;> cases ends <;> simp

theorem framed_xf6Op : Framed (run xf6Op) := by
  intro s t _ ends
  have same := compensateRegF6f7_frame ends
  simpa using same

theorem framed_xf7Op : Framed (run xf7Op) := by
  intro s t _ ends
  have same := compensateRegF6f7_frame ends
  simpa using same

theorem framed_x0f1fHintNop : Framed (run x0f1fHintNop) := by
  intro s t _ ends
  unfold x0f1fHintNop at ends
  dsimp only at ends
  split_ifs at ends <;> cases ends <;> simp

theorem framed_x0f : Framed (jump x0f) :=
  fun s => by simp [x0f]

theorem framed_setRex : Framed (jump setRex) :=
  fun s => by simp [setRex]

/-! ## The tables -/

theorem framed_row00 : ∀ entry ∈ row00, Framed entry := by
  simp only [row00, List.forall_mem_cons]
  exact ⟨
    framed_x00Add, framed_dwordOperands,
    framed_total (fun _ => rfl) fun s => by simp,
    framed_dwordOperands,
    framed_total (fun _ => rfl) fun s => by simp,
    framed_fetchNo64 (fun _ => rfl) (fun s => by simp) fun s => by simp,
    framed_x00Add, framed_x00Add, framed_do01R15b, framed_do01,
    framed_do01Both, framed_do01RmSrc, framed_do02, framed_do02Dflag,
    framed_x00Add, framed_x0f,
    fun _ absent => absurd absent List.not_mem_nil⟩

theorem framed_row10 : ∀ entry ∈ row10, Framed entry := by
  simp only [row10, List.forall_mem_cons]
  exact ⟨
    trivial, trivial, framed_ret, framed_ret, framed_ret, framed_ret,
    framed_x00Add, framed_x00Add, framed_do01R15b, framed_do01,
    framed_do01Both, framed_do01RmSrc,
    framed_do02_comp (fun _ => rfl) fun s => by simp,
    framed_do02Dflag, framed_x00Add, framed_x0f,
    fun _ absent => absurd absent List.not_mem_nil⟩

theorem framed_row20 : ∀ entry ∈ row20, Framed entry := by
  simp only [row20, List.forall_mem_cons]
  exact ⟨
    framed_do01R15b, framed_do01, framed_do01Both, framed_do01RmSrc,
    framed_do02, framed_do02Dflag, framed_x00Add, framed_x00Add,
    framed_do01R15b, framed_do01, framed_do01Both, framed_do01RmSrc,
    framed_total (fun _ => rfl) fun s => by simp,
    framed_fetchNo64 (fun _ => rfl) (fun s => by simp) fun s => by simp,
    fun s => by simp [x2ePrefixSegCs], framed_ret,
    fun _ absent => absurd absent List.not_mem_nil⟩

theorem framed_row30 : ∀ entry ∈ row30, Framed entry := by
  simp only [row30, List.forall_mem_cons]
  exact ⟨
    framed_total (fun _ => rfl) fun s => by simp,
    framed_do01, framed_com, framed_do01RmSrc, framed_com, framed_com,
    fun s => by simp [x36PrefixSegSs], framed_x00Add, framed_do01R15b,
    framed_do01, framed_do01Both, framed_do01RmSrc,
    framed_fetch (fun _ => rfl) (fun s => by simp) fun s => by simp,
    framed_fetch (fun _ => rfl) (fun s => by simp) fun s => by simp,
    framed_x00Add, framed_x00Add,
    fun _ absent => absurd absent List.not_mem_nil⟩

theorem framed_row40 : ∀ entry ∈ row40, Framed entry := by
  simp only [row40, List.forall_mem_cons]
  exact ⟨
    framed_setRex, framed_setRex, framed_setRex, framed_setRex, framed_setRex,
    framed_setRex, framed_setRex, framed_setRex, framed_setRex, framed_setRex,
    framed_setRex, framed_setRex, framed_setRex, framed_setRex, framed_setRex,
    framed_setRex,
    fun _ absent => absurd absent List.not_mem_nil⟩

theorem framed_row50 : ∀ entry ∈ row50, Framed entry := by
  simp only [row50, List.forall_mem_cons]
  exact ⟨
    framed_pushPop, framed_pushPop, framed_pushPop, framed_pushPop,
    framed_pushPop, framed_pushPop, framed_pushPop, framed_pushPop,
    framed_pushPop, framed_pushPop, framed_pushPop, framed_pushPop,
    framed_pushPop, framed_pushPop, framed_pushPop, framed_pushPop,
    fun _ absent => absurd absent List.not_mem_nil⟩

theorem framed_row60 : ∀ entry ∈ row60, Framed entry := by
  simp only [row60, List.forall_mem_cons]
  exact ⟨
    framed_ret, framed_ret, framed_ret, framed_dwordByteOperands,
    fun s => by simp [x64PrefixSegFs], fun s => by simp [x65PrefixSegGs],
    fun s => by simp [x66PrefixData], fun s => by simp [x67PrefixAddr],
    framed_fetch32Imm, framed_ret, framed_fetch8Imm, framed_ret, framed_ret,
    framed_ret, framed_ret, framed_ret,
    fun _ absent => absurd absent List.not_mem_nil⟩

theorem framed_row70 : ∀ entry ∈ row70, Framed entry := by
  simp only [row70, List.forall_mem_cons]
  exact ⟨
    framed_fetch8Imm, framed_fetch8Imm, framed_fetch8Imm, framed_fetch8Imm,
    framed_fetch8Imm, framed_fetch8Imm, framed_fetch8Imm, framed_fetch8Imm,
    framed_fetch8Imm, framed_fetch8Imm, framed_fetch8Imm, framed_fetch8Imm,
    framed_fetch8Imm, framed_fetch8Imm, framed_fetch8Imm, framed_fetch8Imm,
    fun _ absent => absurd absent List.not_mem_nil⟩

theorem framed_row80 : ∀ entry ∈ row80, Framed entry := by
  simp only [row80, List.forall_mem_cons]
  exact ⟨
    framed_com01,
    framed_fetchNo64 (fun _ => rfl) (fun s => by simp) fun s => by simp,
    framed_com01, framed_com01, framed_byteOperands, framed_dwordOperands,
    framed_byteByteOperands, framed_byteOperands, framed_dwordByteOperands,
    framed_dwordOperands, framed_byteByteOperands, framed_byteOperands,
    trivial, framed_dwordOperands, trivial, framed_ret,
    fun _ absent => absurd absent List.not_mem_nil⟩

theorem framed_row90 : ∀ entry ∈ row90, Framed entry := by
  simp only [row90, List.forall_mem_cons]
  exact ⟨
    framed_xchgInternal, framed_xchgInternal, framed_xchgInternal,
    framed_xchgInternal, framed_xchgInternal, framed_xchgInternal,
    framed_xchgInternal, framed_xchgInternal,
    framed_total (fun _ => rfl) fun s => by simp,
    framed_next, framed_ret, framed_ret, framed_next, framed_next,
    framed_total (fun _ => rfl) fun s => by simp,
    framed_total (fun _ => rfl) fun s => by simp,
    fun _ absent => absurd absent List.not_mem_nil⟩

theorem framed_rowA0 : ∀ entry ∈ rowA0, Framed entry := by
  simp only [rowA0, List.forall_mem_cons]
  exact ⟨
    framed_total (fun _ => rfl) fun s => by simp,
    framed_total (fun _ => rfl) fun s => by simp,
    framed_total (fun _ => rfl) fun s => by simp,
    framed_total (fun _ => rfl) fun s => by simp,
    trivial, framed_next, framed_next, trivial,
    framed_total (fun _ => rfl) fun s => by simp,
    framed_total (fun _ => rfl) fun s => by simp,
    trivial,
    framed_total (fun _ => rfl) fun s => by simp,
    trivial, trivial, trivial, trivial,
    fun _ absent => absurd absent List.not_mem_nil⟩

theorem framed_rowB0 : ∀ entry ∈ rowB0, Framed entry := by
  simp only [rowB0, List.forall_mem_cons]
  exact ⟨
    framed_movByte, framed_movByte, framed_movByte, framed_movByte,
    framed_movByte, framed_movByte, framed_movByte, framed_movByte,
    framed_movBytes, framed_movBytes, framed_movBytes, framed_movBytes,
    framed_movBytes, framed_movBytes, framed_movBytes, framed_movBytes,
    fun _ absent => absurd absent List.not_mem_nil⟩

theorem framed_rowC0 : ∀ entry ∈ rowC0, Framed entry := by
  simp only [rowC0, List.forall_mem_cons]
  exact ⟨
    framed_total (fun _ => rfl) fun s => by simp,
    framed_total (fun _ => rfl) fun s => by simp,
    framed_total (fun _ => rfl) fun s => by simp,
    framed_next, framed_ret, framed_ret,
    framed_total (fun _ => rfl) fun s => by simp,
    framed_total (fun _ => rfl) fun s => by simp,
    trivial, framed_next, framed_ret, framed_ret, framed_ret, framed_ret,
    framed_ret, framed_ret,
    fun _ absent => absurd absent List.not_mem_nil⟩

theorem framed_rowD0 : ∀ entry ∈ rowD0, Framed entry := by
  simp only [rowD0, List.forall_mem_cons]
  exact ⟨
    framed_total (fun _ => rfl) fun s => by simp,
    framed_total (fun _ => rfl) fun s => by simp,
    framed_ret, framed_ret, framed_ret, framed_ret, framed_ret, framed_ret,
    framed_do01, framed_do01, framed_do01,
    framed_total (fun _ => rfl) fun s => by simp,
    framed_do01, framed_do01, framed_do01, framed_ret,
    fun _ absent => absurd absent List.not_mem_nil⟩

theorem framed_rowE0 : ∀ entry ∈ rowE0, Framed entry := by
  simp only [rowE0, List.forall_mem_cons]
  exact ⟨
    framed_prints, framed_ret, framed_ret, framed_ret, framed_ret, framed_ret,
    framed_ret, framed_prints, framed_fetch32Imm, framed_fetch32Imm,
    framed_prints,
    framed_total (fun _ => rfl) fun s => by simp,
    framed_ret, framed_ret, framed_prints, framed_prints,
    fun _ absent => absurd absent List.not_mem_nil⟩

theorem framed_rowF0 : ∀ entry ∈ rowF0, Framed entry := by
  simp only [rowF0, List.forall_mem_cons]
  exact ⟨
    fun s => by simp [xf0PrefixLock], framed_prints,
    fun s => by simp [xf2PrefixRepnz], fun s => by simp [xf3PrefixRepz],
    framed_ret, framed_ret, framed_xf6Op, framed_xf7Op, framed_prints,
    framed_ret,
    framed_total (fun _ => rfl) fun s => by simp,
    framed_total (fun _ => rfl) fun s => by simp,
    framed_total (fun _ => rfl) fun s => by simp,
    framed_prints,
    framed_total (fun _ => rfl) fun s => by simp,
    framed_total (fun _ => rfl) fun s => by simp,
    fun _ absent => absurd absent List.not_mem_nil⟩

theorem framed_row0f00 : ∀ entry ∈ row0f00, Framed entry := by
  simp only [row0f00, List.forall_mem_cons]
  exact ⟨
    trivial, trivial, trivial, trivial, trivial, framed_next, trivial,
    trivial, trivial, trivial, trivial, trivial, trivial, trivial, trivial,
    trivial,
    fun _ absent => absurd absent List.not_mem_nil⟩

theorem framed_row0f10 : ∀ entry ∈ row0f10, Framed entry := by
  simp only [row0f10, List.forall_mem_cons]
  exact ⟨
    framed_doXmmRm, framed_doXmmRm, trivial, trivial, framed_doXmmXmm,
    framed_doXmmRm, trivial, trivial, framed_ret, framed_ret, framed_ret,
    framed_ret, framed_ret, framed_ret, framed_ret, framed_x0f1fHintNop,
    fun _ absent => absurd absent List.not_mem_nil⟩

theorem framed_row0f20 : ∀ entry ∈ row0f20, Framed entry := by
  simp only [row0f20, List.forall_mem_cons]
  exact ⟨
    trivial, framed_ret, trivial, framed_ret, trivial, trivial, trivial,
    trivial, framed_doXmmRm, framed_doXmmRm, framed_ret, framed_ret,
    framed_ret, framed_ret, framed_doXmmXmm, framed_doXmmXmm,
    fun _ absent => absurd absent List.not_mem_nil⟩

theorem framed_row0f40 : ∀ entry ∈ row0f40, Framed entry := by
  simp only [row0f40, List.forall_mem_cons]
  exact ⟨
    framed_dwordOperands, framed_dwordOperands, framed_dwordOperands,
    framed_dwordOperands, framed_dwordOperands, framed_dwordOperands,
    framed_dwordOperands, framed_dwordOperands, framed_dwordOperands,
    framed_dwordOperands, framed_dwordOperands, framed_dwordOperands,
    framed_dwordOperands, framed_dwordOperands, framed_dwordOperands,
    framed_dwordOperands,
    fun _ absent => absurd absent List.not_mem_nil⟩

theorem framed_row0f50 : ∀ entry ∈ row0f50, Framed entry := by
  simp only [row0f50, List.forall_mem_cons]
  exact ⟨
    framed_doXmmXmm, framed_doXmmXmm, framed_doXmmXmm, framed_doXmmXmm,
    framed_doXmmXmm, framed_doXmmXmm, framed_doXmmXmm, framed_doXmmXmm,
    framed_doXmmXmm, framed_doXmmXmm, framed_doXmmXmm, framed_doXmmXmm,
    framed_doXmmXmm, framed_doXmmXmm, framed_doXmmXmm, framed_doXmmXmm,
    fun _ absent => absurd absent List.not_mem_nil⟩

theorem framed_row0f80 : ∀ entry ∈ row0f80, Framed entry := by
  simp only [row0f80, List.forall_mem_cons]
  exact ⟨
    framed_com0f80, framed_com0f80, framed_com0f80, framed_com0f80,
    framed_com0f80, framed_com0f80, framed_com0f80, framed_com0f80,
    framed_com0f80, framed_com0f80, framed_com0f80, framed_com0f80,
    framed_com0f80, framed_com0f80, framed_com0f80, framed_com0f80,
    fun _ absent => absurd absent List.not_mem_nil⟩

theorem framed_row0f90 : ∀ entry ∈ row0f90, Framed entry := by
  simp only [row0f90, List.forall_mem_cons]
  exact ⟨
    framed_setcc, framed_setcc, framed_setcc, framed_setcc, framed_setcc,
    framed_setcc, framed_setcc, framed_setcc, framed_setcc, framed_setcc,
    framed_setcc, framed_setcc, framed_setcc, framed_setcc, framed_setcc,
    framed_setcc,
    fun _ absent => absurd absent List.not_mem_nil⟩

theorem framed_row0fA0 : ∀ entry ∈ row0fA0, Framed entry := by
  simp only [row0fA0, List.forall_mem_cons]
  exact ⟨
    trivial, trivial, framed_next, trivial, trivial, trivial, trivial,
    trivial, trivial, trivial, trivial, trivial, trivial, trivial,
    framed_do01, trivial,
    fun _ absent => absurd absent List.not_mem_nil⟩

theorem framed_row0fB0 : ∀ entry ∈ row0fB0, Framed entry := by
  simp only [row0fB0, List.forall_mem_cons]
  exact ⟨
    framed_do01, framed_do01, trivial, trivial, trivial, trivial,
    framed_dwordByteOperands, framed_dwordOperands, trivial, trivial, trivial,
    trivial, trivial, trivial, framed_dwordByteOperands, trivial,
    fun _ absent => absurd absent List.not_mem_nil⟩

/-- Every entry of the first table. -/
theorem framed_opcodeTable : ∀ entry ∈ opcodeTable, Framed entry := by
  simp only [opcodeTable, List.forall_mem_append]
  exact
    ⟨⟨⟨⟨⟨⟨⟨⟨⟨⟨⟨⟨⟨⟨⟨framed_row00, framed_row10⟩, framed_row20⟩, framed_row30⟩,
      framed_row40⟩, framed_row50⟩, framed_row60⟩, framed_row70⟩,
      framed_row80⟩, framed_row90⟩, framed_rowA0⟩, framed_rowB0⟩,
      framed_rowC0⟩, framed_rowD0⟩, framed_rowE0⟩, framed_rowF0⟩

theorem framed_emptyRow : ∀ entry ∈ emptyRow, Framed entry := by
  intro entry member
  rw [List.eq_of_mem_replicate member]
  trivial

/-- Every entry of the second table. -/
theorem framed_extendOpcodeTable :
    ∀ entry ∈ extendOpcodeTable, Framed entry := by
  simp only [extendOpcodeTable, List.forall_mem_append]
  exact
    ⟨⟨⟨⟨⟨⟨⟨⟨⟨⟨⟨⟨⟨⟨⟨framed_row0f00, framed_row0f10⟩, framed_row0f20⟩,
      framed_emptyRow⟩, framed_row0f40⟩, framed_row0f50⟩, framed_emptyRow⟩,
      framed_emptyRow⟩, framed_row0f80⟩, framed_row0f90⟩, framed_row0fA0⟩,
      framed_row0fB0⟩, framed_emptyRow⟩, framed_emptyRow⟩, framed_emptyRow⟩,
      framed_emptyRow⟩

/-- What the table in use has at an opcode. -/
theorem State.framed_table (s : State) {k : Nat} {entry : Option Entry}
    (isEntry : s.table[k]? = some entry) : Framed entry := by
  unfold State.table at isEntry
  cases isTable : s.opcodeTable <;> rw [isTable] at isEntry
  · exact framed_opcodeTable entry (List.mem_of_getElem? isEntry)
  · exact framed_extendOpcodeTable entry (List.mem_of_getElem? isEntry)

/-! ## A prefix at the end -/

/-- The prefix 66, or a REX prefix. -/
def IsPrefix (byte : UInt8) : Prop :=
  byte = 0x66 ∨ byte &&& 0xf0 = 0x40

/-- The last address with the same high half. -/
def lastAddress (address : U64) : U64 :=
  BitVec.ofNat 64 (high address * 2 ^ 32 + (2 ^ 32 - 1))

/-- A REX prefix has one of sixteen values. -/
theorem toNat_of_rex {byte : UInt8} (isRex : byte &&& 0xf0 = 0x40) :
    ∃ i < 16, byte.toNat = 64 + i := by
  have all :
      ∀ n < 256, UInt8.ofNat n &&& 0xf0 = 0x40 → 64 ≤ n ∧ n < 80 := by
    decide +kernel
  have isOfNat := all byte.toNat byte.toNat_lt
  rw [UInt8.ofNat_toNat] at isOfNat
  obtain ⟨isBehind, isFront⟩ := isOfNat isRex
  exact ⟨byte.toNat - 64, by omega, by omega⟩

/-- The handler of a REX prefix. -/
theorem entry_rex {byte : UInt8} (isRex : byte &&& 0xf0 = 0x40) :
    opcodeTable[byte.toNat]? = some (jump setRex) ∧
      extendOpcodeTable[byte.toNat]? = some (run cmov) := by
  obtain ⟨i, inRow, isByte⟩ := toNat_of_rex isRex
  rw [isByte]
  interval_cases i <;> exact ⟨rfl, rfl⟩

/-- What stands for a prefix in either table keeps the frame at the end. -/
theorem State.frame_of_prefix
    {s : State} {byte : UInt8} (isPrefix : IsPrefix byte) :
    s.table[byte.toNat]?.join = none ∨
      (∃ handler,
        s.table[byte.toNat]?.join = some (.jump handler) ∧
          ∀ u, (handler u).frame = u.frame) ∨
        ∃ handler,
          s.table[byte.toNat]?.join = some (.run handler) ∧
            ∀ u t, handler u = some t → t.frame = u.frame := by
  have isCmov :
      ∀ u t, cmov u = some t → t.frame = u.frame := by
    intro u t ends
    cases ends
    simp
  unfold State.table
  cases s.opcodeTable
  · right
    left
    rcases isPrefix with rfl | isRex
    · exact ⟨x66PrefixData, rfl, fun u => by simp [x66PrefixData]⟩
    · refine ⟨setRex, ?_, fun u => by simp [setRex]⟩
      rw [(entry_rex isRex).1]
      rfl
  · rcases isPrefix with rfl | isRex
    · exact Or.inl rfl
    · refine Or.inr (Or.inr ⟨cmov, ?_, isCmov⟩)
      rw [(entry_rex isRex).2]
      rfl

/-- At the end of its high half an address is the last one. -/
theorem State.AtEnd.eq_lastAddress {s : State} (atEnd : s.AtEnd) :
    s.rip = lastAddress s.rip := by
  have bound := s.rip.isLt
  have isEnd : s.rip.toNat % 2 ^ 32 = 2 ^ 32 - 1 := atEnd
  apply BitVec.eq_of_toNat_eq
  rw [lastAddress, BitVec.toNat_ofNat, high]
  omega

/--
Where a prefix stands at the end of a high half, nothing that is decoded leaves
this half: an addition to all 64 bits would have to start at the prefix.
-/
theorem exec_frame
    {fuel : Nat} {s t : State}
    (isPrefix : IsPrefix (s.machine.memory (lastAddress s.rip)))
    (ends : exec fuel s = some t) :
    t.frame = s.frame := by
  induction fuel generalizing s with
  | zero => cases ends
  | succ fuel inductionHypothesis =>
      rw [exec] at ends
      obtain ⟨entry, isEntry, ends⟩ := Option.bind_eq_some_iff.mp ends
      have sameFrame : (readOpcode s).frame = s.frame := rfl
      have goesOn (u : State) (isFrame : u.frame = s.frame)
          (ends : exec fuel u = some t) : t.frame = s.frame := by
        obtain ⟨sameMachine, sameHigh⟩ := Prod.ext_iff.mp isFrame
        rw [← isFrame]
        refine inductionHypothesis ?_ ends
        have sameLast : lastAddress u.rip = lastAddress s.rip :=
          congrArg
            (fun h => BitVec.ofNat 64 (h * 2 ^ 32 + (2 ^ 32 - 1))) sameHigh
        rw [sameLast]
        have isMachine : u.machine = s.machine := sameMachine
        rw [isMachine]
        exact isPrefix
      by_cases atEnd : s.AtEnd
      · have isOpcode : (readOpcode s).opcode = s.machine.memory s.rip := rfl
        rw [isOpcode, atEnd.eq_lastAddress] at isEntry
        rcases State.frame_of_prefix (s := readOpcode s) isPrefix with
          isNone | ⟨handler, isJump, keeps⟩ | ⟨handler, isRun, keeps⟩
        · rw [isNone] at isEntry
          cases isEntry
        · rw [isJump] at isEntry
          cases isEntry
          exact goesOn _ ((keeps _).trans sameFrame) ends
        · rw [isRun] at isEntry
          cases isEntry
          exact (keeps _ _ ends).trans sameFrame
      · have framed :=
          (readOpcode s).framed_table (Option.join_eq_some_iff.mp isEntry)
        cases entry with
        | run handler => exact framed (readOpcode s) t atEnd ends
        | jump handler => exact goesOn _ (framed (readOpcode s)) ends

end BinTools.X86
