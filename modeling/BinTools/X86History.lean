import BinTools.X86Sweep
import BinTools.X86Traces

namespace BinTools.X86

/-!
# Decoding after other instructions

What the disassembler reads of an instruction does not depend on the
instructions in front of it, unless one of them left something behind that
`_clear_state` does not clear.  Both are shown for every entry of the tables.
-/

/-- The code and what selected the handler. -/
def State.head (s : State) : Machine × UInt8 × OpcodeTable :=
  (s.machine, s.opcode, s.opcodeTable)

/-- Nothing is left behind that a later instruction reads. -/
structure Untraced (s u : State) : Prop where
  rax : u.rax = s.rax
  addrPrefix : u.addrPrefix = s.addrPrefix
  r15b : s.r15b ≠ 0xff → u.r15b ≠ 0xff

/-- Nothing is written at all. -/
theorem head_untraced_of_trace
    {s u : State} (same : u.trace = s.trace) :
    u.head = s.head ∧ Untraced s u := by
  simp only [State.trace, Prod.mk.injEq] at same
  obtain ⟨isMachine, isRax, isByte, isPrefix, isOpcode, isTable⟩ := same
  refine ⟨?_, isRax, isPrefix, fun notSet => by rwa [isByte]⟩
  rw [State.head, isMachine, isOpcode, isTable, State.head]

/-- One instruction leaves nothing, and neither does the next one. -/
theorem Untraced.trans
    {s t u : State} (first : Untraced s t) (second : Untraced t u) :
    Untraced s u :=
  ⟨second.rax.trans first.rax, second.addrPrefix.trans first.addrPrefix,
    fun notSet => second.r15b (first.r15b notSet)⟩

/-! ## Entries -/

/--
What an entry shows is the same in states that agree, with the operation or
without it; a quiet one leaves nothing behind.
-/
def Handled (op quiet : Bool) : Option Entry → Prop
  | none => True
  | some (.run handler) =>
      (∀ s t, Agree false false s t →
        (handler t).map (State.shownWith op) =
          (handler s).map (State.shownWith op)) ∧
      ∀ s u, handler s = some u →
        u.head = s.head ∧ (quiet = true → Untraced s u)
  | some (.jump handler) =>
      (∀ s t, Agree false false s t →
        Agree false false (handler s) (handler t)) ∧
      (quiet = true →
        ∀ s, (handler s).trace = s.trace ∧ (handler s).rip = addLow 32 s.rip 1)

/-- A handler that always ends. -/
theorem handled_total
    {res op quiet : Bool} {handler : State → Option State}
    {change : State → State} (isTotal : ∀ s, handler s = some (change s))
    (agrees :
      ∀ {s t}, Agree false false s t → Agree res op (change s) (change t))
    (traces : ∀ s, (change s).trace = s.trace) :
    Handled op quiet (run handler) := by
  refine ⟨fun s t agree => ?_, fun s u ends => ?_⟩
  · rw [isTotal, isTotal, Option.map_some, Option.map_some,
      (agrees agree).shownWith_eq]
  · rw [isTotal] at ends
    cases ends
    obtain ⟨sameHead, untraced⟩ := head_untraced_of_trace (traces s)
    exact ⟨sameHead, fun _ => untraced⟩

/-- The fetches of states that agree. -/
theorem Agree.map_fetchBase
    {res op : Bool} {s t : State} (agree : Agree res op s t) (offset : UInt8)
    {after : State → State}
    (agrees : ∀ {s t}, Agree true op s t → Agree true op (after s) (after t)) :
    ((X86.fetchBase offset t).map after).map (State.shownWith op) =
      ((X86.fetchBase offset s).map after).map (State.shownWith op) := by
  rcases agree.fetchBase offset with ⟨isNone, isNoneToo⟩ | ⟨u, v, isU, isV, same⟩
  · rw [isNone, isNoneToo]
  · rw [isU, isV]
    exact congrArg some (agrees same).shownWith_eq

/-- A handler that fetches a value of a size that its operands have. -/
theorem handled_fetchBase
    {res op quiet : Bool} {handler : State → Option State}
    {before after : State → State} (offsetOf : UInt8 → UInt8)
    (isFetch :
      ∀ s,
        handler s =
          (X86.fetchBase (offsetOf (before s).dflag) (before s)).map after)
    (agreesBefore :
      ∀ {s t}, Agree false false s t → Agree res op (before s) (before t))
    (agreesAfter :
      ∀ {s t}, Agree true op s t → Agree true op (after s) (after t))
    (tracesBefore : ∀ s, (before s).trace = s.trace)
    (tracesAfter : ∀ s, (after s).trace = s.trace) :
    Handled op quiet (run handler) := by
  refine ⟨fun s t agree => ?_, fun s u ends => ?_⟩
  · rw [isFetch, isFetch, (agreesBefore agree).dflag_eq]
    exact (agreesBefore agree).map_fetchBase _ agreesAfter
  · rw [isFetch] at ends
    obtain ⟨v, fetched, rfl⟩ := Option.map_eq_some_iff.mp ends
    have sameTrace : (after v).trace = s.trace :=
      ((tracesAfter v).trans (fetchBase_trace fetched)).trans (tracesBefore s)
    obtain ⟨sameHead, untraced⟩ := head_untraced_of_trace sameTrace
    exact ⟨sameHead, fun _ => untraced⟩

/-- A handler that fetches a value by its size. -/
theorem handled_fetch
    {res op quiet : Bool} {handler : State → Option State}
    {before after : State → State}
    (isFetch : ∀ s, handler s = (fetch (before s)).map after)
    (agreesBefore :
      ∀ {s t}, Agree false false s t → Agree res op (before s) (before t))
    (agreesAfter :
      ∀ {s t}, Agree true op s t → Agree true op (after s) (after t))
    (tracesBefore : ∀ s, (before s).trace = s.trace)
    (tracesAfter : ∀ s, (after s).trace = s.trace) :
    Handled op quiet (run handler) :=
  handled_fetchBase (fun dflag => dflag)
    isFetch agreesBefore agreesAfter tracesBefore tracesAfter

/-- A handler that fetches a value of at most 32 bits. -/
theorem handled_fetchNo64
    {res op quiet : Bool} {handler : State → Option State}
    {before after : State → State}
    (isFetch : ∀ s, handler s = (fetchNo64 (before s)).map after)
    (agreesBefore :
      ∀ {s t}, Agree false false s t → Agree res op (before s) (before t))
    (agreesAfter :
      ∀ {s t}, Agree true op s t → Agree true op (after s) (after t))
    (tracesBefore : ∀ s, (before s).trace = s.trace)
    (tracesAfter : ∀ s, (after s).trace = s.trace) :
    Handled op quiet (run handler) :=
  handled_fetchBase (fun dflag => if dflag = 0x18 then dflag - 0x08 else dflag)
    isFetch agreesBefore agreesAfter tracesBefore tracesAfter

/-- A handler of a prefix. -/
theorem handled_prefix
    {op quiet : Bool} {handler : State → State}
    (agrees :
      ∀ {s t}, Agree false false s t →
        Agree false false (handler s) (handler t))
    (traces : ∀ s, (handler s).trace = s.trace)
    (moves : ∀ s, (handler s).rip = addLow 32 s.rip 1) :
    Handled op quiet (jump handler) :=
  ⟨fun _ _ => agrees, fun _ s => ⟨traces s, moves s⟩⟩

/-! ## The host register -/

/-- The size of one byte, where the host register asks for it. -/
def takeR15b (s : State) : State :=
  if s.r15b = 0xff then setDflagAs1byte { s with r15b := 0 } else s

/-- What `_do01` and the handlers of `setcc` have in common. -/
def withR15b (s : State) : State :=
  s |> getModRegRm |> takeR15b |> setScaleIndexBase |> fetchDisplacementByMod

theorem Agree.takeR15b
    {res op : Bool} {s t : State} (agree : Agree res op s t) :
    Agree res op (takeR15b s) (takeR15b t) := by
  have sameTest : t.r15b = 0xff ↔ s.r15b = 0xff := by
    obtain ⟨x, rfl, like⟩ := agree
    exact like.r15b
  unfold X86.takeR15b
  by_cases isSet : s.r15b = 0xff
  · rw [if_pos isSet, if_pos (sameTest.mpr isSet)]
    exact (agree.withR15b 0).setDflagAs1byte
  · rw [if_neg isSet, if_neg fun setToo => isSet (sameTest.mp setToo)]
    exact agree

/-- The register is not ff afterwards, and nothing else is written. -/
theorem withR15b_leaves
    (s : State) :
    (withR15b s).head = s.head ∧ (withR15b s).rax = s.rax ∧
      (withR15b s).addrPrefix = s.addrPrefix ∧ (withR15b s).r15b ≠ 0xff := by
  have takes (u : State) :
      (takeR15b u).head = u.head ∧ (takeR15b u).rax = u.rax ∧
        (takeR15b u).addrPrefix = u.addrPrefix ∧ (takeR15b u).r15b ≠ 0xff := by
    unfold takeR15b
    by_cases isSet : u.r15b = 0xff
    · rw [if_pos isSet]
      exact ⟨rfl, rfl, rfl, show (0 : UInt8) ≠ 0xff by decide⟩
    · rw [if_neg isSet]
      exact ⟨rfl, rfl, rfl, isSet⟩
  obtain ⟨sameHead, first⟩ := head_untraced_of_trace (getModRegRm_trace s)
  obtain ⟨takesHead, takesRax, takesPrefix, notSet⟩ := takes (getModRegRm s)
  obtain ⟨endsHead, last⟩ :=
    head_untraced_of_trace
      ((fetchDisplacementByMod_trace _).trans
        (setScaleIndexBase_trace (takeR15b (getModRegRm s))))
  exact ⟨endsHead.trans (takesHead.trans sameHead),
    last.rax.trans (takesRax.trans first.rax),
    last.addrPrefix.trans (takesPrefix.trans first.addrPrefix),
    last.r15b notSet⟩

/-- A handler with a byte in the host register. -/
theorem handled_withR15b
    {quiet : Bool} {handler : State → Option State} {change : State → State}
    (isHandler : ∀ s, handler s = some (withR15b (change s)))
    (agrees :
      ∀ {s t}, Agree false false s t →
        Agree false false (change s) (change t))
    (keeps :
      ∀ s,
        (change s).head = s.head ∧ (change s).rax = s.rax ∧
          (change s).addrPrefix = s.addrPrefix) :
    Handled false quiet (run handler) := by
  refine ⟨fun s t agree => ?_, fun s u ends => ?_⟩
  · have ends :=
      (agrees agree).getModRegRm.takeR15b.setScaleIndexBase.fetchDisplacementByMod
    rw [isHandler, isHandler]
    exact congrArg some ends.shownWith_eq
  · rw [isHandler] at ends
    cases ends
    obtain ⟨sameHead, sameRax, samePrefix⟩ := keeps s
    obtain ⟨endsHead, endsRax, endsPrefix, notSet⟩ :=
      withR15b_leaves (change s)
    exact ⟨endsHead.trans sameHead, fun _ =>
      ⟨endsRax.trans sameRax, endsPrefix.trans samePrefix, fun _ => notSet⟩⟩

/-! ## Values and flags -/

/-- An immediate value of the old one and the result. -/
def withImm (read : U64 → U64 → U64) (s : State) : State :=
  { s with immVal := read s.immVal s.res }

@[simp] theorem withImm_trace (read : U64 → U64 → U64) (s : State) :
    (withImm read s).trace = s.trace := by
  cases s
  rfl

theorem Agree.withImm
    {op : Bool} {s t : State} (agree : Agree true op s t)
    (read : U64 → U64 → U64) :
    Agree true op (withImm read s) (withImm read t) := by
  obtain ⟨x, rfl, like⟩ := agree
  have sameRes : (s.withStale x).res = s.res := like.res rfl
  refine ⟨x, ?_, like⟩
  exact
    congrArg (fun res => { s.withStale x with immVal := read s.immVal res })
      sameRes

theorem Agree.setImmRax
    {op : Bool} {s t : State} (agree : Agree true op s t) :
    Agree true op (setImmRax s) (setImmRax t) :=
  agree.setImmVal.setRmRax.setMod11

/-- Other flags. -/
def withEflags (eflags : U64) (s : State) : State :=
  { s with eflags := eflags }

/-- The flags do not matter. -/
theorem Agree.withEflags
    {res op : Bool} {s t : State} (agree : Agree res op s t) (e f : U64) :
    Agree res op (withEflags e s) (withEflags f t) := by
  obtain ⟨x, rfl, like⟩ := agree
  exact ⟨{ x with eflags := f }, rfl, like.rax, like.r15b, like.sibParts, like.res,
    like.immOp⟩

@[simp] theorem withEflags_trace (eflags : U64) (s : State) :
    (withEflags eflags s).trace = s.trace := by
  cases s
  rfl

/-- Other contents of the virtual `rax`. -/
def withRax (rax : U64) (s : State) : State :=
  { s with rax := rax }

/-- They are not shown. -/
theorem withRax_shownWith (op : Bool) (rax : U64) (s : State) :
    (withRax rax s).shownWith op = s.shownWith op := by
  cases s
  rfl

theorem withRax_head (rax : U64) (s : State) :
    (withRax rax s).head = s.head := by
  cases s
  rfl

/-- The address is the same. -/
theorem Agree.rip_eq
    {res op : Bool} {s t : State} (agree : Agree res op s t) :
    t.rip = s.rip := by
  obtain ⟨x, rfl, -⟩ := agree
  rfl

/-- The code is the same. -/
theorem Agree.machine_eq
    {res op : Bool} {s t : State} (agree : Agree res op s t) :
    t.machine = s.machine := by
  obtain ⟨x, rfl, -⟩ := agree
  rfl

/-- The loaded value is known. -/
theorem Agree.loadRmByMod
    {op : Bool} {s t : State} (agree : Agree true op s t) :
    Agree true op (loadRmByMod s) (loadRmByMod t) := by
  have loads {s t : State} (agree : Agree true op s t) :
      Agree true op { s with res := s.machine.loaded s.mod s.dflag s.rm }
        { t with res := t.machine.loaded t.mod t.dflag t.rm } := by
    obtain ⟨x, rfl, like⟩ := agree
    exact
      ⟨{ x with res := s.machine.loaded s.mod s.dflag s.rm }, rfl, like.rax,
        like.r15b, like.sibParts, fun _ => rfl, like.immOp⟩
  unfold X86.loadRmByMod
  dsimp only
  rw [agree.mod_eq, agree.machine_eq]
  split_ifs
  · exact loads (agree.withR15b _)
  · exact loads agree

theorem print_head (rdx : UInt8) (s : State) : (print rdx s).head = s.head := by
  cases s
  rfl

theorem loadRmByMod_head (s : State) : (loadRmByMod s).head = s.head := by
  unfold loadRmByMod
  cases s
  dsimp only
  split_ifs <;> rfl

/-! ## Shared handlers -/

variable {quiet : Bool}

theorem handled_ret : Handled false quiet (run ret) :=
  handled_total (fun _ => rfl) (fun agree => agree) fun _ => rfl

theorem handled_next : Handled false quiet (run next) :=
  handled_total (fun _ => rfl) (fun agree => agree.addDwordRip 1)
    fun s => by simp

/-- A handler that writes something which later instructions read. -/
theorem handled_loud
    {handler : State → Option State} {change : State → State}
    (isTotal : ∀ s, handler s = some (change s))
    (agrees :
      ∀ {s t}, Agree false false s t →
        (change t).shownWith false = (change s).shownWith false)
    (heads : ∀ s, (change s).head = s.head) :
    Handled false false (run handler) := by
  refine ⟨fun s t agree => ?_, fun s u ends => ?_⟩
  · rw [isTotal, isTotal, Option.map_some, Option.map_some, agrees agree]
  · rw [isTotal] at ends
    cases ends
    exact ⟨heads s, nofun⟩

theorem handled_prints : Handled false false (run prints) :=
  handled_loud (fun _ => rfl)
    (fun agree => by
      rw [agree.rip_eq]
      exact (agree.withR15b _).shownWith_eq)
    fun _ => rfl

theorem handled_x00Add : Handled false quiet (run x00Add) :=
  handled_total (fun _ => rfl)
    (fun agree =>
      agree.addByteRip.getModRegRm.resetHigher8Access.setScaleIndexBase
        |>.fetchDisplacementByMod)
    fun s => by simp

theorem handled_com : Handled false quiet (run com) :=
  handled_total (fun _ => rfl) (fun agree => agree.operands) fun s => by simp

/-- Operands behind a step of 32 bits. -/
theorem handled_dwordOperands :
    Handled false quiet (run fun s => some (operands (addDwordRip 1 s))) :=
  handled_total (fun _ => rfl) (fun agree => (agree.addDwordRip 1).operands)
    fun s => by simp

/-- Operands behind a step of 8 bits. -/
theorem handled_byteOperands :
    Handled false quiet (run fun s => some (operands (addByteRip s))) :=
  handled_total (fun _ => rfl) (fun agree => agree.addByteRip.operands)
    fun s => by simp

/-- Operands of one byte behind a step of 32 bits. -/
theorem handled_dwordByteOperands : Handled false quiet (run x88Mov) :=
  handled_total (fun _ => rfl)
    (fun agree =>
      (agree.addDwordRip 1).getModRegRm.setDflagAs1byte.setScaleIndexBase
        |>.fetchDisplacementByMod)
    fun s => by simp

/-- Operands of one byte behind a step of 8 bits. -/
theorem handled_byteByteOperands : Handled false quiet (run x86Xchg) :=
  handled_total (fun _ => rfl)
    (fun agree =>
      agree.addByteRip.getModRegRm.setDflagAs1byte.setScaleIndexBase
        |>.fetchDisplacementByMod)
    fun s => by simp

theorem handled_do01 : Handled false quiet (run do01) :=
  handled_withR15b (fun _ => rfl) (fun agree => agree.addQwordRip)
    fun _ => ⟨rfl, rfl, rfl⟩

theorem handled_do01R15b : Handled false quiet (run fun s => do01 (setR15b s)) :=
  handled_withR15b (fun _ => rfl)
    (fun agree => (agree.withR15b 0xff).addQwordRip) fun _ => ⟨rfl, rfl, rfl⟩

theorem handled_do01RmSrc :
    Handled false quiet (run fun s => do01 (setIsRmSrc s)) :=
  handled_withR15b (fun _ => rfl) (fun agree => agree.setIsRmSrc.addQwordRip)
    fun _ => ⟨rfl, rfl, rfl⟩

theorem handled_do01Both :
    Handled false quiet (run fun s => do01 (setIsRmSrc (setR15b s))) :=
  handled_withR15b (fun _ => rfl)
    (fun agree => (agree.withR15b 0xff).setIsRmSrc.addQwordRip)
    fun _ => ⟨rfl, rfl, rfl⟩

/-- `setcc` takes the host register in another order. -/
theorem setcc_eq (s : State) : setcc s = some (withR15b (addDwordRip 1 s)) := by
  unfold setcc withR15b
  generalize getModRegRm (addDwordRip 1 s) = u
  rfl

theorem handled_setcc : Handled false quiet (run setcc) :=
  handled_withR15b setcc_eq (fun agree => agree.addDwordRip 1) fun s => by
    obtain ⟨sameHead, untraced⟩ :=
      head_untraced_of_trace (addDwordRip_trace 1 s)
    exact ⟨sameHead, untraced.rax, untraced.addrPrefix⟩

/-- A handler that goes on with `_do02`. -/
theorem handled_do02_comp
    {handler : State → Option State} {change : State → State}
    (isHandler : ∀ s, handler s = do02 (change s))
    (agrees :
      ∀ {s t}, Agree false false s t →
        Agree false false (change s) (change t))
    (traces : ∀ s, (change s).trace = s.trace) :
    Handled false quiet (run handler) := by
  refine
    handled_fetchNo64 (fun s => isHandler s)
      (fun agree => (agrees agree).addDwordRip 1)
      (fun agree => agree.setImmVal.setRegRax) (fun s => ?_) fun s => ?_
  · rw [addDwordRip_trace, traces]
  · simp

theorem handled_do02 : Handled false quiet (run do02) :=
  handled_do02_comp (fun _ => rfl) (fun agree => agree) fun _ => rfl

theorem handled_do02Dflag : Handled false quiet (run fun s => do02 (setDflag s)) :=
  handled_do02_comp (fun _ => rfl) (fun agree => agree.setDflag)
    fun s => by simp

theorem handled_pushPop : Handled false quiet (run pushPop) :=
  handled_total (fun _ => rfl) (fun agree => (agree.addDwordRip 1).selectReg)
    fun s => by simp

theorem handled_xchgInternal : Handled false quiet (run xchgInternal) :=
  handled_total (fun _ => rfl)
    (fun agree =>
      (agree.addDwordRip 1).setDflag.setMod11.selectRm.setRegRax)
    fun s => by simp

theorem handled_fetch8Imm : Handled false quiet (run fetchAndSetImm) :=
  handled_total (fun _ => rfl)
    (fun agree => (agree.addDwordRip 1).fetch8.setImmVal) fun s => by simp

theorem handled_fetch32Imm : Handled false quiet (run xe8Call) :=
  handled_total (fun _ => rfl)
    (fun agree => (agree.addDwordRip 1).fetch32.setImmVal) fun s => by simp

theorem handled_com01 : Handled true quiet (run com01) :=
  handled_total (fun _ => rfl)
    (fun agree =>
      ((agree.addDwordRip 1).setImmOpBase .op01).getModOpRm.setScaleIndexBase
        |>.fetchDisplacementByMod.fetch8.setImmVal)
    fun s => by simp

/-- `__com` of the second table sets the low half of the value. -/
theorem com0f80_eq (s : State) :
    com0f80 s =
      some
        (withImm (fun immVal res => setDword immVal res.toNat)
          (fetch32 (addDwordRip 1 s))) := by
  unfold com0f80
  generalize fetch32 (addDwordRip 1 s) = u
  rfl

theorem handled_com0f80 : Handled false quiet (run com0f80) :=
  handled_total com0f80_eq
    (fun agree =>
      (agree.addDwordRip 1).fetch32.withImm fun immVal res =>
        setDword immVal res.toNat)
    fun s => by simp

theorem handled_doXmmXmm : Handled false quiet (run doXmmXmm) :=
  handled_total (fun _ => rfl)
    (fun agree =>
      (agree.addDwordRip 1).getModXmmXmm.setScaleIndexBase
        |>.fetchDisplacementByMod)
    fun s => by simp

theorem handled_doXmmRm : Handled false quiet (run doXmmRm) :=
  handled_total (fun _ => rfl)
    (fun agree =>
      (agree.addDwordRip 1).getModXmmRm.setScaleIndexBase
        |>.fetchDisplacementByMod)
    fun s => by simp

theorem handled_movByte : Handled false quiet (run movByte) :=
  handled_fetch
    (fun s =>
      show
        movByte s =
          (fetch (addDwordRip 1 (setDflagAs1byte s))).map fun t =>
            selectReg (setImmVal t) from
        rfl)
    (fun agree => agree.setDflagAs1byte.addDwordRip 1)
    (fun agree => agree.setImmVal.selectReg) (fun s => by simp) fun s => by simp

theorem handled_movBytes : Handled false quiet (run movBytes) :=
  handled_fetch
    (fun s =>
      show
        movBytes s =
          (fetch (addDwordRip 1 (setDflag s))).map fun t =>
            selectReg (setImmVal t) from
        rfl)
    (fun agree => agree.setDflag.addDwordRip 1)
    (fun agree => agree.setImmVal.selectReg) (fun s => by simp) fun s => by simp

/-- What the operation selects is known. -/
theorem Agree.map_compensateRegF6f7
    {s t : State} (agree : Agree true true s t) :
    (compensateRegF6f7 t).map (State.shownWith true) =
      (compensateRegF6f7 s).map (State.shownWith true) := by
  have sameOp : immOpF6 t = immOpF6 s := by
    obtain ⟨x, rfl, like⟩ := agree
    rw [immOpF6, immOpF6,
      show (s.withStale x).immOp = s.immOp from like.immOp rfl]
  unfold compensateRegF6f7
  rw [sameOp]
  split
  · rw [fetch, fetch, agree.dflag_eq]
    exact agree.map_fetchBase _ Agree.setImmVal
  · exact congrArg some agree.shownWith_eq
  · exact congrArg some agree.shownWith_eq
  · exact congrArg some agree.setRegRax.shownWith_eq

/-- `_compensate_reg_f6f7` -/
theorem compensateRegF6f7_trace
    {s t : State} (ends : compensateRegF6f7 s = some t) :
    t.trace = s.trace := by
  unfold compensateRegF6f7 at ends
  split at ends
  · obtain ⟨u, fetched, rfl⟩ := Option.map_eq_some_iff.mp ends
    rw [setImmVal_trace, fetchBase_trace fetched]
  all_goals
    cases ends
    simp

theorem handled_xf6Op : Handled true quiet (run xf6Op) := by
  refine ⟨fun s t agree => ?_, fun s u ends => ?_⟩
  · have known := ((agree.addDwordRip 1).setImmOpBase .f6).getModOpRm
    exact
      known.setDflagAs1byte.setScaleIndexBase.fetchDisplacementByMod
        |>.map_compensateRegF6f7
  · obtain ⟨sameHead, untraced⟩ :=
      head_untraced_of_trace (s := s)
        ((compensateRegF6f7_trace ends).trans (by simp))
    exact ⟨sameHead, fun _ => untraced⟩

theorem handled_xf7Op : Handled true quiet (run xf7Op) := by
  refine ⟨fun s t agree => ?_, fun s u ends => ?_⟩
  · have known := ((agree.addDwordRip 1).setImmOpBase .f6).getModOpRm
    exact known.setScaleIndexBase.fetchDisplacementByMod.map_compensateRegF6f7
  · obtain ⟨sameHead, untraced⟩ :=
      head_untraced_of_trace (s := s)
        ((compensateRegF6f7_trace ends).trans (by simp))
    exact ⟨sameHead, fun _ => untraced⟩

/-- The steps of `_0x0f1f_hint_nop` behind its opcode. -/
def hintNopSteps (s : State) : State :=
  let al := s.machine.memory s.rip
  if al = 0x00 then addDwordRip 1 s
  else if al < 0x80 then
    if al = 0x40 then addDwordRip 2 s else addDwordRip 2 (addDwordRip 1 s)
  else if al = 0x80 ∧ s.dataPrefix ≠ 0xff then addDwordRip 5 s
  else addDwordRip 5 (addDwordRip 1 s)

theorem x0f1fHintNop_eq (s : State) :
    x0f1fHintNop s = some (hintNopSteps (addDwordRip 1 s)) := by
  unfold x0f1fHintNop hintNopSteps
  generalize addDwordRip 1 s = u
  dsimp only
  split_ifs <;> rfl

@[simp] theorem hintNopSteps_trace (s : State) :
    (hintNopSteps s).trace = s.trace := by
  unfold hintNopSteps
  dsimp only
  split_ifs <;> simp

theorem Agree.hintNopSteps
    {res op : Bool} {s t : State} (agree : Agree res op s t) :
    Agree res op (hintNopSteps s) (hintNopSteps t) := by
  have sameData : t.dataPrefix = s.dataPrefix := by
    obtain ⟨x, rfl, -⟩ := agree
    rfl
  unfold X86.hintNopSteps
  dsimp only
  rw [agree.machine_eq, agree.rip_eq, sameData]
  split_ifs
  · exact agree.addDwordRip 1
  · exact agree.addDwordRip 2
  · exact (agree.addDwordRip 1).addDwordRip 2
  · exact agree.addDwordRip 5
  · exact (agree.addDwordRip 1).addDwordRip 5

theorem handled_x0f1fHintNop : Handled false quiet (run x0f1fHintNop) :=
  handled_total x0f1fHintNop_eq (fun agree => (agree.addDwordRip 1).hintNopSteps)
    fun s => by simp

/-- `_0x9e_sahf` copies the virtual `rax`. -/
theorem x9eSahf_eq (s : State) :
    x9eSahf s = some (withEflags s.rax (addDwordRip 1 s)) := by
  cases s
  rfl

/-- `_0x9f_lahf` copies the flags. -/
theorem x9fLahf_eq (s : State) :
    x9fLahf s =
      some
        (withRax (BitVec.ofNat 64 (s.eflags.toNat % 2 ^ 8 * 2 ^ 8))
          (addDwordRip 1 s)) := by
  cases s
  rfl

/-- `_0xfb_sti` sets a flag. -/
theorem xfbSti_eq (s : State) :
    xfbSti s = some (withEflags (s.eflags ||| 0x0400) (addDwordRip 1 s)) := by
  cases s
  rfl

/-- `_0xfc_cld` clears a flag. -/
theorem xfcCld_eq (s : State) :
    xfcCld s = some (withEflags (s.eflags &&& ~~~0x0400) (addDwordRip 1 s)) := by
  cases s
  rfl

/-- `_0xa8_test` takes the low byte. -/
theorem xa8Test_eq (s : State) :
    xa8Test s =
      some
        (withImm (fun _ res => BitVec.ofNat 64 (UInt8.ofNat res.toNat).toNat)
          (fetch8 (setRmRax (setDflagAs1byte (addDwordRip 1 s))))) := by
  unfold xa8Test
  generalize fetch8 (setRmRax (setDflagAs1byte (addDwordRip 1 s))) = u
  rfl

/-- `_0xa9_test` takes the low half. -/
theorem xa9Test_eq (s : State) :
    xa9Test s =
      some
        (withImm (fun _ res => BitVec.ofNat 64 (res.toNat % 2 ^ 32))
          (fetch32 (setRmRax (setDflag (setMod11 (addDwordRip 1 s)))))) := by
  unfold xa9Test
  generalize fetch32 (setRmRax (setDflag (setMod11 (addDwordRip 1 s)))) = u
  rfl

/-- `_0xeb_jmp` sets the low byte of the value. -/
theorem xebJmp_eq (s : State) :
    xebJmp s =
      some
        (withImm (fun immVal res => setByte immVal (UInt8.ofNat res.toNat))
          (fetch8 (addDwordRip 1 s))) := by
  unfold xebJmp
  generalize fetch8 (addDwordRip 1 s) = u
  rfl

/-- `_0x0f` is not quiet: the next opcode is looked up in the second table. -/
theorem handled_x0f : Handled false false (jump x0f) :=
  ⟨fun _ _ agree =>
    (agree.addDwordRip 1).map (fun s => { s with opcodeTable := .extend })
      (fun _ _ => rfl) (fun _ => rfl) fun _ => rfl,
    nofun⟩

/-- A handler of a prefix that sets a field. -/
theorem handled_set
    {handler : State → State} (set : State → State)
    (isHandler : ∀ s, handler s = set (addDwordRip 1 s))
    (agrees :
      ∀ {s t}, Agree false false s t → Agree false false (set s) (set t))
    (traces : ∀ s, (set s).trace = s.trace) (stays : ∀ s, (set s).rip = s.rip) :
    Handled false quiet (jump handler) := by
  refine handled_prefix (fun agree => ?_) (fun s => ?_) fun s => ?_
  · rw [isHandler, isHandler]
    exact agrees (agree.addDwordRip 1)
  · rw [isHandler, traces, addDwordRip_trace]
  · rw [isHandler, stays]
    rfl

theorem handled_setRex : Handled false quiet (jump setRex) :=
  handled_set (fun s => { s with rex := s.opcode })
    (fun s => by
      cases s
      rfl)
    (fun agree =>
      agree.map (fun s => { s with rex := s.opcode }) (fun _ _ => rfl)
        (fun _ => rfl) fun _ => rfl)
    (fun _ => rfl) fun _ => rfl

theorem handled_prefixSeg (segment : Segment) :
    Handled false quiet (jump (prefixSeg segment)) :=
  handled_set
    (fun s => { s with override := 0xff, overrideReg := some segment })
    (fun s => by
      cases s
      rfl)
    (fun agree => by
      obtain ⟨x, rfl, like⟩ := agree
      exact
        ⟨{ x with override := 0xff, overrideReg := some segment }, rfl, like.rax,
          like.r15b, like.sibParts, like.res, like.immOp⟩)
    (fun _ => rfl) fun _ => rfl

/-! ## The tables -/

/--
The opcodes whose handlers leave something behind, those of `_0x0f`, and those
whose handlers run on guest data.
-/
def loudOpcodes : List Nat :=
  [0x02, 0x0f, 0x10, 0x11, 0x1f, 0x30, 0x67, 0x9f, 0xa7, 0xae, 0xaf, 0xc8, 0xe0,
    0xe7, 0xea, 0xee, 0xef, 0xf1, 0xf8, 0xfa, 0xfd]

/-- The operation is read behind this opcode. -/
def operatesAt (k : Nat) : Bool :=
  k ∈ immOpOpcodes

/-- The handler of this opcode leaves nothing behind. -/
def quietAt (k : Nat) : Bool :=
  k ∉ loudOpcodes

/-- What is shown of each entry of a row, by its index. -/
def RowHandled (base : Nat) (row : List (Option Entry)) : Prop :=
  ∀ p ∈ row.zipIdx base, Handled (operatesAt p.2) (quietAt p.2) p.1

theorem handled_row00 : RowHandled 0x00 row00 := by
  simp only [RowHandled, row00, List.zipIdx_cons, List.forall_mem_cons]
  exact ⟨
    handled_x00Add, handled_dwordOperands,
    handled_loud (fun _ => rfl)
      (fun agree => (agree.addDwordRip 1).operands.loadRmByMod.shownWith_eq)
      fun s => by
        rw [loadRmByMod_head,
          (head_untraced_of_trace (s := s) (by simp)).1],
    handled_dwordOperands,
    handled_total (fun _ => rfl)
      (fun agree => agree.addByteRip.fetch8) fun s => by simp,
    handled_fetchNo64 (fun _ => rfl)
      (fun agree => (agree.addDwordRip 1).setDflag)
      (fun agree => agree.setImmVal.setRmContents) (fun s => by simp)
      fun s => by simp,
    handled_x00Add, handled_x00Add, handled_do01R15b, handled_do01,
    handled_do01Both, handled_do01RmSrc, handled_do02, handled_do02Dflag,
    handled_x00Add, handled_x0f,
    fun _ absent => absurd absent List.not_mem_nil⟩

theorem handled_row10 : RowHandled 0x10 row10 := by
  simp only [RowHandled, row10, List.zipIdx_cons, List.forall_mem_cons]
  exact ⟨
    trivial, trivial, handled_ret, handled_ret, handled_ret, handled_ret,
    handled_x00Add, handled_x00Add, handled_do01R15b, handled_do01,
    handled_do01Both, handled_do01RmSrc,
    handled_do02_comp (fun _ => rfl) (fun agree => agree.setDflagAs1byte)
      fun s => by simp,
    handled_do02Dflag, handled_x00Add, handled_x0f,
    fun _ absent => absurd absent List.not_mem_nil⟩

theorem handled_row20 : RowHandled 0x20 row20 := by
  simp only [RowHandled, row20, List.zipIdx_cons, List.forall_mem_cons]
  exact ⟨
    handled_do01R15b, handled_do01, handled_do01Both, handled_do01RmSrc,
    handled_do02, handled_do02Dflag, handled_x00Add, handled_x00Add,
    handled_do01R15b, handled_do01, handled_do01Both, handled_do01RmSrc,
    handled_total (fun _ => rfl)
      (fun agree => agree.addByteRip.setDflag.fetch8.setImmVal.setRmContents)
      fun s => by simp,
    handled_fetchNo64 (fun _ => rfl) (fun agree => agree.addByteRip.setDflag)
      (fun agree => agree.setImmVal.setRmRax) (fun s => by simp) fun s => by simp,
    handled_prefix (fun agree => agree.addDwordRip 1)
      (fun s => addDwordRip_trace 1 s) fun _ => rfl,
    handled_ret,
    fun _ absent => absurd absent List.not_mem_nil⟩

theorem handled_row30 : RowHandled 0x30 row30 := by
  simp only [RowHandled, row30, List.zipIdx_cons, List.forall_mem_cons]
  exact ⟨
    handled_loud (fun _ => rfl)
      (fun agree => (agree.withR15b 0xff).addByteRip.operands.shownWith_eq)
      fun s => (head_untraced_of_trace (s := setR15b s) (by simp)).1,
    handled_do01, handled_com, handled_do01RmSrc, handled_com, handled_com,
    handled_prefixSeg _, handled_x00Add, handled_do01R15b, handled_do01,
    handled_do01Both, handled_do01RmSrc,
    handled_fetch (fun _ => rfl)
      (fun agree => (agree.addDwordRip 1).setMod11.setRmRax.setDflagAs1byte)
      (fun agree => agree.setImmVal) (fun s => by simp) fun s => by simp,
    handled_fetch (fun _ => rfl)
      (fun agree => (agree.addDwordRip 1).setMod11.setRmRax.setDflag)
      (fun agree => agree.setImmVal) (fun s => by simp) fun s => by simp,
    handled_x00Add, handled_x00Add,
    fun _ absent => absurd absent List.not_mem_nil⟩

theorem handled_row40 : RowHandled 0x40 row40 := by
  simp only [RowHandled, row40, List.zipIdx_cons, List.forall_mem_cons]
  exact ⟨
    handled_setRex, handled_setRex, handled_setRex, handled_setRex,
    handled_setRex, handled_setRex, handled_setRex, handled_setRex,
    handled_setRex, handled_setRex, handled_setRex, handled_setRex,
    handled_setRex, handled_setRex, handled_setRex, handled_setRex,
    fun _ absent => absurd absent List.not_mem_nil⟩

theorem handled_row50 : RowHandled 0x50 row50 := by
  simp only [RowHandled, row50, List.zipIdx_cons, List.forall_mem_cons]
  exact ⟨
    handled_pushPop, handled_pushPop, handled_pushPop, handled_pushPop,
    handled_pushPop, handled_pushPop, handled_pushPop, handled_pushPop,
    handled_pushPop, handled_pushPop, handled_pushPop, handled_pushPop,
    handled_pushPop, handled_pushPop, handled_pushPop, handled_pushPop,
    fun _ absent => absurd absent List.not_mem_nil⟩

theorem handled_row60 : RowHandled 0x60 row60 := by
  simp only [RowHandled, row60, List.zipIdx_cons, List.forall_mem_cons]
  exact ⟨
    handled_ret, handled_ret, handled_ret, handled_dwordByteOperands,
    handled_prefixSeg _, handled_prefixSeg _,
    handled_set (fun s => { s with dataPrefix := 0xff })
      (fun s => by
        cases s
        rfl)
      (fun agree =>
        agree.map (fun s => { s with dataPrefix := 0xff }) (fun _ _ => rfl)
          (fun _ => rfl) fun _ => rfl)
      (fun _ => rfl) fun _ => rfl,
    ⟨fun _ _ agree =>
      (agree.addDwordRip 1).map (fun s => { s with addrPrefix := 0xff })
        (fun _ _ => rfl) (fun _ => rfl) fun _ => rfl,
      fun isQuiet => absurd isQuiet (by decide)⟩,
    handled_fetch32Imm, handled_ret, handled_fetch8Imm, handled_ret,
    handled_ret, handled_ret, handled_ret, handled_ret,
    fun _ absent => absurd absent List.not_mem_nil⟩

theorem handled_row70 : RowHandled 0x70 row70 := by
  simp only [RowHandled, row70, List.zipIdx_cons, List.forall_mem_cons]
  exact ⟨
    handled_fetch8Imm, handled_fetch8Imm, handled_fetch8Imm,
    handled_fetch8Imm, handled_fetch8Imm, handled_fetch8Imm,
    handled_fetch8Imm, handled_fetch8Imm, handled_fetch8Imm,
    handled_fetch8Imm, handled_fetch8Imm, handled_fetch8Imm,
    handled_fetch8Imm, handled_fetch8Imm, handled_fetch8Imm,
    handled_fetch8Imm,
    fun _ absent => absurd absent List.not_mem_nil⟩

theorem handled_row80 : RowHandled 0x80 row80 := by
  simp only [RowHandled, row80, List.zipIdx_cons, List.forall_mem_cons]
  exact ⟨
    handled_com01,
    handled_fetchNo64 (fun _ => rfl)
      (fun agree =>
        ((agree.setDflag.addDwordRip 1).setImmOpBase .op01).getModOpRm
          |>.setScaleIndexBase.fetchDisplacementByMod)
      (fun agree => agree.setImmVal) (fun s => by simp) fun s => by simp,
    handled_com01, handled_com01, handled_byteOperands, handled_dwordOperands,
    handled_byteByteOperands, handled_byteOperands, handled_dwordByteOperands,
    handled_dwordOperands, handled_byteByteOperands, handled_byteOperands,
    trivial, handled_dwordOperands, trivial, handled_ret,
    fun _ absent => absurd absent List.not_mem_nil⟩

theorem handled_row90 : RowHandled 0x90 row90 := by
  simp only [RowHandled, row90, List.zipIdx_cons, List.forall_mem_cons]
  exact ⟨
    handled_xchgInternal, handled_xchgInternal, handled_xchgInternal,
    handled_xchgInternal, handled_xchgInternal, handled_xchgInternal,
    handled_xchgInternal, handled_xchgInternal,
    handled_total (fun _ => rfl)
      (fun agree => agree.setDflag.addDwordRip 1) fun s => by simp,
    handled_next, handled_ret, handled_ret, handled_next, handled_next,
    handled_total x9eSahf_eq
      (fun agree => (agree.addDwordRip 1).withEflags _ _) fun s => by simp,
    handled_loud x9fLahf_eq
      (fun agree => by
        rw [withRax_shownWith, withRax_shownWith]
        exact (agree.addDwordRip 1).shownWith_eq)
      fun s => by
        rw [withRax_head, (head_untraced_of_trace (addDwordRip_trace 1 s)).1],
    fun _ absent => absurd absent List.not_mem_nil⟩

theorem handled_rowA0 : RowHandled 0xA0 rowA0 := by
  simp only [RowHandled, rowA0, List.zipIdx_cons, List.forall_mem_cons]
  exact ⟨
    handled_total (fun _ => rfl)
      (fun agree => (agree.addDwordRip 1).fetch8.setImmRax)
      fun s => by simp,
    handled_total (fun _ => rfl)
      (fun agree => (agree.addDwordRip 1).fetch32.setImmRax)
      fun s => by simp,
    handled_total (fun _ => rfl)
      (fun agree => (agree.addDwordRip 1).setIsRmSrc.fetch8.setImmRax)
      fun s => by simp,
    handled_total (fun _ => rfl)
      (fun agree => (agree.addDwordRip 1).setIsRmSrc.fetch32.setImmRax)
      fun s => by simp,
    trivial, handled_next, handled_next, trivial,
    handled_total xa8Test_eq
      (fun agree =>
        (agree.addDwordRip 1).setDflagAs1byte.setRmRax.fetch8.withImm
          fun _ res => BitVec.ofNat 64 (UInt8.ofNat res.toNat).toNat)
      fun s => by simp,
    handled_total xa9Test_eq
      (fun agree =>
        (agree.addDwordRip 1).setMod11.setDflag.setRmRax.fetch32.withImm
          fun _ res => BitVec.ofNat 64 (res.toNat % 2 ^ 32))
      fun s => by simp,
    trivial,
    handled_total (fun _ => rfl)
      (fun agree => (agree.addDwordRip 1).setDflag.selectReg)
      fun s => by simp,
    trivial, trivial, trivial, trivial,
    fun _ absent => absurd absent List.not_mem_nil⟩

theorem handled_rowB0 : RowHandled 0xB0 rowB0 := by
  simp only [RowHandled, rowB0, List.zipIdx_cons, List.forall_mem_cons]
  exact ⟨
    handled_movByte, handled_movByte, handled_movByte, handled_movByte,
    handled_movByte, handled_movByte, handled_movByte, handled_movByte,
    handled_movBytes, handled_movBytes, handled_movBytes, handled_movBytes,
    handled_movBytes, handled_movBytes, handled_movBytes, handled_movBytes,
    fun _ absent => absurd absent List.not_mem_nil⟩

theorem handled_rowC0 : RowHandled 0xC0 rowC0 := by
  simp only [RowHandled, rowC0, List.zipIdx_cons, List.forall_mem_cons]
  exact ⟨
    handled_total (fun _ => rfl)
      (fun agree =>
        ((agree.addDwordRip 1).setImmOpBase .shift).getModOpRm.setDflagAs1byte
          |>.setScaleIndexBase.fetchDisplacementByMod.fetch8.setImmVal)
      fun s => by simp,
    handled_total (fun _ => rfl)
      (fun agree =>
        ((agree.addDwordRip 1).setImmOpBase .shift).getModOpRm.setDflag
          |>.setScaleIndexBase.fetchDisplacementByMod.fetch8.setImmVal)
      fun s => by simp,
    handled_total (fun _ => rfl)
      (fun agree => (agree.addDwordRip 1).fetch16.setImmVal)
      fun s => by simp,
    handled_next, handled_ret, handled_ret,
    handled_total (fun _ => rfl)
      (fun agree =>
        (agree.addDwordRip 1).getModRegRm.setDflagAs1byte.setScaleIndexBase
          |>.fetchDisplacementByMod.fetch8.setImmVal)
      fun s => by simp,
    handled_total (fun _ => rfl)
      (fun agree => (agree.addDwordRip 1).operands.fetch32.setImmVal)
      fun s => by simp,
    trivial, handled_next, handled_ret, handled_ret, handled_ret, handled_ret,
    handled_ret, handled_ret,
    fun _ absent => absurd absent List.not_mem_nil⟩

theorem handled_rowD0 : RowHandled 0xD0 rowD0 := by
  simp only [RowHandled, rowD0, List.zipIdx_cons, List.forall_mem_cons]
  exact ⟨
    handled_total (fun _ => rfl)
      (fun agree =>
        (agree.addByteRip.setImmOpBase .shift).getModOpRm.setDflagAs1byte
          |>.setScaleIndexBase.fetchDisplacementByMod.setImmOne)
      fun s => by simp,
    handled_total (fun _ => rfl)
      (fun agree =>
        ((agree.addDwordRip 1).setImmOpBase .shift).getModOpRm.setDflag
          |>.setScaleIndexBase.fetchDisplacementByMod.setImmOne)
      fun s => by simp,
    handled_ret, handled_ret, handled_ret, handled_ret, handled_ret,
    handled_ret, handled_do01, handled_do01, handled_do01,
    handled_total (fun _ => rfl)
      (fun agree => (agree.addDwordRip 1).addDwordRip 1) fun s => by simp,
    handled_do01, handled_do01, handled_do01, handled_ret,
    fun _ absent => absurd absent List.not_mem_nil⟩

theorem handled_rowE0 : RowHandled 0xE0 rowE0 := by
  simp only [RowHandled, rowE0, List.zipIdx_cons, List.forall_mem_cons]
  exact ⟨
    handled_prints, handled_ret, handled_ret, handled_ret, handled_ret,
    handled_ret, handled_ret, handled_prints, handled_fetch32Imm,
    handled_fetch32Imm, handled_prints,
    handled_total xebJmp_eq
      (fun agree =>
        (agree.addDwordRip 1).fetch8.withImm fun immVal res =>
          setByte immVal (UInt8.ofNat res.toNat))
      fun s => by simp,
    handled_ret, handled_ret, handled_prints, handled_prints,
    fun _ absent => absurd absent List.not_mem_nil⟩

theorem handled_rowF0 : RowHandled 0xF0 rowF0 := by
  simp only [RowHandled, rowF0, List.zipIdx_cons, List.forall_mem_cons]
  exact ⟨
    handled_set (fun s => { s with lock := 1 })
      (fun s => by
        cases s
        rfl)
      (fun agree =>
        agree.map (fun s => { s with lock := 1 }) (fun _ _ => rfl)
          (fun _ => rfl) fun _ => rfl)
      (fun _ => rfl) fun _ => rfl,
    handled_prints,
    handled_set (fun s => { s with repz := 0xff })
      (fun s => by
        cases s
        rfl)
      (fun agree =>
        agree.map (fun s => { s with repz := 0xff }) (fun _ _ => rfl)
          (fun _ => rfl) fun _ => rfl)
      (fun _ => rfl) fun _ => rfl,
    handled_set (fun s => { s with repnz := 0xff })
      (fun s => by
        cases s
        rfl)
      (fun agree =>
        agree.map (fun s => { s with repnz := 0xff }) (fun _ _ => rfl)
          (fun _ => rfl) fun _ => rfl)
      (fun _ => rfl) fun _ => rfl,
    handled_ret, handled_ret, handled_xf6Op, handled_xf7Op, handled_prints,
    handled_ret,
    handled_loud (fun _ => rfl)
      (fun agree => by
        rw [agree.rip_eq]
        exact ((agree.addDwordRip 1).withR15b _).shownWith_eq)
      fun s => by
        rw [print_head, (head_untraced_of_trace (addDwordRip_trace 1 s)).1],
    handled_total xfbSti_eq
      (fun agree => (agree.addDwordRip 1).withEflags _ _) fun s => by simp,
    handled_total xfcCld_eq
      (fun agree => (agree.addDwordRip 1).withEflags _ _) fun s => by simp,
    handled_prints,
    handled_total (fun _ => rfl)
      (fun agree =>
        (agree.addByteRip.setImmOpBase .fe).getModOpRm.setDflagAs1byte
          |>.setScaleIndexBase.fetchDisplacementByMod)
      fun s => by simp,
    handled_total (fun _ => rfl)
      (fun agree =>
        ((agree.addDwordRip 1).setImmOpBase .fe).getModOpRm.setScaleIndexBase
          |>.fetchDisplacementByMod)
      fun s => by simp,
    fun _ absent => absurd absent List.not_mem_nil⟩

theorem handled_row0f00 : ∀ entry ∈ row0f00, Handled false true entry := by
  simp only [row0f00, List.forall_mem_cons]
  exact ⟨
    trivial, trivial, trivial, trivial, trivial, handled_next, trivial,
    trivial, trivial, trivial, trivial, trivial, trivial, trivial, trivial,
    trivial,
    fun _ absent => absurd absent List.not_mem_nil⟩

theorem handled_row0f10 : ∀ entry ∈ row0f10, Handled false true entry := by
  simp only [row0f10, List.forall_mem_cons]
  exact ⟨
    handled_doXmmRm, handled_doXmmRm, trivial, trivial, handled_doXmmXmm,
    handled_doXmmRm, trivial, trivial, handled_ret, handled_ret, handled_ret,
    handled_ret, handled_ret, handled_ret, handled_ret, handled_x0f1fHintNop,
    fun _ absent => absurd absent List.not_mem_nil⟩

theorem handled_row0f20 : ∀ entry ∈ row0f20, Handled false true entry := by
  simp only [row0f20, List.forall_mem_cons]
  exact ⟨
    trivial, handled_ret, trivial, handled_ret, trivial, trivial, trivial,
    trivial, handled_doXmmRm, handled_doXmmRm, handled_ret, handled_ret,
    handled_ret, handled_ret, handled_doXmmXmm, handled_doXmmXmm,
    fun _ absent => absurd absent List.not_mem_nil⟩

theorem handled_row0f40 : ∀ entry ∈ row0f40, Handled false true entry := by
  simp only [row0f40, List.forall_mem_cons]
  exact ⟨
    handled_dwordOperands, handled_dwordOperands, handled_dwordOperands,
    handled_dwordOperands, handled_dwordOperands, handled_dwordOperands,
    handled_dwordOperands, handled_dwordOperands, handled_dwordOperands,
    handled_dwordOperands, handled_dwordOperands, handled_dwordOperands,
    handled_dwordOperands, handled_dwordOperands, handled_dwordOperands,
    handled_dwordOperands,
    fun _ absent => absurd absent List.not_mem_nil⟩

theorem handled_row0f50 : ∀ entry ∈ row0f50, Handled false true entry := by
  simp only [row0f50, List.forall_mem_cons]
  exact ⟨
    handled_doXmmXmm, handled_doXmmXmm, handled_doXmmXmm, handled_doXmmXmm,
    handled_doXmmXmm, handled_doXmmXmm, handled_doXmmXmm, handled_doXmmXmm,
    handled_doXmmXmm, handled_doXmmXmm, handled_doXmmXmm, handled_doXmmXmm,
    handled_doXmmXmm, handled_doXmmXmm, handled_doXmmXmm, handled_doXmmXmm,
    fun _ absent => absurd absent List.not_mem_nil⟩

theorem handled_row0f80 : ∀ entry ∈ row0f80, Handled false true entry := by
  simp only [row0f80, List.forall_mem_cons]
  exact ⟨
    handled_com0f80, handled_com0f80, handled_com0f80, handled_com0f80,
    handled_com0f80, handled_com0f80, handled_com0f80, handled_com0f80,
    handled_com0f80, handled_com0f80, handled_com0f80, handled_com0f80,
    handled_com0f80, handled_com0f80, handled_com0f80, handled_com0f80,
    fun _ absent => absurd absent List.not_mem_nil⟩

theorem handled_row0f90 : ∀ entry ∈ row0f90, Handled false true entry := by
  simp only [row0f90, List.forall_mem_cons]
  exact ⟨
    handled_setcc, handled_setcc, handled_setcc, handled_setcc, handled_setcc,
    handled_setcc, handled_setcc, handled_setcc, handled_setcc, handled_setcc,
    handled_setcc, handled_setcc, handled_setcc, handled_setcc, handled_setcc,
    handled_setcc,
    fun _ absent => absurd absent List.not_mem_nil⟩

theorem handled_row0fA0 : ∀ entry ∈ row0fA0, Handled false true entry := by
  simp only [row0fA0, List.forall_mem_cons]
  exact ⟨
    trivial, trivial, handled_next, trivial, trivial, trivial, trivial,
    trivial, trivial, trivial, trivial, trivial, trivial, trivial,
    handled_do01, trivial,
    fun _ absent => absurd absent List.not_mem_nil⟩

theorem handled_row0fB0 : ∀ entry ∈ row0fB0, Handled false true entry := by
  simp only [row0fB0, List.forall_mem_cons]
  exact ⟨
    handled_do01, handled_do01, trivial, trivial, trivial, trivial,
    handled_dwordByteOperands, handled_dwordOperands, trivial, trivial,
    trivial, trivial, trivial, trivial, handled_dwordByteOperands, trivial,
    fun _ absent => absurd absent List.not_mem_nil⟩

/-- A row in front of others. -/
theorem RowHandled.append
    {base : Nat} {row rows : List (Option Entry)} (handled : RowHandled base row)
    (isRow : row.length = 16) (behind : RowHandled (base + 16) rows) :
    RowHandled base (row ++ rows) := by
  rw [RowHandled, List.zipIdx_append, List.forall_mem_append, isRow]
  exact ⟨handled, behind⟩

/-- Every entry of the first table. -/
theorem handled_opcodeTable : RowHandled 0 opcodeTable := by
  simp only [opcodeTable, List.append_assoc]
  exact
    handled_row00.append rfl <| handled_row10.append rfl <|
      handled_row20.append rfl <| handled_row30.append rfl <|
      handled_row40.append rfl <| handled_row50.append rfl <|
      handled_row60.append rfl <| handled_row70.append rfl <|
      handled_row80.append rfl <| handled_row90.append rfl <|
      handled_rowA0.append rfl <| handled_rowB0.append rfl <|
      handled_rowC0.append rfl <| handled_rowD0.append rfl <|
      handled_rowE0.append rfl handled_rowF0

/-- Every entry of the second table. -/
theorem handled_extendOpcodeTable :
    ∀ entry ∈ extendOpcodeTable, Handled false true entry := by
  have isEmpty : ∀ entry ∈ emptyRow, Handled false true entry := by
    intro entry member
    rw [List.eq_of_mem_replicate member]
    trivial
  simp only [extendOpcodeTable, List.forall_mem_append]
  exact
    ⟨⟨⟨⟨⟨⟨⟨⟨⟨⟨⟨⟨⟨⟨⟨handled_row0f00, handled_row0f10⟩, handled_row0f20⟩, isEmpty⟩,
      handled_row0f40⟩, handled_row0f50⟩, isEmpty⟩, isEmpty⟩, handled_row0f80⟩,
      handled_row0f90⟩, handled_row0fA0⟩, handled_row0fB0⟩, isEmpty⟩, isEmpty⟩,
      isEmpty⟩, isEmpty⟩

/-- What the table in use has at the opcode. -/
theorem State.handled_table
    {s : State} {entry : Option Entry}
    (isEntry : s.table[s.opcode.toNat]? = some entry) :
    Handled s.operates
      (s.opcodeTable = .extend ∨ quietAt s.opcode.toNat = true) entry := by
  unfold State.table at isEntry
  cases isTable : s.opcodeTable <;> rw [isTable] at isEntry
  · have handled :=
      handled_opcodeTable (entry, s.opcode.toNat)
        (List.mem_zipIdx_iff_getElem?.mpr isEntry)
    simpa [State.operates, isTable, operatesAt] using handled
  · have handled :=
      handled_extendOpcodeTable entry (List.mem_of_getElem? isEntry)
    simpa [State.operates, isTable] using handled

/-! ## Two runs -/

/-- What selected the handler tells whether the operation is read. -/
theorem operates_of_head {s u : State} (sameHead : u.head = s.head) :
    u.operates = s.operates := by
  simp only [State.head, Prod.mk.injEq] at sameHead
  obtain ⟨-, isOpcode, isTable⟩ := sameHead
  rw [State.operates, State.operates, isOpcode, isTable]

/-- States that agree once the opcode is read show the same at the end. -/
theorem Agree.exec
    {s t : State} (agree : Agree false false (X86.readOpcode s) (X86.readOpcode t))
    (fuel : Nat) :
    (exec fuel t).map State.shown = (exec fuel s).map State.shown := by
  induction fuel generalizing s t with
  | zero => rfl
  | succ fuel inductionHypothesis =>
      have sameHead : (X86.readOpcode t).head = (X86.readOpcode s).head := by
        obtain ⟨x, isStale, -⟩ := agree
        rw [isStale]
        rfl
      have sameOperates := operates_of_head sameHead
      have isEntry :
          (X86.readOpcode t).table[(X86.readOpcode t).opcode.toNat]? =
            (X86.readOpcode s).table[(X86.readOpcode s).opcode.toNat]? := by
        simp only [State.head, Prod.mk.injEq] at sameHead
        obtain ⟨-, isOpcode, isTable⟩ := sameHead
        rw [State.table, State.table, isOpcode, isTable]
      rw [X86.exec, X86.exec, isEntry]
      cases found : (X86.readOpcode s).table[(X86.readOpcode s).opcode.toNat]? with
      | none => rfl
      | some entry =>
          have handled := State.handled_table found
          have handledToo := State.handled_table (isEntry.trans found)
          cases entry with
          | none => rfl
          | some entry =>
              cases entry with
              | run handler =>
                  have shows (u : State) (operates : Bool)
                      (isOperates : u.operates = operates)
                      (heads : ∀ v, handler u = some v → v.head = u.head) :
                      (handler u).map State.shown =
                        (handler u).map (State.shownWith operates) := by
                    refine Option.map_congr fun v isEnd => ?_
                    rw [State.shown, operates_of_head (heads v isEnd), isOperates]
                  rw [sameOperates] at handledToo
                  exact
                    (shows _ _ sameOperates fun v isEnd =>
                        (handledToo.2 _ v isEnd).1).trans
                      ((handled.1 _ _ agree).trans
                        (shows _ _ rfl fun v isEnd =>
                          (handled.2 _ v isEnd).1).symm)
              | jump handler =>
                  exact inductionHypothesis (handled.1 _ _ agree).readOpcode

/-- States that agree where `_clear_state` leaves them alone. -/
theorem agree_clearState
    {s t : State} (sameMachine : t.machine = s.machine) (sameRip : t.rip = s.rip)
    (sameRax : t.rax = s.rax) (samePrefix : t.addrPrefix = s.addrPrefix)
    (sameByte : t.r15b = 0xff ↔ s.r15b = 0xff) :
    Agree false false (readOpcode (clearState s)) (readOpcode (clearState t)) := by
  refine ⟨(clearState t).stale, ?_, sameRax, sameByte, ?_, nofun, nofun⟩
  · cases s
    cases t
    dsimp only at sameMachine sameRip sameRax samePrefix
    subst sameMachine sameRip sameRax samePrefix
    rfl
  · exact fun hasSib => absurd rfl hasSib

/--
What is shown of an instruction depends on what was executed before through the
virtual `rax`, the prefix 67 and the host register only.
-/
theorem exec_shown_congr
    {s t : State} (sameMachine : t.machine = s.machine) (sameRip : t.rip = s.rip)
    (sameRax : t.rax = s.rax) (samePrefix : t.addrPrefix = s.addrPrefix)
    (sameByte : t.r15b = 0xff ↔ s.r15b = 0xff) (fuel : Nat) :
    (exec fuel (clearState t)).map State.shown =
      (exec fuel (clearState s)).map State.shown :=
  (agree_clearState sameMachine sameRip sameRax samePrefix sameByte).exec fuel

/-- A move is shown the same behind an instruction with SIB and a segment. -/
theorem exec_shown_congr_mov :
    (exec 2
          (clearState
            { stateAt 0x1000 [0x48, 0x89, 0xc3] with
              override := 0xff
              sib := 0xff
              sibScale := 2
              immVal := 7
              eflags := 3 })).map State.shown =
      (exec 2 (clearState (stateAt 0x1000 [0x48, 0x89, 0xc3]))).map
        State.shown :=
  exec_shown_congr rfl rfl rfl rfl Iff.rfl 2

/-! ## Runs -/

/-- The handler of this opcode goes on with the next byte. -/
def jumpsAt (k : Nat) : Bool :=
  match opcodeTable[k]? with
  | some (some (.jump _)) => true
  | _ => false

/--
An instruction that leaves nothing behind: neither its prefixes nor its opcode
are loud; of the second table, only the moves of control registers are.
-/
inductive Quiet (memory : U64 → UInt8) : U64 → Prop
  | opcode {rip : U64} (isOpcode : jumpsAt (memory rip).toNat = false)
      (isQuiet : quietAt (memory rip).toNat = true) : Quiet memory rip
  | escape {rip : U64} (isEscape : memory rip = 0x0f ∨ memory rip = 0x1f)
      (noControl :
        memory (addLow 32 rip 1) ≠ 0x20 ∧ memory (addLow 32 rip 1) ≠ 0x22) :
      Quiet memory rip
  | behind {rip : U64} (isPrefix : jumpsAt (memory rip).toNat = true)
      (isQuiet : quietAt (memory rip).toNat = true)
      (next : Quiet memory (addLow 32 rip 1)) : Quiet memory rip

/-- Nothing is left behind from the second table on. -/
theorem exec_extend_untraced
    {fuel : Nat} {s u : State} (isExtend : s.opcodeTable = .extend)
    (ends : exec fuel s = some u) : u.machine = s.machine ∧ Untraced s u := by
  induction fuel generalizing s with
  | zero => cases ends
  | succ fuel inductionHypothesis =>
      rw [exec] at ends
      obtain ⟨entry, isEntry, ends⟩ := Option.bind_eq_some_iff.mp ends
      have handled := State.handled_table (Option.join_eq_some_iff.mp isEntry)
      have isExtend : (readOpcode s).opcodeTable = .extend := isExtend
      have isQuiet :
          decide
              ((readOpcode s).opcodeTable = .extend ∨
                quietAt (readOpcode s).opcode.toNat = true) =
            true :=
        decide_eq_true (Or.inl isExtend)
      cases entry with
      | run handler =>
          obtain ⟨sameHead, untraced⟩ := handled.2 _ u ends
          obtain ⟨isRax, isPrefix, isByte⟩ := untraced isQuiet
          exact ⟨congrArg Prod.fst sameHead, isRax, isPrefix, isByte⟩
      | jump handler =>
          obtain ⟨sameTrace, -⟩ := handled.2 isQuiet (readOpcode s)
          obtain ⟨sameHead, isRax, isPrefix, isByte⟩ :=
            head_untraced_of_trace sameTrace
          simp only [State.head, Prod.mk.injEq] at sameHead
          obtain ⟨isMachine, -, isTable⟩ := sameHead
          obtain ⟨endsMachine, untraced⟩ :=
            inductionHypothesis (isTable.trans isExtend) ends
          exact ⟨endsMachine.trans isMachine,
            Untraced.trans ⟨isRax, isPrefix, isByte⟩ untraced⟩

/-- A quiet instruction leaves nothing behind. -/
theorem exec_untraced
    {fuel : Nat} {s u : State} (isMain : s.opcodeTable = .main)
    (quiet : Quiet s.machine.memory s.rip) (ends : exec fuel s = some u) :
    u.machine = s.machine ∧ Untraced s u := by
  induction fuel generalizing s with
  | zero => cases ends
  | succ fuel inductionHypothesis =>
      rw [exec] at ends
      obtain ⟨entry, isEntry, ends⟩ := Option.bind_eq_some_iff.mp ends
      have found := Option.join_eq_some_iff.mp isEntry
      have handled := State.handled_table found
      have isMainTable : (readOpcode s).table = opcodeTable := by
        rw [State.table, show (readOpcode s).opcodeTable = .main from isMain]
      rw [isMainTable] at found
      have isByte : (readOpcode s).opcode = s.machine.memory s.rip := rfl
      rw [isByte] at found
      have isQuietAt (isQuiet : quietAt (s.machine.memory s.rip).toNat = true) :
          decide
              ((readOpcode s).opcodeTable = .extend ∨
                quietAt (readOpcode s).opcode.toNat = true) =
            true :=
        decide_eq_true (Or.inr isQuiet)
      cases quiet with
      | opcode isOpcode isQuiet =>
          cases entry with
          | run handler =>
              obtain ⟨sameHead, untraced⟩ := handled.2 _ u ends
              obtain ⟨isRax, isPrefix, isByte⟩ := untraced (isQuietAt isQuiet)
              exact ⟨congrArg Prod.fst sameHead, isRax, isPrefix, isByte⟩
          | jump handler =>
              rw [jumpsAt, found] at isOpcode
              cases isOpcode
      | escape isEscape noControl =>
          have isJump : entry = .jump x0f := by
            rcases isEscape with isEscape | isEscape <;>
              rw [isEscape] at found <;>
              exact (Option.some.inj (Option.some.inj found)).symm
          subst isJump
          have leaves (v : State) :
              (x0f v).machine = v.machine ∧ Untraced v (x0f v) := by
            cases v
            exact ⟨rfl, rfl, rfl, id⟩
          obtain ⟨isMachine, isRax, isPrefix, isByte⟩ := leaves (readOpcode s)
          obtain ⟨endsMachine, untraced⟩ :=
            exec_extend_untraced (s := x0f (readOpcode s)) rfl ends
          exact ⟨endsMachine.trans isMachine,
            Untraced.trans ⟨isRax, isPrefix, isByte⟩ untraced⟩
      | behind isPrefix isQuiet next =>
          cases entry with
          | run handler =>
              rw [jumpsAt, found] at isPrefix
              cases isPrefix
          | jump handler =>
              obtain ⟨sameTrace, moves⟩ :=
                handled.2 (isQuietAt isQuiet) (readOpcode s)
              obtain ⟨sameHead, isRax, isPrefix, isByte⟩ :=
                head_untraced_of_trace sameTrace
              simp only [State.head, Prod.mk.injEq] at sameHead
              obtain ⟨isMachine, -, isTable⟩ := sameHead
              have isNext :
                  Quiet (handler (readOpcode s)).machine.memory
                    (handler (readOpcode s)).rip := by
                rw [isMachine, moves]
                exact next
              obtain ⟨endsMachine, untraced⟩ :=
                inductionHypothesis (isTable.trans isMain) isNext ends
              exact ⟨endsMachine.trans isMachine,
                Untraced.trans ⟨isRax, isPrefix, isByte⟩ untraced⟩

/-- The state that `_exec` starts in after `_clear_state`, at an address. -/
def clearedAt (rip : U64) (s : State) : State :=
  clearState { s with rip := rip }

/-- States behind quiet instructions, each executed after `_clear_state`. -/
inductive Behind (start : State) : State → Prop
  | start : Behind start start
  | step {s t : State} (behind : Behind start s) (rip : U64)
      (quiet : Quiet start.machine.memory rip) (fuel : Nat)
      (ends : exec fuel (clearedAt rip s) = some t) : Behind start t

/-- The instructions leave nothing behind together. -/
theorem Behind.untraced
    {start s : State} (behind : Behind start s) :
    s.machine = start.machine ∧ Untraced start s := by
  induction behind with
  | start => exact ⟨rfl, rfl, rfl, id⟩
  | step behind rip quiet fuel ends inductionHypothesis =>
      obtain ⟨isMachine, untraced⟩ := inductionHypothesis
      rw [← isMachine] at quiet
      obtain ⟨endsMachine, isRax, isPrefix, isByte⟩ :=
        exec_untraced (s := clearedAt rip _) rfl quiet ends
      exact ⟨endsMachine.trans isMachine,
        untraced.trans ⟨isRax, isPrefix, isByte⟩⟩

/--
Behind any run of quiet instructions, an instruction is shown as it is shown
when it is the first one.
-/
theorem Behind.shown_eq
    {start s : State} (behind : Behind start s) (notSet : start.r15b ≠ 0xff)
    (rip : U64) (fuel : Nat) :
    (exec fuel (clearedAt rip s)).map State.shown =
      (exec fuel (clearedAt rip start)).map State.shown := by
  obtain ⟨isMachine, untraced⟩ := behind.untraced
  exact
    (agree_clearState (s := { start with rip := rip }) (t := { s with rip := rip })
      isMachine rfl untraced.rax untraced.addrPrefix
      (iff_of_false (untraced.r15b notSet) notSet)).exec fuel

/-- The second of two moves is shown as the first instruction would be. -/
theorem Behind.shown_eq_moves :
    ∃ s,
      exec 2
            (clearedAt 0x1000
              (stateAt 0x1000 [0x48, 0x89, 0xc3, 0x48, 0x89, 0xc3])) =
          some s ∧
        (exec 2 (clearedAt 0x1003 s)).map State.shown =
          (exec 2
              (clearedAt 0x1003
                (stateAt 0x1000 [0x48, 0x89, 0xc3, 0x48, 0x89, 0xc3]))).map
            State.shown := by
  have ends :
      (exec 2
          (clearedAt 0x1000
            (stateAt 0x1000 [0x48, 0x89, 0xc3, 0x48, 0x89, 0xc3]))).isSome =
        true :=
    rfl
  obtain ⟨s, isEnd⟩ := Option.isSome_iff_exists.mp ends
  have quiet :
      Quiet
        (stateAt 0x1000 [0x48, 0x89, 0xc3, 0x48, 0x89, 0xc3]).machine.memory
        0x1000 :=
    .behind rfl rfl (.opcode rfl rfl)
  exact ⟨s, isEnd,
    Behind.shown_eq (.step .start 0x1000 quiet 2 isEnd) (by decide) 0x1003 2⟩

end BinTools.X86
