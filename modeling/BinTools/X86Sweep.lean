import BinTools.X86Boundaries
import BinTools.X86Frame

namespace BinTools.X86

/-!
# The linear sweep

One `_exec` after `_clear_state` ends at the end of the instruction exactly if the
handler takes the size of the encoding and no addition to the low bits of the
instruction pointer carries.  A sequence of instructions is split at its true
boundaries exactly if this holds for each of them, at its address.
-/

/-! ## Stored bytes -/

/-- Bytes behind bytes. -/
theorem storedAt_append
    {memory : U64 → UInt8} {address : U64} {front back : List UInt8} :
    StoredAt memory address (front ++ back) ↔
      StoredAt memory address front ∧
        StoredAt memory (address + BitVec.ofNat 64 front.length) back := by
  induction front generalizing address with
  | nil =>
      rw [List.nil_append, List.length_nil, BitVec.add_zero]
      exact ⟨fun stored => ⟨trivial, stored⟩, fun stored => stored.2⟩
  | cons byte front inductionHypothesis =>
      have isNext :
          address + 1 + BitVec.ofNat 64 front.length =
            address + BitVec.ofNat 64 (byte :: front).length := by
        rw [List.length_cons, Nat.add_comm front.length 1, BitVec.ofNat_add,
          BitVec.add_assoc]
        rfl
      rw [List.cons_append, StoredAt, StoredAt, inductionHypothesis, isNext,
        and_assoc]

/-- The byte behind some bytes. -/
theorem StoredAt.byte_at
    {memory : U64 → UInt8} {address : U64} {bytes : List UInt8}
    (stored : StoredAt memory address bytes) {i : Nat} {byte : UInt8}
    (isByte : bytes[i]? = some byte) :
    memory (address + BitVec.ofNat 64 i) = byte := by
  induction bytes generalizing address i with
  | nil => cases isByte
  | cons first bytes inductionHypothesis =>
      obtain ⟨isFirst, behind⟩ := stored
      cases i with
      | zero =>
          rw [List.getElem?_cons_zero, Option.some_inj] at isByte
          rw [BitVec.add_zero, isFirst, isByte]
      | succ i =>
          have isNext := inductionHypothesis behind isByte
          rw [BitVec.add_assoc] at isNext
          rw [Nat.add_comm i 1, BitVec.ofNat_add]
          exact isNext

/-! ## Ends of `_exec` -/

/-- More fuel changes nothing. -/
theorem exec_add
    {fuel : Nat} {s t : State} (ends : exec fuel s = some t) (more : Nat) :
    exec (fuel + more) s = some t := by
  induction fuel generalizing s with
  | zero => cases ends
  | succ fuel inductionHypothesis =>
      rw [exec] at ends
      obtain ⟨entry, isEntry, ends⟩ := Option.bind_eq_some_iff.mp ends
      rw [Nat.add_right_comm, exec]
      refine Option.bind_eq_some_iff.mpr ⟨entry, isEntry, ?_⟩
      cases entry with
      | run handler => exact ends
      | jump handler => exact inductionHypothesis ends

/-- All ends are the same. -/
theorem exec_unique
    {m n : Nat} {s t u : State} (ends : exec m s = some t)
    (endsToo : exec n s = some u) :
    t = u := by
  have isEnd := exec_add ends n
  rw [Nat.add_comm, exec_add endsToo m] at isEnd
  exact (Option.some.inj isEnd).symm

/-- The opcode is that of a prefix. -/
theorem exec_jump
    {s : State} {handler : State → State} (isMain : s.opcodeTable = .main)
    (isEntry :
      opcodeTable[(s.machine.memory s.rip).toNat]? = some (jump handler))
    (fuel : Nat) :
    exec (fuel + 1) s = exec fuel (handler (readOpcode s)) := by
  have isTable : (readOpcode s).table = opcodeTable := by
    unfold State.table
    rw [show (readOpcode s).opcodeTable = .main from isMain]
  have isOpcode : (readOpcode s).opcode = s.machine.memory s.rip := rfl
  rw [exec]
  rw [isTable, isOpcode, isEntry]
  rfl

/-- The handler of the opcode returns. -/
theorem exec_run
    {s : State} {handler : State → Option State} (isMain : s.opcodeTable = .main)
    (isEntry :
      opcodeTable[(s.machine.memory s.rip).toNat]? = some (run handler))
    (fuel : Nat) :
    exec (fuel + 1) s = handler (readOpcode s) := by
  have isTable : (readOpcode s).table = opcodeTable := by
    unfold State.table
    rw [show (readOpcode s).opcodeTable = .main from isMain]
  have isOpcode : (readOpcode s).opcode = s.machine.memory s.rip := rfl
  rw [exec]
  rw [isTable, isOpcode, isEntry]
  rfl

/-! ## Prefixes -/

/-- Behind some prefixes. -/
structure Prefixed (s u : State) (rip : U64) (rex dataPrefix : UInt8) : Prop where
  machine : u.machine = s.machine
  rip : u.rip = rip
  opcodeTable : u.opcodeTable = .main
  ripRel : u.ripRel = 0
  rex : u.rex = rex
  dataPrefix : u.dataPrefix = dataPrefix

/-- `_clear_state` -/
theorem prefixed_clearState (s : State) :
    Prefixed s (clearState s) s.rip 0 0 := by
  cases s
  exact ⟨rfl, rfl, rfl, rfl, rfl, rfl⟩

/-- The prefix 66. -/
theorem Prefixed.data
    {s u : State} {rip : U64} {rex dataPrefix : UInt8}
    (prefixed : Prefixed s u rip rex dataPrefix) :
    Prefixed s (x66PrefixData (readOpcode u)) (addLow 32 rip 1) rex 0xff := by
  obtain ⟨isMachine, isRip, isTable, isRel, isRex, isData⟩ := prefixed
  cases u
  subst isRip
  exact ⟨isMachine, rfl, isTable, isRel, isRex, rfl⟩

/-- A REX prefix. -/
theorem Prefixed.rexByte
    {s u : State} {rip : U64} {rex dataPrefix : UInt8}
    (prefixed : Prefixed s u rip rex dataPrefix) :
    Prefixed s (setRex (readOpcode u)) (addLow 32 rip 1)
      (s.machine.memory rip) dataPrefix := by
  obtain ⟨isMachine, isRip, isTable, isRel, isRex, isData⟩ := prefixed
  rw [← isMachine]
  cases u
  subst isRip
  exact ⟨isMachine, rfl, isTable, isRel, rfl, isData⟩

/-- The prefixes of a stored instruction are read. -/
theorem exec_prefixes
    {s : State} {instruction : Instruction}
    (stored : StoredAt s.machine.memory s.rip instruction.prefixes)
    (noCarry : s.rip.toNat % 2 ^ 32 + instruction.prefixes.length < 2 ^ 32) :
    ∃ u,
      Prefixed s u
          (s.rip + BitVec.ofNat 64 instruction.prefixes.length)
          (instruction.rex.getD 0)
          (if instruction.data then 0xff else 0) ∧
        ∀ fuel,
          exec (fuel + instruction.prefixes.length) (clearState s) =
            exec fuel u := by
  have cleared := prefixed_clearState s
  have isData : opcodeTable[(0x66 : UInt8).toNat]? = some (jump x66PrefixData) :=
    rfl
  have readsRex {u : State} {rip : U64} {byte dataPrefix : UInt8}
      (prefixed : Prefixed s u rip 0 dataPrefix)
      (isByte : s.machine.memory rip = byte)
      (isRex : byte &&& 0xf0 = 0x40) (fuel : Nat) :
      exec (fuel + 1) u = exec fuel (setRex (readOpcode u)) := by
    refine exec_jump prefixed.opcodeTable ?_ fuel
    rw [prefixed.machine, prefixed.rip, isByte]
    exact (entry_rex isRex).1
  have readsData (fuel : Nat) :
      s.machine.memory s.rip = 0x66 →
        exec (fuel + 1) (clearState s) =
          exec fuel (x66PrefixData (readOpcode (clearState s))) := by
    intro isByte
    refine exec_jump cleared.opcodeTable ?_ fuel
    rw [cleared.machine, cleared.rip, isByte]
    exact isData
  cases hasData : instruction.data <;> cases hasRex : instruction.rex
  case false.none =>
    have isPrefixes : instruction.prefixes = [] := by
      rw [Instruction.prefixes, hasData, hasRex]
      rfl
    rw [isPrefixes, List.length_nil, BitVec.add_zero]
    exact ⟨clearState s, cleared, fun _ => rfl⟩
  case false.some byte =>
    have isPrefixes : instruction.prefixes = [byte] := by
      rw [Instruction.prefixes, hasData, hasRex]
      rfl
    rw [isPrefixes] at stored noCarry ⊢
    obtain ⟨isByte, -⟩ := stored
    have prefixed := cleared.rexByte
    rw [addLow_eq_add (n := 1) noCarry, isByte] at prefixed
    exact ⟨_, prefixed, readsRex cleared isByte (instruction.isRex byte hasRex)⟩
  case true.none =>
    have isPrefixes : instruction.prefixes = [0x66] := by
      rw [Instruction.prefixes, hasData, hasRex]
      rfl
    rw [isPrefixes] at stored noCarry ⊢
    obtain ⟨isByte, -⟩ := stored
    have prefixed := cleared.data
    rw [addLow_eq_add (n := 1) noCarry] at prefixed
    exact ⟨_, prefixed, fun fuel => readsData fuel isByte⟩
  case true.some byte =>
    have isPrefixes : instruction.prefixes = [0x66, byte] := by
      rw [Instruction.prefixes, hasData, hasRex]
      rfl
    rw [isPrefixes] at stored noCarry ⊢
    obtain ⟨isByte, isRexByte, -⟩ := stored
    have afterData := cleared.data
    have isNext : addLow 32 s.rip 1 = s.rip + 1 :=
      addLow_eq_add (Nat.lt_of_succ_lt noCarry)
    have prefixed := afterData.rexByte
    rw [addLow_addLow, addLow_eq_add (n := 1 + 1) noCarry, isNext,
      isRexByte] at prefixed
    rw [isNext] at afterData
    refine ⟨_, prefixed, fun fuel => ?_⟩
    exact (readsData (fuel + 1) isByte).trans
      (readsRex afterData isRexByte (instruction.isRex byte hasRex) fuel)

/-! ## Sizes -/

/-- What a handler reads behind its opcode. -/
def handledSize (opcode : UInt8) (wide data : Bool) (modrm sib : UInt8) : Nat :=
  (if opcode ∈ modrmOpcodes then operandsSize modrm sib else 0) +
    fetchedSize opcode wide data modrm

/-- The handler of an encoded opcode. -/
theorem entry_known {opcode : UInt8}
    (known : opcode ∈ modrmOpcodes ++ plainOpcodes) :
    ∃ handler,
      opcodeTable[opcode.toNat]? = some (run handler) ∧
        Moves (stepOf opcode) (handledSize opcode) handler := by
  have apart : ∀ opcode ∈ plainOpcodes, opcode ∉ modrmOpcodes := by
    decide +kernel
  rcases List.mem_append.mp known with inModrm | inPlain
  · obtain ⟨handler, isEntry, moves⟩ := entry_modrm opcode inModrm
    refine ⟨handler, isEntry, ?_⟩
    have isSize :
        handledSize opcode =
          fun wide data modrm sib =>
            operandsSize modrm sib + fetchedSize opcode wide data modrm := by
      funext wide data modrm sib
      rw [handledSize, if_pos inModrm]
    rw [isSize]
    exact moves
  · obtain ⟨handler, isEntry, moves⟩ := entry_plain opcode inPlain
    refine ⟨handler, isEntry, ?_⟩
    have isSize :
        handledSize opcode =
          fun wide data modrm _ => fetchedSize opcode wide data modrm := by
      funext wide data modrm sib
      rw [handledSize, if_neg (apart opcode inPlain), Nat.zero_add]
    rw [isSize]
    exact moves

/--
The handler takes the size of the immediate value.  The handlers of 68 and c7
always read 4 bytes, the one of f7 reads 8 of them for the operand size of 64
bits, and the second `test` of f6 and f7 has no operation.
-/
structure TakesImmediate
    (opcode : UInt8) (wide data : Bool) (modrm : UInt8) : Prop where
  dword : opcode = 0x68 ∨ opcode = 0xc7 → data = true → wide = true
  test : opcode = 0xf6 ∨ opcode = 0xf7 → regOf modrm ≠ 1
  qword : opcode = 0xf7 → regOf modrm = 0 → wide = false

/-- The operations 0 and 1. -/
theorem regOf_le_one (modrm : UInt8) :
    regOf modrm ≤ 1 ↔ regOf modrm = 0 ∨ regOf modrm = 1 := by
  rw [UInt8.le_iff_toNat_le, ← UInt8.toNat_inj, ← UInt8.toNat_inj,
    UInt8.toNat_zero, UInt8.toNat_one]
  omega

/-- The opcodes 68 and c7. -/
theorem fetchedSize_dword_iff
    {opcode : UInt8} (isDword : opcode = 0x68 ∨ opcode = 0xc7)
    (wide data : Bool) (modrm : UInt8) :
    fetchedSize opcode wide data modrm = immediateSize opcode wide data modrm ↔
      (data = true → wide = true) := by
  have isFetched : fetchedSize opcode wide data modrm = 4 := by
    rw [fetchedSize, if_pos isDword]
  have isImmediate :
      immediateSize opcode wide data modrm = immediateOperandSize wide data := by
    unfold immediateSize
    rw [if_pos (by tauto)]
  rw [isFetched, isImmediate]
  cases wide <;> cases data <;> decide

/-- The opcode f6. -/
theorem fetchedSize_f6_iff (wide data : Bool) (modrm : UInt8) :
    fetchedSize 0xf6 wide data modrm = immediateSize 0xf6 wide data modrm ↔
      regOf modrm ≠ 1 := by
  have isFetched :
      fetchedSize 0xf6 wide data modrm = if regOf modrm = 0 then 1 else 0 := rfl
  have isImmediate :
      immediateSize 0xf6 wide data modrm = if regOf modrm ≤ 1 then 1 else 0 :=
    rfl
  rw [isFetched, isImmediate]
  simp only [regOf_le_one]
  by_cases isZero : regOf modrm = 0
  · simp [isZero]
  · by_cases isOne : regOf modrm = 1 <;> simp [isZero, isOne]

/-- The opcode f7. -/
theorem fetchedSize_f7_iff (wide data : Bool) (modrm : UInt8) :
    fetchedSize 0xf7 wide data modrm = immediateSize 0xf7 wide data modrm ↔
      regOf modrm ≠ 1 ∧ (regOf modrm = 0 → wide = false) := by
  have isFetched :
      fetchedSize 0xf7 wide data modrm =
        if regOf modrm = 0 then operandSize wide data else 0 := rfl
  have isImmediate :
      immediateSize 0xf7 wide data modrm =
        if regOf modrm ≤ 1 then immediateOperandSize wide data else 0 := rfl
  rw [isFetched, isImmediate]
  simp only [regOf_le_one]
  by_cases isZero : regOf modrm = 0
  · cases wide <;> cases data <;>
      simp [isZero, operandSize, immediateOperandSize]
  · by_cases isOne : regOf modrm = 1
    · cases wide <;> cases data <;>
        simp [isOne, operandSize, immediateOperandSize]
    · simp [isZero, isOne]

/-- The size that is fetched is the one of the encoding. -/
theorem fetchedSize_eq_iff
    (opcode : UInt8) (wide data : Bool) (modrm : UInt8) :
    fetchedSize opcode wide data modrm = immediateSize opcode wide data modrm ↔
      TakesImmediate opcode wide data modrm := by
  by_cases isDword : opcode = 0x68 ∨ opcode = 0xc7
  · rw [fetchedSize_dword_iff isDword]
    constructor
    · intro dword
      refine ⟨fun _ => dword, ?_, ?_⟩ <;> rcases isDword with rfl | rfl <;> simp
    · exact fun takes => takes.dword isDword
  by_cases isByte : opcode = 0xf6
  · subst isByte
    rw [fetchedSize_f6_iff]
    exact ⟨fun test => ⟨by simp, fun _ => test, by simp⟩,
      fun takes => takes.test (Or.inl rfl)⟩
  by_cases isQword : opcode = 0xf7
  · subst isQword
    rw [fetchedSize_f7_iff]
    exact ⟨fun ⟨test, qword⟩ => ⟨by simp, fun _ => test, fun _ => qword⟩,
      fun takes => ⟨takes.test (Or.inr rfl), takes.qword rfl⟩⟩
  have isFetched :
      fetchedSize opcode wide data modrm =
        immediateSize opcode wide data modrm := by
    rw [fetchedSize, if_neg isDword, if_neg isByte, if_neg isQword]
  refine iff_of_true isFetched ⟨fun dword => absurd dword isDword, ?_, ?_⟩
  · rintro (isTest | isTest)
    · exact absurd isTest isByte
    · exact absurd isTest isQword
  · exact fun isTest => absurd isTest isQword

/-- Without a SIB byte it does not matter. -/
theorem operandsSize_of_noSib
    {modrm : UInt8} (noSib : needsSib modrm = false) (sib other : UInt8) :
    operandsSize modrm sib = operandsSize modrm other := by
  have isDisplacement :
      displacementSize modrm sib = displacementSize modrm other := by
    unfold displacementSize
    by_cases isZero : modOf modrm = 0
    · have notFour : rmOf modrm ≠ 4 := by
        intro isFour
        rw [needsSib, isZero, isFour] at noSib
        cases noSib
      simp only [notFour, false_and]
    · rw [if_neg isZero, if_neg isZero]
  rw [operandsSize, operandsSize, isDisplacement]

/-- There are at most ModRM, SIB and four bytes. -/
theorem operandsSize_le (modrm sib : UInt8) :
    1 ≤ operandsSize modrm sib ∧ operandsSize modrm sib ≤ 6 := by
  unfold operandsSize displacementSize
  split_ifs <;> decide

/-- A bound of both branches. -/
theorem ite_le_of_le
    {p : Prop} [Decidable p] {a b bound : Nat} (isThen : a ≤ bound)
    (isElse : b ≤ bound) :
    (if p then a else b) ≤ bound := by
  split
  · exact isThen
  · exact isElse

/-- An operand has at most eight bytes. -/
theorem operandSize_le (wide data : Bool) :
    operandSize wide data ≤ 8 := by
  cases wide <;> cases data <;> decide

/-- An immediate operand has no more. -/
theorem immediateOperandSize_le (wide data : Bool) :
    immediateOperandSize wide data ≤ 8 :=
  (Nat.min_le_left _ _).trans (operandSize_le wide data)

/-- There are at most eight bytes. -/
theorem immediateSize_le (opcode : UInt8) (wide data : Bool) (modrm : UInt8) :
    immediateSize opcode wide data modrm ≤ 8 := by
  have operand := operandSize_le wide data
  have immediate := immediateOperandSize_le wide data
  have one : 1 ≤ 8 := by decide
  have four : 4 ≤ 8 := by decide
  have none : 0 ≤ 8 := by decide
  exact
    ite_le_of_le immediate <| ite_le_of_le one <| ite_le_of_le one <|
      ite_le_of_le operand <| ite_le_of_le four <|
        ite_le_of_le (ite_le_of_le one none) <|
          ite_le_of_le (ite_le_of_le immediate none) none

/-- At most eight bytes are fetched. -/
theorem fetchedSize_le (opcode : UInt8) (wide data : Bool) (modrm : UInt8) :
    fetchedSize opcode wide data modrm ≤ 8 := by
  have operand := operandSize_le wide data
  have immediate := immediateSize_le opcode wide data modrm
  have one : 1 ≤ 8 := by decide
  have four : 4 ≤ 8 := by decide
  have none : 0 ≤ 8 := by decide
  exact
    ite_le_of_le four <| ite_le_of_le (ite_le_of_le one none) <|
      ite_le_of_le (ite_le_of_le operand none) immediate

/-- At most fourteen bytes are read. -/
theorem handledSize_le
    (opcode : UInt8) (wide data : Bool) (modrm sib : UInt8) :
    handledSize opcode wide data modrm sib ≤ 14 := by
  have operands := operandsSize_le modrm sib
  have fetched := fetchedSize_le opcode wide data modrm
  unfold handledSize
  split_ifs <;> omega

/-! ## The first addition -/

/-- The first addition goes behind the opcode. -/
structure Step.Reaches (step : Step) (rip : U64) : Prop where
  moves : step ≠ .none
  byte : step = .byte → rip.toNat % 2 ^ 8 ≠ 2 ^ 8 - 1
  dword : step = .dword → rip.toNat % 2 ^ 32 ≠ 2 ^ 32 - 1

/-- The handler is behind the opcode. -/
theorem Step.Reaches.apply_eq
    {step : Step} {rip : U64} (reaches : step.Reaches rip) :
    step.apply rip = rip + 1 := by
  cases step with
  | none => exact absurd rfl reaches.moves
  | byte => exact addLow_byte_eq_add (reaches.byte rfl)
  | dword =>
      have notEnd := reaches.dword rfl
      exact addLow_eq_add (by omega)
  | qword => rfl

/-- Without a carry the end is reached exactly by the right size. -/
theorem addLow_eq_iff
    {rip : U64} {m n : Nat} (smallM : m < 2 ^ 31) (smallN : n < 2 ^ 31) :
    addLow 32 rip m = rip + BitVec.ofNat 64 n ↔
      m = n ∧ rip.toNat % 2 ^ 32 + n < 2 ^ 32 := by
  have bound := rip.isLt
  rw [← BitVec.toNat_inj, addLow_toNat, BitVec.toNat_add, BitVec.toNat_ofNat]
  omega

/-- The low bits that were lost in the first addition are not made up for. -/
theorem ends_ne_of_carry
    {step : Step} {rip : U64} (moves : step ≠ .none)
    (lost : ¬ step.Reaches rip) {m n : Nat} (smallM : m < 2 ^ 7)
    (smallN : n < 2 ^ 7) :
    addLow 32 (step.apply rip) m ≠ rip + 1 + BitVec.ofNat 64 n := by
  have bound := rip.isLt
  have isOne : (1 : U64).toNat = 1 := rfl
  intro same
  have sameNat := congrArg BitVec.toNat same
  rw [addLow_toNat, BitVec.toNat_add, BitVec.toNat_add, isOne,
    BitVec.toNat_ofNat] at sameNat
  cases step with
  | none => exact moves rfl
  | byte =>
      have isEnd : rip.toNat % 2 ^ 8 = 2 ^ 8 - 1 := by
        by_contra notEnd
        exact lost ⟨nofun, fun _ => notEnd, nofun⟩
      rw [Step.apply, addLow_byte_toNat] at sameNat
      omega
  | dword =>
      have isEnd : rip.toNat % 2 ^ 32 = 2 ^ 32 - 1 := by
        by_contra notEnd
        exact lost ⟨nofun, nofun, fun _ => notEnd⟩
      rw [Step.apply, addLow_toNat] at sameNat
      omega
  | qword => exact lost ⟨nofun, nofun, nofun⟩

/-- The opcodes whose handlers do not step behind them. -/
theorem stepOf_eq_none {opcode : UInt8} :
    stepOf opcode = .none ↔ opcode = 0x32 := by
  unfold stepOf
  split_ifs with isNone <;> simp [isNone]

/-- The opcodes whose handlers add to the low byte. -/
theorem stepOf_eq_byte {opcode : UInt8} :
    stepOf opcode = .byte ↔ opcode ∈ byteOpcodes := by
  unfold stepOf
  split_ifs with isNone isByte
  · subst isNone
    decide
  · simp [isByte]
  · simp [isByte]
  · simp [isByte]

/-- The opcodes whose handlers add to all bits. -/
theorem stepOf_eq_qword {opcode : UInt8} :
    stepOf opcode = .qword ↔ opcode ∈ qwordOpcodes := by
  have apart : ∀ opcode ∈ byteOpcodes, opcode ∉ qwordOpcodes := by
    decide +kernel
  unfold stepOf
  split_ifs with isNone isByte isQword
  · subst isNone
    decide
  · simp [apart opcode isByte]
  · simp [isQword]
  · simp [isQword]

/-! ## One instruction -/

namespace Instruction

/-- Where the handler is behind its first addition. -/
def behindOpcode (instruction : Instruction) (rip : U64) : U64 :=
  (stepOf instruction.opcode).apply
    (rip + BitVec.ofNat 64 instruction.prefixes.length)

/-- Where the decoder ends. -/
def decodedEnd
    (instruction : Instruction) (memory : U64 → UInt8) (rip : U64) : U64 :=
  addLow 32 (instruction.behindOpcode rip)
    (handledSize instruction.opcode instruction.wide instruction.data
      (memory (instruction.behindOpcode rip))
      (memory (addLow 32 (instruction.behindOpcode rip) 1)))

/--
The decoder ends at the end of the instruction: its handler steps behind the
opcode and takes the immediate value, an opcode with an addition to the low byte
is not the last of 256 bytes, and the instruction ends in front of the last one of
2³² bytes, or this is the opcode and the addition is one to all bits.
-/
structure Fits (rip : U64) (instruction : Instruction) : Prop where
  steps : instruction.opcode ≠ 0x32
  size :
    TakesImmediate instruction.opcode instruction.wide instruction.data
      (instruction.modrm.getD 0)
  byte :
    instruction.opcode ∈ byteOpcodes →
      (rip.toNat + instruction.prefixes.length) % 2 ^ 8 ≠ 2 ^ 8 - 1
  inHalf :
    rip.toNat % 2 ^ 32 + instruction.length < 2 ^ 32 ∨
      instruction.opcode ∈ qwordOpcodes ∧
        rip.toNat % 2 ^ 32 + instruction.prefixes.length = 2 ^ 32 - 1

variable {instruction : Instruction}

/-- Prefixes, opcode and what follows. -/
theorem length_eq (instruction : Instruction) :
    instruction.length =
      instruction.prefixes.length + 1 + instruction.rest.length := by
  rw [length, bytes, List.length_append, List.length_cons]
  omega

/-- An instruction with a ModRM byte. -/
theorem rest_of_modrm (inModrm : instruction.opcode ∈ modrmOpcodes) :
    ∃ modrm,
      instruction.modrm = some modrm ∧
        instruction.rest[0]? = some modrm ∧
          (needsSib modrm = true →
              instruction.rest[1]? = some (instruction.sib.getD 0)) ∧
            instruction.rest.length =
              operandsSize modrm (instruction.sib.getD 0) +
                immediateSize instruction.opcode instruction.wide
                  instruction.data modrm := by
  have hasModrm := instruction.hasModrm
  rw [decide_eq_true inModrm] at hasModrm
  obtain ⟨modrm, isModrm⟩ := Option.isSome_iff_exists.mp hasModrm
  have hasSib := instruction.hasSib
  have isDisplacement := instruction.displacementLength
  have isImmediate := instruction.immediateLength
  rw [isModrm] at hasSib isDisplacement isImmediate
  rw [Option.any_some] at hasSib
  rw [Option.elim_some] at isDisplacement
  rw [Option.getD_some] at isImmediate
  refine ⟨modrm, isModrm, ?_, fun isNeeded => ?_, ?_⟩
  · rw [rest, isModrm]
    rfl
  · rw [isNeeded] at hasSib
    obtain ⟨sib, isSib⟩ := Option.isSome_iff_exists.mp hasSib
    rw [rest, isModrm, isSib]
    rfl
  · have sibLength :
        instruction.sib.toList.length = if needsSib modrm then 1 else 0 := by
      rw [← hasSib]
      cases instruction.sib <;> rfl
    rw [rest, isModrm, List.length_append, List.length_append,
      List.length_append, Option.toList_some, List.length_singleton, sibLength,
      isDisplacement, isImmediate, operandsSize]
    rfl

/-- An instruction without a ModRM byte. -/
theorem rest_of_plain (notModrm : instruction.opcode ∉ modrmOpcodes) :
    instruction.modrm = none ∧
      instruction.rest.length =
        immediateSize instruction.opcode instruction.wide instruction.data
          0 := by
  have hasModrm := instruction.hasModrm
  rw [decide_eq_false notModrm] at hasModrm
  have isModrm : instruction.modrm = none :=
    Option.not_isSome_iff_eq_none.mp (by rw [hasModrm]; exact Bool.false_ne_true)
  have hasSib := instruction.hasSib
  have isDisplacement := instruction.displacementLength
  have isImmediate := instruction.immediateLength
  rw [isModrm] at hasSib isDisplacement isImmediate
  have isSib : instruction.sib = none :=
    Option.not_isSome_iff_eq_none.mp (by rw [hasSib]; exact Bool.false_ne_true)
  refine ⟨isModrm, ?_⟩
  rw [rest, isModrm, isSib, List.length_append, List.length_append,
    isDisplacement, isImmediate]
  exact Nat.zero_add _

/-- The prefix 66, or a REX prefix. -/
theorem isPrefix_of_mem
    {byte : UInt8} (isMember : byte ∈ instruction.prefixes) :
    IsPrefix byte := by
  rw [prefixes, List.mem_append, Option.mem_toList] at isMember
  rcases isMember with isData | isRex
  · left
    split_ifs at isData
    · exact List.mem_singleton.mp isData
    · cases isData
  · right
    exact instruction.isRex byte isRex

/-- At most fourteen bytes follow the opcode. -/
theorem length_rest_le (instruction : Instruction) :
    instruction.rest.length ≤ 14 := by
  by_cases inModrm : instruction.opcode ∈ modrmOpcodes
  · obtain ⟨modrm, -, -, -, isLength⟩ := rest_of_modrm inModrm
    have operands := operandsSize_le modrm (instruction.sib.getD 0)
    have immediate :=
      immediateSize_le instruction.opcode instruction.wide instruction.data modrm
    omega
  · obtain ⟨-, isLength⟩ := rest_of_plain inModrm
    have immediate :=
      immediateSize_le instruction.opcode instruction.wide instruction.data 0
    omega

/-- There are at most two prefixes. -/
theorem length_prefixes_le (instruction : Instruction) :
    instruction.prefixes.length ≤ 2 := by
  rw [prefixes, List.length_append]
  cases instruction.data <;> cases instruction.rex <;> simp

/-- A ModRM byte that is not part of the instruction does not matter. -/
theorem fetchedSize_of_plain
    {opcode : UInt8} (notModrm : opcode ∉ modrmOpcodes) (wide data : Bool)
    (modrm other : UInt8) :
    fetchedSize opcode wide data modrm = fetchedSize opcode wide data other := by
  have notByte : opcode ≠ 0xf6 := by
    rintro rfl
    exact notModrm (by decide)
  have notQword : opcode ≠ 0xf7 := by
    rintro rfl
    exact notModrm (by decide)
  simp only [fetchedSize, immediateSize, if_neg notByte, if_neg notQword]

/--
Behind the opcode the right end is reached exactly by the right size of the
immediate value, if nothing carries.
-/
theorem handled_eq_iff
    {memory : U64 → UInt8} {behind : U64}
    (stored : StoredAt memory behind instruction.rest) :
    addLow 32 behind
          (handledSize instruction.opcode instruction.wide instruction.data
            (memory behind) (memory (addLow 32 behind 1))) =
        behind + BitVec.ofNat 64 instruction.rest.length ↔
      TakesImmediate instruction.opcode instruction.wide instruction.data
          (instruction.modrm.getD 0) ∧
        behind.toNat % 2 ^ 32 + instruction.rest.length < 2 ^ 32 := by
  have small := instruction.length_rest_le
  by_cases inModrm : instruction.opcode ∈ modrmOpcodes
  · obtain ⟨modrm, isModrm, isFirst, isSecond, isLength⟩ := rest_of_modrm inModrm
    have atFirst : memory behind = modrm := by
      have isByte := stored.byte_at isFirst
      rwa [BitVec.add_zero] at isByte
    have bound := operandsSize_le modrm (memory (addLow 32 behind 1))
    have fetched :=
      fetchedSize_le instruction.opcode instruction.wide instruction.data modrm
    rw [isModrm, Option.getD_some, ← fetchedSize_eq_iff, handledSize,
      if_pos inModrm, atFirst,
      addLow_eq_iff (by omega) (by omega)]
    refine and_congr_left fun inHalf => ?_
    have hasOne := operandsSize_le modrm (instruction.sib.getD 0)
    have sameSize :
        operandsSize modrm (memory (addLow 32 behind 1)) =
          operandsSize modrm (instruction.sib.getD 0) := by
      cases isNeeded : needsSib modrm
      · exact operandsSize_of_noSib isNeeded _ _
      · have atSecond := stored.byte_at (isSecond isNeeded)
        rw [addLow_eq_add (by omega), atSecond]
    rw [sameSize, isLength]
    exact Nat.add_left_cancel_iff
  · obtain ⟨isModrm, isLength⟩ := rest_of_plain inModrm
    have fetched :=
      fetchedSize_le instruction.opcode instruction.wide instruction.data 0
    rw [isModrm, Option.getD_none, ← fetchedSize_eq_iff, handledSize,
      if_neg inModrm, Nat.zero_add,
      fetchedSize_of_plain inModrm _ _ (memory behind) 0,
      addLow_eq_iff (by omega) (by omega), isLength]

/-- The condition at the opcode. -/
theorem fits_iff
    {rip : U64}
    (noCarry : rip.toNat % 2 ^ 32 + instruction.prefixes.length < 2 ^ 32) :
    Fits rip instruction ↔
      (stepOf instruction.opcode).Reaches
          (rip + BitVec.ofNat 64 instruction.prefixes.length) ∧
        TakesImmediate instruction.opcode instruction.wide instruction.data
            (instruction.modrm.getD 0) ∧
          (rip + BitVec.ofNat 64 instruction.prefixes.length + 1).toNat %
                2 ^ 32 +
              instruction.rest.length <
            2 ^ 32 := by
  have bound := rip.isLt
  have fewPrefixes := instruction.length_prefixes_le
  have isLength := instruction.length_eq
  have small := instruction.length_rest_le
  have isOne : (1 : U64).toNat = 1 := rfl
  have isOpcode :
      (rip + BitVec.ofNat 64 instruction.prefixes.length).toNat =
        (rip.toNat + instruction.prefixes.length) % 2 ^ 64 := by
    rw [BitVec.toNat_add, BitVec.toNat_ofNat, Nat.add_mod_mod]
  rw [BitVec.toNat_add, isOne, isOpcode]
  constructor
  · rintro ⟨steps, size, byte, inHalf⟩
    refine ⟨⟨fun isNone => steps (stepOf_eq_none.mp isNone), fun isByte => ?_,
      fun isDword => ?_⟩, size, ?_⟩
    · have notLast := byte (stepOf_eq_byte.mp isByte)
      rw [isOpcode]
      omega
    · rcases inHalf with inHalf | ⟨isQword, -⟩
      · rw [isOpcode]
        omega
      · rw [stepOf_eq_qword.mpr isQword] at isDword
        cases isDword
    · rcases inHalf with inHalf | ⟨-, atEnd⟩ <;> omega
  · rintro ⟨⟨moves, byte, dword⟩, size, inHalf⟩
    rw [isOpcode] at byte dword
    refine ⟨fun isNone => moves (stepOf_eq_none.mpr isNone), size,
      fun isByte => ?_, ?_⟩
    · have notLast := byte (stepOf_eq_byte.mpr isByte)
      omega
    · by_cases atEnd :
          rip.toNat % 2 ^ 32 + instruction.prefixes.length = 2 ^ 32 - 1
      · right
        refine ⟨stepOf_eq_qword.mp ?_, atEnd⟩
        cases isStep : stepOf instruction.opcode with
        | none => exact absurd isStep moves
        | byte =>
            have notLast := byte isStep
            omega
        | dword =>
            have notLast := dword isStep
            omega
        | qword => rfl
      · left
        omega

/-- The decoder ends at the end of the instruction. -/
theorem decodedEnd_eq_iff
    {memory : U64 → UInt8} {rip : U64}
    (stored : StoredAt memory rip instruction.bytes)
    (noCarry : rip.toNat % 2 ^ 32 + instruction.prefixes.length < 2 ^ 32) :
    instruction.decodedEnd memory rip =
        rip + BitVec.ofNat 64 instruction.length ↔
      Fits rip instruction := by
  have small := instruction.length_rest_le
  obtain ⟨-, isOpcode, behind⟩ := storedAt_append.mp stored
  have isEnd :
      rip + BitVec.ofNat 64 instruction.length =
        rip + BitVec.ofNat 64 instruction.prefixes.length + 1 +
          BitVec.ofNat 64 instruction.rest.length := by
    rw [length_eq, BitVec.ofNat_add, BitVec.ofNat_add, BitVec.add_assoc,
      BitVec.add_assoc, BitVec.add_assoc]
    rfl
  rw [isEnd, fits_iff noCarry]
  by_cases isNone : instruction.opcode = 0x32
  · refine iff_of_false (fun same => ?_) fun fits =>
      fits.1.moves (stepOf_eq_none.mpr isNone)
    have inModrm : instruction.opcode ∈ modrmOpcodes := by
      rw [isNone]
      decide
    obtain ⟨modrm, -, -, -, isLength⟩ := rest_of_modrm inModrm
    have hasModrm := operandsSize_le modrm (instruction.sib.getD 0)
    -- The opcode 32 is read once more, as a ModRM byte without displacement.
    have isOne (wide data : Bool) (sib : UInt8) :
        handledSize 0x32 wide data 0x32 sib = 1 := rfl
    have atOpcode :
        instruction.behindOpcode rip =
          rip + BitVec.ofNat 64 instruction.prefixes.length := by
      rw [behindOpcode, stepOf_eq_none.mpr isNone]
      rfl
    rw [decodedEnd, atOpcode, isOpcode, isNone, isOne, BitVec.add_assoc] at same
    have isSize :=
      ((addLow_eq_iff (m := 1) (n := 1 + instruction.rest.length) (by omega)
        (by omega)).mp (by rw [BitVec.ofNat_add]; exact same)).1
    omega
  · by_cases reaches :
        (stepOf instruction.opcode).Reaches
          (rip + BitVec.ofNat 64 instruction.prefixes.length)
    · rw [decodedEnd, behindOpcode, reaches.apply_eq, handled_eq_iff behind,
        and_iff_right reaches]
    · refine iff_of_false ?_ fun fits => reaches fits.1
      have handled :=
        handledSize_le instruction.opcode instruction.wide instruction.data
          (memory (instruction.behindOpcode rip))
          (memory (addLow 32 (instruction.behindOpcode rip) 1))
      exact
        ends_ne_of_carry (fun isStep => isNone (stepOf_eq_none.mp isStep))
          reaches (Nat.lt_of_le_of_lt handled (by decide))
          (Nat.lt_of_le_of_lt small (by decide))

end Instruction

/-! ## One `_exec` -/

open Instruction

/-- What `_exec` does with a stored instruction. -/
theorem exec_instruction
    {s : State} {instruction : Instruction}
    (stored : StoredAt s.machine.memory s.rip instruction.bytes)
    (noCarry : s.rip.toNat % 2 ^ 32 + instruction.prefixes.length < 2 ^ 32) :
    ∃ t,
      exec (1 + instruction.prefixes.length) (clearState s) = some t ∧
        t.machine = s.machine ∧
          t.rip = instruction.decodedEnd s.machine.memory s.rip := by
  obtain ⟨inFront, isOpcode, -⟩ := storedAt_append.mp stored
  obtain ⟨u, prefixed, isPrefixed⟩ := exec_prefixes inFront noCarry
  obtain ⟨handler, isEntry, moves⟩ := entry_known instruction.known
  obtain ⟨t, isEnd, isMachine, isRip⟩ := moves (readOpcode u) prefixed.ripRel
  have isWide : u.wide = instruction.wide := by
    rw [State.wide, prefixed.rex, Instruction.wide]
    cases instruction.rex <;> rfl
  have isData : u.data = instruction.data := by
    rw [State.data, prefixed.dataPrefix]
    cases instruction.data <;> rfl
  refine ⟨t, ?_, isMachine.trans prefixed.machine, ?_⟩
  · have isHandler :
        opcodeTable[(u.machine.memory u.rip).toNat]? = some (run handler) := by
      rw [prefixed.machine, prefixed.rip, isOpcode]
      exact isEntry
    rw [isPrefixed, exec_run prefixed.opcodeTable isHandler 0]
    exact isEnd
  · have isMachine : (readOpcode u).machine = s.machine := prefixed.machine
    have isStart :
        (readOpcode u).rip =
          s.rip + BitVec.ofNat 64 instruction.prefixes.length :=
      prefixed.rip
    have isWide : (readOpcode u).wide = instruction.wide := isWide
    have isData : (readOpcode u).data = instruction.data := isData
    rw [isRip, isMachine, isStart, isWide, isData]
    rfl

/-- `_exec` after `_clear_state` ends behind the instruction. -/
def Advances (s t : State) (instruction : Instruction) : Prop :=
  (∃ fuel, exec fuel (clearState s) = some t) ∧
    t.rip = s.rip + BitVec.ofNat 64 instruction.length

/-- Where the prefixes reach the end of 2³² bytes, one of them is the last byte. -/
theorem isPrefix_lastAddress
    {memory : U64 → UInt8} {rip : U64} {instruction : Instruction}
    (stored : StoredAt memory rip instruction.prefixes)
    (carries :
      2 ^ 32 ≤ rip.toNat % 2 ^ 32 + instruction.prefixes.length) :
    IsPrefix (memory (lastAddress rip)) := by
  have bound := rip.isLt
  have inPrefixes :
      2 ^ 32 - 1 - rip.toNat % 2 ^ 32 < instruction.prefixes.length := by
    omega
  have atLast := stored.byte_at (List.getElem?_eq_getElem inPrefixes)
  have isLast :
      rip + BitVec.ofNat 64 (2 ^ 32 - 1 - rip.toNat % 2 ^ 32) =
        lastAddress rip := by
    rw [← BitVec.toNat_inj, lastAddress, BitVec.toNat_add, BitVec.toNat_ofNat,
      BitVec.toNat_ofNat, high]
    omega
  rw [← isLast, atLast]
  exact isPrefix_of_mem (List.getElem_mem inPrefixes)

/-- The decoder ends at the end of an instruction that fits. -/
theorem Instruction.Fits.advances
    {s : State} {instruction : Instruction} (fits : Fits s.rip instruction)
    (stored : StoredAt s.machine.memory s.rip instruction.bytes) :
    ∃ t, Advances s t instruction ∧ t.machine = s.machine := by
  have isLength := instruction.length_eq
  have noCarry :
      s.rip.toNat % 2 ^ 32 + instruction.prefixes.length < 2 ^ 32 := by
    rcases fits.inHalf with inHalf | ⟨-, atEnd⟩ <;> omega
  obtain ⟨t, isEnd, isMachine, isRip⟩ := exec_instruction stored noCarry
  rw [(decodedEnd_eq_iff stored noCarry).mpr fits] at isRip
  exact ⟨t, ⟨⟨_, isEnd⟩, isRip⟩, isMachine⟩

/-- Where the decoder ends at its end, an instruction fits. -/
theorem Advances.fits
    {s t : State} {instruction : Instruction} (advances : Advances s t instruction)
    (stored : StoredAt s.machine.memory s.rip instruction.bytes) :
    Fits s.rip instruction ∧ t.machine = s.machine := by
  obtain ⟨⟨fuel, isEnd⟩, isRip⟩ := advances
  by_cases noCarry :
      s.rip.toNat % 2 ^ 32 + instruction.prefixes.length < 2 ^ 32
  · obtain ⟨u, isEndToo, isMachine, isRipToo⟩ := exec_instruction stored noCarry
    rw [exec_unique isEndToo isEnd] at isMachine isRipToo
    rw [isRip] at isRipToo
    exact ⟨(decodedEnd_eq_iff stored noCarry).mp isRipToo.symm, isMachine⟩
  · have bound := s.rip.isLt
    have isLength := instruction.length_eq
    have fewPrefixes := instruction.length_prefixes_le
    have small := instruction.length_rest_le
    have isFrame :=
      exec_frame (s := clearState s)
        (isPrefix_lastAddress (storedAt_append.mp stored).1
          (Nat.le_of_not_lt noCarry))
        isEnd
    have sameHigh : high t.rip = high s.rip := (Prod.ext_iff.mp isFrame).2
    rw [isRip, high, high, BitVec.toNat_add, BitVec.toNat_ofNat] at sameHigh
    omega

/-! ## Code at an address -/

/-- A state in front of some code, with nothing decoded yet. -/
def stateAt (rip : U64) (code : List UInt8) : State where
  machine :=
    { memory := fun address => code.getD (address - rip).toNat 0
      architecture := 0
      loaded := fun _ _ _ => 0
      loadEntry := 0 }
  rip := rip
  rax := 0
  eflags := 0
  r15b := 0
  opcodeTable := .main
  displacement := 0
  res := 0
  immOp := none
  overrideReg := none
  reg := .null
  rm := .null
  immVal := 0
  sibIndex := .null
  sibBase := .null
  opcode := 0
  rex := 0
  dataPrefix := 0
  addrPrefix := 0
  repz := 0
  repnz := 0
  lock := 0
  override := 0
  mod := 0
  sib := 0
  sibScale := 0
  ripRel := 0
  dflag := 0
  aflag := 0
  isRmSrc := 0

/-- `mov rbx,rax` -/
def movRbxRax : Instruction where
  data := false
  rex := some 0x48
  opcode := 0x89
  modrm := some 0xc3
  sib := none
  displacement := []
  immediate := []
  isRex := by
    rintro byte ⟨⟩
    rfl
  known := by decide
  hasModrm := rfl
  hasSib := rfl
  displacementLength := rfl
  immediateLength := rfl

/-- `xor al,al` with the opcode 32 -/
def xorAlAl : Instruction where
  data := false
  rex := none
  opcode := 0x32
  modrm := some 0xc0
  sib := none
  displacement := []
  immediate := []
  isRex := nofun
  known := by decide
  hasModrm := rfl
  hasSib := rfl
  displacementLength := rfl
  immediateLength := rfl

/-! ## The sweep -/

/-- `_exec` after `_clear_state` ends behind each of the instructions. -/
def Splits : State → List Instruction → Prop
  | _, [] => True
  | s, instruction :: instructions =>
      ∃ t, Advances s t instruction ∧ Splits t instructions

/-- Each of the instructions fits at its address. -/
def FitAll : U64 → List Instruction → Prop
  | _, [] => True
  | rip, instruction :: instructions =>
      Fits rip instruction ∧
        FitAll (rip + BitVec.ofNat 64 instruction.length) instructions

/--
The sweep splits stored instructions at their true boundaries exactly if each of
them fits at its address.
-/
theorem splits_iff
    (s : State) (instructions : List Instruction)
    (stored :
      StoredAt s.machine.memory s.rip
        (instructions.flatMap Instruction.bytes)) :
    Splits s instructions ↔ FitAll s.rip instructions := by
  induction instructions generalizing s with
  | nil => exact Iff.rfl
  | cons instruction instructions inductionHypothesis =>
      rw [List.flatMap_cons] at stored
      obtain ⟨isFirst, behind⟩ := storedAt_append.mp stored
      have goesOn {t : State} (isMachine : t.machine = s.machine)
          (isRip : t.rip = s.rip + BitVec.ofNat 64 instruction.length) :
          Splits t instructions ↔
            FitAll (s.rip + BitVec.ofNat 64 instruction.length)
              instructions := by
        rw [← isRip]
        apply inductionHypothesis
        rw [isMachine, isRip]
        exact behind
      constructor
      · rintro ⟨t, advances, splits⟩
        obtain ⟨fits, isMachine⟩ := advances.fits isFirst
        exact ⟨fits, (goesOn isMachine advances.2).mp splits⟩
      · rintro ⟨fits, fitAll⟩
        obtain ⟨t, advances, isMachine⟩ := fits.advances isFirst
        exact ⟨t, advances, (goesOn isMachine advances.2).mpr fitAll⟩

/-- Two moves at the address 1000. -/
theorem splits_iff_moves :
    Splits (stateAt 0x1000 [0x48, 0x89, 0xc3, 0x48, 0x89, 0xc3])
        [movRbxRax, movRbxRax] ↔
      FitAll 0x1000 [movRbxRax, movRbxRax] :=
  splits_iff (stateAt 0x1000 [0x48, 0x89, 0xc3, 0x48, 0x89, 0xc3])
    [movRbxRax, movRbxRax] ⟨rfl, rfl, rfl, rfl, rfl, rfl, trivial⟩

/-- The bytes 32 c0 are one instruction, but the decoder ends between them. -/
theorem not_splits_xor :
    StoredAt (stateAt 0x1000 [0x32, 0xc0]).machine.memory 0x1000
        ([xorAlAl].flatMap Instruction.bytes) ∧
      (exec 1 (clearState (stateAt 0x1000 [0x32, 0xc0]))).map State.rip =
          some 0x1001 ∧
        ¬ Splits (stateAt 0x1000 [0x32, 0xc0]) [xorAlAl] := by
  have stored :
      StoredAt (stateAt 0x1000 [0x32, 0xc0]).machine.memory 0x1000
        xorAlAl.bytes :=
    ⟨rfl, rfl, trivial⟩
  refine ⟨stored, rfl, ?_⟩
  rintro ⟨t, advances, -⟩
  exact (advances.fits stored).1.steps rfl

end BinTools.X86
