import BinTools.ElfTableRounds

namespace BinTools.TableWalk

open PointerLoop (entry entries)

/-!
# What the callbacks of a table walk get

The walk over the program headers moves its cursor before the call and not behind
it, so that the callback gets the second header first.  It and the walk over the
symbols leave their own values in registers that they have to keep.
-/

namespace Walk

/-- When the table is walked right. -/
def IsWalkable : Walk → Prop
  | phdrs machine _ =>
      let header := machine.scratch.rdi
      let head := header + ePhoff machine header
      ePhnum machine header = 0 ∧
        machine.saved =
          { machine.saved with
            rbx := head
            r12 := machine.scratch.rsi
            r13 := head
            r14 := BitVec.ofNat 64 (ePhentsize machine header % 2 ^ 15)
            r15 := header }
  | shdrs machine _ =>
      let header := machine.scratch.rdi
      eShnum machine header = 0 ∨
        eShentsize machine header % 2 ^ 15 ≠ 0 ∧
          (eShnum machine header = 1 ∨ eShentsize machine header < 2 ^ 15)
  | symbols machine _ _ _ =>
      machine.saved =
        { machine.saved with
          rbx := machine.scratch.rsi
          r12 := machine.scratch.rdx
          r13 := machine.scratch.rsi
          r14 := machine.scratch.rcx }

end Walk

/-! ## Entering -/

/-- The end of a table that is computed with `imul`. -/
theorem add_mul_eq_entry (start size stride : Word) :
    start + size * stride = entry start stride.toNat size.toNat := by
  rw [entry, BitVec.ofNat_mul, BitVec.ofNat_toNat, BitVec.ofNat_toNat,
    BitVec.setWidth_eq, BitVec.setWidth_eq]

/-- The size of a table does not overflow. -/
theorem mul_lt_of_half {size stride : Nat} (isHalf : size < 2 ^ 16) :
    size * (stride % 2 ^ 15) < 2 ^ 64 := by
  have isStride : stride % 2 ^ 15 < 2 ^ 15 := Nat.mod_lt _ (by decide)
  calc
    size * (stride % 2 ^ 15) ≤ 2 ^ 16 * 2 ^ 15 :=
      Nat.mul_le_mul isHalf.le isStride.le
    _ < 2 ^ 64 := by decide

/-- The stride of a table is a field of the header, less its topmost bit. -/
theorem upperHalf_load64 (machine : Machine) (address : Word) :
    upperHalf (machine.load64 address) =
      BitVec.ofNat 64 (machine.load (address + 2) 2 % 2 ^ 15) := by
  rw [← toNat_upperHalf_load64, BitVec.ofNat_toNat, BitVec.setWidth_eq]

/-- A stride is what it is as a word. -/
theorem toNat_stride (value : Nat) :
    (BitVec.ofNat 64 (value % 2 ^ 15)).toNat = value % 2 ^ 15 := by
  have isStride : value % 2 ^ 15 < 2 ^ 15 := Nat.mod_lt _ (by decide)
  rw [BitVec.toNat_ofNat]
  exact Nat.mod_eq_of_lt (isStride.trans (by decide))

/-- Where the walks compute that their tables end. -/
theorem tableEnd
    (machine : Machine) (start strideAt sizeAt : Word) :
    start +
        lowerHalf (machine.load64 sizeAt) *
          upperHalf (machine.load64 strideAt) =
      entry start (machine.load (strideAt + 2) 2 % 2 ^ 15)
        (machine.load sizeAt 2) := by
  rw [add_mul_eq_entry, toNat_upperHalf_load64, toNat_lowerHalf_load64]

/-- The registers that the walk over the program headers starts with. -/
theorem phdrEnter_saved (machine : Machine) :
    let header := machine.scratch.rdi
    let head := header + ePhoff machine header
    let stride := ePhentsize machine header % 2 ^ 15
    (phdrEnter machine).saved =
      { machine.saved with
        rbx := entry head stride (ePhnum machine header)
        r12 := machine.scratch.rsi
        r13 := head
        r14 := BitVec.ofNat 64 stride
        r15 := header } := by
  intro header head stride
  have isEnter :
      (phdrEnter machine).saved =
        { machine.saved with
          rbx :=
            machine.load64 (header + 0x20) + header +
              lowerHalf (machine.load64 (header + 0x38)) *
                upperHalf (machine.load64 (header + 0x34))
          r12 := machine.scratch.rsi
          r13 := machine.load64 (header + 0x20) + header
          r14 := upperHalf (machine.load64 (header + 0x34))
          r15 := header } := rfl
  have isHead : machine.load64 (header + 0x20) + header = head :=
    BitVec.add_comm _ _
  rw [isEnter, tableEnd, upperHalf_load64, isHead, BitVec.add_assoc]
  rfl

/-- The registers that the walk over the section headers starts with. -/
theorem shdrEnter_saved
    {machine : Machine}
    (isElf64 : eClass machine machine.scratch.rdi = elfclass64) :
    let header := machine.scratch.rdi
    let head := header + eShoff machine header
    let stride := eShentsize machine header % 2 ^ 15
    (shdrEnter machine).saved.rbx = entry head stride (eShnum machine header) ∧
      (shdrEnter machine).saved.r12 = machine.scratch.rsi ∧
      (shdrEnter machine).saved.r13 = head ∧
      (shdrEnter machine).saved.r14 = BitVec.ofNat 64 stride ∧
      (shdrEnter machine).calls = machine.calls ∧
      (shdrEnter machine).rsp = machine.rsp - 72 ∧
      (shdrEnter machine).stack =
        machine.scratch.rdx :: machine.scratch.rsi :: machine.scratch.rdi ::
          machine.saved.r15 :: machine.saved.r14 :: machine.saved.r13 ::
          machine.saved.r12 :: machine.saved.rbx :: machine.saved.rbp ::
          machine.stack := by
  intro header head stride
  have isEnter : shdrEnter machine = shdrTable64 (shdrSave machine) :=
    if_pos isElf64
  have isEnd :
      machine.load64 (header + 0x28) + header +
          lowerHalf (machine.load64 (header + 0x3c)) *
            upperHalf (machine.load64 (header + 0x38)) =
        entry head stride (eShnum machine header) := by
    rw [tableEnd, BitVec.add_comm _ header, BitVec.add_assoc]
    rfl
  have isStride :
      upperHalf (machine.load64 (header + 0x38)) = BitVec.ofNat 64 stride := by
    rw [upperHalf_load64, BitVec.add_assoc]
    rfl
  rw [isEnter]
  refine ⟨isEnd, rfl, BitVec.add_comm _ _, isStride, rfl, ?_, rfl⟩
  have isRsp :
      (shdrTable64 (shdrSave machine)).rsp =
        machine.rsp - 8 - 8 - 8 - 8 - 8 - 8 - 8 - 8 - 8 := rfl
  rw [isRsp]
  simp only [BitVec.sub_sub]
  rfl

/-! ## The calls -/

/-- The callback got the entries of the table. -/
theorem map_entries_eq_iff
    (callback head lead : Word) (stride size count number : Nat) :
    (entries head stride count).map (fun address => (callback, address + lead)) =
        (entries head size number).map (fun address => (callback, address)) ↔
      count = number ∧
        ∀ index < number, entry head stride index + lead = entry head size index
    := by
  constructor
  · intro isSame
    have lengths := congrArg List.length isSame
    simp only [entries, List.length_map, List.length_range] at lengths
    subst lengths
    refine ⟨rfl, fun index isLess => ?_⟩
    have isHere := congrArg (·[index]?) isSame
    simpa [entries, isLess] using isHere
  · rintro ⟨rfl, isSame⟩
    rw [entries, entries, List.map_map, List.map_map]
    refine List.map_congr_left fun index isIndex => ?_
    exact congrArg (callback, ·) (isSame index (List.mem_range.mp isIndex))

/-- The walk over the program headers gets its first call wrong. -/
theorem phdr_calls_iff (head : Word) (size number : Nat) :
    (Rounds.count (size % 2 ^ 15) number = number ∧
      ∀ index < number,
        entry head (size % 2 ^ 15) index + BitVec.ofNat 64 (size % 2 ^ 15) =
          entry head size index) ↔
      number = 0 := by
  constructor
  · rintro ⟨isCount, isSame⟩
    by_contra notZero
    have isFirst := isSame 0 (Nat.pos_of_ne_zero notZero)
    rw [PointerLoop.entry_zero, PointerLoop.entry_zero] at isFirst
    have isZero : BitVec.ofNat 64 (size % 2 ^ 15) = 0 := by
      simpa using isFirst
    have noStride : size % 2 ^ 15 = 0 := by
      rw [← toNat_stride size, isZero]
      rfl
    rw [Rounds.count, if_pos noStride] at isCount
    exact notZero isCount.symm
  · rintro rfl
    exact ⟨by simp [Rounds.count], by simp⟩

/-- The walk over the section headers loses the topmost bit of the size. -/
theorem shdr_calls_iff (head : Word) {size : Nat} (number : Nat)
    (isHalf : size < 2 ^ 16) :
    (Rounds.count (size % 2 ^ 15) number = number ∧
      ∀ index < number,
        entry head (size % 2 ^ 15) index + 0 = entry head size index) ↔
      number = 0 ∨ size % 2 ^ 15 ≠ 0 ∧ (number = 1 ∨ size < 2 ^ 15) := by
  constructor
  · rintro ⟨isCount, isSame⟩
    by_cases isEmpty : number = 0
    · exact Or.inl isEmpty
    refine Or.inr ⟨?_, ?_⟩
    · intro isZero
      rw [Rounds.count, if_pos isZero] at isCount
      exact isEmpty isCount.symm
    · by_cases isSingle : number = 1
      · exact Or.inl isSingle
      have isSecond := isSame 1 (by omega)
      rw [add_zero, PointerLoop.entry_eq_iff] at isSecond
      right
      omega
  · rintro (rfl | ⟨notZero, isRight⟩)
    · exact ⟨by simp [Rounds.count], by simp⟩
    refine ⟨if_neg notZero, fun index isLess => ?_⟩
    rw [add_zero]
    rcases isRight with rfl | isSmall
    · have isFirst : index = 0 := by omega
      rw [isFirst, PointerLoop.entry_zero, PointerLoop.entry_zero]
    · rw [Nat.mod_eq_of_lt isSmall]

/-! ## The three walks -/

/-- The calls that were made are those behind the earlier ones. -/
theorem exists_calls_iff
    {before later calls : List Call} (isLater : later = before ++ calls)
    (view : Call → Word × Word) (expected : List (Word × Word)) :
    (∃ those, later = before ++ those ∧ those.map view = expected) ↔
      calls.map view = expected := by
  subst isLater
  constructor
  · rintro ⟨those, isSame, isExpected⟩
    rwa [List.append_cancel_left isSame]
  · intro isExpected
    exact ⟨calls, rfl, isExpected⟩

theorem phdrs_isWalked_iff
    (code : Code) (machine : Machine)
    (isElf64 : eClass machine machine.scratch.rdi = elfclass64) :
    (Walk.phdrs machine isElf64).IsWalked code ↔
      (Walk.phdrs machine isElf64).IsWalkable := by
  let header := machine.scratch.rdi
  let number := ePhnum machine header
  have entered := phdrEnter_saved machine
  dsimp only at entered
  have isStride :
      (phdrEnter machine).saved.r14.toNat =
        ePhentsize machine header % 2 ^ 15 := by
    rw [entered]
    exact toNat_stride _
  have isEnd :
      (phdrEnter machine).saved.rbx =
        entry (phdrEnter machine).saved.r13
          (phdrEnter machine).saved.r14.toNat number := by
    rw [isStride, entered]
  have fits : number * (phdrEnter machine).saved.r14.toNat < 2 ^ 64 := by
    rw [isStride]
    exact mul_lt_of_half (load_two_lt machine _)
  refine ((phdrRounds code).exists_run_iff isEnd fits phdrLeave _).trans ?_
  obtain ⟨isSaved, isRsp, _, _, _, calls, isCalls, arguments⟩ :=
    (phdrRounds code).iterate (phdrEnter machine)
      (Rounds.count (phdrEnter machine).saved.r14.toNat number)
  generalize (phdrRound code)^[_] (phdrEnter machine) = later at *
  rw [isStride, entered] at isSaved arguments
  refine (and_congr_left' (exists_calls_iff isCalls _ _)).trans ?_
  have callsIff :
      calls.map (fun call => (call.target, call.rsi)) =
          (Walk.phdrs machine isElf64).table.map
            (fun address => (machine.scratch.rsi, address)) ↔
        number = 0 := by
    rw [arguments]
    exact
      (map_entries_eq_iff _ _ _ _ _ _ _).trans (phdr_calls_iff _ _ number)
  refine (and_congr_left' callsIff).trans (and_congr_right fun isEmpty => ?_)
  have isRspBack :
      (phdrEnter machine).rsp + BitVec.ofNat 64 (8 * 3) = machine.rsp := by
    have isRspIn : (phdrEnter machine).rsp = machine.rsp - 8 - 8 - 8 := rfl
    rw [isRspIn]
    simp only [BitVec.sub_sub]
    exact BitVec.sub_add_cancel _ _
  have isCount :
      Rounds.count (ePhentsize machine header % 2 ^ 15) number = 0 := by
    rw [isEmpty]
    exact ite_self 0
  have isZero : ePhnum machine machine.scratch.rdi = 0 := isEmpty
  rw [isCount, isZero, PointerLoop.entry_zero] at isSaved
  constructor
  · rintro ⟨keeps, _⟩
    exact keeps.symm.trans isSaved
  · intro isSame
    refine ⟨isSaved.trans isSame.symm, ?_⟩
    have isPopped :
        (phdrLeave later).rsp = later.rsp + BitVec.ofNat 64 (8 * 3) := rfl
    rw [isPopped, isRsp]
    exact isRspBack

/-- The walk over the section headers puts everything back. -/
theorem shdrs_isWalked_iff
    (code : Code) (machine : Machine)
    (isElf64 : eClass machine machine.scratch.rdi = elfclass64) :
    (Walk.shdrs machine isElf64).IsWalked code ↔
      (Walk.shdrs machine isElf64).IsWalkable := by
  let header := machine.scratch.rdi
  let number := eShnum machine header
  obtain ⟨isRbx, isR12, isR13, isR14, isCallsIn, isRspIn, isStackIn⟩ :=
    shdrEnter_saved isElf64
  have isStride :
      (shdrEnter machine).saved.r14.toNat =
        eShentsize machine header % 2 ^ 15 := by
    rw [isR14]
    exact toNat_stride _
  have isEnd :
      (shdrEnter machine).saved.rbx =
        entry (shdrEnter machine).saved.r13
          (shdrEnter machine).saved.r14.toNat number := by
    rw [isStride, isRbx, isR13]
  have fits : number * (shdrEnter machine).saved.r14.toNat < 2 ^ 64 := by
    rw [isStride]
    exact mul_lt_of_half (load_two_lt machine _)
  refine ((shdrRounds code).exists_run_iff isEnd fits shdrLeave _).trans ?_
  obtain ⟨_, isRsp, isStack, _, _, calls, isCalls, arguments⟩ :=
    (shdrRounds code).iterate (shdrEnter machine)
      (Rounds.count (shdrEnter machine).saved.r14.toNat number)
  generalize (shdrRound code)^[_] (shdrEnter machine) = later at *
  rw [isStride, isR13, isR12] at arguments
  rw [isCallsIn] at isCalls
  rw [isStackIn] at isStack
  rw [isRspIn] at isRsp
  refine (and_congr_left' (exists_calls_iff isCalls _ _)).trans ?_
  have callsIff :
      calls.map (fun call => (call.target, call.rdx)) =
          (Walk.shdrs machine isElf64).table.map
            (fun address => (machine.scratch.rsi, address)) ↔
        (Walk.shdrs machine isElf64).IsWalkable := by
    rw [arguments]
    exact
      (map_entries_eq_iff _ _ _ _ _ _ _).trans
        (shdr_calls_iff _ number (load_two_lt machine _))
  refine (and_congr_left' callsIff).trans (and_iff_left ⟨?_, ?_⟩)
  · have isPopped :
        (shdrLeave later).saved =
          { r15 := later.stack.getD 3 0
            r14 := later.stack.getD 4 0
            r13 := later.stack.getD 5 0
            r12 := later.stack.getD 6 0
            rbx := later.stack.getD 7 0
            rbp := later.stack.getD 8 0 } := rfl
    rw [isPopped, isStack]
    rfl
  · have isRspBack :
        (shdrLeave later).rsp = later.rsp + BitVec.ofNat 64 (8 * 9) := rfl
    rw [isRspBack, isRsp]
    exact BitVec.sub_add_cancel _ _

/-- The walk over the symbols makes the right calls. -/
theorem symbols_isWalked_iff
    (code : Code) (machine : Machine) (count : Nat)
    (isEnd : machine.scratch.rsi = entry machine.scratch.rdi sizeofSym count)
    (fits : count * sizeofSym < 2 ^ 64) :
    (Walk.symbols machine count isEnd fits).IsWalked code ↔
      (Walk.symbols machine count isEnd fits).IsWalkable := by
  refine
    ((symtableRounds code).exists_run_iff isEnd fits symtableLeave _).trans ?_
  obtain ⟨isSaved, isRsp, _, _, _, calls, isCalls, arguments⟩ :=
    (symtableRounds code).iterate (symtableEnter machine)
      (Rounds.count (symtableEnter machine).elfSymSize.toNat count)
  generalize (symtableRound code)^[_] (symtableEnter machine) = later at *
  have isLast :
      entry (symtableEnter machine).saved.r13
          (symtableEnter machine).elfSymSize.toNat count =
        machine.scratch.rsi :=
    isEnd.symm
  have isCount :
      Rounds.count (symtableEnter machine).elfSymSize.toNat count = count :=
    rfl
  rw [isCount, isLast] at isSaved
  rw [isCount] at arguments
  refine (and_congr_left' (exists_calls_iff isCalls _ _)).trans ?_
  have isPairs :
      calls.map (fun call => (call.target, call.rdi)) =
        (Walk.symbols machine count isEnd fits).table.map
          (fun address => (machine.scratch.rdx, address)) := by
    rw [arguments]
    simp only [add_zero]
    rfl
  refine (and_iff_right isPairs).trans ?_
  constructor
  · rintro ⟨keeps, _⟩
    exact keeps.symm.trans isSaved
  · intro isSame
    exact ⟨isSaved.trans isSame.symm, isRsp⟩

/--
A table is walked right exactly when the walk over the program headers has no
header to visit and the registers hold already what it leaves there, the size of
section headers fits in fifteen bits and is not zero, and the registers hold
already what the walk over the symbols leaves there.
-/
theorem Walk.isWalked_iff_isWalkable
    (code : Code)
    (walk : Walk) :
    walk.IsWalked code ↔ walk.IsWalkable := by
  cases walk with
  | phdrs machine isElf64 => exact phdrs_isWalked_iff code machine isElf64
  | shdrs machine isElf64 => exact shdrs_isWalked_iff code machine isElf64
  | symbols machine count isEnd fits =>
      exact symbols_isWalked_iff code machine count isEnd fits

/-- A file with one program header at the address zero. -/
def singleHeader : Machine where
  saved :=
    { rbx := 0
      rbp := 0
      r12 := 0
      r13 := 0
      r14 := 0
      r15 := 0 }
  scratch :=
    { rax := 0
      rcx := 0
      rdx := 0
      rsi := 0x1000
      rdi := 0 }
  rsp := 0
  stack := []
  memory address :=
    if address = 0x4 then 2
    else if address = 0x20 then 0x40
    else if address = 0x36 then 0x38
    else if address = 0x38 then 1
    else 0
  elfSymSize := 0
  calls := []

/-- A callback that changes nothing. -/
def idle : Code :=
  fun _ machine => (machine.scratch, machine.memory)

/-- The only program header is not passed to the callback. -/
theorem not_isWalked_singleHeader :
    ¬ (Walk.phdrs singleHeader (by decide)).IsWalked idle := by
  rw [phdrs_isWalked_iff]
  rintro ⟨isEmpty, _⟩
  exact absurd isEmpty (by decide)

end BinTools.TableWalk
