import BinTools.ElfTableWalk

namespace BinTools.TableWalk

open PointerLoop (entry entries)

/-!
# The rounds of a table walk

A round calls the callback once and moves the cursor by a stride.  The walks
differ in what they pass to the callback and in the registers they put back.
-/

/-- The tables of a header are found by these fields. -/
def eClass (machine : Machine) (header : Word) : UInt8 :=
  machine.memory (header + 0x4)

def ePhoff (machine : Machine) (header : Word) : Word :=
  machine.load64 (header + 0x20)

def eShoff (machine : Machine) (header : Word) : Word :=
  machine.load64 (header + 0x28)

def ePhentsize (machine : Machine) (header : Word) : Nat :=
  machine.load (header + 0x36) 2

def ePhnum (machine : Machine) (header : Word) : Nat :=
  machine.load (header + 0x38) 2

def eShentsize (machine : Machine) (header : Word) : Nat :=
  machine.load (header + 0x3a) 2

def eShnum (machine : Machine) (header : Word) : Nat :=
  machine.load (header + 0x3c) 2

/-- `ELFCLASS64` -/
def elfclass64 : UInt8 := 2

/-- `sizeof(Elf64_Sym)` -/
def sizeofSym : Nat := 0x18

/-- A walk, with the machine that starts it. -/
inductive Walk where
  | phdrs (machine : Machine)
      (isElf64 : eClass machine machine.scratch.rdi = elfclass64)
  | shdrs (machine : Machine)
      (isElf64 : eClass machine machine.scratch.rdi = elfclass64)
  | symbols (machine : Machine) (count : Nat)
      (isEnd : machine.scratch.rsi = entry machine.scratch.rdi sizeofSym count)
      (fits : count * sizeofSym < 2 ^ 64)

namespace Walk

/-- The machine on entry. -/
def machine : Walk → Machine
  | phdrs machine _ => machine
  | shdrs machine _ => machine
  | symbols machine _ _ _ => machine

/-- The function that is called. -/
def run (code : Code) (fuel : Nat) : Walk → Option Machine
  | phdrs machine _ => runThroughElfPhdr3 code fuel machine
  | shdrs machine _ => runThroughElfShdr3 code fuel machine
  | symbols machine _ _ _ => runThroughElfSymtable4 code fuel machine

/-- The callback, as it is passed to the function. -/
def callback : Walk → Word
  | phdrs machine _ => machine.scratch.rsi
  | shdrs machine _ => machine.scratch.rsi
  | symbols machine _ _ _ => machine.scratch.rdx

/-- The argument by which the callback gets an entry. -/
def pointer : Walk → Call → Word
  | phdrs _ _, call => call.rsi
  | shdrs _ _, call => call.rdx
  | symbols _ _ _ _, call => call.rdi

/-- The entries of the table. -/
def table : Walk → List Word
  | phdrs machine _ =>
      let header := machine.scratch.rdi
      entries (header + ePhoff machine header) (ePhentsize machine header)
        (ePhnum machine header)
  | shdrs machine _ =>
      let header := machine.scratch.rdi
      entries (header + eShoff machine header) (eShentsize machine header)
        (eShnum machine header)
  | symbols machine count _ _ =>
      entries machine.scratch.rdi sizeofSym count

/--
The walk returns after it called the callback once for each entry in order, with
the registers that it has to keep as they were.
-/
def IsWalked (code : Code) (walk : Walk) : Prop :=
  ∃ fuel last,
    walk.run code fuel = some last ∧
      (∃ calls,
        last.calls = walk.machine.calls ++ calls ∧
          calls.map (fun call => (call.target, walk.pointer call)) =
            walk.table.map fun address => (walk.callback, address)) ∧
        last.saved = walk.machine.saved ∧ last.rsp = walk.machine.rsp

end Walk

/-! ## Fields with wide loads -/

/-- A half word is below 2^16. -/
theorem load_two_lt (machine : Machine) (address : Word) :
    machine.load address 2 < 2 ^ 16 :=
  ByteBuffer.loadWord_lt 2 _ 0

/-- A wide load reads two half words and what is behind them. -/
theorem load_eight (machine : Machine) (address : Word) :
    machine.load address 8 =
      machine.load address 2 +
        2 ^ 16 *
          (machine.load (address + 2) 2 +
            2 ^ 16 * machine.load (address + 4) 4) := by
  simp [Machine.load, ByteBuffer.loadWord, ByteBuffer.load, List.range_succ,
    ByteBuffer.ofLittleEndian, BitVec.add_assoc]
  omega

/-- A wide load loses nothing. -/
theorem toNat_load64 (machine : Machine) (address : Word) :
    (machine.load64 address).toNat = machine.load address 8 := by
  have isWord : machine.load address 8 < 256 ^ 8 :=
    ByteBuffer.loadWord_lt 8 _ 0
  rw [Machine.load64, BitVec.toNat_ofNat]
  exact Nat.mod_eq_of_lt isWord

/-- A wide load with a mask and a shift reads the second half word. -/
theorem toNat_upperHalf_load64 (machine : Machine) (address : Word) :
    (upperHalf (machine.load64 address)).toNat =
      machine.load (address + 2) 2 % 2 ^ 15 := by
  have isLow : (0x7fff0000 : Word) >>> 16 = 0x7fff := by decide
  have isMask (value : Nat) : value &&& 0x7fff = value % 2 ^ 15 :=
    Nat.and_two_pow_sub_one_eq_mod value 15
  have isFirst := load_two_lt machine address
  rw [upperHalf, BitVec.ushiftRight_and_distrib, isLow, BitVec.toNat_and,
    BitVec.toNat_ushiftRight, Nat.shiftRight_eq_div_pow, toNat_load64,
    load_eight]
  refine (isMask _).trans ?_
  omega

/-- A wide load with a mask reads the first half word. -/
theorem toNat_lowerHalf_load64 (machine : Machine) (address : Word) :
    (lowerHalf (machine.load64 address)).toNat = machine.load address 2 := by
  have isMask (value : Nat) : value &&& 0xffff = value % 2 ^ 16 :=
    Nat.and_two_pow_sub_one_eq_mod value 16
  have isFirst := load_two_lt machine address
  rw [lowerHalf, BitVec.toNat_and, toNat_load64, load_eight]
  refine (isMask _).trans ?_
  omega

/-! ## Rounds -/

/-- What a round does. -/
structure Rounds
    (round : Machine → Machine) (pointer : Call → Word)
    (stride : Machine → Nat) (lead : Machine → Word) : Prop where
  saved (machine : Machine) :
    (round machine).saved =
      { machine.saved with
        r13 := machine.saved.r13 + BitVec.ofNat 64 (stride machine) }
  rsp (machine : Machine) : (round machine).rsp = machine.rsp
  stack (machine : Machine) : (round machine).stack = machine.stack
  keepsStride (machine : Machine) : stride (round machine) = stride machine
  keepsLead (machine : Machine) : lead (round machine) = lead machine
  calls (machine : Machine) :
    ∃ call,
      (round machine).calls = machine.calls ++ [call] ∧
        call.target = machine.saved.r12 ∧
          pointer call = machine.saved.r13 + lead machine

theorem phdrRounds (code : Code) :
    Rounds (phdrRound code) Call.rsi (fun machine => machine.saved.r14.toNat)
      fun machine => machine.saved.r14 where
  saved machine := by simp [phdrRound, Machine.callR12]
  rsp _ := rfl
  stack _ := rfl
  keepsStride _ := rfl
  keepsLead _ := rfl
  calls _ := ⟨_, rfl, rfl, rfl⟩

theorem shdrRounds (code : Code) :
    Rounds (shdrRound code) Call.rdx (fun machine => machine.saved.r14.toNat)
      fun _ => 0 where
  saved machine := by simp [shdrRound, Machine.callR12]
  rsp _ := rfl
  stack _ := rfl
  keepsStride _ := rfl
  keepsLead _ := rfl
  calls _ := ⟨_, rfl, rfl, (BitVec.add_zero _).symm⟩

theorem symtableRounds (code : Code) :
    Rounds (symtableRound code) Call.rdi
      (fun machine => machine.elfSymSize.toNat) fun _ => 0 where
  saved _ := rfl
  rsp _ := rfl
  stack _ := rfl
  keepsStride _ := rfl
  keepsLead _ := rfl
  calls _ := ⟨_, rfl, rfl, (BitVec.add_zero _).symm⟩

namespace Rounds

variable {round : Machine → Machine} {pointer : Call → Word}
  {stride : Machine → Nat} {lead : Machine → Word}

/-- What a number of rounds does. -/
theorem iterate
    (rounds : Rounds round pointer stride lead) (machine : Machine)
    (count : Nat) :
    (round^[count] machine).saved =
        { machine.saved with
          r13 := entry machine.saved.r13 (stride machine) count } ∧
      (round^[count] machine).rsp = machine.rsp ∧
        (round^[count] machine).stack = machine.stack ∧
          stride (round^[count] machine) = stride machine ∧
            lead (round^[count] machine) = lead machine ∧
      ∃ calls,
        (round^[count] machine).calls = machine.calls ++ calls ∧
          calls.map (fun call => (call.target, pointer call)) =
            (entries machine.saved.r13 (stride machine) count).map
              fun address => (machine.saved.r12, address + lead machine) := by
  induction count with
  | zero => exact ⟨by simp, rfl, rfl, rfl, rfl, [], by simp, rfl⟩
  | succ count inductionHypothesis =>
      obtain ⟨isSaved, isRsp, isStack, isStride, isLead, calls, isCalls,
        arguments⟩ := inductionHypothesis
      obtain ⟨call, isCall, isTarget, isPointer⟩ :=
        rounds.calls (round^[count] machine)
      rw [Function.iterate_succ_apply']
      refine ⟨?_, ?_, ?_, ?_, ?_, calls ++ [call], ?_, ?_⟩
      · rw [rounds.saved, isSaved, isStride, PointerLoop.entry_succ]
      · rw [rounds.rsp, isRsp]
      · rw [rounds.stack, isStack]
      · rw [rounds.keepsStride, isStride]
      · rw [rounds.keepsLead, isLead]
      · rw [isCall, isCalls, List.append_assoc]
      · rw [isSaved] at isTarget isPointer
        rw [isLead] at isPointer
        rw [List.map_append, arguments, List.map_singleton, isTarget, isPointer,
          entries, entries, List.range_succ, List.map_append, List.map_append]
        rfl

/-- How many rounds there are. -/
def count (stride size : Nat) : Nat :=
  if stride = 0 then 0 else size

/-- What holds when the loop is over holds behind its last round. -/
theorem exists_run_iff
    (rounds : Rounds round pointer stride lead) {machine : Machine} {size : Nat}
    (isEnd :
      machine.saved.rbx = entry machine.saved.r13 (stride machine) size)
    (fits : size * stride machine < 2 ^ 64) (leave : Machine → Machine)
    (holds : Machine → Prop) :
    (∃ fuel last,
      (PointerLoop.run atEnd round fuel machine).map leave = some last ∧
        holds last) ↔
      holds (leave (round^[count (stride machine) size] machine)) := by
  have isAtEnd (i : Nat) :
      atEnd (round^[i] machine) = true ↔
        entry machine.saved.r13 (stride machine) i =
          entry machine.saved.r13 (stride machine) size := by
    rw [atEnd, (rounds.iterate machine i).1, isEnd, decide_eq_true_iff]
  have ends : atEnd (round^[count (stride machine) size] machine) = true := by
    rw [isAtEnd, count]
    split
    · rename_i isZero
      simp [entry, isZero]
    · rfl
  have goesOn :
      ∀ i < count (stride machine) size, atEnd (round^[i] machine) = false := by
    intro i isLess
    rw [count] at isLess
    split at isLess
    · cases isLess
    · rename_i notZero
      rw [← Bool.not_eq_true, isAtEnd]
      exact
        PointerLoop.entry_ne_of_lt _ (Nat.pos_of_ne_zero notZero) fits isLess
  rw [← PointerLoop.exists_run_iff ends goesOn fun last => holds (leave last)]
  constructor
  · rintro ⟨fuel, last, isLast, holdsLast⟩
    obtain ⟨before, isBefore, rfl⟩ := Option.map_eq_some_iff.mp isLast
    exact ⟨fuel, before, isBefore, holdsLast⟩
  · rintro ⟨fuel, last, isLast, holdsLast⟩
    exact ⟨fuel, leave last, by rw [isLast]; rfl, holdsLast⟩

end Rounds

end BinTools.TableWalk
