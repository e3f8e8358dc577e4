import Mathlib.Data.BitVec
import Mathlib.Logic.Function.Iterate
import Mathlib.Tactic.Common

namespace PointerLoop

/-!
# Loops that end where two pointers meet

Such a loop compares before each round and goes on by a stride, so that it ends
at the equality of two machine words and not behind it.
-/

variable {State : Type}

/-- Repeat the body until the state is final, for a number of rounds. -/
def run (isFinal : State → Bool) (body : State → State) :
    Nat → State → Option State
  | 0, _ => none
  | fuel + 1, state =>
      if isFinal state then
        some state
      else
        run isFinal body fuel (body state)

section

variable {isFinal : State → Bool} {body : State → State}

/-- The loop ends with the first final state. -/
theorem run_eq_some
    {rounds : Nat} {state : State} (isEnd : isFinal (body^[rounds] state) = true)
    (goesOn : ∀ i < rounds, isFinal (body^[i] state) = false) :
    run isFinal body (rounds + 1) state = some (body^[rounds] state) := by
  induction rounds generalizing state with
  | zero => exact if_pos isEnd
  | succ rounds inductionHypothesis =>
      have isNext : isFinal state = false := goesOn 0 (Nat.succ_pos rounds)
      rw [run, isNext, if_neg (by decide), Function.iterate_succ_apply]
      exact
        inductionHypothesis isEnd fun i isLess =>
          goesOn (i + 1) (Nat.succ_lt_succ isLess)

/-- It ends with no other state. -/
theorem eq_of_run_eq_some
    {rounds : Nat} {state : State} (isEnd : isFinal (body^[rounds] state) = true)
    (goesOn : ∀ i < rounds, isFinal (body^[i] state) = false)
    {fuel : Nat} {last : State}
    (isLast : run isFinal body fuel state = some last) :
    last = body^[rounds] state := by
  induction fuel generalizing rounds state with
  | zero => cases isLast
  | succ fuel inductionHypothesis =>
      cases rounds with
      | zero =>
          have isHere : isFinal state = true := isEnd
          rw [run, if_pos isHere] at isLast
          cases isLast
          rfl
      | succ rounds =>
          have isNext : isFinal state = false := goesOn 0 (Nat.succ_pos rounds)
          rw [run, isNext, if_neg (by decide)] at isLast
          have isEndBehind : isFinal (body^[rounds] (body state)) = true :=
            isEnd
          rw [Function.iterate_succ_apply]
          refine inductionHypothesis isEndBehind ?_ isLast
          intro i isLess
          exact goesOn (i + 1) (Nat.succ_lt_succ isLess)

/-- What holds when the loop is over holds of the first final state. -/
theorem exists_run_iff
    {rounds : Nat} {state : State} (isEnd : isFinal (body^[rounds] state) = true)
    (goesOn : ∀ i < rounds, isFinal (body^[i] state) = false)
    (holds : State → Prop) :
    (∃ fuel last, run isFinal body fuel state = some last ∧ holds last) ↔
      holds (body^[rounds] state) := by
  constructor
  · rintro ⟨fuel, last, isLast, holdsLast⟩
    rwa [← eq_of_run_eq_some isEnd goesOn isLast]
  · intro holdsEnd
    exact ⟨rounds + 1, _, run_eq_some isEnd goesOn, holdsEnd⟩

end

/-! ## Pointers -/

/-- The pointer to an entry of a table. -/
def entry {width : Nat} (start : BitVec width) (stride index : Nat) :
    BitVec width :=
  start + BitVec.ofNat width (index * stride)

@[simp] theorem entry_zero {width : Nat} (start : BitVec width) (stride : Nat) :
    entry start stride 0 = start := by
  simp [entry]

theorem entry_succ
    {width : Nat} (start : BitVec width) (stride index : Nat) :
    entry start stride (index + 1) =
      entry start stride index + BitVec.ofNat width stride := by
  rw [entry, entry, Nat.succ_mul, BitVec.ofNat_add, BitVec.add_assoc]

/-- Two entries coincide where their distances from the start do. -/
theorem entry_eq_iff
    {width : Nat} (start : BitVec width) (stride other index : Nat) :
    entry start stride index = entry start other index ↔
      index * stride % 2 ^ width = index * other % 2 ^ width := by
  rw [entry, entry, BitVec.add_right_inj, ← BitVec.toNat_inj,
    BitVec.toNat_ofNat, BitVec.toNat_ofNat]

/-- Entries before the end of a table are not its end. -/
theorem entry_ne_of_lt
    {width : Nat} (start : BitVec width) {stride index count : Nat}
    (isPositive : 0 < stride) (fits : count * stride < 2 ^ width)
    (isLess : index < count) :
    entry start stride index ≠ entry start stride count := by
  intro isSame
  rw [entry, entry, BitVec.add_right_inj, ← BitVec.toNat_inj,
    BitVec.toNat_ofNat, BitVec.toNat_ofNat] at isSame
  have isBelow : index * stride < count * stride :=
    (Nat.mul_lt_mul_right isPositive).mpr isLess
  rw [Nat.mod_eq_of_lt fits, Nat.mod_eq_of_lt (isBelow.trans fits)] at isSame
  omega

/-- The entries of a table in order. -/
def entries {width : Nat} (start : BitVec width) (stride count : Nat) :
    List (BitVec width) :=
  (List.range count).map (entry start stride)

end PointerLoop
