import Mathlib.Data.List.Basic
import Mathlib.Tactic.Common
import Mathlib.Tactic.Ring

namespace CountedLoop

/-!
# Loops that count down after each round

The body of such a loop runs before its counter is looked at, and the counter
is a machine word.  A loop that is started with zero therefore makes as many
rounds as there are words.
-/

variable {State Result : Type}

/-- A counter of so many bits, one less. -/
def decrement (bits count : Nat) : Nat :=
  (count + (2 ^ bits - 1)) % 2 ^ bits

/-- The counter reaches zero or falls. -/
theorem decrement_decrement_lt
    {bits count : Nat} (goesOn : decrement bits count ≠ 0) :
    decrement bits (decrement bits count) < decrement bits count := by
  have isPositive : 0 < 2 ^ bits := Nat.two_pow_pos bits
  have isWord : decrement bits count < 2 ^ bits := Nat.mod_lt _ isPositive
  generalize decrement bits count = next at goesOn isWord ⊢
  have isPrevious : next + (2 ^ bits - 1) = next - 1 + 2 ^ bits := by
    omega
  have isLess : next - 1 < 2 ^ bits := by
    omega
  unfold decrement
  rw [isPrevious, Nat.add_mod_right, Nat.mod_eq_of_lt isLess]
  omega

/--
Run the body at an address, go on by a stride, count down, and repeat unless
the counter became zero.
-/
def run
    (bits : Nat) (advance : Nat → Nat)
    (body : State → Nat → Option State) (state : State)
    (address count : Nat) : Option State :=
  (body state address).bind fun state =>
    if decrement bits count = 0 then
      some state
    else
      run bits advance body state (advance address) (decrement bits count)
termination_by decrement bits count
decreasing_by exact decrement_decrement_lt ‹_›

/-- The rounds of a loop. -/
def rounds (bits count : Nat) : Nat :=
  decrement bits count + 1

/-- The addresses a loop visits, for a number of rounds. -/
def visited (advance : Nat → Nat) (address : Nat) : Nat → List Nat
  | 0 => []
  | remaining + 1 => address :: visited advance (advance address) remaining

/-- A counter that is a word and not zero gives as many rounds. -/
theorem rounds_of_pos
    {bits count : Nat} (isPositive : 0 < count) (isWord : count < 2 ^ bits) :
    rounds bits count = count := by
  have isPrevious : count + (2 ^ bits - 1) = count - 1 + 2 ^ bits := by
    omega
  have isLess : count - 1 < 2 ^ bits := by
    omega
  unfold rounds decrement
  rw [isPrevious, Nat.add_mod_right, Nat.mod_eq_of_lt isLess]
  omega

/-- There is one address for every round. -/
@[simp]
theorem length_visited (advance : Nat → Nat) (address remaining : Nat) :
    (visited advance address remaining).length = remaining := by
  induction remaining generalizing address with
  | zero => rfl
  | succ remaining inductionHypothesis =>
      rw [visited, List.length_cons, inductionHypothesis]

/-- A loop runs its body for the visited addresses in order. -/
theorem run_eq_foldlM
    (bits : Nat) (advance : Nat → Nat)
    (body : State → Nat → Option State) (state : State)
    (address count : Nat) :
    run bits advance body state address count =
      (visited advance address (rounds bits count)).foldlM body state := by
  induction state, address, count using run.induct bits advance with
  | case1 state address count inductionHypothesis =>
      rw [run, rounds, visited, List.foldlM_cons]
      apply congrArg (Option.bind (body state address))
      funext next
      by_cases isLast : decrement bits count = 0
      · rw [if_pos isLast, isLast]
        rfl
      · have isNext :
            rounds bits (decrement bits count) = decrement bits count := by
          have isPositive : 0 < 2 ^ bits := Nat.two_pow_pos bits
          exact
            rounds_of_pos (Nat.pos_of_ne_zero isLast)
              (Nat.mod_lt _ isPositive)
        rw [if_neg isLast, inductionHypothesis next isLast, isNext]

/-- What every round of the body keeps holds when the loop ends. -/
theorem run_keeps
    {bits : Nat} {advance : Nat → Nat}
    {body : State → Nat → Option State} {Keeps : State → Prop}
    (step :
      ∀ state address next, Keeps state → body state address = some next →
        Keeps next)
    {state last : State} {address count : Nat}
    (isLast : run bits advance body state address count = some last)
    (holds : Keeps state) :
    Keeps last := by
  induction state, address, count using run.induct bits advance with
  | case1 state address count inductionHypothesis =>
      rw [run] at isLast
      obtain ⟨next, isNext, isRest⟩ := Option.bind_eq_some_iff.mp isLast
      have holdsNext := step state address next holds isNext
      split_ifs at isRest with isEnd
      · cases isRest
        exact holdsNext
      · exact inductionHypothesis next isEnd isRest holdsNext

/-- A body that also keeps a record of the addresses it runs for. -/
def recording
    (body : State → Nat → Option State)
    (current : State × List Nat) (address : Nat) :
    Option (State × List Nat) :=
  (body current.1 address).map fun state =>
    (state, current.2 ++ [address])

/-- What is recorded is what the loop visits. -/
theorem foldlM_recording
    (body : State → Nat → Option State) (state : State)
    (record addresses : List Nat) :
    addresses.foldlM (recording body) (state, record) =
      (addresses.foldlM body state).map fun last =>
        (last, record ++ addresses) := by
  induction addresses generalizing state record with
  | nil =>
      rw [List.append_nil]
      rfl
  | cons address rest inductionHypothesis =>
      rw [List.foldlM_cons, List.foldlM_cons, recording]
      cases body state address with
      | none => rfl
      | some next =>
          refine (inductionHypothesis next (record ++ [address])).trans ?_
          rw [List.append_assoc]
          rfl

end CountedLoop
