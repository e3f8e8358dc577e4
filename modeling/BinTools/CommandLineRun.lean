import BinTools.CommandLine

namespace BinTools.CommandLine

/-!
# Reading a command line to its end

The loop takes the argument behind `-keep-gnu-property` away as well.  From there
on it can take operands for arguments of options and the other way round, until an
option without an argument, or a swallowed argument, brings both back in step.
-/

/-- The options behind which the loop skips an argument. -/
def SkipsNext (name : CString) : Prop :=
  name ∈ takers ∨ name = keep

instance (name : CString) : Decidable (SkipsNext name) :=
  inferInstanceAs (Decidable (_ ∨ _))

/-- The option can be read with the argument behind it, if there is one. -/
def Accepts (name : CString) (next : Option CString) : Prop :=
  (name = .ofString "-o" → ∃ argument ∈ next, 0x2e ∈ argument.bytes) ∧
    (name = .ofString "-f" → next.isSome)

instance (name : CString) (next : Option CString) :
    Decidable (Accepts name next) :=
  inferInstanceAs (Decidable (_ ∧ _))

/-- An argument that is no option. -/
def IsOperand (name : CString) : Prop :=
  name ∉ takers ∧ name ∉ flags

instance (name : CString) : Decidable (IsOperand name) :=
  inferInstanceAs (Decidable (_ ∧ _))

/--
The loop reads some arguments right: with an option that skips the next of them,
or none, and with operands taken already, or none.
-/
def Readable : Option CString → Bool → List (CString × Bool) → Prop
  | none, _, [] => True
  | some option, _, [] => Accepts option none
  | some option, started, (name, isArgument) :: rest =>
      Accepts option (some name) ∧
        (isArgument = false → IsOperand name → started = true) ∧
          Readable none started rest
  | none, started, (name, isArgument) :: rest =>
      if SkipsNext name then
        Readable (some name) started rest
      else if name ∈ flags then
        Readable none started rest
      else
        (isArgument = true → started = true) ∧ Readable none true rest

/-- The arguments end behind an option that skips the next one. -/
def endsInSkip : Bool → List CString → Bool
  | skips, [] => skips
  | true, _ :: rest => endsInSkip false rest
  | false, name :: rest => endsInSkip (decide (SkipsNext name)) rest

/-! ## One option -/

/-- An operand is no option. -/
theorem readOption_of_isOperand
    {arg : CString} (isOperand : IsOperand arg) (i : Nat)
    (next : Option CString) (config : Config) :
    readOption i arg next config = none := by
  obtain ⟨notTaker, notFlag⟩ := isOperand
  simp only [takers, flags, keep, List.mem_cons, List.not_mem_nil, or_false,
    not_or] at notTaker notFlag
  simp [readOption, notTaker, notFlag]

/-- A flag skips nothing. -/
theorem readOption_of_flag
    {arg : CString} (isFlag : arg ∈ flags) (notSkip : ¬ SkipsNext arg)
    (i : Nat) (next : Option CString) (config : Config) :
    ∃ later, readOption i arg next config = some (some (later, 0)) := by
  simp only [flags, List.mem_cons, List.not_mem_nil, or_false] at isFlag
  rcases isFlag with rfl | rfl | rfl | rfl | rfl | rfl | rfl
  · exact ⟨_, by simp +decide [readOption]; rfl⟩
  · exact ⟨_, by simp +decide [readOption]; rfl⟩
  · exact ⟨_, by simp +decide [readOption]; rfl⟩
  · exact ⟨_, by simp +decide [readOption]; rfl⟩
  · exact ⟨_, by simp +decide [readOption]; rfl⟩
  · exact ⟨_, by simp +decide [readOption]; rfl⟩
  · exact absurd (Or.inr rfl) notSkip

/-- An option that can be read skips an argument. -/
theorem readOption_of_accepts
    {arg : CString} {next : Option CString} (skips : SkipsNext arg)
    (accepts : Accepts arg next) (i : Nat) (config : Config) :
    ∃ later, readOption i arg next config = some (some (later, 1)) := by
  unfold SkipsNext takers at skips
  simp only [List.mem_cons, List.not_mem_nil, or_false] at skips
  rcases skips with (rfl | rfl | rfl | rfl | rfl | rfl) | rfl
  · obtain ⟨argument, rfl, hasDot⟩ := accepts.1 rfl
    exact ⟨_, by simp +decide [readOption, setOutfile, hasDot]; rfl⟩
  · exact ⟨_, by simp +decide [readOption]; rfl⟩
  · obtain ⟨argument, rfl⟩ := Option.isSome_iff_exists.mp (accepts.2 rfl)
    exact ⟨_, by simp +decide [readOption, setFormat]; rfl⟩
  · exact ⟨_, by simp +decide [readOption]; rfl⟩
  · exact ⟨_, by simp +decide [readOption]; rfl⟩
  · exact ⟨_, by simp +decide [readOption]; rfl⟩
  · exact ⟨_, by simp +decide [readOption]; rfl⟩

/-- An option that cannot be read is a fault. -/
theorem readOption_of_not_accepts
    {arg : CString} {next : Option CString}
    (notAccepts : ¬ Accepts arg next) (i : Nat) (config : Config) :
    readOption i arg next config = some none := by
  unfold Accepts at notAccepts
  by_cases isOutfile : arg = .ofString "-o"
  · subst isOutfile
    have noDot : ¬ ∃ argument ∈ next, 0x2e ∈ argument.bytes := fun hasDot =>
      notAccepts ⟨fun _ => hasDot, fun isFormat => absurd isFormat (by decide)⟩
    have isFault : setOutfile next config = none := by
      cases next with
      | none => rfl
      | some argument =>
          exact if_neg fun hasDot => noDot ⟨argument, rfl, hasDot⟩
    simp +decide [readOption, isFault]
  · have isFormat : arg = .ofString "-f" := by
      by_contra notFormat
      exact
        notAccepts
          ⟨fun isThis => absurd isThis isOutfile, fun isThis =>
            absurd isThis notFormat⟩
    subst isFormat
    have isNull : next = none := by
      cases next with
      | none => rfl
      | some argument =>
          exact
            absurd
              ⟨fun isThis => absurd isThis isOutfile, fun _ => rfl⟩
              notAccepts
    subst isNull
    simp +decide [readOption, setFormat]

/-! ## The loop -/

/-- The loop ends, with these operands. -/
def Returns (argv : List CString) (reader : Reader) (operands : List Nat) :
    Prop :=
  ∃ fuel last,
    readArguments argv fuel reader = some last ∧ last.operands = operands

/-- The loop ends behind the last argument. -/
theorem returns_of_end
    {argv : List CString} {reader : Reader} (isEnd : argv.length ≤ reader.i)
    (operands : List Nat) :
    Returns argv reader operands ↔ operands = reader.operands := by
  have noArgument : argv[reader.i]? = none := List.getElem?_eq_none isEnd
  constructor
  · rintro ⟨fuel, last, isLast, rfl⟩
    cases fuel with
    | zero => cases isLast
    | succ fuel =>
        rw [readArguments, noArgument] at isLast
        cases isLast
        rfl
  · rintro rfl
    exact ⟨1, reader, by rw [readArguments, noArgument], rfl⟩

/-- The loop goes on behind an argument. -/
theorem returns_iff_of_arg
    {argv : List CString} {reader : Reader} {arg : CString}
    (isArg : argv[reader.i]? = some arg) (operands : List Nat) :
    Returns argv reader operands ↔
      ∃ next,
        readArgument argv reader arg = some next ∧
          Returns argv { next with i := (next.i + 1) % 2 ^ 8 } operands := by
  constructor
  · rintro ⟨fuel, last, isLast, isOperands⟩
    cases fuel with
    | zero => cases isLast
    | succ fuel =>
        rw [readArguments, isArg] at isLast
        obtain ⟨next, isNext, isRest⟩ := Option.bind_eq_some_iff.mp isLast
        exact ⟨next, isNext, fuel, last, isRest, isOperands⟩
  · rintro ⟨next, isNext, fuel, last, isRest, isOperands⟩
    refine ⟨fuel + 1, last, ?_, isOperands⟩
    rw [readArguments, isArg]
    exact Option.bind_eq_some_iff.mpr ⟨next, isNext, isRest⟩

/-- The operands that the loop takes from some arguments. -/
def scan : Option CString → Bool → Bool → Nat → List CString →
    Option (List Nat)
  | none, _, _, _, [] => some []
  | some option, _, _, _, [] => if Accepts option none then some [] else none
  | some option, getObj, getObjDone, position, name :: rest =>
      if Accepts option (some name) then
        scan none getObj getObjDone (position + 1) rest
      else
        none
  | none, getObj, getObjDone, position, name :: rest =>
      if SkipsNext name then
        scan (some name) getObj (getObjDone || getObj) (position + 1) rest
      else if name ∈ flags then
        scan none getObj (getObjDone || getObj) (position + 1) rest
      else if getObjDone = false then
        (scan none true getObjDone (position + 1) rest).map (position :: ·)
      else
        scan none getObj getObjDone (position + 1) rest

/-- The reader at an index with some operands. -/
structure At (argv : List CString) (reader : Reader) : Prop where
  few : argv.length ≤ 255
  inside : reader.i ≤ argv.length
  inBounds : reader.operands.length < argv.length
  behind : reader.operands.length < reader.i
  endsInStep :
    argv.length = 255 → endsInSkip false (argv.drop reader.i) = false

/-- The argument in front of a rest. -/
theorem getElem?_of_drop
    {argv : List CString} {i : Nat} {arg : CString} {rest : List CString}
    (isRest : argv.drop i = arg :: rest) :
    i < argv.length ∧ argv[i]? = some arg ∧ argv.drop (i + 1) = rest ∧
      argv.length = i + 1 + rest.length := by
  have lengths := congrArg List.length isRest
  rw [List.length_drop, List.length_cons] at lengths
  have isHead : argv[i]? = (argv.drop i)[0]? := by
    rw [List.getElem?_drop, Nat.add_zero]
  rw [isRest] at isHead
  refine ⟨by omega, isHead, ?_, by omega⟩
  rw [← List.drop_drop, isRest, List.drop_one, List.tail_cons]

/-- An option that can be read: the loop goes on behind its argument. -/
theorem returns_iff_of_accepts
    {argv : List CString} {reader : Reader} {arg : CString}
    (isArg : argv[reader.i]? = some arg) (skips : SkipsNext arg)
    (accepts : Accepts arg argv[reader.i + 1]?)
    (inByte : reader.i + 1 < 2 ^ 8) :
    ∃ config, ∀ operands,
      (Returns argv reader operands ↔
        Returns argv
          { reader with
            i := (reader.i + 2) % 2 ^ 8
            getObjDone := reader.getObjDone || reader.getObj
            config := config }
          operands) := by
  obtain ⟨config, isRead⟩ :=
    readOption_of_accepts skips accepts reader.i reader.config
  refine ⟨config, fun operands => ?_⟩
  have isNext :
      readArgument argv reader arg =
        some
          { reader with
            config := config
            i := reader.i + 1
            getObjDone := reader.getObjDone || reader.getObj } := by
    unfold readArgument
    rw [isRead]
    simp only [Option.map_some, Nat.mod_eq_of_lt inByte]
  rw [returns_iff_of_arg isArg, isNext]
  constructor
  · rintro ⟨next, isSame, returns⟩
    cases isSame
    exact returns
  · intro returns
    exact ⟨_, rfl, returns⟩

/-- A flag: the loop goes on behind it. -/
theorem returns_iff_of_flag
    {argv : List CString} {reader : Reader} {arg : CString}
    (isArg : argv[reader.i]? = some arg) (notSkip : ¬ SkipsNext arg)
    (isFlag : arg ∈ flags) (inByte : reader.i + 1 < 2 ^ 8) :
    ∃ config, ∀ operands,
      (Returns argv reader operands ↔
        Returns argv
          { reader with
            i := reader.i + 1
            getObjDone := reader.getObjDone || reader.getObj
            config := config }
          operands) := by
  obtain ⟨config, isRead⟩ :=
    readOption_of_flag isFlag notSkip reader.i argv[reader.i + 1]?
      reader.config
  refine ⟨config, fun operands => ?_⟩
  have isNext :
      readArgument argv reader arg =
        some
          { reader with
            config := config
            i := reader.i
            getObjDone := reader.getObjDone || reader.getObj } := by
    unfold readArgument
    rw [isRead]
    have isSame : (reader.i + 0) % 2 ^ 8 = reader.i :=
      Nat.mod_eq_of_lt (by omega)
    simp only [Option.map_some, isSame]
  rw [returns_iff_of_arg isArg, isNext]
  constructor
  · rintro ⟨next, isSame, returns⟩
    cases isSame
    rwa [Nat.mod_eq_of_lt inByte] at returns
  · intro returns
    refine ⟨_, rfl, ?_⟩
    rwa [Nat.mod_eq_of_lt inByte]

/-- An operand is taken until the first run has ended. -/
theorem returns_iff_of_isOperand
    {argv : List CString} {reader : Reader} {arg : CString}
    (isArg : argv[reader.i]? = some arg) (isOperand : IsOperand arg)
    (inBounds : reader.operands.length < argv.length)
    (inByte : reader.i + 1 < 2 ^ 8) (operands : List Nat) :
    Returns argv reader operands ↔
      Returns argv
        (if reader.getObjDone = false then
          { reader with
            i := reader.i + 1
            getObj := true
            operands := reader.operands ++ [reader.i] }
        else
          { reader with i := reader.i + 1 })
        operands := by
  have isNone :=
    readOption_of_isOperand isOperand reader.i argv[reader.i + 1]?
      reader.config
  rw [returns_iff_of_arg isArg, readArgument, isNone]
  dsimp only
  by_cases isOpen : reader.getObjDone = false
  · rw [if_pos isOpen, if_pos isOpen, if_pos inBounds]
    constructor
    · rintro ⟨next, isSame, returns⟩
      cases isSame
      rwa [Nat.mod_eq_of_lt inByte] at returns
    · intro returns
      refine ⟨_, rfl, ?_⟩
      rwa [Nat.mod_eq_of_lt inByte]
  · rw [if_neg isOpen, if_neg isOpen]
    have isDone : reader.getObjDone = true := by simpa using isOpen
    constructor
    · rintro ⟨next, isSame, returns⟩
      cases isSame
      rwa [Nat.mod_eq_of_lt inByte, isDone, Bool.true_or, ← isDone] at returns
    · intro returns
      refine ⟨_, rfl, ?_⟩
      rwa [Nat.mod_eq_of_lt inByte, isDone, Bool.true_or, ← isDone]

/-- The loop takes the operands that the scan takes. -/
theorem returns_iff_scan
    {argv : List CString} {reader : Reader} (isAt : At argv reader)
    (operands : List Nat) :
    Returns argv reader operands ↔
      ∃ taken,
        scan none reader.getObj reader.getObjDone reader.i
            (argv.drop reader.i) =
          some taken ∧
          operands = reader.operands ++ taken := by
  induction remaining : argv.length - reader.i using Nat.strong_induction_on
    generalizing reader with
  | _ remaining inductionHypothesis =>
  have isAtHere := isAt
  obtain ⟨few, inside, inBounds, behind, endsInStep⟩ := isAtHere
  cases isRest : argv.drop reader.i with
  | nil =>
      have isEnd := List.drop_eq_nil_iff.mp isRest
      rw [returns_of_end isEnd, scan]
      constructor
      · rintro rfl
        exact ⟨[], rfl, (List.append_nil _).symm⟩
      · rintro ⟨taken, isTaken, rfl⟩
        cases isTaken
        exact List.append_nil _
  | cons arg rest =>
      obtain ⟨isLess, isArg, isTail, lengths⟩ := getElem?_of_drop isRest
      rw [isRest] at endsInStep
      by_cases skips : SkipsNext arg
      · have isScan :
            ∀ getObjDone,
              scan none reader.getObj getObjDone reader.i (arg :: rest) =
                scan (some arg) reader.getObj
                  (getObjDone || reader.getObj) (reader.i + 1) rest := by
          intro getObjDone
          rw [scan, if_pos skips]
        rw [isScan]
        by_cases accepts : Accepts arg argv[reader.i + 1]?
        · obtain ⟨config, isNext⟩ :=
            returns_iff_of_accepts isArg skips accepts (by omega)
          cases rest with
          | nil =>
              rw [List.length_nil] at lengths
              have notFull : argv.length ≠ 255 := by
                intro isFull
                have inStep := endsInStep isFull
                rw [endsInSkip, decide_eq_true skips] at inStep
                cases inStep
              have isBehind : argv[reader.i + 1]? = none :=
                List.getElem?_eq_none (by omega)
              rw [isBehind] at accepts
              have isIndex : (reader.i + 2) % 2 ^ 8 = reader.i + 2 :=
                Nat.mod_eq_of_lt (by omega)
              rw [isNext, isIndex, returns_of_end (by dsimp only; omega),
                scan, if_pos accepts]
              simp
          | cons name rest =>
              obtain ⟨_, isName, isSecond, moreLengths⟩ :=
                getElem?_of_drop isTail
              rw [isName] at accepts
              have isIndex : (reader.i + 2) % 2 ^ 8 = reader.i + 2 :=
                Nat.mod_eq_of_lt (by omega)
              rw [isNext, isIndex, inductionHypothesis _ _ _ rfl]
              · rw [scan, if_pos accepts]
                dsimp only
                rw [isSecond]
              · dsimp only
                omega
              · refine
                  ⟨few, by dsimp only; omega, inBounds, by dsimp only; omega,
                    ?_⟩
                intro isFull
                have inStep := endsInStep isFull
                rw [endsInSkip, decide_eq_true skips, endsInSkip] at inStep
                rwa [isSecond]
        · have isFault :
              readArgument argv reader arg = none := by
            unfold readArgument
            rw [readOption_of_not_accepts accepts]
            rfl
          rw [returns_iff_of_arg isArg, isFault]
          refine iff_of_false ?_ ?_
          · rintro ⟨next, isNone, _⟩
            cases isNone
          · rintro ⟨taken, isTaken, _⟩
            cases rest with
            | nil =>
                rw [List.length_nil] at lengths
                have isBehind : argv[reader.i + 1]? = none :=
                  List.getElem?_eq_none (by omega)
                rw [isBehind] at accepts
                rw [scan, if_neg accepts] at isTaken
                cases isTaken
            | cons name rest =>
                rw [(getElem?_of_drop isTail).2.1] at accepts
                rw [scan, if_neg accepts] at isTaken
                cases isTaken
      · by_cases isFlag : arg ∈ flags
        · obtain ⟨config, isNext⟩ :=
            returns_iff_of_flag isArg skips isFlag (by omega)
          rw [isNext, inductionHypothesis _ _ _ rfl]
          · simp only [scan, if_neg skips, if_pos isFlag, isTail]
          · dsimp only
            omega
          · refine
              ⟨few, by dsimp only; omega, inBounds, by dsimp only; omega, ?_⟩
            intro isFull
            have inStep := endsInStep isFull
            rw [endsInSkip, decide_eq_false skips] at inStep
            rwa [isTail]
        · have isOperand : IsOperand arg :=
            ⟨fun isTaker => skips (Or.inl isTaker), isFlag⟩
          have inStep :
              argv.length = 255 →
                endsInSkip false (argv.drop (reader.i + 1)) = false := by
            intro isFull
            have inStep := endsInStep isFull
            rw [endsInSkip, decide_eq_false skips] at inStep
            rwa [isTail]
          rw [returns_iff_of_isOperand isArg isOperand inBounds (by omega),
            scan, if_neg skips, if_neg isFlag]
          by_cases isOpen : reader.getObjDone = false
          · rw [if_pos isOpen, if_pos isOpen,
              inductionHypothesis _ _ _ rfl]
            · simp only [isTail]
              constructor
              · rintro ⟨taken, isTaken, rfl⟩
                refine ⟨reader.i :: taken, by rw [isTaken]; rfl, ?_⟩
                rw [List.append_assoc]
                rfl
              · rintro ⟨taken, isTaken, rfl⟩
                obtain ⟨others, isOthers, rfl⟩ :=
                  Option.map_eq_some_iff.mp isTaken
                refine ⟨others, isOthers, ?_⟩
                rw [List.append_assoc]
                rfl
            · dsimp only
              omega
            · refine ⟨few, by dsimp only; omega, ?_, ?_, inStep⟩
              · dsimp only
                rw [List.length_append, List.length_singleton]
                omega
              · dsimp only
                rw [List.length_append, List.length_singleton]
                omega
          · rw [if_neg isOpen, if_neg isOpen,
              inductionHypothesis _ _ _ rfl]
            · simp only [isTail]
            · dsimp only
              omega
            · exact
                ⟨few, by dsimp only; omega, inBounds, by dsimp only; omega,
                  inStep⟩

end BinTools.CommandLine
