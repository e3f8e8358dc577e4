import BinTools.CommandLineRun

namespace BinTools.CommandLine

/-!
# The operands of a command line

The command line is read right when every index fits in eight bits and the loop
is in step wherever an operand of the first run, or an argument with the looks of
one, comes by.
-/

/-! ## Scanning the items -/

/-- Operands are taken by their positions. -/
theorem position_le_of_scan
    {pending : Option CString} {getObj getObjDone : Bool} {position : Nat}
    {args : List CString} {taken : List Nat}
    (isTaken : scan pending getObj getObjDone position args = some taken)
    {index : Nat} (isIndex : index ∈ taken) :
    position ≤ index := by
  induction args generalizing pending getObj getObjDone position taken with
  | nil =>
      cases pending with
      | none =>
          cases isTaken
          cases isIndex
      | some option =>
          rw [scan] at isTaken
          split at isTaken
          · cases isTaken
            cases isIndex
          · cases isTaken
  | cons name rest inductionHypothesis =>
      cases pending with
      | some option =>
          rw [scan] at isTaken
          split at isTaken
          · exact Nat.le_of_succ_le (inductionHypothesis isTaken isIndex)
          · cases isTaken
      | none =>
          rw [scan] at isTaken
          split at isTaken
          · exact Nat.le_of_succ_le (inductionHypothesis isTaken isIndex)
          split at isTaken
          · exact Nat.le_of_succ_le (inductionHypothesis isTaken isIndex)
          split at isTaken
          · obtain ⟨others, isOthers, rfl⟩ :=
              Option.map_eq_some_iff.mp isTaken
            cases isIndex with
            | head => exact Nat.le_refl _
            | tail _ isOther =>
                exact Nat.le_of_succ_le (inductionHypothesis isOthers isOther)
          · exact Nat.le_of_succ_le (inductionHypothesis isTaken isIndex)

/-- The first run is at its positions. -/
theorem position_le_of_operandsAt
    {position : Nat} {items : List Item} {index : Nat}
    (isIndex : index ∈ operandsAt position items) :
    position ≤ index := by
  induction items generalizing position with
  | nil => cases isIndex
  | cons item items inductionHypothesis =>
      cases item with
      | flag name isFlag => cases isIndex
      | option name argument isTaker => cases isIndex
      | operand name notTaker notFlag =>
          cases isIndex with
          | head => exact Nat.le_refl _
          | tail _ isOther =>
              exact Nat.le_of_succ_le (inductionHypothesis isOther)

theorem position_le_of_firstRun
    {position : Nat} {items : List Item} {index : Nat}
    (isIndex : index ∈ firstRun position items) :
    position ≤ index := by
  induction items generalizing position with
  | nil => cases isIndex
  | cons item items inductionHypothesis =>
      cases item with
      | operand name notTaker notFlag =>
          cases isIndex with
          | head => exact Nat.le_refl _
          | tail _ isOther =>
              exact Nat.le_of_succ_le (position_le_of_operandsAt isOther)
      | flag name isFlag =>
          exact Nat.le_of_succ_le (inductionHypothesis isIndex)
      | option name argument isTaker =>
          have isBehind := inductionHypothesis isIndex
          omega

/-- Behind the first run nothing is taken. -/
theorem scan_done
    (pending : Option CString) (getObj : Bool) (position : Nat)
    (rest : List (CString × Bool)) :
    scan pending getObj true position (rest.map Prod.fst) = some [] ↔
      Readable pending true rest := by
  induction rest generalizing pending position with
  | nil =>
      cases pending with
      | none => exact iff_of_true rfl trivial
      | some option => simp [scan, Readable]
  | cons token rest inductionHypothesis =>
      obtain ⟨name, isArgument⟩ := token
      cases pending with
      | some option =>
          rw [List.map_cons, scan, Readable,
            ← inductionHypothesis none (position + 1)]
          simp
      | none =>
          rw [List.map_cons, scan, Readable, Bool.true_or]
          by_cases skips : SkipsNext name
          · rw [if_pos skips, if_pos skips, inductionHypothesis]
          rw [if_neg skips, if_neg skips]
          by_cases isFlag : name ∈ flags
          · rw [if_pos isFlag, if_pos isFlag, inductionHypothesis]
          rw [if_neg isFlag, if_neg isFlag, if_neg (by decide),
            inductionHypothesis]
          simp

/-- An operand skips nothing. -/
theorem not_skipsNext_of_isOperand {name : CString} (isOperand : IsOperand name) :
    ¬ SkipsNext name := by
  rintro (isTaker | rfl)
  · exact isOperand.1 isTaker
  · exact isOperand.2 (by decide)

/-- The first run is taken up to its end. -/
theorem scan_run (position : Nat) (items : List Item) :
    scan none true false position (arguments items) =
        some (operandsAt position items) ↔
      Readable none true (tokens items) := by
  induction items generalizing position with
  | nil => exact iff_of_true rfl trivial
  | cons item items inductionHypothesis =>
      unfold arguments at inductionHypothesis ⊢
      cases item with
      | operand name notTaker notFlag =>
          have notSkip : ¬ SkipsNext name :=
            not_skipsNext_of_isOperand ⟨notTaker, notFlag⟩
          rw [tokens, List.map_cons, scan, Readable, if_neg notSkip,
            if_neg notSkip, if_neg notFlag, if_neg notFlag, if_pos rfl,
            operandsAt, ← inductionHypothesis (position + 1)]
          simp
      | flag name isFlag =>
          rw [tokens, List.map_cons, scan, Readable, Bool.false_or, operandsAt]
          · by_cases skips : SkipsNext name
            · rw [if_pos skips, if_pos skips, scan_done]
            · rw [if_neg skips, if_neg skips, if_pos isFlag, if_pos isFlag,
                scan_done]
          · rintro _ _ _ _ ⟨⟩
      | option name argument isTaker =>
          have skips : SkipsNext name := Or.inl isTaker
          rw [tokens, List.map_cons, scan, Readable, Bool.false_or, operandsAt,
            if_pos skips, if_pos skips, scan_done]
          rintro _ _ _ _ ⟨⟩

/-- An argument of an option that comes by as an argument of its own. -/
theorem scan_argument
    {items : List Item} {position : Nat} (argument : CString)
    (inStep :
      scan none false false (position + 1) (arguments items) =
          some (firstRun (position + 1) items) ↔
        Readable none false (tokens items))
    (behindOption : ∀ option,
      scan (some option) false false (position + 1) (arguments items) =
          some (firstRun (position + 1) items) ↔
        Readable (some option) false (tokens items)) :
    scan none false false position (argument :: arguments items) =
        some (firstRun (position + 1) items) ↔
      Readable none false ((argument, true) :: tokens items) := by
  rw [scan, Readable, Bool.false_or]
  by_cases skips : SkipsNext argument
  · rw [if_pos skips, if_pos skips, behindOption]
  rw [if_neg skips, if_neg skips]
  by_cases isFlag : argument ∈ flags
  · rw [if_pos isFlag, if_pos isFlag, inStep]
  rw [if_neg isFlag, if_neg isFlag, if_pos rfl]
  refine iff_of_false ?_ ?_
  · intro isTaken
    obtain ⟨others, isOthers, isRun⟩ := Option.map_eq_some_iff.mp isTaken
    have isBehind : position + 1 ≤ position := by
      apply position_le_of_firstRun
      rw [← isRun]
      exact List.mem_cons_self
    omega
  · rintro ⟨isStarted, _⟩
    cases isStarted rfl

/-- What is taken is the first run, in step or behind an option. -/
theorem scan_items (position : Nat) (items : List Item) :
    (scan none false false position (arguments items) =
        some (firstRun position items) ↔
      Readable none false (tokens items)) ∧
      ∀ option,
        scan (some option) false false position (arguments items) =
            some (firstRun position items) ↔
          Readable (some option) false (tokens items) := by
  induction items generalizing position with
  | nil =>
      constructor
      · exact iff_of_true rfl trivial
      · intro option
        simp [arguments, tokens, scan, Readable, firstRun]
  | cons item items inductionHypothesis =>
      cases item with
      | operand name notTaker notFlag =>
          have isOperand : IsOperand name := ⟨notTaker, notFlag⟩
          have notSkip := not_skipsNext_of_isOperand isOperand
          constructor
          · have inRun := scan_run (position + 1) items
            unfold arguments at inRun ⊢
            rw [tokens, List.map_cons, scan, Readable, if_neg notSkip,
              if_neg notSkip, if_neg notFlag, if_neg notFlag, if_pos rfl,
              firstRun, ← inRun]
            simp
          · intro option
            -- an operand of the first run is lost
            refine iff_of_false ?_ ?_
            · intro isTaken
              rw [arguments, tokens, List.map_cons, scan, firstRun] at isTaken
              split at isTaken
              · have isBehind :=
                  position_le_of_scan isTaken List.mem_cons_self
                omega
              · cases isTaken
            · rintro ⟨_, isLost, _⟩
              cases isLost rfl isOperand
      | flag name isFlag =>
          obtain ⟨inStep, behindOption⟩ := inductionHypothesis (position + 1)
          unfold arguments at inStep behindOption ⊢
          constructor
          · rw [tokens, List.map_cons, scan, Readable, Bool.false_or, firstRun]
            by_cases skips : SkipsNext name
            · rw [if_pos skips, if_pos skips, behindOption]
            · rw [if_neg skips, if_neg skips, if_pos isFlag, if_pos isFlag,
                inStep]
          · intro option
            have notOperand : ¬ IsOperand name := fun isOperand =>
              isOperand.2 isFlag
            rw [tokens, List.map_cons, scan, Readable, firstRun, ← inStep]
            simp [notOperand]
      | option name argument isTaker =>
          have skips : SkipsNext name := Or.inl isTaker
          constructor
          · have inStep := (inductionHypothesis (position + 2)).1
            unfold arguments at inStep ⊢
            rw [tokens, List.map_cons, List.map_cons, scan, Readable,
              if_pos skips, if_pos skips, Bool.false_or, scan, Readable,
              firstRun, ← inStep]
            simp
          · intro option
            have notOperand : ¬ IsOperand name := fun isOperand =>
              isOperand.1 isTaker
            obtain ⟨inStep, behindOption⟩ := inductionHypothesis (position + 2)
            have isArgument := scan_argument argument inStep behindOption
            unfold arguments at isArgument ⊢
            rw [tokens, List.map_cons, List.map_cons, scan, Readable, firstRun,
              ← isArgument]
            simp [notOperand]

/--
Without `-keep-gnu-property`, a command line is readable when the names of
output files have dots.
-/
theorem readable_iff_of_not_keep
    {items : List Item} (noKeep : ∀ isFlag, Item.flag keep isFlag ∉ items)
    (started : Bool) :
    Readable none started (tokens items) ↔
      ∀ argument isTaker,
        Item.option (.ofString "-o") argument isTaker ∈ items →
          0x2e ∈ argument.bytes := by
  induction items generalizing started with
  | nil => simp [tokens, Readable]
  | cons item items inductionHypothesis =>
      have noKeepBehind : ∀ isFlag, Item.flag keep isFlag ∉ items :=
        fun isFlag isKeep => noKeep isFlag (List.mem_cons_of_mem _ isKeep)
      cases item with
      | operand name notTaker notFlag =>
          have notSkip : ¬ SkipsNext name :=
            not_skipsNext_of_isOperand ⟨notTaker, notFlag⟩
          simp [tokens, Readable, notSkip, notFlag,
            inductionHypothesis noKeepBehind]
      | flag name isFlag =>
          have notKeep : name ≠ keep := by
            rintro rfl
            exact noKeep isFlag List.mem_cons_self
          have notTaker : name ∉ takers := by
            intro isTaker
            have isNone : ∀ taker ∈ takers, taker ∉ flags := by decide
            exact isNone name isTaker isFlag
          have notSkip : ¬ SkipsNext name := by
            rintro (isTaker | isKeep)
            · exact notTaker isTaker
            · exact notKeep isKeep
          simp [tokens, Readable, notSkip, isFlag,
            inductionHypothesis noKeepBehind]
      | option name argument isTaker =>
          have skips : SkipsNext name := Or.inl isTaker
          have isAccepted :
              Accepts name (some argument) ↔
                (name = .ofString "-o" → 0x2e ∈ argument.bytes) := by
            simp [Accepts]
          rw [tokens, Readable, if_pos skips, Readable, isAccepted,
            inductionHypothesis noKeepBehind]
          constructor
          · rintro ⟨hasDot, _, others⟩ other isOutfile isMember
            cases isMember with
            | head => exact hasDot rfl
            | tail _ isBehind => exact others other isOutfile isBehind
          · intro dots
            refine ⟨?_, by simp, ?_⟩
            · rintro rfl
              exact dots argument isTaker List.mem_cons_self
            · intro other isOutfile isBehind
              exact dots other isOutfile (List.mem_cons_of_mem _ isBehind)

/-! ## Vectors that are too long -/

/-- A loop that ends has its index behind the last argument. -/
theorem length_le_of_returns
    {argv : List CString} {reader : Reader} {operands : List Nat}
    (returns : Returns argv reader operands) (inByte : reader.i < 2 ^ 8) :
    argv.length ≤ 255 := by
  obtain ⟨fuel, last, isLast, _⟩ := returns
  induction fuel generalizing reader with
  | zero => cases isLast
  | succ fuel inductionHypothesis =>
      cases isArg : argv[reader.i]? with
      | none =>
          have isEnd := List.getElem?_eq_none_iff.mp isArg
          omega
      | some arg =>
          rw [readArguments, isArg] at isLast
          obtain ⟨next, _, isRest⟩ := Option.bind_eq_some_iff.mp isLast
          exact inductionHypothesis (Nat.mod_lt _ (by decide)) isRest

/-- With an argument in front, an even number of arguments ends the same way. -/
theorem endsInSkip_cons
    (program : CString) (args : List CString) (isEven : args.length % 2 = 0)
    (ends : endsInSkip false args = true) :
    endsInSkip false (program :: args) = true := by
  induction remaining : args.length using Nat.strong_induction_on
    generalizing program args with
  | _ remaining inductionHypothesis =>
  by_cases skips : SkipsNext program
  · rw [endsInSkip, decide_eq_true skips]
    cases args with
    | nil => cases ends
    | cons first tail =>
        cases tail with
        | nil => cases isEven
        | cons second rest =>
            rw [endsInSkip]
            by_cases firstSkips : SkipsNext first
            · rw [endsInSkip, decide_eq_true firstSkips, endsInSkip] at ends
              rw [List.length_cons, List.length_cons] at isEven remaining
              exact
                inductionHypothesis rest.length (by omega) second rest
                  (by omega) ends rfl
            · rwa [endsInSkip, decide_eq_false firstSkips] at ends
  · rwa [endsInSkip, decide_eq_false skips]

/-- An index that goes around on the last skip comes back to it. -/
theorem not_returns_of_endsInSkip
    {argv : List CString} (isFull : argv.length = 255)
    (fromStart : endsInSkip false argv = true) {reader : Reader}
    (fromHere : endsInSkip false (argv.drop reader.i) = true)
    (operands : List Nat) :
    ¬ Returns argv reader operands := by
  rintro ⟨fuel, last, isLast, _⟩
  induction fuel generalizing reader with
  | zero => cases isLast
  | succ fuel inductionHypothesis =>
      cases isRest : argv.drop reader.i with
      | nil =>
          rw [isRest] at fromHere
          cases fromHere
      | cons arg rest =>
          obtain ⟨isLess, isArg, isTail, lengths⟩ := getElem?_of_drop isRest
          rw [isRest] at fromHere
          rw [readArguments, isArg] at isLast
          obtain ⟨next, isNext, isRun⟩ := Option.bind_eq_some_iff.mp isLast
          refine inductionHypothesis ?_ isRun
          dsimp only
          by_cases skips : SkipsNext arg
          · rw [endsInSkip, decide_eq_true skips] at fromHere
            have isIndex : (next.i + 1) % 2 ^ 8 = (reader.i + 2) % 2 ^ 8 := by
              by_cases accepts : Accepts arg argv[reader.i + 1]?
              · obtain ⟨config, isRead⟩ :=
                  readOption_of_accepts skips accepts reader.i reader.config
                rw [readArgument, isRead] at isNext
                cases isNext
                exact Nat.mod_add_mod _ _ _
              · rw [readArgument, readOption_of_not_accepts accepts] at isNext
                cases isNext
            rw [isIndex]
            cases rest with
            | nil =>
                rw [List.length_nil] at lengths
                have isLastIndex : reader.i = 254 := by omega
                rwa [isLastIndex]
            | cons name rest =>
                rw [List.length_cons] at lengths
                rw [endsInSkip] at fromHere
                rw [Nat.mod_eq_of_lt (by omega)]
                rwa [(getElem?_of_drop isTail).2.2.1]
          · rw [endsInSkip, decide_eq_false skips] at fromHere
            have isIndex : (next.i + 1) % 2 ^ 8 = reader.i + 1 := by
              by_cases isFlag : arg ∈ flags
              · obtain ⟨config, isRead⟩ :=
                  readOption_of_flag isFlag skips reader.i argv[reader.i + 1]?
                    reader.config
                rw [readArgument, isRead] at isNext
                cases isNext
                rw [Nat.mod_add_mod]
                exact Nat.mod_eq_of_lt (by omega)
              · have isOperand : IsOperand arg :=
                  ⟨fun isTaker => skips (Or.inl isTaker), isFlag⟩
                rw [readArgument, readOption_of_isOperand isOperand] at isNext
                dsimp only at isNext
                split at isNext
                · split at isNext
                  · cases isNext
                    exact Nat.mod_eq_of_lt (by dsimp only; omega)
                  · cases isNext
                · cases isNext
                  exact Nat.mod_eq_of_lt (by dsimp only; omega)
            rwa [isIndex, isTail]

/-! ## The command line -/

/-- The first run has no more operands than there are arguments. -/
theorem length_operandsAt_le (position : Nat) (items : List Item) :
    (operandsAt position items).length ≤ (arguments items).length := by
  unfold arguments
  rw [List.length_map]
  induction items generalizing position with
  | nil => exact Nat.le_refl _
  | cons item items inductionHypothesis =>
      cases item with
      | operand name notTaker notFlag =>
          exact Nat.succ_le_succ (inductionHypothesis (position + 1))
      | flag name isFlag => exact Nat.zero_le _
      | option name argument isTaker => exact Nat.zero_le _

theorem length_firstRun_le (position : Nat) (items : List Item) :
    (firstRun position items).length ≤ (arguments items).length := by
  induction items generalizing position with
  | nil => exact Nat.le_refl _
  | cons item items inductionHypothesis =>
      cases item with
      | operand name notTaker notFlag =>
          exact Nat.succ_le_succ (length_operandsAt_le (position + 1) items)
      | flag name isFlag =>
          exact Nat.le_succ_of_le (inductionHypothesis (position + 1))
      | option name argument isTaker =>
          exact
            Nat.le_succ_of_le
              (Nat.le_succ_of_le (inductionHypothesis (position + 2)))

/-- The reader in front of the first argument. -/
def Reader.start : Reader :=
  { i := 1
    operands := []
    getObj := false
    getObjDone := false
    config := {} }

/-- The operands are read when the loop ends with them. -/
theorem readsOperands_iff_returns
    {program : CString} {items : List Item} (notEmpty : items ≠ []) :
    ReadsOperands program items ↔
      Returns (program :: arguments items) Reader.start (firstRun 1 items) := by
  have someArgument : (program :: arguments items).length ≠ 1 := by
    cases items with
    | nil => exact absurd rfl notEmpty
    | cons item items => cases item <;> exact Nat.succ_succ_ne_one _
  have inBounds := length_firstRun_le 1 items
  unfold ReadsOperands Returns readCmdline
  simp only [if_neg someArgument]
  constructor
  · rintro ⟨fuel, returned, config, isRead, isRun⟩
    obtain ⟨last, isLast, isReturned⟩ := Option.bind_eq_some_iff.mp isRead
    split at isReturned
    · cases isReturned
      exact ⟨fuel, last, isLast, isRun⟩
    · cases isReturned
  · rintro ⟨fuel, last, isLast, isRun⟩
    refine
      ⟨fuel, some last.operands, _,
        Option.bind_eq_some_iff.mpr ⟨last, isLast, if_pos ?_⟩, isRun⟩
    rw [isRun, List.length_cons]
    omega

/-- A command line that is short enough is read when it is readable. -/
theorem readsOperands_iff_of_short
    (program : CString) {items : List Item}
    (few : (arguments items).length < 255)
    (endsInStep :
      (arguments items).length = 254 →
        endsInSkip false (arguments items) = false) :
    ReadsOperands program items ↔ Readable none false (tokens items) := by
  by_cases isEmpty : items = []
  · subst isEmpty
    exact iff_of_true ⟨0, none, {}, rfl, rfl⟩ trivial
  have isAt : At (program :: arguments items) Reader.start :=
    { few := few
      inside := Nat.succ_le_succ (Nat.zero_le _)
      inBounds := Nat.succ_pos _
      behind := Nat.zero_lt_one
      endsInStep := fun isFull => endsInStep (Nat.succ.inj isFull) }
  rw [readsOperands_iff_returns isEmpty, returns_iff_scan isAt,
    ← (scan_items 1 items).1]
  simp [Reader.start]

/--
The operands of a command line are read exactly when the program's name and the
arguments are 255 at most, the last of 255 is not one whose skip goes past the
end, and the loop reads the arguments right.
-/
theorem readsOperands_iff_readable
    (program : CString)
    (items : List Item) :
    ReadsOperands program items ↔
      (arguments items).length < 255 ∧
        ((arguments items).length = 254 →
          endsInSkip false (arguments items) = false) ∧
          Readable none false (tokens items) := by
  constructor
  · intro reads
    by_cases isEmpty : items = []
    · subst isEmpty
      exact ⟨by decide, fun _ => rfl, trivial⟩
    have returns := (readsOperands_iff_returns isEmpty).mp reads
    have few := length_le_of_returns returns (by decide)
    rw [List.length_cons] at few
    have endsInStep :
        (arguments items).length = 254 →
          endsInSkip false (arguments items) = false := by
      intro isFull
      by_contra endsOut
      have ends : endsInSkip false (arguments items) = true := by
        simpa using endsOut
      have fromStart :=
        endsInSkip_cons program (arguments items) (by omega) ends
      have length : (program :: arguments items).length = 255 := by
        rw [List.length_cons, isFull]
      have fromHere :
          endsInSkip false
              ((program :: arguments items).drop Reader.start.i) = true :=
        ends
      exact not_returns_of_endsInSkip length fromStart fromHere _ returns
    have short : (arguments items).length < 255 := by omega
    exact
      ⟨short, endsInStep,
        (readsOperands_iff_of_short program short endsInStep).mp reads⟩
  · rintro ⟨few, endsInStep, readable⟩
    exact (readsOperands_iff_of_short program few endsInStep).mpr readable

/-- The operand behind `-keep-gnu-property` is lost. -/
theorem not_readsOperands_keep :
    ¬ ReadsOperands (.ofString "zld")
        [.flag keep (by decide),
          .operand (.ofString "a.o") (by decide) (by decide)] := by
  rw [readsOperands_iff_of_short _ (by decide) (by decide)]
  have skips : SkipsNext keep := Or.inr rfl
  have isOperand : IsOperand (.ofString "a.o") := by decide
  simp [tokens, Readable, skips, isOperand]

end BinTools.CommandLine
