import BinTools.MakefileImmediate

namespace BinTools.Makefile

open HashTable

/-!
# Writing a makefile and parsing it

A makefile is written from assignments, rules with commands, blank lines and
empty comments.  The parser gives back the calls for the tables, the rules and
the lengths around a percent sign.  Behind a rule there is no comment before the
next assignment, and where a name could be read in another way it is not
written.
-/

/-! ## Makefiles -/

/-- Characters of a line. -/
structure LineText where
  bytes : List UInt8
  isLine : ∀ c ∈ bytes, c ≠ 0 ∧ c ≠ 0x0a
  deriving DecidableEq

/-- Characters of a value or a command, which a comment ends. -/
structure ValueText extends LineText where
  noComment : 0x23 ∉ bytes
  deriving DecidableEq

/-- The name of a variable or a target. -/
structure Word where
  bytes : List UInt8
  notEmpty : bytes ≠ []
  isWord :
    ∀ c ∈ bytes,
      isPrintable c = true ∧ c ≠ 0x3a ∧ c ≠ 0x3d ∧ c ≠ 0x3b ∧ c ≠ 0x23
  noPlus : 0x2b ∉ bytes.tail
  deriving DecidableEq

/-- The string of a line. -/
def LineText.string (text : LineText) : CString :=
  ⟨text.bytes, fun member => (text.isLine 0 member).1 rfl⟩

/-- No character of a word is the end of a string. -/
theorem Word.noNul (word : Word) : 0 ∉ word.bytes := by
  intro member
  exact absurd (word.isWord 0 member).1 (by decide)

/-- The string of a word. -/
def Word.string (word : Word) : CString :=
  ⟨word.bytes, word.noNul⟩

namespace VarKind

/-- The operator as it is written. -/
def written : VarKind → List UInt8
  | .immediate => [0x3a, 0x3d]
  | .recursive => [0x3d]
  | .recursiveAllowNonDefined => [0x3f, 0x3d]
  | .add => [0x2b, 0x3d]

/-- What the parser leaves of it. -/
def left : VarKind → List UInt8
  | .immediate => [0, 0x3d]
  | .recursive => [0]
  | .recursiveAllowNonDefined => [0, 0x3d]
  | .add => [0, 0x20]

/-- The value starts within the operator, or behind it. -/
def inFront : VarKind → List UInt8
  | .immediate => []
  | .recursive => []
  | .recursiveAllowNonDefined => [0x3d]
  | .add => [0x20]

/-- The mode of the call. -/
def mode : VarKind → HashCollision
  | .add => .add
  | _ => .override

end VarKind

/-- A line `NAME=value`, or with another operator. -/
structure Assignment where
  name : Word
  kind : VarKind
  value : ValueText
  isApart : kind = .recursive → name.bytes.tail.getLast? ≠ some 0x3f
  deriving DecidableEq

/-- A line `target: deps` with the lines of its commands. -/
structure RuleText where
  target : Word
  deps : LineText
  commands : List ValueText
  isApart : deps.bytes.head? ≠ some 0x3d
  deriving DecidableEq

/-- Lines of a makefile. -/
inductive Item where
  | assignment (line : Assignment)
  | rule (lines : RuleText)
  | blank (count : Nat)
  | comment
  deriving DecidableEq

/-- Whether a rule, or blank lines behind one, stand before the next item. -/
def Item.behindRule : Bool → Item → Bool
  | _, .assignment _ => false
  | _, .rule _ => true
  | behindRule, .blank _ => behindRule
  | _, .comment => false

/-- Comments stand in front of the first rule, or behind an assignment. -/
def Fits : Bool → List Item → Prop
  | _, [] => True
  | behindRule, item :: items =>
      (item = .comment → behindRule = false) ∧
        Fits (item.behindRule behindRule) items

/-! ## What is written, and what is left of it -/

/-- The line of a command. -/
def writeCommand (command : ValueText) : List UInt8 :=
  0x09 :: (command.bytes ++ [0x0a])

/-- The characters of some lines. -/
def Item.write : Item → List UInt8
  | .assignment line =>
      line.name.bytes ++ (line.kind.written ++ (line.value.bytes ++ [0x0a]))
  | .rule lines =>
      lines.target.bytes ++
        0x3a ::
          (lines.deps.bytes ++ 0x0a :: lines.commands.flatMap writeCommand)
  | .blank count => List.replicate count 0x20 ++ [0x0a]
  | .comment => [0x23, 0x0a]

/-- The line of a command, once it was read. -/
def readCommand (command : ValueText) : List UInt8 :=
  0x09 :: (command.bytes ++ [0])

/-- The characters of some lines, once they were read. -/
def Item.read : Item → List UInt8
  | .assignment line =>
      line.name.bytes ++ (line.kind.left ++ (line.value.bytes ++ [0]))
  | .rule lines =>
      lines.target.bytes ++
        0 :: (lines.deps.bytes ++ 0 :: lines.commands.flatMap readCommand)
  | .blank count => List.replicate count 0x20 ++ [0x0a]
  | .comment => [0x23, 0x0a]

/-- The text of a makefile. -/
def write (items : List Item) : List UInt8 :=
  items.flatMap Item.write

/-! ## What a makefile says -/

/-- The value that is stored. -/
def Assignment.stored (line : Assignment) : CString :=
  ⟨line.kind.inFront ++ line.value.bytes, by
    intro member
    rcases List.mem_append.mp member with inFront | inValue
    · revert inFront
      cases line.kind <;> decide
    · exact (line.value.isLine 0 inValue).1 rfl⟩

/-- Calls for the tables; rules have numbers. -/
def callsOf : Nat → List Item → List Call
  | _, [] => []
  | number, .assignment line :: items =>
      .varHashTable line.name.string (some line.stored) line.kind.mode ::
        callsOf number items
  | number, .rule lines :: items =>
      .ruleTargetHashTable lines.target.string number .raiseError ::
        callsOf (number + 1) items
  | number, .blank _ :: items => callsOf number items
  | number, .comment :: items => callsOf number items

/-- The rules of a makefile. -/
def rulesIn : List Item → List RuleText
  | [] => []
  | .rule lines :: items => lines :: rulesIn items
  | .assignment _ :: items => rulesIn items
  | .blank _ :: items => rulesIn items
  | .comment :: items => rulesIn items

/-- The dependencies without the blanks in front. -/
def RuleText.trimmed (lines : RuleText) : CString :=
  ⟨lines.deps.bytes.dropWhile (· = 0x20), fun member =>
    (lines.deps.isLine 0 (List.dropWhile_subset _ member)).1 rfl⟩

/-- The strings of a rule, and the number of its commands. -/
def RuleText.strings (lines : RuleText) :
    Option CString × Option CString × List (Option CString) × Nat :=
  (some lines.target.string, some lines.trimmed,
    lines.commands.map fun command => some command.string,
    lines.commands.length)

/-- The strings that the pointers of a rule point to. -/
def Rule.strings (text : List UInt8) (rule : Rule) :
    Option CString × Option CString × List (Option CString) × Nat :=
  (rule.target.map (stringAt text), rule.deps.map (stringAt text),
    rule.cmd.map (Option.map (stringAt text)), rule.numCmd)

/-- The lengths in front of a percent sign in the target and behind it. -/
def RuleText.trimLens (lines : RuleText) : List ImplicitTrimLen :=
  let i := isImplicit lines.target.bytes 1
  if i ≠ 0 then
    [{ beginLen := i - 1
       endLen := UInt8.ofNat lines.target.bytes.length - i }]
  else
    []

/-! ## Characters at a position -/

/-- Overwriting the character behind some others. -/
theorem set_length_cons (front rest : List UInt8) (c d : UInt8) :
    (front ++ c :: rest).set front.length d = front ++ d :: rest := by
  rw [List.set_append_right _ _ (Nat.le_refl _), Nat.sub_self, List.set_cons_zero]

/-- The character behind some others. -/
theorem peek_length
    {state : State} (front : List UInt8) (c : UInt8) (rest : List UInt8)
    (isText : state.text = front ++ c :: rest) :
    state.peek front.length = c :=
  peek_of_drop (by rw [isText, List.drop_left])

/-- The string behind some characters. -/
theorem stringAt_length
    (front : List UInt8) (string : CString) (rest : List UInt8) :
    stringAt (front ++ (string.bytes ++ 0 :: rest)) front.length = string := by
  rw [stringAt, List.drop_left]
  exact CString.ofBytes_append_nul string rest

/-- The steps over some characters that change nothing. -/
theorem parse_of_stays
    {state : State} {segment : List UInt8} {p : Nat}
    (stays :
      ∀ front c rest, segment = front ++ c :: rest →
        step state (p + front.length) = some state) :
    parse state p segment.length = some state := by
  induction segment generalizing p with
  | nil => rfl
  | cons c segment inductionHypothesis =>
      rw [List.length_cons, parse,
        show step state p = some state from stays [] c segment rfl,
        Option.bind_some]
      refine inductionHypothesis fun front d rest isSegment => ?_
      have isStay := stays (c :: front) d rest (by rw [isSegment]; rfl)
      rwa [List.length_cons, Nat.add_comm front.length 1, ← Nat.add_assoc] at isStay

/-! ## Words -/

variable {state : State} {front rest : List UInt8}

/-- Between two lines. -/
def AtLine (state : State) : Prop :=
  state.context = .none ∨ state.context = .ruleSep

/-- The first character of a word. -/
theorem step_word
    (atLine : AtLine state) {c : UInt8} (isText : state.text = front ++ c :: rest)
    (isWord :
      isPrintable c = true ∧ c ≠ 0x3a ∧ c ≠ 0x3d ∧ c ≠ 0x3b ∧ c ≠ 0x23) :
    step state front.length = some (readingName state front.length) := by
  have isHere := peek_length _ _ _ isText
  obtain ⟨printable, notColon, notEqual, notSemicolon, notComment⟩ := isWord
  rcases atLine with isNone | isSep
  · rw [step, isNone]
    show some (doContextNone state front.length) = _
    rw [doContextNone, isHere, if_neg notComment, if_neg notColon,
      if_neg notSemicolon, if_neg notEqual, if_pos printable]
    rfl
  · have notTab : ¬ (c = 0x09 ∧ state.peek (front.length - 1) = 0) := by
      rintro ⟨rfl, -⟩
      exact absurd printable (by decide)
    rw [step, isSep]
    show some (doContextSep state front.length) = _
    rw [doContextSep, isHere, if_neg notTab, if_pos printable]
    rfl

/-- Inside of a word the next character is read. -/
theorem step_readNow (isReading : state.context = .readNow) (p : Nat) :
    step state p = doContextReadNow state p := by
  rw [step, isReading]

/-- The other characters of a word, up to one that ends it. -/
theorem parse_behindFirst
    (isReading : state.context = .readNow) {word : List UInt8} {e : UInt8}
    (isText : state.text = front ++ (word ++ e :: rest))
    (isWord : ∀ c ∈ word, c ≠ 0x2b ∧ c ≠ 0x3a ∧ c ≠ 0x3d)
    (isApart : e = 0x3d → word.getLast? ≠ some 0x3f) :
    parse state front.length word.length = some state := by
  refine parse_of_stays fun before c behind isSplit => ?_
  subst isSplit
  obtain ⟨notPlus, notColon, notEqual⟩ :=
    isWord c (List.mem_append_right _ List.mem_cons_self)
  have isHere : state.peek (front.length + before.length) = c := by
    rw [← List.length_append]
    exact peek_length _ _ (behind ++ e :: rest) (by rw [isText]; simp)
  have isNext : c = 0x3f → state.peek (front.length + before.length + 1) ≠ 0x3d := by
    intro isQuestion
    have isLength :
        front.length + before.length + 1 = (front ++ before ++ [c]).length := by
      simp only [List.length_append, List.length_singleton]
    rw [isLength]
    cases behind with
    | nil =>
        rw [peek_length _ e rest (by rw [isText]; simp)]
        intro isEqual
        exact isApart isEqual (by simp [isQuestion])
    | cons d behind =>
        rw [peek_length _ d (behind ++ e :: rest)
          (by rw [isText]; simp)]
        exact (isWord d (by simp)).2.2
  rw [step_readNow isReading, doContextReadNow, isHere, if_neg notPlus,
    if_neg notColon, if_neg notEqual]
  by_cases isQuestion : c = 0x3f
  · rw [if_pos isQuestion, if_neg (isNext isQuestion), readNow_eq isReading]
  · rw [if_neg isQuestion, readNow_eq isReading]

/-- A word, up to a character that ends it. -/
theorem parse_wholeWord
    (atLine : AtLine state) (word : Word) {e : UInt8}
    (isText : state.text = front ++ (word.bytes ++ e :: rest))
    (isApart : e = 0x3d → word.bytes.tail.getLast? ≠ some 0x3f) :
    parse state front.length word.bytes.length =
      some (readingName state front.length) := by
  cases isBytes : word.bytes with
  | nil => exact absurd isBytes word.notEmpty
  | cons c tail =>
      rw [isBytes] at isText isApart
      have isFirst :=
        step_word atLine
          (show state.text = front ++ c :: (tail ++ e :: rest) from isText)
          (word.isWord c (isBytes ▸ List.mem_cons_self))
      have isTail : ∀ d ∈ tail, d ≠ 0x2b ∧ d ≠ 0x3a ∧ d ≠ 0x3d := by
        intro d member
        have noPlus := word.noPlus
        rw [isBytes, List.tail_cons] at noPlus
        obtain ⟨-, notColon, notEqual, -⟩ :=
          word.isWord d (isBytes ▸ List.mem_cons_of_mem _ member)
        exact ⟨fun isPlus => noPlus (isPlus ▸ member), notColon, notEqual⟩
      have isAhead :
          (readingName state front.length).text =
            (front ++ [c]) ++ (tail ++ e :: rest) := by
        show state.text = _
        rw [isText]
        simp
      have isRest := parse_behindFirst rfl isAhead isTail isApart
      rw [List.length_append, List.length_singleton] at isRest
      rw [List.length_cons, parse, isFirst, Option.bind_some]
      exact isRest

/-! ## Assignments -/

/-- How far behind the name the token is. -/
def VarKind.skip : VarKind → Nat
  | .immediate => 2
  | .recursive => 1
  | .recursiveAllowNonDefined => 1
  | .add => 2

/-- The operator is read. -/
theorem parse_operator
    (isReading : state.context = .readNow) (kind : VarKind)
    (isText : state.text = front ++ (kind.written ++ rest)) :
    parse state front.length kind.written.length =
      some (startVariable state front.length kind kind.skip) := by
  have isVar {q : Nat} {skip : Nat} {c : UInt8}
      (isSecond : (startVariable state front.length kind skip).peek q = c)
      (notNewline : c ≠ 0x0a) (notComment : c ≠ 0x23) :
      step (startVariable state front.length kind skip) q =
        some (startVariable state front.length kind skip) := by
    show doContextVariable (startVariable state front.length kind skip) q = _
    rw [doContextVariable, isSecond, if_neg notNewline, if_neg notComment]
    rfl
  have isBehind (c : UInt8) (tail : List UInt8) (skip : Nat)
      (isText : state.text = front ++ c :: 0x3d :: tail) :
      (startVariable state front.length kind skip).peek (front.length + 1) =
        0x3d := by
    have isSet :
        (startVariable state front.length kind skip).text =
          (front ++ [0]) ++ 0x3d :: tail := by
      show state.text.set front.length 0 = _
      rw [isText, set_length_cons]
      simp
    have isPeek := peek_length _ _ _ isSet
    rwa [List.length_append, List.length_singleton] at isPeek
  have isHere (c : UInt8) (tail : List UInt8)
      (isText : state.text = front ++ c :: tail) :
      state.peek front.length = c :=
    peek_length _ _ _ isText
  have isNext (c d : UInt8) (tail : List UInt8)
      (isText : state.text = front ++ c :: d :: tail) :
      state.peek (front.length + 1) = d := by
    have isPeek : state.peek (front ++ [c]).length = d :=
      peek_length _ _ tail (by rw [isText]; simp)
    rwa [List.length_append, List.length_singleton] at isPeek
  have isPair {skip : Nat} {c : UInt8} {tail : List UInt8}
      (isText : state.text = front ++ c :: 0x3d :: tail)
      (isStep :
        step state front.length =
          some (startVariable state front.length kind skip)) :
      parse state front.length 2 =
        some (startVariable state front.length kind skip) := by
    show
      ((step state front.length).bind fun s => parse s (front.length + 1) 1) =
        _
    rw [isStep, Option.bind_some, parse,
      isVar (isBehind c tail skip isText) (by decide) (by decide)]
    rfl
  cases kind with
  | immediate =>
      apply isPair isText
      rw [step_readNow isReading, doContextReadNow, isHere _ _ isText,
        isNext _ _ _ isText]
      rfl
  | recursive =>
      have isStep :
          step state front.length =
            some (startVariable state front.length .recursive 1) := by
        rw [step_readNow isReading, doContextReadNow, isHere _ _ isText]
        rfl
      show
        ((step state front.length).bind fun s => parse s (front.length + 1) 0) =
          _
      rw [isStep]
      rfl
  | recursiveAllowNonDefined =>
      apply isPair isText
      rw [step_readNow isReading, doContextReadNow, isHere _ _ isText,
        isNext _ _ _ isText]
      rfl
  | add =>
      apply isPair isText
      rw [step_readNow isReading, doContextReadNow, isHere _ _ isText,
        isNext _ _ _ isText]
      rfl

/-- The operator and the newline are overwritten. -/
theorem text_overwritten
    (front : List UInt8) (kind : VarKind) (value rest : List UInt8) :
    ((front ++ (kind.written ++ (value ++ 0x0a :: rest))).set front.length 0).set
        (front.length + kind.written.length + value.length) 0 =
      front ++ (0 :: kind.written.tail ++ (value ++ 0 :: rest)) := by
  obtain ⟨c, tail, isWritten⟩ : ∃ c tail, kind.written = c :: tail := by
    cases kind <;> exact ⟨_, _, rfl⟩
  have isEnd :
      front.length + kind.written.length + value.length =
        (front ++ (0 :: tail ++ value)).length := by
    rw [isWritten]
    simp only [List.length_append, List.length_cons]
    omega
  rw [isEnd, isWritten, List.cons_append, set_length_cons]
  have isSplit :
      front ++ 0 :: (tail ++ (value ++ 0x0a :: rest)) =
        (front ++ (0 :: tail ++ value)) ++ 0x0a :: rest := by
    simp
  rw [isSplit, set_length_cons]
  simp

/-- The token of a value. -/
def VarKind.valueAt : VarKind → Nat
  | .immediate => 2
  | .recursive => 1
  | .recursiveAllowNonDefined => 1
  | .add => 1

/-- The strings of an assignment that was read. -/
theorem strings_assignment (front rest : List UInt8) (line : Assignment) :
    let text := front ++ ((Item.assignment line).read ++ rest)
    stringAt text front.length = line.name.string ∧
      stringAt text
          (front.length + line.name.bytes.length + line.kind.valueAt) =
        line.stored := by
  obtain ⟨name, kind, value, isApart⟩ := line
  dsimp only [Item.read]
  constructor
  · have isText :
        front ++ (name.bytes ++ (kind.left ++ (value.bytes ++ [0])) ++ rest) =
          front ++
            (name.string.bytes ++
              0 :: (kind.left.tail ++ (value.bytes ++ 0 :: rest))) := by
      cases kind <;> simp [VarKind.left, Word.string]
    rw [isText]
    exact stringAt_length front name.string _
  · obtain ⟨before, isBefore, isSplit⟩ :
        ∃ before,
          before.length = kind.valueAt ∧
            kind.left = before ++ kind.inFront := by
      cases kind
      · exact ⟨[0, 0x3d], rfl, rfl⟩
      · exact ⟨[0], rfl, rfl⟩
      · exact ⟨[0], rfl, rfl⟩
      · exact ⟨[0], rfl, rfl⟩
    have isPlace :
        front.length + name.bytes.length + kind.valueAt =
          (front ++ (name.bytes ++ before)).length := by
      rw [← isBefore]
      simp only [List.length_append]
      omega
    have isText :
        front ++ (name.bytes ++ (kind.left ++ (value.bytes ++ [0])) ++ rest) =
          (front ++ (name.bytes ++ before)) ++
            ((Assignment.stored ⟨name, kind, value, isApart⟩).bytes ++
              0 :: rest) := by
      rw [isSplit]
      simp [Assignment.stored]
    rw [isPlace, isText]
    exact stringAt_length _ _ rest

/-- The end of the value sets the variable. -/
theorem step_endAssignment
    (line : Assignment)
    (isText :
      state.text = front ++ ((Item.assignment line).write ++ rest)) :
    ∃ later,
      step
            (startVariable (readingName state front.length)
              (front.length + line.name.bytes.length) line.kind line.kind.skip)
            (front.length + line.name.bytes.length +
              line.kind.written.length + line.value.bytes.length) =
          some later ∧
        later.text = front ++ ((Item.assignment line).read ++ rest) ∧
        later.context = .none ∧ later.rules = state.rules ∧
        later.implicitPreSuffixLen = state.implicitPreSuffixLen ∧
        later.calls =
          state.calls ++
            [.varHashTable line.name.string (some line.stored)
              line.kind.mode] := by
  obtain ⟨isName, isValue⟩ := strings_assignment front rest line
  have isStart :
      state.text =
        (front ++ line.name.bytes) ++
          (line.kind.written ++ (line.value.bytes ++ 0x0a :: rest)) := by
    rw [isText, Item.write]
    simp
  have isOver :=
    text_overwritten (front ++ line.name.bytes) line.kind line.value.bytes rest
  rw [← isStart, List.length_append] at isOver
  generalize isEnd :
    front.length + line.name.bytes.length + line.kind.written.length +
      line.value.bytes.length = e at isOver ⊢
  have isNewline :
      (startVariable (readingName state front.length)
          (front.length + line.name.bytes.length) line.kind
          line.kind.skip).peek e = 0x0a := by
    have isHere : state.peek e = 0x0a := by
      have isLength :
          e =
            (front ++ line.name.bytes ++ line.kind.written ++
              line.value.bytes).length := by
        rw [← isEnd]
        simp only [List.length_append]
      rw [isLength]
      exact peek_length _ _ rest (by rw [isStart]; simp)
    have notFirst : front.length + line.name.bytes.length ≠ e := by
      have positive : 0 < line.kind.written.length := by
        cases line.kind <;> decide
      omega
    rw [← isHere]
    show
      (state.text.set (front.length + line.name.bytes.length) 0).getD e 0 =
        state.text.getD e 0
    rw [List.getD_eq_getElem?_getD, List.getD_eq_getElem?_getD,
      List.getElem?_set_ne notFirst]
  have isStep :
      step
          (startVariable (readingName state front.length)
            (front.length + line.name.bytes.length) line.kind line.kind.skip)
          e =
        endVariable
          (startVariable (readingName state front.length)
            (front.length + line.name.bytes.length) line.kind line.kind.skip)
          e .none := by
    show doContextVariable _ e = _
    rw [doContextVariable, isNewline, if_pos rfl]
  rw [isStep]
  obtain ⟨name, kind, value, isApart⟩ := line
  dsimp only at isOver isName isValue ⊢
  cases kind
  case add =>
    have isRead :
        ((state.text.set (front.length + name.bytes.length) 0).set e 0).set
            (front.length + name.bytes.length + 1) 0x20 =
          front ++ ((Item.assignment ⟨name, .add, value, isApart⟩).read ++ rest) := by
      have isPlace :
          front.length + name.bytes.length + 1 =
            (front ++ name.bytes ++ [0]).length := by
        simp only [List.length_append, List.length_singleton]
      have isSplit :
          front ++ name.bytes ++
              (0 :: VarKind.add.written.tail ++ (value.bytes ++ 0 :: rest)) =
            (front ++ name.bytes ++ [0]) ++ 0x3d :: (value.bytes ++ 0 :: rest) := by
        simp [VarKind.written]
      rw [isOver, isPlace, isSplit, set_length_cons]
      simp [Item.read, VarKind.left]
    rw [← isRead] at isName isValue
    refine ⟨_, rfl, isRead, rfl, rfl, rfl, ?_⟩
    exact congrArg₂
      (fun name value => state.calls ++ [.varHashTable name (some value) .add])
      isName isValue
  all_goals
    have isRead :
        (state.text.set (front.length + name.bytes.length) 0).set e 0 =
          front ++ ((Item.assignment ⟨name, _, value, isApart⟩).read ++ rest) := by
      rw [isOver]
      simp [Item.read, VarKind.left, VarKind.written]
    rw [← isRead] at isName isValue
    refine ⟨_, rfl, isRead, rfl, rfl, rfl, ?_⟩
    exact congrArg₂
      (fun name value =>
        state.calls ++ [.varHashTable name (some value) .override])
      isName isValue

/-- An assignment is read. -/
theorem parse_assignment
    (atLine : AtLine state) (line : Assignment)
    (isText :
      state.text = front ++ ((Item.assignment line).write ++ rest)) :
    ∃ later,
      parse state front.length (Item.assignment line).write.length =
          some later ∧
        later.text = front ++ ((Item.assignment line).read ++ rest) ∧
        later.context = .none ∧ later.rules = state.rules ∧
        later.implicitPreSuffixLen = state.implicitPreSuffixLen ∧
        later.calls =
          state.calls ++
            [.varHashTable line.name.string (some line.stored)
              line.kind.mode] := by
  obtain ⟨e, tail, isWritten, isEqual⟩ :
      ∃ e tail, line.kind.written = e :: tail ∧
        (e = 0x3d → line.kind = .recursive) := by
    cases line.kind
    · exact ⟨0x3a, _, rfl, by decide⟩
    · exact ⟨0x3d, _, rfl, fun _ => rfl⟩
    · exact ⟨0x3f, _, rfl, by decide⟩
    · exact ⟨0x2b, _, rfl, by decide⟩
  have isStart :
      state.text =
        front ++
          (line.name.bytes ++
            e :: (tail ++ (line.value.bytes ++ 0x0a :: rest))) := by
    rw [isText, Item.write, isWritten]
    simp
  have isName :
      parse state front.length line.name.bytes.length =
        some (readingName state front.length) :=
    parse_wholeWord atLine line.name isStart fun isSame =>
      line.isApart (isEqual isSame)
  have isOperator :
      parse (readingName state front.length)
          (front.length + line.name.bytes.length) line.kind.written.length =
        some
          (startVariable (readingName state front.length)
            (front.length + line.name.bytes.length) line.kind
            line.kind.skip) := by
    rw [← List.length_append]
    have isAhead :
        (readingName state front.length).text =
          (front ++ line.name.bytes) ++
            (line.kind.written ++ (line.value.bytes ++ 0x0a :: rest)) := by
      show state.text = _
      rw [isText, Item.write]
      simp
    exact parse_operator rfl line.kind isAhead
  have isValue :
      parse
          (startVariable (readingName state front.length)
            (front.length + line.name.bytes.length) line.kind line.kind.skip)
          (front.length + line.name.bytes.length + line.kind.written.length)
          line.value.bytes.length =
        some
          (startVariable (readingName state front.length)
            (front.length + line.name.bytes.length) line.kind
            line.kind.skip) := by
    have isBehind :
        state.text.drop
            (front.length + line.name.bytes.length +
              line.kind.written.length) =
          line.value.bytes ++ 0x0a :: rest := by
      rw [isText, Item.write, ← List.length_append, ← List.length_append]
      have isSplit :
          front ++
              (line.name.bytes ++
                  (line.kind.written ++ (line.value.bytes ++ [0x0a])) ++
                rest) =
            (front ++ line.name.bytes ++ line.kind.written) ++
              (line.value.bytes ++ 0x0a :: rest) := by
        simp
      rw [isSplit, List.drop_left]
    have isAhead :
        (startVariable (readingName state front.length)
              (front.length + line.name.bytes.length) line.kind
              line.kind.skip).text.drop
            (front.length + line.name.bytes.length +
              line.kind.written.length) =
          line.value.bytes ++ 0x0a :: rest := by
      show (state.text.set (front.length + line.name.bytes.length) 0).drop _ = _
      have positive : 0 < line.kind.written.length := by
        cases line.kind <;> decide
      rw [drop_set_of_lt _ (by omega), isBehind]
    refine parse_value rfl isAhead fun c member => ?_
    exact ⟨(line.value.isLine c member).2, fun isComment =>
      line.value.noComment (isComment ▸ member)⟩
  obtain ⟨later, isEnd, facts⟩ := step_endAssignment line isText
  refine ⟨later, ?_, facts⟩
  have isCount :
      (Item.assignment line).write.length =
        line.name.bytes.length +
          (line.kind.written.length + (line.value.bytes.length + 1)) := by
    simp [Item.write]
  rw [isCount, parse_add, isName, Option.bind_some, parse_add, isOperator,
    Option.bind_some, parse_add, isValue, Option.bind_some, parse, isEnd,
    Option.bind_some]
  rfl

/-! ## Rules -/

/-- The last of some rules is changed. -/
theorem modify_last (rules : List Rule) (rule : Rule) (change : Rule → Rule) :
    (rules ++ [rule]).modify ((rules ++ [rule]).length - 1) change =
      rules ++ [change rule] := by
  rw [List.length_append, List.length_singleton, Nat.add_sub_cancel]
  induction rules with
  | nil => rfl
  | cons first rules inductionHypothesis =>
      rw [List.cons_append, List.length_cons, List.modify_succ_cons,
        inductionHypothesis]
      rfl

/-- The colon starts the rule. -/
theorem step_colon
    (target : Word) {d : UInt8}
    (isText : state.text = front ++ (target.bytes ++ 0x3a :: d :: rest))
    (isApart : d ≠ 0x3d) :
    ∃ later,
      step (readingName state front.length)
            (front.length + target.bytes.length) =
          some later ∧
        later.text = front ++ (target.bytes ++ 0 :: d :: rest) ∧
        later.context = .ruleDeps ∧
        later.str = some (front.length + target.bytes.length + 1) ∧
        later.rules =
          state.rules ++
            [{ target := some front.length, deps := none, cmd := [],
               numCmd := 0 }] ∧
        later.implicitPreSuffixLen =
          state.implicitPreSuffixLen ++
            (let i := isImplicit target.bytes 1
            if i ≠ 0 then
              [{ beginLen := i - 1
                 endLen := UInt8.ofNat target.bytes.length - i }]
            else
              []) ∧
        later.calls = state.calls := by
  have isSplit :
      state.text = (front ++ target.bytes) ++ 0x3a :: d :: rest := by
    rw [isText, List.append_assoc]
  have isHere :
      (readingName state front.length).peek
          (front.length + target.bytes.length) = 0x3a := by
    rw [← List.length_append]
    exact peek_length _ _ _ isSplit
  have isNext :
      (readingName state front.length).peek
          (front.length + target.bytes.length + 1) = d := by
    have isPeek :
        (readingName state front.length).peek
            (front ++ target.bytes ++ [0x3a]).length =
          d :=
      peek_length _ _ rest (isSplit.trans (by simp))
    rwa [List.length_append, List.length_append, List.length_singleton] at isPeek
  have isPoked :
      state.text.set (front.length + target.bytes.length) 0 =
        front ++ (target.bytes ++ 0 :: d :: rest) := by
    rw [isSplit, ← List.length_append, set_length_cons, List.append_assoc]
  have isTarget :
      ((state.text.set (front.length + target.bytes.length) 0).drop
            front.length).take
          (front.length + target.bytes.length - front.length) =
        target.bytes := by
    rw [isPoked, List.drop_left, Nat.add_sub_cancel_left, List.take_left]
  have isStep :
      step (readingName state front.length)
          (front.length + target.bytes.length) =
        startRule (readingName state front.length)
          (front.length + target.bytes.length) := by
    show doContextReadNow _ _ = _
    rw [doContextReadNow, isHere, isNext, if_neg (by decide), if_pos rfl,
      if_neg isApart]
  rw [isStep, startRule, evalTarget]
  show
    ∃ later,
      (((some front.length).map fun s =>
          let i :=
            isImplicit
              (((state.text.set (front.length + target.bytes.length) 0).drop
                  s).take
                (front.length + target.bytes.length - s))
              1
          if i ≠ 0 then _ else _).map
          _) =
          some later ∧
        _
  rw [Option.map_some, Option.map_some]
  refine ⟨_, rfl, ?_⟩
  dsimp only
  rw [Nat.add_sub_cancel_left] at isTarget ⊢
  rw [isTarget]
  by_cases isPattern : isImplicit target.bytes 1 ≠ 0
  · have isAdded :=
      congrArg
        (fun bytes =>
          state.implicitPreSuffixLen ++
            [{ beginLen := isImplicit bytes 1 - 1
               endLen :=
                UInt8.ofNat target.bytes.length - isImplicit bytes 1 }])
        isTarget
    rw [if_pos isPattern, if_pos isPattern]
    exact ⟨isPoked, rfl, rfl, rfl, isAdded, rfl⟩
  · rw [if_neg isPattern, if_neg isPattern]
    exact ⟨isPoked, rfl, rfl, rfl, (List.append_nil _).symm, rfl⟩

/-- The dependencies are read up to the newline. -/
theorem parse_deps
    (isReading : state.context = .ruleDeps) (deps : LineText)
    (isText : state.text = front ++ (deps.bytes ++ rest)) :
    parse state front.length deps.bytes.length = some state := by
  refine parse_of_stays fun before c behind isSplit => ?_
  have isHere : state.peek (front.length + before.length) = c := by
    rw [← List.length_append]
    exact peek_length _ _ (behind ++ rest) (by rw [isText, isSplit]; simp)
  have notNewline : c ≠ 0x0a :=
    (deps.isLine c (isSplit ▸ List.mem_append_right _ List.mem_cons_self)).2
  rw [step, isReading]
  show doContextRuleDeps state _ = some state
  rw [doContextRuleDeps, isHere, if_neg notNewline]

/-- The blanks in front of the dependencies are skipped. -/
theorem skipBlanks_eq
    {text : List UInt8} (deps : List UInt8) {d : UInt8} (notBlank : d ≠ 0x20)
    (isText : text = front ++ (deps ++ d :: rest)) :
    skipBlanks text front.length =
      (front ++ deps.takeWhile (· = 0x20)).length := by
  have isTaken (blanks : List UInt8) :
      (blanks ++ d :: rest).takeWhile (· = 0x20) =
        blanks.takeWhile (· = 0x20) := by
    induction blanks with
    | nil => simp [notBlank]
    | cons c blanks inductionHypothesis =>
        by_cases isBlank : c = 0x20
        · simp [isBlank, inductionHypothesis]
        · simp [isBlank]
  rw [skipBlanks, isText, List.drop_left, isTaken, List.length_append]

/-- The newline behind the dependencies enters the rule. -/
theorem step_endDeps
    {rules : List Rule} {rule : Rule} (isReading : state.context = .ruleDeps)
    (target : Word) (deps : LineText)
    (isText :
      state.text = front ++ (target.bytes ++ 0 :: (deps.bytes ++ 0x0a :: rest)))
    (isStr : state.str = some (front.length + target.bytes.length + 1))
    (isRules : state.rules = rules ++ [rule])
    (isTarget : rule.target = some front.length) :
    ∃ later place,
      step state
            (front.length + target.bytes.length + 1 + deps.bytes.length) =
          some later ∧
        later.text =
          front ++ (target.bytes ++ 0 :: (deps.bytes ++ 0 :: rest)) ∧
        later.context = .ruleSep ∧
        later.rules = rules ++ [{ rule with deps := some place }] ∧
        place =
          (front ++ (target.bytes ++ 0 :: deps.bytes.takeWhile (· = 0x20))).length ∧
        later.implicitPreSuffixLen = state.implicitPreSuffixLen ∧
        later.calls =
          state.calls ++
            [.ruleTargetHashTable target.string rules.length .raiseError] := by
  have isLength :
      front.length + target.bytes.length + 1 =
        (front ++ (target.bytes ++ [0])).length := by
    simp only [List.length_append, List.length_singleton]
    omega
  have isSplit :
      state.text =
        (front ++ (target.bytes ++ [0])) ++ (deps.bytes ++ 0x0a :: rest) := by
    rw [isText]
    simp
  have isEnd :
      front.length + target.bytes.length + 1 + deps.bytes.length =
        (front ++ (target.bytes ++ [0]) ++ deps.bytes).length := by
    rw [isLength, ← List.length_append]
  have isNewline :
      state.peek (front.length + target.bytes.length + 1 + deps.bytes.length) =
        0x0a := by
    rw [isEnd]
    exact peek_length _ _ rest (by rw [isSplit]; simp)
  have isOver :
      state.text.set
          (skipBlanksBack state.text
            (front.length + target.bytes.length + 1 + deps.bytes.length)) 0 =
        front ++ (target.bytes ++ 0 :: (deps.bytes ++ 0 :: rest)) := by
    rw [skipBlanksBack_of_newline isNewline, isEnd, isSplit, ← List.append_assoc,
      set_length_cons]
    simp
  have isSkipped := skipBlanks_eq deps.bytes (by decide) isSplit
  rw [← isLength] at isSkipped
  have isName :
      stringAt (front ++ (target.bytes ++ 0 :: (deps.bytes ++ 0 :: rest)))
          front.length =
        target.string :=
    stringAt_length front target.string _
  have isLast : (state.rules.getLast?).bind Rule.target = some front.length := by
    rw [isRules, List.getLast?_append]
    exact isTarget
  have isStep :
      step state
          (front.length + target.bytes.length + 1 + deps.bytes.length) =
        endRuleDeps state
          (front.length + target.bytes.length + 1 + deps.bytes.length) := by
    rw [step, isReading]
    show doContextRuleDeps state _ = _
    rw [doContextRuleDeps, isNewline, if_pos rfl]
  rw [isStep, endRuleDeps, isStr, Option.bind_some, isLast, Option.map_some]
  refine
    ⟨_, skipBlanks state.text (front.length + target.bytes.length + 1), rfl,
      isOver, rfl, ?_, ?_, rfl, ?_⟩
  · dsimp only
    rw [isRules, modify_last]
  · rw [isSkipped]
    simp
  · dsimp only
    rw [isOver, isName, isRules, List.length_append, List.length_singleton,
      Nat.add_sub_cancel]

/-- The line of a command is read. -/
theorem parse_command
    {rules : List Rule} {rule : Rule} (isSep : state.context = .ruleSep)
    (command : ValueText)
    (isText : state.text = (front ++ [0]) ++ (writeCommand command ++ rest))
    (isRules : state.rules = rules ++ [rule]) :
    ∃ later,
      parse state (front ++ [0]).length (writeCommand command).length =
          some later ∧
        later.text = (front ++ [0]) ++ (readCommand command ++ rest) ∧
        later.context = .ruleSep ∧
        later.rules =
          rules ++
            [{ rule with
                cmd := rule.cmd ++ [some ((front ++ [0]).length + 1)]
                numCmd := rule.numCmd + 1 }] ∧
        later.implicitPreSuffixLen = state.implicitPreSuffixLen ∧
        later.calls = state.calls := by
  have isFirst :
      step state (front ++ [0]).length =
        some
          { state with
            str := some ((front ++ [0]).length + 1)
            context := .ruleCmd } := by
    have isTab : state.peek (front ++ [0]).length = 0x09 :=
      peek_length _ _ (command.bytes ++ [0x0a] ++ rest)
        (by rw [isText, writeCommand]; simp)
    have isBefore : state.peek ((front ++ [0]).length - 1) = 0 := by
      rw [List.length_append, List.length_singleton, Nat.add_sub_cancel]
      exact peek_length _ _ (writeCommand command ++ rest)
        (by rw [isText]; simp)
    rw [step, isSep]
    show some (doContextSep state _) = _
    rw [doContextSep, isTab, isBefore]
    rfl
  generalize isReading :
    ({ state with
       str := some ((front ++ [0]).length + 1)
       context := .ruleCmd } : State) = reading at isFirst
  have isText' :
      reading.text =
        (front ++ [0] ++ [0x09]) ++ (command.bytes ++ 0x0a :: rest) := by
    rw [← isReading]
    show state.text = _
    rw [isText, writeCommand]
    simp
  have isContext : reading.context = .ruleCmd := by rw [← isReading]
  have isMiddle :
      parse reading (front ++ [0] ++ [0x09]).length command.bytes.length =
        some reading := by
    refine parse_of_stays fun before c behind isSplit => ?_
    have member : c ∈ command.bytes :=
      isSplit ▸ List.mem_append_right _ List.mem_cons_self
    have isHere :
        reading.peek ((front ++ [0] ++ [0x09]).length + before.length) = c := by
      rw [← List.length_append]
      exact peek_length _ _ (behind ++ 0x0a :: rest)
        (by rw [isText', isSplit]; simp)
    have isSame : { reading with context := .ruleCmd } = reading := by
      rw [← isContext]
    rw [step, isContext]
    show some (doContextRuleCmd reading _) = some reading
    have notComment : c ≠ 0x23 := fun isComment =>
      command.noComment (isComment ▸ member)
    rw [doContextRuleCmd, isHere, if_neg (command.isLine c member).2,
      if_neg notComment, isSame]
  have isEnd :
      (front ++ [0] ++ [0x09]).length + command.bytes.length =
        (front ++ [0] ++ [0x09] ++ command.bytes).length :=
    (List.length_append ..).symm
  have isLast :
      step reading ((front ++ [0] ++ [0x09]).length + command.bytes.length) =
        some
          (endRuleCmd reading
            ((front ++ [0] ++ [0x09]).length + command.bytes.length)
            .ruleSep) := by
    have isNewline :
        reading.peek
            ((front ++ [0] ++ [0x09]).length + command.bytes.length) =
          0x0a := by
      rw [isEnd]
      exact peek_length _ _ rest (by rw [isText']; simp)
    rw [step, isContext]
    show some (doContextRuleCmd reading _) = _
    rw [doContextRuleCmd, isNewline, if_pos rfl]
  refine
    ⟨endRuleCmd reading
        ((front ++ [0] ++ [0x09]).length + command.bytes.length) .ruleSep,
      ?_, ?_, rfl, ?_, ?_, ?_⟩
  · have isCount :
        (writeCommand command).length = 1 + (command.bytes.length + 1) := by
      rw [writeCommand, List.length_cons, List.length_append,
        List.length_singleton, Nat.add_comm 1]
    have isOne :
        parse state (front ++ [0]).length 1 = some reading := by
      rw [parse, isFirst]
      rfl
    have isBehind :
        (front ++ [0] ++ [0x09]).length = (front ++ [0]).length + 1 := by
      simp
    rw [isBehind] at isMiddle isLast ⊢
    rw [isCount, parse_add, isOne, Option.bind_some, parse_add, isMiddle,
      Option.bind_some, parse, isLast]
    rfl
  · show
      reading.text.set
          ((front ++ [0] ++ [0x09]).length + command.bytes.length) 0 =
        _
    rw [isEnd, isText', ← List.append_assoc, set_length_cons, readCommand]
    simp
  · show
      reading.rules.modify (reading.rules.length - 1)
          (fun rule =>
            { rule with
              numCmd := rule.numCmd + 1
              cmd := rule.cmd ++ [reading.str] }) =
        _
    have isSame : reading.rules = rules ++ [rule] := by
      rw [← isReading]
      exact isRules
    have isStr : reading.str = some ((front ++ [0]).length + 1) := by
      rw [← isReading]
    rw [isSame, modify_last, isStr]
  · rw [← isReading]
    rfl
  · rw [← isReading]
    rfl

/-- The lines of some commands are read. -/
theorem parse_commands
    {rules : List Rule} {rule : Rule} (isSep : state.context = .ruleSep)
    (commands : List ValueText)
    (isText :
      state.text = (front ++ [0]) ++ (commands.flatMap writeCommand ++ rest))
    (isRules : state.rules = rules ++ [rule]) :
    ∃ later cmd,
      parse state (front ++ [0]).length
            (commands.flatMap writeCommand).length =
          some later ∧
        later.text =
          (front ++ [0]) ++ (commands.flatMap readCommand ++ rest) ∧
        later.context = .ruleSep ∧
        later.rules =
          rules ++
            [{ rule with
                cmd := rule.cmd ++ cmd
                numCmd := rule.numCmd + commands.length }] ∧
        later.implicitPreSuffixLen = state.implicitPreSuffixLen ∧
        later.calls = state.calls ∧
        ∀ behind,
          cmd.map
              (Option.map
                (stringAt
                  ((front ++ [0]) ++
                    (commands.flatMap readCommand ++ behind)))) =
            commands.map fun command => some command.string := by
  induction commands generalizing state front rule with
  | nil =>
      refine ⟨state, [], rfl, isText, isSep, ?_, rfl, rfl, fun _ => rfl⟩
      rw [isRules, List.append_nil]
      rfl
  | cons command commands inductionHypothesis =>
      have isText :
          state.text =
            (front ++ [0]) ++
              (writeCommand command ++
                (commands.flatMap writeCommand ++ rest)) := by
        rw [isText, List.flatMap_cons]
        simp
      obtain ⟨next, isNext, nextText, nextSep, nextRules, nextLens, nextCalls⟩ :=
        parse_command isSep command isText isRules
      have isSplit (behind : List UInt8) :
          (front ++ [0]) ++ (readCommand command ++ behind) =
            ((front ++ [0] ++ 0x09 :: command.bytes) ++ [0]) ++ behind := by
        simp [readCommand]
      rw [isSplit] at nextText
      obtain
        ⟨later, cmd, isLater, laterText, laterSep, laterRules, laterLens,
          laterCalls, strings⟩ :=
        inductionHypothesis nextSep nextText nextRules
      have isPlace :
          (front ++ [0]).length + (writeCommand command).length =
            ((front ++ [0] ++ 0x09 :: command.bytes) ++ [0]).length := by
        simp [writeCommand]
        omega
      refine
        ⟨later, some ((front ++ [0]).length + 1) :: cmd, ?_, ?_, laterSep, ?_,
          laterLens.trans nextLens, laterCalls.trans nextCalls, fun behind => ?_⟩
      · have isCount :
            ((command :: commands).flatMap writeCommand).length =
              (writeCommand command).length +
                (commands.flatMap writeCommand).length := by
          rw [List.flatMap_cons, List.length_append]
        rw [isCount, parse_add, isNext, Option.bind_some, isPlace]
        exact isLater
      · rw [laterText]
        simp [readCommand]
      · rw [laterRules, List.length_cons]
        simp [Nat.add_comm, Nat.add_left_comm]
      · have isCommand :
            stringAt
                ((front ++ [0]) ++
                  ((command :: commands).flatMap readCommand ++ behind))
                ((front ++ [0]).length + 1) =
              command.string := by
          have isOne :
              (front ++ [0]).length + 1 = (front ++ [0] ++ [0x09]).length := by
            simp
          have isCut :
              (front ++ [0]) ++
                  ((command :: commands).flatMap readCommand ++ behind) =
                (front ++ [0] ++ [0x09]) ++
                  (command.string.bytes ++
                    0 :: (commands.flatMap readCommand ++ behind)) := by
            simp [readCommand, LineText.string]
          rw [isOne, isCut]
          exact stringAt_length _ _ _
        have isWhole :
            (front ++ [0]) ++
                ((command :: commands).flatMap readCommand ++ behind) =
              ((front ++ [0] ++ 0x09 :: command.bytes) ++ [0]) ++
                (commands.flatMap readCommand ++ behind) := by
          simp [readCommand]
        rw [List.map_cons, List.map_cons, Option.map_some, isCommand, isWhole,
          strings behind]

/-- A rule is read. -/
theorem parse_rule
    (atLine : AtLine state) (lines : RuleText)
    (isText : state.text = front ++ ((Item.rule lines).write ++ rest)) :
    ∃ later rule,
      parse state front.length (Item.rule lines).write.length = some later ∧
        later.text = front ++ ((Item.rule lines).read ++ rest) ∧
        later.context = .ruleSep ∧ later.rules = state.rules ++ [rule] ∧
        later.implicitPreSuffixLen =
          state.implicitPreSuffixLen ++ lines.trimLens ∧
        later.calls =
          state.calls ++
            [.ruleTargetHashTable lines.target.string state.rules.length
              .raiseError] ∧
        ∀ behind,
          rule.strings (front ++ ((Item.rule lines).read ++ behind)) =
            lines.strings := by
  obtain ⟨target, deps, commands, isApart⟩ := lines
  dsimp only [Item.write, Item.read] at isText ⊢
  obtain ⟨d, tail, isTail, notEqual⟩ :
      ∃ d tail,
        deps.bytes ++ 0x0a :: (commands.flatMap writeCommand ++ rest) =
            d :: tail ∧
          d ≠ 0x3d := by
    cases isDeps : deps.bytes with
    | nil => exact ⟨0x0a, _, rfl, by decide⟩
    | cons d tail =>
        refine ⟨d, _, rfl, fun isEqual => isApart ?_⟩
        rw [isDeps, List.head?_cons, isEqual]
  have isStart :
      state.text = front ++ (target.bytes ++ 0x3a :: d :: tail) := by
    rw [isText, ← isTail]
    simp
  have isName :
      parse state front.length target.bytes.length =
        some (readingName state front.length) :=
    parse_wholeWord atLine target isStart fun isEqual =>
      absurd isEqual (by decide)
  obtain
    ⟨colon, isColon, colonText, colonContext, colonStr, colonRules, colonLens,
      colonCalls⟩ :=
    step_colon target isStart notEqual
  rw [← isTail] at colonText
  have isDeps :
      parse colon (front.length + target.bytes.length + 1) deps.bytes.length =
        some colon := by
    have isPlace :
        front.length + target.bytes.length + 1 =
          (front ++ (target.bytes ++ [0])).length := by
      simp only [List.length_append, List.length_singleton]
      omega
    rw [isPlace]
    have isAhead :
        colon.text =
          (front ++ (target.bytes ++ [0])) ++
            (deps.bytes ++
              0x0a :: (commands.flatMap writeCommand ++ rest)) := by
      rw [colonText]
      simp
    exact parse_deps colonContext deps isAhead
  obtain
    ⟨entered, place, isEntered, enteredText, enteredSep, enteredRules, isPlace,
      enteredLens, enteredCalls⟩ :=
    step_endDeps colonContext target deps colonText colonStr colonRules rfl
  have isSplit (commandsText : List UInt8) :
      front ++ (target.bytes ++ 0 :: (deps.bytes ++ 0 :: commandsText)) =
        ((front ++ (target.bytes ++ 0 :: deps.bytes)) ++ [0]) ++
          commandsText := by
    simp
  rw [isSplit] at enteredText
  obtain
    ⟨later, cmd, isLater, laterText, laterSep, laterRules, laterLens,
      laterCalls, strings⟩ :=
    parse_commands enteredSep commands enteredText enteredRules
  refine
    ⟨later, _, ?_, ?_, laterSep, laterRules, ?_, ?_, fun behind => ?_⟩
  · have isCount :
        (target.bytes ++
            0x3a :: (deps.bytes ++
              0x0a :: commands.flatMap writeCommand)).length =
          target.bytes.length +
            (1 + (deps.bytes.length +
              (1 + (commands.flatMap writeCommand).length))) := by
      simp only [List.length_append, List.length_cons]
      omega
    have isOne (p : Nat) {s t : State} (isStep : step s p = some t) :
        parse s p 1 = some t := by
      rw [parse, isStep]
      rfl
    have isBehind :
        front.length + target.bytes.length + 1 + deps.bytes.length + 1 =
          ((front ++ (target.bytes ++ 0 :: deps.bytes)) ++ [0]).length := by
      simp
      omega
    rw [isCount, parse_add, isName, Option.bind_some, parse_add,
      isOne _ isColon, Option.bind_some, parse_add, isDeps, Option.bind_some,
      parse_add, isOne _ isEntered, Option.bind_some, isBehind]
    exact isLater
  · rw [laterText]
    simp
  · rw [laterLens, enteredLens, colonLens]
    rfl
  · rw [laterCalls, enteredCalls, colonCalls]
  · have isTarget :
        stringAt
            (front ++
              (target.bytes ++
                  0 :: (deps.bytes ++ 0 :: commands.flatMap readCommand) ++
                behind))
            front.length =
          target.string := by
      rw [List.append_assoc]
      exact stringAt_length front target.string _
    have isTrimmed :
        stringAt
            (front ++
              (target.bytes ++
                  0 :: (deps.bytes ++ 0 :: commands.flatMap readCommand) ++
                behind))
            place =
          RuleText.trimmed ⟨target, deps, commands, isApart⟩ := by
      have isCut :
          front ++
              (target.bytes ++
                  0 :: (deps.bytes ++ 0 :: commands.flatMap readCommand) ++
                behind) =
            (front ++
                (target.bytes ++ 0 :: deps.bytes.takeWhile (· = 0x20))) ++
              (deps.bytes.dropWhile (· = 0x20) ++
                0 :: (commands.flatMap readCommand ++ behind)) := by
        conv_lhs =>
          rw [← List.takeWhile_append_dropWhile (p := (· = (0x20 : UInt8)))
            (l := deps.bytes)]
        simp only [List.append_assoc, List.cons_append]
      rw [isPlace, isCut]
      exact
        stringAt_length _ (RuleText.trimmed ⟨target, deps, commands, isApart⟩)
          _
    have isCommands := strings behind
    have isWhole :
        (front ++ (target.bytes ++ 0 :: deps.bytes)) ++ [0] ++
            (commands.flatMap readCommand ++ behind) =
          front ++
            (target.bytes ++
                0 :: (deps.bytes ++ 0 :: commands.flatMap readCommand) ++
              behind) := by
      simp
    rw [isWhole] at isCommands
    rw [Rule.strings, RuleText.strings]
    dsimp only
    rw [Option.map_some, Option.map_some, isTarget, isTrimmed, List.nil_append,
      isCommands, Nat.zero_add]

/-! ## Blank lines and comments -/

/-- A blank line changes nothing. -/
theorem parse_blank
    (atLine : AtLine state) (count : Nat)
    (isText : state.text = front ++ ((Item.blank count).write ++ rest)) :
    parse state front.length (Item.blank count).write.length = some state := by
  refine parse_of_stays fun before c behind isSplit => ?_
  have isBlank : c = 0x20 ∨ c = 0x0a := by
    have member : c ∈ (Item.blank count).write := by rw [isSplit]; simp
    rcases List.mem_append.mp member with inBlanks | isEnd
    · exact .inl (List.eq_of_mem_replicate inBlanks)
    · exact .inr (List.mem_singleton.mp isEnd)
  have isHere : state.peek (front.length + before.length) = c := by
    rw [← List.length_append]
    exact peek_length _ _ (behind ++ rest) (by rw [isText, isSplit]; simp)
  rcases atLine with isNone | isSep
  · rw [step, isNone]
    show some (doContextNone state _) = some state
    rw [doContextNone, isHere]
    rcases isBlank with rfl | rfl <;> rfl
  · have isSame : { state with context := .ruleSep } = state := by
      rw [← isSep]
    rw [step, isSep]
    show some (doContextSep state _) = some state
    rw [doContextSep, isHere]
    rcases isBlank with rfl | rfl <;> exact congrArg some isSame

/-- An empty comment changes nothing. -/
theorem parse_comment
    (isNone : state.context = .none)
    (isText : state.text = front ++ (Item.comment.write ++ rest)) :
    parse state front.length Item.comment.write.length = some state := by
  have isFirst : state.peek front.length = 0x23 :=
    peek_length _ _ (0x0a :: rest) isText
  have isSecond : state.peek (front.length + 1) = 0x0a := by
    have isPlace : front.length + 1 = (front ++ [0x23]).length := by simp
    rw [isPlace]
    exact peek_length _ _ rest (by rw [isText]; simp [Item.write])
  have isStep :
      step state front.length = some { state with context := .comment } := by
    rw [step, isNone]
    show some (doContextNone state _) = _
    rw [doContextNone, isFirst]
    rfl
  have isSame : { state with context := .none } = state := by
    rw [← isNone]
  show parse state front.length 2 = some state
  rw [parse, isStep, Option.bind_some, parse, Option.bind_eq_some_iff]
  refine ⟨state, ?_, rfl⟩
  show some (doContextComment { state with context := .comment } _) = some state
  rw [doContextComment]
  rw [show State.peek { state with context := .comment } (front.length + 1) = 0x0a
    from isSecond, if_pos rfl]
  exact congrArg some isSame

/-! ## Whole makefiles -/

/-- What the parser did with some items. -/
structure Reads
    (state later : State) (front rest : List UInt8) (items : List Item)
    (rules : List Rule) : Prop where
  text : later.text = front ++ (items.flatMap Item.read ++ rest)
  isRules : later.rules = state.rules ++ rules
  lens :
    later.implicitPreSuffixLen =
      state.implicitPreSuffixLen ++ (rulesIn items).flatMap RuleText.trimLens
  isCalls : later.calls = state.calls ++ callsOf state.rules.length items
  strings :
    ∀ behind,
      rules.map (Rule.strings (front ++ (items.flatMap Item.read ++ behind))) =
        (rulesIn items).map RuleText.strings

/-- What is left of an item is as long as the item. -/
theorem Item.length_read (item : Item) :
    item.read.length = item.write.length := by
  have sameCommands (commands : List ValueText) :
      (commands.flatMap readCommand).length =
        (commands.flatMap writeCommand).length := by
    induction commands with
    | nil => rfl
    | cons command commands inductionHypothesis =>
        rw [List.flatMap_cons, List.flatMap_cons, List.length_append,
          List.length_append, inductionHypothesis]
        simp [readCommand, writeCommand]
  cases item with
  | assignment line =>
      have sameLength : line.kind.left.length = line.kind.written.length := by
        cases line.kind <;> rfl
      simp [Item.read, Item.write, sameLength]
  | rule lines => simp [Item.read, Item.write, sameCommands]
  | blank count => rfl
  | comment => rfl

/-- The rules of an item and of the others. -/
theorem rulesIn_cons (item : Item) (items : List Item) :
    rulesIn (item :: items) = rulesIn [item] ++ rulesIn items := by
  cases item <;> rfl

/-- The calls for an item and for the others. -/
theorem callsOf_cons (number : Nat) (item : Item) (items : List Item) :
    callsOf number (item :: items) =
      callsOf number [item] ++
        callsOf (number + (rulesIn [item]).length) items := by
  cases item <;> rfl

/-- An item is read, and then the others. -/
theorem Reads.cons
    {middle later : State} {item : Item} {items : List Item}
    {first second : List Rule}
    (isFirst : Reads state middle front (write items ++ rest) [item] first)
    (isSecond :
      Reads middle later (front ++ item.read) rest items second) :
    Reads state later front rest (item :: items) (first ++ second) := by
  have isItem : [item].flatMap Item.read = item.read := by simp
  have sameLength : first.length = (rulesIn [item]).length := by
    have isLength := congrArg List.length (isFirst.strings [])
    rwa [List.length_map, List.length_map] at isLength
  refine ⟨?_, ?_, ?_, ?_, fun behind => ?_⟩
  · rw [isSecond.text, List.flatMap_cons]
    simp
  · rw [isSecond.isRules, isFirst.isRules, List.append_assoc]
  · rw [isSecond.lens, isFirst.lens, rulesIn_cons item items,
      List.flatMap_append, List.append_assoc]
  · rw [isSecond.isCalls, isFirst.isCalls, isFirst.isRules,
      callsOf_cons _ item items, List.length_append, sameLength,
      List.append_assoc]
  · have isHead := isFirst.strings (items.flatMap Item.read ++ behind)
    have isTail := isSecond.strings behind
    rw [isItem] at isHead
    rw [List.append_assoc] at isTail
    rw [List.map_append, rulesIn_cons, List.map_append, List.flatMap_cons,
      List.append_assoc, isHead, isTail]

/-- Between two lines; a rule is in front where the flag is set. -/
structure Between (behindRule : Bool) (state : State) : Prop where
  atLine : AtLine state
  isNone : behindRule = false → state.context = .none

/-- An item is read. -/
theorem parse_item
    {behindRule : Bool} (between : Between behindRule state) (item : Item)
    (isApart : item = .comment → behindRule = false)
    (isText : state.text = front ++ (item.write ++ rest)) :
    ∃ later rules,
      parse state front.length item.write.length = some later ∧
        Reads state later front rest [item] rules ∧
        Between (item.behindRule behindRule) later := by
  have isItem : [item].flatMap Item.read = item.read := by simp
  cases item with
  | assignment line =>
      obtain ⟨later, isLater, laterText, isNone, sameRules, sameLens, isCalls⟩ :=
        parse_assignment between.atLine line isText
      refine
        ⟨later, [], isLater, ⟨?_, ?_, ?_, isCalls, fun _ => rfl⟩,
          .inl isNone, fun _ => isNone⟩
      · rw [isItem, laterText]
      · rw [sameRules, List.append_nil]
      · rw [sameLens]
        exact (List.append_nil _).symm
  | rule lines =>
      obtain
        ⟨later, rule, isLater, laterText, isSep, isRules, isLens, isCalls,
          strings⟩ :=
        parse_rule between.atLine lines isText
      refine
        ⟨later, [rule], isLater, ⟨?_, isRules, ?_, isCalls, fun behind => ?_⟩,
          .inr isSep, nofun⟩
      · rw [isItem, laterText]
      · rw [isLens]
        simp [rulesIn]
      · rw [isItem]
        exact congrArg (fun strings => [strings]) (strings behind)
  | blank count =>
      refine
        ⟨state, [], parse_blank between.atLine count isText,
          ⟨?_, ?_, ?_, ?_, fun _ => rfl⟩, between⟩
      · rw [isItem, isText]
        rfl
      · rw [List.append_nil]
      · exact (List.append_nil _).symm
      · exact (List.append_nil _).symm
  | comment =>
      have isNone := between.isNone (isApart rfl)
      refine
        ⟨state, [], parse_comment isNone isText,
          ⟨?_, ?_, ?_, ?_, fun _ => rfl⟩, between.atLine, fun _ => isNone⟩
      · rw [isItem, isText]
        rfl
      · rw [List.append_nil]
      · exact (List.append_nil _).symm
      · exact (List.append_nil _).symm

/-- Items are read one by one. -/
theorem parse_items
    {behindRule : Bool} (between : Between behindRule state)
    {items : List Item} (fits : Fits behindRule items)
    (isText : state.text = front ++ (write items ++ rest)) :
    ∃ later rules,
      parse state front.length (write items).length = some later ∧
        Reads state later front rest items rules := by
  induction items generalizing state front behindRule with
  | nil =>
      refine ⟨state, [], rfl, ⟨isText, ?_, ?_, ?_, fun _ => rfl⟩⟩
      · rw [List.append_nil]
      · exact (List.append_nil _).symm
      · exact (List.append_nil _).symm
  | cons item items inductionHypothesis =>
      have isWritten : write (item :: items) = item.write ++ write items := rfl
      rw [isWritten, List.append_assoc] at isText
      obtain ⟨middle, first, isMiddle, isFirst, isBetween⟩ :=
        parse_item between item fits.1 isText
      have middleText :
          middle.text = (front ++ item.read) ++ (write items ++ rest) := by
        rw [isFirst.text]
        simp
      obtain ⟨later, second, isLater, isSecond⟩ :=
        inductionHypothesis isBetween fits.2 middleText
      refine ⟨later, first ++ second, ?_, isFirst.cons isSecond⟩
      rw [isWritten, List.length_append, parse_add, isMiddle, Option.bind_some,
        ← item.length_read, ← List.length_append]
      exact isLater

/-- An empty comment, `C+=gcc`, a blank line and `%.o: a.c` with command `ld`. -/
def smallMakefile : List Item :=
  [ .comment,
    .assignment
      { name := { bytes := [0x43], notEmpty := by decide,
                  isWord := by simp [isPrintable], noPlus := by decide }
        kind := .add
        value := { bytes := [0x67, 0x63, 0x63], isLine := by simp,
                   noComment := by decide }
        isApart := nofun },
    .blank 1,
    .rule
      { target := { bytes := [0x25, 0x2e, 0x6f], notEmpty := by decide,
                    isWord := by simp [isPrintable], noPlus := by decide }
        deps := { bytes := [0x20, 0x61, 0x2e, 0x63], isLine := by simp }
        commands := [{ bytes := [0x6c, 0x64], isLine := by simp,
                       noComment := by decide }]
        isApart := by decide } ]

end BinTools.Makefile
