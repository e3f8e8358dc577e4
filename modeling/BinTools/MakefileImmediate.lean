import BinTools.MakefileLines
import BinTools.MakefileVariables

namespace BinTools.Makefile

open HashTable

/-!
# Immediate assignments

`resolve_vars` gives a null pointer for every value, so a line `NAME:=text`
stores the text as it is written.
-/

/-! ## Lines -/

/-- Text of a value without a dollar sign. -/
def IsText (text : List UInt8) : Prop :=
  ∀ c ∈ text, c ≠ 0x24 ∧ c ≠ 0x0a ∧ c ≠ 0x23 ∧ c ≠ 0

/-- A reference to a variable that was assigned, and the text behind it. -/
structure VarReference (calls : List Call) where
  name : CString
  value : CString
  after : List UInt8
  isAssigned : assigned calls name = some value
  isName : ∀ c ∈ name.bytes, c ≠ 0x24 ∧ c ≠ 0x29 ∧ c ≠ 0x0a ∧ c ≠ 0x23
  isText : IsText after

/-- A line `NAME:=text` behind some calls. -/
structure ImmediateLine (calls : List Call) where
  name : CString
  lead : List UInt8
  references : List (VarReference calls)
  notEmpty : name.bytes ≠ []
  isName :
    ∀ c ∈ name.bytes,
      isPrintable c = true ∧ c ≠ 0x3a ∧ c ≠ 0x3d ∧ c ≠ 0x23
  isText : IsText lead

namespace ImmediateLine

variable {calls : List Call}

/-- The text as it is written. -/
def rawBytes (line : ImmediateLine calls) : List UInt8 :=
  line.lead ++
    line.references.flatMap fun reference =>
      0x24 :: 0x28 :: (reference.name.bytes ++ 0x29 :: reference.after)

/-- The text with values in the place of the references. -/
def expandedBytes (line : ImmediateLine calls) : List UInt8 :=
  line.lead ++
    line.references.flatMap fun reference =>
      reference.value.bytes ++ reference.after

/-- The text has no end of a line, and no comment. -/
theorem isValue_rawBytes (line : ImmediateLine calls) :
    ∀ c ∈ line.rawBytes, c ≠ 0x0a ∧ c ≠ 0x23 ∧ c ≠ 0 := by
  intro c member
  rcases List.mem_append.mp member with inLead | inReferences
  · exact (line.isText c inLead).2
  · obtain ⟨reference, -, isByte⟩ := List.mem_flatMap.mp inReferences
    rcases List.mem_cons.mp isByte with rfl | isByte
    · decide
    rcases List.mem_cons.mp isByte with rfl | isByte
    · decide
    rcases List.mem_append.mp isByte with inName | isByte
    · obtain ⟨-, -, notNewline, notComment⟩ := reference.isName c inName
      exact
        ⟨notNewline, notComment, fun isNul =>
          reference.name.noNul (isNul ▸ inName)⟩
    rcases List.mem_cons.mp isByte with rfl | inText
    · decide
    · exact (reference.isText c inText).2

theorem noNul_rawBytes (line : ImmediateLine calls) : 0 ∉ line.rawBytes :=
  fun member => (line.isValue_rawBytes 0 member).2.2 rfl

theorem noNul_expandedBytes (line : ImmediateLine calls) :
    0 ∉ line.expandedBytes := by
  intro member
  rcases List.mem_append.mp member with inLead | inReferences
  · exact (line.isText 0 inLead).2.2.2 rfl
  · obtain ⟨reference, -, isByte⟩ := List.mem_flatMap.mp inReferences
    rcases List.mem_append.mp isByte with inValue | inText
    · exact reference.value.noNul inValue
    · exact (reference.isText 0 inText).2.2.2 rfl

/-- The text. -/
def raw (line : ImmediateLine calls) : CString :=
  ⟨line.rawBytes, line.noNul_rawBytes⟩

/-- The text with every reference replaced by the value of its name. -/
def expansion (line : ImmediateLine calls) : CString :=
  ⟨line.expandedBytes, line.noNul_expandedBytes⟩

/-- The characters of the line. -/
def bytes (line : ImmediateLine calls) : List UInt8 :=
  line.name.bytes ++ 0x3a :: 0x3d :: (line.raw.bytes ++ [0x0a])

/--
The parser is at the start of a line; there a name does not start with a
semicolon, and behind its first character there is no plus.
-/
structure Ready (line : ImmediateLine calls) (state : State) : Prop where
  context : state.context = .none ∨ state.context = .ruleSep
  head : state.context = .none → line.name.bytes.head? ≠ some 0x3b
  tail : 0x2b ∉ line.name.bytes.tail

/--
Behind the line, and until the name is set again, the expansion is what the
stored pointer points to, and what is found for the name.
-/
def Keeps (line : ImmediateLine calls) (text : List UInt8) (n : Nat) : Prop :=
  ∃ next value,
    parse (State.init text) 0 (n + line.bytes.length) = some next ∧
      next.var.value = some value ∧
        ∀ count later,
          parse next (n + line.bytes.length) count = some later →
            (∀ call ∈ later.calls.drop next.calls.length,
              ¬ call.Sets line.name) →
              stringAt later.text value = line.expansion ∧
                ∀ table, varHashTable later.calls = some table →
                  table.hashFind line.name =
                    some (some (.text line.expansion))

end ImmediateLine

/-! ## Reading a line -/

theorem peek_of_drop
    {state : State} {p : Nat} {c : UInt8} {rest : List UInt8}
    (isAhead : state.text.drop p = c :: rest) : state.peek p = c := by
  rw [State.peek, List.getD_eq_getElem?_getD, ← List.head?_drop, isAhead]
  rfl

theorem drop_succ_of_drop
    {text : List UInt8} {p : Nat} {c : UInt8} {rest : List UInt8}
    (isAhead : text.drop p = c :: rest) : text.drop (p + 1) = rest := by
  rw [← List.drop_drop, isAhead]
  rfl

theorem readNow_eq {state : State} (isReading : state.context = .readNow) :
    { state with context := .readNow } = state := by
  rw [← isReading]

/-- A character of a name. -/
theorem doContextReadNow_of_word
    {state : State} {p : Nat} (isReading : state.context = .readNow)
    (notPlus : state.peek p ≠ 0x2b) (notColon : state.peek p ≠ 0x3a)
    (notEqual : state.peek p ≠ 0x3d)
    (notNext : state.peek (p + 1) ≠ 0x3d) :
    doContextReadNow state p = some state := by
  rw [doContextReadNow, if_neg notPlus, if_neg notColon, if_neg notEqual, if_neg notNext,
    readNow_eq isReading, ite_self]

/-- The rest of a name is read. -/
theorem parse_word
    {state : State} {p : Nat} {word rest : List UInt8}
    (isReading : state.context = .readNow)
    (isAhead : state.text.drop p = word ++ 0x3a :: rest)
    (isWord : ∀ c ∈ word, c ≠ 0x2b ∧ c ≠ 0x3a ∧ c ≠ 0x3d) :
    parse state p word.length = some state := by
  induction word generalizing p with
  | nil => rfl
  | cons c word inductionHypothesis =>
      rw [List.forall_mem_cons] at isWord
      obtain ⟨⟨notPlus, notColon, notEqual⟩, isRest⟩ := isWord
      have isHere := peek_of_drop isAhead
      have isNext := drop_succ_of_drop isAhead
      have notNext : state.peek (p + 1) ≠ 0x3d := by
        cases word with
        | nil =>
            rw [peek_of_drop isNext]
            decide
        | cons d word =>
            rw [peek_of_drop isNext]
            exact (isRest d List.mem_cons_self).2.2
      have isStep : step state p = some state := by
        rw [step, isReading]
        exact
          doContextReadNow_of_word isReading (isHere ▸ notPlus)
            (isHere ▸ notColon) (isHere ▸ notEqual) notNext
      rw [List.length_cons, parse, isStep, Option.bind_some]
      exact inductionHypothesis isNext isRest

/-- The characters of a value are read. -/
theorem parse_value
    {state : State} {p : Nat} {value rest : List UInt8}
    (isReading : state.context = .var)
    (isAhead : state.text.drop p = value ++ rest)
    (isValue : ∀ c ∈ value, c ≠ 0x0a ∧ c ≠ 0x23) :
    parse state p value.length = some state := by
  induction value generalizing p with
  | nil => rfl
  | cons c value inductionHypothesis =>
      rw [List.forall_mem_cons] at isValue
      obtain ⟨⟨notNewline, notComment⟩, isRest⟩ := isValue
      have isHere := peek_of_drop isAhead
      have isSame : { state with context := .var } = state := by
        rw [← isReading]
      have isStep : step state p = some state := by
        rw [step, isReading]
        show doContextVariable state p = some state
        rw [doContextVariable, isHere, if_neg notNewline, if_neg notComment,
          isSame]
      rw [List.length_cons, parse, isStep, Option.bind_some]
      exact inductionHypothesis (drop_succ_of_drop isAhead) isRest

/-! ## The line -/

section Line

variable
  {calls : List Call}
  {line : ImmediateLine calls}
  {state : State}
  {n : Nat}
  {rest : List UInt8}

/-- The name is the token. -/
def readingName (state : State) (n : Nat) : State :=
  { state with context := .readNow, str := some n }

/-- The text of the value is the token. -/
def readingValue (state : State) (n size : Nat) : State :=
  startVariable (readingName state n) (n + size) .immediate 2

/-- What the line leaves. -/
def behindLine (line : ImmediateLine calls) (state : State) (n : Nat) :
    State :=
  { state with
    text :=
      (state.text.set (n + line.name.length) 0).set
        (n + line.name.length + (2 + line.raw.length)) 0
    context := .none
    str := none
    var :=
      { name := some n
        value := some (n + line.name.length + 2)
        kind := some .immediate }
    calls :=
      state.calls ++
        [.varHashTable line.name (some line.raw) .override] }

/-- The first character of the name. -/
theorem step_first
    (ready : line.Ready state) {c : UInt8} {word : List UInt8}
    (isName : line.name.bytes = c :: word)
    (isAhead : state.text.drop n = c :: rest) :
    step state n = some (readingName state n) := by
  have isHere := peek_of_drop isAhead
  obtain ⟨printable, notColon, notEqual, notComment⟩ :=
    line.isName c (isName ▸ List.mem_cons_self)
  rcases ready.context with isNone | isSep
  · have notSemicolon : c ≠ 0x3b := fun isSemicolon =>
      ready.head isNone (by rw [isName, isSemicolon]; rfl)
    rw [step, isNone]
    show some (doContextNone state n) = _
    rw [doContextNone, isHere, if_neg notComment, if_neg notColon,
      if_neg notSemicolon, if_neg notEqual, if_pos printable]
    rfl
  · have notTab : ¬ (c = 0x09 ∧ state.peek (n - 1) = 0) := by
      rintro ⟨rfl, -⟩
      exact absurd printable (by decide)
    rw [step, isSep]
    show some (doContextSep state n) = _
    rw [doContextSep, isHere, if_neg notTab, if_pos printable]
    rfl

/-- The name up to the colon. -/
theorem parse_name
    (ready : line.Ready state)
    (isAhead : state.text.drop n = line.name.bytes ++ 0x3a :: rest) :
    parse state n line.name.length = some (readingName state n) := by
  cases isName : line.name.bytes with
  | nil => exact absurd isName line.notEmpty
  | cons c word =>
      rw [isName] at isAhead
      have isWord : ∀ d ∈ word, d ≠ 0x2b ∧ d ≠ 0x3a ∧ d ≠ 0x3d := by
        intro d member
        have isTail := ready.tail
        rw [isName, List.tail_cons] at isTail
        obtain ⟨-, notColon, notEqual, -⟩ :=
          line.isName d (isName ▸ List.mem_cons_of_mem _ member)
        exact ⟨fun isPlus => isTail (isPlus ▸ member), notColon, notEqual⟩
      have isRest : (readingName state n).text.drop (n + 1) = word ++ 0x3a :: rest :=
        drop_succ_of_drop isAhead
      rw [CString.length, isName, List.length_cons, parse,
        step_first ready isName isAhead, Option.bind_some]
      exact parse_word rfl isRest isWord

/-- The colon, the sign of equality and the text. -/
theorem parse_text
    (isAhead :
      state.text.drop n =
        line.name.bytes ++ 0x3a :: 0x3d :: (line.raw.bytes ++ rest)) :
    parse (readingName state n) (n + line.name.length)
        (2 + line.raw.length) =
      some (readingValue state n line.name.length) := by
  have isColon :
      state.text.drop (n + line.name.length) =
        0x3a :: 0x3d :: (line.raw.bytes ++ rest) := by
    rw [← List.drop_drop, isAhead, CString.length, List.drop_left]
  have isStep :
      step (readingName state n) (n + line.name.length) =
        some (readingValue state n line.name.length) := by
    have isHere : (readingName state n).peek (n + line.name.length) = 0x3a :=
      peek_of_drop isColon
    have isNext :
        (readingName state n).peek (n + line.name.length + 1) = 0x3d :=
      peek_of_drop (drop_succ_of_drop isColon)
    show doContextReadNow (readingName state n) _ = _
    rw [doContextReadNow, isHere, isNext]
    rfl
  have isRest :
      (readingValue state n line.name.length).text.drop
          (n + line.name.length + 1) =
        (0x3d :: line.raw.bytes) ++ rest := by
    show (state.text.set (n + line.name.length) 0).drop _ = _
    rw [drop_set_of_lt _ (Nat.lt_succ_self _), drop_succ_of_drop isColon]
    rfl
  have isValue : ∀ c ∈ 0x3d :: line.raw.bytes, c ≠ 0x0a ∧ c ≠ 0x23 := by
    rw [List.forall_mem_cons]
    refine ⟨by decide, fun c member => ?_⟩
    obtain ⟨notNewline, notComment, -⟩ := line.isValue_rawBytes c member
    exact ⟨notNewline, notComment⟩
  have isCount : 2 + line.raw.length = (0x3d :: line.raw.bytes).length + 1 := by
    rw [List.length_cons, CString.length]
    omega
  rw [isCount, parse, isStep, Option.bind_some]
  exact parse_value rfl isRest isValue

/-- The text behind the line, from its name on. -/
theorem text_behindLine
    (isAhead :
      state.text.drop n =
        line.name.bytes ++
          0x3a :: 0x3d :: (line.raw.bytes ++ 0x0a :: rest)) :
    (behindLine line state n).text.drop n =
      line.name.bytes ++ 0 :: 0x3d :: (line.raw.bytes ++ 0 :: rest) := by
  have isEnd :
      line.name.length + (2 + line.raw.length) - line.name.bytes.length =
        line.raw.bytes.length + 1 + 1 := by
    rw [CString.length, CString.length]
    omega
  show
    ((state.text.set (n + line.name.length) 0).set
        (n + line.name.length + (2 + line.raw.length)) 0).drop n =
      _
  rw [List.drop_set, if_neg (by omega), List.drop_set, if_neg (by omega),
    isAhead, Nat.add_sub_cancel_left, Nat.add_assoc n,
    Nat.add_sub_cancel_left, CString.length,
    List.set_append_right _ _ (Nat.le_refl _), Nat.sub_self,
    List.set_cons_zero, List.set_append_right _ _ (by omega)]
  rw [CString.length] at isEnd
  rw [isEnd, List.set_cons_succ, List.set_cons_succ,
    List.set_append_right _ _ (Nat.le_refl _), Nat.sub_self,
    List.set_cons_zero]

/-- The value with its end is in front of the next line. -/
theorem value_behindLine
    (isAhead :
      state.text.drop n =
        line.name.bytes ++
          0x3a :: 0x3d :: (line.raw.bytes ++ 0x0a :: rest)) :
    (behindLine line state n).text.drop (n + line.name.length + 2) =
      line.raw.bytes ++ 0 :: rest := by
  rw [Nat.add_assoc, ← List.drop_drop, text_behindLine isAhead,
    ← List.drop_drop, CString.length, List.drop_left]
  rfl

/-- The strings that are set. -/
theorem strings_behindLine
    (isAhead :
      state.text.drop n =
        line.name.bytes ++
          0x3a :: 0x3d :: (line.raw.bytes ++ 0x0a :: rest)) :
    stringAt (behindLine line state n).text n = line.name ∧
      stringAt (behindLine line state n).text (n + line.name.length + 2) =
        line.raw := by
  constructor
  · rw [stringAt, text_behindLine isAhead]
    exact CString.ofBytes_append_nul line.name _
  · rw [stringAt, value_behindLine isAhead]
    exact CString.ofBytes_append_nul line.raw _

/-- The end of the line sets the text as it is written. -/
theorem step_last
    (isAhead :
      state.text.drop n =
        line.name.bytes ++
          0x3a :: 0x3d :: (line.raw.bytes ++ 0x0a :: rest)) :
    step (readingValue state n line.name.length)
        (n + line.name.length + (2 + line.raw.length)) =
      some (behindLine line state n) := by
  have isEnd :
      (readingValue state n line.name.length).text.drop
          (n + line.name.length + (2 + line.raw.length)) =
        0x0a :: rest := by
    have isColon :
        state.text.drop (n + line.name.length) =
          0x3a :: 0x3d :: (line.raw.bytes ++ 0x0a :: rest) := by
      rw [← List.drop_drop, isAhead]
      exact List.drop_left
    show (state.text.set (n + line.name.length) 0).drop _ = _
    rw [drop_set_of_lt _ (by omega), ← List.drop_drop, isColon,
      Nat.add_comm 2]
    exact List.drop_left
  obtain ⟨isName, isValue⟩ := strings_behindLine isAhead
  have isEnded :
      endVariable (readingValue state n line.name.length)
          (n + line.name.length + (2 + line.raw.length)) .none =
        some
          { behindLine line state n with
            calls :=
              state.calls ++
                [.varHashTable (stringAt (behindLine line state n).text n)
                  (some
                    (stringAt (behindLine line state n).text
                      (n + line.name.length + 2)))
                  .override] } :=
    rfl
  rw [isName, isValue] at isEnded
  show doContextVariable _ _ = _
  rw [doContextVariable, peek_of_drop isEnd, if_pos rfl, isEnded]
  rfl

theorem bytes_append (line : ImmediateLine calls) (rest : List UInt8) :
    line.bytes ++ rest =
      line.name.bytes ++
        0x3a :: 0x3d :: (line.raw.bytes ++ 0x0a :: rest) := by
  simp [ImmediateLine.bytes]

theorem length_bytes (line : ImmediateLine calls) :
    line.bytes.length =
      line.name.length + ((2 + line.raw.length) + 1) := by
  simp only [ImmediateLine.bytes, List.length_append, List.length_cons,
    List.length_nil, CString.length]
  omega

/-- The whole line. -/
theorem parse_line
    (ready : line.Ready state)
    (isAhead : state.text.drop n = line.bytes ++ rest) :
    parse state n line.bytes.length = some (behindLine line state n) := by
  have isName := isAhead.trans (bytes_append line rest)
  have isLast :
      parse (readingValue state n line.name.length)
          (n + line.name.length + (2 + line.raw.length)) 1 =
        some (behindLine line state n) := by
    rw [parse, step_last isName]
    rfl
  rw [length_bytes, parse_add, parse_name ready isName, Option.bind_some,
    parse_add, parse_text isName, Option.bind_some, isLast]

/-- The strings that were set stay in the text. -/
theorem stringAt_later
    (isAhead : state.text.drop n = line.bytes ++ rest) {count : Nat}
    {later : State}
    (isLater :
      parse (behindLine line state n) (n + line.bytes.length) count =
        some later) :
    stringAt later.text (n + line.name.length + 2) = line.raw := by
  have isValue :=
    value_behindLine (isAhead.trans (bytes_append line rest))
  have isLength := length_bytes line
  have isFront :
      ((behindLine line state n).text.take (n + line.bytes.length)).drop
          (n + line.name.length + 2) =
        line.raw.bytes ++ [0] := by
    have isSize :
        n + line.bytes.length - (n + line.name.length + 2) =
          line.raw.bytes.length + 1 := by
      rw [isLength, CString.length, CString.length]
      omega
    rw [List.drop_take, isValue, isSize, List.take_length_add_append]
    rfl
  have settled :
      Settled
        ((behindLine line state n).text.take (n + line.bytes.length))
        (behindLine line state n) (n + line.bytes.length) :=
    ⟨List.take_prefix _ _, fun _ isStr => (nomatch isStr),
      List.length_take_le _ _, fun isAdd => (nomatch isAdd),
      fun isAdd => (nomatch isAdd)⟩
  obtain ⟨more, isMore⟩ := (settled.parse isLater).text
  have inFront :
      n + line.name.length + 2 ≤
        ((behindLine line state n).text.take
          (n + line.bytes.length)).length := by
    by_contra isBehind
    rw [List.drop_eq_nil_of_le (by omega)] at isFront
    exact absurd isFront.symm (by simp)
  rw [stringAt, ← isMore, List.drop_append_of_le_length inFront, isFront,
    List.append_assoc]
  exact CString.ofBytes_append_nul line.raw more

end Line

/-! ## Until the name is set again -/

namespace ImmediateLine

variable
  {text : List UInt8}
  {n : Nat}
  {state : State}
  {table : Table}

/-- Behind the line the text as it is written is stored, and it stays. -/
theorem kept_raw
    {line : ImmediateLine state.calls} {rest : List UInt8}
    (isAhead : state.text.drop n = line.bytes ++ rest)
    (isTable : varHashTable state.calls = some table)
    (isNew :
      ∀ entry ∈ table.entriesOf line.name, takes line.name entry = false)
    {count : Nat} {later : State}
    (isLater :
      parse (behindLine line state n) (n + line.bytes.length) count =
        some later)
    (noSet :
      ∀ call ∈ later.calls.drop (behindLine line state n).calls.length,
        ¬ call.Sets line.name) :
    stringAt later.text (n + line.name.length + 2) = line.raw ∧
      ∀ laterTable, varHashTable later.calls = some laterTable →
        laterTable.hashFind line.name = some (some (.text line.raw)) := by
  obtain ⟨chains, reached⟩ := exists_reached isTable
  obtain ⟨nextTable, isNextTable, keeping⟩ :=
    exists_keeping reached isNew line.raw
  have isNext :
      varHashTable (behindLine line state n).calls = some nextTable := by
    have isCall :
        varHashTable
            (state.calls ++
              [.varHashTable line.name (some line.raw) .override]) =
          table.hashSets [(line.name, some line.raw, .override)] :=
      varHashTable_append isTable _
    rw [behindLine, isCall]
    unfold Table.hashSets
    rw [List.foldlM_cons, isNextTable]
    rfl
  refine ⟨stringAt_later isAhead isLater, ?_⟩
  intro laterTable isLaterTable
  obtain ⟨more, isMore⟩ := calls_parse isLater
  rw [← isMore, List.drop_left] at noSet
  rw [← isMore, varHashTable_append isNext] at isLaterTable
  exact (keeping.hashSets (others_of_not_sets noSet) isLaterTable).hashFind_eq

/-- The line is read whole. -/
theorem parse_behindLine
    {text : List UInt8} (isReached : parse (State.init text) 0 n = some state)
    {line : ImmediateLine state.calls} (isLine : line.bytes <+: text.drop n)
    (ready : line.Ready state) :
    (∃ rest, state.text.drop n = line.bytes ++ rest) ∧
      parse (State.init text) 0 (n + line.bytes.length) =
        some (behindLine line state n) := by
  obtain ⟨rest, isRest⟩ := isLine
  have ahead := (ahead_init text).parse isReached
  rw [Nat.zero_add] at ahead
  have isAhead : state.text.drop n = line.bytes ++ rest :=
    ahead.text.trans isRest.symm
  refine ⟨⟨rest, isAhead⟩, ?_⟩
  rw [parse_add, isReached, Option.bind_some, Nat.zero_add]
  exact parse_line ready isAhead

/-- What is stored is the text, so the expansion has to be the same. -/
theorem expansion_of_keeps
    {text : List UInt8} (isReached : parse (State.init text) 0 n = some state)
    {line : ImmediateLine state.calls} (isLine : line.bytes <+: text.drop n)
    (ready : line.Ready state) (keeps : line.Keeps text n) :
    line.expansion = line.raw := by
  obtain ⟨⟨rest, isAhead⟩, isNext⟩ := parse_behindLine isReached isLine ready
  obtain ⟨next, value, isParsed, isValue, isKept⟩ := keeps
  rw [isNext, Option.some_inj] at isParsed
  subst isParsed
  cases isValue
  have isHere :
      parse (behindLine line state n) (n + line.bytes.length) 0 =
        some (behindLine line state n) :=
    rfl
  obtain ⟨isStored, -⟩ := isKept 0 _ isHere (by simp)
  exact isStored.symm.trans (stringAt_later isAhead isHere)

/--
For every text, a line `NAME:=text` that the parser reaches at the start of a
line, and a name that no entry of its bucket is taken for: the value that is
stored for the name is the text with every reference replaced, until the name is
set again, exactly when that is the text itself.
-/
theorem keeps_iff
    {text : List UInt8} (isReached : parse (State.init text) 0 n = some state)
    (isTable : varHashTable state.calls = some table)
    (line : ImmediateLine state.calls) (isLine : line.bytes <+: text.drop n)
    (ready : line.Ready state)
    (isNew :
      ∀ entry ∈ table.entriesOf line.name, takes line.name entry = false) :
    line.Keeps text n ↔ line.expansion = line.raw := by
  obtain ⟨⟨rest, isAhead⟩, isNext⟩ := parse_behindLine isReached isLine ready
  constructor
  · exact expansion_of_keeps isReached isLine ready
  · intro isRaw
    refine
      ⟨behindLine line state n, n + line.name.length + 2, isNext, rfl, ?_⟩
    intro count later isLater noSet
    rw [isRaw]
    exact kept_raw isAhead isTable isNew isLater noSet

end ImmediateLine

/-! ## Two lines -/

/-- A variable is assigned, and one that refers to it. -/
def twoLines (value : String) : List UInt8 :=
  (CString.ofString "A=").bytes ++
    ((CString.ofString value).bytes ++
      (CString.ofString "\nB:=$(A)\n").bytes)

/-- The state behind the first line. -/
def behindFirst (value : String) : State where
  text :=
    (CString.ofString "A").bytes ++
      0 :: ((CString.ofString value).bytes ++
        0 :: (CString.ofString "B:=$(A)\n").bytes)
  context := .none
  str := none
  var := { name := some 0, value := some 2, kind := some .recursive }
  rules := []
  implicitPreSuffixLen := []
  calls :=
    [.varHashTable (CString.ofString "A") (some (CString.ofString value))
      .override]

theorem assigned_behindFirst (value : String) :
    assigned (behindFirst value).calls (CString.ofString "A") =
      some (CString.ofString value) := by
  simp [assigned, behindFirst, variableCalls, Call.variable?, assign]

theorem bytes_referred : (CString.ofString "A").bytes = [0x41] := by
  simp [CString.ofString, CString.ofBytes]

theorem bytes_second : (CString.ofString "B").bytes = [0x42] := by
  simp [CString.ofString, CString.ofBytes]

theorem isName_referred :
    ∀ c ∈ (CString.ofString "A").bytes,
      c ≠ 0x24 ∧ c ≠ 0x29 ∧ c ≠ 0x0a ∧ c ≠ 0x23 := by
  rw [bytes_referred]
  simp

theorem isName_second :
    ∀ c ∈ (CString.ofString "B").bytes,
      isPrintable c = true ∧ c ≠ 0x3a ∧ c ≠ 0x3d ∧ c ≠ 0x23 := by
  rw [bytes_second]
  simp [isPrintable]

theorem notEmpty_second : (CString.ofString "B").bytes ≠ [] := by
  rw [bytes_second]
  exact List.cons_ne_nil _ _

/-- The second line. -/
def secondLine (value : String) : ImmediateLine (behindFirst value).calls where
  name := CString.ofString "B"
  lead := []
  references :=
    [{ name := CString.ofString "A"
       value := CString.ofString value
       after := []
       isAssigned := assigned_behindFirst value
       isName := isName_referred
       isText := List.forall_mem_nil _ }]
  notEmpty := notEmpty_second
  isName := isName_second
  isText := List.forall_mem_nil _

theorem ready_secondLine (value : String) :
    (secondLine value).Ready (behindFirst value) where
  context := .inl rfl
  head := fun _ isSeparator => by
    rw [secondLine, bytes_second] at isSeparator
    cases isSeparator
  tail := by
    rw [secondLine, bytes_second]
    exact List.not_mem_nil

/-- A variable whose value is the reference to it. -/
theorem keeps_ownReference :
    (secondLine "$(A)").Keeps (twoLines "$(A)") 7 := by
  have isReached :
      parse (State.init (twoLines "$(A)")) 0 7 =
        some (behindFirst "$(A)") := by
    decide +kernel
  have isNew :
      ∃ table ∈ varHashTable (behindFirst "$(A)").calls,
        ∀ entry ∈ table.entriesOf (CString.ofString "B"),
          takes (CString.ofString "B") entry = false := by
    decide +kernel
  have isLine :
      (secondLine "$(A)").bytes <+: (twoLines "$(A)").drop 7 := by
    decide +kernel
  have isRaw :
      (secondLine "$(A)").expansion = (secondLine "$(A)").raw := by
    decide +kernel
  obtain ⟨table, isTable, isNew⟩ := isNew
  exact
    (ImmediateLine.keeps_iff isReached isTable (secondLine "$(A)") isLine
      (ready_secondLine _) isNew).mpr isRaw

/-- The value of the variable is not stored for the name. -/
theorem not_keeps_reference :
    parse (State.init (twoLines "1")) 0 4 = some (behindFirst "1") ∧
      (secondLine "1").bytes <+: (twoLines "1").drop 4 ∧
        ¬ (secondLine "1").Keeps (twoLines "1") 4 := by
  have isReached :
      parse (State.init (twoLines "1")) 0 4 = some (behindFirst "1") := by
    decide +kernel
  have isLine : (secondLine "1").bytes <+: (twoLines "1").drop 4 := by
    decide +kernel
  have notRaw : (secondLine "1").expansion ≠ (secondLine "1").raw := by
    decide +kernel
  exact
    ⟨isReached, isLine, fun keeps =>
      notRaw
        (ImmediateLine.expansion_of_keeps isReached isLine
          (ready_secondLine _) keeps)⟩

end BinTools.Makefile
