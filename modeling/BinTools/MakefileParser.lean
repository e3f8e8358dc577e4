import BinTools.HashTable

namespace BinTools.Makefile

open HashTable

/-!
# Parsing a makefile

`__z__build__parse_makefile` reads a text character by character.  Its context
says which function takes the next character, and one pointer is at the start of
the token that is read.  Tokens end with zeros that are written into the text.
Pointers into the text are offsets, and a null pointer is `none`.  No variable is
counted, so all assignments use the first slot of the variables.  The rules are
a list without a bound; the memory of `first_rule` has room for ten.
-/

/-- `CONTEXT_*` -/
inductive Context where
  | none
  | ruleCmd
  | ruleDeps
  | var
  | readNow
  | ruleSep
  | comment
  deriving DecidableEq, Repr

/-- `enum var_kind` -/
inductive VarKind where
  | immediate
  | recursive
  | recursiveAllowNonDefined
  | add
  deriving DecidableEq, Repr

/-- `var` -/
structure Var where
  name : Option Nat
  value : Option Nat
  kind : Option VarKind
  deriving DecidableEq, Repr

/-- `implicit_trim_len` -/
structure ImplicitTrimLen where
  beginLen : UInt8
  endLen : UInt8
  deriving DecidableEq, Repr

/-- `rule`, with the list of its commands. -/
structure Rule where
  target : Option Nat
  deps : Option Nat
  cmd : List (Option Nat)
  numCmd : Nat
  deriving DecidableEq, Repr

/-- The rules of 40 bytes in the 50 pointers that `first_rule` has room for. -/
def ruleRoom : Nat :=
  50 * 8 / 40

/-- A call of `__z__std__hash_set` for one of the two tables. -/
inductive Call where
  | varHashTable
      (name : CString) (value : Option CString) (mode : HashCollision)
  | ruleTargetHashTable (target : CString) (rule : Nat) (mode : HashCollision)
  deriving DecidableEq, Repr

/-- `PARSE_DATA` and `Confp` with the text and the calls so far. -/
structure State where
  text : List UInt8
  context : Context
  str : Option Nat
  var : Var
  rules : List Rule
  implicitPreSuffixLen : List ImplicitTrimLen
  calls : List Call
  deriving DecidableEq, Repr

namespace State

/-- Everything is zero at first. -/
def init (text : List UInt8) : State where
  text := text
  context := .none
  str := none
  var := { name := none, value := none, kind := none }
  rules := []
  implicitPreSuffixLen := []
  calls := []

/-- `*p`; zeros are mapped behind the text. -/
def peek (state : State) (p : Nat) : UInt8 :=
  state.text.getD p 0

/-- `*p = c` -/
def poke (state : State) (p : Nat) (c : UInt8) : State :=
  { state with text := state.text.set p c }

end State

/-- The string at a pointer. -/
def stringAt (text : List UInt8) (p : Nat) : CString :=
  CString.ofBytes (text.drop p)

/-- `0x21 <= *p && *p <= 0x7e` -/
def isPrintable (c : UInt8) : Bool :=
  0x21 ≤ c ∧ c ≤ 0x7e

/-- `do_context_none` -/
def doContextNone (state : State) (p : Nat) : State :=
  let c := state.peek p
  if c = 0x23 then
    { state with context := .comment }
  else if c = 0x3a then
    { state with context := .none }
  else if c = 0x3b then
    { state with context := .none }
  else if c = 0x3d then
    { state with context := .none }
  else if isPrintable c then
    { state with context := .readNow, str := some p }
  else
    state

/-- `do_context_comment` -/
def doContextComment (state : State) (p : Nat) : State :=
  if state.peek p = 0x0a then
    { state with context := .none }
  else
    { state with context := .var }

/-- The loop of `is_implicit` with its counter. -/
def isImplicit : List UInt8 → UInt8 → UInt8
  | [], _ => 0
  | c :: rest, i => if c = 0x25 then i else isImplicit rest (i + 1)

/-- `eval_target`; a null `str` is read. -/
def evalTarget (state : State) (p : Nat) : Option State :=
  state.str.map fun s =>
    let i := isImplicit ((state.text.drop s).take (p - s)) 1
    if i ≠ 0 then
      { state with
        implicitPreSuffixLen :=
          state.implicitPreSuffixLen ++
            [{ beginLen := i - 1, endLen := UInt8.ofNat (p - s) - i }] }
    else
      state

/-- A name ends at an operator; the value is some characters behind. -/
def startVariable
    (state : State) (p : Nat) (kind : VarKind) (skip : Nat) : State :=
  { state.poke p 0 with
    var := { state.var with name := state.str, kind := some kind }
    str := some (p + skip)
    context := .var }

/-- A target ends at a colon. -/
def startRule (state : State) (p : Nat) : Option State :=
  (evalTarget (state.poke p 0) p).map fun state =>
    { state with
      rules :=
        state.rules ++
          [{ target := state.str, deps := none, cmd := [], numCmd := 0 }]
      str := some (p + 1)
      context := .ruleDeps }

/-- `do_context_read_now` -/
def doContextReadNow (state : State) (p : Nat) : Option State :=
  let c := state.peek p
  if c = 0x2b then
    if state.peek (p + 1) = 0x3d then
      some (startVariable state p .add 2)
    else
      some { state with context := .none }
  else if c = 0x3a then
    if state.peek (p + 1) = 0x3d then
      some (startVariable state p .immediate 2)
    else
      startRule state p
  else if c = 0x3d then
    some (startVariable state p .recursive 1)
  else if c = 0x3f then
    if state.peek (p + 1) = 0x3d then
      some (startVariable state p .recursiveAllowNonDefined 1)
    else
      some { state with context := .readNow }
  else
    some { state with context := .readNow }

/-- `do_context_sep` -/
def doContextSep (state : State) (p : Nat) : State :=
  let c := state.peek p
  if c = 0x09 ∧ state.peek (p - 1) = 0 then
    { state with str := some (p + 1), context := .ruleCmd }
  else if isPrintable c then
    { state with str := some p, context := .readNow }
  else
    { state with context := .ruleSep }

/--
`resolve_vars`.  The loop compares the pointer with a dollar sign, not the
character, and so the result is the null pointer `q`.  A null `p` is read.
-/
def resolveVars (p : Option Nat) : Option (Option Nat) :=
  p.map fun _ => none

/-- The value of an assignment and the mode, with the text. -/
def variableValue (state : State) :
    Option (List UInt8 × Option Nat × HashCollision) :=
  match state.var.kind with
  | some .immediate =>
      (resolveVars state.str).map fun r =>
        (state.text, r.or state.str, .override)
  | some .add =>
      state.str.map fun str =>
        (state.text.set (str - 1) 0x20, some (str - 1), .add)
  | _ => some (state.text, state.str, .override)

/--
The end of a value; the context is given.  `__z__std__hash_set` reads the name.
-/
def endVariable (state : State) (p : Nat) (r : Context) : Option State :=
  (variableValue (state.poke p 0)).bind fun (text, value, colType) =>
    state.var.name.map fun name =>
      { state with
        text := text
        var := { state.var with value := value }
        calls :=
          state.calls ++
            [.varHashTable (stringAt text name) (value.map (stringAt text))
              colType]
        str := none
        context := r }

/-- `do_context_variable` -/
def doContextVariable (state : State) (p : Nat) : Option State :=
  let c := state.peek p
  if c = 0x0a then
    endVariable state p .none
  else if c = 0x23 then
    endVariable state p .comment
  else
    some { state with context := .var }

/-- The end of a command; the context is given. -/
def endRuleCmd (state : State) (p : Nat) (ret : Context) : State :=
  { state.poke p 0 with
    rules :=
      state.rules.modify (state.rules.length - 1) fun rule =>
        { rule with
          numCmd := rule.numCmd + 1
          cmd := rule.cmd ++ [state.str] }
    str := none
    context := ret }

/-- `do_context_rule_cmd` -/
def doContextRuleCmd (state : State) (p : Nat) : State :=
  let c := state.peek p
  if c = 0x0a then
    endRuleCmd state p .ruleSep
  else if c = 0x23 then
    endRuleCmd state p .comment
  else
    { state with context := .ruleCmd }

/-- `for (;;q++) if (*q != ' ') break;` -/
def skipBlanks (text : List UInt8) (q : Nat) : Nat :=
  q + ((text.drop q).takeWhile (· = 0x20)).length

/-- `for (;;p--) if (*p != ' ') break;` -/
def skipBlanksBack (text : List UInt8) (p : Nat) : Nat :=
  p - ((text.take (p + 1)).reverse.takeWhile (· = 0x20)).length

/-- The end of the dependencies. -/
def endRuleDeps (state : State) (p : Nat) : Option State :=
  state.str.bind fun str =>
    ((state.rules.getLast?).bind Rule.target).map fun target =>
      let text := state.text.set (skipBlanksBack state.text p) 0
      { state with
        text := text
        rules :=
          state.rules.modify (state.rules.length - 1) fun rule =>
            { rule with deps := some (skipBlanks state.text str) }
        calls :=
          state.calls ++
            [.ruleTargetHashTable (stringAt text target)
              (state.rules.length - 1) .raiseError]
        str := none
        context := .ruleSep }

/-- `do_context_rule_deps` -/
def doContextRuleDeps (state : State) (p : Nat) : Option State :=
  if state.peek p = 0x0a then
    endRuleDeps state p
  else
    some state

/-- The body of the loop. -/
def step (state : State) (p : Nat) : Option State :=
  match state.context with
  | .none => some (doContextNone state p)
  | .comment => some (doContextComment state p)
  | .readNow => doContextReadNow state p
  | .ruleDeps => doContextRuleDeps state p
  | .ruleSep => some (doContextSep state p)
  | .ruleCmd => some (doContextRuleCmd state p)
  | .var => doContextVariable state p

/-- The loop over some characters. -/
def parse (state : State) (p : Nat) : Nat → Option State
  | 0 => some state
  | n + 1 => (step state p).bind fun state => parse state (p + 1) n

/--
`__z__build__parse_makefile`.  It does not return: behind the loop it opens
`b.txt`, and both branches end in `for (;;)`.  This is the state it stays in.
-/
def parseMakefile (text : List UInt8) : Option State :=
  parse (State.init text) 0 text.length

end BinTools.Makefile
