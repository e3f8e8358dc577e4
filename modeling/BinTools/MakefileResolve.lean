import BinTools.MakefileParser
import Mathlib.Data.List.Infix

namespace BinTools.Makefile.Resolve

open HashTable

/-!
# Replacing references

`__z__build__resolve` goes over a string twice, first for the size of the result
and then to write it.  `__need_resolve` ends the name of the reference that it
finds with a zero in the string.  Strings are lists of bytes with their
terminators; reading behind a list and writing behind the block that was
allocated are faults, `none`.
-/

/-! ## The scanner -/

/-- What `__need_resolve` finds: `p1`, `q` with the end of a name, or `p`. -/
inductive Needed where
  | nothing
  | name (q close : Nat)
  | automatic (p : Nat)
  deriving DecidableEq, Repr

/-- `for (q = p;*p != ')' && *p != 0 ;p++);` -/
def closing : List UInt8 → Nat → Option Nat
  | [], _ => none
  | c :: rest, p => if c = 0x29 ∨ c = 0 then some p else closing rest (p + 1)

/--
The inner `switch`.  What follows it is the case of the newline, which has no
`break` in front of it.
-/
def behindDollar : List UInt8 → Nat → Option Needed
  | [], _ => none
  | c :: rest, p =>
      if c = 0x28 then
        (closing (c :: rest) p).map (.name p)
      else if c = 0x3c ∨ c = 0x40 ∨ c = 0x5e then
        some (.automatic p)
      else
        some .nothing

/-- The loop of `__need_resolve`. -/
def scan : List UInt8 → Nat → Option Needed
  | [], _ => none
  | c :: rest, p =>
      if c = 0 then some .nothing
      else if c = 0x24 then behindDollar rest (p + 1)
      else if c = 0x0a then some .nothing
      else scan rest (p + 1)

/-- `__need_resolve`: the pointer that is returned, and the string. -/
def needResolve (text : List UInt8) (s : Nat) : Option (Nat × List UInt8) :=
  (scan (text.drop s) s).map fun
    | .nothing => (s, text)
    | .name q close => (q, text.set close 0)
    | .automatic p => (p, text)

/-! ## Copying -/

/-- `*m = c` -/
def write (block : List UInt8) (m : Nat) (c : UInt8) : Option (List UInt8) :=
  if m < block.length then some (block.set m c) else none

/-- `for (;*m = *ss;ss++,m++);` -/
def copyString (block : List UInt8) (m : Nat) :
    List UInt8 → Option (List UInt8 × Nat)
  | [] => (write block m 0).map fun block => (block, m)
  | c :: rest =>
      (write block m c).bind fun block => copyString block (m + 1) rest

/-- What the loop in front of a reference leaves. -/
structure Copied where
  block : List UInt8
  s : Nat
  m : Nat
  i : Int
  deriving DecidableEq, Repr

/--
`for (;;s++,m++,i--) { if (i == 2) break; if (*s) *m=*s; else break; }`.  The
counter does not wrap: a block has fewer than 2^31 bytes.
-/
def copyFront : List UInt8 → Copied → Option Copied
  | [], copied => if copied.i = 2 then some copied else none
  | c :: rest, copied =>
      if copied.i = 2 ∨ c = 0 then
        some copied
      else
        (write copied.block copied.m c).bind fun block =>
          copyFront rest
            { block := block
              s := copied.s + 1
              m := copied.m + 1
              i := copied.i - 1 }

/-! ## The passes -/

/-- The variables of `__z__build__resolve`; `ss` is not set at first. -/
structure State where
  text : List UInt8
  s : Nat
  ss : Option (Option (List UInt8))
  size : Int
  block : List UInt8
  m : Nat
  doCopy : Bool
  deriving DecidableEq, Repr

section Resolve

variable
  (vars : Table)
  (deps : Option (Option (List UInt8)))
  (fresh : Nat → UInt8)

/-- The string that a name has; the bytes of a chain are not read. -/
def findString (key : CString) : Option (Option (List UInt8)) :=
  (vars.hashFind key).bind fun
    | none => some none
    | some (.text string) => some (some string.bytes)
    | some (.chain _) => none

/-- `switch (*s2)`; `deps` is `r->deps`, and without a rule `r` is null. -/
def pick (text : List UInt8) (ss : Option (Option (List UInt8))) (s2 : Nat) :
    Option (Option (List UInt8)) :=
  if text[s2]? = some 0x28 then
    findString vars (stringAt text (s2 + 1))
  else if text[s2]? = some 0x3c then
    deps
  else
    ss

/-- The strings in front of a reference and inside of it. -/
def copyReference (state : State) (i : Int) (ss : List UInt8) : Option State :=
  (copyFront (state.text.drop state.s)
      { block := state.block, s := state.s, m := state.m, i := i }).bind
    fun copied =>
      (copyString copied.block copied.m ss).bind fun (block, m) =>
        (((copied.s + 1 : Nat) : Int) + copied.i + 1).toNat?.map fun s =>
          { state with block := block, m := m, s := s }

/-- The body of the loop behind `if (i == 0) break;`. -/
def replace (state : State) (i : Int) : Option State :=
  match state.ss with
  | none => none
  | some none =>
      ((state.s : Int) + i + 1).toNat?.map fun s => { state with s := s }
  | some (some ss) =>
      if state.doCopy then
        copyReference state i ss
      else
        ((state.s : Int) + i + 1).toNat?.map fun s =>
          { state with
            s := s
            size := (state.size + i + ss.length).bmod (2 ^ 32) }

/-- The loop of a pass, for at most so many rounds. -/
def pass : Nat → State → Option State
  | 0, _ => none
  | fuel + 1, state =>
      (needResolve state.text state.s).bind fun (s2, text) =>
        let i : Int := ((s2 : Int) - state.s).bmod (2 ^ 32)
        if i = 0 then
          some { state with text := text }
        else
          (replace
              { state with
                text := text
                ss := pick vars deps text state.ss s2 } i).bind (pass fuel)

/-- The bytes in front of the terminator. -/
def readString : List UInt8 → Option (List UInt8)
  | [] => none
  | c :: rest => if c = 0 then some [] else (readString rest).map (c :: ·)

/-- The first pass. -/
def start (text : List UInt8) : State where
  text := text
  s := 0
  ss := none
  size := 0
  block := []
  m := 0
  doCopy := false

/-- The second pass, with the block that was allocated. -/
def startCopy (first : State) (size : Nat) : State :=
  { first with
    s := 0
    size := 0
    block := (List.range size).map fresh
    doCopy := true }

/-- The string as it is left, and what is returned in its place. -/
structure Resolved where
  text : List UInt8
  block : Option (List UInt8)
  deriving DecidableEq, Repr

/-- The second pass and the rest of the string. -/
def copyAll (fuel : Nat) (first : State) (size : Nat) : Option Resolved :=
  (pass vars deps fuel (startCopy fresh first size)).bind fun second =>
    (readString (second.text.drop second.s)).bind fun rest =>
      (copyString second.block second.m rest).map fun (block, _) =>
        { text := second.text, block := some block }

/-- `__z__build__resolve`; no block has a negative size. -/
def resolve (fuel : Nat) (text : List UInt8) : Option Resolved :=
  (pass vars deps fuel (start text)).bind fun first =>
    if first.size = 0 then
      some { text := first.text, block := none }
    else
      (readString (first.text.drop first.s)).bind fun rest =>
        ((first.size + rest.length).bmod (2 ^ 32)).toNat?.bind
          (copyAll vars deps fresh fuel first)

end Resolve

/-- What is at the pointer that is returned. -/
def Resolved.bytes (resolved : Resolved) : List UInt8 :=
  resolved.block.getD resolved.text

/-! ## References -/

/-- Text without a dollar sign, a newline, a parenthesis and a zero. -/
def Plain (text : List UInt8) : Prop :=
  ∀ c ∈ text, c ≠ 0x24 ∧ c ≠ 0x0a ∧ c ≠ 0x28 ∧ c ≠ 0x29 ∧ c ≠ 0

/-- A reference to a variable, and the text behind it. -/
structure Reference (vars : Table) where
  name : CString
  value : CString
  after : List UInt8
  isBound : vars.hashFind name = some (some (.text value))
  isName : 0x24 ∉ name.bytes ∧ 0x29 ∉ name.bytes
  isValue : 0x24 ∉ value.bytes
  isPlain : Plain after

variable {vars : Table}

/-- References as they are written. -/
def written (references : List (Reference vars)) : List UInt8 :=
  references.flatMap fun reference =>
    0x24 :: 0x28 :: (reference.name.bytes ++ 0x29 :: reference.after)

/-- References with the values in their place. -/
def replaced (references : List (Reference vars)) : List UInt8 :=
  references.flatMap fun reference =>
    reference.value.bytes ++ reference.after

/-- A string of text and references. -/
structure Source (vars : Table) where
  lead : List UInt8
  references : List (Reference vars)
  isPlain : Plain lead

/-- The bytes of the string in front of its terminator. -/
def Source.text (source : Source vars) : List UInt8 :=
  source.lead ++ written source.references

/-- The string with values in the place of the references. -/
def Source.expansion (source : Source vars) : List UInt8 :=
  source.lead ++ replaced source.references

/--
What is returned is the string with values in the place of the references, and
no byte was written behind the block.
-/
def Source.Replaces
    (source : Source vars) (deps : Option (Option (List UInt8)))
    (fresh : Nat → UInt8) : Prop :=
  ∃ fuel resolved,
    resolve vars deps fresh fuel (source.text ++ [0]) = some resolved ∧
      source.expansion ++ [0] <+: resolved.bytes

/--
There is no reference; or there is text in front of the first one, its value
repeats the last character of that text, and the rest of its name is this
character and all that should be behind the value.
-/
def Source.Fits (source : Source vars) : Prop :=
  match source.references with
  | [] => True
  | first :: later =>
      source.lead.length + 1 + first.value.length + first.name.length <
          2 ^ 31 ∧
        ∃ front c d,
          source.lead = front ++ [c] ∧ (∀ e ∈ first.value.bytes, e = c) ∧
            first.name.bytes = d :: c :: (first.after ++ replaced later)

end BinTools.Makefile.Resolve
