import BinTools.HashTableSearch
import BinTools.MakefileExpansion

namespace BinTools.Makefile.Resolve

open HashTable

/-!
# When references are replaced

The size that the first pass leaves is compared with what the second one writes,
and what it writes with the string that should be returned.
-/

/-! ## Terminated strings -/

theorem readString_append
    {string : List UInt8} (noNul : 0 ∉ string) (rest : List UInt8) :
    readString (string ++ 0 :: rest) = some string := by
  induction string with
  | nil => rfl
  | cons c string inductionHypothesis =>
      rw [List.mem_cons, not_or] at noNul
      rw [List.cons_append, readString, if_neg (Ne.symm noNul.1),
        inductionHypothesis noNul.2]
      rfl

/-- One block starts with one string only. -/
theorem string_unique
    {first second block : List UInt8}
    (noNulFirst : 0 ∉ first) (noNulSecond : 0 ∉ second)
    (isFirst : first ++ [0] <+: block) (isSecond : second ++ [0] <+: block) :
    first = second := by
  obtain ⟨firstRest, rfl⟩ := isFirst
  obtain ⟨secondRest, same⟩ := isSecond
  have firstString := readString_append noNulFirst firstRest
  have secondString := readString_append noNulSecond secondRest
  rw [← List.append_cons] at same
  rw [same, List.append_assoc] at secondString
  exact Option.some.inj (firstString.symm.trans secondString)

/-- A value that is moved by one character repeats it. -/
theorem append_eq_cons_append_iff
    (value name rest : List UInt8) (c : UInt8) :
    value ++ name = c :: (value ++ rest) ↔
      (∀ e ∈ value, e = c) ∧ name = c :: rest := by
  induction value generalizing c with
  | nil => simp
  | cons e value inductionHypothesis =>
      rw [List.cons_append, List.cons_append, List.cons.injEq,
        inductionHypothesis, List.forall_mem_cons]
      constructor
      · rintro ⟨rfl, isValue, isName⟩
        exact ⟨⟨rfl, isValue⟩, isName⟩
      · rintro ⟨⟨rfl, isValue⟩, isName⟩
        exact ⟨rfl, isValue, isName⟩

/-! ## The string that should be returned -/

section Bytes

variable {vars : Table}

theorem Plain.noNul {text : List UInt8} (isPlain : Plain text) : 0 ∉ text :=
  fun member => (isPlain 0 member).2.2.2.2 rfl

theorem Plain.noDollar {text : List UInt8} (isPlain : Plain text) :
    0x24 ∉ text :=
  fun member => (isPlain 0x24 member).1 rfl

/-- Values and text have neither a dollar sign nor a zero. -/
theorem not_mem_replaced
    (references : List (Reference vars)) :
    0 ∉ replaced references ∧ 0x24 ∉ replaced references := by
  constructor
  · intro member
    obtain ⟨reference, -, isByte⟩ := List.mem_flatMap.mp member
    rcases List.mem_append.mp isByte with inValue | inText
    · exact reference.value.noNul inValue
    · exact reference.isPlain.noNul inText
  · intro member
    obtain ⟨reference, -, isByte⟩ := List.mem_flatMap.mp member
    rcases List.mem_append.mp isByte with inValue | inText
    · exact reference.isValue inValue
    · exact reference.isPlain.noDollar inText

theorem Source.not_mem_expansion (source : Source vars) :
    0 ∉ source.expansion ∧ 0x24 ∉ source.expansion := by
  obtain ⟨noNul, noDollar⟩ := not_mem_replaced source.references
  exact
    ⟨List.not_mem_append source.isPlain.noNul noNul,
      List.not_mem_append source.isPlain.noDollar noDollar⟩

/-- What is behind the first name. -/
def behind (first : Reference vars) (later : List (Reference vars)) :
    List UInt8 :=
  first.after ++ (written later ++ [0])

theorem written_cons
    (lead : List UInt8) (first : Reference vars)
    (later : List (Reference vars)) :
    lead ++ written (first :: later) ++ [0] =
      lead ++
        0x24 :: 0x28 :: (first.name.bytes ++ 0x29 :: behind first later) := by
  simp [written, behind]

theorem replaced_cons
    (first : Reference vars) (later : List (Reference vars)) :
    replaced (first :: later) =
      first.value.bytes ++ (first.after ++ replaced later) := by
  simp [replaced]

end Bytes

/-! ## The two passes -/

section Run

variable
  {vars : Table}
  {deps : Option (Option (List UInt8))}
  {fresh : Nat → UInt8}

/-- The steps of a run with a second pass. -/
structure Copies
    (vars : Table) (deps : Option (Option (List UInt8)))
    (fresh : Nat → UInt8) (fuel : Nat) (text : List UInt8)
    (first second : State) (rest tail block : List UInt8) (size m : Nat) :
    Prop where
  isFirst : pass vars deps fuel (start text) = some first
  isRest : readString (first.text.drop first.s) = some rest
  isSize : (first.size + rest.length).bmod (2 ^ 32) = size
  isSecond : pass vars deps fuel (startCopy fresh first size) = some second
  isTail : readString (second.text.drop second.s) = some tail
  isBlock : copyString second.block second.m tail = some (block, m)

/-- A run has one pass, or two of them. -/
theorem cases_resolve
    {fuel : Nat} {text : List UInt8} {resolved : Resolved}
    (isResolved : resolve vars deps fresh fuel text = some resolved) :
    (∃ first,
      pass vars deps fuel (start text) = some first ∧
        resolved = { text := first.text, block := none }) ∨
      ∃ first second rest tail block size m,
        Copies vars deps fresh fuel text first second rest tail block size m ∧
          resolved = { text := second.text, block := some block } := by
  obtain ⟨first, isFirst, isResolved⟩ := Option.bind_eq_some_iff.mp isResolved
  split at isResolved
  · exact .inl ⟨first, isFirst, (Option.some.inj isResolved).symm⟩
  · obtain ⟨rest, isRest, isResolved⟩ :=
      Option.bind_eq_some_iff.mp isResolved
    obtain ⟨size, isSize, isResolved⟩ :=
      Option.bind_eq_some_iff.mp isResolved
    obtain ⟨second, isSecond, isResolved⟩ :=
      Option.bind_eq_some_iff.mp isResolved
    obtain ⟨tail, isTail, isResolved⟩ :=
      Option.bind_eq_some_iff.mp isResolved
    obtain ⟨⟨block, m⟩, isBlock, isResolved⟩ :=
      Option.map_eq_some_iff.mp isResolved
    exact
      .inr
        ⟨first, second, rest, tail, block, size, m,
          ⟨isFirst, isRest, Int.mem_toNat?.mp isSize, isSecond, isTail,
            isBlock⟩,
          isResolved.symm⟩

/-- The block that is returned has the size that was counted. -/
theorem Copies.length_block
    {fuel : Nat} {text : List UInt8} {first second : State}
    {rest tail block : List UInt8} {size m : Nat}
    (copies :
      Copies vars deps fresh fuel text first second rest tail block size m) :
    block.length = size ∧ second.block.length = size ∧ size < 2 ^ 31 := by
  obtain ⟨-, sameLength⟩ := kept_pass copies.isSecond
  obtain ⟨-, isLength⟩ := length_copyString copies.isBlock
  have isFresh : (startCopy fresh first size).block.length = size := by
    simp [startCopy]
  have isSize := copies.isSize
  have isSmall :
      (first.size + (rest.length : Int)).bmod (2 ^ 32) < 2 ^ 31 :=
    Int.bmod_lt (m := 2 ^ 32) (by decide)
  refine ⟨?_, ?_, ?_⟩ <;> omega

/-- The string as every run leaves it. -/
theorem kept_resolve
    {fuel : Nat} {text : List UInt8} {resolved : Resolved}
    (isResolved : resolve vars deps fresh fuel text = some resolved) :
    ∃ first,
      pass vars deps fuel (start text) = some first ∧
        Kept text first.text ∧ Kept first.text resolved.text := by
  rcases cases_resolve isResolved with
    ⟨first, isFirst, rfl⟩ |
      ⟨first, second, rest, tail, block, size, m, copies, rfl⟩
  · exact ⟨first, isFirst, (kept_pass isFirst).1, .refl _⟩
  · exact
      ⟨first, copies.isFirst, (kept_pass copies.isFirst).1,
        (kept_pass copies.isSecond).1⟩

/-! ## The first reference -/

variable
  (lead : List UInt8)
  (first : Reference vars)
  (later : List (Reference vars))

/-- The string behind the first pass. -/
def firstEnded : List UInt8 :=
  ended [] lead first.name (behind first later)

/-- What the first pass leaves. -/
def counted : State where
  text := firstEnded lead first later
  s := lead.length + 2
  ss := some (some first.value.bytes)
  size :=
    ((lead.length : Int) + 1 + first.value.bytes.length).bmod (2 ^ 32)
  block := []
  m := 0
  doCopy := false

/-- What the second pass begins with, with a block. -/
def copying (block : List UInt8) : State :=
  { counted lead first later with
    s := 0
    size := 0
    block := block
    doCopy := true }

variable {lead first later}

theorem Plain.isScanned (isPlain : Plain lead) :
    ∀ c ∈ lead, c ≠ 0 ∧ c ≠ 0x24 ∧ c ≠ 0x0a := fun c member =>
  ⟨(isPlain c member).2.2.2.2, (isPlain c member).1, (isPlain c member).2.1⟩

theorem atReference_start (isPlain : Plain lead) :
    AtReference vars (start (lead ++ written (first :: later) ++ [0])) [] lead
      first.name first.value 0x29 (behind first later) where
  isText := written_cons lead first later
  isAt := rfl
  isPlain := isPlain.isScanned
  isClose := .inl rfl
  isName := first.isName.2
  isBound := first.isBound

theorem atReference_copying (isPlain : Plain lead) (block : List UInt8) :
    AtReference vars (copying lead first later block) [] lead first.name
      first.value 0 (behind first later) where
  isText := rfl
  isAt := rfl
  isPlain := isPlain.isScanned
  isClose := .inr rfl
  isName := first.isName.2
  isBound := first.isBound

/-- A reference is counted. -/
theorem replace_of_count
    {state : State} {i : Int} {ss : List UInt8} {s : Nat}
    (isSet : state.ss = some (some ss)) (isCount : state.doCopy = false)
    (isMoved : (state.s : Int) + i + 1 = s) :
    replace state i =
      some
        { state with
          s := s
          size := (state.size + i + ss.length).bmod (2 ^ 32) } := by
  have isNat : ((state.s : Int) + i + 1).toNat? = some s :=
    Int.mem_toNat?.mpr isMoved
  rw [replace, isSet]
  dsimp only
  rw [if_neg (by rw [isCount]; decide), isNat]
  rfl

/-- The first pass goes on inside of the name and ends there. -/
theorem pass_start
    (isPlain : Plain lead) (few : lead.length + 1 < 2 ^ 31) (fuel : Nat) :
    pass vars deps (fuel + 2)
        (start (lead ++ written (first :: later) ++ [0])) =
      some (counted lead first later) := by
  have isName :
      (counted lead first later).text =
        (lead ++ [0x24, 0x28]) ++
          (first.name.bytes ++ 0 :: behind first later) := by
    simp [counted, firstEnded, ended]
  have isAt :
      (counted lead first later).s = (lead ++ [(0x24 : UInt8), 0x28]).length := by
    rw [List.length_append]
    rfl
  have isEnd :
      pass vars deps (fuel + 1) (counted lead first later) =
        some (counted lead first later) :=
    pass_of_nothing isName isAt first.isName.1 fuel
  have isMoved :
      ((0 : Nat) : Int) + ((lead.length : Int) + 1) + 1 =
        ((lead.length + 2 : Nat) : Int) := by
    omega
  have isCounted :
      replace
          { start (lead ++ written (first :: later) ++ [0]) with
            text := firstEnded lead first later
            ss := some (some first.value.bytes) }
          ((lead.length : Int) + 1) =
        some (counted lead first later) := by
    rw [replace_of_count rfl rfl isMoved, counted]
    dsimp only [start]
    rw [Int.zero_add]
  rw [(atReference_start isPlain).pass_eq few (fuel + 1)]
  rw [firstEnded] at isCounted
  rw [isCounted, Option.bind_some, isEnd]

/-- Every first pass leaves this. -/
theorem counted_of_pass
    (isPlain : Plain lead) (few : lead.length + 1 < 2 ^ 31) {fuel : Nat}
    {state : State}
    (isLater :
      pass vars deps fuel
          (start (lead ++ written (first :: later) ++ [0])) =
        some state) :
    state = counted lead first later := by
  cases fuel with
  | zero => cases isLater
  | succ fuel =>
      cases fuel with
      | zero =>
          rw [(atReference_start isPlain).pass_eq few 0] at isLater
          obtain ⟨_, -, isNone⟩ := Option.bind_eq_some_iff.mp isLater
          cases isNone
      | succ fuel =>
          rw [pass_start isPlain few] at isLater
          exact (Option.some.inj isLater).symm

/-- The second pass begins with the copy of the first reference. -/
theorem pass_copying
    (isPlain : Plain lead) (few : lead.length + 1 < 2 ^ 31)
    (block : List UInt8) (fuel : Nat) :
    pass vars deps (fuel + 1) (copying lead first later block) =
      (copyReference (copying lead first later block)
          ((lead.length : Int) + 1) first.value.bytes).bind
        (pass vars deps fuel) :=
  (atReference_copying isPlain block).pass_eq few fuel

theorem exists_of_pass_copying
    (isPlain : Plain lead) (few : lead.length + 1 < 2 ^ 31) {fuel : Nat}
    {block : List UInt8} {state : State}
    (isLater :
      pass vars deps fuel (copying lead first later block) = some state) :
    ∃ less middle,
      fuel = less + 1 ∧
        copyReference (copying lead first later block)
            ((lead.length : Int) + 1) first.value.bytes =
          some middle ∧
        pass vars deps less middle = some state := by
  cases fuel with
  | zero => cases isLater
  | succ less =>
      rw [pass_copying isPlain few] at isLater
      obtain ⟨middle, isMiddle, isRest⟩ := Option.bind_eq_some_iff.mp isLater
      exact ⟨less, middle, rfl, isMiddle, isRest⟩

/-- Without text in front of the first reference the block is too small. -/
theorem pass_copying_nil
    {fuel : Nat} {block : List UInt8}
    (isSmall :
      block.length ≤ 1 + first.value.length + first.name.length)
    (state : State) :
    pass vars deps fuel (copying [] first later block) ≠ some state := by
  intro isLater
  have isPlain : Plain [] := by simp [Plain]
  obtain ⟨less, middle, rfl, isMiddle, -⟩ :=
    exists_of_pass_copying isPlain (by decide) isLater
  have noNul : 0 ∉ 0x24 :: 0x28 :: first.name.bytes := by
    simp [first.name.noNul]
  have isText :
      (copying [] first later block).text.drop 0 =
        (0x24 :: 0x28 :: first.name.bytes) ++ 0 :: behind first later := rfl
  have hasRoom := room_of_string isText noNul (by decide) isMiddle
  have isBlock : (copying [] first later block).block = block := rfl
  have isEmpty : (copying [] first later block).m = 0 := rfl
  rw [isBlock, isEmpty, List.length_cons, List.length_cons] at hasRoom
  rw [CString.length, CString.length] at isSmall
  omega

/-! ## Behind the first copy -/

variable
  {front : List UInt8}
  {c : UInt8}

/-- What the copy of the first reference leaves. -/
def copied
    (front : List UInt8) (c : UInt8) (first : Reference vars)
    (later : List (Reference vars)) (block : List UInt8) : State :=
  { copying (front ++ [c]) first later block with
    s := front.length + 4
    m := front.length + first.value.length }

theorem isTwo (front : List UInt8) (c : UInt8) :
    (((front ++ [c]).length : Nat) : Int) + 1 = (front.length : Int) + 2 := by
  rw [List.length_append, List.length_singleton]
  omega

theorem few_of_front (few : front.length + 2 < 2 ^ 31) :
    (front ++ [c]).length + 1 < 2 ^ 31 := by
  rwa [List.length_append, List.length_singleton]

theorem Plain.noNul_front (isPlain : Plain (front ++ [c])) : 0 ∉ front :=
  fun member => isPlain.noNul (List.mem_append_left _ member)

theorem text_copying (block : List UInt8) :
    (copying (front ++ [c]) first later block).text =
      front ++
        c :: 0x24 :: 0x28 :: (first.name.bytes ++ 0 :: behind first later) := by
  simp [copying, counted, firstEnded, ended]

/-- A second pass has a first copy, and room for it. -/
theorem room_of_pass_copying
    (isPlain : Plain (front ++ [c])) (few : front.length + 2 < 2 ^ 31)
    {fuel : Nat} {block : List UInt8} {state : State}
    (isLater :
      pass vars deps fuel (copying (front ++ [c]) first later block) =
        some state) :
    (∃ less, fuel = less + 1) ∧
      front.length + first.value.length < block.length := by
  obtain ⟨less, middle, rfl, isMiddle, -⟩ :=
    exists_of_pass_copying isPlain (few_of_front few) isLater
  have isText :
      (copying (front ++ [c]) first later block).text.drop 0 =
        front ++
          c :: 0x24 :: 0x28 ::
            (first.name.bytes ++ 0 :: behind first later) :=
    text_copying block
  have hasRoom :=
    room_of_front isText isPlain.noNul_front (isTwo front c) isMiddle
  have isEmpty :
      (copying (front ++ [c]) first later block).m = 0 := rfl
  rw [isEmpty, Nat.zero_add] at hasRoom
  exact ⟨⟨less, rfl⟩, hasRoom⟩

theorem exists_copied
    (isPlain : Plain (front ++ [c])) (few : front.length + 2 < 2 ^ 31)
    {block : List UInt8}
    (hasRoom : front.length + first.value.length < block.length) :
    ∃ written,
      written.length = block.length ∧
        front ++ first.value.bytes ++ [0] <+: written ∧
          ∀ fuel,
            pass vars deps (fuel + 1)
                (copying (front ++ [c]) first later block) =
              pass vars deps fuel (copied front c first later written) := by
  obtain ⟨written, isCopied, sameLength, isWritten⟩ :
      ∃ written,
        copyReference (copying (front ++ [c]) first later block)
              ((front.length : Int) + 2) first.value.bytes =
            some (copied front c first later written) ∧
          written.length = block.length ∧
            front ++ first.value.bytes ++ [0] <+: written :=
    exists_copyReference (text_copying block) rfl rfl isPlain.noNul_front
      hasRoom
  refine ⟨written, sameLength, isWritten, fun fuel => ?_⟩
  rw [pass_copying isPlain (few_of_front few), isTwo, isCopied,
    Option.bind_some]

/-! ## Inside of the name -/

/-- Where the second pass goes on when the name has a first character. -/
theorem text_copied
    {d : UInt8} {name : List UInt8} (isName : first.name.bytes = d :: name)
    (block : List UInt8) :
    (copied front c first later block).text =
      (front ++ [c, 0x24, 0x28, d]) ++ (name ++ 0 :: behind first later) := by
  simp [copied, copying, counted, firstEnded, ended, isName]

theorem at_copied (d : UInt8) (block : List UInt8) :
    (copied front c first later block).s =
      (front ++ [c, 0x24, 0x28, d]).length := by
  rw [List.length_append]
  rfl

/-- The second pass ends inside of the name. -/
theorem pass_copied
    {d : UInt8} {name : List UInt8} (isName : first.name.bytes = d :: name)
    (block : List UInt8) (fuel : Nat) :
    pass vars deps (fuel + 1) (copied front c first later block) =
      some (copied front c first later block) := by
  have noDollar : 0x24 ∉ name := fun member =>
    first.isName.1 (isName ▸ List.mem_cons_of_mem _ member)
  exact pass_of_nothing (text_copied isName block) (at_copied d block) noDollar _

theorem copied_of_pass
    {d : UInt8} {name : List UInt8} (isName : first.name.bytes = d :: name)
    {block : List UInt8} {fuel : Nat} {state : State}
    (isLater :
      pass vars deps fuel (copied front c first later block) = some state) :
    state = copied front c first later block := by
  cases fuel with
  | zero => cases isLater
  | succ fuel =>
      rw [pass_copied isName] at isLater
      exact (Option.some.inj isLater).symm

/-- Its rest is copied behind the value. -/
theorem tail_copied
    {d : UInt8} {name : List UInt8} (isName : first.name.bytes = d :: name)
    (block : List UInt8) :
    readString
        ((copied front c first later block).text.drop
          (copied front c first later block).s) =
      some name := by
  have noNul : 0 ∉ name := fun member =>
    first.name.noNul (isName ▸ List.mem_cons_of_mem _ member)
  rw [text_copied isName, at_copied d, List.drop_left, readString_append noNul]

/-- The name is counted behind the first pass. -/
theorem rest_counted :
    readString
        ((counted lead first later).text.drop (counted lead first later).s) =
      some first.name.bytes := by
  have isText :
      (counted lead first later).text =
        (lead ++ [0x24, 0x28]) ++
          (first.name.bytes ++ 0 :: behind first later) := by
    simp [counted, firstEnded, ended]
  have isAt :
      (counted lead first later).s = (lead ++ [(0x24 : UInt8), 0x28]).length := by
    rw [List.length_append]
    rfl
  rw [isText, isAt, List.drop_left, readString_append first.name.noNul]

/-- The whole size as it is counted. -/
def total (lead : List UInt8) (first : Reference vars) : Nat :=
  lead.length + 1 + first.value.length + first.name.length

theorem size_counted :
    ((counted lead first later).size + first.name.bytes.length).bmod
        (2 ^ 32) =
      ((total lead first : Nat) : Int).bmod (2 ^ 32) := by
  rw [counted, Int.bmod_add_bmod, total, CString.length, CString.length]
  congr 1

/-- A size that an `int` holds. -/
theorem bmod_of_few {size : Nat} (isFew : size < 2 ^ 31) :
    (size : Int).bmod (2 ^ 32) = size := by
  rw [Int.bmod_def]
  omega

/-! ## Without a name -/

/-- Behind an empty name there is no room for all that should follow. -/
theorem not_pass_copied_noName
    (isName : first.name.bytes = []) (isAfter : first.after = [])
    {block : List UInt8}
    (isSmall : block.length ≤ front.length + 2 + first.value.length)
    (next : Reference vars) (fuel : Nat) (state : State) :
    pass vars deps fuel (copied front c first (next :: later) block) ≠
      some state := by
  intro isLater
  have here :
      AtReference vars (copied front c first (next :: later) block)
        (front ++ [c, 0x24, 0x28, 0]) [] next.name next.value 0x29
        (behind next later) := by
    refine ⟨?_, ?_, by simp, .inl rfl, next.isName.2, next.isBound⟩
    · simp [copied, copying, counted, firstEnded, ended, isName, behind,
        isAfter, written]
    · rw [List.length_append]
      rfl
  cases fuel with
  | zero => cases isLater
  | succ fuel =>
      rw [here.pass_eq (by decide) fuel] at isLater
      obtain ⟨middle, isMiddle, -⟩ := Option.bind_eq_some_iff.mp isLater
      have isText :
          (ended (front ++ [c, 0x24, 0x28, 0]) [] next.name
              (behind next later)).drop (front ++ [c, 0x24, 0x28, 0]).length =
            (0x24 :: 0x28 :: next.name.bytes) ++ 0 :: behind next later := by
        rw [ended, List.drop_left]
        rfl
      have noNul : 0 ∉ 0x24 :: 0x28 :: next.name.bytes := by
        simp [next.name.noNul]
      have isCopied :
          copyReference
              { copied front c first (next :: later) block with
                text :=
                  ended (front ++ [c, 0x24, 0x28, 0]) [] next.name
                    (behind next later)
                s := (front ++ [c, 0x24, 0x28, 0]).length
                ss := some (some next.value.bytes) }
              1 next.value.bytes =
            some middle := by
        rw [← here.isAt]
        exact isMiddle
      have hasRoom := room_of_string isText noNul (by decide) isCopied
      rw [List.length_cons, List.length_cons] at hasRoom
      dsimp only [copied] at hasRoom
      have isBlock :
          (copying (front ++ [c]) first (next :: later) block).block =
            block := rfl
      rw [isBlock] at hasRoom
      omega

/-- With an empty name the right string is not returned. -/
theorem not_expansion_of_noName
    (isPlain : Plain (front ++ [c])) (isName : first.name.bytes = [])
    {written block tail : List UInt8} {fuel m : Nat} {state : State}
    (isSmall : written.length ≤ front.length + 2 + first.value.length)
    (isOut : front ++ first.value.bytes ++ [0] <+: written)
    (isSecond :
      pass vars deps fuel (copied front c first later written) = some state)
    (isTail : readString (state.text.drop state.s) = some tail)
    (isBlock : copyString state.block state.m tail = some (block, m)) :
    ¬ front ++ [c] ++ replaced (first :: later) ++ [0] <+: block := by
  intro isExpansion
  have sameLength : block.length = written.length :=
    (length_copyString isBlock).2.trans (kept_pass isSecond).2
  have fits := isExpansion.length_le
  rw [replaced_cons] at fits
  simp only [List.length_append, List.length_singleton] at fits
  rw [CString.length] at isSmall
  have isAfter : first.after = [] := List.eq_nil_of_length_eq_zero (by omega)
  cases later with
  | cons next later =>
      exact
        not_pass_copied_noName isName isAfter isSmall next fuel state isSecond
  | nil =>
      have isText :
          (copied front c first [] written).text =
            (front ++ [c, 0x24, 0x28, 0]) ++ ([] ++ 0 :: []) := by
        simp [copied, copying, counted, firstEnded, ended, isName, behind,
          isAfter, Resolve.written]
      cases fuel with
      | zero => cases isSecond
      | succ fuel =>
          rw [pass_of_nothing isText (at_copied 0 _) List.not_mem_nil]
            at isSecond
          cases isSecond
          rw [isText, at_copied 0, List.drop_left, List.nil_append] at isTail
          cases isTail
          have isCopied :
              copyString written
                  (front ++ first.value.bytes).length [] =
                some (block, m) := by
            rw [List.length_append]
            exact isBlock
          obtain ⟨later, isLater, -, isWritten⟩ :=
            exists_copyString
              ((List.prefix_append _ [0]).trans isOut)
              (length_copyString isCopied).1
          rw [isCopied] at isLater
          cases isLater
          have noNulWritten : 0 ∉ front ++ first.value.bytes ++ [] := by
            simp [isPlain.noNul_front, first.value.noNul]
          have noNul : 0 ∉ front ++ [c] ++ replaced [first] :=
            List.not_mem_append isPlain.noNul (not_mem_replaced [first]).1
          have same :=
            congrArg List.length
              (string_unique noNul noNulWritten isExpansion isWritten)
          rw [replaced_cons] at same
          simp only [List.length_append, List.length_singleton] at same
          simp only [List.length_nil] at same
          omega

/-! ## When the right string is returned -/

/-- What a second pass with the right string says about the source. -/
theorem fits_of_copies
    (isPlain : Plain lead) {fuel : Nat} {one two : State}
    {rest tail block : List UInt8} {size m : Nat}
    (copies :
      Copies vars deps fresh fuel
        (lead ++ written (first :: later) ++ [0]) one two rest tail block size
        m)
    (isExpansion : lead ++ replaced (first :: later) ++ [0] <+: block) :
    total lead first < 2 ^ 31 ∧
      ∃ front c d,
        lead = front ++ [c] ∧ (∀ e ∈ first.value.bytes, e = c) ∧
          first.name.bytes = d :: c :: (first.after ++ replaced later) := by
  obtain ⟨isLength, -, isSmall⟩ := copies.length_block
  have fits := isExpansion.length_le
  rw [replaced_cons, isLength] at fits
  simp only [List.length_append, List.length_singleton] at fits
  have few : lead.length + 1 < 2 ^ 31 := by omega
  obtain ⟨isFirst, isRest, isSize, isSecond, isTail, isBlock⟩ := copies
  obtain rfl := counted_of_pass isPlain few isFirst
  rw [rest_counted] at isRest
  cases isRest
  rw [size_counted, Int.bmod_def] at isSize
  have isCopying :
      startCopy fresh (counted lead first later) size =
        copying lead first later ((List.range size).map fresh) := rfl
  have isFresh : ((List.range size).map fresh).length = size := by simp
  rw [isCopying] at isSecond
  have isTotal :
      size ≤ total lead first ∧
        (2 ^ 31 ≤ total lead first → size + 2 ^ 32 ≤ total lead first) := by
    constructor <;> omega
  rcases List.eq_nil_or_concat lead with rfl | ⟨front, c, rfl⟩
  · refine absurd isSecond (pass_copying_nil ?_ _)
    rw [isFresh]
    have := isTotal.1
    rw [total, List.length_nil] at this
    omega
  rw [List.concat_eq_append] at *
  rw [total, List.length_append, List.length_singleton] at isTotal
  rw [List.length_append, List.length_singleton] at few
  obtain ⟨⟨less, rfl⟩, hasRoom⟩ := room_of_pass_copying isPlain few isSecond
  obtain ⟨written, sameLength, isOut, isStep⟩ :=
    exists_copied isPlain few hasRoom
  rw [isStep] at isSecond
  rw [isFresh] at sameLength
  cases isName : first.name.bytes with
  | nil =>
      refine
        absurd isExpansion
          (not_expansion_of_noName isPlain isName ?_ isOut isSecond isTail
            isBlock)
      rw [CString.length, CString.length, isName, List.length_nil] at isTotal
      rw [CString.length]
      omega
  | cons d name =>
      obtain rfl := copied_of_pass isName isSecond
      rw [tail_copied isName, Option.some_inj] at isTail
      rw [← isTail] at isBlock
      have isCopied :
          copyString written (front ++ first.value.bytes).length name =
            some (block, m) := by
        rw [List.length_append]
        exact isBlock
      have hasRest := (length_copyString isCopied).1
      obtain ⟨last, isLast, -, isWritten⟩ :=
        exists_copyString ((List.prefix_append _ [0]).trans isOut) hasRest
      rw [isCopied, Option.some_inj, Prod.mk.injEq] at isLast
      rw [← isLast.1] at isWritten
      have noNulName : 0 ∉ name := fun member =>
        first.name.noNul (isName ▸ List.mem_cons_of_mem _ member)
      have noNulWritten : 0 ∉ front ++ first.value.bytes ++ name :=
        List.not_mem_append
          (List.not_mem_append isPlain.noNul_front first.value.noNul)
          noNulName
      have noNul : 0 ∉ front ++ [c] ++ replaced (first :: later) :=
        List.not_mem_append isPlain.noNul (not_mem_replaced _).1
      have same := string_unique noNul noNulWritten isExpansion isWritten
      rw [replaced_cons, List.append_assoc, List.append_assoc,
        List.append_cancel_left_eq] at same
      obtain ⟨isValue, isRest⟩ :=
        (append_eq_cons_append_iff _ _ _ _).mp same.symm
      refine ⟨?_, front, c, d, rfl, isValue, by rw [isRest]⟩
      rw [total, List.length_append, List.length_singleton]
      rw [List.length_append, sameLength] at hasRest
      rw [CString.length, CString.length, isName, List.length_cons] at isTotal ⊢
      omega

/-- A run that returns the right string. -/
theorem exists_resolve
    (isPlain : Plain (front ++ [c])) {d : UInt8} {name : List UInt8}
    (isName : first.name.bytes = d :: name)
    (isFew : total (front ++ [c]) first < 2 ^ 31) :
    ∃ block,
      resolve vars deps fresh 2
            (front ++ [c] ++ written (first :: later) ++ [0]) =
          some
            { text := firstEnded (front ++ [c]) first later
              block := some block } ∧
        front ++ first.value.bytes ++ name ++ [0] <+: block := by
  have isLength : first.name.length = name.length + 1 := by
    rw [CString.length, isName, List.length_cons]
  have few : front.length + 2 < 2 ^ 31 := by
    rw [total, List.length_append, List.length_singleton] at isFew
    omega
  obtain ⟨size, isTotal⟩ : ∃ size, size = total (front ++ [c]) first := ⟨_, rfl⟩
  have isSum : size = front.length + 3 + first.value.length + name.length := by
    rw [isTotal, total, isLength, List.length_append, List.length_singleton]
    omega
  have isFresh : ((List.range size).map fresh).length = size := by simp
  have hasRoom :
      front.length + first.value.length <
        ((List.range size).map fresh).length := by
    rw [isFresh]
    omega
  obtain ⟨written, sameLength, isOut, isStep⟩ :=
    exists_copied isPlain few hasRoom
  have hasRest :
      (front ++ first.value.bytes).length + name.length < written.length := by
    rw [sameLength, isFresh, List.length_append]
    rw [CString.length] at isSum
    omega
  obtain ⟨block, isCopied, -, isBlock⟩ :=
    exists_copyString ((List.prefix_append _ [0]).trans isOut) hasRest
  rw [List.length_append] at isCopied
  have isSecond :
      copyAll vars deps fresh 2 (counted (front ++ [c]) first later) size =
        some
          { text := firstEnded (front ++ [c]) first later
            block := some block } := by
    have isPass :
        pass vars deps 2
            (startCopy fresh (counted (front ++ [c]) first later) size) =
          some (copied front c first later written) :=
      (isStep 1).trans (pass_copied isName written 0)
    rw [copyAll, isPass, Option.bind_some, tail_copied isName,
      Option.bind_some]
    exact congrArg (Option.map _) isCopied
  have notZero : (counted (front ++ [c]) first later).size ≠ 0 := by
    have isCounted :
        ((((front ++ [c]).length : Nat) : Int) + 1 +
            first.value.bytes.length) =
          ((front.length + 2 + first.value.length : Nat) : Int) := by
      rw [List.length_append, List.length_singleton, CString.length]
      omega
    rw [counted, isCounted, bmod_of_few (by omega)]
    dsimp only
    omega
  have isSize :
      ((counted (front ++ [c]) first later).size +
            first.name.bytes.length).bmod (2 ^ 32) = (size : Int) := by
    rw [size_counted, ← isTotal]
    exact bmod_of_few (isTotal ▸ isFew)
  have isNat :
      (((counted (front ++ [c]) first later).size +
            first.name.bytes.length).bmod (2 ^ 32)).toNat? = some size :=
    Int.mem_toNat?.mpr isSize
  refine ⟨block, ?_, isBlock⟩
  rw [resolve, pass_start isPlain (few_of_front few) 0, Option.bind_some,
    if_neg notZero, rest_counted, Option.bind_some, isNat, Option.bind_some]
  exact isSecond

/-- With a reference one pass does not give the right string. -/
theorem not_expansion_of_kept
    (source : Source vars) {text : List UInt8}
    (isReference : source.references ≠ [])
    (isKept : Kept (source.text ++ [0]) text) :
    ¬ source.expansion ++ [0] <+: text := by
  intro isExpansion
  obtain ⟨first, later, isCons⟩ := List.exists_cons_of_ne_nil isReference
  have isDollar :
      (source.text ++ [0])[source.lead.length]? = some 0x24 := by
    rw [Source.text, isCons, written_cons,
      List.getElem?_append_right (Nat.le_refl _), Nat.sub_self]
    rfl
  have isLater := isKept.kept _ _ isDollar (by decide)
  have inRange :
      source.lead.length < (source.expansion ++ [0]).length := by
    rw [List.length_append, Source.expansion, List.length_append,
      List.length_singleton]
    omega
  obtain ⟨rest, rfl⟩ := isExpansion
  rw [List.getElem?_append_left inRange] at isLater
  have member := List.mem_of_getElem? isLater
  exact
    List.not_mem_append source.not_mem_expansion.2 (by decide) member

theorem replaces_of_no_references
    {source : Source vars} (noReferences : source.references = []) :
    source.Replaces deps fresh := by
  have isText : source.text = source.lead := by
    rw [Source.text, noReferences]
    exact List.append_nil _
  have isExpansion : source.expansion = source.lead := by
    rw [Source.expansion, noReferences]
    exact List.append_nil _
  have isPass :
      pass vars deps 1 (start (source.lead ++ [0])) =
        some (start (source.lead ++ [0])) :=
    pass_of_nothing (List.nil_append _).symm rfl source.isPlain.noDollar 0
  refine ⟨1, { text := source.lead ++ [0], block := none }, ?_, ?_⟩
  · rw [isText, resolve, isPass]
    rfl
  · rw [isExpansion]
    exact List.prefix_refl _

theorem replaces_iff_fits
    (source : Source vars) (deps : Option (Option (List UInt8)))
    (fresh : Nat → UInt8) :
    source.Replaces deps fresh ↔ source.Fits := by
  cases isReferences : source.references with
  | nil =>
      have isFits : source.Fits := by
        rw [Source.Fits, isReferences]
        trivial
      exact
        ⟨fun _ => isFits, fun _ => replaces_of_no_references isReferences⟩
  | cons first later =>
      have isText :
          source.text ++ [0] =
            source.lead ++ written (first :: later) ++ [0] := by
        rw [Source.text, isReferences]
      have isExpansion :
          source.expansion ++ [0] =
            source.lead ++ replaced (first :: later) ++ [0] := by
        rw [Source.expansion, isReferences]
      rw [Source.Fits, isReferences]
      constructor
      · rintro ⟨fuel, resolved, isResolved, isReturned⟩
        rcases cases_resolve isResolved with
          ⟨one, isOne, rfl⟩ |
            ⟨one, two, rest, tail, block, size, m, copies, rfl⟩
        · exact
            absurd isReturned
              (not_expansion_of_kept source (by simp [isReferences])
                (kept_pass isOne).1)
        · rw [isText] at copies
          rw [isExpansion] at isReturned
          exact fits_of_copies source.isPlain copies isReturned
      · rintro ⟨isFew, front, c, d, isLead, isValue, isName⟩
        have isPlain := source.isPlain
        rw [isLead] at isPlain isFew
        obtain ⟨block, isResolved, isBlock⟩ :=
          exists_resolve isPlain isName isFew
        refine ⟨2, _, by rw [isText, isLead]; exact isResolved, ?_⟩
        have same :=
          (append_eq_cons_append_iff first.value.bytes _
            (first.after ++ replaced later) c).mpr ⟨isValue, rfl⟩
        rw [isExpansion, isLead, replaced_cons, List.append_assoc front]
        rw [List.append_assoc front, same] at isBlock
        exact isBlock

/-- A reference loses its parenthesis in every run. -/
theorem text_resolve_iff
    (source : Source vars) {fuel : Nat} {resolved : Resolved}
    (isResolved :
      resolve vars deps fresh fuel (source.text ++ [0]) = some resolved) :
    resolved.text = source.text ++ [0] ↔ source.references = [] := by
  obtain ⟨one, isOne, keptOne, keptLater⟩ := kept_resolve isResolved
  constructor
  · intro sameText
    by_contra isReference
    obtain ⟨first, later, isCons⟩ := List.exists_cons_of_ne_nil isReference
    have isText :
        source.text ++ [0] =
          source.lead ++ written (first :: later) ++ [0] := by
      rw [Source.text, isCons]
    have isSplit (c : UInt8) :
        (source.lead ++
            0x24 :: 0x28 :: (first.name.bytes ++ c :: behind first later))[
            (source.lead ++ 0x24 :: 0x28 :: first.name.bytes).length]? =
          some c := by
      have isAppend :
          source.lead ++
              0x24 :: 0x28 :: (first.name.bytes ++ c :: behind first later) =
            (source.lead ++ 0x24 :: 0x28 :: first.name.bytes) ++
              c :: behind first later := by
        simp
      rw [isAppend, List.getElem?_append_right (Nat.le_refl _), Nat.sub_self]
      rfl
    cases fuel with
    | zero => cases isOne
    | succ fuel =>
        rw [isText] at isOne
        obtain ⟨_, found, isFound, keptFound, -⟩ := kept_pass_succ isOne
        rw [(atReference_start source.isPlain).needResolve_eq] at isFound
        cases isFound
        have isNul :=
          (keptFound.trans keptLater).kept _ _ (isSplit 0) (by decide)
        rw [sameText, isText, written_cons, isSplit 0x29] at isNul
        exact absurd (Option.some.inj isNul) (by decide)
  · intro noReferences
    have noClose : 0x29 ∉ source.text ++ [0] := by
      have isText : source.text = source.lead := by
        rw [Source.text, noReferences]
        exact List.append_nil _
      rw [isText]
      refine List.not_mem_append (fun member => ?_) (by decide)
      exact (source.isPlain _ member).2.2.2.1 rfl
    exact (keptOne.trans keptLater).eq noClose

/--
For every string of text and references to bound names, the string with the
values in the place of the references is returned exactly when it fits; and a
run leaves the string itself as it was exactly when it has no reference.
-/
theorem replaces_iff_fits_and_keeps
    (source : Source vars) (deps : Option (Option (List UInt8)))
    (fresh : Nat → UInt8) :
    (source.Replaces deps fresh ↔ source.Fits) ∧
      ∀ fuel resolved,
        resolve vars deps fresh fuel (source.text ++ [0]) = some resolved →
          (resolved.text = source.text ++ [0] ↔ source.references = []) :=
  ⟨replaces_iff_fits source deps fresh, fun _ _ isResolved =>
    text_resolve_iff source isResolved⟩

end Run

/-- The text `x` in front of a variable with the value `1` is left out. -/
theorem not_replaces_oneVariable :
    ∃ table ∈ Table.oneVariable "A" "1", ∃ source : Source table,
      source.text = (CString.ofString "x$(A)").bytes ∧
        ∀ deps fresh, ¬ source.Replaces deps fresh := by
  have isOne :
      ∃ table ∈ Table.oneVariable "A" "1",
        table.hashFind (CString.ofString "A") =
          some (some (.text (CString.ofString "1"))) := by
    decide +kernel
  obtain ⟨table, isTable, isBound⟩ := isOne
  have isName :
      0x24 ∉ (CString.ofString "A").bytes ∧
        0x29 ∉ (CString.ofString "A").bytes := by
    decide +kernel
  have isValue : 0x24 ∉ (CString.ofString "1").bytes := by decide +kernel
  have isPlain : Plain [0x78] := by simp [Plain]
  have isText :
      [0x78] ++
          ((0x24 :: 0x28 :: ((CString.ofString "A").bytes ++ [0x29])) ++ []) =
        (CString.ofString "x$(A)").bytes := by
    decide +kernel
  refine
    ⟨table, isTable,
      { lead := [0x78]
        references :=
          [{ name := CString.ofString "A"
             value := CString.ofString "1"
             after := []
             isBound := isBound
             isName := isName
             isValue := isValue
             isPlain := by simp [Plain] }]
        isPlain := isPlain }, isText, ?_⟩
  intro deps fresh replaces
  obtain ⟨-, front, c, d, -, -, isLonger⟩ :=
    (replaces_iff_fits _ deps fresh).mp replaces
  have isOneByte : (CString.ofString "A").bytes.length = 1 := by
    decide +kernel
  have sameLength := congrArg List.length isLonger
  dsimp only at sameLength
  rw [isOneByte, List.length_cons, List.length_cons] at sameLength
  omega

end BinTools.Makefile.Resolve
