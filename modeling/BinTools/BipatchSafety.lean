import BinTools.BipatchChecked

namespace BinTools.Bipatch

/-!
# Malformed patches

The texts that `read_patch` reads without leaving the file and its tables are
those of a grammar.
-/

/-- At the begin of a line or in the bytes of an insertion. -/
inductive Place where
  | line
  | elem
  deriving DecidableEq, Repr

/--
What may be left of the text, with the number of used records and used data
bytes: an error is found, an empty line or the end of the file ends the lines,
or a complete line for which there is room is followed by such a text.
-/
inductive Safe (whole : Prop) : Place → Nat → Nat → List UInt8 → Prop where
  /-- The end of the file, when all of it is mapped. -/
  | endOfFile {n k : Nat} (isWhole : whole) : Safe whole .line n k []
  | emptyLine {n k : Nat} (rest : List UInt8) : Safe whole .line n k (10 :: rest)
  | noCommand {n k : Nat} {c : UInt8} (rest : List UInt8)
      (notEmpty : c ≠ 10) (isOther : ¬ (c = 48 ∨ c = 49)) :
      Safe whole .line n k (c :: rest)
  | noAddress {n k : Nat} {c : UInt8} {word rest : List UInt8}
      (isCommand : c = 48 ∨ c = 49) (room : n < entryMax)
      (noBlank : 32 ∉ word) (refused : Refused 8 rest) :
      Safe whole .line n k (c :: word ++ 32 :: rest)
  | noCount {n k : Nat} {word addr : List UInt8} {e : UInt8}
      {rest : List UInt8} (room : n < entryMax) (noBlank : 32 ∉ word)
      (accepted : Accepted 8 addr) (blanks : Nat) (notBlank : e ≠ 32)
      (refused : Refused 2 (e :: rest)) :
      Safe whole .line n k
        (48 :: word ++ 32 :: (literal addr ++
          (List.replicate blanks 32 ++ e :: rest)))
  /-- The byte behind the count is skipped, whatever it is. -/
  | delete {n k : Nat} {word addr count : List UInt8} {e : UInt8}
      {rest : List UInt8} (room : n < entryMax) (noBlank : 32 ∉ word)
      (accepted : Accepted 8 addr) (blanks : Nat) (counted : Accepted 2 count)
      (later : Safe whole .line (n + 1) k rest) :
      Safe whole .line n k
        (48 :: word ++ 32 :: (literal addr ++
          (List.replicate blanks 32 ++ (literal count ++ e :: rest))))
  | insert {n k : Nat} {word addr : List UInt8} {e : UInt8}
      {rest : List UInt8} (room : n < entryMax) (noBlank : 32 ∉ word)
      (accepted : Accepted 8 addr) (blanks : Nat) (notBlank : e ≠ 32)
      (later : Safe whole .elem (n + 1) k (e :: rest)) :
      Safe whole .line n k
        (49 :: word ++ 32 :: (literal addr ++
          (List.replicate blanks 32 ++ e :: rest)))
  | newline {n k : Nat} {rest : List UInt8}
      (later : Safe whole .line n k rest) : Safe whole .elem n k (10 :: rest)
  | noByte {n k : Nat} {c : UInt8} {rest : List UInt8}
      (inLine : c ≠ 10) (refused : Refused 2 (c :: rest)) :
      Safe whole .elem n k (c :: rest)
  | byte {n k : Nat} {digits : List UInt8} {e : UInt8} {rest : List UInt8}
      (room : k < pageSize) (accepted : Accepted 2 digits) (blanks : Nat)
      (notBlank : e ≠ 32)
      (later : Safe whole .elem n (k + 1) (e :: rest)) :
      Safe whole .elem n k
        (literal digits ++ (List.replicate blanks 32 ++ e :: rest))

/-- The text of a patch file is read safely. -/
def SafeText (patch : List UInt8) : Prop :=
  Safe (patch.length ≤ mapSizeOf (BitVec.ofNat 64 patch.length)) .line 0 0
    (Mapped.inFile patch).window

/-- The bytes of an insertion are read up to an error or a newline. -/
def ElemRead (text : Mapped) (whole : Prop) (n data size : Nat)
    (read : Option (Except (List UInt8) (Nat × List UInt8))) : Prop :=
  (∃ elem, read = some (.error elem)) ∨
    ∃ p elem rest,
      read = some (.ok (p, elem)) ∧ text.Left p (10 :: rest) ∧
        rest.length < size ∧ Safe whole .line n (data + elem.length) rest

theorem ElemRead.larger
    {whole : Prop} {n data size more : Nat}
    {read : Option (Except (List UInt8) (Nat × List UInt8))}
    (isRead : ElemRead text whole n data size read) (isMore : size ≤ more) :
    ElemRead text whole n data more read := by
  rcases isRead with isError | ⟨p, elem, rest, isSome, left, isLess, safe⟩
  · exact .inl isError
  · exact .inr ⟨p, elem, rest, isSome, left, isLess.trans_le isMore, safe⟩

section Run

variable
  {text : Mapped}
  (exactly : text.Exact)

include exactly

/-- Blanks are skipped. -/
theorem skipWhile_blanks
    {p blanks : Nat} {e : UInt8} {rest : List UInt8}
    (left : text.Left p (List.replicate blanks 32 ++ e :: rest))
    (notBlank : e ≠ 32) :
    skipWhile text (· == 32) text.fuel p = some (p + blanks) := by
  rw [skipWhile_iff exactly left left.length_lt_fuel]
  refine ⟨List.replicate blanks 32, e, rest, rfl, ?_, ?_, ?_⟩
  · intro x member
    simp [List.eq_of_mem_replicate member]
  · simpa using notBlank
  · rw [List.length_replicate]

/-- What is skipped are blanks. -/
theorem left_of_skipWhile_blanks
    {p next : Nat} {rest : List UInt8} (left : text.Left p rest)
    (isSkipped : skipWhile text (· == 32) text.fuel p = some next) :
    ∃ blanks e later,
      rest = List.replicate blanks 32 ++ e :: later ∧ e ≠ 32 ∧
        text.Left next (e :: later) := by
  rw [skipWhile_iff exactly left left.length_lt_fuel] at isSkipped
  obtain ⟨run, e, later, rfl, areBlanks, isStop, rfl⟩ := isSkipped
  refine ⟨run.length, e, later, ?_, by simpa using isStop, left.append⟩
  rw [← List.eq_replicate_of_mem fun x member => by
    simpa using areBlanks x member]

/-- The word behind a command is skipped. -/
theorem skipWhile_word
    {p : Nat} {word rest : List UInt8}
    (left : text.Left p (word ++ 32 :: rest)) (noBlank : 32 ∉ word) :
    skipWhile text (· != 32) text.fuel p = some (p + word.length) := by
  rw [skipWhile_iff exactly left left.length_lt_fuel]
  refine ⟨word, 32, rest, rfl, ?_, rfl, rfl⟩
  intro x member
  have notBlank : x ≠ 32 := fun isBlank => noBlank (isBlank ▸ member)
  simpa using notBlank

/-- What is skipped behind a command is a word. -/
theorem left_of_skipWhile_word
    {p next : Nat} {rest : List UInt8} (left : text.Left p rest)
    (isSkipped : skipWhile text (· != 32) text.fuel p = some next) :
    ∃ word later,
      rest = word ++ 32 :: later ∧ 32 ∉ word ∧
        text.Left (next + 1) later := by
  rw [skipWhile_iff exactly left left.length_lt_fuel] at isSkipped
  obtain ⟨word, e, later, rfl, inWord, isStop, rfl⟩ := isSkipped
  have isBlank : e = 32 := by simpa using isStop
  subst isBlank
  refine ⟨word, later, rfl, ?_, left.append.tail⟩
  intro member
  exact absurd (inWord 32 member) (by decide)

/-! ### The reading of a safe text -/

theorem elemRead_of_safe
    {whole : Prop} {place : Place} {n k : Nat} {rest : List UInt8}
    (safe : Safe whole place n k rest) (isElem : place = .elem)
    {p data fuel : Nat} {elem : List UInt8} (left : text.Left p rest)
    (isData : data + elem.length = k) (enough : rest.length < fuel) :
    ElemRead text whole n data rest.length
      (readElem text data fuel p elem) := by
  induction safe generalizing p elem fuel with
  | endOfFile _ => cases isElem
  | emptyLine _ => cases isElem
  | noCommand _ _ _ => cases isElem
  | noAddress _ _ _ _ => cases isElem
  | noCount _ _ _ _ _ _ => cases isElem
  | delete _ _ _ _ _ _ _ => cases isElem
  | insert _ _ _ _ _ _ _ => cases isElem
  | @newline n k rest later _ =>
      obtain ⟨fuel, rfl⟩ := Nat.exists_eq_succ_of_ne_zero 
        (Nat.ne_of_gt (Nat.zero_lt_of_lt enough))
      refine
        .inr ⟨p, elem, rest, ?_, left, Nat.lt_succ_self _, isData ▸ later⟩
      rw [readElem, readAt_left exactly left]
      rfl
  | @noByte n k c rest inLine refused =>
      obtain ⟨fuel, rfl⟩ := Nat.exists_eq_succ_of_ne_zero 
        (Nat.ne_of_gt (Nat.zero_lt_of_lt enough))
      have isError :=
        asciiToBin_refused exactly (by decide) left refused
      refine .inl ⟨elem, ?_⟩
      rw [readElem, readAt_left exactly left, isError]
      simp [inLine]
  | @byte n k digits e rest room accepted blanks notBlank _
      inductionHypothesis =>
      obtain ⟨fuel, rfl⟩ := Nat.exists_eq_succ_of_ne_zero 
        (Nat.ne_of_gt (Nat.zero_lt_of_lt enough))
      obtain ⟨d, isNumber, noError⟩ :=
        exists_asciiToBin_accepted exactly (by decide) accepted left
      have isFour : (literal digits).length = 4 := by
        rw [literal, List.length_cons, List.length_cons, accepted.isLength]
      have behind := left.append
      rw [isFour] at behind
      have isNext := skipWhile_blanks exactly behind notBlank
      have isZero : text.readAt p = some 48 := readAt_left exactly left
      rw [readElem, isZero, isNumber, isNext]
      simp only [Option.bind_eq_bind, Option.bind_some]
      rw [if_neg (by decide), if_neg noError, if_pos (by omega)]
      have next := behind.append
      rw [List.length_replicate] at next
      rw [List.length_append, List.length_append, List.length_replicate]
        at enough
      have read :=
        inductionHypothesis rfl next
          (show data + (elem ++ [UInt8.ofNat d.toNat]).length = k + 1 by
            rw [List.length_append, List.length_singleton]
            omega)
          (show (e :: rest).length < fuel by omega)
      refine read.larger ?_
      · simp only [List.length_append, List.length_cons]
        omega

/-- The address of a line is read, and what follows it is left. -/
theorem readLine_accepted
    {st : ReadState} {c e : UInt8} {word addr rest : List UInt8}
    {blanks : Nat}
    (isCommand : c = 48 ∨ c = 49) (room : st.entries.length < entryMax)
    (noBlank : 32 ∉ word) (accepted : Accepted 8 addr) (notBlank : e ≠ 32)
    (left :
      text.Left st.p
        (c :: word ++ 32 :: (literal addr ++
          (List.replicate blanks 32 ++ e :: rest)))) :
    ∃ d p,
      text.Left p (e :: rest) ∧
        readLine text st =
          if c = 48 then
            readDelete text d { st with p := p }
          else
            readInsert text d { st with p := p } := by
  have atCommand : text.readAt st.p = some c := readAt_left exactly left
  have isWord := skipWhile_word exactly left.tail noBlank
  have atAddr := left.tail.append.tail
  obtain ⟨d, isNumber, noError⟩ :=
    exists_asciiToBin_accepted exactly (by decide) accepted atAddr
  have isTen : (literal addr).length = 10 := by
    rw [literal, List.length_cons, List.length_cons, accepted.isLength]
  have behind := atAddr.append
  rw [isTen] at behind
  have isNext := skipWhile_blanks exactly behind notBlank
  have next := behind.append
  rw [List.length_replicate] at next
  refine ⟨d, _, next, ?_⟩
  rw [readLine, atCommand, Option.bind_eq_bind, Option.bind_some,
    if_pos isCommand, if_pos room, isWord, Option.bind_eq_bind,
    Option.bind_some, isNumber, Option.bind_eq_bind, Option.bind_some,
    if_neg noError, isNext, Option.bind_some]

/-- A line that is safe has an error, or a safe text behind it. -/
theorem readLine_of_safe
    {whole : Prop} {st : ReadState} {rest : List UInt8}
    (safe : Safe whole .line st.entries.length st.data rest)
    (notEnd : rest ≠ []) (notEmpty : rest.head? ≠ some 10)
    (left : text.Left st.p rest) :
    (∃ last, readLine text st = some (.error last)) ∨
      ∃ next later,
        readLine text st = some (.ok next) ∧
          text.Left (next.p + 1) later ∧ st.p ≤ next.p ∧
          Safe whole .line next.entries.length next.data later := by
  have isLength := left.length_eq
  cases safe with
  | endOfFile _ => exact absurd rfl notEnd
  | emptyLine _ => exact absurd rfl notEmpty
  | noCommand _ _ isOther =>
      refine .inl ⟨st, ?_⟩
      rw [readLine, readAt_left exactly left]
      simp [isOther]
  | @noAddress _ _ c word rest isCommand room noBlank refused =>
      have atCommand := readAt_left exactly left
      have isWord := skipWhile_word exactly left.tail noBlank
      have isError :=
        asciiToBin_refused exactly (by decide) left.tail.append.tail refused
      refine .inl ⟨st.write ⟨c - 48, 0, 0, []⟩, ?_⟩
      rw [readLine, atCommand, List.cons_append, List.head?_cons,
        Option.bind_eq_bind, Option.bind_some, if_pos isCommand, if_pos room,
        isWord, Option.bind_eq_bind, Option.bind_some, isError]
      rfl
  | noCount room noBlank accepted blanks notBlank refused =>
      obtain ⟨d, p, next, isLine⟩ :=
        readLine_accepted exactly (.inl rfl) room noBlank accepted notBlank left
      have isError := asciiToBin_refused exactly (by decide) next refused
      refine .inl ⟨{ st with p := p }.write ⟨0, d, 0, []⟩, ?_⟩
      rw [isLine, if_pos rfl, readDelete, isError]
      rfl
  | @delete _ _ word addr count e rest room noBlank accepted blanks counted
      later =>
      obtain ⟨d, p, next, isLine⟩ :=
        readLine_accepted exactly (.inl rfl) room noBlank accepted
          (by decide) left
      have atCount : text.Left p (literal count ++ e :: rest) := next
      obtain ⟨value, isNumber, noError⟩ :=
        exists_asciiToBin_accepted exactly (by decide) counted atCount
      have isFour : (literal count).length = 4 := by
        rw [literal, List.length_cons, List.length_cons, counted.isLength]
      have behind := atCount.append
      have behindLength := atCount.length_eq
      rw [isFour] at behind
      rw [isLine, if_pos rfl, readDelete, isNumber, Option.bind_eq_bind,
        Option.bind_some, if_neg noError]
      refine .inr ⟨_, rest, rfl, behind.tail, ?_, ?_⟩
      · simp only [List.length_append, List.length_cons]
          at isLength behindLength
        show st.p ≤ p + 4
        omega
      · rw [List.length_append]
        exact later
  | @insert _ _ word addr e rest room noBlank accepted blanks notBlank later =>
      obtain ⟨d, p, next, isLine⟩ :=
        readLine_accepted exactly (.inr rfl) room noBlank accepted notBlank left
      have nextLength := next.length_eq
      have isRead :
          ElemRead text whole (st.entries.length + 1) st.data
            (e :: rest).length (readElem text st.data text.fuel p []) :=
        elemRead_of_safe exactly later rfl next rfl next.length_lt_fuel
      rw [isLine, if_neg (by decide), readInsert]
      rcases isRead with
        ⟨elem, isError⟩ |
          ⟨last, elem, behind, isSome, behindLeft, isLess, safe⟩
      · refine .inl ⟨{ st with p := p }.writeElem d elem, ?_⟩
        rw [isError]
        rfl
      · have behindLength := behindLeft.length_eq
        rw [isSome]
        refine .inr ⟨_, behind, rfl, behindLeft.tail, ?_, ?_⟩
        · simp only [List.length_append, List.length_cons]
            at isLength nextLength behindLength isLess
          show st.p ≤ last
          omega
        · show
            Safe whole .line (st.entries ++ [_]).length
              (st.data + elem.length) behind
          rw [List.length_append]
          exact safe

/-- A safe text is read without a fault, and the reading ends. -/
theorem isSome_readLines_of_safe
    {whole : Prop}
    (isWhole : whole → text.window.length = text.bytes.length)
    {fuel : Nat} {st : ReadState} {rest : List UInt8}
    (safe : Safe whole .line st.entries.length st.data rest)
    (left : text.Left st.p rest) (enough : rest.length < fuel) :
    (readLines text fuel st).isSome := by
  induction fuel generalizing st rest with
  | zero => cases enough
  | succ fuel inductionHypothesis =>
      have isLength := left.length_eq
      have inFile : text.window.length ≤ text.bytes.length := by
        rw [Mapped.window, List.length_take]
        exact Nat.min_le_right _ _
      rw [readLines]
      cases rest with
      | nil =>
          cases safe with
          | endOfFile holds =>
              have isEnd : st.p = text.bytes.length :=
                isLength.trans (isWhole holds)
              rw [if_pos isEnd]
              rfl
      | cons c rest =>
          have notEnd : st.p ≠ text.bytes.length := by
            rw [List.length_cons] at isLength
            omega
          rw [if_neg notEnd, readAt_left exactly left, List.head?_cons,
            Option.bind_eq_bind, Option.bind_some]
          by_cases isEmpty : c = 10
          · rw [if_pos isEmpty]
            rfl
          · rw [if_neg isEmpty]
            have isOther : (c :: rest).head? ≠ some 10 := by
              simpa using isEmpty
            rcases readLine_of_safe exactly safe (List.cons_ne_nil _ _) isOther
                left with
              ⟨last, isError⟩ |
                ⟨next, later, isSome, behind, isLater, laterSafe⟩
            · rw [isError]
              rfl
            · rw [isSome]
              have behindLength := behind.length_eq
              exact inductionHypothesis laterSafe behind (by omega)

/-! ### The text of a safe reading -/

/-- What is read of an insertion is an error, or is read up to a newline. -/
theorem safe_of_readElem
    {whole : Prop} {n data fuel p : Nat} {elem rest : List UInt8}
    {read : Except (List UInt8) (Nat × List UInt8)}
    (left : text.Left p rest)
    (isRead : readElem text data fuel p elem = some read) :
    (∃ more, read = .error more) ∧
        Safe whole .elem n (data + elem.length) rest ∨
      ∃ last more later,
        read = .ok (last, more) ∧ text.Left last (10 :: later) ∧
          (Safe whole .line n (data + more.length) later →
            Safe whole .elem n (data + elem.length) rest) := by
  induction fuel generalizing p elem rest with
  | zero => cases isRead
  | succ fuel inductionHypothesis =>
      rw [readElem, readAt_left exactly left] at isRead
      cases rest with
      | nil => cases isRead
      | cons c rest =>
          rw [List.head?_cons, Option.bind_eq_bind, Option.bind_some]
            at isRead
          by_cases isEnd : c = 10
          · subst isEnd
            rw [if_pos rfl, Option.some_inj] at isRead
            exact .inr ⟨p, elem, rest, isRead.symm, left, .newline⟩
          · rw [if_neg isEnd] at isRead
            obtain ⟨d, isNumber, isLater⟩ := Option.bind_eq_some_iff.1 isRead
            rcases cases_asciiToBin exactly (by decide) (by decide) left
                isNumber with
              ⟨isError, refused⟩ | ⟨noError, digits, behind, accepted, isRest⟩
            · rw [if_pos isError, Option.some_inj] at isLater
              exact .inl ⟨⟨elem, isLater.symm⟩, .noByte isEnd refused⟩
            · rw [if_neg noError] at isLater
              by_cases room : data + elem.length < pageSize
              · rw [if_pos room] at isLater
                obtain ⟨next, isNext, isMore⟩ :=
                  Option.bind_eq_some_iff.1 isLater
                have isFour : (literal digits).length = 4 := by
                  rw [literal, List.length_cons, List.length_cons,
                    accepted.isLength]
                rw [isRest] at left ⊢
                have behindLeft := left.append
                rw [isFour] at behindLeft
                obtain ⟨blanks, e, later, rfl, notBlank, nextLeft⟩ :=
                  left_of_skipWhile_blanks exactly behindLeft isNext
                have oneMore :
                    data + (elem ++ [UInt8.ofNat d.toNat]).length =
                      data + elem.length + 1 := by
                  rw [List.length_append, List.length_singleton, Nat.add_assoc]
                rcases inductionHypothesis nextLeft isMore with
                  ⟨isError, safe⟩ | ⟨last, more, end_, isSome, atEnd, safe⟩
                · rw [oneMore] at safe
                  exact
                    .inl ⟨isError, .byte room accepted blanks notBlank safe⟩
                · rw [oneMore] at safe
                  exact
                    .inr
                      ⟨last, more, end_, isSome, atEnd, fun laterSafe =>
                        .byte room accepted blanks notBlank (safe laterSafe)⟩
              · rw [if_neg room] at isLater
                cases isLater

/-- What can follow a line that is read without an error. -/
def LineRead (text : Mapped) (whole : Prop) (st next : ReadState)
    (rest : List UInt8) : Prop :=
  next.p = text.window.length ∨
    ∃ later,
      text.Left (next.p + 1) later ∧
        (Safe whole .line next.entries.length next.data later →
          Safe whole .line st.entries.length st.data rest)

/-- What is read of a deletion. -/
theorem safe_of_readDelete
    {whole : Prop} {st : ReadState} {p : Nat} {d : U64}
    {word addr : List UInt8} {blanks : Nat} {e : UInt8} {rest : List UInt8}
    {line : Except ReadState ReadState}
    (room : st.entries.length < entryMax) (noBlank : 32 ∉ word)
    (accepted : Accepted 8 addr) (notBlank : e ≠ 32)
    (left : text.Left p (e :: rest))
    (isRead : readDelete text d { st with p := p } = some line) :
    (∃ last, line = .error last) ∧
        Safe whole .line st.entries.length st.data
          (48 :: word ++ 32 :: (literal addr ++
            (List.replicate blanks 32 ++ e :: rest))) ∨
      ∃ next,
        line = .ok next ∧
          LineRead text whole st next
            (48 :: word ++ 32 :: (literal addr ++
              (List.replicate blanks 32 ++ e :: rest))) := by
  obtain ⟨value, isNumber, isLine⟩ := Option.bind_eq_some_iff.1 isRead
  rcases cases_asciiToBin exactly (by decide) (by decide) left isNumber with
    ⟨isError, refused⟩ | ⟨noError, count, behind, counted, isRest⟩
  · rw [if_pos isError, Option.some_inj] at isLine
    exact
      .inl
        ⟨⟨_, isLine.symm⟩,
          .noCount room noBlank accepted blanks notBlank refused⟩
  · rw [if_neg noError, Option.some_inj] at isLine
    refine .inr ⟨_, isLine.symm, ?_⟩
    have isFour : (literal count).length = 4 := by
      rw [literal, List.length_cons, List.length_cons, counted.isLength]
    rw [isRest] at left ⊢
    have behindLeft := left.append
    rw [isFour] at behindLeft
    cases behind with
    | nil => exact .inl behindLeft.length_eq
    | cons e later =>
        refine .inr ⟨later, behindLeft.tail, fun laterSafe => ?_⟩
        change
          Safe whole .line (st.entries ++ [_]).length st.data later
            at laterSafe
        rw [List.length_append] at laterSafe
        exact .delete room noBlank accepted blanks counted laterSafe

/-- What is read of an insertion. -/
theorem safe_of_readInsert
    {whole : Prop} {st : ReadState} {p : Nat} {d : U64}
    {word addr : List UInt8} {blanks : Nat} {e : UInt8} {rest : List UInt8}
    {line : Except ReadState ReadState}
    (room : st.entries.length < entryMax) (noBlank : 32 ∉ word)
    (accepted : Accepted 8 addr) (notBlank : e ≠ 32)
    (left : text.Left p (e :: rest))
    (isRead : readInsert text d { st with p := p } = some line) :
    (∃ last, line = .error last) ∧
        Safe whole .line st.entries.length st.data
          (49 :: word ++ 32 :: (literal addr ++
            (List.replicate blanks 32 ++ e :: rest))) ∨
      ∃ next,
        line = .ok next ∧
          LineRead text whole st next
            (49 :: word ++ 32 :: (literal addr ++
              (List.replicate blanks 32 ++ e :: rest))) := by
  obtain ⟨read, isElem, isLine⟩ := Option.bind_eq_some_iff.1 isRead
  rcases safe_of_readElem exactly left isElem with
    ⟨⟨more, rfl⟩, safe⟩ | ⟨last, more, later, rfl, atEnd, safe⟩
  · refine .inl ⟨⟨_, (Option.some.inj isLine).symm⟩, ?_⟩
    exact .insert room noBlank accepted blanks notBlank safe
  · refine .inr ⟨_, (Option.some.inj isLine).symm, .inr ⟨later, atEnd.tail, ?_⟩⟩
    intro laterSafe
    change
      Safe whole .line (st.entries ++ [_]).length (st.data + more.length) later
        at laterSafe
    rw [List.length_append] at laterSafe
    exact .insert room noBlank accepted blanks notBlank (safe laterSafe)

/-- A line that is read is an error that is found, or the next line follows. -/
theorem safe_of_readLine
    {whole : Prop} {st : ReadState} {c : UInt8} {rest : List UInt8}
    {line : Except ReadState ReadState}
    (notEmpty : c ≠ 10) (left : text.Left st.p (c :: rest))
    (isRead : readLine text st = some line) :
    (∃ last, line = .error last) ∧
        Safe whole .line st.entries.length st.data (c :: rest) ∨
      ∃ next,
        line = .ok next ∧ LineRead text whole st next (c :: rest) := by
  rw [readLine, readAt_left exactly left, List.head?_cons,
    Option.bind_eq_bind, Option.bind_some] at isRead
  by_cases isCommand : c = 48 ∨ c = 49
  swap
  · rw [if_neg isCommand, Option.some_inj] at isRead
    exact .inl ⟨⟨st, isRead.symm⟩, .noCommand _ notEmpty isCommand⟩
  rw [if_pos isCommand] at isRead
  by_cases room : st.entries.length < entryMax
  swap
  · rw [if_neg room] at isRead
    cases isRead
  rw [if_pos room] at isRead
  obtain ⟨space, isSpace, isAddress⟩ := Option.bind_eq_some_iff.1 isRead
  obtain ⟨word, later, rfl, noBlank, atAddr⟩ :=
    left_of_skipWhile_word exactly left.tail isSpace
  obtain ⟨d, isNumber, isLater⟩ := Option.bind_eq_some_iff.1 isAddress
  rcases cases_asciiToBin exactly (by decide) (by decide) atAddr isNumber with
    ⟨isError, refused⟩ | ⟨noError, addr, behind, accepted, rfl⟩
  · rw [if_pos isError, Option.some_inj] at isLater
    exact
      .inl ⟨⟨_, isLater.symm⟩, .noAddress isCommand room noBlank refused⟩
  · rw [if_neg noError] at isLater
    obtain ⟨p, isNext, isLine⟩ := Option.bind_eq_some_iff.1 isLater
    have isTen : (literal addr).length = 10 := by
      rw [literal, List.length_cons, List.length_cons, accepted.isLength]
    have behindLeft := atAddr.append
    rw [isTen] at behindLeft
    obtain ⟨blanks, e, rest, rfl, notBlank, nextLeft⟩ :=
      left_of_skipWhile_blanks exactly behindLeft isNext
    rcases isCommand with rfl | rfl
    · rw [if_pos rfl] at isLine
      exact
        safe_of_readDelete exactly room noBlank accepted notBlank nextLeft
          isLine
    · rw [if_neg (by decide)] at isLine
      exact
        safe_of_readInsert exactly room noBlank accepted notBlank nextLeft
          isLine

/-- A text that is read without a fault is safe. -/
theorem safe_of_readLines
    {whole : Prop}
    (isWhole : text.window.length = text.bytes.length → whole)
    (notNext : text.window.length + 1 ≠ text.bytes.length)
    {fuel : Nat} {st : ReadState} {rest : List UInt8}
    (left : text.Left st.p rest)
    (isRead : (readLines text fuel st).isSome) :
    Safe whole .line st.entries.length st.data rest := by
  induction fuel generalizing st rest with
  | zero => cases isRead
  | succ fuel inductionHypothesis =>
      have isLength := left.length_eq
      have inFile : text.window.length ≤ text.bytes.length := by
        rw [Mapped.window, List.length_take]
        exact Nat.min_le_right _ _
      rw [readLines] at isRead
      by_cases atEnd : st.p = text.bytes.length
      · have isNil : rest = [] := List.eq_nil_of_length_eq_zero (by omega)
        rw [isNil]
        exact .endOfFile (isWhole (by omega))
      · rw [if_neg atEnd, readAt_left exactly left] at isRead
        cases rest with
        | nil => cases isRead
        | cons c rest =>
            rw [List.head?_cons, Option.bind_eq_bind, Option.bind_some]
              at isRead
            by_cases isEmpty : c = 10
            · rw [isEmpty]
              exact .emptyLine rest
            · rw [if_neg isEmpty] at isRead
              obtain ⟨line, isLine⟩ : ∃ line, readLine text st = some line := by
                cases isLine : readLine text st with
                | none =>
                    rw [isLine] at isRead
                    cases isRead
                | some line => exact ⟨line, rfl⟩
              rw [isLine] at isRead
              rcases safe_of_readLine exactly isEmpty left isLine with
                ⟨-, safe⟩ | ⟨next, rfl, behind | ⟨later, behind, safe⟩⟩
              · exact safe
              · have isFault :
                    readLines text fuel { next with p := next.p + 1 } =
                      none := by
                  cases fuel with
                  | zero => rfl
                  | succ fuel =>
                      have notEnd : next.p + 1 ≠ text.bytes.length :=
                        behind ▸ notNext
                      rw [readLines, if_neg notEnd,
                        readAt_behind exactly (by
                          show text.window.length ≤ next.p + 1
                          omega)]
                      rfl
                change
                  (readLines text fuel { next with p := next.p + 1 }).isSome
                    at isRead
                rw [isFault] at isRead
                cases isRead
              · have behindNext :
                    text.Left { next with p := next.p + 1 }.p later :=
                  behind
                have laterSafe := inductionHypothesis behindNext isRead
                exact safe laterSafe

end Run

/-! ## The condition -/

theorem length_window_inFile (patch : List UInt8) :
    (Mapped.inFile patch).window.length =
      min patch.length (mapSizeOf (BitVec.ofNat 64 patch.length)) := by
  rw [Mapped.window, List.length_take]
  exact Nat.min_eq_left (Nat.min_le_left _ _)

/-- A file that is not mapped whole goes on for more than a byte. -/
theorem window_not_next (patch : List UInt8) :
    (Mapped.inFile patch).window.length + 1 ≠ patch.length := by
  rw [length_window_inFile, mapSizeOf_eq, BitVec.toNat_ofNat]
  omega

/--
For every byte string as the patch file, `read_patch` ends with 0 or 1 and stays
inside the file and its tables exactly when the text is safe.
-/
theorem readsSafely_iff_safeText (patch : List UInt8) :
    ReadsSafely patch ↔ SafeText patch := by
  have exactly := exact_inFile patch
  have isLength := length_window_inFile patch
  have left :
      (Mapped.inFile patch).Left 0 (Mapped.inFile patch).window :=
    ⟨List.drop_zero, Nat.zero_le _⟩
  constructor
  · rintro ⟨fuel, isRead⟩
    refine safe_of_readLines exactly (fun isWhole => ?_)
      (window_not_next patch) left isRead
    rw [isLength] at isWhole
    exact (Nat.le_of_eq isWhole.symm).trans (Nat.min_le_right _ _)
  · intro safe
    refine ⟨_, isSome_readLines_of_safe exactly (fun isWhole => ?_) safe left
      left.length_lt_fuel⟩
    rw [isLength]
    exact Nat.min_eq_left isWhole

/-- `0 0x00000001 0x01` without a newline. -/
def truncatedPatch : List UInt8 :=
  [48, 32] ++ Edit.number 1 8 ++ 32 :: Edit.number 1 2

/-- The pointer jumps over the end of a last line that has no newline. -/
theorem not_readsSafely_truncated : ¬ ReadsSafely truncatedPatch := by
  rintro ⟨fuel, isRead⟩
  have isLine :
      readLine (.inFile truncatedPatch) ⟨0, [], 0, 0⟩ =
        some (.ok ⟨17, [⟨0, 1, 1, []⟩], 0, -1⟩) := by
    decide +kernel
  have isFault :
      ∀ fuel,
        readLines (.inFile truncatedPatch) fuel
            ⟨18, [⟨0, 1, 1, []⟩], 0, -1⟩ =
          none := by
    intro fuel
    cases fuel <;> rfl
  cases fuel with
  | zero => cases isRead
  | succ fuel =>
      have isNext :
          readLines (.inFile truncatedPatch) (fuel + 1) ⟨0, [], 0, 0⟩ =
            readLines (.inFile truncatedPatch) fuel
              ⟨18, [⟨0, 1, 1, []⟩], 0, -1⟩ := by
        rw [readLines, isLine]
        rfl
      rw [isNext, isFault] at isRead
      cases isRead

end BinTools.Bipatch
