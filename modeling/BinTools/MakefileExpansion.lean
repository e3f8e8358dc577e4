import BinTools.MakefileResolve

namespace BinTools.Makefile.Resolve

open HashTable

/-!
# The string that is returned

The first pass stops behind the first reference, since the name that follows it
ends with the zero that was written there.  The second pass leaves out the
character in front of the reference, and goes on inside of the name.
-/

/-! ## The scanner -/

theorem scan_append
    {front : List UInt8}
    (isFront : ∀ c ∈ front, c ≠ 0 ∧ c ≠ 0x24 ∧ c ≠ 0x0a)
    (rest : List UInt8) (p : Nat) :
    scan (front ++ rest) p = scan rest (p + front.length) := by
  induction front generalizing p with
  | nil => rfl
  | cons c front inductionHypothesis =>
      obtain ⟨notNul, notDollar, notNewline⟩ :=
        isFront c List.mem_cons_self
      have isRest := fun c member =>
        isFront c (List.mem_cons_of_mem _ member)
      rw [List.cons_append, scan, if_neg notNul, if_neg notDollar,
        if_neg notNewline, inductionHypothesis isRest, List.length_cons]
      congr 1
      omega

/-- A string without a dollar sign needs nothing. -/
theorem scan_string
    {string : List UInt8} (noDollar : 0x24 ∉ string) (rest : List UInt8)
    (p : Nat) :
    scan (string ++ 0 :: rest) p = some .nothing := by
  induction string generalizing p with
  | nil => rfl
  | cons c string inductionHypothesis =>
      rw [List.mem_cons, not_or] at noDollar
      rw [List.cons_append, scan]
      split
      · rfl
      · rw [if_neg (Ne.symm noDollar.1)]
        split
        · rfl
        · exact inductionHypothesis noDollar.2 _

theorem closing_name
    {name : List UInt8} (isName : ∀ c ∈ name, c ≠ 0x29 ∧ c ≠ 0)
    {c : UInt8} (isClose : c = 0x29 ∨ c = 0) (rest : List UInt8) (p : Nat) :
    closing (name ++ c :: rest) p = some (p + name.length) := by
  induction name generalizing p with
  | nil => exact if_pos isClose
  | cons d name inductionHypothesis =>
      have isOther : ¬ (d = 0x29 ∨ d = 0) :=
        not_or.mpr (isName d List.mem_cons_self)
      have isRest := fun c member =>
        isName c (List.mem_cons_of_mem _ member)
      rw [List.cons_append, closing, if_neg isOther,
        inductionHypothesis isRest, List.length_cons]
      congr 1
      omega

/-- A reference is found, also when its name already ends with a zero. -/
theorem scan_reference
    {name : List UInt8} (isName : ∀ c ∈ name, c ≠ 0x29 ∧ c ≠ 0)
    {c : UInt8} (isClose : c = 0x29 ∨ c = 0) (rest : List UInt8) (p : Nat) :
    scan (0x24 :: 0x28 :: (name ++ c :: rest)) p =
      some (.name (p + 1) (p + 2 + name.length)) := by
  have isClosed :
      closing (0x28 :: (name ++ c :: rest)) (p + 1) =
        some (p + 2 + name.length) := by
    rw [closing, if_neg (by decide), closing_name isName isClose]
  rw [scan, if_neg (by decide), if_pos rfl, behindDollar, if_pos rfl, isClosed]
  rfl

/-! ## What stays of a string -/

/-- All but the ends of names stays. -/
structure Kept (text later : List UInt8) : Prop where
  length : later.length = text.length
  kept : ∀ (k : Nat) (c : UInt8),
    text[k]? = some c → c ≠ 0x29 → later[k]? = some c

theorem Kept.refl (text : List UInt8) : Kept text text :=
  ⟨rfl, fun _ _ isByte _ => isByte⟩

theorem Kept.trans
    {text later last : List UInt8}
    (first : Kept text later) (second : Kept later last) : Kept text last :=
  ⟨second.length.trans first.length, fun k c isByte notClose =>
    second.kept k c (first.kept k c isByte notClose) notClose⟩

/-- Where no name ends, everything stays. -/
theorem Kept.eq
    {text later : List UInt8} (isKept : Kept text later)
    (noClose : 0x29 ∉ text) : later = text := by
  apply List.ext_getElem isKept.length
  intro k inLater inText
  have isByte : text[k]? = some text[k] := List.getElem?_eq_getElem inText
  have isLater :=
    isKept.kept k text[k] isByte fun isClose =>
      noClose (isClose ▸ List.getElem_mem inText)
  rw [List.getElem?_eq_getElem inLater] at isLater
  exact Option.some.inj isLater

theorem closing_position
    {text : List UInt8} {p close : Nat} (isClosed : closing text p = some close) :
    ∃ k, close = p + k ∧ (text[k]? = some 0x29 ∨ text[k]? = some 0) := by
  induction text generalizing p with
  | nil => cases isClosed
  | cons c text inductionHypothesis =>
      rw [closing] at isClosed
      split at isClosed
      · rename_i isEnd
        refine ⟨0, (Option.some.inj isClosed).symm, ?_⟩
        rcases isEnd with rfl | rfl
        · exact .inl rfl
        · exact .inr rfl
      · obtain ⟨k, isPosition, isEnd⟩ := inductionHypothesis isClosed
        exact ⟨k + 1, by omega, isEnd⟩

theorem scan_position
    {text : List UInt8} {p q close : Nat}
    (isFound : scan text p = some (.name q close)) :
    ∃ k, close = p + k ∧ (text[k]? = some 0x29 ∨ text[k]? = some 0) := by
  induction text generalizing p with
  | nil => cases isFound
  | cons c text inductionHypothesis =>
      rw [scan] at isFound
      split at isFound
      · cases isFound
      split at isFound
      · cases text with
        | nil => cases isFound
        | cons d rest =>
            rw [behindDollar] at isFound
            split at isFound
            · obtain ⟨found, isClosed, same⟩ :=
                Option.map_eq_some_iff.mp isFound
              obtain ⟨rfl, rfl⟩ := Needed.name.inj same
              obtain ⟨k, isPosition, isEnd⟩ := closing_position isClosed
              exact ⟨k + 1, by omega, isEnd⟩
            · split at isFound <;> cases isFound
      split at isFound
      · cases isFound
      · obtain ⟨k, isPosition, isEnd⟩ := inductionHypothesis isFound
        exact ⟨k + 1, by omega, isEnd⟩

theorem kept_needResolve
    {text later : List UInt8} {s s2 : Nat}
    (isNeeded : needResolve text s = some (s2, later)) : Kept text later := by
  obtain ⟨needed, isFound, isResult⟩ := Option.map_eq_some_iff.mp isNeeded
  cases needed with
  | nothing =>
      cases isResult
      exact .refl _
  | automatic p =>
      cases isResult
      exact .refl _
  | name q close =>
      cases isResult
      obtain ⟨k, rfl, isEnd⟩ := scan_position isFound
      rw [List.getElem?_drop] at isEnd
      refine ⟨List.length_set, ?_⟩
      intro position c isByte notClose
      rw [List.getElem?_set]
      split
      · rename_i isHere
        subst isHere
        rw [isByte] at isEnd
        rcases isEnd with isClose | isNul
        · exact absurd (Option.some.inj isClose) notClose
        · obtain ⟨inRange, -⟩ := List.getElem?_eq_some_iff.mp isByte
          rw [if_pos inRange, Option.some.inj isNul]
      · exact isByte

/-! ## Copying -/

theorem length_write
    {block later : List UInt8} {m : Nat} {c : UInt8}
    (isWritten : write block m c = some later) :
    m < block.length ∧ later.length = block.length := by
  rw [write] at isWritten
  split at isWritten
  · cases isWritten
    exact ⟨‹_›, List.length_set⟩
  · cases isWritten

theorem length_copyString
    {block later : List UInt8} {m m' : Nat} {bytes : List UInt8}
    (isCopied : copyString block m bytes = some (later, m')) :
    m + bytes.length < block.length ∧ later.length = block.length := by
  induction bytes generalizing block m with
  | nil =>
      obtain ⟨_, isWritten, same⟩ := Option.map_eq_some_iff.mp isCopied
      cases same
      exact length_write isWritten
  | cons c bytes inductionHypothesis =>
      obtain ⟨middle, isWritten, isRest⟩ :=
        Option.bind_eq_some_iff.mp isCopied
      obtain ⟨_, isMiddle⟩ := length_write isWritten
      obtain ⟨hasRoom, isLater⟩ := inductionHypothesis isRest
      rw [List.length_cons]
      exact ⟨by omega, isLater.trans isMiddle⟩

theorem length_copyFront
    {text : List UInt8} {copied later : Copied}
    (isCopied : copyFront text copied = some later) :
    later.block.length = copied.block.length := by
  induction text generalizing copied with
  | nil =>
      rw [copyFront] at isCopied
      split at isCopied
      · cases isCopied
        rfl
      · cases isCopied
  | cons c text inductionHypothesis =>
      rw [copyFront] at isCopied
      split at isCopied
      · cases isCopied
        rfl
      · obtain ⟨block, isWritten, isRest⟩ :=
          Option.bind_eq_some_iff.mp isCopied
        exact (inductionHypothesis isRest).trans (length_write isWritten).2

/-- Without two steps left everything up to the zero is copied. -/
theorem copyFront_string
    {string rest : List UInt8} (noNul : 0 ∉ string) {copied later : Copied}
    (isFewer : copied.i < 2)
    (isCopied : copyFront (string ++ 0 :: rest) copied = some later) :
    later.m = copied.m + string.length := by
  induction string generalizing copied with
  | nil =>
      rw [List.nil_append, copyFront, if_pos (.inr rfl)] at isCopied
      cases isCopied
      rfl
  | cons c string inductionHypothesis =>
      rw [List.mem_cons, not_or] at noNul
      have goesOn : ¬ (copied.i = 2 ∨ c = 0) :=
        not_or.mpr ⟨by omega, Ne.symm noNul.1⟩
      rw [List.cons_append, copyFront, if_neg goesOn] at isCopied
      obtain ⟨block, -, isRest⟩ := Option.bind_eq_some_iff.mp isCopied
      have isLast :=
        inductionHypothesis noNul.2 (show copied.i - 1 < 2 by omega) isRest
      rw [isLast, List.length_cons]
      show copied.m + 1 + string.length = _
      omega

/-- The text in front of a reference is copied but for its last character. -/
theorem copyFront_front
    {front : List UInt8} (noNul : 0 ∉ front) {rest : List UInt8}
    {copied later : Copied} (isTwo : copied.i = (front.length : Int) + 2)
    (isCopied : copyFront (front ++ rest) copied = some later) :
    later.m = copied.m + front.length := by
  induction front generalizing copied with
  | nil =>
      have isTwo : copied.i = 2 := isTwo
      cases rest with
      | nil =>
          rw [List.nil_append, copyFront, if_pos isTwo] at isCopied
          cases isCopied
          rfl
      | cons c rest =>
          rw [List.nil_append, copyFront, if_pos (.inl isTwo)] at isCopied
          cases isCopied
          rfl
  | cons c front inductionHypothesis =>
      rw [List.mem_cons, not_or] at noNul
      rw [List.length_cons] at isTwo
      have goesOn : ¬ (copied.i = 2 ∨ c = 0) :=
        not_or.mpr ⟨by omega, Ne.symm noNul.1⟩
      rw [List.cons_append, copyFront, if_neg goesOn] at isCopied
      obtain ⟨block, -, isRest⟩ := Option.bind_eq_some_iff.mp isCopied
      have isLast :=
        inductionHypothesis noNul.2
          (show copied.i - 1 = (front.length : Int) + 2 by omega) isRest
      rw [isLast, List.length_cons]
      show copied.m + 1 + front.length = _
      omega

/-- A byte behind those that the block has. -/
theorem exists_write
    {out block : List UInt8} (isOut : out <+: block)
    (hasRoom : out.length < block.length) (c : UInt8) :
    ∃ later,
      write block out.length c = some later ∧
        later.length = block.length ∧ out ++ [c] <+: later := by
  obtain ⟨rest, rfl⟩ := isOut
  cases rest with
  | nil => simp at hasRoom
  | cons d rest =>
      refine ⟨_, if_pos hasRoom, List.length_set, rest, ?_⟩
      rw [List.set_append_right _ _ (Nat.le_refl _), Nat.sub_self,
        List.append_assoc]
      rfl

theorem exists_copyString
    {out block bytes : List UInt8} (isOut : out <+: block)
    (hasRoom : out.length + bytes.length < block.length) :
    ∃ later,
      copyString block out.length bytes =
          some (later, out.length + bytes.length) ∧
        later.length = block.length ∧ out ++ bytes ++ [0] <+: later := by
  induction bytes generalizing out block with
  | nil =>
      obtain ⟨later, isWritten, sameLength, isLater⟩ :=
        exists_write isOut hasRoom 0
      refine ⟨later, ?_, sameLength, ?_⟩
      · rw [copyString, isWritten]
        rfl
      · rwa [List.append_nil]
  | cons c bytes inductionHypothesis =>
      rw [List.length_cons] at hasRoom
      obtain ⟨middle, isWritten, isMiddle, isOutMiddle⟩ :=
        exists_write isOut (by omega) c
      have length : (out ++ [c]).length = out.length + 1 := by simp
      obtain ⟨later, isCopied, isLater, isOutLater⟩ :=
        inductionHypothesis isOutMiddle (by omega)
      rw [length] at isCopied
      refine ⟨later, ?_, isLater.trans isMiddle, ?_⟩
      · rw [copyString, isWritten, Option.bind_some, isCopied,
          List.length_cons]
        congr 2
        omega
      · simpa using isOutLater

/-- Two steps are left behind the text in front of a reference. -/
theorem exists_copyFront
    {out block front : List UInt8} (isOut : out <+: block)
    (noNul : 0 ∉ front) (rest : List UInt8) (s : Nat)
    (hasRoom : out.length + front.length ≤ block.length) :
    ∃ later,
      copyFront (front ++ rest)
            { block := block
              s := s
              m := out.length
              i := (front.length : Int) + 2 } =
          some
            { block := later
              s := s + front.length
              m := out.length + front.length
              i := 2 } ∧
        later.length = block.length ∧ out ++ front <+: later := by
  induction front generalizing out block s with
  | nil =>
      refine ⟨block, ?_, rfl, by rwa [List.append_nil]⟩
      cases rest with
      | nil => rfl
      | cons c rest => exact if_pos (.inl rfl)
  | cons c front inductionHypothesis =>
      rw [List.mem_cons, not_or] at noNul
      rw [List.length_cons] at hasRoom
      obtain ⟨middle, isWritten, isMiddle, isOutMiddle⟩ :=
        exists_write isOut (by omega) c
      have length : (out ++ [c]).length = out.length + 1 := by simp
      obtain ⟨later, isCopied, isLater, isOutLater⟩ :=
        inductionHypothesis isOutMiddle noNul.2 (s + 1) (by omega)
      rw [length] at isCopied
      have goesOn :
          ¬ ((((c :: front).length : Nat) : Int) + 2 = 2 ∨ c = 0) :=
        not_or.mpr ⟨by rw [List.length_cons]; omega, Ne.symm noNul.1⟩
      have isStep :
          (((c :: front).length : Nat) : Int) + 2 - 1 =
            (front.length : Int) + 2 := by
        rw [List.length_cons]
        omega
      refine ⟨later, ?_, isLater.trans isMiddle, ?_⟩
      · rw [List.cons_append, copyFront, if_neg goesOn]
        dsimp only
        rw [isWritten, Option.bind_some, isStep, isCopied, List.length_cons]
        congr 2 <;> omega
      · simpa using isOutLater

/-! ## Passes -/

section Pass

variable
  {vars : Table}
  {deps : Option (Option (List UInt8))}
  {fresh : Nat → UInt8}

theorem kept_replace
    {state later : State} {i : Int} (isLater : replace state i = some later) :
    later.text = state.text ∧ later.block.length = state.block.length := by
  unfold replace at isLater
  split at isLater
  · cases isLater
  · obtain ⟨_, -, rfl⟩ := Option.map_eq_some_iff.mp isLater
    exact ⟨rfl, rfl⟩
  split at isLater
  · obtain ⟨copied, isFront, isCopied⟩ :=
      Option.bind_eq_some_iff.mp isLater
    obtain ⟨written, isWritten, isMoved⟩ :=
      Option.bind_eq_some_iff.mp isCopied
    obtain ⟨_, -, rfl⟩ := Option.map_eq_some_iff.mp isMoved
    exact
      ⟨rfl, (length_copyString isWritten).2.trans (length_copyFront isFront)⟩
  · obtain ⟨_, -, rfl⟩ := Option.map_eq_some_iff.mp isLater
    exact ⟨rfl, rfl⟩

/-- What every pass keeps of the string behind its first search. -/
theorem kept_pass_succ
    {fuel : Nat} {state later : State}
    (isLater : pass vars deps (fuel + 1) state = some later) :
    ∃ s2 text,
      needResolve state.text state.s = some (s2, text) ∧
        Kept text later.text ∧ later.block.length = state.block.length := by
  induction fuel generalizing state with
  | zero =>
      rw [pass] at isLater
      obtain ⟨⟨s2, text⟩, isNeeded, isLater⟩ :=
        Option.bind_eq_some_iff.mp isLater
      dsimp only at isLater
      split at isLater
      · cases isLater
        exact ⟨s2, text, isNeeded, .refl _, rfl⟩
      · obtain ⟨middle, -, isNone⟩ := Option.bind_eq_some_iff.mp isLater
        cases isNone
  | succ fuel inductionHypothesis =>
      rw [pass] at isLater
      obtain ⟨⟨s2, text⟩, isNeeded, isLater⟩ :=
        Option.bind_eq_some_iff.mp isLater
      dsimp only at isLater
      split at isLater
      · cases isLater
        exact ⟨s2, text, isNeeded, .refl _, rfl⟩
      · obtain ⟨middle, isMiddle, isRest⟩ :=
          Option.bind_eq_some_iff.mp isLater
        obtain ⟨sameText, sameLength⟩ := kept_replace isMiddle
        obtain ⟨_, found, isFound, keptText, keptLength⟩ :=
          inductionHypothesis isRest
        have keptFound := kept_needResolve isFound
        rw [sameText] at keptFound
        exact
          ⟨s2, text, isNeeded, keptFound.trans keptText,
            keptLength.trans sameLength⟩

/-- What every pass keeps. -/
theorem kept_pass
    {fuel : Nat} {state later : State}
    (isLater : pass vars deps fuel state = some later) :
    Kept state.text later.text ∧
      later.block.length = state.block.length := by
  cases fuel with
  | zero => cases isLater
  | succ fuel =>
      obtain ⟨_, _, isNeeded, isKept, sameLength⟩ := kept_pass_succ isLater
      exact ⟨(kept_needResolve isNeeded).trans isKept, sameLength⟩

/-- A pass ends where nothing is needed. -/
theorem pass_of_nothing
    {state : State} {front string rest : List UInt8}
    (isText : state.text = front ++ (string ++ 0 :: rest))
    (isAt : state.s = front.length) (noDollar : 0x24 ∉ string) (fuel : Nat) :
    pass vars deps (fuel + 1) state = some state := by
  have isNeeded : needResolve state.text state.s = some (state.s, state.text) := by
    rw [needResolve, isText, isAt, List.drop_left, scan_string noDollar]
    rfl
  rw [pass, isNeeded, Option.bind_some]
  dsimp only
  rw [Int.sub_self, if_pos (by decide)]

/-- A string with a reference to a bound name, and its end. -/
structure AtReference
    (vars : Table) (state : State) (front plain : List UInt8)
    (name value : CString) (c : UInt8) (rest : List UInt8) : Prop where
  isText :
    state.text =
      front ++ (plain ++ 0x24 :: 0x28 :: (name.bytes ++ c :: rest))
  isAt : state.s = front.length
  isPlain : ∀ c ∈ plain, c ≠ 0 ∧ c ≠ 0x24 ∧ c ≠ 0x0a
  isClose : c = 0x29 ∨ c = 0
  isName : 0x29 ∉ name.bytes
  isBound : vars.hashFind name = some (some (.text value))

/-- The string with the zero behind the name. -/
def ended (front plain : List UInt8) (name : CString) (rest : List UInt8) :
    List UInt8 :=
  front ++ (plain ++ 0x24 :: 0x28 :: (name.bytes ++ 0 :: rest))

variable
  {state : State}
  {front plain rest : List UInt8}
  {name value : CString}
  {c : UInt8}

theorem AtReference.needResolve_eq
    (here : AtReference vars state front plain name value c rest) :
    needResolve state.text state.s =
      some
        (front.length + plain.length + 1, ended front plain name rest) := by
  have isName : ∀ c ∈ name.bytes, c ≠ 0x29 ∧ c ≠ 0 := fun c member =>
    ⟨fun isClose => here.isName (isClose ▸ member),
      fun isNul => name.noNul (isNul ▸ member)⟩
  rw [needResolve, here.isAt, here.isText, List.drop_left,
    scan_append here.isPlain, scan_reference isName here.isClose,
    Option.map_some]
  dsimp only
  congr 2
  rw [ended, List.set_append_right _ _ (by omega),
    List.set_append_right _ _ (by omega)]
  congr 2
  have isClose :
      front.length + plain.length + 2 + name.bytes.length - front.length -
          plain.length =
        name.bytes.length + 1 + 1 := by
    omega
  rw [isClose, List.set_cons_succ, List.set_cons_succ,
    List.set_append_right _ _ (Nat.le_refl _), Nat.sub_self, List.set_cons_zero]

/-- The value of the name is taken. -/
theorem AtReference.pick_eq
    (here : AtReference vars state front plain name value c rest) :
    pick vars deps (ended front plain name rest) state.ss
        (front.length + plain.length + 1) =
      some (some value.bytes) := by
  have isSplit :
      ended front plain name rest =
        (front ++ plain ++ [0x24]) ++ 0x28 :: (name.bytes ++ 0 :: rest) := by
    simp [ended]
  have length :
      (front ++ plain ++ [(0x24 : UInt8)]).length =
        front.length + plain.length + 1 := by
    rw [List.length_append, List.length_append, List.length_singleton]
  have isOpen :
      (ended front plain name rest)[front.length + plain.length + 1]? =
        some 0x28 := by
    rw [isSplit, ← length, List.getElem?_append_right (Nat.le_refl _),
      Nat.sub_self]
    rfl
  have isName :
      stringAt (ended front plain name rest)
          (front.length + plain.length + 1 + 1) =
        name := by
    rw [stringAt, isSplit, ← length, ← List.drop_drop, List.drop_left]
    exact CString.ofBytes_append_nul name rest
  rw [pick, if_pos isOpen, isName, findString, here.isBound]
  rfl

/-- A round at a reference. -/
theorem AtReference.pass_eq
    (here : AtReference vars state front plain name value c rest)
    (few : plain.length + 1 < 2 ^ 31) (fuel : Nat) :
    pass vars deps (fuel + 1) state =
      (replace
          { state with
            text := ended front plain name rest
            ss := some (some value.bytes) }
          (plain.length + 1)).bind (pass vars deps fuel) := by
  have isDistance :
      (((front.length + plain.length + 1 : Nat) : Int) -
            (front.length : Nat)).bmod (2 ^ 32) =
        (plain.length : Int) + 1 := by
    have isDifference :
        ((front.length + plain.length + 1 : Nat) : Int) -
            (front.length : Nat) =
          ((plain.length + 1 : Nat) : Int) := by
      omega
    rw [isDifference, Int.bmod_def]
    omega
  have notZero : ¬ (plain.length : Int) + 1 = 0 := by omega
  rw [pass, here.needResolve_eq, Option.bind_some]
  dsimp only
  rw [here.isAt, isDistance, if_neg notZero, here.pick_eq]

/-! ## Copying a reference -/

/-- Without text in front all of the reference is copied. -/
theorem room_of_string
    {state later : State} {string rest ss : List UInt8} {i : Int}
    (isText : state.text.drop state.s = string ++ 0 :: rest)
    (noNul : 0 ∉ string) (isFewer : i < 2)
    (isCopied : copyReference state i ss = some later) :
    state.m + string.length + ss.length < state.block.length := by
  obtain ⟨copied, isFront, isCopied⟩ := Option.bind_eq_some_iff.mp isCopied
  obtain ⟨written, isWritten, -⟩ := Option.bind_eq_some_iff.mp isCopied
  obtain ⟨hasRoom, -⟩ := length_copyString isWritten
  rw [length_copyFront isFront] at hasRoom
  rw [isText] at isFront
  rw [copyFront_string noNul isFewer isFront] at hasRoom
  exact hasRoom

theorem room_of_front
    {state later : State} {front rest ss : List UInt8} {i : Int}
    (isText : state.text.drop state.s = front ++ rest)
    (noNul : 0 ∉ front) (isTwo : i = (front.length : Int) + 2)
    (isCopied : copyReference state i ss = some later) :
    state.m + front.length + ss.length < state.block.length := by
  obtain ⟨copied, isFront, isCopied⟩ := Option.bind_eq_some_iff.mp isCopied
  obtain ⟨written, isWritten, -⟩ := Option.bind_eq_some_iff.mp isCopied
  obtain ⟨hasRoom, -⟩ := length_copyString isWritten
  rw [length_copyFront isFront] at hasRoom
  rw [isText] at isFront
  rw [copyFront_front noNul isTwo isFront] at hasRoom
  exact hasRoom

/-- The value is behind the text without its last character. -/
theorem exists_copyReference
    {state : State} {front rest ss : List UInt8}
    (isText : state.text = front ++ rest) (isStart : state.s = 0)
    (isEmpty : state.m = 0) (noNul : 0 ∉ front)
    (hasRoom : front.length + ss.length < state.block.length) :
    ∃ block,
      copyReference state ((front.length : Int) + 2) ss =
          some
            { state with
              s := front.length + 4
              block := block
              m := front.length + ss.length } ∧
        block.length = state.block.length ∧ front ++ ss ++ [0] <+: block := by
  obtain ⟨middle, isFront, isMiddle, isOutMiddle⟩ :=
    exists_copyFront (List.nil_prefix (l := state.block)) noNul rest 0
      (by rw [List.length_nil]; omega)
  rw [List.nil_append] at isOutMiddle
  obtain ⟨block, isCopied, isBlock, isOut⟩ :=
    exists_copyString isOutMiddle (isMiddle ▸ hasRoom)
  refine ⟨block, ?_, isBlock.trans isMiddle, isOut⟩
  rw [copyReference, isText, isStart, isEmpty, List.drop_zero]
  rw [List.length_nil] at isFront
  rw [isFront, Option.bind_some]
  dsimp only
  rw [Nat.zero_add, isCopied, Option.bind_some]
  have isMoved :
      (((front.length + 1 : Nat) : Int) + 2 + 1).toNat? =
        some (front.length + 4) := by
    have isNat :
        ((front.length + 1 : Nat) : Int) + 2 + 1 =
          ((front.length + 4 : Nat) : Int) := by
      omega
    rw [isNat]
    rfl
  dsimp only
  rw [isMoved]
  rfl

end Pass

end BinTools.Makefile.Resolve
