import BinTools.GnuHashAbsent

namespace BinTools.GnuHashTable

/-!
# Looking up names that were exported

A walk over the chain returns the first symbol whose chain word and name both
match.  A name is therefore found at its first symbol exactly when that
symbol's own chain slot holds the hash of the name.
-/

/--
The symbol at an index is the first match of a walk from `head` on: its chain
word has the hash, it has the name, and every symbol on the way whose chain
word has the hash has another name.
-/
structure FirstMatch
    (nameAt : Nat → Option CString) (chain : List U32) (s : CString)
    (head index : Nat) : Prop where
  fromHead : head ≤ index
  inSlot :
    ∃ word, chain[index - 1]? = some word ∧ gnuHash s ||| 1 = word ||| 1
  named : nameAt index = some s
  earlier :
    ∀ i, head ≤ i → i < index →
      ∀ word, chain[i - 1]? = some word → gnuHash s ||| 1 = word ||| 1 →
        ∃ other, nameAt i = some other ∧ other ≠ s

variable {nameAt : Nat → Option CString} {chain : List U32} {s : CString}

/-- A symbol that matches is the first match from itself on. -/
theorem FirstMatch.here
    {i index : Nat} {word : U32}
    (present : chain[i - 1]? = some word)
    (sameHash : gnuHash s ||| 1 = word ||| 1)
    (sameName : nameAt i = some s) :
    FirstMatch nameAt chain s i index ↔ index = i := by
  constructor
  · intro first
    by_contra later
    have fromHead := first.fromHead
    obtain ⟨other, named, differs⟩ :=
      first.earlier i (Nat.le_refl i) (by omega) word present sameHash
    cases sameName.symm.trans named
    exact differs rfl
  · rintro rfl
    exact
      { fromHead := Nat.le_refl _
        inSlot := ⟨word, present, sameHash⟩
        named := sameName
        earlier := fun i fromHead before => by omega }

/-- A symbol of another hash or another name is passed over. -/
theorem FirstMatch.skip
    {i index : Nat} {word : U32}
    (present : chain[i - 1]? = some word)
    (passes :
      gnuHash s ||| 1 = word ||| 1 →
        ∃ other, nameAt i = some other ∧ other ≠ s) :
    FirstMatch nameAt chain s i index ↔
      FirstMatch nameAt chain s (i + 1) index := by
  constructor
  · intro first
    have notHere : i ≠ index := by
      rintro rfl
      obtain ⟨inSlot, there, sameHash⟩ := first.inSlot
      cases present.symm.trans there
      obtain ⟨other, named, differs⟩ := passes sameHash
      cases first.named.symm.trans named
      exact differs rfl
    have fromHead := first.fromHead
    exact
      { fromHead := by omega
        inSlot := first.inSlot
        named := first.named
        earlier := fun j fromNext before =>
          first.earlier j (by omega) before }
  · intro first
    refine
      { fromHead := Nat.le_of_succ_le first.fromHead
        inSlot := first.inSlot
        named := first.named
        earlier := ?_ }
    intro j fromHead before otherWord otherPresent sameHash
    by_cases isHead : j = i
    · subst isHead
      cases present.symm.trans otherPresent
      exact passes sameHash
    · exact
        first.earlier j (by omega) before otherWord otherPresent sameHash

/-- No walk gets past a matching chain word whose name cannot be read. -/
theorem FirstMatch.unreadable
    {i index : Nat} {word : U32}
    (present : chain[i - 1]? = some word)
    (sameHash : gnuHash s ||| 1 = word ||| 1)
    (unnamed : nameAt i = none) :
    ¬ FirstMatch nameAt chain s i index := by
  intro first
  have fromHead := first.fromHead
  by_cases isHead : i = index
  · subst isHead
    cases unnamed.symm.trans first.named
  · obtain ⟨other, named, _⟩ :=
      first.earlier i (Nat.le_refl i) (by omega) word present sameHash
    cases unnamed.symm.trans named

/-- A walk over even chain words returns its first match. -/
theorem gnuWalk_result_eq_some_iff
    {i k : Nat} {words : List U32}
    (evenWords : ∀ word ∈ words, word &&& 1 = 0)
    (realIndex : i ≠ 0)
    (rest : chain.drop (i - 1) = words) :
    (gnuWalk nameAt s (gnuHash s ||| 1) i (i - 1) words).result = some k ↔
      FirstMatch nameAt chain s i k := by
  induction words generalizing i with
  | nil =>
      simp only [gnuWalk, reduceCtorEq, false_iff]
      intro first
      obtain ⟨word, present, _⟩ := first.inSlot
      have inBounds := (List.getElem?_eq_some_iff.mp present).1
      have beyond := List.drop_eq_nil_iff.mp rest
      have fromHead := first.fromHead
      omega
  | cons word restWords inductionHypothesis =>
      have evenHead : ¬ word &&& 1 ≠ 0 := by
        simpa using evenWords word (by simp)
      have present : chain[i - 1]? = some word := by
        have atHead := congrArg (·[0]?) rest
        simpa using atHead
      have restNext : chain.drop (i + 1 - 1) = restWords := by
        have tails := congrArg (List.drop 1) rest
        rw [List.drop_drop, List.drop_one, List.tail_cons] at tails
        rwa [show i - 1 + 1 = i + 1 - 1 by omega] at tails
      have later :=
        inductionHypothesis
          (fun word member => evenWords word (by simp [member]))
          (Nat.succ_ne_zero i) restNext
      rw [show i + 1 - 1 = i - 1 + 1 by omega] at later
      rw [gnuWalk, if_neg evenHead]
      by_cases sameHash : gnuHash s ||| 1 = word ||| 1
      · rw [if_pos sameHash]
        cases named : nameAt i with
        | none =>
            simpa only [reduceCtorEq, false_iff] using
              FirstMatch.unreadable present sameHash named
        | some other =>
            by_cases sameName : other = s
            · subst sameName
              simp [FirstMatch.here present sameHash named, eq_comm]
            · rw [FirstMatch.skip present
                fun _ => ⟨other, named, sameName⟩]
              simpa [sameName] using later
      · rw [if_neg sameHash,
          FirstMatch.skip present fun same => absurd same sameHash]
        exact later

/-- Names that were added are never turned away. -/
theorem not_turnedAway_of_mem
    {table : GnuHashTable} {names : List CString} {name : CString}
    (member : name ∈ names) :
    ¬ table.TurnedAway names name := by
  rintro (clear | clear | empty)
  · exact clear ⟨name, member, rfl, Or.inl rfl⟩
  · exact clear ⟨name, member, rfl, Or.inr rfl⟩
  · exact empty name member rfl

/-- A lookup that is not turned away returns the first match of its walk. -/
theorem Built.findSym2_eq_some_iff
    {names : List CString} {table : GnuHashTable} {exponent : Nat}
    (built : Built names table)
    (positive : 0 < table.nbuckets.toNat)
    (powerOfTwo : table.bloomSize.toNat = 2 ^ exponent)
    (nameAt : Nat → Option CString)
    {name : CString} (walks : ¬ table.TurnedAway names name) (index : Nat) :
    (table.findSym2 nameAt name).result = some index ↔
      FirstMatch nameAt table.chain name
        (table.bucketHead names (table.bucketOf (gnuHash name))) index := by
  have realHead :
      table.bucketHead names (table.bucketOf (gnuHash name)) ≠ 0 := by
    rw [ne_eq, bucketHead_eq_zero_iff]
    exact fun empty => walks (Or.inr (Or.inr empty))
  rw [built.findSym2_eq positive powerOfTwo, if_neg walks]
  exact
    gnuWalk_result_eq_some_iff
      (fun word inRest => built.chainEven word (List.mem_of_mem_drop inRest))
      realHead rfl

/-- A bucket is headed no later than by any name that selects it. -/
theorem bucketHead_le_of_mem
    {table : GnuHashTable} {names : List CString} {name : CString}
    {position : Nat} (present : names[position]? = some name) :
    table.bucketHead names (table.bucketOf (gnuHash name)) ≤ position + 1 := by
  unfold bucketHead
  cases found : names.findIdx?
      (fun other =>
        decide
          (table.bucketOf (gnuHash other) =
            table.bucketOf (gnuHash name))) with
  | none => exact Nat.zero_le _
  | some first =>
      obtain ⟨inBounds, here⟩ := List.getElem?_eq_some_iff.mp present
      obtain ⟨_, _, before⟩ := List.findIdx?_eq_some_iff_getElem.mp found
      simp only [Option.elim_some, Nat.add_le_add_iff_right]
      by_contra later
      have notBefore := before position (by omega)
      simp [here] at notBefore

/-- The first occurrence of an element comes no later than any other. -/
theorem idxOf_le_of_getElem?
    {names : List CString} {name : CString} {position : Nat}
    (present : names[position]? = some name) :
    names.idxOf name ≤ position := by
  induction names generalizing position with
  | nil => simp at present
  | cons first rest inductionHypothesis =>
      by_cases isFirst : first = name
      · simp [isFirst]
      · cases position with
        | zero =>
            simp only [List.getElem?_cons_zero, Option.some.injEq] at present
            exact absurd present isFirst
        | succ position =>
            rw [List.idxOf_cons_ne _ isFirst]
            exact
              Nat.succ_le_succ
                (inductionHypothesis (by simpa using present))

/-- A new name comes behind all earlier ones. -/
theorem idxOf_append_new
    {names : List CString} {name : CString} (unknown : name ∉ names) :
    (names ++ [name]).idxOf name = names.length := by
  rw [List.idxOf_append_of_notMem unknown, List.idxOf_cons_self]
  rfl

/-- The chain slot of a name's first symbol holds the hash of the name. -/
def OwnSlot (names : List CString) (chain : List U32) (name : CString) :
    Prop :=
  ∃ word,
    chain[names.idxOf name]? = some word ∧ gnuHash name ||| 1 = word ||| 1

/--
When the symbols bear their names, an added name is found at its first symbol
exactly when that symbol's own chain slot holds its hash.
-/
theorem Built.findSym2_idxOf_iff
    {names : List CString} {table : GnuHashTable} {exponent : Nat}
    (built : Built names table)
    (positive : 0 < table.nbuckets.toNat)
    (powerOfTwo : table.bloomSize.toNat = 2 ^ exponent)
    (named :
      ∀ position name,
        names[position]? = some name → nameAt (position + 1) = some name)
    {name : CString} (member : name ∈ names) :
    (table.findSym2 nameAt name).result = some (names.idxOf name + 1) ↔
      OwnSlot names table.chain name := by
  have first : names[names.idxOf name]? = some name := by
    rw [List.getElem?_eq_getElem (List.idxOf_lt_length_of_mem member)]
    simp
  rw [built.findSym2_eq_some_iff positive powerOfTwo nameAt
    (not_turnedAway_of_mem member)]
  constructor
  · intro matched
    exact matched.inSlot
  · rintro ⟨word, present, sameHash⟩
    exact
      { fromHead := bucketHead_le_of_mem first
        inSlot := ⟨word, by simpa using present, sameHash⟩
        named := named _ _ first
        earlier := by
          intro i fromHead before _ _ _
          have realIndex : i ≠ 0 := by
            rintro rfl
            have emptyBucket := Nat.le_zero.mp fromHead
            rw [bucketHead_eq_zero_iff] at emptyBucket
            exact emptyBucket name member rfl
          have inNames := List.idxOf_lt_length_of_mem member
          have inBounds : i - 1 < names.length := by omega
          have here : names[i - 1]? = some names[i - 1] :=
            List.getElem?_eq_getElem inBounds
          have position : i - 1 + 1 = i := by omega
          refine ⟨names[i - 1], position ▸ named _ _ here, ?_⟩
          intro sameName
          rw [sameName] at here
          have notBefore := idxOf_le_of_getElem? here
          omega }

/-! ## What adding a name does to the slots of earlier ones -/

/--
The hash of the next name takes no slot away: it is zero once masked, or it
lands in the name's own slot, or the name is a repeated one and the slot it
lands in belongs to another repeated name's symbol.
-/
def KeepsSlots
    (table : GnuHashTable) (names : List CString) (name : CString) : Prop :=
  maskedHash (gnuHash name) = 0 ∨
    ∃ slot ∈ table.landingSlot names (gnuHash name),
      slot = names.length ∨
        name ∈ names ∧ ∃ owner ∈ names[slot]?, names.idxOf owner < slot

instance
    (table : GnuHashTable) (names : List CString) (name : CString) :
    Decidable (KeepsSlots table names name) :=
  inferInstanceAs (Decidable (_ ∨ ∃ slot ∈ _, _ ∨ _ ∧ ∃ owner ∈ _, _))

/-- An even word is told from zero also when its low bit is set. -/
theorem eq_zero_of_or_one_eq
    {word : U32} (even : word &&& 1 = 0) (same : 0 ||| 1 = word ||| 1) :
    word = 0 := by
  apply BitVec.eq_of_getLsbD_eq
  intro i inRange
  have evenBit := congrArg (BitVec.getLsbD · i) even
  have sameBit := congrArg (BitVec.getLsbD · i) same
  by_cases low : i = 0
  · subst low
    simpa using evenBit
  · simpa [low] using sameBit.symm

/-- The slot a hash lands in is zero before. -/
theorem Built.landingSlot_zero
    {names : List CString} {table : GnuHashTable} {gh : U32} {slot : Nat}
    (built : Built names table)
    (room : names.length < table.chain.length)
    (lands : table.landingSlot names gh = some slot) :
    table.chain[slot]? = some 0 := by
  unfold landingSlot at lands
  split at lands
  · cases lands
    exact built.chainClear names.length (Nat.le_refl _) room
  · exact (firstZeroFrom_eq_some_iff.mp lands).2.1

/-- Names keep their slots when a word is stored in a slot nobody needs. -/
theorem ownSlot_append_of_mem
    {names : List CString} {chain : List U32} {name added : CString}
    {slot : Nat} {word : U32}
    (member : name ∈ names)
    (own : OwnSlot names chain name)
    (away : slot ≠ names.idxOf name) :
    OwnSlot (names ++ [added]) (chain.set slot word) name := by
  obtain ⟨stored, present, sameHash⟩ := own
  refine ⟨stored, ?_, sameHash⟩
  rw [List.idxOf_append_of_mem member, List.getElem?_set_ne away]
  exact present

/--
After one more name was added, every name has its own slot exactly when the
hash of the new name took none away.
-/
theorem Built.ownSlots_append_iff
    {names : List CString} {table : GnuHashTable} {name : CString}
    {slot : Nat}
    (built : Built names table)
    (room : names.length < table.chain.length)
    (lands : table.landingSlot names (gnuHash name) = some slot)
    (own : ∀ other ∈ names, OwnSlot names table.chain other) :
    (∀ other ∈ names ++ [name],
        OwnSlot (names ++ [name])
          (table.chain.set slot (maskedHash (gnuHash name))) other) ↔
      KeepsSlots table names name := by
  have slotZero := built.landingSlot_zero room lands
  have inChain := (List.getElem?_eq_some_iff.mp slotZero).1
  have ownZero :=
    built.chainClear names.length (Nat.le_refl _) room
  have atMost : slot ≤ names.length := by
    obtain ⟨_, alsoLands, bound⟩ :=
      built.exists_landingSlot room (gnuHash name)
    cases lands.symm.trans alsoLands
    exact bound
  have storedThere :
      (table.chain.set slot (maskedHash (gnuHash name)))[slot]? =
        some (maskedHash (gnuHash name)) :=
    List.getElem?_set_self inChain
  constructor
  · intro after
    by_cases zeroHash : maskedHash (gnuHash name) = 0
    · exact Or.inl zeroHash
    · refine Or.inr ⟨slot, lands, ?_⟩
      by_contra taken
      obtain ⟨notOwn, repeated⟩ := not_or.mp taken
      by_cases known : name ∈ names
      · -- the slot belonged to the first symbol of a name
        have slotInNames : slot < names.length := by omega
        have owner : names[slot]? = some names[slot] :=
          List.getElem?_eq_getElem slotInNames
        have firstOwner : names.idxOf names[slot] = slot := by
          have notLater := idxOf_le_of_getElem? owner
          by_contra differs
          exact repeated ⟨known, _, owner, by omega⟩
        have ownerMember := List.getElem_mem slotInNames
        obtain ⟨before, beforeThere, beforeHash⟩ := own _ ownerMember
        obtain ⟨later, laterThere, laterHash⟩ :=
          after _ (List.mem_append_left [name] ownerMember)
        rw [firstOwner, slotZero] at beforeThere
        rw [List.idxOf_append_of_mem ownerMember, firstOwner, storedThere]
          at laterThere
        cases beforeThere
        cases laterThere
        exact zeroHash
          (eq_zero_of_or_one_eq (maskedHash_even _)
            (beforeHash.symm.trans laterHash))
      · -- the own slot of a new name stays zero
        obtain ⟨word, present, sameHash⟩ := after name (by simp)
        rw [idxOf_append_new known, List.getElem?_set_ne (by omega), ownZero]
          at present
        cases present
        rw [← maskedHash_or_one] at sameHash
        exact zeroHash
          (eq_zero_of_or_one_eq (maskedHash_even _) sameHash.symm)
  · intro keeps other member
    have newHash :
        gnuHash name ||| 1 = maskedHash (gnuHash name) ||| 1 :=
      (maskedHash_or_one _).symm
    by_cases zeroHash : maskedHash (gnuHash name) = 0
    · -- a zero word is stored over a zero word
      have unchanged :
          table.chain.set slot (maskedHash (gnuHash name)) = table.chain := by
        obtain ⟨inBounds, isZero⟩ := List.getElem?_eq_some_iff.mp slotZero
        rw [zeroHash, ← isZero, List.set_getElem_self]
      rw [unchanged]
      by_cases known : other ∈ names
      · obtain ⟨word, present, sameHash⟩ := own other known
        exact
          ⟨word, by rwa [List.idxOf_append_of_mem known], sameHash⟩
      · have isNew : other = name := by
          simpa [known] using member
        subst isNew
        exact
          ⟨0, by rwa [idxOf_append_new known], by rwa [zeroHash] at newHash⟩
    · obtain ⟨landed, alsoLands, keeps⟩ := keeps.resolve_left zeroHash
      cases lands.symm.trans alsoLands
      by_cases known : other ∈ names
      · refine ownSlot_append_of_mem known (own other known) ?_
        have first := List.idxOf_lt_length_of_mem known
        rcases keeps with ownSlot | ⟨_, owner, ownerThere, repeated⟩
        · omega
        · rintro rfl
          have sameOwner :
              names[names.idxOf other]? = some other := by
            rw [List.getElem?_eq_getElem first]
            simp
          cases ownerThere.symm.trans sameOwner
          exact Nat.lt_irrefl _ repeated
      · have isNew : other = name := by
          simpa [known] using member
        subst isNew
        rcases keeps with rfl | ⟨repeated, _⟩
        · exact
            ⟨_, by rwa [idxOf_append_new known], newHash⟩
        · exact absurd repeated known

end BinTools.GnuHashTable
