import BinTools.GnuHashBuild

namespace BinTools.GnuHashTable

/-!
# Well-formed GNU hash tables

A table that follows the format has the symbols from `symoffset` on, sorted by
their buckets.  A bucket is zero or the first of its symbols, and the chain word
of the last one is odd.  A lookup in such a table answers with the first symbol
of the name.
-/

/-- A hash table over the symbols with these names. -/
structure WellFormed (table : GnuHashTable) (names : List CString) : Prop where
  someBuckets : 0 < table.nbuckets.toNat
  bucketsLength : table.buckets.length = table.nbuckets.toNat
  powerOfTwo : ∃ exponent, table.bloomSize.toNat = 2 ^ exponent
  bloomLength : table.bloomArray.length = table.bloomSize.toNat
  reserved : 0 < table.symoffset.toNat
  chainLength : table.symoffset.toNat + table.chain.length = names.length
  bloomBits :
    ∀ i name, table.symoffset.toNat ≤ i → names[i]? = some name →
      ∀ word ∈ table.bloomArray[table.bloomIndex (gnuHash name / 64)]?,
        word.getLsbD (shift1 (gnuHash name)) = true ∧
          word.getLsbD (table.shift2 (gnuHash name)) = true
  hashes :
    ∀ i name, table.symoffset.toNat ≤ i → names[i]? = some name →
      ∀ word ∈ table.chain[i - table.symoffset.toNat]?,
        word ||| 1 = gnuHash name ||| 1
  empty :
    ∀ i name, table.symoffset.toNat ≤ i → names[i]? = some name →
      table.buckets[table.bucketOf (gnuHash name)]? ≠ some 0
  runs :
    ∀ bucket i, table.buckets[bucket]? = some i → i ≠ 0 →
      ∃ last,
        table.symoffset.toNat ≤ i ∧ i ≤ last ∧ last < names.length ∧
          (∀ k word, i ≤ k → k ≤ last →
            table.chain[k - table.symoffset.toNat]? = some word →
              (word &&& 1 ≠ 0 ↔ k = last)) ∧
          ∀ k name, table.symoffset.toNat ≤ k → names[k]? = some name →
            table.bucketOf (gnuHash name) = bucket → i ≤ k ∧ k ≤ last

/-- The first symbol of the table that has the name. -/
def definedAt
    (table : GnuHashTable) (names : List CString) (s : CString) :
    Option Nat :=
  ((names.drop table.symoffset.toNat).findIdx? fun name => name = s).map
    (table.symoffset.toNat + ·)

variable {table : GnuHashTable} {names : List CString} {s : CString}

/-- What is the first symbol of a name. -/
theorem definedAt_eq_some_iff {k : Nat} :
    table.definedAt names s = some k ↔
      table.symoffset.toNat ≤ k ∧ names[k]? = some s ∧
        ∀ j, table.symoffset.toNat ≤ j → j < k → names[j]? ≠ some s := by
  rw [definedAt, Option.map_eq_some_iff]
  constructor
  · rintro ⟨position, isFirst, rfl⟩
    rw [List.findIdx?_eq_some_iff_getElem] at isFirst
    obtain ⟨inRange, isName, isEarliest⟩ := isFirst
    have inNames : table.symoffset.toNat + position < names.length := by
      rw [List.length_drop] at inRange
      omega
    refine ⟨Nat.le_add_right _ _, ?_, ?_⟩
    · rw [List.getElem?_eq_getElem inNames]
      simpa using isName
    · intro j isFrom isBefore isSame
      obtain ⟨inJ, same⟩ := List.getElem?_eq_some_iff.mp isSame
      have notHere := isEarliest (j - table.symoffset.toNat) (by omega)
      simp [Nat.add_sub_cancel' isFrom, same] at notHere
  · rintro ⟨isFrom, isName, isEarliest⟩
    obtain ⟨inNames, same⟩ := List.getElem?_eq_some_iff.mp isName
    refine ⟨k - table.symoffset.toNat, ?_, by omega⟩
    rw [List.findIdx?_eq_some_iff_getElem]
    refine ⟨by rw [List.length_drop]; omega, ?_, ?_⟩
    · simp [Nat.add_sub_cancel' isFrom, same]
    · intro j isBefore
      have inJ : table.symoffset.toNat + j < names.length := by omega
      have notHere :=
        isEarliest (table.symoffset.toNat + j) (Nat.le_add_right _ _)
          (by omega)
      rw [List.getElem?_eq_getElem inJ] at notHere
      simpa using notHere

/-- No symbol of the table has the name. -/
theorem definedAt_eq_none_iff :
    table.definedAt names s = none ↔
      ∀ j, table.symoffset.toNat ≤ j → names[j]? ≠ some s := by
  rw [definedAt, Option.map_eq_none_iff, List.findIdx?_eq_none_iff]
  constructor
  · intro isAbsent j isFrom isName
    have member : s ∈ names.drop table.symoffset.toNat := by
      refine List.mem_of_getElem? (i := j - table.symoffset.toNat) ?_
      rw [List.getElem?_drop, Nat.add_sub_cancel' isFrom, isName]
    simpa using isAbsent s member
  · intro isAbsent name member
    obtain ⟨position, isPosition⟩ := List.mem_iff_getElem?.mp member
    rw [List.getElem?_drop] at isPosition
    rw [decide_eq_false_iff_not]
    rintro rfl
    exact isAbsent _ (Nat.le_add_right _ _) isPosition

/-- One step of the walk at a symbol that is not the one. -/
theorem WellFormed.gnuWalk_step
    (wellFormed : table.WellFormed names) {i : Nat} {other : CString}
    (isFrom : table.symoffset.toNat ≤ i) (isName : names[i]? = some other)
    (isOther : other ≠ s) :
    ∃ word,
      table.chain[i - table.symoffset.toNat]? = some word ∧
        (gnuWalk (names[·]?) s (gnuHash s ||| 1) i
            (i - table.symoffset.toNat)
            (table.chain.drop (i - table.symoffset.toNat))).result =
          if word &&& 1 ≠ 0 then
            some 0
          else
            (gnuWalk (names[·]?) s (gnuHash s ||| 1) (i + 1)
              (i + 1 - table.symoffset.toNat)
              (table.chain.drop (i + 1 - table.symoffset.toNat))).result := by
  have chainLength := wellFormed.chainLength
  have inNames := (List.getElem?_eq_some_iff.mp isName).1
  have inChain :
      i - table.symoffset.toNat < table.chain.length := by omega
  refine ⟨_, List.getElem?_eq_getElem inChain, ?_⟩
  have isNext :
      i - table.symoffset.toNat + 1 = i + 1 - table.symoffset.toNat := by
    omega
  rw [List.drop_eq_getElem_cons inChain, gnuWalk, isName]
  simp only [isOther, ↓reduceIte, isNext]
  split_ifs <;> rfl

/-- The walk from a symbol of a run to the first one of the name. -/
theorem WellFormed.gnuWalk_eq
    (wellFormed : table.WellFormed names) {last : Nat}
    (inNames : last < names.length) {steps i : Nat}
    (isTarget : i + steps ≤ last) (isFrom : table.symoffset.toNat ≤ i)
    (ends :
      ∀ k word, i ≤ k → k ≤ last →
        table.chain[k - table.symoffset.toNat]? = some word →
          (word &&& 1 ≠ 0 ↔ k = last))
    (isName : names[i + steps]? = some s)
    (isFirst : ∀ j, i ≤ j → j < i + steps → names[j]? ≠ some s) :
    (gnuWalk (names[·]?) s (gnuHash s ||| 1) i (i - table.symoffset.toNat)
      (table.chain.drop (i - table.symoffset.toNat))).result =
        some (i + steps) := by
  have chainLength := wellFormed.chainLength
  induction steps generalizing i with
  | zero =>
      have inChain : i - table.symoffset.toNat < table.chain.length := by
        omega
      have sameHash :=
        wellFormed.hashes i s isFrom isName _
          (List.getElem?_eq_getElem inChain)
      have isHere : names[i]? = some s := isName
      rw [List.drop_eq_getElem_cons inChain, gnuWalk, if_pos sameHash.symm,
        isHere]
      simp
  | succ steps inductionHypothesis =>
      have inHere : i < names.length := by omega
      have isHere := List.getElem?_eq_getElem inHere
      have isOther : names[i] ≠ s := by
        intro same
        rw [same] at isHere
        exact isFirst i (Nat.le_refl i) (by omega) isHere
      obtain ⟨word, isWord, isStep⟩ :=
        wellFormed.gnuWalk_step isFrom isHere isOther
      have isEven : ¬ word &&& 1 ≠ 0 := by
        rw [ends i word (Nat.le_refl i) (by omega) isWord]
        omega
      have isNext : i + 1 + steps = i + (steps + 1) := by omega
      rw [isStep, if_neg isEven, ← isNext]
      refine
        inductionHypothesis (by omega) (by omega)
          (fun k word isBehind => ends k word (by omega)) ?_ ?_
      · rw [isNext]
        exact isName
      · intro j isBehind isBefore
        exact isFirst j (by omega) (by omega)

/-- The walk through a run without the name. -/
theorem WellFormed.gnuWalk_eq_zero
    (wellFormed : table.WellFormed names) {last : Nat}
    (inNames : last < names.length) {steps i : Nat}
    (isLast : i + steps = last) (isFrom : table.symoffset.toNat ≤ i)
    (ends :
      ∀ k word, i ≤ k → k ≤ last →
        table.chain[k - table.symoffset.toNat]? = some word →
          (word &&& 1 ≠ 0 ↔ k = last))
    (isAbsent : ∀ j, i ≤ j → names[j]? ≠ some s) :
    (gnuWalk (names[·]?) s (gnuHash s ||| 1) i (i - table.symoffset.toNat)
      (table.chain.drop (i - table.symoffset.toNat))).result = some 0 := by
  induction steps generalizing i with
  | zero =>
      have inHere : i < names.length := by omega
      have isHere := List.getElem?_eq_getElem inHere
      have isOther : names[i] ≠ s := by
        intro same
        rw [same] at isHere
        exact isAbsent i (Nat.le_refl i) isHere
      obtain ⟨word, isWord, isStep⟩ :=
        wellFormed.gnuWalk_step isFrom isHere isOther
      have isOdd : word &&& 1 ≠ 0 :=
        (ends i word (Nat.le_refl i) (by omega) isWord).mpr (by omega)
      rw [isStep, if_pos isOdd]
  | succ steps inductionHypothesis =>
      have inHere : i < names.length := by omega
      have isHere := List.getElem?_eq_getElem inHere
      have isOther : names[i] ≠ s := by
        intro same
        rw [same] at isHere
        exact isAbsent i (Nat.le_refl i) isHere
      obtain ⟨word, isWord, isStep⟩ :=
        wellFormed.gnuWalk_step isFrom isHere isOther
      have isEven : ¬ word &&& 1 ≠ 0 := by
        rw [ends i word (Nat.le_refl i) (by omega) isWord]
        omega
      rw [isStep, if_neg isEven]
      exact
        inductionHypothesis (by omega) (by omega)
          (fun k word isBehind => ends k word (by omega))
          fun j isBehind => isAbsent j (by omega)

/-- The walk of a bucket answers with the first symbol of the name, or zero. -/
theorem WellFormed.gnuLookup_eq
    (wellFormed : table.WellFormed names) (s : CString) :
    (table.gnuLookup (names[·]?) (gnuHash s) s).result =
      some ((table.definedAt names s).getD 0) := by
  have inBuckets :
      table.bucketOf (gnuHash s) < table.buckets.length := by
    rw [wellFormed.bucketsLength]
    exact bucketOf_lt _ wellFormed.someBuckets
  obtain ⟨i, isBucket⟩ :
      ∃ i, table.buckets[table.bucketOf (gnuHash s)]? = some i :=
    ⟨_, List.getElem?_eq_getElem inBuckets⟩
  rw [gnuLookup, isBucket]
  dsimp only
  cases isDefined : table.definedAt names s with
  | some k =>
      obtain ⟨isFrom, isName, isFirst⟩ := definedAt_eq_some_iff.mp isDefined
      have notZero : i ≠ 0 := by
        rintro rfl
        exact wellFormed.empty k s isFrom isName isBucket
      obtain ⟨last, isStart, _, inNames, ends, all⟩ :=
        wellFormed.runs _ i isBucket notZero
      obtain ⟨isBehind, isBefore⟩ := all k s isFrom isName rfl
      obtain ⟨steps, rfl⟩ := Nat.exists_eq_add_of_le isBehind
      rw [if_neg notZero]
      exact
        wellFormed.gnuWalk_eq inNames isBefore isStart ends isName
          fun j isLater isEarlier => isFirst j (by omega) isEarlier
  | none =>
      have isAbsent := definedAt_eq_none_iff.mp isDefined
      split_ifs with isZero
      · rfl
      · obtain ⟨last, isStart, isRun, inNames, ends, _⟩ :=
          wellFormed.runs _ i isBucket isZero
        obtain ⟨steps, rfl⟩ := Nat.exists_eq_add_of_le isRun
        exact
          wellFormed.gnuWalk_eq_zero inNames rfl isStart ends
            fun j isLater => isAbsent j (by omega)

/-- A lookup answers with the first symbol of the name, or zero. -/
theorem WellFormed.findSym2_eq
    (wellFormed : table.WellFormed names) (s : CString) :
    (table.findSym2 (names[·]?) s).result =
      some ((table.definedAt names s).getD 0) := by
  obtain ⟨exponent, powerOfTwo⟩ := wellFormed.powerOfTwo
  have inWords :
      table.bloomIndex (gnuHash s / 64) < table.bloomArray.length := by
    rw [wellFormed.bloomLength]
    exact bloomIndex_lt _ powerOfTwo
  obtain ⟨f, isWord⟩ :
      ∃ f, table.bloomArray[table.bloomIndex (gnuHash s / 64)]? = some f :=
    ⟨_, List.getElem?_eq_getElem inWords⟩
  have inShift : shift1 (gnuHash s) < 64 := Nat.mod_lt _ (by decide)
  rw [findSym2, gnuLookupFiltered, isWord]
  dsimp only
  cases isDefined : table.definedAt names s with
  | some k =>
      obtain ⟨isFrom, isName, _⟩ := definedAt_eq_some_iff.mp isDefined
      obtain ⟨first, second⟩ :=
        wellFormed.bloomBits k s isFrom isName f isWord
      have firstBit : ¬ f &&& bit (shift1 (gnuHash s)) = 0 := by
        rw [and_bit_eq_zero inShift, first]
        decide
      have secondBit : ¬ (f >>> table.shift2 (gnuHash s)) &&& 1 = 0 := by
        rw [shift_and_one_eq_zero, second]
        decide
      rw [if_neg firstBit, if_neg secondBit, wellFormed.gnuLookup_eq,
        isDefined]
  | none =>
      split_ifs
      · rfl
      · rfl
      · rw [wellFormed.gnuLookup_eq, isDefined]

end BinTools.GnuHashTable
