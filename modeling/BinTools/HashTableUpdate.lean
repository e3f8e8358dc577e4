import BinTools.HashTable

namespace BinTools.HashTable.Table

/-!
# Overriding a key

`COL_OVERRIDE` lets the value of a key that has a chain point to the chain that
was just allocated.  A key without a chain gets its own, but then a search for
another key whose first different byte is lower by 0x25 finds this chain.
-/

/--
After overriding a key a search for it returns the value, and a search for
another key returns what it returned before.
-/
def OverrideRight
    (table : Table) (key : CString) (value : Option CString) : Prop :=
  ∃ later,
    table.hashSet key value .override = some later ∧
      later.hashFind key = some (value.map .text) ∧
        ∀ other, other ≠ key → later.hashFind other = table.hashFind other

/-- The entries in front of the one that has the key. -/
def inFrontOf (table : Table) (key : CString) : List Entry :=
  (table.entriesOf key).takeWhile fun entry => entry.1 ≠ key

/--
The tables and values for which overriding is right.  An entry in front of the
key's own that is taken for the key has the value; the key has no entry of its
own, unless there is such an entry in front; and every key that its entry would
be taken for is found in front already.
-/
structure OverrideFits
    (table : Table) (key : CString) (value : Option CString) : Prop where
  found :
    ∀ entry ∈ (table.inFrontOf key).find? (takes key),
      entry.2 = value.map .text
  fresh :
    key ∈ (table.entriesOf key).map Prod.fst →
      ∃ entry ∈ table.inFrontOf key, takes key entry = true
  others :
    (key ∉ (table.entriesOf key).map Prod.fst ∧ value = none) ∨
      ∀ other, table.bucketOf other = table.bucketOf key →
        strcmp key other = 0x25 →
          ∃ entry ∈ table.inFrontOf key, takes other entry = true

/-- What holds in every table that calls lead to. -/
structure Reached
    (table : Table) (chains : Nat → List Entry) : Prop where
  represents : table.Represents chains
  hashed : table.hashF ≠ none
  older :
    ∀ bucket < table.bucket.length, ∀ entry ∈ chains bucket,
      ∀ k, entry.2 = some (.chain k) → k < table.chains.length

variable {table : Table} {chains : Nat → List Entry}

/-- The entries of a key are those of its bucket's list. -/
theorem Represents.entriesOf_eq
    (represents : table.Represents chains) (key : CString) :
    table.entriesOf key = chains (table.bucketOf key) := by
  have inRange := represents.inRange key
  obtain ⟨_, lists, holds⟩ := represents
  have followed :=
    (holds.linked _ inRange).follow_eq (holds.length_le inRange)
  have isMap := holds.entries _ inRange
  unfold entriesOf head
  rw [followed, Option.getD_some]
  have isFilter :
      (lists (table.bucketOf key)).filterMap table.entry =
        ((lists (table.bucketOf key)).map table.entry).filterMap id := by
    rw [List.filterMap_map]
    rfl
  rw [isFilter, isMap, List.filterMap_map]
  exact List.filterMap_some

/-- The first table. -/
theorem reached_init
    {nbucket : Nat} (positive : 0 < nbucket) (hashF : CString → U32) :
    (init nbucket hashF).Reached fun _ => [] where
  represents := init_represents positive hashF
  hashed := Option.some_ne_none _
  older := fun _ _ _ member => absurd member List.not_mem_nil

/-- Values of a list after a call. -/
theorem value_of_mem_setEntries
    {fresh : Nat} {key : CString} {value : Option CString}
    {mode : HashCollision} {entries : List Entry} {entry : Entry}
    (member : entry ∈ setEntries fresh key value mode entries) :
    entry ∈ entries ∨ entry.2 = value.map .text ∨
      entry.2 = some (.chain fresh) := by
  induction entries with
  | nil =>
      rw [setEntries, List.mem_singleton] at member
      rw [member]
      exact Or.inr (Or.inl rfl)
  | cons first rest inductionHypothesis =>
      rw [setEntries] at member
      by_cases isKey : ends mode key first = true
      · rw [if_pos isKey] at member
        rcases List.mem_cons.mp member with isFirst | isRest
        · by_cases isOverride : mode = .override
          · rw [if_pos isOverride] at isFirst
            rw [isFirst]
            exact Or.inr (Or.inr rfl)
          · rw [if_neg isOverride] at isFirst
            exact Or.inl (isFirst ▸ List.mem_cons_self)
        · exact Or.inl (List.mem_cons_of_mem _ isRest)
      · rw [if_neg isKey] at member
        rcases List.mem_cons.mp member with isFirst | isRest
        · exact Or.inl (isFirst ▸ List.mem_cons_self)
        · exact
            (inductionHypothesis isRest).imp_left (List.mem_cons_of_mem _)

/-- One more call. -/
theorem Reached.hashSet
    (reached : table.Reached chains) {key : CString}
    {value : Option CString} {mode : HashCollision} {later : Table}
    (isLater : table.hashSet key value mode = some later) :
    later.Reached
      (Function.update chains (table.bucketOf key)
        (setEntries table.chains.length key value mode
          (chains (table.bucketOf key)))) := by
  obtain ⟨sameHash, sameSize, isLonger⟩ := hashSet_frame isLater
  refine
    ⟨reached.represents.hashSet reached.hashed isLater,
      sameHash ▸ reached.hashed, ?_⟩
  intro bucket inRange entry member k isChain
  rw [sameSize] at inRange
  rw [isLonger]
  by_cases isHere : bucket = table.bucketOf key
  · rw [isHere, Function.update_self] at member
    rcases value_of_mem_setEntries member with isOld | isText | isFresh
    · exact
        Nat.lt_succ_of_lt
          (reached.older _ (reached.represents.inRange key) entry isOld k
            isChain)
    · rw [isText] at isChain
      cases value <;> cases isChain
    · rw [isFresh] at isChain
      cases isChain
      exact Nat.lt_succ_self _
  · rw [Function.update_of_ne isHere] at member
    exact
      Nat.lt_succ_of_lt (reached.older bucket inRange entry member k isChain)

/-- Some calls. -/
theorem Reached.hashSets
    {calls : List (CString × Option CString × HashCollision)}
    (reached : table.Reached chains) {later : Table}
    (isLater : table.hashSets calls = some later) :
    ∃ chains, later.Reached chains := by
  induction calls generalizing table chains with
  | nil =>
      cases isLater
      exact ⟨chains, reached⟩
  | cons call calls inductionHypothesis =>
      unfold Table.hashSets at isLater
      rw [List.foldlM_cons] at isLater
      obtain ⟨middle, isMiddle, isRest⟩ := Option.bind_eq_some_iff.mp isLater
      exact inductionHypothesis (reached.hashSet isMiddle) isRest

/-! ## Searching a list -/

/-- The value that a search in a list returns. -/
def searched (entries : List Entry) (key : CString) : Option Value :=
  (entries.find? (takes key)).bind Prod.snd

/-- A search in a list with an entry behind some others. -/
theorem searched_append_cons
    (front back : List Entry) (entry : Entry) (key : CString) :
    searched (front ++ entry :: back) key =
      match front.find? (takes key) with
      | some before => before.2
      | none => if takes key entry then entry.2 else searched back key := by
  unfold searched
  rw [List.find?_append]
  cases front.find? (takes key) with
  | some before => rfl
  | none =>
      rw [Option.none_or, List.find?_cons]
      cases takes key entry <;> rfl

/-- The entry of a key is taken for it. -/
theorem takes_self (key : CString) (value : Option Value) :
    takes key (key, value) = true := by
  simp [takes, (strcmp_eq_zero_iff key key).mpr rfl]

/-- The entry of a key is taken for another key when 0x25 is the difference. -/
theorem takes_of_ne
    {key other : CString} (isOther : other ≠ key) (value : Option Value) :
    takes other (key, value) = true ↔ strcmp key other = 0x25 := by
  have isDifferent : ¬ strcmp key other = 0 := fun isZero =>
    isOther ((strcmp_eq_zero_iff key other).mp isZero).symm
  simp [takes, isDifferent]

/-- Only the entry of a key ends the loop. -/
theorem ends_override_iff (key : CString) (entry : Entry) :
    ends .override key entry = true ↔ entry.1 = key := by
  simp [ends, strcmp_eq_zero_iff]

/-- A key that no entry has is put behind them. -/
theorem setEntries_of_absent
    {entries : List Entry} {key : CString}
    (absent : key ∉ entries.map Prod.fst) (fresh : Nat)
    (value : Option CString) :
    setEntries fresh key value .override entries =
      entries ++ [(key, value.map .text)] := by
  have others : ∀ entry ∈ entries, ends .override key entry = false := by
    intro entry member
    rw [Bool.eq_false_iff, ne_eq, ends_override_iff]
    rintro rfl
    exact absent (List.mem_map_of_mem member)
  conv_lhs => rw [← List.append_nil entries]
  exact setEntries_append others []

/-- The first entry of a key points to the chain afterwards. -/
theorem setEntries_of_split
    {front back : List Entry} {key : CString}
    (absent : key ∉ front.map Prod.fst) (old : Option Value) (fresh : Nat)
    (value : Option CString) :
    setEntries fresh key value .override (front ++ (key, old) :: back) =
      front ++ (key, some (.chain fresh)) :: back := by
  have others : ∀ entry ∈ front, ends .override key entry = false := by
    intro entry member
    rw [Bool.eq_false_iff, ne_eq, ends_override_iff]
    rintro rfl
    exact absent (List.mem_map_of_mem member)
  have isKey : ends .override key (key, old) = true :=
    (ends_override_iff key _).mpr rfl
  rw [setEntries_append others, setEntries, if_pos isKey, if_pos rfl]

/-- No entry of a list is taken for a key. -/
theorem find?_takes_eq_none_iff (entries : List Entry) (key : CString) :
    entries.find? (takes key) = none ↔
      ¬ ∃ entry ∈ entries, takes key entry = true := by
  simp

/-- Searches are right when a key is put behind the entries. -/
theorem searched_concat_iff
    (entries : List Entry) (key : CString) (value : Option CString)
    (sameBucket : CString → Prop) :
    (searched (entries ++ [(key, value.map .text)]) key = value.map .text ∧
        ∀ other, other ≠ key → sameBucket other →
          searched (entries ++ [(key, value.map .text)]) other =
            searched entries other) ↔
      (∀ entry ∈ entries.find? (takes key), entry.2 = value.map .text) ∧
        (value = none ∨
          ∀ other, sameBucket other → strcmp key other = 0x25 →
            ∃ entry ∈ entries, takes other entry = true) := by
  refine and_congr ?_ ?_
  · rw [searched_append_cons, takes_self]
    cases entries.find? (takes key) with
    | some before => simp
    | none => simp
  · constructor
    · intro same
      by_contra isWrong
      push Not at isWrong
      obtain ⟨someValue, other, isSame, isDifference, notTaken⟩ := isWrong
      have isOther : other ≠ key := by
        rintro rfl
        rw [(strcmp_eq_zero_iff other other).mpr rfl] at isDifference
        cases isDifference
      have noEntry : entries.find? (takes other) = none := by
        rw [find?_takes_eq_none_iff]
        rintro ⟨entry, member, isTaken⟩
        exact notTaken entry member isTaken
      have isTaken := (takes_of_ne isOther (value.map .text)).mpr isDifference
      have isSearched := same other isOther isSame
      rw [searched_append_cons, noEntry, isTaken] at isSearched
      unfold searched at isSearched
      rw [noEntry] at isSearched
      exact someValue (Option.map_eq_none_iff.mp isSearched)
    · intro fits other isOther isSame
      rw [searched_append_cons]
      unfold searched
      cases isFound : entries.find? (takes other) with
      | some before => rfl
      | none =>
          have notTaken := (find?_takes_eq_none_iff entries other).mp isFound
          by_cases isDifference : strcmp key other = 0x25
          · have noValue : value = none :=
              fits.resolve_right fun taken =>
                notTaken (taken other isSame isDifference)
            rw [noValue]
            exact ite_self none
          · have isNot : ¬ takes other (key, value.map .text) = true :=
              fun isTaken =>
                isDifference ((takes_of_ne isOther _).mp isTaken)
            exact if_neg isNot

/-- Searches are right when the entry of a key is changed. -/
theorem searched_change_iff
    {front back : List Entry} {key : CString} {old : Option Value}
    {fresh : Nat} (isOlder : old ≠ some (.chain fresh))
    (value : Option CString) (sameBucket : CString → Prop) :
    (searched (front ++ (key, some (.chain fresh)) :: back) key =
          value.map .text ∧
        ∀ other, other ≠ key → sameBucket other →
          searched (front ++ (key, some (.chain fresh)) :: back) other =
            searched (front ++ (key, old) :: back) other) ↔
      ((∀ entry ∈ front.find? (takes key), entry.2 = value.map .text) ∧
          ∃ entry ∈ front, takes key entry = true) ∧
        ∀ other, sameBucket other → strcmp key other = 0x25 →
          ∃ entry ∈ front, takes other entry = true := by
  refine and_congr ?_ ?_
  · rw [searched_append_cons, takes_self]
    cases isFound : front.find? (takes key) with
    | some before =>
        have isTaken : ∃ entry ∈ front, takes key entry = true :=
          ⟨before, List.mem_of_find?_eq_some isFound,
            List.find?_some isFound⟩
        simp [isTaken]
    | none =>
        have notTaken := (find?_takes_eq_none_iff front key).mp isFound
        have notText : some (Value.chain fresh) ≠ value.map .text := by
          cases value <;> simp
        simp [notText, notTaken]
  · constructor
    · intro same other isSame isDifference
      by_contra notTaken
      have isOther : other ≠ key := by
        rintro rfl
        rw [(strcmp_eq_zero_iff other other).mpr rfl] at isDifference
        cases isDifference
      have noEntry := (find?_takes_eq_none_iff front other).mpr notTaken
      have isSearched := same other isOther isSame
      rw [searched_append_cons, searched_append_cons, noEntry,
        (takes_of_ne isOther _).mpr isDifference,
        (takes_of_ne isOther _).mpr isDifference] at isSearched
      exact isOlder isSearched.symm
    · intro taken other isOther isSame
      rw [searched_append_cons, searched_append_cons]
      cases isFound : front.find? (takes other) with
      | some before => rfl
      | none =>
          have notTaken := (find?_takes_eq_none_iff front other).mp isFound
          have isNot (stored : Option Value) :
              ¬ takes other (key, stored) = true := fun isTaken =>
            notTaken
              (taken other isSame ((takes_of_ne isOther stored).mp isTaken))
          simp [isNot]

/-! ## Overriding in a table -/

/-- Overriding a key succeeds. -/
theorem Reached.exists_hashSet
    (reached : table.Reached chains) (key : CString)
    (value : Option CString) :
    ∃ later, table.hashSet key value .override = some later := by
  have represents := reached.represents
  cases isFound :
      (chains (table.bucketOf key)).find? (ends .override key) with
  | none =>
      have absent :
          ∀ entry ∈ chains (table.bucketOf key),
            ends .override key entry = false := by
        simpa using isFound
      by_cases isEmpty : chains (table.bucketOf key) = []
      · obtain ⟨later, isLater, _⟩ :=
          represents.hashSet_of_empty isEmpty value .override reached.hashed
        exact ⟨later, isLater⟩
      · obtain ⟨later, isLater, _⟩ :=
          represents.hashSet_of_absent isEmpty value absent
        exact ⟨later, isLater⟩
  | some here =>
      obtain ⟨isKey, front, back, isSplit, isFirst⟩ :=
        List.find?_eq_some_iff_append.mp isFound
      have others : ∀ entry ∈ front, ends .override key entry = false := by
        simpa using isFirst
      obtain ⟨later, isLater, _⟩ :=
        represents.hashSet_override isSplit others isKey value
      exact ⟨later, isLater⟩

/-- Overriding is right when it is right for the searches in the bucket. -/
theorem Reached.overrideRight_iff_searched
    (reached : table.Reached chains) (key : CString)
    (value : Option CString) :
    table.OverrideRight key value ↔
      searched
            (setEntries table.chains.length key value .override
              (chains (table.bucketOf key)))
            key =
          value.map .text ∧
        ∀ other, other ≠ key → table.bucketOf other = table.bucketOf key →
          searched
              (setEntries table.chains.length key value .override
                (chains (table.bucketOf key)))
              other =
            searched (chains (table.bucketOf key)) other := by
  obtain ⟨later, isLater⟩ := reached.exists_hashSet key value
  have laterReached := reached.hashSet isLater
  obtain ⟨sameHash, sameSize, _⟩ := hashSet_frame isLater
  have sameBuckets (other : CString) :
      later.bucketOf other = table.bucketOf other := by
    rw [bucketOf, bucketOf, sameHash, sameSize]
  have isFound (other : CString) :
      later.hashFind other =
        some
          (searched
            (Function.update chains (table.bucketOf key)
              (setEntries table.chains.length key value .override
                (chains (table.bucketOf key)))
              (table.bucketOf other))
            other) := by
    rw [laterReached.represents.hashFind_eq, sameBuckets, searched]
  have wasFound (other : CString) :
      table.hashFind other =
        some (searched (chains (table.bucketOf other)) other) :=
    reached.represents.hashFind_eq other
  constructor
  · rintro ⟨_, isSame, isRight, isKept⟩
    rw [isLater, Option.some_inj] at isSame
    subst isSame
    rw [isFound, Function.update_self, Option.some_inj] at isRight
    refine ⟨isRight, fun other isOther isSame => ?_⟩
    have isEqual := isKept other isOther
    rwa [isFound, wasFound, isSame, Function.update_self, Option.some_inj]
      at isEqual
  · rintro ⟨isRight, isKept⟩
    refine ⟨later, isLater, ?_, fun other isOther => ?_⟩
    · rw [isFound, Function.update_self, isRight]
    · rw [isFound, wasFound]
      by_cases isSame : table.bucketOf other = table.bucketOf key
      · rw [isSame, Function.update_self, isKept other isOther isSame]
      · rw [Function.update_of_ne isSame]

/-- Overriding is right exactly in the tables and for the values that fit. -/
theorem Reached.overrideRight_iff
    (reached : table.Reached chains) (key : CString)
    (value : Option CString) :
    table.OverrideRight key value ↔ table.OverrideFits key value := by
  have isEntries := reached.represents.entriesOf_eq key
  rw [reached.overrideRight_iff_searched]
  cases isFound :
      (chains (table.bucketOf key)).find? fun entry =>
        decide (entry.1 = key) with
  | none =>
      have isNew :
          ∀ entry ∈ chains (table.bucketOf key), entry.1 ≠ key := by
        simpa using isFound
      have absent : key ∉ (chains (table.bucketOf key)).map Prod.fst := by
        intro member
        obtain ⟨entry, isEntry, isKey⟩ := List.mem_map.mp member
        exact isNew entry isEntry isKey
      have isFront :
          table.inFrontOf key = chains (table.bucketOf key) := by
        rw [inFrontOf, isEntries, List.takeWhile_eq_self_iff]
        simpa using isNew
      rw [setEntries_of_absent absent,
        searched_concat_iff _ _ _ fun other =>
          table.bucketOf other = table.bucketOf key]
      constructor
      · rintro ⟨found, others⟩
        refine ⟨?_, ?_, ?_⟩
        · rwa [isFront]
        · rw [isEntries]
          exact fun member => absurd member absent
        · rw [isFront, isEntries]
          exact others.imp_left fun noValue => ⟨absent, noValue⟩
      · rintro ⟨found, _, others⟩
        rw [isFront] at found others
        exact ⟨found, others.imp_left And.right⟩
  | some here =>
      obtain ⟨isKey, front, back, isSplit, isFirst⟩ :=
        List.find?_eq_some_iff_append.mp isFound
      have isHere : here.1 = key := by simpa using isKey
      have isNew : ∀ entry ∈ front, entry.1 ≠ key := by
        simpa using isFirst
      have absent : key ∉ front.map Prod.fst := by
        intro member
        obtain ⟨entry, isEntry, same⟩ := List.mem_map.mp member
        exact isNew entry isEntry same
      have samePair : here = (key, here.2) := by
        rw [← isHere]
      rw [samePair] at isSplit
      have isFront : table.inFrontOf key = front := by
        rw [inFrontOf, isEntries, isSplit,
          List.takeWhile_append_of_pos (by simpa using isNew),
          List.takeWhile_cons_of_neg (by simp), List.append_nil]
      have isKnown :
          key ∈ (chains (table.bucketOf key)).map Prod.fst := by
        rw [isSplit]
        simp
      have isOlder : here.2 ≠ some (.chain table.chains.length) := by
        intro isChain
        have member : (key, here.2) ∈ chains (table.bucketOf key) := by
          rw [isSplit]
          exact List.mem_append_right _ List.mem_cons_self
        exact
          Nat.lt_irrefl _
            (reached.older _ (reached.represents.inRange key) _ member _
              isChain)
      rw [isSplit, setEntries_of_split absent,
        searched_change_iff isOlder _ fun other =>
          table.bucketOf other = table.bucketOf key]
      constructor
      · rintro ⟨⟨found, isTaken⟩, others⟩
        refine ⟨?_, fun _ => ?_, Or.inr ?_⟩
        · rwa [isFront]
        · rwa [isFront]
        · rwa [isFront]
      · rintro ⟨found, fresh, others⟩
        rw [isEntries] at fresh others
        rw [isFront] at found fresh others
        exact
          ⟨⟨found, fresh isKnown⟩,
            others.resolve_left fun isAbsent => isAbsent.1 isKnown⟩

/--
In every table that calls of `__z__std__hash_set` lead to, overriding a key is
right exactly when the table and the value fit.
-/
theorem overrideRight_iff_overrideFits
    {nbucket : Nat} (positive : 0 < nbucket) (hashF : CString → U32)
    {calls : List (CString × Option CString × HashCollision)}
    (isTable : (init nbucket hashF).hashSets calls = some table)
    (key : CString) (value : Option CString) :
    table.OverrideRight key value ↔ table.OverrideFits key value := by
  obtain ⟨chains, reached⟩ :=
    (reached_init positive hashF).hashSets isTable
  exact reached.overrideRight_iff key value

/-- A hash function with one bucket for a key and one for all others. -/
def apart (key other : CString) : U32 :=
  if other = key then 1 else 0

/-- A key in a bucket of its own. -/
theorem overrideRight_apart :
    (init 2 (apart (CString.ofString "CC"))).OverrideRight
      (CString.ofString "CC") (some (CString.ofString "gcc")) := by
  have isTable :
      (init 2 (apart (CString.ofString "CC"))).hashSets [] =
        some (init 2 (apart (CString.ofString "CC"))) := rfl
  refine
    (overrideRight_iff_overrideFits Nat.two_pos _ isTable _ _).mpr
      ⟨?_, ?_, Or.inr ?_⟩
  · decide +kernel
  · decide +kernel
  · intro other sameBucket isDifference
    exfalso
    have isOther : other ≠ CString.ofString "CC" := by
      rintro rfl
      rw [(strcmp_eq_zero_iff _ _).mpr rfl] at isDifference
      cases isDifference
    have isZero :
        (init 2 (apart (CString.ofString "CC"))).bucketOf other = 0 := by
      simp [bucketOf, init, apart, isOther]
    have isOne :
        (init 2 (apart (CString.ofString "CC"))).bucketOf
            (CString.ofString "CC") =
          1 := by
      decide +kernel
    rw [isZero, isOne] at sameBucket
    cases sameBucket

/-- The second value of a variable is not the one that was set. -/
theorem not_overrideRight_variable :
    ∃ table,
      (init 100 sysvHash).hashSets
            [(CString.ofString "CC", some (CString.ofString "gcc"),
              .override)] =
          some table ∧
        ¬ table.OverrideRight (CString.ofString "CC")
          (some (CString.ofString "clang")) := by
  have isSet :
      ∀ table ∈
        (init 100 sysvHash).hashSets
          [(CString.ofString "CC", some (CString.ofString "gcc"),
            .override)],
        ∀ later ∈
          table.hashSet (CString.ofString "CC")
            (some (CString.ofString "clang")) .override,
          later.hashFind (CString.ofString "CC") =
            some (some (.chain 1)) := by
    decide +kernel
  have isDone :
      ((init 100 sysvHash).hashSets
        [(CString.ofString "CC", some (CString.ofString "gcc"),
          .override)]).isSome = true := by
    decide +kernel
  obtain ⟨table, isTable⟩ := Option.isSome_iff_exists.mp isDone
  refine ⟨table, isTable, ?_⟩
  rintro ⟨later, isLater, isFound, _⟩
  rw [isSet table isTable later isLater] at isFound
  cases isFound

end BinTools.HashTable.Table
