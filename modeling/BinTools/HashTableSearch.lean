import BinTools.HashTableUpdate

namespace BinTools.HashTable

/-!
# What a search finds

A search takes an entry for a query when the strings are equal or when 0x25 is
the difference of the first bytes that differ.  The second case is meant for the
mark of a pattern, and `COL_ADD` is meant to store the string that it puts
together.
-/

/-! ## Searches -/

/-- The key is the query, or a pattern whose text in front of the mark it is. -/
def Answers (key query : CString) : Prop :=
  key = query ∨ ∃ suffix, key.bytes = query.bytes ++ 0x25 :: suffix

namespace Table

/-- A search only returns the value of an entry that answers the query. -/
def FindSound (table : Table) (query : CString) : Prop :=
  ∀ k, table.walk query (takes query) = some (.hit k) →
    ∃ chain, table.chains[k]? = some chain ∧ Answers chain.key query

/--
The first entry of the bucket that is equal to the query, or where 0x25 is the
difference, starts with the whole query.
-/
def FindFits (table : Table) (query : CString) : Prop :=
  ∀ front here back,
    table.entriesOf query = front ++ here :: back →
      (∀ entry ∈ front, takes query entry = false) →
        strcmp here.1 query = 0x25 → query.bytes <+: here.1.bytes

end Table

/-- Behind the whole query the difference is the first byte that is left. -/
theorem strcmpBytes_append
    (front : List UInt8) (x : UInt8) (rest : List UInt8) :
    strcmpBytes (front ++ x :: rest) front = x := by
  induction front with
  | nil =>
      rw [List.nil_append, strcmpBytes]
      exact UInt8.sub_zero x
  | cons y front inductionHypothesis =>
      rw [List.cons_append, strcmpBytes, if_pos rfl, inductionHypothesis]

/-- An entry that is taken answers exactly when it starts with the query. -/
theorem answers_iff_inFront
    {entry : Entry} {query : CString} (isTaken : takes query entry = true) :
    Answers entry.1 query ↔ query.bytes <+: entry.1.bytes := by
  constructor
  · rintro (rfl | ⟨suffix, isPattern⟩)
    · exact List.prefix_refl _
    · rw [isPattern]
      exact List.prefix_append _ _
  · rintro ⟨rest, isRest⟩
    cases rest with
    | nil =>
        rw [List.append_nil] at isRest
        exact Or.inl (CString.eq_of_bytes_eq isRest.symm)
    | cons x rest =>
        have isDifference : strcmp entry.1 query = x := by
          rw [strcmp, ← isRest]
          exact strcmpBytes_append query.bytes x rest
        have notNul : x ≠ 0 := by
          rintro rfl
          have member : (0 : UInt8) ∈ entry.1.bytes := by
            rw [← isRest]
            exact List.mem_append_right _ List.mem_cons_self
          exact entry.1.noNul member
        have isMark : x = 0x25 := by
          simpa [takes, isDifference, notNul] using isTaken
        refine Or.inr ⟨rest, ?_⟩
        rw [← isRest, isMark]

namespace Table

variable {table : Table} {chains : Nat → List Entry}

/-- A search hits the chain of the first entry that is taken. -/
theorem Represents.exists_hit
    (represents : table.Represents chains) {query : CString} {here : Entry}
    (isFound :
      (chains (table.bucketOf query)).find? (takes query) = some here) :
    ∃ k,
      table.walk query (takes query) = some (.hit k) ∧
        table.entry k = some here := by
  have inRange := represents.inRange query
  obtain ⟨_, lists, holds⟩ := represents
  obtain ⟨isTaken, front, back, isSplit, isFirst⟩ :=
    List.find?_eq_some_iff_append.mp isFound
  have noneTaken : ∀ entry ∈ front, takes query entry = false := by
    simpa using isFirst
  obtain ⟨before, cell, after, isLists, isFront, isHere, _⟩ :=
    holds.split inRange isSplit
  exact
    ⟨cell,
      holds.walk_hit inRange isLists isFront isHere noneTaken isTaken,
      isHere⟩

/-- A chain that a search hits holds the first entry that is taken. -/
theorem Represents.found_of_hit
    (represents : table.Represents chains) {query : CString} {k : Nat}
    (isHit : table.walk query (takes query) = some (.hit k)) :
    ∃ here,
      (chains (table.bucketOf query)).find? (takes query) = some here ∧
        table.entry k = some here := by
  cases isFound : (chains (table.bucketOf query)).find? (takes query) with
  | none =>
      have inRange := represents.inRange query
      obtain ⟨_, lists, holds⟩ := represents
      have noneTaken :
          ∀ entry ∈ chains (table.bucketOf query),
            takes query entry = false := by
        simpa using isFound
      cases (holds.walk_miss inRange noneTaken).symm.trans isHit
  | some here =>
      obtain ⟨other, isOther, isEntry⟩ := represents.exists_hit isFound
      cases isOther.symm.trans isHit
      exact ⟨here, rfl, isEntry⟩

/-- A search is sound when the entry that it takes answers the query. -/
theorem Represents.findSound_iff
    (represents : table.Represents chains) (query : CString) :
    table.FindSound query ↔
      ∀ here ∈ (chains (table.bucketOf query)).find? (takes query),
        Answers here.1 query := by
  constructor
  · intro isSound here isFound
    obtain ⟨k, isHit, isEntry⟩ := represents.exists_hit isFound
    obtain ⟨chain, isChain, answers⟩ := isSound k isHit
    rw [entry, isChain, Option.map_some, Option.some_inj] at isEntry
    rw [← isEntry]
    exact answers
  · intro answers k isHit
    obtain ⟨here, isFound, isEntry⟩ := represents.found_of_hit isHit
    obtain ⟨chain, isChain, rfl⟩ := Option.map_eq_some_iff.mp isEntry
    exact ⟨chain, isChain, answers _ isFound⟩

/--
For every table whose buckets hold lists and every query, a search is sound
exactly when the table and the query fit.
-/
theorem findSound_iff_findFits
    (represents : table.Represents chains) (query : CString) :
    table.FindSound query ↔ table.FindFits query := by
  rw [represents.findSound_iff]
  unfold FindFits
  rw [represents.entriesOf_eq]
  constructor
  · intro answers front here back isSplit noneTaken isDifference
    have isTaken : takes query here = true := by
      simp [takes, isDifference]
    have isFound :
        (chains (table.bucketOf query)).find? (takes query) = some here :=
      List.find?_eq_some_iff_append.mpr
        ⟨isTaken, front, back, isSplit, by simpa using noneTaken⟩
    exact (answers_iff_inFront isTaken).mp (answers here isFound)
  · intro fits here isFound
    obtain ⟨isTaken, front, back, isSplit, isFirst⟩ :=
      List.find?_eq_some_iff_append.mp isFound
    have noneTaken : ∀ entry ∈ front, takes query entry = false := by
      simpa using isFirst
    rw [answers_iff_inFront isTaken]
    by_cases isEqual : strcmp here.1 query = 0
    · have isQuery := (strcmp_eq_zero_iff here.1 query).mp isEqual
      exact isQuery ▸ List.prefix_refl _
    · have isDifference : strcmp here.1 query = 0x25 := by
        simpa [takes, isEqual] using isTaken
      exact fits front here back isSplit noneTaken isDifference

/-- The table of one variable. -/
def oneVariable (name value : String) : Option Table :=
  (init 100 sysvHash).hashSets
    [(CString.ofString name, some (CString.ofString value), .override)]

/-- The only variable is found by its name. -/
theorem findSound_oneVariable :
    ∃ table ∈ oneVariable "CC" "gcc",
      table.FindSound (CString.ofString "CC") := by
  have isOne :
      ∃ table ∈ oneVariable "CC" "gcc",
        table.entriesOf (CString.ofString "CC") =
          [(CString.ofString "CC",
            some (.text (CString.ofString "gcc")))] := by
    decide +kernel
  obtain ⟨table, isTable, isEntry⟩ := isOne
  obtain ⟨chains, reached⟩ :=
    (reached_init (by decide : 0 < 100) sysvHash).hashSets isTable
  refine
    ⟨table, isTable, (findSound_iff_findFits reached.represents _).mpr ?_⟩
  intro front here back isSplit _ isDifference
  have member : here ∈ table.entriesOf (CString.ofString "CC") := by
    rw [isSplit]
    exact List.mem_append_right _ List.mem_cons_self
  rw [isEntry, List.mem_singleton] at member
  rw [member] at isDifference
  exact absurd isDifference (by decide +kernel)

/-- The variable `fI` is found by the name `AA`. -/
theorem not_findSound_oneVariable :
    ∃ table ∈ oneVariable "fI" "x",
      ¬ table.FindSound (CString.ofString "AA") := by
  have isHit :
      ∃ table ∈ oneVariable "fI" "x",
        table.walk (CString.ofString "AA") (takes (CString.ofString "AA")) =
            some (.hit 0) ∧
          (table.chains[0]?).map Chain.key =
            some (CString.ofString "fI") := by
    decide +kernel
  obtain ⟨table, isTable, isHit, isKey⟩ := isHit
  refine ⟨table, isTable, fun isSound => ?_⟩
  obtain ⟨chain, isChain, answers⟩ := isSound 0 isHit
  rw [isChain, Option.map_some, Option.some_inj] at isKey
  rw [isKey] at answers
  rcases answers with isEqual | ⟨suffix, isPattern⟩
  · exact absurd isEqual (by decide +kernel)
  · have isLength := congrArg List.length isPattern
    have isTwo : (CString.ofString "fI").bytes.length = 2 := by
      decide +kernel
    have alsoTwo : (CString.ofString "AA").bytes.length = 2 := by
      decide +kernel
    rw [List.length_append, List.length_cons, isTwo, alsoTwo] at isLength
    omega

/-! ## Appending -/

/-- No string of a list has the terminator. -/
theorem noNul_flatMap (strings : List CString) :
    0 ∉ strings.flatMap CString.bytes := by
  intro member
  obtain ⟨string, _, isNul⟩ := List.mem_flatMap.mp member
  exact string.noNul isNul

/-- The concatenation of some strings. -/
def joined (strings : List CString) : CString :=
  ⟨strings.flatMap CString.bytes, noNul_flatMap strings⟩

/-- One call with `COL_ADD` after the other. -/
def appends (table : Table) (key : CString) (parts : List CString) :
    Option Table :=
  table.hashSets (parts.map fun part => (key, some part, .add))

/-- The key's own entry has the string. -/
def Bound (table : Table) (key s : CString) : Prop :=
  (table.entriesOf key).find? (fun entry => decide (entry.1 = key)) =
    some (key, some (.text s))

/-- After appending, a search for the key returns the concatenation. -/
def AppendRight
    (table : Table) (key s : CString) (parts : List CString) : Prop :=
  ∃ later,
    table.appends key parts = some later ∧
      later.hashFind key = some (some (.text (joined (s :: parts))))

/--
The first entry in front of the key's own that is taken for the key has the
concatenation; without such an entry nothing is appended.
-/
def AppendFits
    (table : Table) (key s : CString) (parts : List CString) : Prop :=
  match (table.inFrontOf key).find? (takes key) with
  | some entry => entry.2 = some (.text (joined (s :: parts)))
  | none => ∀ part ∈ parts, part = .empty

/-- Only the entry of a key ends the loop. -/
theorem ends_add_iff (key : CString) (entry : Entry) :
    ends .add key entry = true ↔ entry.1 = key := by
  simp [ends, strcmp_eq_zero_iff]

/-- Appending to a key with a string succeeds and leaves the lists alone. -/
theorem Represents.hashSet_add_of_text
    (represents : table.Represents chains) {key s : CString}
    (isBound :
      (chains (table.bucketOf key)).find? (fun entry =>
          decide (entry.1 = key)) =
        some (key, some (.text s)))
    (part : CString) :
    ∃ later,
      table.hashSet key (some part) .add = some later ∧
        later.Represents chains ∧
          later.bucketOf key = table.bucketOf key := by
  obtain ⟨_, front, back, isSplit, isFirst⟩ :=
    List.find?_eq_some_iff_append.mp isBound
  have others : ∀ entry ∈ front, ends .add key entry = false := by
    intro entry member
    rw [Bool.eq_false_iff, ne_eq, ends_add_iff]
    simpa using isFirst entry member
  have isKey : ends .add key (key, some (Value.text s)) = true :=
    (ends_add_iff key _).mpr rfl
  obtain ⟨later, isLater⟩ :
      ∃ later, table.hashSet key (some part) .add = some later := by
    have inRange := represents.inRange key
    obtain ⟨_, lists, holds⟩ := represents
    have someHead : ¬ table.head key = none := by
      intro noHead
      have noEntries := (holds.head_eq_none_iff inRange).mp noHead
      rw [isSplit] at noEntries
      exact
        List.append_ne_nil_of_right_ne_nil _ (List.cons_ne_nil _ _) noEntries
    obtain ⟨before, cell, after, isLists, isFront, isHere, _⟩ :=
      holds.split inRange isSplit
    have isWalk : table.walk key (ends .add key) = some (.hit cell) :=
      holds.walk_hit inRange isLists isFront isHere others isKey
    obtain ⟨chain, isChain, isEntry⟩ := Option.map_eq_some_iff.mp isHere
    have isText : chain.value = some (.text s) := congrArg Prod.snd isEntry
    rw [Table.hashSet, if_neg someHead, isWalk, Option.bind_some]
    dsimp only
    rw [if_neg (by decide), isChain, Option.bind_some, isText,
      if_neg (by simp)]
    exact ⟨_, rfl⟩
  obtain ⟨sameHash, sameSize, _⟩ := hashSet_frame isLater
  refine
    ⟨later, isLater, represents.hashSet_add isSplit others isKey isLater, ?_⟩
  rw [bucketOf, bucketOf, sameHash, sameSize]

/-- The same for some strings. -/
theorem Represents.appends_of_text
    (represents : table.Represents chains) {key s : CString}
    (isBound :
      (chains (table.bucketOf key)).find? (fun entry =>
          decide (entry.1 = key)) =
        some (key, some (.text s)))
    (parts : List CString) :
    ∃ later,
      table.appends key parts = some later ∧
        later.Represents chains ∧
          later.bucketOf key = table.bucketOf key := by
  induction parts generalizing table with
  | nil => exact ⟨table, rfl, represents, rfl⟩
  | cons part parts inductionHypothesis =>
      obtain ⟨middle, isMiddle, middleRepresents, sameBucket⟩ :=
        represents.hashSet_add_of_text isBound part
      rw [← sameBucket] at isBound
      obtain ⟨later, isLater, laterRepresents, alsoSame⟩ :=
        inductionHypothesis middleRepresents isBound
      refine
        ⟨later, ?_, laterRepresents, alsoSame.trans sameBucket⟩
      unfold appends Table.hashSets
      rw [List.map_cons, List.foldlM_cons, isMiddle]
      exact isLater

/-- Nothing is appended exactly when the concatenation is the first string. -/
theorem joined_eq_iff (s : CString) (parts : List CString) :
    s = joined (s :: parts) ↔ ∀ part ∈ parts, part = .empty := by
  have isBytes :
      (joined (s :: parts)).bytes = s.bytes ++ parts.flatMap CString.bytes :=
    rfl
  constructor
  · intro isJoined part member
    have sameBytes := congrArg CString.bytes isJoined
    rw [isBytes, List.self_eq_append_right, List.flatMap_eq_nil_iff]
      at sameBytes
    exact CString.eq_of_bytes_eq (sameBytes part member)
  · intro areEmpty
    have noBytes : parts.flatMap CString.bytes = [] := by
      rw [List.flatMap_eq_nil_iff]
      intro part member
      rw [areEmpty part member]
      rfl
    apply CString.eq_of_bytes_eq
    rw [isBytes, noBytes, List.append_nil]

/--
In every table that calls of `__z__std__hash_set` lead to, for every key with a
string, appending some strings is right exactly when they fit.
-/
theorem appendRight_iff_appendFits
    {nbucket : Nat} (positive : 0 < nbucket) (hashF : CString → U32)
    {calls : List (CString × Option CString × HashCollision)}
    (isTable : (init nbucket hashF).hashSets calls = some table)
    {key s : CString} (bound : table.Bound key s) (parts : List CString) :
    table.AppendRight key s parts ↔ table.AppendFits key s parts := by
  obtain ⟨chains, reached⟩ :=
    (reached_init positive hashF).hashSets isTable
  have represents := reached.represents
  have isEntries := represents.entriesOf_eq key
  unfold Bound at bound
  rw [isEntries] at bound
  obtain ⟨later, isLater, laterRepresents, sameBucket⟩ :=
    represents.appends_of_text bound parts
  have isRight :
      table.AppendRight key s parts ↔
        searched (chains (table.bucketOf key)) key =
          some (.text (joined (s :: parts))) := by
    have isFound := laterRepresents.hashFind_eq key
    rw [sameBucket] at isFound
    unfold AppendRight
    rw [isLater]
    simp only [Option.some_inj, exists_eq_left']
    rw [isFound, Option.some_inj]
    rfl
  obtain ⟨_, front, back, isSplit, isFirst⟩ :=
    List.find?_eq_some_iff_append.mp bound
  have isNew : ∀ entry ∈ front, entry.1 ≠ key := by
    simpa using isFirst
  have isFront : table.inFrontOf key = front := by
    rw [inFrontOf, isEntries, isSplit,
      List.takeWhile_append_of_pos (by simpa using isNew),
      List.takeWhile_cons_of_neg (by simp), List.append_nil]
  rw [isRight, isSplit, searched_append_cons, takes_self, AppendFits, isFront]
  cases front.find? (takes key) with
  | some before => exact Iff.rfl
  | none =>
      rw [← joined_eq_iff s parts]
      simp

/-- Appending nothing is right. -/
theorem appendRight_oneVariable :
    ∃ table ∈ oneVariable "CC" "gcc",
      table.AppendRight (CString.ofString "CC") (CString.ofString "gcc")
        [.empty] := by
  have isOne :
      ∃ table ∈ oneVariable "CC" "gcc",
        (table.entriesOf (CString.ofString "CC")).find? (fun entry =>
              decide (entry.1 = CString.ofString "CC")) =
            some (CString.ofString "CC",
              some (.text (CString.ofString "gcc"))) ∧
          (table.inFrontOf (CString.ofString "CC")).find?
              (takes (CString.ofString "CC")) =
            none := by
    decide +kernel
  obtain ⟨table, isTable, bound, noneInFront⟩ := isOne
  refine
    ⟨table, isTable,
      (appendRight_iff_appendFits (by decide : 0 < 100) sysvHash isTable bound
        [.empty]).mpr ?_⟩
  unfold AppendFits
  rw [noneInFront]
  simp

/-- A string that is appended is lost. -/
theorem not_appendRight_oneVariable :
    ∃ table ∈ oneVariable "CC" "gcc",
      table.Bound (CString.ofString "CC") (CString.ofString "gcc") ∧
        ¬ table.AppendRight (CString.ofString "CC")
            (CString.ofString "gcc") [CString.ofString " -O2"] := by
  have isOne :
      ∃ table ∈ oneVariable "CC" "gcc",
        (table.entriesOf (CString.ofString "CC")).find? (fun entry =>
              decide (entry.1 = CString.ofString "CC")) =
            some (CString.ofString "CC",
              some (.text (CString.ofString "gcc"))) ∧
          ((table.appends (CString.ofString "CC")
                [CString.ofString " -O2"]).bind fun later =>
              later.hashFind (CString.ofString "CC")) =
            some (some (.text (CString.ofString "gcc"))) := by
    decide +kernel
  obtain ⟨table, isTable, bound, isFound⟩ := isOne
  refine ⟨table, isTable, bound, ?_⟩
  rintro ⟨later, isLater, isRight⟩
  rw [isLater, Option.bind_some, isRight] at isFound
  exact absurd isFound (by decide +kernel)

end Table

end BinTools.HashTable
