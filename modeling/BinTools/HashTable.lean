import BinTools.HashChains
import BinTools.NameHash

namespace BinTools.HashTable

/-!
# Hash tables of the build tool

`__z__std__hash_set` and `__z__std__hash_find` keep keys with their values in
chains.  Strings are compared with `__z__std__strcmp`, which returns the
difference of two bytes as a byte; a search takes the difference 0x25 for a
match as well.  Buckets are zero at first, as a fresh mapping is.
-/

/-- `__z__std__strcmp`: the difference of the first bytes that differ. -/
def strcmpBytes : List UInt8 → List UInt8 → UInt8
  | x :: xs, y :: ys => if x = y then strcmpBytes xs ys else x - y
  | x :: _, [] => x - 0
  | [], y :: _ => 0 - y
  | [], [] => 0 - 0

/-- `strcmp` -/
def strcmp (p1 p2 : CString) : UInt8 :=
  strcmpBytes p1.bytes p2.bytes

/-- `enum hash_collision` -/
inductive HashCollision where
  | nostrcmp
  | override
  | add
  | raiseError
  deriving DecidableEq, Repr

/-- What a `char*` that is not null points to: a string, or a chain. -/
inductive Value where
  | text (string : CString)
  | chain (index : Nat)
  deriving DecidableEq, Repr

/-- `chain`; pointers to chains are their numbers. -/
structure Chain where
  key : CString
  value : Option Value
  next : Option Nat
  deriving DecidableEq, Repr

/-- `hash_table` with all chains that were allocated. -/
structure Table where
  bucket : List (Option Nat)
  hashF : Option (CString → U32)
  chains : List Chain

/-- A key with its value. -/
abbrev Entry := CString × Option Value

/-- What a chain holds. -/
def Chain.entry (chain : Chain) : Entry :=
  (chain.key, chain.value)

/-- `__z__std__hash_find` takes the chain of a key for another key. -/
def takes (key : CString) (entry : Entry) : Bool :=
  let r := strcmp entry.1 key
  r = 0 ∨ r = 0x25

/-- A chain of the same key ends the loop of `__z__std__hash_set`. -/
def ends (mode : HashCollision) (key : CString) (entry : Entry) : Bool :=
  match mode with
  | .override | .add => strcmp entry.1 key = 0
  | .nostrcmp | .raiseError => false

namespace Table

/-- A table without entries. -/
def init (nbucket : Nat) (hashF : CString → U32) : Table where
  bucket := List.replicate nbucket none
  hashF := some hashF
  chains := []

/-- The chain behind a chain. -/
def next (table : Table) (k : Nat) : Option Nat :=
  (table.chains[k]?).bind Chain.next

/-- What a chain of the table holds. -/
def entry (table : Table) (k : Nat) : Option Entry :=
  (table.chains[k]?).map Chain.entry

/-- The bucket of a key. -/
def bucketOf (table : Table) (key : CString) : Nat :=
  (table.hashF.elim (sysvHash key) fun hashF => hashF key).toNat %
    table.bucket.length

/-- The first chain of a bucket. -/
def head (table : Table) (key : CString) : Option Nat :=
  table.bucket.getD (table.bucketOf key) none

/-- The chains of a key's bucket up to the first that is picked. -/
def walk (table : Table) (key : CString) (pick : Entry → Bool) :
    Option PointerList.Walk :=
  PointerList.walk table.next (fun k => (table.entry k).map pick)
    table.chains.length none (table.head key)

/-- The value of the first chain of a bucket that is picked, or null. -/
def find (table : Table) (bucket : Nat) (pick : Entry → Bool) :
    Option (Option Value) :=
  (PointerList.walk table.next (fun k => (table.entry k).map pick)
    table.chains.length none (table.bucket.getD bucket none)).bind fun
      | .hit k => (table.chains[k]?).map Chain.value
      | .miss _ => some none

/-- `__z__std__hash_find`; a null pointer is `none`. -/
def hashFind (table : Table) (key : CString) : Option (Option Value) :=
  (table.walk key (takes key)).bind fun
    | .hit k => (table.chains[k]?).map Chain.value
    | .miss _ => some none

/--
`__z__std__hash_set`.  A table without a hash function calls it for the log
when the bucket is empty.  `COL_ADD` reads both strings, and stores none.
-/
def hashSet
    (table : Table) (key : CString) (value : Option CString)
    (mode : HashCollision) : Option Table :=
  let newC : Chain :=
    { key := key, value := value.map .text, next := none }
  if table.head key = none then
    table.hashF.map fun _ =>
      { table with
        bucket :=
          table.bucket.set (table.bucketOf key) (some table.chains.length)
        chains := table.chains ++ [newC] }
  else
    (table.walk key (ends mode key)).bind fun
      | .hit k =>
          if mode = .override then
            some
              { table with
                chains :=
                  (table.chains.modify k fun c =>
                    { c with value := some (.chain table.chains.length) }) ++
                    [newC] }
          else
            (table.chains[k]?).bind fun c =>
              if c.value = none ∨ value = none then
                none
              else
                some { table with chains := table.chains ++ [newC] }
      | .miss last =>
          last.map fun k =>
            { table with
              chains :=
                (table.chains.modify k fun c =>
                  { c with next := some table.chains.length }) ++ [newC] }

/-- Some calls of `__z__std__hash_set`. -/
def hashSets
    (table : Table)
    (calls : List (CString × Option CString × HashCollision)) :
    Option Table :=
  calls.foldlM
    (fun (table : Table) (call : CString × Option CString × HashCollision) =>
      table.hashSet call.1 call.2.1 call.2.2)
    table

/-- The entries in the bucket of a key, in the order of the chains. -/
def entriesOf (table : Table) (key : CString) : List Entry :=
  ((PointerList.follow table.next table.chains.length
    (table.head key)).getD []).filterMap table.entry

end Table

/-! ## Comparing strings -/

/-- Only equal strings compare as zero. -/
theorem strcmpBytes_eq_zero_iff
    {xs ys : List UInt8} (noNulLeft : 0 ∉ xs) (noNulRight : 0 ∉ ys) :
    strcmpBytes xs ys = 0 ↔ xs = ys := by
  induction xs generalizing ys with
  | nil =>
      cases ys with
      | nil => simp [strcmpBytes]
      | cons y ys =>
          have notNul : y ≠ 0 := fun isNul =>
            noNulRight (isNul ▸ List.mem_cons_self)
          have isDifferent : strcmpBytes [] (y :: ys) ≠ 0 := by
            rw [strcmpBytes]
            grind
          simp [isDifferent]
  | cons x xs inductionHypothesis =>
      have notNul : x ≠ 0 := fun isNul =>
        noNulLeft (isNul ▸ List.mem_cons_self)
      cases ys with
      | nil =>
          have isDifferent : strcmpBytes (x :: xs) [] ≠ 0 := by
            rw [strcmpBytes]
            grind
          simp [isDifferent]
      | cons y ys =>
          by_cases same : x = y
          · have restIff :=
              inductionHypothesis
                (fun member => noNulLeft (List.mem_cons_of_mem _ member))
                (fun member => noNulRight (List.mem_cons_of_mem _ member))
            simp [strcmpBytes, same, restIff]
          · have isDifferent : ¬ (x - y = 0) := by grind
            simp [strcmpBytes, same, isDifferent]

/-- Only equal strings compare as zero. -/
theorem strcmp_eq_zero_iff (p1 p2 : CString) :
    strcmp p1 p2 = 0 ↔ p1 = p2 := by
  rw [strcmp, strcmpBytes_eq_zero_iff p1.noNul p2.noNul]
  exact ⟨CString.eq_of_bytes_eq, fun same => same ▸ rfl⟩

/-! ## Chains as lists -/

/--
What `__z__std__hash_set` makes of the list of a bucket; `fresh` is the chain
that it allocates.
-/
def setEntries
    (fresh : Nat) (key : CString) (value : Option CString)
    (mode : HashCollision) : List Entry → List Entry
  | [] => [(key, value.map .text)]
  | entry :: rest =>
      if ends mode key entry then
        (if mode = .override then (entry.1, some (.chain fresh)) else entry) ::
          rest
      else
        entry :: setEntries fresh key value mode rest

/-- Entries that do not end the loop stay in front. -/
theorem setEntries_append
    {fresh : Nat} {key : CString} {value : Option CString}
    {mode : HashCollision} {front : List Entry}
    (others : ∀ entry ∈ front, ends mode key entry = false)
    (rest : List Entry) :
    setEntries fresh key value mode (front ++ rest) =
      front ++ setEntries fresh key value mode rest := by
  induction front with
  | nil => rfl
  | cons entry front inductionHypothesis =>
      have isOther : ¬ ends mode key entry = true := by
        simp [others entry List.mem_cons_self]
      have restOthers := fun entry member =>
        others entry (List.mem_cons_of_mem _ member)
      rw [List.cons_append, setEntries, if_neg isOther,
        inductionHypothesis restOthers, List.cons_append]

namespace Table

/-- The chains of the buckets are these lists. -/
def Represents (table : Table) (chains : Nat → List Entry) : Prop :=
  0 < table.bucket.length ∧
    ∃ lists,
      HashChains.Holds table.bucket table.next table.chains.length lists
        table.entry chains

/-- The first table has no entries. -/
theorem init_represents
    {nbucket : Nat} (positive : 0 < nbucket) (hashF : CString → U32) :
    (init nbucket hashF).Represents fun _ => [] := by
  refine ⟨?_, fun _ => [], HashChains.holds_empty _ _ _⟩
  rwa [init, List.length_replicate]

variable {table : Table} {chains : Nat → List Entry}

/-- A key has a bucket. -/
theorem Represents.inRange
    (represents : table.Represents chains) (key : CString) :
    table.bucketOf key < table.bucket.length :=
  Nat.mod_lt _ represents.1

/-- A search in a bucket answers with the first entry that is picked. -/
theorem Represents.find_eq
    (represents : table.Represents chains) {bucket : Nat}
    (inRange : bucket < table.bucket.length) (pick : Entry → Bool) :
    table.find bucket pick =
      some (((chains bucket).find? pick).bind Prod.snd) := by
  obtain ⟨_, lists, holds⟩ := represents
  cases isFound : (chains bucket).find? pick with
  | none =>
      have noPick : ∀ entry ∈ chains bucket, pick entry = false := by
        simpa using isFound
      rw [find, holds.walk_miss inRange noPick]
      rfl
  | some here =>
      obtain ⟨isPick, front, back, isSplit, isFirst⟩ :=
        List.find?_eq_some_iff_append.mp isFound
      have noPick : ∀ entry ∈ front, pick entry = false := by
        simpa using isFirst
      obtain ⟨before, cell, after, isLists, isFront, isHere, _⟩ :=
        holds.split inRange isSplit
      rw [find, holds.walk_hit inRange isLists isFront isHere noPick isPick]
      obtain ⟨chain, isChain, rfl⟩ := Option.map_eq_some_iff.mp isHere
      simp only [Option.bind_some, isChain, Option.map_some]
      rfl

/-- A search answers with the first entry that is taken for the key. -/
theorem Represents.hashFind_eq
    (represents : table.Represents chains) (key : CString) :
    table.hashFind key =
      some
        (((chains (table.bucketOf key)).find? (takes key)).bind
          Prod.snd) :=
  represents.find_eq (represents.inRange key) (takes key)

/-- What the chains hold after one was allocated. -/
theorem entry_concat
    (chains : List Chain) (chain : Chain) {k : Nat}
    (isOld : k < chains.length) :
    ((chains ++ [chain])[k]?).map Chain.entry =
      (chains[k]?).map Chain.entry := by
  rw [List.getElem?_append_left isOld]

/-- A key in an empty bucket. -/
theorem Represents.hashSet_of_empty
    (represents : table.Represents chains) {key : CString}
    (isEmpty : chains (table.bucketOf key) = [])
    (value : Option CString) (mode : HashCollision)
    (hashed : table.hashF ≠ none) :
    ∃ later,
      table.hashSet key value mode = some later ∧
        later.Represents
          (Function.update chains (table.bucketOf key)
            [(key, value.map .text)]) := by
  have inRange := represents.inRange key
  obtain ⟨positive, lists, holds⟩ := represents
  have noHead : table.head key = none :=
    (holds.head_eq_none_iff inRange).mpr isEmpty
  obtain ⟨hashF, isHashF⟩ := Option.ne_none_iff_exists'.mp hashed
  refine
    ⟨_, by rw [hashSet, if_pos noHead, isHashF, Option.map_some], ?_⟩
  have noCells := holds.entries _ inRange
  rw [isEmpty, List.map_nil, List.map_eq_nil_iff] at noCells
  refine
    ⟨by simpa using positive,
      Function.update lists (table.bucketOf key) [table.chains.length], ?_⟩
  rw [List.length_append, List.length_singleton]
  refine holds.start inRange noCells ?_ ?_ ?_ ?_
  · simp [next]
  · intro cell _
    exact PointerList.link_append rfl cell
  · simp [entry, Chain.entry]
  · intro cell isOld
    exact entry_concat _ _ isOld

/-- The chain that a call of `__z__std__hash_set` allocates. -/
def newChain (key : CString) (value : Option CString) : Chain where
  key := key
  value := value.map .text
  next := none

/-- A key behind the last chain of a bucket. -/
theorem Represents.hashSet_of_absent
    (represents : table.Represents chains) {key : CString}
    (someEntries : chains (table.bucketOf key) ≠ [])
    (value : Option CString) {mode : HashCollision}
    (absent :
      ∀ entry ∈ chains (table.bucketOf key), ends mode key entry = false) :
    ∃ later,
      table.hashSet key value mode = some later ∧
        later.Represents
          (Function.update chains (table.bucketOf key)
            (chains (table.bucketOf key) ++ [(key, value.map .text)])) := by
  have inRange := represents.inRange key
  obtain ⟨positive, lists, holds⟩ := represents
  have someHead : ¬ table.head key = none := fun noHead =>
    someEntries ((holds.head_eq_none_iff inRange).mp noHead)
  obtain ⟨front, last, isLast⟩ :=
    (List.eq_nil_or_concat' _).resolve_left someEntries
  obtain ⟨before, cell, after, isLists, isFront, isHere, isBack⟩ :=
    holds.split inRange isLast
  have noAfter : after = [] := List.map_eq_nil_iff.mp isBack
  have isWalk : table.walk key (ends mode key) = some (.miss (some cell)) := by
    refine (holds.walk_miss inRange absent).trans ?_
    rw [isLists, noAfter]
    simp
  have isCell : cell < table.chains.length := by
    apply holds.inside _ inRange
    rw [isLists]
    exact List.mem_append_right _ List.mem_cons_self
  refine
    ⟨{ table with
        chains :=
          (table.chains.modify cell fun c =>
            { c with next := some table.chains.length }) ++
            [newChain key value] },
      by rw [hashSet, if_neg someHead, isWalk]; rfl, positive,
      Function.update lists (table.bucketOf key)
        (before ++ [cell] ++ [table.chains.length]), ?_⟩
  rw [List.length_append, List.length_modify, List.length_singleton, isLast]
  refine holds.redirect inRange isLists isFront isHere ?_ ?_ ?_ ?_ ?_
  · refine (PointerList.link_append rfl cell).trans ?_
    refine (PointerList.link_modify isCell (fun _ => rfl) cell).trans ?_
    exact if_pos rfl
  · simp [next, newChain]
  · intro other _ isOther
    refine (PointerList.link_append rfl other).trans ?_
    refine (PointerList.link_modify isCell (fun _ => rfl) other).trans ?_
    exact if_neg isOther
  · simp [entry, newChain, Chain.entry]
  · intro other isOld
    have inChains :
        other < (table.chains.modify cell fun c =>
          { c with next := some table.chains.length }).length := by
      rwa [List.length_modify]
    have sameEntries :
        (table.chains.modify cell fun c =>
            { c with next := some table.chains.length }).map Chain.entry =
          table.chains.map Chain.entry :=
      PointerList.map_modify_of_kept _ _ fun _ => rfl
    refine (entry_concat _ _ inChains).trans ?_
    rw [← List.getElem?_map, sameEntries, List.getElem?_map]
    rfl

/-- A key that has a chain gets a value that points to the new chain. -/
theorem Represents.hashSet_override
    (represents : table.Represents chains) {key : CString}
    {front back : List Entry} {here : Entry}
    (isSplit : chains (table.bucketOf key) = front ++ here :: back)
    (others : ∀ entry ∈ front, ends .override key entry = false)
    (isKey : ends .override key here = true) (value : Option CString) :
    ∃ later,
      table.hashSet key value .override = some later ∧
        later.Represents
          (Function.update chains (table.bucketOf key)
            (front ++
              (here.1, some (.chain table.chains.length)) :: back)) := by
  have inRange := represents.inRange key
  obtain ⟨positive, lists, holds⟩ := represents
  have someHead : ¬ table.head key = none := by
    intro noHead
    have noEntries := (holds.head_eq_none_iff inRange).mp noHead
    rw [isSplit] at noEntries
    exact
      List.append_ne_nil_of_right_ne_nil _ (List.cons_ne_nil _ _) noEntries
  obtain ⟨before, cell, after, isLists, isFront, isHere, isBack⟩ :=
    holds.split inRange isSplit
  have isWalk : table.walk key (ends .override key) = some (.hit cell) :=
    holds.walk_hit inRange isLists isFront isHere others isKey
  refine
    ⟨{ table with
        chains :=
          (table.chains.modify cell fun c =>
            { c with value := some (.chain table.chains.length) }) ++
            [newChain key value] },
      by rw [hashSet, if_neg someHead, isWalk]; rfl, positive, lists, ?_⟩
  rw [List.length_append, List.length_modify, List.length_singleton]
  let modified : Table :=
    { table with
      chains :=
        table.chains.modify cell fun c =>
          { c with value := some (.chain table.chains.length) } }
  have isChanged :
      HashChains.Holds table.bucket modified.next table.chains.length lists
        modified.entry
        (Function.update chains (table.bucketOf key)
          (front ++ (here.1, some (.chain table.chains.length)) :: back)) := by
    refine holds.change inRange isLists isFront isBack ?_ ?_ ?_
    · intro one _
      have sameLink (c : Chain) :
          Chain.next { c with value := some (.chain table.chains.length) } =
            c.next := rfl
      exact PointerList.link_modify_of_kept cell sameLink one
    · obtain ⟨chain, isChain, rfl⟩ := Option.map_eq_some_iff.mp isHere
      simp [modified, entry, isChain, Chain.entry]
    · intro one _ isOther
      simp [modified, entry, List.getElem?_modify_ne _ _ (Ne.symm isOther)]
  have isLength : modified.chains.length = table.chains.length :=
    List.length_modify ..
  refine
    isChanged.skip (fun one _ => PointerList.link_append rfl one)
      fun one isOld => ?_
  rw [← isLength] at isOld
  exact entry_concat _ _ isOld

/-- A key that has a chain is not changed by `COL_ADD`. -/
theorem Represents.hashSet_add
    (represents : table.Represents chains) {key : CString}
    {front back : List Entry} {here : Entry}
    (isSplit : chains (table.bucketOf key) = front ++ here :: back)
    (others : ∀ entry ∈ front, ends .add key entry = false)
    (isKey : ends .add key here = true) {value : Option CString}
    {later : Table} (isLater : table.hashSet key value .add = some later) :
    later.Represents chains := by
  have inRange := represents.inRange key
  obtain ⟨positive, lists, holds⟩ := represents
  have someHead : ¬ table.head key = none := by
    intro noHead
    have noEntries := (holds.head_eq_none_iff inRange).mp noHead
    rw [isSplit] at noEntries
    exact
      List.append_ne_nil_of_right_ne_nil _ (List.cons_ne_nil _ _) noEntries
  obtain ⟨before, cell, after, isLists, isFront, isHere, isBack⟩ :=
    holds.split inRange isSplit
  have isWalk : table.walk key (ends .add key) = some (.hit cell) :=
    holds.walk_hit inRange isLists isFront isHere others isKey
  rw [hashSet, if_neg someHead, isWalk, Option.bind_some] at isLater
  obtain ⟨c, _, isStored⟩ := Option.bind_eq_some_iff.mp isLater
  split_ifs at isStored with isNull
  cases isStored
  refine ⟨positive, lists, ?_⟩
  rw [List.length_append, List.length_singleton]
  exact
    holds.skip (fun one _ => PointerList.link_append rfl one)
      fun one isOld => entry_concat _ _ isOld

/-- A call keeps the hash function and the size, and allocates a chain. -/
theorem hashSet_frame
    {key : CString} {value : Option CString} {mode : HashCollision}
    {later : Table} (isLater : table.hashSet key value mode = some later) :
    later.hashF = table.hashF ∧
      later.bucket.length = table.bucket.length ∧
        later.chains.length = table.chains.length + 1 := by
  rw [Table.hashSet] at isLater
  by_cases noHead : table.head key = none
  · rw [if_pos noHead] at isLater
    obtain ⟨_, _, rfl⟩ := Option.map_eq_some_iff.mp isLater
    simp
  · rw [if_neg noHead] at isLater
    obtain ⟨ending, _, isStored⟩ := Option.bind_eq_some_iff.mp isLater
    cases ending with
    | hit k =>
        simp only at isStored
        split_ifs at isStored with isOverride
        · cases isStored
          simp
        · obtain ⟨c, _, isKept⟩ := Option.bind_eq_some_iff.mp isStored
          split_ifs at isKept with isNull
          cases isKept
          simp
    | miss last =>
        obtain ⟨k, _, rfl⟩ := Option.map_eq_some_iff.mp isStored
        simp

/-- Only these modes end the loop at a chain. -/
theorem mode_of_ends
    {mode : HashCollision} {key : CString} {entry : Entry}
    (isEnd : ends mode key entry = true) :
    mode = .override ∨ mode = .add := by
  cases mode with
  | nostrcmp => cases isEnd
  | override => exact Or.inl rfl
  | add => exact Or.inr rfl
  | raiseError => cases isEnd

/-- A call changes the list of one bucket. -/
theorem Represents.hashSet
    (represents : table.Represents chains) {key : CString}
    {value : Option CString} {mode : HashCollision} {later : Table}
    (hashed : table.hashF ≠ none)
    (isLater : table.hashSet key value mode = some later) :
    later.Represents
      (Function.update chains (table.bucketOf key)
        (setEntries table.chains.length key value mode
          (chains (table.bucketOf key)))) := by
  cases isFound :
      (chains (table.bucketOf key)).find? (ends mode key) with
  | none =>
      have absent :
          ∀ entry ∈ chains (table.bucketOf key),
            ends mode key entry = false := by
        simpa using isFound
      have isAppended :
          setEntries table.chains.length key value mode
              (chains (table.bucketOf key)) =
            chains (table.bucketOf key) ++ [(key, value.map .text)] := by
        conv_lhs => rw [← List.append_nil (chains (table.bucketOf key))]
        exact setEntries_append absent []
      rw [isAppended]
      by_cases isEmpty : chains (table.bucketOf key) = []
      · obtain ⟨_, isSame, isRepresented⟩ :=
          represents.hashSet_of_empty isEmpty value mode hashed
        rw [isLater, Option.some_inj] at isSame
        rw [isEmpty, isSame]
        exact isRepresented
      · obtain ⟨_, isSame, isRepresented⟩ :=
          represents.hashSet_of_absent isEmpty value absent
        rw [isLater, Option.some_inj] at isSame
        rw [isSame]
        exact isRepresented
  | some here =>
      obtain ⟨isKey, front, back, isSplit, isFirst⟩ :=
        List.find?_eq_some_iff_append.mp isFound
      have others : ∀ entry ∈ front, ends mode key entry = false := by
        simpa using isFirst
      rw [isSplit, setEntries_append others, setEntries, if_pos isKey]
      rcases mode_of_ends isKey with rfl | rfl
      · obtain ⟨_, isSame, isRepresented⟩ :=
          represents.hashSet_override isSplit others isKey value
        rw [isLater, Option.some_inj] at isSame
        rw [isSame]
        exact isRepresented
      · rw [if_neg (by decide), ← isSplit, Function.update_eq_self]
        exact represents.hashSet_add isSplit others isKey isLater

end Table

end BinTools.HashTable
