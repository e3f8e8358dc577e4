import BinTools.HashTableSearch
import BinTools.MakefileParser

namespace BinTools.Makefile

open HashTable

/-!
# The table of variables

The calls that a parse makes for variables, one behind the other, lead from the
empty table of `init_config` to the table that later passes search.  The entry of
a name stays as it is while other names are set.
-/

/-- What a call sets in the table of variables. -/
def Call.variable? :
    Call → Option (CString × Option CString × HashCollision)
  | .varHashTable name value mode => some (name, value, mode)
  | .ruleTargetHashTable _ _ _ => none

/-- The calls for the table of variables. -/
def variableCalls (calls : List Call) :
    List (CString × Option CString × HashCollision) :=
  calls.filterMap Call.variable?

/-- `Confp->vars.var_hash_table` behind some calls. -/
def varHashTable (calls : List Call) : Option Table :=
  (Table.init 100 sysvHash).hashSets (variableCalls calls)

/-- One more assignment. -/
def assign (old value : Option CString) (mode : HashCollision) :
    Option CString :=
  match mode, old, value with
  | .add, some front, some back => some (Table.joined [front, back])
  | _, _, _ => value

/-- The value that a name has behind some calls. -/
def assigned (calls : List Call) (name : CString) : Option CString :=
  (variableCalls calls).foldl
    (fun value call =>
      if call.1 = name then assign value call.2.1 call.2.2 else value)
    none

/-- A call sets a name. -/
def Call.Sets (name : CString) (call : Call) : Prop :=
  ∃ value mode, call = .varHashTable name value mode

/-- The first entry that is taken for a name is its own. -/
def OwnsFirst (entries : List Entry) (name value : CString) : Prop :=
  ∃ front back,
    entries = front ++ (name, some (.text value)) :: back ∧
      ∀ entry ∈ front, takes name entry = false

/-- Only the entry of a key ends the loop, in every mode. -/
theorem key_of_ends
    {mode : HashCollision} {key : CString} {entry : Entry}
    (isEnd : ends mode key entry = true) : entry.1 = key := by
  cases mode <;> simp_all [ends, strcmp_eq_zero_iff]

/-- Other names leave it the first one. -/
theorem OwnsFirst.setEntries
    {entries : List Entry} {name value key : CString}
    (owns : OwnsFirst entries name value) (isOther : key ≠ name)
    (fresh : Nat) (other : Option CString) (mode : HashCollision) :
    OwnsFirst (setEntries fresh key other mode entries) name value := by
  obtain ⟨front, back, rfl, noneTaken⟩ := owns
  induction front with
  | nil =>
      have goesOn :
          ¬ ends mode key (name, some (Value.text value)) = true :=
        fun isEnd => isOther (key_of_ends isEnd).symm
      rw [List.nil_append, HashTable.setEntries, if_neg goesOn]
      exact ⟨[], _, rfl, fun _ member => absurd member List.not_mem_nil⟩
  | cons entry front inductionHypothesis =>
      have notTaken := noneTaken entry List.mem_cons_self
      have restNotTaken := fun entry member =>
        noneTaken entry (List.mem_cons_of_mem _ member)
      rw [List.cons_append, HashTable.setEntries]
      split
      · refine ⟨_ :: front, back, rfl, ?_⟩
        rw [List.forall_mem_cons]
        refine ⟨?_, restNotTaken⟩
        split
        · exact notTaken
        · exact notTaken
      · obtain ⟨later, rest, isSplit, isLater⟩ :=
          inductionHypothesis restNotTaken
        refine ⟨entry :: later, rest, by rw [isSplit]; rfl, ?_⟩
        rw [List.forall_mem_cons]
        exact ⟨notTaken, isLater⟩

/-- A table that was reached, where a name has its value. -/
def Keeping (table : Table) (name value : CString) : Prop :=
  ∃ chains,
    table.Reached chains ∧
      OwnsFirst (chains (table.bucketOf name)) name value

variable {table later : Table} {name value : CString}

/-- The search finds the value. -/
theorem Keeping.hashFind_eq (keeping : Keeping table name value) :
    table.hashFind name = some (some (.text value)) := by
  obtain ⟨chains, reached, front, back, isSplit, noneTaken⟩ := keeping
  have noFront : front.find? (takes name) = none := by
    simpa using noneTaken
  rw [reached.represents.hashFind_eq, isSplit, List.find?_append, noFront,
    Option.none_or, List.find?_cons_of_pos (Table.takes_self _ _)]
  rfl

/-- The bucket of a name stays. -/
theorem bucketOf_hashSet
    {key : CString} {other : Option CString} {mode : HashCollision}
    (isLater : table.hashSet key other mode = some later) (name : CString) :
    later.bucketOf name = table.bucketOf name := by
  obtain ⟨sameHash, sameSize, -⟩ := Table.hashSet_frame isLater
  rw [Table.bucketOf, Table.bucketOf, sameHash, sameSize]

theorem Keeping.hashSet
    (keeping : Keeping table name value) {key : CString}
    (isOther : key ≠ name) {other : Option CString} {mode : HashCollision}
    (isLater : table.hashSet key other mode = some later) :
    Keeping later name value := by
  obtain ⟨chains, reached, owns⟩ := keeping
  refine ⟨_, reached.hashSet isLater, ?_⟩
  rw [bucketOf_hashSet isLater]
  by_cases sameBucket : table.bucketOf name = table.bucketOf key
  · rw [sameBucket, Function.update_self, ← sameBucket]
    exact owns.setEntries isOther _ _ _
  · rw [Function.update_of_ne sameBucket]
    exact owns

/-- While a name is not set it keeps its value. -/
theorem Keeping.hashSets
    {calls : List (CString × Option CString × HashCollision)}
    (keeping : Keeping table name value)
    (others : ∀ call ∈ calls, call.1 ≠ name)
    (isLater : table.hashSets calls = some later) :
    Keeping later name value := by
  induction calls generalizing table with
  | nil =>
      cases isLater
      exact keeping
  | cons call calls inductionHypothesis =>
      unfold Table.hashSets at isLater
      rw [List.foldlM_cons] at isLater
      obtain ⟨middle, isMiddle, isRest⟩ := Option.bind_eq_some_iff.mp isLater
      exact
        inductionHypothesis
          (keeping.hashSet (others call List.mem_cons_self) isMiddle)
          (fun call member => others call (List.mem_cons_of_mem _ member))
          isRest

/-- A name that no entry is taken for gets its own entry. -/
theorem exists_keeping
    {chains : Nat → List Entry} (reached : table.Reached chains)
    (isNew : ∀ entry ∈ table.entriesOf name, takes name entry = false)
    (value : CString) :
    ∃ later,
      table.hashSet name (some value) .override = some later ∧
        Keeping later name value := by
  obtain ⟨later, isLater⟩ := reached.exists_hashSet name (some value)
  refine ⟨later, isLater, _, reached.hashSet isLater, ?_⟩
  rw [reached.represents.entriesOf_eq] at isNew
  have absent : name ∉ (chains (table.bucketOf name)).map Prod.fst := by
    intro member
    obtain ⟨entry, isEntry, rfl⟩ := List.mem_map.mp member
    have isTaken := Table.takes_self entry.1 entry.2
    rw [isNew entry isEntry] at isTaken
    cases isTaken
  rw [bucketOf_hashSet isLater, Function.update_self,
    Table.setEntries_of_absent absent]
  exact ⟨_, [], rfl, isNew⟩

/-! ## Calls -/

theorem varHashTable_append
    {calls : List Call} (isTable : varHashTable calls = some table)
    (more : List Call) :
    varHashTable (calls ++ more) = table.hashSets (variableCalls more) := by
  unfold varHashTable Table.hashSets at isTable ⊢
  rw [variableCalls, List.filterMap_append, List.foldlM_append]
  rw [variableCalls] at isTable
  rw [isTable]
  rfl

theorem exists_reached
    {calls : List Call} (isTable : varHashTable calls = some table) :
    ∃ chains, table.Reached chains :=
  (Table.reached_init (by decide : 0 < 100) sysvHash).hashSets isTable

theorem others_of_not_sets
    {calls : List Call} (noSet : ∀ call ∈ calls, ¬ call.Sets name) :
    ∀ call ∈ variableCalls calls, call.1 ≠ name := by
  intro set member isName
  obtain ⟨call, isCall, isSet⟩ := List.mem_filterMap.mp member
  cases call with
  | varHashTable key value mode =>
      cases isSet
      exact noSet _ isCall ⟨value, mode, by rw [← isName]⟩
  | ruleTargetHashTable target rule mode => cases isSet

end BinTools.Makefile
