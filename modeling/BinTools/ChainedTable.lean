import Mathlib.Data.List.Basic
import Mathlib.Tactic.Common

namespace ChainedTable

/-!
# Hash tables with chains

A table is a list of buckets, and a bucket is the chain of the entries whose
hash falls to it, oldest first.  `Holds` says that a table has been filled with
a list of entries; looking a key up in it finds the first entry of the list
that has the key.
-/

variable {Key Value : Type*}

/-- The chains of a table by their bucket. -/
abbrev Buckets (Key Value : Type*) :=
  List (List (Key × Value))

/-- A table of empty chains. -/
def empty (nbucket : Nat) : Buckets Key Value :=
  List.replicate nbucket []

/-- The bucket of a key. -/
def bucketOf (hash : Key → Nat) (table : Buckets Key Value) (key : Key) : Nat :=
  hash key % table.length

/-- Walk the chain of the key's bucket for an entry with the key. -/
def lookup
    [DecidableEq Key] (hash : Key → Nat) (table : Buckets Key Value)
    (key : Key) : Option Value :=
  (table[bucketOf hash table key]?).bind fun chain =>
    (chain.find? fun entry => entry.1 = key).map Prod.snd

/-- Append an entry to the chain of its bucket. -/
def add
    (hash : Key → Nat) (table : Buckets Key Value) (key : Key)
    (value : Value) : Buckets Key Value :=
  table.modify (bucketOf hash table key) (· ++ [(key, value)])

/-- A table of some number of buckets holds entries in order of insertion. -/
def Holds
    (hash : Key → Nat) (nbucket : Nat) (table : Buckets Key Value)
    (entries : List (Key × Value)) : Prop :=
  table.length = nbucket ∧
    ∀ bucket < nbucket,
      table[bucket]? =
        some (entries.filter fun entry => hash entry.1 % nbucket = bucket)

variable
  {hash : Key → Nat} {nbucket : Nat} {table : Buckets Key Value}
  {entries : List (Key × Value)}

/-- Empty chains hold nothing. -/
theorem holds_empty :
    Holds hash nbucket (empty nbucket : Buckets Key Value) [] := by
  refine ⟨List.length_replicate, ?_⟩
  intro bucket inTable
  simp [empty, inTable]

/-- An entry is added behind the others. -/
theorem Holds.add
    (holds : Holds hash nbucket table entries) (key : Key) (value : Value) :
    Holds hash nbucket (add hash table key value) (entries ++ [(key, value)]) := by
  obtain ⟨length, chains⟩ := holds
  refine ⟨by simp [ChainedTable.add, length], ?_⟩
  intro bucket inTable
  rw [ChainedTable.add, List.getElem?_modify, chains bucket inTable, bucketOf,
    length]
  by_cases sameBucket : hash key % nbucket = bucket
  · simp [sameBucket]
  · simp [sameBucket]

/-- A lookup finds the first entry with the key. -/
theorem Holds.lookup_eq
    [DecidableEq Key]
    (holds : Holds hash nbucket table entries) (positive : 0 < nbucket)
    (key : Key) :
    lookup hash table key =
      (entries.find? fun entry => entry.1 = key).map Prod.snd := by
  obtain ⟨length, chains⟩ := holds
  have sameEntry :
      (fun entry : Key × Value =>
          decide
            (decide (hash entry.1 % nbucket = hash key % nbucket) = true ∧
              decide (entry.1 = key) = true)) =
        fun entry => decide (entry.1 = key) := by
    funext entry
    by_cases hasKey : entry.1 = key <;> simp [hasKey]
  rw [lookup, bucketOf, length, chains _ (Nat.mod_lt _ positive),
    Option.bind_some, List.find?_filter, sameEntry]

end ChainedTable
