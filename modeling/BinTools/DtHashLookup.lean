import BinTools.DtHashTable

namespace BinTools.DtHashTable

open IndexChains

/-!
# Chains and lookups of the System V hash table

A run of `add_dt_hash_entry` on a table of zeros leaves one list of indices for
every bucket, and `sysv_lookup` finds the first index of a name.  The lookup
adds two to the number of buckets in 32 bits, which the calls that add entries
do not: beyond that sum it reads the front of the table as the chain.
-/

/-- A table with room for a number of buckets and of chain words. -/
def zeroed (nbucket capacity : Nat) : List Nat :=
  [nbucket, 0] ++ List.replicate (nbucket + capacity) 0

/-- Entries that a table can take: different indices inside of the chain. -/
structure Enterable (capacity : Nat) (entries : List (CString × Nat)) :
    Prop where
  distinct : (entries.map Prod.snd).Nodup
  inRange : ∀ entry ∈ entries, entry.2 ≠ 0 ∧ entry.2 < capacity

/--
The words hold disjoint lists without repetitions, ended by zeros, that have
every index together, and every name is looked up as its first index.
-/
structure ChainsRight
    (words : List Nat) (nbucket capacity : Nat)
    (entries : List (CString × Nat)) : Prop where
  chains :
    ∃ lists,
      Holds words 2 (2 + nbucket) nbucket capacity lists ∧
        ((List.range nbucket).flatMap lists).Perm (entries.map Prod.snd)
  found :
    ∀ nameAt, (∀ entry ∈ entries, nameAt entry.2 = some entry.1) →
      ∀ name,
        sysvLookup words nameAt name (sysvHash name) =
          some (firstOf entries name)

/-- The entries are added one after the other to a table of zeros. -/
def EntersRight
    (nbucket capacity : Nat) (entries : List (CString × Nat)) : Prop :=
  ∃ words,
    addDtHashEntries (zeroed nbucket capacity) entries = some words ∧
      ChainsRight words nbucket capacity entries

variable
  {words : List Nat} {nbucket capacity : Nat}
  {entries : List (CString × Nat)}

/-- A table of zeros has no entries. -/
theorem filled_zeroed (nbucket capacity : Nat) :
    Filled (zeroed nbucket capacity) nbucket capacity [] where
  buckets := rfl
  counted := ⟨0, rfl⟩
  holds := holds_zeros [nbucket, 0] nbucket capacity

/-- The lists of all buckets have every index together. -/
theorem Filled.perm_indices
    (filled : Filled words nbucket capacity entries)
    (hasBuckets : 0 < nbucket)
    (distinct : (entries.map Prod.snd).Nodup) :
    ((List.range nbucket).flatMap (chainOf (bucketOf nbucket) entries)).Perm
      (entries.map Prod.snd) := by
  have allDistinct :
      ((List.range nbucket).flatMap
        (chainOf (bucketOf nbucket) entries)).Nodup := by
    refine List.nodup_flatMap.mpr ⟨fun bucket member => ?_, ?_⟩
    · exact filled.holds.distinct bucket (List.mem_range.mp member)
    · refine List.nodup_range.pairwise_of_forall_ne ?_
      intro bucket isBucket other isOther isDifferent index inOne inTwo
      exact
        filled.holds.disjoint bucket (List.mem_range.mp isBucket) other
          (List.mem_range.mp isOther) isDifferent index inOne inTwo
  refine (List.perm_ext_iff_of_nodup allDistinct distinct).mpr ?_
  intro index
  rw [List.mem_flatMap]
  constructor
  · rintro ⟨bucket, _, member⟩
    exact List.map_subset _ (List.filter_subset_self _) member
  · intro member
    obtain ⟨entry, isEntry, rfl⟩ := List.mem_map.mp member
    refine
      ⟨bucketOf nbucket entry.1,
        List.mem_range.mpr (Nat.mod_lt _ hasBuckets),
        List.mem_map_of_mem (List.mem_filter.mpr ⟨isEntry, ?_⟩)⟩
    exact decide_eq_true rfl

/-- Every list is right; the lookup is, where its sum does not overflow. -/
theorem Filled.chainsRight
    (filled : Filled words nbucket capacity entries)
    (hasBuckets : 0 < nbucket) (fewBuckets : 2 + nbucket < 2 ^ 32)
    (distinct : (entries.map Prod.snd).Nodup) :
    ChainsRight words nbucket capacity entries where
  chains := ⟨_, filled.holds, filled.perm_indices hasBuckets distinct⟩
  found := by
    intro nameAt areNamed name
    have isWalk :
        sysvLookup words nameAt name (sysvHash name) =
          walk words name fun i =>
            (nameAt i).map fun other => decide (other = name) := rfl
    rw [isWalk, filled.walk_eq hasBuckets fewBuckets]
    refine firstHit_chainOf fun entry member => ?_
    rw [areNamed entry member, Option.map_some]

/-- A table without entries answers every lookup with zero. -/
theorem sysvLookup_zeroed
    (hasBuckets : 0 < nbucket) (nameAt : Nat → Option CString)
    (name : CString) :
    sysvLookup (zeroed nbucket capacity) nameAt name (sysvHash name) =
      some 0 := by
  have isBuckets : (zeroed nbucket capacity)[0]? = some nbucket := rfl
  have isHash : (sysvHash name).toNat < 2 ^ 28 := toNat_low28_lt _
  have isBucket : (sysvHash name).toNat % nbucket < nbucket :=
    Nat.mod_lt _ hasBuckets
  have isBelow := Nat.mod_le (sysvHash name).toNat nbucket
  obtain ⟨word, isWord, isEmpty⟩ :=
    (filled_zeroed nbucket capacity).holds.linked _ isBucket
  have isZero : word = 0 := pointer_eq_none_iff.mp isEmpty
  unfold sysvLookup walkBucket
  rw [isBuckets, Option.bind_some, Nat.mod_eq_of_lt (by omega), isWord,
    Option.bind_some, isZero, findIndex, if_pos rfl]

/-! ## Where the sum overflows -/

/-- A name other than the empty one, with its hash. -/
def hashless : CString where
  bytes := [15, 15, 15, 15, 15, 15, 15, 16]
  noNul := by decide

/-- The table with one entry, under the empty name. -/
theorem addDtHashEntries_empty (nbucket capacity : Nat) :
    addDtHashEntries (zeroed nbucket (capacity + 2)) [(.empty, 1)] =
      some
        (nbucket :: 1 :: 1 :: List.replicate (nbucket + capacity + 1) 0) := by
  have isFirst : bucketOf nbucket .empty = 0 := Nat.zero_mod nbucket
  have isTable :
      zeroed nbucket (capacity + 2) =
        nbucket :: 0 :: 0 :: List.replicate (nbucket + capacity + 1) 0 := rfl
  unfold addDtHashEntries
  rw [isTable, List.foldlM_cons]
  unfold addDtHashEntry
  rw [List.getElem?_cons_zero, Option.bind_some, List.getElem?_cons_succ,
    List.getElem?_cons_zero, Option.bind_some, isFirst]
  rfl

/-- The lookup of another name reads the front of the table for ever. -/
theorem sysvLookup_hashless
    (isMany : 2 ^ 32 ≤ 2 + nbucket) (isWord : nbucket < 2 ^ 32)
    (rest : List Nat) :
    sysvLookup (nbucket :: 1 :: 1 :: rest) (fun _ => some .empty) hashless
        (sysvHash hashless) =
      none := by
  have isHash : (sysvHash hashless).toNat = 0 := by decide +kernel
  have isDifferent : CString.empty ≠ hashless := by decide
  have isFront : (2 + nbucket) % 2 ^ 32 = 0 ∨ (2 + nbucket) % 2 ^ 32 = 1 := by
    omega
  unfold sysvLookup walkBucket
  have isStart : (nbucket :: 1 :: 1 :: rest)[(2 + 0) % 2 ^ 32]? = some 1 := rfl
  rw [isHash, List.getElem?_cons_zero, Option.bind_some, Nat.zero_mod,
    isStart, Option.bind_some]
  refine
    findIndex_eq_none_of_loop one_ne_zero ?_
      (congrArg some (decide_eq_false isDifferent)) _
  rcases isFront with isFront | isFront <;> rw [isFront] <;> rfl

/-- The number of buckets is too large for the lookup. -/
theorem not_entersRight
    (isMany : 2 ^ 32 ≤ 2 + nbucket) (isWord : nbucket < 2 ^ 32)
    (capacity : Nat) :
    ¬ EntersRight nbucket (capacity + 2) [(.empty, 1)] := by
  rintro ⟨words, isTable, right⟩
  rw [addDtHashEntries_empty] at isTable
  cases isTable
  have isFound :=
    right.found (fun _ => some .empty)
      (fun entry member => by rw [List.mem_singleton.mp member]) hashless
  rw [sysvLookup_hashless isMany isWord] at isFound
  cases isFound

/-- The one index of a chain with two words. -/
theorem enterable_empty (capacity : Nat) :
    Enterable (capacity + 2) [(.empty, 1)] where
  distinct := List.nodup_singleton 1
  inRange := by
    intro entry member
    rw [List.mem_singleton.mp member]
    exact ⟨by decide, by simp⟩

/-- A chain with room for no index takes no entry. -/
theorem Enterable.eq_nil
    (enterable : Enterable capacity entries) (noRoom : capacity ≤ 1) :
    entries = [] := by
  refine List.eq_nil_iff_forall_not_mem.mpr fun entry member => ?_
  obtain ⟨notZero, inRange⟩ := enterable.inRange entry member
  omega

/--
Every run of entries on a table of zeros leaves right chains and right lookups
if and only if two more than the number of buckets is a word, or there is no
room for any index.
-/
theorem forall_entersRight_iff
    (hasBuckets : 1 ≤ nbucket) (isWord : nbucket < 2 ^ 32) (capacity : Nat) :
    (∀ entries, Enterable capacity entries →
        EntersRight nbucket capacity entries) ↔
      2 + nbucket < 2 ^ 32 ∨ capacity ≤ 1 := by
  constructor
  · intro allRight
    by_contra isWrong
    rw [not_or, Nat.not_lt, Nat.not_le] at isWrong
    obtain ⟨isMany, hasRoom⟩ := isWrong
    obtain ⟨more, rfl⟩ :=
      Nat.exists_eq_add_of_le' (Nat.succ_le_of_lt hasRoom)
    exact
      not_entersRight isMany isWord more (allRight _ (enterable_empty more))
  · rintro (fewBuckets | noRoom) entries enterable
    · obtain ⟨words, isTable, filled⟩ :=
        (filled_zeroed nbucket capacity).addDtHashEntries hasBuckets
          enterable.inRange enterable.distinct
      exact
        ⟨words, isTable,
          filled.chainsRight hasBuckets fewBuckets enterable.distinct⟩
    · obtain rfl := enterable.eq_nil noRoom
      exact
        ⟨_, rfl,
          { chains :=
              ⟨_, (filled_zeroed nbucket capacity).holds,
                (filled_zeroed nbucket capacity).perm_indices hasBuckets
                  List.nodup_nil⟩
            found := fun nameAt _ name =>
              sysvLookup_zeroed hasBuckets nameAt name }⟩

/-- The table that is allocated has room for 148 entries in 100 buckets. -/
theorem forall_entersRight_iff_initHashtable :
    (∀ entries, Enterable 148 entries → EntersRight 100 148 entries) ↔
      2 + 100 < 2 ^ 32 ∨ 148 ≤ 1 :=
  forall_entersRight_iff (by decide) (by decide) 148

/-- With `2 ^ 32 - 2` buckets a lookup does not come back. -/
theorem not_forall_entersRight :
    Enterable 2 [(.empty, 1)] ∧
      ¬ EntersRight (2 ^ 32 - 2) 2 [(.empty, 1)] :=
  ⟨enterable_empty 0, not_entersRight (by decide) (by decide) 0⟩

end BinTools.DtHashTable
