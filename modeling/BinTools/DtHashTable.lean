import BinTools.IndexChains
import BinTools.NameHash
import Mathlib.Algebra.Order.BigOperators.Group.List
import Mathlib.Algebra.Order.Ring.Nat

namespace BinTools.DtHashTable

open IndexChains

/-!
# The System V hash table

An array of words: `nbucket`, `nchain`, the first symbol index of every bucket
and, for every symbol index, the next one of its bucket.
-/

/-- `init_hashtable`: 1000 zeroed bytes, for 100 buckets. -/
def initHashtable : List Nat :=
  [100, 0] ++ List.replicate 248 0

/-- The bucket of a name. -/
def bucketOf (nbucket : Nat) (name : CString) : Nat :=
  (sysvHash name).toNat % nbucket

/-- `add_dt_hash_entry` -/
def addDtHashEntry (words : List Nat) (name : CString) (symIndex : Nat) :
    Option (List Nat) :=
  (words[0]?).bind fun nbucket =>
    (words[1]?).bind fun nchain =>
      append (words.set 1 ((nchain + 1) % 2 ^ 32)) 2 (2 + nbucket)
        (bucketOf nbucket name) symIndex

/-- A number of calls of `add_dt_hash_entry`. -/
def addDtHashEntries (words : List Nat) (entries : List (CString × Nat)) :
    Option (List Nat) :=
  entries.foldlM
    (fun (words : List Nat) (entry : CString × Nat) =>
      addDtHashEntry words entry.1 entry.2)
    words

/--
The walk along the bucket of a hash, up to the first symbol that is hit.  The
positions `2 + h % hashtab[0]` and `2 + hashtab[0]` are 32-bit sums.
-/
def walkBucket (words : List Nat) (h : Nat) (hit : Nat → Option Bool) :
    Option Nat :=
  (words[0]?).bind fun nbucket =>
    (words[(2 + h % nbucket) % 2 ^ 32]?).bind fun i =>
      findIndex words ((2 + nbucket) % 2 ^ 32) hit (words.length + 1) i

/-- The walk along the bucket of a name. -/
def walk (words : List Nat) (name : CString) (hit : Nat → Option Bool) :
    Option Nat :=
  walkBucket words (sysvHash name).toNat hit

/-- `sysv_lookup`, where `nameAt` is the string of a symbol-table entry. -/
def sysvLookup
    (words : List Nat) (nameAt : Nat → Option CString)
    (s : CString) (h : U32) : Option Nat :=
  walkBucket words h.toNat fun i =>
    (nameAt i).map fun name => decide (name = s)

/-- A table with the given entries, none of which has the index zero. -/
structure Filled
    (words : List Nat) (nbucket capacity : Nat)
    (entries : List (CString × Nat)) : Prop where
  buckets : words[0]? = some nbucket
  counted : ∃ nchain, words[1]? = some nchain
  holds :
    Holds words 2 (2 + nbucket) nbucket capacity
      (chainOf (bucketOf nbucket) entries)

variable
  {words : List Nat} {nbucket capacity : Nat}
  {entries : List (CString × Nat)}

/-- The table of `init_hashtable` has no entries. -/
theorem filled_initHashtable : Filled initHashtable 100 148 [] where
  buckets := rfl
  counted := ⟨0, rfl⟩
  holds := holds_zeros [100, 0] 100 148

/-- The table before the chain is extended, which only counts the entry. -/
theorem Filled.count
    (filled : Filled words nbucket capacity entries) (count : Nat) :
    Filled (words.set 1 count) nbucket capacity entries where
  buckets := by
    rw [List.getElem?_set_ne (by decide)]
    exact filled.buckets
  counted := by
    obtain ⟨nchain, isCount⟩ := filled.counted
    exact
      ⟨count, List.getElem?_set_self (List.getElem?_eq_some_iff.mp isCount).1⟩
  holds := filled.holds.set_of_lt (by decide) count

/-- Adding an entry is adding its index to a chain. -/
theorem Filled.addDtHashEntry_eq
    (filled : Filled words nbucket capacity entries)
    (name : CString) (symIndex : Nat) :
    ∃ counted,
      Filled counted nbucket capacity entries ∧
        addDtHashEntry words name symIndex =
          append counted 2 (2 + nbucket) (bucketOf nbucket name) symIndex := by
  obtain ⟨nchain, isCount⟩ := filled.counted
  refine ⟨_, filled.count ((nchain + 1) % 2 ^ 32), ?_⟩
  unfold addDtHashEntry
  rw [filled.buckets, Option.bind_some, isCount, Option.bind_some]

/-- An append leaves the words in front of the buckets alone. -/
theorem getElem?_of_append
    {first base bucket index position : Nat} {later : List Nat}
    (isLater : append words first base bucket index = some later)
    {word : Nat} (isWord : words[position]? = some word)
    (isFront : position < first) (inFront : first ≤ base) :
    later[position]? = some word := by
  obtain ⟨start, _, isLater⟩ := Option.bind_eq_some_iff.mp isLater
  split_ifs at isLater
  · obtain ⟨last, isEnd, rfl⟩ := Option.map_eq_some_iff.mp isLater
    have isBehind := le_of_findEnd isEnd (Nat.le_add_right base start)
    rw [List.getElem?_set_ne (by omega)]
    exact isWord
  · cases isLater
    rw [List.getElem?_set_ne (by omega)]
    exact isWord

/-- An entry with a fresh index is added at the end of its bucket. -/
theorem Filled.addDtHashEntry
    (filled : Filled words nbucket capacity entries)
    (hasBuckets : 0 < nbucket) (name : CString) {symIndex : Nat}
    (notZero : symIndex ≠ 0) (inRange : symIndex < capacity)
    (isFresh : symIndex ∉ entries.map Prod.snd) :
    ∃ later,
      DtHashTable.addDtHashEntry words name symIndex = some later ∧
        Filled later nbucket capacity (entries ++ [(name, symIndex)]) := by
  obtain ⟨counted, isFilled, isAppend⟩ :=
    filled.addDtHashEntry_eq name symIndex
  obtain ⟨later, isLater, holds⟩ :=
    isFilled.holds.append (Nat.mod_lt _ hasBuckets) notZero inRange
      (fun other _ member =>
        isFresh (List.map_subset _ (List.filter_subset_self _) member))
  obtain ⟨nchain, isCount⟩ := isFilled.counted
  refine ⟨later, isAppend.trans isLater, ?_⟩
  exact
    { buckets :=
        getElem?_of_append isLater isFilled.buckets (by decide)
          (Nat.le_add_right 2 nbucket)
      counted :=
        ⟨nchain,
          getElem?_of_append isLater isCount (by decide)
            (Nat.le_add_right 2 nbucket)⟩
      holds := by
        rw [chainOf_concat]
        exact holds }

/-- Entries with different indices are added one after the other. -/
theorem Filled.addDtHashEntries
    (filled : Filled words nbucket capacity entries)
    (hasBuckets : 0 < nbucket) {more : List (CString × Nat)}
    (areIndices : ∀ entry ∈ more, entry.2 ≠ 0 ∧ entry.2 < capacity)
    (distinct : ((entries ++ more).map Prod.snd).Nodup) :
    ∃ later,
      DtHashTable.addDtHashEntries words more = some later ∧
        Filled later nbucket capacity (entries ++ more) := by
  induction more generalizing words entries with
  | nil => exact ⟨words, rfl, by rwa [List.append_nil]⟩
  | cons entry rest inductionHypothesis =>
      rw [List.forall_mem_cons] at areIndices
      rw [List.append_cons] at distinct ⊢
      have isFresh : entry.2 ∉ entries.map Prod.snd := by
        intro member
        rw [List.map_append, List.nodup_append, List.map_append,
          List.nodup_append] at distinct
        exact distinct.1.2.2 _ member entry.2 (by simp) rfl
      obtain ⟨next, isNext, nextFilled⟩ :=
        filled.addDtHashEntry hasBuckets entry.1 areIndices.1.1
          areIndices.1.2 isFresh
      obtain ⟨later, isLater, laterFilled⟩ :=
        inductionHypothesis nextFilled areIndices.2 distinct
      refine ⟨later, ?_, laterFilled⟩
      unfold DtHashTable.addDtHashEntries at isLater ⊢
      rw [List.foldlM_cons, isNext]
      exact isLater

/-- An entry with the index zero is lost. -/
theorem Filled.addDtHashEntry_zero
    (filled : Filled words nbucket capacity [])
    (hasBuckets : 0 < nbucket) (name : CString) :
    ∃ later,
      DtHashTable.addDtHashEntry words name 0 = some later ∧
        Filled later nbucket capacity [] := by
  obtain ⟨counted, isFilled, isAppend⟩ := filled.addDtHashEntry_eq name 0
  rcases isFilled.holds.append_eq (Nat.mod_lt _ hasBuckets) 0 with
    ⟨_, isZero, isAppended⟩ | ⟨front, last, isSplit, _⟩
  · refine ⟨counted, isAppend.trans (isAppended.trans ?_), isFilled⟩
    obtain ⟨inRange, isWord⟩ := List.getElem?_eq_some_iff.mp isZero
    rw [← isWord, List.set_getElem_self]
  · exact absurd isSplit.symm (by simp [chainOf])

/-- With few buckets the sums do not overflow. -/
theorem walk_eq_findIndex
    (isBuckets : words[0]? = some nbucket) (hasBuckets : 0 < nbucket)
    (fewBuckets : 2 + nbucket < 2 ^ 32)
    (name : CString) (hit : Nat → Option Bool) :
    walk words name hit =
      (words[2 + bucketOf nbucket name]?).bind fun i =>
        findIndex words (2 + nbucket) hit (words.length + 1) i := by
  have isBucket : bucketOf nbucket name < nbucket := Nat.mod_lt _ hasBuckets
  unfold bucketOf at isBucket ⊢
  unfold walk walkBucket
  rw [isBuckets, Option.bind_some, Nat.mod_eq_of_lt fewBuckets,
    Nat.mod_eq_of_lt (by omega)]

/-- The walk along a bucket searches the indices of the bucket. -/
theorem Filled.walk_eq
    (filled : Filled words nbucket capacity entries)
    (hasBuckets : 0 < nbucket) (fewBuckets : 2 + nbucket < 2 ^ 32)
    (name : CString) (hit : Nat → Option Bool) :
    walk words name hit =
      firstHit hit
        (chainOf (bucketOf nbucket) entries (bucketOf nbucket name)) := by
  have isBucket : bucketOf nbucket name < nbucket := Nat.mod_lt _ hasBuckets
  obtain ⟨word, isWord, linked⟩ := filled.holds.linked _ isBucket
  have inside := filled.holds.inside _ isBucket
  have isShort := filled.holds.length_le isBucket
  have length := filled.holds.length
  rw [walk_eq_findIndex filled.buckets hasBuckets fewBuckets, isWord,
    Option.bind_some]
  exact
    findIndex_eq linked
      (fun index member => by
        have inRange := inside index member
        omega)
      (Nat.succ_le_succ isShort) hit

/-! ## Beyond the table -/

/-- A bucket leads to an index, along visited ones. -/
structure Leads
    (words : List Nat) (nbucket : Nat) (visited : Nat → Prop)
    (bucket symIndex : Nat) : Prop where
  buckets : words[0]? = some nbucket
  start :
    ∃ word,
      words[2 + bucket]? = some word ∧ word ≠ 0 ∧
        Reaches words (2 + nbucket) visited word symIndex

variable {visited : Nat → Prop}

/-- An entry with an index of any size can be reached. -/
theorem Filled.leads
    (filled : Filled words nbucket capacity entries)
    (hasBuckets : 0 < nbucket) {name : CString} {symIndex : Nat}
    (notZero : symIndex ≠ 0)
    (areVisited : ∀ entry ∈ entries, visited entry.2)
    (isVisited : visited symIndex) {later : List Nat}
    (isLater : DtHashTable.addDtHashEntry words name symIndex = some later) :
    Leads later nbucket visited (bucketOf nbucket name) symIndex ∧
      later.length = words.length := by
  obtain ⟨counted, isFilled, isAppend⟩ :=
    filled.addDtHashEntry_eq name symIndex
  rw [isAppend] at isLater
  have sameLength : later.length = words.length := by
    obtain ⟨position, _, rfl⟩ := extends_append isLater
    rw [List.length_set, isFilled.holds.length, filled.holds.length]
  have inChain :
      ∀ index ∈ chainOf (bucketOf nbucket) entries (bucketOf nbucket name),
        visited index := by
    intro index member
    obtain ⟨entry, isEntry, rfl⟩ := List.mem_map.mp member
    exact areVisited entry (List.mem_of_mem_filter isEntry)
  exact
    ⟨{ buckets :=
          getElem?_of_append isLater isFilled.buckets (by decide)
            (Nat.le_add_right 2 nbucket)
       start :=
          isFilled.holds.append_reaches (Nat.mod_lt _ hasBuckets) notZero
            inChain isVisited isLater }, sameLength⟩

/-- A reached index stays reached when entries are added. -/
theorem Leads.addDtHashEntries
    {bucket symIndex : Nat}
    (leads : Leads words nbucket visited bucket symIndex)
    {more : List (CString × Nat)} {later : List Nat}
    (isLater : DtHashTable.addDtHashEntries words more = some later) :
    Leads later nbucket visited bucket symIndex ∧
      later.length = words.length := by
  induction more generalizing words with
  | nil =>
      cases isLater
      exact ⟨leads, rfl⟩
  | cons entry rest inductionHypothesis =>
      unfold DtHashTable.addDtHashEntries at isLater
      rw [List.foldlM_cons] at isLater
      obtain ⟨next, isNext, isLater⟩ := Option.bind_eq_some_iff.mp isLater
      unfold DtHashTable.addDtHashEntry at isNext
      rw [leads.buckets, Option.bind_some] at isNext
      obtain ⟨nchain, _, isNext⟩ := Option.bind_eq_some_iff.mp isNext
      have isCounted :
          (words.set 1 ((nchain + 1) % 2 ^ 32))[0]? = some nbucket := by
        rw [List.getElem?_set_ne (by decide)]
        exact leads.buckets
      have stillBuckets :=
        getElem?_of_append isNext isCounted (by decide)
          (Nat.le_add_right 2 nbucket)
      obtain ⟨position, isZero, rfl⟩ := extends_append isNext
      have countExtends :
          Extends 2 words (words.set 1 ((nchain + 1) % 2 ^ 32)) :=
        extends_set_of_lt (by decide) _
      have isExtended := countExtends.trans (extends_set isZero 2 entry.2)
      obtain ⟨word, isWord, notZero, reaches⟩ := leads.start
      obtain ⟨laterLeads, sameLength⟩ :=
        inductionHypothesis
          { buckets := stillBuckets
            start :=
              ⟨word,
                isExtended.2 _ _ (Nat.le_add_right 2 bucket) isWord notZero,
                notZero,
                reaches.extends isExtended (Nat.le_add_right 2 nbucket)⟩ }
          isLater
      exact ⟨laterLeads, sameLength.trans isExtended.1⟩

/-- A walk that hits nothing faults at an index outside of the table. -/
theorem Leads.walk_eq_none
    {symIndex : Nat} {name : CString}
    (leads : Leads words nbucket visited (bucketOf nbucket name) symIndex)
    (hasBuckets : 0 < nbucket) (fewBuckets : 2 + nbucket < 2 ^ 32)
    (outside : words.length ≤ 2 + nbucket + symIndex)
    {hit : Nat → Option Bool}
    (noHit : ∀ index, visited index → hit index ≠ some true) :
    walk words name hit = none := by
  obtain ⟨word, isWord, notZero, reaches⟩ := leads.start
  rw [walk_eq_findIndex leads.buckets hasBuckets fewBuckets, isWord,
    Option.bind_some]
  exact findIndex_eq_none reaches notZero outside noHit _

/-! ## The names of a bucket -/

/-- One round of `sysv_hash`. -/
def sysvRound (h : U64) (c : UInt8) : U64 :=
  let h := 16 * h + BitVec.ofNat 64 c.toNat
  h ^^^ ((h >>> 24) &&& 0xf0)

/-- What `sysv_hash` has after sixteen bytes 16. -/
def sysvCycle : U64 :=
  0x1111100000011110

/-- Twelve more of these bytes change nothing. -/
theorem foldl_sysvRound_replicate (rounds : Nat) :
    (List.replicate (12 * rounds) (16 : UInt8)).foldl sysvRound sysvCycle =
      sysvCycle := by
  induction rounds with
  | zero => rfl
  | succ rounds inductionHypothesis =>
      rw [Nat.mul_succ, List.replicate_add, List.foldl_append,
        inductionHypothesis]
      decide +kernel

/-- A name that is as long as one likes. -/
def longName (rounds : Nat) (last : UInt8) (notNul : last ≠ 0) : CString where
  bytes :=
    List.replicate 16 16 ++ (List.replicate (12 * rounds) 16 ++ [last])
  noNul := by
    intro member
    simp only [List.mem_append, List.mem_replicate, List.mem_singleton]
      at member
    rcases member with ⟨_, isNul⟩ | ⟨_, isNul⟩ | isNul
    · cases isNul
    · cases isNul
    · exact notNul isNul.symm

/-- Its hash depends on the last byte only. -/
theorem sysvHash_longName
    (rounds : Nat) (last : UInt8) (notNul : last ≠ 0) :
    sysvHash (longName rounds last notNul) =
      (sysvRound sysvCycle last &&& 0xfffffff).setWidth 32 := by
  have isFold :
      sysvHash (longName rounds last notNul) =
        ((longName rounds last notNul).bytes.foldl sysvRound 0 &&&
          0xfffffff).setWidth 32 := rfl
  have isCycle :
      (List.replicate 16 (16 : UInt8)).foldl sysvRound 0 = sysvCycle := by
    decide +kernel
  rw [isFold, longName, List.foldl_append, isCycle, List.foldl_append,
    foldl_sysvRound_replicate]
  rfl

/-- Some last byte leads to any of a hundred buckets. -/
theorem exists_lastByte :
    ∀ bucket : Fin 100, ∃ last : Fin 256,
      UInt8.ofNat last ≠ 0 ∧
        ((sysvRound sysvCycle (UInt8.ofNat last) &&&
          0xfffffff).setWidth 32).toNat % 100 = bucket := by
  -- What is hashed before leads to bucket 64, and the byte is added.
  have isLast :
      ∀ bucket : Fin 100,
        UInt8.ofNat ((bucket + 35) % 100 + 1) ≠ 0 ∧
          ((sysvRound sysvCycle (UInt8.ofNat ((bucket + 35) % 100 + 1)) &&&
            0xfffffff).setWidth 32).toNat % 100 = bucket := by
    decide +kernel
  exact fun bucket => ⟨⟨(bucket + 35) % 100 + 1, by omega⟩, isLast bucket⟩

/-- Every bucket has a name that is not among some given ones. -/
theorem exists_name
    (names : List CString) {bucket : Nat} (isBucket : bucket < 100) :
    ∃ name, name ∉ names ∧ bucketOf 100 name = bucket := by
  obtain ⟨last, notNul, isLast⟩ := exists_lastByte ⟨bucket, isBucket⟩
  refine ⟨longName (names.map CString.length).sum _ notNul, ?_, ?_⟩
  · intro member
    have isShort :=
      List.le_sum_of_mem
        (List.mem_map_of_mem (f := CString.length) member)
    unfold CString.length longName at isShort
    simp only [List.length_append, List.length_replicate,
      List.length_singleton] at isShort
    omega
  · unfold bucketOf
    rw [sysvHash_longName]
    exact isLast

end BinTools.DtHashTable
