import BinTools.GnuHashPresent

namespace BinTools.GnuHashTable

/-!
# A table with one bucket

The linker builds its hash table with one bucket.  All names then share one
chain that is filled from its first slot on, and a hash that is zero once its
low bit is masked does not use its slot up.  The word in the n-th slot is thus
the n-th hash that is not zero.
-/

/-- The masked hashes that are not zero, in the order of the names. -/
def nonzeroHashes (names : List CString) : List U32 :=
  (names.map fun name => maskedHash (gnuHash name)).filter (· ≠ 0)

/-- The word that a chain slot of a single bucket holds. -/
def slotHash (names : List CString) (position : Nat) : U32 :=
  ((nonzeroHashes names)[position]?).getD 0

/-- The name at a position is found there: its slot holds its own hash. -/
def Findable (names : List CString) (name : CString) (position : Nat) :
    Prop :=
  names[position]? = some name ∧
    slotHash names position = maskedHash (gnuHash name)

/-- The first position at which a name is found. -/
def FirstFindable
    (names : List CString) (name : CString) (position : Nat) : Prop :=
  Findable names name position ∧
    ∀ earlier < position, ¬ Findable names name earlier

instance (names : List CString) (name : CString) (position : Nat) :
    Decidable (Findable names name position) :=
  inferInstanceAs (Decidable (_ ∧ _))

instance (names : List CString) (name : CString) (position : Nat) :
    Decidable (FirstFindable names name position) :=
  inferInstanceAs (Decidable (_ ∧ ∀ earlier < position, _))

/-- One bucket whose chain holds the hashes that are not zero. -/
structure SingleBucket (names : List CString) (table : GnuHashTable) :
    Prop where
  oneBucket : table.nbuckets = 1
  words :
    ∀ position < table.chain.length,
      table.chain[position]? = some (slotHash names position)

/-- The zeroed table with one bucket. -/
theorem singleBucket_zeroed (bloomSize bloomShift : U32) (slots : Nat) :
    SingleBucket [] (zeroed 1 bloomSize bloomShift slots) where
  oneBucket := rfl
  words := by
    intro position inChain
    simp only [zeroed, List.length_replicate] at inChain
    simp [zeroed, slotHash, nonzeroHashes, inChain]

/-- Every hash selects the only bucket. -/
theorem SingleBucket.bucketOf_eq
    {names : List CString} {table : GnuHashTable}
    (single : SingleBucket names table) (gh : U32) :
    table.bucketOf gh = 0 := by
  have below := table.bucketOf_lt gh (by simp [single.oneBucket])
  simpa [single.oneBucket] using below

/-- There are no more words in use than names. -/
theorem length_nonzeroHashes_le (names : List CString) :
    (nonzeroHashes names).length ≤ names.length := by
  simpa [nonzeroHashes] using
    List.length_filter_le (· ≠ 0)
      (names.map fun name => maskedHash (gnuHash name))

/-- One more name adds its hash unless that is zero. -/
theorem nonzeroHashes_append (names : List CString) (name : CString) :
    nonzeroHashes (names ++ [name]) =
      nonzeroHashes names ++
        if maskedHash (gnuHash name) = 0 then
          []
        else
          [maskedHash (gnuHash name)] := by
  simp only [nonzeroHashes, List.map_append, List.filter_append,
    List.map_cons, List.map_nil, List.filter_cons, List.filter_nil]
  split <;> simp_all

/-- The next hash lands behind the words in use. -/
theorem SingleBucket.landingSlot_eq
    {names : List CString} {table : GnuHashTable}
    (single : SingleBucket names table)
    (room : names.length < table.chain.length) (gh : U32) :
    table.landingSlot names gh = some (nonzeroHashes names).length := by
  have few := length_nonzeroHashes_le names
  cases names with
  | nil => simp [landingSlot, bucketHead, nonzeroHashes]
  | cons first rest =>
      have headAtMost :
          table.bucketHead (first :: rest) (table.bucketOf gh) ≤ 1 := by
        have atFirst : (first :: rest)[0]? = some first := rfl
        have sameBucket :
            table.bucketOf gh = table.bucketOf (gnuHash first) := by
          rw [single.bucketOf_eq, single.bucketOf_eq]
        rw [sameBucket]
        exact bucketHead_le_of_mem atFirst
      have headReal :
          table.bucketHead (first :: rest) (table.bucketOf gh) ≠ 0 := by
        rw [ne_eq, bucketHead_eq_zero_iff]
        intro nobody
        exact
          nobody first (by simp)
            ((single.bucketOf_eq _).trans (single.bucketOf_eq _).symm)
      have fromStart :
          table.bucketHead (first :: rest) (table.bucketOf gh) - 1 = 0 := by
        omega
      rw [landingSlot, if_neg headReal, fromStart,
        firstZeroFrom_eq_some_iff]
      refine ⟨Nat.zero_le _, ?_, ?_⟩
      · rw [single.words _ (by omega), slotHash]
        simp
      · intro earlier _ inUse
        have present := List.getElem?_eq_getElem inUse
        have notZero :
            (nonzeroHashes (first :: rest))[earlier] ≠ 0 := by
          have member := List.getElem_mem inUse
          simpa [nonzeroHashes] using (List.mem_filter.mp member).2
        rw [single.words _ (by omega), slotHash, present]
        simpa using notZero

/-- One more name keeps the shape of the chain. -/
theorem SingleBucket.append
    {names : List CString} {table next : GnuHashTable} {name : CString}
    {slot : Nat}
    (single : SingleBucket names table)
    (room : names.length < table.chain.length)
    (lands : table.landingSlot names (gnuHash name) = some slot)
    (header : SameHeader table next)
    (chain : next.chain = table.chain.set slot (maskedHash (gnuHash name))) :
    SingleBucket (names ++ [name]) next where
  oneBucket := header.nbuckets ▸ single.oneBucket
  words := by
    intro position inChain
    rw [chain, List.length_set] at inChain
    rw [single.landingSlot_eq room] at lands
    cases lands
    rw [chain, slotHash, nonzeroHashes_append]
    have before := single.words position inChain
    rw [slotHash] at before
    rcases Nat.lt_trichotomy position (nonzeroHashes names).length with
      earlier | isNext | later
    · rw [List.getElem?_set_ne (by omega), before,
        List.getElem?_append_left earlier]
    · rw [← isNext, List.getElem?_set_self inChain, isNext]
      split <;> simp_all
    · rw [List.getElem?_set_ne (by omega), before,
        List.getElem?_eq_none (by omega), List.getElem?_eq_none]
      rw [List.length_append]
      split <;> simp <;> omega

/-- A chain word matches the hash of a name when it is that hash, masked. -/
theorem or_one_eq_iff
    {word : U32} {name : CString} (even : word &&& 1 = 0) :
    gnuHash name ||| 1 = word ||| 1 ↔
      word = maskedHash (gnuHash name) := by
  constructor
  · intro sameHash
    apply BitVec.eq_of_getLsbD_eq
    intro i inRange
    have evenBit := congrArg (BitVec.getLsbD · i) even
    have maskedBit :=
      congrArg (BitVec.getLsbD · i) (maskedHash_even (gnuHash name))
    have sameBit :=
      congrArg (BitVec.getLsbD · i)
        ((maskedHash_or_one (gnuHash name)).trans sameHash)
    by_cases low : i = 0
    · subst low
      have wordClear : word.getLsbD 0 = false := by simpa using evenBit
      rw [wordClear]
      simpa using maskedBit.symm
    · simpa [low] using sameBit.symm
  · rintro rfl
    exact (maskedHash_or_one _).symm

/--
In a single bucket, a lookup answers with the symbol at a position exactly when
that is the first position the name is found at.
-/
theorem SingleBucket.findSym2_iff
    {names : List CString} {table : GnuHashTable} {exponent : Nat}
    {nameAt : Nat → Option CString} {s : CString} {position : Nat}
    (single : SingleBucket names table)
    (built : Built names table)
    (powerOfTwo : table.bloomSize.toNat = 2 ^ exponent)
    (room : names.length ≤ table.chain.length)
    (named :
      ∀ position name,
        names[position]? = some name → nameAt (position + 1) = some name)
    (inNames : position < names.length) :
    (table.findSym2 nameAt s).result = some (position + 1) ↔
      FirstFindable names s position := by
  have positive : 0 < table.nbuckets.toNat := by
    simp [single.oneBucket]
  have matches_ :
      ∀ index word, table.chain[index]? = some word →
        (gnuHash s ||| 1 = word ||| 1 ↔
          slotHash names index = maskedHash (gnuHash s)) := by
    intro index word present
    have inChain := (List.getElem?_eq_some_iff.mp present).1
    have even := built.chainEven word (List.mem_of_getElem? present)
    have holds := single.words index inChain
    cases present.symm.trans holds
    exact or_one_eq_iff even
  constructor
  · intro found
    have walks : ¬ table.TurnedAway names s := by
      intro away
      rw [built.findSym2_eq positive powerOfTwo, if_pos away] at found
      cases found
    rw [built.findSym2_eq_some_iff positive powerOfTwo nameAt walks]
      at found
    have here := List.getElem?_eq_getElem inNames
    have isName : names[position] = s := by
      have bearsName := named _ _ here
      cases bearsName.symm.trans found.named
      rfl
    obtain ⟨word, present, sameHash⟩ := found.inSlot
    refine ⟨⟨isName ▸ here, (matches_ _ _ present).mp sameHash⟩, ?_⟩
    rintro earlier before ⟨alsoHere, alsoHash⟩
    have earlierPresent := single.words earlier (by omega)
    obtain ⟨other, otherNamed, differs⟩ :=
      found.earlier (earlier + 1) (bucketHead_le_of_mem alsoHere) (by omega)
        _ earlierPresent ((matches_ _ _ earlierPresent).mpr alsoHash)
    cases (named _ _ alsoHere).symm.trans otherNamed
    exact differs rfl
  · rintro ⟨⟨here, ownHash⟩, notEarlier⟩
    have member : s ∈ names := List.mem_of_getElem? here
    rw [built.findSym2_eq_some_iff positive powerOfTwo nameAt
      (not_turnedAway_of_mem member)]
    have present := single.words position (by omega)
    refine
      { fromHead := bucketHead_le_of_mem here
        inSlot := ⟨_, present, (matches_ _ _ present).mpr ownHash⟩
        named := named _ _ here
        earlier := ?_ }
    intro i fromHead before word wordPresent sameHash
    have realIndex : i ≠ 0 := by
      rintro rfl
      have emptyBucket := Nat.le_zero.mp fromHead
      rw [bucketHead_eq_zero_iff] at emptyBucket
      exact emptyBucket s member rfl
    have inBounds : i - 1 < names.length := by omega
    have atIndex := List.getElem?_eq_getElem inBounds
    have bearsName := named _ _ atIndex
    rw [show i - 1 + 1 = i by omega] at bearsName
    refine ⟨names[i - 1], bearsName, ?_⟩
    intro isName
    exact
      notEarlier (i - 1) (by omega)
        ⟨isName ▸ atIndex, (matches_ _ _ wordPresent).mp sameHash⟩

end BinTools.GnuHashTable
