import BinTools.GnuHashBuild

namespace BinTools.GnuHashTable

/-!
# Looking up names that were never exported

The reader only stops at an odd chain word, and the builder never stores one:
`gh & -2` clears the very bit that `gnu_lookup` tests.  An unknown name is
therefore answered only when the Bloom filter or an empty bucket turns it away
before the walk begins; every other walk leaves the chain.
-/

instance
    (table : GnuHashTable) (names : List CString) (index shift : Nat) :
    Decidable (BloomBit table names index shift) :=
  inferInstanceAs (Decidable (∃ name ∈ names, _))

/-- The table answers "not exported" and reads no slot that was never used. -/
def AnswersAbsent
    (table : GnuHashTable) (nameAt : Nat → Option CString)
    (names : List CString) (query : CString) : Prop :=
  ∃ filled ∈ table.addGnuHashEntries 1 names,
    (filled.findSym2 nameAt query).result = some 0 ∧
      ∀ slot ∈ (filled.findSym2 nameAt query).chainSlots,
        slot < names.length

instance
    (table : GnuHashTable) (nameAt : Nat → Option CString)
    (names : List CString) (query : CString) :
    Decidable (AnswersAbsent table nameAt names query) :=
  inferInstanceAs (Decidable (∃ filled ∈ _, _ ∧ ∀ slot ∈ _, _))

/--
No chain walk is needed for the query: one of its two Bloom bits was set by no
added name, or no added name selects its bucket.
-/
def TurnedAway
    (table : GnuHashTable) (names : List CString) (query : CString) : Prop :=
  let gh := gnuHash query
  ¬ table.BloomBit names (table.bloomIndex (gh / 64)) (shift1 gh) ∨
    ¬ table.BloomBit names (table.bloomIndex (gh / 64)) (table.shift2 gh) ∨
      ∀ name ∈ names, table.bucketOf (gnuHash name) ≠ table.bucketOf gh

instance
    (table : GnuHashTable) (names : List CString) (query : CString) :
    Decidable (TurnedAway table names query) :=
  inferInstanceAs (Decidable (_ ∨ _ ∨ ∀ name ∈ names, _))

/-- A walk over even words from a real symbol index never reports absence. -/
theorem gnuWalk_result_ne_zero
    {nameAt : Nat → Option CString} {s : CString} {h1 : U32}
    {i slot : Nat} {words : List U32}
    (evenWords : ∀ word ∈ words, word &&& 1 = 0)
    (realIndex : i ≠ 0) :
    (gnuWalk nameAt s h1 i slot words).result ≠ some 0 := by
  induction words generalizing i slot with
  | nil => simp [gnuWalk]
  | cons word rest inductionHypothesis =>
      have evenHead : ¬ word &&& 1 ≠ 0 := by
        simpa using evenWords word (by simp)
      have later :
          (gnuWalk nameAt s h1 (i + 1) (slot + 1) rest).result ≠ some 0 :=
        inductionHypothesis
          (fun word member => evenWords word (by simp [member]))
          (Nat.succ_ne_zero i)
      rw [gnuWalk, if_neg evenHead]
      by_cases sameHash : h1 = word ||| 1
      · rw [if_pos sameHash]
        cases nameAt i with
        | none => simp
        | some name =>
            by_cases sameName : name = s
            · simp [sameName, realIndex]
            · simpa only [sameName, ↓reduceIte] using later
      · simpa only [sameHash, ↓reduceIte] using later

/-- The header words decide Bloom bits. -/
theorem SameHeader.bloomBit_iff
    {first second : GnuHashTable} (header : SameHeader first second)
    {names : List CString} {index shift : Nat} :
    first.BloomBit names index shift ↔ second.BloomBit names index shift := by
  simp [BloomBit, bloomIndex, shift2, header.bloomSize, header.bloomShift]

/-- The header words decide who is turned away. -/
theorem SameHeader.turnedAway_iff
    {first second : GnuHashTable} (header : SameHeader first second)
    {names : List CString} {query : CString} :
    first.TurnedAway names query ↔ second.TurnedAway names query := by
  have index : first.bloomIndex = second.bloomIndex := by
    funext gh
    simp [bloomIndex, header.bloomSize]
  have shift : first.shift2 = second.shift2 := by
    funext gh
    simp [shift2, header.bloomShift]
  have bucket : first.bucketOf = second.bucketOf := by
    funext gh
    simp [bucketOf, header.nbuckets]
  simp only [TurnedAway, header.bloomBit_iff, index, shift, bucket]

/-- On a built table a lookup ends before the walk or goes on to walk. -/
theorem Built.findSym2_eq
    {names : List CString} {table : GnuHashTable} {exponent : Nat}
    (built : Built names table)
    (positive : 0 < table.nbuckets.toNat)
    (powerOfTwo : table.bloomSize.toNat = 2 ^ exponent)
    (nameAt : Nat → Option CString) (query : CString) :
    table.findSym2 nameAt query =
      if table.TurnedAway names query then
        ⟨some 0, []⟩
      else
        let head :=
          table.bucketHead names (table.bucketOf (gnuHash query))
        gnuWalk nameAt query (gnuHash query ||| 1) head (head - 1)
          (table.chain.drop (head - 1)) := by
  have inBounds :
      table.bloomIndex (gnuHash query / 64) < table.bloomArray.length := by
    rw [built.bloomLength]
    exact bloomIndex_lt _ powerOfTwo
  have present := List.getElem?_eq_getElem inBounds
  have bits := built.bloomBits present
  have headPresent :=
    built.bucketHeads _ (bucketOf_lt (gnuHash query) positive)
  have first : shift1 (gnuHash query) < 64 := Nat.mod_lt _ (by decide)
  have headSlot : ∀ head, head - table.symoffset.toNat = head - 1 := by
    intro head
    simp [built.symoffset]
  simp only [findSym2, gnuLookupFiltered, present, and_bit_eq_zero first,
    shift_and_one_eq_zero, ← Bool.not_eq_true, bits, gnuLookup,
    headPresent, headSlot, TurnedAway, ← bucketHead_eq_zero_iff]
  split_ifs <;> simp_all

/--
A name is answered as absent, within the slots in use, exactly when the Bloom
filter or an empty bucket turns it away: a walk that starts never finds an
end-of-chain mark.
-/
theorem answersAbsent_iff_turnedAway
    (nbuckets bloomSize bloomShift : U32) (exponent spare : Nat)
    (nameAt : Nat → Option CString)
    (names : List CString) (query : CString)
    (positive : 0 < nbuckets.toNat)
    (powerOfTwo : bloomSize.toNat = 2 ^ exponent) :
    AnswersAbsent
        (zeroed nbuckets bloomSize bloomShift (names.length + spare))
        nameAt names query ↔
      TurnedAway
        (zeroed nbuckets bloomSize bloomShift (names.length + spare))
        names query := by
  obtain ⟨filled, run, built, header, _⟩ :=
    (built_zeroed nbuckets bloomSize bloomShift
      (names.length + spare)).addGnuHashEntries
      (by simpa [zeroed] using positive) (by simpa [zeroed] using powerOfTwo)
      names (by simp [zeroed])
  simp only [List.nil_append, List.length_nil, Nat.zero_add] at run built
  rw [header.turnedAway_iff]
  have lookup :=
    built.findSym2_eq
      (by simpa [← header.nbuckets, zeroed] using positive)
      (by simpa [← header.bloomSize, zeroed] using powerOfTwo)
      nameAt query
  constructor
  · rintro ⟨_, otherRun, absent, _⟩
    cases run.symm.trans otherRun
    by_contra walks
    rw [lookup, if_neg walks] at absent
    have headReal :
        filled.bucketHead names (filled.bucketOf (gnuHash query)) ≠ 0 := by
      rw [ne_eq, bucketHead_eq_zero_iff]
      intro nobody
      exact walks (Or.inr (Or.inr nobody))
    exact
      gnuWalk_result_ne_zero
        (fun word member =>
          built.chainEven word (List.mem_of_mem_drop member))
        headReal absent
  · intro away
    rw [if_pos away] at lookup
    exact ⟨filled, run, by simp [lookup], by simp [lookup]⟩

/-- With the linker's own parameters, `zz` is turned away behind `aB`. -/
theorem answersAbsent_aB_zz :
    AnswersAbsent (zeroed 1 2 5 1)
      (fun i => [CString.empty, .ofBytes [97, 66]][i]?)
      [.ofBytes [97, 66]] (.ofBytes [122, 122]) :=
  (answersAbsent_iff_turnedAway 1 2 5 1 0
    (fun i => [CString.empty, .ofBytes [97, 66]][i]?)
    [.ofBytes [97, 66]] (.ofBytes [122, 122])
    (by decide) (by decide)).mpr (by decide +kernel)

/--
`b!` has the hash of `aB`: behind a table that exports only `aB`, the walk for
`b!` passes the one chain slot in use and runs off the chain.
-/
theorem not_answersAbsent_aB_bBang :
    ¬ AnswersAbsent (zeroed 1 2 5 1)
      (fun i => [CString.empty, .ofBytes [97, 66]][i]?)
      [.ofBytes [97, 66]] (.ofBytes [98, 33]) := by
  decide +kernel

end BinTools.GnuHashTable
