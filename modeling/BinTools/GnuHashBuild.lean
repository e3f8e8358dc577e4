import BinTools.GnuHashTable
import Mathlib.Tactic.Common

namespace BinTools.GnuHashTable

/-!
# What the GNU hash builder leaves behind

`Built names table` describes the table after `names` were added in order
under the symbol indices 1, 2, 3, ...: which Bloom bits are set, which symbol
heads every bucket and that the chain words not yet used are still zero.  One
call of `add_gnu_hash_entry` keeps it, so every build run does.
-/

/-- The masked hash stored in a chain slot is always even. -/
theorem maskedHash_even (gh : U32) : maskedHash gh &&& 1 = 0 := by
  have disjoint : (-2 : U32) &&& 1 = 0 := by decide
  rw [maskedHash, BitVec.and_assoc, disjoint]
  simp

/-- A chain word matches the hash it was made from. -/
theorem maskedHash_or_one (gh : U32) : maskedHash gh ||| 1 = gh ||| 1 := by
  have everyBit : ∀ i < 32, (-2 : U32).getLsbD i = !decide (i = 0) := by
    decide
  apply BitVec.eq_of_getLsbD_eq
  intro i inRange
  simp only [maskedHash, BitVec.getLsbD_or, BitVec.getLsbD_and,
    everyBit i inRange]
  by_cases low : i = 0 <;> simp [low]

/-- Reading one bit through a mask. -/
theorem and_bit_eq_zero
    {word : U64} {shift : Nat} (inRange : shift < 64) :
    word &&& bit shift = 0 ↔ word.getLsbD shift = false := by
  constructor
  · intro masked
    have bitMasked := congrArg (BitVec.getLsbD · shift) masked
    simpa [bit, inRange] using bitMasked
  · intro clear
    apply BitVec.eq_of_getLsbD_eq
    intro i iInRange
    simp only [bit, BitVec.getLsbD_and, BitVec.getLsbD_twoPow]
    by_cases same : shift = i
    · subst i
      simp [clear]
    · simp [same]

/-- Reading one bit by shifting it down. -/
theorem shift_and_one_eq_zero {word : U64} {shift : Nat} :
    (word >>> shift) &&& 1 = 0 ↔ word.getLsbD shift = false := by
  constructor
  · intro masked
    have bitMasked := congrArg (BitVec.getLsbD · 0) masked
    simpa using bitMasked
  · intro clear
    apply BitVec.eq_of_getLsbD_eq
    intro i iInRange
    by_cases low : i = 0 <;> simp [low, clear]

/-- Setting two bits of a word. -/
theorem getLsbD_or_bits
    {word : U64} {first second i : Nat}
    (firstInRange : first < 64) (secondInRange : second < 64) :
    (word ||| bit first ||| bit second).getLsbD i =
      (word.getLsbD i || decide (i = first) || decide (i = second)) := by
  simp only [bit, BitVec.getLsbD_or, BitVec.getLsbD_twoPow]
  grind

/-- A power-of-two filter never selects a word outside of itself. -/
theorem bloomIndex_lt
    {table : GnuHashTable} {exponent : Nat} (index : U32)
    (powerOfTwo : table.bloomSize.toNat = 2 ^ exponent) :
    table.bloomIndex index < table.bloomSize.toNat := by
  have positive : 0 < table.bloomSize.toNat := by
    rw [powerOfTwo]
    exact Nat.two_pow_pos exponent
  have below : table.bloomIndex index ≤ (table.bloomSize - 1).toNat := by
    simpa [bloomIndex] using Nat.and_le_right
  have predecessor :
      (table.bloomSize - 1).toNat = table.bloomSize.toNat - 1 := by
    have small := table.bloomSize.isLt
    rw [BitVec.toNat_sub]
    have one : (1 : U32).toNat = 1 := rfl
    omega
  omega

/-- A bucket number is below the number of buckets. -/
theorem bucketOf_lt
    {table : GnuHashTable} (gh : U32)
    (positive : 0 < table.nbuckets.toNat) :
    table.bucketOf gh < table.nbuckets.toNat := by
  simpa [bucketOf] using Nat.mod_lt gh.toNat positive

/-- `firstZeroFrom` returns the least zero slot at or after its start. -/
theorem firstZeroFrom_eq_some_iff
    {chain : List U32} {start slot : Nat} :
    firstZeroFrom chain start = some slot ↔
      start ≤ slot ∧ chain[slot]? = some 0 ∧
        ∀ earlier, start ≤ earlier → earlier < slot →
          chain[earlier]? ≠ some 0 := by
  simp only [firstZeroFrom, Option.map_eq_some_iff,
    List.findIdx?_eq_some_iff_getElem]
  constructor
  · rintro ⟨offset, ⟨inBounds, zeroThere, before⟩, rfl⟩
    have inChain : start + offset < chain.length := by
      simp only [List.length_drop] at inBounds
      omega
    refine ⟨Nat.le_add_right _ _, ?_, ?_⟩
    · rw [List.getElem?_eq_getElem inChain]
      simpa using zeroThere
    · intro earlier fromStart beforeSlot zeroEarlier
      have notZero := before (earlier - start) (by omega)
      have position : start + (earlier - start) = earlier := by omega
      simp only [List.getElem_drop, position] at notZero
      rw [List.getElem?_eq_getElem (by omega)] at zeroEarlier
      simp_all
  · rintro ⟨fromStart, zeroThere, before⟩
    obtain ⟨inChain, isZero⟩ := List.getElem?_eq_some_iff.mp zeroThere
    have position : start + (slot - start) = slot := by omega
    refine ⟨slot - start, ⟨by simp; omega, ?_, ?_⟩, position⟩
    · simpa [position] using isZero
    · intro offset offsetBefore
      have notZero := before (start + offset) (by omega) (by omega)
      rw [List.getElem?_eq_getElem (by omega)] at notZero
      simpa using notZero

/-- A zero slot ahead makes the search succeed no later than there. -/
theorem exists_firstZeroFrom
    {chain : List U32} {start zeroSlot : Nat}
    (ahead : start ≤ zeroSlot) (isZero : chain[zeroSlot]? = some 0) :
    ∃ slot, firstZeroFrom chain start = some slot ∧ slot ≤ zeroSlot := by
  cases found : firstZeroFrom chain start with
  | none =>
      simp only [firstZeroFrom, Option.map_eq_none_iff,
        List.findIdx?_eq_none_iff] at found
      have zeroMember : (0 : U32) ∈ chain.drop start := by
        rw [List.mem_iff_getElem?]
        refine ⟨zeroSlot - start, ?_⟩
        rw [List.getElem?_drop]
        simpa [Nat.add_sub_cancel' ahead] using isZero
      simpa using found 0 zeroMember
  | some slot =>
      refine ⟨slot, rfl, ?_⟩
      obtain ⟨_, _, before⟩ := firstZeroFrom_eq_some_iff.mp found
      by_contra later
      exact before zeroSlot ahead (by omega) isZero

/-- Some added name sets this bit of this Bloom word. -/
def BloomBit
    (table : GnuHashTable) (names : List CString) (index shift : Nat) : Prop :=
  ∃ name ∈ names,
    table.bloomIndex (gnuHash name / 64) = index ∧
      (shift1 (gnuHash name) = shift ∨ table.shift2 (gnuHash name) = shift)

/--
The symbol index a bucket points to: the first added name of that bucket,
counting from one, or zero when no name of that bucket was added.
-/
def bucketHead
    (table : GnuHashTable) (names : List CString) (bucket : Nat) : Nat :=
  (names.findIdx?
    (fun name => table.bucketOf (gnuHash name) = bucket)).elim 0 (· + 1)

/-- Two tables share the four header words. -/
structure SameHeader (first second : GnuHashTable) : Prop where
  nbuckets : first.nbuckets = second.nbuckets
  symoffset : first.symoffset = second.symoffset
  bloomSize : first.bloomSize = second.bloomSize
  bloomShift : first.bloomShift = second.bloomShift

/-- Sharing the header words is transitive. -/
theorem SameHeader.trans
    {first second third : GnuHashTable}
    (earlier : SameHeader first second) (later : SameHeader second third) :
    SameHeader first third :=
  ⟨earlier.nbuckets.trans later.nbuckets,
    earlier.symoffset.trans later.symoffset,
    earlier.bloomSize.trans later.bloomSize,
    earlier.bloomShift.trans later.bloomShift⟩

/-- The table that adding `names` under the indices 1, 2, ... leaves. -/
structure Built (names : List CString) (table : GnuHashTable) : Prop where
  symoffset : table.symoffset = 1
  bloomLength : table.bloomArray.length = table.bloomSize.toNat
  bucketsLength : table.buckets.length = table.nbuckets.toNat
  bloomBits :
    ∀ {index word}, table.bloomArray[index]? = some word →
      ∀ shift, word.getLsbD shift = true ↔ table.BloomBit names index shift
  bucketHeads :
    ∀ bucket < table.nbuckets.toNat,
      table.buckets[bucket]? = some (table.bucketHead names bucket)
  chainEven : ∀ word ∈ table.chain, word &&& 1 = 0
  chainClear :
    ∀ slot, names.length ≤ slot → slot < table.chain.length →
      table.chain[slot]? = some 0

/-- The zeroed block is the table no name was added to. -/
theorem built_zeroed (nbuckets bloomSize bloomShift : U32) (slots : Nat) :
    Built [] (zeroed nbuckets bloomSize bloomShift slots) where
  symoffset := rfl
  bloomLength := by simp [zeroed]
  bucketsLength := by simp [zeroed]
  bloomBits := by
    intro index word present shift
    have wordZero : word = 0 := by
      simp only [zeroed, List.getElem?_replicate] at present
      split at present <;> simp_all
    simp [wordZero, BloomBit]
  bucketHeads := by
    intro bucket inRange
    simp only [zeroed] at inRange
    simp [zeroed, bucketHead, inRange]
  chainEven := by
    intro word member
    simp only [zeroed, List.mem_replicate] at member
    simp [member.2]
  chainClear := by
    intro slot _ inRange
    simp only [zeroed, List.length_replicate] at inRange
    simp [zeroed, inRange]

/-- A bucket keeps its head; an empty one is headed by a name it takes. -/
theorem bucketHead_append
    (table : GnuHashTable) (names : List CString) (name : CString)
    (bucket : Nat) :
    table.bucketHead (names ++ [name]) bucket =
      if table.bucketHead names bucket ≠ 0 then
        table.bucketHead names bucket
      else if table.bucketOf (gnuHash name) = bucket then
        names.length + 1
      else
        0 := by
  cases found : names.findIdx?
      (fun name => decide (table.bucketOf (gnuHash name) = bucket)) with
  | some position => simp [bucketHead, List.findIdx?_append, found]
  | none =>
      by_cases taken : table.bucketOf (gnuHash name) = bucket <;>
        simp [bucketHead, List.findIdx?_append, found, taken]

/-- A bucket head is a symbol index already handed out. -/
theorem bucketHead_le
    (table : GnuHashTable) (names : List CString) (bucket : Nat) :
    table.bucketHead names bucket ≤ names.length := by
  unfold bucketHead
  cases found : names.findIdx?
      (fun name => decide (table.bucketOf (gnuHash name) = bucket)) with
  | none => exact Nat.zero_le _
  | some position =>
      obtain ⟨inBounds, _, _⟩ := List.findIdx?_eq_some_iff_getElem.mp found
      exact inBounds

/-- A bucket without a head was selected by no added name. -/
theorem bucketHead_eq_zero_iff
    {table : GnuHashTable} {names : List CString} {bucket : Nat} :
    table.bucketHead names bucket = 0 ↔
      ∀ name ∈ names, table.bucketOf (gnuHash name) ≠ bucket := by
  unfold bucketHead
  cases found : names.findIdx?
      (fun name => decide (table.bucketOf (gnuHash name) = bucket)) with
  | none => simpa using List.findIdx?_eq_none_iff.mp found
  | some position =>
      obtain ⟨inBounds, selected, _⟩ :=
        List.findIdx?_eq_some_iff_getElem.mp found
      have member := List.getElem_mem inBounds
      simp only [Option.elim_some, Nat.add_one_ne_zero, false_iff]
      intro noneSelected
      exact noneSelected _ member (by simpa using selected)

/--
The chain slot that the hash of the next added name is stored in: its own
slot when its bucket is empty, the first zero slot from the bucket's head on
otherwise.
-/
def landingSlot
    (table : GnuHashTable) (names : List CString) (gh : U32) : Option Nat :=
  if table.bucketHead names (table.bucketOf gh) = 0 then
    some names.length
  else
    firstZeroFrom table.chain (table.bucketHead names (table.bucketOf gh) - 1)

/-- With room for one more symbol, the next hash lands at most in its slot. -/
theorem Built.exists_landingSlot
    {names : List CString} {table : GnuHashTable}
    (built : Built names table)
    (room : names.length < table.chain.length) (gh : U32) :
    ∃ slot, table.landingSlot names gh = some slot ∧ slot ≤ names.length := by
  unfold landingSlot
  by_cases emptyBucket : table.bucketHead names (table.bucketOf gh) = 0
  · exact ⟨names.length, by simp [emptyBucket], Nat.le_refl _⟩
  · have headInRange := table.bucketHead_le names (table.bucketOf gh)
    simp only [emptyBucket, ↓reduceIte]
    exact exists_firstZeroFrom (by omega)
      (built.chainClear names.length (Nat.le_refl _) room)

/-- `set_bloom_bits` on a built table. -/
theorem Built.setBloomBits_eq
    {names : List CString} {table : GnuHashTable} {exponent : Nat}
    (built : Built names table)
    (powerOfTwo : table.bloomSize.toNat = 2 ^ exponent) (gh : U32) :
    ∃ vector,
      table.bloomArray[table.bloomIndex (gh / 64)]? = some vector ∧
        table.setBloomBits gh =
          some
            { table with
              bloomArray :=
                table.bloomArray.set (table.bloomIndex (gh / 64))
                  (vector ||| bit (shift1 gh) ||| bit (table.shift2 gh)) } := by
  have inBounds :
      table.bloomIndex (gh / 64) < table.bloomArray.length := by
    rw [built.bloomLength]
    exact bloomIndex_lt _ powerOfTwo
  have present := List.getElem?_eq_getElem inBounds
  refine ⟨table.bloomArray[table.bloomIndex (gh / 64)], present, ?_⟩
  simp only [setBloomBits, present, Option.map_some]

/-- A name contributes exactly its own two bits to the Bloom words. -/
theorem bloomBit_append
    {table : GnuHashTable} {names : List CString} {name : CString}
    {index shift : Nat} :
    table.BloomBit (names ++ [name]) index shift ↔
      table.BloomBit names index shift ∨
        (table.bloomIndex (gnuHash name / 64) = index ∧
          (shift1 (gnuHash name) = shift ∨
            table.shift2 (gnuHash name) = shift)) := by
  simp only [BloomBit, List.mem_append, List.mem_singleton]
  constructor
  · rintro ⟨added, member | rfl, bits⟩
    · exact Or.inl ⟨added, member, bits⟩
    · exact Or.inr bits
  · rintro (⟨added, member, bits⟩ | bits)
    · exact ⟨added, Or.inl member, bits⟩
    · exact ⟨name, Or.inr rfl, bits⟩

/-- The Bloom words after the two bits of one more name were raised. -/
theorem Built.bloomBits_set
    {names : List CString} {table : GnuHashTable} {name : CString}
    {vector : U64}
    (built : Built names table)
    (vectorPresent :
      table.bloomArray[table.bloomIndex (gnuHash name / 64)]? = some vector)
    {index : Nat} {word : U64}
    (present :
      (table.bloomArray.set (table.bloomIndex (gnuHash name / 64))
        (vector ||| bit (shift1 (gnuHash name)) |||
          bit (table.shift2 (gnuHash name))))[index]? = some word)
    (shift : Nat) :
    word.getLsbD shift = true ↔
      table.BloomBit (names ++ [name]) index shift := by
  have first : shift1 (gnuHash name) < 64 := Nat.mod_lt _ (by decide)
  have second : table.shift2 (gnuHash name) < 64 := Nat.mod_lt _ (by decide)
  rw [bloomBit_append]
  by_cases same : table.bloomIndex (gnuHash name / 64) = index
  · subst index
    have inBounds := (List.getElem?_eq_some_iff.mp vectorPresent).1
    rw [List.getElem?_set_self inBounds] at present
    cases present
    rw [getLsbD_or_bits first second]
    have earlier := built.bloomBits vectorPresent shift
    simp only [Bool.or_eq_true, decide_eq_true_eq, earlier, true_and,
      or_assoc, @eq_comm _ shift]
  · rw [List.getElem?_set_ne same] at present
    have earlier := built.bloomBits present shift
    simp only [earlier, same, false_and, or_false]

/-- The bucket words after one more name took its bucket or joined it. -/
theorem Built.bucketHeads_set
    {names : List CString} {table : GnuHashTable} {name : CString}
    (built : Built names table)
    {bucket : Nat} (inRange : bucket < table.nbuckets.toNat) :
    (if table.bucketHead names (table.bucketOf (gnuHash name)) = 0 then
        table.buckets.set (table.bucketOf (gnuHash name)) (names.length + 1)
      else
        table.buckets)[bucket]? =
      some (table.bucketHead (names ++ [name]) bucket) := by
  have present := built.bucketHeads bucket inRange
  rw [bucketHead_append]
  by_cases emptyBucket :
      table.bucketHead names (table.bucketOf (gnuHash name)) = 0
  · by_cases same : table.bucketOf (gnuHash name) = bucket
    · subst bucket
      have inBounds := (List.getElem?_eq_some_iff.mp present).1
      simp [emptyBucket, inBounds]
    · simp only [emptyBucket, ↓reduceIte, List.getElem?_set_ne same,
        present, same]
      split <;> simp_all
  · simp only [emptyBucket, ↓reduceIte, present]
    by_cases same : table.bucketOf (gnuHash name) = bucket
    · subst bucket
      simp [emptyBucket]
    · simp only [same, ↓reduceIte]
      split <;> simp_all

/--
One call of `add_gnu_hash_entry`: it succeeds, changes one chain word and
leaves the table built from one name more.
-/
theorem Built.addGnuHashEntry
    {names : List CString} {table : GnuHashTable} {exponent : Nat}
    (built : Built names table)
    (positive : 0 < table.nbuckets.toNat)
    (powerOfTwo : table.bloomSize.toNat = 2 ^ exponent)
    (room : names.length < table.chain.length)
    (name : CString) :
    ∃ slot later,
      table.landingSlot names (gnuHash name) = some slot ∧
        table.addGnuHashEntry name (names.length + 1) = some later ∧
        Built (names ++ [name]) later ∧
        SameHeader table later ∧
        later.chain = table.chain.set slot (maskedHash (gnuHash name)) := by
  obtain ⟨slot, lands, slotInRange⟩ :=
    built.exists_landingSlot room (gnuHash name)
  obtain ⟨vector, vectorPresent, bloomStep⟩ :=
    built.setBloomBits_eq powerOfTwo (gnuHash name)
  have headPresent :=
    built.bucketHeads _ (bucketOf_lt (gnuHash name) positive)
  let buckets :=
    if table.bucketHead names (table.bucketOf (gnuHash name)) = 0 then
      table.buckets.set (table.bucketOf (gnuHash name)) (names.length + 1)
    else
      table.buckets
  let later : GnuHashTable :=
    { table with
      bloomArray :=
        table.bloomArray.set (table.bloomIndex (gnuHash name / 64))
          (vector ||| bit (shift1 (gnuHash name)) |||
            bit (table.shift2 (gnuHash name)))
      buckets := buckets
      chain := table.chain.set slot (maskedHash (gnuHash name)) }
  refine ⟨slot, later, lands, ?_, ?_, ⟨rfl, rfl, rfl, rfl⟩, rfl⟩
  · rw [GnuHashTable.addGnuHashEntry, bloomStep]
    have notZero : ¬ table.nbuckets = 0 := by
      intro isZero
      simp [isZero] at positive
    have ownSlot : names.length + 1 - table.symoffset.toNat = names.length := by
      simp [built.symoffset]
    have headSlot :
        ∀ head, head - table.symoffset.toNat = head - 1 := by
      intro head
      simp [built.symoffset]
    simp only [Option.bind_some, notZero, ↓reduceIte,
      checkGnuHashCollision]
    have bucketSame :
        bucketOf { table with
          bloomArray :=
            table.bloomArray.set (table.bloomIndex (gnuHash name / 64))
              (vector ||| bit (shift1 (gnuHash name)) |||
                bit (table.shift2 (gnuHash name))) } (gnuHash name) =
          table.bucketOf (gnuHash name) := rfl
    rw [bucketSame, headPresent, Option.bind_some]
    by_cases emptyBucket :
        table.bucketHead names (table.bucketOf (gnuHash name)) = 0
    · simp only [landingSlot, emptyBucket, ↓reduceIte,
        Option.some.injEq] at lands
      subst slot
      simp [emptyBucket, later, buckets, ownSlot, room]
    · simp only [landingSlot, emptyBucket, ↓reduceIte] at lands
      simp [emptyBucket, later, buckets, headSlot, lands]
  · exact
      { symoffset := built.symoffset
        bloomLength := by simpa [later] using built.bloomLength
        bucketsLength := by
          simp only [later, buckets]
          split <;> simp [built.bucketsLength]
        bloomBits := fun present shift =>
          built.bloomBits_set vectorPresent present shift
        bucketHeads := fun bucket inRange => built.bucketHeads_set inRange
        chainEven := by
          intro word member
          rcases List.mem_or_eq_of_mem_set member with earlier | rfl
          · exact built.chainEven word earlier
          · exact maskedHash_even _
        chainClear := by
          intro unused beyond inRange
          simp only [List.length_append, List.length_singleton] at beyond
          simp only [later, List.length_set] at inRange
          have away : slot ≠ unused := by omega
          simp only [later, List.getElem?_set_ne away]
          exact built.chainClear unused (by omega) inRange }

/--
A whole build run: with a chain slot for every name it succeeds and leaves the
table built from the names added.
-/
theorem Built.addGnuHashEntries
    {names : List CString} {table : GnuHashTable} {exponent : Nat}
    (built : Built names table)
    (positive : 0 < table.nbuckets.toNat)
    (powerOfTwo : table.bloomSize.toNat = 2 ^ exponent)
    (rest : List CString)
    (room : names.length + rest.length ≤ table.chain.length) :
    ∃ later,
      table.addGnuHashEntries (names.length + 1) rest = some later ∧
        Built (names ++ rest) later ∧
        SameHeader table later ∧
        later.chain.length = table.chain.length := by
  induction rest generalizing names table with
  | nil =>
      exact ⟨table, rfl, by simpa using built, ⟨rfl, rfl, rfl, rfl⟩, rfl⟩
  | cons name rest inductionHypothesis =>
      simp only [List.length_cons] at room
      obtain ⟨slot, next, _, added, nextBuilt, header, chainStep⟩ :=
        built.addGnuHashEntry positive powerOfTwo (by omega) name
      have sameLength : next.chain.length = table.chain.length := by
        simp [chainStep]
      obtain ⟨later, run, laterBuilt, laterHeader, laterLength⟩ :=
        inductionHypothesis nextBuilt
          (by rwa [← header.nbuckets])
          (by rwa [← header.bloomSize])
          (by simp only [List.length_append, List.length_singleton]; omega)
      refine ⟨later, ?_, by simpa using laterBuilt,
        header.trans laterHeader, laterLength.trans sameLength⟩
      simpa [GnuHashTable.addGnuHashEntries, added] using run

end BinTools.GnuHashTable
