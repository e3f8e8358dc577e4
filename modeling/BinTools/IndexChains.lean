import BinTools.PointerList
import Mathlib.Data.List.Nodup
import Mathlib.Data.List.Perm.Subperm
import Mathlib.Logic.Function.Basic

namespace IndexChains

/-!
# Chains of indices in an array of words

An array of words holds, from `base` on, for every index the next index of its
chain; zero ends a chain, so no chain can hold the index zero.  Some words in
front of the array start chains.  A new index is written where a chain ends,
that is, over a zero.  Reading or writing outside of the array is a fault.
-/

/--
Follow a chain from a position to the word that ends it; `none` when it leaves
the array or does not end within the given number of steps.
-/
def findEnd (words : List Nat) (base : Nat) : Nat → Nat → Option Nat
  | 0, _ => none
  | fuel + 1, position =>
      (words[position]?).bind fun word =>
        if word = 0 then
          some position
        else
          findEnd words base fuel (base + word)

/-- Follow a chain to the first index that is hit; zero if there is none. -/
def findIndex
    (words : List Nat) (base : Nat) (hit : Nat → Option Bool) :
    Nat → Nat → Option Nat
  | 0, _ => none
  | fuel + 1, index =>
      if index = 0 then
        some 0
      else
        (hit index).bind fun isHit =>
          if isHit then
            some index
          else
            (words[base + index]?).bind fun next =>
              findIndex words base hit fuel next

/-- A word as a pointer: zero is null. -/
def pointer (word : Nat) : Option Nat :=
  if word = 0 then none else some word

/-- The index behind an index. -/
def next (words : List Nat) (base index : Nat) : Option Nat :=
  (words[base + index]?).bind pointer

/-- The first index of a list that is hit; zero if there is none. -/
def firstHit (hit : Nat → Option Bool) : List Nat → Option Nat
  | [] => some 0
  | index :: rest =>
      (hit index).bind fun isHit =>
        if isHit then
          some index
        else
          firstHit hit rest

variable {words : List Nat} {base : Nat}

/-- Zero is null. -/
@[simp]
theorem pointer_zero : pointer 0 = none :=
  rfl

/-- Any other word is a pointer. -/
theorem pointer_eq_some {word : Nat} (notZero : word ≠ 0) :
    pointer word = some word :=
  if_neg notZero

/-- A pointer is its word. -/
theorem pointer_eq_some_iff {word index : Nat} :
    pointer word = some index ↔ word ≠ 0 ∧ word = index := by
  unfold pointer
  split_ifs with isZero <;> simp [isZero]

/-- Only zero is null. -/
theorem pointer_eq_none_iff {word : Nat} :
    pointer word = none ↔ word = 0 := by
  unfold pointer
  split_ifs with isZero <;> simp [isZero]

/-! ## Following a chain -/

/-- A chain that stays inside the array ends behind its last index. -/
theorem findEnd_eq
    {word : Nat} {front : List Nat} {last fuel : Nat}
    (linked :
      PointerList.Linked (next words base) (pointer word) (front ++ [last]))
    (inside : ∀ index ∈ front ++ [last], base + index < words.length)
    (enough : front.length + 1 ≤ fuel) :
    findEnd words base fuel (base + word) = some (base + last) := by
  induction front generalizing word fuel with
  | nil =>
      obtain ⟨isLast, ends⟩ := linked
      obtain ⟨_, rfl⟩ := pointer_eq_some_iff.mp isLast
      obtain ⟨fuel, rfl⟩ : ∃ more, fuel = more + 1 :=
        Nat.exists_eq_succ_of_ne_zero (by omega)
      have inArray := inside word (by simp)
      have isEnd : next words base word = none := ends
      unfold next at isEnd
      rw [List.getElem?_eq_getElem inArray, Option.bind_some,
        pointer_eq_none_iff] at isEnd
      rw [findEnd, List.getElem?_eq_getElem inArray, Option.bind_some,
        if_pos isEnd]
  | cons first rest inductionHypothesis =>
      obtain ⟨isFirst, restLinked⟩ := linked
      obtain ⟨_, rfl⟩ := pointer_eq_some_iff.mp isFirst
      obtain ⟨fuel, rfl⟩ : ∃ more, fuel = more + 1 :=
        Nat.exists_eq_succ_of_ne_zero (by omega)
      have inArray := inside word (by simp)
      have isNext :
          next words base word = pointer words[base + word] := by
        unfold next
        rw [List.getElem?_eq_getElem inArray]
        rfl
      rw [isNext] at restLinked
      have notEnd : words[base + word] ≠ 0 := by
        intro isZero
        rw [isZero, pointer_zero] at restLinked
        have isEmpty := restLinked.head_eq
        cases rest <;> cases isEmpty
      rw [findEnd, List.getElem?_eq_getElem inArray, Option.bind_some,
        if_neg notEnd]
      refine
        inductionHypothesis restLinked
          (fun index member => inside index (by simp at member ⊢; tauto)) ?_
      rw [List.length_cons] at enough
      omega

/-- A search along a chain inside the array is a search in its list. -/
theorem findIndex_eq
    {word : Nat} {indices : List Nat} {fuel : Nat}
    (linked :
      PointerList.Linked (next words base) (pointer word) indices)
    (inside : ∀ index ∈ indices, base + index < words.length)
    (enough : indices.length + 1 ≤ fuel) (hit : Nat → Option Bool) :
    findIndex words base hit fuel word = firstHit hit indices := by
  obtain ⟨fuel, rfl⟩ : ∃ more, fuel = more + 1 :=
    Nat.exists_eq_succ_of_ne_zero (by omega)
  induction indices generalizing word fuel with
  | nil =>
      have isZero : word = 0 := pointer_eq_none_iff.mp linked
      rw [findIndex, if_pos isZero, firstHit]
  | cons index rest inductionHypothesis =>
      obtain ⟨isFirst, restLinked⟩ := linked
      obtain ⟨notZero, rfl⟩ := pointer_eq_some_iff.mp isFirst
      have inArray := inside word (by simp)
      have isNext :
          next words base word = pointer words[base + word] := by
        unfold next
        rw [List.getElem?_eq_getElem inArray]
        rfl
      rw [isNext] at restLinked
      rw [List.length_cons] at enough
      obtain ⟨fuel, rfl⟩ : ∃ more, fuel = more + 1 :=
        Nat.exists_eq_succ_of_ne_zero (by omega)
      have later :=
        inductionHypothesis restLinked
          (fun other member => inside other (List.mem_cons_of_mem _ member))
          fuel (by omega)
      rw [findIndex, if_neg notZero, firstHit,
        List.getElem?_eq_getElem inArray, Option.bind_some, later]

/-! ## Leaving the array -/

/-- One index leads to another along a chain of visited indices. -/
inductive Reaches (words : List Nat) (base : Nat) (visited : Nat → Prop) :
    Nat → Nat → Prop
  | here {index : Nat} :
      visited index → Reaches words base visited index index
  | step {index following last : Nat} :
      visited index → words[base + index]? = some following →
        following ≠ 0 → Reaches words base visited following last →
          Reaches words base visited index last

variable {visited : Nat → Prop}

/-- A search that hits nothing faults at an index outside of the array. -/
theorem findIndex_eq_none
    {index last : Nat} (reaches : Reaches words base visited index last)
    (notZero : index ≠ 0) (outside : words.length ≤ base + last)
    {hit : Nat → Option Bool}
    (noHit : ∀ index, visited index → hit index ≠ some true)
    (fuel : Nat) :
    findIndex words base hit fuel index = none := by
  induction reaches generalizing fuel with
  | @here index isVisited =>
      cases fuel with
      | zero => rfl
      | succ fuel =>
          rw [findIndex, if_neg notZero, List.getElem?_eq_none outside]
          cases isHit : hit index with
          | none => rfl
          | some found =>
              cases found with
              | true => exact absurd isHit (noHit index isVisited)
              | false => rfl
  | @step index following last isVisited isNext followingNotZero _
      inductionHypothesis =>
      cases fuel with
      | zero => rfl
      | succ fuel =>
          rw [findIndex, if_neg notZero, isNext, Option.bind_some,
            inductionHypothesis followingNotZero outside fuel]
          cases isHit : hit index with
          | none => rfl
          | some found =>
              cases found with
              | true => exact absurd isHit (noHit index isVisited)
              | false => rfl

/-- A search that hits nothing at an index behind itself never ends. -/
theorem findIndex_eq_none_of_loop
    {index : Nat} (notZero : index ≠ 0)
    (isLoop : words[base + index]? = some index)
    {hit : Nat → Option Bool} (noHit : hit index = some false)
    (fuel : Nat) :
    findIndex words base hit fuel index = none := by
  induction fuel with
  | zero => rfl
  | succ fuel inductionHypothesis =>
      rw [findIndex, if_neg notZero, noHit, Option.bind_some,
        if_neg Bool.false_ne_true, isLoop, Option.bind_some]
      exact inductionHypothesis

/-- From `first` on, words only differ where the former ones are zero. -/
def Extends (first : Nat) (earlier later : List Nat) : Prop :=
  later.length = earlier.length ∧
    ∀ (position word : Nat),
      first ≤ position → earlier[position]? = some word → word ≠ 0 →
        later[position]? = some word

/-- Zeros are overwritten one after the other. -/
theorem Extends.trans
    {first : Nat} {one two three : List Nat}
    (earlier : Extends first one two) (later : Extends first two three) :
    Extends first one three :=
  ⟨later.1.trans earlier.1,
    fun position word isBehind isWord notZero =>
      later.2 position word isBehind
        (earlier.2 position word isBehind isWord notZero) notZero⟩

/-- A zero is overwritten. -/
theorem extends_set
    {position : Nat} (isZero : words[position]? = some 0)
    (first word : Nat) :
    Extends first words (words.set position word) := by
  refine ⟨List.length_set, ?_⟩
  intro other known _ isWord notZero
  have isOther : position ≠ other := by
    rintro rfl
    rw [isZero] at isWord
    exact notZero (Option.some.inj isWord).symm
  rw [List.getElem?_set_ne isOther]
  exact isWord

/-- A word in front is overwritten. -/
theorem extends_set_of_lt
    {first position : Nat} (isFront : position < first) (word : Nat) :
    Extends first words (words.set position word) := by
  refine ⟨List.length_set, ?_⟩
  intro other known isBehind isWord _
  rw [List.getElem?_set_ne (by omega)]
  exact isWord

/-- Chains still lead where they led. -/
theorem Reaches.extends
    {first : Nat} {later : List Nat} {index last : Nat}
    (reaches : Reaches words base visited index last)
    (isExtended : Extends first words later) (inFront : first ≤ base) :
    Reaches later base visited index last := by
  induction reaches with
  | here isVisited => exact .here isVisited
  | step isVisited isNext notZero _ inductionHypothesis =>
      exact
        .step isVisited
          (isExtended.2 _ _ (Nat.le_add_right_of_le inFront) isNext notZero)
          notZero inductionHypothesis

/-- The end of a chain is a zero. -/
theorem findEnd_isZero
    {fuel position last : Nat}
    (isEnd : findEnd words base fuel position = some last) :
    words[last]? = some 0 := by
  induction fuel generalizing position with
  | zero => cases isEnd
  | succ fuel inductionHypothesis =>
      rw [findEnd] at isEnd
      obtain ⟨word, isWord, isEnd⟩ := Option.bind_eq_some_iff.mp isEnd
      split_ifs at isEnd with isZero
      · cases isEnd
        rw [isWord, isZero]
      · exact inductionHypothesis isEnd

/-- The end of a chain lies in the array. -/
theorem le_of_findEnd
    {fuel position last : Nat}
    (isEnd : findEnd words base fuel position = some last)
    (inArray : base ≤ position) : base ≤ last := by
  induction fuel generalizing position with
  | zero => cases isEnd
  | succ fuel inductionHypothesis =>
      rw [findEnd] at isEnd
      obtain ⟨word, _, isEnd⟩ := Option.bind_eq_some_iff.mp isEnd
      split_ifs at isEnd
      · cases isEnd
        exact inArray
      · exact inductionHypothesis isEnd (Nat.le_add_right base word)

/-- The cells of a list lead to its last one. -/
theorem reaches_last
    {word : Nat} {front : List Nat} {last : Nat}
    (linked :
      PointerList.Linked (next words base) (pointer word) (front ++ [last]))
    (areVisited : ∀ index ∈ front ++ [last], visited index) :
    Reaches words base visited word last := by
  induction front generalizing word with
  | nil =>
      obtain ⟨_, rfl⟩ := pointer_eq_some_iff.mp linked.1
      exact .here (areVisited word List.mem_cons_self)
  | cons first rest inductionHypothesis =>
      rw [List.cons_append, List.forall_mem_cons] at areVisited
      obtain ⟨isFirst, restLinked⟩ := linked
      obtain ⟨_, rfl⟩ := pointer_eq_some_iff.mp isFirst
      cases isNext : words[base + word]? with
      | none =>
          unfold next at restLinked
          rw [isNext] at restLinked
          have isEmpty := restLinked.head_eq
          cases rest <;> cases isEmpty
      | some following =>
          have restPointer :
              next words base word = pointer following := by
            unfold next
            rw [isNext]
            rfl
          rw [restPointer] at restLinked
          have notZero : following ≠ 0 := by
            rintro rfl
            have isEmpty := restLinked.head_eq
            cases rest <;> cases isEmpty
          exact
            .step areVisited.1 isNext notZero
              (inductionHypothesis restLinked areVisited.2)

/-- One index further along a chain. -/
theorem Reaches.snoc
    {index last following : Nat}
    (reaches : Reaches words base visited index last)
    (isNext : words[base + last]? = some following)
    (notZero : following ≠ 0) (isVisited : visited following) :
    Reaches words base visited index following := by
  induction reaches with
  | here lastVisited =>
      exact .step lastVisited isNext notZero (.here isVisited)
  | step firstVisited isFirst firstNotZero _ inductionHypothesis =>
      exact
        .step firstVisited isFirst firstNotZero (inductionHypothesis isNext)

/-! ## Tables of chains -/

/--
Add an index to the chain that starts at `first + bucket`: over the end of the
chain, or as its first index.
-/
def append (words : List Nat) (first base bucket index : Nat) :
    Option (List Nat) :=
  (words[first + bucket]?).bind fun word =>
    if word ≠ 0 then
      (findEnd words base words.length (base + word)).map fun position =>
        words.set position index
    else
      some (words.set (first + bucket) index)

/--
The words hold a list of indices for every bucket, and are zero where no index
is used; the words that start the chains stand in front of the array.
-/
structure Holds
    (words : List Nat) (first base count capacity : Nat)
    (lists : Nat → List Nat) : Prop where
  length : words.length = base + capacity
  inFront : first + count ≤ base
  linked :
    ∀ bucket < count, ∃ word,
      words[first + bucket]? = some word ∧
        PointerList.Linked (next words base) (pointer word) (lists bucket)
  inside : ∀ bucket < count, ∀ index ∈ lists bucket, index < capacity
  distinct : ∀ bucket < count, (lists bucket).Nodup
  disjoint :
    ∀ bucket < count, ∀ other < count, bucket ≠ other →
      ∀ index ∈ lists bucket, index ∉ lists other
  unused :
    ∀ index < capacity, (∀ bucket < count, index ∉ lists bucket) →
      words[base + index]? = some 0

variable
  {first count capacity bucket index : Nat} {lists : Nat → List Nat}

/-- Adding an index only overwrites a zero. -/
theorem extends_append
    {later : List Nat}
    (isLater : append words first base bucket index = some later) :
    ∃ position,
      words[position]? = some 0 ∧ later = words.set position index := by
  obtain ⟨word, isWord, isLater⟩ := Option.bind_eq_some_iff.mp isLater
  split_ifs at isLater with notZero
  · obtain ⟨position, isEnd, rfl⟩ := Option.map_eq_some_iff.mp isLater
    exact ⟨position, findEnd_isZero isEnd, rfl⟩
  · cases isLater
    exact ⟨first + bucket, by rw [isWord, not_not.mp notZero], rfl⟩

/-- No list is longer than the array. -/
theorem Holds.length_le
    (holds : Holds words first base count capacity lists)
    (isBucket : bucket < count) : (lists bucket).length ≤ words.length := by
  have isSubset : lists bucket ⊆ List.range capacity :=
    fun index member => List.mem_range.mpr (holds.inside _ isBucket _ member)
  have isShort :=
    ((holds.distinct _ isBucket).subperm isSubset).length_le
  rw [List.length_range] at isShort
  rw [holds.length]
  omega

/-- The chain of a bucket has a last index, or the bucket is zero. -/
theorem Holds.append_eq
    (holds : Holds words first base count capacity lists)
    (isBucket : bucket < count) (index : Nat) :
    (lists bucket = [] ∧ words[first + bucket]? = some 0 ∧
        append words first base bucket index =
          some (words.set (first + bucket) index)) ∨
      ∃ front last,
        lists bucket = front ++ [last] ∧
          append words first base bucket index =
            some (words.set (base + last) index) := by
  obtain ⟨word, isWord, linked⟩ := holds.linked bucket isBucket
  unfold append
  rw [isWord, Option.bind_some]
  rcases List.eq_nil_or_concat' (lists bucket) with isEmpty | found
  · left
    rw [isEmpty] at linked
    have isZero : word = 0 := pointer_eq_none_iff.mp linked
    rw [if_neg (not_not.mpr isZero), isZero]
    exact ⟨isEmpty, rfl, rfl⟩
  · right
    obtain ⟨front, last, isSplit⟩ := found
    refine ⟨front, last, isSplit, ?_⟩
    have inside := holds.inside bucket isBucket
    have isShort := holds.length_le isBucket
    rw [isSplit] at linked inside isShort
    have notZero : word ≠ 0 := by
      rintro rfl
      have isHead := linked.head_eq
      rw [pointer_zero] at isHead
      cases front <;> cases isHead
    rw [List.length_append, List.length_singleton] at isShort
    rw [if_pos notZero,
      findEnd_eq linked
        (fun other member => by
          rw [holds.length]
          exact Nat.add_lt_add_left (inside other member) base)
        isShort,
      Option.map_some]

/-- An index of any size can be reached once it is added. -/
theorem Holds.append_reaches
    (holds : Holds words first base count capacity lists)
    (isBucket : bucket < count) (notZero : index ≠ 0)
    (areVisited : ∀ index ∈ lists bucket, visited index)
    (isVisited : visited index) {later : List Nat}
    (isLater : append words first base bucket index = some later) :
    ∃ word,
      later[first + bucket]? = some word ∧ word ≠ 0 ∧
        Reaches later base visited word index := by
  rcases holds.append_eq isBucket index with
    ⟨_, isZero, isAppended⟩ | ⟨front, last, isSplit, isAppended⟩
  · cases isAppended.symm.trans isLater
    refine ⟨index, ?_, notZero, .here isVisited⟩
    exact
      List.getElem?_set_self (List.getElem?_eq_some_iff.mp isZero).1
  · cases isAppended.symm.trans isLater
    obtain ⟨position, isZero, isSet⟩ := extends_append isLater
    have isExtended := isSet ▸ extends_set isZero first index
    obtain ⟨word, isWord, linked⟩ := holds.linked bucket isBucket
    rw [isSplit] at linked areVisited
    have wordNotZero : word ≠ 0 := by
      rintro rfl
      have isHead := linked.head_eq
      rw [pointer_zero] at isHead
      cases front <;> cases isHead
    have inArray : base + last < words.length := by
      rw [holds.length]
      exact
        Nat.add_lt_add_left
          (holds.inside bucket isBucket last (by rw [isSplit]; simp)) base
    exact
      ⟨word,
        isExtended.2 _ _ (Nat.le_add_right first bucket) isWord wordNotZero,
        wordNotZero,
        ((reaches_last linked areVisited).extends isExtended
            (Nat.le_of_add_right_le holds.inFront)).snoc
          (List.getElem?_set_self inArray) notZero isVisited⟩

/-- The table without any index. -/
theorem holds_zeros
    (front : List Nat) (count capacity : Nat) :
    Holds (front ++ List.replicate (count + capacity) 0) front.length
      (front.length + count) count capacity (fun _ => []) := by
  have isZero :
      ∀ position < count + capacity,
        (front ++ List.replicate (count + capacity) 0)[
            front.length + position]? =
          some 0 := by
    intro position inRange
    rw [List.getElem?_append_right (Nat.le_add_right _ _),
      Nat.add_sub_cancel_left]
    exact List.getElem?_replicate_of_lt inRange
  exact
    { length := by
        rw [List.length_append, List.length_replicate, Nat.add_assoc]
      inFront := Nat.le_refl _
      linked := fun bucket isBucket =>
        ⟨0, isZero bucket (by omega), rfl⟩
      inside := fun _ _ _ member => absurd member List.not_mem_nil
      distinct := fun _ _ => List.nodup_nil
      disjoint := fun _ _ _ _ _ _ member => absurd member List.not_mem_nil
      unused := fun index inRange _ => by
        rw [Nat.add_assoc]
        exact isZero (count + index) (by omega) }

/-- Lists with a fresh index at the end of one of them. -/
theorem Holds.update
    (holds : Holds words first base count capacity lists)
    (isBucket : bucket < count) (inRange : index < capacity)
    (isFresh : ∀ other < count, index ∉ lists other) {later : List Nat}
    (sameLength : later.length = words.length)
    (linked :
      ∀ other < count, ∃ word,
        later[first + other]? = some word ∧
          PointerList.Linked (next later base) (pointer word)
            (Function.update lists bucket (lists bucket ++ [index]) other))
    (unused :
      ∀ other < capacity, other ≠ index → other ∉ lists bucket →
        later[base + other]? = words[base + other]?) :
    Holds later first base count capacity
      (Function.update lists bucket (lists bucket ++ [index])) where
  length := sameLength.trans holds.length
  inFront := holds.inFront
  linked := linked
  inside := by
    intro other isOther member isMember
    by_cases isHere : other = bucket
    · subst isHere
      rw [Function.update_self] at isMember
      rcases List.mem_append.mp isMember with isOld | isNew
      · exact holds.inside _ isOther _ isOld
      · rw [List.mem_singleton.mp isNew]
        exact inRange
    · rw [Function.update_of_ne isHere] at isMember
      exact holds.inside _ isOther _ isMember
  distinct := by
    intro other isOther
    by_cases isHere : other = bucket
    · subst isHere
      rw [Function.update_self]
      refine
        List.nodup_append.mpr ⟨holds.distinct _ isOther, by simp, ?_⟩
      rintro member isMember last isLast rfl
      rw [List.mem_singleton.mp isLast] at isMember
      exact isFresh _ isOther isMember
    · rw [Function.update_of_ne isHere]
      exact holds.distinct _ isOther
  disjoint := by
    intro one isOne two isTwo isOther member inOne inTwo
    by_cases isHere : one = bucket
    · subst isHere
      rw [Function.update_self] at inOne
      rw [Function.update_of_ne isOther.symm] at inTwo
      rcases List.mem_append.mp inOne with isOld | isNew
      · exact holds.disjoint _ isOne _ isTwo isOther _ isOld inTwo
      · rw [List.mem_singleton.mp isNew] at inTwo
        exact isFresh _ isTwo inTwo
    · rw [Function.update_of_ne isHere] at inOne
      by_cases isThere : two = bucket
      · subst isThere
        rw [Function.update_self] at inTwo
        rcases List.mem_append.mp inTwo with isOld | isNew
        · exact holds.disjoint _ isOne _ isTwo isOther _ inOne isOld
        · rw [List.mem_singleton.mp isNew] at inOne
          exact isFresh _ isOne inOne
      · rw [Function.update_of_ne isThere] at inTwo
        exact holds.disjoint _ isOne _ isTwo isOther _ inOne inTwo
  unused := by
    intro other inArray isNowhere
    have hereToo := isNowhere bucket isBucket
    rw [Function.update_self, List.mem_append, List.mem_singleton, not_or]
      at hereToo
    rw [unused other inArray hereToo.2 hereToo.1]
    apply holds.unused other inArray
    intro list isList member
    by_cases isHere : list = bucket
    · subst isHere
      exact hereToo.1 member
    · have isThere := isNowhere list isList
      rw [Function.update_of_ne isHere] at isThere
      exact isThere member

/-- The successor of an index depends on its own word. -/
theorem next_set_of_ne
    {position index : Nat} (isOther : position ≠ base + index) (word : Nat) :
    next (words.set position word) base index = next words base index := by
  unfold next
  rw [List.getElem?_set_ne isOther]

/-- A word in front of the table belongs to no chain. -/
theorem Holds.set_of_lt
    (holds : Holds words first base count capacity lists)
    {position : Nat} (isFront : position < first) (word : Nat) :
    Holds (words.set position word) first base count capacity lists where
  length := List.length_set.trans holds.length
  inFront := holds.inFront
  linked := by
    intro bucket isBucket
    have inFront := holds.inFront
    obtain ⟨start, isStart, linked⟩ := holds.linked bucket isBucket
    refine ⟨start, ?_, linked.frame fun cell _ => ?_⟩
    · rw [List.getElem?_set_ne (by omega)]
      exact isStart
    · exact next_set_of_ne (by omega) word
  inside := holds.inside
  distinct := holds.distinct
  disjoint := holds.disjoint
  unused := by
    intro index inArray isNowhere
    have inFront := holds.inFront
    rw [List.getElem?_set_ne (by omega)]
    exact holds.unused index inArray isNowhere

/-- A fresh index inside of the array is added at the end of its list. -/
theorem Holds.append
    (holds : Holds words first base count capacity lists)
    (isBucket : bucket < count) (notZero : index ≠ 0)
    (inRange : index < capacity)
    (isFresh : ∀ other < count, index ∉ lists other) :
    ∃ later,
      IndexChains.append words first base bucket index = some later ∧
        Holds later first base count capacity
          (Function.update lists bucket (lists bucket ++ [index])) := by
  have isUnused := holds.unused index inRange isFresh
  have inFront := holds.inFront
  have endsThere : next words base index = none := by
    unfold next
    rw [isUnused]
    rfl
  rcases holds.append_eq isBucket index with
    ⟨isEmpty, isZero, isAppended⟩ | ⟨front, last, isSplit, isAppended⟩
  · -- The bucket was empty: its own word becomes the index.
    refine
      ⟨_, isAppended,
        holds.update isBucket inRange isFresh List.length_set ?_ ?_⟩
    · intro other isOther
      by_cases isHere : other = bucket
      · subst isHere
        rw [Function.update_self, isEmpty, List.nil_append]
        refine
          ⟨index,
            List.getElem?_set_self (List.getElem?_eq_some_iff.mp isZero).1,
            pointer_eq_some notZero, ?_⟩
        rw [next_set_of_ne (by omega)]
        exact endsThere
      · obtain ⟨word, isWord, linked⟩ := holds.linked other isOther
        rw [Function.update_of_ne isHere]
        refine ⟨word, ?_, linked.frame fun cell _ => ?_⟩
        · rw [List.getElem?_set_ne (by omega)]
          exact isWord
        · exact next_set_of_ne (by omega) index
    · intro other inArray _ _
      exact List.getElem?_set_ne (by omega)
  · -- The last index of the bucket's list gets a successor.
    have inList : last ∈ lists bucket := by
      rw [isSplit]
      exact List.mem_append_right _ (List.mem_singleton_self last)
    have lastInside := holds.inside bucket isBucket last inList
    have isOtherIndex : last ≠ index := by
      rintro rfl
      exact isFresh bucket isBucket inList
    refine
      ⟨_, isAppended,
        holds.update isBucket inRange isFresh List.length_set ?_ ?_⟩
    · intro other isOther
      obtain ⟨word, isWord, linked⟩ := holds.linked other isOther
      refine ⟨word, ?_, ?_⟩
      · rw [List.getElem?_set_ne (by omega)]
        exact isWord
      · by_cases isHere : other = bucket
        · subst isHere
          rw [isSplit] at linked
          rw [Function.update_self, isSplit, List.append_assoc]
          apply linked.redirect
          · have inArray : base + last < words.length := by
              rw [holds.length]
              omega
            unfold next
            rw [List.getElem?_set_self inArray, Option.bind_some,
              pointer_eq_some notZero]
          · rw [next_set_of_ne (by omega)]
            exact endsThere
          · intro cell inFrontList
            apply next_set_of_ne
            have distinct := holds.distinct other isOther
            rw [isSplit] at distinct
            have isOtherCell :=
              (List.nodup_append.mp distinct).2.2 cell inFrontList last
                (List.mem_singleton_self last)
            omega
        · rw [Function.update_of_ne isHere]
          refine linked.frame fun cell inOther => ?_
          apply next_set_of_ne
          rintro samePosition
          obtain rfl : last = cell := by omega
          exact
            holds.disjoint other isOther bucket isBucket isHere last inOther
              inList
    · intro other inArray _ isNotThere
      apply List.getElem?_set_ne
      rintro samePosition
      obtain rfl : last = other := by omega
      exact isNotThere inList

/-! ## Keys -/

section Keys

variable {κ : Type*} {bucketOf : κ → Nat}

/-- The indices that were added to a bucket. -/
def chainOf (bucketOf : κ → Nat) (entries : List (κ × Nat)) (bucket : Nat) :
    List Nat :=
  (entries.filter fun entry => decide (bucketOf entry.1 = bucket)).map
    Prod.snd

/-- A new entry stands at the end of its bucket's list. -/
theorem chainOf_concat
    (entries : List (κ × Nat)) (key : κ) (index : Nat) :
    chainOf bucketOf (entries ++ [(key, index)]) =
      Function.update (chainOf bucketOf entries) (bucketOf key)
        (chainOf bucketOf entries (bucketOf key) ++ [index]) := by
  funext bucket
  unfold chainOf
  rw [List.filter_append, List.map_append]
  by_cases isHere : bucketOf key = bucket
  · subst isHere
    rw [Function.update_self, List.filter_singleton, decide_eq_true rfl]
    rfl
  · rw [Function.update_of_ne (Ne.symm isHere), List.filter_singleton,
      decide_eq_false isHere]
    exact List.append_nil _

variable [DecidableEq κ]

/-- The first index that was added under a key, zero if there is none. -/
def firstOf (entries : List (κ × Nat)) (key : κ) : Nat :=
  ((entries.find? fun entry => decide (entry.1 = key)).map Prod.snd).getD 0

/-- The search along the bucket of a key finds the first index of the key. -/
theorem firstHit_chainOf
    {hit : Nat → Option Bool} {entries : List (κ × Nat)} {key : κ}
    (isHit :
      ∀ entry ∈ entries, hit entry.2 = some (decide (entry.1 = key))) :
    firstHit hit (chainOf bucketOf entries (bucketOf key)) =
      some (firstOf entries key) := by
  induction entries with
  | nil => rfl
  | cons entry rest inductionHypothesis =>
      rw [List.forall_mem_cons] at isHit
      have later := inductionHypothesis isHit.2
      unfold chainOf firstOf at later ⊢
      rw [List.filter_cons, List.find?_cons]
      by_cases isKey : entry.1 = key
      · rw [decide_eq_true isKey, decide_eq_true (congrArg bucketOf isKey),
          if_pos rfl, List.map_cons, firstHit, isHit.1, Option.bind_some,
          decide_eq_true isKey, if_pos rfl]
        rfl
      · rw [decide_eq_false isKey]
        split_ifs
        · rw [List.map_cons, firstHit, isHit.1, Option.bind_some,
            decide_eq_false isKey, if_neg Bool.false_ne_true]
          exact later
        · exact later

/-- A search that hits nothing meets every index. -/
theorem firstHit_eq_none
    {hit : Nat → Option Bool} {indices : List Nat} {index : Nat}
    (noHit : ∀ index ∈ indices, hit index ≠ some true)
    (member : index ∈ indices) (faults : hit index = none) :
    firstHit hit indices = none := by
  induction indices with
  | nil => cases member
  | cons other rest inductionHypothesis =>
      rw [List.forall_mem_cons] at noHit
      rw [firstHit]
      cases isOther : hit other with
      | none => rfl
      | some found =>
          cases found with
          | true => exact absurd isOther noHit.1
          | false =>
              rw [Option.bind_some, if_neg Bool.false_ne_true]
              rcases List.mem_cons.mp member with isFirst | isLater
              · rw [← isFirst, faults] at isOther
                cases isOther
              · exact inductionHypothesis noHit.2 isLater

end Keys

end IndexChains
