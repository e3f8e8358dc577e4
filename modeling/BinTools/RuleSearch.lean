import BinTools.HashTable
import BinTools.MakefileParser

namespace BinTools.RuleSearch

open HashTable Makefile

/-!
# Searching the rule of a goal

`search_rule` looks for a target that equals the goal, and then for a pattern
with a percent sign.  The table of targets is hashed by the sum of the bytes
without percent signs, so that the first and the last bytes of a goal lead to the
bucket of a pattern.  How many bytes these are is taken from the first pattern
only.
-/

/-! ## Hashing and comparing -/

/--
The loop of `__z__std__with_escape_hash` over the bytes in the order in which it
reads them.
-/
def escapeSum : List UInt8 → UInt8 → U64 → U64
  | [], _, h => h
  | c :: rest, num, h =>
      let h := if c ≠ 0x25 then h + BitVec.ofNat 64 c.toNat else h
      if 0 < num then
        if num - 1 = 0 then h else escapeSum rest (num - 1) h
      else
        escapeSum rest num h

/--
`__z__std__with_escape_hash`.  A call with `rev` gets the bytes in front of the
pointer, the last one first.
-/
def withEscapeHash (s : List UInt8) (num : UInt8) : U32 :=
  (escapeSum s num 0 &&& 0xfffffff).setWidth 32

/-- `hash_f(key, 0)` -/
def escapeHash (key : CString) : U32 :=
  withEscapeHash key.bytes 0

/-- `strncmp` -/
def strncmp : List UInt8 → List UInt8 → Nat → UInt8
  | _, _, 0 => 0
  | x :: xs, y :: ys, i + 1 => if x = y then strncmp xs ys i else x - y
  | x :: _, [], _ + 1 => x - 0
  | [], y :: _, _ + 1 => 0 - y
  | [], [], _ + 1 => 0 - 0

/-! ## Entering and searching -/

/-- The targets of `Confp->rules`. -/
structure Rules where
  targets : Table
  trims : List ImplicitTrimLen

/-- What `eval_target` puts into the list for a target. -/
def trimOf (target : List UInt8) : Option ImplicitTrimLen :=
  let i := isImplicit target 1
  if i ≠ 0 then
    some
      { beginLen := i - 1
        endLen := UInt8.ofNat target.length - i }
  else
    none

/-- `eval_target` reads the bytes from `str` to the colon. -/
theorem evalTarget_eq
    {state : State} {p : Nat}
    (inText : p ≤ state.text.length) :
    evalTarget state p =
      state.str.map fun s =>
        { state with
          implicitPreSuffixLen :=
            state.implicitPreSuffixLen ++
              (trimOf ((state.text.drop s).take (p - s))).toList } := by
  have isLength (s : Nat) :
      ((state.text.drop s).take (p - s)).length = p - s := by
    rw [List.length_take, List.length_drop]
    omega
  unfold evalTarget
  congr 1
  funext s
  unfold trimOf
  rw [isLength s]
  dsimp only
  split_ifs
  · rfl
  · simp

/--
`eval_target` and `__z__std__hash_set` for a target.  The pointer to a rule is
given by the rule's target.
-/
def enter (rules : Rules) (target : CString) : Option Rules :=
  (rules.targets.hashSet target (some target) .raiseError).map fun targets =>
    { targets := targets
      trims := rules.trims ++ (trimOf target.bytes).toList }

/-- The rules of some targets; there are 100 buckets. -/
def entered (targets : List CString) : Option Rules :=
  targets.foldlM enter { targets := Table.init 100 escapeHash, trims := [] }

/-- The sum of the hashes of the first and the last bytes of a key. -/
def trimmedHash (key : CString) (trim : ImplicitTrimLen) : U32 :=
  let ss : U32 :=
    if trim.beginLen ≠ 0 ∧ trim.beginLen.toNat < key.length then
      withEscapeHash key.bytes trim.beginLen
    else
      0
  if trim.endLen ≠ 0 ∧ trim.endLen.toNat < key.length then
    ss + withEscapeHash key.bytes.reverse trim.endLen
  else
    ss

/--
`__z__std__hash_partial_find` for a table that is hashed by
`__z__std__with_escape_hash`.  The first cell of the list is read, also when
there is none.
-/
def hashPartialFind
    (table : Table) (key : CString) (trims : List ImplicitTrimLen) :
    Option (Option Value) :=
  trims.head?.bind fun trim =>
    table.find
      ((trimmedHash key trim).toNat % table.bucket.length)
      fun entry => strncmp entry.1.bytes key.bytes trim.beginLen.toNat = 0

/-- `search_rule` -/
def searchRule (rules : Rules) (p : CString) : Option (Option Value) :=
  (rules.targets.hashFind p).bind fun r =>
    if r ≠ none then some r else hashPartialFind rules.targets p rules.trims

/-! ## Patterns -/

/-- The bytes in front of the first percent sign. -/
def prefixOf (target : CString) : List UInt8 :=
  target.bytes.takeWhile (· ≠ 0x25)

/-- The bytes behind the first percent sign. -/
def suffixOf (target : CString) : List UInt8 :=
  target.bytes.drop ((prefixOf target).length + 1)

/--
The target is a pattern, and the goal is its prefix, something, and its suffix.
-/
def Matches (goal target : CString) : Prop :=
  0x25 ∈ target.bytes ∧
    prefixOf target <+: goal.bytes ∧
      suffixOf target <:+ goal.bytes ∧
        (prefixOf target).length + (suffixOf target).length ≤ goal.length

instance (goal target : CString) : Decidable (Matches goal target) := by
  unfold Matches
  infer_instance

/--
The search for the rule of a goal returns a rule exactly when a pattern matches,
and then the rule of one that does.
-/
def SearchRight (targets : List CString) (goal : CString) : Prop :=
  ∃ rules,
    entered targets = some rules ∧
      ∃ result,
        searchRule rules goal = some result ∧
          (result ≠ none ↔ ∃ target ∈ targets, Matches goal target) ∧
            ∀ value ∈ result,
              ∃ target ∈ targets,
                Matches goal target ∧ value = .text target

/-- The bucket of a target. -/
def bucketOf (key : CString) : Nat :=
  (escapeHash key).toNat % 100

/-- `__z__std__hash_find` takes the target for the goal. -/
def isTaken (goal target : CString) : Bool :=
  bucketOf target = bucketOf goal ∧
    (strcmp target goal = 0 ∨ strcmp target goal = 0x25)

/-- `__z__std__hash_partial_find` takes the target for the goal. -/
def isTrimmed
    (trim : ImplicitTrimLen) (goal target : CString) : Bool :=
  bucketOf target = (trimmedHash goal trim).toNat % 100 ∧
    strncmp target.bytes goal.bytes trim.beginLen.toNat = 0

/-- The lengths that the search takes. -/
def trimOfAll (targets : List CString) : Option ImplicitTrimLen :=
  (targets.filterMap fun target => trimOf target.bytes).head?

/--
The search ends at the target when it gets there.  Targets that are taken for the
goal as a whole come first.
-/
def endsAt (targets : List CString) (goal target : CString) : Bool :=
  if targets.any (isTaken goal) then
    isTaken goal target
  else
    (trimOfAll targets).any fun trim => isTrimmed trim goal target

/--
The targets and goals for which the search is right.  It does not read the list
of lengths while that is empty; it ends somewhere if a pattern matches; and in
front of a target at which it could end wrongly is one at which it ends rightly.
-/
structure SearchFits (targets : List CString) (goal : CString) : Prop where
  safe :
    (∃ target ∈ targets, isTaken goal target = true) ∨
      ∃ target ∈ targets, trimOf target.bytes ≠ none
  reaches :
    (∃ target ∈ targets, Matches goal target) →
      ∃ target ∈ targets, endsAt targets goal target = true
  inFront :
    ∀ front target back,
      targets = front ++ target :: back →
        endsAt targets goal target = true →
          ¬ Matches goal target →
            ∃ earlier ∈ front,
              endsAt targets goal earlier = true ∧ Matches goal earlier

/-! ## The table of targets -/

/-- What the chain of a target holds. -/
def ruleEntry (target : CString) : Entry :=
  (target, some (.text target))

/-- The tables hold the targets that were entered. -/
structure Lists (rules : Rules) (targets : List CString) : Prop where
  represents :
    rules.targets.Represents fun bucket =>
      (targets.filter fun target => bucketOf target = bucket).map ruleEntry
  hashed : rules.targets.hashF = some escapeHash
  size : rules.targets.bucket.length = 100
  trims :
    rules.trims = targets.filterMap fun target => trimOf target.bytes

/-- No target is entered at first. -/
theorem lists_init :
    Lists { targets := Table.init 100 escapeHash, trims := [] } [] where
  represents := Table.init_represents (by decide) escapeHash
  hashed := rfl
  size := List.length_replicate
  trims := rfl

variable
  {rules : Rules}
  {targets : List CString}

/-- With `COL_RAISE_ERROR` a key is always put behind the entries. -/
theorem setEntries_raiseError
    (fresh : Nat) (key : CString) (value : Option CString)
    (entries : List Entry) :
    setEntries fresh key value .raiseError entries =
      entries ++ [(key, value.map .text)] := by
  have others : ∀ entry ∈ entries, ends .raiseError key entry = false :=
    fun _ _ => rfl
  conv_lhs => rw [← List.append_nil entries]
  exact setEntries_append others []

/-- The bucket of a key. -/
theorem Lists.bucketOf_eq
    (lists : Lists rules targets) (key : CString) :
    rules.targets.bucketOf key = bucketOf key := by
  rw [Table.bucketOf, lists.hashed, lists.size]
  rfl

/-- A target is put behind the others of its bucket. -/
theorem Lists.enter
    (lists : Lists rules targets) (target : CString) :
    ∃ later,
      enter rules target = some later ∧ Lists later (targets ++ [target]) := by
  have hashed : rules.targets.hashF ≠ none := by
    rw [lists.hashed]
    exact Option.some_ne_none _
  have neverEnds :
      ∀ entry ∈
          (targets.filter fun other =>
            bucketOf other = rules.targets.bucketOf target).map ruleEntry,
        ends .raiseError target entry = false :=
    fun _ _ => rfl
  obtain ⟨table, isTable⟩ :
      ∃ table,
        rules.targets.hashSet target (some target) .raiseError =
          some table := by
    by_cases isEmpty :
        (targets.filter fun other =>
          bucketOf other = rules.targets.bucketOf target).map ruleEntry = []
    · obtain ⟨table, isTable, _⟩ :=
        lists.represents.hashSet_of_empty isEmpty (some target) .raiseError
          hashed
      exact ⟨table, isTable⟩
    · obtain ⟨table, isTable, _⟩ :=
        lists.represents.hashSet_of_absent isEmpty (some target)
          neverEnds
      exact ⟨table, isTable⟩
  obtain ⟨sameHash, sameSize, _⟩ := Table.hashSet_frame isTable
  refine
    ⟨_, by rw [RuleSearch.enter, isTable, Option.map_some], ?_, ?_, ?_, ?_⟩
  · have represented := lists.represents.hashSet hashed isTable
    convert represented using 1
    funext bucket
    rw [setEntries_raiseError, lists.bucketOf_eq]
    by_cases isHere : bucket = bucketOf target
    · rw [isHere, Function.update_self, List.filter_append, List.map_append]
      simp [ruleEntry]
    · rw [Function.update_of_ne isHere, List.filter_append]
      simp [Ne.symm isHere]
  · exact sameHash.trans lists.hashed
  · exact sameSize.trans lists.size
  · rw [List.filterMap_append, lists.trims]
    cases isTrim : trimOf target.bytes <;> simp [isTrim]

/-- Some more targets. -/
theorem Lists.enterAll
    (lists : Lists rules targets) (others : List CString) :
    ∃ later,
      others.foldlM RuleSearch.enter rules = some later ∧
        Lists later (targets ++ others) := by
  induction others generalizing rules targets with
  | nil =>
      rw [List.append_nil]
      exact ⟨rules, rfl, lists⟩
  | cons target others inductionHypothesis =>
      obtain ⟨middle, isMiddle, middleLists⟩ := lists.enter target
      obtain ⟨later, isLater, laterLists⟩ := inductionHypothesis middleLists
      rw [List.append_assoc, List.singleton_append] at laterLists
      refine ⟨later, ?_, laterLists⟩
      rw [List.foldlM_cons, isMiddle]
      exact isLater

/-! ## Searching -/

/-- A search in a bucket answers with the first target that is picked. -/
theorem Lists.find_eq
    (lists : Lists rules targets) {bucket : Nat} (inRange : bucket < 100)
    (pick : Entry → Bool) :
    rules.targets.find bucket pick =
      some
        ((targets.find? fun target =>
          bucketOf target = bucket && pick (ruleEntry target)).map .text) := by
  have inTable : bucket < rules.targets.bucket.length := by
    rwa [lists.size]
  have samePick :
      (fun target =>
        decide
          (decide (bucketOf target = bucket) = true ∧
            (pick ∘ ruleEntry) target = true)) =
        fun target =>
          decide (bucketOf target = bucket) && pick (ruleEntry target) := by
    funext target
    rw [Bool.eq_iff_iff]
    simp
  rw [lists.represents.find_eq inTable, List.find?_map, List.find?_filter,
    Option.bind_map, samePick]
  congr 1
  exact Option.map_eq_bind.symm

/-- A search of a whole goal. -/
theorem Lists.hashFind_eq
    (lists : Lists rules targets) (goal : CString) :
    rules.targets.hashFind goal =
      some ((targets.find? (isTaken goal)).map .text) := by
  have inRange : bucketOf goal < 100 := Nat.mod_lt _ (by decide)
  have isSearch :
      rules.targets.hashFind goal =
        rules.targets.find (rules.targets.bucketOf goal) (takes goal) := rfl
  rw [isSearch, lists.bucketOf_eq, lists.find_eq inRange]
  congr 3
  funext target
  have takesIff :
      takes goal (ruleEntry target) = true ↔
        strcmp target goal = 0 ∨ strcmp target goal = 0x25 :=
    decide_eq_true_iff
  rw [Bool.eq_iff_iff]
  simp [isTaken, takesIff]

/-- A search of the ends of a goal. -/
theorem Lists.hashPartialFind_eq
    (lists : Lists rules targets) (goal : CString) :
    hashPartialFind rules.targets goal rules.trims =
      (trimOfAll targets).map fun trim =>
        (targets.find? (isTrimmed trim goal)).map .text := by
  unfold hashPartialFind trimOfAll
  rw [lists.trims, lists.size]
  cases (targets.filterMap fun target => trimOf target.bytes).head? with
  | none => rfl
  | some trim =>
      have inRange : (trimmedHash goal trim).toNat % 100 < 100 :=
        Nat.mod_lt _ (by decide)
      rw [Option.bind_some, lists.find_eq inRange, Option.map_some]
      congr 3
      funext target
      rw [Bool.eq_iff_iff, Bool.and_eq_true, decide_eq_true_iff,
        decide_eq_true_iff, isTrimmed, decide_eq_true_iff]
      rfl

/-- No lengths are in the list. -/
theorem trimOfAll_eq_none_iff (targets : List CString) :
    trimOfAll targets = none ↔
      ∀ target ∈ targets, trimOf target.bytes = none := by
  simp [trimOfAll]

/-- A search that does not read from the null pointer. -/
theorem Lists.searchRule_eq
    (lists : Lists rules targets) {goal : CString}
    (safe :
      (∃ target ∈ targets, isTaken goal target = true) ∨
        ∃ target ∈ targets, trimOf target.bytes ≠ none) :
    searchRule rules goal =
      some ((targets.find? (endsAt targets goal)).map .text) := by
  unfold searchRule endsAt
  rw [lists.hashFind_eq, Option.bind_some]
  by_cases someTaken : targets.any (isTaken goal) = true
  · simp only [someTaken, if_true]
    obtain ⟨target, member, taken⟩ := List.any_eq_true.mp someTaken
    obtain ⟨first, isFirst⟩ :=
      Option.isSome_iff_exists.mp
        (List.find?_isSome.mpr ⟨target, member, taken⟩)
    rw [isFirst]
    rfl
  · have noTaken : targets.find? (isTaken goal) = none := by
      simpa using someTaken
    rw [noTaken, lists.hashPartialFind_eq]
    have someTrim : trimOfAll targets ≠ none := by
      rw [Ne, trimOfAll_eq_none_iff]
      intro noTrim
      rcases safe with ⟨target, member, taken⟩ | ⟨target, member, isTrim⟩
      · exact someTaken (List.any_eq_true.mpr ⟨target, member, taken⟩)
      · exact isTrim (noTrim target member)
    obtain ⟨trim, isTrim⟩ := Option.ne_none_iff_exists'.mp someTrim
    simp [isTrim, someTaken]

/-- A search that reads from the null pointer. -/
theorem Lists.searchRule_eq_none
    (lists : Lists rules targets) {goal : CString}
    (notTaken : ∀ target ∈ targets, isTaken goal target = false)
    (noTrim : ∀ target ∈ targets, trimOf target.bytes = none) :
    searchRule rules goal = none := by
  have noTaken : targets.find? (isTaken goal) = none := by
    simpa using notTaken
  unfold searchRule
  rw [lists.hashFind_eq, noTaken, lists.hashPartialFind_eq,
    (trimOfAll_eq_none_iff targets).mpr noTrim]
  rfl

/-! ## The first pattern -/

/-- The sum that the hash of a string is made of. -/
def hashedSum (s : List UInt8) : Nat :=
  ((s.filter (· ≠ 0x25)).map UInt8.toNat).sum

theorem hashedSum_cons (c : UInt8) (rest : List UInt8) :
    hashedSum (c :: rest) =
      (if c ≠ 0x25 then c.toNat else 0) + hashedSum rest := by
  unfold hashedSum
  by_cases isPercent : c = 0x25 <;> simp [isPercent]

theorem hashedSum_append (front back : List UInt8) :
    hashedSum (front ++ back) = hashedSum front + hashedSum back := by
  simp [hashedSum]

theorem hashedSum_reverse (s : List UInt8) :
    hashedSum s.reverse = hashedSum s := by
  simp [hashedSum, List.sum_reverse]

theorem hashedSum_le (s : List UInt8) :
    hashedSum s ≤ 255 * s.length := by
  induction s with
  | nil => simp [hashedSum]
  | cons c rest inductionHypothesis =>
      have byteBound : c.toNat < 256 := c.toNat_lt
      rw [hashedSum_cons, List.length_cons]
      split_ifs <;> omega

/-- The loop adds up the bytes that it reads. -/
theorem escapeSum_eq
    (s : List UInt8) (num : UInt8) (h : U64) :
    escapeSum s num h =
      h +
        BitVec.ofNat 64
          (hashedSum (if num = 0 then s else s.take num.toNat)) := by
  induction s generalizing num h with
  | nil => simp [escapeSum, hashedSum]
  | cons c rest inductionHypothesis =>
      have isAdded :
          (if c ≠ 0x25 then h + BitVec.ofNat 64 c.toNat else h) =
            h + BitVec.ofNat 64 (if c ≠ 0x25 then c.toNat else 0) := by
        split_ifs <;> simp
      rw [escapeSum, isAdded]
      by_cases isZero : num = 0
      · subst isZero
        have notPositive : ¬ (0 : UInt8) < 0 := by decide
        simp only [if_neg notPositive, inductionHypothesis, if_true,
          hashedSum_cons, BitVec.ofNat_add, BitVec.add_assoc]
      · have positive : 0 < num := UInt8.pos_iff_ne_zero.mpr isZero
        have isSucc : num.toNat = (num - 1).toNat + 1 := by
          have oneLe : (1 : UInt8) ≤ num := by
            rw [UInt8.lt_iff_toNat_lt] at positive
            exact UInt8.le_iff_toNat_le.mpr positive
          have isPositive := UInt8.le_iff_toNat_le.mp oneLe
          rw [UInt8.toNat_sub_of_le _ _ oneLe]
          exact (Nat.sub_add_cancel isPositive).symm
        simp only [if_pos positive, if_neg isZero, isSucc, List.take_succ_cons,
          hashedSum_cons, BitVec.ofNat_add]
        by_cases isLast : num - 1 = 0
        · simp [isLast, hashedSum]
        · simp only [if_neg isLast, inductionHypothesis, BitVec.add_assoc]

/-- The hash of a string of at most 512 bytes is the sum itself. -/
theorem withEscapeHash_toNat
    {s : List UInt8} (num : UInt8)
    (short : (if num = 0 then s else s.take num.toNat).length ≤ 512) :
    (withEscapeHash s num).toNat =
      hashedSum (if num = 0 then s else s.take num.toNat) := by
  have bound := hashedSum_le (if num = 0 then s else s.take num.toNat)
  have isMask :
      (0xfffffff : U64).toNat = 2 ^ 28 - 1 := rfl
  unfold withEscapeHash
  rw [escapeSum_eq, BitVec.toNat_setWidth, BitVec.toNat_and, isMask,
    Nat.and_two_pow_sub_one_eq_mod, BitVec.toNat_add, BitVec.toNat_ofNat]
  have noStart : (0 : U64).toNat = 0 := rfl
  omega

/-- Both ends of a goal are added up when the goal is longer than each. -/
theorem trimmedHash_toNat
    {goal : CString} {trim : ImplicitTrimLen}
    (beginFits : trim.beginLen.toNat < goal.length)
    (endFits : trim.endLen.toNat < goal.length) :
    (trimmedHash goal trim).toNat =
      hashedSum (goal.bytes.take trim.beginLen.toNat) +
        hashedSum (goal.bytes.reverse.take trim.endLen.toNat) := by
  have part (s : List UInt8) (num : UInt8) (fits : num.toNat < goal.length) :
      (if num ≠ 0 ∧ num.toNat < goal.length then
          withEscapeHash s num
        else 0).toNat =
        hashedSum (s.take num.toNat) ∧
      hashedSum (s.take num.toNat) ≤ 255 * 255 := by
    have numBound : num.toNat < 256 := num.toNat_lt
    have lengthBound : (s.take num.toNat).length ≤ num.toNat :=
      List.length_take_le _ _
    refine ⟨?_, (hashedSum_le _).trans (by omega)⟩
    by_cases isZero : num = 0
    · simp [isZero, hashedSum]
    · have isHash :=
        withEscapeHash_toNat (s := s) num
          (by rw [if_neg isZero]; omega)
      rw [if_pos ⟨isZero, fits⟩, isHash, if_neg isZero]
  obtain ⟨isFront, frontBound⟩ := part goal.bytes trim.beginLen beginFits
  obtain ⟨isBack, backBound⟩ := part goal.bytes.reverse trim.endLen endFits
  have isSum :
      trimmedHash goal trim =
        (if trim.beginLen ≠ 0 ∧ trim.beginLen.toNat < goal.length then
            withEscapeHash goal.bytes trim.beginLen
          else 0) +
        (if trim.endLen ≠ 0 ∧ trim.endLen.toNat < goal.length then
            withEscapeHash goal.bytes.reverse trim.endLen
          else 0) := by
    unfold trimmedHash
    dsimp only
    split_ifs <;> simp
  rw [isSum, BitVec.toNat_add, isFront, isBack]
  omega

/-- The counter of `is_implicit` ends at the first percent sign. -/
theorem isImplicit_eq
    {target : List UInt8} (isPattern : 0x25 ∈ target) (i : UInt8) :
    isImplicit target i =
      i + UInt8.ofNat (target.takeWhile (· ≠ 0x25)).length := by
  induction target generalizing i with
  | nil => cases isPattern
  | cons c rest inductionHypothesis =>
      rw [isImplicit]
      by_cases isPercent : c = 0x25
      · simp [isPercent]
      · have inRest : 0x25 ∈ rest :=
          (List.mem_cons.mp isPattern).resolve_left (Ne.symm isPercent)
        rw [if_neg isPercent, inductionHypothesis inRest,
          List.takeWhile_cons_of_pos (by simpa using isPercent),
          List.length_cons, UInt8.ofNat_add, UInt8.add_assoc,
          UInt8.add_comm 1]
        rfl

/-- A target without a percent sign has no lengths. -/
theorem trimOf_of_absent
    {target : List UInt8} (notPattern : 0x25 ∉ target) :
    trimOf target = none := by
  have noCounter (i : UInt8) : isImplicit target i = 0 := by
    induction target generalizing i with
    | nil => rfl
    | cons c rest inductionHypothesis =>
        rw [List.mem_cons, not_or] at notPattern
        obtain ⟨notHere, notBehind⟩ := notPattern
        rw [isImplicit, if_neg (Ne.symm notHere)]
        exact inductionHypothesis notBehind (i + 1)
  exact if_neg fun isCounted => isCounted (noCounter 1)

/-- A list is cut at the first place of a member. -/
theorem eq_takeWhile_append_cons
    {a : UInt8} {s : List UInt8} (member : a ∈ s) :
    s =
      s.takeWhile (· ≠ a) ++
        a :: s.drop ((s.takeWhile (· ≠ a)).length + 1) := by
  induction s with
  | nil => cases member
  | cons c rest inductionHypothesis =>
      by_cases isHere : c = a
      · simp [isHere]
      · have inRest : a ∈ rest :=
          (List.mem_cons.mp member).resolve_left (Ne.symm isHere)
        rw [List.takeWhile_cons_of_pos (by simpa using isHere),
          List.length_cons, List.drop_succ_cons, List.cons_append,
          ← inductionHypothesis inRest]

/-- A pattern is its prefix, a percent sign and its suffix. -/
theorem bytes_eq
    {target : CString} (isPattern : 0x25 ∈ target.bytes) :
    target.bytes = prefixOf target ++ 0x25 :: suffixOf target :=
  eq_takeWhile_append_cons isPattern

/-- The lengths of a pattern of at most 255 bytes. -/
theorem trimOf_eq
    {target : CString} (isPattern : 0x25 ∈ target.bytes)
    (short : target.length < 256) :
    ∃ trim,
      trimOf target.bytes = some trim ∧
        trim.beginLen.toNat = (prefixOf target).length ∧
          trim.endLen.toNat = (suffixOf target).length := by
  have isLength :
      target.bytes.length =
        (prefixOf target).length + (suffixOf target).length + 1 := by
    conv_lhs => rw [bytes_eq isPattern]
    rw [List.length_append, List.length_cons]
    rfl
  have isShort : target.bytes.length < 256 := short
  have isCounter :
      (isImplicit target.bytes 1).toNat = (prefixOf target).length + 1 := by
    rw [isImplicit_eq isPattern, UInt8.toNat_add, UInt8.toNat_ofNat']
    have one : (1 : UInt8).toNat = 1 := rfl
    have same :
        (target.bytes.takeWhile (· ≠ 0x25)).length =
          (prefixOf target).length := rfl
    omega
  have notZero : isImplicit target.bytes 1 ≠ 0 := by
    intro isZero
    rw [isZero] at isCounter
    cases isCounter
  refine ⟨_, if_pos notZero, ?_, ?_⟩
  · have one : (1 : UInt8).toNat = 1 := rfl
    have oneLe : (1 : UInt8) ≤ isImplicit target.bytes 1 :=
      UInt8.le_iff_toNat_le.mpr (by omega)
    rw [UInt8.toNat_sub_of_le _ _ oneLe]
    omega
  · have isOfNat :
        (UInt8.ofNat target.bytes.length).toNat = target.bytes.length := by
      rw [UInt8.toNat_ofNat']
      omega
    have counterLe :
        isImplicit target.bytes 1 ≤ UInt8.ofNat target.bytes.length :=
      UInt8.le_iff_toNat_le.mpr (by omega)
    rw [UInt8.toNat_sub_of_le _ _ counterLe]
    omega

/-- Strings are the same up to the end of what they share. -/
theorem strncmp_append (front first second : List UInt8) :
    strncmp (front ++ first) (front ++ second) front.length = 0 := by
  induction front with
  | nil => rw [List.length_nil, strncmp.eq_1]
  | cons c front inductionHypothesis =>
      rw [List.cons_append, List.cons_append, List.length_cons,
        strncmp, if_pos rfl, inductionHypothesis]

/--
The ends of a goal that a pattern matches lead to the bucket of the pattern.
-/
theorem isTrimmed_of_matches
    {goal target : CString} {trim : ImplicitTrimLen}
    (isMatch : Matches goal target) (short : target.length < 256)
    (isTrim : trimOf target.bytes = some trim)
    (longerPrefix : (prefixOf target).length < goal.length)
    (longerSuffix : (suffixOf target).length < goal.length) :
    isTrimmed trim goal target = true := by
  obtain ⟨isPattern, isPrefix, isSuffix, _⟩ := isMatch
  obtain ⟨_, isSame, isBegin, isEnd⟩ := trimOf_eq isPattern short
  cases isTrim.symm.trans isSame
  have isFront : goal.bytes.take (prefixOf target).length = prefixOf target :=
    (List.prefix_iff_eq_take.mp isPrefix).symm
  have isBack :
      goal.bytes.reverse.take (suffixOf target).length =
        (suffixOf target).reverse := by
    have isPrefix :=
      List.prefix_iff_eq_take.mp (List.reverse_prefix.mpr isSuffix)
    rw [List.length_reverse] at isPrefix
    exact isPrefix.symm
  have isGoalHash :
      (trimmedHash goal trim).toNat =
        hashedSum (prefixOf target) + hashedSum (suffixOf target) := by
    rw [trimmedHash_toNat (isBegin ▸ longerPrefix) (isEnd ▸ longerSuffix),
      isBegin, isEnd, isFront, isBack, hashedSum_reverse]
  have isTargetHash :
      (escapeHash target).toNat =
        hashedSum (prefixOf target) + hashedSum (suffixOf target) := by
    have isShort : target.bytes.length < 256 := short
    rw [escapeHash, withEscapeHash_toNat 0 (by rw [if_pos rfl]; omega),
      if_pos rfl, bytes_eq isPattern, hashedSum_append, hashedSum_cons]
    simp
  unfold isTrimmed
  rw [decide_eq_true_iff]
  constructor
  · rw [bucketOf, isTargetHash, isGoalHash]
  · obtain ⟨rest, isGoal⟩ := isPrefix
    rw [isBegin, bytes_eq isPattern, ← isGoal]
    exact strncmp_append _ _ _

/--
The search ends somewhere when the first pattern matches and neither its prefix
nor its suffix is the whole goal.
-/
theorem reaches_of_first
    {front back : List CString} {goal target : CString}
    (noPattern : ∀ other ∈ front, 0x25 ∉ other.bytes)
    (isMatch : Matches goal target) (short : target.length < 256)
    (longerPrefix : (prefixOf target).length < goal.length)
    (longerSuffix : (suffixOf target).length < goal.length) :
    ∃ other ∈ front ++ target :: back,
      endsAt (front ++ target :: back) goal other = true := by
  have member : target ∈ front ++ target :: back :=
    List.mem_append_right _ List.mem_cons_self
  unfold endsAt
  by_cases someTaken :
      (front ++ target :: back).any (isTaken goal) = true
  · simp only [someTaken, if_true]
    exact List.any_eq_true.mp someTaken
  · simp only [someTaken]
    obtain ⟨trim, isTrim, _⟩ := trimOf_eq isMatch.1 short
    have noTrims :
        front.filterMap (fun target => trimOf target.bytes) = [] := by
      rw [List.filterMap_eq_nil_iff]
      intro other isFront
      exact trimOf_of_absent (noPattern other isFront)
    have isFirst : trimOfAll (front ++ target :: back) = some trim := by
      unfold trimOfAll
      rw [List.filterMap_append, noTrims, List.nil_append,
        List.filterMap_cons, isTrim]
      rfl
    refine ⟨target, member, ?_⟩
    rw [isFirst]
    exact isTrimmed_of_matches isMatch short isTrim longerPrefix longerSuffix


/-! ## Right searches -/

/-- The search is right exactly for these targets and goals. -/
theorem searchRight_iff_searchFits
    (targets : List CString) (goal : CString) :
    SearchRight targets goal ↔ SearchFits targets goal := by
  obtain ⟨rules, isEntered, lists⟩ := lists_init.enterAll targets
  rw [List.nil_append] at lists
  constructor
  · rintro ⟨_, isSame, result, isResult, someIff, isRight⟩
    cases isEntered.symm.trans isSame
    have safe :
        (∃ target ∈ targets, isTaken goal target = true) ∨
          ∃ target ∈ targets, trimOf target.bytes ≠ none := by
      by_contra notSafe
      push Not at notSafe
      have notTaken : ∀ target ∈ targets, isTaken goal target = false := by
        simpa using notSafe.1
      rw [lists.searchRule_eq_none notTaken notSafe.2] at isResult
      cases isResult
    rw [lists.searchRule_eq safe, Option.some_inj] at isResult
    subst isResult
    refine ⟨safe, ?_, ?_⟩
    · intro someMatch
      have isFound := someIff.mpr someMatch
      rw [Ne, Option.map_eq_none_iff, ← Ne, ← Option.isSome_iff_ne_none,
        List.find?_isSome] at isFound
      exact isFound
    · intro front target back isSplit ends notMatch
      rw [isSplit] at isRight
      cases inFront : front.find? (endsAt (front ++ target :: back) goal) with
      | none =>
          rw [isSplit] at ends
          have isFirst :
              (front ++ target :: back).find?
                  (endsAt (front ++ target :: back) goal) =
                some target := by
            rw [List.find?_append, inFront, List.find?_cons, ends]
            rfl
          rw [isFirst] at isRight
          obtain ⟨_, _, isMatch, isSame⟩ := isRight _ rfl
          cases isSame
          exact absurd isMatch notMatch
      | some earlier =>
          rw [List.find?_append, inFront] at isRight
          obtain ⟨_, _, isMatch, isSame⟩ := isRight _ rfl
          cases isSame
          rw [isSplit]
          exact
            ⟨earlier, List.mem_of_find?_eq_some inFront,
              List.find?_some inFront, isMatch⟩
  · intro fits
    refine ⟨rules, isEntered, _, lists.searchRule_eq fits.safe, ?_⟩
    cases isFound : targets.find? (endsAt targets goal) with
    | none =>
        refine ⟨?_, fun _ absent => by cases absent⟩
        have noEnd : ¬ ∃ target ∈ targets,
            endsAt targets goal target = true := by
          simpa using isFound
        simpa using mt fits.reaches noEnd
    | some first =>
        obtain ⟨ends, front, back, isSplit, isFirst⟩ :=
          List.find?_eq_some_iff_append.mp isFound
        have isMatch : Matches goal first := by
          by_contra notMatch
          obtain ⟨earlier, member, earlierEnds, _⟩ :=
            fits.inFront front first back isSplit ends notMatch
          simpa [earlierEnds] using isFirst earlier member
        have member : first ∈ targets := List.mem_of_find?_eq_some isFound
        refine ⟨⟨fun _ => ⟨first, member, isMatch⟩, fun _ => by simp⟩, ?_⟩
        intro value isValue
        cases isValue
        exact ⟨first, member, isMatch, rfl⟩

/--
Only the lengths of the first pattern are tried: a goal that only the second one
matches has no rule.
-/
theorem not_searchRight_secondPattern :
    ¬ SearchRight [CString.ofString "%.o", CString.ofString "lib%.a"]
      (CString.ofString "libm.a") := by
  rintro ⟨rules, isEntered, result, isResult, someIff, _⟩
  have noRule :
      ∀ rules ∈
          entered [CString.ofString "%.o", CString.ofString "lib%.a"],
        searchRule rules (CString.ofString "libm.a") = some none := by
    decide +kernel
  have isMatch :
      ∃ target ∈ [CString.ofString "%.o", CString.ofString "lib%.a"],
        Matches (CString.ofString "libm.a") target := by
    decide
  rw [noRule rules isEntered, Option.some_inj] at isResult
  exact someIff.mpr isMatch isResult.symm

end BinTools.RuleSearch
