import BinTools.CoffDictionary

namespace BinTools.CoffDictionary.DllHashTable

/-!
# Names that the dictionary keeps

A second allocation of a name cuts the chain of its bucket behind the entry
that follows the first one of the name.  The names behind it are found no
longer, unless they also stand in front.
-/

/--
Every name that was allocated is found with a DLL it was allocated with, and no
other name is found.
-/
def Finds (calls : List (CString × CString)) (table : DllHashTable) : Prop :=
  ∀ (pltOffset : U32) (name : CString),
    ∃ later answer,
      table.lookupDynamicSymbol pltOffset name = some (later, answer) ∧
        (answer = none ↔ name ∉ calls.map Prod.fst) ∧
          ∀ found ∈ answer, (name, found.1) ∈ calls

/-- This holds after each of some allocations in the first table. -/
def AlwaysFinds (calls : List (CString × CString)) : Prop :=
  ∀ earlier, earlier <+: calls →
    ∃ table,
      init.allocDynamicSymbols earlier = some table ∧ table.Finds earlier

/-- No allocation drops a name from the chain of its bucket. -/
def AlwaysKeeps (calls : List (CString × CString)) : Prop :=
  ∀ earlier call, earlier ++ [call] <+: calls →
    ∀ table, init.allocDynamicSymbols earlier = some table →
      KeepsNames (table.namesOf call.1) call.1

/-- What holds after some allocations in the first table. -/
structure Allocated
    (calls : List (CString × CString)) (table : DllHashTable)
    (chains : Nat → List Coff.DllSymbol) : Prop where
  represents : table.Represents chains
  hashed :
    ∀ bucket < 10, ∀ entry ∈ chains bucket,
      table.bucketOf entry.name = bucket
  called :
    ∀ bucket < 10, ∀ entry ∈ chains bucket, (entry.name, entry.dll) ∈ calls

variable
  {calls : List (CString × CString)} {table : DllHashTable}
  {chains : Nat → List Coff.DllSymbol}

/-- Tables of one size have the same buckets. -/
theorem bucketOf_of_length
    {later : DllHashTable}
    (sameLength : later.bucket.length = table.bucket.length)
    (name : CString) : later.bucketOf name = table.bucketOf name := by
  rw [bucketOf, sameLength, bucketOf]

/-- One of ten buckets. -/
theorem Represents.bucketOf_lt
    (represents : table.Represents chains) (name : CString) :
    table.bucketOf name < 10 := by
  have inRange := represents.inRange name
  rwa [represents.1] at inRange

/-- The names of a bucket are those of its list. -/
theorem Represents.namesOf_eq
    (represents : table.Represents chains) (name : CString) :
    table.namesOf name =
      (chains (table.bucketOf name)).map Coff.DllSymbol.name := by
  have inRange := represents.inRange name
  obtain ⟨_, lists, holds⟩ := represents
  have followed :=
    (holds.linked _ inRange).follow_eq (holds.length_le inRange)
  have isMap := holds.entries _ inRange
  unfold namesOf head
  rw [followed, Option.getD_some]
  have isFilter :
      ((lists (table.bucketOf name)).filterMap fun k =>
          (table.symbol k).map Coff.DllSymbol.name) =
        ((lists (table.bucketOf name)).map table.symbol).filterMap
          (Option.map Coff.DllSymbol.name) := by
    rw [List.filterMap_map]
    rfl
  rw [isFilter, isMap, List.filterMap_map]
  have isSome :
      Option.map Coff.DllSymbol.name ∘ some =
        some ∘ Coff.DllSymbol.name := rfl
  rw [isSome, List.filterMap_eq_map]

/-- The first table. -/
theorem allocated_init : Allocated [] init fun _ => [] where
  represents := init_represents
  hashed := fun _ _ _ member => absurd member List.not_mem_nil
  called := fun _ _ _ member => absurd member List.not_mem_nil

/-- One more allocation. -/
theorem Allocated.allocDynamicSymbol
    (allocated : Allocated calls table chains) (name dllname : CString) :
    ∃ later,
      table.allocDynamicSymbol name dllname = some later ∧
        Allocated (calls ++ [(name, dllname)]) later
          (Function.update chains (table.bucketOf name)
            (linkBehind (fresh name dllname)
              (chains (table.bucketOf name)))) := by
  obtain ⟨later, isLater, represents⟩ :=
    allocated.represents.allocDynamicSymbol name dllname
  have sameBuckets :=
    bucketOf_of_length (represents.1.trans allocated.represents.1.symm)
  have isBucket := allocated.represents.bucketOf_lt name
  refine ⟨later, isLater, represents, ?_, ?_⟩
  · intro bucket inTable entry member
    rw [sameBuckets]
    by_cases isHere : bucket = table.bucketOf name
    · rw [isHere, Function.update_self] at member
      rcases mem_of_mem_linkBehind member with isOld | rfl
      · rw [isHere]
        exact allocated.hashed _ isBucket entry isOld
      · rw [isHere]
        rfl
    · rw [Function.update_of_ne isHere] at member
      exact allocated.hashed bucket inTable entry member
  · intro bucket inTable entry member
    by_cases isHere : bucket = table.bucketOf name
    · rw [isHere, Function.update_self] at member
      rcases mem_of_mem_linkBehind member with isOld | rfl
      · exact
          List.mem_append_left _ (allocated.called _ isBucket entry isOld)
      · exact List.mem_append_right _ List.mem_cons_self
    · rw [Function.update_of_ne isHere] at member
      exact
        List.mem_append_left _ (allocated.called bucket inTable entry member)

/-- All allocations succeed. -/
theorem exists_allocated (calls : List (CString × CString)) :
    ∃ table chains,
      init.allocDynamicSymbols calls = some table ∧
        Allocated calls table chains := by
  induction calls using List.reverseRecOn with
  | nil => exact ⟨init, _, rfl, allocated_init⟩
  | append_singleton calls call inductionHypothesis =>
      obtain ⟨table, chains, isTable, allocated⟩ := inductionHypothesis
      obtain ⟨later, isLater, laterAllocated⟩ :=
        allocated.allocDynamicSymbol call.1 call.2
      refine ⟨later, _, ?_, laterAllocated⟩
      unfold allocDynamicSymbols at isTable ⊢
      rw [List.foldlM_append, isTable]
      simpa using isLater

/-- All names that were allocated are in their buckets. -/
def AllPresent
    (calls : List (CString × CString)) (table : DllHashTable)
    (chains : Nat → List Coff.DllSymbol) : Prop :=
  ∀ name ∈ calls.map Prod.fst,
    name ∈ (chains (table.bucketOf name)).map Coff.DllSymbol.name

/-- The dictionary is right as long as all names are in their buckets. -/
theorem Allocated.finds_iff
    (allocated : Allocated calls table chains) :
    table.Finds calls ↔ AllPresent calls table chains := by
  constructor
  · intro finds name isCalled
    obtain ⟨later, answer, isAnswer, isNone, _⟩ := finds 0 name
    obtain ⟨_, isLookup, _⟩ :=
      allocated.represents.lookupDynamicSymbol 0 name
    by_contra absent
    have noTouch :
        Coff.touch 0 name (chains (table.bucketOf name)) = none := by
      refine touch_of_absent 0 fun entry member sameName => absent ?_
      rw [← sameName] at member ⊢
      exact List.mem_map_of_mem member
    rw [isLookup, noTouch] at isAnswer
    cases isAnswer
    exact isNone.mp rfl isCalled
  · intro allPresent pltOffset name
    obtain ⟨later, isLookup, _⟩ :=
      allocated.represents.lookupDynamicSymbol pltOffset name
    refine ⟨later, _, isLookup, ?_⟩
    cases isFound :
        (chains (table.bucketOf name)).find? fun entry =>
          decide (entry.name = name) with
    | none =>
        have absent :
            ∀ entry ∈ chains (table.bucketOf name), entry.name ≠ name := by
          simpa using isFound
        rw [touch_of_absent pltOffset absent]
        refine ⟨⟨fun _ isCalled => ?_, fun _ => rfl⟩, by simp⟩
        obtain ⟨entry, member, sameName⟩ :=
          List.mem_map.mp (allPresent name isCalled)
        exact absent entry member sameName
    | some entry =>
        have member := List.mem_of_find?_eq_some isFound
        have sameName : entry.name = name := by
          simpa using List.find?_some isFound
        have isCalled :=
          allocated.called _ (allocated.represents.bucketOf_lt name) entry
            member
        rw [sameName] at isCalled
        obtain ⟨_, isTouch, _⟩ := Coff.touch_spec pltOffset isFound
        rw [isTouch]
        refine ⟨⟨fun noAnswer => ?_, fun notCalled => ?_⟩, ?_⟩
        · cases noAnswer
        · exact absurd (List.mem_map_of_mem isCalled) notCalled
        · rintro found isSome
          cases isSome
          exact isCalled

/-- The names of a bucket are kept, or stand behind. -/
theorem mem_names_iff (names : List CString) (name other : CString) :
    other ∈ names ↔
      other ∈ keptNames names name ∨
        other ∈ (names.dropWhile (· ≠ name)).drop 2 := by
  rw [← List.mem_append, keptNames, List.append_assoc, List.take_append_drop,
    List.takeWhile_append_dropWhile]

/-- A name that is linked again is itself kept. -/
theorem mem_keptNames {names : List CString} {name : CString}
    (member : name ∈ names) : name ∈ keptNames names name := by
  induction names with
  | nil => exact absurd member List.not_mem_nil
  | cons first rest inductionHypothesis =>
      by_cases isFirst : first = name
      · simp [keptNames, isFirst]
      · have isRest : name ∈ rest :=
          (List.mem_cons.mp member).resolve_left (Ne.symm isFirst)
        simpa [keptNames, isFirst, Ne.symm isFirst]
          using inductionHypothesis isRest

/-- All names stay in their buckets exactly when none is dropped. -/
theorem Allocated.allPresent_iff
    (allocated : Allocated calls table chains)
    (allPresent : AllPresent calls table chains) (name dllname : CString)
    {later : DllHashTable}
    (sameBuckets : ∀ other, later.bucketOf other = table.bucketOf other) :
    AllPresent (calls ++ [(name, dllname)]) later
        (Function.update chains (table.bucketOf name)
          (linkBehind (fresh name dllname)
            (chains (table.bucketOf name)))) ↔
      KeepsNames (table.namesOf name) name := by
  have isBucket := allocated.represents.bucketOf_lt name
  have isNames := allocated.represents.namesOf_eq name
  constructor
  · intro laterPresent other isBehind
    have member :=
      (mem_names_iff (table.namesOf name) name other).mpr (Or.inr isBehind)
    obtain ⟨entry, isEntry, rfl⟩ := List.mem_map.mp (isNames ▸ member)
    have sameBucket := allocated.hashed _ isBucket entry isEntry
    have isCalled := allocated.called _ isBucket entry isEntry
    have isPresent :=
      laterPresent entry.name
        (List.mem_map_of_mem (List.mem_append_left _ isCalled))
    rw [sameBuckets, sameBucket, Function.update_self,
      mem_names_linkBehind, ← isNames] at isPresent
    rcases isPresent with isSame | isKept
    · have sameName : entry.name = name := isSame
      rw [sameName] at member ⊢
      exact mem_keptNames member
    · exact isKept
  · intro keeps other isCalled
    rw [sameBuckets]
    rw [List.map_append, List.mem_append, List.map_singleton,
      List.mem_singleton] at isCalled
    by_cases isHere : table.bucketOf other = table.bucketOf name
    · rw [isHere, Function.update_self, mem_names_linkBehind, ← isNames]
      rcases isCalled with isOld | isNew
      · right
        have member := allPresent other isOld
        rw [isHere, ← isNames] at member
        rcases (mem_names_iff _ name other).mp member with isKept | isBehind
        · exact isKept
        · exact keeps other isBehind
      · exact Or.inl isNew
    · rw [Function.update_of_ne isHere]
      refine allPresent other (isCalled.resolve_right ?_)
      rintro rfl
      exact isHere rfl

/-- One more allocation in a dictionary that is right. -/
theorem finds_concat_iff
    (isTable : init.allocDynamicSymbols calls = some table)
    (finds : table.Finds calls) (call : CString × CString) :
    (∃ later,
        init.allocDynamicSymbols (calls ++ [call]) = some later ∧
          later.Finds (calls ++ [call])) ↔
      KeepsNames (table.namesOf call.1) call.1 := by
  obtain ⟨same, chains, isSame, allocated⟩ := exists_allocated calls
  rw [isTable, Option.some_inj] at isSame
  subst isSame
  obtain ⟨later, isLater, laterAllocated⟩ :=
    allocated.allocDynamicSymbol call.1 call.2
  have isRun :
      init.allocDynamicSymbols (calls ++ [call]) = some later := by
    unfold allocDynamicSymbols at isTable ⊢
    rw [List.foldlM_append, isTable]
    simpa using isLater
  have sameBuckets :=
    bucketOf_of_length
      (laterAllocated.represents.1.trans allocated.represents.1.symm)
  rw [← allocated.allPresent_iff (allocated.finds_iff.mp finds) call.1 call.2
    sameBuckets, ← laterAllocated.finds_iff, isRun]
  simp

/--
The dictionary finds every name that was allocated, and no other one, after
each allocation exactly when no allocation drops the last entry of a name.
-/
theorem alwaysFinds_iff (calls : List (CString × CString)) :
    AlwaysFinds calls ↔ AlwaysKeeps calls := by
  induction calls using List.reverseRecOn with
  | nil =>
      constructor
      · intro _ earlier call isPart
        simp at isPart
      · intro _ earlier isPart
        obtain rfl := List.prefix_nil.mp isPart
        refine ⟨init, rfl, allocated_init.finds_iff.mpr ?_⟩
        intro name member
        exact absurd member List.not_mem_nil
  | append_singleton calls call inductionHypothesis =>
      constructor
      · intro always earlier another isPart table isTable
        rcases List.prefix_concat_iff.mp isPart with isAll | isEarlier
        · obtain ⟨rfl, same⟩ := List.append_inj' isAll rfl
          cases same
          obtain ⟨_, isSame, finds⟩ :=
            always earlier (List.prefix_append _ _)
          rw [isTable, Option.some_inj] at isSame
          subst isSame
          exact
            (finds_concat_iff isTable finds _).mp
              (always _ (List.prefix_refl _))
        · refine
            inductionHypothesis.mp (fun part isPrefix => ?_) earlier another
              isEarlier table isTable
          exact always part (isPrefix.trans (List.prefix_append _ _))
      · intro keeps earlier isPart
        have earlierFinds : AlwaysFinds calls :=
          inductionHypothesis.mpr fun part another isPrefix =>
            keeps part another (isPrefix.trans (List.prefix_append _ _))
        rcases List.prefix_concat_iff.mp isPart with rfl | isEarlier
        · obtain ⟨table, isTable, finds⟩ :=
            earlierFinds calls (List.prefix_refl _)
          exact
            (finds_concat_iff isTable finds call).mpr
              (keeps calls call (List.prefix_refl _) table isTable)
        · exact earlierFinds earlier isEarlier

/-- Three names of one bucket, and then the first one for another DLL. -/
def overlappingCalls : List (CString × CString) :=
  [(CString.ofString "ExitProcess", CString.ofString "kernel32"),
    (CString.ofString "MessageBoxA", CString.ofString "user32"),
    (CString.ofString "CreateFileA", CString.ofString "kernel32"),
    (CString.ofString "ExitProcess", CString.ofString "ntoskrnl")]

/-- The third name of these is lost. -/
theorem not_finds_overlappingCalls :
    ∃ table,
      init.allocDynamicSymbols overlappingCalls = some table ∧
        table.lookupDynamicSymbol 0x1000 (CString.ofString "CreateFileA") =
            some (table, none) ∧
          ¬ table.Finds overlappingCalls := by
  obtain ⟨table, _, isTable, _⟩ := exists_allocated overlappingCalls
  have isLost :
      ∀ found ∈ init.allocDynamicSymbols overlappingCalls,
        found.lookupDynamicSymbol 0x1000 (CString.ofString "CreateFileA") =
          some (found, none) := by
    decide +kernel
  refine ⟨table, isTable, isLost table isTable, ?_⟩
  intro finds
  obtain ⟨later, answer, isAnswer, isNone, _⟩ :=
    finds 0x1000 (CString.ofString "CreateFileA")
  rw [isLost table isTable] at isAnswer
  cases isAnswer
  exact isNone.mp rfl (by decide +kernel)

end BinTools.CoffDictionary.DllHashTable
