import BinTools.PointerList
import Mathlib.Data.List.Nodup
import Mathlib.Data.List.Perm.Subperm
import Mathlib.Logic.Function.Basic

namespace HashChains

open PointerList (Linked walk walk_eq_hit walk_eq_miss)

/-!
# Buckets of linked lists

The cells of all lists come from one arena and are numbered in the order in
which they were taken; `count` cells were taken so far.  Every bucket points to
the list of its own cells.  A step takes one cell and links it to a bucket or
behind a cell.
-/

/-- Every bucket has its list of cells, and no cell is in two places. -/
structure Chained
    (buckets : List (Option Nat)) (next : Nat → Option Nat) (count : Nat)
    (lists : Nat → List Nat) : Prop where
  linked :
    ∀ bucket < buckets.length,
      Linked next (buckets.getD bucket none) (lists bucket)
  inside : ∀ bucket < buckets.length, ∀ cell ∈ lists bucket, cell < count
  distinct : ∀ bucket < buckets.length, (lists bucket).Nodup
  disjoint :
    ∀ bucket < buckets.length, ∀ other < buckets.length, bucket ≠ other →
      ∀ cell ∈ lists bucket, cell ∉ lists other

variable
  {buckets : List (Option Nat)} {next later : Nat → Option Nat}
  {count bucket : Nat} {lists : Nat → List Nat}

/-- Buckets without cells. -/
theorem chained_empty (size : Nat) (next : Nat → Option Nat) :
    Chained (List.replicate size none) next 0 fun _ => [] where
  linked := by
    intro bucket inRange
    rw [List.length_replicate] at inRange
    rw [List.getD_eq_getElem?_getD, List.getElem?_replicate_of_lt inRange]
    rfl
  inside := fun _ _ _ member => absurd member List.not_mem_nil
  distinct := fun _ _ => List.nodup_nil
  disjoint := fun _ _ _ _ _ _ member => absurd member List.not_mem_nil

/-- No list is longer than the arena. -/
theorem Chained.length_le
    (chained : Chained buckets next count lists)
    (inRange : bucket < buckets.length) : (lists bucket).length ≤ count := by
  have isSubset : lists bucket ⊆ List.range count :=
    fun cell member =>
      List.mem_range.mpr (chained.inside bucket inRange cell member)
  have isShort :=
    ((chained.distinct bucket inRange).subperm isSubset).length_le
  rwa [List.length_range] at isShort

/-- Changes to the cells that keep their links. -/
theorem Chained.congr
    (chained : Chained buckets next count lists)
    (unchanged : ∀ cell < count, later cell = next cell) :
    Chained buckets later count lists where
  linked := fun bucket inRange =>
    (chained.linked bucket inRange).frame fun cell member =>
      unchanged cell (chained.inside bucket inRange cell member)
  inside := chained.inside
  distinct := chained.distinct
  disjoint := chained.disjoint

/-- The next cell is taken but not linked. -/
theorem Chained.skip (chained : Chained buckets next count lists) :
    Chained buckets next (count + 1) lists where
  linked := chained.linked
  inside := fun bucket inRange cell member =>
    Nat.lt_succ_of_lt (chained.inside bucket inRange cell member)
  distinct := chained.distinct
  disjoint := chained.disjoint

/-- One list is replaced by some of its cells and the next one. -/
theorem Chained.update
    (chained : Chained buckets next count lists)
    (inRange : bucket < buckets.length) {cells : List Nat}
    (kept : cells.Sublist (lists bucket)) {heads : List (Option Nat)}
    (sameLength : heads.length = buckets.length)
    (linked :
      ∀ other < buckets.length,
        Linked later (heads.getD other none)
          (Function.update lists bucket (cells ++ [count]) other)) :
    Chained heads later (count + 1)
      (Function.update lists bucket (cells ++ [count])) where
  linked := by
    intro other isOther
    rw [sameLength] at isOther
    exact linked other isOther
  inside := by
    intro other isOther cell member
    rw [sameLength] at isOther
    by_cases isHere : other = bucket
    · subst isHere
      rw [Function.update_self] at member
      rcases List.mem_append.mp member with isOld | isNew
      · exact
          Nat.lt_succ_of_lt
            (chained.inside other isOther cell (kept.subset isOld))
      · rw [List.mem_singleton.mp isNew]
        exact Nat.lt_succ_self count
    · rw [Function.update_of_ne isHere] at member
      exact Nat.lt_succ_of_lt (chained.inside other isOther cell member)
  distinct := by
    intro other isOther
    rw [sameLength] at isOther
    by_cases isHere : other = bucket
    · subst isHere
      rw [Function.update_self]
      refine
        List.nodup_append.mpr
          ⟨(chained.distinct other isOther).sublist kept,
            List.nodup_singleton count, ?_⟩
      rintro cell member last isLast rfl
      rw [List.mem_singleton.mp isLast] at member
      exact
        Nat.lt_irrefl _ (chained.inside other isOther _ (kept.subset member))
    · rw [Function.update_of_ne isHere]
      exact chained.distinct other isOther
  disjoint := by
    intro one isOne two isTwo isOther cell inOne inTwo
    rw [sameLength] at isOne isTwo
    by_cases isHere : one = bucket
    · subst isHere
      rw [Function.update_self] at inOne
      rw [Function.update_of_ne isOther.symm] at inTwo
      rcases List.mem_append.mp inOne with isOld | isNew
      · exact
          chained.disjoint one isOne two isTwo isOther cell
            (kept.subset isOld) inTwo
      · rw [List.mem_singleton.mp isNew] at inTwo
        exact Nat.lt_irrefl _ (chained.inside two isTwo _ inTwo)
    · rw [Function.update_of_ne isHere] at inOne
      by_cases isThere : two = bucket
      · subst isThere
        rw [Function.update_self] at inTwo
        rcases List.mem_append.mp inTwo with isOld | isNew
        · exact
            chained.disjoint one isOne two isTwo isOther cell inOne
              (kept.subset isOld)
        · rw [List.mem_singleton.mp isNew] at inOne
          exact Nat.lt_irrefl _ (chained.inside one isOne _ inOne)
      · rw [Function.update_of_ne isThere] at inTwo
        exact chained.disjoint one isOne two isTwo isOther cell inOne inTwo

/-- The next cell becomes the only one of an empty bucket. -/
theorem Chained.start
    (chained : Chained buckets next count lists)
    (inRange : bucket < buckets.length) (isEmpty : lists bucket = [])
    (ends : later count = none)
    (unchanged : ∀ cell < count, later cell = next cell) :
    Chained (buckets.set bucket (some count)) later (count + 1)
      (Function.update lists bucket [count]) := by
  refine
    chained.update inRange (List.nil_sublist _) List.length_set ?_
  intro other isOther
  by_cases isHere : other = bucket
  · subst isHere
    rw [Function.update_self, List.getD_eq_getElem?_getD,
      List.getElem?_set_self isOther]
    exact ⟨rfl, ends⟩
  · rw [Function.update_of_ne isHere, List.getD_eq_getElem?_getD,
      List.getElem?_set_ne (Ne.symm isHere), ← List.getD_eq_getElem?_getD]
    exact
      (chained.linked other isOther).frame fun cell member =>
        unchanged cell (chained.inside other isOther cell member)

/-- The next cell is linked behind a cell; what followed that one is lost. -/
theorem Chained.redirect
    (chained : Chained buckets next count lists)
    (inRange : bucket < buckets.length) {front back : List Nat} {cell : Nat}
    (isSplit : lists bucket = front ++ cell :: back)
    (redirected : later cell = some count) (ends : later count = none)
    (unchanged : ∀ other < count, other ≠ cell → later other = next other) :
    Chained buckets later (count + 1)
      (Function.update lists bucket (front ++ [cell] ++ [count])) := by
  have isPart : (front ++ [cell]).Sublist (lists bucket) := by
    have isFront : front ++ cell :: back = front ++ [cell] ++ back := by
      simp
    rw [isSplit, isFront]
    exact List.sublist_append_left _ _
  refine chained.update inRange isPart rfl ?_
  intro other isOther
  have isLinked := chained.linked other isOther
  by_cases isHere : other = bucket
  · subst isHere
    have distinct := chained.distinct other isOther
    rw [isSplit] at isLinked distinct
    rw [Function.update_self, List.append_assoc]
    refine isLinked.redirect redirected ends fun before member => ?_
    apply unchanged before
    · exact
        chained.inside other isOther before
          (by rw [isSplit]; exact List.mem_append_left _ member)
    · exact
        (List.nodup_append.mp distinct).2.2 before member cell
          List.mem_cons_self
  · rw [Function.update_of_ne isHere]
    refine isLinked.frame fun before member => ?_
    apply unchanged before (chained.inside other isOther before member)
    rintro rfl
    exact
      chained.disjoint other isOther bucket inRange isHere before member
        (by rw [isSplit]; exact List.mem_append_right _ List.mem_cons_self)

/-! ## What the cells hold -/

section Entries

variable
  {Entry : Type*} {entry changed : Nat → Option Entry}
  {chains : Nat → List Entry}

/-- The cells of every bucket hold the entries of its chain. -/
structure Holds
    (buckets : List (Option Nat)) (next : Nat → Option Nat) (count : Nat)
    (lists : Nat → List Nat) (entry : Nat → Option Entry)
    (chains : Nat → List Entry) : Prop extends
    Chained buckets next count lists where
  entries :
    ∀ bucket < buckets.length,
      (lists bucket).map entry = (chains bucket).map some

/-- Buckets without entries. -/
theorem holds_empty
    (size : Nat) (next : Nat → Option Nat) (entry : Nat → Option Entry) :
    Holds (List.replicate size none) next 0 (fun _ => []) entry
      fun _ => [] where
  toChained := chained_empty size next
  entries := fun _ _ => rfl

/-- The cells of a chain that is split at one of its entries. -/
theorem Holds.split
    (holds : Holds buckets next count lists entry chains)
    (inRange : bucket < buckets.length) {front back : List Entry}
    {here : Entry} (isSplit : chains bucket = front ++ here :: back) :
    ∃ before cell after,
      lists bucket = before ++ cell :: after ∧
        before.map entry = front.map some ∧ entry cell = some here ∧
          after.map entry = back.map some := by
  have isMap := holds.entries bucket inRange
  rw [isSplit, List.map_append, List.map_cons] at isMap
  obtain ⟨before, later, isLists, isFront, isLater⟩ :=
    List.map_eq_append_iff.mp isMap
  obtain ⟨cell, after, rfl, isHere, isBack⟩ :=
    List.map_eq_cons_iff.mp isLater
  exact ⟨before, cell, after, isLists, isFront, isHere, isBack⟩

/-- A bucket without a first cell has no entries. -/
theorem Holds.head_eq_none_iff
    (holds : Holds buckets next count lists entry chains)
    (inRange : bucket < buckets.length) :
    buckets.getD bucket none = none ↔ chains bucket = [] := by
  have linked := holds.linked bucket inRange
  have isMap := holds.entries bucket inRange
  constructor
  · intro noHead
    rw [noHead] at linked
    have noCells : lists bucket = [] := linked.unique rfl
    rw [noCells] at isMap
    exact List.map_eq_nil_iff.mp isMap.symm
  · intro isEmpty
    rw [isEmpty, List.map_nil, List.map_eq_nil_iff] at isMap
    rw [isMap] at linked
    exact linked

/-- Cells whose entries are not picked. -/
theorem not_picked
    {cells : List Nat} {entries : List Entry} {pick : Entry → Bool}
    (isMap : cells.map entry = entries.map some)
    (noPick : ∀ one ∈ entries, pick one = false) :
    ∀ cell ∈ cells, (entry cell).map pick = some false := by
  intro cell member
  have isEntry : entry cell ∈ entries.map some := by
    rw [← isMap]
    exact List.mem_map_of_mem member
  obtain ⟨one, isOne, same⟩ := List.mem_map.mp isEntry
  rw [← same, Option.map_some, noPick one isOne]

/-- A walk ends at the cell of the first entry that is picked. -/
theorem Holds.walk_hit
    (holds : Holds buckets next count lists entry chains)
    (inRange : bucket < buckets.length) {before after : List Nat}
    {front : List Entry} {cell : Nat} {here : Entry} {pick : Entry → Bool}
    (isLists : lists bucket = before ++ cell :: after)
    (isFront : before.map entry = front.map some)
    (isHere : entry cell = some here)
    (noPick : ∀ one ∈ front, pick one = false)
    (isPick : pick here = true) :
    walk next (fun cell => (entry cell).map pick) count none
        (buckets.getD bucket none) =
      some (.hit cell) := by
  have linked := holds.linked bucket inRange
  have isShort := holds.length_le inRange
  rw [isLists] at linked isShort
  refine
    walk_eq_hit (not_picked isFront noPick) ?_ linked ?_
  · rw [isHere, Option.map_some, isPick]
  · rw [List.length_append, List.length_cons] at isShort
    omega

/-- A walk ends at the last cell when no entry is picked. -/
theorem Holds.walk_miss
    (holds : Holds buckets next count lists entry chains)
    (inRange : bucket < buckets.length) {pick : Entry → Bool}
    (noPick : ∀ one ∈ chains bucket, pick one = false) :
    walk next (fun cell => (entry cell).map pick) count none
        (buckets.getD bucket none) =
      some (.miss (lists bucket).getLast?) := by
  rw [walk_eq_miss (not_picked (holds.entries bucket inRange) noPick)
    (holds.linked bucket inRange) (holds.length_le inRange), Option.or_none]

/-- The entries of a list that lost some cells and got the next one. -/
theorem Holds.update
    (holds : Holds buckets next count lists entry chains)
    (inRange : bucket < buckets.length) {kept : List Nat}
    {entries : List Entry} {fresh : Entry} {heads : List (Option Nat)}
    (sameLength : heads.length = buckets.length)
    (chained :
      Chained heads later (count + 1)
        (Function.update lists bucket (kept ++ [count])))
    (isKept : kept.map entry = entries.map some)
    (isPart : kept.Sublist (lists bucket))
    (isFresh : changed count = some fresh)
    (unchanged : ∀ cell < count, changed cell = entry cell) :
    Holds heads later (count + 1)
      (Function.update lists bucket (kept ++ [count])) changed
      (Function.update chains bucket (entries ++ [fresh])) where
  toChained := chained
  entries := by
    intro other isOther
    rw [sameLength] at isOther
    by_cases isHere : other = bucket
    · subst isHere
      have sameEntries : kept.map changed = kept.map entry :=
        List.map_congr_left fun cell member =>
          unchanged cell
            (holds.inside other isOther cell (isPart.subset member))
      rw [Function.update_self, Function.update_self, List.map_append,
        List.map_append, sameEntries, isKept, List.map_singleton, isFresh,
        List.map_singleton]
    · rw [Function.update_of_ne isHere, Function.update_of_ne isHere,
        ← holds.entries other isOther]
      exact
        List.map_congr_left fun cell member =>
          unchanged cell (holds.inside other isOther cell member)

/-- An empty bucket gets the next cell. -/
theorem Holds.start
    (holds : Holds buckets next count lists entry chains)
    (inRange : bucket < buckets.length) (isEmpty : lists bucket = [])
    (ends : later count = none)
    (sameLinks : ∀ cell < count, later cell = next cell) {fresh : Entry}
    (isFresh : changed count = some fresh)
    (unchanged : ∀ cell < count, changed cell = entry cell) :
    Holds (buckets.set bucket (some count)) later (count + 1)
      (Function.update lists bucket [count]) changed
      (Function.update chains bucket [fresh]) := by
  have chained := holds.toChained.start inRange isEmpty ends sameLinks
  have noEntries : ([] : List Nat).map entry = ([] : List Entry).map some :=
    rfl
  exact
    holds.update inRange List.length_set chained noEntries
      (List.nil_sublist _) isFresh unchanged

/-- The next cell is linked behind a cell; what followed that one is lost. -/
theorem Holds.redirect
    (holds : Holds buckets next count lists entry chains)
    (inRange : bucket < buckets.length) {before after : List Nat}
    {front : List Entry} {cell : Nat} {here fresh : Entry}
    (isLists : lists bucket = before ++ cell :: after)
    (isFront : before.map entry = front.map some)
    (isHere : entry cell = some here)
    (redirected : later cell = some count) (ends : later count = none)
    (sameLinks : ∀ other < count, other ≠ cell → later other = next other)
    (isFresh : changed count = some fresh)
    (unchanged : ∀ other < count, changed other = entry other) :
    Holds buckets later (count + 1)
      (Function.update lists bucket (before ++ [cell] ++ [count])) changed
      (Function.update chains bucket (front ++ [here] ++ [fresh])) := by
  have chained :=
    holds.toChained.redirect inRange isLists redirected ends sameLinks
  refine
    holds.update inRange rfl chained ?_ ?_ isFresh unchanged
  · simp [isFront, isHere]
  · rw [isLists]
    exact
      List.Sublist.append_left
        (List.singleton_sublist.mpr List.mem_cons_self) _

/-- The next cell is taken but not linked. -/
theorem Holds.skip
    (holds : Holds buckets next count lists entry chains)
    (sameLinks : ∀ cell < count, later cell = next cell)
    (unchanged : ∀ cell < count, changed cell = entry cell) :
    Holds buckets later (count + 1) lists changed chains where
  toChained := (holds.toChained.congr sameLinks).skip
  entries := by
    intro bucket inRange
    rw [← holds.entries bucket inRange]
    exact
      List.map_congr_left fun cell member =>
        unchanged cell (holds.inside bucket inRange cell member)

/-- One cell gets another entry. -/
theorem Holds.change
    (holds : Holds buckets next count lists entry chains)
    (inRange : bucket < buckets.length) {before after : List Nat}
    {front back : List Entry} {cell : Nat} {other : Entry}
    (isLists : lists bucket = before ++ cell :: after)
    (isFront : before.map entry = front.map some)
    (isBack : after.map entry = back.map some)
    (sameLinks : ∀ one < count, later one = next one)
    (isOther : changed cell = some other)
    (unchanged : ∀ one < count, one ≠ cell → changed one = entry one) :
    Holds buckets later count lists changed
      (Function.update chains bucket (front ++ other :: back)) where
  toChained := holds.toChained.congr sameLinks
  entries := by
    intro place isPlace
    by_cases isHere : place = bucket
    · subst isHere
      have distinct := holds.distinct place isPlace
      rw [isLists] at distinct
      have sameFront : before.map changed = before.map entry := by
        refine List.map_congr_left fun one member => ?_
        refine unchanged one (holds.inside place isPlace one ?_) ?_
        · rw [isLists]
          exact List.mem_append_left _ member
        · exact
            (List.nodup_append.mp distinct).2.2 one member cell
              List.mem_cons_self
      have sameBack : after.map changed = after.map entry := by
        refine List.map_congr_left fun one member => ?_
        refine unchanged one (holds.inside place isPlace one ?_) ?_
        · rw [isLists]
          exact List.mem_append_right _ (List.mem_cons_of_mem _ member)
        · rintro rfl
          exact
            (List.nodup_cons.mp (List.nodup_append.mp distinct).2.1).1 member
      rw [Function.update_self, isLists, List.map_append, List.map_cons,
        sameFront, sameBack, isFront, isBack, isOther, List.map_append,
        List.map_cons]
    · rw [Function.update_of_ne isHere, ← holds.entries place isPlace]
      refine List.map_congr_left fun one member => ?_
      refine unchanged one (holds.inside place isPlace one member) ?_
      rintro rfl
      refine
        holds.disjoint place isPlace bucket inRange isHere one member ?_
      rw [isLists]
      exact List.mem_append_right _ List.mem_cons_self

end Entries

end HashChains
