import Mathlib.Data.List.Basic
import Mathlib.Tactic.Common

namespace PointerList

/-!
# Singly linked lists in an arena

Cells are addressed by natural numbers and `next` gives the successor of a
cell, `none` standing for the null pointer.  `Linked next head cells` says that
following `next` from `head` visits exactly `cells` and then ends.
-/

/-- The list that starts at `head` consists of exactly these cells. -/
def Linked (next : Nat → Option Nat) : Option Nat → List Nat → Prop
  | head, [] => head = none
  | head, cell :: rest => head = some cell ∧ Linked next (next cell) rest

/--
Collect the cells of a list by following `next`; `none` when the end was not
reached within the given number of cells.
-/
def follow (next : Nat → Option Nat) :
    Nat → Option Nat → Option (List Nat)
  | _, none => some []
  | 0, some _ => none
  | fuel + 1, some cell => (follow next fuel (next cell)).map (cell :: ·)

variable {next later : Nat → Option Nat}

/-- A linked list is collected in full once the bound is its length. -/
theorem Linked.follow_eq
    {head : Option Nat} {cells : List Nat} {fuel : Nat}
    (linked : Linked next head cells)
    (enough : cells.length ≤ fuel) :
    follow next fuel head = some cells := by
  induction cells generalizing head fuel with
  | nil =>
      cases linked
      cases fuel <;> rfl
  | cons cell rest inductionHypothesis =>
      obtain ⟨rfl, restLinked⟩ := linked
      cases fuel with
      | zero => simp at enough
      | succ fuel =>
          have restFollowed :=
            inductionHypothesis restLinked (by simpa using enough)
          simp [follow, restFollowed]

/-- One head starts one list. -/
theorem Linked.unique
    {head : Option Nat} {first second : List Nat}
    (firstLinked : Linked next head first)
    (secondLinked : Linked next head second) :
    first = second := by
  induction first generalizing head second with
  | nil =>
      cases firstLinked
      cases second with
      | nil => rfl
      | cons cell rest => cases secondLinked.1
  | cons cell rest inductionHypothesis =>
      obtain ⟨rfl, restLinked⟩ := firstLinked
      cases second with
      | nil => cases secondLinked
      | cons other otherRest =>
          obtain ⟨same, otherLinked⟩ := secondLinked
          cases same
          rw [inductionHypothesis restLinked otherLinked]

/-- Changes outside of the list leave the list alone. -/
theorem Linked.frame
    {head : Option Nat} {cells : List Nat}
    (linked : Linked next head cells)
    (unchanged : ∀ cell ∈ cells, later cell = next cell) :
    Linked later head cells := by
  induction cells generalizing head with
  | nil => exact linked
  | cons cell rest inductionHypothesis =>
      obtain ⟨rfl, restLinked⟩ := linked
      refine ⟨rfl, ?_⟩
      rw [unchanged cell (by simp)]
      exact
        inductionHypothesis restLinked
          (fun other member => unchanged other (by simp [member]))

/-- The part of a list from one of its cells on is a list. -/
theorem Linked.suffix
    {head : Option Nat} {front back : List Nat} {cell : Nat}
    (linked : Linked next head (front ++ cell :: back)) :
    Linked next (some cell) (cell :: back) := by
  induction front generalizing head with
  | nil => exact ⟨rfl, linked.2⟩
  | cons first rest inductionHypothesis =>
      exact inductionHypothesis linked.2

/--
Redirecting one cell to a fresh last cell: the list keeps everything up to
that cell and loses whatever followed it.
-/
theorem Linked.redirect
    {head : Option Nat} {front back : List Nat} {cell fresh : Nat}
    (linked : Linked next head (front ++ cell :: back))
    (redirected : later cell = some fresh)
    (ends : later fresh = none)
    (unchanged : ∀ other ∈ front, later other = next other) :
    Linked later head (front ++ [cell, fresh]) := by
  induction front generalizing head with
  | nil =>
      obtain ⟨rfl, _⟩ := linked
      exact ⟨rfl, redirected, ends⟩
  | cons first rest inductionHypothesis =>
      obtain ⟨rfl, restLinked⟩ := linked
      refine ⟨rfl, ?_⟩
      rw [unchanged first (by simp)]
      exact
        inductionHypothesis restLinked
          (fun other member => unchanged other (by simp [member]))

/-- A list starts with the cell its head points to. -/
theorem Linked.head_eq
    {head : Option Nat} {cells : List Nat}
    (linked : Linked next head cells) :
    head = cells.head? := by
  cases cells with
  | nil => exact linked
  | cons cell rest => exact linked.1

/-! ## Walking a list -/

/-- What a walk ends with: a cell that hits, or the last cell. -/
inductive Walk where
  | hit (cell : Nat)
  | miss (last : Option Nat)
  deriving DecidableEq, Repr

/--
Walk a list up to the first cell that hits, with the cell before; `none` when
a cell cannot be read or the end was not reached within the bound.
-/
def walk (next : Nat → Option Nat) (hits : Nat → Option Bool) :
    Nat → Option Nat → Option Nat → Option Walk
  | _, pre, none => some (.miss pre)
  | 0, _, some _ => none
  | fuel + 1, _, some cell =>
      (hits cell).bind fun isHit =>
        if isHit then
          some (.hit cell)
        else
          walk next hits fuel (some cell) (next cell)

variable {hits : Nat → Option Bool}

/-- A list with a cell that hits. -/
theorem walk_eq_hit
    {front back : List Nat} {cell : Nat}
    (noHit : ∀ before ∈ front, hits before = some false)
    (isHit : hits cell = some true) {fuel : Nat} {pre head : Option Nat}
    (linked : Linked next head (front ++ cell :: back))
    (enough : front.length < fuel) :
    walk next hits fuel pre head = some (.hit cell) := by
  induction front generalizing fuel pre head with
  | nil =>
      obtain ⟨rfl, _⟩ := linked
      cases fuel with
      | zero => exact absurd enough (Nat.not_lt_zero _)
      | succ fuel => simp [walk, isHit]
  | cons first rest inductionHypothesis =>
      obtain ⟨rfl, restLinked⟩ := linked
      cases fuel with
      | zero => exact absurd enough (Nat.not_lt_zero _)
      | succ fuel =>
          have restWalk :
              walk next hits fuel (some first) (next first) =
                some (.hit cell) :=
            inductionHypothesis
              (fun before member =>
                noHit before (List.mem_cons_of_mem _ member))
              restLinked (Nat.lt_of_succ_lt_succ enough)
          simp [walk, noHit first List.mem_cons_self, restWalk]

/-- A list without such a cell. -/
theorem walk_eq_miss
    {cells : List Nat}
    (noHit : ∀ cell ∈ cells, hits cell = some false)
    {fuel : Nat} {pre head : Option Nat}
    (linked : Linked next head cells) (enough : cells.length ≤ fuel) :
    walk next hits fuel pre head =
      some (.miss (cells.getLast?.or pre)) := by
  induction cells generalizing fuel pre head with
  | nil =>
      cases linked
      cases fuel <;> rfl
  | cons first rest inductionHypothesis =>
      obtain ⟨rfl, restLinked⟩ := linked
      cases fuel with
      | zero => exact absurd enough (Nat.not_succ_le_zero _)
      | succ fuel =>
          have restWalk :
              walk next hits fuel (some first) (next first) =
                some (.miss (rest.getLast?.or (some first))) :=
            inductionHypothesis
              (fun cell member =>
                noHit cell (List.mem_cons_of_mem _ member))
              restLinked (Nat.le_of_succ_le_succ enough)
          have sameLast :
              (first :: rest).getLast?.or pre =
                rest.getLast?.or (some first) := by
            rw [List.getLast?_cons]
            cases rest.getLast? <;> rfl
          rw [sameLast, ← restWalk]
          simp [walk, noHit first List.mem_cons_self]

/-- A walk over consecutive cells. -/
theorem walk_of_chain
    {next : Nat → Option Nat} {hits : Nat → Option Bool} {target : Nat}
    (isHit : hits target = some true) {steps cell : Nat}
    (isTarget : cell + steps = target)
    (links : ∀ k, cell ≤ k → k < target → next k = some (k + 1))
    (noHit : ∀ k, cell ≤ k → k < target → hits k = some false)
    {fuel : Nat} (enough : steps < fuel) (pre : Option Nat) :
    walk next hits fuel pre (some cell) = some (.hit target) := by
  induction steps generalizing cell fuel pre with
  | zero =>
      obtain rfl : cell = target := isTarget
      cases fuel with
      | zero => exact absurd enough (Nat.not_lt_zero _)
      | succ fuel => simp [walk, isHit]
  | succ steps inductionHypothesis =>
      cases fuel with
      | zero => exact absurd enough (Nat.not_lt_zero _)
      | succ fuel =>
          have restWalk :
              walk next hits fuel (some cell) (some (cell + 1)) =
                some (.hit target) :=
            inductionHypothesis (by omega)
              (fun k isFrom isBefore => links k (by omega) isBefore)
              (fun k isFrom isBefore => noHit k (by omega) isBefore)
              (Nat.lt_of_succ_lt_succ enough) (some cell)
          have isNext := links cell (Nat.le_refl _) (by omega)
          have notHere := noHit cell (Nat.le_refl _) (by omega)
          simp [walk, notHere, isNext, restWalk]

/-- Consecutive cells are a list. -/
theorem linked_of_chain
    {next : Nat → Option Nat} {size : Nat}
    (links :
      ∀ k < size, next k = if k + 1 < size then some (k + 1) else none)
    {length cell : Nat} (isSize : cell + length = size) :
    Linked next (if length = 0 then none else some cell)
      (List.range' cell length) := by
  induction length generalizing cell with
  | zero => exact if_pos rfl
  | succ length inductionHypothesis =>
      refine ⟨if_neg (Nat.succ_ne_zero _), ?_⟩
      have isNext :
          next cell = if length = 0 then none else some (cell + 1) := by
        rw [links cell (by omega)]
        split_ifs <;> first | rfl | omega
      rw [isNext]
      exact inductionHypothesis (by omega)

/-- The cell that a walk hits is one that the links lead to. -/
theorem of_walk_eq_hit
    {next : Nat → Option Nat} {hits : Nat → Option Bool}
    {reached : Nat → Prop}
    (closed :
      ∀ one two, reached one → next one = some two → reached two)
    {fuel : Nat} {pre head : Option Nat}
    (starts : ∀ cell, head = some cell → reached cell) {target : Nat}
    (isHit : walk next hits fuel pre head = some (.hit target)) :
    reached target ∧ hits target = some true := by
  induction fuel generalizing pre head with
  | zero => cases head <;> cases isHit
  | succ fuel inductionHypothesis =>
      cases head with
      | none => cases isHit
      | some cell =>
          rw [walk] at isHit
          obtain ⟨isHere, isRead, isRest⟩ := Option.bind_eq_some_iff.mp isHit
          cases isHere with
          | true =>
              cases isRest
              exact ⟨starts _ rfl, isRead⟩
          | false =>
              exact
                inductionHypothesis
                  (fun other isNext =>
                    closed cell other (starts cell rfl) isNext)
                  isRest

/-! ## Links that are fields of the cells in an arena -/

section Arena

variable
  {Cell Link : Type*} {arena : List Cell} {link : Cell → Option Link}
  {change : Cell → Cell}

/-- A fresh cell without a link. -/
theorem link_append
    {fresh : Cell} (unlinked : link fresh = none) (cell : Nat) :
    ((arena ++ [fresh])[cell]?).bind link = (arena[cell]?).bind link := by
  rcases Nat.lt_trichotomy cell arena.length with inside | rfl | outside
  · rw [List.getElem?_append_left inside]
  · simp [unlinked]
  · have beyond : arena.length ≤ cell := Nat.le_of_lt outside
    have beyondFresh : (arena ++ [fresh]).length ≤ cell := by
      rw [List.length_append, List.length_singleton]
      exact outside
    rw [List.getElem?_eq_none beyond, List.getElem?_eq_none beyondFresh]

/-- Setting the link of one cell. -/
theorem link_modify
    {link : Cell → Option Nat} {current target : Nat}
    (inArena : current < arena.length)
    (changed : ∀ cell, link (change cell) = some target) (cell : Nat) :
    ((arena.modify current change)[cell]?).bind link =
      if cell = current then some target else (arena[cell]?).bind link := by
  split_ifs with same
  · subst same
    simp [List.getElem?_eq_getElem inArena, changed]
  · rw [List.getElem?_modify_ne _ _ (Ne.symm same)]

/-- The cells after one was changed and a fresh one was added. -/
theorem getElem?_modify_append
    {current k : Nat} {fresh cell : Cell}
    (present : (arena.modify current change ++ [fresh])[k]? = some cell) :
    (∃ old, arena[k]? = some old ∧ (cell = old ∨ cell = change old)) ∨
      k = arena.length ∧ cell = fresh := by
  rcases Nat.lt_or_ge k arena.length with old | new
  · left
    rw [List.getElem?_append_left (by simpa using old),
      List.getElem?_modify] at present
    obtain ⟨before, isBefore, changed⟩ := Option.map_eq_some_iff.mp present
    refine ⟨before, isBefore, ?_⟩
    subst changed
    by_cases same : current = k <;> simp [same]
  · right
    rw [List.getElem?_append_right (by simpa using new),
      List.length_modify] at present
    obtain ⟨atEnd, isFresh⟩ := List.getElem?_eq_some_iff.mp present
    rw [List.length_singleton] at atEnd
    refine ⟨by omega, ?_⟩
    simpa using isFresh.symm

/-- Changing other fields of a cell. -/
theorem link_modify_of_kept
    (current : Nat) (kept : ∀ cell, link (change cell) = link cell)
    (cell : Nat) :
    ((arena.modify current change)[cell]?).bind link =
      (arena[cell]?).bind link := by
  rw [List.getElem?_modify]
  cases arena[cell]? with
  | none => rfl
  | some present =>
      by_cases same : current = cell <;> simp [same, kept]

/-- Changing a cell but not one of its fields. -/
theorem map_modify_of_kept
    {Field : Type*} {field : Cell → Field} (arena : List Cell)
    (current : Nat) (kept : ∀ cell, field (change cell) = field cell) :
    (arena.modify current change).map field = arena.map field := by
  apply List.ext_getElem?
  intro k
  rw [List.getElem?_map, List.getElem?_map, List.getElem?_modify]
  cases arena[k]? with
  | none => rfl
  | some present =>
      by_cases same : current = k <;> simp [same, kept]

end Arena

/-! ## Lists with a pointer to the last cell -/

/-- A list whose last cell is kept as well, for appending. -/
structure Queue
    (next : Nat → Option Nat) (head tail : Option Nat)
    (cells : List Nat) : Prop where
  linked : Linked next head cells
  last : tail = cells.getLast?

namespace Queue

variable {head tail : Option Nat} {cells : List Nat}

/-- No cells. -/
theorem empty (next : Nat → Option Nat) : Queue next none none [] :=
  ⟨rfl, rfl⟩

/-- A first cell. -/
theorem single {fresh : Nat} (ends : next fresh = none) :
    Queue next (some fresh) (some fresh) [fresh] :=
  ⟨⟨rfl, ends⟩, rfl⟩

/-- Changes outside of the list leave the list alone. -/
theorem frame
    (queue : Queue next head tail cells)
    (unchanged : ∀ cell ∈ cells, later cell = next cell) :
    Queue later head tail cells :=
  ⟨queue.linked.frame unchanged, queue.last⟩

/-- A list without a head has no cells. -/
theorem eq_nil (queue : Queue next none tail cells) : cells = [] := by
  cases cells with
  | nil => rfl
  | cons cell rest => cases queue.linked.1

/-- A list with a head has a last cell. -/
theorem exists_last
    {first : Nat} (queue : Queue next (some first) tail cells) :
    ∃ front last, cells = front ++ [last] ∧ tail = some last := by
  have nonempty : cells ≠ [] := by
    rintro rfl
    cases queue.linked
  refine
    ⟨cells.dropLast, cells.getLast nonempty,
      (List.dropLast_append_getLast nonempty).symm, ?_⟩
  rw [queue.last, List.getLast?_eq_getLast_of_ne_nil nonempty]

/-- Linking a fresh cell behind the last one appends it. -/
theorem append
    {front : List Nat} {last fresh : Nat}
    (queue : Queue next head tail (front ++ [last]))
    (nodup : (front ++ [last]).Nodup)
    (redirected : later last = some fresh)
    (ends : later fresh = none)
    (unchanged :
      ∀ cell ∈ front ++ [last], cell ≠ last → later cell = next cell) :
    Queue later head (some fresh) (front ++ [last] ++ [fresh]) := by
  refine ⟨?_, by simp⟩
  rw [List.append_assoc]
  refine queue.linked.redirect redirected ends ?_
  intro other member
  refine unchanged other (List.mem_append_left _ member) ?_
  rintro rfl
  exact (List.nodup_append.mp nodup).2.2 other member other (by simp) rfl

end Queue

end PointerList
