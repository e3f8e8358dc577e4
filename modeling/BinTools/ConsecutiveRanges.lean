import Mathlib.Data.List.Basic
import Mathlib.Data.List.Nodup
import Mathlib.Tactic.Common
import Mathlib.Tactic.Ring

namespace ConsecutiveRanges

/-!
# Ranges laid end to end

`starts start sizes` are the positions of ranges of the given sizes when the
first one begins at `start` and every further one begins where its predecessor
ends.
-/

/-- The position of every range. -/
def starts : Nat → List Nat → List Nat
  | _, [] => []
  | start, size :: rest => start :: starts (start + size) rest

/-- There is one position for every range. -/
@[simp]
theorem length_starts (start : Nat) (sizes : List Nat) :
    (starts start sizes).length = sizes.length := by
  induction sizes generalizing start with
  | nil => rfl
  | cons size rest inductionHypothesis =>
      simp [starts, inductionHypothesis]

/-- A range starts where the sizes in front of it add up to. -/
theorem getElem?_starts
    {start : Nat} {sizes : List Nat} {index : Nat}
    (inBounds : index < sizes.length) :
    (starts start sizes)[index]? =
      some (start + (sizes.take index).sum) := by
  induction sizes generalizing start index with
  | nil => simp at inBounds
  | cons size rest inductionHypothesis =>
      cases index with
      | zero => simp [starts]
      | succ index =>
          simp only [List.length_cons, Nat.add_lt_add_iff_right] at inBounds
          simp [starts, inductionHypothesis inBounds, Nat.add_assoc]

/-- Further ranges follow behind the end of the earlier ones. -/
theorem starts_append (start : Nat) (first second : List Nat) :
    starts start (first ++ second) =
      starts start first ++ starts (start + first.sum) second := by
  induction first generalizing start with
  | nil => simp [starts]
  | cons size rest inductionHypothesis =>
      simp [starts, inductionHypothesis, Nat.add_assoc]

/-- Moving the first range moves all of them. -/
theorem starts_add (distance start : Nat) (sizes : List Nat) :
    starts (distance + start) sizes =
      (starts start sizes).map (distance + ·) := by
  induction sizes generalizing start with
  | nil => rfl
  | cons size rest inductionHypothesis =>
      simp [starts, ← inductionHypothesis, Nat.add_assoc]

/-- Reducing the first position first does not show in reduced positions. -/
theorem starts_mod (modulus start : Nat) (sizes : List Nat) :
    (starts (start % modulus) sizes).map (· % modulus) =
      (starts start sizes).map (· % modulus) := by
  induction sizes generalizing start with
  | nil => rfl
  | cons size rest inductionHypothesis =>
      have sameNext :
          (start % modulus + size) % modulus = (start + size) % modulus :=
        Nat.mod_add_mod start modulus size
      have sameRest :
          (starts (start % modulus + size) rest).map (· % modulus) =
            (starts (start + size) rest).map (· % modulus) := by
        rw [← inductionHypothesis (start % modulus + size), sameNext]
        exact inductionHypothesis (start + size)
      rw [starts, starts, List.map_cons, List.map_cons, Nat.mod_mod, sameRest]

/-- No range starts before the first one. -/
theorem le_of_mem_starts
    {start position : Nat} {sizes : List Nat}
    (member : position ∈ starts start sizes) :
    start ≤ position := by
  induction sizes generalizing start with
  | nil => simp [starts] at member
  | cons size rest inductionHypothesis =>
      rcases List.mem_cons.mp member with rfl | later
      · exact Nat.le_refl _
      · exact Nat.le_of_add_right_le (inductionHypothesis later)

/-- No range starts behind the end of the last one. -/
theorem le_sum_of_mem_starts
    {start position : Nat} {sizes : List Nat}
    (member : position ∈ starts start sizes) :
    position ≤ start + sizes.sum := by
  induction sizes generalizing start with
  | nil => simp [starts] at member
  | cons size rest inductionHypothesis =>
      rw [List.sum_cons, ← Nat.add_assoc]
      rcases List.mem_cons.mp member with rfl | later
      · omega
      · exact inductionHypothesis later

/-- What lies between the first start and the last end is in a range. -/
theorem exists_mem_zip_starts
    {start position : Nat} {sizes : List Nat}
    (fromStart : start ≤ position) (toEnd : position < start + sizes.sum) :
    ∃ range ∈ (starts start sizes).zip sizes,
      range.1 ≤ position ∧ position < range.1 + range.2 := by
  induction sizes generalizing start with
  | nil => exact absurd toEnd (Nat.not_lt_of_le fromStart)
  | cons size rest inductionHypothesis =>
      rw [List.sum_cons, ← Nat.add_assoc] at toEnd
      rcases Nat.lt_or_ge position (start + size) with inFirst | behind
      · exact ⟨(start, size), List.mem_cons_self, fromStart, inFirst⟩
      · obtain ⟨range, isRange, inside⟩ := inductionHypothesis behind toEnd
        exact ⟨range, List.mem_cons_of_mem _ isRange, inside⟩

/-- The last range ends where the sizes add up to. -/
theorem getLast?_zip_starts
    (start : Nat) {sizes : List Nat} (notEmpty : sizes ≠ []) :
    (((starts start sizes).zip sizes).getLast?).map
        (fun range => range.1 + range.2) =
      some (start + sizes.sum) := by
  induction sizes generalizing start with
  | nil => exact absurd rfl notEmpty
  | cons size rest inductionHypothesis =>
      rw [starts, List.zip_cons_cons, List.sum_cons, ← Nat.add_assoc]
      cases rest with
      | nil => rfl
      | cons next others =>
          rw [← inductionHypothesis (start + size) (List.cons_ne_nil _ _)]
          rfl

/-- Every range ends before any later one starts. -/
theorem pairwise_starts (start : Nat) (sizes : List Nat) :
    ((starts start sizes).zip sizes).Pairwise fun earlier later =>
      earlier.1 + earlier.2 ≤ later.1 := by
  induction sizes generalizing start with
  | nil => exact List.Pairwise.nil
  | cons size rest inductionHypothesis =>
      refine List.pairwise_cons.mpr ⟨?_, inductionHypothesis _⟩
      intro later member
      exact le_of_mem_starts (List.of_mem_zip member).1

/-- In front of the only occurrence of an item stands what comes before it. -/
theorem takeWhile_ne_eq_take
    {items : List Nat} {index item : Nat}
    (distinct : items.Nodup) (isAt : items[index]? = some item) :
    items.takeWhile (· ≠ item) = items.take index := by
  induction items generalizing index with
  | nil => cases isAt
  | cons head rest inductionHypothesis =>
      cases index with
      | zero =>
          cases isAt
          simp
      | succ index =>
          have inRest : item ∈ rest := List.mem_of_getElem? isAt
          have differs : head ≠ item := by
            rintro rfl
            exact (List.nodup_cons.mp distinct).1 inRest
          rw [List.takeWhile_cons_of_pos (by simpa using differs),
            List.take_succ_cons]
          exact
            congrArg (head :: ·)
              (inductionHypothesis (List.nodup_cons.mp distinct).2 isAt)

/-- An element's share lies between those in front of it and the whole. -/
theorem sum_map_take_add_le
    {α : Type*} {items : List α} {i : Nat} {item : α}
    (isItem : items[i]? = some item) (size : α → Nat) :
    ((items.take i).map size).sum + size item ≤ (items.map size).sum := by
  obtain ⟨inRange, isAt⟩ := List.getElem?_eq_some_iff.mp isItem
  have isSplit : items = items.take i ++ item :: items.drop (i + 1) := by
    rw [← isAt, List.getElem_cons_drop, List.take_append_drop]
  conv_rhs => rw [isSplit]
  rw [List.map_append, List.sum_append, List.map_cons, List.sum_cons]
  omega

end ConsecutiveRanges
