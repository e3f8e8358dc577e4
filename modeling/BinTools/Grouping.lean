import Mathlib.Data.List.Induction
import Mathlib.Data.List.Nodup
import Mathlib.Tactic.Common

namespace Grouping

/-!
# Grouping a sequence by key

Entries are filed one after the other under their keys: a new key opens a new
group at the end, a known key extends its group.  Listing the groups one after
the other gives back the original sequence exactly when each key's entries
were next to each other in it.
-/

variable {Key Value : Type*} [DecidableEq Key]

/-- The entries of a group list, group by group. -/
def flatten (groups : List (Key × List Value)) : List (Key × Value) :=
  groups.flatMap fun group => group.2.map fun value => (group.1, value)

/-- File one entry. -/
def insert (key : Key) (value : Value) :
    List (Key × List Value) → List (Key × List Value)
  | [] => [(key, [value])]
  | group :: rest =>
      if group.1 = key then
        (group.1, group.2 ++ [value]) :: rest
      else
        group :: insert key value rest

/-- File a sequence of entries, from the first to the last. -/
def ofEntries (entries : List (Key × Value)) : List (Key × List Value) :=
  entries.foldl (fun groups entry => insert entry.1 entry.2 groups) []

/-- Between two equal keys of the sequence there are only that key's. -/
def Contiguous (keys : List Key) : Prop :=
  ∀ k < keys.length, ∀ j < k, ∀ i < j,
    keys[i]? = keys[k]? → keys[j]? = keys[i]?

instance (keys : List Key) : Decidable (Contiguous keys) :=
  inferInstanceAs (Decidable (∀ k < keys.length, ∀ j < k, ∀ i < j, _ → _))

/-- Filing one more entry. -/
theorem ofEntries_concat (entries : List (Key × Value)) (entry : Key × Value) :
    ofEntries (entries ++ [entry]) =
      insert entry.1 entry.2 (ofEntries entries) := by
  simp [ofEntries]

/-- Something is filed. -/
theorem insert_ne_nil
    (key : Key) (value : Value) (groups : List (Key × List Value)) :
    insert key value groups ≠ [] := by
  cases groups with
  | nil => exact List.cons_ne_nil _ _
  | cons group rest =>
      rw [insert]
      split_ifs <;> exact List.cons_ne_nil _ _

/-- Only nothing is filed as nothing. -/
theorem ofEntries_eq_nil {entries : List (Key × Value)} :
    ofEntries entries = [] ↔ entries = [] := by
  cases entries using List.reverseRecOn with
  | nil => exact iff_of_true rfl rfl
  | append_singleton entries entry =>
      rw [ofEntries_concat]
      exact
        iff_of_false (insert_ne_nil _ _ _)
          (List.append_ne_nil_of_right_ne_nil _ (List.cons_ne_nil _ _))

/-- Filing under a known key keeps the keys, a new key comes last. -/
theorem keys_insert
    (key : Key) (value : Value) (groups : List (Key × List Value)) :
    (insert key value groups).map Prod.fst =
      if key ∈ groups.map Prod.fst then
        groups.map Prod.fst
      else
        groups.map Prod.fst ++ [key] := by
  induction groups with
  | nil => rfl
  | cons group rest inductionHypothesis =>
      by_cases same : group.1 = key
      · simp [insert, same]
      · have other : ¬ key = group.1 := fun reversed => same reversed.symm
        simp only [insert, same, ↓reduceIte, List.map_cons,
          inductionHypothesis, List.mem_cons, other, false_or]
        split <;> rfl

/--
Groups that came from filing entries have different keys, and each has an
entry.
-/
structure WellGrouped (groups : List (Key × List Value)) : Prop where
  nodup : (groups.map Prod.fst).Nodup
  nonempty : ∀ group ∈ groups, group.2 ≠ []

/-- Filing keeps the groups well formed. -/
theorem WellGrouped.insert
    {groups : List (Key × List Value)}
    (well : WellGrouped groups) (key : Key) (value : Value) :
    WellGrouped (insert key value groups) where
  nodup := by
    rw [keys_insert]
    split
    · exact well.nodup
    · rename_i absent
      rw [List.nodup_append]
      refine ⟨well.nodup, by simp, ?_⟩
      intro old member new isNew same
      rw [List.mem_singleton.mp isNew] at same
      exact absent (same ▸ member)
  nonempty := by
    have nonempty := well.nonempty
    clear well
    induction groups with
    | nil => simp [Grouping.insert]
    | cons group rest inductionHypothesis =>
        by_cases same : group.1 = key
        · intro other member
          simp only [Grouping.insert, same, ↓reduceIte, List.mem_cons]
            at member
          rcases member with rfl | inRest
          · simp
          · exact nonempty other (by simp [inRest])
        · intro other member
          simp only [Grouping.insert, same, ↓reduceIte, List.mem_cons]
            at member
          rcases member with rfl | inRest
          · exact nonempty other (by simp)
          · exact
              inductionHypothesis
                (fun inner innerMember => nonempty inner (by simp [innerMember]))
                other inRest

/-- The groups of a filed sequence are well formed. -/
theorem wellGrouped_ofEntries (entries : List (Key × Value)) :
    WellGrouped (ofEntries entries) := by
  induction entries using List.reverseRecOn with
  | nil => exact ⟨by simp [ofEntries], by simp [ofEntries]⟩
  | append_singleton entries entry inductionHypothesis =>
      rw [ofEntries_concat]
      exact inductionHypothesis.insert entry.1 entry.2

/-- The groups of a filed sequence carry its keys. -/
theorem mem_keys_ofEntries {entries : List (Key × Value)} {key : Key} :
    key ∈ (ofEntries entries).map Prod.fst ↔ key ∈ entries.map Prod.fst := by
  induction entries using List.reverseRecOn with
  | nil => rfl
  | append_singleton entries entry inductionHypothesis =>
      rw [ofEntries_concat, keys_insert]
      split
      · rename_i present
        rw [inductionHypothesis, List.map_append, List.mem_append]
        refine ⟨Or.inl, ?_⟩
        rintro (old | isNew)
        · exact old
        · rw [List.map_singleton, List.mem_singleton] at isNew
          subst isNew
          exact inductionHypothesis.mp present
      · rw [List.map_append, List.mem_append, List.mem_append,
          inductionHypothesis, List.map_singleton]

omit [DecidableEq Key] in
/-- The last entry of well-formed groups belongs to the last group. -/
theorem WellGrouped.getLast_keys
    {groups : List (Key × List Value)} (well : WellGrouped groups) :
    ((flatten groups).map Prod.fst).getLast? =
      (groups.map Prod.fst).getLast? := by
  rcases List.eq_nil_or_concat' groups with rfl | ⟨initial, last, rfl⟩
  · rfl
  · obtain ⟨values, value, split⟩ :
        ∃ values value, last.2 = values ++ [value] := by
      rcases List.eq_nil_or_concat' last.2 with empty | found
      · exact absurd empty (well.nonempty last (by simp))
      · exact found
    simp [flatten, split]

/--
Filing an entry appends it to the listing exactly when its key is new or the
key of the last group.
-/
theorem WellGrouped.flatten_insert
    {groups : List (Key × List Value)} (well : WellGrouped groups)
    (key : Key) (value : Value)
    (atEnd :
      key ∈ groups.map Prod.fst →
        (groups.map Prod.fst).getLast? = some key) :
    flatten (Grouping.insert key value groups) =
      flatten groups ++ [(key, value)] := by
  induction groups with
  | nil => rfl
  | cons group rest inductionHypothesis =>
      have nodup := well.nodup
      rw [List.map_cons, List.nodup_cons] at nodup
      by_cases same : group.1 = key
      · have alone : rest = [] := by
          have isLast := atEnd (by simp [same])
          rcases List.eq_nil_or_concat' rest with empty | ⟨front, last, rfl⟩
          · exact empty
          · rw [List.map_cons, List.map_append,
              List.map_singleton, ← List.cons_append, List.getLast?_concat]
              at isLast
            have lastKey : last.1 = key := Option.some.inj isLast
            refine absurd ?_ nodup.1
            simp [same, lastKey]
        subst alone
        simp [Grouping.insert, flatten, same]
      · have restWell : WellGrouped rest :=
          ⟨nodup.2, fun other member => well.nonempty other (by simp [member])⟩
        have filed := inductionHypothesis restWell (by
          intro present
          have isLast := atEnd (by simp [List.mem_map.mp present])
          rcases List.eq_nil_or_concat' rest with rfl | ⟨front, last, rfl⟩
          · simp at present
          · rw [List.map_cons, List.map_append, List.map_singleton,
              ← List.cons_append, List.getLast?_concat] at isLast
            simpa using isLast)
        simp only [flatten] at filed ⊢
        simp [Grouping.insert, same, filed]

/-- Filing an entry adds it to the listing, in some place. -/
theorem perm_flatten_insert
    (key : Key) (value : Value) (groups : List (Key × List Value)) :
    (flatten (insert key value groups)).Perm
      (flatten groups ++ [(key, value)]) := by
  induction groups with
  | nil => exact List.Perm.refl _
  | cons group rest inductionHypothesis =>
      by_cases same : group.1 = key
      · simp only [insert, same, ↓reduceIte, flatten, List.flatMap_cons,
          List.map_append, List.map_singleton, List.append_assoc]
        exact List.Perm.append_left _ List.perm_append_comm
      · simp only [insert, same, ↓reduceIte, flatten, List.flatMap_cons,
          List.append_assoc]
        exact List.Perm.append_left _ inductionHypothesis

/-- The listing of the groups has the filed entries, in some order. -/
theorem perm_flatten_ofEntries (entries : List (Key × Value)) :
    (flatten (ofEntries entries)).Perm entries := by
  induction entries using List.reverseRecOn with
  | nil => exact List.Perm.refl _
  | append_singleton entries entry inductionHypothesis =>
      rw [ofEntries_concat]
      exact
        (perm_flatten_insert entry.1 entry.2 _).trans
          (inductionHypothesis.append_right _)

omit [DecidableEq Key] in
/-- Keys stay contiguous when the next one is new or repeats the last one. -/
theorem contiguous_concat {keys : List Key} {key : Key} :
    Contiguous (keys ++ [key]) ↔
      Contiguous keys ∧ (key ∈ keys → keys.getLast? = some key) := by
  have inside :
      ∀ {position}, position < keys.length →
        (keys ++ [key])[position]? = keys[position]? :=
    fun inRange => List.getElem?_append_left inRange
  have newest : (keys ++ [key])[keys.length]? = some key :=
    List.getElem?_concat_length
  constructor
  · intro contiguous
    constructor
    · intro k kInRange j jBefore i iBefore same
      have whole :=
        contiguous k (by simp; omega) j jBefore i iBefore
      rw [inside kInRange, inside (by omega), inside (by omega)] at whole
      exact whole same
    · intro member
      obtain ⟨i, iInRange, isKey⟩ := List.getElem_of_mem member
      rw [List.getLast?_eq_getElem?]
      rcases Nat.lt_or_ge i (keys.length - 1) with before | isLast
      · have whole :=
          contiguous keys.length (by simp) (keys.length - 1) (by omega) i
            before
        rw [newest, inside iInRange,
          inside (show keys.length - 1 < keys.length by omega),
          List.getElem?_eq_getElem iInRange, isKey] at whole
        exact whole rfl
      · have position : i = keys.length - 1 := by omega
        subst position
        rw [List.getElem?_eq_getElem iInRange, isKey]
  · rintro ⟨contiguous, atEnd⟩ k kInRange j jBefore i iBefore same
    rw [List.length_append, List.length_singleton] at kInRange
    rcases Nat.lt_or_ge k keys.length with old | isNew
    · rw [inside old, inside (by omega)] at same
      rw [inside (by omega), inside (by omega)]
      exact contiguous k old j jBefore i iBefore same
    · have position : k = keys.length := by omega
      subst position
      rw [newest, inside (by omega)] at same
      rw [inside jBefore, inside (by omega)]
      have isLast := atEnd (List.mem_of_getElem? same)
      rw [List.getLast?_eq_getElem?] at isLast
      rcases Nat.lt_or_ge j (keys.length - 1) with before | last
      · exact
          contiguous (keys.length - 1) (by omega) j before i iBefore
            (same.trans isLast.symm)
      · have position : j = keys.length - 1 := by omega
        rw [position, isLast, same]

/--
Listing the groups gives back the sequence exactly when the entries of each key
were next to each other in it.
-/
theorem flatten_ofEntries_eq_iff (entries : List (Key × Value)) :
    flatten (ofEntries entries) = entries ↔
      Contiguous (entries.map Prod.fst) := by
  induction entries using List.reverseRecOn with
  | nil => simp [flatten, ofEntries, Contiguous]
  | append_singleton entries entry inductionHypothesis =>
      have well := wellGrouped_ofEntries entries
      rw [ofEntries_concat, List.map_append, List.map_singleton,
        contiguous_concat, ← inductionHypothesis]
      constructor
      · intro listed
        have lastKey :=
          (well.insert entry.1 entry.2).getLast_keys
        rw [listed, keys_insert] at lastKey
        have atEnd :
            entry.1 ∈ (ofEntries entries).map Prod.fst →
              ((ofEntries entries).map Prod.fst).getLast? =
                some entry.1 := by
          intro present
          simpa [present] using lastKey.symm
        rw [well.flatten_insert entry.1 entry.2 atEnd] at listed
        have front := List.append_cancel_right listed
        refine ⟨front, ?_⟩
        intro present
        rw [← mem_keys_ofEntries] at present
        rw [← atEnd present, ← well.getLast_keys, front]
      · rintro ⟨front, atEnd⟩
        rw [well.flatten_insert entry.1 entry.2, front]
        intro present
        rw [← well.getLast_keys, front]
        exact atEnd (mem_keys_ofEntries.mp present)

end Grouping
