import BinTools.BipatchRead

namespace BinTools.Bipatch

/-!
# Applying a patch

The loop follows the edits as long as the next one is ahead.  What it writes is
computed edit by edit and compared with the edited input; the file keeps as much
of it as the sizes of the edits say.
-/

/-! ## Edits that are left -/

/-- The edits from an address on, where no byte in front of it is deleted. -/
structure Left (length from_ : Nat) (edits : List Edit) : Prop where
  domain : Edits length edits
  inside : from_ ≤ length
  ahead : ∀ edit ∈ edits, 0 < edit.count → from_ ≤ edit.addr

@[simp] theorem inserted_cons
    (edit : Edit)
    (later : List Edit) :
    inserted (edit :: later) = edit.bytes.length + inserted later := by
  simp [inserted]

@[simp] theorem removed_cons
    (edit : Edit)
    (later : List Edit) :
    removed (edit :: later) = edit.count + removed later := by
  simp [removed]

/-- The edits behind the first one. -/
theorem Edits.tail
    {length : Nat}
    {edit : Edit}
    {later : List Edit}
    (domain : Edits length (edit :: later)) :
    Edits length later where
  sorted := domain.sorted.of_cons
  inside := fun other otherIn =>
    domain.inside other (List.mem_cons_of_mem _ otherIn)
  apart := domain.apart.of_cons

namespace Left

variable
  {length from_ : Nat}
  {edit : Edit}
  {later : List Edit}

theorem next
    (left : Left length from_ (edit :: later)) :
    Left length (max from_ edit.stop) later where
  domain := left.domain.tail
  inside := Nat.max_le.2 ⟨left.inside, left.domain.inside edit (by simp)⟩
  ahead := by
    intro other otherIn deletes
    have isAhead := left.ahead other (List.mem_cons_of_mem _ otherIn) deletes
    have isSorted := (List.pairwise_cons.1 left.domain.sorted).1 other otherIn
    have isApart :=
      (List.pairwise_cons.1 left.domain.apart).1 other otherIn other.addr
    refine Nat.max_le.2 ⟨isAhead, ?_⟩
    by_contra inDeletion
    exact
      isApart
        ⟨⟨isSorted, Nat.lt_of_not_le inDeletion⟩, Nat.le_refl _,
          Nat.lt_add_of_pos_right deletes⟩

/-- The edits may be looked at from a later address. -/
theorem advance
    {edits : List Edit}
    (left : Left length from_ edits)
    {address : Nat}
    (inside : address ≤ length)
    (ahead : ∀ edit ∈ edits, address ≤ edit.addr) :
    Left length address edits :=
  ⟨left.domain, inside, fun edit editIn _ => ahead edit editIn⟩

/-- Only bytes behind the address are deleted. -/
theorem removed_le
    {edits : List Edit}
    (left : Left length from_ edits) :
    from_ + removed edits ≤ length := by
  induction edits generalizing from_ with
  | nil => exact left.inside
  | cons edit later inductionHypothesis =>
      have rest := inductionHypothesis left.next
      have ahead := left.ahead edit (by simp)
      rw [removed_cons]
      simp only [Edit.stop] at rest
      omega

/-- The edited input has the length that the edits say. -/
theorem length_edited
    {input : List UInt8}
    {edits : List Edit}
    (left : Left input.length from_ edits) :
    from_ + (edited input from_ edits).length + removed edits =
      input.length + inserted edits := by
  induction edits generalizing from_ with
  | nil =>
      have := left.inside
      simp only [edited, removed, inserted, List.length_drop, List.map_nil,
        List.sum_nil]
      omega
  | cons edit later inductionHypothesis =>
      have rest := inductionHypothesis left.next
      have ahead := left.ahead edit (by simp)
      have inside := left.domain.inside edit (by simp)
      simp only [Edit.stop] at rest inside
      simp only [edited, removed_cons, inserted_cons, List.length_append,
        List.length_drop, List.length_take, Edit.stop]
      omega

/-- A byte of the edited input is inserted, or it is one that is kept. -/
theorem mem_edited
    {input : List UInt8}
    {edits : List Edit}
    (left : Left input.length from_ edits)
    {x : UInt8}
    (isByte : x ∈ edited input from_ edits) :
    (∃ edit ∈ edits, x ∈ edit.bytes) ∨
      ∃ i,
        from_ ≤ i ∧ input[i]? = some x ∧
          ∀ edit ∈ edits, ¬ edit.Deletes i := by
  induction edits generalizing from_ with
  | nil =>
      obtain ⟨i, isX⟩ := List.mem_iff_getElem?.1 isByte
      rw [edited, List.getElem?_drop] at isX
      exact .inr ⟨_, Nat.le_add_right _ _, isX, by simp⟩
  | cons edit later inductionHypothesis =>
      simp only [edited, List.mem_append] at isByte
      obtain (isCopied | isNew) | isLater := isByte
      · obtain ⟨i, isX⟩ := List.mem_iff_getElem?.1 isCopied
        rw [List.getElem?_drop, List.getElem?_take] at isX
        split at isX
        · rename_i inFront
          refine .inr ⟨_, Nat.le_add_right _ _, isX, ?_⟩
          intro other otherIn deletes
          have isSorted : edit.addr ≤ other.addr := by
            cases List.mem_cons.1 otherIn with
            | inl same => rw [same]
            | inr otherIn =>
                exact
                  (List.pairwise_cons.1 left.domain.sorted).1 other otherIn
          have := deletes.1
          omega
        · cases isX
      · exact .inl ⟨edit, by simp, isNew⟩
      · cases inductionHypothesis left.next isLater with
        | inl isNew =>
            obtain ⟨other, otherIn, isNew⟩ := isNew
            exact .inl ⟨other, List.mem_cons_of_mem _ otherIn, isNew⟩
        | inr isKept =>
            obtain ⟨i, above, isX, kept⟩ := isKept
            obtain ⟨above, behind⟩ := Nat.max_le.1 above
            refine .inr ⟨i, above, isX, ?_⟩
            intro other otherIn deletes
            cases List.mem_cons.1 otherIn with
            | inl same =>
                have := deletes.2
                rw [same] at this
                omega
            | inr otherIn => exact kept other otherIn deletes

end Left

/-- All inserted bytes are in the edited input. -/
theorem bytes_subset_edited
    (input : List UInt8)
    (from_ : Nat)
    {edits : List Edit}
    {edit : Edit}
    (editIn : edit ∈ edits) :
    edit.bytes ⊆ edited input from_ edits := by
  induction edits generalizing from_ with
  | nil => cases editIn
  | cons first later inductionHypothesis =>
      intro x isByte
      simp only [edited, List.mem_append]
      cases List.mem_cons.1 editIn with
      | inl same =>
          rw [same] at isByte
          exact .inl (.inr isByte)
      | inr inLater =>
          exact .inr (inductionHypothesis _ inLater isByte)

/-! ## What is written -/

/-- The loop follows the edit: it is ahead, in the input and below the sign. -/
def Edit.Ahead (length from_ : Nat) (edit : Edit) : Prop :=
  from_ ≤ edit.addr ∧ edit.addr < length ∧ edit.addr < 2 ^ 31

instance (length from_ : Nat) (edit : Edit) :
    Decidable (edit.Ahead length from_) :=
  inferInstanceAs (Decidable (_ ∧ _ ∧ _))

/-- What the loop writes from an address and an entry on, `none` for a fault. -/
def written (input : List UInt8) : Nat → Nat → List Edit → Option (List UInt8)
  | from_, pf, [] =>
      if from_ = input.length then
        some []
      else if from_ ≠ 0 ∧ pf < entryMax then
        some (input.drop from_)
      else
        none
  | from_, pf, edit :: later =>
      if edit.Ahead input.length from_ then
        (written input edit.stop (pf + 1) later).map fun rest =>
          (input.take edit.addr).drop from_ ++ edit.bytes ++ rest
      else
        some (input.drop from_)

theorem followed_cons
    {length from_ pf : Nat}
    {edit : Edit}
    {later : List Edit} :
    Followed length from_ pf (edit :: later) ↔
      if edit.Ahead length from_ then
        Followed length edit.stop (pf + 1) later
      else
        TailOnly length (edit :: later) :=
  Iff.rfl

theorem Left.next_of_ahead
    {length from_ : Nat}
    {edit : Edit}
    {later : List Edit}
    (left : Left length from_ (edit :: later))
    (ahead : edit.Ahead length from_) :
    Left length edit.stop later := by
  have isMax : max from_ edit.stop = edit.stop :=
    Nat.max_eq_right (ahead.1.trans (Nat.le_add_right _ _))
  rw [← isMax]
  exact left.next

theorem edited_of_ahead
    {input : List UInt8}
    {from_ : Nat}
    {edit : Edit}
    {later : List Edit}
    (ahead : edit.Ahead input.length from_) :
    edited input from_ (edit :: later) =
      (input.take edit.addr).drop from_ ++ edit.bytes ++
        edited input edit.stop later := by
  have isMax : max from_ edit.stop = edit.stop :=
    Nat.max_eq_right (ahead.1.trans (Nat.le_add_right _ _))
  rw [edited, isMax]

/-- When the loop faults, bytes are missing. -/
theorem missing_of_written_eq_none
    {input : List UInt8}
    {from_ pf : Nat}
    {edits : List Edit}
    (left : Left input.length from_ edits)
    (isFault : written input from_ pf edits = none) :
    from_ + removed edits < input.length + inserted edits := by
  induction edits generalizing from_ pf with
  | nil =>
      have inside := left.inside
      rw [written] at isFault
      split at isFault
      · cases isFault
      · simp only [removed, inserted, List.map_nil, List.sum_nil]
        omega
  | cons edit later inductionHypothesis =>
      rw [written] at isFault
      split at isFault
      · rename_i ahead
        rw [Option.map_eq_none_iff] at isFault
        have rest :=
          inductionHypothesis (left.next_of_ahead ahead) isFault
        have := ahead.1
        rw [removed_cons, inserted_cons]
        simp only [Edit.stop] at rest
        omega
      · cases isFault

/-- What is left of the input, up to an address and from it on. -/
theorem drop_eq_append
    (input : List UInt8)
    (from_ address : Nat) :
    input.drop from_ =
      (input.take address).drop from_ ++
        input.drop (max from_ address) := by
  by_cases inFront : from_ ≤ address
  · by_cases inside : from_ ≤ input.length
    · rw [Nat.max_eq_right inFront]
      conv_lhs => rw [← List.take_append_drop address input]
      apply List.drop_append_of_le_length
      rw [List.length_take]
      omega
    · have behind : input.length ≤ from_ := by omega
      rw [List.drop_eq_nil_of_le behind,
        List.drop_eq_nil_of_le (by rw [List.length_take]; omega),
        List.drop_eq_nil_of_le (by omega), List.append_nil]
  · have nothing : (input.take address).drop from_ = [] := by
      apply List.drop_eq_nil_of_le
      rw [List.length_take]
      omega
    rw [nothing, List.nil_append, Nat.max_eq_left (by omega)]

/-- An end of the input that is deleted needs no edits. -/
theorem edited_of_tailOnly
    {input : List UInt8}
    {from_ : Nat}
    {edits : List Edit}
    (left : Left input.length from_ edits)
    (tailOnly : TailOnly input.length edits) :
    edited input from_ edits <+: input.drop from_ := by
  induction edits generalizing from_ with
  | nil => exact List.prefix_refl _
  | cons edit later inductionHypothesis =>
      obtain ⟨nothing, tail⟩ := tailOnly
      rw [inserted_cons] at nothing
      have noBytes : edit.bytes = [] :=
        List.length_eq_zero_iff.1 (by omega)
      rw [edited, noBytes, List.append_nil, drop_eq_append input from_ edit.addr]
      by_cases deletes : 0 < edit.count
      · have isTail := tail edit (by simp) deletes
        have rest := left.next.length_edited
        have inside := left.domain.inside edit (by simp)
        rw [removed_cons] at isTail
        have isEmpty : edited input (max from_ edit.stop) later = [] := by
          apply List.length_eq_zero_iff.1
          simp only [Edit.stop] at rest inside ⊢
          omega
        rw [isEmpty, List.append_nil]
        exact List.prefix_append _ _
      · have isAddr : edit.stop = edit.addr := by
          rw [Edit.stop]
          omega
        rw [isAddr]
        apply (List.prefix_append_right_inj _).2
        have leftLater := left.next
        rw [isAddr] at leftLater
        apply inductionHypothesis leftLater
        refine ⟨by omega, ?_⟩
        intro other otherIn otherDeletes
        have := tail other (List.mem_cons_of_mem _ otherIn) otherDeletes
        rw [removed_cons] at this
        omega

/-- Followed edits are written, with more of the input behind them. -/
theorem exists_written_of_followed
    {input : List UInt8}
    {from_ pf : Nat}
    {edits : List Edit}
    (left : Left input.length from_ edits)
    (followed : Followed input.length from_ pf edits) :
    ∃ out,
      written input from_ pf edits = some out ∧
        edited input from_ edits <+: out := by
  induction edits generalizing from_ pf with
  | nil =>
      rw [written, edited]
      by_cases atEnd : from_ = input.length
      · rw [if_pos atEnd, atEnd, List.drop_length]
        exact ⟨[], rfl, List.prefix_refl _⟩
      · rw [if_neg atEnd, if_pos (followed.resolve_left atEnd)]
        exact ⟨_, rfl, List.prefix_refl _⟩
  | cons edit later inductionHypothesis =>
      rw [followed_cons] at followed
      rw [written]
      split at followed
      · rename_i ahead
        obtain ⟨rest, isRest, isPrefix⟩ :=
          inductionHypothesis (left.next_of_ahead ahead) followed
        rw [if_pos ahead, isRest, edited_of_ahead ahead]
        exact ⟨_, rfl, (List.prefix_append_right_inj _).2 isPrefix⟩
      · rw [if_neg ‹_›]
        exact ⟨_, rfl, edited_of_tailOnly left followed⟩

/-! ## Bytes that tell the edits apart -/

/-- One byte of the input is a 3, the others are 1. -/
def marked (length mark : Nat) : List UInt8 :=
  (List.range length).map fun i => if i = mark then 3 else 1

theorem getElem?_marked
    {length mark i : Nat}
    {x : UInt8}
    (isX : (marked length mark)[i]? = some x) :
    i < length ∧ x = if i = mark then 3 else 1 := by
  have below : i < length := by
    have := (List.getElem?_eq_some_iff.1 isX).1
    simpa [marked] using this
  rw [marked, List.getElem?_map, List.getElem?_range below] at isX
  exact ⟨below, (Option.some.inj isX).symm⟩

@[simp] theorem length_marked
    (length mark : Nat) :
    (marked length mark).length = length := by
  simp [marked]

/-- Every inserted byte is a 2. -/
def Twos (edits : List Edit) : Prop :=
  ∀ edit ∈ edits, ∀ x ∈ edit.bytes, x = 2

/-- A rest that is copied instead of edited is not the edited one. -/
theorem exists_mark_of_not_tailOnly
    {length from_ : Nat}
    {edits : List Edit}
    (left : Left length from_ edits)
    (twos : Twos edits)
    (notTail : ¬ TailOnly length edits) :
    ∃ mark,
      ∀ fill,
        ((marked length mark).drop from_ ++ List.replicate fill 0).take
            (edited (marked length mark) from_ edits).length ≠
          edited (marked length mark) from_ edits := by
  by_cases nothing : inserted edits = 0
  · -- A deletion in front of bytes that are kept: its first byte is marked.
    have hasGap :
        ∃ edit ∈ edits,
          0 < edit.count ∧ edit.addr + removed edits < length := by
      by_contra noGap
      apply notTail
      refine ⟨nothing, ?_⟩
      intro edit editIn deletes
      by_contra before
      exact noGap ⟨edit, editIn, deletes, Nat.lt_of_not_le before⟩
    obtain ⟨edit, editIn, deletes, before⟩ := hasGap
    refine ⟨edit.addr, ?_⟩
    intro fill same
    have leftMarked :
        Left (marked length edit.addr).length from_ edits := by
      rw [length_marked]
      exact left
    have ahead := left.ahead edit editIn deletes
    have total := leftMarked.length_edited
    rw [length_marked] at total
    have isMark :
        (edited (marked length edit.addr) from_ edits)[edit.addr - from_]? =
          some 3 := by
      rw [← same, List.getElem?_take_of_lt (by omega),
        List.getElem?_append_left
          (by rw [List.length_drop, length_marked]; omega),
        List.getElem?_drop, Nat.add_sub_cancel' ahead, marked,
        List.getElem?_map, List.getElem?_range (by omega)]
      simp
    cases leftMarked.mem_edited (List.mem_of_getElem? isMark) with
    | inl isNew =>
        obtain ⟨other, otherIn, isByte⟩ := isNew
        exact absurd (twos other otherIn 3 isByte) (by decide)
    | inr isKept =>
        obtain ⟨i, -, isX, kept⟩ := isKept
        obtain ⟨-, isThree⟩ := getElem?_marked isX
        split at isThree
        · apply kept edit editIn
          rw [Edit.Deletes, Edit.stop]
          omega
        · cases isThree
  · -- An inserted byte is in the edited input only.
    have hasByte : ∃ edit ∈ edits, edit.bytes ≠ [] := by
      by_contra noByte
      apply nothing
      apply List.sum_eq_zero_iff_forall_eq_nat.2
      intro count isCount
      obtain ⟨edit, editIn, rfl⟩ := List.mem_map.1 isCount
      by_contra isByte
      exact noByte ⟨edit, editIn, fun isNil => isByte (by simp [isNil])⟩
    obtain ⟨edit, editIn, notNil⟩ := hasByte
    obtain ⟨x, isByte⟩ := List.exists_mem_of_ne_nil _ notNil
    refine ⟨length, ?_⟩
    intro fill same
    have isTwo := twos edit editIn x isByte
    have inEdited :=
      bytes_subset_edited (marked length length) from_ editIn isByte
    rw [← same, isTwo] at inEdited
    cases List.mem_append.1 (List.mem_of_mem_take inEdited) with
    | inl isCopied =>
        obtain ⟨i, isX⟩ := List.mem_iff_getElem?.1 (List.mem_of_mem_drop isCopied)
        have := (getElem?_marked isX).2
        split at this <;> cases this
    | inr isZero => exact absurd (List.eq_of_mem_replicate isZero) (by decide)

/-- Where edits are not followed, marked bytes show it. -/
theorem exists_mark_of_not_followed
    {length from_ pf : Nat}
    {edits : List Edit}
    (left : Left length from_ edits)
    (twos : Twos edits)
    (notFollowed : ¬ Followed length from_ pf edits) :
    ∃ mark,
      ∀ out fill,
        written (marked length mark) from_ pf edits = some out →
          (out ++ List.replicate fill 0).take
              (edited (marked length mark) from_ edits).length ≠
            edited (marked length mark) from_ edits := by
  induction edits generalizing from_ pf with
  | nil =>
      refine ⟨length, ?_⟩
      intro out fill isOut
      rw [written, length_marked] at isOut
      split at isOut
      · exact absurd (.inl ‹_›) notFollowed
      · split at isOut
        · exact absurd (.inr ‹_›) notFollowed
        · cases isOut
  | cons edit later inductionHypothesis =>
      rw [followed_cons] at notFollowed
      split at notFollowed
      · rename_i ahead
        have laterTwos : Twos later :=
          fun other otherIn => twos other (List.mem_cons_of_mem _ otherIn)
        obtain ⟨mark, differs⟩ :=
          inductionHypothesis (left.next_of_ahead ahead) laterTwos notFollowed
        refine ⟨mark, ?_⟩
        intro out fill isOut same
        have aheadMarked : edit.Ahead (marked length mark).length from_ := by
          rw [length_marked]
          exact ahead
        rw [written, if_pos aheadMarked, Option.map_eq_some_iff] at isOut
        obtain ⟨rest, isRest, rfl⟩ := isOut
        apply differs rest fill isRest
        rw [edited_of_ahead aheadMarked, List.length_append,
          List.append_assoc _ rest, List.take_length_add_append] at same
        exact List.append_cancel_left same
      · rename_i notAhead
        obtain ⟨mark, differs⟩ :=
          exists_mark_of_not_tailOnly left twos notFollowed
        refine ⟨mark, ?_⟩
        intro out fill isOut
        rw [written, length_marked, if_neg notAhead] at isOut
        rw [← Option.some.inj isOut]
        exact differs fill

end BinTools.Bipatch
