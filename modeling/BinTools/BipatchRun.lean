import BinTools.BipatchApply

namespace BinTools.Bipatch

/-!
# Running a patch

The loop copies up to the address of its entry and edits there.  From the place
in the input and the entry, what it writes is therefore known, and the sizes of
the two mappings decide whether it gets that far.
-/

/-! ## Steps of the loop -/

section Steps

variable
  {input : Mapped}
  {info : PatchInfo}
  {mapSize : Nat}

/-- The loop ends at the end of the input or of the output. -/
theorem apply_end
    {st : ApplyState}
    (atEnd : st.p = input.bytes.length ∨ st.out.length = mapSize) :
    apply input info mapSize 1 st = some st := by
  rw [apply, if_pos atEnd]

/-- More fuel does not change a result. -/
theorem apply_add
    {fuel : Nat}
    {st last : ApplyState}
    (isLast : apply input info mapSize fuel st = some last)
    (more : Nat) :
    apply input info mapSize (fuel + more) st = some last := by
  induction fuel generalizing st with
  | zero => cases isLast
  | succ fuel inductionHypothesis =>
      rw [Nat.add_right_comm, apply]
      rw [apply] at isLast
      split at isLast
      · rw [if_pos ‹_›]
        exact isLast
      · rw [if_neg ‹_›]
        obtain ⟨entry, isEntry, isLater⟩ := Option.bind_eq_some_iff.1 isLast
        refine Option.bind_eq_some_iff.2 ⟨entry, isEntry, ?_⟩
        split at isLater
        · rw [if_pos ‹_›]
          obtain ⟨next, isNext, isRest⟩ := Option.bind_eq_some_iff.1 isLater
          exact
            Option.bind_eq_some_iff.2
              ⟨next, isNext, inductionHypothesis isRest⟩
        · rw [if_neg ‹_›]
          obtain ⟨x, isX, isRest⟩ := Option.bind_eq_some_iff.1 isLater
          exact
            Option.bind_eq_some_iff.2 ⟨x, isX, inductionHypothesis isRest⟩

/-- Two runs end in one state. -/
theorem apply_unique
    {one two : Nat}
    {st first second : ApplyState}
    (isFirst : apply input info mapSize one st = some first)
    (isSecond : apply input info mapSize two st = some second) :
    first = second := by
  have more := apply_add isFirst two
  rw [Nat.add_comm, apply_add isSecond one] at more
  exact (Option.some.inj more).symm

/-- Bytes are copied while no entry is for them. -/
theorem apply_copy
    {pf : Nat}
    {entry : PatchFormat}
    (isEntry : info.entryAt pf = some entry)
    {from_ address : Nat}
    (ahead : from_ ≤ address)
    (inside : address ≤ input.bytes.length)
    (readable : address ≤ input.mapSize)
    (noEdit :
      ∀ p, from_ ≤ p → p < address → BitVec.ofNat 64 p ≠ entry.addr)
    {out : List UInt8}
    (room : out.length + (address - from_) ≤ mapSize)
    (fuel : Nat) :
    apply input info mapSize (fuel + (address - from_)) ⟨from_, pf, out⟩ =
      apply input info mapSize fuel
        ⟨address, pf, out ++ (input.bytes.take address).drop from_⟩ := by
  generalize isCount : address - from_ = count at room ⊢
  induction count generalizing from_ out with
  | zero =>
      have same : from_ = address := by omega
      have nothing : (input.bytes.take address).drop from_ = [] := by
        apply List.drop_eq_nil_of_le
        rw [List.length_take]
        omega
      rw [nothing, List.append_nil, same]
      rfl
  | succ count inductionHypothesis =>
      have notEnd :
          ¬ (from_ = input.bytes.length ∨ out.length = mapSize) := by
        omega
      have isByte : input.readAt from_ = some (input.bytes.getD from_ 0) := by
        rw [Mapped.readAt, if_pos (by omega)]
      have inBytes : from_ < (input.bytes.take address).length := by
        rw [List.length_take]
        omega
      have isDrop :
          (input.bytes.take address).drop from_ =
            input.bytes.getD from_ 0 ::
              (input.bytes.take address).drop (from_ + 1) := by
        rw [List.drop_eq_getElem_cons inBytes, List.getElem_take,
          List.getD_eq_getElem?_getD, List.getElem?_eq_getElem (by omega),
          Option.getD_some]
      have aheadNext : from_ + 1 ≤ address := by omega
      rw [← Nat.add_assoc, apply, if_neg notEnd, isEntry,
        Option.bind_eq_bind, Option.bind_some,
        if_neg (noEdit from_ (Nat.le_refl _) (by omega)), isByte,
        Option.bind_eq_bind, Option.bind_some,
        inductionHypothesis aheadNext
          (fun p above below => noEdit p (by omega) below) (by omega)
          (by simp only [List.length_append, List.length_singleton]; omega),
        isDrop, List.append_assoc, List.singleton_append]

end Steps

/-- The entry of an edit is for its address, unless that has a sign. -/
theorem eq_entry_addr_iff
    (edit : Edit)
    {p : Nat}
    (inRange : p < 2 ^ 32) :
    BitVec.ofNat 64 p = edit.entry.addr ↔
      p = edit.addr ∧ edit.addr < 2 ^ 31 := by
  have word :
      ∀ addr : U32,
        BitVec.ofNat 64 p = addr.signExtend 64 ↔
          p = addr.toNat ∧ addr.toNat < 2 ^ 31 := by
    intro addr
    have below := addr.isLt
    rw [← BitVec.toNat_inj, BitVec.toNat_signExtend, BitVec.toNat_setWidth,
      BitVec.toNat_ofNat, BitVec.msb_eq_decide]
    simp only [decide_eq_true_eq]
    split <;> omega
  cases edit with
  | insert addr bytes => exact word addr
  | delete addr count => exact word addr

/-- An entry edits what its edit says. -/
theorem editing_entry
    (edit : Edit)
    (short : edit.bytes.length < 2 ^ 16)
    {mapSize : Nat}
    {st : ApplyState}
    (room : st.out.length + edit.bytes.length ≤ mapSize) :
    editing edit.entry mapSize st =
      some
        { st with
          p := st.p + edit.count
          out := st.out ++ edit.bytes } := by
  cases edit with
  | insert addr bytes =>
      have isLength :
          (BitVec.ofNat 16 bytes.length).toNat = bytes.length := by
        rw [BitVec.toNat_ofNat]
        exact Nat.mod_eq_of_lt short
      simp only [editing, Edit.entry, if_pos, isLength, List.take_length]
      exact if_pos room
  | delete addr count =>
      have isCount : (BitVec.ofNat 16 count.toNat).toNat = count.toNat := by
        have := count.toNat_lt
        rw [BitVec.toNat_ofNat]
        exact Nat.mod_eq_of_lt (by omega)
      simp only [editing, Edit.entry, isCount, Edit.bytes,
        List.append_nil, Edit.count]
      rfl

/-! ## From an entry to the end -/

/-- The entries of the edits are in the page from an index on. -/
structure Placed (info : PatchInfo) (pf : Nat) (edits : List Edit) : Prop where
  entries : info.entries.drop pf = edits.map Edit.entry
  room : info.entries.length ≤ entryMax
  mapped : info.mapped = decide (info.entries ≠ [])

namespace Placed

variable
  {info : PatchInfo}
  {pf : Nat}

theorem head
    {edit : Edit}
    {later : List Edit}
    (placed : Placed info pf (edit :: later)) :
    pf < info.entries.length ∧ info.mapped = true ∧
      info.entryAt pf = some edit.entry ∧ Placed info (pf + 1) later := by
  have isDrop := placed.entries
  rw [List.map_cons] at isDrop
  have isEntry : info.entries[pf]? = some edit.entry := by
    have := congrArg (·[0]?) isDrop
    simpa using this
  have below := (List.getElem?_eq_some_iff.1 isEntry).1
  have mapped : info.mapped = true := by
    rw [placed.mapped, decide_eq_true_eq]
    intro isNil
    rw [isNil] at below
    exact absurd below (Nat.not_lt_zero _)
  refine ⟨below, mapped, ?_, ?_, placed.room, placed.mapped⟩
  · rw [PatchInfo.entryAt, if_pos ⟨mapped, below.trans_le placed.room⟩,
      List.getD_eq_getElem?_getD, isEntry, Option.getD_some]
  · rw [← List.drop_drop, isDrop, List.drop_one, List.tail_cons]

theorem last
    (placed : Placed info pf [])
    (mapped : info.mapped = true)
    (inPage : pf < entryMax) :
    info.entryAt pf = some .zero := by
  have behind : info.entries.length ≤ pf :=
    List.drop_eq_nil_iff.1 placed.entries
  rw [PatchInfo.entryAt, if_pos ⟨mapped, inPage⟩,
    List.getD_eq_getElem?_getD, List.getElem?_eq_none behind,
    Option.getD_none]

/-- At the input's begin the loop runs through the zero entries. -/
theorem fault_of_begin
    {input : Mapped}
    {mapSize : Nat}
    {out : List UInt8}
    (placed : Placed info pf [])
    (notEnd : input.bytes.length ≠ 0)
    (notFull : out.length ≠ mapSize)
    (fuel : Nat) :
    apply input info mapSize fuel ⟨0, pf, out⟩ = none := by
  induction fuel generalizing pf with
  | zero => rfl
  | succ fuel inductionHypothesis =>
      have goesOn :
          ¬ (0 = input.bytes.length ∨ out.length = mapSize) := by
        omega
      rw [apply, if_neg goesOn]
      by_cases mapped : info.mapped = true ∧ pf < entryMax
      · have isMatch : BitVec.ofNat 64 0 = PatchFormat.zero.addr := rfl
        rw [placed.last mapped.1 mapped.2, Option.bind_eq_bind,
          Option.bind_some, if_pos isMatch]
        have isNext :
            editing PatchFormat.zero mapSize ⟨0, pf, out⟩ =
              some ⟨0, pf, out⟩ :=
          rfl
        rw [isNext, Option.bind_eq_bind, Option.bind_some]
        apply inductionHypothesis
        refine ⟨?_, placed.room, placed.mapped⟩
        rw [← List.drop_drop, placed.entries]
        rfl
      · rw [PatchInfo.entryAt, if_neg mapped]
        rfl

end Placed

/--
A state of the loop: the place in the input, the entry, and the bytes in front.
The bytes that are missing fit into the output's mapping.
-/
structure Situated
    (input : Mapped) (info : PatchInfo) (mapSize size : Nat)
    (st : ApplyState) (edits : List Edit) : Prop where
  left : Left input.bytes.length st.p edits
  placed : Placed info st.pf edits
  started : st.p ≠ 0 → info.mapped = true
  readable : input.bytes.length ≤ input.mapSize
  inRange : input.bytes.length < 2 ^ 32
  short : ∀ edit ∈ edits, edit.bytes.length < 2 ^ 16
  total :
    st.out.length + input.bytes.length + inserted edits =
      size + st.p + removed edits
  fits : size ≤ mapSize

namespace Situated

variable
  {input : Mapped}
  {info : PatchInfo}
  {mapSize size : Nat}
  {st : ApplyState}
  {edit : Edit}
  {edits later : List Edit}

/-- The state in front of an edit that is ahead. -/
theorem copied
    (situated : Situated input info mapSize size st (edit :: later))
    (ahead : edit.Ahead input.bytes.length st.p) :
    let next : ApplyState :=
      ⟨edit.addr, st.pf,
        st.out ++ (input.bytes.take edit.addr).drop st.p⟩
    Situated input info mapSize size next (edit :: later) ∧
      ∀ fuel,
        apply input info mapSize (fuel + (edit.addr - st.p)) st =
          apply input info mapSize fuel next := by
  intro next
  have readable := situated.readable
  have inRange := situated.inRange
  have total := situated.total
  have fits := situated.fits
  obtain ⟨below, mapped, isEntry, -⟩ := situated.placed.head
  have leftNext :
      Left input.bytes.length edit.addr (edit :: later) := by
    apply situated.left.advance (Nat.le_of_lt ahead.2.1)
    intro other otherIn
    cases List.mem_cons.1 otherIn with
    | inl same => rw [same]
    | inr otherIn =>
        exact
          (List.pairwise_cons.1 situated.left.domain.sorted).1 other otherIn
  have bound := leftNext.removed_le
  have isLength :
      ((input.bytes.take edit.addr).drop st.p).length =
        edit.addr - st.p := by
    rw [List.length_drop, List.length_take]
    have := ahead.2.1
    omega
  have isAhead := ahead.1
  constructor
  · exact
      { left := leftNext
        placed := situated.placed
        started := fun _ => mapped
        readable := readable
        inRange := inRange
        short := situated.short
        total := by
          simp only [next, List.length_append, isLength]
          omega
        fits := fits }
  · apply apply_copy isEntry isAhead (by omega) (by omega)
    · intro p above inFront isMatch
      have := ((eq_entry_addr_iff edit (by omega)).1 isMatch).1
      omega
    · omega

/-- The state behind an edit for the present address. -/
theorem performed
    (situated : Situated input info mapSize size st (edit :: later))
    (here : st.p = edit.addr)
    (ahead : edit.Ahead input.bytes.length st.p)
    (notFull : st.out.length ≠ mapSize) :
    let next : ApplyState := ⟨edit.stop, st.pf + 1, st.out ++ edit.bytes⟩
    Situated input info mapSize size next later ∧
      ∀ fuel,
        apply input info mapSize (fuel + 1) st =
          apply input info mapSize fuel next := by
  intro next
  have inRange := situated.inRange
  have total := situated.total
  have fits := situated.fits
  obtain ⟨below, mapped, isEntry, placedNext⟩ := situated.placed.head
  have leftNext := situated.left.next_of_ahead ahead
  have bound := leftNext.removed_le
  rw [inserted_cons, removed_cons] at total
  have isStop : edit.stop = edit.addr + edit.count := rfl
  constructor
  · exact
      { left := leftNext
        placed := placedNext
        started := fun _ => mapped
        readable := situated.readable
        inRange := inRange
        short := fun other otherIn =>
          situated.short other (List.mem_cons_of_mem _ otherIn)
        total := by
          simp only [next, List.length_append]
          omega
        fits := fits }
  · have goesOn :
        ¬ (st.p = input.bytes.length ∨ st.out.length = mapSize) := by
      have := ahead.2.1
      omega
    have isMatch : BitVec.ofNat 64 st.p = edit.entry.addr :=
      (eq_entry_addr_iff edit (by have := ahead.2.1; omega)).2
        ⟨here, ahead.2.2⟩
    intro fuel
    rw [apply, if_neg goesOn, isEntry, Option.bind_eq_bind,
      Option.bind_some, if_pos isMatch,
      editing_entry edit (situated.short edit (by simp)) (by omega),
      Option.bind_eq_bind, Option.bind_some, here]
    rfl

/-- What is written up to a full mapping is all that the file keeps. -/
theorem take_of_full
    {out : List UInt8}
    (full : out.length = mapSize)
    (fits : size ≤ mapSize)
    (one two : List UInt8) :
    (out ++ one).take size = (out ++ two).take size := by
  rw [List.take_append_of_le_length (by omega),
    List.take_append_of_le_length (by omega)]

/-- The rest of the input is copied, up to the end of the output. -/
theorem exists_copy_rest
    (situated : Situated input info mapSize size st edits)
    {entry : PatchFormat}
    (isEntry : info.entryAt st.pf = some entry)
    (noEdit :
      ∀ p, st.p ≤ p → p < input.bytes.length →
        BitVec.ofNat 64 p ≠ entry.addr) :
    ∃ fuel last,
      apply input info mapSize fuel st = some last ∧
        ∀ fill,
          (last.out ++ List.replicate fill 0).take size =
            (st.out ++ input.bytes.drop st.p ++
              List.replicate fill 0).take size := by
  have readable := situated.readable
  have total := situated.total
  have fits := situated.fits
  have bound := situated.left.removed_le
  let address := min input.bytes.length (st.p + (mapSize - st.out.length))
  have isLength :
      ((input.bytes.take address).drop st.p).length = address - st.p := by
    rw [List.length_drop, List.length_take]
    omega
  have run :=
    apply_copy isEntry (show st.p ≤ address by omega)
      (Nat.min_le_left _ _) (by omega)
      (fun p above inFront => noEdit p above (by omega))
      (show st.out.length + (address - st.p) ≤ mapSize by omega) 1
  refine ⟨_, _, run.trans (apply_end ?_), ?_⟩
  · simp only [List.length_append, isLength]
    omega
  · intro fill
    by_cases whole : address = input.bytes.length
    · rw [whole, List.take_length]
    · have full :
          (st.out ++ (input.bytes.take address).drop st.p).length =
            mapSize := by
        rw [List.length_append, isLength]
        omega
      have isAddress : max st.p address = address := by omega
      rw [drop_eq_append input.bytes st.p address, ← List.append_assoc,
        List.append_assoc _ (input.bytes.drop _)]
      exact take_of_full full fits _ _

/-- The loop ends, and the file keeps what it writes. -/
theorem exists_result
    (situated : Situated input info mapSize size st edits)
    {rest : List UInt8}
    (isWritten : written input.bytes st.p st.pf edits = some rest) :
    ∃ fuel last,
      apply input info mapSize fuel st = some last ∧
        ∀ fill,
          (last.out ++ List.replicate fill 0).take size =
            (st.out ++ rest ++ List.replicate fill 0).take size := by
  induction edits generalizing st rest with
  | nil =>
      rw [written] at isWritten
      split at isWritten
      · cases isWritten
        refine ⟨1, st, apply_end (.inl ‹_›), ?_⟩
        intro fill
        rw [List.append_nil]
      · split at isWritten
        · rename_i goesOn
          cases isWritten
          have isEntry :=
            situated.placed.last (situated.started goesOn.1) goesOn.2
          apply situated.exists_copy_rest isEntry
          intro p above inside isZero
          have inRange := situated.inRange
          have := congrArg BitVec.toNat isZero
          have zero : PatchFormat.zero.addr.toNat = 0 := rfl
          rw [BitVec.toNat_ofNat, zero] at this
          omega
        · cases isWritten
  | cons edit later inductionHypothesis =>
      rw [written] at isWritten
      split at isWritten
      · rename_i ahead
        obtain ⟨rest, isRest, rfl⟩ := Option.map_eq_some_iff.1 isWritten
        obtain ⟨atEdit, copies⟩ := situated.copied ahead
        by_cases full :
            (st.out ++ (input.bytes.take edit.addr).drop st.p).length =
              mapSize
        · refine ⟨_, _, (copies 1).trans (apply_end (.inr full)), ?_⟩
          intro fill
          rw [List.append_assoc (_ : List UInt8) edit.bytes rest,
            ← List.append_assoc st.out, List.append_assoc _ (_ ++ rest)]
          exact take_of_full full situated.fits _ _
        · obtain ⟨behind, performs⟩ := atEdit.performed rfl
            ⟨Nat.le_refl _, ahead.2⟩ full
          obtain ⟨fuel, last, isLast, keeps⟩ :=
            inductionHypothesis behind isRest
          refine ⟨_, last, (copies _).trans ((performs fuel).trans isLast), ?_⟩
          intro fill
          rw [keeps fill]
          simp only [List.append_assoc]
      · rename_i notAhead
        cases isWritten
        have isEntry := situated.placed.head.2.2.1
        apply situated.exists_copy_rest isEntry
        intro p above inside isMatch
        have inRange := situated.inRange
        obtain ⟨here, low⟩ := (eq_entry_addr_iff edit (by omega)).1 isMatch
        exact notAhead ⟨by omega, by omega, low⟩

/-- Where the loop does not stop in the mappings there is no result. -/
theorem apply_eq_none
    (situated : Situated input info mapSize size st edits)
    (isFault : written input.bytes st.p st.pf edits = none)
    (fuel : Nat) :
    apply input info mapSize fuel st = none := by
  induction edits generalizing st fuel with
  | nil =>
      have missing := missing_of_written_eq_none situated.left isFault
      have total := situated.total
      have fits := situated.fits
      have notFull : st.out.length ≠ mapSize := by omega
      rw [written] at isFault
      split at isFault
      · cases isFault
      · rename_i notEnd
        split at isFault
        · cases isFault
        · rename_i stops
          by_cases atBegin : st.p = 0
          · obtain ⟨p, pf, out⟩ := st
            cases atBegin
            exact
              situated.placed.fault_of_begin (fun isNil => notEnd isNil.symm)
                notFull fuel
          · cases fuel with
            | zero => rfl
            | succ fuel =>
                have behind : ¬ (info.mapped = true ∧ st.pf < entryMax) :=
                  fun both => stops ⟨atBegin, both.2⟩
                rw [apply, if_neg (by simp [notEnd, notFull]),
                  PatchInfo.entryAt, if_neg behind]
                rfl
  | cons edit later inductionHypothesis =>
      have missing := missing_of_written_eq_none situated.left isFault
      rw [written] at isFault
      split at isFault
      · rename_i ahead
        rw [Option.map_eq_none_iff] at isFault
        obtain ⟨atEdit, copies⟩ := situated.copied ahead
        have faultHere :
            written input.bytes edit.addr st.pf (edit :: later) = none := by
          rw [written, if_pos ⟨Nat.le_refl _, ahead.2⟩, isFault]
          rfl
        have missingHere :=
          missing_of_written_eq_none atEdit.left faultHere
        have total := atEdit.total
        have fits := situated.fits
        have notFull :
            (st.out ++ (input.bytes.take edit.addr).drop st.p).length ≠
              mapSize := by
          simp only at total missingHere
          omega
        obtain ⟨behind, performs⟩ := atEdit.performed rfl
          ⟨Nat.le_refl _, ahead.2⟩ notFull
        by_contra isSome
        obtain ⟨last, isLast⟩ := Option.ne_none_iff_exists'.1 isSome
        have more := apply_add isLast (1 + (edit.addr - st.p))
        rw [← Nat.add_assoc, copies, performs,
          inductionHypothesis behind isFault] at more
        cases more
      · cases isFault

/-- A result has what is written. -/
theorem exists_written
    (situated : Situated input info mapSize size st edits)
    {fuel : Nat}
    {last : ApplyState}
    (isLast : apply input info mapSize fuel st = some last) :
    ∃ rest,
      written input.bytes st.p st.pf edits = some rest ∧
        ∀ fill,
          (last.out ++ List.replicate fill 0).take size =
            (st.out ++ rest ++ List.replicate fill 0).take size := by
  cases isWritten : written input.bytes st.p st.pf edits with
  | none =>
      rw [situated.apply_eq_none isWritten] at isLast
      cases isLast
  | some rest =>
      obtain ⟨_, other, isOther, keeps⟩ := situated.exists_result isWritten
      rw [apply_unique isLast isOther]
      exact ⟨rest, rfl, keeps⟩

end Situated

/-! ## What a result needs -/

/-- The bytes that the entries from an index on insert. -/
def inserting (info : PatchInfo) (pf : Nat) : Nat :=
  ((info.entries.drop pf).map fun entry => entry.elem.length).sum

theorem inserting_entryAt
    {info : PatchInfo}
    {pf : Nat}
    {entry : PatchFormat}
    (isEntry : info.entryAt pf = some entry) :
    inserting info pf = entry.elem.length + inserting info (pf + 1) := by
  rw [PatchInfo.entryAt] at isEntry
  split at isEntry
  · cases isEntry
    by_cases inside : pf < info.entries.length
    · rw [inserting, List.drop_eq_getElem_cons inside, List.map_cons,
        List.sum_cons, List.getD_eq_getElem?_getD,
        List.getElem?_eq_getElem inside]
      rfl
    · have behind : info.entries.length ≤ pf := by omega
      rw [inserting, inserting, List.drop_eq_nil_of_le behind,
        List.drop_eq_nil_of_le (by omega), List.getD_eq_getElem?_getD,
        List.getElem?_eq_none behind]
      rfl
  · cases isEntry

/--
The output has room for what is written, which is what the entries insert and
what can be read.
-/
theorem length_apply
    {input : Mapped}
    {info : PatchInfo}
    {mapSize fuel : Nat}
    {st last : ApplyState}
    (isLast : apply input info mapSize fuel st = some last)
    (room : st.out.length ≤ mapSize) :
    last.out.length ≤ mapSize ∧
      last.out.length ≤
        st.out.length + (input.mapSize - st.p) + inserting info st.pf := by
  induction fuel generalizing st with
  | zero => cases isLast
  | succ fuel inductionHypothesis =>
      rw [apply] at isLast
      split at isLast
      · cases isLast
        omega
      · rename_i goesOn
        obtain ⟨entry, isEntry, isLater⟩ := Option.bind_eq_some_iff.1 isLast
        split at isLater
        · obtain ⟨next, isNext, isRest⟩ := Option.bind_eq_some_iff.1 isLater
          have isInserting := inserting_entryAt isEntry
          rw [editing] at isNext
          split at isNext
          · dsimp only at isNext
            split at isNext
            · rename_i fits
              cases isNext
              have isTake :=
                List.length_take_le' entry.length.toNat entry.elem
              have rest :=
                inductionHypothesis isRest
                  (by rw [List.length_append]; exact fits)
              simp only [List.length_append] at rest
              omega
            · cases isNext
          · split at isNext
            · cases isNext
              have rest := inductionHypothesis isRest room
              simp only at rest
              omega
            · cases isNext
              have rest := inductionHypothesis isRest room
              simp only at rest
              omega
        · obtain ⟨x, isX, isRest⟩ := Option.bind_eq_some_iff.1 isLater
          have inMap : st.p < input.mapSize := by
            rw [Mapped.readAt] at isX
            split at isX
            · assumption
            · cases isX
          have rest :=
            inductionHypothesis isRest
              (by simp only [List.length_append, List.length_singleton]; omega)
          simp only [List.length_append, List.length_singleton] at rest
          omega

/-! ## Edits of one shape -/

section Shapes

variable
  {length : Nat}
  {edits filled : List Edit}

theorem Edit.eq_of_shape_eq
    {one two : Edit}
    (same : one.shape = two.shape) :
    one.addr = two.addr ∧ one.bytes.length = two.bytes.length ∧
      one.count = two.count ∧ one.stop = two.stop := by
  obtain ⟨addr, rest⟩ := Prod.mk.inj same
  obtain ⟨bytes, rest⟩ := Prod.mk.inj rest
  obtain ⟨count, -⟩ := Prod.mk.inj rest
  exact ⟨addr, bytes, count, by rw [Edit.stop, Edit.stop, addr, count]⟩

variable
  (same : filled.map Edit.shape = edits.map Edit.shape)

include same

theorem inserted_of_shape :
    inserted filled = inserted edits := by
  have isSum :
      ∀ list : List Edit,
        inserted list = ((list.map Edit.shape).map fun s => s.2.1).sum := by
    intro list
    rw [List.map_map]
    rfl
  rw [isSum, isSum, same]

theorem removed_of_shape :
    removed filled = removed edits := by
  have isSum :
      ∀ list : List Edit,
        removed list = ((list.map Edit.shape).map fun s => s.2.2.1).sum := by
    intro list
    rw [List.map_map]
    rfl
  rw [isSum, isSum, same]

theorem length_of_shape :
    filled.length = edits.length := by
  simpa using congrArg List.length same

theorem edits_of_shape
    (domain : Edits length edits) :
    Edits length filled := by
  have sorted :
      (edits.map Edit.shape).Pairwise fun one two => one.1 ≤ two.1 :=
    List.pairwise_map.2 domain.sorted
  have apart :
      (edits.map Edit.shape).Pairwise fun one two =>
        ∀ address,
          ¬ ((one.1 ≤ address ∧ address < one.1 + one.2.2.1) ∧
            (two.1 ≤ address ∧ address < two.1 + two.2.2.1)) :=
    List.pairwise_map.2 domain.apart
  have inside : ∀ s ∈ edits.map Edit.shape, s.1 + s.2.2.1 ≤ length := by
    intro s isShape
    obtain ⟨edit, editIn, rfl⟩ := List.mem_map.1 isShape
    exact domain.inside edit editIn
  rw [← same, List.pairwise_map] at sorted apart
  rw [← same] at inside
  exact
    { sorted := sorted
      inside := fun edit editIn =>
        inside _ (List.mem_map_of_mem editIn)
      apart := apart }

theorem tailOnly_of_shape
    (tailOnly : TailOnly length edits) :
    TailOnly length filled := by
  obtain ⟨nothing, tail⟩ := tailOnly
  have tailShape :
      ∀ s ∈ edits.map Edit.shape,
        0 < s.2.2.1 → length ≤ s.1 + removed edits := by
    intro s isShape
    obtain ⟨edit, editIn, rfl⟩ := List.mem_map.1 isShape
    exact tail edit editIn
  rw [← same, ← removed_of_shape same] at tailShape
  exact
    ⟨(inserted_of_shape same).trans nothing,
      fun edit editIn => tailShape _ (List.mem_map_of_mem editIn)⟩

end Shapes

theorem followed_of_shape
    {length from_ pf : Nat}
    {edits filled : List Edit}
    (same : filled.map Edit.shape = edits.map Edit.shape)
    (followed : Followed length from_ pf edits) :
    Followed length from_ pf filled := by
  induction edits generalizing filled from_ pf with
  | nil =>
      have isNil : filled = [] := List.map_eq_nil_iff.1 same
      rw [isNil]
      exact followed
  | cons edit later inductionHypothesis =>
      cases filled with
      | nil => cases same
      | cons first rest =>
          obtain ⟨sameFirst, sameRest⟩ := List.cons.inj same
          obtain ⟨addr, -, -, stop⟩ := Edit.eq_of_shape_eq sameFirst
          have sameAhead :
              first.Ahead length from_ ↔ edit.Ahead length from_ := by
            rw [Edit.Ahead, Edit.Ahead, addr]
          rw [followed_cons] at followed ⊢
          split at followed
          · rename_i ahead
            rw [if_pos (sameAhead.2 ahead), stop]
            exact inductionHypothesis sameRest followed
          · rename_i notAhead
            rw [if_neg (mt sameAhead.1 notAhead)]
            exact tailOnly_of_shape same followed

theorem appliable_of_shape
    {length : Nat}
    {edits filled : List Edit}
    (same : filled.map Edit.shape = edits.map Edit.shape)
    (appliable : Appliable length edits) :
    Appliable length filled where
  room := by
    rw [length_of_shape same]
    exact appliable.room
  data := by
    rw [inserted_of_shape same]
    exact appliable.data
  inputSize := appliable.inputSize
  outputSize := by
    rw [inserted_of_shape same, removed_of_shape same]
    exact appliable.outputSize
  notEmpty := by
    rw [inserted_of_shape same, removed_of_shape same]
    exact appliable.notEmpty
  followed := followed_of_shape same appliable.followed

/-! ## The patch that is read -/

/-- What `read_patch` leaves, and what there was room for. -/
structure Read (info : PatchInfo) (edits : List Edit) : Prop where
  room : edits.length ≤ entryMax
  data : inserted edits ≤ pageSize
  placed : Placed info 0 edits
  size :
    info.sizeUpdown =
      BitVec.ofNat 32 (inserted edits) - BitVec.ofNat 32 (removed edits)

theorem read_of_stored
    {edits : List Edit}
    {st : ReadState}
    (isStored : stored edits = some (.ok st)) :
    Read st.info edits := by
  obtain ⟨room, data, entries, size⟩ := storeAll_spec isStored
  have isRoom : edits.length ≤ entryMax := by
    by_cases isNil : edits = []
    · rw [isNil]
      exact Nat.zero_le _
    · simpa using room isNil
  have isData : inserted edits ≤ pageSize := by
    by_cases isNil : edits = []
    · rw [isNil]
      exact Nat.zero_le _
    · simpa using data isNil
  have isEntries : st.info.entries = edits.map Edit.entry := by
    simpa [ReadState.info] using entries
  exact
    { room := isRoom
      data := isData
      placed :=
        { entries := by rw [List.drop_zero, isEntries]
          room := by rw [isEntries, List.length_map]; exact isRoom
          mapped := rfl }
      size := by simpa [ReadState.info] using size }

/-- The entries of edits insert the bytes of the edits. -/
theorem sum_elem_entries
    (edits : List Edit) :
    ((edits.map Edit.entry).map fun entry => entry.elem.length).sum =
      inserted edits := by
  have sameLength : ∀ edit : Edit, edit.entry.elem = edit.bytes := by
    intro edit
    cases edit <;> rfl
  rw [inserted, List.map_map]
  exact congrArg List.sum
    (List.map_congr_left fun edit _ => congrArg List.length (sameLength edit))

theorem Read.inserting_eq
    {info : PatchInfo}
    {edits : List Edit}
    (read : Read info edits) :
    inserting info 0 = inserted edits := by
  rw [inserting, read.placed.entries, sum_elem_entries]

/--
What an error leaves: the entries of the edits in front of one whose address is
taken for an error, and an entry without bytes.
-/
structure Interrupted
    (info : PatchInfo) (front : List Edit) (edit : Edit) : Prop where
  isError : edit.addr = 2 ^ 32 - 1
  room : front.length < entryMax
  entries :
    info.entries =
      front.map Edit.entry ++ [⟨edit.entry.cmd, 0, 0, []⟩]

theorem Interrupted.inserting_eq
    {info : PatchInfo}
    {front : List Edit}
    {edit : Edit}
    (interrupted : Interrupted info front edit) :
    inserting info 0 = inserted front := by
  rw [inserting, List.drop_zero, interrupted.entries, List.map_append,
    List.sum_append, sum_elem_entries]
  rfl

/-- The patch file is read, or the address of an edit is taken for an error. -/
theorem read_or_interrupted
    {edits : List Edit}
    {result : Bool × PatchInfo}
    (isRead : readPatch (patchFile edits) = some result) :
    Read result.2 edits ∨
      ∃ front edit later,
        edits = front ++ edit :: later ∧
          Interrupted result.2 front edit := by
  obtain ⟨read, isStored, rfl⟩ := stored_of_readPatch isRead
  cases read with
  | ok last => exact .inl (read_of_stored isStored)
  | error last =>
      obtain ⟨front, edit, later, before, rfl, isFront, isEdit⟩ :=
        storeAll_error isStored
      obtain ⟨room, isError, rfl⟩ := store_error isEdit
      have entries := (storeAll_spec isFront).2.2.1
      rw [List.nil_append] at entries
      refine .inr ⟨front, edit, later, rfl, isError, ?_, ?_⟩
      · rw [entries, List.length_map] at room
        exact room
      · rw [← entries]
        rfl

/-- A count has two digits. -/
theorem removed_le_length
    (edits : List Edit) :
    removed edits ≤ 255 * edits.length := by
  induction edits with
  | nil => exact Nat.le_refl 0
  | cons edit later inductionHypothesis =>
      have below : edit.count ≤ 255 := by
        cases edit with
        | insert addr bytes => exact Nat.zero_le _
        | delete addr count => exact Nat.le_of_lt_succ count.toNat_lt
      rw [removed_cons, List.length_cons]
      omega

theorem length_line_le
    (edit : Edit) :
    edit.line.length ≤ 18 + 5 * edit.bytes.length := by
  have isLength :
      ∀ bytes : List UInt8,
        (bytes.flatMap fun byte => 32 :: Edit.number byte.toNat 2).length =
          5 * bytes.length := by
    intro bytes
    have := length_elemTail bytes
    simpa [elemTail] using this
  cases edit with
  | insert addr bytes =>
      have := isLength bytes
      simp only [Edit.line, Edit.bytes, List.length_append,
        List.length_cons, List.length_nil, length_number, this]
      omega
  | delete addr count =>
      simp [Edit.line, Edit.bytes, length_number]

theorem length_patchFile_le
    (edits : List Edit) :
    (patchFile edits).length ≤ 18 * edits.length + 5 * inserted edits := by
  induction edits with
  | nil => exact Nat.le_refl 0
  | cons edit later inductionHypothesis =>
      have isFile : patchFile (edit :: later) = edit.line ++ patchFile later :=
        rfl
      have := length_line_le edit
      rw [isFile, List.length_append, inserted_cons, List.length_cons]
      omega

/-- The size that is asked for is the one of the edited input, less one. -/
theorem outputFileSize_eq
    {length more less : Nat}
    (moreSmall : more < 2 ^ 31)
    (lessSmall : less < 2 ^ 31)
    (notEmpty : less < length + more) :
    BitVec.ofNat 64 length - 1 +
        (BitVec.ofNat 32 more - BitVec.ofNat 32 less).signExtend 64 =
      BitVec.ofNat 64 (length + more - less - 1) := by
  have small :
      ∀ width value : Nat, 2 * value < 2 ^ width →
        (BitVec.ofNat width value).toInt = value := by
    intro width value below
    have isNat : (BitVec.ofNat width value).toNat = value := by
      rw [BitVec.toNat_ofNat]
      exact Nat.mod_eq_of_lt (by omega)
    rw [BitVec.toInt_eq_toNat_of_lt (by rw [isNat]; exact below), isNat]
  have wide :
      (BitVec.ofNat 32 more - BitVec.ofNat 32 less).signExtend 64 =
        BitVec.ofNat 64 more - BitVec.ofNat 64 less := by
    apply BitVec.eq_of_toInt_eq
    rw [BitVec.toInt_signExtend_of_le (by decide), BitVec.toInt_sub,
      BitVec.toInt_sub, small 32 more (by omega), small 32 less (by omega),
      small 64 more (by omega), small 64 less (by omega)]
    simp only [Int.bmod_def]
    omega
  have one : (1 : U64).toNat = 1 := rfl
  rw [wide]
  apply BitVec.eq_of_toNat_eq
  simp only [BitVec.toNat_add, BitVec.toNat_sub, BitVec.toNat_ofNat, one]
  omega

end BinTools.Bipatch
