import BinTools.BipatchRun

namespace BinTools.Bipatch

/-!
# The output of a patch

The output file is the edited input, whatever the bytes are, exactly when the
pages and the mappings are large enough, a byte is left and every edit is found.
-/

/-- No edit inserts more than all of them. -/
theorem length_bytes_le
    {edits : List Edit}
    {edit : Edit}
    (editIn : edit ∈ edits) :
    edit.bytes.length ≤ inserted edits := by
  induction edits with
  | nil => cases editIn
  | cons first later inductionHypothesis =>
      rw [inserted_cons]
      cases List.mem_cons.1 editIn with
      | inl same =>
          rw [same]
          exact Nat.le_add_right _ _
      | inr inLater =>
          exact (inductionHypothesis inLater).trans (Nat.le_add_left _ _)

/-- The state in front of the whole input. -/
theorem situated_start
    {input : List UInt8}
    {edits : List Edit}
    {info : PatchInfo}
    (domain : Edits input.length edits)
    (read : Read info edits)
    (inputSize : input.length + 0x1000 < 2 ^ 32)
    {mapSize : Nat}
    (fits : input.length + inserted edits - removed edits ≤ mapSize) :
    Situated (Mapped.ofFile input) info mapSize
      (input.length + inserted edits - removed edits) ⟨0, 0, []⟩ edits := by
  have left : Left input.length 0 edits :=
    ⟨domain, Nat.zero_le _, fun _ _ _ => Nat.zero_le _⟩
  have bound := left.removed_le
  have covered := covered_ofFile inputSize
  have data := read.data
  exact
    { left := left
      placed := read.placed
      started := fun started => absurd rfl started
      readable := Nat.le_of_lt covered
      inRange := by
        show input.length < _
        omega
      short := by
        intro edit editIn
        have isTerm := length_bytes_le editIn
        rw [pageSize] at data
        omega
      total := by
        show 0 + input.length + _ = _ + 0 + _
        omega
      fits := fits }

/-- With room for the entries the patch file is read. -/
theorem exists_read
    {length : Nat}
    {edits : List Edit}
    (domain : Edits length edits)
    (room : edits.length ≤ entryMax)
    (data : inserted edits ≤ pageSize)
    (inputSize : length + 0x1000 < 2 ^ 32) :
    ∃ info,
      readPatch (patchFile edits) = some (true, info) ∧ Read info edits := by
  have fileSize := length_patchFile_le edits
  have noError : ∀ edit ∈ edits, edit.addr ≠ 2 ^ 32 - 1 := by
    intro edit editIn
    have := domain.inside edit editIn
    rw [Edit.stop] at this
    omega
  obtain ⟨st, isStored⟩ : ∃ st, stored edits = some (.ok st) :=
    exists_storeAll (by simpa using room) (by simpa using data) noError
  rw [entryMax] at room
  rw [pageSize] at data
  refine ⟨st.info, ?_, read_of_stored isStored⟩
  rw [readPatch_patchFile (by omega), isStored]
  rfl

/-- Under the condition the tool gives the edited input. -/
theorem appliesTo_of_appliable
    {input : List UInt8}
    {edits : List Edit}
    (domain : Edits input.length edits)
    (appliable : Appliable input.length edits) :
    AppliesTo input edits := by
  obtain ⟨room, data, inputSize, outputSize, notEmpty, followed⟩ := appliable
  obtain ⟨info, isInfo, read⟩ := exists_read domain room data inputSize
  have left : Left input.length 0 edits :=
    ⟨domain, Nat.zero_le _, fun _ _ _ => Nat.zero_le _⟩
  have counts := removed_le_length edits
  have total := left.length_edited
  rw [entryMax] at room
  rw [pageSize] at data
  have isSize :
      BitVec.ofNat 64 input.length - 1 + info.sizeUpdown.signExtend 64 =
        BitVec.ofNat 64
          (input.length + inserted edits - removed edits - 1) := by
    rw [read.size]
    exact outputFileSize_eq (by omega) (by omega) notEmpty
  have isMap :=
    mapSizeOf_eq
      (BitVec.ofNat 64 (input.length + inserted edits - removed edits - 1))
  rw [BitVec.toNat_ofNat] at isMap
  have situated :=
    situated_start domain read inputSize
      (show input.length + inserted edits - removed edits ≤
          mapSizeOf
            (BitVec.ofNat 64
              (input.length + inserted edits - removed edits - 1)) by
        omega)
  have isLength :
      fileLength
          (BitVec.ofNat 64
            (input.length + inserted edits - removed edits - 1)) =
        input.length + inserted edits - removed edits := by
    rw [fileLength, BitVec.toNat_ofNat, if_pos (by omega)]
    omega
  obtain ⟨out, isOut, isPrefix⟩ := exists_written_of_followed left followed
  obtain ⟨fuel, last, isLast, keeps⟩ := situated.exists_result isOut
  refine ⟨fuel, edited input 0 edits, ?_, rfl, by omega⟩
  rw [bipatch, isInfo, Option.bind_eq_bind, Option.bind_some, applyPatch,
    isSize, isLast, Option.bind_eq_bind, Option.bind_some,
    if_neg (by omega), isLength]
  refine congrArg some ((keeps _).trans ?_)
  obtain ⟨more, rfl⟩ := isPrefix
  rw [List.nil_append, List.append_assoc, List.take_left']
  omega

/-! ## What the tool needs -/

/-- The edit with other bytes. -/
def Edit.twos : Edit → Edit
  | insert addr bytes => insert addr (List.replicate bytes.length 2)
  | delete addr count => delete addr count

theorem shape_twos
    (edits : List Edit) :
    (edits.map Edit.twos).map Edit.shape = edits.map Edit.shape := by
  rw [List.map_map]
  apply List.map_congr_left
  intro edit _
  cases edit with
  | insert addr bytes =>
      simp [Edit.twos, Edit.shape, Edit.addr, Edit.bytes, Edit.count]
  | delete addr count => rfl

theorem twos_twos
    (edits : List Edit) :
    Twos (edits.map Edit.twos) := by
  intro edit editIn x isByte
  obtain ⟨original, -, rfl⟩ := List.mem_map.1 editIn
  cases original with
  | insert addr bytes => exact List.eq_of_mem_replicate isByte
  | delete addr count => cases isByte

/-- The marked bytes and the twos are no zeros. -/
theorem edited_marked_ne_zero
    {length mark : Nat}
    {edits : List Edit}
    (domain : Edits length edits)
    (twos : Twos edits) :
    0 ∉ edited (marked length mark) 0 edits := by
  intro isZero
  have left : Left (marked length mark).length 0 edits := by
    rw [length_marked]
    exact ⟨domain, Nat.zero_le _, fun _ _ _ => Nat.zero_le _⟩
  cases left.mem_edited isZero with
  | inl isNew =>
      obtain ⟨edit, editIn, isByte⟩ := isNew
      exact absurd (twos edit editIn 0 isByte) (by decide)
  | inr isKept =>
      obtain ⟨i, -, isX, -⟩ := isKept
      have := (getElem?_marked isX).2
      split at this <;> cases this

/-- A run of the tool, from its parts. -/
theorem bipatch_eq_some
    {input patch output : List UInt8}
    {fuel : Nat}
    (isOutput : bipatch input patch fuel = some output) :
    ∃ result last,
      readPatch patch = some result ∧
        let size : U64 :=
          BitVec.ofNat 64 input.length - 1 +
            result.2.sizeUpdown.signExtend 64
        apply (Mapped.ofFile input) result.2 (mapSizeOf size) fuel
              ⟨0, 0, []⟩ =
            some last ∧
          output =
            (last.out ++ List.replicate (fileLength size) 0).take
              (fileLength size) := by
  obtain ⟨result, isResult, isApplied⟩ := Option.bind_eq_some_iff.1 isOutput
  obtain ⟨last, isLast, isTaken⟩ := Option.bind_eq_some_iff.1 isApplied
  refine ⟨result, last, isResult, isLast, ?_⟩
  split at isTaken
  · cases isTaken
  · exact (Option.some.inj isTaken).symm

/-- The tool has one output. -/
theorem bipatch_unique
    {input patch first second : List UInt8}
    {one two : Nat}
    (isFirst : bipatch input patch one = some first)
    (isSecond : bipatch input patch two = some second) :
    first = second := by
  obtain ⟨read, isRead, firstApplied⟩ := Option.bind_eq_some_iff.1 isFirst
  rw [bipatch, isRead] at isSecond
  have secondApplied : applyPatch input read.2 two = some second := isSecond
  obtain ⟨last, isLast, firstTaken⟩ :=
    Option.bind_eq_some_iff.1 firstApplied
  obtain ⟨other, isOther, secondTaken⟩ :=
    Option.bind_eq_some_iff.1 secondApplied
  rw [← apply_unique isLast isOther, firstTaken] at secondTaken
  exact Option.some.inj secondTaken

/-- An output without zeros is written whole. -/
theorem length_le_of_no_zero
    {out : List UInt8}
    {fill length : Nat}
    (noZero : 0 ∉ (out ++ List.replicate fill 0).take length) :
    ((out ++ List.replicate fill 0).take length).length ≤ out.length := by
  by_contra longer
  apply noZero
  have isZero :
      ((out ++ List.replicate fill 0).take length)[out.length]? =
        some 0 := by
    simp only [List.length_take, List.length_append,
      List.length_replicate] at longer
    rw [List.getElem?_take_of_lt (by omega),
      List.getElem?_append_right (Nat.le_refl _), Nat.sub_self,
      List.getElem?_replicate, if_pos (by omega)]
  exact List.mem_of_getElem? isZero

/-- The edits at the last address delete no more than a count's bytes. -/
theorem removed_of_interrupted
    {length : Nat}
    {front later : List Edit}
    {edit : Edit}
    (domain : Edits length (front ++ edit :: later))
    (isError : edit.addr = 2 ^ 32 - 1) :
    removed (edit :: later) ≤ 255 := by
  have sorted := (List.pairwise_append.1 domain.sorted).2.1
  have ahead :
      ∀ other ∈ edit :: later, 2 ^ 32 - 1 ≤ other.addr := by
    intro other otherIn
    cases List.mem_cons.1 otherIn with
    | inl same => rw [same, isError]
    | inr inLater =>
        rw [← isError]
        exact (List.pairwise_cons.1 sorted).1 other inLater
  have inside : ∀ other : Edit, other.stop ≤ 2 ^ 32 - 1 + 255 := by
    intro other
    cases other with
    | insert addr bytes =>
        have := addr.isLt
        simp only [Edit.stop, Edit.addr, Edit.count]
        omega
    | delete addr count =>
        have := addr.isLt
        have := count.toNat_lt
        simp only [Edit.stop, Edit.addr, Edit.count]
        omega
  have left : Left (2 ^ 32 - 1 + 255) (2 ^ 32 - 1) (edit :: later) :=
    { domain :=
        { sorted := sorted
          inside := fun other _ => inside other
          apart := (List.pairwise_append.1 domain.apart).2.1 }
      inside := Nat.le_add_right _ _
      ahead := fun other otherIn _ => ahead other otherIn }
  exact Nat.le_of_add_le_add_left left.removed_le

theorem mapSize_ofFile
    (bytes : List UInt8) :
    (Mapped.ofFile bytes).mapSize =
      (bytes.length % 2 ^ 64 + 4096) % 2 ^ 32 / 4096 * 4096 := by
  have isSize : (Mapped.ofFile bytes).mapSize = mapSizeOf _ := rfl
  rw [isSize, mapSizeOf_eq, BitVec.toNat_ofNat]

/-- An input that reaches the last address is not read up to it. -/
theorem shorter_of_interrupted
    {input : List UInt8}
    {front later : List Edit}
    {edit : Edit}
    {info : PatchInfo}
    {mapSize fuel : Nat}
    {last : ApplyState}
    (domain : Edits input.length (front ++ edit :: later))
    (interrupted : Interrupted info front edit)
    (isLast :
      apply (Mapped.ofFile input) info mapSize fuel ⟨0, 0, []⟩ =
        some last) :
    last.out.length + removed (front ++ edit :: later) <
      input.length + inserted (front ++ edit :: later) := by
  obtain ⟨-, inInput⟩ := length_apply isLast (Nat.zero_le _)
  rw [mapSize_ofFile, interrupted.inserting_eq, List.length_nil] at inInput
  have isLong := domain.inside edit (by simp)
  rw [Edit.stop, interrupted.isError] at isLong
  have room := interrupted.room
  rw [entryMax] at room
  have atFront := removed_le_length front
  have behind := removed_of_interrupted domain interrupted.isError
  have isRemoved :
      removed (front ++ edit :: later) =
        removed front + removed (edit :: later) := by
    simp [removed]
  have isInserted :
      inserted (front ++ edit :: later) =
        inserted front + inserted (edit :: later) := by
    simp [inserted]
  omega

/-- The length of the output less one, which `lseek` is given. -/
def outputFileSize (length : Nat) (info : PatchInfo) : U64 :=
  BitVec.ofNat 64 length - 1 + info.sizeUpdown.signExtend 64

/--
A run for the input with a mark that ends with its edited input: the patch is
read, and as much is written as the edited input has bytes.
-/
structure RunFor
    (length mark : Nat) (edits : List Edit) (info : PatchInfo)
    (last : ApplyState) : Prop where
  read : Read info edits
  isLast :
    ∃ fuel,
      apply (Mapped.ofFile (marked length mark)) info
          (mapSizeOf (outputFileSize length info)) fuel ⟨0, 0, []⟩ =
        some last
  isTaken :
    edited (marked length mark) 0 edits =
      (last.out ++
          List.replicate (fileLength (outputFileSize length info)) 0).take
        (fileLength (outputFileSize length info))
  whole : length + inserted edits ≤ last.out.length + removed edits

/-- Edits of twos that are applied have a run for every mark. -/
theorem exists_runFor
    {length : Nat}
    {edits : List Edit}
    (domain : Edits length edits)
    (twos : Twos edits)
    (mark : Nat)
    (applies : AppliesTo (marked length mark) edits) :
    ∃ info last, RunFor length mark edits info last := by
  obtain ⟨fuel, output, isOutput, isEdited, total⟩ := applies
  obtain ⟨⟨_, info⟩, last, isResult, isLast, isTaken⟩ :=
    bipatch_eq_some isOutput
  rw [length_marked] at isLast isTaken total
  have noZero : 0 ∉ edited (marked length mark) 0 edits :=
    edited_marked_ne_zero domain twos
  rw [← isEdited, isTaken] at noZero
  have whole := length_le_of_no_zero noZero
  rw [← isTaken] at whole
  cases read_or_interrupted isResult with
  | inl read =>
      exact
        ⟨info, last, read, ⟨fuel, isLast⟩, isEdited ▸ isTaken, by omega⟩
  | inr stopped =>
      obtain ⟨front, edit, later, rfl, interrupted⟩ := stopped
      have shorter :=
        shorter_of_interrupted (by rw [length_marked]; exact domain)
          interrupted isLast
      rw [length_marked] at shorter
      omega

/-- A run needs room in both mappings and an output with a byte. -/
theorem RunFor.sizes
    {length mark : Nat}
    {edits : List Edit}
    {info : PatchInfo}
    {last : ApplyState}
    (run : RunFor length mark edits info last)
    (domain : Edits length edits) :
    length + 0x1000 < 2 ^ 32 ∧
      removed edits < length + inserted edits ∧
      length + inserted edits + 0xfff < 2 ^ 32 + removed edits := by
  have left : Left (marked length mark).length 0 edits := by
    rw [length_marked]
    exact ⟨domain, Nat.zero_le _, fun _ _ _ => Nat.zero_le _⟩
  have counts := removed_le_length edits
  have total := left.length_edited
  have bound := left.removed_le
  rw [length_marked] at total bound
  have read := run.read
  have whole := run.whole
  have room := read.room
  have data := read.data
  rw [entryMax] at room
  rw [pageSize] at data
  obtain ⟨fuel, isLast⟩ := run.isLast
  obtain ⟨inMap, inInput⟩ := length_apply isLast (Nat.zero_le _)
  rw [read.inserting_eq, mapSize_ofFile, length_marked, List.length_nil]
    at inInput
  have inputSize : length + 0x1000 < 2 ^ 32 := by omega
  have hasByte : 0 < fileLength (outputFileSize length info) := by
    rw [fileLength]
    split <;> omega
  have notEmpty : removed edits < length + inserted edits := by
    by_contra isEmpty
    rw [run.isTaken, List.length_take, List.length_append,
      List.length_replicate] at total
    omega
  rw [outputFileSize, read.size,
    outputFileSize_eq (by omega) (by omega) notEmpty, mapSizeOf_eq,
    BitVec.toNat_ofNat] at inMap
  exact ⟨inputSize, notEmpty, by omega⟩

/-- With runs for all marks every edit is found. -/
theorem followed_of_runs
    {length : Nat}
    {edits : List Edit}
    (domain : Edits length edits)
    (twos : Twos edits)
    (runs : ∀ mark, ∃ info last, RunFor length mark edits info last) :
    Followed length 0 0 edits := by
  by_contra notFollowed
  have left : Left length 0 edits :=
    ⟨domain, Nat.zero_le _, fun _ _ _ => Nat.zero_le _⟩
  obtain ⟨mark, differs⟩ := exists_mark_of_not_followed left twos notFollowed
  obtain ⟨info, last, run⟩ := runs mark
  obtain ⟨inputSize, notEmpty, outputSize⟩ := run.sizes domain
  have bound := left.removed_le
  have counts := removed_le_length edits
  have read := run.read
  have room := read.room
  have data := read.data
  rw [entryMax] at room
  rw [pageSize] at data
  have domainMarked : Edits (marked length mark).length edits := by
    rw [length_marked]
    exact domain
  have total :=
    (⟨domainMarked, Nat.zero_le _, fun _ _ _ => Nat.zero_le _⟩ :
      Left (marked length mark).length 0 edits).length_edited
  have situated :=
    situated_start domainMarked read (by rw [length_marked]; exact inputSize)
      (show (marked length mark).length + inserted edits - removed edits ≤
          mapSizeOf
            (BitVec.ofNat 64
              (length + inserted edits - removed edits - 1)) by
        rw [length_marked, mapSizeOf_eq, BitVec.toNat_ofNat]
        omega)
  have isSize :
      outputFileSize length info =
        BitVec.ofNat 64 (length + inserted edits - removed edits - 1) := by
    rw [outputFileSize, read.size]
    exact outputFileSize_eq (by omega) (by omega) notEmpty
  obtain ⟨fuel, isLast⟩ := run.isLast
  have isTaken := run.isTaken
  rw [isSize] at isLast isTaken
  obtain ⟨rest, isRest, keeps⟩ := situated.exists_written isLast
  have isLength :
      fileLength
          (BitVec.ofNat 64 (length + inserted edits - removed edits - 1)) =
        (edited (marked length mark) 0 edits).length := by
    rw [length_marked] at total
    rw [fileLength, BitVec.toNat_ofNat, if_pos (by omega)]
    omega
  have sameLength :
      (marked length mark).length + inserted edits - removed edits =
        (edited (marked length mark) 0 edits).length := by
    omega
  rw [sameLength] at keeps
  rw [isLength, keeps] at isTaken
  exact differs rest _ isRest isTaken.symm

/-- Edits that are applied for all bytes satisfy the condition. -/
theorem appliable_of_applies
    {length : Nat}
    {edits : List Edit}
    (domain : Edits length edits)
    (applies : Applies length edits) :
    Appliable length edits := by
  have same := shape_twos edits
  have twos := twos_twos edits
  have domainTwos := edits_of_shape same domain
  apply appliable_of_shape same.symm
  have runs :
      ∀ mark, ∃ info last,
        RunFor length mark (edits.map Edit.twos) info last :=
    fun mark =>
      exists_runFor domainTwos twos mark
        (applies (marked length mark) _ (length_marked _ _) same)
  obtain ⟨info, last, run⟩ := runs length
  obtain ⟨inputSize, notEmpty, outputSize⟩ := run.sizes domainTwos
  exact
    { room := run.read.room
      data := run.read.data
      inputSize := inputSize
      outputSize := outputSize
      notEmpty := notEmpty
      followed := followed_of_runs domainTwos twos runs }

/-- A patch is applied exactly when it satisfies the condition. -/
theorem applies_iff_appliable
    {length : Nat}
    {edits : List Edit}
    (domain : Edits length edits) :
    Applies length edits ↔ Appliable length edits := by
  constructor
  · exact appliable_of_applies domain
  · intro appliable input filled isLength same
    subst isLength
    exact
      appliesTo_of_appliable (edits_of_shape same domain)
        (appliable_of_shape same appliable)

/-- A replacement in front of the end of a file is applied. -/
theorem applies_replacement :
    Edits 4 [.insert 1 [7, 8], .delete 1 1] ∧
      Applies 4 [.insert 1 [7, 8], .delete 1 1] := by
  have domain : Edits 4 [.insert 1 [7, 8], .delete 1 1] := by
    refine ⟨by decide, by decide, ?_⟩
    simp only [List.pairwise_cons]
    refine ⟨?_, by simp⟩
    rintro two (_ | ⟨_, ⟨⟩⟩) address ⟨one, -⟩
    have := one.1
    have := one.2
    simp only [Edit.stop, Edit.addr, Edit.count] at *
    omega
  refine ⟨domain, (applies_iff_appliable domain).2 ?_⟩
  exact
    { room := by decide
      data := by decide
      inputSize := by decide
      outputSize := by decide
      notEmpty := by decide
      followed := by
        simp [Followed, Edit.addr, Edit.stop, Edit.count, entryMax] }

/-- Bytes for the end of a file are not appended: the file ends with a zero. -/
theorem not_appliesTo_append :
    Edits 3 [.insert 3 [9]] ∧ ¬ AppliesTo [1, 2, 3] [.insert 3 [9]] := by
  refine ⟨⟨by simp, by decide, by simp⟩, ?_⟩
  rintro ⟨fuel, output, isOutput, isEdited, -⟩
  have isZero :
      bipatch [1, 2, 3] (patchFile [.insert 3 [9]]) 4 =
        some [1, 2, 3, 0] := by
    decide +kernel
  have same := bipatch_unique isOutput isZero
  rw [isEdited] at same
  revert same
  decide

end BinTools.Bipatch
