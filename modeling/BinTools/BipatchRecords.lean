import BinTools.BipatchRun

namespace BinTools.Bipatch

/-!
# The records of a patch

The range of the records begins in their own page and ends, as `read_patch` sets
it, at the pointer into the mapping of the patch's text.
-/

/-- `sizeof(patch_format)` -/
def recordSize : Nat := 32

/-- Where the text and the page of the records are mapped. -/
structure Mappings (textSize : Nat) where
  textAt : Nat
  entriesAt : Nat
  apart : textAt + textSize ≤ entriesAt ∨ entriesAt + pageSize ≤ textAt

/-- `patch_info` with its pointers, and the written part of the page. -/
structure RecordRange where
  begin : Nat
  stop : Nat
  entries : List PatchFormat
  sizeUpdown : U32
  deriving DecidableEq, Repr

/--
`read_patch` for a place of its mappings: the end is the text's pointer, and is
not set where an error is found.
-/
def readRecords (patch : List UInt8)
    (maps : Mappings (Mapped.ofFile patch).mapSize) : Option RecordRange := do
  let text := Mapped.ofFile patch
  let read ← readLines text text.fuel ⟨0, [], 0, 0⟩
  let st ← read.toOption
  some ⟨maps.entriesAt, maps.textAt + st.p, st.entries, st.sizeUpdown⟩

/-- The records that are read are those of the patch. -/
theorem readPatch_of_readRecords
    {patch : List UInt8}
    {maps : Mappings (Mapped.ofFile patch).mapSize}
    {range : RecordRange}
    (isRead : readRecords patch maps = some range) :
    ∃ st,
      readLines (.ofFile patch) (Mapped.ofFile patch).fuel ⟨0, [], 0, 0⟩ =
          some (.ok st) ∧
        readPatch patch = some (true, st.info) ∧
        range =
          ⟨maps.entriesAt, maps.textAt + st.p, st.entries,
            st.sizeUpdown⟩ := by
  obtain ⟨read, isLines, isState⟩ := Option.bind_eq_some_iff.1 isRead
  cases read with
  | error last => cases isState
  | ok st =>
      cases isState
      refine ⟨st, isLines, ?_, rfl⟩
      rw [readPatch, isLines]
      rfl

/-- The record that an edit asks for. -/
def Edit.record : Edit → PatchFormat
  | insert addr bytes =>
      ⟨1, addr.setWidth 64, BitVec.ofNat 16 bytes.length, bytes⟩
  | delete addr count =>
      ⟨0, addr.setWidth 64, BitVec.ofNat 16 count.toNat, []⟩

/--
The records between the two pointers are those of the edits, and the size is
what the edits add to a file.
-/
structure RecordRange.IsRangeOf
    (range : RecordRange) (edits : List Edit) : Prop where
  stop : range.stop = range.begin + recordSize * edits.length
  entries : range.entries.take edits.length = edits.map Edit.record
  sizeUpdown :
    range.sizeUpdown.toInt = (inserted edits : Int) - removed edits

/-- The text's pointer is behind the lines that are stored. -/
theorem p_of_storeAll
    {edits : List Edit}
    {st last : ReadState}
    (isStored : storeAll edits st = some (.ok last)) :
    last.p = st.p + (patchFile edits).length := by
  induction edits generalizing st with
  | nil =>
      cases isStored
      rfl
  | cons edit later inductionHypothesis =>
      obtain ⟨next, isNext, isLater⟩ := storeAll_cons isStored
      have isFile : patchFile (edit :: later) = edit.line ++ patchFile later :=
        rfl
      rw [inductionHypothesis isLater, (store_spec isNext).2, isFile,
        List.length_append, Nat.add_assoc]

/-- A patch file that is read is small enough to be mapped whole. -/
theorem small_of_stored
    {edits : List Edit}
    {st : ReadState}
    (isStored : stored edits = some (.ok st)) :
    (patchFile edits).length + 0x1000 < 2 ^ 32 := by
  have read := read_of_stored isStored
  have room := read.room
  have data := read.data
  have short := length_patchFile_le edits
  rw [entryMax] at room
  rw [pageSize] at data
  omega

/--
For every patch file and wherever its mappings are, the records between the two
pointers are not those of its edits.
-/
theorem not_isRangeOf
    (edits : List Edit)
    (maps : Mappings (Mapped.ofFile (patchFile edits)).mapSize) :
    ¬ ∃ range,
        readRecords (patchFile edits) maps = some range ∧
          range.IsRangeOf edits := by
  rintro ⟨range, isRead, isRange⟩
  obtain ⟨st, isLines, isPatch, rfl⟩ := readPatch_of_readRecords isRead
  obtain ⟨read, isStored, isReturned⟩ := stored_of_readPatch isPatch
  cases read with
  | error last => cases isReturned
  | ok last =>
  have small := small_of_stored isStored
  rw [readLines_covered (covered_ofFile small) rfl, isStored] at isLines
  obtain rfl := Except.ok.inj (Option.some.inj isLines)
  have covered :
      (patchFile edits).length < (Mapped.ofFile (patchFile edits)).mapSize :=
    covered_ofFile small
  have isStop := isRange.stop
  rw [p_of_storeAll isStored, Nat.zero_add] at isStop
  change maps.textAt + _ = maps.entriesAt + _ at isStop
  have room := (read_of_stored isStored).room
  rw [entryMax] at room
  rw [recordSize] at isStop
  cases maps.apart with
  | inl textFirst => omega
  | inr entriesFirst =>
      have isLong := length_le_patchFile edits
      rw [pageSize] at entriesFirst
      omega

/-- Two mappings with the page of the records behind the text. -/
def textFirst : Mappings (Mapped.ofFile (patchFile [.delete 1 1])).mapSize where
  textAt := 0x10000
  entriesAt := 0x20000
  apart := .inl (by decide +kernel)

/-- One deletion: the range ends at the end of the text. -/
theorem not_isRangeOf_delete :
    ¬ ∃ range,
        readRecords (patchFile [.delete 1 1]) textFirst = some range ∧
          range.IsRangeOf [.delete 1 1] := by
  rintro ⟨range, isRead, isRange⟩
  have isStop :
      (readRecords (patchFile [.delete 1 1]) textFirst).map (·.stop) =
        some 0x10012 := by
    decide +kernel
  have isBegin :
      (readRecords (patchFile [.delete 1 1]) textFirst).map (·.begin) =
        some 0x20000 := by
    decide +kernel
  rw [isRead] at isStop isBegin
  have stopAt : range.stop = 0x10012 := Option.some.inj isStop
  have beginAt : range.begin = 0x20000 := Option.some.inj isBegin
  have ends := isRange.stop
  rw [stopAt, beginAt] at ends
  exact absurd ends (by decide)

end BinTools.Bipatch
