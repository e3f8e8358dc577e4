import BinTools.CString

namespace BinTools.Bipatch

/-!
# Binary patches

`bipatch` reads a patch file, a line for each edit, into a page of entries, and
copies the input to the output with one entry in hand.  A mapping reads as zero
behind the file's last byte and faults behind its last page; pointers are
offsets.
-/

/-- `PAGE_SIZE` -/
def pageSize : Nat := 4096

/-- The size of the mapping of a file. -/
def mapSizeOf (size : U64) : Nat :=
  ((size + 0x1000) &&& 0xfffff000).toNat

/-- A file that is mapped for reading. -/
structure Mapped where
  bytes : List UInt8
  mapSize : Nat
  deriving DecidableEq, Repr

namespace Mapped

/-- The mapping of a file with these bytes. -/
def ofFile (bytes : List UInt8) : Mapped where
  bytes := bytes
  mapSize := mapSizeOf (BitVec.ofNat 64 bytes.length)

/-- One byte, `none` for a fault. -/
def readAt (file : Mapped) (p : Nat) : Option UInt8 :=
  if p < file.mapSize then
    some (file.bytes.getD p 0)
  else
    none

/-- More steps than there are bytes in the mapping. -/
def fuel (file : Mapped) : Nat :=
  file.bytes.length + 2 * pageSize

end Mapped

/-! ## Reading the patch -/

/-- The value of a digit, `none` for "parse error". -/
def digit? (x : UInt8) : Option Nat :=
  if 48 ≤ x ∧ x ≤ 57 then
    some (x.toNat - 48)
  else if 97 ≤ x ∧ x ≤ 102 then
    some (x.toNat - 97 + 10)
  else
    none

/-- The loop of `ascii_to_bin`, from the last digit; the shift is an `int`. -/
def asciiDigits (text : Mapped) (start : Nat) : Nat → U64 → Nat → Option U64
  | 0, r, _ => some r
  | count + 1, r, s => do
      let x ← text.readAt (start + 2 + count)
      match digit? x with
      | some d =>
          asciiDigits text start count
            (r + ((BitVec.ofNat 32 d) <<< s).signExtend 64) (s + 4)
      | none => some (-1)

/-- `ascii_to_bin` of `length` characters -/
def asciiToBin (text : Mapped) (start length : Nat) : Option U64 := do
  let x ← text.readAt start
  if x = 48 then
    let y ← text.readAt (start + 1)
    if y = 120 then
      asciiDigits text start (length - 2) 0 0
    else
      some (-1)
  else
    some (-1)

/-- Advances while the byte satisfies the test. -/
def skipWhile (text : Mapped) (test : UInt8 → Bool) : Nat → Nat → Option Nat
  | 0, _ => none
  | fuel + 1, p => do
      let x ← text.readAt p
      if test x then
        skipWhile text test fuel (p + 1)
      else
        some p

/-- `patch_format`, with the bytes that `elem` points to. -/
structure PatchFormat where
  cmd : UInt8
  addr : U64
  length : BitVec 16
  elem : List UInt8
  deriving DecidableEq, Repr

/-- An entry that is not written. -/
def PatchFormat.zero : PatchFormat :=
  ⟨0, 0, 0, []⟩

/-- The entries that fit their page. -/
def entryMax : Nat := 128

/-- The pointer into the text, the entries, the used data and the size. -/
structure ReadState where
  p : Nat
  entries : List PatchFormat
  data : Nat
  sizeUpdown : U32
  deriving DecidableEq, Repr

/-- `none` for a fault; a "parse error" leaves what is written so far. -/
abbrev Reading : Type := Option (Except ReadState ReadState)

/-- Goes on where no error is found. -/
def Reading.andThen (read : Reading) (next : ReadState → Reading) : Reading :=
  match read with
  | none => none
  | some (.error last) => some (.error last)
  | some (.ok st) => next st

@[simp] theorem Reading.andThen_none (next : ReadState → Reading) :
    Reading.andThen none next = none :=
  rfl

@[simp] theorem Reading.andThen_error
    (last : ReadState) (next : ReadState → Reading) :
    Reading.andThen (some (.error last)) next = some (.error last) :=
  rfl

@[simp] theorem Reading.andThen_ok
    (st : ReadState) (next : ReadState → Reading) :
    Reading.andThen (some (.ok st)) next = next st :=
  rfl

/-- The state with another entry. -/
def ReadState.write (st : ReadState) (entry : PatchFormat) : ReadState :=
  { st with entries := st.entries ++ [entry] }

/-- A line that inserts, up to the bytes that are read. -/
def ReadState.writeElem (st : ReadState) (addr : U64) (elem : List UInt8) :
    ReadState :=
  { st with
    entries := st.entries ++ [⟨1, addr, BitVec.ofNat 16 elem.length, elem⟩]
    data := st.data + elem.length }

/--
The loop over the bytes of an insertion, to the end of the line or to an error;
the data page has 4096 bytes.
-/
def readElem
    (text : Mapped) (data : Nat) :
    Nat → Nat → List UInt8 →
      Option (Except (List UInt8) (Nat × List UInt8))
  | 0, _, _ => none
  | fuel + 1, p, elem => do
      let x ← text.readAt p
      if x = 10 then
        some (.ok (p, elem))
      else
        let d ← asciiToBin text p 4
        if d = -1 then
          some (.error elem)
        else if data + elem.length < pageSize then
          let next ← skipWhile text (· == 32) text.fuel (p + 4)
          readElem text data fuel next (elem ++ [UInt8.ofNat d.toNat])
        else
          none

/-- A line that deletes: its length. -/
def readDelete (text : Mapped) (addr : U64) (st : ReadState) : Reading := do
  let d ← asciiToBin text st.p 4
  if d = -1 then
    some (.error (st.write ⟨0, addr, 0, []⟩))
  else
    some
      (.ok
        { p := st.p + 4
          entries := st.entries ++ [⟨0, addr, d.setWidth 16, []⟩]
          data := st.data
          sizeUpdown := st.sizeUpdown - d.setWidth 32 })

/-- A line that inserts: its bytes. -/
def readInsert (text : Mapped) (addr : U64) (st : ReadState) : Reading := do
  let read ← readElem text st.data text.fuel st.p []
  match read with
  | .error elem => some (.error (st.writeElem addr elem))
  | .ok (p, elem) =>
      let length := BitVec.ofNat 16 elem.length
      some
        (.ok
          { st.writeElem addr elem with
            p := p
            sizeUpdown := st.sizeUpdown + length.setWidth 32 })

/-- One line, up to the end of it. -/
def readLine (text : Mapped) (st : ReadState) : Reading := do
  let x ← text.readAt st.p
  if x = 48 ∨ x = 49 then
    if st.entries.length < entryMax then
      let space ← skipWhile text (· != 32) text.fuel (st.p + 1)
      let addr ← asciiToBin text (space + 1) 10
      if addr = -1 then
        some (.error (st.write ⟨x - 48, 0, 0, []⟩))
      else
        let p ← skipWhile text (· == 32) text.fuel (space + 1 + 10)
        if x = 48 then
          readDelete text addr { st with p := p }
        else
          readInsert text addr { st with p := p }
    else
      none
  else
    some (.error st)

/-- The loop over the lines, which an empty line ends. -/
def readLines (text : Mapped) : Nat → ReadState → Reading
  | 0, _ => none
  | fuel + 1, st =>
      if st.p = text.bytes.length then
        some (.ok st)
      else do
        let x ← text.readAt st.p
        if x = 10 then
          some (.ok st)
        else
          (readLine text st).andThen fun next =>
            readLines text fuel { next with p := next.p + 1 }

/-- `patch_info`; the page of the entries may be unmapped. -/
structure PatchInfo where
  entries : List PatchFormat
  mapped : Bool
  sizeUpdown : U32
  deriving DecidableEq, Repr

/--
The patch of the last state.  `munmap` is called for the pointer behind the last
entry: without entries that is the page itself, and with some it is no page's
begin or a page behind them.
-/
def ReadState.info (st : ReadState) : PatchInfo :=
  ⟨st.entries, decide (st.entries ≠ []), st.sizeUpdown⟩

/-- The patch that an error leaves; `munmap` is not called. -/
def ReadState.errorInfo (st : ReadState) : PatchInfo :=
  ⟨st.entries, true, st.sizeUpdown⟩

/-- What `read_patch` returns, with the patch. -/
def returned : Except ReadState ReadState → Bool × PatchInfo
  | .error last => (false, last.errorInfo)
  | .ok last => (true, last.info)

/-- `read_patch` -/
def readPatch (patch : List UInt8) : Option (Bool × PatchInfo) :=
  let text := Mapped.ofFile patch
  (readLines text text.fuel ⟨0, [], 0, 0⟩).map returned

/-! ## Applying the patch -/

/-- `_pf`; the rest of the page is zero. -/
def PatchInfo.entryAt (edit : PatchInfo) (pf : Nat) : Option PatchFormat :=
  if edit.mapped = true ∧ pf < entryMax then
    some (edit.entries.getD pf .zero)
  else
    none

/-- The pointers `p` and `_pf`, and what is written in front of `q`. -/
structure ApplyState where
  p : Nat
  pf : Nat
  out : List UInt8
  deriving DecidableEq, Repr

/-- The `switch` for the command of an entry. -/
def editing (entry : PatchFormat) (mapSize : Nat) (st : ApplyState) :
    Option ApplyState :=
  if entry.cmd = 1 then
    let elem := entry.elem.take entry.length.toNat
    if st.out.length + elem.length ≤ mapSize then
      some { st with out := st.out ++ elem }
    else
      none
  else if entry.cmd = 0 then
    some { st with p := st.p + entry.length.toNat }
  else
    some st

/--
`apply`.  `_pi->end`, which `_pf` is taken never to equal, is a pointer into the
patch's text or, behind a "parse error", not set.
-/
def apply (input : Mapped) (edit : PatchInfo) (mapSize : Nat) :
    Nat → ApplyState → Option ApplyState
  | 0, _ => none
  | fuel + 1, st =>
      if st.p = input.bytes.length ∨ st.out.length = mapSize then
        some st
      else do
        let entry ← edit.entryAt st.pf
        if BitVec.ofNat 64 st.p = entry.addr then
          let edited ← editing entry mapSize st
          apply input edit mapSize fuel { edited with pf := st.pf + 1 }
        else
          let x ← input.readAt st.p
          apply input edit mapSize fuel
            { st with p := st.p + 1, out := st.out ++ [x] }

/-- The length of the output file: `lseek` refuses a negative offset. -/
def fileLength (size : U64) : Nat :=
  if size.toNat < 2 ^ 63 then
    size.toNat + 1
  else
    1

/-- The output file: a mapping without pages is an error when it is saved. -/
def applyPatch (bytes : List UInt8) (edit : PatchInfo) (fuel : Nat) :
    Option (List UInt8) := do
  let input := Mapped.ofFile bytes
  let outputFileSize : U64 :=
    BitVec.ofNat 64 bytes.length - 1 + edit.sizeUpdown.signExtend 64
  let mapSize := mapSizeOf outputFileSize
  let st ← apply input edit mapSize fuel ⟨0, 0, []⟩
  if mapSize = 0 then
    none
  else
    let length := fileLength outputFileSize
    some ((st.out ++ List.replicate length 0).take length)

/--
The tool: the input and the patch file give the output file.  A "parse error" is
printed, and what is read is applied.
-/
def bipatch (bytes patch : List UInt8) (fuel : Nat) : Option (List UInt8) := do
  let read ← readPatch patch
  applyPatch bytes read.2 fuel

/-! ## What a patch is for -/

/-- A line of a patch file. -/
inductive Edit where
  | insert (addr : U32) (bytes : List UInt8)
  | delete (addr : U32) (count : UInt8)
  deriving DecidableEq, Repr

namespace Edit

/-- The address of an edit. -/
def addr : Edit → Nat
  | insert addr _ => addr.toNat
  | delete addr _ => addr.toNat

/-- The bytes that an edit inserts. -/
def bytes : Edit → List UInt8
  | insert _ bytes => bytes
  | delete _ _ => []

/-- The number of bytes that an edit deletes. -/
def count : Edit → Nat
  | insert _ _ => 0
  | delete _ count => count.toNat

/-- The first address behind an edit. -/
def stop (edit : Edit) : Nat :=
  edit.addr + edit.count

/-- The byte at the address is deleted. -/
def Deletes (edit : Edit) (address : Nat) : Prop :=
  edit.addr ≤ address ∧ address < edit.stop

/-- An edit without the values of the bytes. -/
def shape (edit : Edit) : Nat × Nat × Nat × Bool :=
  (edit.addr, edit.bytes.length, edit.count,
    match edit with
    | insert _ _ => true
    | delete _ _ => false)

/-- The last `count` digits of a number. -/
def digits (value : Nat) : Nat → List UInt8
  | 0 => []
  | count + 1 =>
      digits (value / 16) count ++
        [UInt8.ofNat
          (if value % 16 < 10 then 48 + value % 16
            else 87 + value % 16)]

/-- A number as the patch file has it. -/
def number (value count : Nat) : List UInt8 :=
  48 :: 120 :: digits value count

/-- The line of an edit. -/
def line : Edit → List UInt8
  | insert addr bytes =>
      [49, 32] ++ number addr.toNat 8 ++
        bytes.flatMap (fun byte => 32 :: number byte.toNat 2) ++ [10]
  | delete addr count =>
      [48, 32] ++ number addr.toNat 8 ++
        32 :: number count.toNat 2 ++ [10]

end Edit

/-- The patch file of a list of edits. -/
def patchFile (edits : List Edit) : List UInt8 :=
  edits.flatMap Edit.line

/-- The number of inserted bytes. -/
def inserted (edits : List Edit) : Nat :=
  (edits.map fun edit => edit.bytes.length).sum

/-- The number of deleted bytes. -/
def removed (edits : List Edit) : Nat :=
  (edits.map Edit.count).sum

/-- The input from an address on, with the edits performed. -/
def edited (input : List UInt8) : Nat → List Edit → List UInt8
  | from_, [] => input.drop from_
  | from_, edit :: later =>
      (input.take edit.addr).drop from_ ++ edit.bytes ++
        edited input (max from_ edit.stop) later

/--
Edits sorted by address with addresses at most the input length and
non-overlapping deletions inside the input.
-/
structure Edits (length : Nat) (edits : List Edit) : Prop where
  sorted : edits.Pairwise fun one two => one.addr ≤ two.addr
  inside : ∀ edit ∈ edits, edit.stop ≤ length
  apart :
    edits.Pairwise fun one two =>
      ∀ address, ¬ (one.Deletes address ∧ two.Deletes address)

/-- The tool ends with the edited input as the output file. -/
def AppliesTo (input : List UInt8) (edits : List Edit) : Prop :=
  ∃ fuel output,
    bipatch input (patchFile edits) fuel = some output ∧
      output = edited input 0 edits ∧
      output.length + removed edits = input.length + inserted edits

/-- The edits are applied, whatever the bytes of the files are. -/
def Applies (length : Nat) (edits : List Edit) : Prop :=
  ∀ input filled,
    input.length = length → filled.map Edit.shape = edits.map Edit.shape →
      AppliesTo input filled

/-! ## The edits that are found -/

/-- Nothing is inserted, and what is deleted is the end of the input. -/
def TailOnly (length : Nat) (edits : List Edit) : Prop :=
  inserted edits = 0 ∧
    ∀ edit ∈ edits, 0 < edit.count → length ≤ edit.addr + removed edits

/--
From an address and an entry on: every edit is at an address below the input's
length and the sign bit and not before the address, up to edits that the length
of the file performs.  The zero entry behind the last edit is at address 0, and
the page has an end.
-/
def Followed (length : Nat) : Nat → Nat → List Edit → Prop
  | from_, pf, [] => from_ = length ∨ (from_ ≠ 0 ∧ pf < entryMax)
  | from_, pf, edit :: later =>
      if from_ ≤ edit.addr ∧ edit.addr < length ∧ edit.addr < 2 ^ 31 then
        Followed length edit.stop (pf + 1) later
      else
        TailOnly length (edit :: later)

/-- The condition for a patch to be applied. -/
structure Appliable (length : Nat) (edits : List Edit) : Prop where
  room : edits.length ≤ entryMax
  data : inserted edits ≤ pageSize
  inputSize : length + 0x1000 < 2 ^ 32
  outputSize : length + inserted edits + 0xfff < 2 ^ 32 + removed edits
  notEmpty : removed edits < length + inserted edits
  followed : Followed length 0 0 edits

end BinTools.Bipatch
