import BinTools.ElfDynamicValues

namespace BinTools.Elf

/-!
# Tables that fill a chunk

When a chunk is full its size goes to its own section header and a new chunk is
opened, but the running size of the table goes on.  That size is later written
to the header of the last chunk, so the sections of a table that filled a chunk
are longer than the size that is recorded for it.
-/

/-- The memory at a chunk: its entries, zeros, and what lies behind it. -/
def Chunk.memory
    {Entry : Type} (encode : Entry → List UInt8) (capacity : Nat)
    (outside : ByteBuffer.Bytes) (chunk : Chunk Entry) : ByteBuffer.Bytes :=
  ByteBuffer.store (fun i => if i < capacity then 0 else outside i) 0
    ((chunk.entries.flatMap encode).take capacity)

/-- `write_raw_data` for one chunk. -/
def Chunk.emitted
    {Entry : Type} (encode : Entry → List UInt8) (capacity : Nat)
    (outside : ByteBuffer.Bytes) (chunk : Chunk Entry) : List UInt8 :=
  ByteBuffer.load (chunk.memory encode capacity outside) 0
    (osWrite chunk.shSize)

/-- `write_raw_data` for the chunks of a table in order. -/
def Table.emitted
    {Entry : Type} (encode : Entry → List UInt8) (capacity : Nat)
    (outside : ByteBuffer.Bytes) (table : Table Entry) : List UInt8 :=
  (table.closed ++ [table.current]).flatMap
    (Chunk.emitted encode capacity outside)

/-- A `size_t`. -/
def encodeAddress (addr : Nat) : List UInt8 :=
  ByteBuffer.littleEndian 8 addr

/-- An `Elf64_Sym` as `add_dynsym_entry` fills it: a global function. -/
def encodeSym (sym : DynsymEntry) : List UInt8 :=
  ByteBuffer.littleEndian 4 sym.stName ++ [0x12, 0] ++
    ByteBuffer.littleEndian 2 sym.stShndx ++
      ByteBuffer.littleEndian 8 sym.stValue ++ ByteBuffer.littleEndian 8 0

/-- An `Elf64_Rela`. -/
def encodeRela (rela : RelaEntry) : List UInt8 :=
  ByteBuffer.littleEndian 8 rela.rOffset ++
    ByteBuffer.littleEndian 4 rela.relType ++
      ByteBuffer.littleEndian 4 rela.symIndex ++
        ByteBuffer.littleEndian 8 rela.rAddend

/--
The section of a table starts with the given entries, and it is as long as the
size recorded for the table.
-/
def EmittedRight
    {Entry : Type} (encode : Entry → List UInt8) (capacity : Nat)
    (outside : ByteBuffer.Bytes) (entries : List Entry)
    (table : Table Entry) (recorded : Nat) : Prop :=
  entries.flatMap encode <+:
      (table.setShSize recorded).emitted encode capacity outside ∧
    ((table.setShSize recorded).emitted encode capacity outside).length =
      recorded

/-- The call behind an entry of `.init_array`. -/
def addInitArrays (d : Dynamic) (addrs : List Nat) : Option Dynamic :=
  addrs.foldlM Dynamic.addInitArray d

/-- A call of `add_rela_plt_entry`. -/
structure RelaCall where
  offset : Nat
  symIndex : Nat
  relType : Nat
  addend : Nat

/-- The calls behind the records of `.rela.plt`. -/
def addRelaPltEntries (d : Dynamic) (calls : List RelaCall) : Option Dynamic :=
  calls.foldlM
    (fun (d : Dynamic) (call : RelaCall) =>
      d.addRelaPltEntry call.offset call.symIndex call.relType call.addend)
    d

/-- The record that a call appends. -/
def RelaCall.entry (baseAddress : Nat) (call : RelaCall) : RelaEntry where
  rOffset := sub64 call.offset baseAddress
  symIndex := call.symIndex
  relType := call.relType
  rAddend := sub64 call.addend baseAddress

/-- The calls behind the symbols of `.dynsym`. -/
def addDynsymEntries (d : Dynamic) (syms : List DynsymEntry) : Option Dynamic :=
  syms.foldlM
    (fun (d : Dynamic) (sym : DynsymEntry) =>
      d.addDynsymEntry sym.stName sym.stShndx sym.stValue)
    d

/-- `.init_array` is right after entries were appended for some addresses. -/
def InitArrayRight
    (outside : ByteBuffer.Bytes) (start : Dynamic) (addrs : List Nat) : Prop :=
  ∃ d ∈ addInitArrays start addrs,
    EmittedRight encodeAddress (arrayNum * 8) outside addrs d.initArray
      d.initArray.size

/-- `.rela.plt` is right after records were appended. -/
def RelaPltRight
    (outside : ByteBuffer.Bytes) (start : Dynamic) (calls : List RelaCall) :
    Prop :=
  ∃ d ∈ addRelaPltEntries start calls,
    EmittedRight encodeRela (defaultNum * sizeofRela) outside
      (calls.map (RelaCall.entry start.baseAddress)) d.relaPlt d.relaPlt.size

/--
`.dynsym` is right after symbols were appended behind the null symbol, and the
index handed on after each of them is its position.
-/
def DynsymRight
    (outside : ByteBuffer.Bytes) (start : Dynamic)
    (syms : List DynsymEntry) : Prop :=
  (∃ d ∈ addDynsymEntries start syms,
      EmittedRight encodeSym (defaultNum * sizeofSym) outside
        (({} : DynsymEntry) :: syms) d.dynsym d.dynsymBytes) ∧
    ∀ count ≤ syms.length,
      ∃ d ∈ addDynsymEntries start (syms.take count),
        d.dynsym.size - 1 = count

/-! ## The chunks of a table -/

/--
The chunks behind a list of entries: one that has room, or one that was filled
and given the recorded size, and a second one for the rest.
-/
inductive Filling
    {Entry : Type} (capacity filledSize : Nat)
    (entries : List Entry) (table : Table Entry) : Prop where
  | first
      (closed : table.closed = [])
      (current : table.current.entries = entries)
      (room : entries.length < capacity)
  | second
      (closed :
        table.closed =
          [{ entries := entries.take capacity, shSize := filledSize }])
      (current : table.current.entries = entries.drop capacity)
      (filled : capacity ≤ entries.length)
      (room : entries.length ≤ 2 * capacity)

namespace Filling

variable
  {Entry : Type} {capacity filledSize : Nat} {entries : List Entry}
  {table written : Table Entry} {entry : Entry}

/-- An entry behind which the chunk still has room. -/
theorem stay
    (filling : Filling capacity filledSize entries table)
    (writes : table.write capacity entry = some written)
    (notFull : entries.length + 1 ≠ capacity) :
    Filling capacity filledSize (entries ++ [entry]) written := by
  obtain ⟨inChunk, rfl⟩ := Table.write_eq_some writes
  have oneMore : (entries ++ [entry]).length = entries.length + 1 := by simp
  cases filling with
  | first closed current room =>
      refine .first closed ?_ ?_
      · simp [current]
      · omega
  | second closed current filled room =>
      rw [current, List.length_drop] at inChunk
      refine .second ?_ ?_ ?_ ?_
      · simp only [closed, List.take_append_of_le_length filled]
      · simp only [current, List.drop_append_of_le_length filled]
      · omega
      · omega

/-- The entry that fills the first chunk. -/
theorem roll
    (filling : Filling capacity filledSize entries table)
    (writes : table.write capacity entry = some written)
    (full : entries.length + 1 = capacity) :
    Filling capacity filledSize (entries ++ [entry])
      { written with size := filledSize }.addDynamicSc := by
  obtain ⟨_, rfl⟩ := Table.write_eq_some writes
  have allEntries : (entries ++ [entry]).length = capacity := by
    simpa using full
  cases filling with
  | first closed current room =>
      refine .second ?_ ?_ allEntries.ge (by omega)
      · simp [Table.addDynamicSc, closed, current,
          List.take_of_length_le allEntries.le]
      · simp [Table.addDynamicSc, List.drop_of_length_le allEntries.le]
  | second closed current filled room => omega

end Filling

/-! ## The bytes that are emitted -/

/-- A section is as long as its header says. -/
theorem Chunk.length_emitted
    {Entry : Type} (encode : Entry → List UInt8) (capacity : Nat)
    (outside : ByteBuffer.Bytes) (chunk : Chunk Entry) :
    (chunk.emitted encode capacity outside).length = osWrite chunk.shSize := by
  simp [Chunk.emitted, ByteBuffer.load]

/-- A section starts with the entries that it has room for. -/
theorem Chunk.prefix_emitted
    {Entry : Type} {encode : Entry → List UInt8} {capacity : Nat}
    (outside : ByteBuffer.Bytes) (chunk : Chunk Entry)
    (inChunk : (chunk.entries.flatMap encode).length ≤ capacity)
    (inSection :
      (chunk.entries.flatMap encode).length ≤ osWrite chunk.shSize) :
    chunk.entries.flatMap encode <+:
      chunk.emitted encode capacity outside := by
  have stored :
      ByteBuffer.load (chunk.memory encode capacity outside) 0
        (chunk.entries.flatMap encode).length =
          chunk.entries.flatMap encode := by
    rw [Chunk.memory, List.take_of_length_le inChunk]
    exact ByteBuffer.load_store _ 0 _
  have part :=
    ByteBuffer.load_prefix (chunk.memory encode capacity outside) 0 inSection
  rwa [stored] at part

/-- Entries of one size. -/
theorem length_flatMap_encode
    {Entry : Type} {encode : Entry → List UInt8} {entrySize : Nat}
    (sameSize : ∀ entry, (encode entry).length = entrySize)
    (entries : List Entry) :
    (entries.flatMap encode).length = entries.length * entrySize := by
  simp [List.length_flatMap, sameSize]

/-- A table is right as long as it has not filled its first chunk. -/
theorem Filling.emittedRight_iff
    {Entry : Type} {encode : Entry → List UInt8} {entrySize : Nat}
    {capacity filledSize recorded : Nat} {outside : ByteBuffer.Bytes}
    {entries : List Entry} {table : Table Entry}
    (filling : Filling capacity filledSize entries table)
    (sameSize : ∀ entry, (encode entry).length = entrySize)
    (filledPositive : 0 < filledSize)
    (recordedAll : entries.length * entrySize ≤ recorded)
    (transferable : recorded ≤ maxTransfer) :
    EmittedRight encode (capacity * entrySize) outside entries table
        recorded ↔
      entries.length < capacity := by
  have wholeSection : osWrite recorded = recorded :=
    Nat.min_eq_left transferable
  cases filling with
  | first closed current room =>
      refine iff_of_true ⟨?_, ?_⟩ room
      · have bytes := length_flatMap_encode sameSize entries
        have inChunk :
            entries.length * entrySize ≤ capacity * entrySize :=
          Nat.mul_le_mul_right _ room.le
        have start :=
          Chunk.prefix_emitted outside
            { entries := entries, shSize := recorded }
            (bytes.trans_le inChunk)
            (bytes.trans_le (recordedAll.trans_eq wholeSection.symm))
        simpa [Table.emitted, Table.setShSize, closed, current] using start
      · simp [Table.emitted, Table.setShSize, closed, Chunk.length_emitted,
          wholeSection]
  | second closed current filled room =>
      refine iff_of_false ?_ filled.not_gt
      rintro ⟨_, sizes⟩
      simp only [Table.emitted, Table.setShSize, closed,
        List.flatMap_append, List.flatMap_singleton, List.length_append,
        Chunk.length_emitted, wholeSection] at sizes
      have written : 0 < osWrite filledSize :=
        Nat.lt_min.mpr ⟨filledPositive, by decide⟩
      omega

/-! ## Appending to a table whose count is in bytes -/

/-- Append an entry and count its bytes. -/
def Table.append
    {Entry : Type} (table : Table Entry) (capacity entrySize : Nat)
    (entry : Entry) : Option (Table Entry) :=
  (table.write capacity entry).map fun table =>
    let table := { table with size := table.size + entrySize }
    if table.size = capacity * entrySize then
      table.addDynamicSc
    else
      table

/-- Some entries in chunks, their bytes counted. -/
structure Counted
    {Entry : Type} (capacity entrySize : Nat) (entries : List Entry)
    (table : Table Entry) : Prop where
  filling : Filling capacity (capacity * entrySize) entries table
  size : table.size = entries.length * entrySize

namespace Counted

variable
  {Entry : Type} {capacity entrySize : Nat} {entries : List Entry}
  {table next : Table Entry} {entry : Entry}

/-- A table without entries. -/
theorem empty (positive : 0 < capacity) :
    Counted capacity entrySize [] ({} : Table Entry) where
  filling := .first rfl rfl positive
  size := (Nat.zero_mul _).symm

/-- An append keeps count, also when it fills the chunk. -/
theorem append
    (counted : Counted capacity entrySize entries table)
    (positive : 0 < entrySize)
    (appends : table.append capacity entrySize entry = some next) :
    Counted capacity entrySize (entries ++ [entry]) next := by
  obtain ⟨written, writes, rfl⟩ := Option.map_eq_some_iff.mp appends
  have size :
      written.size + entrySize = (entries ++ [entry]).length * entrySize := by
    obtain ⟨_, rfl⟩ := Table.write_eq_some writes
    simp [counted.size, Nat.add_mul]
  have atLimit :
      written.size + entrySize = capacity * entrySize ↔
        entries.length + 1 = capacity := by
    rw [size, List.length_append, List.length_singleton]
    exact Nat.mul_left_inj positive.ne'
  dsimp only
  split_ifs with full
  · refine ⟨?_, size⟩
    have rolled := counted.filling.roll writes (atLimit.mp full)
    rwa [full]
  · refine ⟨?_, size⟩
    have stayed :=
      counted.filling.stay writes fun filled => full (atLimit.mpr filled)
    cases stayed with
    | first closed current room => exact .first closed current room
    | second closed current filled room =>
        exact .second closed current filled room

/-- An append succeeds while the first chunk has room. -/
theorem exists_append
    (counted : Counted capacity entrySize entries table)
    (room : entries.length < capacity) (entry : Entry) :
    ∃ next, table.append capacity entrySize entry = some next := by
  have inChunk : table.current.entries.length < capacity := by
    cases counted.filling with
    | first closed current room => rwa [current]
    | second closed current filled _ => omega
  simp [Table.append, Table.write, inChunk]

/-- A table is right as long as it has not filled its first chunk. -/
theorem emittedRight_iff
    {encode : Entry → List UInt8} {outside : ByteBuffer.Bytes}
    (counted : Counted capacity entrySize entries table)
    (sameSize : ∀ entry, (encode entry).length = entrySize)
    (positive : 0 < capacity * entrySize)
    (transferable : 2 * capacity * entrySize ≤ maxTransfer) :
    EmittedRight encode (capacity * entrySize) outside entries table
        table.size ↔
      entries.length < capacity := by
  have room : entries.length ≤ 2 * capacity := by
    cases counted.filling with
    | first _ _ room => omega
    | second _ _ _ room => exact room
  refine counted.filling.emittedRight_iff sameSize positive
    counted.size.ge ?_
  rw [counted.size]
  exact (Nat.mul_le_mul_right _ room).trans transferable

end Counted

/-! ## The three tables -/

/-- `.init_array` takes an address and counts its bytes. -/
theorem Dynamic.addInitArray_eq (d : Dynamic) (addr : Nat) :
    d.addInitArray addr =
      (d.initArray.append arrayNum 8 addr).map fun initArray =>
        { d with initArray := initArray } := by
  simp only [Dynamic.addInitArray, Table.append, Option.map_map]
  rfl

/-- `.rela.plt` takes a record and counts its bytes. -/
theorem Dynamic.addRelaPltEntry_eq (d : Dynamic) (call : RelaCall) :
    d.addRelaPltEntry call.offset call.symIndex call.relType call.addend =
      (d.relaPlt.append defaultNum sizeofRela
        (call.entry d.baseAddress)).map fun relaPlt =>
          { d with relaPlt := relaPlt } := by
  simp only [Dynamic.addRelaPltEntry, Table.append, Option.map_map]
  rfl

/-- Some addresses in `.init_array`. -/
def AddressesCounted (d : Dynamic) (done : List Nat) : Prop :=
  Counted arrayNum 8 done d.initArray

/-- `.init_array` keeps count of its addresses. -/
theorem counted_addInitArray
    {state next : Dynamic} {done : List Nat} {addr : Nat}
    (counted : AddressesCounted state done)
    (adds : state.addInitArray addr = some next) :
    AddressesCounted next (done ++ [addr]) := by
  rw [Dynamic.addInitArray_eq] at adds
  obtain ⟨initArray, appends, rfl⟩ := Option.map_eq_some_iff.mp adds
  exact counted.append (by decide) appends

/-- `.init_array` is right as long as it has not filled its first chunk. -/
theorem initArrayRight_iff
    (outside : ByteBuffer.Bytes) {start : Dynamic}
    (empty : start.initArray = {}) (addrs : List Nat) :
    InitArrayRight outside start addrs ↔ addrs.length < arrayNum := by
  have initially : AddressesCounted start [] := by
    rw [AddressesCounted, empty]
    exact .empty (by decide)
  have whenAdded :
      ∀ d, addInitArrays start addrs = some d →
        (EmittedRight encodeAddress (arrayNum * 8) outside addrs d.initArray
            d.initArray.size ↔
          addrs.length < arrayNum) := by
    intro d adds
    have counted :=
      GuardedRun.invariant_of_foldlM AddressesCounted
        (fun _ _ _ _ => counted_addInitArray) initially adds
    exact
      counted.emittedRight_iff (fun _ => ByteBuffer.length_littleEndian 8 _)
        (by decide) (by decide)
  constructor
  · rintro ⟨d, adds, right⟩
    exact (whenAdded d adds).mp right
  · intro room
    obtain ⟨d, adds⟩ :=
      GuardedRun.exists_foldlM AddressesCounted
        (fun _ _ _ _ => counted_addInitArray)
        (fun state done addr counted inChunk => by
          obtain ⟨initArray, appends⟩ := counted.exists_append inChunk addr
          exact ⟨_, by rw [Dynamic.addInitArray_eq, appends]; rfl⟩)
        initially room.le
    exact ⟨d, adds, (whenAdded d adds).mpr room⟩

/-- An `Elf64_Rela` takes its size. -/
theorem length_encodeRela (rela : RelaEntry) :
    (encodeRela rela).length = sizeofRela := by
  simp [encodeRela, sizeofRela]

/-- The records of some calls in `.rela.plt`. -/
def RecordsCounted
    (baseAddress : Nat) (d : Dynamic) (done : List RelaCall) : Prop :=
  d.baseAddress = baseAddress ∧
    Counted defaultNum sizeofRela (done.map (RelaCall.entry baseAddress))
      d.relaPlt

/-- `.rela.plt` keeps count of its records. -/
theorem counted_addRelaPltEntry
    {baseAddress : Nat} {state next : Dynamic} {done : List RelaCall}
    {call : RelaCall}
    (counted : RecordsCounted baseAddress state done)
    (adds :
      state.addRelaPltEntry call.offset call.symIndex call.relType
        call.addend = some next) :
    RecordsCounted baseAddress next (done ++ [call]) := by
  obtain ⟨rfl, counted⟩ := counted
  rw [Dynamic.addRelaPltEntry_eq] at adds
  obtain ⟨relaPlt, appends, rfl⟩ := Option.map_eq_some_iff.mp adds
  refine ⟨rfl, ?_⟩
  rw [List.map_append]
  exact counted.append (by decide) appends

/-- `.rela.plt` is right as long as it has not filled its first chunk. -/
theorem relaPltRight_iff
    (outside : ByteBuffer.Bytes) {start : Dynamic}
    (empty : start.relaPlt = {}) (calls : List RelaCall) :
    RelaPltRight outside start calls ↔ calls.length < defaultNum := by
  have initially : RecordsCounted start.baseAddress start [] := by
    refine ⟨rfl, ?_⟩
    rw [empty]
    exact .empty (by decide)
  have whenAdded :
      ∀ d, addRelaPltEntries start calls = some d →
        (EmittedRight encodeRela (defaultNum * sizeofRela) outside
            (calls.map (RelaCall.entry start.baseAddress)) d.relaPlt
            d.relaPlt.size ↔
          calls.length < defaultNum) := by
    intro d adds
    have counted :=
      GuardedRun.invariant_of_foldlM (RecordsCounted start.baseAddress)
        (fun _ _ _ _ => counted_addRelaPltEntry) initially adds
    rw [counted.2.emittedRight_iff length_encodeRela (by decide) (by decide),
      List.length_map]
  constructor
  · rintro ⟨d, adds, right⟩
    exact (whenAdded d adds).mp right
  · intro room
    obtain ⟨d, adds⟩ :=
      GuardedRun.exists_foldlM (RecordsCounted start.baseAddress)
        (fun _ _ _ _ => counted_addRelaPltEntry)
        (fun state done call counted inChunk => by
          obtain ⟨relaPlt, appends⟩ :=
            counted.2.exists_append (by rwa [List.length_map])
              (call.entry state.baseAddress)
          exact ⟨_, by rw [Dynamic.addRelaPltEntry_eq, appends]; rfl⟩)
        initially room.le
    exact ⟨d, adds, (whenAdded d adds).mpr room⟩

/-- An `Elf64_Sym` takes its size. -/
theorem length_encodeSym (sym : DynsymEntry) :
    (encodeSym sym).length = sizeofSym := by
  simp [encodeSym, sizeofSym]

/--
What is in `num` behind some symbols: when the chunk was filled, its size in
bytes was put there and counted on.
-/
def symbolNum (count : Nat) : Nat :=
  if count < defaultNum then
    count
  else
    count + (defaultNum * sizeofSym - defaultNum)

/-- Beyond the first chunk the count is too large by a fixed amount. -/
theorem symbolNum_cases (count : Nat) :
    (count < 0x3000 ∧ symbolNum count = count) ∨
      (0x3000 ≤ count ∧ symbolNum count = count + 0x45000) := by
  by_cases inChunk : count < 0x3000
  · exact Or.inl ⟨inChunk, if_pos inChunk⟩
  · exact Or.inr ⟨Nat.le_of_not_lt inChunk, if_neg inChunk⟩

/-- Some symbols in `.dynsym` behind the null symbol. -/
structure SymbolsCounted (d : Dynamic) (syms : List DynsymEntry) : Prop where
  filling :
    Filling defaultNum (defaultNum * sizeofSym) (({} : DynsymEntry) :: syms)
      d.dynsym
  num : d.dynsym.size = symbolNum (syms.length + 1)

namespace SymbolsCounted

variable {d next : Dynamic} {syms : List DynsymEntry} {sym : DynsymEntry}

/-- There are two chunks at most. -/
theorem length_le (counted : SymbolsCounted d syms) :
    syms.length + 1 ≤ 2 * defaultNum := by
  cases counted.filling with
  | first _ _ room =>
      rw [List.length_cons] at room
      omega
  | second _ _ _ room => simpa using room

/-- The next count, which does not wrap around. -/
theorem num_succ (counted : SymbolsCounted d syms) :
    u32 (d.dynsym.size + 1) = symbolNum (syms.length + 1) + 1 := by
  have chunks := counted.length_le
  rw [counted.num]
  apply Nat.mod_eq_of_lt
  simp only [defaultNum] at chunks
  have cases := symbolNum_cases (syms.length + 1)
  omega

/-- A symbol keeps count, also when it fills the chunk. -/
theorem addDynsymEntry
    (counted : SymbolsCounted d syms)
    (adds :
      d.addDynsymEntry sym.stName sym.stShndx sym.stValue = some next) :
    SymbolsCounted next (syms ++ [sym]) := by
  obtain ⟨written, writes, rfl⟩ := Option.map_eq_some_iff.mp adds
  have sameSize : written.size = d.dynsym.size := by
    obtain ⟨_, rfl⟩ := Table.write_eq_some writes
    rfl
  have cases := symbolNum_cases (syms.length + 1)
  dsimp only
  rw [sameSize, counted.num_succ]
  split_ifs with full
  · have filled : syms.length + 1 + 1 = defaultNum := by
      simp only [defaultNum, sizeofSym] at full ⊢
      omega
    refine ⟨counted.filling.roll writes filled, ?_⟩
    simp only [Table.addDynamicSc, symbolNum, List.length_append,
      List.length_singleton, filled, defaultNum, sizeofSym]
    rfl
  · have notFilled : syms.length + 1 + 1 ≠ defaultNum := by
      simp only [defaultNum, sizeofSym] at full ⊢
      omega
    refine ⟨?_, ?_⟩
    · have stayed := counted.filling.stay writes notFilled
      cases stayed with
      | first closed current room => exact .first closed current room
      | second closed current filled room =>
          exact .second closed current filled room
    · have casesAfter := symbolNum_cases (syms.length + 1 + 1)
      simp only [defaultNum] at notFilled
      simp only [List.length_append, List.length_singleton]
      omega

/-- A symbol can be added while the first chunk has room. -/
theorem exists_addDynsymEntry
    (counted : SymbolsCounted d syms)
    (room : syms.length + 1 < defaultNum) (sym : DynsymEntry) :
    ∃ next,
      d.addDynsymEntry sym.stName sym.stShndx sym.stValue = some next := by
  have inChunk : d.dynsym.current.entries.length < defaultNum := by
    cases counted.filling with
    | first closed current room => rwa [current]
    | second closed current filled _ =>
        rw [List.length_cons] at filled
        omega
  simp [Dynamic.addDynsymEntry, Table.write, inChunk]

/-- `.dynsym` is right as long as it has not filled its first chunk. -/
theorem emittedRight_iff
    (outside : ByteBuffer.Bytes) (counted : SymbolsCounted d syms) :
    EmittedRight encodeSym (defaultNum * sizeofSym) outside
        (({} : DynsymEntry) :: syms) d.dynsym d.dynsymBytes ↔
      syms.length + 1 < defaultNum := by
  have chunks := counted.length_le
  have cases := symbolNum_cases (syms.length + 1)
  refine
    counted.filling.emittedRight_iff length_encodeSym (by decide) ?_ ?_
  · rw [Dynamic.dynsymBytes, counted.num, List.length_cons]
    exact Nat.mul_le_mul_right _ (by omega)
  · simp only [Dynamic.dynsymBytes, counted.num, defaultNum, sizeofSym,
      maxTransfer] at chunks ⊢
    omega

end SymbolsCounted

/-- The calls behind the symbols keep count. -/
theorem symbolsCounted_of_add
    {start d : Dynamic} {syms : List DynsymEntry}
    (initially : SymbolsCounted start [])
    (adds : addDynsymEntries start syms = some d) :
    SymbolsCounted d syms :=
  GuardedRun.invariant_of_foldlM SymbolsCounted
    (fun _ _ _ _ counted added => counted.addDynsymEntry added)
    initially adds

/-- `.dynsym` is right as long as it has not filled its first chunk. -/
theorem dynsymRight_iff
    (outside : ByteBuffer.Bytes) {start : Dynamic}
    (initially : SymbolsCounted start []) (syms : List DynsymEntry) :
    DynsymRight outside start syms ↔ syms.length + 1 < defaultNum := by
  constructor
  · rintro ⟨⟨d, adds, right⟩, _⟩
    exact
      ((symbolsCounted_of_add initially adds).emittedRight_iff outside).mp
        right
  · intro room
    have added :
        ∀ count ≤ syms.length,
          ∃ d ∈ addDynsymEntries start (syms.take count),
            SymbolsCounted d (syms.take count) := by
      intro count inSyms
      have short : (syms.take count).length ≤ defaultNum - 1 := by
        rw [List.length_take]
        omega
      obtain ⟨d, adds⟩ :=
        GuardedRun.exists_foldlM SymbolsCounted
          (fun _ _ _ _ counted added => counted.addDynsymEntry added)
          (fun state done sym counted inChunk =>
            counted.exists_addDynsymEntry (by omega) sym)
          initially short
      exact ⟨d, adds, symbolsCounted_of_add initially adds⟩
    refine ⟨?_, ?_⟩
    · obtain ⟨d, adds, counted⟩ := added syms.length le_rfl
      rw [List.take_length] at adds counted
      exact ⟨d, adds, (counted.emittedRight_iff outside).mpr room⟩
    · intro count inSyms
      obtain ⟨d, adds, counted⟩ := added count inSyms
      refine ⟨d, adds, ?_⟩
      have inChunk : count + 1 < defaultNum := by omega
      simp [counted.num, symbolNum, Nat.min_eq_left inSyms, inChunk]

/--
The three tables are right for some appends exactly when none of them fills its
first chunk: four addresses, or 0x3000 symbols or records, are too many.
-/
theorem growingTables_iff
    (outside : ByteBuffer.Bytes) (baseAddress pltAddress : Nat)
    (nbucket bloomSize bloomShift : U32)
    (addrs : List Nat) (syms : List DynsymEntry) (calls : List RelaCall) :
    let start :=
      Dynamic.init baseAddress pltAddress nbucket bloomSize bloomShift
    (InitArrayRight outside start addrs ∧ DynsymRight outside start syms ∧
        RelaPltRight outside start calls) ↔
      addrs.length < arrayNum ∧ syms.length + 1 < defaultNum ∧
        calls.length < defaultNum := by
  intro start
  have nullSymbol : SymbolsCounted start [] :=
    ⟨.first rfl rfl (by decide), rfl⟩
  rw [initArrayRight_iff outside rfl, dynsymRight_iff outside nullSymbol,
    relaPltRight_iff outside rfl]

/--
Four addresses fill the first chunk of `.init_array`: 64 bytes are written for
a table of 32.
-/
theorem not_initArrayRight_four :
    ¬ InitArrayRight (fun _ => 0)
        (Dynamic.init 0x400000 0x405000 1 1 0)
        [0x401000, 0x401010, 0x401020, 0x401030] := by
  rintro ⟨d, adds, _, sizes⟩
  cases adds
  exact absurd sizes (by decide)

end BinTools.Elf
