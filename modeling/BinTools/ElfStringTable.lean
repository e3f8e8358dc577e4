import BinTools.ElfGrowingTables

namespace BinTools.Elf

/-!
# The dynamic string table in memory

`add_dynstr_entry` copies a name into the chunk being filled, at the offset in
`size`, and leaves its terminator to the zeros of the fresh chunk.  A name that
does not fit goes to the front of a new chunk.  The offset that is returned is
`size` before the call: right for the first name in the second chunk, but
relative to the chunk for every name behind it.
-/

/-- An allocation of `.dynstr`, with the `sh_size` of its section header. -/
structure StringChunk where
  memory : ByteBuffer.Bytes
  shSize : Nat

/-- The chunks of `.dynstr`; `memory` is at `data_p`. -/
structure StringTable where
  closed : List StringChunk
  memory : ByteBuffer.Bytes
  size : Nat

namespace StringTable

/-- What `__malloc` returns: a chunk of zeros and what lies behind it. -/
def freshChunk (outside : ByteBuffer.Bytes) : ByteBuffer.Bytes :=
  fun i => if i < defaultNum then 0 else outside i

/-- `init_dynamic` and `add_dynamic_sc`: the empty string is there. -/
def init (outside : ByteBuffer.Bytes) : StringTable where
  closed := []
  memory := freshChunk outside
  size := 1

/-- `add_dynamic_sc` for a table that has a container. -/
def addDynamicSc
    (outside : ByteBuffer.Bytes) (table : StringTable) : StringTable where
  closed :=
    table.closed ++ [{ memory := table.memory, shSize := table.size }]
  memory := freshChunk outside
  size := table.size

/--
The copying loop of `add_dynstr_entry`, from `p` on: the last byte must be
inside of the chunk.
-/
def copy (table : StringTable) (p : Nat) (name : CString) :
    Option StringTable :=
  if p + name.length ≤ defaultNum then
    some
      { table with
        memory := ByteBuffer.store table.memory p name.bytes
        size := p + name.length + 1 }
  else
    none

/-- `add_dynstr_entry` -/
def addDynstrEntry
    (outside : ByteBuffer.Bytes) (table : StringTable) (name : CString) :
    Option (StringTable × Nat) :=
  let written :=
    if defaultNum < table.size + name.length then
      (table.addDynamicSc outside).copy 0 name
    else
      table.copy table.size name
  written.map fun written => (written, table.size)

/--
`write_raw_data` for the chunks in order, after `set_dynamic_entry` has put
`size` into the header of the last one.
-/
def emitted (table : StringTable) : List UInt8 :=
  let last : StringChunk := { memory := table.memory, shSize := table.size }
  (table.closed ++ [last]).flatMap fun chunk =>
    ByteBuffer.load chunk.memory 0 (osWrite chunk.shSize)

end StringTable

/-! ## The tables of the linker -/

/-- The chunks of a string table in memory. -/
def Table.strings
    (outside : ByteBuffer.Bytes) (table : Table UInt8) : StringTable where
  closed :=
    table.closed.map fun chunk =>
      { memory := chunk.memory (fun byte => [byte]) defaultNum outside
        shSize := chunk.shSize }
  memory := table.current.memory (fun byte => [byte]) defaultNum outside
  size := table.size

/-- The memory at a chunk that holds some bytes. -/
theorem Chunk.memory_bytes
    (outside : ByteBuffer.Bytes) (chunk : Chunk UInt8) :
    chunk.memory (fun byte => [byte]) defaultNum outside =
      ByteBuffer.store (StringTable.freshChunk outside) 0
        (chunk.entries.take defaultNum) := by
  rw [Chunk.memory, List.flatMap_singleton']
  rfl

/-- A name that is copied behind some bytes, and its terminator. -/
theorem store_freshChunk
    (outside : ByteBuffer.Bytes) (bytes : List UInt8) (name : CString)
    (room : bytes.length + name.length ≤ defaultNum) :
    ByteBuffer.store
        (ByteBuffer.store (StringTable.freshChunk outside) 0
          (bytes.take defaultNum))
        bytes.length name.bytes =
      ByteBuffer.store (StringTable.freshChunk outside) 0
        ((bytes ++ name.bytes ++ [0]).take defaultNum) := by
  have inChunk : bytes.length + name.bytes.length ≤ defaultNum := room
  have allBytes : bytes.take defaultNum = bytes :=
    List.take_of_length_le (by omega)
  funext position
  simp only [ByteBuffer.store, Nat.zero_le, ↓reduceIte, Nat.sub_zero,
    allBytes, List.getElem?_take]
  by_cases inside : position < defaultNum
  · rcases Nat.lt_or_ge position bytes.length with before | behind
    · have inFront : ¬ bytes.length ≤ position := by omega
      simp [inside, inFront, List.getElem?_append, before]
    · have notBefore : ¬ position < bytes.length := by omega
      simp only [behind, inside, ↓reduceIte, List.append_assoc,
        List.getElem?_append_right behind]
      rcases Nat.lt_or_ge (position - bytes.length) name.bytes.length with
        inName | behindName
      · simp [List.getElem?_append, inName]
      · have fresh : StringTable.freshChunk outside position = 0 :=
          if_pos inside
        have terminator :
            ([0][position - bytes.length - name.bytes.length]?).getD 0 =
              (0 : UInt8) := by
          cases position - bytes.length - name.bytes.length <;> rfl
        simp [List.getElem?_append_right behindName, behindName, behind, fresh,
          terminator]
  · have behind : bytes.length ≤ position := by omega
    have behindName : name.bytes.length ≤ position - bytes.length := by omega
    simp [inside, behind, behindName]

/-- The linker's `.dynstr` in memory is this string table. -/
theorem strings_addDynstrEntry
    (outside : ByteBuffer.Bytes) {d : Dynamic} (name : CString)
    (size : d.dynstr.size = d.dynstr.current.entries.length) :
    (d.dynstr.strings outside).addDynstrEntry outside name =
      (d.addDynstrEntry name).map fun (next, strOffset) =>
        (next.dynstr.strings outside, strOffset) := by
  have sameSize : (d.dynstr.strings outside).size = d.dynstr.size := rfl
  unfold StringTable.addDynstrEntry Dynamic.addDynstrEntry
  dsimp only
  rw [sameSize]
  by_cases full : defaultNum < d.dynstr.size + name.length
  · simp only [full, ↓reduceIte, StringTable.copy, Nat.zero_add]
    by_cases long : defaultNum < name.length
    · simp [long, Nat.not_le_of_lt long]
    · have copied := store_freshChunk outside [] name (by simpa using long)
      simpa [long, Nat.le_of_not_lt long, Table.strings, Chunk.memory_bytes,
        StringTable.addDynamicSc, Table.addDynamicSc] using copied
  · have fits : d.dynstr.size + name.length ≤ defaultNum :=
      Nat.le_of_not_lt full
    have copied :=
      store_freshChunk outside d.dynstr.current.entries name (by omega)
    rw [← size] at copied
    simpa [full, StringTable.copy, fits, Table.strings, Chunk.memory_bytes]
      using copied

/-! ## Adding names -/

/-- The string table and the offsets returned for the names so far. -/
structure Naming where
  table : StringTable
  offsets : List (Nat × CString)

namespace Naming

/-- No name was added yet. -/
def start (outside : ByteBuffer.Bytes) : Naming where
  table := .init outside
  offsets := []

/-- One call of `add_dynstr_entry`. -/
def add
    (outside : ByteBuffer.Bytes) (state : Naming) (name : CString) :
    Option Naming :=
  (state.table.addDynstrEntry outside name).map fun (table, strOffset) =>
    { table := table, offsets := state.offsets ++ [(strOffset, name)] }

/-- Every name stands in the emitted section at its offset. -/
def Right (state : Naming) : Prop :=
  ∀ entry ∈ state.offsets, StoredAt state.table.emitted entry.1 entry.2

/--
The first chunk is still open, and the name fits one chunk with its terminator,
which is not the first byte behind the first chunk.
-/
def Placeable (state : Naming) (name : CString) : Prop :=
  state.table.closed = [] ∧ name.length < defaultNum ∧
    state.table.size + name.length ≠ defaultNum

instance (state : Naming) (name : CString) :
    Decidable (state.Placeable name) :=
  inferInstanceAs
    (Decidable
      (state.table.closed = [] ∧ name.length < defaultNum ∧
        state.table.size + name.length ≠ defaultNum))

end Naming

/-- Bytes that were never written are zero. -/
def StringTable.Blank (table : StringTable) : Prop :=
  ∀ i, table.size ≤ i → i < defaultNum → table.memory i = 0

/-- What holds while names are placeable. -/
structure Packed (state : Naming) : Prop where
  right : state.Right
  size : state.table.closed = [] → state.table.size ≤ defaultNum
  blank : state.table.closed = [] → state.table.Blank

/-- What one chunk emits, when `write` takes all of it. -/
theorem emitted_of_closed
    {table : StringTable} (closed : table.closed = [])
    (size : table.size ≤ defaultNum) :
    table.emitted = ByteBuffer.load table.memory 0 table.size := by
  have wholeChunk : osWrite table.size = table.size :=
    Nat.min_eq_left (size.trans (by decide))
  simp [StringTable.emitted, closed, wholeChunk]

/-- A name copied into blank memory, read with the byte behind it. -/
theorem load_store_name
    {memory : ByteBuffer.Bytes} (p : Nat) (name : CString)
    (blank : memory (p + name.length) = 0) :
    ByteBuffer.load (ByteBuffer.store memory p name.bytes) 0
        (p + name.length + 1) =
      ByteBuffer.load memory 0 p ++ name.bytes ++ [0] := by
  have before :
      ByteBuffer.load (ByteBuffer.store memory p name.bytes) 0 p =
        ByteBuffer.load memory 0 p := by
    apply ByteBuffer.load_congr
    intro position _ inFront
    exact ByteBuffer.store_apply_of_outside (Or.inl (by omega))
  have copied :
      ByteBuffer.load (ByteBuffer.store memory p name.bytes) p
        name.length = name.bytes :=
    ByteBuffer.load_store _ p name.bytes
  have terminator :
      ByteBuffer.store memory p name.bytes (p + name.length) = 0 := by
    have behind : p + name.bytes.length ≤ p + name.length := le_rfl
    rw [ByteBuffer.store_apply_of_outside (Or.inr behind), blank]
  rw [ByteBuffer.load_add, ByteBuffer.load_add, before, Nat.zero_add, copied]
  simp [ByteBuffer.load, terminator]

/-- A new name behind everything that was emitted before. -/
theorem Naming.Right.append
    {state : Naming} {table : StringTable} {name : CString}
    (right : state.Right)
    (emitted :
      table.emitted = state.table.emitted ++ name.bytes ++ [0])
    (atEnd : state.table.emitted.length = state.table.size) :
    Naming.Right
      { table := table
        offsets := state.offsets ++ [(state.table.size, name)] } := by
  intro entry member
  rcases List.mem_append.mp member with earlier | new
  · dsimp only
    rw [emitted, List.append_assoc]
    exact (right entry earlier).append _
  · rw [List.mem_singleton.mp new]
    dsimp only
    rw [emitted, ← atEnd]
    exact storedAt_end _ _

/-- A name that fits is copied behind the names before. -/
theorem addDynstrEntry_of_fits
    (outside : ByteBuffer.Bytes) {table : StringTable} {name : CString}
    (fits : table.size + name.length ≤ defaultNum) :
    table.addDynstrEntry outside name =
      some
        ({ table with
            memory := ByteBuffer.store table.memory table.size name.bytes
            size := table.size + name.length + 1 },
          table.size) := by
  simp [StringTable.addDynstrEntry, StringTable.copy, fits,
    Nat.not_lt_of_le fits]

/-- A name that does not fit is copied to a new chunk. -/
theorem addDynstrEntry_of_full
    (outside : ByteBuffer.Bytes) {table : StringTable} {name : CString}
    (full : defaultNum < table.size + name.length)
    (short : name.length ≤ defaultNum) :
    table.addDynstrEntry outside name =
      some
        ({ closed :=
            table.closed ++ [{ memory := table.memory, shSize := table.size }]
           memory :=
            ByteBuffer.store (StringTable.freshChunk outside) 0 name.bytes
           size := name.length + 1 },
          table.size) := by
  simp [StringTable.addDynstrEntry, StringTable.copy, full, short,
    StringTable.addDynamicSc]

/-- A placeable name is added, and it goes behind the names before. -/
theorem Packed.add
    {outside : ByteBuffer.Bytes} {state : Naming} {name : CString}
    (packed : Packed state) (placeable : state.Placeable name) :
    ∃ next ∈ state.add outside name, Packed next := by
  obtain ⟨closed, short, notExact⟩ := placeable
  have size := packed.size closed
  have blank := packed.blank closed
  have emitted := emitted_of_closed closed size
  have atEnd : state.table.emitted.length = state.table.size := by
    simp [emitted, ByteBuffer.load]
  have wholeChunk : ∀ count ≤ defaultNum, osWrite count = count :=
    fun count inChunk => Nat.min_eq_left (inChunk.trans (by decide))
  by_cases full : defaultNum < state.table.size + name.length
  · refine
      ⟨_, Option.map_eq_some_iff.mpr
        ⟨_, addDynstrEntry_of_full outside full short.le, rfl⟩, ?_⟩
    refine ⟨packed.right.append ?_ atEnd, ?_, ?_⟩
    · have newChunk :=
        load_store_name 0 name
          (show StringTable.freshChunk outside (0 + name.length) = 0 from
            if_pos (by omega))
      rw [Nat.zero_add] at newChunk
      simp only [StringTable.emitted, closed, List.nil_append,
        List.singleton_append, List.flatMap_cons, List.flatMap_nil,
        List.append_nil, wholeChunk _ size, wholeChunk _ short, newChunk]
      simp [ByteBuffer.load]
    · intro stillOpen
      simp at stillOpen
    · intro stillOpen
      simp at stillOpen
  · have fits : state.table.size + name.length < defaultNum := by omega
    refine
      ⟨_, Option.map_eq_some_iff.mpr
        ⟨_, addDynstrEntry_of_fits outside fits.le, rfl⟩, ?_⟩
    refine ⟨packed.right.append ?_ atEnd, fun _ => fits, fun _ => ?_⟩
    · rw [emitted]
      refine (emitted_of_closed ?_ ?_).trans ?_
      · exact closed
      · exact fits
      · exact load_store_name _ _ (blank _ (Nat.le_add_right _ _) fits)
    · intro i behind inChunk
      have unwritten : state.table.size + name.bytes.length ≤ i :=
        Nat.le_of_succ_le behind
      exact
        (ByteBuffer.store_apply_of_outside (Or.inr unwritten)).trans
          (blank i (by omega) inChunk)

/--
In every run of placeable names each name is added, and from then on it stands
in the emitted section at the offset that was returned for it.
-/
theorem names_stored
    (outside : ByteBuffer.Bytes) (names : List CString)
    (placeable :
      GuardedRun.Guarded (Naming.add outside) Naming.Placeable
        (.start outside) names) :
    GuardedRun.Always (Naming.add outside) Naming.Right (.start outside)
      names := by
  have initially : Packed (.start outside) := by
    refine ⟨?_, fun _ => (by decide : 1 ≤ defaultNum), ?_⟩
    · intro entry member
      simp [Naming.start] at member
    · intro _ i _ inChunk
      exact if_pos inChunk
  exact
    GuardedRun.always_of_guarded (fun _ packed => packed.right)
      (fun _ _ packed placeable => packed.add placeable) initially placeable

/-- Two short names. -/
theorem names_stored_two :
    GuardedRun.Always (Naming.add fun _ => 0) Naming.Right (.start fun _ => 0)
      [CString.ofString "puts", CString.ofString "exit"] :=
  names_stored _ _ (by decide)

/-- A byte of a string that stands somewhere. -/
theorem StoredAt.getElem?
    {bytes : List UInt8} {offset : Nat} {name : CString}
    (stored : StoredAt bytes offset name) (i : Nat) (inName : i < name.length) :
    bytes[offset + i]? = name.bytes[i]? := by
  obtain ⟨before, after, rfl, rfl⟩ := stored
  rw [List.getElem?_append_right (Nat.le_add_right _ _),
    Nat.add_sub_cancel_left, List.getElem?_append_left inName]

/-- The bytes of the first chunk come first. -/
theorem emitted_getElem?
    {table : StringTable} {chunk : StringChunk} {rest : List StringChunk}
    (closed : table.closed = chunk :: rest)
    {i : Nat} (inChunk : i < osWrite chunk.shSize) :
    table.emitted[i]? = some (chunk.memory i) := by
  have length :
      (ByteBuffer.load chunk.memory 0 (osWrite chunk.shSize)).length =
        osWrite chunk.shSize := by
    simp [ByteBuffer.load]
  rw [StringTable.emitted, closed, List.cons_append, List.flatMap_cons,
    List.getElem?_append_left (by rwa [length])]
  simp [ByteBuffer.load, inChunk]

/--
The second name behind a filled chunk gets the offset 2 in its own chunk, where
the section has the name that filled the first one.
-/
theorem not_always_right_of_filling
    {filling : CString} (length : filling.length = 0x2ffe)
    (byte : filling.bytes[1]? = some 120) :
    ¬ GuardedRun.Always (Naming.add fun _ => 0) Naming.Right
        (.start fun _ => 0)
        [filling, CString.ofString "a", CString.ofString "b"] := by
  have oneByte : (CString.ofString "a").length + 1 = 2 := by decide
  have firstFits : 1 + filling.length ≤ defaultNum := by
    rw [length]
    decide
  have full :
      defaultNum <
        1 + filling.length + 1 + (CString.ofString "a").length := by
    rw [length]
    decide
  have thirdFits :
      (CString.ofString "a").length + 1 + (CString.ofString "b").length ≤
        defaultNum := by
    decide
  rintro ⟨_, first, firstAdded, _, second, secondAdded, _, third, thirdAdded,
    right⟩
  rw [Naming.add, addDynstrEntry_of_fits _ firstFits] at firstAdded
  cases firstAdded
  rw [Naming.add, addDynstrEntry_of_full _ full (by decide)] at secondAdded
  cases secondAdded
  rw [Naming.add, addDynstrEntry_of_fits _ thirdFits] at thirdAdded
  cases thirdAdded
  have stored :=
    right (2, CString.ofString "b")
      (List.mem_append_right _ (List.mem_singleton.mpr (by rw [oneByte])))
  have atTwo := stored.getElem? 0 (by decide)
  have firstChunk :
      ByteBuffer.store (StringTable.freshChunk fun _ => 0) 1 filling.bytes
        2 = 120 := by
    simp [ByteBuffer.store, byte]
  rw [emitted_getElem? rfl (by
    change 2 < osWrite (1 + filling.length + 1)
    rw [length]
    decide)] at atTwo
  cases firstChunk.symm.trans (Option.some.inj atTwo)

/-- A name that fills the first chunk. -/
def longName : CString where
  bytes := List.replicate 0x2ffe 120
  noNul := fun member =>
    absurd (List.eq_of_mem_replicate member) (by decide)

/-- A name that fills the first chunk, and two short ones. -/
theorem not_names_stored_secondChunk :
    ¬ GuardedRun.Always (Naming.add fun _ => 0) Naming.Right
        (.start fun _ => 0)
        [longName, CString.ofString "a", CString.ofString "b"] :=
  not_always_right_of_filling List.length_replicate
    (List.getElem?_replicate_of_lt (by decide))

end BinTools.Elf
