import BinTools.ElfObject
import BinTools.GnuHashTable
import BinTools.HeapAlloc
import BinTools.LogLine

namespace BinTools.Elf

open LogLine

/-!
# The tables of the dynamic section

`dynamic.c` fills `.dynamic`, `.init_array`, `.fini_array`, `.gnu.hash`,
`.rela.plt`, `.dynsym`, `.dynstr` and `.plt.got` while exporting and relocating.
A table is filled in chunks: when a chunk is taken to be full, its size goes to
its section header and the next entries go to a new chunk with a header of its
own.  Readers of `.dynsym` and `.dynstr` only know the first chunk.  Writing
past the end of the memory of a chunk is a fault here, and so is a line for the
log that does not fit its buffer.
-/

/-- One allocation of a table, with the `sh_size` of its section header. -/
structure Chunk (Entry : Type) where
  entries : List Entry := []
  shSize : Nat := 0
  deriving DecidableEq, Repr

/--
`struct DynamicParams` of a table: the chunks filled before, the chunk that is
being filled and the count `size` (which `num` shares its word with).
-/
structure Table (Entry : Type) where
  closed : List (Chunk Entry) := []
  current : Chunk Entry := {}
  size : Nat := 0
  deriving DecidableEq, Repr

namespace Table

variable {Entry : Type}

/-- Store an entry at `data_p`, in a chunk of the given capacity. -/
def write (table : Table Entry) (capacity : Nat) (entry : Entry) :
    Option (Table Entry) :=
  if table.current.entries.length < capacity then
    some
      { table with
        current :=
          { table.current with entries := table.current.entries ++ [entry] } }
  else
    none

/--
`add_dynamic_sc` for a table that has a container: the size goes to the header
of the old chunk and a new chunk follows it.
-/
def addDynamicSc (table : Table Entry) : Table Entry :=
  { table with
    closed := table.closed ++ [{ table.current with shSize := table.size }]
    current := {} }

/-- The first chunk, which is the one that readers know. -/
def head (table : Table Entry) : Chunk Entry :=
  table.closed.headD table.current

/-- The `sh_size` of every chunk. -/
def shSizes (table : Table Entry) : List Nat :=
  (table.closed ++ [table.current]).map Chunk.shSize

/-- `*size_p = size` for the chunk being filled. -/
def setShSize (table : Table Entry) (size : Nat) : Table Entry :=
  { table with current := { table.current with shSize := size } }

end Table

/-- The fields of an `Elf64_Sym` that `add_dynsym_entry` varies. -/
structure DynsymEntry where
  stName : Nat := 0
  stShndx : Nat := 0
  stValue : Nat := 0
  deriving DecidableEq, Repr

/-- An `Elf64_Rela` of `.rela.plt`. -/
structure RelaEntry where
  rOffset : Nat
  symIndex : Nat
  relType : Nat
  rAddend : Nat
  deriving DecidableEq, Repr

/-- The tags of dynamic entries. -/
inductive DynTag where
  | null
  | needed
  | hash
  | strtab
  | symtab
  | rela
  | relasz
  | relaent
  | strsz
  | syment
  | initArray
  | finiArray
  | initArraysz
  | finiArraysz
  | gnuHash
  | other (tag : Nat)
  deriving DecidableEq, Repr

/-- An `Elf64_Dyn`. -/
structure DynEntry where
  dTag : DynTag
  dVal : Nat
  deriving DecidableEq, Repr

/-- The tables `D` of `dynamic.c` and what the linker keeps beside them. -/
structure Dynamic where
  baseAddress : Nat
  pltAddress : Nat
  neededNum : Nat := 0
  dynamicEntryNum : Nat := 13
  dynamicTable : Chunk DynEntry := {}
  initArray : Table Nat := {}
  finiArray : Table Nat := {}
  gnuHash : GnuHashTable
  gnuHashSize : Nat
  gnuHashShSize : Nat := 0
  relaPlt : Table RelaEntry := {}
  dynsym : Table DynsymEntry := {}
  dynstr : Table UInt8 := { current := { entries := [0] }, size := 1 }
  pltGotNum : Nat := 0
  pltGotShSize : Nat := 0
  imported : List (CString × Nat) := []
  deriving DecidableEq, Repr

/-- `DEFAULT_DYNSYM_NUM` and its siblings. -/
def defaultNum : Nat := 0x3000

/-- Entries in a chunk of `.init_array` and `.fini_array`. -/
def arrayNum : Nat := 4

/-- Entries in the `.dynamic` chunk. -/
def dynamicNum : Nat := 0x20

/--
Entries of a size in the memory that `__malloc` hands out for a small chunk of
so many, which is a block more than the chunk fills.
-/
def roomOf (count size : Nat) : Nat :=
  Heap.binsSizeOf (count * size) * 0x10 / size

/-- Entries that fit the memory of the `.dynamic` chunk. -/
def dynamicRoom : Nat := roomOf dynamicNum sizeofDyn

/-- There is room for one entry more than the chunk has. -/
theorem dynamicRoom_eq : dynamicRoom = 33 := rfl

/-- Addresses that fit the memory of the `.fini_array` chunk. -/
def finiRoom : Nat := roomOf arrayNum 8

/-- There is room for two addresses more than the chunk has. -/
theorem finiRoom_eq : finiRoom = 6 := rfl

/-- `R_X86_64_RELATIVE` -/
def rRelative : Nat := 8

/-- `R_X86_64_GLOB_DAT` -/
def rGlobDat : Nat := 6

/-- `R_X86_64_JUMP_SLOT` -/
def rJumpSlot : Nat := 7

/-- Subtraction of addresses in 32 bits. -/
def sub32 (first second : Nat) : Nat :=
  u32 (first + (2 ^ 32 - u32 second))

/-- Subtraction in a `size_t`. -/
def sub64 (first second : Nat) : Nat :=
  (first + (2 ^ 64 - second % 2 ^ 64)) % 2 ^ 64

/-- The line of `__z__link__add_dynamic_entry`. -/
def importLine (name : CString) : Nat :=
  lineLength "[link/elf/dynamic.c]\t add dynamic import symbol:\n"
    [name.length]

/-- The line of `__z__link__add_dynamic_entry2`. -/
def globDatLine (name : CString) : Nat :=
  lineLength "[link/elf/dynamic.c]\t add dynamic GLOB_DAT symbol:\n"
    [name.length]

/-- The name of an import has fewer than 51 characters. -/
theorem isLogged_importLine_iff (name : CString) :
    IsLogged (importLine name) ↔ name.length < 51 := by
  have text :
      "[link/elf/dynamic.c]\t add dynamic import symbol:\n".length = 49 := rfl
  simp only [IsLogged, maxName, importLine, lineLength, text,
    List.sum_singleton]
  omega

/-- That of an import without an entry has fewer than 49. -/
theorem isLogged_globDatLine_iff (name : CString) :
    IsLogged (globDatLine name) ↔ name.length < 49 := by
  have text :
      "[link/elf/dynamic.c]\t add dynamic GLOB_DAT symbol:\n".length = 51 :=
    rfl
  simp only [IsLogged, maxName, globDatLine, lineLength, text,
    List.sum_singleton]
  omega

namespace Dynamic

/-- `add_dynsym_entry`: a full chunk leaves its byte size in the count. -/
def addDynsymEntry (d : Dynamic) (strOffset shndx value : Nat) :
    Option Dynamic :=
  (d.dynsym.write defaultNum
    { stName := strOffset, stShndx := shndx, stValue := value }).map
    fun dynsym =>
      let dynsym := { dynsym with size := u32 (dynsym.size + 1) }
      { d with
        dynsym :=
          if dynsym.size * sizeofSym = defaultNum * sizeofSym then
            { dynsym with size := defaultNum * sizeofSym }.addDynamicSc
          else
            dynsym }

/--
`add_dynstr_entry`: the returned offset is the size before the call, also when
the string went to a new chunk.
-/
def addDynstrEntry (d : Dynamic) (name : CString) : Option (Dynamic × Nat) :=
  let dynstr :=
    if defaultNum < d.dynstr.size + name.length then
      { d.dynstr.addDynamicSc with size := 0 }
    else
      d.dynstr
  if defaultNum < dynstr.size + name.length then
    none
  else
    some
      ({ d with
          dynstr :=
            { dynstr with
              current :=
                { dynstr.current with
                  entries := dynstr.current.entries ++ name.bytes ++ [0] }
              size := dynstr.size + name.length + 1 } },
        d.dynstr.size)

/-- `add_gnu_hash_entry` -/
def addGnuHashEntry (d : Dynamic) (name : CString) (symIndex : Nat) :
    Option Dynamic :=
  (d.gnuHash.addGnuHashEntry name symIndex).map fun gnuHash =>
    { d with gnuHash := gnuHash, gnuHashSize := d.gnuHashSize + 4 }

/-- One symbol of `__z__link__add_export_symbol`: string, entry and hash. -/
def addExport (d : Dynamic) (name : CString) (shndx value : Nat) :
    Option Dynamic :=
  (d.addDynstrEntry name).bind fun (d, strOffset) =>
    (d.addDynsymEntry strOffset shndx value).bind fun d =>
      d.addGnuHashEntry name (d.dynsym.size - 1)

/-- `add_pltgot_entry`: the address of the new entry. -/
def addPltgotEntry (d : Dynamic) : Option (Dynamic × Nat) :=
  if d.pltGotNum < defaultNum then
    some
      ({ d with pltGotNum := d.pltGotNum + 1 },
        u32 (d.pltAddress + d.pltGotNum * 0x10))
  else
    none

/-- `add_rela_plt_entry` -/
def addRelaPltEntry (d : Dynamic) (offset symIndex relType addend : Nat) :
    Option Dynamic :=
  (d.relaPlt.write defaultNum
    { rOffset := sub64 offset d.baseAddress
      symIndex := symIndex
      relType := relType
      rAddend := sub64 addend d.baseAddress }).map
    fun relaPlt =>
      let relaPlt := { relaPlt with size := relaPlt.size + sizeofRela }
      { d with
        relaPlt :=
          if relaPlt.size = defaultNum * sizeofRela then
            relaPlt.addDynamicSc
          else
            relaPlt }

/--
One symbol of `__z__link__add_dynamic_entry`: `.plt.got` entry, string, symbol
and record.  The table of the entries is keyed by the name.
-/
def addImport (d : Dynamic) (str : CString) (relType : Nat) :
    Option (Dynamic × Nat) :=
  d.addPltgotEntry.bind fun (d, r) =>
    (d.addDynstrEntry str).bind fun (d, strOffset) =>
      (d.addDynsymEntry strOffset 0 0).bind fun d =>
        (d.addRelaPltEntry (u32 (r + 8)) (d.dynsym.size - 1) relType 0).map
          fun d => ({ d with imported := d.imported ++ [(str, r)] }, r)

/-- The address of the entry that was made for a name before, or zero. -/
def known (d : Dynamic) (str : CString) : Nat :=
  (d.imported.find? fun entry => entry.1 = str).elim 0 Prod.snd

/--
`__z__link__add_dynamic_entry`: import a symbol through a `.plt.got` entry.
Under `check`, an entry made for the name before is used again.
-/
def addDynamicEntry (d : Dynamic) (str : CString) (relType : Nat)
    (check : Bool) : Option (Dynamic × Nat) :=
  if check ∧ d.known str ≠ 0 then
    some (d, d.known str)
  else if IsLogged (importLine str) then
    d.addImport str relType
  else
    none

/-- `__z__link__add_dynamic_entry2`: import a symbol without a PLT entry. -/
def addDynamicEntry2 (d : Dynamic) (offset : Nat) (str : CString) :
    Option Dynamic :=
  if IsLogged (globDatLine str) then
    (d.addDynstrEntry str).bind fun (d, strOffset) =>
      (d.addDynsymEntry strOffset 0 0).bind fun d =>
        d.addRelaPltEntry offset (d.dynsym.size - 1) rGlobDat 0
  else
    none

/-- `__z__link__add_init_array` -/
def addInitArray (d : Dynamic) (addr : Nat) : Option Dynamic :=
  (d.initArray.write arrayNum addr).map fun initArray =>
    let initArray := { initArray with size := initArray.size + 8 }
    { d with
      initArray :=
        if initArray.size = arrayNum * 8 then
          initArray.addDynamicSc
        else
          initArray }

/--
`__z__link__add_fini_array`, which never takes a new chunk and goes on behind
the first one.
-/
def addFiniArray (d : Dynamic) (addr : Nat) : Option Dynamic :=
  (d.finiArray.write finiRoom addr).map fun finiArray =>
    { d with finiArray := { finiArray with size := finiArray.size + 8 } }

/-- `add_dt_needed` -/
def addDtNeeded (d : Dynamic) (name : CString) : Option Dynamic :=
  (d.addDynstrEntry name).map fun (d, _) =>
    { d with neededNum := d.neededNum + 1 }

/--
`init_dynamic` and `add_dynamic`: empty tables, the hash header filled in and
the null symbol added.  The hash block has room for `DEFAULT_DT_HASH_CHAIN_NUM`
chain words behind a bucket array of twice the size in use.
-/
def init (baseAddress pltAddress : Nat)
    (nbucket bloomSize bloomShift : U32) : Dynamic where
  baseAddress := baseAddress
  pltAddress := pltAddress
  gnuHash :=
    .zeroed nbucket bloomSize bloomShift (defaultNum + nbucket.toNat + 4)
  gnuHashSize := 24 + (bloomSize.toNat + 1) * 8 + nbucket.toNat * 8
  dynsym := { current := { entries := [{}] }, size := 1 }

/-- The entry `dynsym_head[i]`, inside of the first chunk. -/
def symAt (d : Dynamic) (i : Nat) : Option DynsymEntry :=
  if i < defaultNum then
    some ((d.dynsym.head.entries[i]?).getD {})
  else
    none

/--
The string at `dynstr_head + offset`: bytes not yet written are zero, and the
terminator must be inside of the first chunk.
-/
def stringAt (d : Dynamic) (offset : Nat) : Option CString :=
  let name := CString.ofBytes (d.dynstr.head.entries.drop offset)
  if offset + name.length < defaultNum then some name else none

/-- The name of a dynamic symbol. -/
def nameAt (d : Dynamic) (i : Nat) : Option CString :=
  (d.symAt i).bind fun sym => d.stringAt sym.stName

/-- `find_sym2`, `none` when it leaves the tables. -/
def findSym2 (d : Dynamic) (s : CString) : Option Nat :=
  (d.gnuHash.findSym2 d.nameAt s).result

/-- A name is imported by a call that makes an entry for it. -/
theorem addDynamicEntry_eq_some
    {d next : Dynamic} {str : CString} {relType r : Nat} {check : Bool}
    (adds : d.addDynamicEntry str relType check = some (next, r)) :
    (check = true ∧ d.known str ≠ 0 ∧ next = d ∧ r = d.known str) ∨
      (IsLogged (importLine str) ∧
        d.addImport str relType = some (next, r)) := by
  unfold addDynamicEntry at adds
  split at adds
  · cases adds
    rename_i again
    exact Or.inl ⟨again.1, again.2, rfl, rfl⟩
  · rw [Option.ite_none_right_eq_some] at adds
    exact Or.inr adds

/-! ## One entry while a chunk has room -/

/-- A string that fits goes to the end of the chunk. -/
theorem addDynstrEntry_eq
    {d : Dynamic} {name : CString}
    (room : d.dynstr.size + name.length ≤ defaultNum) :
    d.addDynstrEntry name =
      some
        ({ d with
            dynstr :=
              { d.dynstr with
                current :=
                  { d.dynstr.current with
                    entries :=
                      d.dynstr.current.entries ++ name.bytes ++ [0] }
                size := d.dynstr.size + name.length + 1 } },
          d.dynstr.size) := by
  have noNewChunk : ¬ defaultNum < d.dynstr.size + name.length := by omega
  simp only [addDynstrEntry, noNewChunk, ↓reduceIte]

/-- A symbol that does not fill the chunk goes to its end. -/
theorem addDynsymEntry_eq
    {d : Dynamic} {strOffset shndx value : Nat}
    (inChunk : d.dynsym.current.entries.length < defaultNum)
    (notFull : d.dynsym.size + 1 < defaultNum) :
    d.addDynsymEntry strOffset shndx value =
      some
        { d with
          dynsym :=
            { d.dynsym with
              current :=
                { d.dynsym.current with
                  entries :=
                    d.dynsym.current.entries ++
                      [{ stName := strOffset
                         stShndx := shndx
                         stValue := value }] }
              size := d.dynsym.size + 1 } } := by
  have count : u32 (d.dynsym.size + 1) = d.dynsym.size + 1 :=
    Nat.mod_eq_of_lt (by simp only [defaultNum] at notFull; omega)
  have sameChunk :
      ¬ (d.dynsym.size + 1) * sizeofSym = defaultNum * sizeofSym := by
    simp only [defaultNum, sizeofSym] at notFull ⊢
    omega
  simp only [addDynsymEntry, Table.write, inChunk, ↓reduceIte,
    Option.map_some, count, sameChunk]

end Dynamic

end BinTools.Elf
