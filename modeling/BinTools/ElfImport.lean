import BinTools.ElfDynamic

namespace BinTools.Elf

/-!
# Tables only grow

No call on the dynamic tables takes an entry out of a first chunk or moves one.
Imports moreover leave the hash table alone, and the symbols they add have the
value zero.
-/

namespace Table

variable {Entry : Type}

/-- Starting a new chunk leaves the entries of the first one alone. -/
theorem head_addDynamicSc (table : Table Entry) :
    table.addDynamicSc.head.entries = table.head.entries := by
  obtain ⟨closed, current, size⟩ := table
  cases closed <;> rfl

/-- An entry goes to the end of a chunk that has room for it. -/
theorem write_eq_some
    {table written : Table Entry} {capacity : Nat} {entry : Entry}
    (writes : table.write capacity entry = some written) :
    table.current.entries.length < capacity ∧
      written =
        { table with
          current :=
            { table.current with
              entries := table.current.entries ++ [entry] } } := by
  unfold write at writes
  split at writes
  · cases writes
    exact ⟨by assumption, rfl⟩
  · cases writes

/-- An entry is appended to the first chunk, or goes to a later one. -/
theorem head_write
    {table written : Table Entry} {capacity : Nat} {entry : Entry}
    (writes : table.write capacity entry = some written) :
    written.head.entries = table.head.entries ++ [entry] ∨
      written.head.entries = table.head.entries := by
  obtain ⟨_, rfl⟩ := write_eq_some writes
  obtain ⟨closed, current, size⟩ := table
  cases closed with
  | nil => exact Or.inl rfl
  | cons first rest => exact Or.inr rfl

end Table

namespace Dynamic

/-- Settings and strings are kept, symbols and strings are only added. -/
structure Grown (first second : Dynamic) : Prop where
  baseAddress : second.baseAddress = first.baseAddress
  pltAddress : second.pltAddress = first.pltAddress
  neededNum : second.neededNum = first.neededNum
  dynamicEntryNum : second.dynamicEntryNum = first.dynamicEntryNum
  dynamicTable : second.dynamicTable = first.dynamicTable
  dynsym : first.dynsym.head.entries <+: second.dynsym.head.entries
  dynstr : first.dynstr.head.entries <+: second.dynstr.head.entries

/-- Doing nothing is growing. -/
theorem Grown.refl (d : Dynamic) : Grown d d :=
  ⟨rfl, rfl, rfl, rfl, rfl, List.prefix_refl _, List.prefix_refl _⟩

/-- Growing twice is growing. -/
theorem Grown.trans
    {first second third : Dynamic}
    (earlier : Grown first second) (later : Grown second third) :
    Grown first third :=
  ⟨later.baseAddress.trans earlier.baseAddress,
    later.pltAddress.trans earlier.pltAddress,
    later.neededNum.trans earlier.neededNum,
    later.dynamicEntryNum.trans earlier.dynamicEntryNum,
    later.dynamicTable.trans earlier.dynamicTable,
    earlier.dynsym.trans later.dynsym,
    earlier.dynstr.trans later.dynstr⟩

/-- A string is added to the string table and nothing else changes. -/
theorem addDynstrEntry_spec
    {d next : Dynamic} {name : CString} {strOffset : Nat}
    (adds : d.addDynstrEntry name = some (next, strOffset)) :
    next = { d with dynstr := next.dynstr } ∧
      d.dynstr.head.entries <+: next.dynstr.head.entries := by
  unfold addDynstrEntry at adds
  dsimp only at adds
  by_cases full : defaultNum < d.dynstr.size + name.length
  · simp only [full, ↓reduceIte, Option.ite_none_left_eq_some,
      Option.some.injEq, Prod.mk.injEq] at adds
    obtain ⟨_, rfl, _⟩ := adds
    refine ⟨rfl, ?_⟩
    rw [← Table.head_addDynamicSc d.dynstr]
    obtain ⟨⟨⟩ | ⟨first, rest⟩, current, size⟩ := d.dynstr
    · exact List.prefix_refl _
    · exact List.prefix_refl _
  · simp only [full, ↓reduceIte, Option.some.injEq, Prod.mk.injEq] at adds
    obtain ⟨rfl, _⟩ := adds
    refine ⟨rfl, ?_⟩
    obtain ⟨⟨⟩ | ⟨first, rest⟩, current, size⟩ := d.dynstr
    · simp only [Table.head, List.headD_nil, List.append_assoc]
      exact List.prefix_append _ _
    · exact List.prefix_refl _

/-- A symbol is added to the symbol table and nothing else changes. -/
theorem addDynsymEntry_spec
    {d next : Dynamic} {strOffset shndx value : Nat}
    (adds : d.addDynsymEntry strOffset shndx value = some next) :
    next = { d with dynsym := next.dynsym } ∧
      (next.dynsym.head.entries =
          d.dynsym.head.entries ++
            [{ stName := strOffset, stShndx := shndx, stValue := value }] ∨
        next.dynsym.head.entries = d.dynsym.head.entries) := by
  obtain ⟨written, writes, rfl⟩ := Option.map_eq_some_iff.mp adds
  have heads := Table.head_write writes
  refine ⟨rfl, ?_⟩
  dsimp only
  split
  · rw [Table.head_addDynamicSc]
    exact heads
  · exact heads

/-- A relocation record goes to `.rela.plt` and nothing else changes. -/
theorem addRelaPltEntry_spec
    {d next : Dynamic} {offset symIndex relType addend : Nat}
    (adds : d.addRelaPltEntry offset symIndex relType addend = some next) :
    next = { d with relaPlt := next.relaPlt } := by
  obtain ⟨written, _, rfl⟩ := Option.map_eq_some_iff.mp adds
  rfl

/-- A list that was extended keeps its elements. -/
theorem getElem?_of_prefix
    {α : Type*} {first second : List α} {index : Nat}
    (extends_ : first <+: second) (inBounds : index < first.length) :
    second[index]? = first[index]? := by
  obtain ⟨more, rfl⟩ := extends_
  exact List.getElem?_append_left inBounds

/-- What importing keeps: the exported symbols and how they are found. -/
structure Imported (first second : Dynamic) : Prop extends
    Grown first second where
  gnuHash : second.gnuHash = first.gnuHash
  noValue :
    ∀ index entry,
      second.dynsym.head.entries[index]? = some entry →
        first.dynsym.head.entries.length ≤ index → entry.stValue = 0

/-- Importing nothing. -/
theorem Imported.refl (d : Dynamic) : Imported d d where
  toGrown := .refl d
  gnuHash := rfl
  noValue := by
    intro index entry present beyond
    have inBounds := (List.getElem?_eq_some_iff.mp present).1
    omega

/-- Importing twice is importing. -/
theorem Imported.trans
    {first second third : Dynamic}
    (earlier : Imported first second) (later : Imported second third) :
    Imported first third where
  toGrown := earlier.toGrown.trans later.toGrown
  gnuHash := later.gnuHash.trans earlier.gnuHash
  noValue := by
    intro index entry present beyond
    rcases Nat.lt_or_ge index second.dynsym.head.entries.length with
      known | added
    · refine earlier.noValue index entry ?_ beyond
      rwa [← getElem?_of_prefix later.dynsym known]
    · exact later.noValue index entry present added

/-- Adding a string imports. -/
theorem addDynstrEntry_imported
    {d next : Dynamic} {name : CString} {strOffset : Nat}
    (adds : d.addDynstrEntry name = some (next, strOffset)) :
    Imported d next := by
  obtain ⟨same, strings⟩ := addDynstrEntry_spec adds
  have kept := Imported.refl d
  rw [same]
  exact { kept with dynstr := strings }

/-- Adding a symbol of value zero imports. -/
theorem addDynsymEntry_imported
    {d next : Dynamic} {strOffset shndx : Nat}
    (adds : d.addDynsymEntry strOffset shndx 0 = some next) :
    Imported d next := by
  obtain ⟨same, symbols⟩ := addDynsymEntry_spec adds
  have kept := Imported.refl d
  rw [same]
  refine { kept with dynsym := ?_, noValue := ?_ }
  · rcases symbols with added | unchanged
    · rw [added]
      exact List.prefix_append _ _
    · exact unchanged.symm ▸ List.prefix_refl _
  · intro index entry present beyond
    dsimp only at present
    rcases symbols with added | unchanged
    · rw [added, List.getElem?_append_right beyond,
        List.getElem?_singleton] at present
      split at present
      · cases present
        rfl
      · cases present
    · rw [unchanged] at present
      exact kept.noValue index entry present beyond

/-- Adding a relocation record imports. -/
theorem addRelaPltEntry_imported
    {d next : Dynamic} {offset symIndex relType addend : Nat}
    (adds : d.addRelaPltEntry offset symIndex relType addend = some next) :
    Imported d next := by
  rw [addRelaPltEntry_spec adds]
  exact { Imported.refl d with }

/-- Taking a `.plt.got` entry imports. -/
theorem addPltgotEntry_imported
    {d next : Dynamic} {r : Nat}
    (adds : d.addPltgotEntry = some (next, r)) :
    Imported d next := by
  unfold addPltgotEntry at adds
  split at adds
  · cases adds
    exact { Imported.refl d with }
  · cases adds

/-- Adding an entry of `.init_array` imports. -/
theorem addInitArray_imported
    {d next : Dynamic} {addr : Nat}
    (adds : d.addInitArray addr = some next) :
    Imported d next := by
  obtain ⟨written, _, rfl⟩ := Option.map_eq_some_iff.mp adds
  exact { Imported.refl d with }

/-- Adding an entry of `.fini_array` imports. -/
theorem addFiniArray_imported
    {d next : Dynamic} {addr : Nat}
    (adds : d.addFiniArray addr = some next) :
    Imported d next := by
  obtain ⟨written, _, rfl⟩ := Option.map_eq_some_iff.mp adds
  exact { Imported.refl d with }

/-- Making an entry for a name imports. -/
theorem addImport_imported
    {d next : Dynamic} {str : CString} {relType r : Nat}
    (adds : d.addImport str relType = some (next, r)) :
    Imported d next := by
  obtain ⟨⟨first, plt⟩, pltAdds, adds⟩ := Option.bind_eq_some_iff.mp adds
  obtain ⟨⟨second, strOffset⟩, strAdds, adds⟩ :=
    Option.bind_eq_some_iff.mp adds
  obtain ⟨third, symAdds, adds⟩ := Option.bind_eq_some_iff.mp adds
  obtain ⟨fourth, relaAdds, isNext⟩ := Option.map_eq_some_iff.mp adds
  cases isNext
  have grown :=
    (((addPltgotEntry_imported pltAdds).trans
      (addDynstrEntry_imported strAdds)).trans
        (addDynsymEntry_imported symAdds)).trans
          (addRelaPltEntry_imported relaAdds)
  exact { grown with }

/-- `__z__link__add_dynamic_entry` imports. -/
theorem addDynamicEntry_imported
    {d next : Dynamic} {str : CString} {relType r : Nat} {check : Bool}
    (adds : d.addDynamicEntry str relType check = some (next, r)) :
    Imported d next := by
  obtain ⟨_, _, rfl, _⟩ | ⟨_, adds⟩ := addDynamicEntry_eq_some adds
  · exact .refl next
  · exact addImport_imported adds

/-- `__z__link__add_dynamic_entry2` imports. -/
theorem addDynamicEntry2_imported
    {d next : Dynamic} {offset : Nat} {str : CString}
    (adds : d.addDynamicEntry2 offset str = some next) :
    Imported d next := by
  obtain ⟨_, adds⟩ := Option.ite_none_right_eq_some.mp adds
  obtain ⟨⟨first, strOffset⟩, strAdds, adds⟩ :=
    Option.bind_eq_some_iff.mp adds
  obtain ⟨second, symAdds, relaAdds⟩ := Option.bind_eq_some_iff.mp adds
  exact
    ((addDynstrEntry_imported strAdds).trans
      (addDynsymEntry_imported symAdds)).trans
        (addRelaPltEntry_imported relaAdds)

end Dynamic

end BinTools.Elf
