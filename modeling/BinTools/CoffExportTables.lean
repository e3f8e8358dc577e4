import BinTools.CoffExport

namespace BinTools.CoffObject

open ByteBuffer
open Coff (strcpy StringAt)

/-!
# The tables of the export directory

Three parallel arrays and the strings behind them are filled entry by entry.
As long as the arrays do not reach into each other, an entry keeps what was
written for it.
-/

/-- The bytes that the names of some entries take. -/
def namesSize (entries : List (CString × Nat)) : Nat :=
  (entries.map fun entry => entry.1.length + 1).sum

/-- Write a list of entries, each a name with an address. -/
def ExportCursor.writeAll
    (vaddr : Nat) (cursor : ExportCursor)
    (entries : List (CString × Nat)) : ExportCursor :=
  entries.foldl
    (fun (cursor : ExportCursor) (entry : CString × Nat) =>
      cursor.write vaddr entry.1 entry.2)
    cursor

/-- From a cursor on, the arrays have room for some more entries. -/
structure ExportCursor.Separated (cursor : ExportCursor) (count : Nat) :
    Prop where
  ordinals :
    cursor.addressOfNameOrdinals + 2 * count ≤ cursor.addressOfFunctions
  functions : cursor.addressOfFunctions + 4 * count ≤ cursor.addressOfNames
  names : cursor.addressOfNames + 4 * count ≤ cursor.c

/-- The position lies outside of a range. -/
def Outside (position start size : Nat) : Prop :=
  position < start ∨ start + size ≤ position

/-- The position is not written when a cursor goes over some entries. -/
structure ExportCursor.Spared
    (cursor : ExportCursor) (count size position : Nat) : Prop where
  ordinals : Outside position cursor.addressOfNameOrdinals (2 * count)
  functions : Outside position cursor.addressOfFunctions (4 * count)
  names : Outside position cursor.addressOfNames (4 * count)
  strings : Outside position cursor.c size

/-- From a cursor on, the tables describe some entries. -/
structure ExportCursor.Holds
    (vaddr : Nat) (cursor : ExportCursor) (entries : List (CString × Nat))
    (data : Bytes) : Prop where
  ordinals :
    ∀ i < entries.length,
      loadWord 2 data (cursor.addressOfNameOrdinals + 2 * i) =
        (cursor.i + i) % 2 ^ 16
  functions :
    ∀ i entry, entries[i]? = some entry →
      loadWord 4 data (cursor.addressOfFunctions + 4 * i) = u32 entry.2
  names :
    ∀ i < entries.length,
      loadWord 4 data (cursor.addressOfNames + 4 * i) =
        u32 (vaddr + (cursor.c + namesSize (entries.take i)))
  strings :
    ∀ i entry, entries[i]? = some entry →
      StringAt data (cursor.c + namesSize (entries.take i)) entry.1

variable {vaddr : Nat} {cursor : ExportCursor}

/-- The names of an entry and of further ones. -/
theorem namesSize_cons
    (entry : CString × Nat) (entries : List (CString × Nat)) :
    namesSize (entry :: entries) =
      entry.1.length + 1 + namesSize entries := by
  unfold namesSize
  rw [List.map_cons, List.sum_cons]

/-- One entry leaves alone what it does not write. -/
theorem ExportCursor.write_apply_of_spared
    {name : CString} {position : Nat}
    (spared : cursor.Spared 1 (name.length + 1) position)
    (exportAddr : Nat) :
    (cursor.write vaddr name exportAddr).data position =
      cursor.data position := by
  unfold ExportCursor.write
  dsimp only
  rw [Coff.strcpy_apply_of_outside spared.strings,
    storeWord_apply_of_outside spared.ordinals,
    storeWord_apply_of_outside spared.functions,
    storeWord_apply_of_outside spared.names]

/-- The tables describe an entry that was just written. -/
theorem ExportCursor.holds_write
    (vaddr : Nat) (separated : cursor.Separated 1) (name : CString) (exportAddr : Nat) :
    cursor.Holds vaddr [(name, exportAddr)]
      (cursor.write vaddr name exportAddr).data := by
  obtain ⟨ordinals, functions, names⟩ := separated
  constructor
  · intro i isFirst
    obtain rfl : i = 0 := Nat.lt_one_iff.mp isFirst
    unfold ExportCursor.write
    dsimp only
    rw [loadWord_congr fun position _ _ =>
      Coff.strcpy_apply_of_outside (Or.inl (by omega))]
    exact loadWord_storeWord 2 _ _
  · intro i entry isEntry
    obtain ⟨isFirst, rfl⟩ := List.getElem?_eq_some_iff.mp isEntry
    obtain rfl : i = 0 := Nat.lt_one_iff.mp isFirst
    unfold ExportCursor.write
    dsimp only
    rw [loadWord_congr fun position _ _ =>
        Coff.strcpy_apply_of_outside (Or.inl (by omega)),
      loadWord_congr fun position _ _ =>
        storeWord_apply_of_outside (Or.inr (by omega))]
    exact loadWord_storeWord 4 _ _
  · intro i isFirst
    obtain rfl : i = 0 := Nat.lt_one_iff.mp isFirst
    unfold ExportCursor.write
    dsimp only
    rw [loadWord_congr fun position _ _ =>
        Coff.strcpy_apply_of_outside (Or.inl (by omega)),
      loadWord_congr fun position _ _ =>
        storeWord_apply_of_outside (Or.inr (by omega)),
      loadWord_congr fun position _ _ =>
        storeWord_apply_of_outside (Or.inr (by omega))]
    exact loadWord_storeWord 4 _ _
  · intro i entry isEntry
    obtain ⟨isFirst, rfl⟩ := List.getElem?_eq_some_iff.mp isEntry
    obtain rfl : i = 0 := Nat.lt_one_iff.mp isFirst
    exact Coff.stringAt_strcpy _ cursor.c name

/-- The entries behind the first one spare what all entries spare. -/
theorem ExportCursor.Spared.split
    {name : CString} {count size position : Nat}
    (spared :
      cursor.Spared (count + 1) (name.length + 1 + size) position)
    (vaddr exportAddr : Nat) :
    cursor.Spared 1 (name.length + 1) position ∧
      (cursor.write vaddr name exportAddr).Spared count size position := by
  obtain ⟨ordinals, functions, names, strings⟩ := spared
  unfold Outside at ordinals functions names strings
  constructor
  · constructor <;> unfold Outside <;> omega
  · constructor <;> unfold Outside ExportCursor.write <;> dsimp only <;> omega

/-- There is room behind an entry for the further ones. -/
theorem ExportCursor.Separated.split
    {count : Nat} (separated : cursor.Separated (count + 1))
    (vaddr : Nat) (name : CString) (exportAddr : Nat) :
    cursor.Separated 1 ∧
      (cursor.write vaddr name exportAddr).Separated count := by
  obtain ⟨ordinals, functions, names⟩ := separated
  constructor
  · constructor <;> omega
  · constructor <;> unfold ExportCursor.write <;> dsimp only <;> omega

/-- Later entries spare the bytes of the first one. -/
theorem ExportCursor.Separated.spared_of_not_spared
    {count : Nat} (separated : cursor.Separated (count + 1))
    {name : CString} {position : Nat}
    (isFirst : ¬ cursor.Spared 1 (name.length + 1) position)
    (vaddr exportAddr size : Nat) :
    (cursor.write vaddr name exportAddr).Spared count size position := by
  obtain ⟨ordinals, functions, names⟩ := separated
  have inside :
      (cursor.addressOfNameOrdinals ≤ position ∧
          position < cursor.addressOfNameOrdinals + 2) ∨
        (cursor.addressOfFunctions ≤ position ∧
          position < cursor.addressOfFunctions + 4) ∨
        (cursor.addressOfNames ≤ position ∧
          position < cursor.addressOfNames + 4) ∨
        (cursor.c ≤ position ∧ position < cursor.c + (name.length + 1)) := by
    by_contra isOutside
    apply isFirst
    constructor <;> unfold Outside <;> omega
  unfold ExportCursor.write
  constructor <;> unfold Outside <;> dsimp only <;> omega

/-- What the tables say of an entry stays if its bytes do. -/
theorem ExportCursor.Holds.congr
    {name : CString} {exportAddr : Nat} {data later : Bytes}
    (holds : cursor.Holds vaddr [(name, exportAddr)] data)
    (agree :
      ∀ position, ¬ cursor.Spared 1 (name.length + 1) position →
        later position = data position) :
    cursor.Holds vaddr [(name, exportAddr)] later := by
  have inside :
      ∀ {position start size},
        (cursor.Spared 1 (name.length + 1) position →
          Outside position start size) →
        start ≤ position → position < start + size →
          later position = data position := by
    intro position start size isOutside fromStart toEnd
    apply agree
    intro spared
    rcases isOutside spared with before | behind <;> omega
  constructor
  · intro i isFirst
    rw [← holds.ordinals i isFirst]
    obtain rfl : i = 0 := Nat.lt_one_iff.mp isFirst
    exact loadWord_congr fun _ => inside fun spared => spared.ordinals
  · intro i entry isEntry
    rw [← holds.functions i entry isEntry]
    obtain ⟨isFirst, _⟩ := List.getElem?_eq_some_iff.mp isEntry
    obtain rfl : i = 0 := Nat.lt_one_iff.mp isFirst
    exact loadWord_congr fun _ => inside fun spared => spared.functions
  · intro i isFirst
    rw [← holds.names i isFirst]
    obtain rfl : i = 0 := Nat.lt_one_iff.mp isFirst
    exact loadWord_congr fun _ => inside fun spared => spared.names
  · intro i entry isEntry
    apply (holds.strings i entry isEntry).congr
    obtain ⟨isFirst, rfl⟩ := List.getElem?_eq_some_iff.mp isEntry
    obtain rfl : i = 0 := Nat.lt_one_iff.mp isFirst
    exact fun _ => inside fun spared => spared.strings

/-- The tables describe an entry and the ones behind it. -/
theorem ExportCursor.Holds.cons
    {name : CString} {exportAddr : Nat} {entries : List (CString × Nat)}
    {data : Bytes}
    (first : cursor.Holds vaddr [(name, exportAddr)] data)
    (rest :
      (cursor.write vaddr name exportAddr).Holds vaddr entries data) :
    cursor.Holds vaddr ((name, exportAddr) :: entries) data := by
  have later :
      ∀ i,
        (cursor.write vaddr name exportAddr).c + namesSize (entries.take i) =
          cursor.c +
            namesSize (((name, exportAddr) :: entries).take (i + 1)) := by
    intro i
    rw [List.take_succ_cons, namesSize_cons, ← Nat.add_assoc]
    rfl
  constructor
  · intro i inRange
    cases i with
    | zero => exact first.ordinals 0 Nat.one_pos
    | succ i =>
        have isLater := rest.ordinals i (Nat.lt_of_succ_lt_succ inRange)
        have sameAddress :
            (cursor.write vaddr name exportAddr).addressOfNameOrdinals +
                2 * i =
              cursor.addressOfNameOrdinals + 2 * (i + 1) := by
          unfold ExportCursor.write
          dsimp only
          omega
        rw [sameAddress] at isLater
        rw [isLater]
        unfold ExportCursor.write u32
        dsimp only
        omega
  · intro i entry isEntry
    cases i with
    | zero =>
        cases isEntry
        exact first.functions 0 _ rfl
    | succ i =>
        have isLater := rest.functions i entry isEntry
        have sameAddress :
            (cursor.write vaddr name exportAddr).addressOfFunctions + 4 * i =
              cursor.addressOfFunctions + 4 * (i + 1) := by
          unfold ExportCursor.write
          dsimp only
          omega
        rw [← sameAddress]
        exact isLater
  · intro i inRange
    cases i with
    | zero => exact first.names 0 Nat.one_pos
    | succ i =>
        have isLater := rest.names i (Nat.lt_of_succ_lt_succ inRange)
        have sameAddress :
            (cursor.write vaddr name exportAddr).addressOfNames + 4 * i =
              cursor.addressOfNames + 4 * (i + 1) := by
          unfold ExportCursor.write
          dsimp only
          omega
        rw [← sameAddress, ← later]
        exact isLater
  · intro i entry isEntry
    cases i with
    | zero =>
        cases isEntry
        exact first.strings 0 _ rfl
    | succ i =>
        rw [← later]
        exact rest.strings i entry isEntry

/-- Writing entries moves the string pointer behind their names. -/
theorem ExportCursor.c_writeAll
    (vaddr : Nat) (cursor : ExportCursor) (entries : List (CString × Nat)) :
    (cursor.writeAll vaddr entries).c = cursor.c + namesSize entries := by
  induction entries generalizing cursor with
  | nil => rfl
  | cons entry rest inductionHypothesis =>
      rw [namesSize_cons, ← Nat.add_assoc]
      exact inductionHypothesis (cursor.write vaddr entry.1 entry.2)

/-- Writing entries leaves alone what it spares. -/
theorem ExportCursor.writeAll_apply_of_spared
    {entries : List (CString × Nat)} {position : Nat}
    (spared : cursor.Spared entries.length (namesSize entries) position) :
    (cursor.writeAll vaddr entries).data position = cursor.data position := by
  induction entries generalizing cursor with
  | nil => rfl
  | cons entry rest inductionHypothesis =>
      rw [List.length_cons, namesSize_cons] at spared
      obtain ⟨first, later⟩ := spared.split vaddr entry.2
      exact
        (inductionHypothesis later).trans
          (ExportCursor.write_apply_of_spared first entry.2)

/-- The tables describe all entries that were written. -/
theorem ExportCursor.holds_writeAll
    (vaddr : Nat) {entries : List (CString × Nat)}
    (separated : cursor.Separated entries.length) :
    cursor.Holds vaddr entries (cursor.writeAll vaddr entries).data := by
  induction entries generalizing cursor with
  | nil =>
      exact
        { ordinals := fun i inRange => absurd inRange (Nat.not_lt_zero i)
          functions := fun i entry isEntry => by cases isEntry
          names := fun i inRange => absurd inRange (Nat.not_lt_zero i)
          strings := fun i entry isEntry => by cases isEntry }
  | cons entry rest inductionHypothesis =>
      obtain ⟨name, exportAddr⟩ := entry
      obtain ⟨first, later⟩ := separated.split vaddr name exportAddr
      have holdsFirst :=
        ExportCursor.holds_write vaddr first name exportAddr
      refine (holdsFirst.congr ?_).cons (inductionHypothesis later)
      intro position isFirst
      exact
        ExportCursor.writeAll_apply_of_spared
          (separated.spared_of_not_spared isFirst vaddr exportAddr _)

end BinTools.CoffObject
