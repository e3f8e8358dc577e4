import BinTools.ElfDynamicValues

namespace BinTools.Elf

/-!
# The loop over the tags of the dynamic section

The counter `dynamic_entry_num` bounds the loop over `DynamicEntryTag`, and was
incremented for every library before.  The offset after the last tag is taken for
the size of the file.
-/

/-- The position behind the containers once they are written. -/
def endOfContainers (position : Nat) : List (List Nat) → Nat
  | [] => position
  | sizes :: rest => endOfContainers (writeRawData position sizes).2 rest

/-- The file offset behind the last section that `__z__link__gen_elf` writes. -/
def fileEnd (link : Link) (later : List (List Nat)) : Nat :=
  endOfContainers link.programHeaderTail (link.shSizes ++ later)

/--
The loop reads tags of the array only, all entries are stored in the buffer of
`.dynamic`, and `out_size` is the end of the last section.
-/
def TagLoopInBounds
    (link : Link) (d : Dynamic) (tagAfter : Nat → DynTag) : Prop :=
  ∃ result ∈ d.setDynanmic tagAfter,
    let written := result.1
    (∀ i ∈ List.range' 1 written.dynamicEntryNum,
        i < dynamicEntryTag.length) ∧
      written.dynamicTable.entries.length ≤ dynamicNum ∧
      result.2 =
        fileEnd (link.setPltSize written.pltGotShSize) written.shSizes

/-- No table has filled a chunk. -/
structure NoneFilled (d : Dynamic) : Prop where
  initArray : d.initArray.closed = []
  relaPlt : d.relaPlt.closed = []
  dynsym : d.dynsym.closed = []
  dynstr : d.dynstr.closed = []

/-- The end of the last section, if no table has filled a chunk. -/
def outEnd (read : Link) (d : Dynamic) : Nat :=
  read.programHeaderTail + read.shSizes.flatten.sum + d.pltGotNum * 0x10 +
    (behindPltGot d).sum

/-! ## Tables that grow -/

section

variable {Entry : Type} {unit capacity : Nat} {table : Table Entry}

/-- A table that counts bytes, of at most one chunk filled before. -/
structure Measured
    (unit capacity : Nat) (table : Table Entry) : Prop where
  size :
    table.size =
      unit * (capacity * table.closed.length +
        table.current.entries.length)
  once : table.closed.length ≤ 1
  room : table.current.entries.length ≤ capacity
  notEmpty : ∀ chunk ∈ table.closed, 0 < chunk.shSize

/-- One more entry, and a new chunk when the first one is full. -/
theorem Measured.add
    (measured : Measured unit capacity table) (isUnit : 0 < unit)
    (isCapacity : 0 < capacity) {written : Table Entry} {entry : Entry}
    (writes : table.write capacity entry = some written) :
    Measured unit capacity
      (if written.size + unit = capacity * unit then
        { written with size := written.size + unit }.addDynamicSc
      else
        { written with size := written.size + unit }) := by
  obtain ⟨room, rfl⟩ := Table.write_eq_some writes
  have size := measured.size
  have once := measured.once
  dsimp only
  split_ifs with isFull
  · have isFirst : table.closed.length = 0 := by
      by_contra notFirst
      have isOne : table.closed.length = 1 := by omega
      rw [isOne, Nat.mul_one] at size
      rw [size, Nat.mul_comm capacity unit] at isFull
      have isLess :
          unit * capacity < unit * (capacity +
            table.current.entries.length) + unit := by
        rw [Nat.mul_add]
        omega
      omega
    have noClosed := List.length_eq_zero_iff.mp isFirst
    refine
      { size := ?_
        once := by simp [Table.addDynamicSc, noClosed]
        room := Nat.zero_le _
        notEmpty := ?_ }
    · simp only [Table.addDynamicSc, noClosed, List.nil_append,
        List.length_singleton, Nat.mul_one, List.length_nil, Nat.add_zero]
      rw [isFull, Nat.mul_comm]
    · intro chunk member
      simp only [Table.addDynamicSc, noClosed, List.nil_append,
        List.mem_singleton] at member
      subst member
      dsimp only
      rw [isFull]
      exact Nat.mul_pos isCapacity isUnit
  · refine
      { size := ?_
        once := once
        room := ?_
        notEmpty := measured.notEmpty }
    · dsimp only
      rw [size, List.length_append, List.length_singleton, ← Nat.add_assoc,
        Nat.mul_add unit _ 1, Nat.mul_one]
    · dsimp only
      rw [List.length_append]
      exact room

/-- The count of bytes is that of two chunks at most. -/
theorem Measured.size_le (measured : Measured unit capacity table) :
    table.size ≤ unit * (2 * capacity) := by
  rw [measured.size]
  refine Nat.mul_le_mul_left unit ?_
  have room := measured.room
  have isOne : capacity * table.closed.length ≤ capacity * 1 :=
    Nat.mul_le_mul_left capacity measured.once
  omega

end

/-- The sizes of all tables, however they have grown. -/
structure Grown (d : Dynamic) : Prop where
  initArray : Measured 8 arrayNum d.initArray
  relaPlt : Measured sizeofRela defaultNum d.relaPlt
  dynsymOpen :
    d.dynsym.closed = [] →
      d.dynsym.size = d.dynsym.current.entries.length
  dynsymFilled :
    d.dynsym.closed ≠ [] →
      d.dynsym.size =
        defaultNum * sizeofSym + d.dynsym.current.entries.length
  dynsymOnce : d.dynsym.closed.length ≤ 1
  dynsymRoom : d.dynsym.current.entries.length ≤ defaultNum
  dynsymNotEmpty : ∀ chunk ∈ d.dynsym.closed, 0 < chunk.shSize
  gnuHash :
    d.gnuHashSize ≤
      56 + 4 * (defaultNum * d.dynsym.closed.length +
        d.dynsym.current.entries.length)
  dynstr : d.dynstr.size ≤ defaultNum + 1
  dynstrNotEmpty : ∀ chunk ∈ d.dynstr.closed, 0 < chunk.shSize

/-- The tables before the first library. -/
theorem grown_addDynamic (link : Link) : Grown (addDynamic link) where
  initArray :=
    { size := rfl
      once := Nat.zero_le _
      room := Nat.zero_le _
      notEmpty := by simp [addDynamic, Dynamic.init] }
  relaPlt :=
    { size := rfl
      once := Nat.zero_le _
      room := Nat.zero_le _
      notEmpty := by simp [addDynamic, Dynamic.init] }
  dynsymOpen := fun _ => rfl
  dynsymFilled := fun notOpen => absurd rfl notOpen
  dynsymOnce := Nat.zero_le _
  dynsymRoom := (by decide : 1 ≤ defaultNum)
  dynsymNotEmpty := by simp [addDynamic, Dynamic.init]
  gnuHash := (by decide : 56 ≤ 56 + 4 * (defaultNum * 0 + 1))
  dynstr := (by decide : 1 ≤ defaultNum + 1)
  dynstrNotEmpty := by simp [addDynamic, Dynamic.init]

namespace Grown

variable {d next : Dynamic}

/-- A string goes behind the others, or to a new chunk. -/
theorem addDynstrEntry
    {name : CString} {strOffset : Nat} (grown : Grown d)
    (adds : d.addDynstrEntry name = some (next, strOffset)) :
    Grown next := by
  unfold Dynamic.addDynstrEntry at adds
  dsimp only at adds
  by_cases full : defaultNum < d.dynstr.size + name.length
  · simp only [full, ↓reduceIte, Option.ite_none_left_eq_some,
      Option.some.injEq, Prod.mk.injEq] at adds
    obtain ⟨fits, rfl, _⟩ := adds
    refine { grown with dynstr := ?_, dynstrNotEmpty := ?_ }
    · dsimp only
      omega
    · intro chunk member
      simp only [Table.addDynamicSc, List.mem_append,
        List.mem_singleton] at member
      rcases member with wasClosed | rfl
      · exact grown.dynstrNotEmpty chunk wasClosed
      · dsimp only
        omega
  · simp only [full, ↓reduceIte, Option.some.injEq, Prod.mk.injEq] at adds
    obtain ⟨rfl, _⟩ := adds
    refine { grown with dynstr := ?_ }
    dsimp only
    omega

/-- A symbol goes behind the others, and fills the first chunk at most. -/
theorem addDynsymEntry
    {strOffset shndx value : Nat} (grown : Grown d)
    (adds : d.addDynsymEntry strOffset shndx value = some next) :
    Grown next ∧
      defaultNum * next.dynsym.closed.length +
          next.dynsym.current.entries.length =
        defaultNum * d.dynsym.closed.length +
          d.dynsym.current.entries.length + 1 := by
  obtain ⟨written, writes, rfl⟩ := Option.map_eq_some_iff.mp adds
  obtain ⟨room, rfl⟩ := Table.write_eq_some writes
  have isOpen := grown.dynsymOpen
  have isFilled := grown.dynsymFilled
  have once := grown.dynsymOnce
  have hash := grown.gnuHash
  have small : d.dynsym.size + 1 < 2 ^ 32 := by
    by_cases noClosed : d.dynsym.closed = []
    · rw [isOpen noClosed]
      simp only [defaultNum] at room
      omega
    · rw [isFilled noClosed]
      simp only [defaultNum, sizeofSym] at room ⊢
      omega
  have count : u32 (d.dynsym.size + 1) = d.dynsym.size + 1 :=
    Nat.mod_eq_of_lt small
  dsimp only
  rw [count]
  by_cases isFull :
      (d.dynsym.size + 1) * sizeofSym = defaultNum * sizeofSym
  · have isLast : d.dynsym.size + 1 = defaultNum :=
      Nat.eq_of_mul_eq_mul_right (by decide) isFull
    have noClosed : d.dynsym.closed = [] := by
      by_contra notOpen
      have filled := isFilled notOpen
      rw [filled] at isLast
      simp only [defaultNum, sizeofSym] at isLast
      omega
    have number := isOpen noClosed
    rw [if_pos isFull]
    simp only [Table.addDynamicSc, noClosed, List.nil_append,
      List.length_singleton, List.length_nil, Nat.mul_one, Nat.mul_zero,
      Nat.zero_add, Nat.add_zero]
    refine
      ⟨{ grown with
          dynsymOpen := fun noChunk => absurd noChunk (List.cons_ne_nil _ _)
          dynsymFilled := fun _ => rfl
          dynsymOnce := Nat.le_refl 1
          dynsymRoom := Nat.zero_le _
          dynsymNotEmpty := ?_
          gnuHash := ?_ }, by omega⟩
    · intro chunk member
      obtain rfl := List.mem_singleton.mp member
      exact (by decide : 0 < defaultNum * sizeofSym)
    · simp only [noClosed, List.length_nil, Nat.mul_zero, Nat.zero_add,
        List.length_singleton, Nat.mul_one, Nat.add_zero] at hash ⊢
      omega
  · rw [if_neg isFull]
    refine
      ⟨{ grown with
          dynsymOpen := ?_
          dynsymFilled := ?_
          dynsymOnce := once
          dynsymRoom := ?_
          dynsymNotEmpty := grown.dynsymNotEmpty
          gnuHash := ?_ }, ?_⟩
    · intro noClosed
      simp [isOpen noClosed]
    · intro notOpen
      simp [isFilled notOpen, Nat.add_assoc]
    · dsimp only
      rw [List.length_append]
      exact room
    · simp only [List.length_append, List.length_singleton]
      omega
    · simp [Nat.add_assoc]

/-- A relocation record goes behind the others. -/
theorem addRelaPltEntry
    {offset symIndex relType addend : Nat} (grown : Grown d)
    (adds : d.addRelaPltEntry offset symIndex relType addend = some next) :
    Grown next := by
  obtain ⟨written, writes, rfl⟩ := Option.map_eq_some_iff.mp adds
  exact
    { grown with
      relaPlt := grown.relaPlt.add (by decide) (by decide) writes }

/-- An address goes behind the others. -/
theorem addInitArray
    {addr : Nat} (grown : Grown d)
    (adds : d.addInitArray addr = some next) :
    Grown next := by
  obtain ⟨written, writes, rfl⟩ := Option.map_eq_some_iff.mp adds
  exact
    { grown with
      initArray := grown.initArray.add (by decide) (by decide) writes }

/-- An export adds a string, a symbol and a hash word. -/
theorem addExport
    {name : CString} {shndx value : Nat} (grown : Grown d)
    (adds : d.addExport name shndx value = some next) :
    Grown next := by
  obtain ⟨⟨first, strOffset⟩, strAdds, adds⟩ :=
    Option.bind_eq_some_iff.mp adds
  obtain ⟨second, symAdds, adds⟩ := Option.bind_eq_some_iff.mp adds
  obtain ⟨gnuHash, _, rfl⟩ := Option.map_eq_some_iff.mp adds
  have firstGrown := grown.addDynstrEntry strAdds
  obtain ⟨secondGrown, count⟩ := firstGrown.addDynsymEntry symAdds
  have sameHashSize : second.gnuHashSize = first.gnuHashSize := by
    rw [(Dynamic.addDynsymEntry_spec symAdds).1]
  have hash := firstGrown.gnuHash
  refine { secondGrown with gnuHash := ?_ }
  dsimp only
  omega

/-- An import adds an entry of `.plt.got`, a string, a symbol and a record. -/
theorem addDynamicEntry
    {str : CString} {relType r : Nat} {check : Bool} (grown : Grown d)
    (adds : d.addDynamicEntry str relType check = some (next, r)) :
    Grown next := by
  rcases Dynamic.addDynamicEntry_eq_some adds with
    ⟨_, _, rfl, _⟩ | ⟨_, adds⟩
  · exact grown
  · obtain ⟨⟨first, plt⟩, pltAdds, adds⟩ := Option.bind_eq_some_iff.mp adds
    obtain ⟨⟨second, strOffset⟩, strAdds, adds⟩ :=
      Option.bind_eq_some_iff.mp adds
    obtain ⟨third, symAdds, adds⟩ := Option.bind_eq_some_iff.mp adds
    obtain ⟨fourth, relaAdds, isNext⟩ := Option.map_eq_some_iff.mp adds
    cases isNext
    have firstGrown : Grown first := by
      unfold Dynamic.addPltgotEntry at pltAdds
      split at pltAdds
      · cases pltAdds
        exact { grown with }
      · cases pltAdds
    have secondGrown := firstGrown.addDynstrEntry strAdds
    have thirdGrown := (secondGrown.addDynsymEntry symAdds).1
    have fourthGrown := thirdGrown.addRelaPltEntry relaAdds
    exact { fourthGrown with }

/-- An import without an entry of `.plt.got`. -/
theorem addDynamicEntry2
    {offset : Nat} {str : CString} (grown : Grown d)
    (adds : d.addDynamicEntry2 offset str = some next) :
    Grown next := by
  obtain ⟨_, adds⟩ := Option.ite_none_right_eq_some.mp adds
  obtain ⟨⟨first, strOffset⟩, strAdds, adds⟩ :=
    Option.bind_eq_some_iff.mp adds
  obtain ⟨second, symAdds, relaAdds⟩ := Option.bind_eq_some_iff.mp adds
  have firstGrown := grown.addDynstrEntry strAdds
  exact (firstGrown.addDynsymEntry symAdds).1.addRelaPltEntry relaAdds

/-- Every call keeps the sizes. -/
theorem call
    {request : TableCall} (grown : Grown d)
    (calls : d.call request = some next) :
    Grown next := by
  cases request with
  | addExport name shndx value => exact grown.addExport calls
  | addDynamicEntry name relType check =>
      obtain ⟨⟨_, r⟩, adds, rfl⟩ := Option.map_eq_some_iff.mp calls
      exact grown.addDynamicEntry adds
  | addDynamicEntry2 offset name => exact grown.addDynamicEntry2 calls
  | addRelaPltEntry offset symIndex relType addend =>
      exact grown.addRelaPltEntry calls
  | addInitArray addr => exact grown.addInitArray calls
  | addFiniArray addr =>
      obtain ⟨_, _, rfl⟩ := Option.map_eq_some_iff.mp calls
      exact { grown with }

/-- So does any list of steps that do. -/
theorem foldlM
    {α : Type} {step : Dynamic → α → Option Dynamic}
    (keeps : ∀ d a next, Grown d → step d a = some next → Grown next)
    {actions : List α} (grown : Grown d)
    (run : actions.foldlM step d = some next) :
    Grown next := by
  induction actions generalizing d with
  | nil =>
      cases run
      exact grown
  | cons action rest inductionHypothesis =>
      rw [List.foldlM_cons] at run
      obtain ⟨middle, first, later⟩ := Option.bind_eq_some_iff.mp run
      exact inductionHypothesis (keeps d action middle grown first) later

/-- The tables after the libraries and any calls. -/
theorem of_calls
    {link : Link} {dynlib : List CString} {requests : List TableCall}
    {named : Dynamic}
    (libraries :
      addDtNeededLibraries (addDynamic link) dynlib = some named)
    (run : requests.foldlM Dynamic.call named = some d) :
    Grown d := by
  have namedGrown : Grown named := by
    refine (grown_addDynamic link).foldlM ?_ libraries
    intro d name next grown adds
    obtain ⟨⟨added, strOffset⟩, strAdds, rfl⟩ :=
      Option.map_eq_some_iff.mp adds
    exact { grown.addDynstrEntry strAdds with }
  exact namedGrown.foldlM (fun _ _ _ grown calls => grown.call calls) run

end Grown

/-! ## The end of the file -/

/-- The end is behind the bytes of all sections. -/
theorem endOfContainers_eq (position : Nat) (sizes : List (List Nat)) :
    endOfContainers position sizes =
      position + (sizes.flatten.map osWrite).sum := by
  have behind (position : Nat) (sizes : List Nat) :
      (writeRawData position sizes).2 =
        position + (sizes.map osWrite).sum := by
    induction sizes generalizing position with
    | nil => rfl
    | cons size rest inductionHypothesis =>
        rw [writeRawData]
        dsimp only
        rw [inductionHypothesis, List.map_cons, List.sum_cons]
        by_cases isEmpty : size = 0
        · simp [isEmpty, osWrite]
        · simp [isEmpty, Nat.add_assoc]
  induction sizes generalizing position with
  | nil => rfl
  | cons first rest inductionHypothesis =>
      rw [endOfContainers, inductionHypothesis, behind, List.flatten_cons,
        List.map_append, List.sum_append, Nat.add_assoc]

/-- Complete writes add up to the sizes. -/
theorem sum_osWrite
    {sizes : List Nat} (complete : ∀ size ∈ sizes, size ≤ maxTransfer) :
    (sizes.map osWrite).sum = sizes.sum := by
  have same : sizes.map osWrite = sizes := by
    conv_rhs => rw [← List.map_id sizes]
    refine List.map_congr_left fun size member => ?_
    exact Nat.min_eq_left (complete size member)
  rw [same]

/-- The bytes of the chunks that were filled before. -/
def closedBytes (d : Dynamic) : Nat :=
  ((d.initArray.closed.map Chunk.shSize).map osWrite).sum +
    ((d.relaPlt.closed.map Chunk.shSize).map osWrite).sum +
    ((d.dynsym.closed.map Chunk.shSize).map osWrite).sum +
    ((d.dynstr.closed.map Chunk.shSize).map osWrite).sum

/-- Chunks that were filled before have bytes. -/
theorem sum_closed_eq_zero_iff
    {Entry : Type} {closed : List (Chunk Entry)}
    (notEmpty : ∀ chunk ∈ closed, 0 < chunk.shSize) :
    ((closed.map Chunk.shSize).map osWrite).sum = 0 ↔ closed = [] := by
  constructor
  · intro isZero
    cases closed with
    | nil => rfl
    | cons chunk rest =>
        have isSome := notEmpty chunk List.mem_cons_self
        simp only [List.map_cons, List.sum_cons, osWrite,
          maxTransfer] at isZero
        omega
  · rintro rfl
    rfl

/-- No table has filled a chunk when no bytes are in such chunks. -/
theorem Grown.closedBytes_eq_zero_iff {d : Dynamic} (grown : Grown d) :
    closedBytes d = 0 ↔ NoneFilled d := by
  have initArray := sum_closed_eq_zero_iff grown.initArray.notEmpty
  have relaPlt := sum_closed_eq_zero_iff grown.relaPlt.notEmpty
  have dynsym := sum_closed_eq_zero_iff grown.dynsymNotEmpty
  have dynstr := sum_closed_eq_zero_iff grown.dynstrNotEmpty
  constructor
  · intro isZero
    unfold closedBytes at isZero
    exact
      { initArray := initArray.mp (by omega)
        relaPlt := relaPlt.mp (by omega)
        dynsym := dynsym.mp (by omega)
        dynstr := dynstr.mp (by omega) }
  · intro none
    rw [closedBytes, initArray.mpr none.initArray, relaPlt.mpr none.relaPlt,
      dynsym.mpr none.dynsym, dynstr.mpr none.dynstr]

/-- Every chunk that is being filled is written at once. -/
theorem Grown.complete
    {baseAddress pltAddress : Nat} {d : Dynamic} (grown : Grown d)
    (ledger : Ledger baseAddress pltAddress [] d) :
    ∀ size ∈ behindPltGot d, size ≤ maxTransfer := by
  have initSize := grown.initArray.size_le
  have relaSize := grown.relaPlt.size_le
  obtain ⟨finiSize, finiFits⟩ := ledger.finiArray
  have symSize :
      d.dynsym.size ≤ defaultNum * sizeofSym + defaultNum := by
    have room := grown.dynsymRoom
    by_cases noClosed : d.dynsym.closed = []
    · rw [grown.dynsymOpen noClosed]
      omega
    · rw [grown.dynsymFilled noClosed]
      omega
  have hashSize : d.gnuHashSize ≤ 56 + 4 * (defaultNum * 1 + defaultNum) := by
    have room := grown.dynsymRoom
    have isOne :
        defaultNum * d.dynsym.closed.length ≤ defaultNum * 1 :=
      Nat.mul_le_mul_left _ grown.dynsymOnce
    have hash := grown.gnuHash
    omega
  have strSize := grown.dynstr
  have number : d.neededNum = 0 := ledger.neededNum
  simp only [sizeofDyn, sizeofRela, sizeofSym, arrayNum, finiRoom_eq,
    defaultNum, maxTransfer, behindPltGot, Dynamic.tableSizes,
    Dynamic.dynsymBytes, List.mem_cons, List.not_mem_nil, or_false,
    number] at *
  rintro size (rfl | rfl | rfl | rfl | rfl | rfl | rfl) <;> omega

/-- The bytes that are written for the tables. -/
theorem Grown.sum_shSizes_filled
    {baseAddress pltAddress : Nat} {d : Dynamic} (grown : Grown d)
    (ledger : Ledger baseAddress pltAddress [] d)
    (entries : List DynEntry) :
    ((d.filled entries).shSizes.flatten.map osWrite).sum =
      closedBytes d + (behindPltGot d).sum := by
  have whole := sum_osWrite (grown.complete ledger)
  rw [← whole]
  simp only [Dynamic.shSizes, Dynamic.filled, Dynamic.sized, Table.shSizes,
    Table.setShSize, ledger.finiClosed, closedBytes, behindPltGot,
    Dynamic.tableSizes, List.flatten_cons, List.flatten_nil, List.map_append,
    List.map_cons, List.map_nil, List.sum_append, List.sum_cons,
    List.sum_nil, List.nil_append, List.append_nil, List.cons_append]
  omega

/-- Without libraries the loop sets the fixed entries. -/
theorem Ledger.setDynanmic_noLibrary
    {baseAddress pltAddress : Nat} {d : Dynamic} {tagAfter : Nat → DynTag}
    (ledger : Ledger baseAddress pltAddress [] d) :
    d.setDynanmic tagAfter =
      some
        (d.filled (d.fixedEntries (d.predicted d.tablesStart)),
          u32 (d.tablesStart + d.tableSizes.sum)) := by
  have number : d.neededNum = 0 := ledger.neededNum
  have counter := ledger.dynamicEntryNum
  have table := ledger.dynamicTable
  clear ledger
  cases d
  dsimp only at number counter table
  subst number counter table
  rw [Dynamic.setDynanmic, Dynamic.setNeeded, Option.bind_some]
  have isLoop (state : Dynamic × Nat) :
      (List.range' 1 13).foldlM (Dynamic.setTag tagAfter) state =
        dynamicEntryTag.tail.foldlM
          (fun (state : Dynamic × Nat) tag =>
            state.1.setDynamicEntry tag state.2)
          state :=
    Dynamic.foldlM_setTag tagAfter state 0
  have run (d : Dynamic) (start : Nat)
      (noEntries : d.dynamicTable.entries = []) :
      dynamicEntryTag.tail.foldlM
          (fun (state : Dynamic × Nat) tag =>
            state.1.setDynamicEntry tag state.2)
          (d, u32 start) =
        some
          ({ d.sized with
              dynamicTable :=
                (d.appendDyn
                  (d.fixedEntries (d.predicted start))).dynamicTable },
            u32 (start + d.tableSizes.sum)) :=
    Dynamic.foldlM_setDynamicEntry (d.effects_fixed start)
      (by rw [noEntries]; decide)
  exact (isLoop _).trans (run _ _ rfl)

/-- Where the file ends. -/
theorem Grown.fileEnd_eq
    {baseAddress pltAddress base : Nat} {d : Dynamic} {read : Link}
    (grown : Grown d) (ledger : Ledger baseAddress pltAddress [] d)
    (between : BetweenObjects base read)
    (fits :
      read.baseAddress + read.programHeaderTail +
        read.shSizes.flatten.sum < 2 ^ 32)
    (complete : ∀ size ∈ read.shSizes.flatten, size ≤ maxTransfer)
    (entries : List DynEntry) :
    fileEnd ((layOut false read).setPltSize (d.pltGotNum * 0x10))
        (d.filled entries).shSizes =
      outEnd read d + closedBytes d := by
  have laidOut := between.laidOut false (d.pltGotNum * 0x10) fits
  have pltFits : d.pltGotNum * 0x10 ≤ maxTransfer := by
    have few := ledger.pltGot
    simp only [defaultNum, maxTransfer] at few ⊢
    omega
  have pltBytes : osWrite (d.pltGotNum * 0x10) = d.pltGotNum * 0x10 :=
    Nat.min_eq_left pltFits
  rw [fileEnd, endOfContainers_eq, laidOut.shSizes, laidOut.programHeaderTail,
    List.flatten_append, List.flatten_append, List.map_append,
    List.map_append, List.sum_append, List.sum_append,
    sum_osWrite complete, grown.sum_shSizes_filled ledger entries, outEnd]
  simp only [pltSizes, Bool.false_eq_true, ↓reduceIte, List.flatten_singleton,
    List.map_singleton, List.sum_singleton, pltBytes]
  omega

/-- Setting an entry leaves the counter alone. -/
theorem Dynamic.dynamicEntryNum_of_setTag
    {tagAfter : Nat → DynTag} {state next : Dynamic × Nat} {i : Nat}
    (stepped : Dynamic.setTag tagAfter state i = some next) :
    next.1.dynamicEntryNum = state.1.dynamicEntryNum := by
  obtain ⟨⟨value, offset, after⟩, effect, writes⟩ :=
    Option.bind_eq_some_iff.mp stepped
  obtain ⟨written, stored, rfl⟩ := Option.map_eq_some_iff.mp writes
  have same : after.dynamicEntryNum = state.1.dynamicEntryNum := by
    cases isTag : tagAt tagAfter i <;> rw [isTag] at effect <;>
      cases effect <;> rfl
  unfold Dynamic.writeDyn at stored
  split at stored
  · cases stored
    exact same
  · cases stored

/-- So does the loop. -/
theorem Dynamic.dynamicEntryNum_of_foldlM
    {tagAfter : Nat → DynTag} {state next : Dynamic × Nat}
    {indices : List Nat}
    (run : indices.foldlM (Dynamic.setTag tagAfter) state = some next) :
    next.1.dynamicEntryNum = state.1.dynamicEntryNum := by
  induction indices generalizing state with
  | nil =>
      cases run
      rfl
  | cons i rest inductionHypothesis =>
      rw [List.foldlM_cons] at run
      obtain ⟨middle, first, later⟩ := Option.bind_eq_some_iff.mp run
      rw [inductionHypothesis later, dynamicEntryNum_of_setTag first]

/-- The counter after the loops has all libraries. -/
theorem Ledger.dynamicEntryNum_of_setDynanmic
    {baseAddress pltAddress : Nat} {libraries : List CString}
    {d : Dynamic} {tagAfter : Nat → DynTag} {result : Dynamic × Nat}
    (ledger : Ledger baseAddress pltAddress libraries d)
    (sets : d.setDynanmic tagAfter = some result) :
    result.1.dynamicEntryNum = 13 + libraries.length := by
  simp only [Dynamic.setDynanmic] at sets
  obtain ⟨needed, first, second⟩ := Option.bind_eq_some_iff.mp sets
  have noEntries : d.dynamicTable.entries.length = 0 := by
    simp [ledger.dynamicTable]
  obtain ⟨_, _, number⟩ :=
    Dynamic.length_of_setNeeded first
      (by rw [noEntries]; exact Nat.zero_le _)
  have kept :=
    Dynamic.dynamicEntryNum_of_foldlM second
  rw [kept, ← ledger.neededNum, ← ledger.dynamicEntryNum]
  exact number

end BinTools.Elf
