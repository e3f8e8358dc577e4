import BinTools.ElfSections

namespace BinTools.Elf

/-!
# The relocation sections of an object

Every `.rela.*` section of an object should be on the list that
`__z__link__elf_do_reloc` walks.  The append links a new cell behind the head
and never behind the tail, so a third section takes the second one off the
list: what is walked is the first section and the last.
-/

/-- The kind of relocation section a header describes, if any. -/
def relocSecOf (shdr : Shdr) : Option RelocSec :=
  if shdr.shType = shtRela then relocSec shdr.name else none

/-- Position and kind of the relocation sections among consecutive headers. -/
def relocSections (first : Nat) (sections : List Shdr) :
    List (Nat × RelocSec) :=
  (sections.zipIdx first).filterMap fun (shdr, p) =>
    (relocSecOf shdr).map fun sec => (p, sec)

/-- Every entry of every relocation section, in header order. -/
def wantedCalls (sectionHead : Nat) (sections : List Shdr) : List RelocCall :=
  sections.flatMap fun shdr =>
    (relocSecOf shdr).elim [] fun sec =>
      shdr.relas.map fun rela =>
        { rela := rela
          subShdr := sectionHead + shdr.shInfo
          sec := sec }

/--
The list contains every relocation section of the object once, in header
order, and the relocation pass makes one call for each of their entries.
-/
def RelocationsKept (link : Link) (file : ElfFile) : Prop :=
  ∃ oc ∈ (readSections link file).2,
    (∃ cells ∈ relocationCells (readSections link file).1 oc,
      cells.map (fun cell => (cell.p, cell.sec)) =
        relocSections link.headers.length file.sections) ∧
    relocCalls (readSections link file).1 oc =
      some (wantedCalls link.headers.length file.sections)

instance (link : Link) (file : ElfFile) :
    Decidable (RelocationsKept link file) :=
  inferInstanceAs (Decidable (∃ oc ∈ _, (∃ cells ∈ _, _) ∧ _))

/-- The object has at most two relocation sections. -/
def AtMostTwo (file : ElfFile) : Prop :=
  (file.sections.filter fun shdr => (relocSecOf shdr).isSome).length ≤ 2

instance (file : ElfFile) : Decidable (AtMostTwo file) :=
  inferInstanceAs (Decidable (_ ≤ _))

/-! ## The cells that the append leaves -/

/-- The cells of an object, allocated from `start` on: only the head links. -/
def headLinkedCells (start : Nat) :
    List (Nat × RelocSec) → List RelocationChain
  | [] => []
  | (p, sec) :: rest =>
      { sec := sec
        p := p
        next := if rest = [] then none else some (start + rest.length) } ::
      rest.map fun (p, sec) => { sec := sec, p := p, next := none }

/-- After `found` was appended behind `before`, the head links to the last. -/
structure HeadLinked
    (before : List RelocationChain) (found : List (Nat × RelocSec))
    (link : Link) (oc : ObjectChain) : Prop where
  relocs : link.relocs = before ++ headLinkedCells before.length found
  head :
    oc.relocSectionHead = if found = [] then none else some before.length

/-- Modifying the first element behind a prefix. -/
theorem modify_behind
    {α : Type*} (before after : List α) (element : α) (change : α → α) :
    (before ++ element :: after).modify before.length change =
      before ++ change element :: after := by
  induction before with
  | nil => simp
  | cons first rest inductionHypothesis => simpa using inductionHypothesis

/-- One cell is allocated for every relocation section found. -/
theorem length_headLinkedCells
    (start : Nat) (found : List (Nat × RelocSec)) :
    (headLinkedCells start found).length = found.length := by
  cases found <;> simp [headLinkedCells]

/-- Appending one more section redirects the head to it. -/
theorem HeadLinked.appendReloc
    {before : List RelocationChain} {found : List (Nat × RelocSec)}
    {link : Link} {oc : ObjectChain} {name : CString} {p : Nat}
    (linked : HeadLinked before found link oc) :
    HeadLinked before
      (found ++ ((relocSec name).map fun sec => (p, sec)).toList)
      (appendReloc link oc name p).1 (appendReloc link oc name p).2 := by
  cases kind : relocSec name with
  | none => simpa [Elf.appendReloc, kind] using linked
  | some sec =>
      cases found with
      | nil =>
          have noCells : link.relocs = before := by
            simpa [headLinkedCells] using linked.relocs
          have noHead : oc.relocSectionHead = none := linked.head
          constructor <;>
            simp [Elf.appendReloc, kind, noHead, noCells, headLinkedCells]
      | cons first rest =>
          have head : oc.relocSectionHead = some before.length := by
            simpa using linked.head
          have cells := linked.relocs
          simp only [headLinkedCells] at cells
          constructor
          · simp only [Elf.appendReloc, kind, head, cells, List.append_assoc,
              List.cons_append, modify_behind]
            simp [headLinkedCells]
          · simp [Elf.appendReloc, kind, head]

/-- Inserting a section leaves the relocation cells alone. -/
@[simp]
theorem Link.insert_relocs (link : Link) (name : CString) (p : Nat) :
    (link.insert name p).relocs = link.relocs :=
  rfl

/-- Inserting a note section does so too. -/
@[simp]
theorem insertNote_relocs (link : Link) (name : CString) (p : Nat) :
    (insertNote link name p).relocs = link.relocs := by
  unfold insertNote
  split_ifs <;> rfl

/-- Appending a relocation section does not move the object's headers. -/
@[simp]
theorem appendReloc_sectionHead
    (link : Link) (oc : ObjectChain) (name : CString) (p : Nat) :
    (appendReloc link oc name p).2.sectionHead = oc.sectionHead := by
  unfold appendReloc
  split
  · rfl
  · dsimp only
    split <;> rfl

/-- One callback appends the section it is called for, if it is one. -/
theorem HeadLinked.onSection
    {before : List RelocationChain} {found : List (Nat × RelocSec)}
    {link : Link} {oc : ObjectChain}
    (linked : HeadLinked before found link oc) (p : Nat) (shdr : Shdr) :
    ∃ next object,
      onSection link (some oc) p shdr = (next, some object) ∧
        HeadLinked before
          (found ++ ((relocSecOf shdr).map fun sec => (p, sec)).toList)
          next object ∧
        object.sectionHead = oc.sectionHead := by
  have unchanged :
      ∀ next object,
        relocSecOf shdr = none → next.relocs = link.relocs →
          object.relocSectionHead = oc.relocSectionHead →
            HeadLinked before
              (found ++ ((relocSecOf shdr).map fun sec => (p, sec)).toList)
              next object := by
    intro next object notReloc sameRelocs sameHead
    constructor
    · simpa [notReloc, sameRelocs] using linked.relocs
    · simpa [notReloc, sameHead] using linked.head
  by_cases isRela : shdr.shType = shtRela
  · have kind : relocSecOf shdr = relocSec shdr.name := by
      simp [relocSecOf, isRela]
    refine
      ⟨(Elf.appendReloc link oc shdr.name p).1,
        (Elf.appendReloc link oc shdr.name p).2, ?_, ?_, by simp⟩
    · simp [Elf.onSection, isRela, shtRela, shtProgbits, shtSymtab]
    · rw [kind]
      exact linked.appendReloc
  · have notReloc : relocSecOf shdr = none := by simp [relocSecOf, isRela]
    unfold Elf.onSection
    dsimp only
    split_ifs <;>
      exact ⟨_, _, rfl, unchanged _ _ notReloc (by simp) rfl, rfl⟩

/-- The walk over the headers appends the relocation sections it meets. -/
theorem HeadLinked.runThroughShdr
    {before : List RelocationChain} {found : List (Nat × RelocSec)}
    {link : Link} {oc : ObjectChain}
    (linked : HeadLinked before found link oc)
    (p : Nat) (sections : List Shdr) :
    ∃ next object,
      runThroughShdr link (some oc) p sections = (next, some object) ∧
        HeadLinked before (found ++ relocSections p sections) next object ∧
        object.sectionHead = oc.sectionHead := by
  induction sections generalizing found link oc p with
  | nil =>
      exact ⟨link, oc, rfl, by simpa [relocSections] using linked, rfl⟩
  | cons shdr rest inductionHypothesis =>
      obtain ⟨next, object, stepped, nextLinked, sameHead⟩ :=
        linked.onSection p shdr
      obtain ⟨last, final, run, lastLinked, lastHead⟩ :=
        inductionHypothesis nextLinked (p + 1)
      refine ⟨last, final, ?_, ?_, lastHead.trans sameHead⟩
      · simp [Elf.runThroughShdr, stepped, run]
      · cases kind : relocSecOf shdr <;>
          simpa [relocSections, kind] using lastLinked

/-! ## What the relocation pass walks -/

/-- The first and the last element. -/
def firstAndLast {α : Type*} : List α → List α
  | [] => []
  | [only] => [only]
  | first :: second :: rest =>
      [first, (second :: rest).getLast (List.cons_ne_nil _ _)]

/-- Only short lists are made of their first and last element. -/
theorem firstAndLast_eq_iff {α : Type*} {elements : List α} :
    firstAndLast elements = elements ↔ elements.length ≤ 2 := by
  constructor
  · intro same
    rw [← same]
    match elements with
    | [] => simp [firstAndLast]
    | [_] => simp [firstAndLast]
    | _ :: _ :: _ => simp [firstAndLast]
  · intro short
    match elements, short with
    | [], _ => rfl
    | [_], _ => rfl
    | [_, _], _ => rfl

/-- The cell at a position behind the prefix. -/
theorem HeadLinked.cell_at
    {before : List RelocationChain} {found : List (Nat × RelocSec)}
    {link : Link} {oc : ObjectChain}
    (linked : HeadLinked before found link oc) (position : Nat) :
    link.relocs[before.length + position]? =
      (headLinkedCells before.length found)[position]? := by
  rw [linked.relocs, List.getElem?_append_right (Nat.le_add_right _ _)]
  simp

/-- The relocation pass walks the first and the last relocation section. -/
theorem HeadLinked.relocationCells_eq
    {before : List RelocationChain} {found : List (Nat × RelocSec)}
    {link : Link} {oc : ObjectChain}
    (linked : HeadLinked before found link oc) :
    ∃ cells,
      relocationCells link oc = some cells ∧
        cells.map (fun cell => (cell.p, cell.sec)) = firstAndLast found := by
  let next : Nat → Option Nat :=
    fun cell => (link.relocs[cell]?).bind RelocationChain.next
  have arenaLength : found.length ≤ link.relocs.length := by
    rw [linked.relocs, List.length_append, length_headLinkedCells]
    exact Nat.le_add_left _ _
  have firstCell := linked.cell_at 0
  match found, linked, arenaLength, firstCell with
  | [], linked, _, _ =>
      have noHead : oc.relocSectionHead = none := linked.head
      exact ⟨[], by simp [relocationCells, noHead, PointerList.follow], rfl⟩
  | [(p, sec)], linked, arenaLength, firstCell =>
      have head : oc.relocSectionHead = some before.length := by
        simpa using linked.head
      simp only [Nat.add_zero] at firstCell
      have walked : PointerList.Linked next oc.relocSectionHead [_] :=
        ⟨head, by simp [next, firstCell, headLinkedCells, PointerList.Linked]⟩
      have followed := walked.follow_eq (by simpa using arenaLength)
      exact ⟨[{ sec := sec, p := p, next := none }],
        by simp [relocationCells, next, followed, firstCell, headLinkedCells],
        rfl⟩
  | (p, sec) :: second :: rest, linked, arenaLength, firstCell =>
      have head : oc.relocSectionHead = some before.length := by
        simpa using linked.head
      simp only [Nat.add_zero] at firstCell
      let last := (second :: rest).getLast (List.cons_ne_nil _ _)
      have lastFound : (second :: rest)[rest.length]? = some last := by
        have asLast := List.getLast?_eq_some_getLast (List.cons_ne_nil second rest)
        rwa [List.getLast?_eq_getElem?] at asLast
      have lastCell :
          link.relocs[before.length + (rest.length + 1)]? =
            some { sec := last.2, p := last.1, next := none } := by
        rw [linked.cell_at, headLinkedCells, List.getElem?_cons_succ,
          List.getElem?_map, lastFound]
        rfl
      have walked :
          PointerList.Linked next oc.relocSectionHead
            [before.length, before.length + (rest.length + 1)] :=
        ⟨head, by simp [next, firstCell, headLinkedCells],
          by simp [next, lastCell, PointerList.Linked]⟩
      have enough : 2 ≤ link.relocs.length := by
        simp only [List.length_cons] at arenaLength
        omega
      have followed := walked.follow_eq (by simpa using enough)
      exact
        ⟨[{ sec := sec
            p := p
            next := some (before.length + (rest.length + 1)) },
          { sec := last.2, p := last.1, next := none }],
          by simp [relocationCells, next, followed, firstCell, lastCell,
            headLinkedCells],
          rfl⟩

/-- The calls for the relocation section at a position of the arena. -/
def callsAt (headers : List Shdr) (sectionHead : Nat)
    (section_ : Nat × RelocSec) : Option (List RelocCall) :=
  (headers[section_.1]?).map fun relShdr =>
    relShdr.relas.map fun rela =>
      { rela := rela
        subShdr := sectionHead + relShdr.shInfo
        sec := section_.2 }

/-- The entries of the sections found are the entries wanted. -/
theorem mapM_callsAt
    {headers front sections : List Shdr} (sectionHead : Nat)
    (arena : headers = front ++ sections) :
    ((relocSections front.length sections).mapM
        (callsAt headers sectionHead)).map List.flatten =
      some (wantedCalls sectionHead sections) := by
  induction sections generalizing front with
  | nil => rfl
  | cons shdr rest inductionHypothesis =>
      have restArena : headers = (front ++ [shdr]) ++ rest := by
        simp [arena]
      have later := inductionHypothesis restArena
      simp only [List.length_append, List.length_singleton] at later
      cases kind : relocSecOf shdr with
      | none => simpa [relocSections, wantedCalls, kind] using later
      | some sec =>
          have here : headers[front.length]? = some shdr := by simp [arena]
          obtain ⟨calls, restCalls, flattened⟩ :=
            Option.map_eq_some_iff.mp later
          have sections :
              relocSections front.length (shdr :: rest) =
                (front.length, sec) ::
                  relocSections (front.length + 1) rest := by
            simp [relocSections, kind]
          rw [sections, List.mapM_cons, restCalls, callsAt, here]
          simp [wantedCalls, kind, flattened]

/-! ## Every relocation section is walked exactly when there are two at most -/

/-- There are as many positions as headers of relocation sections. -/
theorem length_relocSections (first : Nat) (sections : List Shdr) :
    (relocSections first sections).length =
      (sections.filter fun shdr => (relocSecOf shdr).isSome).length := by
  induction sections generalizing first with
  | nil => rfl
  | cons shdr rest inductionHypothesis =>
      have later := inductionHypothesis (first + 1)
      cases kind : relocSecOf shdr <;>
        simpa [relocSections, kind] using later

/-- Reading an object leaves the cells of all of its relocation sections. -/
theorem readSections_headLinked (link : Link) (file : ElfFile) :
    ∃ read oc,
      readSections link file = (read, some oc) ∧
        HeadLinked link.relocs
          (relocSections link.headers.length file.sections) read oc ∧
        read.headers = link.headers ++ file.sections ∧
        oc.sectionHead = link.headers.length := by
  obtain ⟨null, rest, split⟩ : ∃ null rest, file.sections = null :: rest := by
    have nullFirst := file.nullFirst
    cases sections : file.sections with
    | nil => simp [sections] at nullFirst
    | cons null rest => exact ⟨null, rest, rfl⟩
  have nullType : null.shType = 0 := by
    simpa [split] using file.nullFirst
  have notReloc : relocSecOf null = none := by
    simp [relocSecOf, nullType, shtRela]
  have initially :
      HeadLinked link.relocs []
        { link with headers := link.headers ++ file.sections }
        { sectionHead := link.headers.length } :=
    ⟨by simp [headLinkedCells], rfl⟩
  obtain ⟨read, oc, run, linked, sameHead⟩ :=
    initially.runThroughShdr (link.headers.length + 1) rest
  have reading : readSections link file = (read, some oc) := by
    simpa [readSections, split, runThroughShdr, onSection] using run
  refine ⟨read, oc, reading, ?_, ?_, sameHead⟩
  · simpa [split, relocSections, notReloc] using linked
  · simpa [reading] using readSections_headers link file

/-- A `.rela.*` header with one entry. -/
def relaHeader (name : String) : Shdr where
  name := .ofString name
  shType := shtRela
  shSize := sizeofRela

end BinTools.Elf
