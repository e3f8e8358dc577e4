import Mathlib.Algebra.Order.BigOperators.Group.List
import BinTools.CoffObject

namespace BinTools.CoffObject

/-!
# The symbol pass over COFF objects

The callback tells primary from auxiliary records by a countdown that lives on
from call to call and from object to object.  In a well-formed table it is back
at zero when the table ends, so the primary records are the ones that the
counts of their predecessors leave over.  A section name or an exported name
that is too long for its line in the log ends the pass.
-/

open LogLine

/-- The addresses of the section headers of an object, in order. -/
def Memory.sectionAddresses (mem : Memory) (base : Nat) : List Nat :=
  CountedLoop.visited (fun r14 => u64 (r14 + sizeofSectionHeader))
    (mem.sectionTable base) (mem.numberOfSections base)

/-- The addresses of the symbol records of an object, in order. -/
def Memory.recordAddresses (mem : Memory) (base : Nat) : List Nat :=
  CountedLoop.visited (fun r15 => u64 (r15 + sizeofSymbol))
    (mem.symbolTable base) (mem.numberOfSymbols base)

/-- The records left over when every one takes its auxiliary records away. -/
def Memory.primaries (mem : Memory) : List Nat → List Nat
  | [] => []
  | is :: rest =>
      is ::
        mem.primaries (rest.drop (mem.imageSymbol is).numberOfAuxSymbols)
termination_by addresses => addresses.length
decreasing_by
  simp only [List.length_drop, List.length_cons]
  omega

/-- No record announces auxiliary records behind the end of the table. -/
def Memory.AuxFit (mem : Memory) : List Nat → Prop
  | [] => True
  | is :: rest =>
      (mem.imageSymbol is).numberOfAuxSymbols ≤ rest.length ∧
        mem.AuxFit (rest.drop (mem.imageSymbol is).numberOfAuxSymbols)
termination_by addresses => addresses.length
decreasing_by
  simp only [List.length_drop, List.length_cons]
  omega

instance Memory.decidableAuxFit (mem : Memory) :
    (addresses : List Nat) → Decidable (mem.AuxFit addresses)
  | [] => isTrue (by rw [Memory.AuxFit]; trivial)
  | is :: rest =>
      have := mem.decidableAuxFit
        (rest.drop (mem.imageSymbol is).numberOfAuxSymbols)
      decidable_of_iff
        ((mem.imageSymbol is).numberOfAuxSymbols ≤ rest.length ∧
          mem.AuxFit (rest.drop (mem.imageSymbol is).numberOfAuxSymbols))
        (by rw [Memory.AuxFit])
termination_by addresses => addresses.length
decreasing_by
  simp only [List.length_drop, List.length_cons]
  omega

/-- A symbol that its object defines for others. -/
def ImageSymbol.External (symbol : ImageSymbol) : Prop :=
  symbol.storageClass = 2 ∧ 0 < symbol.sectionNumber

/-- A symbol that the callback exports. -/
def ImageSymbol.Registered (symbol : ImageSymbol) : Prop :=
  symbol.storageClass = 2 ∧ symbol.sectionNumber ≠ 0

instance (symbol : ImageSymbol) : Decidable symbol.External :=
  inferInstanceAs (Decidable (_ ∧ _))

instance (symbol : ImageSymbol) : Decidable symbol.Registered :=
  inferInstanceAs (Decidable (_ ∧ _))

/-- The primary records of an object, in order. -/
def Memory.primaryRecords (mem : Memory) (base : Nat) : List Nat :=
  mem.primaries (mem.recordAddresses base)

/-- The records that an object should export, in order. -/
def Memory.exportedRecords (mem : Memory) (base : Nat) : List Nat :=
  (mem.primaryRecords base).filter fun is => (mem.imageSymbol is).External

/-- The records that the callback exports, in order. -/
def Memory.registeredRecords (mem : Memory) (base : Nat) : List Nat :=
  (mem.primaryRecords base).filter fun is => (mem.imageSymbol is).Registered

/-- Register one object and record what the symbol callback is called for. -/
def readRecording
    (mem : Memory) (outfileName : CString) (current : State × List Nat)
    (base : Nat) : Option (State × List Nat) :=
  (runThroughCoffShdr3 mem base { current.1 with allocated := false }).bind
    fun state =>
      runThroughCoffSymtable3 mem base
        (CountedLoop.recording (coffSymtabCallback mem outfileName))
        (state, current.2)

/--
The pass over some objects ends, has called back for every record once and in
order, and has exported just what the objects define for others.
-/
structure PassRight
    (mem : Memory) (bases : List Nat) (final : State)
    (calls : List Nat) : Prop where
  calls : calls = bases.flatMap mem.recordAddresses
  symbols :
    (final.objects.map fun oc => oc.symbols.map SymbolChain.p) =
      [] :: bases.map mem.exportedRecords
  count :
    final.exportFuncCount =
      (bases.map fun base => (mem.exportedRecords base).length).sum

instance
    (mem : Memory) (bases : List Nat) (final : State) (calls : List Nat) :
    Decidable (PassRight mem bases final calls) :=
  decidable_of_iff
    (calls = bases.flatMap mem.recordAddresses ∧
      (final.objects.map fun oc => oc.symbols.map SymbolChain.p) =
          [] :: bases.map mem.exportedRecords ∧
        final.exportFuncCount =
          (bases.map fun base => (mem.exportedRecords base).length).sum)
    ⟨fun right => ⟨right.1, right.2.1, right.2.2⟩,
      fun right => ⟨right.calls, right.symbols, right.count⟩⟩

/-- The pass over all objects, from the start of the linker, is right. -/
def SymbolPassRight
    (mem : Memory) (outfileName : CString) (bases : List Nat) : Prop :=
  ∃ final calls,
    bases.foldlM (readRecording mem outfileName) ({}, []) =
        some (final, calls) ∧
      PassRight mem bases final calls

instance (mem : Memory) (outfileName : CString) (bases : List Nat) :
    Decidable (SymbolPassRight mem outfileName bases) :=
  match isFinal :
      bases.foldlM (readRecording mem outfileName) ({}, []) with
  | none =>
      isFalse fun ⟨_, _, isSome, _⟩ =>
        absurd (isFinal.symm.trans isSome) (Option.some_ne_none _).symm
  | some (final, calls) =>
      decidable_of_iff (PassRight mem bases final calls)
        ⟨fun right => ⟨final, calls, isFinal, right⟩,
          fun ⟨_, _, isSome, right⟩ => by
            cases isFinal.symm.trans isSome
            exact right⟩

/-- The names of an object's sections fit the lines about their containers. -/
def Memory.SectionsLogged (mem : Memory) (base : Nat) : Prop :=
  ∀ isec ∈ mem.sectionAddresses base,
    IsLogged
      (sectionContainerLine (mem.sectionName isec (mem.stringTable base)))

instance (mem : Memory) (base : Nat) : Decidable (mem.SectionsLogged base) :=
  inferInstanceAs (Decidable (∀ isec ∈ _, _))

/-- The names of the exported records fit the lines about them. -/
def Memory.ExportsLogged (mem : Memory) (base : Nat) : Prop :=
  ∀ is ∈ mem.exportedRecords base,
    IsLogged (exportChainLine (mem.getName is (mem.stringTable base)))

instance (mem : Memory) (base : Nat) : Decidable (mem.ExportsLogged base) :=
  inferInstanceAs (Decidable (∀ is ∈ _, _))

/--
Every object has sections and symbols, the names of its sections and of its
exports fit their lines, no external symbol has one of the special section
numbers, and a counter can hold the number of exports.
-/
structure Regular (mem : Memory) (bases : List Nat) : Prop where
  sections : ∀ base ∈ bases, mem.numberOfSections base ≠ 0
  symbols : ∀ base ∈ bases, mem.numberOfSymbols base ≠ 0
  ordinary :
    ∀ base ∈ bases, ∀ is ∈ mem.primaryRecords base,
      (mem.imageSymbol is).storageClass = 2 →
        0 ≤ (mem.imageSymbol is).sectionNumber
  sectionsLogged : ∀ base ∈ bases, mem.SectionsLogged base
  exportsLogged : ∀ base ∈ bases, mem.ExportsLogged base
  few :
    (bases.map fun base => (mem.exportedRecords base).length).sum < 2 ^ 31

/-! ## One symbol table -/

/-- Export the record at an address. -/
def State.exportRecord
    (mem : Memory) (outfileName : CString) (state : State) (is : Nat) :
    Option State :=
  (state.allocExportSymbolChain is
      (mem.getName is state.current.strTableP)
      (mem.imageSymbol is).sectionNumber).map fun grown =>
    grown.countExport outfileName (mem.getName is state.current.strTableP)

/-- The symbol chain cell of the record at an address. -/
def Memory.symbolCell (mem : Memory) (oc : ObjectChain) (is : Nat) :
    SymbolChain where
  p := is
  name := mem.getName is oc.strTableP
  schain := exportSchain (mem.imageSymbol is).sectionNumber 0 oc.sections

/-- What exporting some records changes. -/
structure State.Exports
    (mem : Memory) (records : List Nat) (state next : State) : Prop where
  auxSymbols : next.auxSymbols = state.auxSymbols
  allocated : next.allocated = state.allocated
  sections : next.sections = state.sections
  containers : next.containers = state.containers
  earlier : next.earlier = state.earlier
  strTableP : next.current.strTableP = state.current.strTableP
  objectSections : next.current.sections = state.current.sections
  symbols :
    next.current.symbols =
      state.current.symbols ++ records.map (mem.symbolCell state.current)
  exportFuncCount :
    ∀ total, state.exportFuncCount = int32 total →
      next.exportFuncCount = int32 (total + records.length)

/-- What a primary record does, but for its auxiliary records. -/
def State.visitRecord
    (mem : Memory) (outfileName : CString) (state : State) (is : Nat) :
    Option State :=
  if (mem.imageSymbol is).Registered then
    state.exportRecord mem outfileName is
  else
    some state

/-- A record that is exported fitted its line. -/
theorem State.exports_of_exportRecord
    {mem : Memory} {outfileName : CString} {state next : State} {is : Nat}
    (isNext : state.exportRecord mem outfileName is = some next) :
    IsLogged (exportChainLine (mem.getName is state.current.strTableP)) ∧
      state.Exports mem [is] next := by
  obtain ⟨grown, isGrown, rfl⟩ := Option.map_eq_some_iff.mp isNext
  obtain ⟨isLogged, isGrown⟩ := Option.ite_none_right_eq_some.mp isGrown
  cases isGrown
  refine ⟨isLogged, ?_⟩
  exact
    { auxSymbols := rfl
      allocated := rfl
      sections := rfl
      containers := rfl
      earlier := rfl
      strTableP := rfl
      objectSections := rfl
      symbols := rfl
      exportFuncCount := fun total isTotal =>
        (congrArg (fun count => int32 (count + 1)) isTotal).trans
          Int.bmod_add_bmod }

/-- Its name is counted, the first time with what the directory has itself. -/
theorem State.exportDirectoryLen_of_exportRecord
    {mem : Memory} {outfileName : CString} {state next : State} {is : Nat}
    (isNext : state.exportRecord mem outfileName is = some next) :
    next.exportDirectoryLen =
      int32
        ((if state.exportDirectoryLen = 0 then
            int32 (sizeofExportDirectory + outfileName.length + 1)
          else
            state.exportDirectoryLen) +
          (4 + 4 + 2 +
            (mem.symbolCell state.current is).name.length + 1)) := by
  obtain ⟨grown, isGrown, rfl⟩ := Option.map_eq_some_iff.mp isNext
  obtain ⟨_, isGrown⟩ := Option.ite_none_right_eq_some.mp isGrown
  cases isGrown
  rfl

/-- A record that fits its line is exported. -/
theorem State.exists_exportRecord
    {mem : Memory} {state : State} {is : Nat}
    (isLogged :
      IsLogged (exportChainLine (mem.getName is state.current.strTableP)))
    (outfileName : CString) :
    ∃ next, state.exportRecord mem outfileName is = some next := by
  unfold State.exportRecord State.allocExportSymbolChain
  rw [if_pos isLogged]
  exact ⟨_, rfl⟩

/-- Exporting no record. -/
theorem State.Exports.nil (mem : Memory) (state : State) :
    state.Exports mem [] state where
  auxSymbols := rfl
  allocated := rfl
  sections := rfl
  containers := rfl
  earlier := rfl
  strTableP := rfl
  objectSections := rfl
  symbols := (List.append_nil _).symm
  exportFuncCount := fun total isTotal => by simpa using isTotal

/-- Exporting one record and then others. -/
theorem State.Exports.cons
    {mem : Memory} {is : Nat} {rest : List Nat} {state next last : State}
    (first : state.Exports mem [is] next)
    (later : next.Exports mem rest last) :
    state.Exports mem (is :: rest) last where
  auxSymbols := later.auxSymbols.trans first.auxSymbols
  allocated := later.allocated.trans first.allocated
  sections := later.sections.trans first.sections
  containers := later.containers.trans first.containers
  earlier := later.earlier.trans first.earlier
  strTableP := later.strTableP.trans first.strTableP
  objectSections := later.objectSections.trans first.objectSections
  symbols := by
    have sameCell :
        mem.symbolCell next.current = mem.symbolCell state.current := by
      funext record
      unfold Memory.symbolCell
      rw [first.strTableP, first.objectSections]
    rw [later.symbols, first.symbols, sameCell, List.append_assoc]
    rfl
  exportFuncCount := fun total isTotal => by
    rw [later.exportFuncCount _ (first.exportFuncCount total isTotal),
      List.length_singleton, List.length_cons]
    congr 1
    omega

/-- Records that are exported one after the other all fitted their lines. -/
theorem State.exports_of_foldlM
    {mem : Memory} {outfileName : CString} {state last : State}
    {records : List Nat}
    (isLast :
      records.foldlM (State.exportRecord mem outfileName) state =
        some last) :
    (∀ is ∈ records,
      IsLogged
        (exportChainLine (mem.getName is state.current.strTableP))) ∧
      state.Exports mem records last := by
  induction records generalizing state with
  | nil =>
      cases isLast
      exact
        ⟨fun _ isRecord => absurd isRecord List.not_mem_nil,
          .nil mem last⟩
  | cons is rest inductionHypothesis =>
      rw [List.foldlM_cons] at isLast
      obtain ⟨next, isNext, isLast⟩ := Option.bind_eq_some_iff.mp isLast
      obtain ⟨isLogged, first⟩ := State.exports_of_exportRecord isNext
      obtain ⟨restLogged, later⟩ := inductionHypothesis isLast
      rw [first.strTableP] at restLogged
      exact
        ⟨List.forall_mem_cons.mpr ⟨isLogged, restLogged⟩,
          first.cons later⟩

/-- Records that fit their lines are all exported. -/
theorem State.exists_exports
    {mem : Memory} {state : State} {records : List Nat}
    (logged :
      ∀ is ∈ records,
        IsLogged (exportChainLine (mem.getName is state.current.strTableP)))
    (outfileName : CString) :
    ∃ last,
      records.foldlM (State.exportRecord mem outfileName) state =
        some last := by
  induction records generalizing state with
  | nil => exact ⟨state, rfl⟩
  | cons is rest inductionHypothesis =>
      obtain ⟨isLogged, restLogged⟩ := List.forall_mem_cons.mp logged
      obtain ⟨next, isNext⟩ :=
        State.exists_exportRecord isLogged outfileName
      have first := (State.exports_of_exportRecord isNext).2
      rw [← first.strTableP] at restLogged
      obtain ⟨last, isLast⟩ := inductionHypothesis restLogged
      exact ⟨last, by rw [List.foldlM_cons, isNext]; exact isLast⟩

/-- A countdown that is set to what it is. -/
theorem State.withAuxSymbols_eq
    {state : State} {count : Nat} (isCount : state.auxSymbols = count) :
    { state with auxSymbols := count } = state := by
  subst isCount
  rfl

/-- Visiting a record does not touch the countdown. -/
theorem State.keeps_visitRecord
    {mem : Memory} {outfileName : CString} {state next : State} {is : Nat}
    (isNext : state.visitRecord mem outfileName is = some next) :
    next.auxSymbols = state.auxSymbols ∧
      next.allocated = state.allocated := by
  unfold State.visitRecord at isNext
  split_ifs at isNext
  · have exports := (State.exports_of_exportRecord isNext).2
    exact ⟨exports.auxSymbols, exports.allocated⟩
  · cases isNext
    exact ⟨rfl, rfl⟩

/-- The callback for a primary record sets the countdown. -/
theorem coffSymtabCallback_of_primary
    {mem : Memory} {outfileName : CString} {state : State}
    (isPrimary : state.auxSymbols = 0) (allocated : state.allocated = true)
    (is : Nat) :
    coffSymtabCallback mem outfileName state is =
      (state.visitRecord mem outfileName is).map fun next =>
        { next with
          auxSymbols := (mem.imageSymbol is).numberOfAuxSymbols } := by
  have isCallback :
      coffSymtabCallback mem outfileName state is =
        (state.visitRecord mem outfileName is).map fun next =>
          if (mem.imageSymbol is).numberOfAuxSymbols ≠ 0 then
            { next with
              auxSymbols := (mem.imageSymbol is).numberOfAuxSymbols }
          else
            next := by
    unfold coffSymtabCallback
    rw [if_neg (not_not.mpr isPrimary), if_pos allocated]
    rfl
  rw [isCallback]
  apply Option.map_congr
  intro next isNext
  by_cases noAux : (mem.imageSymbol is).numberOfAuxSymbols = 0
  · have stillZero := (State.keeps_visitRecord isNext).1.trans isPrimary
    rw [if_neg (not_not.mpr noAux), noAux,
      State.withAuxSymbols_eq stillZero]
  · rw [if_pos noAux]

/-- A record that is called back for is skipped, or visited as a primary one. -/
theorem visits_of_coffSymtabCallback
    {mem : Memory} {outfileName : CString} {state next : State} {is : Nat}
    (isNext : coffSymtabCallback mem outfileName state is = some next) :
    ∃ visited count,
      next = { visited with auxSymbols := count } ∧
        (visited = state ∨
          state.allocated = true ∧
            state.visitRecord mem outfileName is = some visited) := by
  by_cases isPrimary : state.auxSymbols = 0
  · by_cases isOpen : state.allocated = true
    · rw [coffSymtabCallback_of_primary isPrimary isOpen] at isNext
      obtain ⟨visited, isVisited, rfl⟩ := Option.map_eq_some_iff.mp isNext
      exact ⟨visited, _, rfl, Or.inr ⟨isOpen, isVisited⟩⟩
    · unfold coffSymtabCallback at isNext
      rw [if_neg (not_not.mpr isPrimary), if_neg isOpen] at isNext
      cases isNext
  · unfold coffSymtabCallback at isNext
    rw [if_pos isPrimary] at isNext
    cases isNext
    exact ⟨state, _, rfl, Or.inl rfl⟩

/-- The callback skips as many records as were announced. -/
theorem foldlM_skip
    {mem : Memory} {outfileName : CString} {addresses : List Nat}
    {count : Nat} (present : count ≤ addresses.length) (state : State) :
    addresses.foldlM (coffSymtabCallback mem outfileName)
        { state with auxSymbols := count } =
      (addresses.drop count).foldlM (coffSymtabCallback mem outfileName)
        { state with auxSymbols := 0 } := by
  induction count generalizing addresses with
  | zero => rfl
  | succ count inductionHypothesis =>
      cases addresses with
      | nil => exact absurd present (Nat.not_succ_le_zero count)
      | cons is rest =>
          rw [List.foldlM_cons, List.drop_succ_cons]
          exact inductionHypothesis (Nat.le_of_succ_le_succ present)

/-- The callback for all records of a table visits the primary ones. -/
theorem foldlM_coffSymtabCallback
    {mem : Memory} {outfileName : CString} {state : State}
    {addresses : List Nat}
    (isPrimary : state.auxSymbols = 0) (allocated : state.allocated = true)
    (auxFit : mem.AuxFit addresses) :
    addresses.foldlM (coffSymtabCallback mem outfileName) state =
      (mem.primaries addresses).foldlM
        (State.visitRecord mem outfileName) state := by
  induction addresses using Memory.primaries.induct mem generalizing
      state with
  | case1 =>
      rw [Memory.primaries]
      rfl
  | case2 is rest inductionHypothesis =>
      rw [Memory.AuxFit] at auxFit
      rw [Memory.primaries, List.foldlM_cons, List.foldlM_cons,
        coffSymtabCallback_of_primary isPrimary allocated]
      cases isNext : state.visitRecord mem outfileName is with
      | none => rfl
      | some next =>
          obtain ⟨sameCountdown, sameObject⟩ :=
            State.keeps_visitRecord isNext
          refine (foldlM_skip auxFit.1 next).trans ?_
          rw [State.withAuxSymbols_eq (sameCountdown.trans isPrimary)]
          exact
            inductionHypothesis (sameCountdown.trans isPrimary)
              (sameObject.trans allocated) auxFit.2

/-- Visiting records is exporting those that are registered. -/
theorem foldlM_visitRecord
    (mem : Memory) (outfileName : CString) (state : State)
    (records : List Nat) :
    records.foldlM (State.visitRecord mem outfileName) state =
      (records.filter fun is => (mem.imageSymbol is).Registered).foldlM
        (State.exportRecord mem outfileName) state := by
  rw [List.foldlM_filter]
  simp only [decide_eq_true_eq]
  rfl

/-! ## The sections of one object -/

/-- The names of the containers fitted the lines about them. -/
def State.Logged (state : State) : Prop :=
  ∀ sc ∈ state.containers, ∀ name ∈ sc.name,
    IsLogged (sectionContainerLine name)

/-- The container of a name. -/
theorem getElem?_of_matchSection
    {containers : List SectionContainer} {name : CString} {index : Nat}
    (isMatch : matchSection containers name = some index) :
    ∃ sc, containers[index]? = some sc ∧ sc.name = some name := by
  obtain ⟨inRange, isNamed, _⟩ := List.findIdx?_eq_some_iff_getElem.mp isMatch
  exact
    ⟨_, List.getElem?_eq_getElem inRange, of_decide_eq_true isNamed⟩

/-- Where a section is inserted into a container, and what is left alone. -/
theorem State.exists_of_insertSection
    {state next : State} {p : Nat} {name : CString}
    (isNext : state.insertSection p name = some next) :
    ∃ containers index,
      (containers = state.containers ∨
          IsLogged (sectionContainerLine name) ∧
            containers = state.containers ++ [{ name := some name }] ∧
            index = state.containers.length) ∧
        (∃ sc, containers[index]? = some sc ∧ sc.name = some name) ∧
        next =
          State.allocSectionChain
            { state with containers := containers } p index := by
  unfold State.insertSection at isNext
  cases isMatch : matchSection state.containers name with
  | none =>
      rw [isMatch] at isNext
      obtain ⟨grown, isGrown, rfl⟩ := Option.map_eq_some_iff.mp isNext
      obtain ⟨isLogged, isGrown⟩ := Option.ite_none_right_eq_some.mp isGrown
      cases isGrown
      exact
        ⟨_, _, Or.inr ⟨isLogged, rfl, rfl⟩,
          ⟨_, List.getElem?_concat_length, rfl⟩, rfl⟩
  | some index =>
      rw [isMatch] at isNext
      cases isNext
      exact ⟨_, index, Or.inl rfl, getElem?_of_matchSection isMatch, rfl⟩

/-- A section for a container leaves the rest alone. -/
theorem State.insertSection_fields
    {state next : State} {p : Nat} {name : CString}
    (isNext : state.insertSection p name = some next) :
    next.auxSymbols = state.auxSymbols ∧
      next.allocated = state.allocated ∧
      next.earlier = state.earlier ∧
      next.current.symbols = state.current.symbols ∧
      next.current.strTableP = state.current.strTableP ∧
      next.exportFuncCount = state.exportFuncCount := by
  obtain ⟨containers, index, _, _, rfl⟩ := State.exists_of_insertSection isNext
  exact ⟨rfl, rfl, rfl, rfl, rfl, rfl⟩

/-- An inserted section keeps the containers logged, and its name was. -/
theorem State.Logged.insertSection
    {state next : State} (logged : state.Logged) {p : Nat} {name : CString}
    (isNext : state.insertSection p name = some next) :
    IsLogged (sectionContainerLine name) ∧ next.Logged := by
  obtain ⟨containers, index, isGrown, ⟨target, isTarget, isNamed⟩, rfl⟩ :=
    State.exists_of_insertSection isNext
  have allLogged :
      ∀ sc ∈ containers, ∀ other ∈ sc.name,
        IsLogged (sectionContainerLine other) := by
    rcases isGrown with rfl | ⟨isLogged, rfl, _⟩
    · exact logged
    · intro sc isContainer other isOther
      rcases List.mem_append.mp isContainer with isOld | isNew
      · exact logged sc isOld other isOther
      · rw [List.mem_singleton.mp isNew] at isOther
        cases isOther
        exact isLogged
  refine ⟨allLogged target (List.mem_of_getElem? isTarget) name isNamed, ?_⟩
  intro sc isContainer other isOther
  obtain ⟨k, isAt⟩ := List.mem_iff_getElem?.mp isContainer
  unfold State.allocSectionChain at isAt
  rw [List.getElem?_modify] at isAt
  obtain ⟨old, isOld, rfl⟩ := Option.map_eq_some_iff.mp isAt
  refine allLogged old (List.mem_of_getElem? isOld) other ?_
  by_cases isHere : index = k
  · rw [if_pos isHere] at isOther
    exact isOther
  · rw [if_neg isHere] at isOther
    exact isOther

/-- A section whose name fits its line is inserted. -/
theorem State.exists_insertSection
    {name : CString} (isLogged : IsLogged (sectionContainerLine name))
    (state : State) (p : Nat) :
    ∃ next, state.insertSection p name = some next := by
  unfold State.insertSection State.allocSectionContainer
  rw [if_pos isLogged]
  cases matchSection state.containers name with
  | none => exact ⟨_, rfl⟩
  | some index => exact ⟨_, rfl⟩

/-- The object that is read, if any, has the string table of the one mapped. -/
def State.ReadyFor (mem : Memory) (base : Nat) (state : State) : Prop :=
  state.allocated = true →
    state.current.strTableP = mem.stringTable base

/-- An opened object has its own string table. -/
theorem State.ReadyFor.openObject
    {mem : Memory} {base : Nat} {state : State}
    (ready : state.ReadyFor mem base) :
    (state.openObject mem base).current.strTableP = mem.stringTable base := by
  unfold State.openObject
  split_ifs with isOpen
  · exact ready isOpen
  · rfl

/-- An opened object is allocated. -/
theorem State.allocated_openObject
    (mem : Memory) (base : Nat) (state : State) :
    (state.openObject mem base).allocated = true := by
  unfold State.openObject
  split_ifs with isOpen
  · exact isOpen
  · rfl

/-- A section callback inserts the section into the opened object. -/
theorem State.ReadyFor.callback_eq
    {mem : Memory} {base : Nat} {state : State}
    (ready : state.ReadyFor mem base) (isec : Nat) :
    coffSectionCallback mem base state isec =
      (state.openObject mem base).insertSection isec
        (mem.sectionName isec (mem.stringTable base)) := by
  unfold coffSectionCallback
  dsimp only
  rw [ready.openObject]

/-- A section callback leaves the object ready. -/
theorem State.ReadyFor.callback
    {mem : Memory} {base : Nat} {state next : State} {isec : Nat}
    (ready : state.ReadyFor mem base)
    (isNext : coffSectionCallback mem base state isec = some next) :
    next.ReadyFor mem base := by
  rw [ready.callback_eq] at isNext
  obtain ⟨_, _, _, _, strTableP, _⟩ := State.insertSection_fields isNext
  exact fun _ => strTableP.trans ready.openObject

/-- Opening an object keeps the containers logged. -/
theorem State.Logged.openObject
    {state : State} (logged : state.Logged) (mem : Memory) (base : Nat) :
    (state.openObject mem base).Logged := by
  unfold State.openObject
  split_ifs
  · exact logged
  · exact logged

/-- So does a section callback. -/
theorem State.Logged.callback
    {mem : Memory} {base : Nat} {state next : State} {isec : Nat}
    (logged : state.Logged)
    (isNext : coffSectionCallback mem base state isec = some next) :
    next.Logged :=
  ((logged.openObject mem base).insertSection isNext).2

/-- And so do all of them. -/
theorem State.Logged.foldlM
    {mem : Memory} {base : Nat} {addresses : List Nat} {state last : State}
    (logged : state.Logged)
    (isLast :
      addresses.foldlM (coffSectionCallback mem base) state = some last) :
    last.Logged := by
  induction addresses generalizing state with
  | nil =>
      cases isLast
      exact logged
  | cons isec rest inductionHypothesis =>
      rw [List.foldlM_cons] at isLast
      obtain ⟨next, isNext, isLast⟩ := Option.bind_eq_some_iff.mp isLast
      exact inductionHypothesis (logged.callback isNext) isLast

/-- Section callbacks come to an end exactly when all names fit. -/
theorem State.Logged.foldlM_iff
    {mem : Memory} {base : Nat} {addresses : List Nat} {state : State}
    (logged : state.Logged) (ready : state.ReadyFor mem base) :
    (∃ last,
      addresses.foldlM (coffSectionCallback mem base) state = some last) ↔
      ∀ isec ∈ addresses,
        IsLogged
          (sectionContainerLine
            (mem.sectionName isec (mem.stringTable base))) := by
  induction addresses generalizing state with
  | nil =>
      exact
        iff_of_true ⟨state, rfl⟩ fun _ isMember =>
          absurd isMember List.not_mem_nil
  | cons isec rest inductionHypothesis =>
      rw [List.forall_mem_cons]
      constructor
      · rintro ⟨last, isLast⟩
        rw [List.foldlM_cons] at isLast
        obtain ⟨next, isNext, isLast⟩ := Option.bind_eq_some_iff.mp isLast
        have nextReady := ready.callback isNext
        rw [ready.callback_eq] at isNext
        obtain ⟨isLogged, nextLogged⟩ :=
          (logged.openObject mem base).insertSection isNext
        exact
          ⟨isLogged,
            (inductionHypothesis nextLogged nextReady).mp ⟨last, isLast⟩⟩
      · rintro ⟨isLogged, restLogged⟩
        obtain ⟨next, isNext⟩ :=
          State.exists_insertSection isLogged (state.openObject mem base) isec
        have isCallback := (ready.callback_eq isec).trans isNext
        have nextLogged := logged.callback isCallback
        obtain ⟨last, isLast⟩ :=
          (inductionHypothesis nextLogged
            (ready.callback isCallback)).mpr restLogged
        exact ⟨last, by rw [List.foldlM_cons, isCallback]; exact isLast⟩

/-- The section headers of an object are visited in order. -/
theorem runThroughCoffShdr3_eq (mem : Memory) (base : Nat) (state : State) :
    runThroughCoffShdr3 mem base state =
      (mem.sectionAddresses base).foldlM (coffSectionCallback mem base)
        state := by
  unfold runThroughCoffShdr3 Memory.sectionAddresses
  by_cases noSections : mem.numberOfSections base = 0
  · rw [if_pos noSections, noSections]
    rfl
  · have isWord : mem.numberOfSections base < 2 ^ 64 := by
      have isHalf : mem.numberOfSections base < 256 ^ 2 :=
        ByteBuffer.loadWord_lt 2 mem.bytes (base + 2)
      omega
    rw [if_neg noSections, CountedLoop.run_eq_foldlM,
      CountedLoop.rounds_of_pos (Nat.pos_of_ne_zero noSections) isWord]

/-- What reading the sections of an object leaves. -/
structure State.Opens
    (mem : Memory) (base : Nat) (state next : State) : Prop where
  auxSymbols : next.auxSymbols = state.auxSymbols
  allocated : next.allocated = true
  earlier : next.earlier = state.objects
  noSymbols : next.current.symbols = []
  strTableP : next.current.strTableP = mem.stringTable base
  exportFuncCount : next.exportFuncCount = state.exportFuncCount
  logged : state.Logged → next.Logged

/-- The first section callback of an object allocates it. -/
theorem State.opens_first
    {mem : Memory} {base : Nat} {state next : State} {isec : Nat}
    (isNull : state.allocated = false)
    (isNext : coffSectionCallback mem base state isec = some next) :
    State.Opens mem base state next := by
  have isClosed : ¬ state.allocated = true := by simp [isNull]
  have ready : state.ReadyFor mem base := fun isOpen => absurd isOpen isClosed
  rw [ready.callback_eq] at isNext
  obtain ⟨auxSymbols, allocated, earlier, symbols, strTableP, count⟩ :=
    State.insertSection_fields isNext
  exact
    { auxSymbols := by rw [auxSymbols, State.openObject, if_neg isClosed]; rfl
      allocated := allocated.trans (state.allocated_openObject mem base)
      earlier := by rw [earlier, State.openObject, if_neg isClosed]; rfl
      noSymbols := by rw [symbols, State.openObject, if_neg isClosed]; rfl
      strTableP := strTableP.trans ready.openObject
      exportFuncCount := by
        rw [count, State.openObject, if_neg isClosed]
        rfl
      logged := fun logged =>
        ((logged.openObject mem base).insertSection isNext).2 }

/-- Further section callbacks leave it open. -/
theorem State.Opens.callback
    {mem : Memory} {base : Nat} {state next last : State} {isec : Nat}
    (opens : State.Opens mem base state next)
    (isLast : coffSectionCallback mem base next isec = some last) :
    State.Opens mem base state last := by
  have ready : next.ReadyFor mem base := fun _ => opens.strTableP
  have isOpen : next.openObject mem base = next := if_pos opens.allocated
  rw [ready.callback_eq, isOpen] at isLast
  obtain ⟨auxSymbols, allocated, earlier, symbols, strTableP, count⟩ :=
    State.insertSection_fields isLast
  exact
    { auxSymbols := auxSymbols.trans opens.auxSymbols
      allocated := allocated.trans opens.allocated
      earlier := earlier.trans opens.earlier
      noSymbols := symbols.trans opens.noSymbols
      strTableP := strTableP.trans opens.strTableP
      exportFuncCount := count.trans opens.exportFuncCount
      logged := fun logged =>
        ((opens.logged logged).insertSection isLast).2 }

/-- So do all of them. -/
theorem State.Opens.foldlM
    {mem : Memory} {base : Nat} {addresses : List Nat}
    {state next last : State} (opens : State.Opens mem base state next)
    (isLast :
      addresses.foldlM (coffSectionCallback mem base) next = some last) :
    State.Opens mem base state last := by
  induction addresses generalizing next with
  | nil =>
      cases isLast
      exact opens
  | cons isec rest inductionHypothesis =>
      rw [List.foldlM_cons] at isLast
      obtain ⟨later, isLater, isLast⟩ := Option.bind_eq_some_iff.mp isLast
      exact inductionHypothesis (opens.callback isLater) isLast

/-- Reading the sections of an object opens it, if it has any. -/
theorem opens_of_runThroughCoffShdr3
    {mem : Memory} {base : Nat} {state next : State}
    (hasSections : mem.numberOfSections base ≠ 0)
    (isNull : state.allocated = false)
    (isNext : runThroughCoffShdr3 mem base state = some next) :
    State.Opens mem base state next := by
  obtain ⟨count, isCount⟩ := Nat.exists_eq_succ_of_ne_zero hasSections
  rw [runThroughCoffShdr3_eq, Memory.sectionAddresses, isCount,
    CountedLoop.visited, List.foldlM_cons] at isNext
  obtain ⟨first, isFirst, isNext⟩ := Option.bind_eq_some_iff.mp isNext
  exact (State.opens_first isNull isFirst).foldlM isNext

/-! ## One object -/

/-- A table that is not empty is walked once. -/
theorem visited_rounds
    {mem : Memory} {base : Nat} (hasSymbols : mem.numberOfSymbols base ≠ 0) :
    CountedLoop.visited (fun r15 => u64 (r15 + sizeofSymbol))
        (mem.symbolTable base)
        (CountedLoop.rounds 64 (mem.numberOfSymbols base)) =
      mem.recordAddresses base := by
  have isWord : mem.numberOfSymbols base < 2 ^ 64 := by
    have isHalf : mem.numberOfSymbols base < 2 ^ (8 * 4) :=
      ByteBuffer.loadWord_lt 4 mem.bytes (base + 12)
    omega
  rw [CountedLoop.rounds_of_pos (Nat.pos_of_ne_zero hasSymbols) isWord]
  rfl

/-- The symbol callback is called for what the loop visits. -/
theorem readRecording_eq
    (mem : Memory) (outfileName : CString) (current : State × List Nat)
    (base : Nat) :
    readRecording mem outfileName current base =
      (readObject mem outfileName current.1 base).map fun last =>
        (last,
          current.2 ++
            CountedLoop.visited (fun r15 => u64 (r15 + sizeofSymbol))
              (mem.symbolTable base)
              (CountedLoop.rounds 64 (mem.numberOfSymbols base))) := by
  unfold readRecording readObject
  cases runThroughCoffShdr3 mem base { current.1 with allocated := false } with
  | none => rfl
  | some opened =>
      unfold runThroughCoffSymtable3
      rw [Option.bind_some, Option.bind_some, CountedLoop.run_eq_foldlM,
        CountedLoop.run_eq_foldlM]
      generalize
        CountedLoop.visited (fun r15 => u64 (r15 + sizeofSymbol))
          (mem.symbolTable base)
          (CountedLoop.rounds 64 (mem.numberOfSymbols base)) = addresses
      exact
        CountedLoop.foldlM_recording (coffSymtabCallback mem outfileName)
          opened current.2 addresses

/-- Reading an object exports its registered records after opening it. -/
theorem readObject_eq
    {mem : Memory} {state opened : State} {base : Nat}
    (isPrimary : state.auxSymbols = 0)
    (isOpened :
      runThroughCoffShdr3 mem base { state with allocated := false } =
        some opened)
    (opens : State.Opens mem base { state with allocated := false } opened)
    (hasSymbols : mem.numberOfSymbols base ≠ 0)
    (auxFit : mem.AuxFit (mem.recordAddresses base))
    (outfileName : CString) :
    readObject mem outfileName state base =
      (mem.registeredRecords base).foldlM
        (State.exportRecord mem outfileName) opened := by
  unfold readObject runThroughCoffSymtable3
  rw [isOpened, Option.bind_some, CountedLoop.run_eq_foldlM,
    visited_rounds hasSymbols,
    foldlM_coffSymtabCallback (opens.auxSymbols.trans isPrimary)
      opens.allocated auxFit,
    foldlM_visitRecord]
  rfl

/-- An object without sections makes the first symbol callback fault. -/
theorem readObject_eq_none
    {mem : Memory} {state : State} {base : Nat}
    (isPrimary : state.auxSymbols = 0)
    (noSections : mem.numberOfSections base = 0) (outfileName : CString) :
    readObject mem outfileName state base = none := by
  unfold readObject runThroughCoffShdr3 runThroughCoffSymtable3
  rw [if_pos noSections, Option.bind_some, CountedLoop.run,
    coffSymtabCallback, if_neg (not_not.mpr isPrimary)]
  rfl

/-- The names of an object fit the lines about them. -/
def Memory.ObjectLogged (mem : Memory) (base : Nat) : Prop :=
  mem.SectionsLogged base ∧
    ∀ is ∈ mem.registeredRecords base,
      IsLogged (exportChainLine (mem.getName is (mem.stringTable base)))

/-! ## All objects -/

/-- The records on the lists of all objects. -/
def State.symbolRecords (state : State) : List (List Nat) :=
  state.objects.map fun oc => oc.symbols.map SymbolChain.p

/-- How many records of some objects the callback exports. -/
def Memory.registeredCount (mem : Memory) (bases : List Nat) : Nat :=
  (bases.map fun base => (mem.registeredRecords base).length).sum

/-- What reading some objects with symbols does. -/
structure State.Reads
    (mem : Memory) (bases : List Nat) (state next : State) : Prop where
  isPrimary : next.auxSymbols = 0
  symbolRecords :
    next.symbolRecords = state.symbolRecords ++ bases.map mem.registeredRecords
  exportFuncCount :
    ∀ total, state.exportFuncCount = int32 total →
      next.exportFuncCount = int32 (total + mem.registeredCount bases)
  logged : state.Logged → next.Logged

/-- Reading no object. -/
theorem State.Reads.nil
    (mem : Memory) {state : State} (isPrimary : state.auxSymbols = 0) :
    state.Reads mem [] state where
  isPrimary := isPrimary
  symbolRecords := (List.append_nil _).symm
  exportFuncCount := fun total isTotal => by
    simpa [Memory.registeredCount] using isTotal
  logged := id

/-- Reading one object and then others. -/
theorem State.Reads.cons
    {mem : Memory} {state next last : State} {base : Nat} {bases : List Nat}
    (first : state.Reads mem [base] next)
    (rest : next.Reads mem bases last) :
    state.Reads mem (base :: bases) last where
  isPrimary := rest.isPrimary
  symbolRecords := by
    rw [rest.symbolRecords, first.symbolRecords, List.append_assoc]
    rfl
  exportFuncCount := fun total isTotal => by
    have isNext := first.exportFuncCount total isTotal
    rw [rest.exportFuncCount _ isNext]
    simp only [Memory.registeredCount, List.map_cons, List.map_nil,
      List.sum_cons, List.sum_nil]
    congr 1
    omega
  logged := rest.logged ∘ first.logged

/-- Reading one object with sections and symbols. -/
theorem State.Reads.of_readObject
    {mem : Memory} {outfileName : CString} {state next : State} {base : Nat}
    (isPrimary : state.auxSymbols = 0)
    (hasSections : mem.numberOfSections base ≠ 0)
    (hasSymbols : mem.numberOfSymbols base ≠ 0)
    (auxFit : mem.AuxFit (mem.recordAddresses base))
    (isNext : readObject mem outfileName state base = some next) :
    state.Reads mem [base] next ∧ (state.Logged → mem.ObjectLogged base) := by
  obtain ⟨opened, isOpened, _⟩ := Option.bind_eq_some_iff.mp isNext
  have isNull :
      ({ state with allocated := false } : State).allocated = false := rfl
  have opens := opens_of_runThroughCoffShdr3 hasSections isNull isOpened
  rw [readObject_eq isPrimary isOpened opens hasSymbols auxFit] at isNext
  obtain ⟨exportsLogged, exports⟩ := State.exports_of_foldlM isNext
  rw [opens.strTableP] at exportsLogged
  refine
    ⟨{ isPrimary := ?_
       symbolRecords := ?_
       exportFuncCount := ?_
       logged := ?_ }, fun logged => ⟨?_, exportsLogged⟩⟩
  · rw [exports.auxSymbols, opens.auxSymbols]
    exact isPrimary
  · have isCurrent :
        next.current.symbols.map SymbolChain.p =
          mem.registeredRecords base := by
      rw [exports.symbols, opens.noSymbols, List.nil_append, List.map_map]
      exact List.map_id _
    unfold State.symbolRecords State.objects
    rw [exports.earlier, opens.earlier, List.map_append, List.map_singleton,
      isCurrent]
    rfl
  · intro total isTotal
    have isOpenedTotal : opened.exportFuncCount = int32 total :=
      opens.exportFuncCount.trans isTotal
    rw [exports.exportFuncCount total isOpenedTotal]
    simp [Memory.registeredCount]
  · intro logged
    unfold State.Logged
    rw [exports.containers]
    exact opens.logged logged
  · have closedLogged :
        State.Logged { state with allocated := false } := logged
    rw [runThroughCoffShdr3_eq] at isOpened
    exact
      (closedLogged.foldlM_iff fun isOpen => by cases isOpen).mp
        ⟨opened, isOpened⟩

/-- An object whose names fit is read to its end. -/
theorem State.Logged.exists_readObject
    {mem : Memory} {state : State} {base : Nat} (logged : state.Logged)
    (isPrimary : state.auxSymbols = 0)
    (hasSections : mem.numberOfSections base ≠ 0)
    (hasSymbols : mem.numberOfSymbols base ≠ 0)
    (auxFit : mem.AuxFit (mem.recordAddresses base))
    (objectLogged : mem.ObjectLogged base) (outfileName : CString) :
    ∃ next, readObject mem outfileName state base = some next := by
  obtain ⟨sectionsLogged, exportsLogged⟩ := objectLogged
  have closedLogged :
      State.Logged { state with allocated := false } := logged
  obtain ⟨opened, isOpened⟩ :=
    (closedLogged.foldlM_iff fun isOpen => by cases isOpen).mpr
      sectionsLogged
  rw [← runThroughCoffShdr3_eq] at isOpened
  have opens := opens_of_runThroughCoffShdr3 hasSections rfl isOpened
  rw [readObject_eq isPrimary isOpened opens hasSymbols auxFit]
  apply State.exists_exports
  rw [opens.strTableP]
  exact exportsLogged

/-- A pass that ends has called back for what the loops visit. -/
theorem calls_of_foldlM
    {mem : Memory} {outfileName : CString} {bases : List Nat}
    {start final : State} {record calls : List Nat}
    (isFinal :
      bases.foldlM (readRecording mem outfileName) (start, record) =
        some (final, calls)) :
    calls.length =
      record.length +
        (bases.map fun base =>
          CountedLoop.rounds 64 (mem.numberOfSymbols base)).sum := by
  induction bases generalizing start record with
  | nil =>
      cases isFinal
      rfl
  | cons base bases inductionHypothesis =>
      rw [List.foldlM_cons, readRecording_eq] at isFinal
      cases isRead : readObject mem outfileName start base with
      | none =>
          rw [isRead] at isFinal
          cases isFinal
      | some next =>
          rw [isRead] at isFinal
          have isRest := inductionHypothesis isFinal
          rw [List.length_append, CountedLoop.length_visited] at isRest
          rw [isRest, List.map_cons, List.sum_cons, Nat.add_assoc]

/-- Objects with sections and symbols whose names fit are read to the end. -/
theorem exists_foldlM_readRecording
    {mem : Memory} {bases : List Nat} {state : State} (logged : state.Logged)
    (isPrimary : state.auxSymbols = 0)
    (hasSections : ∀ base ∈ bases, mem.numberOfSections base ≠ 0)
    (hasSymbols : ∀ base ∈ bases, mem.numberOfSymbols base ≠ 0)
    (auxFit : ∀ base ∈ bases, mem.AuxFit (mem.recordAddresses base))
    (objectsLogged : ∀ base ∈ bases, mem.ObjectLogged base)
    (outfileName : CString) (record : List Nat) :
    ∃ final,
      bases.foldlM (readRecording mem outfileName) (state, record) =
        some (final, record ++ bases.flatMap mem.recordAddresses) := by
  induction bases generalizing state record with
  | nil => exact ⟨state, by simp⟩
  | cons base bases inductionHypothesis =>
      rw [List.forall_mem_cons] at hasSections hasSymbols auxFit objectsLogged
      obtain ⟨next, isRead⟩ :=
        logged.exists_readObject isPrimary hasSections.1 hasSymbols.1
          auxFit.1 objectsLogged.1 outfileName
      have first :=
        (State.Reads.of_readObject isPrimary hasSections.1 hasSymbols.1
          auxFit.1 isRead).1
      obtain ⟨final, isFinal⟩ :=
        inductionHypothesis (first.logged logged) first.isPrimary
          hasSections.2 hasSymbols.2 auxFit.2 objectsLogged.2
          (record ++ mem.recordAddresses base)
      refine ⟨final, ?_⟩
      rw [List.foldlM_cons, readRecording_eq, visited_rounds hasSymbols.1,
        List.flatMap_cons, ← List.append_assoc, ← isFinal]
      dsimp only
      rw [isRead]
      rfl

/--
A pass over objects with symbols that ends found sections in all and names that
fit.
-/
theorem reads_of_foldlM
    {mem : Memory} {outfileName : CString} {bases : List Nat}
    {state : State} {record : List Nat} {last : State × List Nat}
    (isPrimary : state.auxSymbols = 0)
    (hasSymbols : ∀ base ∈ bases, mem.numberOfSymbols base ≠ 0)
    (auxFit : ∀ base ∈ bases, mem.AuxFit (mem.recordAddresses base))
    (isLast :
      bases.foldlM (readRecording mem outfileName) (state, record) =
        some last) :
    state.Reads mem bases last.1 ∧
      (∀ base ∈ bases, mem.numberOfSections base ≠ 0) ∧
        (state.Logged → ∀ base ∈ bases, mem.ObjectLogged base) := by
  induction bases generalizing state record with
  | nil =>
      cases isLast
      exact
        ⟨.nil mem isPrimary,
          fun _ isMember => absurd isMember List.not_mem_nil,
          fun _ _ isMember => absurd isMember List.not_mem_nil⟩
  | cons base bases inductionHypothesis =>
      rw [List.forall_mem_cons] at hasSymbols auxFit
      rw [List.foldlM_cons, readRecording_eq] at isLast
      obtain ⟨current, isCurrent, isLast⟩ := Option.bind_eq_some_iff.mp isLast
      obtain ⟨next, isRead, rfl⟩ := Option.map_eq_some_iff.mp isCurrent
      have hasSections : mem.numberOfSections base ≠ 0 := by
        intro noSections
        have isNone := readObject_eq_none isPrimary noSections outfileName
        cases isNone.symm.trans isRead
      obtain ⟨first, isLogged⟩ :=
        State.Reads.of_readObject isPrimary hasSections hasSymbols.1 auxFit.1
          isRead
      obtain ⟨rest, restSections, restLogged⟩ :=
        inductionHypothesis first.isPrimary hasSymbols.2 auxFit.2 isLast
      exact
        ⟨first.cons rest,
          List.forall_mem_cons.mpr ⟨hasSections, restSections⟩,
          fun logged =>
            List.forall_mem_cons.mpr
              ⟨isLogged logged, restLogged (first.logged logged)⟩⟩

/-- A pass that calls back once for every record found no empty table. -/
theorem numberOfSymbols_ne_zero
    {mem : Memory} {outfileName : CString} {bases : List Nat}
    {start final : State}
    (isFinal :
      bases.foldlM (readRecording mem outfileName) (start, []) =
        some (final, bases.flatMap mem.recordAddresses)) :
    ∀ base ∈ bases, mem.numberOfSymbols base ≠ 0 := by
  intro base member isEmpty
  have sameSum := calls_of_foldlM isFinal
  rw [List.length_nil, Nat.zero_add, List.length_flatMap] at sameSum
  have isLess :
      (bases.map fun base => (mem.recordAddresses base).length).sum <
        (bases.map fun base =>
          CountedLoop.rounds 64 (mem.numberOfSymbols base)).sum := by
    apply List.sum_lt_sum
    · intro base _
      by_cases noSymbols : mem.numberOfSymbols base = 0
      · rw [Memory.recordAddresses, CountedLoop.length_visited, noSymbols]
        exact Nat.zero_le _
      · rw [← visited_rounds noSymbols, CountedLoop.length_visited]
    · refine ⟨base, member, ?_⟩
      rw [Memory.recordAddresses, CountedLoop.length_visited, isEmpty]
      exact Nat.succ_pos _
  exact absurd sameSum (Nat.ne_of_lt isLess)

/-- What the callback exports is right if no section number is special. -/
theorem exportedRecords_eq_iff (mem : Memory) (base : Nat) :
    mem.exportedRecords base = mem.registeredRecords base ↔
      ∀ is ∈ mem.primaryRecords base,
        (mem.imageSymbol is).storageClass = 2 →
          0 ≤ (mem.imageSymbol is).sectionNumber := by
  unfold Memory.exportedRecords Memory.registeredRecords
  constructor
  · intro sameRecords is member isExternal
    by_cases isUndefined : (mem.imageSymbol is).sectionNumber = 0
    · exact Int.le_of_eq isUndefined.symm
    · have isRegistered : (mem.imageSymbol is).Registered :=
        ⟨isExternal, isUndefined⟩
      have exported :
          is ∈ (mem.primaryRecords base).filter fun is =>
            (mem.imageSymbol is).External := by
        rw [sameRecords]
        exact List.mem_filter.mpr ⟨member, decide_eq_true isRegistered⟩
      have external : (mem.imageSymbol is).External :=
        of_decide_eq_true (List.mem_filter.mp exported).2
      exact Int.le_of_lt external.2
  · intro ordinary
    apply List.filter_congr
    intro is member
    have isSame :
        (mem.imageSymbol is).External ↔ (mem.imageSymbol is).Registered := by
      constructor
      · exact fun external => ⟨external.1, Int.ne_of_gt external.2⟩
      · intro registered
        have isNatural := ordinary is member registered.1
        have notZero := registered.2
        exact ⟨registered.1, by omega⟩
    exact decide_eq_decide.mpr isSame

/-- An `int` that is counted up from zero holds small numbers. -/
theorem int32_natCast_eq_iff (count : Nat) :
    int32 (count : Int) = count ↔ count < 2 ^ 31 := by
  unfold int32
  constructor
  · intro isSame
    have isLess := Int.bmod_lt (x := count) (m := 2 ^ 32) (by decide)
    omega
  · intro isSmall
    apply Int.bmod_eq_of_le <;> omega

/-- What is exported rightly is logged with what is exported. -/
theorem Memory.objectLogged_iff
    {mem : Memory} {base : Nat}
    (isSame : mem.exportedRecords base = mem.registeredRecords base) :
    mem.ObjectLogged base ↔
      mem.SectionsLogged base ∧ mem.ExportsLogged base := by
  unfold Memory.ObjectLogged Memory.ExportsLogged
  rw [isSame]

/-- No container has a name at the start of the linker. -/
theorem State.logged_start : State.Logged {} := by
  intro sc isContainer name isName
  rw [List.mem_singleton.mp isContainer] at isName
  cases isName

/--
For well-formed symbol tables the pass is right exactly when every object has
sections and symbols, the names of its sections and exports fit their lines,
none of its external symbols has a special section number, and the exports are
fewer than an `int` can count.
-/
theorem symbolPassRight_iff_regular
    (mem : Memory) (outfileName : CString) (bases : List Nat)
    (wellFormed : ∀ base ∈ bases, mem.AuxFit (mem.recordAddresses base)) :
    SymbolPassRight mem outfileName bases ↔ Regular mem bases := by
  have isStart : ({} : State).auxSymbols = 0 := rfl
  constructor
  · rintro ⟨final, calls, isFinal, right⟩
    rw [right.calls] at isFinal
    have hasSymbols := numberOfSymbols_ne_zero isFinal
    obtain ⟨reads, hasSections, logged⟩ :=
      reads_of_foldlM isStart hasSymbols wellFormed isFinal
    have sameRecords :
        bases.map mem.registeredRecords = bases.map mem.exportedRecords :=
      List.cons.inj (reads.symbolRecords.symm.trans right.symbols) |>.2
    have isCount := reads.exportFuncCount 0 rfl
    have sameRecord := List.map_inj_left.mp sameRecords
    have objectLogged :
        ∀ base ∈ bases, mem.SectionsLogged base ∧ mem.ExportsLogged base :=
      fun base member =>
        (Memory.objectLogged_iff (sameRecord base member).symm).mp
          (logged State.logged_start base member)
    exact
      { sections := hasSections
        symbols := hasSymbols
        ordinary := fun base member =>
          (exportedRecords_eq_iff mem base).mp (sameRecord base member).symm
        sectionsLogged := fun base member => (objectLogged base member).1
        exportsLogged := fun base member => (objectLogged base member).2
        few := by
          apply (int32_natCast_eq_iff _).mp
          refine Eq.trans ?_ right.count
          rw [isCount, Int.zero_add, Memory.registeredCount,
            List.map_congr_left fun base member =>
              congrArg List.length (sameRecord base member)] }
  · intro regular
    have sameRecord :
        ∀ base ∈ bases,
          mem.exportedRecords base = mem.registeredRecords base :=
      fun base member =>
        (exportedRecords_eq_iff mem base).mpr (regular.ordinary base member)
    obtain ⟨final, isFinal⟩ :=
      exists_foldlM_readRecording State.logged_start isStart
        regular.sections regular.symbols wellFormed
        (fun base member =>
          (Memory.objectLogged_iff (sameRecord base member)).mpr
            ⟨regular.sectionsLogged base member,
              regular.exportsLogged base member⟩)
        outfileName []
    have reads :=
      (reads_of_foldlM isStart regular.symbols wellFormed isFinal).1
    refine ⟨final, _, isFinal, ⟨rfl, ?_, ?_⟩⟩
    · rw [List.map_congr_left sameRecord]
      exact reads.symbolRecords
    · rw [reads.exportFuncCount 0 rfl, Int.zero_add, Memory.registeredCount,
        ← List.map_congr_left fun base member =>
          congrArg List.length (sameRecord base member)]
      exact (int32_natCast_eq_iff _).mpr regular.few

/-- An object with a static and an external function in its one section. -/
def functionsObject : List UInt8 :=
  objectFile [(".text", 16)]
    [symbolRecord ".text" 0 1 3 1, List.replicate 18 0,
      symbolRecord "f" 0 1 3 0, symbolRecord "g" 8 1 2 0]

/-- The pass over two such objects is right. -/
theorem symbolPassRight_functionsObject :
    SymbolPassRight
      (.ofBytes 0x1000 (functionsObject ++ functionsObject))
      (.ofString "a.dll") [0x1000, 0x1000 + functionsObject.length] :=
  (symbolPassRight_iff_regular
    (.ofBytes 0x1000 (functionsObject ++ functionsObject))
    (.ofString "a.dll") [0x1000, 0x1000 + functionsObject.length]
    (by decide +kernel)).mpr
    { sections := by decide +kernel
      symbols := by decide +kernel
      ordinary := by decide +kernel
      sectionsLogged := by decide +kernel
      exportsLogged := by decide +kernel
      few := by decide +kernel }

/-- An object with an external symbol that has an absolute value. -/
def absoluteObject : List UInt8 :=
  objectFile [(".text", 16)]
    [symbolRecord "f" 0 1 2 0, symbolRecord "a" 5 0xffff 2 0]

/-- The absolute symbol is exported, too. -/
theorem not_symbolPassRight_absoluteObject :
    ((Memory.ofBytes 0x1000 absoluteObject).imageSymbol
            (0x1000 + 94)).sectionNumber = -1 ∧
      (Memory.ofBytes 0x1000 absoluteObject).AuxFit
          ((Memory.ofBytes 0x1000 absoluteObject).recordAddresses 0x1000) ∧
        ¬ SymbolPassRight (.ofBytes 0x1000 absoluteObject)
          (.ofString "a.dll") [0x1000] := by
  decide +kernel

end BinTools.CoffObject
