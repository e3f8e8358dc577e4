import BinTools.ByteBuffer
import BinTools.GnuHashWellFormed

namespace BinTools.Loader

open ByteBuffer

/-!
# Relocation of a loaded library

`reloc_all` goes through the `DT_RELA` entries of a library.  The name of an
entry with a symbol is searched in the dependencies from the last slot down, and
an entry whose name is not found is passed over.  The value of a symbol is kept
in a variable from entry to entry; an entry without a symbol uses what it has.

The tables of the libraries are apart from the places that are relocated.
-/

/-- `Sym` with the string of its name. -/
structure Symbol where
  name : CString
  value : U64
  deriving DecidableEq, Repr

/-- `Elf64_Rela` -/
structure Rela where
  offset : U64
  info : U64
  addend : U64
  deriving DecidableEq, Repr

/-- `ELF64_R_TYPE` -/
def Rela.type (r : Rela) : Nat :=
  (r.info &&& 0xffffffff).toNat

/-- `ELF64_R_SYM` -/
def Rela.sym (r : Rela) : Nat :=
  (r.info >>> 32).toNat

/-- `struct dso` with the tables it points to. -/
structure Library where
  base : U64
  depsIndex : Nat
  ghashtab : GnuHashTable
  syms : List Symbol
  rela : List Rela
  deriving DecidableEq, Repr

namespace Library

/-- The names of the symbols. -/
def names (library : Library) : List CString :=
  library.syms.map Symbol.name

/-- `reloc_addr` -/
def place (library : Library) (r : Rela) : Nat :=
  (library.base + r.offset).toNat

/-- The symbol that the hash table of a library defines for a name. -/
def definition (library : Library) (s : CString) : Option Symbol :=
  (library.ghashtab.definedAt library.names s).bind fun k => library.syms[k]?

end Library

/-- The body of the loop of `find_sym`. -/
def lookupIn
    (libraries : List Library) (depsIndex : Nat) (s : CString) (i : Nat) :
    Option (Option (Nat × Symbol)) :=
  if depsIndex.testBit i then
    (libraries[i]?).bind fun d =>
      (d.ghashtab.findSym2 (d.names[·]?) s).result.bind fun k =>
        if k = 0 then
          some none
        else
          (d.syms[k]?).map fun sym => some (i, sym)
  else
    some none

/-- The loop of `find_sym` from a slot down to `HEAD`. -/
def findSym
    (libraries : List Library) (depsIndex : Nat) (s : CString) :
    Nat → Option (Option (Nat × Symbol))
  | 0 => lookupIn libraries depsIndex s 0
  | i + 1 =>
      (lookupIn libraries depsIndex s (i + 1)).bind fun
        | some found => some (some found)
        | none => findSym libraries depsIndex s i

/-- The `switch` of `do_relocs`. -/
def fillPlace
    (library : Library) (memory : Bytes) (symVal : U64) (r : Rela) : Bytes :=
  match r.type with
  | 6 => storeWord 8 memory (library.place r) (symVal + r.addend).toNat
  | 7 => storeWord 8 memory (library.place r) (symVal + r.addend).toNat
  | 8 => storeWord 8 memory (library.place r) (library.base + r.addend).toNat
  | _ => memory

/-- One entry in the loop of `do_relocs`; the state has `sym_val`. -/
def relocStep
    (libraries : List Library) (library : Library) (state : Bytes × U64)
    (r : Rela) : Option (Bytes × U64) :=
  if r.sym ≠ 0 then
    (library.syms[r.sym]?).bind fun sym =>
      (findSym libraries library.depsIndex sym.name
        (libraries.length - 1)).bind fun
        | none => some state
        | some (d, sym) =>
            (libraries[d]?).map fun d =>
              (fillPlace library state.1 (d.base + sym.value) r,
                d.base + sym.value)
  else
    some (fillPlace library state.1 state.2 r, state.2)

/-- `do_relocs`; `sym_val` is not initialised. -/
def doRelocs
    (libraries : List Library) (library : Library) (rela : List Rela)
    (state : Bytes × U64) : Option (Bytes × U64) :=
  rela.foldlM (relocStep libraries library) state

/-- `reloc_all`, for a library with a `DT_RELA` table. -/
def relocAll
    (libraries : List Library) (library : Library) (memory : Bytes)
    (symVal : U64) : Option Bytes :=
  (doRelocs libraries library library.rela (memory, symVal)).map Prod.fst

/-! ## What relocation is for -/

/--
The last library among the dependencies whose hash table defines the name, and
the symbol it has.
-/
structure Defines
    (libraries : List Library) (depsIndex : Nat) (s : CString) (slot : Nat)
    (symbol : Symbol) : Prop where
  isDep : depsIndex.testBit slot = true
  found : ∃ d ∈ libraries[slot]?, d.definition s = some symbol
  last :
    ∀ later, slot < later → depsIndex.testBit later = true →
      ∀ d ∈ libraries[later]?, d.definition s = none

/-- No library among the dependencies defines the name. -/
def Undefined
    (libraries : List Library) (depsIndex : Nat) (s : CString) : Prop :=
  ∀ slot, depsIndex.testBit slot = true →
    ∀ d ∈ libraries[slot]?, d.definition s = none

/-- The name of the symbol of an entry. -/
def Library.nameOf (library : Library) (r : Rela) : Option CString :=
  (library.syms[r.sym]?).map Symbol.name

/--
Places hold the base of the library or the value of the definition, with the
addend; the others and all other bytes are unchanged.
-/
structure Relocated
    (libraries : List Library) (library : Library)
    (memory later : Bytes) : Prop where
  relative :
    ∀ r ∈ library.rela, r.type = 8 →
      loadWord 8 later (library.place r) = (library.base + r.addend).toNat
  defined :
    ∀ r ∈ library.rela, r.type ≠ 8 → ∀ s ∈ library.nameOf r,
      ∀ slot symbol, Defines libraries library.depsIndex s slot symbol →
        ∀ d ∈ libraries[slot]?,
          loadWord 8 later (library.place r) =
            (d.base + symbol.value + r.addend).toNat
  undefined :
    ∀ r ∈ library.rela, r.type ≠ 8 → ∀ s ∈ library.nameOf r,
      Undefined libraries library.depsIndex s →
        loadWord 8 later (library.place r) =
          loadWord 8 memory (library.place r)
  others :
    ∀ position,
      (∀ r ∈ library.rela,
        position < library.place r ∨ library.place r + 8 ≤ position) →
        later position = memory position

/-- Relocating the library leads to this from any memory. -/
def RelocatesRight (libraries : List Library) (library : Library) : Prop :=
  ∀ memory symVal,
    ∃ later,
      relocAll libraries library memory symVal = some later ∧
        Relocated libraries library memory later

/--
Libraries with well-formed hash tables, and a library with entries of the three
types at disjoint places.  Symbol 0 is reserved, and its name is not defined.
-/
structure Relocatable
    (libraries : List Library) (library : Library) : Prop where
  wellFormed : ∀ d ∈ libraries, d.ghashtab.WellFormed d.names
  isLoaded : library ∈ libraries
  types : ∀ r ∈ library.rela, r.type = 6 ∨ r.type = 7 ∨ r.type = 8
  symbols : ∀ r ∈ library.rela, r.sym < library.syms.length
  apart :
    library.rela.Pairwise fun one two =>
      library.place one + 8 ≤ library.place two ∨
        library.place two + 8 ≤ library.place one
  reserved :
    ∀ symbol ∈ library.syms[0]?,
      Undefined libraries library.depsIndex symbol.name

/--
An entry that takes a symbol's value has a symbol, and an entry that does not
has none, or one whose name is defined.
-/
def RelocFits (libraries : List Library) (library : Library) : Prop :=
  ∀ r ∈ library.rela,
    (r.type ≠ 8 → r.sym ≠ 0) ∧
      (r.type = 8 →
        r.sym = 0 ∨
          ∀ s ∈ library.nameOf r,
            ¬ Undefined libraries library.depsIndex s)

/-! ## Searching the dependencies -/

variable {libraries : List Library} {library : Library}

/-- The definition among the dependencies up to a slot. -/
def definitionIn
    (libraries : List Library) (depsIndex : Nat) (s : CString) (i : Nat) :
    Option (Nat × Symbol) :=
  if depsIndex.testBit i then
    (libraries[i]?).bind fun d => (d.definition s).map fun sym => (i, sym)
  else
    none

/-- The last definition among the dependencies up to a slot. -/
def lastDefinition
    (libraries : List Library) (depsIndex : Nat) (s : CString) :
    Nat → Option (Nat × Symbol)
  | 0 => definitionIn libraries depsIndex s 0
  | i + 1 =>
      (definitionIn libraries depsIndex s (i + 1)).or
        (lastDefinition libraries depsIndex s i)

/-- The body of the loop finds the definition of the slot. -/
theorem lookupIn_eq
    (wellFormed : ∀ d ∈ libraries, d.ghashtab.WellFormed d.names)
    (depsIndex : Nat) (s : CString) {i : Nat} (inRange : i < libraries.length) :
    lookupIn libraries depsIndex s i =
      some (definitionIn libraries depsIndex s i) := by
  unfold lookupIn definitionIn
  split_ifs with isDep
  · rw [List.getElem?_eq_getElem inRange, Option.bind_some, Option.bind_some]
    have isFormed := wellFormed _ (List.getElem_mem inRange)
    rw [isFormed.findSym2_eq, Option.bind_some, Library.definition]
    cases isDefined :
        libraries[i].ghashtab.definedAt libraries[i].names s with
    | none => rfl
    | some k =>
        obtain ⟨isFrom, isName, _⟩ :=
          GnuHashTable.definedAt_eq_some_iff.mp isDefined
        have notZero : k ≠ 0 := by
          have reserved := isFormed.reserved
          omega
        rw [Library.names, List.getElem?_map] at isName
        obtain ⟨sym, isSym, _⟩ := Option.map_eq_some_iff.mp isName
        simp [notZero, isSym]
  · rfl

/-- The loop finds the last definition. -/
theorem findSym_eq
    (wellFormed : ∀ d ∈ libraries, d.ghashtab.WellFormed d.names)
    (depsIndex : Nat) (s : CString) {i : Nat} (inRange : i < libraries.length) :
    findSym libraries depsIndex s i =
      some (lastDefinition libraries depsIndex s i) := by
  induction i with
  | zero => exact lookupIn_eq wellFormed depsIndex s inRange
  | succ i inductionHypothesis =>
      rw [findSym, lookupIn_eq wellFormed depsIndex s inRange,
        Option.bind_some, lastDefinition,
        inductionHypothesis (Nat.lt_of_succ_lt inRange)]
      cases definitionIn libraries depsIndex s (i + 1) <;> rfl

/-- There is no definition up to a slot. -/
theorem lastDefinition_eq_none_iff (depsIndex : Nat) (s : CString) (i : Nat) :
    lastDefinition libraries depsIndex s i = none ↔
      ∀ slot ≤ i, definitionIn libraries depsIndex s slot = none := by
  induction i with
  | zero => simp [lastDefinition]
  | succ i inductionHypothesis =>
      rw [lastDefinition, Option.or_eq_none_iff, inductionHypothesis]
      constructor
      · rintro ⟨isHere, isBefore⟩ slot inRange
        rcases Nat.le_succ_iff.mp inRange with isOld | rfl
        · exact isBefore slot isOld
        · exact isHere
      · intro isNone
        exact
          ⟨isNone (i + 1) (Nat.le_refl _),
            fun slot inRange => isNone slot (Nat.le_succ_of_le inRange)⟩

/-- The definition in the last slot that has one. -/
theorem lastDefinition_eq_some
    {depsIndex : Nat} {s : CString} {i slot : Nat} {found : Nat × Symbol}
    (inRange : slot ≤ i)
    (isFound : definitionIn libraries depsIndex s slot = some found)
    (isLast :
      ∀ later ≤ i, slot < later →
        definitionIn libraries depsIndex s later = none) :
    lastDefinition libraries depsIndex s i = some found := by
  induction i with
  | zero =>
      obtain rfl : slot = 0 := Nat.le_zero.mp inRange
      exact isFound
  | succ i inductionHypothesis =>
      rw [lastDefinition]
      rcases Nat.le_succ_iff.mp inRange with isOld | rfl
      · rw [isLast (i + 1) (Nat.le_refl _) (Nat.lt_succ_of_le isOld),
          Option.none_or]
        exact
          inductionHypothesis isOld fun later isUp =>
            isLast later (Nat.le_succ_of_le isUp)
      · rw [isFound, Option.some_or]

/-- A slot has no definition when its library has none. -/
theorem definitionIn_eq_none_iff (depsIndex : Nat) (s : CString) (i : Nat) :
    definitionIn libraries depsIndex s i = none ↔
      (depsIndex.testBit i = true →
        ∀ d ∈ libraries[i]?, d.definition s = none) := by
  unfold definitionIn
  split_ifs with isDep
  · simp [isDep, Option.bind_eq_none_iff]
  · simp [isDep]

/-- The search finds what the dependencies define. -/
theorem Defines.findSym_eq
    (wellFormed : ∀ d ∈ libraries, d.ghashtab.WellFormed d.names)
    {depsIndex : Nat} {s : CString} {slot : Nat} {symbol : Symbol}
    (defines : Defines libraries depsIndex s slot symbol) :
    findSym libraries depsIndex s (libraries.length - 1) =
      some (some (slot, symbol)) := by
  obtain ⟨d, isLibrary, isDefined⟩ := defines.found
  have inRange := (List.getElem?_eq_some_iff.mp isLibrary).1
  have isHere : libraries[slot]? = some d := isLibrary
  have isFound :
      definitionIn libraries depsIndex s slot = some (slot, symbol) := by
    rw [definitionIn, if_pos defines.isDep, isHere, Option.bind_some,
      isDefined, Option.map_some]
  rw [Loader.findSym_eq wellFormed depsIndex s (by omega)]
  refine
    congrArg some
      (lastDefinition_eq_some (by omega) isFound fun later _ isLater => ?_)
  exact
    (definitionIn_eq_none_iff depsIndex s later).mpr
      (defines.last later isLater)

/-- The search finds nothing exactly when no dependency defines the name. -/
theorem findSym_eq_none_iff
    (wellFormed : ∀ d ∈ libraries, d.ghashtab.WellFormed d.names)
    (isSome : 0 < libraries.length) (depsIndex : Nat) (s : CString) :
    findSym libraries depsIndex s (libraries.length - 1) = some none ↔
      Undefined libraries depsIndex s := by
  rw [findSym_eq wellFormed depsIndex s (by omega), Option.some_inj,
    lastDefinition_eq_none_iff]
  constructor
  · intro isNone slot isDep d isLibrary
    have inRange := (List.getElem?_eq_some_iff.mp isLibrary).1
    exact
      (definitionIn_eq_none_iff depsIndex s slot).mp
        (isNone slot (by omega)) isDep d isLibrary
  · intro isUndefined slot _
    exact
      (definitionIn_eq_none_iff depsIndex s slot).mpr
        fun isDep d isLibrary => isUndefined slot isDep d isLibrary

/-- What the search finds is a loaded library. -/
theorem exists_of_findSym
    (wellFormed : ∀ d ∈ libraries, d.ghashtab.WellFormed d.names)
    (isSome : 0 < libraries.length) (depsIndex : Nat) (s : CString) :
    ∃ found,
      findSym libraries depsIndex s (libraries.length - 1) = some found ∧
        ∀ pair ∈ found, ∃ d, libraries[pair.1]? = some d := by
  refine
    ⟨_, findSym_eq wellFormed depsIndex s (by omega), fun pair isPair => ?_⟩
  have inList (i : Nat) :
      ∀ pair ∈ lastDefinition libraries depsIndex s i,
        ∃ d, libraries[pair.1]? = some d := by
    have inSlot (i : Nat) :
        ∀ pair ∈ definitionIn libraries depsIndex s i,
          ∃ d, libraries[pair.1]? = some d := by
      intro pair isHere
      unfold definitionIn at isHere
      split_ifs at isHere with isDep
      · obtain ⟨d, isLibrary, isMap⟩ := Option.bind_eq_some_iff.mp isHere
        obtain ⟨sym, _, rfl⟩ := Option.map_eq_some_iff.mp isMap
        exact ⟨d, isLibrary⟩
      · cases isHere
    induction i with
    | zero => exact inSlot 0
    | succ i inductionHypothesis =>
        intro pair isHere
        rcases Option.or_eq_some_iff.mp isHere with isLast | ⟨_, isBefore⟩
        · exact inSlot (i + 1) pair isLast
        · exact inductionHypothesis pair isBefore
  exact inList _ pair isPair

end BinTools.Loader
