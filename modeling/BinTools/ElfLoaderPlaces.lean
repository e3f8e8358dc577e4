import BinTools.ElfLoaderReloc

namespace BinTools.Loader

open ByteBuffer

/-!
# The places of a relocation table

Places are disjoint, so a place holds what its own entry wrote, and an entry
that writes nothing leaves the place as it was at first.
-/

variable
  {libraries : List Library} {library : Library} {state next : Bytes × U64}
  {r : Rela}

/-- A position is outside of the place of an entry. -/
def Outside (library : Library) (r : Rela) (position : Nat) : Prop :=
  position < library.place r ∨ library.place r + 8 ≤ position

/-- An entry writes a word at its place, or nothing. -/
theorem fillPlace_eq (memory : Bytes) (symVal : U64) :
    fillPlace library memory symVal r = memory ∨
      ∃ value,
        fillPlace library memory symVal r =
          storeWord 8 memory (library.place r) value := by
  unfold fillPlace
  split
  · exact Or.inr ⟨_, rfl⟩
  · exact Or.inr ⟨_, rfl⟩
  · exact Or.inr ⟨_, rfl⟩
  · exact Or.inl rfl

/-- An entry writes its place only. -/
theorem fillPlace_of_outside
    {position : Nat} (outside : Outside library r position)
    (memory : Bytes) (symVal : U64) :
    fillPlace library memory symVal r position = memory position := by
  rcases fillPlace_eq memory symVal with same | ⟨value, isWord⟩
  · rw [same]
  · rw [isWord]
    exact storeWord_apply_of_outside outside

/-- One entry leaves everything else alone. -/
theorem relocStep_of_outside
    (isNext : relocStep libraries library state r = some next)
    {position : Nat} (outside : Outside library r position) :
    next.1 position = state.1 position := by
  unfold relocStep at isNext
  split_ifs at isNext with isSym
  · obtain ⟨sym, _, isFound⟩ := Option.bind_eq_some_iff.mp isNext
    obtain ⟨found, _, isDone⟩ := Option.bind_eq_some_iff.mp isFound
    cases found with
    | none =>
        cases isDone
        rfl
    | some pair =>
        obtain ⟨d, _, rfl⟩ := Option.map_eq_some_iff.mp isDone
        exact fillPlace_of_outside outside _ _
  · cases isNext
    exact fillPlace_of_outside outside _ _

/-- Some entries leave everything else alone. -/
theorem doRelocs_of_outside
    {rela : List Rela}
    (isNext : doRelocs libraries library rela state = some next)
    {position : Nat} (outside : ∀ r ∈ rela, Outside library r position) :
    next.1 position = state.1 position := by
  induction rela generalizing state with
  | nil =>
      cases isNext
      rfl
  | cons first rest inductionHypothesis =>
      unfold doRelocs at isNext
      rw [List.foldlM_cons] at isNext
      obtain ⟨middle, isMiddle, isRest⟩ := Option.bind_eq_some_iff.mp isNext
      rw [inductionHypothesis isRest
          fun r member => outside r (List.mem_cons_of_mem _ member),
        relocStep_of_outside isMiddle (outside first List.mem_cons_self)]

/-- Entries at other places leave a word alone. -/
theorem loadWord_doRelocs
    {rela : List Rela}
    (isNext : doRelocs libraries library rela state = some next)
    (apart :
      ∀ other ∈ rela,
        library.place other + 8 ≤ library.place r ∨
          library.place r + 8 ≤ library.place other) :
    loadWord 8 next.1 (library.place r) =
      loadWord 8 state.1 (library.place r) := by
  refine loadWord_congr fun position isFrom isBefore => ?_
  refine doRelocs_of_outside isNext fun other member => ?_
  rcases apart other member with isBehind | isAhead
  · exact Or.inr (by omega)
  · exact Or.inl (by omega)

/-- The variable for the value does not depend on the memory. -/
theorem relocStep_snd
    (memory other : Bytes) (symVal : U64) :
    (relocStep libraries library (memory, symVal) r).map Prod.snd =
      (relocStep libraries library (other, symVal) r).map Prod.snd := by
  unfold relocStep
  split_ifs with isSym
  · rw [Option.map_bind, Option.map_bind]
    congr 1
    funext sym
    simp only [Function.comp_apply]
    rw [Option.map_bind, Option.map_bind]
    congr 1
    funext found
    cases found with
    | none => rfl
    | some pair =>
        simp only [Function.comp_apply, Option.map_map]
        rfl
  · rfl

/-- The variable after some entries does not depend on the memory. -/
theorem doRelocs_snd
    (rela : List Rela) (memory other : Bytes) (symVal : U64) :
    (doRelocs libraries library rela (memory, symVal)).map Prod.snd =
      (doRelocs libraries library rela (other, symVal)).map Prod.snd := by
  induction rela generalizing memory other symVal with
  | nil => rfl
  | cons first rest inductionHypothesis =>
      unfold doRelocs
      rw [List.foldlM_cons, List.foldlM_cons]
      have sameVal :
          (relocStep libraries library (memory, symVal) first).map Prod.snd =
            (relocStep libraries library (other, symVal) first).map
              Prod.snd :=
        relocStep_snd memory other symVal
      cases isOne : relocStep libraries library (memory, symVal) first with
      | none =>
          rw [isOne, Option.map_none, eq_comm,
            Option.map_eq_none_iff] at sameVal
          rw [sameVal]
      | some one =>
          rw [isOne, Option.map_some, eq_comm] at sameVal
          obtain ⟨two, isTwo, sameSnd⟩ := Option.map_eq_some_iff.mp sameVal
          rw [isTwo]
          have isPair : two = (two.1, one.2) := by rw [← sameSnd]
          rw [isPair]
          exact inductionHypothesis one.1 two.1 one.2

/-! ## Tables that can be relocated -/

section Relocatable

variable (relocatable : Relocatable libraries library)

include relocatable

/-- There are libraries. -/
theorem Relocatable.length_pos : 0 < libraries.length :=
  List.length_pos_of_mem relocatable.isLoaded

/-- The symbol of an entry. -/
theorem Relocatable.exists_symbol (member : r ∈ library.rela) :
    ∃ symbol,
      library.syms[r.sym]? = some symbol ∧
        library.nameOf r = some symbol.name := by
  have isSymbol :=
    List.getElem?_eq_getElem (relocatable.symbols r member)
  refine ⟨_, isSymbol, ?_⟩
  rw [Library.nameOf, isSymbol, Option.map_some]

/-- Every entry is gone through. -/
theorem Relocatable.exists_relocStep
    (member : r ∈ library.rela) (state : Bytes × U64) :
    ∃ next, relocStep libraries library state r = some next := by
  unfold relocStep
  split_ifs with isSym
  · obtain ⟨symbol, isSymbol, _⟩ := relocatable.exists_symbol member
    obtain ⟨found, isFound, isLibrary⟩ :=
      exists_of_findSym relocatable.wellFormed relocatable.length_pos
        library.depsIndex symbol.name
    rw [isSymbol, Option.bind_some, isFound, Option.bind_some]
    cases found with
    | none => exact ⟨state, rfl⟩
    | some pair =>
        obtain ⟨d, isHere⟩ := isLibrary pair rfl
        dsimp only
        rw [isHere]
        exact ⟨_, rfl⟩
  · exact ⟨_, rfl⟩

/-- All entries are gone through. -/
theorem Relocatable.exists_doRelocs
    {rela : List Rela} (isPart : rela ⊆ library.rela)
    (state : Bytes × U64) :
    ∃ next, doRelocs libraries library rela state = some next := by
  induction rela generalizing state with
  | nil => exact ⟨state, rfl⟩
  | cons first rest inductionHypothesis =>
      obtain ⟨middle, isMiddle⟩ :=
        relocatable.exists_relocStep (isPart List.mem_cons_self) state
      obtain ⟨next, isNext⟩ :=
        inductionHypothesis
          (fun r member => isPart (List.mem_cons_of_mem _ member)) middle
      refine ⟨next, ?_⟩
      unfold doRelocs at isNext ⊢
      rw [List.foldlM_cons, isMiddle]
      exact isNext

/-- An entry finds its place as it was, and nothing changes it later. -/
theorem Relocatable.at_place
    {before after : List Rela}
    (isSplit : library.rela = before ++ r :: after) {memory later : Bytes}
    {symVal : U64}
    (isLater : relocAll libraries library memory symVal = some later) :
    ∃ one two,
      doRelocs libraries library before (memory, symVal) = some one ∧
        relocStep libraries library one r = some two ∧
          loadWord 8 one.1 (library.place r) =
              loadWord 8 memory (library.place r) ∧
            loadWord 8 later (library.place r) =
              loadWord 8 two.1 (library.place r) := by
  obtain ⟨⟨_, last⟩, isLast, rfl⟩ := Option.map_eq_some_iff.mp isLater
  have apart := relocatable.apart
  rw [isSplit] at apart
  obtain ⟨_, apartAfter, apartBefore⟩ := List.pairwise_append.mp apart
  rw [isSplit] at isLast
  unfold doRelocs at isLast
  rw [List.foldlM_append] at isLast
  obtain ⟨one, isOne, isRest⟩ := Option.bind_eq_some_iff.mp isLast
  rw [List.foldlM_cons] at isRest
  obtain ⟨two, isTwo, isAfter⟩ := Option.bind_eq_some_iff.mp isRest
  have keptBefore :=
    loadWord_doRelocs isOne fun other member =>
      apartBefore other member r List.mem_cons_self
  have keptAfter :=
    loadWord_doRelocs isAfter fun other member =>
      (List.rel_of_pairwise_cons apartAfter member).symm
  exact ⟨one, two, isOne, isTwo, keptBefore, keptAfter⟩

/-- An entry that is passed over. -/
theorem Relocatable.step_of_undefined
    (member : r ∈ library.rela) (isSym : r.sym ≠ 0) {s : CString}
    (isName : library.nameOf r = some s)
    (isUndefined : Undefined libraries library.depsIndex s)
    (state : Bytes × U64) :
    relocStep libraries library state r = some state := by
  obtain ⟨symbol, isSymbol, isSame⟩ := relocatable.exists_symbol member
  obtain rfl : symbol.name = s := Option.some_inj.mp (isSame.symm.trans isName)
  rw [relocStep, if_pos isSym, isSymbol, Option.bind_some,
    (findSym_eq_none_iff relocatable.wellFormed relocatable.length_pos _
      _).mpr isUndefined]
  rfl

/-- An entry whose name is defined. -/
theorem Relocatable.step_of_not_undefined
    (member : r ∈ library.rela) (isSym : r.sym ≠ 0) {s : CString}
    (isName : library.nameOf r = some s)
    (isDefined : ¬ Undefined libraries library.depsIndex s)
    (state : Bytes × U64) :
    ∃ symVal,
      relocStep libraries library state r =
        some (fillPlace library state.1 symVal r, symVal) := by
  obtain ⟨symbol, isSymbol, isSame⟩ := relocatable.exists_symbol member
  obtain rfl : symbol.name = s := Option.some_inj.mp (isSame.symm.trans isName)
  obtain ⟨found, isFound, isLibrary⟩ :=
    exists_of_findSym relocatable.wellFormed relocatable.length_pos
      library.depsIndex symbol.name
  rw [relocStep, if_pos isSym, isSymbol, Option.bind_some, isFound]
  cases found with
  | none =>
      rw [findSym_eq_none_iff relocatable.wellFormed
        relocatable.length_pos] at isFound
      exact absurd isFound isDefined
  | some pair =>
      obtain ⟨d, isHere⟩ := isLibrary pair rfl
      refine ⟨d.base + pair.2.value, ?_⟩
      rw [Option.bind_some]
      dsimp only
      rw [isHere]
      rfl

/-- An entry gets the value of its definition. -/
theorem Relocatable.step_of_defines
    (member : r ∈ library.rela) (isSym : r.sym ≠ 0) {s : CString}
    (isName : library.nameOf r = some s) {slot : Nat} {symbol : Symbol}
    (defines : Defines libraries library.depsIndex s slot symbol)
    {d : Library} (isLibrary : libraries[slot]? = some d)
    (state : Bytes × U64) :
    relocStep libraries library state r =
      some
        (fillPlace library state.1 (d.base + symbol.value) r,
          d.base + symbol.value) := by
  obtain ⟨named, isSymbol, isSame⟩ := relocatable.exists_symbol member
  obtain rfl : named.name = s := Option.some_inj.mp (isSame.symm.trans isName)
  rw [relocStep, if_pos isSym, isSymbol, Option.bind_some,
    defines.findSym_eq relocatable.wellFormed, Option.bind_some]
  dsimp only
  rw [isLibrary]
  rfl

end Relocatable

/-- A word that was written is read back. -/
theorem loadWord_storeWord_toNat
    (memory : Bytes) (place : Nat) (value : U64) :
    loadWord 8 (storeWord 8 memory place value.toNat) place = value.toNat := by
  rw [loadWord_storeWord]
  exact Nat.mod_eq_of_lt value.isLt

/-- An entry of type `R_X86_64_RELATIVE`. -/
theorem loadWord_fillPlace_relative
    (isRelative : r.type = 8) (memory : Bytes) (symVal : U64) :
    loadWord 8 (fillPlace library memory symVal r) (library.place r) =
      (library.base + r.addend).toNat := by
  rw [fillPlace, isRelative]
  exact loadWord_storeWord_toNat _ _ _

/-- An entry of a type with a symbol. -/
theorem loadWord_fillPlace_symbol
    (isSymbol : r.type = 6 ∨ r.type = 7) (memory : Bytes) (symVal : U64) :
    loadWord 8 (fillPlace library memory symVal r) (library.place r) =
      (symVal + r.addend).toNat := by
  rcases isSymbol with isData | isSlot
  · rw [fillPlace, isData]
    exact loadWord_storeWord_toNat _ _ _
  · rw [fillPlace, isSlot]
    exact loadWord_storeWord_toNat _ _ _

/-- No value is in every memory. -/
theorem not_all_loadWord (place value : Nat) :
    ¬ ∀ memory : Bytes, loadWord 8 memory place = value := by
  intro always
  have isZero := always fun _ => 0
  have isOne := always fun _ => 1
  rw [← isZero] at isOne
  have notSame :
      loadWord 8 (fun _ => 1) place ≠ loadWord 8 (fun _ => 0) place := by
    simp [loadWord, load, List.range_succ, ofLittleEndian]
  exact notSame isOne

/-- Relocation is right for a table that fits. -/
theorem Relocatable.relocatesRight
    (relocatable : Relocatable libraries library)
    (fits : RelocFits libraries library) :
    RelocatesRight libraries library := by
  intro memory symVal
  obtain ⟨last, isLast⟩ :=
    relocatable.exists_doRelocs (List.Subset.refl library.rela)
      (memory, symVal)
  have isLater :
      relocAll libraries library memory symVal = some last.1 := by
    rw [relocAll, isLast, Option.map_some]
  refine ⟨last.1, isLater, ?_, ?_, ?_, ?_⟩
  · intro r member isRelative
    obtain ⟨before, after, isSplit⟩ := List.append_of_mem member
    obtain ⟨one, two, _, isTwo, _, isKept⟩ :=
      relocatable.at_place isSplit isLater
    rw [isKept]
    by_cases isSym : r.sym = 0
    · rw [relocStep, if_neg (not_not.mpr isSym)] at isTwo
      cases isTwo
      exact loadWord_fillPlace_relative isRelative _ _
    · obtain ⟨symbol, _, isName⟩ := relocatable.exists_symbol member
      have isDefined :=
        ((fits r member).2 isRelative).resolve_left isSym symbol.name isName
      obtain ⟨found, isStep⟩ :=
        relocatable.step_of_not_undefined member isSym isName isDefined one
      rw [isTwo] at isStep
      cases isStep
      exact loadWord_fillPlace_relative isRelative _ _
  · intro r member isOther s isName slot symbol defines d isLibrary
    obtain ⟨before, after, isSplit⟩ := List.append_of_mem member
    obtain ⟨one, two, _, isTwo, _, isKept⟩ :=
      relocatable.at_place isSplit isLater
    have isSym := (fits r member).1 isOther
    have isStep :=
      relocatable.step_of_defines member isSym isName defines isLibrary one
    rw [isTwo] at isStep
    cases isStep
    have isSymbol : r.type = 6 ∨ r.type = 7 := by
      have types := relocatable.types r member
      omega
    rw [isKept]
    exact loadWord_fillPlace_symbol isSymbol _ _
  · intro r member isOther s isName isUndefined
    obtain ⟨before, after, isSplit⟩ := List.append_of_mem member
    obtain ⟨one, two, _, isTwo, wasKept, isKept⟩ :=
      relocatable.at_place isSplit isLater
    have isSym := (fits r member).1 isOther
    have isStep :=
      relocatable.step_of_undefined member isSym isName isUndefined one
    rw [isTwo] at isStep
    cases isStep
    rw [isKept, wasKept]
  · intro position outside
    exact doRelocs_of_outside isLast outside

/-- A table is right for every memory only if it fits. -/
theorem Relocatable.relocFits
    (relocatable : Relocatable libraries library)
    (right : RelocatesRight libraries library) :
    RelocFits libraries library := by
  intro r member
  obtain ⟨symbol, isSymbol, isName⟩ := relocatable.exists_symbol member
  obtain ⟨before, after, isSplit⟩ := List.append_of_mem member
  have isPart : before ⊆ library.rela := by
    intro other isBefore
    rw [isSplit]
    exact List.mem_append_left _ isBefore
  constructor
  · intro isOther isZero
    -- The value the entry finds does not depend on what its place holds.
    obtain ⟨start, isStart⟩ :=
      relocatable.exists_doRelocs isPart (fun _ => 0, 0)
    refine
      not_all_loadWord (library.place r) (start.2 + r.addend).toNat
        fun memory => ?_
    obtain ⟨later, isLater, relocated⟩ := right memory 0
    obtain ⟨one, two, isOne, isTwo, _, isKept⟩ :=
      relocatable.at_place isSplit isLater
    have sameVal : one.2 = start.2 := by
      have same :
          (doRelocs libraries library before (memory, 0)).map Prod.snd =
            (doRelocs libraries library before (fun _ => 0, 0)).map
              Prod.snd :=
        doRelocs_snd before memory (fun _ => 0) 0
      rw [isOne, isStart] at same
      exact Option.some_inj.mp same
    rw [relocStep, if_neg (not_not.mpr isZero)] at isTwo
    cases isTwo
    have isUndefined : Undefined libraries library.depsIndex symbol.name := by
      rw [isZero] at isSymbol
      exact relocatable.reserved symbol isSymbol
    have isSymbolType : r.type = 6 ∨ r.type = 7 := by
      have types := relocatable.types r member
      omega
    rw [← relocated.undefined r member isOther _ isName isUndefined, isKept,
      loadWord_fillPlace_symbol isSymbolType, sameVal]
  · intro isRelative
    by_contra isWrong
    rw [not_or] at isWrong
    obtain ⟨isSym, isDefined⟩ := isWrong
    have isUndefined : Undefined libraries library.depsIndex symbol.name := by
      by_contra notUndefined
      refine isDefined fun s isS => ?_
      rw [isName] at isS
      cases isS
      exact notUndefined
    refine
      not_all_loadWord (library.place r) (library.base + r.addend).toNat
        fun memory => ?_
    obtain ⟨later, isLater, relocated⟩ := right memory 0
    obtain ⟨one, two, _, isTwo, wasKept, isKept⟩ :=
      relocatable.at_place isSplit isLater
    rw [relocatable.step_of_undefined member isSym isName isUndefined] at isTwo
    cases isTwo
    rw [← wasKept, ← isKept]
    exact relocated.relative r member isRelative

/--
Relocation is right for a library exactly when its entries that take the value
of a symbol have one, and those that do not have none or a defined one.
-/
theorem relocatesRight_iff_relocFits
    (relocatable : Relocatable libraries library) :
    RelocatesRight libraries library ↔ RelocFits libraries library :=
  ⟨relocatable.relocFits, relocatable.relocatesRight⟩

/-- The hash table of a library that exports `f`. -/
def oneName : GnuHashTable where
  nbuckets := 1
  symoffset := 1
  bloomSize := 1
  bloomShift := 6
  bloomArray := [BitVec.allOnes 64]
  buckets := [1]
  chain := [gnuHash (CString.ofString "f") ||| 1]

/-- It follows the format. -/
theorem oneName_wellFormed :
    oneName.WellFormed [CString.ofString "", CString.ofString "f"] := by
  have onlyName (i : Nat) (name : CString) (isFrom : 1 ≤ i)
      (isName :
        [CString.ofString "", CString.ofString "f"][i]? = some name) :
      i = 1 ∧ name = CString.ofString "f" := by
    have inRange : i < 2 := (List.getElem?_eq_some_iff.mp isName).1
    obtain rfl : i = 1 := by omega
    exact ⟨rfl, (Option.some_inj.mp isName).symm⟩
  refine
    { someBuckets := by decide
      bucketsLength := rfl
      powerOfTwo := ⟨0, rfl⟩
      bloomLength := rfl
      reserved := by decide
      chainLength := rfl
      bloomBits := ?_
      hashes := ?_
      empty := ?_
      runs := ?_ }
  · intro i name isFrom isName word isWord
    obtain ⟨rfl, rfl⟩ := onlyName i name isFrom isName
    have isFirst :
        oneName.bloomIndex (gnuHash (CString.ofString "f") / 64) = 0 := by
      decide +kernel
    rw [isFirst] at isWord
    obtain rfl := Option.some_inj.mp isWord
    constructor <;> decide +kernel
  · intro i name isFrom isName word isWord
    obtain ⟨rfl, rfl⟩ := onlyName i name isFrom isName
    obtain rfl :
        gnuHash (CString.ofString "f") ||| 1 = word := Option.some_inj.mp isWord
    decide +kernel
  · intro i name isFrom isName
    obtain ⟨rfl, rfl⟩ := onlyName i name isFrom isName
    decide +kernel
  · intro bucket i isBucket _
    have inRange : bucket < 1 := (List.getElem?_eq_some_iff.mp isBucket).1
    obtain rfl : bucket = 0 := by omega
    obtain rfl : i = 1 := (Option.some_inj.mp isBucket).symm
    refine ⟨1, by decide, Nat.le_refl 1, Nat.lt_succ_self 1, ?_, ?_⟩
    · intro k word isFrom isTo isWord
      obtain rfl : k = 1 := by omega
      obtain rfl :
          gnuHash (CString.ofString "f") ||| 1 = word :=
        Option.some_inj.mp isWord
      have isOdd :
          (gnuHash (CString.ofString "f") ||| 1) &&& 1 ≠ (0 : U32) := by
        decide +kernel
      exact ⟨fun _ => rfl, fun _ => isOdd⟩
    · intro k name isFrom isName _
      obtain ⟨rfl, _⟩ := onlyName k name isFrom isName
      exact ⟨Nat.le_refl 1, Nat.le_refl 1⟩

/-- A library at `0x1000` that depends on itself and defines `f`. -/
def oneFunction (rela : List Rela) : Library where
  base := 0x1000
  depsIndex := 1
  ghashtab := oneName
  syms :=
    [{ name := CString.ofString "", value := 0 },
      { name := CString.ofString "f", value := 0x40 }]
  rela := rela

/-- Its entries can be relocated when they are at disjoint places. -/
theorem oneFunction_relocatable
    {rela : List Rela}
    (types : ∀ r ∈ rela, r.type = 6 ∨ r.type = 7 ∨ r.type = 8)
    (symbols : ∀ r ∈ rela, r.sym < 2)
    (apart :
      rela.Pairwise fun one two =>
        (oneFunction rela).place one + 8 ≤ (oneFunction rela).place two ∨
          (oneFunction rela).place two + 8 ≤ (oneFunction rela).place one) :
    Relocatable [oneFunction rela] (oneFunction rela) := by
  refine
    { wellFormed := ?_
      isLoaded := List.mem_singleton_self _
      types := types
      symbols := symbols
      apart := apart
      reserved := ?_ }
  · intro d isLibrary
    obtain rfl := List.mem_singleton.mp isLibrary
    exact oneName_wellFormed
  · intro symbol isSymbol slot _ d isLibrary
    obtain rfl := Option.some_inj.mp isSymbol
    have inRange : slot < 1 := (List.getElem?_eq_some_iff.mp isLibrary).1
    obtain rfl : slot = 0 := by omega
    obtain rfl := Option.some_inj.mp isLibrary
    have notDefined :
        oneName.definedAt [CString.ofString "", CString.ofString "f"]
          (CString.ofString "") = none := by
      decide +kernel
    exact congrArg (Option.bind · _) notDefined

/-- The slot of `f` and a pointer of the library are relocated. -/
theorem relocatesRight_function :
    RelocatesRight
      [oneFunction [⟨0x100, 0x100000007, 0⟩, ⟨0x108, 8, 0x80⟩]]
      (oneFunction [⟨0x100, 0x100000007, 0⟩, ⟨0x108, 8, 0x80⟩]) := by
  refine
    (relocatesRight_iff_relocFits
      (oneFunction_relocatable
        (by decide +kernel) (by decide +kernel) (by decide +kernel))).mpr ?_
  intro r member
  rcases List.mem_pair.mp member with rfl | rfl
  · exact
      ⟨fun _ => by decide +kernel,
        fun isRelative => absurd isRelative (by decide +kernel)⟩
  · exact
      ⟨fun notRelative => absurd (by decide +kernel) notRelative,
        fun _ => Or.inl (by decide +kernel)⟩

/-- An entry without a symbol takes the value of the entry before it. -/
theorem not_relocatesRight_stale :
    ¬ RelocatesRight
      [oneFunction [⟨0x100, 0x100000007, 0⟩, ⟨0x108, 6, 0⟩]]
      (oneFunction [⟨0x100, 0x100000007, 0⟩, ⟨0x108, 6, 0⟩]) := by
  intro right
  have relocatable :
      Relocatable
        [oneFunction [⟨0x100, 0x100000007, 0⟩, ⟨0x108, 6, 0⟩]]
        (oneFunction [⟨0x100, 0x100000007, 0⟩, ⟨0x108, 6, 0⟩]) :=
    oneFunction_relocatable
      (by decide +kernel) (by decide +kernel) (by decide +kernel)
  have fits :=
    relocatable.relocFits right ⟨0x108, 6, 0⟩
      (List.mem_cons_of_mem _ (List.mem_singleton_self _))
  exact fits.1 (by decide +kernel) (by decide +kernel)

end BinTools.Loader
