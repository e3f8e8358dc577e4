import BinTools.ElfImport
import BinTools.GnuHashPresent
import BinTools.GuardedRun

namespace BinTools.Elf

/-!
# Finding exported names

Exporting a symbol adds its string, its symbol-table entry and its hash.  As
long as the tables stay in their first chunks, the entry of the n-th exported
symbol has index n and bears its name, and every exported name is found at its
first symbol exactly when no later hash took the slot of that symbol.
-/

/-- What `__z__link__add_export_symbol` registers for one symbol. -/
structure Export where
  name : CString
  shndx : Nat
  value : Nat
  deriving DecidableEq, Repr

/-- The dynamic tables together with the symbols exported so far, in order. -/
structure Exported where
  dynamic : Dynamic
  symbols : List Export
  deriving DecidableEq, Repr

/-- The names exported so far, in order. -/
def Exported.names (state : Exported) : List CString :=
  state.symbols.map Export.name

/-- There is a name for every exported symbol. -/
theorem Exported.length_names (state : Exported) :
    state.names.length = state.symbols.length := by
  simp [Exported.names]

/-- The tables before the first export. -/
def Exported.init (nbucket bloomSize bloomShift : U32) : Exported where
  dynamic := Dynamic.init 0 0 nbucket bloomSize bloomShift
  symbols := []

/-- Export one more symbol. -/
def Exported.add (state : Exported) (symbol : Export) : Option Exported :=
  (state.dynamic.addExport symbol.name symbol.shndx symbol.value).map
    fun dynamic =>
      { dynamic := dynamic, symbols := state.symbols ++ [symbol] }

/-- Every exported name is found at the first symbol added under it. -/
def AllFound (state : Exported) : Prop :=
  ∀ name ∈ state.names,
    state.dynamic.findSym2 name = some (state.names.idxOf name + 1)

instance (state : Exported) : Decidable (AllFound state) :=
  inferInstanceAs (Decidable (∀ name ∈ _, _))

/-- The hash of the next symbol takes the slot of no earlier name away. -/
def KeepsSlots (state : Exported) (symbol : Export) : Prop :=
  state.dynamic.gnuHash.KeepsSlots state.names symbol.name

instance (state : Exported) (symbol : Export) :
    Decidable (KeepsSlots state symbol) :=
  inferInstanceAs (Decidable (GnuHashTable.KeepsSlots _ _ _))

/-- The symbols and their strings stay within the first chunks. -/
def Fits (symbols : List Export) : Prop :=
  symbols.length + 1 < defaultNum ∧
    1 + (symbols.map fun symbol => symbol.name.length + 1).sum ≤ defaultNum

instance (symbols : List Export) : Decidable (Fits symbols) :=
  inferInstanceAs (Decidable (_ ∧ _))

/-- The next symbol and its string stay within the first chunks. -/
def Room (state : Exported) (symbol : Export) : Prop :=
  state.symbols.length + 2 < defaultNum ∧
    state.dynamic.dynstr.size + symbol.name.length + 1 ≤ defaultNum

/-! ## Strings in the string table -/

/-- A terminated string stands at an offset. -/
def StoredAt (bytes : List UInt8) (offset : Nat) (name : CString) : Prop :=
  ∃ before after,
    bytes = before ++ (name.bytes ++ 0 :: after) ∧ before.length = offset

/-- Appending to the string table keeps every string in it. -/
theorem StoredAt.append
    {bytes : List UInt8} {offset : Nat} {name : CString}
    (stored : StoredAt bytes offset name) (more : List UInt8) :
    StoredAt (bytes ++ more) offset name := by
  obtain ⟨before, after, rfl, atOffset⟩ := stored
  exact ⟨before, after ++ more, by simp, atOffset⟩

/-- A string appended with its terminator stands at the old end. -/
theorem storedAt_end (bytes : List UInt8) (name : CString) :
    StoredAt (bytes ++ name.bytes ++ [0]) bytes.length name :=
  ⟨bytes, [], by simp, rfl⟩

/-- A stored string reads back. -/
theorem StoredAt.ofBytes_drop
    {bytes : List UInt8} {offset : Nat} {name : CString}
    (stored : StoredAt bytes offset name) :
    CString.ofBytes (bytes.drop offset) = name := by
  obtain ⟨before, after, rfl, rfl⟩ := stored
  rw [List.drop_left, CString.ofBytes_append_nul]

/-- A stored string ends inside of the table. -/
theorem StoredAt.lt_length
    {bytes : List UInt8} {offset : Nat} {name : CString}
    (stored : StoredAt bytes offset name) :
    offset + name.length < bytes.length := by
  obtain ⟨before, after, rfl, rfl⟩ := stored
  simp only [List.length_append, List.length_cons, CString.length]
  omega

/-! ## The tables after a number of exports -/

/-- What a number of exports leaves, while the first chunks are not full. -/
structure Registered (exponent : Nat) (state : Exported) : Prop where
  built : GnuHashTable.Built state.names state.dynamic.gnuHash
  positive : 0 < state.dynamic.gnuHash.nbuckets.toNat
  powerOfTwo : state.dynamic.gnuHash.bloomSize.toNat = 2 ^ exponent
  slots : defaultNum ≤ state.dynamic.gnuHash.chain.length
  fewSymbols : state.symbols.length + 1 < defaultNum
  dynsymOpen : state.dynamic.dynsym.closed = []
  dynsymNum : state.dynamic.dynsym.size = state.symbols.length + 1
  dynsymLength :
    state.dynamic.dynsym.current.entries.length = state.symbols.length + 1
  dynstrOpen : state.dynamic.dynstr.closed = []
  dynstrSize :
    state.dynamic.dynstr.size = state.dynamic.dynstr.current.entries.length
  dynstrFits : state.dynamic.dynstr.size ≤ defaultNum
  nullSymbol :
    state.dynamic.dynsym.current.entries[0]? = some ({} : DynsymEntry)
  stored :
    ∀ position symbol,
      state.symbols[position]? = some symbol →
        ∃ strOffset,
          state.dynamic.dynsym.current.entries[position + 1]? =
              some
                { stName := strOffset
                  stShndx := symbol.shndx
                  stValue := symbol.value } ∧
            StoredAt state.dynamic.dynstr.current.entries strOffset
              symbol.name

/-- The empty tables, for a table with buckets and a power-of-two filter. -/
theorem registered_init
    (baseAddress pltAddress : Nat)
    (nbucket bloomSize bloomShift : U32) (exponent : Nat)
    (positive : 0 < nbucket.toNat)
    (powerOfTwo : bloomSize.toNat = 2 ^ exponent) :
    Registered exponent
      { dynamic :=
          Dynamic.init baseAddress pltAddress nbucket bloomSize bloomShift
        symbols := [] } where
  built := GnuHashTable.built_zeroed _ _ _ _
  positive := positive
  powerOfTwo := powerOfTwo
  slots := by
    simp only [Dynamic.init, GnuHashTable.zeroed, List.length_replicate]
    omega
  fewSymbols := by simp [defaultNum]
  dynsymOpen := rfl
  dynsymNum := rfl
  dynsymLength := rfl
  dynstrOpen := rfl
  dynstrSize := rfl
  dynstrFits := by simp [Dynamic.init, defaultNum]
  nullSymbol := rfl
  stored := by simp

/--
The n-th exported symbol has its value and bears its name, also after more
symbols and strings were added.
-/
theorem Registered.symbolAt
    {exponent : Nat} {state : Exported} {later : Dynamic}
    (registered : Registered exponent state)
    (grown : Dynamic.Grown state.dynamic later)
    {position : Nat} {symbol : Export}
    (present : state.symbols[position]? = some symbol) :
    (∃ entry,
      later.symAt (position + 1) = some entry ∧
        entry.stValue = symbol.value) ∧
      later.nameAt (position + 1) = some symbol.name := by
  obtain ⟨strOffset, atIndex, stored⟩ :=
    registered.stored position symbol present
  have inBounds := (List.getElem?_eq_some_iff.mp present).1
  have few := registered.fewSymbols
  have inChunk : position + 1 < defaultNum := by omega
  have symbols := grown.dynsym
  have strings := grown.dynstr
  simp only [Table.head, registered.dynsymOpen, List.headD_nil] at symbols
  simp only [Table.head, registered.dynstrOpen, List.headD_nil] at strings
  have symHere :
      later.symAt (position + 1) =
        some
          { stName := strOffset
            stShndx := symbol.shndx
            stValue := symbol.value } := by
    have known := (List.getElem?_eq_some_iff.mp atIndex).1
    have kept := (Dynamic.getElem?_of_prefix symbols known).trans atIndex
    rw [Dynamic.symAt, if_pos inChunk, Table.head, kept]
    rfl
  have readable : strOffset + symbol.name.length < defaultNum := by
    have inTable := stored.lt_length
    have fits := registered.dynstrFits
    rw [registered.dynstrSize] at fits
    omega
  have storedLater :
      StoredAt later.dynstr.head.entries strOffset symbol.name := by
    obtain ⟨more, isAll⟩ := strings
    rw [Table.head, ← isAll]
    exact stored.append more
  refine ⟨⟨_, symHere, rfl⟩, ?_⟩
  simp [Dynamic.nameAt, symHere, Dynamic.stringAt, storedLater.ofBytes_drop,
    readable]

/-- The n-th exported symbol bears the n-th name. -/
theorem Registered.nameAt
    {exponent : Nat} {state : Exported} {later : Dynamic}
    (registered : Registered exponent state)
    (grown : Dynamic.Grown state.dynamic later)
    {position : Nat} {name : CString}
    (present : state.names[position]? = some name) :
    later.nameAt (position + 1) = some name := by
  rw [Exported.names, List.getElem?_map] at present
  obtain ⟨symbol, here, rfl⟩ := Option.map_eq_some_iff.mp present
  exact (registered.symbolAt grown here).2

/-- Every name is found exactly when every name has its own slot. -/
theorem Registered.allFound_iff
    {exponent : Nat} {state : Exported}
    (registered : Registered exponent state) :
    AllFound state ↔
      ∀ name ∈ state.names,
        GnuHashTable.OwnSlot state.names state.dynamic.gnuHash.chain name :=
  forall₂_congr fun _ member =>
    registered.built.findSym2_idxOf_iff registered.positive
      registered.powerOfTwo (fun _ _ => registered.nameAt (.refl _)) member

/-- What exporting one more symbol does, with room for it. -/
theorem Registered.add
    {exponent : Nat} {state : Exported} {symbol : Export}
    (registered : Registered exponent state)
    (room : Room state symbol) :
    ∃ next slot,
      state.add symbol = some next ∧
        Registered exponent next ∧
        next.symbols = state.symbols ++ [symbol] ∧
        next.dynamic.dynstr.size =
          state.dynamic.dynstr.size + symbol.name.length + 1 ∧
        GnuHashTable.SameHeader state.dynamic.gnuHash next.dynamic.gnuHash ∧
        state.dynamic.gnuHash.landingSlot state.names
          (gnuHash symbol.name) = some slot ∧
        next.dynamic.gnuHash.chain =
          state.dynamic.gnuHash.chain.set slot
            (GnuHashTable.maskedHash (gnuHash symbol.name)) := by
  obtain ⟨dynamic, symbols⟩ := state
  have few := registered.fewSymbols
  have slots := registered.slots
  have sizeNum := registered.dynsymNum
  have sizeStr := registered.dynstrSize
  have count := registered.dynsymLength
  have named := Exported.length_names ⟨dynamic, symbols⟩
  obtain ⟨roomSymbols, roomString⟩ := room
  dsimp only at few slots sizeNum sizeStr count named roomSymbols roomString
  have chainRoom :
      (Exported.names ⟨dynamic, symbols⟩).length <
        dynamic.gnuHash.chain.length := by
    omega
  obtain ⟨slot, gnuHash, lands, hashed, built, header, chain⟩ :=
    registered.built.addGnuHashEntry registered.positive
      registered.powerOfTwo chainRoom symbol.name
  rw [named] at hashed
  dsimp only at hashed header chain
  refine
    ⟨{ dynamic :=
        { dynamic with
          dynstr :=
            { dynamic.dynstr with
              current :=
                { dynamic.dynstr.current with
                  entries :=
                    dynamic.dynstr.current.entries ++
                      symbol.name.bytes ++ [0] }
              size := dynamic.dynstr.size + symbol.name.length + 1 }
          dynsym :=
            { dynamic.dynsym with
              current :=
                { dynamic.dynsym.current with
                  entries :=
                    dynamic.dynsym.current.entries ++
                      [{ stName := dynamic.dynstr.size
                         stShndx := symbol.shndx
                         stValue := symbol.value }] }
              size := dynamic.dynsym.size + 1 }
          gnuHash := gnuHash
          gnuHashSize := dynamic.gnuHashSize + 4 }
       symbols := symbols ++ [symbol] },
      slot, ?_, ?_, rfl, rfl, header, lands, chain⟩
  · simp only [Exported.add, Dynamic.addExport]
    rw [Dynamic.addDynstrEntry_eq (by omega), Option.bind_some,
      Dynamic.addDynsymEntry_eq (by simpa [count] using by omega)
        (by simpa [sizeNum] using roomSymbols)]
    simp [Dynamic.addGnuHashEntry, sizeNum, hashed]
  · exact
      { built := by simpa [Exported.names] using built
        positive := by simpa [← header.nbuckets] using registered.positive
        powerOfTwo := by
          simpa [← header.bloomSize] using registered.powerOfTwo
        slots := by simpa [chain] using slots
        fewSymbols := by simpa using roomSymbols
        dynsymOpen := registered.dynsymOpen
        dynsymNum := by simp [sizeNum]
        dynsymLength := by simp [count]
        dynstrOpen := registered.dynstrOpen
        dynstrSize := by simp [sizeStr, CString.length, Nat.add_assoc]
        dynstrFits := roomString
        nullSymbol := by
          rw [List.getElem?_append_left (by omega)]
          exact registered.nullSymbol
        stored := by
          intro position other present
          dsimp only at present ⊢
          rcases Nat.lt_or_ge position symbols.length with earlier | isNew
          · rw [List.getElem?_append_left earlier] at present
            obtain ⟨strOffset, atIndex, stored⟩ :=
              registered.stored position other present
            refine ⟨strOffset, ?_, ?_⟩
            · rw [List.getElem?_append_left (by omega)]
              exact atIndex
            · rw [List.append_assoc]
              exact stored.append _
          · have isLast : position = symbols.length := by
              have inBounds := (List.getElem?_eq_some_iff.mp present).1
              simp only [List.length_append, List.length_singleton]
                at inBounds
              omega
            subst isLast
            simp only [List.getElem?_concat_length, Option.some.injEq]
              at present
            subst present
            refine ⟨dynamic.dynstr.size, by simp [← count], ?_⟩
            rw [sizeStr]
            exact storedAt_end _ _ }

/-- Lists of symbols that fit leave room for every export. -/
theorem Registered.guarded_room
    {exponent : Nat} {state : Exported} {symbols : List Export}
    (registered : Registered exponent state)
    (fewSymbols : state.symbols.length + symbols.length + 1 < defaultNum)
    (shortStrings :
      state.dynamic.dynstr.size +
        (symbols.map fun symbol => symbol.name.length + 1).sum ≤
          defaultNum) :
    GuardedRun.Guarded Exported.add Room state symbols := by
  induction symbols generalizing state with
  | nil => trivial
  | cons symbol rest inductionHypothesis =>
      simp only [List.length_cons] at fewSymbols
      simp only [List.map_cons, List.sum_cons] at shortStrings
      have room : Room state symbol := ⟨by omega, by omega⟩
      refine ⟨room, ?_⟩
      intro next stepped
      obtain ⟨added, _, adds, addedRegistered, grown, size, _⟩ :=
        registered.add room
      cases Option.mem_unique stepped adds
      refine inductionHypothesis addedRegistered ?_ ?_
      · rw [grown, List.length_append, List.length_singleton]
        omega
      · rw [size]
        omega

/--
Along every sequence of exports that fits the first chunks, every exported name
is found at its first symbol after each step exactly when no step stores its
hash in the chain slot of an earlier name's first symbol.
-/
theorem allFound_iff_keepsSlots
    (nbucket bloomSize bloomShift : U32) (exponent : Nat)
    (symbols : List Export)
    (positive : 0 < nbucket.toNat)
    (powerOfTwo : bloomSize.toNat = 2 ^ exponent)
    (fits : Fits symbols) :
    GuardedRun.Always Exported.add AllFound
        (Exported.init nbucket bloomSize bloomShift) symbols ↔
      GuardedRun.Guarded Exported.add KeepsSlots
        (Exported.init nbucket bloomSize bloomShift) symbols := by
  have initially :=
    registered_init 0 0 nbucket bloomSize bloomShift exponent positive
      powerOfTwo
  have roomy :=
    initially.guarded_room (by simpa [Exported.init] using fits.1)
      (by simpa [Exported.init, Dynamic.init] using fits.2)
  have afterStep :
      ∀ state symbol,
        Registered exponent state ∧ AllFound state → Room state symbol →
          ∃ next,
            state.add symbol = some next ∧ Registered exponent next ∧
              (AllFound next ↔ KeepsSlots state symbol) := by
    rintro state symbol ⟨registered, found⟩ room
    obtain ⟨next, slot, added, nextRegistered, grown, _, _, lands, chain⟩ :=
      registered.add room
    refine ⟨next, added, nextRegistered, ?_⟩
    have names : next.names = state.names ++ [symbol.name] := by
      simp [Exported.names, grown]
    have chainRoom :
        state.names.length < state.dynamic.gnuHash.chain.length := by
      have few := registered.fewSymbols
      have slots := registered.slots
      rw [state.length_names]
      omega
    rw [nextRegistered.allFound_iff, names, chain]
    exact
      registered.built.ownSlots_append_iff chainRoom lands
        (registered.allFound_iff.mp found)
  have holds :
      ∀ state, Registered exponent state ∧ AllFound state → AllFound state :=
    fun _ held => held.2
  refine
    GuardedRun.always_iff_guarded_within holds ?_ ?_
      ⟨initially, by simp [AllFound, Exported.names, Exported.init]⟩ roomy
  · intro state symbol held room keeps
    obtain ⟨next, added, registered, found⟩ := afterStep state symbol held room
    exact ⟨next, added, registered, found.mpr keeps⟩
  · intro state symbol held room breaks next stepped found
    obtain ⟨_, added, _, iff⟩ := afterStep state symbol held room
    cases Option.mem_unique stepped added
    exact breaks (iff.mp found)

/-- A symbol under a name, with section index and address zero. -/
def exportOf (name : String) : Export where
  name := .ofString name
  shndx := 0
  value := 0

/-- `aB` and `b!` share a hash, and both are found. -/
theorem allFound_aB_bBang :
    GuardedRun.Always Exported.add AllFound (Exported.init 1 2 5)
      [exportOf "aB", exportOf "b!"] :=
  (allFound_iff_keepsSlots 1 2 5 1 [exportOf "aB", exportOf "b!"]
    (by decide) (by decide) (by decide +kernel)).mpr (by decide +kernel)

/--
The hash of `glidpk` is zero: the next name takes its slot, and looking it up
finds the symbol that was added under it later.
-/
theorem not_allFound_glidpk_a_glidpk :
    ¬ GuardedRun.Always Exported.add AllFound (Exported.init 1 2 5)
      [exportOf "glidpk", exportOf "a", exportOf "glidpk"] := by
  intro always
  obtain ⟨last, reached, found⟩ := always.last
  have lost :
      ∀ last ∈
          GuardedRun.run Exported.add (Exported.init 1 2 5)
            [exportOf "glidpk", exportOf "a", exportOf "glidpk"],
        ¬ AllFound last := by
    decide +kernel
  exact lost last reached found

end BinTools.Elf
