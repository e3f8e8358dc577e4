import BinTools.ElfAbsolute
import BinTools.ElfGrowingTables
import BinTools.GuardedRun

namespace BinTools.Elf

/-!
# Constructor arrays

The entries of `.rela.init_array` are resolved like any others.  Only where a name
is found among the exports does an address go to the output's own array; otherwise
a record is added whose place is computed from the input section, which has no
address.
-/

/-- An entry and the object it is read from. -/
abbrev Item : Type :=
  ObjectChain × RelocCall

/-- The relocation pass, with the entries of `.rela.init_array` it has done. -/
structure Constructing where
  relocating : Relocating
  done : List Item := []
  emitted : List RelaEntry := []

namespace Constructing

/-- The slots of the output's array. -/
def initArray (state : Constructing) : Table Nat :=
  state.relocating.dynamic.initArray

/-- Resolve an entry, and keep the records that it adds for an array. -/
def resolve (link : Link) (state : Constructing) (item : Item) :
    Option Constructing :=
  (relocate link state.relocating item).map fun next =>
    if item.2.sec = .initArray then
      { relocating := next
        done := state.done ++ [item]
        emitted :=
          state.emitted ++
            next.dynamic.relaPlt.entries.drop
              state.relocating.dynamic.relaPlt.entries.length }
    else
      { state with relocating := next }

end Constructing

/-- The symbol is defined by its own object, and not as a weak one. -/
def OwnDefinition (sym : Sym) : Prop :=
  sym.stBind ≠ stbWeak ∧
    sym.stShndx ≠ shnUndef ∧ sym.stShndx ≠ shnAbs ∧ sym.stShndx ≠ shnCommon

instance (sym : Sym) : Decidable (OwnDefinition sym) :=
  inferInstanceAs (Decidable (_ ∧ _))

/-- The definitions of a name with a binding, in command-line order. -/
def definitionsWith (link : Link) (name : CString) (stBind : Nat) :
    List (ObjectChain × SymbolChain) :=
  link.objects.flatMap fun oc =>
    (oc.symbolChain.filter fun cell =>
      cell.name = name ∧ cell.sym.stBind = stBind).map fun cell => (oc, cell)

/--
The address of the definition that a name in an object refers to: the object's
own, or the first global one of any object, or else the first weak one.
-/
def definitionAddress (link : Link) (oc : ObjectChain) (sym : Sym) :
    Option Nat :=
  if OwnDefinition sym then
    ownAddress link oc sym
  else
    (definitionsWith link sym.name stbGlobal ++
        definitionsWith link sym.name stbWeak).head?.bind fun definition =>
      ownAddress link definition.1 definition.2.sym

/-- The address that a symbol of an object stands for. -/
def symbolAddress (link : Link) (oc : ObjectChain) (sym : Sym) : Option Nat :=
  if sym.stType = sttSection then
    (link.headers[oc.sectionHead + sym.stShndx]?).map Shdr.shAddr
  else if IsNamed sym then
    definitionAddress link oc sym
  else
    none

/-- A slot has the address of the function that an entry names. -/
def NamesFunction (link : Link) (item : Item) (slot : Nat) : Prop :=
  ∃ sym ∈ symbolOf link item.1 item.2.rela,
    ∃ symbol ∈ symbolAddress link item.1 sym,
      (slot : Int) % 2 ^ 64 = (symbol + item.2.rela.rAddend) % 2 ^ 64

/-- An address is inside of a section that was placed. -/
def InPlaced (link : Link) (address : Nat) : Prop :=
  ∃ sc ∈ link.containers,
    ∃ schain ∈ sc.chain,
      ∃ shdr ∈ link.headers[schain.p]?,
        shdr.shAddr ≤ address ∧ address < shdr.shAddr + shdr.shSize

/--
There is one slot for every entry so far, in order, with the function's address,
the section that is emitted has these slots and nothing else, and the records
added for the entries have their places in sections that were placed.
-/
structure ArrayRight (link : Link) (state : Constructing) : Prop where
  slots :
    List.Forall₂ (NamesFunction link) state.done state.initArray.entries
  emitted :
    ∀ outside,
      EmittedRight encodeAddress (arrayNum * 8) outside
        state.initArray.entries state.initArray state.initArray.size
  placed :
    ∀ record ∈ state.emitted,
      InPlaced link ((record.rOffset + link.baseAddress) % 2 ^ 64)

/--
An entry names its function by a symbol, the tables have the function's address
for that name, and the array stays below its first chunk.
-/
structure ConstructorFits
    (link : Link) (state : Constructing) (item : Item) : Prop where
  few : state.initArray.entries.length + 1 < arrayNum
  isSection : (link.headers[item.2.subShdr]?).isSome
  named :
    ∃ sym ∈ symbolOf link item.1 item.2.rela,
      IsNamed sym ∧
        ∃ value,
          HasValue state.relocating.dynamic sym.name value ∧
            NamesFunction link item value

/-- An entry of an array fits, and any other comes to an end. -/
def EntryFits (link : Link) (state : Constructing) (item : Item) : Prop :=
  if item.2.sec = .initArray then
    ConstructorFits link state item
  else
    (relocate link state.relocating item).isSome

/-- The pass over the relocations of all objects. -/
def LinkExports.constructing (exported : LinkExports) : Constructing where
  relocating := exported.relocating

/-- The pass comes to an end, with the array right at every moment. -/
def Constructs (exported : LinkExports) : Prop :=
  ∃ items ∈ relocations exported.link,
    GuardedRun.Always (Constructing.resolve exported.link)
      (ArrayRight exported.link) exported.constructing items

/-- Every step of the pass is made with an entry that fits. -/
def ConstructorsFit (exported : LinkExports) : Prop :=
  ∃ items ∈ relocations exported.link,
    GuardedRun.Guarded (Constructing.resolve exported.link)
      (EntryFits exported.link) exported.constructing items

/-! ## Which entries reach the array -/

/-- An import leaves the array alone. -/
theorem Dynamic.addDynamicEntry2_initArray
    {d next : Dynamic} {offset : Nat} {name : CString}
    (adds : d.addDynamicEntry2 offset name = some next) :
    next.initArray = d.initArray := by
  obtain ⟨_, adds⟩ := Option.ite_none_right_eq_some.mp adds
  obtain ⟨⟨first, strOffset⟩, addsString, adds⟩ :=
    Option.bind_eq_some_iff.mp adds
  obtain ⟨second, addsSymbol, addsRecord⟩ := Option.bind_eq_some_iff.mp adds
  rw [addRelaPltEntry_spec addsRecord, (addDynsymEntry_spec addsSymbol).1,
    (addDynstrEntry_spec addsString).1]

theorem Dynamic.addDynamicEntry_initArray
    {d next : Dynamic} {name : CString} {relType address : Nat} {check : Bool}
    (adds : d.addDynamicEntry name relType check = some (next, address)) :
    next.initArray = d.initArray := by
  rcases addDynamicEntry_eq_some adds with ⟨_, _, rfl, _⟩ | ⟨_, adds⟩
  · rfl
  · obtain ⟨⟨first, plt⟩, addsPlt, adds⟩ := Option.bind_eq_some_iff.mp adds
    obtain ⟨⟨second, strOffset⟩, addsString, adds⟩ :=
      Option.bind_eq_some_iff.mp adds
    obtain ⟨third, addsSymbol, adds⟩ := Option.bind_eq_some_iff.mp adds
    obtain ⟨fourth, addsRecord, isNext⟩ := Option.map_eq_some_iff.mp adds
    cases isNext
    have isFirst : first.initArray = d.initArray := by
      unfold addPltgotEntry at addsPlt
      split at addsPlt
      · cases addsPlt
        rfl
      · cases addsPlt
    dsimp only
    rw [addRelaPltEntry_spec addsRecord, (addDynsymEntry_spec addsSymbol).1,
      (addDynstrEntry_spec addsString).1]
    exact isFirst

/-- The branches behind the arrays leave the output's array alone. -/
theorem applyTarget_initArray
    {state : Relocating} {p offset srcAddr placeAddr relType : Nat}
    {name : CString} {target : Target} {result : Relocating × Resolution}
    (applies :
      applyTarget state p offset srcAddr placeAddr name relType target =
        some result) :
    result.1.dynamic.initArray = state.dynamic.initArray := by
  unfold applyTarget at applies
  dsimp only at applies
  split_ifs at applies
  · cases target with
    | dynamicFunc =>
        obtain ⟨d, adds, rfl⟩ := Option.map_eq_some_iff.mp applies
        exact Dynamic.addDynamicEntry2_initArray adds
    | internalFunc address =>
        obtain ⟨d, adds, rfl⟩ := Option.map_eq_some_iff.mp applies
        dsimp only
        rw [Dynamic.addRelaPltEntry_spec adds]
    | internalSection address =>
        obtain ⟨d, adds, rfl⟩ := Option.map_eq_some_iff.mp applies
        dsimp only
        rw [Dynamic.addRelaPltEntry_spec adds]
  · cases target with
    | dynamicFunc =>
        obtain ⟨⟨d, address⟩, adds, fills⟩ :=
          Option.bind_eq_some_iff.mp applies
        obtain ⟨data, _, rfl⟩ := Option.map_eq_some_iff.mp fills
        exact Dynamic.addDynamicEntry_initArray adds
    | internalFunc address =>
        obtain ⟨data, _, rfl⟩ := Option.map_eq_some_iff.mp applies
        rfl
    | internalSection address =>
        obtain ⟨data, _, rfl⟩ := Option.map_eq_some_iff.mp applies
        rfl
  · split at applies
    · cases applies
    · obtain ⟨⟨d, address⟩, adds, fills⟩ :=
        Option.bind_eq_some_iff.mp applies
      obtain ⟨data, _, rfl⟩ := Option.map_eq_some_iff.mp fills
      exact Dynamic.addDynamicEntry_initArray adds

/-- The array takes the value that was found for a name, or stays as it is. -/
theorem resolveNew_initArray
    {link : Link} {oc : ObjectChain} {state : Relocating} {call : RelocCall}
    {result : Relocating × Resolution}
    (resolves : resolveNew link oc state call = some result) :
    result.1.dynamic.initArray = state.dynamic.initArray ∨
      call.sec = .initArray ∧
        ∃ sym value d,
          symbolOf link oc call.rela = some sym ∧
            targetOf link oc state.dynamic sym =
              some (some (.internalFunc value)) ∧
            state.dynamic.addInitArray value = some d ∧
            result.1 = { state with dynamic := d } := by
  obtain ⟨subShdr, _, resolves⟩ := Option.bind_eq_some_iff.mp resolves
  obtain ⟨sym, isSym, resolves⟩ := Option.bind_eq_some_iff.mp resolves
  obtain ⟨target, isTarget, resolves⟩ := Option.bind_eq_some_iff.mp resolves
  split at resolves
  · cases resolves
    exact Or.inl rfl
  · rename_i value
    split_ifs at resolves with inInit inFini
    · obtain ⟨d, adds, rfl⟩ := Option.map_eq_some_iff.mp resolves
      exact Or.inr ⟨inInit, sym, value, d, isSym, isTarget, adds, rfl⟩
    · obtain ⟨d, adds, rfl⟩ := Option.map_eq_some_iff.mp resolves
      obtain ⟨_, _, rfl⟩ := Option.map_eq_some_iff.mp adds
      exact Or.inl rfl
    · exact Or.inl (applyTarget_initArray (logged_of_applied resolves).2)
  · exact Or.inl (applyTarget_initArray (logged_of_applied resolves).2)

/-- An entry whose name is found adds its value and no record. -/
theorem resolveNew_of_hasValue
    {link : Link} {oc : ObjectChain} {state : Relocating} {call : RelocCall}
    {sym : Sym} {value : Nat} {d : Dynamic}
    (isSection : (link.headers[call.subShdr]?).isSome)
    (isSym : symbolOf link oc call.rela = some sym) (isNamed : IsNamed sym)
    (hasValue : HasValue state.dynamic sym.name value)
    (inInit : call.sec = .initArray)
    (adds : state.dynamic.addInitArray value = some d) :
    relocate link state (oc, call) = some { state with dynamic := d } := by
  obtain ⟨subShdr, isSubShdr⟩ := Option.isSome_iff_exists.mp isSection
  have isTarget :=
    (targetOf_eq_internalFunc_iff link oc isNamed).mpr hasValue
  rw [relocate, resolveNew, isSubShdr, Option.bind_some, isSym,
    Option.bind_some, isTarget, Option.bind_some]
  dsimp only
  rw [if_pos inInit, adds]
  rfl

/-! ## The slots -/

/-- The slots of the array in its chunks. -/
theorem AddressesCounted.entries_eq
    {d : Dynamic} {addrs : List Nat} (counted : AddressesCounted d addrs) :
    d.initArray.entries = addrs := by
  cases counted.filling with
  | first closed current room =>
      rw [Table.entries_of_closed closed, current]
  | second closed current filled room =>
      simp [Table.entries, closed, current]

/-- The array is right, and its bytes are counted. -/
structure Kept (link : Link) (state : Constructing) : Prop where
  right : ArrayRight link state
  counted :
    AddressesCounted state.relocating.dynamic state.initArray.entries

/-- What is emitted is right as long as the first chunk is not full. -/
theorem emittedRight_iff_of_counted
    (outside : ByteBuffer.Bytes) {state : Constructing}
    (counted :
      AddressesCounted state.relocating.dynamic state.initArray.entries) :
    EmittedRight encodeAddress (arrayNum * 8) outside state.initArray.entries
        state.initArray state.initArray.size ↔
      state.initArray.entries.length < arrayNum :=
  counted.emittedRight_iff (fun _ => ByteBuffer.length_littleEndian 8 _)
    (by decide) (by decide)

/-- An entry of an array, and any other. -/
theorem Constructing.resolve_of_initArray
    {link : Link} {state : Constructing} {item : Item} {next : Relocating}
    (isNext : relocate link state.relocating item = some next)
    (inInit : item.2.sec = .initArray) :
    state.resolve link item =
      some
        { relocating := next
          done := state.done ++ [item]
          emitted :=
            state.emitted ++
              next.dynamic.relaPlt.entries.drop
                state.relocating.dynamic.relaPlt.entries.length } := by
  rw [resolve, isNext, Option.map_some, if_pos inInit]

theorem Constructing.resolve_of_other
    {link : Link} {state : Constructing} {item : Item} {next : Relocating}
    (isNext : relocate link state.relocating item = some next)
    (notInit : item.2.sec ≠ .initArray) :
    state.resolve link item = some { state with relocating := next } := by
  rw [resolve, isNext, Option.map_some, if_neg notInit]

theorem forall₂_concat_iff {α β : Type} {R : α → β → Prop}
    {xs : List α} {ys : List β} {x : α} {y : β} :
    List.Forall₂ R (xs ++ [x]) (ys ++ [y]) ↔ List.Forall₂ R xs ys ∧ R x y := by
  rw [← List.forall₂_reverse_iff, List.reverse_append, List.reverse_append,
    List.reverse_singleton, List.reverse_singleton, List.singleton_append,
    List.singleton_append, List.forall₂_cons, List.forall₂_reverse_iff]
  exact and_comm

/-- An entry that fits keeps the array right. -/
theorem Kept.resolve
    {link : Link} {state : Constructing} {item : Item}
    (kept : Kept link state) (fits : EntryFits link state item) :
    ∃ next ∈ state.resolve link item, Kept link next := by
  unfold EntryFits at fits
  by_cases inInit : item.2.sec = .initArray
  · rw [if_pos inInit] at fits
    obtain ⟨few, isSection, sym, isSym, isNamed, value, hasValue, names⟩ := fits
    obtain ⟨d, adds⟩ :
        ∃ d, state.relocating.dynamic.addInitArray value = some d := by
      obtain ⟨initArray, appends⟩ :=
        kept.counted.exists_append (Nat.lt_of_succ_lt few) value
      exact ⟨_, by rw [Dynamic.addInitArray_eq, appends]; rfl⟩
    have isNext :=
      resolveNew_of_hasValue isSection isSym isNamed hasValue inInit adds
    have noRecord : d.relaPlt = state.relocating.dynamic.relaPlt := by
      obtain ⟨_, _, rfl⟩ := Option.map_eq_some_iff.mp adds
      rfl
    have counted := counted_addInitArray kept.counted adds
    have isEntries := counted.entries_eq
    have isCounted : AddressesCounted d d.initArray.entries := by
      rwa [isEntries]
    have room : d.initArray.entries.length < arrayNum := by
      rw [isEntries, List.length_append, List.length_singleton]
      exact few
    refine ⟨_, Constructing.resolve_of_initArray isNext inInit, ?_⟩
    exact
      { right :=
          { slots := by
              dsimp only [Constructing.initArray]
              rw [isEntries]
              exact forall₂_concat_iff.mpr ⟨kept.right.slots, names⟩
            emitted := fun outside =>
              (emittedRight_iff_of_counted outside isCounted).mpr room
            placed := by
              dsimp only
              rw [noRecord, List.drop_length, List.append_nil]
              exact kept.right.placed }
        counted := isCounted }
  · rw [if_neg inInit] at fits
    obtain ⟨next, isNext⟩ := Option.isSome_iff_exists.mp fits
    obtain ⟨result, resolves, rfl⟩ := Option.map_eq_some_iff.mp isNext
    have isSame :
        result.1.dynamic.initArray = state.relocating.dynamic.initArray := by
      rcases resolveNew_initArray resolves with isSame | ⟨isInit, _⟩
      · exact isSame
      · exact absurd isInit inInit
    refine ⟨_, Constructing.resolve_of_other isNext inInit, ?_⟩
    obtain ⟨⟨slots, emitted, placed⟩, counted⟩ := kept
    unfold Constructing.initArray at slots emitted counted
    unfold AddressesCounted at counted
    rw [← isSame] at slots emitted counted
    exact ⟨⟨slots, emitted, placed⟩, counted⟩

/-- An entry that does not fit breaks the array or does not come to an end. -/
theorem Kept.not_arrayRight
    {link : Link} {state next : Constructing} {item : Item}
    (kept : Kept link state) (unfit : ¬ EntryFits link state item)
    (isNext : next ∈ state.resolve link item) :
    ¬ ArrayRight link next := by
  intro right
  obtain ⟨later, isLater, rfl⟩ := Option.map_eq_some_iff.mp isNext
  by_cases inInit : item.2.sec = .initArray
  · rw [EntryFits, if_pos inInit] at unfit
    rw [if_pos inInit] at right
    obtain ⟨result, resolves, rfl⟩ := Option.map_eq_some_iff.mp isLater
    have slots := right.slots
    dsimp only [Constructing.initArray] at slots
    rcases resolveNew_initArray resolves with
      isSame | ⟨_, sym, value, d, isSym, isTarget, adds, isResult⟩
    · have lengths := slots.length_eq
      have lengthsBefore := kept.right.slots.length_eq
      rw [isSame, List.length_append, List.length_singleton] at lengths
      unfold Constructing.initArray at lengthsBefore
      omega
    · have counted := counted_addInitArray kept.counted adds
      have isEntries := counted.entries_eq
      rw [isResult] at right slots
      dsimp only at slots
      rw [isEntries] at slots
      have isCounted : AddressesCounted d d.initArray.entries := by
        rwa [isEntries]
      have few : d.initArray.entries.length < arrayNum :=
        (isCounted.emittedRight_iff
          (fun _ => ByteBuffer.length_littleEndian 8 _) (by decide)
          (by decide)).mp (right.emitted fun _ => 0)
      rw [isEntries, List.length_append, List.length_singleton] at few
      have isNamed :=
        isNamed_of_target isTarget fun _ isSection => by cases isSection
      have isSection : (link.headers[item.2.subShdr]?).isSome := by
        obtain ⟨subShdr, isSubShdr, _⟩ := Option.bind_eq_some_iff.mp resolves
        rw [isSubShdr]
        rfl
      exact
        unfit
          { few := few
            isSection := isSection
            named :=
              ⟨sym, isSym, isNamed, value,
                (targetOf_eq_internalFunc_iff link item.1 isNamed).mp isTarget,
                (forall₂_concat_iff.mp slots).2⟩ }
  · rw [EntryFits, if_neg inInit] at unfit
    exact unfit (by rw [isLater]; rfl)

/-! ## The whole pass -/

/-- Exporting leaves the array empty. -/
theorem Dynamic.addExport_initArray
    {d next : Dynamic} {name : CString} {shndx value : Nat}
    (adds : d.addExport name shndx value = some next) :
    next.initArray = d.initArray := by
  obtain ⟨⟨first, strOffset⟩, addsString, adds⟩ :=
    Option.bind_eq_some_iff.mp adds
  obtain ⟨second, addsSymbol, addsHash⟩ := Option.bind_eq_some_iff.mp adds
  obtain ⟨gnuHash, _, rfl⟩ := Option.map_eq_some_iff.mp addsHash
  dsimp only
  rw [(addDynsymEntry_spec addsSymbol).1, (addDynstrEntry_spec addsString).1]

theorem addExports_initArray
    {link : Link} {dynlib : List CString} {d : Dynamic}
    (adds : addExports link dynlib = some d) : d.initArray = {} := by
  obtain ⟨named, addsNamed, adds⟩ := Option.bind_eq_some_iff.mp adds
  have isEmpty : named.initArray = {} := by
    refine
      GuardedRun.invariant_of_foldlM
        (fun d _ => Dynamic.initArray d = {}) ?_ rfl addsNamed
    intro d _ name next isEmpty isNext
    obtain ⟨⟨first, strOffset⟩, addsString, rfl⟩ :=
      Option.map_eq_some_iff.mp isNext
    dsimp only
    rw [(Dynamic.addDynstrEntry_spec addsString).1]
    exact isEmpty
  refine
    GuardedRun.invariant_of_foldlM
      (fun d _ => Dynamic.initArray d = {}) ?_ isEmpty adds
  intro d _ oc next isEmpty isNext
  refine
    GuardedRun.invariant_of_foldlM
      (fun d _ => Dynamic.initArray d = {}) ?_ isEmpty isNext
  intro d _ sym next isEmpty isNext
  obtain ⟨entry, _, addsEntry⟩ := Option.bind_eq_some_iff.mp isNext
  obtain ⟨_, addsEntry⟩ := Option.ite_none_right_eq_some.mp addsEntry
  rw [Dynamic.addExport_initArray addsEntry]
  exact isEmpty

/-- The array is right before the first entry. -/
theorem kept_constructing
    {interp : Option CString} {files : List ElfFile} {dynlib : List CString}
    {exported : LinkExports}
    (links : linkExports interp files dynlib = some exported) :
    Kept exported.link exported.constructing := by
  obtain ⟨read, _, links⟩ := Option.bind_eq_some_iff.mp links
  obtain ⟨defs, _, links⟩ := Option.bind_eq_some_iff.mp links
  obtain ⟨d, adds, rfl⟩ := Option.map_eq_some_iff.mp links
  have isEmpty := addExports_initArray adds
  have counted : AddressesCounted d d.initArray.entries := by
    rw [AddressesCounted, isEmpty]
    exact .empty (by decide)
  refine ⟨⟨?_, ?_, ?_⟩, counted⟩
  · have noSlots : d.initArray.entries = [] := by
      rw [isEmpty]
      rfl
    unfold Constructing.initArray LinkExports.constructing
      LinkExports.relocating
    dsimp only
    rw [noSlots]
    exact .nil
  · intro outside
    refine (emittedRight_iff_of_counted outside counted).mpr ?_
    unfold Constructing.initArray LinkExports.constructing
      LinkExports.relocating
    dsimp only
    rw [isEmpty]
    decide
  · intro record isRecord
    cases isRecord

/-- `SHT_INIT_ARRAY` -/
def shtInitArray : Nat := 14

/-- An object with one constructor, which its array names by a symbol. -/
def constructorObject (sym : Sym) (addend : Int) : ElfFile :=
  .ofHeaders
    [sectionHeader ".text" shtProgbits 16,
      sectionHeader ".init_array" shtInitArray 8,
      { sectionHeader ".symtab" shtSymtab 48 with
        symAt := fun
          | 0 => default
          | _ => sym },
      { sectionHeader ".rela.init_array" shtRela 24 with
        shInfo := 2
        relaAt := fun _ =>
          { rOffset := 0, symIndex := 1, relType := r64, rAddend := addend } }]

/-- The symbol of `.text`. -/
def textSymbol : Sym where
  stBind := stbLocal
  stType := sttSection
  stShndx := 1

end BinTools.Elf
