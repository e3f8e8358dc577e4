import BinTools.CoffImportData
import BinTools.CoffImportSize

namespace BinTools.Coff

open ByteBuffer

/-!
# Stub addresses of imported functions

Addresses are handed out in the order in which functions are first referenced,
stubs are emitted DLL by DLL.  The two orders coincide exactly when the
functions of each DLL are first referenced one after the other.
-/

/-- The entry that `lookup_dynamic_symbol` finds: DLL and stub address. -/
def Config.entryOf (config : Config) (name : CString) :
    Option (CString × U32) :=
  (config.dllHashTable[config.bucketOf name]?).bind fun chain =>
    (chain.find? fun entry => entry.name = name).map fun entry =>
      (entry.dll, entry.ever)

/-- The DLL a function is imported from. -/
def Config.dllOf (config : Config) (name : CString) : Option CString :=
  (config.entryOf name).map Prod.fst

/-- The relocation refers to an imported function. -/
structure Imported (config : Config) (arg : CallbackArgIn) : Prop where
  external : arg.storageClass = 2
  notExported : config.exported arg.name = 0
  known : config.dllOf arg.name ≠ none

/-- The state in which relocation starts: nothing is imported yet. -/
structure Fresh (config : Config) : Prop where
  mapped : config.virtualAddressOffset ≠ 0
  pltOffset : config.pltOffset = config.virtualAddressOffset
  importDirectoryLen : config.importDirectoryLen = 0
  initialImport : config.initialImport = []
  resolved : config.resolved = []
  ever : ∀ chain ∈ config.dllHashTable, ∀ entry ∈ chain, entry.ever = 0

/-- Nothing is counted before the first relocation. -/
theorem Fresh.sized {config : Config} (fresh : Fresh config) :
    Sized config :=
  sized_start fresh.initialImport fresh.importDirectoryLen

/-- Note a function with its DLL when it is referenced for the first time. -/
def noteReference
    (config : Config) (seen : List (CString × CString))
    (arg : CallbackArgIn) : List (CString × CString) :=
  if arg.name ∈ seen.map Prod.snd then
    seen
  else
    seen ++ [((config.dllOf arg.name).getD CString.empty, arg.name)]

/-- The imported functions with their DLLs in the order of first reference. -/
def firstReferences (config : Config) (args : List CallbackArgIn) :
    List (CString × CString) :=
  args.foldl (noteReference config) []

/-- The thunk array of descriptor `d` contains the slot, for this DLL. -/
def DescriptorCovers
    (image : ImportSections) (d slot : Nat) (dll : CString) : Prop :=
  let first :=
    (BitVec.ofNat 32 (loadWord 4 image.data (20 * d + 16)) -
      image.importVaddr).toNat
  let string :=
    (BitVec.ofNat 32 (loadWord 4 image.data (20 * d + 12)) -
      image.importVaddr).toNat
  first ≤ slot ∧ (slot - first) % 8 = 0 ∧
    (∀ n ≤ (slot - first) / 8, loadWord 8 image.data (first + 8 * n) ≠ 0) ∧
      StringAt image.data string dll

instance (image : ImportSections) (d slot : Nat) (dll : CString) :
    Decidable (DescriptorCovers image d slot dll) :=
  inferInstanceAs (Decidable (_ ∧ _ ∧ (∀ n ≤ _, _) ∧ _))

/--
The stub at the address jumps through an import address table slot whose hint
and name entry spells the function, under the descriptor of its DLL.
-/
def StubReaches
    (image : ImportSections) (address : U32) (dll name : CString) : Prop :=
  let stub := (address - image.pltVaddr).toNat
  let slot :=
    (address + 6 + BitVec.ofNat 32 (loadWord 4 image.plt (stub + 2)) -
      image.importVaddr).toNat
  let thunk := loadWord 8 image.data slot
  loadWord 2 image.plt stub = 0x25ff ∧
    image.importVaddr.toNat ≤ thunk ∧
      StringAt image.data (thunk - image.importVaddr.toNat + 2) name ∧
        ∃ d < image.descriptors, DescriptorCovers image d slot dll

instance
    (image : ImportSections) (address : U32) (dll name : CString) :
    Decidable (StubReaches image address dll name) :=
  inferInstanceAs (Decidable (_ ∧ _ ∧ _ ∧ ∃ d < _, _))

/--
All relocations are resolved, and the stub at each address handed out reaches
the function it was handed out for.
-/
def StubsReach
    (config : Config) (args : List CallbackArgIn) (plt data : Bytes) : Prop :=
  ∃ final ∈ resolveAll config args,
    final.resolved.map Prod.fst = args ∧
      ∀ image ∈ addImport final plt data,
        ∀ reference ∈ final.resolved,
          ∀ dll ∈ config.dllOf reference.1.name,
            StubReaches image reference.2 dll reference.1.name

instance
    (config : Config) (args : List CallbackArgIn) (plt data : Bytes) :
    Decidable (StubsReach config args plt data) :=
  inferInstanceAs
    (Decidable
      (∃ final ∈ resolveAll config args,
        final.resolved.map Prod.fst = args ∧
          ∀ image ∈ addImport final plt data,
            ∀ reference ∈ final.resolved,
              ∀ dll ∈ config.dllOf reference.1.name,
                StubReaches image reference.2 dll reference.1.name))

/-- The chain walk answers with the first entry and only changes that one. -/
theorem touch_spec
    (pltOffset : U32) {name : CString} {chain : List DllSymbol}
    {entry : DllSymbol}
    (found : chain.find? (fun entry => entry.name = name) = some entry) :
    ∃ later,
      touch pltOffset name chain = some (later, entry.dll, entry.ever) ∧
        later.find? (fun entry => entry.name = name) =
            some
              { entry with
                ever := if entry.ever = 0 then pltOffset else entry.ever } ∧
          ∀ other, other ≠ name →
            later.find? (fun entry => entry.name = other) =
              chain.find? (fun entry => entry.name = other) := by
  induction chain with
  | nil => simp at found
  | cons head rest inductionHypothesis =>
      by_cases same : head.name = name
      · have isHead : head = entry := by simpa [same] using found
        subst isHead
        by_cases unset : head.ever = 0
        · refine
            ⟨{ head with ever := pltOffset } :: rest, ?_, ?_, ?_⟩
          · simp [touch, same, unset]
          · simp [same, unset]
          · intro other different
            have notOther : ¬ head.name = other :=
              fun isOther => different (isOther.symm.trans same)
            simp [notOther]
        · refine ⟨head :: rest, ?_, ?_, fun _ _ => rfl⟩
          · rw [touch, if_pos same, if_neg unset]
          · rw [if_neg unset, List.find?_cons_of_pos (by simpa using same)]
      · have restFound :
            rest.find? (fun entry => entry.name = name) = some entry := by
          simpa [same] using found
        obtain ⟨later, touched, laterFound, others⟩ :=
          inductionHypothesis restFound
        refine ⟨head :: later, ?_, ?_, ?_⟩
        · simp [touch, same, touched]
        · simpa [same] using laterFound
        · intro other different
          by_cases isOther : head.name = other
          · simp [isOther]
          · simpa [isOther] using others other different

/-- `lookup_dynamic_symbol` answers with the entry and only changes that one. -/
theorem lookupDynamicSymbol_spec
    {config : Config} {name dll : CString} {ever : U32}
    (known : config.entryOf name = some (dll, ever)) :
    ∃ table,
      lookupDynamicSymbol config name =
          some ({ config with dllHashTable := table }, dll, ever) ∧
        Config.entryOf { config with dllHashTable := table } name =
            some (dll, if ever = 0 then config.pltOffset else ever) ∧
          ∀ other, other ≠ name →
            Config.entryOf { config with dllHashTable := table } other =
              config.entryOf other := by
  simp only [Config.entryOf, Option.bind_eq_some_iff,
    Option.map_eq_some_iff] at known
  obtain ⟨chain, present, entry, found, pair⟩ := known
  cases pair
  obtain ⟨later, touched, laterFound, others⟩ :=
    touch_spec config.pltOffset found
  have inRange := (List.getElem?_eq_some_iff.mp present).1
  have sameBuckets :
      ∀ other,
        Config.bucketOf
            { config with
              dllHashTable :=
                config.dllHashTable.set (config.bucketOf name) later }
            other =
          config.bucketOf other := by
    simp [Config.bucketOf]
  refine
    ⟨config.dllHashTable.set (config.bucketOf name) later, ?_, ?_, ?_⟩
  · simp [lookupDynamicSymbol, present, touched]
  · rw [Config.entryOf, sameBuckets, List.getElem?_set_self inRange]
    simp [laterFound]
  · intro other different
    rw [Config.entryOf, sameBuckets, Config.entryOf]
    by_cases sameBucket : config.bucketOf other = config.bucketOf name
    · rw [sameBucket, present, List.getElem?_set_self inRange]
      simp [others other different]
    · rw [List.getElem?_set_ne (fun same => sameBucket same.symm)]

/--
What holds after resolving relocations: stub addresses were given to the first
references in order, and these are filed under their DLLs.
-/
structure Resolved
    (start : Config) (args : List CallbackArgIn)
    (refs : List (CString × CString)) (config : Config) : Prop where
  exported : config.exported = start.exported
  virtualAddressOffset :
    config.virtualAddressOffset = start.virtualAddressOffset
  pltOffset :
    config.pltOffset =
      start.virtualAddressOffset + BitVec.ofNat 32 (6 * refs.length)
  initialImport : config.initialImport = Grouping.ofEntries refs
  known :
    ∀ reference ∈ refs, start.dllOf reference.2 = some reference.1
  distinct : (refs.map Prod.snd).Nodup
  unseen :
    ∀ name, name ∉ refs.map Prod.snd →
      config.entryOf name = (start.dllOf name).map fun dll => (dll, 0)
  seen :
    ∀ i dll name, refs[i]? = some (dll, name) →
      config.entryOf name =
        some (dll, start.virtualAddressOffset + BitVec.ofNat 32 (6 * i))
  order : config.resolved.map Prod.fst = args
  given :
    ∀ reference ∈ config.resolved,
      ∃ i dll,
        refs[i]? = some (dll, reference.1.name) ∧
          reference.2 =
            start.virtualAddressOffset + BitVec.ofNat 32 (6 * i)
  reached :
    ∀ i dll name, refs[i]? = some (dll, name) →
      ∃ reference ∈ config.resolved,
        reference.1.name = name ∧
          reference.2 =
            start.virtualAddressOffset + BitVec.ofNat 32 (6 * i)

/-- Before the first relocation nothing is handed out. -/
theorem Fresh.resolved_nil {config : Config} (fresh : Fresh config) :
    Resolved config [] [] config where
  exported := rfl
  virtualAddressOffset := rfl
  pltOffset := by simp [fresh.pltOffset]
  initialImport := fresh.initialImport
  known := by simp
  distinct := by simp
  unseen := by
    intro name _
    rw [Config.dllOf, Option.map_map]
    cases entry : config.entryOf name with
    | none => rfl
    | some found =>
        simp only [Config.entryOf, Option.bind_eq_some_iff,
          Option.map_eq_some_iff] at entry
        obtain ⟨chain, present, symbol, inChain, rfl⟩ := entry
        simp [fresh.ever chain (List.mem_of_getElem? present) symbol
          (List.mem_of_find?_eq_some inChain)]
  seen := by simp
  order := by simp [fresh.resolved]
  given := by simp [fresh.resolved]
  reached := by simp

/-- Stub addresses inside of the image are different from zero. -/
theorem stubAddress_ne_zero
    {start : Config} {i count : Nat}
    (mapped : start.virtualAddressOffset ≠ 0)
    (fits : start.virtualAddressOffset.toNat + 6 * count ≤ 2 ^ 32)
    (inRange : i < count) :
    start.virtualAddressOffset + BitVec.ofNat 32 (6 * i) ≠ 0 := by
  bv_omega

/-- A reference to a function that has a stub already. -/
theorem coffResolve_of_ever
    {config looked : Config} {arg : CallbackArgIn} {dll : CString} {ever : U32}
    (external : arg.storageClass = 2)
    (notExported : config.exported arg.name = 0)
    (found : lookupDynamicSymbol config arg.name = some (looked, dll, ever))
    (given : ever ≠ 0) :
    coffResolve config arg = some (looked.fill arg ever) := by
  simp [coffResolve, external, notExported, found]
  intro zero
  exact absurd zero given

/-- A reference to a function that has no stub yet. -/
theorem coffResolve_of_new
    {config looked : Config} {arg : CallbackArgIn} {dll : CString}
    (external : arg.storageClass = 2)
    (notExported : config.exported arg.name = 0)
    (found : lookupDynamicSymbol config arg.name = some (looked, dll, 0)) :
    coffResolve config arg =
      some
        { looked.fill arg looked.pltOffset with
          pltOffset := looked.pltOffset + 6
          initialImport :=
            (addDynamicResolvedEntry looked.initialImport arg.name dll).1
          importDirectoryLen :=
            (looked.importDirectoryLen +
              updateImportDirectoryLen
                (addDynamicResolvedEntry looked.initialImport arg.name dll).2
                looked.importDirectoryLen arg.name dll).bmod (2 ^ 32) } := by
  simp [coffResolve, external, notExported, found, Config.fill]

/-- A repeated reference gets the address of the first one. -/
theorem Resolved.resolve_seen
    {start config : Config} {args : List CallbackArgIn}
    {refs : List (CString × CString)} {arg : CallbackArgIn}
    (resolved : Resolved start args refs config)
    (mapped : start.virtualAddressOffset ≠ 0)
    (fits :
      start.virtualAddressOffset.toNat + 6 * refs.length ≤ 2 ^ 32)
    (imported : Imported start arg)
    (repeated : arg.name ∈ refs.map Prod.snd) :
    ∃ later ∈ coffResolve config arg,
      Resolved start (args ++ [arg]) refs later := by
  obtain ⟨reference, member, isName⟩ := List.mem_map.mp repeated
  obtain ⟨dll, name⟩ := reference
  cases isName
  obtain ⟨i, inRange, isAt⟩ := List.getElem_of_mem member
  have present : refs[i]? = some (dll, arg.name) := by
    rw [List.getElem?_eq_getElem inRange, isAt]
  have nonzero := stubAddress_ne_zero mapped fits inRange
  obtain ⟨table, looked, same, others⟩ :=
    lookupDynamicSymbol_spec (resolved.seen i dll arg.name present)
  rw [if_neg nonzero] at same
  have entries :
      ∀ other,
        Config.entryOf { config with dllHashTable := table } other =
          config.entryOf other := by
    intro other
    by_cases isName : other = arg.name
    · rw [isName, same, resolved.seen i dll arg.name present]
    · exact others other isName
  have notExported : config.exported arg.name = 0 := by
    rw [resolved.exported]
    exact imported.notExported
  refine
    ⟨Config.fill { config with dllHashTable := table } arg
        (start.virtualAddressOffset + BitVec.ofNat 32 (6 * i)), ?_,
      { exported := resolved.exported
        virtualAddressOffset := resolved.virtualAddressOffset
        pltOffset := resolved.pltOffset
        initialImport := resolved.initialImport
        known := resolved.known
        distinct := resolved.distinct
        unseen := fun other absent =>
          (entries other).trans (resolved.unseen other absent)
        seen := fun j dll other there =>
          (entries other).trans (resolved.seen j dll other there)
        order := ?_
        given := ?_
        reached := ?_ }⟩
  · exact
      coffResolve_of_ever imported.external notExported looked nonzero
  · simp [Config.fill, resolved.order]
  · intro reference member
    rcases List.mem_append.mp member with old | isNew
    · exact resolved.given reference old
    · rw [List.mem_singleton.mp isNew]
      exact ⟨i, dll, present, rfl⟩
  · intro j dll other there
    obtain ⟨reference, old, isName, address⟩ :=
      resolved.reached j dll other there
    exact
      ⟨reference, List.mem_append_left _ old, isName, address⟩

/-- A first reference gets the next stub address. -/
theorem Resolved.resolve_unseen
    {start config : Config} {args : List CallbackArgIn}
    {refs : List (CString × CString)} {arg : CallbackArgIn} {dll : CString}
    (resolved : Resolved start args refs config)
    (imported : Imported start arg)
    (isDll : start.dllOf arg.name = some dll)
    (new : arg.name ∉ refs.map Prod.snd) :
    ∃ later ∈ coffResolve config arg,
      Resolved start (args ++ [arg]) (refs ++ [(dll, arg.name)]) later := by
  have entry : config.entryOf arg.name = some (dll, 0) := by
    rw [resolved.unseen arg.name new, isDll]
    rfl
  obtain ⟨table, looked, same, others⟩ := lookupDynamicSymbol_spec entry
  rw [if_pos rfl, resolved.pltOffset] at same
  have notExported : config.exported arg.name = 0 := by
    rw [resolved.exported]
    exact imported.notExported
  have positions :
      ∀ i dll' name,
        (refs ++ [(dll, arg.name)])[i]? = some (dll', name) →
          refs[i]? = some (dll', name) ∧ name ≠ arg.name ∨
            i = refs.length ∧ dll' = dll ∧ name = arg.name := by
    intro i dll' name there
    rcases Nat.lt_trichotomy i refs.length with before | isLast | behind
    · rw [List.getElem?_append_left before] at there
      refine Or.inl ⟨there, ?_⟩
      rintro rfl
      exact new (List.mem_map.mpr ⟨_, List.mem_of_getElem? there, rfl⟩)
    · subst isLast
      rw [List.getElem?_concat_length] at there
      cases there
      exact Or.inr ⟨rfl, rfl, rfl⟩
    · rw [List.getElem?_eq_none (by simp; omega)] at there
      cases there
  have oldPosition :
      ∀ (i : Nat) (reference : CString × CString),
        refs[i]? = some reference →
          (refs ++ [(dll, arg.name)])[i]? = some reference := by
    intro i reference there
    rw [List.getElem?_append_left (List.getElem?_eq_some_iff.mp there).1,
      there]
  refine
    ⟨{ Config.fill { config with dllHashTable := table } arg
          config.pltOffset with
        pltOffset := config.pltOffset + 6
        initialImport :=
          (addDynamicResolvedEntry config.initialImport arg.name dll).1
        importDirectoryLen :=
          (config.importDirectoryLen +
            updateImportDirectoryLen
              (addDynamicResolvedEntry config.initialImport arg.name dll).2
              config.importDirectoryLen arg.name dll).bmod (2 ^ 32) }, ?_,
      { exported := resolved.exported
        virtualAddressOffset := resolved.virtualAddressOffset
        pltOffset := ?_
        initialImport := ?_
        known := ?_
        distinct := ?_
        unseen := ?_
        seen := ?_
        order := ?_
        given := ?_
        reached := ?_ }⟩
  · exact coffResolve_of_new imported.external notExported looked
  · simp only [resolved.pltOffset, List.length_append, List.length_singleton]
    bv_omega
  · simp only [addDynamicResolvedEntry, resolved.initialImport]
    rw [Grouping.ofEntries_concat]
  · intro reference member
    rcases List.mem_append.mp member with old | isNew
    · exact resolved.known reference old
    · rw [List.mem_singleton.mp isNew]
      exact isDll
  · rw [List.map_append, List.map_singleton, List.nodup_append]
    refine ⟨resolved.distinct, by simp, ?_⟩
    intro old member other isOther sameName
    rw [List.mem_singleton.mp isOther] at sameName
    rw [sameName] at member
    exact new member
  · intro other absent
    simp only [List.map_append, List.map_singleton, List.mem_append,
      List.mem_singleton, not_or] at absent
    exact (others other absent.2).trans (resolved.unseen other absent.1)
  · intro i dll' name there
    rcases positions i dll' name there with
      ⟨old, different⟩ | ⟨isLast, isNewDll, isName⟩
    · exact (others name different).trans (resolved.seen i dll' name old)
    · rw [isLast, isNewDll, isName]
      exact same
  · simp [Config.fill, resolved.order]
  · intro reference member
    rcases List.mem_append.mp member with old | isNew
    · obtain ⟨i, dll', there, address⟩ := resolved.given reference old
      exact ⟨i, dll', oldPosition i _ there, address⟩
    · rw [List.mem_singleton.mp isNew]
      exact
        ⟨refs.length, dll, List.getElem?_concat_length, resolved.pltOffset⟩
  · intro i dll' name there
    rcases positions i dll' name there with
      ⟨old, _⟩ | ⟨isLast, _, isName⟩
    · obtain ⟨reference, member, isName, address⟩ :=
        resolved.reached i dll' name old
      exact ⟨reference, List.mem_append_left _ member, isName, address⟩
    · exact
        ⟨(arg, config.pltOffset), List.mem_append_right _ (by simp),
          isName.symm, by rw [isLast]; exact resolved.pltOffset⟩

/-- Noting one more relocation. -/
theorem firstReferences_concat
    (config : Config) (args : List CallbackArgIn) (arg : CallbackArgIn) :
    firstReferences config (args ++ [arg]) =
      noteReference config (firstReferences config args) arg := by
  simp [firstReferences]

/-- Resolving imported relocations succeeds and hands out addresses in order. -/
theorem Fresh.resolveAll
    {start : Config} (fresh : Fresh start) (args : List CallbackArgIn)
    (imported : ∀ arg ∈ args, Imported start arg)
    (fits :
      start.virtualAddressOffset.toNat +
          6 * (firstReferences start args).length ≤
        2 ^ 32) :
    ∃ final ∈ resolveAll start args,
      Resolved start args (firstReferences start args) final := by
  induction args using List.reverseRecOn with
  | nil => exact ⟨start, rfl, fresh.resolved_nil⟩
  | append_singleton args arg inductionHypothesis =>
      rw [firstReferences_concat] at fits ⊢
      have shorter :
          (firstReferences start args).length ≤
            (noteReference start (firstReferences start args) arg).length := by
        rw [noteReference]
        split <;> simp
      obtain ⟨config, completed, resolved⟩ :=
        inductionHypothesis
          (fun other member => imported other (by simp [member])) (by omega)
      have isImported := imported arg (by simp)
      have next :
          ∃ later ∈ coffResolve config arg,
            Resolved start (args ++ [arg])
              (noteReference start (firstReferences start args) arg)
              later := by
        by_cases repeated :
            arg.name ∈ (firstReferences start args).map Prod.snd
        · rw [noteReference, if_pos repeated] at fits ⊢
          exact
            resolved.resolve_seen fresh.mapped fits isImported repeated
        · obtain ⟨dll, isDll⟩ := Option.ne_none_iff_exists'.mp isImported.known
          rw [noteReference, if_neg repeated, isDll]
          exact resolved.resolve_unseen isImported isDll repeated
      obtain ⟨later, stepped, laterResolved⟩ := next
      refine ⟨later, ?_, laterResolved⟩
      rw [Option.mem_def] at completed stepped ⊢
      rw [Coff.resolveAll] at completed ⊢
      rw [List.foldlM_append, completed]
      simpa using stepped

/-- The offset of a stub in `.plt`. -/
theorem stub_offset
    {pltVaddr : U32} {i : Nat} (fits : 6 * i < 2 ^ 32) :
    (pltVaddr + BitVec.ofNat 32 (6 * i) - pltVaddr).toNat = 6 * i := by
  bv_omega

/-- The slot that a stub's displacement leads to. -/
theorem stub_slot
    {pltVaddr importVaddr : U32} {i slot : Nat} (fits : slot < 2 ^ 32) :
    (pltVaddr + BitVec.ofNat 32 (6 * i) + 6 +
          BitVec.ofNat 32
            (importVaddr + BitVec.ofNat 32 slot -
              (pltVaddr + BitVec.ofNat 32 (6 * (i + 1)))).toNat -
        importVaddr).toNat =
      slot := by
  rw [BitVec.ofNat_toNat, BitVec.setWidth_eq]
  have step :
      BitVec.ofNat 32 (6 * (i + 1)) = BitVec.ofNat 32 (6 * i) + 6 := by
    rw [Nat.mul_add, BitVec.ofNat_add]
    rfl
  rw [step]
  generalize BitVec.ofNat 32 (6 * i) = offset
  bv_omega

/-- The offset of an address in the import data. -/
theorem data_offset
    {importVaddr : U32} {offset : Nat}
    (fits : importVaddr.toNat + offset < 2 ^ 32) :
    (BitVec.ofNat 32 (importVaddr.toNat + offset) - importVaddr).toNat =
      offset := by
  bv_omega

/-- What was emitted for an import is what its stub reaches. -/
theorem stubReaches_of_emitted
    {image : ImportSections} {i slot d hint first string : Nat}
    {dll name : CString}
    (fits : 6 * i < 2 ^ 32)
    (inRange : d < image.descriptors)
    (slotFits : image.importVaddr.toNat + slot < 2 ^ 32)
    (stringFits : image.importVaddr.toNat + string < 2 ^ 32)
    (jumps :
      JumpsThrough image.plt (6 * i)
        (image.importVaddr + BitVec.ofNat 32 slot -
          (image.pltVaddr + BitVec.ofNat 32 (6 * (i + 1)))))
    (spells : Spells image.data image.importVaddr slot hint name)
    (describes :
      Describes image.data image.importVaddr (20 * d) slot first string
        dll) :
    StubReaches image (image.pltVaddr + BitVec.ofNat 32 (6 * i)) dll name := by
  have firstFits : image.importVaddr.toNat + first < 2 ^ 32 := by
    have := describes.below
    omega
  simp only [StubReaches]
  rw [stub_offset fits, jumps.operand, stub_slot (by omega), spells.thunk,
    Nat.add_sub_cancel_left]
  refine ⟨jumps.code, Nat.le_add_right _ _, spells.spelled, d, inRange, ?_⟩
  simp only [DescriptorCovers]
  rw [describes.firstThunk, describes.name, data_offset firstFits,
    data_offset stringFits]
  refine ⟨describes.below, describes.whole, ?_, describes.spelled⟩
  intro n nInRange
  have below := describes.below
  exact describes.thunks n (by omega)

/-- A stub reaches the one function that was emitted for it. -/
theorem stubReaches_name
    {image : ImportSections} {i slot hint : Nat}
    {dll name other : CString}
    (fits : 6 * i < 2 ^ 32)
    (slotFits : image.importVaddr.toNat + slot < 2 ^ 32)
    (jumps :
      JumpsThrough image.plt (6 * i)
        (image.importVaddr + BitVec.ofNat 32 slot -
          (image.pltVaddr + BitVec.ofNat 32 (6 * (i + 1)))))
    (spells : Spells image.data image.importVaddr slot hint name)
    (reaches :
      StubReaches image (image.pltVaddr + BitVec.ofNat 32 (6 * i)) dll
        other) :
    other = name := by
  simp only [StubReaches] at reaches
  rw [stub_offset fits, jumps.operand, stub_slot (by omega), spells.thunk,
    Nat.add_sub_cancel_left] at reaches
  exact reaches.2.2.1.unique spells.spelled

namespace Sample

/-- `kernel32`. -/
def kernel32 : CString :=
  .ofBytes [107, 101, 114, 110, 101, 108, 51, 50]

/-- `ExitProcess`. -/
def exitProcess : CString :=
  .ofBytes [69, 120, 105, 116, 80, 114, 111, 99, 101, 115, 115]

/-- `WriteFile`. -/
def writeFile : CString :=
  .ofBytes [87, 114, 105, 116, 101, 70, 105, 108, 101]

/-- `ex65`. -/
def ex65 : CString :=
  .ofBytes [101, 120, 54, 53]

/-- `f1`. -/
def f1 : CString :=
  .ofBytes [102, 49]

/-- Three of the functions that `init_hashtable` registers. -/
def registered : List DllSymbol :=
  [⟨f1, ex65, 0⟩, ⟨exitProcess, kernel32, 0⟩, ⟨writeFile, kernel32, 0⟩]

/-- The start of relocation with the ten buckets of `init_hashtable`. -/
def config : Config where
  baseAddress := 0x40000
  virtualAddressOffset := 0x2000
  pltOffset := 0x2000
  importDirectoryLen := 0
  dllHashTable :=
    (List.range 10).map fun bucket =>
      registered.filter fun entry =>
        (elfHash entry.name).toNat % 10 = bucket
  exported := fun _ => 0
  initialImport := []
  memory := fun _ => 0
  resolved := []

/-- A call of an external function. -/
def call (name : CString) : CallbackArgIn :=
  ⟨0x1001, 0, 0x1001, name, 4, 0, 2, []⟩

end Sample

/--
The stub at each address handed out reaches the function it was handed out for
exactly when the functions of each DLL are first referenced one after the
other.
-/
theorem stubsReach_iff_contiguous
    (config : Config) (args : List CallbackArgIn) (plt data : Bytes)
    (fresh : Fresh config)
    (imported : ∀ arg ∈ args, Imported config arg)
    (fits :
      config.virtualAddressOffset.toNat +
            6 * (firstReferences config args).length +
          importDataSize
            (Grouping.ofEntries (firstReferences config args)) <
        2 ^ 32) :
    StubsReach config args plt data ↔
      Grouping.Contiguous ((firstReferences config args).map Prod.fst) := by
  rw [← Grouping.flatten_ofEntries_eq_iff]
  obtain ⟨final, completed, resolved⟩ :=
    fresh.resolveAll args imported (by omega)
  have sized := fresh.sized.resolveAll completed
  generalize firstReferences config args = refs at fits resolved ⊢
  have permuted := Grouping.perm_flatten_ofEntries refs
  by_cases nothing : refs = []
  · -- Without imports there is neither a stub nor a reference to one.
    subst nothing
    refine iff_of_true ⟨final, completed, resolved.order, ?_⟩ rfl
    intro image added
    simp [addImport, sized.len_eq_zero resolved.initialImport] at added
  · have nonzero : final.importDirectoryLen ≠ 0 := by
      apply sized.len_ne_zero
      · rw [resolved.initialImport]
        exact fun isEmpty => nothing (Grouping.ofEntries_eq_nil.mp isEmpty)
      · rw [resolved.initialImport]
        omega
    have pltEnd :
        final.pltOffset.toNat =
          config.virtualAddressOffset.toNat + 6 * refs.length := by
      rw [resolved.pltOffset]
      bv_omega
    obtain ⟨image, added, pltVaddr, importVaddr, descriptors, emitted⟩ :=
      addImport_spec final plt data nonzero
        (by rw [pltEnd, resolved.initialImport]; omega)
    rw [resolved.initialImport] at emitted
    rw [resolved.virtualAddressOffset] at pltVaddr
    constructor
    · rintro ⟨other, otherCompleted, _, reaches⟩
      cases Option.mem_unique completed otherCompleted
      apply List.ext_getElem?
      intro i
      rcases Nat.lt_or_ge i refs.length with inRange | beyond
      · have emittedRange :
            i < (Grouping.flatten (Grouping.ofEntries refs)).length := by
          rwa [permuted.length_eq]
        rw [List.getElem?_eq_getElem inRange,
          List.getElem?_eq_getElem emittedRange, Option.some_inj]
        obtain ⟨slot, d, hint, first, string, _, slotFits, _, jumps, spells,
            _⟩ :=
          emitted i _ (List.getElem?_eq_getElem emittedRange)
        obtain ⟨reference, member, isName, address⟩ :=
          resolved.reached i refs[i].1 refs[i].2
            (List.getElem?_eq_getElem inRange)
        have known := resolved.known _ (List.getElem_mem inRange)
        have reached :=
          reaches image added reference member _ (by
            rw [isName]
            exact known)
        rw [address, ← pltVaddr] at reached
        have sameName :=
          stubReaches_name (by omega) slotFits jumps spells reached
        have emittedKnown :=
          resolved.known _
            (permuted.subset (List.getElem_mem emittedRange))
        rw [← sameName, isName, known, Option.some_inj] at emittedKnown
        rw [isName] at sameName
        exact Prod.ext emittedKnown.symm sameName.symm
      · rw [List.getElem?_eq_none beyond,
          List.getElem?_eq_none (by rwa [permuted.length_eq])]
    · intro ordered
      refine ⟨final, completed, resolved.order, ?_⟩
      intro other otherAdded reference member dll isDll
      cases Option.mem_unique added otherAdded
      obtain ⟨i, ownDll, there, address⟩ := resolved.given reference member
      have inRange := (List.getElem?_eq_some_iff.mp there).1
      have known := resolved.known _ (List.mem_of_getElem? there)
      rw [Option.mem_def, known, Option.some_inj] at isDll
      subst isDll
      rw [← ordered] at there
      obtain ⟨slot, d, hint, first, string, dInRange, slotFits, stringFits,
          jumps, spells, describes⟩ :=
        emitted i _ there
      rw [address, ← pltVaddr]
      exact
        stubReaches_of_emitted (by omega) dInRange slotFits stringFits jumps
          spells describes

/-- The two functions of one DLL, then the one of another. -/
theorem stubsReach_kernel32_ex65 :
    StubsReach Sample.config
      [Sample.call Sample.exitProcess, Sample.call Sample.writeFile,
        Sample.call Sample.f1]
      (fun _ => 0) (fun _ => 0) :=
  (stubsReach_iff_contiguous Sample.config
    [Sample.call Sample.exitProcess, Sample.call Sample.writeFile,
      Sample.call Sample.f1]
    (fun _ => 0) (fun _ => 0)
    { mapped := by decide
      pltOffset := rfl
      importDirectoryLen := rfl
      initialImport := rfl
      resolved := rfl
      ever := by decide +kernel }
    (by
      intro arg member
      have all :
          ∀ arg ∈
            [Sample.call Sample.exitProcess, Sample.call Sample.writeFile,
              Sample.call Sample.f1],
            arg.storageClass = 2 ∧ Sample.config.exported arg.name = 0 ∧
              Sample.config.dllOf arg.name ≠ none := by
        decide +kernel
      obtain ⟨external, notExported, known⟩ := all arg member
      exact ⟨external, notExported, known⟩)
    (by decide +kernel)).mpr (by decide +kernel)

/--
`f1` of another DLL is referenced between two functions of `kernel32`: the stub
handed out for `f1` jumps to `WriteFile`.
-/
theorem not_stubsReach_kernel32_ex65_kernel32 :
    ¬ StubsReach Sample.config
      [Sample.call Sample.exitProcess, Sample.call Sample.f1,
        Sample.call Sample.writeFile]
      (fun _ => 0) (fun _ => 0) := by
  decide +kernel

end BinTools.Coff
