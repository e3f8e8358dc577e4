import BinTools.CoffImportLayout
import BinTools.ConsecutiveRanges

namespace BinTools.Coff

open ByteBuffer

/-!
# What `add_import` leaves

The descriptors are written first, then both thunk tables, each with the
address of the import data only; the last loop adds the offsets, writes the
strings and the stubs.  None of it depends on what the memory held before.
-/

/-! ## Stubs -/

/-- A stub that jumps through the slot at an address. -/
structure JumpsThrough
    (plt : Bytes) (offset : Nat) (displacement : U32) : Prop where
  code : loadWord 2 plt offset = 0x25ff
  operand : loadWord 4 plt (offset + 2) = displacement.toNat

/-- A stub is decided by its six bytes. -/
theorem JumpsThrough.congr
    {plt later : Bytes} {offset : Nat} {displacement : U32}
    (jumps : JumpsThrough plt offset displacement)
    (agree :
      ∀ position, offset ≤ position → position < offset + 6 →
        later position = plt position) :
    JumpsThrough later offset displacement where
  code := by
    rw [loadWord_congr fun position from_ below =>
      agree position from_ (by omega)]
    exact jumps.code
  operand := by
    rw [loadWord_congr fun position from_ below =>
      agree position (by omega) (by omega)]
    exact jumps.operand

/-- The number of functions of all DLLs. -/
def functionCount (imports : List (CString × List CString)) : Nat :=
  (imports.map fun dll => dll.2.length).sum

/-- The stub of one function. -/
theorem jumpsThrough_emitFunction
    (importVaddr : U32) (cursor : Cursor) (name : CString) :
    JumpsThrough (emitFunction importVaddr cursor name).plt cursor.pltp
      (importVaddr + BitVec.ofNat 32 cursor.iat -
        (cursor.pltVaddr + 6)) where
  code := by
    simp only [emitFunction]
    rw [loadWord_congr fun position _ below =>
        storeWord_apply_of_outside (Or.inl below),
      loadWord_storeWord]
    decide
  operand := by
    simp only [emitFunction]
    rw [loadWord_storeWord]
    exact Nat.mod_eq_of_lt (BitVec.isLt _)

/-- The stubs of the functions of a DLL. -/
theorem jumpsThrough_emitFunctions
    (importVaddr : U32) (cursor : Cursor) (names : List CString) :
    ∀ j < names.length,
      JumpsThrough (names.foldl (emitFunction importVaddr) cursor).plt
        (cursor.pltp + 6 * j)
        (importVaddr + BitVec.ofNat 32 (cursor.iat + 8 * j) -
          (cursor.pltVaddr + BitVec.ofNat 32 (6 * (j + 1)))) := by
  induction names generalizing cursor with
  | nil => exact fun j inRange => absurd inRange (Nat.not_lt_zero j)
  | cons first rest inductionHypothesis =>
      intro j inRange
      rw [List.foldl_cons]
      cases j with
      | zero =>
          refine (jumpsThrough_emitFunction importVaddr cursor first).congr ?_
          intro position _ below
          apply emitFunctions_plt
          rw [emitFunction_pltp]
          omega
      | succ j =>
          have jumps :=
            inductionHypothesis (emitFunction importVaddr cursor first) j
              (Nat.lt_of_succ_lt_succ inRange)
          rw [emitFunction_iat, emitFunction_pltp, emitFunction_pltVaddr]
            at jumps
          have slot : cursor.iat + 8 + 8 * j = cursor.iat + 8 * (j + 1) := by
            omega
          have stub : cursor.pltp + 6 + 6 * j = cursor.pltp + 6 * (j + 1) := by
            omega
          have behind :
              cursor.pltVaddr + 6 + BitVec.ofNat 32 (6 * (j + 1)) =
                cursor.pltVaddr + BitVec.ofNat 32 (6 * (j + 1 + 1)) := by
            bv_omega
          rw [slot, stub, behind] at jumps
          exact jumps

/-- The stubs of all DLLs. -/
theorem jumpsThrough_emitDlls
    (importVaddr : U32) (cursor : Cursor) (iid : Nat)
    (imports : List (CString × List CString)) :
    ∀ d dll, imports[d]? = some dll → ∀ j < dll.2.length,
      JumpsThrough (emitDlls importVaddr cursor iid imports).plt
        (cursor.pltp + 6 * (functionCount (imports.take d) + j))
        (importVaddr +
            BitVec.ofNat 32
              (cursor.iat + 8 * thunkCount (imports.take d) + 8 * j) -
          (cursor.pltVaddr +
            BitVec.ofNat 32
              (6 * (functionCount (imports.take d) + j + 1)))) := by
  induction imports generalizing cursor iid with
  | nil =>
      intro d dll isDll
      cases isDll
  | cons first rest inductionHypothesis =>
      obtain ⟨pltp, pltVaddr, iat, _, _⟩ :=
        nextDll_cursor importVaddr cursor iid first
      intro d dll isDll j inRange
      rw [emitDlls_cons]
      cases d with
      | zero =>
          cases isDll
          have jumps :=
            jumpsThrough_emitFunctions importVaddr
              (emitDescriptor cursor iid first.1) first.2 j inRange
          have isStart : functionCount ((first :: rest).take 0) = 0 := rfl
          have isTable : thunkCount ((first :: rest).take 0) = 0 := rfl
          rw [isStart, isTable, Nat.zero_add, Nat.mul_zero, Nat.add_zero]
          refine JumpsThrough.congr jumps ?_
          intro position _ below
          have stub :
              (emitDescriptor cursor iid first.1).pltp = cursor.pltp :=
            rfl
          exact emitDlls_plt (by omega)
      | succ d =>
          have jumps :=
            inductionHypothesis (nextDll importVaddr cursor iid first)
              (iid + 20) d dll isDll j inRange
          have functionsBefore :
              functionCount ((first :: rest).take (d + 1)) =
                first.2.length + functionCount (rest.take d) :=
            rfl
          have thunksBefore :
              thunkCount ((first :: rest).take (d + 1)) =
                first.2.length + 1 + thunkCount (rest.take d) :=
            rfl
          have slot :
              cursor.iat + 8 * (first.2.length + 1) +
                    8 * thunkCount (rest.take d) + 8 * j =
                cursor.iat +
                    8 * thunkCount ((first :: rest).take (d + 1)) + 8 * j := by
            rw [thunksBefore]
            omega
          have stub :
              cursor.pltp + 6 * first.2.length +
                  6 * (functionCount (rest.take d) + j) =
                cursor.pltp +
                  6 * (functionCount ((first :: rest).take (d + 1)) + j) := by
            rw [functionsBefore]
            omega
          have behind :
              cursor.pltVaddr + BitVec.ofNat 32 (6 * first.2.length) +
                  BitVec.ofNat 32 (6 * (functionCount (rest.take d) + j + 1)) =
                cursor.pltVaddr +
                  BitVec.ofNat 32
                    (6 *
                      (functionCount ((first :: rest).take (d + 1)) + j +
                        1)) := by
            rw [BitVec.add_assoc, ← BitVec.ofNat_add, functionsBefore]
            congr 2
            omega
          rw [iat, pltp, pltVaddr, slot, stub, behind] at jumps
          exact jumps

/-- An import of the flat list is one of its DLL's. -/
theorem exists_of_flatten
    {imports : List (CString × List CString)} {i : Nat}
    {entry : CString × CString}
    (isEntry : (Grouping.flatten imports)[i]? = some entry) :
    ∃ d dll j,
      imports[d]? = some dll ∧ dll.1 = entry.1 ∧
        dll.2[j]? = some entry.2 ∧
          i = functionCount (imports.take d) + j := by
  induction imports generalizing i with
  | nil => cases isEntry
  | cons first rest inductionHypothesis =>
      have listed :
          Grouping.flatten (first :: rest) =
            first.2.map (fun name => (first.1, name)) ++
              Grouping.flatten rest := rfl
      rw [listed] at isEntry
      rcases Nat.lt_or_ge i first.2.length with own | later
      · rw [List.getElem?_append_left (by simpa using own),
          List.getElem?_map, Option.map_eq_some_iff] at isEntry
        obtain ⟨name, isName, rfl⟩ := isEntry
        exact ⟨0, first, i, rfl, rfl, isName, (Nat.zero_add i).symm⟩
      · rw [List.getElem?_append_right (by simpa using later),
          List.length_map] at isEntry
        obtain ⟨d, dll, j, isDll, isFirst, isName, isPlace⟩ :=
          inductionHypothesis isEntry
        refine ⟨d + 1, dll, j, isDll, isFirst, isName, ?_⟩
        have functionsBefore :
            functionCount ((first :: rest).take (d + 1)) =
              first.2.length + functionCount (rest.take d) :=
          rfl
        omega

/-! ## The functions of a DLL -/

/-- The thunks, the hint and the name of a function. -/
structure FunctionHolds
    (data : Bytes) (vaddr iat int c : Nat) (name : CString) : Prop where
  address : loadWord 8 data iat = vaddr + c
  lookup : loadWord 8 data int = vaddr + c
  hint : loadWord 2 data c = 0
  spelled : StringAt data (c + 2) name

/-- A function is described by its own bytes. -/
theorem FunctionHolds.congr
    {data later : Bytes} {vaddr iat int c : Nat} {name : CString}
    (holds : FunctionHolds data vaddr iat int c name)
    (sameAddress :
      ∀ q, iat ≤ q → q < iat + 8 → later q = data q)
    (sameLookup :
      ∀ q, int ≤ q → q < int + 8 → later q = data q)
    (sameStrings :
      ∀ q, c ≤ q → q < c + 2 + (name.length + 1) → later q = data q) :
    FunctionHolds later vaddr iat int c name where
  address := (loadWord_congr sameAddress).trans holds.address
  lookup := (loadWord_congr sameLookup).trans holds.lookup
  hint :=
    (loadWord_congr fun q fromStart toEnd =>
      sameStrings q fromStart (by omega)).trans holds.hint
  spelled :=
    holds.spelled.congr fun q fromStart toEnd =>
      sameStrings q (by omega) (by omega)

/-- What one function leaves in the import data. -/
theorem functionHolds_emitFunction
    {importVaddr : U32} {cursor : Cursor} (name : CString)
    (address : loadWord 8 cursor.data cursor.iat = importVaddr.toNat)
    (lookup : loadWord 8 cursor.data cursor.int = importVaddr.toNat)
    (iatBelow : cursor.iat + 8 ≤ cursor.int)
    (intBelow : cursor.int + 8 ≤ cursor.c)
    (fits : cursor.c < 2 ^ 32) :
    FunctionHolds (emitFunction importVaddr cursor name).data
      importVaddr.toNat cursor.iat cursor.int cursor.c name := by
  have wordFits : importVaddr.toNat + cursor.c < 256 ^ 8 := by
    have := importVaddr.isLt
    omega
  constructor
  · simp only [emitFunction]
    rw [loadWord_congr fun q _ toEnd =>
        strcpy_apply_of_outside (Or.inl (by omega)),
      loadWord_storeWord_of_apart (by omega),
      loadWord_congr fun q _ toEnd =>
        addWord_apply_of_outside (Or.inl (by omega)),
      loadWord_addWord, address, Nat.mod_eq_of_lt wordFits]
  · simp only [emitFunction]
    rw [loadWord_congr fun q _ toEnd =>
        strcpy_apply_of_outside (Or.inl (by omega)),
      loadWord_storeWord_of_apart (by omega), loadWord_addWord,
      loadWord_congr fun q fromStart _ =>
        addWord_apply_of_outside (Or.inr (by omega)),
      lookup, Nat.mod_eq_of_lt wordFits]
  · simp only [emitFunction]
    rw [loadWord_congr fun q _ toEnd =>
        strcpy_apply_of_outside (Or.inl (by omega)),
      loadWord_storeWord]
    rfl
  · exact stringAt_strcpy _ _ _

/-- One function leaves the later thunks of its DLL alone. -/
theorem thunks_emitFunction
    {importVaddr : U32} {cursor : Cursor} (name : CString)
    {start count : Nat}
    (thunks :
      ∀ j < count + 1,
        loadWord 8 cursor.data (start + 8 * j) = importVaddr.toNat)
    (offIat : start = cursor.iat ∨ cursor.iat + 8 ≤ start)
    (offInt : start = cursor.int ∨ start + 8 * (count + 1) ≤ cursor.int)
    (inFront : start + 8 * (count + 1) ≤ cursor.c) :
    ∀ j < count,
      loadWord 8 (emitFunction importVaddr cursor name).data
          (start + 8 + 8 * j) =
        importVaddr.toNat := by
  intro j inRange
  have place : start + 8 + 8 * j = start + 8 * (j + 1) := by omega
  rw [place,
    loadWord_congr fun q fromStart toEnd =>
      emitFunction_data (by omega) (by omega) (by omega)]
  exact thunks (j + 1) (by omega)

/-- What the functions of a DLL leave in the import data. -/
theorem functionHolds_emitFunctions
    (importVaddr : U32) (cursor : Cursor) (names : List CString)
    (addresses :
      ∀ j < names.length,
        loadWord 8 cursor.data (cursor.iat + 8 * j) = importVaddr.toNat)
    (lookups :
      ∀ j < names.length,
        loadWord 8 cursor.data (cursor.int + 8 * j) = importVaddr.toNat)
    (iatBelow : cursor.iat + 8 * names.length ≤ cursor.int)
    (intBelow : cursor.int + 8 * names.length ≤ cursor.c)
    (fits : cursor.c + functionsSize names < 2 ^ 32) :
    ∀ j name, names[j]? = some name →
      FunctionHolds (names.foldl (emitFunction importVaddr) cursor).data
        importVaddr.toNat (cursor.iat + 8 * j) (cursor.int + 8 * j)
        (cursor.c + functionsSize (names.take j)) name := by
  induction names generalizing cursor with
  | nil =>
      intro j name isName
      cases isName
  | cons first rest inductionHypothesis =>
      intro j name isName
      have restFits :
          functionsSize (first :: rest) =
            2 + first.length + 1 + functionsSize rest := rfl
      rw [List.length_cons] at addresses lookups iatBelow intBelow
      rw [restFits] at fits
      rw [List.foldl_cons]
      cases j with
      | zero =>
          cases isName
          have holds :=
            functionHolds_emitFunction first (addresses 0 (by omega))
              (lookups 0 (by omega)) (by omega) (by omega) (by omega)
          refine holds.congr ?_ ?_ ?_ <;> intro q fromStart toEnd <;>
            apply emitFunctions_data <;>
            simp only [emitFunction_iat, emitFunction_int,
              emitFunction_c] <;>
            omega
      | succ j =>
          have restAddresses :=
            thunks_emitFunction first addresses (.inl rfl)
              (.inr (by omega)) (by omega)
          have restLookups :=
            thunks_emitFunction first lookups (.inr (by omega)) (.inl rfl)
              (by omega)
          have holds :=
            inductionHypothesis _ restAddresses restLookups
              (by rw [emitFunction_iat, emitFunction_int]; omega)
              (by rw [emitFunction_int, emitFunction_c]; omega)
              (by rw [emitFunction_c]; omega) j name isName
          have sameAddress :
              cursor.iat + 8 + 8 * j = cursor.iat + 8 * (j + 1) := by omega
          have sameLookup :
              cursor.int + 8 + 8 * j = cursor.int + 8 * (j + 1) := by omega
          have sameString :
              cursor.c + (2 + first.length + 1) +
                  functionsSize (rest.take j) =
                cursor.c + functionsSize ((first :: rest).take (j + 1)) :=
            Nat.add_assoc _ _ _
          rw [emitFunction_iat, emitFunction_int, emitFunction_c, sameAddress,
            sameLookup, sameString] at holds
          exact holds

/-! ## The descriptor of a DLL -/

/-- The descriptor, the name and the thunks of a DLL. -/
structure DllWritten
    (data : Bytes) (vaddr iid iat int c : Nat)
    (dll : CString × List CString) : Prop where
  originalFirstThunk : loadWord 4 data iid = (vaddr + int) % 2 ^ 32
  timeDateStamp : loadWord 4 data (iid + 4) = 0
  forwarderChain : loadWord 4 data (iid + 8) = 0
  name : loadWord 4 data (iid + 12) = (vaddr + c) % 2 ^ 32
  firstThunk : loadWord 4 data (iid + 16) = (vaddr + iat) % 2 ^ 32
  spelled : StringAt data c dll.1
  functions :
    ∀ j name, dll.2[j]? = some name →
      FunctionHolds data vaddr (iat + 8 * j) (int + 8 * j)
        (c + (dll.1.length + 1 + functionsSize (dll.2.take j))) name

/-- The descriptor and the thunks of a DLL before the last loop. -/
structure DllReady
    (data : Bytes) (vaddr iid iat int count : Nat) : Prop where
  originalFirstThunk : loadWord 4 data iid = vaddr
  timeDateStamp : loadWord 4 data (iid + 4) = 0
  forwarderChain : loadWord 4 data (iid + 8) = 0
  name : loadWord 4 data (iid + 12) = vaddr
  firstThunk : loadWord 4 data (iid + 16) = vaddr
  addresses : ∀ j < count, loadWord 8 data (iat + 8 * j) = vaddr
  lookups : ∀ j < count, loadWord 8 data (int + 8 * j) = vaddr

/-- A DLL is ready by its descriptor and its thunks. -/
theorem DllReady.congr
    {data later : Bytes} {vaddr iid iat int count : Nat}
    (ready : DllReady data vaddr iid iat int count)
    (sameDescriptor :
      ∀ q, iid ≤ q → q < iid + 20 → later q = data q)
    (sameAddresses :
      ∀ q, iat ≤ q → q < iat + 8 * count → later q = data q)
    (sameLookups :
      ∀ q, int ≤ q → q < int + 8 * count → later q = data q) :
    DllReady later vaddr iid iat int count := by
  have descriptor :
      ∀ offset, offset + 4 ≤ 20 →
        loadWord 4 later (iid + offset) = loadWord 4 data (iid + offset) :=
    fun offset inside =>
      loadWord_congr fun q fromStart toEnd =>
        sameDescriptor q (by omega) (by omega)
  have address :
      ∀ j < count,
        loadWord 8 later (iat + 8 * j) = loadWord 8 data (iat + 8 * j) :=
    fun j inside =>
      loadWord_congr fun q fromStart toEnd =>
        sameAddresses q (by omega) (by omega)
  have lookup :
      ∀ j < count,
        loadWord 8 later (int + 8 * j) = loadWord 8 data (int + 8 * j) :=
    fun j inside =>
      loadWord_congr fun q fromStart toEnd =>
        sameLookups q (by omega) (by omega)
  exact
    { originalFirstThunk :=
        (descriptor 0 (by decide)).trans ready.originalFirstThunk
      timeDateStamp := (descriptor 4 (by decide)).trans ready.timeDateStamp
      forwarderChain := (descriptor 8 (by decide)).trans ready.forwarderChain
      name := (descriptor 12 (by decide)).trans ready.name
      firstThunk := (descriptor 16 (by decide)).trans ready.firstThunk
      addresses := fun j inRange =>
        (address j inRange).trans (ready.addresses j inRange)
      lookups := fun j inRange =>
        (lookup j inRange).trans (ready.lookups j inRange) }

/-- A DLL is described by its own bytes. -/
theorem DllWritten.congr
    {data later : Bytes} {vaddr iid iat int c : Nat}
    {dll : CString × List CString}
    (written : DllWritten data vaddr iid iat int c dll)
    (sameDescriptor :
      ∀ q, iid ≤ q → q < iid + 20 → later q = data q)
    (sameAddresses :
      ∀ q, iat ≤ q → q < iat + 8 * dll.2.length → later q = data q)
    (sameLookups :
      ∀ q, int ≤ q → q < int + 8 * dll.2.length → later q = data q)
    (sameStrings :
      ∀ q, c ≤ q → q < c + (dll.1.length + 1 + functionsSize dll.2) →
        later q = data q) :
    DllWritten later vaddr iid iat int c dll := by
  have descriptor :
      ∀ offset, offset + 4 ≤ 20 →
        loadWord 4 later (iid + offset) = loadWord 4 data (iid + offset) :=
    fun offset inside =>
      loadWord_congr fun q fromStart toEnd =>
        sameDescriptor q (by omega) (by omega)
  exact
    { originalFirstThunk :=
        (descriptor 0 (by decide)).trans written.originalFirstThunk
      timeDateStamp := (descriptor 4 (by decide)).trans written.timeDateStamp
      forwarderChain := (descriptor 8 (by decide)).trans written.forwarderChain
      name := (descriptor 12 (by decide)).trans written.name
      firstThunk := (descriptor 16 (by decide)).trans written.firstThunk
      spelled :=
        written.spelled.congr fun q fromStart toEnd =>
          sameStrings q fromStart (by omega)
      functions := by
        intro j name isName
        have inRange := (List.getElem?_eq_some_iff.mp isName).1
        have inStrings :
            functionsSize (dll.2.take j) + (2 + name.length + 1) ≤
              functionsSize dll.2 :=
          ConsecutiveRanges.sum_map_take_add_le isName _
        exact
          (written.functions j name isName).congr
            (fun q fromStart toEnd => sameAddresses q (by omega) (by omega))
            (fun q fromStart toEnd => sameLookups q (by omega) (by omega))
            (fun q fromStart toEnd => sameStrings q (by omega) (by omega)) }

/-- The descriptor and the name of a DLL once they are filled in. -/
theorem words_emitDescriptor
    {vaddr count : Nat} {cursor : Cursor} {iid : Nat} (dllname : CString)
    (ready : DllReady cursor.data vaddr iid cursor.iat cursor.int count)
    (behind : iid + 20 ≤ cursor.c) :
    let data := (emitDescriptor cursor iid dllname).data
    loadWord 4 data iid = (vaddr + cursor.int) % 2 ^ 32 ∧
      loadWord 4 data (iid + 4) = 0 ∧
      loadWord 4 data (iid + 8) = 0 ∧
      loadWord 4 data (iid + 12) = (vaddr + cursor.c) % 2 ^ 32 ∧
      loadWord 4 data (iid + 16) = (vaddr + cursor.iat) % 2 ^ 32 ∧
      StringAt data cursor.c dllname := by
  have width : (256 : Nat) ^ 4 = 2 ^ 32 := by decide
  have copied :
      ∀ (buffer : Bytes) (offset : Nat), offset + 4 ≤ cursor.c →
        loadWord 4 (strcpy buffer cursor.c dllname) offset =
          loadWord 4 buffer offset :=
    fun buffer offset inFront =>
      loadWord_congr fun q _ toEnd =>
        strcpy_apply_of_outside (Or.inl (by omega))
  have added :
      ∀ (buffer : Bytes) (place offset value : Nat),
        place + 4 ≤ offset ∨ offset + 4 ≤ place →
          loadWord 4 (addWord 4 buffer place value) offset =
            loadWord 4 buffer offset :=
    fun buffer place offset value isApart =>
      loadWord_storeWord_of_apart (by omega) buffer _
  simp only [emitDescriptor]
  refine ⟨?_, ?_, ?_, ?_, ?_, ?_⟩
  · rw [added _ _ _ _ (by omega), copied _ _ (by omega), loadWord_addWord,
      added _ _ _ _ (by omega), ready.originalFirstThunk, width]
  · rw [added _ _ _ _ (by omega), copied _ _ (by omega),
      added _ _ _ _ (by omega), added _ _ _ _ (by omega),
      ready.timeDateStamp]
  · rw [added _ _ _ _ (by omega), copied _ _ (by omega),
      added _ _ _ _ (by omega), added _ _ _ _ (by omega),
      ready.forwarderChain]
  · rw [loadWord_addWord, copied _ _ (by omega), added _ _ _ _ (by omega),
      added _ _ _ _ (by omega), ready.name, width]
  · rw [added _ _ _ _ (by omega), copied _ _ (by omega),
      added _ _ _ _ (by omega), loadWord_addWord, ready.firstThunk, width]
  · refine
      (stringAt_strcpy
        (addWord 4 (addWord 4 cursor.data (iid + 16) cursor.iat) iid
          cursor.int)
        cursor.c dllname).congr ?_
    intro q fromStart _
    exact addWord_apply_of_outside (Or.inr (by omega))

/-- What one DLL leaves in the import data. -/
theorem dllWritten_nextDll
    {importVaddr : U32} {cursor : Cursor} {iid : Nat}
    {dll : CString × List CString}
    (ready :
      DllReady cursor.data importVaddr.toNat iid cursor.iat cursor.int
        dll.2.length)
    (iidBelow : iid + 20 ≤ cursor.iat)
    (iatBelow : cursor.iat + 8 * (dll.2.length + 1) ≤ cursor.int)
    (intBelow : cursor.int + 8 * (dll.2.length + 1) ≤ cursor.c)
    (fits :
      cursor.c + (dll.1.length + 1 + functionsSize dll.2) < 2 ^ 32) :
    DllWritten (nextDll importVaddr cursor iid dll).data importVaddr.toNat iid
      cursor.iat cursor.int cursor.c dll := by
  obtain ⟨originalFirstThunk, timeDateStamp, forwarderChain, name, firstThunk,
      spelled⟩ :=
    words_emitDescriptor dll.1 ready (by omega)
  have named :
      (emitDescriptor cursor iid dll.1).c = cursor.c + dll.1.length + 1 := rfl
  have sameIat : (emitDescriptor cursor iid dll.1).iat = cursor.iat := rfl
  have sameInt : (emitDescriptor cursor iid dll.1).int = cursor.int := rfl
  have described :
      ∀ q, iid + 20 ≤ q → q < cursor.c →
        (emitDescriptor cursor iid dll.1).data q = cursor.data q :=
    fun q behind inFront => emitDescriptor_data (Or.inr behind) inFront
  -- The functions leave the descriptor and the DLL's name alone.
  have kept :
      ∀ q, q < cursor.c + dll.1.length + 1 →
        (q < cursor.iat ∨ cursor.iat + 8 * dll.2.length ≤ q) →
          (q < cursor.int ∨ cursor.int + 8 * dll.2.length ≤ q) →
            (nextDll importVaddr cursor iid dll).data q =
              (emitDescriptor cursor iid dll.1).data q :=
    fun q inFront offIat offInt =>
      emitFunctions_data (emitDescriptor cursor iid dll.1) offIat offInt
        inFront
  have functions :=
    functionHolds_emitFunctions importVaddr
      (emitDescriptor cursor iid dll.1) dll.2
      (fun j inRange => by
        rw [sameIat,
          loadWord_congr fun q fromStart toEnd =>
            described q (by omega) (by omega)]
        exact ready.addresses j inRange)
      (fun j inRange => by
        rw [sameInt,
          loadWord_congr fun q fromStart toEnd =>
            described q (by omega) (by omega)]
        exact ready.lookups j inRange)
      (by rw [sameIat, sameInt]; omega) (by rw [sameInt, named]; omega)
      (by rw [named]; omega)
  rw [sameIat, sameInt, named] at functions
  have descriptor :
      ∀ offset, offset + 4 ≤ 20 →
        loadWord 4 (nextDll importVaddr cursor iid dll).data (iid + offset) =
          loadWord 4 (emitDescriptor cursor iid dll.1).data (iid + offset) :=
    fun offset inside =>
      loadWord_congr fun q fromStart toEnd =>
        kept q (by omega) (by omega) (by omega)
  exact
    { originalFirstThunk :=
        (descriptor 0 (by decide)).trans originalFirstThunk
      timeDateStamp := (descriptor 4 (by decide)).trans timeDateStamp
      forwarderChain := (descriptor 8 (by decide)).trans forwarderChain
      name := (descriptor 12 (by decide)).trans name
      firstThunk := (descriptor 16 (by decide)).trans firstThunk
      spelled :=
        spelled.congr fun q fromStart toEnd =>
          kept q (by omega) (by omega) (by omega)
      functions := by
        intro j name isName
        have holds := functions j name isName
        rw [Nat.add_assoc, Nat.add_assoc] at holds
        rw [Nat.add_assoc]
        exact holds }

/-! ## All DLLs -/

/-- The DLLs behind the first one stay ready. -/
theorem dllReady_nextDll
    {importVaddr : U32} {cursor : Cursor} {iid : Nat}
    {first : CString × List CString} {rest : List (CString × List CString)}
    (ready :
      ∀ d dll, (first :: rest)[d]? = some dll →
        DllReady cursor.data importVaddr.toNat (iid + 20 * d)
          (cursor.iat + 8 * thunkCount ((first :: rest).take d))
          (cursor.int + 8 * thunkCount ((first :: rest).take d))
          dll.2.length)
    (iidBelow : iid + 20 * (rest.length + 1) ≤ cursor.iat)
    (iatBelow :
      cursor.iat + 8 * (first.2.length + 1 + thunkCount rest) ≤ cursor.int)
    (intBelow :
      cursor.int + 8 * (first.2.length + 1 + thunkCount rest) ≤ cursor.c) :
    ∀ d dll, rest[d]? = some dll →
      DllReady (nextDll importVaddr cursor iid first).data importVaddr.toNat
        (iid + 20 + 20 * d)
        ((nextDll importVaddr cursor iid first).iat +
          8 * thunkCount (rest.take d))
        ((nextDll importVaddr cursor iid first).int +
          8 * thunkCount (rest.take d))
        dll.2.length := by
  obtain ⟨_, _, iat, int, _⟩ := nextDll_cursor importVaddr cursor iid first
  have untouched :
      ∀ q, q < cursor.c → (q < iid ∨ iid + 20 ≤ q) →
        (q < cursor.iat ∨ cursor.iat + 8 * (first.2.length + 1) ≤ q) →
          (q < cursor.int ∨ cursor.int + 8 * (first.2.length + 1) ≤ q) →
            (nextDll importVaddr cursor iid first).data q =
              cursor.data q :=
    fun q inFront offDescriptor offIat offInt =>
      nextDll_data offDescriptor (by omega) (by omega) inFront
  intro d dll isDll
  have wasReady := ready (d + 1) dll isDll
  have inRange := (List.getElem?_eq_some_iff.mp isDll).1
  have inTables :
      thunkCount (rest.take d) + (dll.2.length + 1) ≤ thunkCount rest :=
    ConsecutiveRanges.sum_map_take_add_le isDll _
  have thunksBefore :
      thunkCount ((first :: rest).take (d + 1)) =
        first.2.length + 1 + thunkCount (rest.take d) :=
    rfl
  have place : iid + 20 * (d + 1) = iid + 20 + 20 * d := by omega
  rw [place, thunksBefore] at wasReady
  rw [iat, int, Nat.add_assoc cursor.iat, Nat.add_assoc cursor.int,
    ← Nat.mul_add]
  refine wasReady.congr ?_ ?_ ?_ <;> intro q fromStart toEnd <;>
    apply untouched <;> omega

/-- What the last loop of `add_import` leaves in the import data. -/
theorem dllWritten_emitDlls
    {importVaddr : U32} (cursor : Cursor) (iid : Nat)
    {imports : List (CString × List CString)}
    (ready :
      ∀ d dll, imports[d]? = some dll →
        DllReady cursor.data importVaddr.toNat (iid + 20 * d)
          (cursor.iat + 8 * thunkCount (imports.take d))
          (cursor.int + 8 * thunkCount (imports.take d)) dll.2.length)
    (iidBelow : iid + 20 * imports.length ≤ cursor.iat)
    (iatBelow : cursor.iat + 8 * thunkCount imports ≤ cursor.int)
    (intBelow : cursor.int + 8 * thunkCount imports ≤ cursor.c)
    (fits : cursor.c + stringsSize imports < 2 ^ 32) :
    ∀ d dll, imports[d]? = some dll →
      DllWritten (emitDlls importVaddr cursor iid imports).data
        importVaddr.toNat (iid + 20 * d)
        (cursor.iat + 8 * thunkCount (imports.take d))
        (cursor.int + 8 * thunkCount (imports.take d))
        (cursor.c + stringsSize (imports.take d)) dll := by
  induction imports generalizing cursor iid with
  | nil =>
      intro d dll isDll
      cases isDll
  | cons first rest inductionHypothesis =>
      obtain ⟨_, _, iat, int, c⟩ := nextDll_cursor importVaddr cursor iid first
      have isReady := ready 0 first rfl
      rw [List.length_cons] at iidBelow
      rw [thunkCount_cons] at iatBelow intBelow
      rw [stringsSize_cons] at fits
      intro d dll isDll
      rw [emitDlls_cons]
      cases d with
      | zero =>
          cases isDll
          have holds :=
            dllWritten_nextDll isReady (by omega) (by omega) (by omega)
              (by omega)
          refine holds.congr ?_ ?_ ?_ ?_ <;> intro q fromStart toEnd <;>
            apply emitDlls_data <;> omega
      | succ d =>
          have thunksBefore :
              thunkCount ((first :: rest).take (d + 1)) =
                first.2.length + 1 + thunkCount (rest.take d) :=
            rfl
          have stringsBefore :
              stringsSize ((first :: rest).take (d + 1)) =
                first.1.length + 1 + functionsSize first.2 +
                  stringsSize (rest.take d) :=
            rfl
          have place : iid + 20 * (d + 1) = iid + 20 + 20 * d := by omega
          have holds :=
            inductionHypothesis (nextDll importVaddr cursor iid first)
              (iid + 20)
              (dllReady_nextDll ready (by omega) (by omega) (by omega))
              (by omega) (by omega) (by omega) (by omega) d dll isDll
          have sameStrings :
              cursor.c + (first.1.length + 1 + functionsSize first.2) +
                  stringsSize (rest.take d) =
                cursor.c + stringsSize ((first :: rest).take (d + 1)) := by
            rw [stringsBefore]
            omega
          rw [iat, int, c, Nat.add_assoc cursor.iat,
            Nat.add_assoc cursor.int, ← Nat.mul_add, sameStrings] at holds
          rw [place, thunksBefore]
          exact holds

/-! ## In front of the last loop -/

/-- The descriptors with the address of the import data. -/
theorem writeDescriptors_spec
    (importVaddr : U32) (data : Bytes) (iid : Nat)
    (imports : List (CString × List CString)) :
    (writeDescriptors importVaddr data iid imports).2 =
        iid + 20 * imports.length ∧
      (∀ q, q < iid ∨ iid + 20 * imports.length ≤ q →
        (writeDescriptors importVaddr data iid imports).1 q = data q) ∧
      ∀ d < imports.length,
        let written := (writeDescriptors importVaddr data iid imports).1
        loadWord 4 written (iid + 20 * d) = importVaddr.toNat ∧
          loadWord 4 written (iid + 20 * d + 4) = 0 ∧
          loadWord 4 written (iid + 20 * d + 8) = 0 ∧
          loadWord 4 written (iid + 20 * d + 12) = importVaddr.toNat ∧
          loadWord 4 written (iid + 20 * d + 16) = importVaddr.toNat := by
  have wordFits : importVaddr.toNat % 256 ^ 4 = importVaddr.toNat :=
    Nat.mod_eq_of_lt (BitVec.isLt _)
  have apart :
      ∀ {place offset : Nat},
        place + 4 ≤ offset ∨ offset + 4 ≤ place →
          ∀ (buffer : Bytes) (value : Nat),
            loadWord 4 (storeWord 4 buffer offset value) place =
              loadWord 4 buffer place :=
    loadWord_storeWord_of_apart
  induction imports generalizing data iid with
  | nil =>
      exact ⟨rfl, fun _ _ => rfl, fun d inRange => absurd inRange (by simp)⟩
  | cons dll rest inductionHypothesis =>
      simp only [writeDescriptors, List.length_cons]
      obtain ⟨ends, kept, filled⟩ :=
        inductionHypothesis
          (storeWord 4
            (storeWord 4
              (storeWord 4
                (storeWord 4 (storeWord 4 data iid importVaddr.toNat)
                  (iid + 4) 0)
                (iid + 8) 0)
              (iid + 12) importVaddr.toNat)
            (iid + 16) importVaddr.toNat)
          (iid + 20)
      refine ⟨by omega, ?_, ?_⟩
      · intro q outside
        rw [kept q (by omega), storeWord_apply_of_outside (by omega),
          storeWord_apply_of_outside (by omega),
          storeWord_apply_of_outside (by omega),
          storeWord_apply_of_outside (by omega),
          storeWord_apply_of_outside (by omega)]
      · intro d inRange
        cases d with
        | zero =>
            simp only [Nat.mul_zero, Nat.add_zero]
            refine ⟨?_, ?_, ?_, ?_, ?_⟩ <;>
              rw [loadWord_congr fun q _ toEnd =>
                kept q (Or.inl (by omega))]
            · rw [apart (by omega), apart (by omega), apart (by omega),
                apart (by omega), loadWord_storeWord, wordFits]
            · rw [apart (by omega), apart (by omega), apart (by omega),
                loadWord_storeWord]
              rfl
            · rw [apart (by omega), apart (by omega), loadWord_storeWord]
              rfl
            · rw [apart (by omega), loadWord_storeWord, wordFits]
            · rw [loadWord_storeWord, wordFits]
        | succ d =>
            have place : iid + 20 * (d + 1) = iid + 20 + 20 * d := by omega
            rw [place]
            exact filled d (by omega)

/-- The thunks of one DLL are filled, and nothing else is touched. -/
theorem iterateFunctions_spec
    (vaddr : U32) (data : Bytes) (iant : Nat) (names : List CString) :
    (iterateFunctions vaddr data iant names).2 = iant + 8 * names.length ∧
      (∀ position,
        position < iant ∨ iant + 8 * names.length ≤ position →
          (iterateFunctions vaddr data iant names).1 position =
            data position) ∧
        ∀ j < names.length,
          loadWord 8 (iterateFunctions vaddr data iant names).1
              (iant + 8 * j) =
            vaddr.toNat := by
  have wordFits : vaddr.toNat % 256 ^ 8 = vaddr.toNat := by
    apply Nat.mod_eq_of_lt
    have := vaddr.isLt
    omega
  induction names generalizing data iant with
  | nil => exact ⟨rfl, fun _ _ => rfl, fun j absent => absurd absent (by simp)⟩
  | cons name rest inductionHypothesis =>
      simp only [iterateFunctions, List.length_cons]
      obtain ⟨ends, kept, filled⟩ :=
        inductionHypothesis (storeWord 8 data iant vaddr.toNat) (iant + 8)
      refine ⟨by omega, ?_, ?_⟩
      · intro position outside
        rw [kept position (by omega),
          storeWord_apply_of_outside (by omega)]
      · intro j inRange
        cases j with
        | zero =>
            rw [loadWord_congr fun position _ below =>
                kept position (Or.inl (by omega)),
              Nat.mul_zero, Nat.add_zero, loadWord_storeWord, wordFits]
        | succ j =>
            have place : iant + 8 * (j + 1) = iant + 8 + 8 * j := by omega
            rw [place]
            exact filled j (by omega)

/-- `iterate_import` fills the thunks of all DLLs. -/
theorem iterateImport_spec
    (vaddr : U32) (data : Bytes) (iant : Nat)
    (imports : List (CString × List CString)) :
    (iterateImport vaddr data iant imports).2 =
        iant + 8 * thunkCount imports ∧
      (∀ q,
        q < iant ∨ iant + 8 * thunkCount imports ≤ q ∨
            IsEnd imports iant q →
          (iterateImport vaddr data iant imports).1 q = data q) ∧
        ∀ d dll, imports[d]? = some dll → ∀ j < dll.2.length,
          loadWord 8 (iterateImport vaddr data iant imports).1
              (iant + 8 * thunkCount (imports.take d) + 8 * j) =
            vaddr.toNat := by
  induction imports generalizing data iant with
  | nil =>
      refine ⟨rfl, fun _ _ => rfl, fun d dll isDll => ?_⟩
      cases isDll
  | cons first rest inductionHypothesis =>
      obtain ⟨ends, kept, filled⟩ :=
        iterateFunctions_spec vaddr data iant first.2
      obtain ⟨restEnds, restKept, restFilled⟩ :=
        inductionHypothesis
          (iterateFunctions vaddr data iant first.2).1
          ((iterateFunctions vaddr data iant first.2).2 + 8)
      have place :
          iant + 8 * first.2.length + 8 =
            iant + 8 * (first.2.length + 1) := by
        omega
      rw [ends, place] at restEnds restKept restFilled
      simp only [iterateImport, thunkCount_cons, ends, place]
      refine ⟨by omega, ?_, ?_⟩
      · intro q outside
        rcases outside with inFront | behind | own | later
        · rw [restKept q (by omega), kept q (by omega)]
        · rw [restKept q (by omega), kept q (by omega)]
        · rw [restKept q (by omega), kept q (by omega)]
        · have := later.inside
          rw [restKept q (.inr (.inr later)), kept q (by omega)]
      · intro d dll isDll j inRange
        cases d with
        | zero =>
            cases isDll
            have isStart : thunkCount ((first :: rest).take 0) = 0 := rfl
            rw [isStart, Nat.mul_zero, Nat.add_zero,
              loadWord_congr fun q _ below => restKept q (.inl (by omega))]
            exact filled j inRange
        | succ d =>
            have isPlace :
                iant + 8 * thunkCount ((first :: rest).take (d + 1)) =
                  iant + 8 * (first.2.length + 1) +
                    8 * thunkCount (rest.take d) := by
              rw [List.take_succ_cons, thunkCount_cons]
              omega
            rw [isPlace]
            exact restFilled d dll isDll j inRange

/-! ## The loops together -/

/-- Where the loops of `add_import` begin and what the last one leaves. -/
structure ImportRun where
  iat : Nat
  int : Nat
  c : Nat
  last : Cursor

/-- Where `add_import` puts the import data. -/
def Config.importVaddr (config : Config) : U32 :=
  config.virtualAddressOffset +
    (config.pltOffset - config.virtualAddressOffset)

theorem Config.importVaddr_eq (config : Config) :
    config.importVaddr = config.pltOffset := by
  rw [Config.importVaddr]
  bv_omega

/-- The loops of `add_import`. -/
def importRun (config : Config) (plt data : Bytes) : ImportRun :=
  let imports := config.initialImport
  let described := writeDescriptors config.importVaddr data 0 imports
  let iat := described.2 + 20
  let addresses := iterateImport config.importVaddr described.1 iat imports
  let names :=
    iterateImport config.importVaddr addresses.1 addresses.2 imports
  { iat := iat
    int := addresses.2
    c := names.2
    last :=
      emitDlls config.importVaddr
        ⟨names.1, plt, 0, config.virtualAddressOffset, iat, addresses.2,
          names.2⟩
        0 imports }

/-- `add_import` keeps what its loops leave. -/
theorem addImport_eq (config : Config) (plt data : Bytes) :
    addImport config plt data =
      if config.importDirectoryLen = 0 then
        none
      else
        some
          ⟨config.virtualAddressOffset, (importRun config plt data).last.plt,
            config.importVaddr, (importRun config plt data).last.data,
            config.initialImport.length⟩ :=
  rfl

/-- The positions of the tables and of the strings. -/
theorem importRun_positions (config : Config) (plt data : Bytes) :
    let run := importRun config plt data
    run.iat = 20 * (config.initialImport.length + 1) ∧
      run.int = run.iat + 8 * thunkCount config.initialImport ∧
      run.c = run.int + 8 * thunkCount config.initialImport ∧
      run.last.c = importDataSize config.initialImport := by
  obtain ⟨ends, _, _⟩ :=
    writeDescriptors_spec config.importVaddr data 0 config.initialImport
  have isIat :
      (importRun config plt data).iat =
        20 * (config.initialImport.length + 1) := by
    unfold importRun
    dsimp only
    omega
  have isInt :
      (importRun config plt data).int =
        (importRun config plt data).iat +
          8 * thunkCount config.initialImport :=
    (iterateImport_spec _ _ _ _).1
  have isC :
      (importRun config plt data).c =
        (importRun config plt data).int +
          8 * thunkCount config.initialImport :=
    (iterateImport_spec _ _ _ _).1
  have isEnd :
      (importRun config plt data).last.c =
        (importRun config plt data).c + stringsSize config.initialImport :=
    emitDlls_c _ _ _ _
  refine ⟨isIat, isInt, isC, ?_⟩
  unfold importDataSize
  omega

/-- The descriptors and thunks in front of the last loop. -/
theorem importRun_ready
    (config : Config) (plt data : Bytes) :
    ∃ filled,
      (importRun config plt data).last =
          emitDlls config.importVaddr filled 0 config.initialImport ∧
        filled.iat = (importRun config plt data).iat ∧
        filled.int = (importRun config plt data).int ∧
        filled.c = (importRun config plt data).c ∧
        filled.pltp = 0 ∧ filled.pltVaddr = config.virtualAddressOffset ∧
        (∀ q,
          (20 * config.initialImport.length ≤ q ∧
                q < 20 * (config.initialImport.length + 1) ∨
              IsEnd config.initialImport filled.iat q ∨
              IsEnd config.initialImport filled.int q ∨ filled.c ≤ q) →
            filled.data q = data q) ∧
        ∀ d dll, config.initialImport[d]? = some dll →
          DllReady filled.data config.importVaddr.toNat (0 + 20 * d)
            (filled.iat + 8 * thunkCount (config.initialImport.take d))
            (filled.int + 8 * thunkCount (config.initialImport.take d))
            dll.2.length := by
  obtain ⟨isIat, isInt, isC, _⟩ := importRun_positions config plt data
  refine ⟨_, rfl, rfl, rfl, rfl, rfl, rfl, ?_⟩
  obtain ⟨_, written, words⟩ :=
    writeDescriptors_spec config.importVaddr data 0 config.initialImport
  unfold importRun at isIat isInt isC
  dsimp only at isIat isInt isC ⊢
  generalize
    writeDescriptors config.importVaddr data 0 config.initialImport =
      described
    at isIat isInt isC written words ⊢
  obtain ⟨withWords, iid⟩ := described
  dsimp only at isIat isInt isC written words ⊢
  obtain ⟨_, addressesKept, addressThunks⟩ :=
    iterateImport_spec config.importVaddr withWords (iid + 20)
      config.initialImport
  generalize
    iterateImport config.importVaddr withWords (iid + 20)
      config.initialImport = addresses
    at isInt isC addressesKept addressThunks ⊢
  obtain ⟨withAddresses, int⟩ := addresses
  dsimp only at isInt isC addressesKept addressThunks ⊢
  obtain ⟨_, lookupsKept, lookupThunks⟩ :=
    iterateImport_spec config.importVaddr withAddresses int
      config.initialImport
  generalize
    iterateImport config.importVaddr withAddresses int
      config.initialImport = lookups
    at isC lookupsKept lookupThunks ⊢
  obtain ⟨withLookups, c⟩ := lookups
  dsimp only at isC lookupsKept lookupThunks ⊢
  refine ⟨?_, ?_⟩
  · intro q outside
    rcases outside with terminator | isEnd | isEnd | behind
    · rw [lookupsKept q (by omega), addressesKept q (by omega)]
      exact written q (by omega)
    · have := isEnd.inside
      rw [lookupsKept q (by omega), addressesKept q (.inr (.inr isEnd))]
      exact written q (by omega)
    · have := isEnd.inside
      rw [lookupsKept q (.inr (.inr isEnd)), addressesKept q (by omega)]
      exact written q (by omega)
    · rw [lookupsKept q (by omega), addressesKept q (by omega)]
      exact written q (by omega)
  · intro d dll isDll
    have inRange := (List.getElem?_eq_some_iff.mp isDll).1
    have inTables :
        thunkCount (config.initialImport.take d) + (dll.2.length + 1) ≤
          thunkCount config.initialImport :=
      ConsecutiveRanges.sum_map_take_add_le isDll _
    obtain ⟨originalFirstThunk, timeDateStamp, forwarderChain, name,
      firstThunk⟩ := words d inRange
    have words4 :
        ∀ place, place + 4 ≤ iid + 20 →
          loadWord 4 withLookups place = loadWord 4 withWords place :=
      fun place inFront =>
        loadWord_congr fun q _ toEnd =>
          (lookupsKept q (by omega)).trans (addressesKept q (by omega))
    have words8 :
        ∀ place, place + 8 ≤ int →
          loadWord 8 withLookups place = loadWord 8 withAddresses place :=
      fun place inFront =>
        loadWord_congr fun q _ toEnd => lookupsKept q (by omega)
    exact
      { originalFirstThunk := (words4 _ (by omega)).trans originalFirstThunk
        timeDateStamp := (words4 _ (by omega)).trans timeDateStamp
        forwarderChain := (words4 _ (by omega)).trans forwarderChain
        name := (words4 _ (by omega)).trans name
        firstThunk := (words4 _ (by omega)).trans firstThunk
        addresses := fun j inThunks =>
          (words8 _ (by omega)).trans (addressThunks d dll isDll j inThunks)
        lookups := lookupThunks d dll isDll }

/-! ## The imports -/

/-- The thunk leads to a hint and name entry that spells the function. -/
structure Spells
    (data : Bytes) (importVaddr : U32) (slot hint : Nat) (name : CString) :
    Prop where
  thunk : loadWord 8 data slot = importVaddr.toNat + hint
  spelled : StringAt data (hint + 2) name

/-- The descriptor of the DLL covers the slot with its thunk array. -/
structure Describes
    (data : Bytes) (importVaddr : U32) (iid slot first string : Nat)
    (dll : CString) : Prop where
  firstThunk : loadWord 4 data (iid + 16) = importVaddr.toNat + first
  name : loadWord 4 data (iid + 12) = importVaddr.toNat + string
  spelled : StringAt data string dll
  below : first ≤ slot
  thunks : ∀ n, first + 8 * n ≤ slot → loadWord 8 data (first + 8 * n) ≠ 0
  whole : (slot - first) % 8 = 0

/-- The entry of a function that is written. -/
theorem FunctionHolds.spells
    {data : Bytes} {importVaddr : U32} {iat int c : Nat} {name : CString}
    (holds : FunctionHolds data importVaddr.toNat iat int c name) :
    Spells data importVaddr iat c name :=
  ⟨holds.address, holds.spelled⟩

/-- The descriptor of a DLL covers the slots of its functions. -/
theorem DllWritten.describes
    {data : Bytes} {importVaddr : U32} {iid iat int c : Nat}
    {dll : CString × List CString}
    (written : DllWritten data importVaddr.toNat iid iat int c dll)
    (iatFits : importVaddr.toNat + iat < 2 ^ 32)
    (nameFits : importVaddr.toNat + c < 2 ^ 32)
    {j : Nat} (inRange : j < dll.2.length) :
    Describes data importVaddr iid (iat + 8 * j) iat c dll.1 where
  firstThunk := written.firstThunk.trans (Nat.mod_eq_of_lt iatFits)
  name := written.name.trans (Nat.mod_eq_of_lt nameFits)
  spelled := written.spelled
  below := Nat.le_add_right _ _
  thunks := by
    intro n toSlot
    have nInRange : n < dll.2.length := by omega
    have isAddress :=
      (written.functions n _ (List.getElem?_eq_getElem nInRange)).address
    rw [isAddress]
    omega
  whole := by omega

/--
What `add_import` leaves behind: the stub of the `i`-th import, DLL by DLL,
jumps through a slot whose entry spells that import's name, and the slot lies
in the thunk array of a descriptor that spells its DLL.
-/
theorem addImport_spec
    (config : Config) (plt data : Bytes)
    (some_ : config.importDirectoryLen ≠ 0)
    (fits :
      config.pltOffset.toNat + importDataSize config.initialImport < 2 ^ 32) :
    ∃ image,
      addImport config plt data = some image ∧
        image.pltVaddr = config.virtualAddressOffset ∧
          image.importVaddr = config.pltOffset ∧
            image.descriptors = config.initialImport.length ∧
        ∀ i entry, (Grouping.flatten config.initialImport)[i]? = some entry →
          ∃ slot d hint first string,
            d < image.descriptors ∧
              image.importVaddr.toNat + slot < 2 ^ 32 ∧
              image.importVaddr.toNat + string < 2 ^ 32 ∧
              JumpsThrough image.plt (6 * i)
                (image.importVaddr + BitVec.ofNat 32 slot -
                  (image.pltVaddr + BitVec.ofNat 32 (6 * (i + 1)))) ∧
              Spells image.data image.importVaddr slot hint entry.2 ∧
              Describes image.data image.importVaddr (20 * d) slot first
                string entry.1 := by
  obtain ⟨isIat, isInt, isC, _⟩ := importRun_positions config plt data
  obtain ⟨filled, isLast, filledIat, filledInt, filledC, isStart, isVaddr, _,
    ready⟩ := importRun_ready config plt data
  have isSize :
      importDataSize config.initialImport =
        20 * (config.initialImport.length + 1) +
          2 * (8 * thunkCount config.initialImport) +
            stringsSize config.initialImport :=
    rfl
  rw [← config.importVaddr_eq] at fits
  refine
    ⟨_, (addImport_eq config plt data).trans (if_neg some_), rfl,
      config.importVaddr_eq, rfl, ?_⟩
  intro i entry isEntry
  obtain ⟨d, dll, j, isDll, isDllName, isName, rfl⟩ :=
    exists_of_flatten isEntry
  have inRange := (List.getElem?_eq_some_iff.mp isDll).1
  have inNames := (List.getElem?_eq_some_iff.mp isName).1
  have inTables :
      thunkCount (config.initialImport.take d) + (dll.2.length + 1) ≤
        thunkCount config.initialImport :=
    ConsecutiveRanges.sum_map_take_add_le isDll _
  have inStrings :
      stringsSize (config.initialImport.take d) +
          (dll.1.length + 1 + functionsSize dll.2) ≤
        stringsSize config.initialImport :=
    ConsecutiveRanges.sum_map_take_add_le isDll _
  have jumps :=
    jumpsThrough_emitDlls config.importVaddr filled 0 config.initialImport d
      dll isDll j inNames
  have written :=
    dllWritten_emitDlls filled 0 ready (by omega) (by omega) (by omega)
      (by omega) d dll isDll
  rw [← isLast, isStart, isVaddr, Nat.zero_add] at jumps
  rw [← isLast, Nat.zero_add] at written
  rw [← isDllName]
  exact
    ⟨_, d, _, _, _, inRange, by dsimp only; omega, by dsimp only; omega, jumps,
      (written.functions j entry.2 isName).spells,
      written.describes (by omega) (by omega) inNames⟩

end BinTools.Coff
