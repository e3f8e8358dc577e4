import BinTools.CoffImport

namespace BinTools.Coff

open ByteBuffer

/-!
# Where `add_import` writes

The emission loop advances four positions: in the stubs, in the two thunk
tables and in the strings.  A round only writes at those positions and into
its own descriptor, so what earlier rounds wrote stays.
-/

/-- Adding to a word. -/
theorem loadWord_addWord (width : Nat) (buffer : Bytes) (offset value : Nat) :
    loadWord width (addWord width buffer offset value) offset =
      (loadWord width buffer offset + value) % 256 ^ width :=
  loadWord_storeWord _ _ _

/-- Adding to a word leaves the bytes around it alone. -/
theorem addWord_apply_of_outside
    {width offset value position : Nat} {buffer : Bytes}
    (outside : position < offset ∨ offset + width ≤ position) :
    addWord width buffer offset value position = buffer position :=
  storeWord_apply_of_outside outside

/-- A copied string can be read. -/
theorem stringAt_strcpy (buffer : Bytes) (offset : Nat) (string : CString) :
    StringAt (strcpy buffer offset string) offset string := by
  have readBack :=
    load_store buffer offset (string.bytes ++ [0])
  rwa [List.length_append, List.length_singleton] at readBack

/-- Copying a string leaves the bytes around it alone. -/
theorem strcpy_apply_of_outside
    {offset position : Nat} {buffer : Bytes} {string : CString}
    (outside :
      position < offset ∨ offset + (string.length + 1) ≤ position) :
    strcpy buffer offset string position = buffer position := by
  apply store_apply_of_outside
  simpa [CString.length] using outside

/-- A string is read alike from buffers that agree on it. -/
theorem StringAt.congr
    {buffer later : Bytes} {offset : Nat} {string : CString}
    (here : StringAt buffer offset string)
    (agree :
      ∀ position, offset ≤ position →
        position < offset + (string.length + 1) →
          later position = buffer position) :
    StringAt later offset string := by
  rw [StringAt, load_congr agree]
  exact here

/-- One place holds one string. -/
theorem StringAt.unique
    {buffer : Bytes} {offset : Nat} {first second : CString}
    (firstHere : StringAt buffer offset first)
    (secondHere : StringAt buffer offset second) :
    first = second := by
  have byteOf :
      ∀ {string : CString}, StringAt buffer offset string →
        ∀ position (inRange : position < string.length + 1),
          (string.bytes ++ [0])[position]? =
            some (buffer (offset + position)) := by
    intro string here position inRange
    rw [← here]
    simp [load, inRange]
  have notShorter :
      ∀ {short long : CString}, StringAt buffer offset short →
        StringAt buffer offset long → ¬ short.length < long.length := by
    intro short long shortHere longHere shorter
    have terminator := byteOf shortHere short.length (by omega)
    have inside := byteOf longHere short.length (by omega)
    have isZero : (short.bytes ++ [0])[short.length]? = some 0 :=
      List.getElem?_concat_length
    rw [← terminator, isZero, List.getElem?_append_left shorter] at inside
    exact long.noNul (List.mem_of_getElem? inside)
  have sameLength : first.length = second.length := by
    have upper := notShorter firstHere secondHere
    have lower := notShorter secondHere firstHere
    omega
  rw [StringAt, sameLength] at firstHere
  exact
    CString.eq_of_bytes_eq
      (List.append_cancel_right (firstHere.symm.trans secondHere))

/-- The string bytes that the functions of one DLL take. -/
def functionsSize (names : List CString) : Nat :=
  (names.map fun name => 2 + name.length + 1).sum

/-- The string bytes of all DLLs and their functions. -/
def stringsSize (imports : List (CString × List CString)) : Nat :=
  (imports.map fun dll => dll.1.length + 1 + functionsSize dll.2).sum

/-- The number of thunks of all DLLs, each with its terminator. -/
def thunkCount (imports : List (CString × List CString)) : Nat :=
  (imports.map fun dll => dll.2.length + 1).sum

/-- The bytes of the import data. -/
def importDataSize (imports : List (CString × List CString)) : Nat :=
  20 * (imports.length + 1) + 2 * (8 * thunkCount imports) +
    stringsSize imports

/-- The thunks of the first DLL and of the others. -/
theorem thunkCount_cons
    (dll : CString × List CString) (rest : List (CString × List CString)) :
    thunkCount (dll :: rest) = dll.2.length + 1 + thunkCount rest :=
  rfl

/-- The strings of the first DLL and of the others. -/
theorem stringsSize_cons
    (dll : CString × List CString) (rest : List (CString × List CString)) :
    stringsSize (dll :: rest) =
      dll.1.length + 1 + functionsSize dll.2 + stringsSize rest :=
  rfl

section Advance

variable (importVaddr : U32) (cursor : Cursor) (name : CString)

@[simp]
theorem emitFunction_pltp :
    (emitFunction importVaddr cursor name).pltp = cursor.pltp + 6 :=
  rfl

@[simp]
theorem emitFunction_pltVaddr :
    (emitFunction importVaddr cursor name).pltVaddr = cursor.pltVaddr + 6 :=
  rfl

@[simp]
theorem emitFunction_iat :
    (emitFunction importVaddr cursor name).iat = cursor.iat + 8 :=
  rfl

@[simp]
theorem emitFunction_int :
    (emitFunction importVaddr cursor name).int = cursor.int + 8 :=
  rfl

@[simp]
theorem emitFunction_c :
    (emitFunction importVaddr cursor name).c =
      cursor.c + (2 + name.length + 1) := by
  simp only [emitFunction]
  omega

end Advance

/-- Where the cursors stand after the functions of a DLL. -/
theorem emitFunctions_cursor
    (importVaddr : U32) (cursor : Cursor) (names : List CString) :
    let final := names.foldl (emitFunction importVaddr) cursor
    final.pltp = cursor.pltp + 6 * names.length ∧
      final.pltVaddr =
          cursor.pltVaddr + BitVec.ofNat 32 (6 * names.length) ∧
      final.iat = cursor.iat + 8 * names.length ∧
      final.int = cursor.int + 8 * names.length ∧
      final.c = cursor.c + functionsSize names := by
  induction names generalizing cursor with
  | nil => simp [functionsSize]
  | cons name rest inductionHypothesis =>
      obtain ⟨pltp, pltVaddr, iat, int, c⟩ :=
        inductionHypothesis (emitFunction importVaddr cursor name)
      simp only [List.foldl_cons, List.length_cons, functionsSize,
        List.map_cons, List.sum_cons] at pltp pltVaddr iat int c ⊢
      refine ⟨?_, ?_, ?_, ?_, ?_⟩
      · rw [pltp, emitFunction_pltp]
        omega
      · rw [pltVaddr, emitFunction_pltVaddr]
        bv_omega
      · rw [iat, emitFunction_iat]
        omega
      · rw [int, emitFunction_int]
        omega
      · rw [c, emitFunction_c, Nat.add_assoc]

/-- One function only writes its thunks and behind the strings. -/
theorem emitFunction_data
    {importVaddr : U32} {cursor : Cursor} {name : CString} {position : Nat}
    (offIat : position < cursor.iat ∨ cursor.iat + 8 ≤ position)
    (offInt : position < cursor.int ∨ cursor.int + 8 ≤ position)
    (offStrings : position < cursor.c) :
    (emitFunction importVaddr cursor name).data position =
      cursor.data position := by
  simp only [emitFunction]
  rw [strcpy_apply_of_outside (Or.inl (by omega)),
    storeWord_apply_of_outside (Or.inl offStrings),
    addWord_apply_of_outside offInt, addWord_apply_of_outside offIat]

/-- One function only writes its own stub. -/
theorem emitFunction_plt
    {importVaddr : U32} {cursor : Cursor} {name : CString} {position : Nat}
    (before : position < cursor.pltp) :
    (emitFunction importVaddr cursor name).plt position =
      cursor.plt position := by
  simp only [emitFunction]
  rw [storeWord_apply_of_outside (Or.inl (by omega)),
    storeWord_apply_of_outside (Or.inl before)]

/-- The functions of a DLL only write their thunks and behind the strings. -/
theorem emitFunctions_data
    {importVaddr : U32} (cursor : Cursor) {names : List CString}
    {position : Nat}
    (offIat :
      position < cursor.iat ∨ cursor.iat + 8 * names.length ≤ position)
    (offInt :
      position < cursor.int ∨ cursor.int + 8 * names.length ≤ position)
    (offStrings : position < cursor.c) :
    (names.foldl (emitFunction importVaddr) cursor).data position =
      cursor.data position := by
  induction names generalizing cursor with
  | nil => rfl
  | cons name rest inductionHypothesis =>
      rw [List.length_cons] at offIat offInt
      rw [List.foldl_cons, inductionHypothesis]
      · exact emitFunction_data (by omega) (by omega) offStrings
      · rw [emitFunction_iat]
        omega
      · rw [emitFunction_int]
        omega
      · rw [emitFunction_c]
        omega

/-- The functions of a DLL only write their own stubs. -/
theorem emitFunctions_plt
    {importVaddr : U32} {cursor : Cursor} {names : List CString}
    {position : Nat}
    (before : position < cursor.pltp) :
    (names.foldl (emitFunction importVaddr) cursor).plt position =
      cursor.plt position := by
  induction names generalizing cursor with
  | nil => rfl
  | cons name rest inductionHypothesis =>
      rw [List.foldl_cons, inductionHypothesis]
      · exact emitFunction_plt before
      · rw [emitFunction_pltp]
        omega

/-- A descriptor is filled in within its 20 bytes and behind the strings. -/
theorem emitDescriptor_data
    {cursor : Cursor} {iid position : Nat} {dllname : CString}
    (offDescriptor : position < iid ∨ iid + 20 ≤ position)
    (offStrings : position < cursor.c) :
    (emitDescriptor cursor iid dllname).data position =
      cursor.data position := by
  simp only [emitDescriptor]
  rw [addWord_apply_of_outside (by omega),
    strcpy_apply_of_outside (Or.inl offStrings),
    addWord_apply_of_outside (by omega), addWord_apply_of_outside (by omega)]

/-- The cursor from which the next DLL is emitted. -/
def nextDll
    (importVaddr : U32) (cursor : Cursor) (iid : Nat)
    (dll : CString × List CString) : Cursor :=
  let cursor :=
    dll.2.foldl (emitFunction importVaddr) (emitDescriptor cursor iid dll.1)
  { cursor with iat := cursor.iat + 8, int := cursor.int + 8 }

/-- Emitting a DLL and going on. -/
theorem emitDlls_cons
    (importVaddr : U32) (cursor : Cursor) (iid : Nat)
    (dll : CString × List CString) (rest : List (CString × List CString)) :
    emitDlls importVaddr cursor iid (dll :: rest) =
      emitDlls importVaddr (nextDll importVaddr cursor iid dll) (iid + 20)
        rest :=
  rfl

/-- Where the cursors stand after a DLL. -/
theorem nextDll_cursor
    (importVaddr : U32) (cursor : Cursor) (iid : Nat)
    (dll : CString × List CString) :
    let next := nextDll importVaddr cursor iid dll
    next.pltp = cursor.pltp + 6 * dll.2.length ∧
      next.pltVaddr =
          cursor.pltVaddr + BitVec.ofNat 32 (6 * dll.2.length) ∧
      next.iat = cursor.iat + 8 * (dll.2.length + 1) ∧
      next.int = cursor.int + 8 * (dll.2.length + 1) ∧
      next.c = cursor.c + (dll.1.length + 1 + functionsSize dll.2) := by
  obtain ⟨pltp, pltVaddr, iat, int, c⟩ :=
    emitFunctions_cursor importVaddr (emitDescriptor cursor iid dll.1) dll.2
  have sameIat : (emitDescriptor cursor iid dll.1).iat = cursor.iat := rfl
  have sameInt : (emitDescriptor cursor iid dll.1).int = cursor.int := rfl
  have named :
      (emitDescriptor cursor iid dll.1).c = cursor.c + dll.1.length + 1 := rfl
  refine ⟨pltp, pltVaddr, ?_, ?_, ?_⟩
  · simp only [nextDll]
    rw [iat, sameIat]
    omega
  · simp only [nextDll]
    rw [int, sameInt]
    omega
  · simp only [nextDll]
    rw [c, named]
    omega

/-- A DLL is written to its descriptor, its thunks and behind the strings. -/
theorem nextDll_data
    {importVaddr : U32} {cursor : Cursor} {iid position : Nat}
    {dll : CString × List CString}
    (offDescriptor : position < iid ∨ iid + 20 ≤ position)
    (offIat :
      position < cursor.iat ∨ cursor.iat + 8 * dll.2.length ≤ position)
    (offInt :
      position < cursor.int ∨ cursor.int + 8 * dll.2.length ≤ position)
    (offStrings : position < cursor.c) :
    (nextDll importVaddr cursor iid dll).data position =
      cursor.data position := by
  have strings : position < (emitDescriptor cursor iid dll.1).c := by
    simp only [emitDescriptor]
    omega
  exact
    (emitFunctions_data (emitDescriptor cursor iid dll.1)
        offIat offInt strings).trans
      (emitDescriptor_data offDescriptor offStrings)

/-- The remaining DLLs leave the stubs emitted so far alone. -/
theorem emitDlls_plt
    {importVaddr : U32} {cursor : Cursor} {iid position : Nat}
    {imports : List (CString × List CString)}
    (before : position < cursor.pltp) :
    (emitDlls importVaddr cursor iid imports).plt position =
      cursor.plt position := by
  induction imports generalizing cursor iid with
  | nil => rfl
  | cons dll rest inductionHypothesis =>
      obtain ⟨pltp, _⟩ := nextDll_cursor importVaddr cursor iid dll
      rw [emitDlls_cons, inductionHypothesis (by omega)]
      exact emitFunctions_plt before

/-- The remaining DLLs only write their own part of the import data. -/
theorem emitDlls_data
    {importVaddr : U32} {cursor : Cursor} {iid position : Nat}
    {imports : List (CString × List CString)}
    (offDescriptors :
      position < iid ∨ iid + 20 * imports.length ≤ position)
    (offIat :
      position < cursor.iat ∨
        cursor.iat + 8 * thunkCount imports ≤ position)
    (offInt :
      position < cursor.int ∨
        cursor.int + 8 * thunkCount imports ≤ position)
    (offStrings : position < cursor.c) :
    (emitDlls importVaddr cursor iid imports).data position =
      cursor.data position := by
  induction imports generalizing cursor iid with
  | nil => rfl
  | cons dll rest inductionHypothesis =>
      obtain ⟨_, _, iat, int, c⟩ := nextDll_cursor importVaddr cursor iid dll
      rw [List.length_cons] at offDescriptors
      rw [thunkCount_cons] at offIat offInt
      rw [emitDlls_cons,
        inductionHypothesis (by omega) (by omega) (by omega) (by omega)]
      exact nextDll_data (by omega) (by omega) (by omega) offStrings

/-- The place is in a terminator of a thunk table that begins at the start. -/
def IsEnd : List (CString × List CString) → Nat → Nat → Prop
  | [], _, _ => False
  | dll :: rest, start, q =>
      start + 8 * dll.2.length ≤ q ∧ q < start + 8 * (dll.2.length + 1) ∨
        IsEnd rest (start + 8 * (dll.2.length + 1)) q

/-- A terminator is in its table. -/
theorem IsEnd.inside
    {imports : List (CString × List CString)} {start q : Nat}
    (isEnd : IsEnd imports start q) :
    start ≤ q ∧ q < start + 8 * thunkCount imports := by
  induction imports generalizing start with
  | nil => cases isEnd
  | cons dll rest inductionHypothesis =>
      rw [thunkCount_cons]
      cases isEnd with
      | inl own => omega
      | inr later =>
          have := inductionHypothesis later
          omega

/-- A terminator is behind the thunks of its DLL. -/
theorem isEnd_of_getElem?
    {imports : List (CString × List CString)} {start d q : Nat}
    {dll : CString × List CString} (isDll : imports[d]? = some dll)
    (fromStart :
      start + 8 * thunkCount (imports.take d) + 8 * dll.2.length ≤ q)
    (toEnd :
      q < start + 8 * thunkCount (imports.take d) + 8 * dll.2.length + 8) :
    IsEnd imports start q := by
  induction imports generalizing start d with
  | nil => cases isDll
  | cons first rest inductionHypothesis =>
      cases d with
      | zero =>
          cases isDll
          have isStart : thunkCount ((dll :: rest).take 0) = 0 := rfl
          rw [isStart] at fromStart toEnd
          exact .inl (by omega)
      | succ d =>
          rw [List.take_succ_cons, thunkCount_cons] at fromStart toEnd
          exact .inr (inductionHypothesis isDll (by omega) (by omega))

/-- No DLL writes a terminator. -/
theorem emitDlls_data_of_isEnd
    {importVaddr : U32} (cursor : Cursor) (iid : Nat)
    {imports : List (CString × List CString)}
    (iidBelow : iid + 20 * imports.length ≤ cursor.iat)
    (iatBelow : cursor.iat + 8 * thunkCount imports ≤ cursor.int)
    (intBelow : cursor.int + 8 * thunkCount imports ≤ cursor.c)
    {q : Nat}
    (isEnd : IsEnd imports cursor.iat q ∨ IsEnd imports cursor.int q) :
    (emitDlls importVaddr cursor iid imports).data q = cursor.data q := by
  induction imports generalizing cursor iid with
  | nil => rfl
  | cons first rest inductionHypothesis =>
      obtain ⟨_, _, iat, int, c⟩ := nextDll_cursor importVaddr cursor iid first
      rw [List.length_cons] at iidBelow
      rw [thunkCount_cons] at iatBelow intBelow
      have untouched :
          (q < cursor.iat ∨ cursor.iat + 8 * first.2.length ≤ q) →
            (q < cursor.int ∨ cursor.int + 8 * first.2.length ≤ q) →
              cursor.iat ≤ q → q < cursor.c →
                (nextDll importVaddr cursor iid first).data q =
                  cursor.data q :=
        fun offIat offInt behind inFront =>
          nextDll_data (Or.inr (by omega)) offIat offInt inFront
      have notOwn :
          (cursor.iat + 8 * first.2.length ≤ q ∧
                q < cursor.iat + 8 * (first.2.length + 1) ∨
              cursor.int + 8 * first.2.length ≤ q ∧
                q < cursor.int + 8 * (first.2.length + 1)) →
            (emitDlls importVaddr (nextDll importVaddr cursor iid first)
                (iid + 20) rest).data q =
              cursor.data q := by
        intro own
        rw [emitDlls_data (by omega) (by omega) (by omega) (by omega)]
        exact untouched (by omega) (by omega) (by omega) (by omega)
      have notLater :
          (IsEnd rest (cursor.iat + 8 * (first.2.length + 1)) q ∨
              IsEnd rest (cursor.int + 8 * (first.2.length + 1)) q) →
            (emitDlls importVaddr (nextDll importVaddr cursor iid first)
                (iid + 20) rest).data q =
              cursor.data q := by
        intro later
        have inside :
            (cursor.iat + 8 * (first.2.length + 1) ≤ q ∧
                q < cursor.int) ∨
              (cursor.int + 8 * (first.2.length + 1) ≤ q ∧
                q < cursor.c) := by
          cases later with
          | inl inIat =>
              have := inIat.inside
              omega
          | inr inInt =>
              have := inInt.inside
              omega
        rw [← iat, ← int] at later
        rw [inductionHypothesis _ _ (by omega) (by omega) (by omega) later]
        exact untouched (by omega) (by omega) (by omega) (by omega)
      rw [emitDlls_cons]
      rcases isEnd with (own | later) | (own | later)
      · exact notOwn (.inl own)
      · exact notLater (.inl later)
      · exact notOwn (.inr own)
      · exact notLater (.inr later)

/-- Nothing is written behind the strings. -/
theorem emitDlls_apply_of_behind
    {importVaddr : U32} (cursor : Cursor) (iid : Nat)
    {imports : List (CString × List CString)}
    (iidBelow : iid + 20 * imports.length ≤ cursor.c)
    (iatBelow : cursor.iat + 8 * thunkCount imports ≤ cursor.c)
    (intBelow : cursor.int + 8 * thunkCount imports ≤ cursor.c)
    {q : Nat} (behind : cursor.c + stringsSize imports ≤ q) :
    (emitDlls importVaddr cursor iid imports).data q = cursor.data q := by
  have functions :
      ∀ (names : List CString) (cursor : Cursor),
        cursor.iat + 8 * names.length ≤ cursor.c →
          cursor.int + 8 * names.length ≤ cursor.c →
            cursor.c + functionsSize names ≤ q →
              (names.foldl (emitFunction importVaddr) cursor).data q =
                cursor.data q := by
    intro names
    induction names with
    | nil => exact fun cursor _ _ _ => rfl
    | cons name rest inductionHypothesis =>
        intro cursor iatBelow intBelow behind
        have isSize :
            functionsSize (name :: rest) =
              2 + name.length + 1 + functionsSize rest := rfl
        rw [List.length_cons] at iatBelow intBelow
        rw [isSize] at behind
        rw [List.foldl_cons, inductionHypothesis]
        · simp only [emitFunction]
          rw [strcpy_apply_of_outside (by omega),
            storeWord_apply_of_outside (by omega),
            addWord_apply_of_outside (by omega),
            addWord_apply_of_outside (by omega)]
        · rw [emitFunction_iat, emitFunction_c]
          omega
        · rw [emitFunction_int, emitFunction_c]
          omega
        · rw [emitFunction_c]
          omega
  induction imports generalizing cursor iid with
  | nil => rfl
  | cons first rest inductionHypothesis =>
      obtain ⟨_, _, iat, int, c⟩ := nextDll_cursor importVaddr cursor iid first
      rw [List.length_cons] at iidBelow
      rw [thunkCount_cons] at iatBelow intBelow
      rw [stringsSize_cons] at behind
      have named :
          (emitDescriptor cursor iid first.1).c =
            cursor.c + first.1.length + 1 := rfl
      have sameIat : (emitDescriptor cursor iid first.1).iat = cursor.iat :=
        rfl
      have sameInt : (emitDescriptor cursor iid first.1).int = cursor.int :=
        rfl
      rw [emitDlls_cons,
        inductionHypothesis _ _ (by omega) (by omega) (by omega) (by omega)]
      refine
        (functions first.2 (emitDescriptor cursor iid first.1) (by omega)
          (by omega) (by omega)).trans ?_
      simp only [emitDescriptor]
      rw [addWord_apply_of_outside (by omega),
        strcpy_apply_of_outside (by omega),
        addWord_apply_of_outside (by omega),
        addWord_apply_of_outside (by omega)]

/-- Where the last loop of `add_import` ends. -/
theorem emitDlls_c
    (importVaddr : U32) (cursor : Cursor) (iid : Nat)
    (imports : List (CString × List CString)) :
    (emitDlls importVaddr cursor iid imports).c =
      cursor.c + stringsSize imports := by
  induction imports generalizing cursor iid with
  | nil => rfl
  | cons first rest inductionHypothesis =>
      obtain ⟨_, _, _, _, c⟩ := nextDll_cursor importVaddr cursor iid first
      rw [emitDlls_cons, inductionHypothesis, c, stringsSize_cons]
      omega

end BinTools.Coff
