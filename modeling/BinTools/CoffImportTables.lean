import BinTools.CoffImportData
import BinTools.CoffImportSize

namespace BinTools.Coff

open ByteBuffer

/-!
# The tables of the import data

What no loop of `add_import` writes keeps the zero of fresh memory, so every
table has its terminator, and the import data is as long as it was counted.
-/

/-- The descriptor, the name and the thunk tables of a DLL. -/
structure DllHolds
    (data : Bytes) (vaddr iid iat int c : Nat)
    (dll : CString × List CString) : Prop
    extends DllWritten data vaddr iid iat int c dll where
  addressesEnd : loadWord 8 data (iat + 8 * dll.2.length) = 0
  lookupsEnd : loadWord 8 data (int + 8 * dll.2.length) = 0

/--
The import data is as long as it was counted, its tables and strings are apart,
every DLL points to its own parts, all tables are terminated, and nothing is
written behind.
-/
structure ImportDataFits
    (config : Config) (run : ImportRun) (image : ImportSections) : Prop where
  len : config.importDirectoryLen = run.last.c
  apart :
    [(0, 20 * (config.initialImport.length + 1)),
        (run.iat, 8 * thunkCount config.initialImport),
        (run.int, 8 * thunkCount config.initialImport),
        (run.c, stringsSize config.initialImport)].Pairwise fun one two =>
      one.1 + one.2 ≤ two.1
  inside : run.c + stringsSize config.initialImport ≤ run.last.c
  dlls :
    ∀ d dll, config.initialImport[d]? = some dll →
      DllHolds image.data image.importVaddr.toNat (20 * d)
        (run.iat + 8 * thunkCount (config.initialImport.take d))
        (run.int + 8 * thunkCount (config.initialImport.take d))
        (run.c + stringsSize (config.initialImport.take d)) dll
  terminator :
    ∀ q, 20 * config.initialImport.length ≤ q →
      q < 20 * (config.initialImport.length + 1) → image.data q = 0
  behind : ∀ q, run.last.c ≤ q → image.data q = 0

/--
Nothing is imported and counted, or `add_import` fills memory of zeros with
such data.
-/
def ImportDataRight (config : Config) (plt : Bytes) : Prop :=
  config.initialImport = [] ∧ config.importDirectoryLen = 0 ∨
    ∃ image, addImport config plt (fun _ => 0) = some image ∧
      ImportDataFits config (importRun config plt fun _ => 0) image

/-- Import data below 2^31 bytes is laid out as it was counted. -/
theorem Sized.importDataFits
    {config : Config} (sized : Sized config)
    (notEmpty : config.initialImport ≠ [])
    (fits : importDataSize config.initialImport < 2 ^ 31) (plt : Bytes) :
    ∃ image, addImport config plt (fun _ => 0) = some image ∧
      ImportDataFits config (importRun config plt fun _ => 0) image := by
  have isLen := sized.len (by omega)
  have isInt :
      (importDataSize config.initialImport : Int).bmod (2 ^ 32) =
        importDataSize config.initialImport := by
    rw [Int.bmod_def]
    split_ifs <;> omega
  rw [if_neg notEmpty, isInt] at isLen
  have notZero := sized.len_ne_zero notEmpty (by omega)
  obtain ⟨isIat, isIntStart, isC, isEnd⟩ :=
    importRun_positions config plt fun _ => 0
  obtain ⟨filled, isLast, filledIat, filledInt, filledC, _, _, isZero,
    ready⟩ := importRun_ready config plt fun _ => 0
  have isSize : importDataSize config.initialImport =
      20 * (config.initialImport.length + 1) +
        2 * (8 * thunkCount config.initialImport) +
          stringsSize config.initialImport := rfl
  refine
    ⟨_, (addImport_eq config plt _).trans (if_neg notZero),
      { len := by rw [isLen, isEnd]
        apart := ?_
        inside := by omega
        dlls := ?_
        terminator := ?_
        behind := ?_ }⟩
  · simp only [List.pairwise_cons, List.mem_cons, List.not_mem_nil, or_false,
      forall_eq_or_imp, forall_eq, List.Pairwise.nil, and_true,
      IsEmpty.forall_iff, implies_true]
    omega
  · intro d dll isDll
    have written :=
      dllWritten_emitDlls filled 0 ready (by omega) (by omega) (by omega)
        (by omega) d dll isDll
    -- Neither loop writes the terminators.
    have terminated :
        ∀ q,
          (IsEnd config.initialImport filled.iat q ∨
              IsEnd config.initialImport filled.int q) →
            (importRun config plt fun _ => 0).last.data q = 0 := by
      intro q isEnd
      rw [isLast,
        emitDlls_data_of_isEnd filled 0 (by omega) (by omega) (by omega)
          isEnd]
      exact isZero q (.inr (isEnd.imp_right .inl))
    rw [← isLast, Nat.zero_add] at written
    rw [← filledIat, ← filledInt, ← filledC]
    exact
      { toDllWritten := written
        addressesEnd :=
          loadWord_eq_zero fun q fromStart toEnd =>
            terminated q (.inl (isEnd_of_getElem? isDll fromStart toEnd))
        lookupsEnd :=
          loadWord_eq_zero fun q fromStart toEnd =>
            terminated q (.inr (isEnd_of_getElem? isDll fromStart toEnd)) }
  · intro q fromStart toEnd
    dsimp only
    rw [isLast,
      emitDlls_data (Or.inr (by omega)) (Or.inl (by omega))
        (Or.inl (by omega)) (by omega)]
    exact isZero q (.inl ⟨fromStart, toEnd⟩)
  · intro q behind
    dsimp only
    rw [isLast,
      emitDlls_apply_of_behind filled 0 (by omega) (by omega) (by omega)
        (by omega)]
    exact isZero q (.inr (.inr (.inr (by omega))))

/-- Import data that an `int` cannot measure is not as long as counted. -/
theorem ImportDataRight.size_lt
    {config : Config} {plt : Bytes} (right : ImportDataRight config plt)
    (sized : Sized config) :
    importDataSize config.initialImport < 2 ^ 31 := by
  rcases right with ⟨noImports, _⟩ | ⟨image, _, fits⟩
  · rw [noImports]
    decide
  · obtain ⟨_, _, _, isEnd⟩ := importRun_positions config plt fun _ => 0
    have isLen := fits.len
    have isInt := sized.isInt
    omega

/--
For every run of relocations that starts without imports, the import data is
right exactly when it stays below 2^31 bytes.
-/
theorem importDataRight_iff
    (start : Config) (isEmpty : start.initialImport = [])
    (isZero : start.importDirectoryLen = 0) (args : List CallbackArgIn)
    (final : Config) (isFinal : resolveAll start args = some final)
    (plt : Bytes) :
    ImportDataRight final plt ↔
      importDataSize final.initialImport < 2 ^ 31 := by
  have sized := (sized_start isEmpty isZero).resolveAll isFinal
  refine ⟨fun right => right.size_lt sized, fun fits => ?_⟩
  by_cases noImports : final.initialImport = []
  · exact Or.inl ⟨noImports, sized.len_eq_zero noImports⟩
  · exact Or.inr (sized.importDataFits noImports fits plt)

end BinTools.Coff
