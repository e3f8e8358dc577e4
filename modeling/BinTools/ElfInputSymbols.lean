import BinTools.ElfPlacement

namespace BinTools.Elf

/-!
# The symbols of the input files

Which symbols end up on the symbol chains depends on the files alone: those of
each object's last symbol table that have default visibility, belong to a
section and are not section symbols, in command-line order.
-/

/-- The header of an object's symbol table: its last `SHT_SYMTAB` one. -/
def ElfFile.symtab (file : ElfFile) : Option Shdr :=
  (file.sections.filter fun shdr => shdr.shType = shtSymtab).getLast?

/-- The entries of an object's symbol table. -/
def ElfFile.symbols (file : ElfFile) : List Sym :=
  file.symtab.elim [] fun shdr =>
    (List.range (u32 shdr.shSize / sizeofSym)).map shdr.symAt

/-- The symbols that `__z__link__on_elf_symtab_callback_for_link` keeps. -/
def Sym.Defined (sym : Sym) : Prop :=
  sym.stVisibility = stvDefault ∧
    (sym.stShndx ≠ shnUndef ∧ sym.stShndx ≠ shnAbs ∧
      sym.stShndx ≠ shnCommon) ∧
    sym.stType ≠ sttSection

instance (sym : Sym) : Decidable sym.Defined :=
  inferInstanceAs (Decidable (_ ∧ _))

/-- The symbols that an object defines. -/
def ElfFile.definedSymbols (file : ElfFile) : List Sym :=
  file.symbols.filter Sym.Defined

/-- The symbols that the objects define, in command-line order. -/
def definedSymbols (files : List ElfFile) : List Sym :=
  files.flatMap ElfFile.definedSymbols

/-- The symbol that a cell of a symbol chain stands for. -/
def SymbolChain.symbol (cell : SymbolChain) : Sym :=
  { cell.sym with name := cell.name }

/-- The symbols on the chain of an object. -/
def ObjectChain.symbols (oc : ObjectChain) : List Sym :=
  oc.symbolChain.map SymbolChain.symbol

/-- The symbols on the chains of all objects. -/
def Link.symbols (link : Link) : List Sym :=
  link.objects.flatMap ObjectChain.symbols

/-! ## The symbol table that the walk over the headers finds -/

/-- The symbol table that an object chain knows of, so far. -/
structure HasSymtab
    (headers : List Shdr) (oc : ObjectChain) (symtab : Option Shdr) :
    Prop where
  table : (oc.symbolTable.bind fun p => headers[p]?) = symtab
  count : ∀ shdr ∈ symtab, oc.symbolNum = u32 shdr.shSize / sizeofSym
  noSymbols : oc.symbolChain = []

/-- The relocation branch only changes the relocation list. -/
theorem HasSymtab.appendReloc
    {headers : List Shdr} {oc : ObjectChain} {symtab : Option Shdr}
    (has : HasSymtab headers oc symtab)
    (link : Link) (name : CString) (p : Nat) :
    HasSymtab headers (appendReloc link oc name p).2 symtab := by
  unfold Elf.appendReloc
  split
  · exact has
  · dsimp only
    split <;> exact ⟨has.table, has.count, has.noSymbols⟩

/-- One callback replaces the table known so far if it finds another. -/
theorem HasSymtab.onSection
    {headers : List Shdr} {oc : ObjectChain} {symtab : Option Shdr}
    (has : HasSymtab headers oc symtab)
    (link : Link) {p : Nat} {shdr : Shdr}
    (present : headers[p]? = some shdr) :
    ∃ object,
      (onSection link (some oc) p shdr).2 = some object ∧
        HasSymtab headers object
          (if shdr.shType = shtSymtab then some shdr else symtab) := by
  by_cases isSymtab : shdr.shType = shtSymtab
  · refine
      ⟨{ oc with
          symbolNum := u32 shdr.shSize / sizeofSym
          symbolTable := some p }, ?_, ?_⟩
    · simp [Elf.onSection, isSymtab, shtSymtab, shtProgbits]
    · rw [if_pos isSymtab]
      exact
        { table := present
          count := by rintro _ ⟨⟩; rfl
          noSymbols := has.noSymbols }
  · rw [if_neg isSymtab]
    unfold Elf.onSection
    dsimp only
    split_ifs
    · exact ⟨oc, rfl, has⟩
    · exact ⟨_, rfl, has.appendReloc link shdr.name p⟩
    · exact ⟨oc, rfl, has⟩
    · exact ⟨oc, rfl, has⟩
    · exact ⟨oc, rfl, has⟩

/-- The walk ends with the last symbol table it met. -/
theorem HasSymtab.runThroughShdr
    {headers : List Shdr} {oc : ObjectChain} {symtab : Option Shdr}
    (has : HasSymtab headers oc symtab)
    (link : Link) {p : Nat} {sections : List Shdr}
    (present :
      ∀ index shdr, sections[index]? = some shdr →
        headers[p + index]? = some shdr) :
    ∃ object,
      (runThroughShdr link (some oc) p sections).2 = some object ∧
        HasSymtab headers object
          ((sections.filter fun shdr =>
            shdr.shType = shtSymtab).getLast?.or symtab) := by
  induction sections generalizing link oc symtab p with
  | nil => exact ⟨oc, rfl, has⟩
  | cons shdr rest inductionHypothesis =>
      have here : headers[p]? = some shdr := present 0 shdr rfl
      obtain ⟨object, stepped, next⟩ := has.onSection link here
      have laterPresent :
          ∀ index other, rest[index]? = some other →
            headers[p + 1 + index]? = some other := by
        intro index other isOther
        have shifted := present (index + 1) other isOther
        rwa [show p + 1 + index = p + (index + 1) by omega]
      obtain ⟨final, run, last⟩ :=
        inductionHypothesis next
          (Elf.onSection link (some oc) p shdr).1 laterPresent
      refine ⟨final, ?_, ?_⟩
      · rw [Elf.runThroughShdr]
        dsimp only
        rw [stepped]
        exact run
      · by_cases isSymtab : shdr.shType = shtSymtab
        · simpa [isSymtab, List.getLast?_cons] using last
        · simpa [isSymtab] using last

/-- Reading the headers of a file finds its symbol table. -/
theorem readSections_symbolTable (link : Link) (file : ElfFile) :
    ∃ oc,
      (readSections link file).2 = some oc ∧
        oc.symbolChain = [] ∧
        symbolTable (readSections link file).1 oc = file.symbols := by
  obtain ⟨null, rest, split⟩ : ∃ null rest, file.sections = null :: rest := by
    have nullFirst := file.nullFirst
    cases sections : file.sections with
    | nil => simp [sections] at nullFirst
    | cons null rest => exact ⟨null, rest, rfl⟩
  have nullType : null.shType ≠ shtSymtab := by
    have isNull : null.shType = 0 := by simpa [split] using file.nullFirst
    simp [isNull, shtSymtab]
  have initially :
      HasSymtab (link.headers ++ file.sections)
        { sectionHead := link.headers.length } none :=
    ⟨rfl, by simp, rfl⟩
  have present :
      ∀ index shdr, rest[index]? = some shdr →
        (link.headers ++ file.sections)[link.headers.length + 1 + index]? =
          some shdr := by
    intro index shdr here
    rw [List.getElem?_append_right (by omega), split]
    rw [show link.headers.length + 1 + index - link.headers.length =
      index + 1 by omega]
    exact here
  obtain ⟨oc, run, has⟩ :=
    initially.runThroughShdr
      { link with headers := link.headers ++ file.sections } present
  have headers := readSections_headers link file
  refine ⟨oc, ?_, has.noSymbols, ?_⟩
  · simpa [readSections, split, Elf.runThroughShdr, onSection] using run
  · have found : file.symtab = oc.symbolTable.bind fun p =>
        (readSections link file).1.headers[p]? := by
      rw [headers, has.table, ElfFile.symtab, split]
      simp [nullType]
    have counted := has.count
    rw [← has.table, ← headers, ← found] at counted
    unfold symbolTable ElfFile.symbols
    rw [← found]
    cases isSymtab : file.symtab with
    | none => rfl
    | some shdr =>
        rw [isSymtab] at counted
        simp [counted shdr rfl]

/-! ## The symbols that join the chain -/

/-- A symbol joins the chain under its own name, if it is a definition. -/
theorem onSymbol_symbols
    {link : Link} {oc next : ObjectChain} {sym : Sym}
    (stepped : onSymbol link oc sym = some next) :
    next.symbols = oc.symbols ++ [sym].filter Sym.Defined := by
  unfold onSymbol at stepped
  split_ifs at stepped with hidden undef abs common isSection
  all_goals try
    cases stepped
    simp [Sym.Defined, *]
  obtain ⟨shdr, _, stepped⟩ := Option.bind_eq_some_iff.mp stepped
  dsimp only at stepped
  split at stepped
  · cases stepped
    have defined : sym.Defined :=
      ⟨not_not.mp hidden, ⟨undef, abs, common⟩, isSection⟩
    simp [ObjectChain.symbols, SymbolChain.symbol, defined]
  · cases stepped

/-- So do all symbols of a symbol table. -/
theorem foldlM_onSymbol_symbols
    {link : Link} {oc final : ObjectChain} {symbols : List Sym}
    (run : symbols.foldlM (onSymbol link) oc = some final) :
    final.symbols = oc.symbols ++ symbols.filter Sym.Defined := by
  induction symbols generalizing oc with
  | nil =>
      cases run
      simp
  | cons sym rest inductionHypothesis =>
      rw [List.foldlM_cons] at run
      obtain ⟨next, stepped, later⟩ := Option.bind_eq_some_iff.mp run
      rw [inductionHypothesis later, onSymbol_symbols stepped,
        List.append_assoc, ← List.filter_append]
      rfl

/-- Reading an object adds the symbols that it defines. -/
theorem readObject_symbols
    {link next : Link} {file : ElfFile}
    (reading : readObject link file = some next) :
    next.symbols = link.symbols ++ file.definedSymbols := by
  obtain ⟨walked, final, isWalked, run, rfl⟩ := readObject_eq_some reading
  obtain ⟨oc, isOc, noSymbols, table⟩ := readSections_symbolTable link file
  cases isWalked.symm.trans isOc
  have arena :=
    runThroughShdr_sameArena
      { link with headers := link.headers ++ file.sections }
      none link.headers.length file.sections
  have objects : (readSections link file).1.objects = link.objects :=
    arena.objects
  have collected : final.symbols = file.definedSymbols := by
    rw [foldlM_onSymbol_symbols run, table]
    simp [ObjectChain.symbols, noSymbols, ElfFile.definedSymbols]
  simp [Link.symbols, objects, collected]

/-- Reading all objects leaves the symbols that they define. -/
theorem readObjects_symbols
    {link read : Link} {files : List ElfFile}
    (reading : readObjects link files = some read) :
    read.symbols = link.symbols ++ definedSymbols files := by
  induction files generalizing link with
  | nil =>
      cases reading
      simp [definedSymbols]
  | cons file rest inductionHypothesis =>
      rw [readObjects, List.foldlM_cons] at reading
      obtain ⟨next, first, later⟩ := Option.bind_eq_some_iff.mp reading
      rw [inductionHypothesis later, readObject_symbols first]
      simp [definedSymbols]

/-- The layout leaves the symbols alone. -/
theorem layOut_symbols (nodynamic : Bool) (link : Link) :
    (layOut nodynamic link).symbols = link.symbols := by
  cases nodynamic <;> rfl

end BinTools.Elf
