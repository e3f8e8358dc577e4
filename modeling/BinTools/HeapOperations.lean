import BinTools.HeapShape

namespace BinTools.Heap

/-!
# What the allocator does to its records

Each operation has one lemma: when it succeeds, which list of records it leaves
behind, and which bitmap, address or byte it touched.
-/

/--
`final` is `state` with one more record, for the range just mapped, linked
behind `cell`.
-/
structure Appended
    (os : Mmap) (state final : HeapState)
    (size : Nat) (bits : Bitmap) (cell : Nat) : Prop where
  head : final.binHead = state.binHead
  records : final.records = state.records ++ [state.records.length]
  regions :
    final.regions =
      state.regions ++ [⟨os.map state.regions size, mappedLength size⟩]
  mem : final.mem = state.mem
  newBits : (final.bins state.records.length).bin = bits
  newAddr :
    (final.bins state.records.length).pageAddr = os.map state.regions size
  old :
    ∀ slot, slot ≠ state.records.length →
      (final.bins slot).bin = (state.bins slot).bin ∧
        (final.bins slot).pageAddr = (state.bins slot).pageAddr
  links :
    ∀ slot,
      final.next slot =
        if slot = cell then some state.records.length
        else if slot = state.records.length then none
        else state.next slot

/-- Records beyond the new one are left alone. -/
theorem Appended.beyond
    {os : Mmap} {state final : HeapState}
    {size : Nat} {bits : Bitmap} {cell slot : Nat}
    (appended : Appended os state final size bits cell)
    (created : cell < state.records.length)
    (past : state.records.length < slot) :
    final.bins slot = state.bins slot := by
  obtain ⟨sameBits, sameAddr⟩ := appended.old slot (by omega)
  have sameNext : (final.bins slot).next = (state.bins slot).next := by
    have notCell : slot ≠ cell := by omega
    have notNew : slot ≠ state.records.length := by omega
    simpa [HeapState.next, notCell, notNew] using appended.links slot
  cases stored : final.bins slot
  cases before : state.bins slot
  simp_all

/--
Linking the new record behind a reachable one: the list keeps everything up to
that record, loses whatever followed it and ends with the new record.
-/
theorem Shape.appended
    {os : Mmap} {state final : HeapState}
    {size : Nat} {bits : Bitmap} {cell : Nat}
    {front back kept lost newFront newBack : List Nat}
    (shape : Shape state front back)
    (appended : Appended os state final size bits cell)
    (room : state.records.length < binSlots)
    (split : front ++ state.binTail :: back = kept ++ cell :: lost)
    (arranged :
      newFront ++ final.binTail :: newBack =
        kept ++ [cell, state.records.length]) :
    Shape final newFront newBack := by
  have keptLt : ∀ other ∈ kept ++ [cell], other < state.records.length := by
    intro other member
    refine shape.cell_lt ?_
    rw [split]
    simp only [List.mem_append, List.mem_singleton] at member
    rcases member with inKept | isCell
    · simp [inKept]
    · simp [isCell]
  have cellLt := keptLt cell (by simp)
  have ordered : (kept ++ cell :: lost).Pairwise (· < ·) := by
    rw [← split]
    exact shape.sorted
  have keptOrdered : (kept ++ [cell]).Pairwise (· < ·) :=
    ordered.sublist (List.Sublist.append_left (by simp) kept)
  have count : final.records.length = state.records.length + 1 := by
    simp [appended.records]
  refine
    { linked := ?_
      sorted := ?_
      last := ?_
      positive := by omega
      fits := by omega
      records := ?_
      unused := ?_
      aligned := ?_ }
  · rw [arranged, appended.head]
    have linked := shape.linked
    rw [split] at linked
    refine linked.redirect (by simp [appended.links]) ?_ ?_
    · simp [appended.links, Nat.ne_of_gt cellLt]
    · intro other member
      have notNew : other ≠ state.records.length :=
        Nat.ne_of_lt (keptLt other (by simp [member]))
      have notCell : other ≠ cell := by
        have before :=
          (List.pairwise_append.mp keptOrdered).2.2 other member cell (by simp)
        omega
      simp [appended.links, notNew, notCell]
  · rw [arranged, List.append_cons, List.pairwise_append]
    refine ⟨keptOrdered, by simp, ?_⟩
    intro other member newest isNewest
    rw [List.mem_singleton.mp isNewest]
    exact keptLt other member
  · rw [arranged, count]
    simp
  · rw [appended.records, List.length_append, List.length_singleton,
      List.range_succ, ← shape.records]
  · intro slot beyond
    rw [count] at beyond
    rw [appended.beyond cellLt (by omega)]
    exact shape.unused slot (by omega)
  · intro slot inRange
    rw [count] at inRange
    by_cases newest : slot = state.records.length
    · rw [newest, appended.newAddr]
      exact os.aligned _ _
    · rw [(appended.old slot newest).2]
      exact shape.aligned slot (by omega)

/-- `expand_heap` appends a fully used record while the page has room. -/
theorem Shape.expandHeap_eq
    {state : HeapState} {front back : List Nat}
    (shape : Shape state front back)
    (os : Mmap) (size : Nat)
    (room : state.records.length < binSlots) :
    ∃ final,
      expandHeap os state size =
          some (final, os.map state.regions size) ∧
        Appended os state final size (BitVec.allOnes 256)
          (state.records.length - 1) ∧
        final.binTail = state.binTail ∧
        Shape final front (back ++ [state.records.length]) := by
  have positive := shape.positive
  have newest : state.records.length - 1 + 1 = state.records.length := by omega
  have notPre : state.records.length ≠ state.records.length - 1 := by omega
  let final : HeapState :=
    { ((state.mmap os size).setBinAt (state.records.length - 1)
          { state.bins (state.records.length - 1) with
            next := some state.records.length }).setBinAt
        state.records.length
        ⟨BitVec.allOnes 256, none, os.map state.regions size⟩ with
      records := state.records ++ [state.records.length] }
  have appended :
      Appended os state final size (BitVec.allOnes 256)
        (state.records.length - 1) := by
    refine
      { head := rfl
        records := rfl
        regions := rfl
        mem := rfl
        newBits := by simp [final, HeapState.setBinAt_bins]
        newAddr := by simp [final, HeapState.setBinAt_bins]
        old := ?_
        links := ?_ }
    · intro slot notNew
      by_cases isPre : slot = state.records.length - 1
      · subst slot
        simp [final, HeapState.setBinAt_bins, HeapState.mmap, notPre.symm]
      · simp [final, HeapState.setBinAt_bins, HeapState.mmap, notNew, isPre]
    · intro slot
      by_cases isPre : slot = state.records.length - 1
      · subst slot
        simp [final, HeapState.next, HeapState.setBinAt_bins, notPre.symm]
      · by_cases isNew : slot = state.records.length
        · subst slot
          simp [final, HeapState.next, HeapState.setBinAt_bins, isPre]
        · simp [final, HeapState.next, HeapState.setBinAt_bins,
            HeapState.mmap, isPre, isNew]
  refine ⟨final, ?_, appended, rfl, ?_⟩
  · simp only [expandHeap, shape.walk_head, Option.bind_some, shape.last,
      newest, room, ↓reduceIte]
    rfl
  · obtain ⟨initial, split⟩ := List.getLast?_eq_some_iff.mp shape.last
    refine shape.appended appended room split ?_
    have sameTail : final.binTail = state.binTail := rfl
    rw [sameTail, ← List.cons_append, ← List.append_assoc, split]
    simp

/-- `expand_heap` has nowhere to put a record on a full metadata page. -/
theorem Shape.expandHeap_eq_none
    {state : HeapState} {front back : List Nat}
    (shape : Shape state front back)
    (os : Mmap) (size : Nat)
    (full : ¬ state.records.length < binSlots) :
    expandHeap os state size = none := by
  have positive := shape.positive
  have newest : state.records.length - 1 + 1 = state.records.length := by omega
  simp [expandHeap, shape.walk_head, shape.last, newest, full]

/--
The page-growing path links the new record behind `bin_tail`: whatever
followed `bin_tail` is no longer reachable.
-/
theorem Shape.growPage_eq
    {state : HeapState} {front back : List Nat}
    (shape : Shape state front back)
    (os : Mmap)
    (room : state.records.length < binSlots) :
    ∃ final,
      growPage os state (state.records.length - 1) = some final ∧
        Appended os state final pageSize 1 state.binTail ∧
        final.binTail = state.records.length ∧
        Shape final (front ++ [state.binTail]) [] := by
  have positive := shape.positive
  have newest : state.records.length - 1 + 1 = state.records.length := by omega
  have notTail : state.records.length ≠ state.binTail :=
    Nat.ne_of_gt shape.tail_lt
  have blank := shape.unused state.records.length (Nat.le_refl _)
  let grown : HeapState :=
    (state.mmap os pageSize).setBinAt state.records.length
      ⟨1, none, os.map state.regions pageSize⟩
  let final : HeapState :=
    { grown.setBinAt state.binTail
        { grown.bins state.binTail with next := some state.records.length } with
      binTail := state.records.length
      records := state.records ++ [state.records.length] }
  have appended :
      Appended os state final pageSize 1 state.binTail := by
    refine
      { head := rfl
        records := rfl
        regions := rfl
        mem := rfl
        newBits := by simp [final, grown, HeapState.setBinAt_bins, notTail]
        newAddr := by simp [final, grown, HeapState.setBinAt_bins, notTail]
        old := ?_
        links := ?_ }
    · intro slot notNew
      by_cases isTail : slot = state.binTail
      · subst slot
        simp [final, grown, HeapState.setBinAt_bins, HeapState.mmap, notNew]
      · simp [final, grown, HeapState.setBinAt_bins, HeapState.mmap, notNew,
          isTail]
    · intro slot
      by_cases isTail : slot = state.binTail
      · subst slot
        simp [final, grown, HeapState.next, HeapState.setBinAt_bins]
      · by_cases isNew : slot = state.records.length
        · subst slot
          simp [final, grown, HeapState.next, HeapState.setBinAt_bins, notTail]
        · simp [final, grown, HeapState.next, HeapState.setBinAt_bins,
            HeapState.mmap, isTail, isNew]
  refine ⟨final, ?_, appended, rfl, ?_⟩
  · have firstWord :
        ((0 : Bitmap) &&& ~~~0xffffffff) ||| 1 = 1 := by decide
    have blankMapped :
        ((state.mmap os pageSize).bins state.records.length) = ⟨0, none, 0⟩ :=
      blank
    simp only [growPage, newest, room, ↓reduceIte, blankMapped, firstWord]
    rfl
  · refine shape.appended appended room rfl ?_
    simp [final]

/-- The page-growing path has nowhere to put a record on a full page. -/
theorem Shape.growPage_eq_none
    {state : HeapState} {front back : List Nat}
    (shape : Shape state front back)
    (os : Mmap)
    (full : ¬ state.records.length < binSlots) :
    growPage os state (state.records.length - 1) = none := by
  have positive := shape.positive
  have newest : state.records.length - 1 + 1 = state.records.length := by omega
  simp [growPage, newest, full]

/-- `final` is `state` with the bitmap of record `c` rewritten. -/
structure Rewritten (state final : HeapState) (c : Nat) : Prop where
  head : final.binHead = state.binHead
  tail : final.binTail = state.binTail
  records : final.records = state.records
  regions : final.regions = state.regions
  others : ∀ slot, slot ≠ c → final.bins slot = state.bins slot
  links :
    ∀ slot,
      final.next slot = state.next slot ∧
        (final.bins slot).pageAddr = (state.bins slot).pageAddr

/-- Rewriting the bitmap of a record keeps the list of records. -/
theorem Shape.rewritten
    {state final : HeapState} {front back : List Nat} {c : Nat}
    (shape : Shape state front back)
    (rewritten : Rewritten state final c)
    (created : c < state.records.length) :
    Shape final front back := by
  refine
    shape.congr rewritten.head rewritten.tail rewritten.records
      rewritten.links ?_
  intro slot beyond
  exact rewritten.others slot (by omega)

/-- Storing a record with a new bitmap and touching memory rewrites it. -/
theorem rewritten_setBinAt
    (state : HeapState) (c : Nat) (bits : Bitmap) (mem : Nat → UInt8) :
    Rewritten state
      { state.setBinAt c { state.bins c with bin := bits } with mem := mem }
      c where
  head := rfl
  tail := rfl
  records := rfl
  regions := rfl
  others := by
    intro slot different
    simp [HeapState.setBinAt_bins, different]
  links := by
    intro slot
    by_cases same : slot = c
    · subst slot
      simp [HeapState.next, HeapState.setBinAt_bins]
    · simp [HeapState.next, HeapState.setBinAt_bins, same]

/-- `final` is `state` after the `q` blocks from `a` on were taken. -/
structure Taken (state final : HeapState) (c a q : Nat) : Prop where
  rewritten : Rewritten state final c
  bits :
    ∀ k,
      (final.bins c).bin.getLsbD k =
        ((state.bins c).bin.getLsbD k || decide (a ≤ k ∧ k < a + q))
  mem :
    final.mem =
      Function.update state.mem
        ((state.bins c).pageAddr + 0x10 * a - 1) (UInt8.ofNat q)

/-- Taking blocks inside of a page succeeds and marks exactly them. -/
theorem takeBlocks_eq
    (state : HeapState) (c : Nat) {a q : Nat}
    (positive : 0 < q) (inPage : a + q ≤ 256) :
    ∃ final,
      takeBlocks state c a q =
          some (final, (state.bins c).pageAddr + 0x10 * a) ∧
        Taken state final c a q := by
  obtain ⟨marked, ends, bitsOf⟩ :=
    setBin_spec (state.bins c).bin positive inPage
  refine
    ⟨_, ?_,
      { rewritten :=
          rewritten_setBinAt state c marked
            (Function.update state.mem
              ((state.bins c).pageAddr + 0x10 * a - 1) (UInt8.ofNat q))
        bits := ?_
        mem := rfl }⟩
  · simp only [takeBlocks, ends, Option.map_some]
    rfl
  · intro k
    simp [HeapState.setBinAt_bins, bitsOf k]

/-- The search over pages ends, with the first run of some page or nowhere. -/
theorem searchBins_spec
    (state : HeapState) {q : Nat} (positive : 0 < q) (qInRange : q ≤ 255)
    (cells : List Nat) :
    searchBins state q cells = some none ∨
      ∃ c ∈ cells, ∃ a,
        a ≠ 0 ∧ a + q ≤ 256 ∧ ClearRun (state.bins c).bin a q ∧
          (state.bins c).bin.getLsbD (a - 1) = true ∧
          searchBins state q cells = some (some (c, a)) := by
  induction cells with
  | nil => exact Or.inl rfl
  | cons c rest inductionHypothesis =>
      obtain ⟨a, found, first⟩ :=
        slowestFindConsecutiveBin_spec (state.bins c).bin positive qInRange
      by_cases room : a ≠ 0
      · rcases first with ⟨inPage, clear, noneEarlier⟩ | ⟨zero, _⟩
        · refine
            Or.inr
              ⟨c, by simp, a, room, inPage, clear,
                clear.marked_before room noneEarlier, ?_⟩
          simp [searchBins, found, room]
        · exact absurd zero room
      · have passed :
            searchBins state q (c :: rest) = searchBins state q rest := by
          rw [searchBins, found, Option.bind_some, if_neg room]
        rw [passed]
        rcases inductionHypothesis with nowhere | ⟨other, member, later⟩
        · exact Or.inl nowhere
        · exact Or.inr ⟨other, by simp [member], later⟩

/-- A page with one used block has its first room at block one. -/
theorem searchBins_fresh
    (state : HeapState) {q c : Nat} (positive : 0 < q) (qInRange : q ≤ 255)
    (fresh : (state.bins c).bin = 1) :
    searchBins state q [c] = some (some (c, 1)) := by
  obtain ⟨a, found, first⟩ :=
    slowestFindConsecutiveBin_spec (state.bins c).bin positive qInRange
  have bitOf : ∀ k, (state.bins c).bin.getLsbD k = decide (k = 0) := by
    intro k
    rw [fresh]
    simp
  have clearFromOne : ClearRun (state.bins c).bin 1 q := by
    intro k from_ _
    rw [bitOf]
    simp
    omega
  have notFromZero : ¬ ClearRun (state.bins c).bin 0 q := by
    intro clear
    have bit := (bitOf 0).symm.trans (clear 0 (Nat.le_refl _) (by omega))
    cases bit
  have isOne : a = 1 := by
    rcases first with ⟨_, clear, noneEarlier⟩ | ⟨_, nowhere⟩
    · rcases Nat.lt_or_ge 1 a with later | notLater
      · exact absurd clearFromOne (noneEarlier 1 later)
      · rcases Nat.eq_zero_or_pos a with zero | one
        · rw [zero] at clear
          exact absurd clear notFromZero
        · omega
    · exact absurd clearFromOne (nowhere 1 (by omega))
  rw [isOne] at found
  simp [searchBins, found]

/-- `bins_size` is the block count of a small request. -/
theorem binsSizeOf_eq {size : Nat} (small : size < 0x1000 - 0x10) :
    binsSizeOf size = size / 0x10 + 1 := by
  rw [binsSizeOf]
  omega

/-- A small request needs between one and 255 blocks. -/
theorem binsSizeOf_range {size : Nat} (small : size < 0x1000 - 0x10) :
    0 < binsSizeOf size ∧ binsSizeOf size ≤ 255 := by
  rw [binsSizeOf_eq small]
  omega

/-- Some page from `bin_tail` on has room for the request. -/
def HasRoom (state : HeapState) (size : Nat) : Prop :=
  ∃ place,
    (state.walk state.binTail).bind (searchBins state (binsSizeOf size)) =
      some (some place)

instance (state : HeapState) (size : Nat) : Decidable (HasRoom state size) :=
  decidable_of_iff
    (((state.walk state.binTail).bind
        (searchBins state (binsSizeOf size))).join.isSome = true)
    (by
      rw [Option.isSome_iff_exists, HasRoom]
      simp only [Option.join_eq_some_iff])

/-- A small request that finds room takes blocks of a reachable page. -/
theorem Shape.malloc_of_hasRoom
    {state : HeapState} {front back : List Nat}
    (shape : Shape state front back)
    (os : Mmap) {size : Nat}
    (small : size < 0x1000 - 0x10)
    (hasRoom : HasRoom state size) :
    ∃ c ∈ state.binTail :: back, ∃ a final,
      malloc os state size =
          some (final, (state.bins c).pageAddr + 0x10 * a) ∧
        a ≠ 0 ∧ a + binsSizeOf size ≤ 256 ∧
        ClearRun (state.bins c).bin a (binsSizeOf size) ∧
        (state.bins c).bin.getLsbD (a - 1) = true ∧
        Taken state final c a (binsSizeOf size) := by
  obtain ⟨positive, qInRange⟩ := binsSizeOf_range small
  obtain ⟨place, found⟩ := hasRoom
  rw [shape.walk_tail, Option.bind_some] at found
  rcases searchBins_spec state positive qInRange (state.binTail :: back) with
    nowhere | ⟨c, member, a, nonzero, inPage, clear, before, here⟩
  · rw [nowhere] at found
    cases found
  · obtain ⟨final, takes, taken⟩ := takeBlocks_eq state c positive inPage
    refine ⟨c, member, a, final, ?_, nonzero, inPage, clear, before, taken⟩
    simp [malloc, Nat.not_le_of_lt small, shape.walk_tail, here, takes]

/-- A small request that finds no room takes blocks of a fresh page. -/
theorem Shape.malloc_of_not_hasRoom
    {state : HeapState} {front back : List Nat}
    (shape : Shape state front back)
    (os : Mmap) {size : Nat}
    (small : size < 0x1000 - 0x10)
    (noRoom : ¬ HasRoom state size)
    (room : state.records.length < binSlots) :
    ∃ grown final,
      malloc os state size =
          some (final, os.map state.regions pageSize + 0x10 * 1) ∧
        Appended os state grown pageSize 1 state.binTail ∧
        grown.binTail = state.records.length ∧
        Shape final (front ++ [state.binTail]) [] ∧
        Taken grown final state.records.length 1 (binsSizeOf size) := by
  obtain ⟨positive, qInRange⟩ := binsSizeOf_range small
  have nowhere :
      searchBins state (binsSizeOf size) (state.binTail :: back) =
        some none := by
    rcases searchBins_spec state positive qInRange (state.binTail :: back) with
      nowhere | ⟨c, member, a, _, _, _, _, here⟩
    · exact nowhere
    · refine absurd ⟨(c, a), ?_⟩ noRoom
      rw [shape.walk_tail, Option.bind_some, here]
  obtain ⟨grown, grew, appended, newTail, grownShape⟩ :=
    shape.growPage_eq os room
  obtain ⟨final, takes, taken⟩ :=
    takeBlocks_eq grown state.records.length positive (a := 1) (by omega)
  have created : state.records.length < grown.records.length := by
    simp [appended.records]
  refine
    ⟨grown, final, ?_, appended, newTail,
      grownShape.rewritten taken.rewritten created, taken⟩
  rw [appended.newAddr] at takes
  simp [malloc, Nat.not_le_of_lt small, shape.walk_tail, nowhere,
    shape.last_tail, grew, newTail,
    searchBins_fresh grown positive qInRange appended.newBits, takes]

/-- On a full metadata page a small request without room gets lost. -/
theorem Shape.malloc_eq_none
    {state : HeapState} {front back : List Nat}
    (shape : Shape state front back)
    (os : Mmap) {size : Nat}
    (small : size < 0x1000 - 0x10)
    (noRoom : ¬ HasRoom state size)
    (full : ¬ state.records.length < binSlots) :
    malloc os state size = none := by
  obtain ⟨positive, qInRange⟩ := binsSizeOf_range small
  have nowhere :
      searchBins state (binsSizeOf size) (state.binTail :: back) =
        some none := by
    rcases searchBins_spec state positive qInRange (state.binTail :: back) with
      nowhere | ⟨c, member, a, _, _, _, _, here⟩
    · exact nowhere
    · refine absurd ⟨(c, a), ?_⟩ noRoom
      rw [shape.walk_tail, Option.bind_some, here]
  simp [malloc, Nat.not_le_of_lt small, shape.walk_tail, nowhere,
    shape.last_tail, shape.growPage_eq_none os full]

/-- The block of a record's page that holds the address. -/
def HeapState.blockOf (state : HeapState) (c p : Nat) : Nat :=
  (p - (state.bins c).pageAddr) / 0x10

/-- A pointer that no reachable record holds is not freed. -/
theorem Shape.free_of_lost
    {state : HeapState} {front back : List Nat} {p : Nat}
    (shape : Shape state front back)
    (lost :
      (front ++ state.binTail :: back).find? (holdsAddress state p) = none) :
    free state p = some state := by
  simp only [free, shape.walk_head, Option.bind_some, lost]

/-- `final` is `state` after `q` blocks at `p` of record `c` were freed. -/
structure Freed (state final : HeapState) (c p q : Nat) : Prop where
  rewritten : Rewritten state final c
  bits :
    ∀ k,
      (final.bins c).bin.getLsbD k =
        ((state.bins c).bin.getLsbD k &&
          !decide (Unset (state.blockOf c p) q k))
  mem :
    final.mem = fun address =>
      if p ≤ address ∧ address < p + 0x10 * q then 0 else state.mem address

/-- Freeing a pointer of a reachable page clears the `Unset` blocks. -/
theorem Shape.free_of_found
    {state : HeapState} {front back : List Nat} {p c : Nat}
    (shape : Shape state front back)
    (found :
      (front ++ state.binTail :: back).find? (holdsAddress state p) = some c)
    (ends : (state.blockOf c p + freedBlocks state p) % 256 ≠ 255) :
    ∃ final,
      free state p = some final ∧
        Freed state final c p (freedBlocks state p) := by
  obtain ⟨cleared, done, bitsOf⟩ := unsetBin_spec (state.bins c).bin ends
  refine
    ⟨_, ?_,
      { rewritten :=
          rewritten_setBinAt state c cleared
            (fun address =>
              if p ≤ address ∧ address < p + 0x10 * freedBlocks state p then 0
              else state.mem address)
        bits := ?_
        mem := rfl }⟩
  · rw [HeapState.blockOf] at done
    simp only [free, shape.walk_head, Option.bind_some, found, done,
      Option.map_some]
    rfl
  · intro k
    simp [HeapState.setBinAt_bins, bitsOf k]

/-- With the bound 255, freeing never comes back. -/
theorem Shape.free_eq_none
    {state : HeapState} {front back : List Nat} {p c : Nat}
    (shape : Shape state front back)
    (found :
      (front ++ state.binTail :: back).find? (holdsAddress state p) = some c)
    (stuck : (state.blockOf c p + freedBlocks state p) % 256 = 255) :
    free state p = none := by
  have hangs := unsetBin_eq_none (state.bins c).bin stuck
  rw [HeapState.blockOf] at hangs
  simp only [free, shape.walk_head, Option.bind_some, found, hangs,
    Option.map_none]

end BinTools.Heap
