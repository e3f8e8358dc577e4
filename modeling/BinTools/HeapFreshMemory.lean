import BinTools.HeapDisjoint

namespace BinTools.Heap

/-!
# Fresh memory

The constructors of the linker rely on zeroed memory.  Pages come zeroed from
the kernel, `__free` clears the bytes of the blocks it was told the number of,
and callers write to their live blocks only; the size byte of a block is the
last byte of the block in front of it.  So unmarked blocks are zero, apart from
the last byte of one with a marked block behind it, as long as `__free` unmarks
nothing but what it clears.
-/

/-- What a caller does: call the allocator, or write to the k-th block. -/
inductive Use where
  | call (call : Call)
  | write (k offset : Nat) (value : UInt8)
  deriving DecidableEq, Repr

/-- One use of the heap; a write outside of a live block is none. -/
def use (os : Mmap) (world : World) : Use → Option World
  | .call call => step os world call
  | .write k offset value =>
      match world.live[k]? with
      | none => some world
      | some block =>
          if offset < block.size then
            some
              { world with
                heap :=
                  { world.heap with
                    mem :=
                      Function.update world.heap.mem (block.ptr + offset)
                        value } }
          else
            some world

/-- Whatever size is asked for next, the memory handed out is zero. -/
def ZeroFilled (os : Mmap) (world : World) : Prop :=
  ∀ size, ∀ result ∈ malloc os world.heap size,
    ∀ i < size, result.1.mem (result.2 + i) = 0

/-- Block `k` of the page of record `c` is not marked. -/
def HeapState.Unmarked (state : HeapState) (c k : Nat) : Prop :=
  k < 256 ∧ (state.bins c).bin.getLsbD k = false

instance (state : HeapState) (c k : Nat) : Decidable (state.Unmarked c k) :=
  inferInstanceAs (Decidable (_ ∧ _))

/--
`__free` releases an allocation of record `c` and nothing else: its size byte
covers its blocks, and every block that gets unmarked is one of these, unless it
is the first block of the page or was not marked.
-/
def HeapState.Releases (state : HeapState) (block : Block) (c : Nat) : Prop :=
  block.count ≤ freedBlocks state block.ptr ∧
    ∀ k < 256,
      Unset (state.blockOf c block.ptr) (freedBlocks state block.ptr) k →
        k = 0 ∨ block.Owns (state.bins c).pageAddr k ∨ state.Unmarked c k

instance (state : HeapState) (block : Block) (c : Nat) :
    Decidable (state.Releases block c) :=
  inferInstanceAs (Decidable (_ ∧ _))

/--
The condition for freed memory to be zero: a `__free` that finds the record and
comes back releases the allocation and nothing else.
-/
def KeepsZero (world : World) : Use → Prop
  | .call (.free k) =>
      ∀ block ∈ world.live[k]?,
        ∀ cells ∈ world.heap.walk world.heap.binHead,
          ∀ c ∈ cells.find? (holdsAddress world.heap block.ptr),
            FreeEnds world.heap block.ptr → world.heap.Releases block c
  | _ => True

instance (world : World) (action : Use) :
    Decidable (KeepsZero world action) :=
  match action with
  | .call (.free k) =>
      inferInstanceAs
        (Decidable
          (∀ block ∈ world.live[k]?,
            ∀ cells ∈ world.heap.walk world.heap.binHead,
              ∀ c ∈ cells.find? (holdsAddress world.heap block.ptr),
                FreeEnds world.heap block.ptr →
                  world.heap.Releases block c))
  | .call (.malloc _) => inferInstanceAs (Decidable True)
  | .write _ _ _ => inferInstanceAs (Decidable True)

/-! ## Unmarked blocks are zero -/

/--
Only mapped bytes are nonzero; an unmarked block is zero but for the size byte
of a marked block behind it; and that byte is zero as well when its block is
live.
-/
structure Clean (state : HeapState) (live : List Block) : Prop where
  inRegions :
    ∀ x, state.mem x ≠ 0 → ∃ region ∈ state.regions, region.Contains x
  unmarked :
    ∀ c < state.records.length, ∀ k, k ≠ 0 → state.Unmarked c k →
      ∀ i < 0x10, (i = 0xf → state.Unmarked c (k + 1)) →
        state.mem ((state.bins c).pageAddr + 0x10 * k + i) = 0
  sizeBytes :
    ∀ block ∈ live, ∀ c < state.records.length, ∀ k, k ≠ 0 →
      state.Unmarked c k → k + 1 < 256 →
        block.ptr = (state.bins c).pageAddr + 0x10 * (k + 1) →
          state.mem (block.ptr - 1) = 0

/-- Bytes of the first pages of two records are different bytes. -/
theorem Mapped.page_unique
    {state : HeapState} (mapped : Mapped state) {c d i j : Nat}
    (firstCreated : c < state.records.length)
    (secondCreated : d < state.records.length)
    (firstInPage : i < pageSize) (secondInPage : j < pageSize)
    (same : (state.bins c).pageAddr + i = (state.bins d).pageAddr + j) :
    c = d := by
  by_contra different
  obtain ⟨first, firstAt, firstBase, firstCovers, _⟩ :=
    mapped.pages c firstCreated
  obtain ⟨second, secondAt, secondBase, secondCovers, _⟩ :=
    mapped.pages d secondCreated
  have apart := mapped.regions_disjoint firstAt secondAt different
  simp only [Region.Disjoint, firstBase, secondBase] at apart
  omega

namespace Clean

variable {state final : HeapState} {live : List Block}

/-- Fewer live blocks. -/
theorem subset
    {fewer : List Block} (clean : Clean state live) (live' : fewer ⊆ live) :
    Clean state fewer where
  inRegions := clean.inRegions
  unmarked := clean.unmarked
  sizeBytes := fun block member => clean.sizeBytes block (live' member)

/-- A block at the start of a page has no size byte in front of it. -/
theorem add_atStart
    (clean : Clean state live) (mapped : Mapped state) {d : Nat}
    (created : d < state.records.length) (size : Nat) :
    Clean state (live ++ [⟨(state.bins d).pageAddr, size⟩]) where
  inRegions := clean.inRegions
  unmarked := clean.unmarked
  sizeBytes := by
    intro block member c recorded k nonzero unmarked inPage ptr
    rcases List.mem_append.mp member with old | isNew
    · exact clean.sizeBytes block old c recorded k nonzero unmarked inPage ptr
    · rw [List.mem_singleton.mp isNew] at ptr
      dsimp only at ptr
      have same : d = c :=
        mapped.page_unique created recorded (i := 0)
          (j := 0x10 * (k + 1)) (by decide)
          (by simp only [pageSize]; omega) ptr
      subst same
      omega

/-- A fresh range is zero. -/
theorem appended_zero
    {os : Mmap} {size : Nat} {bits : Bitmap} {cell x : Nat}
    (clean : Clean state live)
    (appended : Appended os state final size bits cell)
    (inside :
      (⟨os.map state.regions size, mappedLength size⟩ : Region).Contains x) :
    final.mem x = 0 := by
  rw [appended.mem]
  by_contra nonzero
  obtain ⟨region, member, contains⟩ := clean.inRegions x nonzero
  have fresh := os.fresh state.regions size region member
  simp only [Region.Contains] at inside contains
  simp only [Region.Disjoint] at fresh
  omega

/-- One more record, for a fresh range. -/
theorem appended
    {os : Mmap} {size : Nat} {bits : Bitmap} {cell : Nat}
    (clean : Clean state live)
    (appended : Appended os state final size bits cell)
    (whole : pageSize ≤ mappedLength size) :
    Clean final live := by
  have freshByte :
      ∀ offset < pageSize,
        final.mem (os.map state.regions size + offset) = 0 := by
    intro offset inPage
    refine clean.appended_zero appended ⟨Nat.le_add_right _ _, ?_⟩
    dsimp only
    omega
  have count : final.records.length = state.records.length + 1 := by
    simp [appended.records]
  refine { inRegions := ?_, unmarked := ?_, sizeBytes := ?_ }
  · intro x nonzero
    rw [appended.mem] at nonzero
    obtain ⟨region, member, contains⟩ := clean.inRegions x nonzero
    refine ⟨region, ?_, contains⟩
    rw [appended.regions]
    exact List.mem_append_left _ member
  · intro c created k nonzero unmarked i inBlock behind
    by_cases newest : c = state.records.length
    · subst newest
      rw [appended.newAddr, Nat.add_assoc]
      refine freshByte _ ?_
      have inPage := unmarked.1
      simp only [pageSize]
      omega
    · obtain ⟨sameBits, sameAddr⟩ := appended.old c newest
      simp only [HeapState.Unmarked, sameBits] at unmarked behind
      rw [sameAddr, appended.mem]
      exact
        clean.unmarked c (by omega) k nonzero unmarked i inBlock behind
  · intro block member c created k nonzero unmarked inPage ptr
    by_cases newest : c = state.records.length
    · subst newest
      rw [appended.newAddr] at ptr
      rw [ptr]
      have inFront :
          os.map state.regions size + 0x10 * (k + 1) - 1 =
            os.map state.regions size + (0x10 * k + 0xf) := by
        omega
      rw [inFront]
      refine freshByte _ ?_
      simp only [pageSize]
      omega
    · obtain ⟨sameBits, sameAddr⟩ := appended.old c newest
      simp only [HeapState.Unmarked, sameBits] at unmarked
      rw [sameAddr] at ptr
      rw [appended.mem]
      exact
        clean.sizeBytes block member c (by omega) k nonzero unmarked inPage
          ptr

/-- Blocks that stay unmarked when others are taken. -/
theorem unmarked_of_taken
    {c d a q k : Nat} (taken : Taken state final c a q)
    (unmarked : final.Unmarked d k) :
    state.Unmarked d k ∧ (d = c → ¬ (a ≤ k ∧ k < a + q)) := by
  obtain ⟨inPage, clear⟩ := unmarked
  by_cases same : d = c
  · subst same
    rw [taken.bits k, Bool.or_eq_false_iff, decide_eq_false_iff_not] at clear
    exact ⟨⟨inPage, clear.1⟩, fun _ => clear.2⟩
  · rw [taken.rewritten.others d same] at clear
    exact ⟨⟨inPage, clear⟩, fun isC => absurd isC same⟩

/-- Taking blocks writes their number in front of them. -/
theorem taken
    {c a q : Nat}
    (clean : Clean state live) (mapped : Mapped state)
    (taken : Taken state final c a q) (created : c < state.records.length)
    (positive : 0 < q) (nonzero : a ≠ 0) (inPage : a + q ≤ 256)
    (before : (state.bins c).bin.getLsbD (a - 1) = true) (size : Nat) :
    Clean final (live ++ [⟨(state.bins c).pageAddr + 0x10 * a, size⟩]) := by
  -- The block in front of the taken ones is marked.
  have marked :
      ∀ d < state.records.length, ∀ k, final.Unmarked d k → k + 1 < 256 →
        (state.bins d).pageAddr + 0x10 * (k + 1) ≠
          (state.bins c).pageAddr + 0x10 * a := by
    intro d recorded k unmarked inside same
    obtain ⟨⟨_, clear⟩, _⟩ := unmarked_of_taken taken unmarked
    have isC : d = c :=
      mapped.page_unique recorded created
        (by simp only [pageSize]; omega) (by simp only [pageSize]; omega) same
    subst isC
    have isBefore : a - 1 = k := by omega
    rw [isBefore, clear] at before
    cases before
  have addresses := fun d => (taken.rewritten.links d).2
  have records := taken.rewritten.records
  refine { inRegions := ?_, unmarked := ?_, sizeBytes := ?_ }
  · intro x notZero
    rw [taken.rewritten.regions]
    by_cases sizeByte : x = (state.bins c).pageAddr + 0x10 * a - 1
    · obtain ⟨region, present, base, covers, _⟩ := mapped.pages c created
      refine ⟨region, List.mem_of_getElem? present, ?_⟩
      simp only [pageSize] at covers
      simp only [Region.Contains, base]
      omega
    · rw [taken.mem, Function.update_of_ne sizeByte] at notZero
      exact clean.inRegions x notZero
  · intro d recorded k notFirst unmarked i inBlock behind
    rw [records] at recorded
    obtain ⟨wasUnmarked, notTaken⟩ := unmarked_of_taken taken unmarked
    rw [addresses, taken.mem, Function.update_of_ne]
    · exact
        clean.unmarked d recorded k notFirst wasUnmarked i inBlock
          fun last => (unmarked_of_taken taken (behind last)).1
    · -- Only the last byte of the block in front is a size byte.
      intro isSizeByte
      have sameByte :
          (state.bins d).pageAddr + (0x10 * k + i + 1) =
            (state.bins c).pageAddr + 0x10 * a := by
        omega
      have isC : d = c := by
        rcases Nat.lt_or_ge (0x10 * k + i + 1) pageSize with inside | atEnd
        · exact
            mapped.page_unique recorded created inside
              (by simp only [pageSize]; omega) sameByte
        · refine
            mapped.page_unique recorded created (i := 0x10 * k + i)
              (j := 0x10 * a - 1) ?_ ?_ (by omega)
          · have last := unmarked.1
            simp only [pageSize]
            omega
          · simp only [pageSize]
            omega
      subst isC
      have last : i = 0xf := by omega
      obtain ⟨_, notTakenBehind⟩ := unmarked_of_taken taken (behind last)
      exact notTakenBehind rfl (by omega)
  · intro block member d recorded k notFirst unmarked inside ptr
    rw [records] at recorded
    rw [addresses] at ptr
    obtain ⟨wasUnmarked, _⟩ := unmarked_of_taken taken unmarked
    have other := marked d recorded k unmarked inside
    rcases List.mem_append.mp member with old | isNew
    · rw [taken.mem, Function.update_of_ne (by omega)]
      exact
        clean.sizeBytes block old d recorded k notFirst wasUnmarked inside ptr
    · rw [List.mem_singleton.mp isNew] at ptr
      exact absurd ptr.symm other

/-- Blocks that are taken are zero, short of their last byte. -/
theorem taken_zero
    {c a q size : Nat}
    (clean : Clean state live) (created : c < state.records.length)
    (taken : Taken state final c a q)
    (nonzero : a ≠ 0) (inPage : a + q ≤ 256)
    (clear : ClearRun (state.bins c).bin a q) (fits : size < 0x10 * q) :
    ∀ i < size,
      final.mem ((state.bins c).pageAddr + 0x10 * a + i) = 0 := by
  intro i inSize
  have split :
      (state.bins c).pageAddr + 0x10 * a + i =
        (state.bins c).pageAddr + 0x10 * (a + i / 0x10) + i % 0x10 := by
    omega
  have unmarked : ∀ k, a ≤ k → k < a + q → state.Unmarked c k :=
    fun k from_ below => ⟨by omega, clear k from_ below⟩
  rw [taken.mem, Function.update_of_ne (by omega), split]
  refine
    clean.unmarked c created _ (by omega) (unmarked _ (by omega) (by omega))
      _ (by omega) ?_
  intro last
  exact unmarked _ (by omega) (by omega)

/-- The bytes of the blocks of an allocation are those it was freed with. -/
theorem freed_zero
    {block : Block} {c k i q s : Nat}
    (freed : Freed state final c block.ptr q)
    (ptr : block.ptr = (state.bins c).pageAddr + 0x10 * s)
    (covers : block.count ≤ q)
    (owns : block.Owns (state.bins c).pageAddr k) (inBlock : i < 0x10) :
    final.mem ((state.bins c).pageAddr + 0x10 * k + i) = 0 := by
  simp only [Block.Owns, Region.Contains] at owns
  rw [freed.mem]
  refine if_pos ⟨?_, ?_⟩
  · omega
  · omega

/-- Freeing only ever clears bytes. -/
theorem freed_eq_zero
    {c p q x : Nat} (freed : Freed state final c p q)
    (zero : state.mem x = 0) : final.mem x = 0 := by
  rw [freed.mem]
  dsimp only
  split_ifs
  · rfl
  · exact zero

/-- A block that is unmarked afterwards was so before or was freed. -/
theorem unmarked_of_freed
    {block : Block} {c d k : Nat}
    (freed : Freed state final c block.ptr (freedBlocks state block.ptr))
    (releases : state.Releases block c)
    (notFirst : k ≠ 0) (unmarked : final.Unmarked d k) :
    state.Unmarked d k ∨
      d = c ∧ block.Owns (state.bins c).pageAddr k := by
  obtain ⟨inPage, clear⟩ := unmarked
  by_cases same : d = c
  · subst same
    rw [freed.bits k, Bool.and_eq_false_iff, Bool.not_eq_false',
      decide_eq_true_eq] at clear
    rcases clear with clear | unset
    · exact Or.inl ⟨inPage, clear⟩
    · rcases releases.2 k inPage unset with first | owns | already
      · exact absurd first notFirst
      · exact Or.inr ⟨rfl, owns⟩
      · exact Or.inl already
  · rw [freed.rewritten.others d same] at clear
    exact Or.inl ⟨inPage, clear⟩

/-- Freeing an allocation that is released leaves its blocks zero. -/
theorem freed
    {block : Block} {c s : Nat}
    (clean : Clean state live) (member : block ∈ live)
    (ptr : block.ptr = (state.bins c).pageAddr + 0x10 * s)
    (held : Held state block c)
    (freed : Freed state final c block.ptr (freedBlocks state block.ptr))
    (releases : state.Releases block c) :
    Clean final live := by
  have addresses := fun d => (freed.rewritten.links d).2
  have records := freed.rewritten.records
  refine { inRegions := ?_, unmarked := ?_, sizeBytes := ?_ }
  · intro x notZero
    rw [freed.rewritten.regions]
    exact clean.inRegions x fun zero => notZero (freed_eq_zero freed zero)
  · intro d recorded k notFirst unmarked i inBlock behind
    rw [records] at recorded
    rw [addresses]
    rcases unmarked_of_freed freed releases notFirst unmarked with
      already | ⟨same, owns⟩
    · by_cases last : i = 0xf
      · rcases unmarked_of_freed freed releases (Nat.succ_ne_zero k)
          (behind last) with alreadyBehind | ⟨same, ownsBehind⟩
        · exact
            freed_eq_zero freed
              (clean.unmarked d recorded k notFirst already i inBlock
                fun _ => alreadyBehind)
        · -- The freed allocation begins behind block `k`.
          subst same
          have unowned : ¬ block.Owns (state.bins d).pageAddr k := by
            intro owns
            have set := held.marked k already.1 owns
            rw [already.2] at set
            cases set
          simp only [Block.Owns, Region.Contains] at unowned ownsBehind
          have begins :
              block.ptr = (state.bins d).pageAddr + 0x10 * (k + 1) := by
            omega
          have sizeByte :=
            clean.sizeBytes block member d recorded k notFirst already
              (behind last).1 begins
          have isSizeByte :
              (state.bins d).pageAddr + 0x10 * k + i = block.ptr - 1 := by
            omega
          rw [isSizeByte]
          exact freed_eq_zero freed sizeByte
      · exact
          freed_eq_zero freed
            (clean.unmarked d recorded k notFirst already i inBlock
              fun isLast => absurd isLast last)
    · subst same
      exact freed_zero freed ptr releases.1 owns inBlock
  · intro other isLive d recorded k notFirst unmarked inside otherPtr
    rw [records] at recorded
    rw [addresses] at otherPtr
    rcases unmarked_of_freed freed releases notFirst unmarked with
      already | ⟨same, owns⟩
    · exact
        freed_eq_zero freed
          (clean.sizeBytes other isLive d recorded k notFirst already inside
            otherPtr)
    · subst same
      have isSizeByte :
          other.ptr - 1 = (state.bins d).pageAddr + 0x10 * k + 0xf := by
        omega
      rw [isSizeByte]
      exact freed_zero freed ptr releases.1 owns (by decide)

/-- A byte of an unmarked block is no byte of a held one. -/
theorem ne_of_held
    {block : Block} {c d k i offset : Nat}
    (mapped : Mapped state) (held : Held state block c)
    (recorded : d < state.records.length) (unmarked : state.Unmarked d k)
    (inBlock : i < 0x10) (inSize : offset < block.size) :
    (state.bins d).pageAddr + 0x10 * k + i ≠ block.ptr + offset := by
  intro same
  obtain ⟨inPage, clear⟩ := unmarked
  obtain ⟨base, size, _⟩ := block.size_le_extent
  obtain ⟨own, ownAt, below, above, _⟩ := held.extent_inside
  obtain ⟨page, pageAt, pageBase, covers, _⟩ := mapped.pages d recorded
  have isC : d = c := by
    by_contra different
    have apart := mapped.regions_disjoint pageAt ownAt different
    simp only [pageSize] at covers
    simp only [Region.Disjoint, pageBase] at apart
    omega
  subst isC
  obtain ⟨s, ptr⟩ : ∃ s, block.ptr = (state.bins d).pageAddr + 0x10 * s := by
    by_cases small : block.Small
    · obtain ⟨_, s, _, _, ptr⟩ := held.small small
      exact ⟨s, ptr⟩
    · exact ⟨0, (held.large small).2⟩
  have owns : block.Owns (state.bins d).pageAddr k := by
    simp only [Block.Owns, Region.Contains, Block.count]
    omega
  have set := held.marked k inPage owns
  rw [clear] at set
  cases set

/-- Writing to a live block leaves the unmarked blocks alone. -/
theorem write
    {block : Block} {c offset : Nat} (value : UInt8)
    (clean : Clean state live) (mapped : Mapped state)
    (held : Held state block c) (inSize : offset < block.size) :
    Clean
      { state with
        mem := Function.update state.mem (block.ptr + offset) value }
      live := by
  refine { inRegions := ?_, unmarked := ?_, sizeBytes := ?_ }
  · intro x notZero
    by_cases written : x = block.ptr + offset
    · obtain ⟨region, present, below, above, _⟩ := held.extent_inside
      obtain ⟨base, size, _⟩ := block.size_le_extent
      refine ⟨region, List.mem_of_getElem? present, ?_⟩
      simp only [Region.Contains]
      omega
    · dsimp only at notZero
      rw [Function.update_of_ne written] at notZero
      exact clean.inRegions x notZero
  · intro d recorded k notFirst unmarked i inBlock behind
    have kept :=
      clean.unmarked d recorded k notFirst unmarked i inBlock behind
    have other := ne_of_held mapped held recorded unmarked inBlock inSize
    dsimp only
    rwa [Function.update_of_ne other]
  · intro other isLive d recorded k notFirst unmarked inside ptr
    have kept :=
      clean.sizeBytes other isLive d recorded k notFirst unmarked inside ptr
    have elsewhere :=
      ne_of_held mapped held recorded unmarked (i := 0xf) (by decide) inSize
    have isSizeByte :
        other.ptr - 1 = (state.bins d).pageAddr + 0x10 * k + 0xf := by
      dsimp only at ptr
      omega
    dsimp only
    rw [isSizeByte] at kept ⊢
    rwa [Function.update_of_ne elsewhere]

end Clean

/-! ## Runs -/

/-- An allocation that comes back found room for its record. -/
theorem Shape.room_of_malloc
    {state : HeapState} {front back : List Nat} {os : Mmap} {size : Nat}
    {result : HeapState × Nat} (shape : Shape state front back)
    (allocated : malloc os state size = some result) :
    size < 0x1000 - 0x10 ∧ HasRoom state size ∨
      state.records.length < binSlots := by
  by_contra neither
  obtain ⟨noRoom, full⟩ := not_or.mp neither
  by_cases small : size < 0x1000 - 0x10
  · have lost :=
      shape.malloc_eq_none os small (fun room => noRoom ⟨small, room⟩) full
    rw [lost] at allocated
    cases allocated
  · rw [malloc, if_pos (Nat.le_of_not_lt small),
      shape.expandHeap_eq_none os size full] at allocated
    cases allocated

/-- What is handed out is zero, and the unmarked blocks stay so. -/
theorem Separated.malloc_clean
    {world : World} {front back : List Nat} {os : Mmap} {size r : Nat}
    {final : HeapState}
    (separated : Separated world front back)
    (clean : Clean world.heap world.live)
    (allocated : malloc os world.heap size = some (final, r)) :
    Clean final (world.live ++ [⟨r, size⟩]) ∧
      ∀ i < size, final.mem (r + i) = 0 := by
  have shape := separated.shape
  have found := shape.room_of_malloc allocated
  by_cases small : size < 0x1000 - 0x10
  · obtain ⟨positive, _⟩ := binsSizeOf_range small
    have fits : size < 0x10 * binsSizeOf size := by
      rw [binsSizeOf_eq small]
      omega
    by_cases hasRoom : HasRoom world.heap size
    · obtain ⟨c, member, a, after, result, nonzero, inPage, clear, before,
          taken⟩ :=
        shape.malloc_of_hasRoom os small hasRoom
      have created := shape.cell_lt (List.mem_append_right front member)
      cases result.symm.trans allocated
      exact
        ⟨clean.taken separated.mapped taken created positive nonzero inPage
            before size,
          clean.taken_zero created taken nonzero inPage clear fits⟩
    · have room : world.heap.records.length < binSlots := by
        rcases found with ⟨_, roomThere⟩ | room
        · exact absurd roomThere hasRoom
        · exact room
      obtain ⟨grown, after, result, appended, _, _, taken⟩ :=
        shape.malloc_of_not_hasRoom os small hasRoom room
      rw [← appended.newAddr] at result
      cases result.symm.trans allocated
      have grownClean := clean.appended appended (Nat.le_refl pageSize)
      have grownMapped := appended.mapped (Or.inl rfl) separated.mapped
      have created : world.heap.records.length < grown.records.length := by
        simp [appended.records]
      have onlyFirst :
          ∀ k,
            (grown.bins world.heap.records.length).bin.getLsbD k =
              decide (k = 0) := by
        intro k
        rw [appended.newBits]
        simp
      have inPage : 1 + binsSizeOf size ≤ 256 := by
        rw [binsSizeOf_eq small]
        omega
      have clear :
          ClearRun (grown.bins world.heap.records.length).bin 1
            (binsSizeOf size) := by
        intro k from_ _
        rw [onlyFirst k]
        exact decide_eq_false (Nat.ne_of_gt from_)
      exact
        ⟨grownClean.taken grownMapped taken created positive Nat.one_ne_zero
            inPage (onlyFirst 0) size,
          grownClean.taken_zero created taken Nat.one_ne_zero inPage clear fits⟩
  · have room : world.heap.records.length < binSlots := by
      rcases found with ⟨isSmall, _⟩ | room
      · exact absurd isSmall small
      · exact room
    obtain ⟨after, result, appended, _, _⟩ := shape.expandHeap_eq os size room
    have isLarge : malloc os world.heap size = expandHeap os world.heap size :=
      if_pos (Nat.le_of_not_lt small)
    rw [isLarge] at allocated
    cases result.symm.trans allocated
    have covers : pageSize ≤ mappedLength size := by
      simp only [mappedLength, pageSize]
      omega
    have created : world.heap.records.length < final.records.length := by
      simp [appended.records]
    have mapped :=
      appended.mapped (Or.inr ⟨covers, allOnes_marked⟩) separated.mapped
    constructor
    · rw [← appended.newAddr]
      exact (clean.appended appended covers).add_atStart mapped created size
    · intro i inSize
      refine clean.appended_zero appended ⟨Nat.le_add_right _ _, ?_⟩
      have whole := le_mappedLength size
      dsimp only
      omega

/-- The heap of a run whose frees release what they should. -/
def Fresh (world : World) : Prop :=
  ∃ front back,
    Separated world front back ∧ Clean world.heap world.live

/-- Fresh memory is zero. -/
theorem Fresh.zeroFilled
    {world : World} (fresh : Fresh world) (os : Mmap) :
    ZeroFilled os world := by
  obtain ⟨front, back, separated, clean⟩ := fresh
  rintro size ⟨final, r⟩ allocated
  exact (separated.malloc_clean clean allocated).2

/-- After an allocation. -/
theorem Fresh.malloc
    {os : Mmap} {world next : World} {size : Nat} (fresh : Fresh world)
    (stepped : step os world (.malloc size) = some next) : Fresh next := by
  obtain ⟨front, back, separated, clean⟩ := fresh
  obtain ⟨⟨final, r⟩, allocated, isNext⟩ := Option.map_eq_some_iff.mp stepped
  obtain ⟨kept, again, front', back', later⟩ :=
    separated.step os (.malloc size) (separated.shape.room_of_malloc allocated)
  cases again.symm.trans stepped
  cases isNext
  exact
    ⟨front', back', later, (separated.malloc_clean clean allocated).1⟩

/-- A block and another one that is not it. -/
theorem Separated.extent_disjoint
    {world : World} {front back : List Nat} {k : Nat} {block other : Block}
    (separated : Separated world front back)
    (holder : world.live[k]? = some block)
    (member : other ∈ world.live.eraseIdx k) :
    block.extent.Disjoint other.extent := by
  obtain ⟨j, different, present⟩ := List.mem_eraseIdx_iff_getElem?.mp member
  obtain ⟨kBound, isBlock⟩ := List.getElem?_eq_some_iff.mp holder
  obtain ⟨jBound, isOther⟩ := List.getElem?_eq_some_iff.mp present
  have ordered := List.pairwise_iff_getElem.mp separated.extents
  rcases Nat.lt_or_gt_of_ne different with before | after
  · have apart := ordered _ _ jBound kBound before
    rw [isBlock, isOther] at apart
    exact apart.symm
  · have apart := ordered _ _ kBound jBound after
    rwa [isBlock, isOther] at apart

/-- A large block leaves no room in its page for a small one. -/
theorem Held.small_of_small
    {state : HeapState} {block other : Block} {c : Nat}
    (held : Held state block c) (small : block.Small)
    (otherHeld : Held state other c)
    (disjoint : block.extent.Disjoint other.extent) : other.Small := by
  by_contra large
  obtain ⟨ownAt, s, _, inPage, ptr⟩ := held.small small
  obtain ⟨otherAt, otherPtr⟩ := otherHeld.large large
  have sameRegion := Option.some.inj (ownAt.symm.trans otherAt)
  have sameLength : pageSize = mappedLength other.size :=
    congrArg Region.length sameRegion
  have nonempty : 0 < block.count := Nat.succ_pos _
  simp only [Block.extent, small, large, ↓reduceIte, Region.Disjoint, ptr,
    otherPtr, ← sameLength, pageSize] at disjoint
  omega

/-- What a release unmarks belongs to no other block. -/
theorem Held.spared
    {state : HeapState} {block other : Block} {c bit : Nat}
    (held : Held state block c) (small : block.Small)
    (otherHeld : Held state other c)
    (disjoint : block.extent.Disjoint other.extent)
    (releases : state.Releases block c) (inPage : bit < 256)
    (unset :
      Unset (state.blockOf c block.ptr) (freedBlocks state block.ptr) bit) :
    ¬ other.Owns (state.bins c).pageAddr bit := by
  intro owns
  have otherSmall := held.small_of_small small otherHeld disjoint
  rcases releases.2 bit inPage unset with first | own | unmarked
  · obtain ⟨_, s, nonzero, _, ptr⟩ := otherHeld.small otherSmall
    simp only [Block.Owns, Region.Contains, ptr] at owns
    omega
  · simp only [Block.Owns, Region.Contains] at own owns
    simp only [Block.extent, small, otherSmall, ↓reduceIte,
      Region.Disjoint] at disjoint
    omega
  · have set := otherHeld.marked bit inPage owns
    rw [unmarked.2] at set
    cases set

/-- After a release. -/
theorem Fresh.free
    {world next : World} {k : Nat} (fresh : Fresh world) (os : Mmap)
    (meets : KeepsZero world (.call (.free k)))
    (stepped : step os world (.free k) = some next) : Fresh next := by
  obtain ⟨front, back, separated, clean⟩ := fresh
  have shape := separated.shape
  simp only [step] at stepped
  cases holder : world.live[k]? with
  | none =>
      rw [holder] at stepped
      cases stepped
      exact ⟨front, back, separated, clean⟩
  | some block =>
      rw [holder] at stepped
      obtain ⟨heap, frees, isNext⟩ := Option.map_eq_some_iff.mp stepped
      cases isNext
      have fewer : world.live.eraseIdx k ⊆ world.live :=
        List.eraseIdx_subset
      cases found :
          (front ++ world.heap.binTail :: back).find?
            (holdsAddress world.heap block.ptr) with
      | none =>
          cases (shape.free_of_lost found).symm.trans frees
          exact ⟨front, back, separated.forget k, clean.subset fewer⟩
      | some c =>
          have created := shape.cell_lt (List.mem_of_find?_eq_some found)
          have holds := List.find?_some found
          have ends : FreeEnds world.heap block.ptr := by
            rw [FreeEnds, ← shape.blockOf_eq created holds]
            intro stuck
            rw [shape.free_eq_none found stuck] at frees
            cases frees
          have releases := meets block holder _ shape.walk_head c found ends
          obtain ⟨d, held⟩ :=
            separated.held block (List.mem_of_getElem? holder)
          cases separated.mapped.found_eq held created holds
          have small := held.small_of_freeEnds (shape.aligned c created) ends
          obtain ⟨final, result, _, _, freed, kept⟩ :=
            separated.freed holder found ends
              fun other member otherHeld bit inPage unset =>
                held.spared small otherHeld
                  (separated.extent_disjoint holder member) releases inPage
                  unset
          cases result.symm.trans frees
          obtain ⟨_, s, _, _, ptr⟩ := held.small small
          exact
            ⟨front, back, kept,
              (clean.freed (List.mem_of_getElem? holder) ptr held freed
                releases).subset fewer⟩

/-- The state after a write. -/
def HeapState.write
    (state : HeapState) (address : Nat) (value : UInt8) : HeapState :=
  { state with mem := Function.update state.mem address value }

/-- Writing keeps the blocks separated. -/
theorem Separated.write
    {world : World} {front back : List Nat}
    (separated : Separated world front back)
    (address : Nat) (value : UInt8) :
    Separated { world with heap := world.heap.write address value }
      front back where
  shape :=
    separated.shape.congr rfl rfl rfl (fun _ => ⟨rfl, rfl⟩) (fun _ _ => rfl)
  mapped :=
    { count := separated.mapped.count
      disjoint := separated.mapped.disjoint
      pages := separated.mapped.pages }
  held := by
    intro other member
    obtain ⟨d, otherHeld⟩ := separated.held other member
    exact
      ⟨d,
        { created := otherHeld.created
          small := otherHeld.small
          large := otherHeld.large
          marked := otherHeld.marked }⟩
  extents := separated.extents

/-- After a write. -/
theorem Fresh.write
    {world : World} {block : Block} {k offset : Nat} (fresh : Fresh world)
    (holder : world.live[k]? = some block) (inSize : offset < block.size)
    (value : UInt8) :
    Fresh
      { world with
        heap :=
          { world.heap with
            mem :=
              Function.update world.heap.mem (block.ptr + offset) value } } := by
  obtain ⟨front, back, separated, clean⟩ := fresh
  obtain ⟨c, held⟩ := separated.held block (List.mem_of_getElem? holder)
  exact
    ⟨front, back, separated.write _ value,
      clean.write value separated.mapped held inSize⟩

/-- A use that meets the condition keeps the heap fresh. -/
theorem Fresh.use
    {os : Mmap} {world next : World} (fresh : Fresh world) (action : Use)
    (meets : KeepsZero world action)
    (stepped : Heap.use os world action = some next) : Fresh next := by
  cases action with
  | call call =>
      cases call with
      | malloc size => exact fresh.malloc stepped
      | free k => exact fresh.free os meets stepped
  | write k offset value =>
      simp only [Heap.use] at stepped
      cases holder : world.live[k]? with
      | none =>
          rw [holder] at stepped
          cases stepped
          exact fresh
      | some block =>
          rw [holder] at stepped
          dsimp only at stepped
          split_ifs at stepped with inSize
          · cases stepped
            exact fresh.write holder inSize value
          · cases stepped
            exact fresh

/-- Everything is zero after `mem_init`. -/
theorem fresh_initial (os : Mmap) : Fresh (World.initial os) :=
  ⟨[], [], separated_initial os,
    { inRegions := fun _ notZero => absurd rfl notZero
      unmarked := fun _ _ _ _ _ _ _ _ => rfl
      sizeBytes := fun _ absent => absurd absent List.not_mem_nil }⟩

/--
In every run whose frees release the allocation and nothing else, whatever the
callers write to their blocks: in every state the memory handed out next is
zero.
-/
theorem zeroFilled_of_keepsZero
    (os : Mmap) (uses : List Use)
    (guarded :
      GuardedRun.Guarded (use os) KeepsZero (World.initial os) uses) :
    ∀ world ∈ GuardedRun.run (use os) (World.initial os) uses,
      ZeroFilled os world := by
  intro world reached
  have fresh :=
    GuardedRun.invariant_of_run
      (fun _ action fresh meets _ stepped => Fresh.use fresh action meets stepped)
      (fresh_initial os) guarded world reached
  exact fresh.zeroFilled os

/-- Two blocks that are written to and freed from the last one on. -/
def lastFirst : List Use :=
  [.call (.malloc 40), .call (.malloc 100), .write 0 3 7, .write 1 99 7,
    .call (.free 1), .call (.free 0)]

/-- Neighbours freed from the last one on leave zeros. -/
theorem zeroFilled_lastFirst :
    ∃ world ∈
        GuardedRun.run (use Mmap.above) (World.initial Mmap.above) lastFirst,
      ZeroFilled Mmap.above world := by
  have ends :
      (GuardedRun.run (use Mmap.above) (World.initial Mmap.above)
        lastFirst).isSome := by
    decide +kernel
  obtain ⟨world, reached⟩ := Option.isSome_iff_exists.mp ends
  exact
    ⟨world, reached,
      zeroFilled_of_keepsZero Mmap.above lastFirst (by decide +kernel) world
        reached⟩

/--
Freeing the first of two neighbours wipes the size byte of the second: freeing
that one clears nothing, and what was written to it is handed out again.
-/
theorem not_zeroFilled_firstFirst :
    ∃ world ∈
        GuardedRun.run (use Mmap.above) (World.initial Mmap.above)
          [.call (.malloc 1), .call (.malloc 1), .write 1 0 7,
            .call (.free 0), .call (.free 0)],
      ¬ ZeroFilled Mmap.above world := by
  have dirty :
      ∃ world ∈
          GuardedRun.run (use Mmap.above) (World.initial Mmap.above)
            [.call (.malloc 1), .call (.malloc 1), .write 1 0 7,
              .call (.free 0), .call (.free 0)],
        ∃ result ∈ malloc Mmap.above world.heap 20,
          result.1.mem (result.2 + 16) ≠ 0 := by
    decide +kernel
  obtain ⟨world, reached, result, allocated, notZero⟩ := dirty
  exact
    ⟨world, reached,
      fun filled => notZero (filled 20 result allocated 16 (by decide))⟩

end BinTools.Heap
