import BinTools.HeapRecords

namespace BinTools.Heap

/-!
# Disjointness of the live blocks

A live block is held by its record: a small one by the blocks marked in the
bitmap of its page, a large one by a fully marked bitmap.  Allocation only
takes unmarked blocks, so as long as `__free` clears no block of another live
allocation, the blocks handed out never overlap.
-/

/-- The requested size is served from a page of blocks. -/
def Block.Small (block : Block) : Prop :=
  block.size < 0x1000 - 0x10

instance (block : Block) : Decidable block.Small :=
  inferInstanceAs (Decidable (_ < _))

/-- The bytes `[r, r+n)` of an allocation. -/
def Block.range (block : Block) : Region :=
  ⟨block.ptr, block.size⟩

/-- The address lies in the range. -/
def Region.Contains (region : Region) (address : Nat) : Prop :=
  region.base ≤ address ∧ address < region.base + region.length

instance (region : Region) (address : Nat) :
    Decidable (region.Contains address) :=
  inferInstanceAs (Decidable (_ ∧ _))

instance (first second : Region) : Decidable (first.Disjoint second) :=
  inferInstanceAs (Decidable (_ ∨ _))

/--
Two allocations keep clear of each other: their bytes are disjoint, and neither
contains the size byte in front of the other, if that one is small.
-/
def Block.Apart (first second : Block) : Prop :=
  first.range.Disjoint second.range ∧
    (second.Small → ¬ first.range.Contains (second.ptr - 1)) ∧
      (first.Small → ¬ second.range.Contains (first.ptr - 1))

instance (first second : Block) : Decidable (first.Apart second) :=
  inferInstanceAs (Decidable (_ ∧ _ ∧ _))

/--
The live allocations keep clear of each other, and each lies inside one mapped
range, which is a single page for a small one.
-/
structure HeapSound (world : World) : Prop where
  apart : world.live.Pairwise Block.Apart
  inside :
    ∀ block ∈ world.live,
      ∃ region ∈ world.heap.regions,
        region.base ≤ block.ptr ∧
          block.ptr + block.size ≤ region.base + region.length ∧
            (block.Small → region.length = pageSize)

instance (world : World) : Decidable (HeapSound world) :=
  decidable_of_iff
    (world.live.Pairwise Block.Apart ∧
      ∀ block ∈ world.live,
        ∃ region ∈ world.heap.regions,
          region.base ≤ block.ptr ∧
            block.ptr + block.size ≤ region.base + region.length ∧
              (block.Small → region.length = pageSize))
    ⟨fun ⟨apart, inside⟩ => ⟨apart, inside⟩,
      fun ⟨apart, inside⟩ => ⟨apart, inside⟩⟩

/-- The number of blocks an allocation takes. -/
def Block.count (block : Block) : Nat :=
  block.size / 0x10 + 1

/-- Block `k` of the page at `pageAddr` belongs to the allocation. -/
def Block.Owns (block : Block) (pageAddr k : Nat) : Prop :=
  (⟨block.ptr, 0x10 * block.count⟩ : Region).Contains (pageAddr + 0x10 * k)

instance (block : Block) (pageAddr k : Nat) :
    Decidable (block.Owns pageAddr k) :=
  inferInstanceAs (Decidable (Region.Contains _ _))

/--
The condition for a call to keep live allocations apart: a new record has room
in the metadata page; a pointer that is freed has a reachable record, `__free`
comes back and none of the blocks it unmarks belongs to another allocation.
-/
def KeepsApart (world : World) : Call → Prop
  | .malloc size =>
      size < 0x1000 - 0x10 ∧ HasRoom world.heap size ∨
        world.heap.records.length < binSlots
  | .free k =>
      ∀ block ∈ world.live[k]?,
        ∀ cells ∈ world.heap.walk world.heap.binHead,
          ∀ c ∈ cells.find? (holdsAddress world.heap block.ptr),
            FreeEnds world.heap block.ptr ∧
              ∀ other ∈ world.live.eraseIdx k,
                ∀ k < 256,
                  Unset (world.heap.blockOf c block.ptr)
                      (freedBlocks world.heap block.ptr) k →
                    ¬ other.Owns (world.heap.bins c).pageAddr k

instance (world : World) (call : Call) : Decidable (KeepsApart world call) :=
  match call with
  | .malloc size =>
      inferInstanceAs
        (Decidable
          (size < 0x1000 - 0x10 ∧ HasRoom world.heap size ∨
            world.heap.records.length < binSlots))
  | .free k =>
      inferInstanceAs
        (Decidable
          (∀ block ∈ world.live[k]?,
            ∀ cells ∈ world.heap.walk world.heap.binHead,
              ∀ c ∈ cells.find? (holdsAddress world.heap block.ptr),
                FreeEnds world.heap block.ptr ∧
                  ∀ other ∈ world.live.eraseIdx k,
                    ∀ k < 256,
                      Unset (world.heap.blockOf c block.ptr)
                          (freedBlocks world.heap block.ptr) k →
                        ¬ other.Owns (world.heap.bins c).pageAddr k))

/-- Every block of the page is marked. -/
def FullyMarked (bits : Bitmap) : Prop :=
  ∀ k < 256, bits.getLsbD k = true

/--
Every record describes the range mapped for it, and the mapped ranges are
disjoint.  The first range is the metadata page.  The range of a record with
an unmarked block is a single page.
-/
structure Mapped (state : HeapState) : Prop where
  count : state.regions.length = state.records.length + 1
  disjoint : state.regions.Pairwise Region.Disjoint
  pages :
    ∀ c < state.records.length,
      ∃ region,
        state.regions[c + 1]? = some region ∧
          region.base = (state.bins c).pageAddr ∧
            pageSize ≤ region.length ∧
              (region.length = pageSize ∨ FullyMarked (state.bins c).bin)

/-- All bytes set aside for an allocation. -/
def Block.extent (block : Block) : Region :=
  if block.Small then ⟨block.ptr, 0x10 * block.count⟩
  else ⟨block.ptr, mappedLength block.size⟩

/-- Record `c` holds the allocation. -/
structure Held (state : HeapState) (block : Block) (c : Nat) : Prop where
  created : c < state.records.length
  small :
    block.Small →
      state.regions[c + 1]? = some ⟨(state.bins c).pageAddr, pageSize⟩ ∧
        ∃ a,
          a ≠ 0 ∧ a + block.count ≤ 256 ∧
            block.ptr = (state.bins c).pageAddr + 0x10 * a
  large :
    ¬ block.Small →
      state.regions[c + 1]? =
          some ⟨(state.bins c).pageAddr, mappedLength block.size⟩ ∧
        block.ptr = (state.bins c).pageAddr
  marked :
    ∀ k < 256,
      block.Owns (state.bins c).pageAddr k →
        (state.bins c).bin.getLsbD k = true

/-- Whole pages cover the size. -/
theorem le_mappedLength (size : Nat) : size ≤ mappedLength size := by
  simp only [mappedLength, pageSize]
  omega

/-- The kernel maps whole pages. -/
theorem mappedLength_mod (size : Nat) : mappedLength size % pageSize = 0 := by
  simp [mappedLength]

/-- The requested bytes are set aside, and a small request leaves one spare. -/
theorem Block.size_le_extent (block : Block) :
    block.extent.base = block.ptr ∧
      block.size ≤ block.extent.length ∧
        (block.Small → block.size < block.extent.length) := by
  by_cases small : block.Small
  · have extentIs : block.extent = ⟨block.ptr, 0x10 * block.count⟩ :=
      if_pos small
    simp only [extentIs, count, true_and]
    omega
  · have covers := le_mappedLength block.size
    simp [extent, small, covers]

/-- The extent of a held block lies in the range mapped for its record. -/
theorem Held.extent_inside
    {state : HeapState} {block : Block} {c : Nat}
    (held : Held state block c) :
    ∃ region,
      state.regions[c + 1]? = some region ∧
        region.base ≤ block.extent.base ∧
          block.extent.base + block.extent.length ≤
              region.base + region.length ∧
            (block.Small → region.length = pageSize) := by
  by_cases small : block.Small
  · obtain ⟨mapped, a, _, inPage, ptr⟩ := held.small small
    have extentIs : block.extent = ⟨block.ptr, 0x10 * block.count⟩ :=
      if_pos small
    refine ⟨_, mapped, ?_⟩
    simp only [extentIs, ptr, pageSize, implies_true, and_true]
    omega
  · obtain ⟨mapped, ptr⟩ := held.large small
    refine ⟨_, mapped, ?_⟩
    simp [Block.extent, small, ptr]

/-- Different records describe disjoint ranges. -/
theorem Mapped.regions_disjoint
    {state : HeapState} (mapped : Mapped state)
    {first second : Region} {c d : Nat}
    (firstAt : state.regions[c + 1]? = some first)
    (secondAt : state.regions[d + 1]? = some second)
    (different : c ≠ d) :
    first.Disjoint second := by
  have ordered := List.pairwise_iff_getElem.mp mapped.disjoint
  obtain ⟨firstBound, firstIs⟩ := List.getElem?_eq_some_iff.mp firstAt
  obtain ⟨secondBound, secondIs⟩ := List.getElem?_eq_some_iff.mp secondAt
  rcases Nat.lt_or_gt_of_ne different with before | after
  · have apart := ordered _ _ firstBound secondBound (by omega)
    rwa [firstIs, secondIs] at apart
  · have apart := ordered _ _ secondBound firstBound (by omega)
    rw [firstIs, secondIs] at apart
    exact apart.symm

/-- Blocks of different records are disjoint. -/
theorem Mapped.extents_disjoint
    {state : HeapState} (mapped : Mapped state)
    {first second : Block} {c d : Nat}
    (firstHeld : Held state first c) (secondHeld : Held state second d)
    (different : c ≠ d) :
    first.extent.Disjoint second.extent := by
  obtain ⟨firstRegion, firstAt, firstInside⟩ := firstHeld.extent_inside
  obtain ⟨secondRegion, secondAt, secondInside⟩ := secondHeld.extent_inside
  have regionsApart := mapped.regions_disjoint firstAt secondAt different
  simp only [Region.Disjoint] at regionsApart ⊢
  omega

/-- Where a held pointer lies in its page. -/
theorem Held.ptr_mod
    {state : HeapState} {block : Block} {c : Nat}
    (held : Held state block c)
    (aligned : (state.bins c).pageAddr % pageSize = 0) :
    block.ptr % pageSize = 0 ↔ ¬ block.Small := by
  simp only [pageSize] at aligned ⊢
  by_cases small : block.Small
  · obtain ⟨_, a, nonzero, inPage, ptr⟩ := held.small small
    have positive : 0 < block.count := Nat.succ_pos _
    simp only [small, not_true_eq_false, iff_false, ptr]
    omega
  · obtain ⟨_, ptr⟩ := held.large small
    simp only [small, not_false_eq_true, iff_true, ptr]
    exact aligned

/-- The size byte of a small block lies in no block disjoint from it. -/
theorem not_contains_sizeByte
    {first second : Block}
    (firstAligned : first.ptr % pageSize = 0 ↔ ¬ first.Small)
    (secondAligned : second.ptr % pageSize = 0 ↔ ¬ second.Small)
    (disjoint : first.extent.Disjoint second.extent)
    (small : second.Small) :
    ¬ first.range.Contains (second.ptr - 1) := by
  rintro ⟨above, below⟩
  obtain ⟨firstBase, firstSize, firstSpare⟩ := first.size_le_extent
  obtain ⟨secondBase, _, secondSpare⟩ := second.size_le_extent
  have secondPositive := secondSpare small
  simp only [Region.Disjoint, firstBase, secondBase, Block.range]
    at disjoint above below
  by_cases firstSmall : first.Small
  · have spare := firstSpare firstSmall
    have offset : second.ptr ≠ 0 := by
      intro zero
      exact secondAligned.mp (by simp [zero]) small
    omega
  · -- A large range ends at a page boundary, where no small block starts.
    have whole := mappedLength_mod first.size
    have firstZero := firstAligned.mpr firstSmall
    have secondNonzero : second.ptr % pageSize ≠ 0 := by
      intro zero
      exact secondAligned.mp zero small
    simp only [Block.extent, firstSmall, ↓reduceIte] at disjoint firstSize
    simp only [pageSize] at whole firstZero secondNonzero
    omega

/-- The invariant of guarded runs. -/
structure Separated (world : World) (front back : List Nat) : Prop where
  shape : Shape world.heap front back
  mapped : Mapped world.heap
  held : ∀ block ∈ world.live, ∃ c, Held world.heap block c
  extents :
    world.live.Pairwise
      fun first second => first.extent.Disjoint second.extent

/-- Separated blocks keep clear of each other and of the size bytes. -/
theorem Separated.heapSound
    {world : World} {front back : List Nat}
    (separated : Separated world front back) :
    HeapSound world where
  apart := by
    refine List.Pairwise.imp_of_mem ?_ separated.extents
    intro first second firstLive secondLive disjoint
    obtain ⟨c, firstHeld⟩ := separated.held first firstLive
    obtain ⟨d, secondHeld⟩ := separated.held second secondLive
    have firstAligned :=
      firstHeld.ptr_mod (separated.shape.aligned c firstHeld.created)
    have secondAligned :=
      secondHeld.ptr_mod (separated.shape.aligned d secondHeld.created)
    obtain ⟨firstBase, firstSize, _⟩ := first.size_le_extent
    obtain ⟨secondBase, secondSize, _⟩ := second.size_le_extent
    refine
      ⟨?_, not_contains_sizeByte firstAligned secondAligned disjoint,
        not_contains_sizeByte secondAligned firstAligned disjoint.symm⟩
    simp only [Region.Disjoint, firstBase, secondBase, Block.range]
      at disjoint ⊢
    omega
  inside := by
    intro block live
    obtain ⟨c, held⟩ := separated.held block live
    obtain ⟨region, mapped, below, above, single⟩ := held.extent_inside
    obtain ⟨base, size, _⟩ := block.size_le_extent
    refine ⟨region, List.mem_of_getElem? mapped, ?_, ?_, single⟩ <;> omega

/-- A fresh range behind the mapped ones keeps them disjoint. -/
theorem Appended.mapped
    {os : Mmap} {state final : HeapState}
    {size : Nat} {bits : Bitmap} {cell : Nat}
    (appended : Appended os state final size bits cell)
    (whole :
      mappedLength size = pageSize ∨
        pageSize ≤ mappedLength size ∧ FullyMarked bits)
    (mapped : Mapped state) :
    Mapped final where
  count := by
    simp [appended.regions, appended.records, mapped.count]
  disjoint := by
    rw [appended.regions, List.pairwise_append]
    refine ⟨mapped.disjoint, by simp, ?_⟩
    intro region member fresh isFresh
    rw [List.mem_singleton.mp isFresh]
    exact os.fresh _ _ region member
  pages := by
    intro c created
    rw [appended.records, List.length_append, List.length_singleton] at created
    by_cases newest : c = state.records.length
    · subst newest
      refine
        ⟨⟨os.map state.regions size, mappedLength size⟩, ?_,
          appended.newAddr.symm, ?_, ?_⟩
      · rw [appended.regions, ← mapped.count]
        exact List.getElem?_concat_length
      · rcases whole with single | ⟨covers, _⟩
        · exact Nat.le_of_eq single.symm
        · exact covers
      · rw [appended.newBits]
        exact whole.imp_right And.right
    · obtain ⟨region, present, base, kind⟩ := mapped.pages c (by omega)
      obtain ⟨sameBits, sameAddr⟩ := appended.old c newest
      refine ⟨region, ?_, by rw [base, sameAddr], by rwa [sameBits]⟩
      rw [appended.regions]
      exact List.getElem?_append_left (List.getElem?_eq_some_iff.mp present).1 ▸
        present

/-- A held block stays held while its record and mapping stay. -/
theorem Held.mono
    {state final : HeapState} {block : Block} {c : Nat}
    (held : Held state block c)
    (created : c < final.records.length)
    (sameAddr : (final.bins c).pageAddr = (state.bins c).pageAddr)
    (sameRegion :
      ∀ region,
        state.regions[c + 1]? = some region →
          final.regions[c + 1]? = some region)
    (marked :
      ∀ k < 256,
        block.Owns (state.bins c).pageAddr k →
          (state.bins c).bin.getLsbD k = true →
            (final.bins c).bin.getLsbD k = true) :
    Held final block c where
  created := created
  small := by
    intro small
    rw [sameAddr]
    exact ⟨sameRegion _ (held.small small).1, (held.small small).2⟩
  large := by
    intro large
    rw [sameAddr]
    exact ⟨sameRegion _ (held.large large).1, (held.large large).2⟩
  marked := by
    intro k inPage owns
    rw [sameAddr] at owns
    exact marked k inPage owns (held.marked k inPage owns)

/-- Appending a record keeps every block held. -/
theorem Appended.held_of
    {os : Mmap} {state final : HeapState}
    {size : Nat} {bits : Bitmap} {cell c : Nat} {block : Block}
    (appended : Appended os state final size bits cell)
    (held : Held state block c) :
    Held final block c := by
  have created := held.created
  obtain ⟨sameBits, sameAddr⟩ := appended.old c (Nat.ne_of_lt created)
  refine held.mono ?_ sameAddr ?_ ?_
  · rw [appended.records, List.length_append]
    omega
  · intro region present
    rw [appended.regions]
    exact List.getElem?_append_left (List.getElem?_eq_some_iff.mp present).1 ▸
      present
  · intro k _ _ set
    rwa [sameBits]

/-- Rewriting a bitmap keeps a block held whose own bits stay set. -/
theorem Rewritten.held_of
    {state final : HeapState} {slot c : Nat} {block : Block}
    (rewritten : Rewritten state final slot)
    (held : Held state block c)
    (kept :
      c = slot →
        ∀ k < 256,
          block.Owns (state.bins c).pageAddr k →
            (state.bins c).bin.getLsbD k = true →
              (final.bins c).bin.getLsbD k = true) :
    Held final block c := by
  refine held.mono ?_ (rewritten.links c).2 ?_ ?_
  · rw [rewritten.records]
    exact held.created
  · intro region present
    rwa [rewritten.regions]
  · intro k inPage owns set
    by_cases same : c = slot
    · exact kept same k inPage owns set
    · rwa [rewritten.others c same]

/-- Rewriting the bitmap of a single page keeps the mapped ranges. -/
theorem Rewritten.mapped
    {state final : HeapState} {slot : Nat}
    (rewritten : Rewritten state final slot)
    (single :
      state.regions[slot + 1]? =
        some ⟨(state.bins slot).pageAddr, pageSize⟩)
    (mapped : Mapped state) :
    Mapped final where
  count := by rw [rewritten.regions, rewritten.records, mapped.count]
  disjoint := by
    rw [rewritten.regions]
    exact mapped.disjoint
  pages := by
    intro c created
    rw [rewritten.records] at created
    rw [rewritten.regions, (rewritten.links c).2]
    by_cases same : c = slot
    · subst same
      exact ⟨_, single, rfl, Nat.le_refl _, Or.inl rfl⟩
    · rw [rewritten.others c same]
      exact mapped.pages c created

/-- A record with an unmarked block describes a single page. -/
theorem Mapped.single
    {state : HeapState} (mapped : Mapped state) {c k : Nat}
    (created : c < state.records.length)
    (inPage : k < 256)
    (unmarked : (state.bins c).bin.getLsbD k = false) :
    state.regions[c + 1]? = some ⟨(state.bins c).pageAddr, pageSize⟩ := by
  obtain ⟨region, present, base, _, kind⟩ := mapped.pages c created
  have length : region.length = pageSize := by
    rcases kind with single | full
    · exact single
    · rw [full k inPage] at unmarked
      cases unmarked
  rw [present, ← base, ← length]

/-- Blocks taken from a clear run are disjoint from the held ones. -/
theorem Held.disjoint_of_clearRun
    {state : HeapState} {block : Block} {c a q ptr size : Nat}
    (held : Held state block c)
    (inPage : a + q ≤ 256)
    (clear : ClearRun (state.bins c).bin a q)
    (positive : 0 < q)
    (ptrIs : ptr = (state.bins c).pageAddr + 0x10 * a)
    (sizeIs : size = 0x10 * q) :
    block.extent.Disjoint ⟨ptr, size⟩ := by
  have unowned :
      ∀ k, a ≤ k → k < a + q → ¬ block.Owns (state.bins c).pageAddr k := by
    intro k fromStart below owns
    have set := held.marked k (by omega) owns
    rw [clear k fromStart below] at set
    cases set
  by_cases small : block.Small
  · obtain ⟨_, start, _, _, blockPtr⟩ := held.small small
    have nonempty : 0 < block.count := Nat.succ_pos _
    simp only [Block.extent, small, ↓reduceIte, Region.Disjoint, ptrIs, sizeIs,
      blockPtr]
    by_contra overlap
    refine unowned (max start a) ?_ ?_ ?_
    · omega
    · omega
    · simp only [Block.Owns, Region.Contains, blockPtr]
      omega
  · refine absurd ?_ (unowned a (Nat.le_refl _) (by omega))
    simp only [Block.Small, Nat.not_lt] at small
    simp only [Block.Owns, Region.Contains, Block.count,
      (held.large (Nat.not_lt.mpr small)).2]
    omega

/-- One more allocation, apart from the ones before, keeps all separated. -/
theorem Separated.add
    {world : World} {front back newFront newBack : List Nat}
    {final : HeapState} {block : Block} {c : Nat}
    (separated : Separated world front back)
    (shape : Shape final newFront newBack)
    (mapped : Mapped final)
    (keeps :
      ∀ other ∈ world.live, ∀ d,
        Held world.heap other d → Held final other d)
    (held : Held final block c)
    (apart :
      ∀ other ∈ world.live,
        Held final other c → other.extent.Disjoint block.extent) :
    Separated ⟨final, world.live ++ [block]⟩ newFront newBack where
  shape := shape
  mapped := mapped
  held := by
    intro other member
    rcases List.mem_append.mp member with old | isNew
    · obtain ⟨d, oldHeld⟩ := separated.held other old
      exact ⟨d, keeps other old d oldHeld⟩
    · rw [List.mem_singleton.mp isNew]
      exact ⟨c, held⟩
  extents := by
    rw [List.pairwise_append]
    refine ⟨separated.extents, by simp, ?_⟩
    intro other old new isNew
    rw [List.mem_singleton.mp isNew]
    obtain ⟨d, oldHeld⟩ := separated.held other old
    have stillHeld := keeps other old d oldHeld
    by_cases same : d = c
    · subst same
      exact apart other old stillHeld
    · exact mapped.extents_disjoint stillHeld held same

/-- The bitmap of a large mapping is fully marked. -/
theorem allOnes_marked : FullyMarked (BitVec.allOnes 256) := by
  intro k inPage
  rw [BitVec.getLsbD_allOnes, decide_eq_true inPage]

/-- A large request gets a range of its own. -/
theorem Separated.malloc_large
    {world : World} {front back : List Nat}
    (separated : Separated world front back)
    (os : Mmap) {size : Nat}
    (large : ¬ size < 0x1000 - 0x10)
    (room : world.heap.records.length < binSlots) :
    ∃ next ∈ step os world (.malloc size),
      Separated next front (back ++ [world.heap.records.length]) := by
  obtain ⟨final, expanded, appended, _, shape⟩ :=
    separated.shape.expandHeap_eq os size room
  have created : world.heap.records.length < final.records.length := by
    simp [appended.records]
  have covers : pageSize ≤ mappedLength size := by
    simp only [mappedLength, pageSize]
    omega
  have mapped :=
    appended.mapped (Or.inr ⟨covers, allOnes_marked⟩) separated.mapped
  have held :
      Held final ⟨os.map world.heap.regions size, size⟩
        world.heap.records.length :=
    { created := created
      small := fun small => absurd small large
      large := by
        intro _
        rw [appended.newAddr, appended.regions, ← separated.mapped.count]
        exact ⟨List.getElem?_concat_length, rfl⟩
      marked := by
        intro k inPage _
        rw [appended.newBits]
        exact allOnes_marked k inPage }
  refine
    ⟨⟨final, world.live ++ [⟨os.map world.heap.regions size, size⟩]⟩, ?_,
      separated.add shape mapped (fun _ _ _ => appended.held_of) held ?_⟩
  · simp [step, malloc, Nat.le_of_not_lt large, expanded]
  · -- The new range lies apart from the ranges of all other records.
    intro other old _
    obtain ⟨d, oldHeld⟩ := separated.held other old
    exact
      mapped.extents_disjoint
        (appended.held_of oldHeld) held (Nat.ne_of_lt oldHeld.created)

/-- The blocks just marked hold the allocation. -/
theorem Held.of_taken
    {state final : HeapState} {c a size : Nat}
    (rewritten : Rewritten state final c)
    (created : c < state.records.length)
    (single :
      state.regions[c + 1]? = some ⟨(state.bins c).pageAddr, pageSize⟩)
    (small : size < 0x1000 - 0x10)
    (nonzero : a ≠ 0)
    (inPage : a + binsSizeOf size ≤ 256)
    (bitsOf :
      ∀ k,
        (final.bins c).bin.getLsbD k =
          ((state.bins c).bin.getLsbD k ||
            decide (a ≤ k ∧ k < a + binsSizeOf size))) :
    Held final ⟨(state.bins c).pageAddr + 0x10 * a, size⟩ c where
  created := by
    rw [rewritten.records]
    exact created
  small := by
    intro _
    rw [binsSizeOf_eq small] at inPage
    rw [rewritten.regions, (rewritten.links c).2]
    exact ⟨single, a, nonzero, inPage, rfl⟩
  large := fun large => absurd small large
  marked := by
    intro k _ owns
    rw [(rewritten.links c).2] at owns
    simp only [Block.Owns, Block.count, Region.Contains,
      ← binsSizeOf_eq small] at owns
    have inRun : a ≤ k ∧ k < a + binsSizeOf size := by omega
    rw [bitsOf k]
    simp [inRun]

/-- Marking blocks keeps every block held. -/
theorem Rewritten.held_of_taken
    {state final : HeapState} {c d a q : Nat} {block : Block}
    (rewritten : Rewritten state final c)
    (bitsOf :
      ∀ k,
        (final.bins c).bin.getLsbD k =
          ((state.bins c).bin.getLsbD k || decide (a ≤ k ∧ k < a + q)))
    (held : Held state block d) :
    Held final block d := by
  refine rewritten.held_of held ?_
  rintro rfl k _ _ set
  rw [bitsOf k, set, Bool.true_or]

/-- The extent of a small allocation. -/
theorem extent_small
    {ptr size : Nat} (small : size < 0x1000 - 0x10) :
    Block.extent ⟨ptr, size⟩ = ⟨ptr, 0x10 * binsSizeOf size⟩ := by
  have isSmall : Block.Small ⟨ptr, size⟩ := small
  simp [Block.extent, isSmall, Block.count, binsSizeOf_eq small]

/-- A small request that finds room gets blocks nobody holds. -/
theorem Separated.malloc_of_hasRoom
    {world : World} {front back : List Nat}
    (separated : Separated world front back)
    (os : Mmap) {size : Nat}
    (small : size < 0x1000 - 0x10)
    (hasRoom : HasRoom world.heap size) :
    ∃ next ∈ step os world (.malloc size), Separated next front back := by
  have shape := separated.shape
  obtain ⟨c, member, a, final, allocated, nonzero, inPage, clear, _, rewritten,
      bitsOf, _⟩ :=
    shape.malloc_of_hasRoom os small hasRoom
  have positive := (binsSizeOf_range small).1
  have created : c < world.heap.records.length :=
    shape.cell_lt (List.mem_append_right front member)
  have single :=
    separated.mapped.single created (k := a) (by omega)
      (clear a (Nat.le_refl _) (by omega))
  have held :=
    Held.of_taken rewritten created single small nonzero inPage bitsOf
  refine
    ⟨⟨final,
        world.live ++ [⟨(world.heap.bins c).pageAddr + 0x10 * a, size⟩]⟩, ?_,
      separated.add (shape.rewritten rewritten created)
        (rewritten.mapped single separated.mapped)
        (fun _ _ _ => rewritten.held_of_taken bitsOf) held ?_⟩
  · simp [step, allocated]
  · intro other old stillHeld
    obtain ⟨d, oldHeld⟩ := separated.held other old
    by_cases same : d = c
    · subst same
      rw [extent_small small]
      exact oldHeld.disjoint_of_clearRun inPage clear positive rfl rfl
    · exact
        (rewritten.mapped single separated.mapped).extents_disjoint
          (rewritten.held_of_taken bitsOf oldHeld) held same

/-- A small request that finds no room gets blocks of a page of its own. -/
theorem Separated.malloc_of_not_hasRoom
    {world : World} {front back : List Nat}
    (separated : Separated world front back)
    (os : Mmap) {size : Nat}
    (small : size < 0x1000 - 0x10)
    (noRoom : ¬ HasRoom world.heap size)
    (room : world.heap.records.length < binSlots) :
    ∃ next ∈ step os world (.malloc size),
      Separated next (front ++ [world.heap.binTail]) [] := by
  obtain ⟨grown, final, allocated, appended, _, shape, rewritten, bitsOf,
      _⟩ :=
    separated.shape.malloc_of_not_hasRoom os small noRoom room
  have qInRange := (binsSizeOf_range small).2
  have created : world.heap.records.length < grown.records.length := by
    simp [appended.records]
  have grownMapped := appended.mapped (Or.inl rfl) separated.mapped
  have single :
      grown.regions[world.heap.records.length + 1]? =
        some
          ⟨(grown.bins world.heap.records.length).pageAddr, pageSize⟩ := by
    rw [appended.newAddr, appended.regions, ← separated.mapped.count]
    exact List.getElem?_concat_length
  have held :=
    Held.of_taken rewritten created single small (a := 1) (by decide)
      (by omega) bitsOf
  rw [appended.newAddr] at held
  have keeps :
      ∀ other ∈ world.live, ∀ d,
        Held world.heap other d → Held final other d := by
    intro other _ d oldHeld
    exact rewritten.held_of_taken bitsOf (appended.held_of oldHeld)
  have mapped := rewritten.mapped single grownMapped
  refine
    ⟨⟨final,
        world.live ++
          [⟨os.map world.heap.regions pageSize + 0x10 * 1, size⟩]⟩, ?_,
      separated.add shape mapped keeps held ?_⟩
  · simp [step, allocated]
  · intro other old _
    obtain ⟨d, oldHeld⟩ := separated.held other old
    exact
      mapped.extents_disjoint
        (keeps other old d oldHeld) held (Nat.ne_of_lt oldHeld.created)

/-- A held block is found at its own record or not at all. -/
theorem Mapped.found_eq
    {state : HeapState} (mapped : Mapped state)
    {block : Block} {c d : Nat}
    (held : Held state block d)
    (created : c < state.records.length)
    (holds : holdsAddress state block.ptr c = true) :
    c = d := by
  by_contra different
  obtain ⟨region, present, base, covers, _⟩ := mapped.pages c created
  obtain ⟨own, ownPresent, below, above, _⟩ := held.extent_inside
  obtain ⟨extentBase, _, nonempty⟩ := block.size_le_extent
  obtain ⟨fromBase, inPage⟩ := holdsAddress_iff.mp holds
  have positive : 0 < block.extent.length := by
    by_cases small : block.Small
    · have spare := nonempty small
      omega
    · have wide := (Block.size_le_extent block).2.1
      simp only [Block.Small] at small
      omega
  have apart := mapped.regions_disjoint present ownPresent different
  simp only [Region.Disjoint] at apart
  omega

/-- Only small blocks can be freed: the bound for a large one is 255. -/
theorem Held.small_of_freeEnds
    {state : HeapState} {block : Block} {c : Nat}
    (held : Held state block c)
    (aligned : (state.bins c).pageAddr % pageSize = 0)
    (ends : FreeEnds state block.ptr) :
    block.Small := by
  by_contra large
  have atStart := (held.ptr_mod aligned).mpr large
  simp [FreeEnds, freedBlocks, atStart] at ends

/-- Freeing a block whose record is found keeps the others separated. -/
theorem Separated.freed
    {world : World} {front back : List Nat} {k c : Nat} {block : Block}
    (separated : Separated world front back)
    (holder : world.live[k]? = some block)
    (found :
      (front ++ world.heap.binTail :: back).find?
          (holdsAddress world.heap block.ptr) =
        some c)
    (ends : FreeEnds world.heap block.ptr)
    (spared :
      ∀ other ∈ world.live.eraseIdx k, Held world.heap other c →
        ∀ bit < 256,
          Unset (world.heap.blockOf c block.ptr)
              (freedBlocks world.heap block.ptr) bit →
            ¬ other.Owns (world.heap.bins c).pageAddr bit) :
    ∃ final,
      Heap.free world.heap block.ptr = some final ∧
        Held world.heap block c ∧ block.Small ∧
        Freed world.heap final c block.ptr
          (freedBlocks world.heap block.ptr) ∧
        Separated ⟨final, world.live.eraseIdx k⟩ front back := by
  have shape := separated.shape
  obtain ⟨d, held⟩ := separated.held block (List.mem_of_getElem? holder)
  have created := shape.cell_lt (List.mem_of_find?_eq_some found)
  have holds := List.find?_some found
  have aligned := shape.aligned c created
  cases separated.mapped.found_eq held created holds
  have small := held.small_of_freeEnds aligned ends
  have single := (held.small small).1
  rw [FreeEnds, ← shape.blockOf_eq created holds] at ends
  obtain ⟨final, frees, freed⟩ := shape.free_of_found found ends
  refine
    ⟨final, frees, held, small, freed,
      { shape := shape.rewritten freed.rewritten created
        mapped := freed.rewritten.mapped single separated.mapped
        held := ?_
        extents :=
          separated.extents.sublist (List.eraseIdx_sublist world.live k) }⟩
  intro other member
  obtain ⟨e, otherHeld⟩ :=
    separated.held other (List.mem_of_mem_eraseIdx member)
  refine ⟨e, freed.rewritten.held_of otherHeld ?_⟩
  rintro rfl bit inPage owns set
  have notUnset :
      ¬ Unset (world.heap.blockOf e block.ptr)
          (freedBlocks world.heap block.ptr) bit :=
    fun unset => spared other member otherHeld bit inPage unset owns
  rw [freed.bits bit, set, decide_eq_false notUnset]
  rfl

/-- Forgetting a block leaves the others separated. -/
theorem Separated.forget
    {world : World} {front back : List Nat}
    (separated : Separated world front back) (k : Nat) :
    Separated ⟨world.heap, world.live.eraseIdx k⟩ front back where
  shape := separated.shape
  mapped := separated.mapped
  held := fun other member =>
    separated.held other (List.mem_of_mem_eraseIdx member)
  extents := separated.extents.sublist (List.eraseIdx_sublist world.live k)

/-- Freeing keeps the other blocks separated. -/
theorem Separated.free
    {world : World} {front back : List Nat}
    (separated : Separated world front back)
    (os : Mmap) {k : Nat}
    (meets : KeepsApart world (.free k)) :
    ∃ next ∈ step os world (.free k), Separated next front back := by
  have shape := separated.shape
  cases holder : world.live[k]? with
  | none => exact ⟨world, by simp [step, holder], separated⟩
  | some block =>
      cases found :
          (front ++ world.heap.binTail :: back).find?
            (holdsAddress world.heap block.ptr) with
      | none =>
          refine
            ⟨⟨world.heap, world.live.eraseIdx k⟩, ?_, separated.forget k⟩
          simp [step, holder, shape.free_of_lost found]
      | some c =>
          obtain ⟨ends, spared⟩ :=
            meets block holder _ shape.walk_head c found
          obtain ⟨final, frees, _, _, _, kept⟩ :=
            separated.freed holder found ends
              fun other member _ => spared other member
          refine ⟨⟨final, world.live.eraseIdx k⟩, ?_, kept⟩
          simp [step, holder, frees]

/-- A call that meets the condition succeeds and keeps blocks separated. -/
theorem Separated.step
    {world : World} {front back : List Nat}
    (separated : Separated world front back)
    (os : Mmap) (call : Call)
    (meets : KeepsApart world call) :
    ∃ next ∈ Heap.step os world call,
      ∃ front back, Separated next front back := by
  cases call with
  | malloc size =>
      by_cases small : size < 0x1000 - 0x10
      · by_cases hasRoom : HasRoom world.heap size
        · obtain ⟨next, stepped, later⟩ :=
            separated.malloc_of_hasRoom os small hasRoom
          exact ⟨next, stepped, _, _, later⟩
        · have room : world.heap.records.length < binSlots := by
            rcases meets with ⟨_, roomThere⟩ | room
            · exact absurd roomThere hasRoom
            · exact room
          obtain ⟨next, stepped, later⟩ :=
            separated.malloc_of_not_hasRoom os small hasRoom room
          exact ⟨next, stepped, _, _, later⟩
      · have room : world.heap.records.length < binSlots := by
          rcases meets with ⟨isSmall, _⟩ | room
          · exact absurd isSmall small
          · exact room
        obtain ⟨next, stepped, later⟩ :=
          separated.malloc_large os small room
        exact ⟨next, stepped, _, _, later⟩
  | free k =>
      obtain ⟨next, stepped, later⟩ := separated.free os meets
      exact ⟨next, stepped, _, _, later⟩

/-- After `mem_init` nothing is handed out. -/
theorem separated_initial (os : Mmap) :
    Separated (World.initial os) [] [] where
  shape := shape_memInit os
  mapped :=
    { count := rfl
      disjoint := by
        have fresh :=
          os.fresh
            [⟨os.map [] pageSize, mappedLength pageSize⟩] pageSize _
            (List.mem_singleton.mpr rfl)
        simpa [World.initial, memInit] using fresh
      pages := by
        intro c created
        have zero : c = 0 := by
          simpa [World.initial, memInit] using created
        subst zero
        exact ⟨_, rfl, rfl, Nat.le_refl _, Or.inl rfl⟩ }
  held := by simp [World.initial]
  extents := by simp [World.initial]

/--
In every run whose frees come back and unmark no block of another live
allocation, and whose allocations find room for their records, the live
allocations stay disjoint, inside their mapped ranges and clear of each
other's size bytes.
-/
theorem heapSound_of_keepsApart
    (os : Mmap) (calls : List Call)
    (guarded :
      GuardedRun.Guarded (step os) KeepsApart (World.initial os) calls) :
    GuardedRun.Always (step os) HeapSound (World.initial os) calls := by
  have sound :
      ∀ world, (∃ front back, Separated world front back) →
        HeapSound world := by
    rintro world ⟨front, back, separated⟩
    exact separated.heapSound
  refine
    GuardedRun.always_of_guarded sound ?_ ⟨[], [], separated_initial os⟩
      guarded
  rintro world call ⟨front, back, separated⟩ meets
  exact separated.step os call meets

/-- Two blocks, the first freed, and one that takes its place. -/
theorem heapSound_malloc_free_malloc :
    GuardedRun.Always (step Mmap.above) HeapSound
      (World.initial Mmap.above)
      [.malloc 40, .malloc 0xff0, .free 0, .malloc 8] :=
  heapSound_of_keepsApart Mmap.above
    [.malloc 40, .malloc 0xff0, .free 0, .malloc 8] (by decide +kernel)

/--
Freeing the first of two neighbours unmarks the second as well, and the next
request is handed blocks that are still in use.
-/
theorem exists_overlapping_blocks :
    ∃ world ∈
        GuardedRun.run (step Mmap.above) (World.initial Mmap.above)
          [.malloc 1, .malloc 1, .free 0, .malloc 20],
      ¬ HeapSound world := by
  decide +kernel

end BinTools.Heap
