import BinTools.HeapFreeEnds

namespace BinTools.Heap

/-!
# Locality of `__free`

`unset_bin` clears one block more than `set_bin` marked, and the right word only
for a run that starts in the first one.  `__free` therefore touches nothing but
its own allocation exactly when that starts in the first word, ends in front of
the last block but one, and has an unmarked block behind it.
-/

/-- What freeing the k-th block should leave. -/
structure FreedAlone
    (world : World) (k : Nat) (block : Block) (final : HeapState) : Prop where
  bits :
    ∀ c < world.heap.records.length, ∀ i < 256,
      (final.bins c).bin.getLsbD i =
        ((world.heap.bins c).bin.getLsbD i &&
          !decide (block.Owns (world.heap.bins c).pageAddr i))
  bytes :
    ∀ other ∈ world.live.eraseIdx k, ∀ i < other.size,
      final.mem (other.ptr + i) = world.heap.mem (other.ptr + i)
  sizes :
    ∀ other ∈ world.live.eraseIdx k,
      other.Small →
        final.mem (other.ptr - 1) = world.heap.mem (other.ptr - 1)

/-- `__free` is local for every small live block. -/
def FreesAlone (world : World) : Prop :=
  ∀ k block,
    world.live[k]? = some block → block.Small →
      ∃ final,
        free world.heap block.ptr = some final ∧
          FreedAlone world k block final

/--
The condition for `__free` to stay local: a small block is put into the first
word of its bitmap, ends in front of the last block but one, begins behind no
live block and ends in front of an unmarked one.
-/
def KeepsAlone (os : Mmap) (world : World) : Use → Prop
  | .call (.malloc size) =>
      ∀ result ∈ malloc os world.heap size,
        size < 0x1000 - 0x10 →
          result.2 % pageSize / 0x10 < 64 ∧
            result.2 % pageSize / 0x10 + binsSizeOf size < 255 ∧
            (∀ other ∈ world.live,
              other.Small → other.ptr + 0x10 * other.count ≠ result.2) ∧
            ∀ c < result.1.records.length,
              holdsAddress result.1 result.2 c = true →
                result.1.Unmarked c
                  (result.2 % pageSize / 0x10 + binsSizeOf size)
  | _ => True

/-! ## Noted sizes -/

/-- The allocation starts at block `s` of record `c`, and its size is noted. -/
structure Noted
    (state : HeapState) (cells : List Nat) (block : Block) (c s : Nat) :
    Prop where
  small : block.Small
  inCells : c ∈ cells
  ptr : block.ptr = (state.bins c).pageAddr + 0x10 * s
  nonzero : s ≠ 0
  inPage : s + block.count ≤ 256
  size : state.mem (block.ptr - 1) = UInt8.ofNat block.count

/--
The live blocks are separated, the small ones are noted in the pages up to
`bin_tail`, and the records behind that are full.
-/
structure Recorded (world : World) (front back : List Nat) : Prop where
  separated : Separated world front back
  full : ∀ c ∈ back, FullyMarked (world.heap.bins c).bin
  noted :
    ∀ block ∈ world.live,
      block.Small →
        ∃ c s,
          Noted world.heap (front ++ [world.heap.binTail]) block c s

/-- The allocation leaves room around it for `unset_bin`. -/
structure Margin (state : HeapState) (block : Block) (c s : Nat) : Prop where
  firstWord : s < 64
  inFront : s + block.count < 255
  unmarked : (state.bins c).bin.getLsbD (s + block.count) = false

namespace Noted

variable
  {world : World}
  {front back : List Nat}
  {block other : Block}
  {c s k : Nat}

theorem count_le
    {state : HeapState} {cells : List Nat}
    (noted : Noted state cells block c s) :
    0 < block.count ∧ block.count ≤ 255 := by
  have := noted.nonzero
  have := noted.inPage
  exact ⟨Nat.succ_pos _, by omega⟩

section

variable
  (noted : Noted world.heap (front ++ [world.heap.binTail]) block c s)

include noted

theorem reachable :
    c ∈ front ++ world.heap.binTail :: back := by
  rw [List.append_cons]
  exact List.mem_append_left _ noted.inCells

theorem holds :
    holdsAddress world.heap block.ptr c = true := by
  have := noted.count_le
  have := noted.inPage
  rw [noted.ptr]
  exact holdsAddress_block _ (by omega)

theorem blockOf :
    world.heap.blockOf c block.ptr = s := by
  rw [HeapState.blockOf, noted.ptr]
  omega

theorem owns_iff
    (i : Nat) :
    block.Owns (world.heap.bins c).pageAddr i ↔
      s ≤ i ∧ i < s + block.count := by
  simp only [Block.Owns, Region.Contains, noted.ptr]
  omega

end

variable
  (recorded : Recorded world front back)
  (noted : Noted world.heap (front ++ [world.heap.binTail]) block c s)

include recorded noted

theorem created :
    c < world.heap.records.length :=
  recorded.separated.shape.cell_lt noted.reachable

/-- The record of the allocation. -/
theorem held
    (member : block ∈ world.live) :
    Held world.heap block c := by
  obtain ⟨d, held⟩ := recorded.separated.held block member
  have same :=
    recorded.separated.mapped.found_eq held (noted.created recorded)
      noted.holds
  rw [same]
  exact held

theorem found
    (member : block ∈ world.live) :
    (front ++ world.heap.binTail :: back).find?
        (holdsAddress world.heap block.ptr) =
      some c := by
  have shape := recorded.separated.shape
  obtain ⟨d, isD⟩ :=
    exists_found ⟨c, noted.reachable, noted.holds⟩
  have same :=
    recorded.separated.mapped.found_eq (noted.held recorded member)
      (shape.cell_lt (List.mem_of_find?_eq_some isD))
      (List.find?_some isD)
  rw [isD, same]

theorem inside :
    block.ptr % pageSize = 0x10 * s := by
  have aligned :=
    recorded.separated.shape.aligned c (noted.created recorded)
  have := noted.count_le
  have := noted.inPage
  rw [noted.ptr]
  simp only [pageSize] at aligned ⊢
  omega

theorem freedBlocks_eq :
    freedBlocks world.heap block.ptr = block.count := by
  have notAligned : block.ptr % pageSize ≠ 0 := by
    rw [noted.inside recorded]
    have := noted.nonzero
    omega
  have := noted.count_le
  rw [freedBlocks, if_neg notAligned, noted.size, UInt8.toNat_ofNat']
  exact Nat.mod_eq_of_lt (by omega)

end Noted

/-! ## Margins -/

namespace Recorded

variable
  {world : World}
  {front back : List Nat}
  {block other : Block}
  {c s k : Nat}
  (recorded : Recorded world front back)

include recorded

/-- What `__free` does to a noted allocation. -/
theorem exists_freed
    (member : block ∈ world.live)
    (noted : Noted world.heap (front ++ [world.heap.binTail]) block c s)
    (ends : (s + block.count) % 256 ≠ 255) :
    ∃ final,
      free world.heap block.ptr = some final ∧
        Freed world.heap final c block.ptr block.count := by
  have found := noted.found recorded member
  have isCount := noted.freedBlocks_eq recorded
  have isBlock := noted.blockOf
  obtain ⟨final, frees, freed⟩ :=
    recorded.separated.shape.free_of_found found
      (by rw [isBlock, isCount]; exact ends)
  rw [isCount] at freed
  exact ⟨final, frees, freed⟩

/-- A small block begins behind no other small block with a margin. -/
theorem not_behind
    (noted : Noted world.heap (front ++ [world.heap.binTail]) block c s)
    (margin : Margin world.heap block c s)
    (otherMember : other ∈ world.live)
    (otherSmall : other.Small) :
    other.ptr ≠ block.ptr + 0x10 * block.count := by
  intro behind
  obtain ⟨d, t, otherNoted⟩ := recorded.noted other otherMember otherSmall
  have inFront := margin.inFront
  have isPtr :
      other.ptr =
        (world.heap.bins c).pageAddr + 0x10 * (s + block.count) := by
    rw [behind, noted.ptr]
    omega
  have holds : holdsAddress world.heap other.ptr c = true := by
    rw [isPtr]
    exact holdsAddress_block _ (by omega)
  have otherHeld := otherNoted.held recorded otherMember
  cases recorded.separated.mapped.found_eq otherHeld
    (noted.created recorded) holds
  have owns :
      other.Owns (world.heap.bins c).pageAddr (s + block.count) := by
    simp only [Block.Owns, Region.Contains, isPtr]
    have : 0 < other.count := Nat.succ_pos _
    omega
  have marked := otherHeld.marked _ (by omega) owns
  rw [margin.unmarked] at marked
  cases marked

/-- With a margin `__free` is local. -/
theorem freedAlone
    (holder : world.live[k]? = some block)
    (noted : Noted world.heap (front ++ [world.heap.binTail]) block c s)
    (margin : Margin world.heap block c s)
    {final : HeapState}
    (freed : Freed world.heap final c block.ptr block.count) :
    FreedAlone world k block final := by
  have member := List.mem_of_getElem? holder
  have small := noted.small
  have firstWord := margin.firstWord
  have inFront := margin.inFront
  have isExtent : block.extent = ⟨block.ptr, 0x10 * block.count⟩ :=
    if_pos small
  have apart :
      ∀ other ∈ world.live.eraseIdx k,
        block.ptr + 0x10 * block.count ≤ other.extent.base ∨
          other.extent.base + other.extent.length ≤ block.ptr := by
    intro other otherIn
    have disjoint := recorded.separated.extent_disjoint holder otherIn
    rw [isExtent] at disjoint
    exact disjoint
  refine ⟨?_, ?_, ?_⟩
  · intro d created i inPage
    by_cases same : d = c
    · subst same
      rw [freed.bits i, noted.blockOf]
      by_cases behind : i = s + block.count
      · rw [behind, margin.unmarked]
        rfl
      · have unsetIff :
            Unset s block.count i ↔
              block.Owns (world.heap.bins d).pageAddr i := by
          rw [noted.owns_iff, Unset]
          omega
        simp only [unsetIff]
    · have notOwned :
          ¬ block.Owns (world.heap.bins d).pageAddr i := by
        intro owns
        obtain ⟨own, ownAt, below, above, _⟩ :=
          (noted.held recorded member).extent_inside
        obtain ⟨page, pageAt, pageBase, covers, _⟩ :=
          recorded.separated.mapped.pages d created
        have disjoint :=
          recorded.separated.mapped.regions_disjoint pageAt ownAt same
        rw [isExtent] at below above
        dsimp only at below above
        simp only [pageSize] at covers
        simp only [Region.Disjoint, pageBase] at disjoint
        simp only [Block.Owns, Region.Contains] at owns
        omega
      rw [freed.rewritten.others d same, decide_eq_false notOwned]
      simp
  · intro other otherIn i inSize
    have disjoint := apart other otherIn
    obtain ⟨base, size, _⟩ := other.size_le_extent
    have outside :
        ¬ (⟨block.ptr, 0x10 * block.count⟩ : Region).Contains
          (other.ptr + i) := by
      simp only [Region.Contains]
      omega
    rw [freed.mem_eq, if_neg outside]
  · intro other otherIn otherSmall
    have disjoint := apart other otherIn
    obtain ⟨base, _, spare⟩ := other.size_le_extent
    have otherMember := List.mem_of_mem_eraseIdx otherIn
    have notBehind :=
      recorded.not_behind noted margin otherMember otherSmall
    obtain ⟨d, t, otherNoted⟩ :=
      recorded.noted other otherMember otherSmall
    have nonzero := otherNoted.nonzero
    have isPtr := otherNoted.ptr
    have outside :
        ¬ (⟨block.ptr, 0x10 * block.count⟩ : Region).Contains
          (other.ptr - 1) := by
      have := spare otherSmall
      simp only [Region.Contains]
      omega
    rw [freed.mem_eq, if_neg outside]

/-- Without a margin it is not. -/
theorem margin_of_freedAlone
    (holder : world.live[k]? = some block)
    (noted : Noted world.heap (front ++ [world.heap.binTail]) block c s)
    {final : HeapState}
    (frees : free world.heap block.ptr = some final)
    (alone : FreedAlone world k block final) :
    Margin world.heap block c s := by
  have member := List.mem_of_getElem? holder
  have created := noted.created recorded
  have inPage := noted.inPage
  have positive := noted.count_le
  have ends : (s + block.count) % 256 ≠ 255 := by
    intro stuck
    have hangs :=
      recorded.separated.shape.free_eq_none (noted.found recorded member)
        (by
          rw [noted.blockOf, noted.freedBlocks_eq recorded]
          exact stuck)
    rw [hangs] at frees
    cases frees
  obtain ⟨other, again, freed⟩ := recorded.exists_freed member noted ends
  cases again.symm.trans frees
  have bits :
      ∀ i < 256,
        (world.heap.bins c).bin.getLsbD i = true →
          (Unset s block.count i ↔ s ≤ i ∧ i < s + block.count) := by
    intro i inRange marked
    have same := (freed.bits i).symm.trans (alone.bits c created i inRange)
    rw [marked, noted.blockOf, Bool.true_and, Bool.true_and,
      Bool.not_inj_iff, decide_eq_decide] at same
    rw [same, noted.owns_iff]
  have lastMarked :
      (world.heap.bins c).bin.getLsbD (s + block.count - 1) = true :=
    (noted.held recorded member).marked _ (by omega)
      ((noted.owns_iff _).mpr (by omega))
  have lastUnset :=
    (bits _ (by omega) lastMarked).mpr (by omega)
  rw [Unset] at lastUnset
  have firstWord : s < 64 := by omega
  have inFront : s + block.count < 255 := by omega
  refine ⟨firstWord, inFront, ?_⟩
  by_contra marked
  have behind :=
    (bits (s + block.count) (by omega) (by simpa using marked)).mp
      (by rw [Unset]; omega)
  omega

/-- `__free` is local exactly when every small block has its margin. -/
theorem freesAlone_iff :
    FreesAlone world ↔
      ∀ block ∈ world.live, ∀ c s,
        Noted world.heap (front ++ [world.heap.binTail]) block c s →
          Margin world.heap block c s := by
  constructor
  · intro alone block member c s noted
    obtain ⟨k, holder⟩ := List.mem_iff_getElem?.mp member
    obtain ⟨final, frees, freedAlone⟩ := alone k block holder noted.small
    exact recorded.margin_of_freedAlone holder noted frees freedAlone
  · intro margins k block holder small
    have member := List.mem_of_getElem? holder
    obtain ⟨c, s, noted⟩ := recorded.noted block member small
    have margin := margins block member c s noted
    have inFront := margin.inFront
    obtain ⟨final, frees, freed⟩ :=
      recorded.exists_freed member noted (by omega)
    exact ⟨final, frees, recorded.freedAlone holder noted margin freed⟩

end Recorded

/-! ## Allocation -/

/-- A step that is known is the allocation. -/
theorem step_malloc
    {os : Mmap} {world : World} {size r : Nat} {final : HeapState}
    (allocated : malloc os world.heap size = some (final, r)) :
    step os world (.malloc size) =
      some ⟨final, world.live ++ [⟨r, size⟩]⟩ := by
  simp only [step, allocated]
  rfl

/-- What an allocation leaves: it is recorded, and nothing else is marked. -/
structure Allocated
    (world : World) (final : HeapState) (size r : Nat)
    (front newFront newBack : List Nat) : Prop where
  recorded :
    Recorded ⟨final, world.live ++ [⟨r, size⟩]⟩ newFront newBack
  keeps :
    ∀ block ∈ world.live, ∀ c s,
      Noted world.heap (front ++ [world.heap.binTail]) block c s →
        Noted final (newFront ++ [final.binTail]) block c s
  marks :
    ∀ c < world.heap.records.length, ∀ i,
      (final.bins c).bin.getLsbD i = true →
        (world.heap.bins c).bin.getLsbD i = true ∨
          size < 0x1000 - 0x10 ∧ holdsAddress final r c = true ∧
            r % pageSize / 0x10 ≤ i ∧
              i < r % pageSize / 0x10 + binsSizeOf size

namespace Recorded

variable
  {os : Mmap}
  {world : World}
  {front back : List Nat}
  {size r : Nat}
  {final : HeapState}

/-- Noted allocations stay noted while their record and size byte stay. -/
theorem noted_mono
    {cells newCells : List Nat} {state : HeapState}
    {block : Block} {c s : Nat}
    (noted : Noted state cells block c s)
    (inCells : c ∈ newCells)
    (sameAddr : (final.bins c).pageAddr = (state.bins c).pageAddr)
    (sameSize : final.mem (block.ptr - 1) = state.mem (block.ptr - 1)) :
    Noted final newCells block c s where
  small := noted.small
  inCells := inCells
  ptr := by rw [sameAddr, noted.ptr]
  nonzero := noted.nonzero
  inPage := noted.inPage
  size := by rw [sameSize, noted.size]

/-- The size byte of a new allocation belongs to no other one. -/
theorem size_ne
    {next : World} {newFront newBack : List Nat}
    (separated : Separated next newFront newBack)
    {live : List Block}
    (isLive : next.live = live ++ [⟨r, size⟩])
    (small : size < 0x1000 - 0x10)
    (positive : 0 < r)
    {block : Block}
    (member : block ∈ live)
    (blockSmall : block.Small)
    (blockPositive : 0 < block.ptr) :
    block.ptr - 1 ≠ r - 1 := by
  intro same
  have extents := separated.extents
  rw [isLive, List.pairwise_append] at extents
  have disjoint :=
    extents.2.2 block member ⟨r, size⟩ (List.mem_singleton.mpr rfl)
  have isSmall : Block.Small ⟨r, size⟩ := small
  have oldCount : 0 < block.count := Nat.succ_pos _
  have newCount : 0 < Block.count ⟨r, size⟩ := Nat.succ_pos _
  rw [Block.extent, Block.extent, if_pos blockSmall, if_pos isSmall] at disjoint
  simp only [Region.Disjoint] at disjoint
  omega

/-- The recorded blocks and a new small one. -/
theorem add
    (recorded : Recorded world front back)
    {newFront newBack : List Nat}
    (separated :
      Separated ⟨final, world.live ++ [⟨r, size⟩]⟩ newFront newBack)
    (small : size < 0x1000 - 0x10)
    (full : ∀ c ∈ newBack, FullyMarked (final.bins c).bin)
    {c a : Nat}
    (inCells : c ∈ newFront ++ [final.binTail])
    (ptr : r = (final.bins c).pageAddr + 0x10 * a)
    (nonzero : a ≠ 0)
    (inPage : a + binsSizeOf size ≤ 256)
    (mem :
      final.mem =
        Function.update world.heap.mem (r - 1) (UInt8.ofNat (binsSizeOf size)))
    (cells :
      ∀ d ∈ front ++ [world.heap.binTail],
        d ∈ newFront ++ [final.binTail] ∧
          (final.bins d).pageAddr = (world.heap.bins d).pageAddr)
    (marks :
      ∀ d < world.heap.records.length, ∀ i,
        (final.bins d).bin.getLsbD i = true →
          (world.heap.bins d).bin.getLsbD i = true ∨
            d = c ∧ a ≤ i ∧ i < a + binsSizeOf size) :
    Allocated world final size r front newFront newBack := by
  have newCount : Block.count ⟨r, size⟩ = binsSizeOf size :=
    (binsSizeOf_eq small).symm
  have positive := (binsSizeOf_range small).1
  have shape := separated.shape
  have reachable : c ∈ newFront ++ final.binTail :: newBack := by
    rw [List.append_cons]
    exact List.mem_append_left _ inCells
  have aligned := shape.aligned c (shape.cell_lt reachable)
  have isBlock : r % pageSize / 0x10 = a := by
    simp only [pageSize] at aligned ⊢
    omega
  have holds : holdsAddress final r c = true := by
    rw [ptr]
    exact holdsAddress_block final (by omega)
  have keeps :
      ∀ block ∈ world.live, ∀ d s,
        Noted world.heap (front ++ [world.heap.binTail]) block d s →
          Noted final (newFront ++ [final.binTail]) block d s := by
    intro block member d s noted
    obtain ⟨inNew, sameAddr⟩ := cells d noted.inCells
    have isPtr := noted.ptr
    have notZero := noted.nonzero
    refine noted_mono noted inNew sameAddr ?_
    have different : block.ptr - 1 ≠ r - 1 :=
      size_ne separated rfl small (by omega) member noted.small (by omega)
    rw [mem, Function.update_of_ne different]
  refine ⟨⟨separated, full, ?_⟩, keeps, ?_⟩
  · intro block member blockSmall
    rcases List.mem_append.mp member with old | isNew
    · obtain ⟨d, s, noted⟩ := recorded.noted block old blockSmall
      exact ⟨d, s, keeps block old d s noted⟩
    · cases List.mem_singleton.mp isNew
      refine ⟨c, a, small, inCells, ptr, nonzero, ?_, ?_⟩
      · rw [newCount]
        exact inPage
      · rw [newCount]
        show final.mem (r - 1) = _
        rw [mem, Function.update_self]
  · intro d created i marked
    rcases marks d created i marked with old | ⟨isC, above, below⟩
    · exact Or.inl old
    · cases isC
      exact Or.inr ⟨small, holds, by omega, by omega⟩

/-- An allocation is recorded, and marks nothing else. -/
theorem malloc
    (recorded : Recorded world front back)
    (allocated : Heap.malloc os world.heap size = some (final, r)) :
    ∃ newFront newBack,
      Allocated world final size r front newFront newBack := by
  have separated := recorded.separated
  have shape := separated.shape
  have stepped := step_malloc allocated
  have found := shape.room_of_malloc allocated
  by_cases small : size < 0x1000 - 0x10
  · have positive := (binsSizeOf_range small).1
    by_cases hasRoom : HasRoom world.heap size
    · obtain ⟨next, again, later⟩ :=
        separated.malloc_of_hasRoom os small hasRoom
      cases again.symm.trans stepped
      obtain ⟨c, member, a, after, result, nonzero, inPage, clear, _, taken⟩ :=
        shape.malloc_of_hasRoom os small hasRoom
      cases result.symm.trans allocated
      have notBack : c ∉ back := by
        intro inBack
        have marked := recorded.full c inBack a (by omega)
        rw [clear a (Nat.le_refl _) (by omega)] at marked
        cases marked
      have isTail : c = world.heap.binTail :=
        (List.mem_cons.mp member).resolve_right notBack
      have sameAddr := fun d => (taken.rewritten.links d).2
      have sameTail := taken.rewritten.tail
      refine
        ⟨front, back,
          recorded.add later small ?_ ?_ (by rw [sameAddr c]) nonzero
            inPage taken.mem ?_ ?_⟩
      · intro d inBack
        have other : d ≠ c := fun same => notBack (same ▸ inBack)
        rw [taken.rewritten.others d other]
        exact recorded.full d inBack
      · rw [sameTail, isTail]
        exact List.mem_append_right _ (List.mem_singleton.mpr rfl)
      · intro d inCells
        rw [sameTail]
        exact ⟨inCells, sameAddr d⟩
      · intro d _ i marked
        by_cases same : d = c
        · subst same
          rw [taken.bits i, Bool.or_eq_true, decide_eq_true_eq] at marked
          exact marked.imp_right fun inRun => ⟨rfl, inRun⟩
        · rw [taken.rewritten.others d same] at marked
          exact Or.inl marked
    · have room : world.heap.records.length < binSlots := by
        rcases found with ⟨_, roomThere⟩ | room
        · exact absurd roomThere hasRoom
        · exact room
      obtain ⟨next, again, later⟩ :=
        separated.malloc_of_not_hasRoom os small hasRoom room
      cases again.symm.trans stepped
      obtain ⟨grown, after, result, appended, newTail, _, taken⟩ :=
        shape.malloc_of_not_hasRoom os small hasRoom room
      cases result.symm.trans allocated
      have sameTail : final.binTail = world.heap.records.length :=
        taken.rewritten.tail.trans newTail
      have isAddr :
          (final.bins world.heap.records.length).pageAddr =
            os.map world.heap.regions pageSize := by
        rw [(taken.rewritten.links _).2, appended.newAddr]
      have inPage : 1 + binsSizeOf size ≤ 256 := by
        rw [binsSizeOf_eq small]
        omega
      have old :
          ∀ d < world.heap.records.length,
            (final.bins d).bin = (world.heap.bins d).bin ∧
              (final.bins d).pageAddr = (world.heap.bins d).pageAddr := by
        intro d created
        rw [taken.rewritten.others d (Nat.ne_of_lt created)]
        exact appended.old d (Nat.ne_of_lt created)
      refine
        ⟨front ++ [world.heap.binTail], [],
          recorded.add later small (by simp) ?_ (by rw [isAddr])
            Nat.one_ne_zero inPage ?_ ?_ ?_⟩
      · rw [sameTail]
        exact List.mem_append_right _ (List.mem_singleton.mpr rfl)
      · rw [taken.mem, appended.mem, appended.newAddr]
      · intro d inCells
        have reachable : d ∈ front ++ world.heap.binTail :: back := by
          rw [List.append_cons]
          exact List.mem_append_left _ inCells
        exact
          ⟨List.mem_append_left _ inCells, (old d (shape.cell_lt reachable)).2⟩
      · intro d created i marked
        rw [(old d created).1] at marked
        exact Or.inl marked
  · have room : world.heap.records.length < binSlots := by
      rcases found with ⟨isSmall, _⟩ | room
      · exact absurd isSmall small
      · exact room
    obtain ⟨next, again, later⟩ := separated.malloc_large os small room
    cases again.symm.trans stepped
    obtain ⟨after, expanded, appended, sameTail, _⟩ :=
      shape.expandHeap_eq os size room
    have isLarge :
        Heap.malloc os world.heap size = expandHeap os world.heap size :=
      if_pos (Nat.le_of_not_lt small)
    rw [isLarge, expanded] at allocated
    cases allocated
    have keeps :
        ∀ block ∈ world.live, ∀ c s,
          Noted world.heap (front ++ [world.heap.binTail]) block c s →
            Noted final (front ++ [final.binTail]) block c s := by
      intro block member c s noted
      have created := shape.cell_lt noted.reachable
      refine
        noted_mono noted (by rw [sameTail]; exact noted.inCells)
          (appended.old c (Nat.ne_of_lt created)).2 ?_
      rw [appended.mem]
    refine ⟨front, _, ⟨later, ?_, ?_⟩, keeps, ?_⟩
    · intro c inBack
      rcases List.mem_append.mp inBack with old | isNew
      · have created :=
          shape.cell_lt
            (List.mem_append_right front (List.mem_cons_of_mem _ old))
        dsimp only
        rw [(appended.old c (Nat.ne_of_lt created)).1]
        exact recorded.full c old
      · cases List.mem_singleton.mp isNew
        dsimp only
        rw [appended.newBits]
        exact allOnes_marked
    · intro block member blockSmall
      rcases List.mem_append.mp member with old | isNew
      · obtain ⟨c, s, noted⟩ := recorded.noted block old blockSmall
        exact ⟨c, s, keeps block old c s noted⟩
      · cases List.mem_singleton.mp isNew
        exact absurd blockSmall small
    · intro c created i marked
      rw [(appended.old c (Nat.ne_of_lt created)).1] at marked
      exact Or.inl marked

end Recorded

/-! ## Steps -/

/-- The blocks are recorded and have their margins. -/
def Alone (world : World) : Prop :=
  (∃ front back, Recorded world front back) ∧ FreesAlone world

/-- A live block is noted at one place. -/
theorem Noted.unique
    {world : World} {front back : List Nat} {block : Block} {c d s t : Nat}
    (recorded : Recorded world front back)
    (first : Noted world.heap (front ++ [world.heap.binTail]) block c s)
    (second : Noted world.heap (front ++ [world.heap.binTail]) block d t)
    (member : block ∈ world.live) :
    c = d ∧ s = t := by
  have isC :=
    recorded.separated.mapped.found_eq (first.held recorded member)
      (second.created recorded) second.holds
  subst isC
  have firstPtr := first.ptr
  have secondPtr := second.ptr
  exact ⟨rfl, by omega⟩

namespace Alone

variable
  {os : Mmap}
  {world next : World}

/-- An allocation that meets the condition leaves margins. -/
theorem malloc
    {size : Nat}
    (alone : Alone world)
    (meets : KeepsAlone os world (.call (.malloc size)))
    (stepped : step os world (.malloc size) = some next) :
    Alone next := by
  obtain ⟨⟨front, back, recorded⟩, freesAlone⟩ := alone
  obtain ⟨⟨final, r⟩, allocated, isNext⟩ := Option.map_eq_some_iff.mp stepped
  cases isNext
  obtain ⟨newFront, newBack, result⟩ := recorded.malloc allocated
  have margins := recorded.freesAlone_iff.mp freesAlone
  refine ⟨⟨_, _, result.recorded⟩, result.recorded.freesAlone_iff.mpr ?_⟩
  intro block member c s noted
  rcases List.mem_append.mp member with old | isNew
  · obtain ⟨d, t, oldNoted⟩ := recorded.noted block old noted.small
    obtain ⟨rfl, rfl⟩ :=
      Noted.unique result.recorded (result.keeps block old d t oldNoted) noted
        member
    have margin := margins block old _ _ oldNoted
    refine ⟨margin.firstWord, margin.inFront, ?_⟩
    by_contra marked
    rcases result.marks d (oldNoted.created recorded) _ (by simpa using marked)
      with before | ⟨small, holds, above, below⟩
    · rw [margin.unmarked] at before
      cases before
    · -- The new blocks begin at the margin or overlap the old ones.
      obtain ⟨_, _, notBehind, _⟩ := meets _ allocated small
      have newMember :
          (⟨r, size⟩ : Block) ∈ world.live ++ [⟨r, size⟩] :=
        List.mem_append_right _ (List.mem_singleton.mpr rfl)
      obtain ⟨e, a, newNoted⟩ :=
        result.recorded.noted ⟨r, size⟩ newMember small
      have isD :=
        result.recorded.separated.mapped.found_eq
          (newNoted.held result.recorded newMember)
          (noted.created result.recorded) holds
      subst isD
      have newInside := newNoted.inside result.recorded
      have newPtr := newNoted.ptr
      have oldPtr := noted.ptr
      have extents := result.recorded.separated.extents
      rw [List.pairwise_append] at extents
      have disjoint :=
        extents.2.2 block old ⟨r, size⟩ (List.mem_singleton.mpr rfl)
      have isSmall : Block.Small ⟨r, size⟩ := small
      have newCount : Block.count ⟨r, size⟩ = binsSizeOf size :=
        (binsSizeOf_eq small).symm
      rw [Block.extent, Block.extent, if_pos noted.small, if_pos isSmall,
        newCount] at disjoint
      simp only [Region.Disjoint] at disjoint
      have apart := notBehind block old noted.small
      have := noted.count_le
      dsimp only at newInside newPtr oldPtr above below apart
      omega
  · cases List.mem_singleton.mp isNew
    have small := noted.small
    obtain ⟨firstWord, inFront, _, unmarked⟩ := meets _ allocated small
    have newCount : Block.count ⟨r, size⟩ = binsSizeOf size :=
      (binsSizeOf_eq small).symm
    have isBlock : r % pageSize / 0x10 = s := by
      have := noted.inside result.recorded
      dsimp only at this
      omega
    dsimp only at firstWord inFront unmarked
    rw [isBlock] at firstWord inFront unmarked
    have behind :=
      unmarked c (noted.created result.recorded) noted.holds
    exact ⟨firstWord, by rw [newCount]; exact inFront, by
      rw [newCount]; exact behind.2⟩

/-- An allocation that does not meet it leaves a block without a margin. -/
theorem malloc_breaks
    {size : Nat}
    (alone : Alone world)
    (fails : ¬ KeepsAlone os world (.call (.malloc size))) :
    ∃ next ∈ step os world (.malloc size), ¬ FreesAlone next := by
  obtain ⟨⟨front, back, recorded⟩, -⟩ := alone
  simp only [KeepsAlone, not_forall] at fails
  obtain ⟨⟨final, r⟩, allocated, small, fails⟩ := fails
  refine ⟨_, step_malloc allocated, ?_⟩
  intro freesAlone
  apply fails
  obtain ⟨newFront, newBack, result⟩ := recorded.malloc allocated
  have margins := result.recorded.freesAlone_iff.mp freesAlone
  have newMember : (⟨r, size⟩ : Block) ∈ world.live ++ [⟨r, size⟩] :=
    List.mem_append_right _ (List.mem_singleton.mpr rfl)
  obtain ⟨c, a, noted⟩ := result.recorded.noted ⟨r, size⟩ newMember small
  have margin := margins ⟨r, size⟩ newMember c a noted
  have newCount : Block.count ⟨r, size⟩ = binsSizeOf size :=
    (binsSizeOf_eq small).symm
  have isBlock : r % pageSize / 0x10 = a := by
    have := noted.inside result.recorded
    dsimp only at this
    omega
  have inFront := margin.inFront
  rw [newCount] at inFront
  dsimp only
  rw [isBlock]
  refine ⟨margin.firstWord, inFront, ?_, ?_⟩
  · intro other member otherSmall behind
    obtain ⟨d, t, otherNoted⟩ := recorded.noted other member otherSmall
    have otherNext := result.keeps other member d t otherNoted
    have otherMargin :=
      margins other (List.mem_append_left _ member) d t otherNext
    exact
      result.recorded.not_behind otherNext otherMargin newMember small
        behind.symm
  · intro d created holds
    have isC :=
      result.recorded.separated.mapped.found_eq
        (noted.held result.recorded newMember) created holds
    rw [isC]
    refine ⟨by omega, ?_⟩
    rw [← newCount]
    exact margin.unmarked

/-- Fewer blocks, whose records keep their margins. -/
theorem of_fewer
    {front back : List Nat}
    (recorded : Recorded world front back)
    (freesAlone : FreesAlone world)
    (fewer : next.live ⊆ world.live)
    (separated : Separated next front back)
    (full : ∀ c ∈ back, FullyMarked (next.heap.bins c).bin)
    (sameTail : next.heap.binTail = world.heap.binTail)
    (sameAddr :
      ∀ c,
        (next.heap.bins c).pageAddr = (world.heap.bins c).pageAddr)
    (sizes :
      ∀ block ∈ next.live,
        block.Small →
          next.heap.mem (block.ptr - 1) = world.heap.mem (block.ptr - 1))
    (unmarks :
      ∀ c i,
        (world.heap.bins c).bin.getLsbD i = false →
          (next.heap.bins c).bin.getLsbD i = false) :
    Alone next := by
  have keeps :
      ∀ block ∈ next.live, ∀ c s,
        Noted world.heap (front ++ [world.heap.binTail]) block c s →
          Noted next.heap (front ++ [next.heap.binTail]) block c s := by
    intro block member c s noted
    refine
      Recorded.noted_mono noted ?_ (sameAddr c)
        (sizes block member noted.small)
    rw [sameTail]
    exact noted.inCells
  have recordedNext : Recorded next front back := by
    refine ⟨separated, full, ?_⟩
    intro block member small
    obtain ⟨c, s, noted⟩ := recorded.noted block (fewer member) small
    exact ⟨c, s, keeps block member c s noted⟩
  refine ⟨⟨front, back, recordedNext⟩, recordedNext.freesAlone_iff.mpr ?_⟩
  intro block member c s noted
  obtain ⟨d, t, before⟩ := recorded.noted block (fewer member) noted.small
  obtain ⟨rfl, rfl⟩ :=
    Noted.unique recordedNext (keeps block member d t before) noted member
  have margin :=
    recorded.freesAlone_iff.mp freesAlone block (fewer member) _ _ before
  exact
    ⟨margin.firstWord, margin.inFront, unmarks _ _ margin.unmarked⟩

/-- A release keeps the margins. -/
theorem free
    {k : Nat}
    (alone : Alone world)
    (stepped : step os world (.free k) = some next) :
    Alone next := by
  obtain ⟨⟨front, back, recorded⟩, freesAlone⟩ := alone
  have separated := recorded.separated
  have shape := separated.shape
  simp only [step] at stepped
  cases holder : world.live[k]? with
  | none =>
      rw [holder] at stepped
      cases stepped
      exact ⟨⟨front, back, recorded⟩, freesAlone⟩
  | some block =>
      rw [holder] at stepped
      obtain ⟨heap, frees, isNext⟩ := Option.map_eq_some_iff.mp stepped
      cases isNext
      have member := List.mem_of_getElem? holder
      have fewer : world.live.eraseIdx k ⊆ world.live :=
        List.eraseIdx_subset
      by_cases small : block.Small
      · obtain ⟨c, s, noted⟩ := recorded.noted block member small
        have margin :=
          recorded.freesAlone_iff.mp freesAlone block member c s noted
        have firstWord := margin.firstWord
        have inFront := margin.inFront
        have isCount := noted.freedBlocks_eq recorded
        have ends : FreeEnds world.heap block.ptr := by
          rw [FreeEnds, isCount, noted.inside recorded]
          omega
        have spared :
            ∀ other ∈ world.live.eraseIdx k, Held world.heap other c →
              ∀ bit < 256,
                Unset (world.heap.blockOf c block.ptr)
                    (freedBlocks world.heap block.ptr) bit →
                  ¬ other.Owns (world.heap.bins c).pageAddr bit := by
          intro other otherIn otherHeld bit inPage unset owns
          rw [noted.blockOf, isCount, Unset] at unset
          by_cases behind : bit = s + block.count
          · have marked := otherHeld.marked bit inPage owns
            rw [behind, margin.unmarked] at marked
            cases marked
          · have disjoint := separated.extent_disjoint holder otherIn
            have otherSmall :=
              (noted.held recorded member).small_of_small small otherHeld
                disjoint
            have isPtr := noted.ptr
            rw [Block.extent, Block.extent, if_pos small, if_pos otherSmall]
              at disjoint
            simp only [Region.Disjoint] at disjoint
            simp only [Block.Owns, Region.Contains] at owns
            omega
        obtain ⟨final, again, _, _, freed, later⟩ :=
          separated.freed holder (noted.found recorded member) ends spared
        cases again.symm.trans frees
        rw [isCount] at freed
        have local_ := recorded.freedAlone holder noted margin freed
        refine
          of_fewer recorded freesAlone fewer later ?_ freed.rewritten.tail
            (fun d => (freed.rewritten.links d).2) local_.sizes ?_
        · intro d inBack
          have sorted := shape.sorted
          rw [List.append_cons, List.pairwise_append] at sorted
          have before := sorted.2.2 c noted.inCells d inBack
          dsimp only
          rw [freed.rewritten.others d (Nat.ne_of_gt before)]
          exact recorded.full d inBack
        · intro d i unmarked
          by_cases same : d = c
          · subst same
            dsimp only
            rw [freed.bits i, unmarked, Bool.false_and]
          · dsimp only
            rw [freed.rewritten.others d same]
            exact unmarked
      · -- A large block hangs unless its record is out of reach.
        obtain ⟨e, held⟩ := separated.held block member
        cases found :
            (front ++ world.heap.binTail :: back).find?
              (holdsAddress world.heap block.ptr) with
        | none =>
            cases (shape.free_of_lost found).symm.trans frees
            exact
              of_fewer recorded freesAlone fewer (separated.forget k)
                recorded.full rfl (fun _ => rfl) (fun _ _ _ => rfl)
                (fun _ _ unmarked => unmarked)
        | some c =>
            have created := shape.cell_lt (List.mem_of_find?_eq_some found)
            have holds := List.find?_some found
            have atStart :=
              (held.ptr_mod (shape.aligned e held.created)).mpr small
            have stuck :
                (world.heap.blockOf c block.ptr +
                    freedBlocks world.heap block.ptr) % 256 =
                  255 := by
              rw [shape.blockOf_eq created holds, freedBlocks,
                if_pos atStart, atStart]
            rw [shape.free_eq_none found stuck] at frees
            cases frees

/-- A caller writes to no size byte. -/
theorem size_ne_write
    {front back : List Nat}
    {block other : Block} {k offset : Nat}
    (recorded : Recorded world front back)
    (holder : world.live[k]? = some block)
    (inSize : offset < block.size)
    (member : other ∈ world.live)
    (small : other.Small) :
    other.ptr - 1 ≠ block.ptr + offset := by
  intro same
  have separated := recorded.separated
  obtain ⟨c, s, noted⟩ := recorded.noted other member small
  have isPtr := noted.ptr
  have nonzero := noted.nonzero
  obtain ⟨j, isOther⟩ := List.mem_iff_getElem?.mp member
  by_cases sameIndex : j = k
  · subst sameIndex
    cases isOther.symm.trans holder
    omega
  · have otherIn : other ∈ world.live.eraseIdx k :=
      List.mem_eraseIdx_iff_getElem?.mpr ⟨j, sameIndex, isOther⟩
    obtain ⟨d, held⟩ := separated.held block (List.mem_of_getElem? holder)
    have otherHeld := noted.held recorded member
    refine
      not_contains_sizeByte
        (held.ptr_mod (separated.shape.aligned d held.created))
        (otherHeld.ptr_mod (separated.shape.aligned c otherHeld.created))
        (separated.extent_disjoint holder otherIn) small ?_
    simp only [Region.Contains, Block.range]
    omega

/-- A write keeps the margins. -/
theorem write
    {block : Block} {k offset : Nat}
    (alone : Alone world)
    (holder : world.live[k]? = some block)
    (inSize : offset < block.size)
    (value : UInt8) :
    Alone
      { world with
        heap := world.heap.write (block.ptr + offset) value } := by
  obtain ⟨⟨front, back, recorded⟩, freesAlone⟩ := alone
  refine
    of_fewer recorded freesAlone (List.Subset.refl _)
      (recorded.separated.write _ value) recorded.full rfl (fun _ => rfl) ?_
      (fun _ _ unmarked => unmarked)
  intro other member small
  exact
    Function.update_of_ne
      (size_ne_write recorded holder inSize member small) _ _

/-- A use that meets the condition keeps the margins. -/
theorem use
    (alone : Alone world)
    (action : Use)
    (meets : KeepsAlone os world action)
    (stepped : Heap.use os world action = some next) :
    Alone next := by
  cases action with
  | call call =>
      cases call with
      | malloc size => exact alone.malloc meets stepped
      | free k =>
          have isStep : step os world (.free k) = some next := stepped
          exact alone.free isStep
  | write k offset value =>
      simp only [Heap.use] at stepped
      cases holder : world.live[k]? with
      | none =>
          rw [holder] at stepped
          cases stepped
          exact alone
      | some block =>
          rw [holder] at stepped
          dsimp only at stepped
          split_ifs at stepped with inSize
          · cases stepped
            exact alone.write holder inSize value
          · cases stepped
            exact alone

/-- Nothing is live at first. -/
theorem initial (os : Mmap) :
    Alone (World.initial os) :=
  ⟨⟨[], [], separated_initial os,
      fun _ absent => absurd absent List.not_mem_nil,
      fun _ absent => absurd absent List.not_mem_nil⟩,
    fun _ _ absent => by cases absent⟩

end Alone

/--
`__free` is local for every small live block in every state that a run reaches
exactly when every allocation meets the condition.
-/
theorem freesAlone_iff_keepsAlone
    (os : Mmap) (uses : List Use) :
    GuardedRun.Throughout (use os) FreesAlone (World.initial os) uses ↔
      GuardedRun.Guarded (use os) (KeepsAlone os) (World.initial os) uses :=
  GuardedRun.throughout_iff_guarded
    (fun _ alone => alone.2)
    (fun _ action alone meets _ stepped => alone.use action meets stepped)
    (fun _ action alone fails =>
      match action with
      | .call (.malloc _) => alone.malloc_breaks fails
      | .call (.free _) => absurd trivial fails
      | .write _ _ _ => absurd trivial fails)
    (Alone.initial os)

/-- Freeing the first of two neighbours wipes the noted size of the second. -/
theorem not_freesAlone_neighbours :
    ∃ world ∈
        GuardedRun.run (use Mmap.above) (World.initial Mmap.above)
          [.call (.malloc 1), .call (.malloc 1)],
      ¬ FreesAlone world := by
  have wipes :
      ∃ world ∈
          GuardedRun.run (use Mmap.above) (World.initial Mmap.above)
            [.call (.malloc 1), .call (.malloc 1)],
        ∃ block ∈ world.live[0]?,
          block.Small ∧
            ∃ other ∈ world.live.eraseIdx 0,
              other.Small ∧
                ∀ final ∈ free world.heap block.ptr,
                  final.mem (other.ptr - 1) ≠
                    world.heap.mem (other.ptr - 1) := by
    decide +kernel
  obtain ⟨world, reached, block, holder, small, other, member, otherSmall,
    wiped⟩ := wipes
  refine ⟨world, reached, ?_⟩
  intro freesAlone
  obtain ⟨final, frees, freed⟩ := freesAlone 0 block holder small
  exact wiped final frees (freed.sizes other member otherSmall)

end BinTools.Heap
