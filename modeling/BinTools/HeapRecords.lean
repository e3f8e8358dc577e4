import BinTools.HeapOperations
import Mathlib.Data.List.Sort

namespace BinTools.Heap

/-!
# Reachability of the heap records

`expand_heap` appends at the end of the list that starts at `bin_head`, while
the page-growing path of `__malloc` overwrites the successor of `bin_tail`.
Every record stays reachable exactly as long as no page is grown while
`bin_tail` has a successor.
-/

/--
Every record is a distinct slot of the metadata page and reachable from
`bin_head`, and `__free` would find the record of every live block.
-/
structure AllReachable (world : World) : Prop where
  distinct : world.heap.records.Nodup
  inPage : ∀ c ∈ world.heap.records, c < binSlots
  reachable :
    ∃ cells,
      world.heap.walk world.heap.binHead = some cells ∧
        (∀ c ∈ world.heap.records, c ∈ cells) ∧
          ∀ block ∈ world.live,
            ∃ c, cells.find? (holdsAddress world.heap block.ptr) = some c

instance (world : World) : Decidable (AllReachable world) :=
  decidable_of_iff
    (world.heap.records.Nodup ∧
      (∀ c ∈ world.heap.records, c < binSlots) ∧
        ∃ cells ∈ world.heap.walk world.heap.binHead,
          (∀ c ∈ world.heap.records, c ∈ cells) ∧
            ∀ block ∈ world.live,
              ((cells.find? (holdsAddress world.heap block.ptr)).isSome) =
                true)
    (by
      simp only [Option.isSome_iff_exists]
      exact
        ⟨fun ⟨distinct, inPage, reachable⟩ => ⟨distinct, inPage, reachable⟩,
          fun ⟨distinct, inPage, reachable⟩ => ⟨distinct, inPage, reachable⟩⟩)

/-- `unset_bin` comes back for this pointer: its bound is not 255. -/
def FreeEnds (state : HeapState) (p : Nat) : Prop :=
  (p % pageSize / 0x10 + freedBlocks state p) % 256 ≠ 255

instance (state : HeapState) (p : Nat) : Decidable (FreeEnds state p) :=
  inferInstanceAs (Decidable (_ ≠ _))

/--
The condition for a call to keep every record reachable: a new record has room
in the metadata page, a page is only grown when `bin_tail` is the last record,
and `__free` comes back.
-/
def KeepsRecords (world : World) : Call → Prop
  | .malloc size =>
      if 0x1000 - 0x10 ≤ size then
        world.heap.records.length < binSlots
      else
        HasRoom world.heap size ∨
          world.heap.records.length < binSlots ∧
            world.heap.next world.heap.binTail = none
  | .free k =>
      ∀ block ∈ world.live[k]?, FreeEnds world.heap block.ptr

instance (world : World) (call : Call) :
    Decidable (KeepsRecords world call) :=
  match call with
  | .malloc size =>
      if large : 0x1000 - 0x10 ≤ size then
        decidable_of_iff (world.heap.records.length < binSlots)
          (by simp [KeepsRecords, large])
      else
        decidable_of_iff
          (HasRoom world.heap size ∨
            world.heap.records.length < binSlots ∧
              world.heap.next world.heap.binTail = none)
          (by simp [KeepsRecords, large])
  | .free k =>
      inferInstanceAs
        (Decidable (∀ block ∈ world.live[k]?, FreeEnds world.heap block.ptr))

/--
The invariant behind `AllReachable`: the list visits the slots in order, and
every live block lies on the first page of some record.
-/
structure Complete (world : World) (front back : List Nat) : Prop where
  shape : Shape world.heap front back
  cells :
    front ++ world.heap.binTail :: back =
      List.range world.heap.records.length
  held :
    ∀ block ∈ world.live,
      ∃ c < world.heap.records.length,
        holdsAddress world.heap block.ptr c = true

/-- The successor of `bin_tail` is the record listed behind it. -/
theorem Shape.next_tail
    {state : HeapState} {front back : List Nat}
    (shape : Shape state front back) :
    state.next state.binTail = back.head? := by
  have linked := shape.linked.suffix.2
  cases back with
  | nil => exact linked
  | cons cell rest => exact linked.1

/-- Complete lists give reachability. -/
theorem Complete.allReachable
    {world : World} {front back : List Nat}
    (complete : Complete world front back) :
    AllReachable world where
  distinct := by
    rw [complete.shape.records]
    exact List.nodup_range
  inPage := by
    intro c member
    rw [complete.shape.records, List.mem_range] at member
    exact Nat.lt_of_lt_of_le member complete.shape.fits
  reachable := by
    refine ⟨_, complete.shape.walk_head, ?_, ?_⟩
    · intro c member
      rw [complete.cells, ← complete.shape.records]
      exact member
    · intro block member
      obtain ⟨c, created, holds⟩ := complete.held block member
      apply Option.isSome_iff_exists.mp
      rw [List.find?_isSome, complete.cells]
      exact ⟨c, List.mem_range.mpr created, holds⟩

/-- Reachability of all records makes the list complete. -/
theorem Shape.cells_of_reachable
    {state : HeapState} {front back cells : List Nat}
    (shape : Shape state front back)
    (walked : state.walk state.binHead = some cells)
    (covers : ∀ c ∈ state.records, c ∈ cells) :
    front ++ state.binTail :: back = List.range state.records.length := by
  cases shape.walk_head.symm.trans walked
  have inRange :
      ∀ c,
        c ∈ front ++ state.binTail :: back ↔
          c ∈ List.range state.records.length := by
    intro c
    constructor
    · intro member
      exact List.mem_range.mpr (shape.cell_lt member)
    · intro member
      rw [← shape.records] at member
      exact covers c member
  have nodup : (front ++ state.binTail :: back).Nodup :=
    shape.sorted.imp (fun before => Nat.ne_of_lt before)
  have permuted :=
    (List.perm_ext_iff_of_nodup nodup List.nodup_range).mpr inRange
  exact
    permuted.eq_of_pairwise'
      shape.sorted List.pairwise_lt_range

/-- Reading `holdsAddress` as bounds. -/
theorem holdsAddress_iff {state : HeapState} {p c : Nat} :
    holdsAddress state p c = true ↔
      (state.bins c).pageAddr ≤ p ∧
        p - (state.bins c).pageAddr < pageSize := by
  simp [holdsAddress]

/-- Where a record holds an address only depends on its page address. -/
theorem holdsAddress_congr
    {first second : HeapState} {c : Nat} (p : Nat)
    (sameAddr : (first.bins c).pageAddr = (second.bins c).pageAddr) :
    holdsAddress first p c = holdsAddress second p c := by
  simp [holdsAddress, sameAddr]

/-- A record holds the blocks of its page. -/
theorem holdsAddress_block
    (state : HeapState) {c a : Nat} (inPage : a < 256) :
    holdsAddress state ((state.bins c).pageAddr + 0x10 * a) c = true := by
  have offset : 0x10 * a < pageSize := by
    simp only [pageSize]
    omega
  simp [holdsAddress, offset]

/-- Appending a record keeps live blocks held. -/
theorem Appended.held
    {os : Mmap} {state final : HeapState}
    {size : Nat} {bits : Bitmap} {cell p : Nat}
    (appended : Appended os state final size bits cell)
    (held :
      ∃ c < state.records.length, holdsAddress state p c = true) :
    ∃ c < final.records.length, holdsAddress final p c = true := by
  obtain ⟨c, created, holds⟩ := held
  have sameAddr := (appended.old c (Nat.ne_of_lt created)).2
  refine ⟨c, ?_, ?_⟩
  · rw [appended.records, List.length_append]
    omega
  · rw [holdsAddress_congr p sameAddr, holds]

/-- Rewriting a bitmap keeps live blocks held. -/
theorem Rewritten.held
    {state final : HeapState} {slot p : Nat}
    (rewritten : Rewritten state final slot)
    (held :
      ∃ c < state.records.length, holdsAddress state p c = true) :
    ∃ c < final.records.length, holdsAddress final p c = true := by
  obtain ⟨c, created, holds⟩ := held
  refine ⟨c, by rw [rewritten.records]; exact created, ?_⟩
  rw [holdsAddress_congr p (rewritten.links c).2, holds]

/-- Live blocks stay held when one more is added. -/
theorem held_append
    {state final : HeapState} {live : List Block} {block : Block}
    (held :
      ∀ other ∈ live,
        ∃ c < state.records.length, holdsAddress state other.ptr c = true)
    (keeps :
      ∀ p,
        (∃ c < state.records.length, holdsAddress state p c = true) →
          ∃ c < final.records.length, holdsAddress final p c = true)
    (new :
      ∃ c < final.records.length, holdsAddress final block.ptr c = true) :
    ∀ other ∈ live ++ [block],
      ∃ c < final.records.length, holdsAddress final other.ptr c = true := by
  intro other member
  rcases List.mem_append.mp member with old | isNew
  · exact keeps other.ptr (held other old)
  · rw [List.mem_singleton.mp isNew]
    exact new

/-- A large request appends its record at the end of the complete list. -/
theorem Complete.malloc_large
    {world : World} {front back : List Nat}
    (complete : Complete world front back)
    (os : Mmap) {size : Nat}
    (large : 0x1000 - 0x10 ≤ size)
    (room : world.heap.records.length < binSlots) :
    ∃ next ∈ step os world (.malloc size),
      Complete next front (back ++ [world.heap.records.length]) := by
  obtain ⟨final, expanded, appended, sameTail, shape⟩ :=
    complete.shape.expandHeap_eq os size room
  refine
    ⟨⟨final, world.live ++ [⟨os.map world.heap.regions size, size⟩]⟩, ?_,
      { shape := shape
        cells := ?_
        held := ?_ }⟩
  · simp [step, malloc, large, expanded]
  · rw [sameTail, ← List.cons_append, ← List.append_assoc, complete.cells,
      appended.records, List.length_append, List.length_singleton,
      List.range_succ]
  · refine held_append complete.held (fun p => appended.held) ?_
    refine ⟨world.heap.records.length, by simp [appended.records], ?_⟩
    have holds :=
      holdsAddress_block final (c := world.heap.records.length)
        (a := 0) (by decide)
    rwa [appended.newAddr] at holds

/-- A small request that finds room leaves the list alone. -/
theorem Complete.malloc_of_hasRoom
    {world : World} {front back : List Nat}
    (complete : Complete world front back)
    (os : Mmap) {size : Nat}
    (small : size < 0x1000 - 0x10)
    (hasRoom : HasRoom world.heap size) :
    ∃ next ∈ step os world (.malloc size), Complete next front back := by
  have shape := complete.shape
  obtain ⟨c, member, a, final, allocated, _, inPage, _, _, rewritten, _, _⟩ :=
    shape.malloc_of_hasRoom os small hasRoom
  have created : c < world.heap.records.length :=
    shape.cell_lt (List.mem_append_right front member)
  refine
    ⟨⟨final,
        world.live ++ [⟨(world.heap.bins c).pageAddr + 0x10 * a, size⟩]⟩, ?_,
      { shape := shape.rewritten rewritten created
        cells := ?_
        held := ?_ }⟩
  · simp [step, allocated]
  · rw [rewritten.tail, rewritten.records]
    exact complete.cells
  · refine held_append complete.held (fun p => rewritten.held) ?_
    have positive := (binsSizeOf_range small).1
    have holds :=
      holdsAddress_block world.heap (c := c) (a := a) (by omega)
    exact rewritten.held ⟨c, created, holds⟩

/-- Growing a page behind the last record appends to the complete list. -/
theorem Complete.malloc_of_not_hasRoom
    {world : World} {front : List Nat}
    (complete : Complete world front [])
    (os : Mmap) {size : Nat}
    (small : size < 0x1000 - 0x10)
    (noRoom : ¬ HasRoom world.heap size)
    (room : world.heap.records.length < binSlots) :
    ∃ next ∈ step os world (.malloc size),
      Complete next (front ++ [world.heap.binTail]) [] := by
  obtain ⟨grown, final, allocated, appended, grownTail, shape, rewritten, _,
      _⟩ :=
    complete.shape.malloc_of_not_hasRoom os small noRoom room
  refine
    ⟨⟨final,
        world.live ++
          [⟨os.map world.heap.regions pageSize + 0x10 * 1, size⟩]⟩, ?_,
      { shape := shape
        cells := ?_
        held := ?_ }⟩
  · simp [step, allocated]
  · rw [rewritten.tail, grownTail, rewritten.records, appended.records,
      complete.cells, List.length_append, List.length_singleton,
      List.range_succ]
  · refine
      held_append complete.held
        (fun p held => rewritten.held (appended.held held)) ?_
    have holds :=
      holdsAddress_block grown (c := world.heap.records.length)
        (a := 1) (by decide)
    rw [appended.newAddr] at holds
    exact
      rewritten.held
        ⟨world.heap.records.length, by simp [appended.records], holds⟩

/-- A page of aligned address starts at a block boundary. -/
theorem Shape.blockOf_eq
    {state : HeapState} {front back : List Nat} {c p : Nat}
    (shape : Shape state front back)
    (created : c < state.records.length)
    (holds : holdsAddress state p c = true) :
    state.blockOf c p = p % pageSize / 0x10 := by
  have aligned := shape.aligned c created
  obtain ⟨above, below⟩ := holdsAddress_iff.mp holds
  simp only [HeapState.blockOf, pageSize] at above below aligned ⊢
  omega

/-- The record that `__free` finds for a held pointer. -/
theorem Complete.find
    {world : World} {front back : List Nat}
    (complete : Complete world front back)
    {block : Block} (live : block ∈ world.live) :
    ∃ c < world.heap.records.length,
      (front ++ world.heap.binTail :: back).find?
          (holdsAddress world.heap block.ptr) = some c ∧
        world.heap.blockOf c block.ptr = block.ptr % pageSize / 0x10 := by
  obtain ⟨held, heldCreated, holds⟩ := complete.held block live
  have member : held ∈ front ++ world.heap.binTail :: back := by
    rw [complete.cells]
    exact List.mem_range.mpr heldCreated
  obtain ⟨c, found⟩ :=
    Option.isSome_iff_exists.mp
      (List.find?_isSome.mpr ⟨held, member, holds⟩)
  have created := complete.shape.cell_lt (List.mem_of_find?_eq_some found)
  exact
    ⟨c, created, found,
      complete.shape.blockOf_eq created (List.find?_some found)⟩

/-- Freeing keeps the list and the blocks that stay live. -/
theorem Complete.free
    {world : World} {front back : List Nat}
    (complete : Complete world front back)
    (os : Mmap) {k : Nat}
    (ends : ∀ block ∈ world.live[k]?, FreeEnds world.heap block.ptr) :
    ∃ next ∈ step os world (.free k), Complete next front back := by
  cases holder : world.live[k]? with
  | none => exact ⟨world, by simp [step, holder], complete⟩
  | some block =>
      have live := List.mem_of_getElem? holder
      obtain ⟨c, created, found, blockIs⟩ := complete.find live
      have comesBack : FreeEnds world.heap block.ptr :=
        ends block holder
      rw [FreeEnds, ← blockIs] at comesBack
      obtain ⟨final, freed, rewritten, _, _⟩ :=
        complete.shape.free_of_found found comesBack
      refine
        ⟨⟨final, world.live.eraseIdx k⟩, by simp [step, holder, freed],
          { shape := complete.shape.rewritten rewritten created
            cells := ?_
            held := ?_ }⟩
      · rw [rewritten.tail, rewritten.records]
        exact complete.cells
      · intro other member
        exact
          rewritten.held
            (complete.held other (List.mem_of_mem_eraseIdx member))

/-- A call that meets the condition succeeds and keeps the list complete. -/
theorem Complete.step
    {world : World} {front back : List Nat}
    (complete : Complete world front back)
    (os : Mmap) (call : Call)
    (meets : KeepsRecords world call) :
    ∃ next ∈ Heap.step os world call,
      ∃ front back, Complete next front back := by
  cases call with
  | malloc size =>
      by_cases large : 0x1000 - 0x10 ≤ size
      · have room : world.heap.records.length < binSlots := by
          simpa [KeepsRecords, large] using meets
        obtain ⟨next, stepped, later⟩ := complete.malloc_large os large room
        exact ⟨next, stepped, _, _, later⟩
      · have small := Nat.lt_of_not_le large
        by_cases hasRoom : HasRoom world.heap size
        · obtain ⟨next, stepped, later⟩ :=
            complete.malloc_of_hasRoom os small hasRoom
          exact ⟨next, stepped, _, _, later⟩
        · obtain ⟨room, atEnd⟩ :
              world.heap.records.length < binSlots ∧
                world.heap.next world.heap.binTail = none := by
            simpa [KeepsRecords, large, hasRoom] using meets
          rw [complete.shape.next_tail, List.head?_eq_none_iff] at atEnd
          subst atEnd
          obtain ⟨next, stepped, later⟩ :=
            complete.malloc_of_not_hasRoom os small hasRoom room
          exact ⟨next, stepped, _, _, later⟩
  | free k =>
      obtain ⟨next, stepped, later⟩ := complete.free os meets
      exact ⟨next, stepped, _, _, later⟩

/-- A call that misses the condition fails or loses a record. -/
theorem Complete.step_breaks
    {world : World} {front back : List Nat}
    (complete : Complete world front back)
    (os : Mmap) (call : Call)
    (misses : ¬ KeepsRecords world call) :
    ∀ next ∈ Heap.step os world call, ¬ AllReachable next := by
  have shape := complete.shape
  intro next stepped reachable
  cases call with
  | malloc size =>
      by_cases large : 0x1000 - 0x10 ≤ size
      · have full : ¬ world.heap.records.length < binSlots := by
          simpa [KeepsRecords, large] using misses
        simp [Heap.step, malloc, large, shape.expandHeap_eq_none os size full]
          at stepped
      · have small := Nat.lt_of_not_le large
        have noRoom : ¬ HasRoom world.heap size := by
          intro hasRoom
          exact misses (by simp [KeepsRecords, large, hasRoom])
        by_cases room : world.heap.records.length < binSlots
        · obtain ⟨grown, final, allocated, appended, grownTail, later,
              rewritten, _, _⟩ :=
            shape.malloc_of_not_hasRoom os small noRoom room
          obtain ⟨cells, walked, covers, _⟩ := reachable.reachable
          have isFinal : next.heap = final := by
            simp only [Heap.step, allocated, Option.map_some,
              Option.mem_def, Option.some.injEq] at stepped
            rw [← stepped]
          rw [isFinal] at walked covers
          have all := later.cells_of_reachable walked covers
          have lengths := congrArg List.length all
          have before := congrArg List.length complete.cells
          simp only [rewritten.records, appended.records, List.length_append,
            List.length_cons, List.length_nil, List.length_range]
            at lengths before
          have atEnd : back = [] := List.eq_nil_of_length_eq_zero (by omega)
          refine misses ?_
          simp [KeepsRecords, large, room, shape.next_tail, atEnd]
        · simp [Heap.step, shape.malloc_eq_none os small noRoom room]
            at stepped
  | free k =>
      simp only [KeepsRecords, not_forall] at misses
      obtain ⟨block, holder, stuck⟩ := misses
      obtain ⟨c, created, found, blockIs⟩ :=
        complete.find (List.mem_of_getElem? holder)
      rw [FreeEnds, not_not, ← blockIs] at stuck
      rw [Option.mem_def] at holder
      simp [Heap.step, holder, shape.free_eq_none found stuck] at stepped

/-- After `mem_init` the one record is listed. -/
theorem complete_initial (os : Mmap) : Complete (World.initial os) [] [] where
  shape := shape_memInit os
  cells := rfl
  held := by simp [World.initial]

/--
Every record stays reachable throughout a run exactly when no call of the run
grows a page while `bin_tail` has a successor, fills the metadata page or frees
with the bound that never ends.
-/
theorem allReachable_iff_keepsRecords (os : Mmap) (calls : List Call) :
    GuardedRun.Always (step os) AllReachable (World.initial os) calls ↔
      GuardedRun.Guarded (step os) KeepsRecords (World.initial os) calls := by
  have reachable :
      ∀ world, (∃ front back, Complete world front back) →
        AllReachable world := by
    rintro world ⟨front, back, complete⟩
    exact complete.allReachable
  refine
    GuardedRun.always_iff_guarded reachable ?_ ?_
      ⟨[], [], complete_initial os⟩
  · rintro world call ⟨front, back, complete⟩ meets
    exact complete.step os call meets
  · rintro world call ⟨front, back, complete⟩ misses
    exact complete.step_breaks os call misses

/--
A large block, a small one that fills the first page and one more: growing a
page behind `bin_tail` drops the record of the large block.
-/
theorem exists_unreachable_record :
    ∃ world ∈
        GuardedRun.run (step Mmap.above) (World.initial Mmap.above)
          [.malloc 0xff0, .malloc 0xfe0, .malloc 0],
      ¬ AllReachable world := by
  decide +kernel

end BinTools.Heap
