import BinTools.HeapFreshMemory

namespace BinTools.Heap

/-!
# Termination of `__free`

`unset_bin` counts to `s + q` in eight bits and comes back unless that is 255.
The number of blocks is read from the byte in front of the pointer, which the
pages keep as it was noted unless a neighbour is freed or the byte is part of
another live block.
-/

/-- `__free` comes back for every live block. -/
def FreesEnd (world : World) : Prop :=
  ∀ block ∈ world.live, ∃ final, free world.heap block.ptr = some final

/--
The condition for `__free` to keep coming back: a pointer handed out is inside a
page, with blocks that do not end at the last but one; freeing wipes the size of
no block at the end of a page; and what is written over a size fits the place.
-/
def KeepsEnding (os : Mmap) (world : World) : Use → Prop
  | .call (.malloc size) =>
      ∀ result ∈ malloc os world.heap size,
        result.2 % pageSize ≠ 0 ∧
          (result.2 % pageSize / 0x10 + binsSizeOf size) % 256 ≠ 255
  | .call (.free k) =>
      ∀ block ∈ world.live[k]?,
        ∀ other ∈ world.live.eraseIdx k,
          (⟨block.ptr, 0x10 * freedBlocks world.heap block.ptr⟩ :
              Region).Contains (other.ptr - 1) →
            other.ptr % pageSize / 0x10 ≠ 255
  | .write k offset value =>
      ∀ block ∈ world.live[k]?,
        offset < block.size →
          ∀ other ∈ world.live,
            other.ptr - 1 = block.ptr + offset →
              (other.ptr % pageSize / 0x10 + value.toNat) % 256 ≠ 255

/-! ## The blocks whose size comes to an end -/

/--
Every record is reachable, and every live block lies in the page of one, where
`unset_bin` comes back for it.
-/
structure Ending (world : World) (front : List Nat) : Prop where
  shape : Shape world.heap front []
  placed :
    ∀ block ∈ world.live,
      ∃ c ∈ front ++ [world.heap.binTail],
        holdsAddress world.heap block.ptr c = true
  ends : ∀ block ∈ world.live, FreeEnds world.heap block.ptr

/-- A pointer that can be freed is inside its page. -/
theorem FreeEnds.not_aligned
    {state : HeapState} {p : Nat}
    (ends : FreeEnds state p) :
    p % pageSize ≠ 0 := by
  intro atStart
  simp [FreeEnds, freedBlocks, atStart] at ends

/-- `__free` finds a block that lies in a reachable page. -/
theorem exists_found
    {state : HeapState} {cells : List Nat} {p : Nat}
    (placed : ∃ c ∈ cells, holdsAddress state p c = true) :
    ∃ c, cells.find? (holdsAddress state p) = some c := by
  obtain ⟨c, member, holds⟩ := placed
  exact Option.isSome_iff_exists.mp
    (List.find?_isSome.mpr ⟨c, member, holds⟩)

/-- For a pointer in a reachable page `__free` does what `unset_bin` does. -/
theorem Shape.free_iff_ends
    {state : HeapState} {front back : List Nat} {p : Nat}
    (shape : Shape state front back)
    (placed :
      ∃ c ∈ front ++ state.binTail :: back, holdsAddress state p c = true) :
    (∃ final, free state p = some final) ↔ FreeEnds state p := by
  obtain ⟨c, found⟩ := exists_found placed
  have created := shape.cell_lt (List.mem_of_find?_eq_some found)
  have isBlock := shape.blockOf_eq created (List.find?_some found)
  rw [FreeEnds, ← isBlock]
  constructor
  · rintro ⟨final, frees⟩ stuck
    rw [shape.free_eq_none found stuck] at frees
    cases frees
  · intro ends
    obtain ⟨final, frees, _⟩ := shape.free_of_found found ends
    exact ⟨final, frees⟩

theorem Ending.freesEnd
    {world : World} {front : List Nat}
    (ending : Ending world front) :
    FreesEnd world := fun block member =>
  (ending.shape.free_iff_ends (ending.placed block member)).mpr
    (ending.ends block member)

/-- Where the size byte stays, so does the end. -/
theorem FreeEnds.congr
    {state final : HeapState} {p : Nat}
    (ends : FreeEnds state p)
    (same : final.mem (p - 1) = state.mem (p - 1)) :
    FreeEnds final p := by
  rw [FreeEnds, freedBlocks, same]
  exact ends

/-- The end of a pointer inside a page depends on its size byte. -/
theorem freeEnds_iff
    {state : HeapState} {p : Nat}
    (inside : p % pageSize ≠ 0) :
    FreeEnds state p ↔
      (p % pageSize / 0x10 + (state.mem (p - 1)).toNat) % 256 ≠ 255 := by
  rw [FreeEnds, freedBlocks, if_neg inside]

/-! ## Allocation -/

/-- What a small allocation does to a list that `bin_tail` ends. -/
structure Placed
    (state final : HeapState) (front newFront : List Nat) (size r : Nat) :
    Prop where
  shape : Shape final newFront []
  keeps :
    ∀ p,
      (∃ c ∈ front ++ [state.binTail], holdsAddress state p c = true) →
        ∃ c ∈ newFront ++ [final.binTail], holdsAddress final p c = true
  place :
    ∃ c ∈ newFront ++ [final.binTail], ∃ a,
      r = (final.bins c).pageAddr + 0x10 * a ∧ a ≠ 0 ∧
        a + binsSizeOf size ≤ 256
  mem :
    final.mem = Function.update state.mem (r - 1) (UInt8.ofNat (binsSizeOf size))

/-- A small allocation is placed in the last page, or in one behind it. -/
theorem Shape.malloc_placed
    {os : Mmap} {state final : HeapState} {front : List Nat} {size r : Nat}
    (shape : Shape state front [])
    (small : size < 0x1000 - 0x10)
    (allocated : malloc os state size = some (final, r)) :
    ∃ newFront, Placed state final front newFront size r := by
  by_cases hasRoom : HasRoom state size
  · obtain ⟨c, member, a, after, result, nonzero, inPage, _, _, taken⟩ :=
      shape.malloc_of_hasRoom os small hasRoom
    cases result.symm.trans allocated
    have created := shape.cell_lt (List.mem_append_right front member)
    have tail := taken.rewritten.tail
    refine
      ⟨front,
        { shape := shape.rewritten taken.rewritten created
          keeps := ?_
          place := ?_
          mem := taken.mem }⟩
    · rintro p ⟨d, inCells, holds⟩
      refine ⟨d, by rw [tail]; exact inCells, ?_⟩
      rw [holdsAddress_congr p (taken.rewritten.links d).2, holds]
    · refine ⟨c, ?_, a, ?_, nonzero, inPage⟩
      · rw [tail]
        exact List.mem_append_right front member
      · rw [(taken.rewritten.links c).2]
  · have room : state.records.length < binSlots := by
      rcases shape.room_of_malloc allocated with ⟨_, roomThere⟩ | room
      · exact absurd roomThere hasRoom
      · exact room
    obtain ⟨grown, after, result, appended, newTail, newShape, taken⟩ :=
      shape.malloc_of_not_hasRoom os small hasRoom room
    cases result.symm.trans allocated
    have tail : final.binTail = state.records.length :=
      taken.rewritten.tail.trans newTail
    have inPage : 1 + binsSizeOf size ≤ 256 := by
      rw [binsSizeOf_eq small]
      omega
    have isAddr :
        os.map state.regions pageSize =
          (final.bins state.records.length).pageAddr := by
      rw [(taken.rewritten.links _).2, appended.newAddr]
    refine
      ⟨front ++ [state.binTail],
        { shape := newShape
          keeps := ?_
          place := ?_
          mem := ?_ }⟩
    · rintro p ⟨d, inCells, holds⟩
      have old : d ≠ state.records.length :=
        Nat.ne_of_lt (shape.cell_lt inCells)
      refine ⟨d, List.mem_append_left _ inCells, ?_⟩
      rw [holdsAddress_congr p (taken.rewritten.links d).2,
        holdsAddress_congr p (appended.old d old).2, holds]
    · refine
        ⟨state.records.length, ?_, 1, by rw [isAddr], Nat.one_ne_zero,
          inPage⟩
      rw [tail]
      exact List.mem_append_right _ (List.mem_singleton.mpr rfl)
    · rw [taken.mem, appended.mem, appended.newAddr]

/-- The size byte of a block that is handed out. -/
theorem Placed.freeEnds_iff
    {state final : HeapState} {front newFront : List Nat} {size r : Nat}
    (placed : Placed state final front newFront size r)
    (small : size < 0x1000 - 0x10) :
    r % pageSize ≠ 0 ∧
      (FreeEnds final r ↔
        (r % pageSize / 0x10 + binsSizeOf size) % 256 ≠ 255) := by
  obtain ⟨c, member, a, isR, nonzero, inPage⟩ := placed.place
  have aligned := placed.shape.aligned c (placed.shape.cell_lt member)
  obtain ⟨positive, qInRange⟩ := binsSizeOf_range small
  have inside : r % pageSize ≠ 0 := by
    simp only [pageSize] at aligned ⊢
    omega
  have isSize :
      (UInt8.ofNat (binsSizeOf size)).toNat = binsSizeOf size := by
    rw [UInt8.toNat_ofNat']
    exact Nat.mod_eq_of_lt (by omega)
  refine ⟨inside, ?_⟩
  rw [Heap.freeEnds_iff inside, placed.mem, Function.update_self, isSize]

/-- The other blocks keep their size bytes, or have the new one. -/
theorem Placed.keepsEnds
    {state final : HeapState} {front newFront : List Nat} {size r p : Nat}
    (placed : Placed state final front newFront size r)
    (newEnds : FreeEnds final r)
    (ends : FreeEnds state p) :
    FreeEnds final p := by
  by_cases same : p - 1 = r - 1
  · have pInside := ends.not_aligned
    have rInside := newEnds.not_aligned
    have isR : p = r := by
      simp only [pageSize] at pInside rInside
      omega
    rw [isR]
    exact newEnds
  · apply ends.congr
    rw [placed.mem, Function.update_of_ne same]

theorem Ending.malloc
    {os : Mmap} {world next : World} {front : List Nat} {size : Nat}
    (ending : Ending world front)
    (meets : KeepsEnding os world (.call (.malloc size)))
    (stepped : use os world (.call (.malloc size)) = some next) :
    ∃ newFront, Ending next newFront := by
  obtain ⟨⟨final, r⟩, allocated, isNext⟩ := Option.map_eq_some_iff.mp stepped
  obtain ⟨inside, ends⟩ := meets _ allocated
  have small : size < 0x1000 - 0x10 := by
    by_contra large
    have isLarge :
        Heap.malloc os world.heap size = expandHeap os world.heap size :=
      if_pos (Nat.le_of_not_lt large)
    rcases ending.shape.room_of_malloc allocated with ⟨isSmall, _⟩ | room
    · exact large isSmall
    · obtain ⟨after, expanded, _⟩ :=
        ending.shape.expandHeap_eq os size room
      rw [isLarge, expanded] at allocated
      cases allocated
      exact inside (os.aligned _ _)
  obtain ⟨newFront, placed⟩ := ending.shape.malloc_placed small allocated
  have newEnds := (placed.freeEnds_iff small).2.mpr ends
  cases isNext
  refine ⟨newFront, placed.shape, ?_, ?_⟩
  · intro block member
    rcases List.mem_append.mp member with old | isNew
    · exact placed.keeps _ (ending.placed block old)
    · cases List.mem_singleton.mp isNew
      obtain ⟨c, inCells, a, isR, _, inPage⟩ := placed.place
      have positive := (binsSizeOf_range small).1
      refine ⟨c, inCells, ?_⟩
      rw [isR]
      exact holdsAddress_block final (by omega)
  · intro block member
    rcases List.mem_append.mp member with old | isNew
    · exact placed.keepsEnds newEnds (ending.ends block old)
    · cases List.mem_singleton.mp isNew
      exact newEnds

/-! ## Release and writing -/

/-- What freeing a live block leaves of the size byte of another one. -/
theorem Freed.mem_eq
    {state final : HeapState} {c p q : Nat}
    (freed : Freed state final c p q)
    (address : Nat) :
    final.mem address =
      if (⟨p, 0x10 * q⟩ : Region).Contains address then 0
      else state.mem address := by
  rw [freed.mem]
  rfl

/-- A live block that is freed, and the heap behind it. -/
theorem Ending.exists_freed
    {world : World} {front : List Nat} {block : Block}
    (ending : Ending world front)
    (member : block ∈ world.live) :
    ∃ c final,
      Heap.free world.heap block.ptr = some final ∧
        Freed world.heap final c block.ptr
            (freedBlocks world.heap block.ptr) ∧
          Shape final front [] := by
  have shape := ending.shape
  obtain ⟨c, found⟩ := exists_found (ending.placed block member)
  have created := shape.cell_lt (List.mem_of_find?_eq_some found)
  have ends := ending.ends block member
  rw [FreeEnds, ← shape.blockOf_eq created (List.find?_some found)] at ends
  obtain ⟨final, frees, freed⟩ := shape.free_of_found found ends
  exact
    ⟨c, final, frees, freed, shape.rewritten freed.rewritten created⟩

/-- Freeing leaves every pointer in its page. -/
theorem Freed.placed
    {state final : HeapState} {front : List Nat} {c p q other : Nat}
    (freed : Freed state final c p q)
    (placed :
      ∃ d ∈ front ++ [state.binTail], holdsAddress state other d = true) :
    ∃ d ∈ front ++ [final.binTail], holdsAddress final other d = true := by
  obtain ⟨d, inCells, holds⟩ := placed
  refine ⟨d, by rw [freed.rewritten.tail]; exact inCells, ?_⟩
  rw [holdsAddress_congr other (freed.rewritten.links d).2, holds]

theorem Ending.free
    {os : Mmap} {world next : World} {front : List Nat} {k : Nat}
    (ending : Ending world front)
    (meets : KeepsEnding os world (.call (.free k)))
    (stepped : use os world (.call (.free k)) = some next) :
    Ending next front := by
  simp only [use, step] at stepped
  cases holder : world.live[k]? with
  | none =>
      rw [holder] at stepped
      cases stepped
      exact ending
  | some block =>
      rw [holder] at stepped
      obtain ⟨final, frees, isNext⟩ := Option.map_eq_some_iff.mp stepped
      obtain ⟨c, after, again, freed, shape⟩ :=
        ending.exists_freed (List.mem_of_getElem? holder)
      cases again.symm.trans frees
      cases isNext
      refine ⟨shape, ?_, ?_⟩
      · intro other member
        exact
          freed.placed
            (ending.placed other (List.mem_of_mem_eraseIdx member))
      · intro other member
        have ends := ending.ends other (List.mem_of_mem_eraseIdx member)
        by_cases wiped :
            (⟨block.ptr, 0x10 * freedBlocks world.heap block.ptr⟩ :
              Region).Contains (other.ptr - 1)
        · have notLast := meets block holder other member wiped
          have inside := ends.not_aligned
          dsimp only
          rw [freeEnds_iff inside, freed.mem_eq, if_pos wiped]
          simp only [pageSize, UInt8.toNat_zero] at notLast ⊢
          omega
        · apply ends.congr
          dsimp only
          rw [freed.mem_eq, if_neg wiped]

theorem Ending.write
    {os : Mmap} {world next : World} {front : List Nat} {k offset : Nat}
    {value : UInt8}
    (ending : Ending world front)
    (meets : KeepsEnding os world (.write k offset value))
    (stepped : use os world (.write k offset value) = some next) :
    Ending next front := by
  simp only [use] at stepped
  cases holder : world.live[k]? with
  | none =>
      rw [holder] at stepped
      cases stepped
      exact ending
  | some block =>
      rw [holder] at stepped
      dsimp only at stepped
      split_ifs at stepped with inSize
      · cases stepped
        refine
          ⟨ending.shape.congr rfl rfl rfl (fun _ => ⟨rfl, rfl⟩)
              (fun _ _ => rfl),
            ending.placed, ?_⟩
        intro other member
        have ends := ending.ends other member
        by_cases hit : other.ptr - 1 = block.ptr + offset
        · have fits := meets block holder inSize other member hit
          dsimp only
          rw [freeEnds_iff ends.not_aligned, hit]
          dsimp only
          rw [Function.update_self]
          exact fits
        · apply ends.congr
          dsimp only
          rw [Function.update_of_ne hit]
      · cases stepped
        exact ending

/-- A use that meets the condition leaves blocks whose size ends. -/
theorem Ending.use
    {os : Mmap} {world next : World}
    (ending : ∃ front, Ending world front)
    (action : Use)
    (meets : KeepsEnding os world action)
    (stepped : Heap.use os world action = some next) :
    ∃ front, Ending next front := by
  obtain ⟨front, ending⟩ := ending
  cases action with
  | call call =>
      cases call with
      | malloc size => exact ending.malloc meets stepped
      | free k => exact ⟨front, ending.free meets stepped⟩
  | write k offset value => exact ⟨front, ending.write meets stepped⟩

/-! ## Where the condition fails -/

/-- A live block in a reachable page whose size does not end. -/
theorem not_freesEnd
    {world : World} {front back : List Nat} {block : Block}
    (shape : Shape world.heap front back)
    (member : block ∈ world.live)
    (placed :
      ∃ c ∈ front ++ world.heap.binTail :: back,
        holdsAddress world.heap block.ptr c = true)
    (stuck : ¬ FreeEnds world.heap block.ptr) :
    ¬ FreesEnd world := fun freesEnd =>
  stuck ((shape.free_iff_ends placed).mp (freesEnd block member))

theorem Ending.malloc_breaks
    {os : Mmap} {world : World} {front : List Nat} {size : Nat}
    (ending : Ending world front)
    (fails : ¬ KeepsEnding os world (.call (.malloc size))) :
    ∃ next ∈ Heap.use os world (.call (.malloc size)), ¬ FreesEnd next := by
  simp only [KeepsEnding, not_forall] at fails
  obtain ⟨⟨final, r⟩, allocated, fails⟩ := fails
  have stepped :
      Heap.use os world (.call (.malloc size)) =
        some ⟨final, world.live ++ [⟨r, size⟩]⟩ := by
    simp only [Heap.use, step]
    rw [Option.mem_def.mp allocated]
    rfl
  refine ⟨_, stepped, ?_⟩
  by_cases small : size < 0x1000 - 0x10
  · obtain ⟨newFront, placed⟩ := ending.shape.malloc_placed small allocated
    obtain ⟨inside, endsIff⟩ := placed.freeEnds_iff small
    obtain ⟨c, inCells, a, isR, _, inPage⟩ := placed.place
    have positive := (binsSizeOf_range small).1
    refine
      not_freesEnd placed.shape
        (List.mem_append_right _ (List.mem_singleton.mpr rfl))
        ⟨c, inCells, ?_⟩ ?_
    · dsimp only
      rw [isR]
      exact holdsAddress_block final (by omega)
    · intro ends
      exact fails ⟨inside, endsIff.mp ends⟩
  · have isLarge :
        Heap.malloc os world.heap size = expandHeap os world.heap size :=
      if_pos (Nat.le_of_not_lt small)
    rcases ending.shape.room_of_malloc allocated with ⟨isSmall, _⟩ | room
    · exact absurd isSmall small
    · obtain ⟨after, expanded, appended, tail, shape⟩ :=
        ending.shape.expandHeap_eq os size room
      rw [isLarge, expanded] at allocated
      cases allocated
      refine
        not_freesEnd shape
          (List.mem_append_right _ (List.mem_singleton.mpr rfl))
          ⟨world.heap.records.length, by simp, ?_⟩ ?_
      · have holds := holdsAddress_block final
          (show 0 < 256 by decide) (c := world.heap.records.length)
        rw [Nat.mul_zero, Nat.add_zero, appended.newAddr] at holds
        exact holds
      · intro ends
        exact ends.not_aligned (os.aligned _ _)

theorem Ending.free_breaks
    {os : Mmap} {world : World} {front : List Nat} {k : Nat}
    (ending : Ending world front)
    (fails : ¬ KeepsEnding os world (.call (.free k))) :
    ∃ next ∈ Heap.use os world (.call (.free k)), ¬ FreesEnd next := by
  simp only [KeepsEnding, not_forall] at fails
  obtain ⟨block, holder, other, member, wiped, isLast⟩ := fails
  obtain ⟨c, final, frees, freed, shape⟩ :=
    ending.exists_freed (List.mem_of_getElem? holder)
  have stepped :
      Heap.use os world (.call (.free k)) =
        some ⟨final, world.live.eraseIdx k⟩ := by
    simp only [Heap.use, step]
    rw [Option.mem_def.mp holder]
    dsimp only
    rw [frees]
    rfl
  have live := List.mem_of_mem_eraseIdx member
  have inside := (ending.ends other live).not_aligned
  refine ⟨_, stepped, ?_⟩
  refine
    not_freesEnd shape member (freed.placed (ending.placed other live)) ?_
  rw [freeEnds_iff inside, freed.mem_eq, if_pos wiped,
    not_not.mp isLast]
  decide

theorem Ending.write_breaks
    {os : Mmap} {world : World} {front : List Nat} {k offset : Nat}
    {value : UInt8}
    (ending : Ending world front)
    (fails : ¬ KeepsEnding os world (.write k offset value)) :
    ∃ next ∈ Heap.use os world (.write k offset value), ¬ FreesEnd next := by
  simp only [KeepsEnding, not_forall] at fails
  obtain ⟨block, holder, inSize, other, member, hit, stuck⟩ := fails
  let final : HeapState :=
    { world.heap with
      mem := Function.update world.heap.mem (block.ptr + offset) value }
  have stepped :
      Heap.use os world (.write k offset value) =
        some { world with heap := final } := by
    simp only [Heap.use]
    rw [Option.mem_def.mp holder]
    exact if_pos inSize
  have shape : Shape final front [] :=
    ending.shape.congr rfl rfl rfl (fun _ => ⟨rfl, rfl⟩) (fun _ _ => rfl)
  have isValue : final.mem (other.ptr - 1) = value := by
    rw [hit]
    exact Function.update_self _ _ _
  refine ⟨_, stepped, ?_⟩
  refine not_freesEnd shape member (ending.placed other member) ?_
  rw [freeEnds_iff (ending.ends other member).not_aligned, isValue]
  exact stuck

/-! ## Runs -/

theorem ending_initial (os : Mmap) :
    Ending (World.initial os) [] where
  shape := (separated_initial os).shape
  placed := fun _ absent => absurd absent List.not_mem_nil
  ends := fun _ absent => absurd absent List.not_mem_nil

/--
`__free` comes back for every live block in every state that a run reaches
exactly when every use of the heap meets the condition.
-/
theorem freesEnd_iff_keepsEnding
    (os : Mmap) (uses : List Use) :
    GuardedRun.Throughout (use os) FreesEnd (World.initial os) uses ↔
      GuardedRun.Guarded (use os) (KeepsEnding os) (World.initial os) uses :=
  GuardedRun.throughout_iff_guarded
    (fun _ ⟨_, ending⟩ => ending.freesEnd)
    (fun _ action ending meets _ stepped =>
      Ending.use ending action meets stepped)
    (fun _ action ⟨_, ending⟩ fails =>
      match action with
      | .call (.malloc _) => ending.malloc_breaks fails
      | .call (.free _) => ending.free_breaks fails
      | .write _ _ _ => ending.write_breaks fails)
    ⟨[], ending_initial os⟩

/--
A block of 254 of the 256 blocks of a page starts at block one; `unset_bin` then
counts to 255 and on from zero.
-/
theorem not_freesEnd_nearlyPage :
    ∃ world ∈
        GuardedRun.run (use Mmap.above) (World.initial Mmap.above)
          [.call (.malloc 0xfd0)],
      ¬ FreesEnd world := by
  have stuck :
      ∃ world ∈
          GuardedRun.run (use Mmap.above) (World.initial Mmap.above)
            [.call (.malloc 0xfd0)],
        ∃ block ∈ world.live,
          (free world.heap block.ptr).isNone = true := by
    decide +kernel
  obtain ⟨world, reached, block, member, isNone⟩ := stuck
  refine ⟨world, reached, ?_⟩
  intro freesEnd
  obtain ⟨final, frees⟩ := freesEnd block member
  rw [frees] at isNone
  cases isNone

end BinTools.Heap
