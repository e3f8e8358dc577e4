import BinTools.HeapAlloc
import BinTools.HeapBitmapSpec
import Mathlib.Data.List.Nodup
import Mathlib.Data.List.Perm.Subperm

namespace BinTools.Heap

/-!
# The list of heap records

`Shape state front back` says that the records reachable from `bin_head` are
`front`, then `bin_tail`, then `back`, at increasing slots, and that the last
of them is the newest record.  Every operation of the allocator succeeds or
fails for reasons the shape shows, and says what becomes of the list.
-/

/-- The reachable records are `front`, `bin_tail` and `back`. -/
structure Shape (state : HeapState) (front back : List Nat) : Prop where
  linked :
    PointerList.Linked state.next (some state.binHead)
      (front ++ state.binTail :: back)
  sorted : (front ++ state.binTail :: back).Pairwise (· < ·)
  last :
    (front ++ state.binTail :: back).getLast? =
      some (state.records.length - 1)
  positive : 0 < state.records.length
  fits : state.records.length ≤ binSlots
  records : state.records = List.range state.records.length
  unused :
    ∀ slot, state.records.length ≤ slot → state.bins slot = ⟨0, none, 0⟩
  aligned :
    ∀ slot < state.records.length,
      (state.bins slot).pageAddr % pageSize = 0

namespace Shape

variable {state : HeapState} {front back : List Nat}

/-- Reachable records were created. -/
theorem cell_lt
    (shape : Shape state front back)
    {cell : Nat} (member : cell ∈ front ++ state.binTail :: back) :
    cell < state.records.length := by
  have positive := shape.positive
  obtain ⟨initial, split⟩ := List.getLast?_eq_some_iff.mp shape.last
  rw [split] at member
  have sorted := shape.sorted
  rw [split, List.pairwise_append] at sorted
  rcases List.mem_append.mp member with inInitial | isLast
  · have below :=
      sorted.2.2 cell inInitial (state.records.length - 1) (by simp)
    omega
  · have same : cell = state.records.length - 1 := by simpa using isLast
    omega

/-- `bin_tail` is a record. -/
theorem tail_lt (shape : Shape state front back) :
    state.binTail < state.records.length :=
  shape.cell_lt (by simp)

/-- The list of reachable records fits the metadata page. -/
theorem length_le (shape : Shape state front back) :
    (front ++ state.binTail :: back).length ≤ binSlots := by
  have nodup : (front ++ state.binTail :: back).Nodup :=
    shape.sorted.imp (fun before => Nat.ne_of_lt before)
  have inRange :
      front ++ state.binTail :: back ⊆ List.range state.records.length := by
    intro cell member
    exact List.mem_range.mpr (shape.cell_lt member)
  have shorter := (List.subperm_of_subset nodup inRange).length_le
  rw [List.length_range] at shorter
  exact shorter.trans shape.fits

/-- Walking from `bin_head` visits all reachable records. -/
theorem walk_head (shape : Shape state front back) :
    state.walk state.binHead = some (front ++ state.binTail :: back) :=
  shape.linked.follow_eq shape.length_le

/-- Walking from `bin_tail` visits the records from there on. -/
theorem walk_tail (shape : Shape state front back) :
    state.walk state.binTail = some (state.binTail :: back) := by
  refine shape.linked.suffix.follow_eq ?_
  have whole := shape.length_le
  rw [List.length_append] at whole
  omega

/-- The walk from `bin_tail` ends at the newest record. -/
theorem last_tail (shape : Shape state front back) :
    (state.binTail :: back).getLast? = some (state.records.length - 1) := by
  have last := shape.last
  rwa [List.getLast?_append_of_ne_nil _ (by simp)] at last

/--
Shape only depends on the successors and page addresses of the records, the
list ends and the record count.
-/
theorem congr
    {other : HeapState}
    (shape : Shape state front back)
    (head : other.binHead = state.binHead)
    (tail : other.binTail = state.binTail)
    (records : other.records = state.records)
    (links :
      ∀ slot,
        other.next slot = state.next slot ∧
          (other.bins slot).pageAddr = (state.bins slot).pageAddr)
    (unused :
      ∀ slot, state.records.length ≤ slot →
        other.bins slot = state.bins slot) :
    Shape other front back where
  linked := by
    rw [head, tail]
    exact shape.linked.frame (fun cell _ => (links cell).1)
  sorted := by rw [tail]; exact shape.sorted
  last := by rw [tail, records]; exact shape.last
  positive := by rw [records]; exact shape.positive
  fits := by rw [records]; exact shape.fits
  records := by rw [records]; exact shape.records
  unused := by
    intro slot beyond
    rw [records] at beyond
    rw [unused slot beyond, shape.unused slot beyond]
  aligned := by
    intro slot inRange
    rw [records] at inRange
    rw [(links slot).2]
    exact shape.aligned slot inRange

end Shape

/-- Reading back a written record. -/
theorem HeapState.setBinAt_bins
    (state : HeapState) (slot : Nat) (bin : Bin) (other : Nat) :
    (state.setBinAt slot bin).bins other =
      if other = slot then bin else state.bins other := by
  simp only [setBinAt, Function.update_apply]

/-- The state right after `mem_init` has one record. -/
theorem shape_memInit (os : Mmap) : Shape (memInit os) [] [] where
  linked := ⟨rfl, rfl⟩
  sorted := by simp [memInit]
  last := by simp [memInit]
  positive := by simp [memInit]
  fits := by simp [memInit, binSlots]
  records := rfl
  unused := by
    intro slot beyond
    have nonzero : slot ≠ 0 := by
      simp only [memInit, List.length_singleton] at beyond
      omega
    simp [memInit, nonzero]
  aligned := by
    intro slot inRange
    have zero : slot = 0 := by
      simp only [memInit, List.length_singleton] at inRange
      omega
    subst slot
    exact os.aligned _ _

end BinTools.Heap
