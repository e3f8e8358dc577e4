import BinTools.GuardedRun
import BinTools.HeapBitmap
import BinTools.PointerList

namespace BinTools.Heap

/-!
# The heap of `__alloc.c`

One metadata page holds `Bin` records of 48 bytes, each describing a page of
256 blocks or one large mapping.  Records are addressed by their slot number in
the metadata page and linked through `next`.  The bytes of the mapped pages are
kept as a function on addresses; addresses are natural numbers.
-/

/-- `0x1000`. -/
def pageSize : Nat :=
  0x1000

/-- `sizeof(Bin)` is 48, so the metadata page has room for 85 records. -/
def binSlots : Nat :=
  85

/-- One record of the metadata page. -/
structure Bin where
  bin : Bitmap
  next : Option Nat
  pageAddr : Nat

/-- A mapped address range. -/
structure Region where
  base : Nat
  length : Nat
  deriving DecidableEq, Repr

namespace Region

/-- The ranges share no byte. -/
def Disjoint (first second : Region) : Prop :=
  first.base + first.length ≤ second.base ∨
    second.base + second.length ≤ first.base

end Region

/-- The kernel maps whole pages. -/
def mappedLength (size : Nat) : Nat :=
  (size + (pageSize - 1)) / pageSize * pageSize

/--
`__os__mmap` for an anonymous mapping: it is asked with the ranges already
mapped and a size, and answers with the address of a fresh page-aligned range.
-/
structure Mmap where
  map : List Region → Nat → Nat
  aligned : ∀ regions size, map regions size % pageSize = 0
  positive : ∀ regions size, 0 < map regions size
  fresh :
    ∀ regions size, ∀ region ∈ regions,
      Region.Disjoint region ⟨map regions size, mappedLength size⟩

/-- The first address behind every range. -/
def topOf (regions : List Region) : Nat :=
  regions.foldr (fun region top => max (region.base + region.length) top) 0

/-- No range reaches beyond the top. -/
theorem le_topOf {regions : List Region} {region : Region}
    (member : region ∈ regions) :
    region.base + region.length ≤ topOf regions := by
  induction regions with
  | nil => cases member
  | cons first rest inductionHypothesis =>
      rw [topOf, List.foldr_cons]
      rcases List.mem_cons.mp member with rfl | later
      · exact Nat.le_max_left _ _
      · exact
          (inductionHypothesis later).trans (Nat.le_max_right _ _)

/-- A kernel that always maps the page behind the last range. -/
def Mmap.above : Mmap where
  map regions _ := (topOf regions / pageSize + 1) * pageSize
  aligned := by simp
  positive := by simp [pageSize]
  fresh := by
    intro regions size region member
    have below := le_topOf member
    refine Or.inl ?_
    simp only [pageSize]
    omega

/--
The state of the allocator: the metadata page by slot, the two list ends of
`HeapMeta`, the bytes of memory and the ranges mapped so far.  `records` lists
the slots that were ever filled in, for stating what happens to them.
-/
structure HeapState where
  bins : Nat → Bin
  binHead : Nat
  binTail : Nat
  mem : Nat → UInt8
  regions : List Region
  records : List Nat

/-- The successor of a record. -/
def HeapState.next (state : HeapState) (slot : Nat) : Option Nat :=
  (state.bins slot).next

/-- Write one record of the metadata page. -/
def HeapState.setBinAt
    (state : HeapState) (slot : Nat) (bin : Bin) : HeapState :=
  { state with bins := Function.update state.bins slot bin }

/-- Map a fresh range. -/
def HeapState.mmap (state : HeapState) (os : Mmap) (size : Nat) : HeapState :=
  { state with
    regions :=
      state.regions ++ [⟨os.map state.regions size, mappedLength size⟩] }

/-- `mem_init`: the metadata page with one record, and that record's page. -/
def memInit (os : Mmap) : HeapState :=
  let metaPage : Region := ⟨os.map [] pageSize, mappedLength pageSize⟩
  let page := os.map [metaPage] pageSize
  { bins := fun slot =>
      if slot = 0 then ⟨1, none, page⟩ else ⟨0, none, 0⟩
    binHead := 0
    binTail := 0
    mem := fun _ => 0
    regions := [metaPage, ⟨page, mappedLength pageSize⟩]
    records := [0] }

/-- Walk the records from a slot to the end of the list. -/
def HeapState.walk (state : HeapState) (slot : Nat) : Option (List Nat) :=
  PointerList.follow state.next binSlots (some slot)

/--
`expand_heap`: map the range and append a fully used record behind the last
one.  Writing past the metadata page is `none`.
-/
def expandHeap
    (os : Mmap) (state : HeapState) (size : Nat) :
    Option (HeapState × Nat) :=
  let m := os.map state.regions size
  (state.walk state.binHead).bind fun cells =>
    cells.getLast?.bind fun pre =>
      let c := pre + 1
      if c < binSlots then
        let state := state.mmap os size
        let state :=
          state.setBinAt pre { state.bins pre with next := some c }
        let state := state.setBinAt c ⟨BitVec.allOnes 256, none, m⟩
        some ({ state with records := state.records ++ [c] }, m)
      else
        none

/-- The loop of `__malloc` over the records: the first page with room. -/
def searchBins (state : HeapState) (binsSize : Nat) :
    List Nat → Option (Option (Nat × Nat))
  | [] => some none
  | c :: rest =>
      (slowestFindConsecutiveBin (state.bins c).bin binsSize).bind fun a =>
        if a ≠ 0 then
          some (some (c, a))
        else
          searchBins state binsSize rest

/-- Mark the blocks, note their number in front of them, return the address. -/
def takeBlocks
    (state : HeapState) (c a binsSize : Nat) :
    Option (HeapState × Nat) :=
  (setBin (state.bins c).bin a binsSize).map fun marked =>
    let r := (state.bins c).pageAddr + 0x10 * a
    let state := state.setBinAt c { state.bins c with bin := marked }
    ({ state with
        mem := Function.update state.mem (r - 1) (UInt8.ofNat binsSize) }, r)

/--
The page-growing path of `__malloc`: a fresh page is linked behind
`bin_tail`, whatever followed it, and becomes the new `bin_tail`.
-/
def growPage
    (os : Mmap) (state : HeapState) (pre : Nat) : Option HeapState :=
  let c := pre + 1
  if c < binSlots then
    let m := os.map state.regions pageSize
    let state := state.mmap os pageSize
    let bits := ((state.bins c).bin &&& ~~~0xffffffff) ||| 1
    let state := state.setBinAt c ⟨bits, none, m⟩
    let state :=
      state.setBinAt state.binTail
        { state.bins state.binTail with next := some c }
    some { state with binTail := c, records := state.records ++ [c] }
  else
    none

/-- `bins_size` of a request: `(size / 0x10) + 1` in a `uint8_t`. -/
def binsSizeOf (size : Nat) : Nat :=
  (size / 0x10 + 1) % 256

/--
`__malloc`: large requests get their own mapping, small ones the first room in
the pages from `bin_tail` on, else room in a fresh page.
-/
def malloc
    (os : Mmap) (state : HeapState) (size : Nat) :
    Option (HeapState × Nat) :=
  if 0x1000 - 0x10 ≤ size then
    expandHeap os state size
  else
    let binsSize := binsSizeOf size
    (state.walk state.binTail).bind fun cells =>
      (searchBins state binsSize cells).bind fun found =>
        match found with
        | some (c, a) => takeBlocks state c a binsSize
        | none =>
            cells.getLast?.bind fun pre =>
              (growPage os state pre).bind fun state =>
                (searchBins state binsSize [state.binTail]).bind fun found =>
                  found.bind fun place =>
                    takeBlocks state place.1 place.2 binsSize

/-- The record whose page holds the address. -/
def holdsAddress (state : HeapState) (p : Nat) (c : Nat) : Bool :=
  (state.bins c).pageAddr ≤ p ∧ p - (state.bins c).pageAddr < pageSize

/-- The block count `__free` works with. -/
def freedBlocks (state : HeapState) (p : Nat) : Nat :=
  if p % pageSize = 0 then 255 else (state.mem (p - 1)).toNat

/--
`__free`: find the record by address, clear its blocks and zero the bytes they
cover.  A pointer that no record holds is left alone.  Bytes behind the page may
not be mapped; that zeroing them faults then is left out.
-/
def free (state : HeapState) (p : Nat) : Option HeapState :=
  let binsSize := freedBlocks state p
  (state.walk state.binHead).bind fun cells =>
    match cells.find? (holdsAddress state p) with
    | none => some state
    | some c =>
        let s := (p - (state.bins c).pageAddr) / 0x10
        (unsetBin (state.bins c).bin s binsSize).map fun cleared =>
          let state := state.setBinAt c { state.bins c with bin := cleared }
          { state with
            mem := fun address =>
              if p ≤ address ∧ address < p + 0x10 * binsSize then
                0
              else
                state.mem address }

/-- A block handed out by `__malloc` and not yet freed. -/
structure Block where
  ptr : Nat
  size : Nat
  deriving DecidableEq, Repr

/-- The heap together with the blocks its callers hold. -/
structure World where
  heap : HeapState
  live : List Block

/-- What a caller does: allocate, or free the k-th block it holds. -/
inductive Call where
  | malloc (size : Nat)
  | free (k : Nat)
  deriving DecidableEq, Repr

/-- The state after `mem_init`, before any call. -/
def World.initial (os : Mmap) : World :=
  ⟨memInit os, []⟩

/-- One call; freeing a block nobody holds is no call at all. -/
def step (os : Mmap) (world : World) : Call → Option World
  | .malloc size =>
      (malloc os world.heap size).map fun (heap, r) =>
        ⟨heap, world.live ++ [⟨r, size⟩]⟩
  | .free k =>
      match world.live[k]? with
      | none => some world
      | some block =>
          (free world.heap block.ptr).map fun heap =>
            ⟨heap, world.live.eraseIdx k⟩

end BinTools.Heap
