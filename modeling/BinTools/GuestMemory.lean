import BinTools.CString
import Mathlib.Data.BitVec
import Mathlib.Data.List.Pairwise
import Mathlib.Tactic.IntervalCases

namespace BinTools.GuestMemory

/-!
# Guest addresses and their host addresses

`guest_mmap` keeps a header for every mapping, and three functions search the
headers page by page for the page of a guest address.  The number of pages is
rounded down and has sixteen bits.
-/

/-- `PAGE_SIZE` -/
def pageSize : Nat := 4096

/-- A call of `guest_mmap`, and where `mmap` puts the mapping. -/
structure MmapCall where
  guestAddr : U32
  mapSize : U32
  begin : U64
  deriving DecidableEq, Repr

/-- `heap` -/
structure Heap where
  begin : U64
  pageNum : BitVec 16
  guestAddr : U32
  deriving DecidableEq, Repr

/-- The headers that fit their page; the first one is not used. -/
def heapMax : Nat := 127

/-- `guest_mmap` -/
def guestMmap (heaps : List Heap) (call : MmapCall) : Option (List Heap) :=
  if heaps.length < heapMax then
    some
      (heaps ++
        [{ begin := call.begin
           pageNum := BitVec.ofNat 16 (call.mapSize.toNat / pageSize)
           guestAddr := call.guestAddr }])
  else
    none

/-- The loop over the pages of one mapping. -/
def findPage (h : Heap) (guestBegin : U64) : Option Nat :=
  if h.guestAddr ≠ -1 then
    (List.range h.pageNum.toNat).find? fun page =>
      guestBegin =
        h.guestAddr.setWidth 64 + BitVec.ofNat 64 (page * pageSize)
  else
    none

/-- The loop over the headers: the mapping and the page of an address. -/
def findHeap (heaps : List Heap) (guestBegin : U64) : Option (Heap × Nat) :=
  heaps.findSome? fun h => (findPage h guestBegin).map fun page => (h, page)

/-- `get_diff_host_guest_addr` -/
def getDiffHostGuestAddr (heaps : List Heap) (guestAddr : U64) : U64 :=
  let guestBegin := guestAddr &&& 0xfffff000
  match findHeap heaps guestBegin with
  | some (h, page) =>
      h.begin - (guestBegin - BitVec.ofNat 64 (page * pageSize))
  | none => 0

/-- `get_diff_host_guest_addr_`; the address is not written when not found. -/
def getDiffHostGuestAddr_
    (heaps : List Heap) (guestAddr hostAddr : U64) : U64 :=
  let guestBegin := guestAddr &&& 0xfffff000
  match findHeap heaps guestBegin with
  | some (h, page) =>
      let dd : U32 := BitVec.ofNat 32 (page * pageSize)
      let guestInPageOffset : BitVec 16 := (guestAddr - guestBegin).setWidth 16
      h.begin + dd.setWidth 64 + guestInPageOffset.setWidth 64
  | none => hostAddr

/-- `get_host_addr` -/
def getHostAddr (heaps : List Heap) (guestAddr : U32) : U64 :=
  let guestBegin := guestAddr &&& 0xfffff000
  match findHeap heaps (guestBegin.setWidth 64) with
  | some (h, page) =>
      let dd : U32 := BitVec.ofNat 32 (page * pageSize)
      let guestInPageOffset : BitVec 16 := (guestAddr - guestBegin).setWidth 16
      h.begin + dd.setWidth 64 + guestInPageOffset.setWidth 64
  | none => 0

/-! ## What translation is for -/

namespace MmapCall

/-- The number of the first page. -/
def first (call : MmapCall) : Nat :=
  call.guestAddr.toNat / pageSize

/-- The pages of the mapping, with a last one that it has a part of. -/
def pages (call : MmapCall) : Nat :=
  (call.mapSize.toNat + (pageSize - 1)) / pageSize

/-- The address is one of the bytes that are mapped. -/
def Maps (call : MmapCall) (g : U32) : Prop :=
  call.guestAddr.toNat ≤ g.toNat ∧
    g.toNat < call.guestAddr.toNat + call.mapSize.toNat

/-- The address is in one of the pages. -/
def HasPage (call : MmapCall) (g : U32) : Prop :=
  call.first ≤ g.toNat / pageSize ∧
    g.toNat / pageSize < call.first + call.pages

/-- The host address of a byte that is mapped. -/
def hostAddr (call : MmapCall) (g : U32) : U64 :=
  call.begin + (g.setWidth 64 - call.guestAddr.setWidth 64)

/-- All pages within the guest's address space are counted. -/
def Counted (call : MmapCall) : Prop :=
  min call.pages (2 ^ 20 - call.first) ≤
    call.mapSize.toNat / pageSize % 2 ^ 16

instance (call : MmapCall) : Decidable call.Counted :=
  inferInstanceAs (Decidable (_ ≤ _))

end MmapCall

/--
Page-aligned calls of positive size with disjoint pages, for which the header
page has room.  `mmap` never maps the null address.
-/
structure Mappable (calls : List MmapCall) : Prop where
  room : calls.length ≤ heapMax
  aligned : ∀ call ∈ calls, call.guestAddr.toNat % pageSize = 0
  positive : ∀ call ∈ calls, 0 < call.mapSize.toNat
  apart :
    calls.Pairwise fun one two =>
      one.first + one.pages ≤ two.first ∨ two.first + two.pages ≤ one.first
  host :
    ∀ call ∈ calls,
      0 < call.begin.toNat ∧
        call.begin.toNat + call.mapSize.toNat ≤ 2 ^ 64

/--
The three lookups agree on the host address of every byte that is mapped, and
an address in no mapped page has none.
-/
def Translates (calls : List MmapCall) : Prop :=
  ∃ heaps ∈ calls.foldlM guestMmap [],
    ∀ g : U32,
      (∀ call ∈ calls, call.Maps g →
        getHostAddr heaps g = call.hostAddr g ∧
          (∀ old,
            getDiffHostGuestAddr_ heaps (g.setWidth 64) old =
              call.hostAddr g) ∧
          getDiffHostGuestAddr heaps (g.setWidth 64) + g.setWidth 64 =
            call.hostAddr g) ∧
        ((∀ call ∈ calls, ¬ call.HasPage g) → getHostAddr heaps g = 0)

/-! ## What a search finds -/

/-- The begin of a page. -/
def pageBegin (number : Nat) : U64 :=
  BitVec.ofNat 64 (number * pageSize)

/-- The mask leaves the page's begin. -/
theorem and_pageMask
    (g : U32) :
    g &&& (0xfffff000 : U32) =
      BitVec.ofNat 32 (g.toNat / pageSize * pageSize) := by
  have shifts : g &&& (0xfffff000 : U32) = (g >>> 12) <<< 12 := by
    ext index inRange
    interval_cases index <;> simp
  apply BitVec.eq_of_toNat_eq
  have below := g.isLt
  rw [shifts]
  simp [BitVec.toNat_ushiftRight, BitVec.toNat_shiftLeft,
    Nat.shiftLeft_eq, Nat.shiftRight_eq_div_pow, pageSize]

theorem setWidth_and_pageMask
    (g : U32) :
    (g &&& (0xfffff000 : U32)).setWidth 64 = pageBegin (g.toNat / pageSize) := by
  have below := g.isLt
  rw [and_pageMask]
  apply BitVec.eq_of_toNat_eq
  simp only [pageBegin, BitVec.toNat_setWidth, BitVec.toNat_ofNat, pageSize]
  omega

theorem wide_and_pageMask
    (g : U32) :
    g.setWidth 64 &&& (0xfffff000 : U64) =
      pageBegin (g.toNat / pageSize) := by
  rw [← setWidth_and_pageMask, BitVec.setWidth_and]
  rfl

/-- The pages of one header are found by their numbers. -/
theorem findPage_eq_some_iff
    {h : Heap}
    (aligned : h.guestAddr.toNat % pageSize = 0)
    {number : Nat}
    (inRange : number < 2 ^ 20)
    (page : Nat) :
    findPage h (pageBegin number) = some page ↔
      page < h.pageNum.toNat ∧
        h.guestAddr.toNat / pageSize + page = number := by
  have notTop : h.guestAddr ≠ -1 := by
    intro top
    rw [top] at aligned
    revert aligned
    decide
  have guestBelow := h.guestAddr.isLt
  have countBelow := h.pageNum.isLt
  have matchIff :
      ∀ other, other < h.pageNum.toNat →
        (pageBegin number =
            h.guestAddr.setWidth 64 + BitVec.ofNat 64 (other * pageSize) ↔
          h.guestAddr.toNat / pageSize + other = number) := by
    intro other below
    rw [← BitVec.toNat_inj]
    simp only [pageBegin, BitVec.toNat_add, BitVec.toNat_setWidth,
      BitVec.toNat_ofNat, pageSize] at aligned ⊢
    omega
  rw [findPage, if_pos notTop, List.find?_range_eq_some]
  simp only [List.mem_range, decide_eq_true_eq, Bool.not_eq_true',
    decide_eq_false_iff_not]
  constructor
  · rintro ⟨isMatch, below, -⟩
    exact ⟨below, (matchIff page below).1 isMatch⟩
  · rintro ⟨below, sum⟩
    refine ⟨(matchIff page below).2 sum, below, ?_⟩
    intro other earlier isMatch
    have otherSum := (matchIff other (by omega)).1 isMatch
    omega

namespace MmapCall

/-- The header that the call writes. -/
def header (call : MmapCall) : Heap :=
  { begin := call.begin
    pageNum := BitVec.ofNat 16 (call.mapSize.toNat / pageSize)
    guestAddr := call.guestAddr }

/-- The pages that the header counts. -/
def counted (call : MmapCall) : Nat :=
  call.mapSize.toNat / pageSize % 2 ^ 16

@[simp] theorem header_pageNum
    (call : MmapCall) :
    call.header.pageNum.toNat = call.counted := by
  simp [header, counted]

/-- No more pages are counted than there are. -/
theorem counted_le_pages
    (call : MmapCall) :
    call.counted ≤ call.pages := by
  have rounded := Nat.mod_le (call.mapSize.toNat / pageSize) (2 ^ 16)
  have upper :=
    Nat.div_le_div_right (c := pageSize)
      (Nat.le_add_right call.mapSize.toNat (pageSize - 1))
  exact rounded.trans upper

end MmapCall

/-- While there is room, every call appends its header. -/
theorem foldlM_guestMmap
    (calls : List MmapCall)
    (heaps : List Heap)
    (room : heaps.length + calls.length ≤ heapMax) :
    calls.foldlM guestMmap heaps =
      some (heaps ++ calls.map MmapCall.header) := by
  induction calls generalizing heaps with
  | nil => simp
  | cons call later inductionHypothesis =>
      have fits : heaps.length < heapMax := by
        simp only [List.length_cons] at room
        omega
      have one : guestMmap heaps call = some (heaps ++ [call.header]) := by
        rw [guestMmap, if_pos fits]
        rfl
      rw [List.foldlM_cons, one, Option.bind_eq_bind, Option.bind_some,
        inductionHypothesis]
      · simp
      · simp only [List.length_append, List.length_cons,
          List.length_nil] at room ⊢
        omega

namespace Mappable

variable
  {calls : List MmapCall}
  (mappable : Mappable calls)

include mappable

theorem header_aligned
    {call : MmapCall}
    (inCalls : call ∈ calls) :
    call.header.guestAddr.toNat % pageSize = 0 :=
  mappable.aligned call inCalls

/-- Two calls with one page are the same. -/
theorem unique
    {one two : MmapCall}
    (oneIn : one ∈ calls)
    (twoIn : two ∈ calls)
    {number : Nat}
    (inOne : one.first ≤ number ∧ number < one.first + one.pages)
    (inTwo : two.first ≤ number ∧ number < two.first + two.pages) :
    one = two := by
  by_contra different
  have isSymm :
      Std.Symm fun one two : MmapCall =>
        one.first + one.pages ≤ two.first ∨
          two.first + two.pages ≤ one.first :=
    ⟨fun _ _ => Or.symm⟩
  have := mappable.apart.forall oneIn twoIn different
  omega

/-- A counted page is found, with its number in the mapping. -/
theorem findHeap_counted
    {call : MmapCall}
    (inCalls : call ∈ calls)
    {number : Nat}
    (inRange : number < 2 ^ 20)
    (counted : call.first ≤ number ∧ number < call.first + call.counted) :
    findHeap (calls.map MmapCall.header) (pageBegin number) =
      some (call.header, number - call.first) := by
  have here :
      findPage call.header (pageBegin number) =
        some (number - call.first) := by
    rw [findPage_eq_some_iff (mappable.header_aligned inCalls) inRange,
      MmapCall.header_pageNum]
    have : call.header.guestAddr.toNat / pageSize = call.first := rfl
    omega
  cases found :
      findHeap (calls.map MmapCall.header) (pageBegin number) with
  | none =>
      rw [findHeap, List.findSome?_eq_none_iff] at found
      have := found call.header (List.mem_map_of_mem inCalls)
      simp [here] at this
  | some pair =>
      obtain ⟨h, inHeaders, isPair⟩ := List.exists_of_findSome?_eq_some found
      obtain ⟨other, otherIn, rfl⟩ := List.mem_map.1 inHeaders
      obtain ⟨page, otherFinds, rfl⟩ := Option.map_eq_some_iff.1 isPair
      have spec :=
        (findPage_eq_some_iff (mappable.header_aligned otherIn) inRange
          page).1 otherFinds
      rw [MmapCall.header_pageNum] at spec
      have firstEq :
          other.header.guestAddr.toNat / pageSize = other.first := rfl
      have otherBound := other.counted_le_pages
      have bound := call.counted_le_pages
      have same : other = call :=
        mappable.unique otherIn inCalls
          (by omega : _ ≤ number ∧ _) (by omega)
      subst same
      have : page = number - other.first := by omega
      rw [this]

/-- A page that no header counts is not found. -/
theorem findHeap_notCounted
    {number : Nat}
    (inRange : number < 2 ^ 20)
    (notCounted :
      ∀ call ∈ calls,
        ¬ (call.first ≤ number ∧ number < call.first + call.counted)) :
    findHeap (calls.map MmapCall.header) (pageBegin number) = none := by
  rw [findHeap, List.findSome?_eq_none_iff]
  intro h inHeaders
  obtain ⟨call, inCalls, rfl⟩ := List.mem_map.1 inHeaders
  rw [Option.map_eq_none_iff, Option.eq_none_iff_forall_ne_some]
  intro page finds
  have spec :=
    (findPage_eq_some_iff (mappable.header_aligned inCalls) inRange
      page).1 finds
  rw [MmapCall.header_pageNum] at spec
  have firstEq : call.header.guestAddr.toNat / pageSize = call.first := rfl
  have := notCounted call inCalls
  omega

end Mappable

/-! ## The addresses of a byte -/

/-- A page and the byte's place in it make the byte's place in the mapping. -/
theorem hostAddr_of_page
    {call : MmapCall}
    (aligned : call.guestAddr.toNat % pageSize = 0)
    {g : U32}
    (above : call.first ≤ g.toNat / pageSize) :
    let page := g.toNat / pageSize - call.first
    call.begin + (BitVec.ofNat 32 (page * pageSize)).setWidth 64 +
        ((g - (g &&& (0xfffff000 : U32))).setWidth 16).setWidth 64 =
      call.hostAddr g := by
  intro page
  have below := g.isLt
  have guestBelow := call.guestAddr.isLt
  rw [MmapCall.hostAddr, BitVec.add_assoc, and_pageMask]
  congr 1
  apply BitVec.eq_of_toNat_eq
  simp only [BitVec.toNat_add, BitVec.toNat_sub, BitVec.toNat_setWidth,
    BitVec.toNat_ofNat, MmapCall.first, pageSize, page] at *
  omega

/-- The narrow difference is the wide one. -/
theorem offset_eq
    (g : U32) :
    (g.setWidth 64 - (g.setWidth 64 &&& (0xfffff000 : U64))).setWidth 16 =
      (g - (g &&& (0xfffff000 : U32))).setWidth 16 := by
  have below := g.isLt
  rw [wide_and_pageMask, and_pageMask]
  apply BitVec.eq_of_toNat_eq
  simp only [pageBegin, BitVec.toNat_sub, BitVec.toNat_setWidth,
    BitVec.toNat_ofNat, pageSize]
  omega

/-- The difference leads from the guest address to the host address. -/
theorem diff_add
    {call : MmapCall}
    (aligned : call.guestAddr.toNat % pageSize = 0)
    {g : U32}
    (above : call.first ≤ g.toNat / pageSize) :
    call.begin -
          (pageBegin (g.toNat / pageSize) -
            BitVec.ofNat 64 ((g.toNat / pageSize - call.first) * pageSize)) +
        g.setWidth 64 =
      call.hostAddr g := by
  have guestBelow := call.guestAddr.isLt
  have below := g.isLt
  have isGuest :
      pageBegin (g.toNat / pageSize) -
          BitVec.ofNat 64 ((g.toNat / pageSize - call.first) * pageSize) =
        call.guestAddr.setWidth 64 := by
    apply BitVec.eq_of_toNat_eq
    simp only [pageBegin, BitVec.toNat_sub, BitVec.toNat_setWidth,
      BitVec.toNat_ofNat, MmapCall.first, pageSize] at *
    omega
  rw [isGuest, MmapCall.hostAddr, sub_add_eq_add_sub, add_sub_assoc]

namespace Mappable

variable
  {calls : List MmapCall}
  (mappable : Mappable calls)

include mappable

/-- All headers are kept. -/
theorem heaps_eq :
    calls.foldlM guestMmap [] = some (calls.map MmapCall.header) := by
  rw [foldlM_guestMmap calls [] (by simpa using mappable.room),
    List.nil_append]

/-- The three lookups find a byte of a counted page. -/
theorem lookups_counted
    {call : MmapCall}
    (inCalls : call ∈ calls)
    {g : U32}
    (counted :
      call.first ≤ g.toNat / pageSize ∧
        g.toNat / pageSize < call.first + call.counted) :
    getHostAddr (calls.map MmapCall.header) g = call.hostAddr g ∧
      (∀ old,
        getDiffHostGuestAddr_ (calls.map MmapCall.header)
            (g.setWidth 64) old =
          call.hostAddr g) ∧
      getDiffHostGuestAddr (calls.map MmapCall.header) (g.setWidth 64) +
          g.setWidth 64 =
        call.hostAddr g := by
  have below := g.isLt
  have inRange : g.toNat / pageSize < 2 ^ 20 := by
    rw [pageSize]
    omega
  have found := mappable.findHeap_counted inCalls inRange counted
  have aligned := mappable.aligned call inCalls
  have value := hostAddr_of_page aligned counted.1
  refine ⟨?_, ?_, ?_⟩
  · simp only [getHostAddr, setWidth_and_pageMask, found]
    exact value
  · intro old
    simp only [getDiffHostGuestAddr_, wide_and_pageMask, found]
    rw [← wide_and_pageMask, offset_eq]
    exact value
  · simp only [getDiffHostGuestAddr, wide_and_pageMask, found]
    exact diff_add aligned counted.1

/-- `get_host_addr` returns 0 for a byte of no counted page. -/
theorem getHostAddr_notCounted
    {g : U32}
    (notCounted :
      ∀ call ∈ calls,
        ¬ (call.first ≤ g.toNat / pageSize ∧
          g.toNat / pageSize < call.first + call.counted)) :
    getHostAddr (calls.map MmapCall.header) g = 0 := by
  have below := g.isLt
  have inRange : g.toNat / pageSize < 2 ^ 20 := by
    rw [pageSize]
    omega
  simp only [getHostAddr, setWidth_and_pageMask,
    mappable.findHeap_notCounted inRange notCounted]

/-- The host address of a mapped byte is not null. -/
theorem hostAddr_ne_zero
    {call : MmapCall}
    (inCalls : call ∈ calls)
    {g : U32}
    (maps : call.Maps g) :
    call.hostAddr g ≠ 0 := by
  intro isNull
  have host := mappable.host call inCalls
  have null := congrArg BitVec.toNat isNull
  have below := g.isLt
  obtain ⟨above, inside⟩ := maps
  have zero : (0 : U64).toNat = 0 := rfl
  simp only [MmapCall.hostAddr, BitVec.toNat_add, BitVec.toNat_sub,
    BitVec.toNat_setWidth, zero] at null
  omega

/-- The last page that can be addressed has a mapped byte. -/
theorem exists_lastPage
    {call : MmapCall}
    (inCalls : call ∈ calls) :
    ∃ g : U32,
      call.Maps g ∧
        g.toNat / pageSize + 1 =
          call.first + min call.pages (2 ^ 20 - call.first) := by
  have aligned := mappable.aligned call inCalls
  have positive := mappable.positive call inCalls
  have guestBelow := call.guestAddr.isLt
  let number := call.first + min call.pages (2 ^ 20 - call.first) - 1
  refine ⟨BitVec.ofNat 32 (number * pageSize), ?_⟩
  have value :
      (BitVec.ofNat 32 (number * pageSize)).toNat = number * pageSize := by
    rw [BitVec.toNat_ofNat]
    apply Nat.mod_eq_of_lt
    simp only [number, MmapCall.first, MmapCall.pages, pageSize] at *
    omega
  rw [MmapCall.Maps, value]
  simp only [number, MmapCall.first, MmapCall.pages, pageSize] at *
  omega

end Mappable

/--
Translation is right for all calls exactly when every header counts all pages
of its mapping that the guest can address.
-/
theorem translates_iff_counted
    {calls : List MmapCall}
    (mappable : Mappable calls) :
    Translates calls ↔ ∀ call ∈ calls, call.Counted := by
  constructor
  · rintro ⟨heaps, isHeaps, translates⟩ call inCalls
    rw [mappable.heaps_eq] at isHeaps
    cases isHeaps
    by_contra notAll
    obtain ⟨g, maps, lastPage⟩ := mappable.exists_lastPage inCalls
    have isHost := ((translates g).1 call inCalls maps).1
    have notCounted :
        ∀ other ∈ calls,
          ¬ (other.first ≤ g.toNat / pageSize ∧
            g.toNat / pageSize < other.first + other.counted) := by
      intro other otherIn inOther
      have bound := other.counted_le_pages
      have positive := mappable.positive call inCalls
      have beyond :
          call.counted < min call.pages (2 ^ 20 - call.first) :=
        Nat.lt_of_not_le notAll
      have same : other = call :=
        mappable.unique otherIn inCalls
          (by omega : _ ≤ g.toNat / pageSize ∧ _) (by omega)
      subst same
      omega
    rw [mappable.getHostAddr_notCounted notCounted] at isHost
    exact mappable.hostAddr_ne_zero inCalls maps isHost.symm
  · intro allCounted
    refine ⟨_, mappable.heaps_eq, ?_⟩
    intro g
    have below := g.isLt
    constructor
    · intro call inCalls maps
      apply mappable.lookups_counted inCalls
      have aligned := mappable.aligned call inCalls
      have counts :
          min call.pages (2 ^ 20 - call.first) ≤ call.counted :=
        allCounted call inCalls
      obtain ⟨above, inside⟩ := maps
      simp only [MmapCall.first, MmapCall.pages, pageSize] at *
      omega
    · intro inNoPage
      apply mappable.getHostAddr_notCounted
      intro call inCalls inCounted
      have bound := call.counted_le_pages
      exact inNoPage call inCalls ⟨inCounted.1, by omega⟩

/-- Two mappings of whole pages are translated. -/
theorem translates_twoMappings :
    Translates [⟨0x400000, 0x2000, 0x7f0000000000⟩,
        ⟨0x600000, 0x1000, 0x7f0000100000⟩] ∧
      Mappable [⟨0x400000, 0x2000, 0x7f0000000000⟩,
        ⟨0x600000, 0x1000, 0x7f0000100000⟩] := by
  have mappable :
      Mappable [⟨0x400000, 0x2000, 0x7f0000000000⟩,
        ⟨0x600000, 0x1000, 0x7f0000100000⟩] :=
    { room := by decide
      aligned := by decide
      positive := by decide
      apart := by decide
      host := by decide }
  exact ⟨(translates_iff_counted mappable).2 (by decide), mappable⟩

/-- The byte in the last, partial page of a mapping has no host address. -/
theorem not_translates_partialPage :
    Mappable [⟨0x400000, 0x1800, 0x7f0000000000⟩] ∧
      ¬ Translates [⟨0x400000, 0x1800, 0x7f0000000000⟩] := by
  refine ⟨⟨by decide, by decide, by decide, by decide, by decide⟩, ?_⟩
  rintro ⟨heaps, isHeaps, translates⟩
  cases isHeaps
  have wrong :=
    ((translates 0x401000).1 ⟨0x400000, 0x1800, 0x7f0000000000⟩ (by simp)
      (by constructor <;> decide)).1
  revert wrong
  decide

end BinTools.GuestMemory
