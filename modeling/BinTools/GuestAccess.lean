import BinTools.GuestMemory
import BinTools.PlacedMemory

namespace BinTools.GuestMemory

open ByteBuffer

/-!
# Loads and stores of the guest

The loads and stores of `prim_inst.asm` translate the address of their first
byte and access the host's memory there.  The size of an operand selects one of
them in a table.  The headers of the mappings are not in the memory that the
guest can address.
-/

/-- What loads and stores use of the context, with the host's memory. -/
structure Context where
  heaps : List Heap
  memory : Bytes
  internalArg1 : U64
  arg1 : U64
  arg2 : U64
  res : U64
  dflag : UInt8

/-- `_get_host_addr_from_guest` -/
def getHostAddrFromGuest (c : Context) (rax : U64) : Context × U64 :=
  ({ c with internalArg1 := rax }, getDiffHostGuestAddr c.heaps rax + rax)

/-- The low bytes of a word are overwritten. -/
def setLow (width : Nat) (word : U64) (value : Nat) : U64 :=
  BitVec.ofNat 64
    (word.toNat / 256 ^ width * 256 ^ width + value % 256 ^ width)

/-- A load into the low bytes of the result. -/
def loadBytes (width : Nat) (c : Context) : Context :=
  let (c, host) := getHostAddrFromGuest c c.arg1
  { c with res := setLow width c.res (loadWord width c.memory host.toNat) }

/-- `_load8` -/
def load8 (c : Context) : Context :=
  loadBytes 1 { c with res := 0 }

/-- `_load16` -/
def load16 (c : Context) : Context :=
  loadBytes 2 { c with res := 0 }

/-- `_load32`; the high half of the result is kept. -/
def load32 (c : Context) : Context :=
  loadBytes 4 c

/-- `_load64` -/
def load64 (c : Context) : Context :=
  loadBytes 8 c

/-- `_load` with the table `_load_base` -/
def load (c : Context) : Option Context :=
  if c.dflag = 0x00 then some (load8 c)
  else if c.dflag = 0x08 then some (load16 c)
  else if c.dflag = 0x10 then some (load32 c)
  else if c.dflag = 0x18 then some (load64 c)
  else none

/-- A store of the low bytes of the second argument. -/
def storeBytes (width : Nat) (c : Context) : Context :=
  let (c, host) := getHostAddrFromGuest c c.arg1
  { c with memory := storeWord width c.memory host.toNat c.arg2.toNat }

/-- `_store8` -/
def store8 : Context → Context :=
  storeBytes 1

/-- `_store16` -/
def store16 : Context → Context :=
  storeBytes 2

/-- `_store32` -/
def store32 : Context → Context :=
  storeBytes 4

/-- `_store64` -/
def store64 : Context → Context :=
  storeBytes 8

/-- `_store` with the table `_store_base` -/
def store (c : Context) : Option Context :=
  if c.dflag = 0x00 then some (store8 c)
  else if c.dflag = 0x08 then some (store16 c)
  else if c.dflag = 0x10 then some (store32 c)
  else if c.dflag = 0x18 then some (store64 c)
  else none

/-! ## Runs of accesses -/

/-- The sizes of operands. -/
inductive Size where
  | byte
  | word
  | dword
  | qword
  deriving DecidableEq, Repr

/-- The bytes of an operand. -/
def Size.width : Size → Nat
  | .byte => 1
  | .word => 2
  | .dword => 4
  | .qword => 8

/-- The offset in the tables. -/
def Size.dflag : Size → UInt8
  | .byte => 0x00
  | .word => 0x08
  | .dword => 0x10
  | .qword => 0x18

/-- A load, or a store of the low bytes of a value. -/
inductive Access where
  | load (size : Size) (address : U32)
  | store (size : Size) (address : U32) (value : U64)
  deriving DecidableEq, Repr

/-- The size of an access. -/
def Access.size : Access → Size
  | .load size _ => size
  | .store size _ _ => size

/-- The first address of an access. -/
def Access.address : Access → U32
  | .load _ address => address
  | .store _ address _ => address

/-- An instruction's access, with the low bytes that it loads. -/
def perform (c : Context) : Access → Option (Context × List Nat)
  | .load size address =>
      (load { c with dflag := size.dflag, arg1 := address.setWidth 64 }).map
        fun c => (c, [c.res.toNat % 256 ^ size.width])
  | .store size address value =>
      (store
          { c with
            dflag := size.dflag
            arg1 := address.setWidth 64
            arg2 := value }).map
        fun c => (c, [])

/-- Accesses one after another, with all that is loaded. -/
def run (c : Context) : List Access → Option (Context × List Nat)
  | [] => some (c, [])
  | access :: accesses =>
      (perform c access).bind fun (c, loaded) =>
        (run c accesses).map fun (c, later) => (c, loaded ++ later)

/-! ## What a guest's memory is -/

/-- An access of a flat memory. -/
def performFlat (memory : Bytes) : Access → Bytes × List Nat
  | .load size address =>
      (memory, [loadWord size.width memory address.toNat])
  | .store size address value =>
      (storeWord size.width memory address.toNat value.toNat, [])

/-- Accesses of a flat memory one after another. -/
def runFlat (memory : Bytes) : List Access → Bytes × List Nat
  | [] => (memory, [])
  | access :: accesses =>
      let (memory, loaded) := performFlat memory access
      let (memory, later) := runFlat memory accesses
      (memory, loaded ++ later)

/--
Mappings of a guest whose pages are all counted, and which `mmap` puts apart
from each other.
-/
structure Space where
  calls : List MmapCall
  mappable : Mappable calls
  isCounted : ∀ call ∈ calls, call.Counted
  hostApart :
    calls.Pairwise fun one two =>
      one.begin.toNat + one.mapSize.toNat ≤ two.begin.toNat ∨
        two.begin.toNat + two.mapSize.toNat ≤ one.begin.toNat

/-- The address is one of the bytes that are mapped. -/
def MmapCall.HasByte (call : MmapCall) (address : Nat) : Prop :=
  address < 2 ^ 32 ∧ call.guestAddr.toNat ≤ address ∧
    address < call.guestAddr.toNat + call.mapSize.toNat

instance (call : MmapCall) (address : Nat) : Decidable (call.HasByte address) :=
  inferInstanceAs (Decidable (_ ∧ _ ∧ _))

/-- The place of a byte in the host's memory. -/
def MmapCall.placeOf (call : MmapCall) (address : Nat) : Nat :=
  call.begin.toNat + (address - call.guestAddr.toNat)

/-- The places of all bytes that are mapped. -/
def placeIn (calls : List MmapCall) (address : Nat) : Option Nat :=
  (calls.find? fun call => decide (call.HasByte address)).map fun call =>
    call.placeOf address

namespace Space

variable (space : Space)

/-- An access lies within one mapping. -/
def Inside (access : Access) : Prop :=
  ∃ call ∈ space.calls,
    ∀ i < access.size.width, call.HasByte (access.address.toNat + i)

instance (access : Access) : Decidable (space.Inside access) :=
  inferInstanceAs
    (Decidable
      (∃ call ∈ space.calls,
        ∀ i < access.size.width, call.HasByte (access.address.toNat + i)))

/-- Two mappings with one guest address are the same. -/
theorem unique_of_hasByte
    {one two : MmapCall} (oneIn : one ∈ space.calls) (twoIn : two ∈ space.calls)
    {address : Nat} (inOne : one.HasByte address)
    (inTwo : two.HasByte address) :
    one = two := by
  have oneAligned := space.mappable.aligned one oneIn
  have twoAligned := space.mappable.aligned two twoIn
  obtain ⟨-, aboveOne, belowOne⟩ := inOne
  obtain ⟨-, aboveTwo, belowTwo⟩ := inTwo
  have inFirst :
      one.first ≤ address / pageSize ∧
        address / pageSize < one.first + one.pages := by
    simp only [MmapCall.first, MmapCall.pages, pageSize] at *
    omega
  have inSecond :
      two.first ≤ address / pageSize ∧
        address / pageSize < two.first + two.pages := by
    simp only [MmapCall.first, MmapCall.pages, pageSize] at *
    omega
  exact space.mappable.unique oneIn twoIn inFirst inSecond

/-- A byte of a mapping has its place in that mapping. -/
theorem placeIn_eq
    {call : MmapCall} (inCalls : call ∈ space.calls) {address : Nat}
    (hasByte : call.HasByte address) :
    placeIn space.calls address = some (call.placeOf address) := by
  cases isFound :
      space.calls.find? fun call => decide (call.HasByte address) with
  | none =>
      rw [List.find?_eq_none] at isFound
      exact absurd (decide_eq_true hasByte) (isFound call inCalls)
  | some other =>
      have otherIn := List.mem_of_find?_eq_some isFound
      have otherHas : other.HasByte address := by
        simpa using List.find?_some isFound
      rw [placeIn, isFound, Option.map_some,
        space.unique_of_hasByte otherIn inCalls otherHas hasByte]

/-- A place in the host's memory is that of a byte of some mapping. -/
theorem exists_of_placeIn
    {address offset : Nat}
    (isPlace : placeIn space.calls address = some offset) :
    ∃ call ∈ space.calls,
      call.HasByte address ∧ offset = call.placeOf address := by
  obtain ⟨call, isFound, isOffset⟩ := Option.map_eq_some_iff.mp isPlace
  have hasByte : call.HasByte address := by
    simpa using List.find?_some isFound
  exact ⟨call, List.mem_of_find?_eq_some isFound, hasByte, isOffset.symm⟩

/-- No two guest addresses have one place. -/
theorem placeIn_injective
    {one two offset : Nat} (oneAt : placeIn space.calls one = some offset)
    (twoAt : placeIn space.calls two = some offset) :
    one = two := by
  obtain ⟨first, firstIn, ⟨-, aboveFirst, belowFirst⟩, isFirst⟩ :=
    space.exists_of_placeIn oneAt
  obtain ⟨second, secondIn, ⟨-, aboveSecond, belowSecond⟩, isSecond⟩ :=
    space.exists_of_placeIn twoAt
  rw [MmapCall.placeOf] at isFirst isSecond
  have sameCall : first = second := by
    by_contra different
    have isSymm :
        Std.Symm fun one two : MmapCall =>
          one.begin.toNat + one.mapSize.toNat ≤ two.begin.toNat ∨
            two.begin.toNat + two.mapSize.toNat ≤ one.begin.toNat :=
      ⟨fun _ _ => Or.symm⟩
    have isApart := space.hostApart.forall firstIn secondIn different
    omega
  subst sameCall
  omega

/-- The translation of the guest's addresses. -/
def translation : Translation where
  place := placeIn space.calls
  injective := space.placeIn_injective

/-- An access covers the places behind that of its first byte. -/
theorem covers
    {call : MmapCall} (inCalls : call ∈ space.calls) {width address : Nat}
    (hasBytes : ∀ i < width, call.HasByte (address + i)) :
    space.translation.Covers width address (call.placeOf address) := by
  intro i inRange
  have above := (hasBytes 0 (by omega)).2.1
  show placeIn space.calls (address + i) = _
  rw [space.placeIn_eq inCalls (hasBytes i inRange), MmapCall.placeOf,
    MmapCall.placeOf]
  congr 1
  omega

/-- The first byte of an access is in a page that is counted. -/
theorem page_counted
    {call : MmapCall} (inCalls : call ∈ space.calls) {address : U32}
    (hasByte : call.HasByte address.toNat) :
    call.first ≤ address.toNat / pageSize ∧
      address.toNat / pageSize < call.first + call.counted := by
  have aligned := space.mappable.aligned call inCalls
  have counts : min call.pages (2 ^ 20 - call.first) ≤ call.counted :=
    space.isCounted call inCalls
  obtain ⟨inRange, above, below⟩ := hasByte
  simp only [MmapCall.first, MmapCall.pages, pageSize] at *
  omega

/-- The host address of a byte is its place. -/
theorem toNat_hostAddr
    {call : MmapCall} (inCalls : call ∈ space.calls) {address : U32}
    (hasByte : call.HasByte address.toNat) :
    (call.hostAddr address).toNat = call.placeOf address.toNat := by
  have host := space.mappable.host call inCalls
  have inRange := address.isLt
  obtain ⟨-, above, below⟩ := hasByte
  simp only [MmapCall.hostAddr, MmapCall.placeOf, BitVec.toNat_add,
    BitVec.toNat_sub, BitVec.toNat_setWidth]
  omega

/-- A guest address is translated to its place. -/
theorem toNat_getHostAddrFromGuest
    {call : MmapCall} (inCalls : call ∈ space.calls) {address : U32}
    (hasByte : call.HasByte address.toNat) {c : Context}
    (isHeaps : c.heaps = space.calls.map MmapCall.header) :
    (getHostAddrFromGuest c (address.setWidth 64)).2.toNat =
      call.placeOf address.toNat := by
  have lookups :=
    space.mappable.lookups_counted inCalls (space.page_counted inCalls hasByte)
  rw [← space.toNat_hostAddr inCalls hasByte, ← lookups.2.2, ← isHeaps]
  rfl

end Space

/-! ## One access -/

/-- The table of loads has an entry for every size. -/
theorem load_of_size
    {c : Context} {size : Size} (isSize : c.dflag = size.dflag) :
    ∃ res, load c = some (loadBytes size.width { c with res := res }) := by
  obtain ⟨heaps, memory, internalArg1, arg1, arg2, res, dflag⟩ := c
  dsimp only at isSize
  subst isSize
  cases size with
  | byte => exact ⟨0, rfl⟩
  | word => exact ⟨0, rfl⟩
  | dword => exact ⟨res, rfl⟩
  | qword => exact ⟨res, rfl⟩

/-- The table of stores has an entry for every size. -/
theorem store_of_size
    {c : Context} {size : Size} (isSize : c.dflag = size.dflag) :
    store c = some (storeBytes size.width c) := by
  obtain ⟨heaps, memory, internalArg1, arg1, arg2, res, dflag⟩ := c
  dsimp only at isSize
  subst isSize
  cases size <;> rfl

/-- The bytes that are overwritten are the value's. -/
theorem setLow_mod (size : Size) (word : U64) (value : Nat) :
    (setLow size.width word value).toNat % 256 ^ size.width =
      value % 256 ^ size.width := by
  have divides : 256 ^ size.width ∣ 2 ^ 64 := by
    cases size <;> decide
  rw [setLow, BitVec.toNat_ofNat, Nat.mod_mod_of_dvd _ divides,
    Nat.mul_add_mod_self_right, Nat.mod_mod]

/-- A load gives the word at the host address. -/
theorem perform_load (c : Context) (size : Size) (address : U32) :
    ∃ later,
      perform c (.load size address) =
          some
            (later,
              [loadWord size.width c.memory
                (getHostAddrFromGuest c (address.setWidth 64)).2.toNat]) ∧
        later.heaps = c.heaps ∧ later.memory = c.memory := by
  obtain ⟨res, isLoaded⟩ :
      ∃ res,
        load { c with dflag := size.dflag, arg1 := address.setWidth 64 } =
          some
            (loadBytes size.width
              { c with
                dflag := size.dflag
                arg1 := address.setWidth 64
                res := res }) :=
    load_of_size rfl
  refine
    ⟨loadBytes size.width
        { c with dflag := size.dflag, arg1 := address.setWidth 64, res := res },
      ?_, rfl, rfl⟩
  have isValue :=
    setLow_mod size res
      (loadWord size.width c.memory
        (getHostAddrFromGuest c (address.setWidth 64)).2.toNat)
  rw [Nat.mod_eq_of_lt (loadWord_lt _ _ _)] at isValue
  rw [perform, isLoaded, Option.map_some, ← isValue]
  rfl

/-- A store changes the word at the host address. -/
theorem perform_store
    (c : Context) (size : Size) (address : U32) (value : U64) :
    ∃ later,
      perform c (.store size address value) = some (later, []) ∧
        later.heaps = c.heaps ∧
        later.memory =
          storeWord size.width c.memory
            (getHostAddrFromGuest c (address.setWidth 64)).2.toNat
            value.toNat := by
  refine
    ⟨storeBytes size.width
        { c with
          dflag := size.dflag
          arg1 := address.setWidth 64
          arg2 := value },
      ?_, rfl, rfl⟩
  rw [perform, store_of_size rfl, Option.map_some]

/-- An access of the guest is one of its flat memory. -/
theorem perform_eq_flat
    (space : Space) {c : Context} {memory : Bytes} {access : Access}
    (isHeaps : c.heaps = space.calls.map MmapCall.header)
    (isShown : space.translation.Shows c.memory memory)
    (inside : space.Inside access) :
    ∃ later,
      perform c access = some (later, (performFlat memory access).2) ∧
        later.heaps = space.calls.map MmapCall.header ∧
        space.translation.Shows later.memory (performFlat memory access).1 ∧
        space.translation.SameOutside c.memory later.memory := by
  obtain ⟨call, inCalls, hasBytes⟩ := inside
  have positive : 0 < access.size.width := by
    cases access.size <;> decide
  have covers := space.covers inCalls hasBytes
  rw [← space.toNat_getHostAddrFromGuest inCalls (hasBytes 0 positive) isHeaps]
    at covers
  cases access with
  | load size address =>
      obtain ⟨later, isLater, sameHeaps, sameMemory⟩ :=
        perform_load c size address
      have isValue :
          loadWord size.width c.memory
              (getHostAddrFromGuest c (address.setWidth 64)).2.toNat =
            loadWord size.width memory address.toNat :=
        isShown.loadWord_eq covers
      rw [isValue] at isLater
      refine ⟨later, isLater, sameHeaps.trans isHeaps, ?_, ?_⟩
      · rw [sameMemory]
        exact isShown
      · rw [sameMemory]
        exact Translation.SameOutside.refl _
  | store size address value =>
      obtain ⟨later, isLater, sameHeaps, isMemory⟩ :=
        perform_store c size address value
      refine ⟨later, isLater, sameHeaps.trans isHeaps, ?_, ?_⟩
      · rw [isMemory]
        exact isShown.storeWord covers _
      · rw [isMemory]
        exact Translation.sameOutside_storeWord covers _ _

/-! ## Whole runs -/

/--
In every run of accesses within the mappings, all loads give what a flat memory
gives, and nothing but the mappings changes.
-/
theorem run_eq_runFlat
    (space : Space) {c : Context} {memory : Bytes} {accesses : List Access}
    (isHeaps : space.calls.foldlM guestMmap [] = some c.heaps)
    (isShown : space.translation.Shows c.memory memory)
    (inside : ∀ access ∈ accesses, space.Inside access) :
    ∃ later,
      run c accesses = some (later, (runFlat memory accesses).2) ∧
        space.translation.Shows later.memory (runFlat memory accesses).1 ∧
        space.translation.SameOutside c.memory later.memory := by
  rw [space.mappable.heaps_eq] at isHeaps
  replace isHeaps := (Option.some.inj isHeaps).symm
  induction accesses generalizing c memory with
  | nil => exact ⟨c, rfl, isShown, Translation.SameOutside.refl _⟩
  | cons access accesses inductionHypothesis =>
      obtain ⟨middle, isMiddle, middleHeaps, middleShown, isFirst⟩ :=
        perform_eq_flat space isHeaps isShown (inside access List.mem_cons_self)
      obtain ⟨later, isLater, laterShown, isSecond⟩ :=
        inductionHypothesis middleShown
          (fun access member => inside access (List.mem_cons_of_mem _ member))
          middleHeaps
      refine ⟨later, ?_, laterShown, isFirst.trans isSecond⟩
      rw [run, isMiddle, Option.bind_some]
      dsimp only
      rw [isLater]
      rfl

/-- A mapping of two pages, and one of one page. -/
def twoMappings : Space where
  calls :=
    [⟨0x400000, 0x2000, 0x7f0000000000⟩, ⟨0x600000, 0x1000, 0x7f0000100000⟩]
  mappable :=
    { room := by decide
      aligned := by decide
      positive := by decide
      apart := by decide
      host := by decide }
  isCounted := by decide
  hostApart := by decide

/-- A store over the end of a page, a store into it, and two loads. -/
def fourAccesses : List Access :=
  [ .store .dword 0x400ffe 0x11223344, .store .byte 0x400fff 0xabcd,
    .load .dword 0x400ffe, .load .word 0x600ffe ]

/-- The second store changes one byte of the first. -/
theorem run_eq_runFlat_four :
    (runFlat (fun _ => 0) fourAccesses).2 = [0x1122cd44, 0] ∧
      ∃ later,
        run
              { heaps := twoMappings.calls.map MmapCall.header
                memory := fun _ => 0
                internalArg1 := 0
                arg1 := 0
                arg2 := 0
                res := 0xffffffffffffffff
                dflag := 0 }
              fourAccesses =
            some (later, (runFlat (fun _ => 0) fourAccesses).2) ∧
          twoMappings.translation.Shows later.memory
            (runFlat (fun _ => 0) fourAccesses).1 ∧
          twoMappings.translation.SameOutside (fun _ => 0) later.memory :=
  ⟨by decide,
    run_eq_runFlat twoMappings rfl (fun _ _ _ => rfl) (by decide)⟩

end BinTools.GuestMemory
