import BinTools.ByteBuffer

namespace ByteBuffer

/-!
# Memory behind a translation of addresses

An address that is mapped has a place in a buffer, and no two addresses have one
place.  Words are stored and read at their places as in a flat memory of the
addresses.
-/

/-- The places of the addresses that are mapped. -/
structure Translation where
  place : Nat → Option Nat
  injective :
    ∀ {one two offset},
      place one = some offset → place two = some offset → one = two

/-- A byte of a word that was stored. -/
theorem storeWord_apply_of_inside
    {buffer : Bytes} {width offset i value : Nat} (inRange : i < width) :
    storeWord width buffer offset value (offset + i) =
      ((littleEndian width value)[i]?).getD 0 := by
  simp [storeWord, store, inRange]

/-- Bytes that are moved are read where they are. -/
theorem load_moved (memory : Bytes) (start offset count : Nat) :
    load (fun position => memory (start + position)) offset count =
      load memory (start + offset) count := by
  simp [load, Nat.add_assoc]

theorem loadWord_moved (memory : Bytes) (width start offset : Nat) :
    loadWord width (fun position => memory (start + position)) offset =
      loadWord width memory (start + offset) := by
  rw [loadWord, loadWord, load_moved]

namespace Translation

variable
  (translation : Translation) {buffer later last memory : Bytes}
  {width address offset : Nat}

/-- Addresses side by side have places side by side. -/
def Covers (width address offset : Nat) : Prop :=
  ∀ i < width, translation.place (address + i) = some (offset + i)

/-- The buffer holds the bytes of the memory at their places. -/
def Shows (buffer memory : Bytes) : Prop :=
  ∀ ⦃address offset⦄,
    translation.place address = some offset → buffer offset = memory address

/-- Two buffers agree where no address has its place. -/
def SameOutside (buffer later : Bytes) : Prop :=
  ∀ offset,
    (∀ address, translation.place address ≠ some offset) →
      later offset = buffer offset

variable {translation}

theorem SameOutside.refl (buffer : Bytes) :
    translation.SameOutside buffer buffer :=
  fun _ _ => rfl

theorem SameOutside.trans
    (first : translation.SameOutside buffer later)
    (second : translation.SameOutside later last) :
    translation.SameOutside buffer last := by
  intro offset notPlaced
  exact (second offset notPlaced).trans (first offset notPlaced)

/-- Bytes are read at their places. -/
theorem Shows.load_eq
    (isShown : translation.Shows buffer memory)
    (covers : translation.Covers width address offset) :
    load buffer offset width = load memory address width := by
  apply List.map_congr_left
  intro i inRange
  exact isShown (covers i (List.mem_range.mp inRange))

/-- A word is read at its place. -/
theorem Shows.loadWord_eq
    (isShown : translation.Shows buffer memory)
    (covers : translation.Covers width address offset) :
    loadWord width buffer offset = loadWord width memory address := by
  rw [loadWord, loadWord, isShown.load_eq covers]

/-- A word that is stored at its place is stored in the memory. -/
theorem Shows.storeWord
    (isShown : translation.Shows buffer memory)
    (covers : translation.Covers width address offset) (value : Nat) :
    translation.Shows
      (storeWord width buffer offset value)
      (storeWord width memory address value) := by
  intro other place isPlace
  by_cases inWord : address ≤ other ∧ other < address + width
  · obtain ⟨i, rfl⟩ := Nat.exists_eq_add_of_le inWord.1
    have inRange : i < width := by omega
    have isOffset : place = offset + i :=
      Option.some.inj (isPlace.symm.trans (covers i inRange))
    rw [isOffset, storeWord_apply_of_inside inRange,
      storeWord_apply_of_inside inRange]
  · have notInPlace : place < offset ∨ offset + width ≤ place := by
      by_contra inPlace
      obtain ⟨i, rfl⟩ := Nat.exists_eq_add_of_le (show offset ≤ place by omega)
      have inRange : i < width := by omega
      have isSame := translation.injective isPlace (covers i inRange)
      omega
    rw [storeWord_apply_of_outside notInPlace,
      storeWord_apply_of_outside (by omega)]
    exact isShown isPlace

/-- A word that is stored at its place changes no byte without an address. -/
theorem sameOutside_storeWord
    (covers : translation.Covers width address offset)
    (buffer : Bytes) (value : Nat) :
    translation.SameOutside buffer
      (ByteBuffer.storeWord width buffer offset value) := by
  intro other notPlaced
  apply storeWord_apply_of_outside
  by_contra inWord
  obtain ⟨i, rfl⟩ := Nat.exists_eq_add_of_le (show offset ≤ other by omega)
  exact notPlaced (address + i) (covers i (by omega))

/-- A range of addresses from zero on that is mapped as a whole. -/
def mappedAt (start size : Nat) : Translation where
  place address := if address < size then some (start + address) else none
  injective := by
    intro one two offset isOne isTwo
    split at isOne
    · split at isTwo
      · have sameOne := Option.some.inj isOne
        have sameTwo := Option.some.inj isTwo
        omega
      · cases isTwo
    · cases isOne

/-- The parts of a range have their places. -/
theorem mappedAt_covers
    {start size : Nat} (inRange : address + width ≤ size) :
    (mappedAt start size).Covers width address (start + address) := by
  intro i inPart
  have isMapped : address + i < size := by omega
  rw [Nat.add_assoc]
  exact if_pos isMapped

/-- A memory shows what is moved to where it is mapped. -/
theorem mappedAt_shows (start size : Nat) (memory : Bytes) :
    (mappedAt start size).Shows (fun position => memory (position - start))
      memory := by
  intro address offset isPlace
  have isMapped :
      (if address < size then some (start + address) else none) =
        some offset :=
    isPlace
  split at isMapped
  · rw [← Option.some.inj isMapped]
    exact congrArg memory (Nat.add_sub_cancel_left start address)
  · cases isMapped

end Translation

end ByteBuffer
