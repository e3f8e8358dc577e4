import BinTools.CString

namespace BinTools

/-!
# Symbol-name hash functions

The three string hashes of `hashtable.c`.  `gnu_hash` and `sysv_hash` run in a
`uint_fast32_t`, which is 64 bits wide on x86-64, and truncate at the end;
`elf_hash` stays in 32 bits throughout.
-/

/-- `gnu_hash`: `h += h * 32 + c` from 5381, truncated to 32 bits. -/
def gnuHash (name : CString) : U32 :=
  (name.bytes.foldl
    (fun (h : U64) (c : UInt8) => h + (h * 32 + BitVec.ofNat 64 c.toNat))
    5381).setWidth 32

/--
`sysv_hash`: the branch-free 64-bit loop.  `__z__std__sysv_hash` of
`hash_table.c` has the same text.
-/
def sysvHash (name : CString) : U32 :=
  ((name.bytes.foldl
    (fun (h : U64) (c : UInt8) =>
      let h := 16 * h + BitVec.ofNat 64 c.toNat
      h ^^^ ((h >>> 24) &&& 0xf0))
    0) &&& 0xfffffff).setWidth 32

/-- `elf_hash`: the 32-bit loop that folds the top nibble back. -/
def elfHash (name : CString) : U32 :=
  name.bytes.foldl
    (fun (h : U32) (c : UInt8) =>
      let h := (h <<< 4) + BitVec.ofNat 32 c.toNat
      let g := h &&& 0xf0000000
      let h := if g ≠ 0 then h ^^^ (g >>> 24) else h
      h &&& ~~~g)
    0

/-! ## The agreement of the two System V hashes -/

/-- The bits that both loops keep. -/
def low28 (h : U64) : U32 :=
  (h &&& 0xfffffff).setWidth 32

/-- A bit of the low 28. -/
theorem getLsbD_low28 (h : U64) (i : Nat) :
    (low28 h).getLsbD i = (h.getLsbD i && decide (i < 28)) := by
  have isMask : ∀ j < 32, (0xfffffff : U64).getLsbD j = decide (j < 28) := by
    decide
  unfold low28
  rw [BitVec.getLsbD_setWidth, BitVec.getLsbD_and]
  by_cases inWord : i < 32
  · rw [isMask i inWord, decide_eq_true inWord, Bool.true_and]
  · have above : ¬ i < 28 := by omega
    rw [decide_eq_false inWord, decide_eq_false above, Bool.false_and,
      Bool.and_false]

/--
The addition of a round: what overflows the 32 bits comes from bits that the
other loop keeps above the low 28.
-/
theorem low28_shift_add (h : U64) (c : UInt8) :
    (low28 h <<< 4) + BitVec.ofNat 32 c.toNat =
      (16 * h + BitVec.ofNat 64 c.toNat).setWidth 32 := by
  have isByte :
      (BitVec.ofNat 64 c.toNat).setWidth 32 = BitVec.ofNat 32 c.toNat := by
    rw [BitVec.setWidth_ofNat_of_le (by decide)]
  have isShift : low28 h <<< 4 = (16 * h).setWidth 32 := by
    have isPower : (16 : U64) = BitVec.twoPow 64 4 := by decide
    rw [isPower, BitVec.twoPow_mul_eq_shiftLeft]
    apply BitVec.eq_of_getLsbD_eq
    intro i inWord
    rw [BitVec.getLsbD_shiftLeft, getLsbD_low28, BitVec.getLsbD_setWidth,
      BitVec.getLsbD_shiftLeft]
    have inLow : i - 4 < 28 := by omega
    have inLong : i < 64 := by omega
    simp only [inWord, inLow, inLong, decide_true, Bool.true_and,
      Bool.and_true]
  rw [BitVec.setWidth_add _ _ (by decide), isByte, isShift]

/-- A bit of the top nibble. -/
theorem getLsbD_topNibble (x : U64) (i : Nat) :
    (x.setWidth 32 &&& 0xf0000000).getLsbD i =
      (x.getLsbD i && decide (28 ≤ i ∧ i < 32)) := by
  have isMask : ∀ j < 32, (0xf0000000 : U32).getLsbD j = decide (28 ≤ j) := by
    decide
  rw [BitVec.getLsbD_and, BitVec.getLsbD_setWidth]
  by_cases inWord : i < 32
  · simp only [isMask i inWord, inWord, decide_true, Bool.true_and, and_true]
  · simp only [inWord, and_false, decide_false, Bool.false_and,
      Bool.and_false]

/-- A bit of the nibble that is folded back. -/
theorem getLsbD_foldedNibble (x : U64) (i : Nat) :
    ((x >>> 24) &&& 0xf0).getLsbD i =
      (x.getLsbD (24 + i) && decide (4 ≤ i ∧ i < 8)) := by
  have isMask :
      ∀ j < 64, (0xf0 : U64).getLsbD j = decide (4 ≤ j ∧ j < 8) := by
    decide
  rw [BitVec.getLsbD_and, BitVec.getLsbD_ushiftRight]
  by_cases inWord : i < 64
  · rw [isMask i inWord]
  · have isPast : ¬ (4 ≤ i ∧ i < 8) := by omega
    rw [BitVec.getLsbD_of_ge _ _ (Nat.le_of_not_lt inWord),
      decide_eq_false isPast]

/-- Folding the top nibble back agrees on the low 28 bits. -/
theorem low28_fold (x : U64) :
    let h := x.setWidth 32
    let g := h &&& 0xf0000000
    (if g ≠ 0 then h ^^^ (g >>> 24) else h) &&& ~~~g =
      low28 (x ^^^ ((x >>> 24) &&& 0xf0)) := by
  dsimp only
  have isBit := getLsbD_topNibble x
  generalize x.setWidth 32 &&& 0xf0000000 = g at isBit ⊢
  have folded :
      (if g ≠ 0 then x.setWidth 32 ^^^ (g >>> 24) else x.setWidth 32) =
        x.setWidth 32 ^^^ (g >>> 24) := by
    by_cases isZero : g = 0
    · rw [if_neg (not_not.mpr isZero), isZero]
      exact (BitVec.xor_zero).symm
    · rw [if_pos isZero]
  rw [folded]
  apply BitVec.eq_of_getLsbD_eq
  intro i inWord
  rw [BitVec.getLsbD_and, BitVec.getLsbD_not, BitVec.getLsbD_xor,
    BitVec.getLsbD_ushiftRight, BitVec.getLsbD_setWidth, isBit, isBit,
    getLsbD_low28, BitVec.getLsbD_xor, getLsbD_foldedNibble]
  have isMoved : (28 ≤ 24 + i ∧ 24 + i < 32) ↔ 4 ≤ i ∧ i < 8 := by omega
  by_cases isLow : i < 28
  · have notTop : ¬ 28 ≤ i := by omega
    simp only [inWord, isMoved, isLow, notTop, false_and, decide_true,
      decide_false, Bool.true_and, Bool.and_false, Bool.not_false,
      Bool.and_true]
  · have isTop : 28 ≤ i ∧ i < 32 := by omega
    have notNibble : ¬ (4 ≤ i ∧ i < 8) := by omega
    simp only [inWord, isMoved, isLow, isTop, notNibble, and_self,
      decide_true, decide_false, Bool.true_and, Bool.and_false,
      Bool.and_true, Bool.xor_false, Bool.and_not_self]

/-- After every byte `elf_hash` has the low 28 bits of what `sysv_hash` has. -/
theorem foldl_low28 (bytes : List UInt8) (h : U64) :
    bytes.foldl
        (fun (h : U32) (c : UInt8) =>
          let h := (h <<< 4) + BitVec.ofNat 32 c.toNat
          let g := h &&& 0xf0000000
          let h := if g ≠ 0 then h ^^^ (g >>> 24) else h
          h &&& ~~~g)
        (low28 h) =
      low28
        (bytes.foldl
          (fun (h : U64) (c : UInt8) =>
            let h := 16 * h + BitVec.ofNat 64 c.toNat
            h ^^^ ((h >>> 24) &&& 0xf0))
          h) := by
  induction bytes generalizing h with
  | nil => rfl
  | cons c rest inductionHypothesis =>
      rw [List.foldl_cons, List.foldl_cons, ← inductionHypothesis]
      congr 1
      dsimp only
      rw [low28_shift_add]
      exact low28_fold _

/-- What is left of 28 bits is below their bound. -/
theorem toNat_low28_lt (h : U64) : (low28 h).toNat < 2 ^ 28 := by
  have isMasked : (h &&& 0xfffffff).toNat ≤ 0xfffffff := Nat.and_le_right
  unfold low28
  rw [BitVec.toNat_setWidth]
  exact
    Nat.lt_of_le_of_lt (Nat.mod_le _ _)
      (Nat.lt_of_le_of_lt isMasked (by decide))

/-- `elf_hash` and `sysv_hash` agree, and stay below `2 ^ 28`. -/
theorem elfHash_eq_sysvHash (name : CString) :
    elfHash name = sysvHash name ∧ (sysvHash name).toNat < 2 ^ 28 :=
  ⟨foldl_low28 name.bytes 0, toNat_low28_lt _⟩

end BinTools
