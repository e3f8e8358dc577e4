import BinTools.HeapBitmap
import Mathlib.Order.Bounds.Basic

namespace BinTools.Heap

/-!
# What the bitmap loops compute

The three loops walk a one-bit mask through bytes or words.  The lemmas below
say which bit a mask selects; the loop theorems then speak about the bits of
the whole bitmap.
-/

/-- The mask of a round after the reset `if (!v) v = 1`. -/
def settled {width : Nat} (v : BitVec width) : BitVec width :=
  if v = 0 then 1 else v

/-- Shifting the byte mask moves it to the next bit, cyclically. -/
theorem settled_shift_byte {i : Nat} (inRange : i < 8) :
    settled (BitVec.twoPow 8 i <<< 1) = BitVec.twoPow 8 ((i + 1) % 8) := by
  have everyBit :
      ∀ i < 8,
        settled (BitVec.twoPow 8 i <<< 1) = BitVec.twoPow 8 ((i + 1) % 8) := by
    decide
  exact everyBit i inRange

/-- Shifting the word mask moves it to the next bit, cyclically. -/
theorem settled_shift_word (i : Nat) :
    settled (BitVec.twoPow 64 (i % 64) <<< 1) =
      BitVec.twoPow 64 ((i + 1) % 64) := by
  have everyBit :
      ∀ r < 64,
        settled (BitVec.twoPow 64 r <<< 1) =
          BitVec.twoPow 64 ((r + 1) % 64) := by
    decide +kernel
  rw [everyBit _ (Nat.mod_lt i (by decide)), Nat.mod_add_mod]

/-- Testing one bit of one byte of the bitmap. -/
theorem byteAt_and_twoPow
    (bits : Bitmap) {i : Nat} (j : Nat) (inRange : i < 8) :
    byteAt bits j &&& BitVec.twoPow 8 i = 0 ↔
      bits.getLsbD (8 * j + i) = false := by
  constructor
  · intro masked
    have bitMasked := congrArg (BitVec.getLsbD · i) masked
    simpa [byteAt, inRange] using bitMasked
  · intro clear
    apply BitVec.eq_of_getLsbD_eq
    intro k kInRange
    simp only [BitVec.getLsbD_and, BitVec.getLsbD_twoPow]
    by_cases same : i = k
    · subst k
      simp [byteAt, clear]
    · simp [same]

/-- Setting one bit of one word of the bitmap. -/
theorem getLsbD_orWord
    {bits : Bitmap} {i k : Nat} (inRange : i < 256) :
    (orWord bits (i / 64) (BitVec.twoPow 64 (i % 64))).getLsbD k =
      (bits.getLsbD k || decide (k = i)) := by
  simp only [orWord, BitVec.getLsbD_or, BitVec.getLsbD_shiftLeft,
    BitVec.getLsbD_setWidth, BitVec.getLsbD_twoPow]
  by_cases same : k = i
  · subst k
    have position : i % 64 = i - 64 * (i / 64) := by omega
    have inWord : ¬ i < 64 * (i / 64) := by omega
    have below : i % 64 < 64 := by omega
    simp [inRange, inWord, ← position, below]
    omega
  · by_cases under : k < 64 * (i / 64)
    · simp [same, under]
    · have away : i % 64 ≠ k - 64 * (i / 64) := by omega
      simp [same, away]

/-- Clearing one bit of one word of the bitmap. -/
theorem getLsbD_andNotWord
    {bits : Bitmap} {w r k : Nat} (rInRange : r < 64) :
    (andNotWord bits w (BitVec.twoPow 64 r)).getLsbD k =
      (bits.getLsbD k && !decide (k = 64 * w + r)) := by
  by_cases kInRange : k < 256
  · simp only [andNotWord, BitVec.getLsbD_and, BitVec.getLsbD_not,
      BitVec.getLsbD_shiftLeft, BitVec.getLsbD_setWidth,
      BitVec.getLsbD_twoPow]
    by_cases under : k < 64 * w
    · have away : k ≠ 64 * w + r := by omega
      simp [kInRange, under, away]
    · have positions : (r = k - 64 * w) ↔ (k = 64 * w + r) := by omega
      by_cases same : k = 64 * w + r
      · simp [same, rInRange]
        omega
      · simp [kInRange, under, positions, same]
  · simp [BitVec.getLsbD_of_ge _ _ (Nat.le_of_not_lt kInRange)]

/-- The `n` blocks from `start` on are all free. -/
def ClearRun (bits : Bitmap) (start n : Nat) : Prop :=
  ∀ k, start ≤ k → k < start + n → bits.getLsbD k = false

/-- The block in front of the first run of its length is marked. -/
theorem ClearRun.marked_before
    {bits : Bitmap} {start n : Nat}
    (clear : ClearRun bits start n) (nonzero : start ≠ 0)
    (noneEarlier : ∀ earlier < start, ¬ ClearRun bits earlier n) :
    bits.getLsbD (start - 1) = true := by
  by_contra unmarked
  refine noneEarlier (start - 1) (by omega) ?_
  intro k from_ below
  rcases Nat.lt_or_ge k start with before | inRun
  · have isBefore : k = start - 1 := by omega
    rw [isBefore]
    simpa using unmarked
  · exact clear k inRun (by omega)

/--
What the search answers: the start of the first run of `q` free blocks, or
zero when the page has no such run.
-/
def FirstRun (bits : Bitmap) (q answer : Nat) : Prop :=
  (answer + q ≤ 256 ∧ ClearRun bits answer q ∧
      ∀ earlier < answer, ¬ ClearRun bits earlier q) ∨
    (answer = 0 ∧ ∀ start, start + q ≤ 256 → ¬ ClearRun bits start q)

/--
The state of the search at bit `pos`: the last `c` bits are free, the bit in
front of them is not, and no run of `q` free blocks has ended yet.
-/
structure Scanned (bits : Bitmap) (q pos c : Nat) : Prop where
  inRange : c ≤ pos
  short : c < q
  clear : ClearRun bits (pos - c) c
  maximal : c = pos ∨ bits.getLsbD (pos - c - 1) = true
  noneBefore : ∀ start, start + q ≤ pos → ¬ ClearRun bits start q

/-- Passing a used block starts a new run. -/
theorem Scanned.used
    {bits : Bitmap} {q pos c : Nat}
    (scanned : Scanned bits q pos c)
    (used : bits.getLsbD pos = true) :
    Scanned bits q (pos + 1) 0 where
  inRange := Nat.zero_le _
  short := by
    have := scanned.short
    omega
  clear := by
    intro k from_ below
    omega
  maximal := Or.inr (by simpa using used)
  noneBefore := by
    intro start ends run
    rcases Nat.lt_or_ge (start + q) (pos + 1) with before | atPos
    · exact scanned.noneBefore start (by omega) run
    · have short := scanned.short
      have clearAtPos := run pos (by omega) (by omega)
      simp [clearAtPos] at used

/-- Passing a free block makes the run one longer, if it stays too short. -/
theorem Scanned.free
    {bits : Bitmap} {q pos c : Nat}
    (scanned : Scanned bits q pos c)
    (clearBit : bits.getLsbD pos = false)
    (short : c + 1 < q) :
    Scanned bits q (pos + 1) (c + 1) where
  inRange := Nat.succ_le_succ scanned.inRange
  short := short
  clear := by
    intro k fromStart below
    have inRange := scanned.inRange
    rcases Nat.lt_or_ge k pos with before | atPos
    · exact scanned.clear k (by omega) (by omega)
    · have here : k = pos := by omega
      rw [here, clearBit]
  maximal := by
    have inRange := scanned.inRange
    rcases scanned.maximal with whole | stopped
    · exact Or.inl (by omega)
    · refine Or.inr ?_
      have same : pos + 1 - (c + 1) - 1 = pos - c - 1 := by omega
      rw [same, stopped]
  noneBefore := by
    intro start ends run
    have inRange := scanned.inRange
    rcases scanned.maximal with whole | stopped
    · omega
    · rcases Nat.lt_or_ge (start + q) (pos + 1) with before | atPos
      · exact scanned.noneBefore start (by omega) run
      · by_cases whole : c = pos
        · omega
        · have clearThere := run (pos - c - 1) (by omega) (by omega)
          simp [clearThere] at stopped

/-- The search loop ends and finds the first run. -/
theorem findLoop_spec
    {bits : Bitmap} {q : Nat} (qInRange : q ≤ 255)
    {rounds : Nat} {v : BitVec 8} {i j c : Nat}
    (iInRange : i < 8)
    (remaining : 8 * j + i + rounds = 256)
    (mask : settled v = BitVec.twoPow 8 i)
    (scanned : Scanned bits q (8 * j + i) c) :
    ∃ answer,
      findLoop bits q rounds v i j c = some answer ∧
        FirstRun bits q answer := by
  induction rounds generalizing v i j c with
  | zero =>
      have atEnd : ¬ j < 32 := by omega
      refine ⟨0, by simp [findLoop, atEnd], Or.inr ⟨rfl, ?_⟩⟩
      intro start ends
      exact scanned.noneBefore start (by omega)
  | succ rounds inductionHypothesis =>
      have within : j < 32 := by omega
      have short := scanned.short
      have wraps : (c + 1) % 256 = c + 1 := by omega
      have nextMask := settled_shift_byte iInRange
      simp only [findLoop, within, ↓reduceIte]
      have maskIs : (if v = 0 then 1 else v) = BitVec.twoPow 8 i := mask
      rw [maskIs]
      by_cases clearBit : bits.getLsbD (8 * j + i) = false
      · have tested := byteAt_and_twoPow bits j iInRange
        simp only [tested.mpr clearBit, ↓reduceIte, true_and, wraps]
        by_cases complete : c + 1 = q
        · refine ⟨(i + 1 + j * 8 + 256 - q) % 256, by simp [complete], ?_⟩
          have inRange := scanned.inRange
          have start :
              (i + 1 + j * 8 + 256 - q) % 256 = 8 * j + i - c := by
            omega
          rw [start]
          refine Or.inl ⟨by omega, ?_, ?_⟩
          · intro k fromStart below
            rcases Nat.lt_or_ge k (8 * j + i) with before | atPos
            · exact scanned.clear k fromStart (by omega)
            · have here : k = 8 * j + i := by omega
              rw [here, clearBit]
          · intro earlier before
            exact scanned.noneBefore earlier (by omega)
        · have passed := scanned.free clearBit (by omega)
          simp only [complete, ↓reduceIte]
          by_cases lastBit : i % 8 = 7
          · have position : 8 * (j + 1) + 0 = 8 * j + i + 1 := by omega
            have lastMask : (i + 1) % 8 = 0 := by omega
            simp only [lastBit, ↓reduceIte]
            exact
              inductionHypothesis (by omega) (by omega)
                (by rw [nextMask, lastMask]) (by rwa [position])
          · have innerMask : (i + 1) % 8 = i + 1 := by omega
            simp only [lastBit, ↓reduceIte]
            exact
              inductionHypothesis (by omega) (by omega)
                (by rw [nextMask, innerMask]) passed
      · have tested := byteAt_and_twoPow bits j iInRange
        have passed := scanned.used (by simpa using clearBit)
        simp only [tested, clearBit]
        by_cases lastBit : i % 8 = 7
        · have position : 8 * (j + 1) + 0 = 8 * j + i + 1 := by omega
          have lastMask : (i + 1) % 8 = 0 := by omega
          simp only [lastBit, ↓reduceIte]
          exact
            inductionHypothesis (by omega) (by omega)
              (by rw [nextMask, lastMask]) (by rwa [position])
        · have innerMask : (i + 1) % 8 = i + 1 := by omega
          simp only [lastBit, ↓reduceIte]
          exact
            inductionHypothesis (by omega) (by omega)
              (by rw [nextMask, innerMask]) passed

/-- `slowest_find_consecutive_bin` answers with the first run of the page. -/
theorem slowestFindConsecutiveBin_spec
    (bits : Bitmap) {q : Nat} (positive : 0 < q) (qInRange : q ≤ 255) :
    ∃ answer,
      slowestFindConsecutiveBin bits q = some answer ∧
        FirstRun bits q answer := by
  refine findLoop_spec qInRange (by decide) (by decide) (by decide) ?_
  exact
    { inRange := Nat.le_refl _
      short := positive
      clear := by
        intro k _ below
        omega
      maximal := Or.inl rfl
      noneBefore := by
        intro start ends
        omega }

/-- The starts of runs of `q` free blocks behind the first block. -/
def runsBehind (bits : Bitmap) (q : Nat) : Set Nat :=
  { start | 1 ≤ start ∧ start + q ≤ 256 ∧ ClearRun bits start q }

/-- A run that starts at the first block needs this block to be free. -/
theorem ClearRun.start_ne_zero
    {bits : Bitmap} {start q : Nat}
    (clear : ClearRun bits start q) (positive : 0 < q)
    (isMarked : bits.getLsbD 0 = true) :
    start ≠ 0 := by
  rintro rfl
  have isFree := clear 0 (Nat.le_refl 0) (by omega)
  rw [isMarked] at isFree
  cases isFree

/--
For every bitmap with a marked first block the search answers with the least
start of a run behind it; without such a run it answers zero.
-/
theorem slowestFindConsecutiveBin_isLeast
    (bits : Bitmap) {q : Nat} (positive : 0 < q) (qInRange : q ≤ 255) :
    ∃ answer,
      slowestFindConsecutiveBin bits q = some answer ∧
        (bits.getLsbD 0 = true → (runsBehind bits q).Nonempty →
          IsLeast (runsBehind bits q) answer) ∧
          (runsBehind bits q = ∅ → answer = 0) := by
  obtain ⟨answer, isAnswer, isFirst⟩ :=
    slowestFindConsecutiveBin_spec bits positive qInRange
  refine ⟨answer, isAnswer, fun isMarked isNonempty => ?_, fun isEmpty => ?_⟩
  · obtain ⟨start, _, inPage, isClear⟩ := isNonempty
    rcases isFirst with ⟨isInside, isRun, noneEarlier⟩ | ⟨_, none⟩
    · have notZero := isRun.start_ne_zero positive isMarked
      refine ⟨⟨by omega, isInside, isRun⟩, fun other isOther => ?_⟩
      by_contra isBefore
      exact noneEarlier other (by omega) isOther.2.2
    · exact absurd isClear (none start inPage)
  · rcases isFirst with ⟨isInside, isRun, _⟩ | ⟨isZero, _⟩
    · by_contra notZero
      have member : answer ∈ runsBehind bits q :=
        ⟨by omega, isInside, isRun⟩
      rw [isEmpty] at member
      exact member
    · exact isZero

/-- Three free blocks behind the first one. -/
theorem slowestFindConsecutiveBin_isLeast_fresh :
    ∃ answer,
      slowestFindConsecutiveBin 1 3 = some answer ∧
        ((1 : Bitmap).getLsbD 0 = true → (runsBehind 1 3).Nonempty →
          IsLeast (runsBehind 1 3) answer) ∧
          (runsBehind 1 3 = ∅ → answer = 0) :=
  slowestFindConsecutiveBin_isLeast 1 (by decide) (by decide)

/-- `set_bin` raises the bits from `s` to `e` and nothing else. -/
theorem setBinLoop_spec
    {s e : Nat} (sInRange : s ≤ e) (eInRange : e ≤ 255)
    (rounds : Nat) (bits : Bitmap) (w : Nat) (v : U64) (i : Nat) (up : Bool)
    (iInRange : i ≤ e + 1)
    (notWrapped : i ≤ 255)
    (enough : e + 2 ≤ i + rounds)
    (mask : settled v = BitVec.twoPow 64 (i % 64))
    (word : (if up then w + 1 else w) = i / 64) :
    ∃ marked,
      setBinLoop s e rounds bits w v i up = some marked ∧
        ∀ k,
          marked.getLsbD k =
            (bits.getLsbD k || decide (s ≤ k ∧ i ≤ k ∧ k ≤ e)) := by
  induction rounds generalizing bits w v i up with
  | zero => omega
  | succ rounds inductionHypothesis =>
      have maskIs : (if v = 0 then 1 else v) = BitVec.twoPow 64 (i % 64) := mask
      have nextMask := settled_shift_word i
      rw [setBinLoop]
      by_cases inside : i ≤ e
      · have wordStep :
            (if decide (i % 64 = 63) then i / 64 + 1 else i / 64) =
              (i + 1) / 64 := by
          by_cases last : i % 64 = 63
          · simp only [last, decide_true, ↓reduceIte]
            omega
          · simp only [last, decide_false, Bool.false_eq_true, ↓reduceIte]
            omega
        have inPage : ¬ 4 ≤ i / 64 := by omega
        simp only [inside, ↓reduceIte, maskIs, word, inPage]
        by_cases before : i < s
        · have next : (i + 1) % 256 = i + 1 := by omega
          simp only [before, ↓reduceIte, next]
          obtain ⟨marked, ends, bitsOf⟩ :=
            inductionHypothesis bits (i / 64)
              (BitVec.twoPow 64 (i % 64) <<< 1) (i + 1)
              (decide (i % 64 = 63))
              (by omega) (by omega) (by omega) nextMask wordStep
          refine ⟨marked, ends, ?_⟩
          intro k
          rw [bitsOf k]
          have same : (s ≤ k ∧ i + 1 ≤ k ∧ k ≤ e) ↔ (s ≤ k ∧ i ≤ k ∧ k ≤ e) := by
            omega
          simp only [same]
        · simp only [before, ↓reduceIte]
          by_cases lastBit : i = 255
          · subst i
            simp only [↓reduceIte]
            refine ⟨_, rfl, ?_⟩
            intro k
            rw [getLsbD_orWord (by decide)]
            have same : (k = 255) ↔ (s ≤ k ∧ 255 ≤ k ∧ k ≤ e) := by omega
            simp only [same]
          · have next : (i + 1) % 256 = i + 1 := by omega
            simp only [lastBit, ↓reduceIte, next]
            obtain ⟨marked, ends, bitsOf⟩ :=
              inductionHypothesis
                (orWord bits (i / 64) (BitVec.twoPow 64 (i % 64)))
                (i / 64) (BitVec.twoPow 64 (i % 64) <<< 1) (i + 1)
                (decide (i % 64 = 63))
                (by omega) (by omega) (by omega) nextMask wordStep
            refine ⟨marked, ends, ?_⟩
            intro k
            rw [bitsOf k, getLsbD_orWord (by omega), Bool.or_assoc,
              ← Bool.decide_or]
            have same :
                (k = i ∨ s ≤ k ∧ i + 1 ≤ k ∧ k ≤ e) ↔
                  (s ≤ k ∧ i ≤ k ∧ k ≤ e) := by
              omega
            simp only [same]
      · refine ⟨bits, by simp [inside], ?_⟩
        intro k
        have outside : ¬ (s ≤ k ∧ i ≤ k ∧ k ≤ e) := by omega
        simp [outside]

/-- `set_bin` ends and marks exactly the `q` blocks from `s` on. -/
theorem setBin_spec
    (bits : Bitmap) {s q : Nat} (positive : 0 < q) (inPage : s + q ≤ 256) :
    ∃ marked,
      setBin bits s q = some marked ∧
        ∀ k,
          marked.getLsbD k =
            (bits.getLsbD k || decide (s ≤ k ∧ k < s + q)) := by
  have last : (s + q + 255) % 256 = s + q - 1 := by omega
  rw [setBin, last]
  obtain ⟨marked, ends, bitsOf⟩ :=
    setBinLoop_spec (s := s) (e := s + q - 1) (by omega) (by omega)
      257 bits 0 1 0 false (by omega) (by omega) (by omega)
      (by decide) (by decide)
  refine ⟨marked, ends, ?_⟩
  intro k
  rw [bitsOf k]
  have same : (s ≤ k ∧ 0 ≤ k ∧ k ≤ s + q - 1) ↔ (s ≤ k ∧ k < s + q) := by
    omega
  simp only [same]

/-- The `n` blocks from `start` on are marked, every other one is as it was. -/
def MarksRun (bits marked : Bitmap) (start n : Nat) : Prop :=
  (∀ k, start ≤ k → k < start + n → marked.getLsbD k = true) ∧
    ∀ k, ¬ (start ≤ k ∧ k < start + n) →
      marked.getLsbD k = bits.getLsbD k

/--
For every run of blocks inside the page `set_bin` ends, with this run marked.
All 256 blocks are a count of zero in eight bits, with the same last block.
-/
theorem setBin_marksRun
    (bits : Bitmap) {s q : Nat} (positive : 1 ≤ q) (inPage : s + q ≤ 256) :
    ∃ marked, setBin bits s q = some marked ∧ MarksRun bits marked s q := by
  obtain ⟨marked, ends, bitsOf⟩ := setBin_spec bits positive inPage
  refine ⟨marked, ends, ?_, ?_⟩
  · intro k fromStart below
    rw [bitsOf k, decide_eq_true ⟨fromStart, below⟩, Bool.or_true]
  · intro k outside
    rw [bitsOf k, decide_eq_false outside, Bool.or_false]

/-- The last block of the first word, and all of the other words. -/
theorem setBin_marksRun_words :
    ∃ marked, setBin 1 63 193 = some marked ∧ MarksRun 1 marked 63 193 :=
  setBin_marksRun 1 (by decide) (by decide)

/-- The word pointer of `unset_bin` counts from the first cleared bit. -/
theorem unsetBinLoop_spec
    {s e : Nat} (eInRange : e < 255)
    (rounds : Nat) (bits : Bitmap) (w : Nat) (v : U64) (i : Nat)
    (iInRange : i ≤ e + 1)
    (enough : e + 2 ≤ i + rounds)
    (mask : settled v = BitVec.twoPow 64 (i % 64))
    (word : w = if i ≤ s then 0 else i / 64 - s / 64) :
    ∃ cleared,
      unsetBinLoop s e rounds bits w v i = some cleared ∧
        ∀ k,
          cleared.getLsbD k =
            (bits.getLsbD k &&
              !decide
                (s % 64 ≤ k ∧ i ≤ k + 64 * (s / 64) ∧
                  k + 64 * (s / 64) ≤ e)) := by
  induction rounds generalizing bits w v i with
  | zero => omega
  | succ rounds inductionHypothesis =>
      have maskIs : (if v = 0 then 1 else v) = BitVec.twoPow 64 (i % 64) := mask
      have nextMask := settled_shift_word i
      rw [unsetBinLoop]
      by_cases inside : i ≤ e
      · have next : (i + 1) % 256 = i + 1 := by omega
        simp only [inside, ↓reduceIte, maskIs, next]
        by_cases before : i < s
        · simp only [before, ↓reduceIte]
          have waits : w = if i + 1 ≤ s then 0 else (i + 1) / 64 - s / 64 := by
            rw [word]
            simp [Nat.le_of_lt before, Nat.succ_le_of_lt before]
          obtain ⟨cleared, ends, bitsOf⟩ :=
            inductionHypothesis bits w
              (BitVec.twoPow 64 (i % 64) <<< 1) (i + 1)
              (by omega) (by omega) nextMask waits
          refine ⟨cleared, ends, ?_⟩
          intro k
          rw [bitsOf k]
          have same :
              (s % 64 ≤ k ∧ i + 1 ≤ k + 64 * (s / 64) ∧
                  k + 64 * (s / 64) ≤ e) ↔
                (s % 64 ≤ k ∧ i ≤ k + 64 * (s / 64) ∧
                  k + 64 * (s / 64) ≤ e) := by
            omega
          simp only [same]
        · have wordIs : w = i / 64 - s / 64 := by
            rw [word]
            split <;> omega
          have inPage : ¬ 4 ≤ w := by omega
          have wordStep :
              (if i % 64 = 63 then w + 1 else w) =
                if i + 1 ≤ s then 0 else (i + 1) / 64 - s / 64 := by
            have beyond : ¬ i + 1 ≤ s := by omega
            simp only [beyond, ↓reduceIte]
            split <;> omega
          simp only [before, ↓reduceIte, inPage]
          obtain ⟨cleared, ends, bitsOf⟩ :=
            inductionHypothesis
              (andNotWord bits w (BitVec.twoPow 64 (i % 64)))
              (if i % 64 = 63 then w + 1 else w)
              (BitVec.twoPow 64 (i % 64) <<< 1) (i + 1)
              (by omega) (by omega) nextMask wordStep
          refine ⟨cleared, ends, ?_⟩
          intro k
          rw [bitsOf k, getLsbD_andNotWord (Nat.mod_lt _ (by decide)),
            Bool.and_assoc, ← Bool.not_or, ← Bool.decide_or]
          have same :
              (k = 64 * w + i % 64 ∨
                  s % 64 ≤ k ∧ i + 1 ≤ k + 64 * (s / 64) ∧
                    k + 64 * (s / 64) ≤ e) ↔
                (s % 64 ≤ k ∧ i ≤ k + 64 * (s / 64) ∧
                  k + 64 * (s / 64) ≤ e) := by
            omega
          simp only [same]
      · refine ⟨bits, by simp [inside], ?_⟩
        intro k
        have outside :
            ¬ (s % 64 ≤ k ∧ i ≤ k + 64 * (s / 64) ∧
                k + 64 * (s / 64) ≤ e) := by
          omega
        simp [outside]

/--
The blocks that `unset_bin` clears for start `s` and count `q`: it counts its
words from the one that holds `s`, but from the front of the bitmap, and it
clears one block more than the run has.
-/
def Unset (s q k : Nat) : Prop :=
  s % 64 ≤ k ∧ k + 64 * (s / 64) ≤ (s + q) % 256

instance (s q k : Nat) : Decidable (Unset s q k) :=
  inferInstanceAs (Decidable (_ ∧ _))

/-- `unset_bin` ends unless its bound is 255, and clears the `Unset` blocks. -/
theorem unsetBin_spec
    (bits : Bitmap) {s q : Nat}
    (ends : (s + q) % 256 ≠ 255) :
    ∃ cleared,
      unsetBin bits s q = some cleared ∧
        ∀ k, cleared.getLsbD k = (bits.getLsbD k && !decide (Unset s q k)) := by
  obtain ⟨cleared, result, bitsOf⟩ :=
    unsetBinLoop_spec (s := s) (e := (s + q) % 256) (by omega)
      257 bits 0 1 0 (by omega) (by omega) (by decide) (by simp)
  refine ⟨cleared, result, ?_⟩
  intro k
  rw [bitsOf k]
  have same :
      (s % 64 ≤ k ∧ 0 ≤ k + 64 * (s / 64) ∧ k + 64 * (s / 64) ≤ (s + q) % 256) ↔
        Unset s q k := by
    simp [Unset]
  simp only [same]

/-- With the bound 255 the counter of `unset_bin` never passes it. -/
theorem unsetBin_eq_none
    (bits : Bitmap) {s q : Nat} (stuck : (s + q) % 256 = 255) :
    unsetBin bits s q = none := by
  have neverEnds :
      ∀ rounds (bits : Bitmap) w v i, i ≤ 255 →
        unsetBinLoop s 255 rounds bits w v i = none := by
    intro rounds
    induction rounds with
    | zero =>
        intro bits w v i _
        rfl
    | succ rounds inductionHypothesis =>
        intro bits w v i inRange
        have later : (i + 1) % 256 ≤ 255 := by omega
        simp only [unsetBinLoop, inRange, ↓reduceIte]
        split
        · exact inductionHypothesis _ _ _ _ later
        · split
          · rfl
          · exact inductionHypothesis _ _ _ _ later
  rw [unsetBin, stuck]
  exact neverEnds _ _ _ _ _ (by decide)

end BinTools.Heap
