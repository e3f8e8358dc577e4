import BinTools.JavaPoolEntry
import Mathlib.Data.List.Induction
import Mathlib.Logic.Function.Iterate

namespace BinTools.Java

open ByteBuffer

/-!
# The reading of a whole constant pool

The loop is an iteration of its round, when the count has one byte.  The entries
are read one after the other, and a round too many stays behind the pool only
when no tag is there.
-/

/-! ## Rounds -/

section Rounds

variable {st : PoolState}

/-- No rounds move the pointer back or change what is in front of it. -/
theorem iterate_kept (rounds : Nat) :
    st.p ≤ (readEntry^[rounds] st).p ∧
      ∀ position, position < st.p →
        (readEntry^[rounds] st).memory position = st.memory position := by
  induction rounds generalizing st with
  | zero => exact ⟨Nat.le_refl _, fun _ _ => rfl⟩
  | succ rounds inductionHypothesis =>
      obtain ⟨notBack, kept⟩ := @inductionHypothesis (readEntry st)
      have isNext := le_readEntry st
      rw [Function.iterate_succ_apply]
      refine ⟨isNext.trans notBack, fun position isBefore => ?_⟩
      rw [kept position (Nat.lt_of_lt_of_le isBefore isNext),
        readEntry_of_lt isBefore]

/-- Rounds where no tag is. -/
theorem iterate_of_not_isTag (noTag : ¬ IsTag (st.memory st.p)) (rounds : Nat) :
    readEntry^[rounds] st =
      { st with h := st.h ++ List.replicate rounds st.p } := by
  induction rounds generalizing st with
  | zero => simp
  | succ rounds inductionHypothesis =>
      rw [Function.iterate_succ_apply, readEntry_of_not_isTag noTag,
        inductionHypothesis (by exact noTag)]
      simp [List.replicate_succ]

/-- Rounds that stay where they are find no tag there. -/
theorem not_isTag_of_iterate
    {rounds : Nat} (someRounds : rounds ≠ 0)
    (stays : (readEntry^[rounds] st).p = st.p) :
    ¬ IsTag (st.memory st.p) := by
  intro isTag
  obtain ⟨rounds, rfl⟩ := Nat.exists_eq_succ_of_ne_zero someRounds
  rw [Function.iterate_succ_apply] at stays
  have moves := lt_readEntry isTag
  have notBack := (@iterate_kept (readEntry st) rounds).1
  omega

end Rounds

/-! ## The loop -/

section Loop

variable
  {c : U16}
  {i : U8}
  {st last : PoolState}

/-- A counter of eight bits never reaches a count that has more. -/
theorem readEntries_eq_none (isLarge : 256 ≤ c.toNat) (fuel : Nat) :
    readEntries c fuel i st = none := by
  induction fuel generalizing i st with
  | zero => rfl
  | succ fuel inductionHypothesis =>
      have goesOn : i.toNat < c.toNat := i.isLt.trans_le isLarge
      rw [readEntries, if_pos goesOn, inductionHypothesis]

theorem toNat_succ
    (isSmall : c.toNat < 256) (goesOn : i.toNat < c.toNat) :
    (i + 1).toNat = i.toNat + 1 := by
  have isOne : (1 : U8).toNat = 1 := rfl
  rw [BitVec.toNat_add, isOne]
  omega

/-- The loop makes the rounds that are left. -/
theorem readEntries_eq
    (isSmall : c.toNat < 256) {rounds : Nat} (isLeft : i.toNat + rounds = c.toNat) :
    readEntries c (rounds + 1) i st = some (readEntry^[rounds] st) := by
  induction rounds generalizing i st with
  | zero =>
      rw [readEntries, if_neg (by omega)]
      rfl
  | succ rounds inductionHypothesis =>
      have goesOn : i.toNat < c.toNat := by omega
      have isNext := toNat_succ isSmall goesOn
      rw [readEntries, if_pos goesOn, inductionHypothesis (by omega),
        Function.iterate_succ_apply]

/-- What the loop ends with. -/
theorem iterate_of_readEntries
    {fuel rounds : Nat} (isLeft : i.toNat + rounds = c.toNat)
    (isLast : readEntries c fuel i st = some last) :
    c.toNat < 256 ∧ last = readEntry^[rounds] st := by
  have isSmall : c.toNat < 256 := by
    by_contra isLarge
    rw [readEntries_eq_none (Nat.le_of_not_lt isLarge)] at isLast
    cases isLast
  refine ⟨isSmall, ?_⟩
  induction fuel generalizing i st rounds with
  | zero => cases isLast
  | succ fuel inductionHypothesis =>
      rw [readEntries] at isLast
      cases rounds with
      | zero =>
          rw [if_neg (by omega)] at isLast
          exact (Option.some.inj isLast).symm
      | succ rounds =>
          have goesOn : i.toNat < c.toNat := by omega
          have isNext := toNat_succ isSmall goesOn
          rw [if_pos goesOn] at isLast
          rw [Function.iterate_succ_apply]
          exact inductionHypothesis (by omega) isLast

end Loop

/-! ## The entries -/

/-- Where some entries begin. -/
def addresses : Nat → List Constant → List Nat
  | _, [] => []
  | p, constant :: later =>
      p :: addresses (p + constant.file.length) later

/-- The state behind some entries that are right. -/
structure Behind (entries : List Constant) (st next : PoolState) : Prop where
  memory : next.memory = store st.memory st.p (entriesConverted entries)
  p : next.p = st.p + (entriesFile entries).length
  h : next.h = st.h ++ addresses st.p entries

theorem entriesFile_cons (constant : Constant) (later : List Constant) :
    entriesFile (constant :: later) = constant.file ++ entriesFile later :=
  rfl

theorem entriesConverted_cons (constant : Constant) (later : List Constant) :
    entriesConverted (constant :: later) =
      constant.converted ++ entriesConverted later :=
  rfl

theorem length_entriesConverted (entries : List Constant) :
    (entriesConverted entries).length = (entriesFile entries).length := by
  induction entries with
  | nil => rfl
  | cons constant later inductionHypothesis =>
      rw [entriesConverted_cons, entriesFile_cons, List.length_append,
        List.length_append, inductionHypothesis, constant.length_converted]

/-- What is behind an entry is not changed by its round. -/
theorem Converts.hasAt_later
    {constant : Constant} {odd : Bool} {st next : PoolState}
    {bytes : List UInt8} (converts : Converts constant odd st next)
    (has : HasAt st.memory (st.p + constant.file.length) bytes) :
    HasAt next.memory next.p bytes := by
  rw [converts.memory, converts.p]
  refine has.congr fun position isBehind _ => ?_
  refine store_apply_of_outside (.inr ?_)
  rwa [constant.length_converted]

/-- Entries that are right are read one after the other. -/
theorem behind_of_right
    {entries : List Constant} {odd : Bool} {st : PoolState}
    (has : HasAt st.memory st.p (entriesFile entries))
    (isShift : ShiftIs st.s odd) (right : AllRight odd entries) :
    Behind entries st (readEntry^[entries.length] st) := by
  induction entries generalizing odd st with
  | nil =>
      exact
        ⟨(store_nil _ _).symm, rfl, (List.append_nil _).symm⟩
  | cons constant later inductionHypothesis =>
      obtain ⟨hasEntry, hasLater⟩ := hasAt_append.mp has
      have converts := converts_of_right hasEntry isShift right.1
      have behind :=
        inductionHypothesis (converts.hasAt_later hasLater) converts.shift
          right.2
      rw [List.length_cons, Function.iterate_succ_apply]
      refine ⟨?_, ?_, ?_⟩
      · rw [behind.memory, converts.memory, converts.p,
          entriesConverted_cons, store_append, constant.length_converted]
      · rw [behind.p, converts.p, entriesFile_cons, List.length_append,
          Nat.add_assoc]
      · rw [behind.h, converts.h, converts.p, List.append_assoc]
        rfl

/-- Entries that are read by some rounds are right. -/
theorem right_of_iterate
    {entries : List Constant} {odd : Bool} {st : PoolState} {rounds : Nat}
    (has : HasAt st.memory st.p (entriesFile entries))
    (isShift : ShiftIs st.s odd)
    (isEnd :
      (readEntry^[rounds] st).p = st.p + (entriesFile entries).length)
    (isConverted :
      (readEntry^[rounds] st).memory =
        store st.memory st.p (entriesConverted entries)) :
    entries.length ≤ rounds ∧ AllRight odd entries := by
  induction entries generalizing odd st rounds with
  | nil => exact ⟨Nat.zero_le _, trivial⟩
  | cons constant later inductionHypothesis =>
      obtain ⟨hasEntry, hasLater⟩ := hasAt_append.mp has
      have isLong := constant.length_file_pos
      cases rounds with
      | zero =>
          rw [entriesFile_cons, List.length_append] at isEnd
          change st.p = _ at isEnd
          omega
      | succ rounds =>
          rw [Function.iterate_succ_apply] at isEnd isConverted
          obtain ⟨-, kept⟩ := @iterate_kept (readEntry st) rounds
          have hasAll :
              HasAt (readEntry^[rounds] (readEntry st)).memory st.p
                (entriesConverted (constant :: later)) := by
            rw [isConverted]
            exact load_store _ _ _
          obtain ⟨hasConverted, -⟩ := hasAt_append.mp hasAll
          have right :=
            right_of_agree hasEntry isShift
              (fun position _ isBefore => kept position isBefore) hasConverted
          have converts := converts_of_right hasEntry isShift right
          obtain ⟨isEnough, laterRight⟩ :=
            inductionHypothesis (converts.hasAt_later hasLater)
              converts.shift
              (by
                rw [isEnd, converts.p, entriesFile_cons, List.length_append,
                  Nat.add_assoc])
              (by
                rw [isConverted, converts.memory, converts.p,
                  entriesConverted_cons, store_append,
                  constant.length_converted])
          exact ⟨Nat.succ_le_succ isEnough, right, laterRight⟩

/-! ## Indices and addresses -/

/-- The addresses that some rounds behind the entries leave. -/
def written (p : Nat) (entries : List Constant) (more : Nat) : List Nat :=
  addresses p entries ++
    List.replicate more (p + (entriesFile entries).length)

theorem written_cons
    (p : Nat) (constant : Constant) (later : List Constant) (more : Nat) :
    written p (constant :: later) more =
      p :: written (p + constant.file.length) later more := by
  rw [written, written, addresses, entriesFile_cons, List.length_append,
    Nat.add_assoc, List.cons_append]

/-- No address is in front of the entries. -/
theorem le_of_mem_written
    {p : Nat} {entries : List Constant} {more address : Nat}
    (member : address ∈ written p entries more) :
    p ≤ address := by
  induction entries generalizing p with
  | nil =>
      rw [List.eq_of_mem_replicate member]
      exact Nat.le_add_right _ _
  | cons constant later inductionHypothesis =>
      rw [written_cons] at member
      rcases List.mem_cons.mp member with rfl | inLater
      · exact Nat.le_refl _
      · exact (Nat.le_add_right _ _).trans (inductionHypothesis inLater)

/-- The address of an entry is found at its position and at no other one. -/
theorem written_eq_iff
    (front : List Constant) {entry : Constant} {later : List Constant}
    {p more number : Nat} :
    (written p (front ++ entry :: later) more)[number]? =
        some (p + (entriesFile front).length) ↔
      number = front.length := by
  induction front generalizing p number with
  | nil =>
      rw [List.nil_append, written_cons]
      cases number with
      | zero => simp [entriesFile]
      | succ number =>
          have isLong := entry.length_file_pos
          refine ⟨fun isAddress => ?_, fun isZero => by cases isZero⟩
          have notBefore :=
            le_of_mem_written (List.mem_of_getElem? isAddress)
          change p + entry.file.length ≤ p at notBefore
          omega
  | cons constant front inductionHypothesis =>
      rw [List.cons_append, written_cons, entriesFile_cons,
        List.length_append, ← Nat.add_assoc]
      cases number with
      | zero =>
          have isLong := constant.length_file_pos
          rw [List.getElem?_cons_zero, Option.some_inj, List.length_cons]
          omega
      | succ number =>
          rw [List.getElem?_cons_succ, inductionHypothesis, List.length_cons,
            Nat.add_right_cancel_iff]

theorem indices_append (first second : List Constant) :
    indices (first ++ second) = indices first + indices second := by
  rw [indices, List.map_append, List.sum_append]
  rfl

theorem indices_cons (constant : Constant) (later : List Constant) :
    indices (constant :: later) = constant.slots + indices later := by
  rw [indices, List.map_cons, List.sum_cons]
  rfl

theorem slots_eq (constant : Constant) :
    constant.slots = 1 ∨ constant.slots = 2 := by
  cases constant with
  | long _ _ _ => exact .inr rfl
  | _ => exact .inl rfl

/-- Entries of one index each. -/
theorem indices_of_single
    {entries : List Constant} (single : ∀ entry ∈ entries, entry.slots = 1) :
    indices entries = entries.length := by
  induction entries with
  | nil => rfl
  | cons constant later inductionHypothesis =>
      have isOne := single constant List.mem_cons_self
      have laterOnes : ∀ entry ∈ later, entry.slots = 1 := fun entry member =>
        single entry (List.mem_cons_of_mem _ member)
      rw [indices_cons, isOne, inductionHypothesis laterOnes, List.length_cons,
        Nat.add_comm]

/-- The entries in front of another one have the indices of their positions. -/
theorem Single.indices_front
    {front later : List Constant} {entry : Constant}
    (single : Single (front ++ entry :: later)) :
    indices front = front.length := by
  apply indices_of_single
  intro item member
  obtain ⟨first, second, rfl⟩ := List.append_of_mem member
  refine single first item (second ++ entry :: later) ?_ (by simp)
  rw [List.append_assoc, List.cons_append]

theorem single_of_indices_front
    {entries : List Constant}
    (same :
      ∀ front entry later, entries = front ++ entry :: later →
        indices front = front.length) :
    Single entries := by
  intro front entry later isEntries notLast
  obtain ⟨next, rest, rfl⟩ := List.exists_cons_of_ne_nil notLast
  have isFront := same front entry (next :: rest) isEntries
  have isMore := same (front ++ [entry]) next rest (by simp [isEntries])
  rw [indices_append, indices_cons, List.length_append, isFront] at isMore
  simpa [indices] using isMore

/-- There is at most one index more than there are entries. -/
theorem Single.indices_le
    {entries : List Constant} (single : Single entries) :
    entries.length ≤ indices entries ∧
      indices entries ≤ entries.length + 1 := by
  induction entries using List.reverseRecOn with
  | nil => exact ⟨Nat.le_refl 0, Nat.zero_le 1⟩
  | append_singleton front entry _ =>
      have isFront := single.indices_front
      rw [indices_append, indices_cons, isFront, List.length_append]
      have isNil : indices ([] : List Constant) = 0 := rfl
      rw [isNil, List.length_singleton]
      rcases slots_eq entry with isOne | isTwo <;> omega

/-! ## The condition -/

/-- The state in front of the entries. -/
def poolStart (memory : Bytes) (p : Nat) : PoolState :=
  ⟨memory, p + 2, 0, []⟩

section Pool

variable
  {memory : Bytes}
  {p : Nat}
  {pool : Pool}
  (has : HasAt memory p pool.file)

include has

/-- The count that is read, from the bytes of the count. -/
theorem half_of_pool :
    half memory p =
      byteOf (1 + indices pool.entries) 1 * 16 +
        byteOf (1 + indices pool.entries) 0 := by
  obtain ⟨hasCount, -⟩ := hasAt_append.mp has
  have first := toNat_of_hasAt hasCount (by decide : 1 < 2)
  have second := toNat_of_hasAt hasCount (by decide : 0 < 2)
  change (memory p).toNat = byteOf _ 1 at first
  change (memory (p + 1)).toNat = byteOf _ 0 at second
  rw [half, first, second]

theorem hasAt_start :
    HasAt (poolStart memory p).memory (poolStart memory p).p
      (entriesFile pool.entries) := by
  obtain ⟨-, hasEntries⟩ := hasAt_append.mp has
  rwa [Field.length_file_number] at hasEntries

omit has in
theorem length_file (pool : Pool) :
    pool.file.length = 2 + (entriesFile pool.entries).length := by
  rw [Pool.file, List.length_append, Field.length_file_number]

/-- The rounds of a count that is read, behind the first index. -/
theorem toNat_half :
    (BitVec.ofNat 16 (half memory p)).toNat = half memory p ∧
      1 ≤ half memory p := by
  have isLess : half memory p < 2 ^ 16 := half_lt memory p
  have isHalf := half_of_pool has
  have inCount := pool.inCount
  refine ⟨Nat.mod_eq_of_lt isLess, ?_⟩
  rw [isHalf]
  unfold byteOf
  omega

omit has in
/-- The rounds behind the entries: none, or there is no tag. -/
theorem readsPool_iff
    {next : PoolState}
    (behind : Behind pool.entries (poolStart memory p) next) (more : Nat) :
    ReadsPool memory p pool (readEntry^[more] next) ↔
      (more ≠ 0 → ¬ IsTag (memory (p + pool.file.length))) ∧
        Single pool.entries := by
  have isEnd : next.p = p + pool.file.length := by
    rw [behind.p, length_file, ← Nat.add_assoc]
    rfl
  have atEnd : next.memory next.p = memory (p + pool.file.length) := by
    rw [behind.memory, isEnd, store_apply_of_outside]
    · rfl
    · right
      rw [length_entriesConverted, length_file, ← Nat.add_assoc]
      exact Nat.le_refl _
  have isLast :
      (more ≠ 0 → ¬ IsTag (memory (p + pool.file.length))) →
        readEntry^[more] next =
          { next with h := written (p + 2) pool.entries more } := by
    intro noTag
    have isWritten :
        next.h ++ List.replicate more next.p =
          written (p + 2) pool.entries more := by
      rw [behind.h, behind.p]
      rfl
    rw [← isWritten]
    by_cases isNone : more = 0
    · rw [isNone]
      simp
    · exact iterate_of_not_isTag (atEnd ▸ noTag isNone) more
  constructor
  · intro reads
    have noTag : more ≠ 0 → ¬ IsTag (memory (p + pool.file.length)) := by
      intro someRounds
      rw [← atEnd]
      exact not_isTag_of_iterate someRounds (reads.atEnd.trans isEnd.symm)
    refine ⟨noTag, single_of_indices_front fun front entry later isPool => ?_⟩
    have isAddress := reads.address front entry later isPool
    rw [isLast noTag, isPool] at isAddress
    exact (written_eq_iff front).mp isAddress
  · rintro ⟨noTag, single⟩
    rw [isLast noTag]
    refine ⟨isEnd, fun front entry later isPool => ?_, behind.memory⟩
    rw [isPool] at single ⊢
    exact (written_eq_iff front).mpr single.indices_front

/-- The pool is read when its numbers and its indices come out right. -/
theorem reads_of_readable
    (readable :
      Readable pool.entries (memory (p + pool.file.length))) :
    Reads memory p pool := by
  have isHalf := half_of_pool has
  obtain ⟨isCount, -⟩ := toNat_half has
  have small := readable.count
  have isAll : half memory p = 1 + indices pool.entries := by
    rw [isHalf]
    unfold byteOf
    omega
  obtain ⟨more, isMore⟩ :=
    Nat.exists_eq_add_of_le' readable.single.indices_le.1
  have isSmall : (BitVec.ofNat 16 (half memory p)).toNat < 256 := by
    omega
  have isLeft :
      (1 : U8).toNat + (more + pool.entries.length) =
        (BitVec.ofNat 16 (half memory p)).toNat := by
    have isOne : (1 : U8).toNat = 1 := rfl
    omega
  refine ⟨_, _, readEntries_eq isSmall isLeft, ?_⟩
  have behind :=
    behind_of_right (hasAt_start has) (show ShiftIs 0 false from rfl)
      readable.right
  rw [Function.iterate_add_apply]
  refine (readsPool_iff behind more).mpr
    ⟨fun someMore => readable.stops (by omega), readable.single⟩

/-- A pool that is read has numbers and indices that come out right. -/
theorem readable_of_reads (reads : Reads memory p pool) :
    Readable pool.entries (memory (p + pool.file.length)) := by
  obtain ⟨fuel, last, isLast, readsPool⟩ := reads
  have isHalf := half_of_pool has
  obtain ⟨isCount, isPositive⟩ := toNat_half has
  have isLeft :
      (1 : U8).toNat + (half memory p - 1) =
        (BitVec.ofNat 16 (half memory p)).toNat := by
    have isOne : (1 : U8).toNat = 1 := rfl
    omega
  obtain ⟨isSmall, rfl⟩ := iterate_of_readEntries isLeft isLast
  have isEnd := readsPool.atEnd
  rw [length_file, ← Nat.add_assoc] at isEnd
  obtain ⟨isEnough, right⟩ :=
    right_of_iterate (hasAt_start has) (show ShiftIs 0 false from rfl)
      isEnd readsPool.memory
  have behind :=
    behind_of_right (hasAt_start has) (show ShiftIs 0 false from rfl)
      right
  obtain ⟨more, isMore⟩ := Nat.exists_eq_add_of_le' isEnough
  rw [isMore] at readsPool
  change
    ReadsPool memory p pool
      (readEntry^[more + pool.entries.length] (poolStart memory p))
    at readsPool
  rw [Function.iterate_add_apply] at readsPool
  obtain ⟨stops, single⟩ := (readsPool_iff behind more).mp readsPool
  obtain ⟨-, notMore⟩ := single.indices_le
  have inCount := pool.inCount
  -- The rounds are enough for the entries only when the high byte is zero.
  have enoughRounds : 1 + indices pool.entries ≤ half memory p + 1 := by
    omega
  have small : 1 + indices pool.entries < 256 := by
    rw [isHalf] at enoughRounds
    generalize 1 + indices pool.entries = count at inCount enoughRounds
    unfold byteOf at enoughRounds
    omega
  refine ⟨small, right, single, fun moreIndices => stops ?_⟩
  unfold byteOf at isHalf
  omega

end Pool

/--
For every pool in memory, with any entries and whatever is behind it,
`read_constant_pool` ends and reads it exactly when it is readable.
-/
theorem reads_iff_readable
    {memory : Bytes} {p : Nat} (pool : Pool)
    (has : HasAt memory p pool.file) :
    Reads memory p pool ↔
      Readable pool.entries (memory (p + pool.file.length)) :=
  ⟨readable_of_reads has, reads_of_readable has⟩

theorem isWordTag_integer : IsWordTag constantInteger :=
  .inl rfl

theorem isIndexTag_class : IsIndexTag constantClass :=
  .inl rfl

theorem short_name : ([65, 66] : List UInt8).length < 2 ^ 16 := by
  decide

/-- An Integer and a Utf8 entry in front of a class. -/
def smallEntries : List Constant :=
  [.word constantInteger isWordTag_integer 0x10710, .utf8 [65, 66] short_name,
    .index constantClass isIndexTag_class 2]

theorem inCount_smallEntries : 1 + indices smallEntries < 2 ^ 16 := by
  decide

def smallPool : Pool :=
  ⟨smallEntries, inCount_smallEntries⟩

/-- A memory with a pool and nothing else. -/
def poolMemory (pool : Pool) : Bytes :=
  store (fun _ => 0) 0 pool.file

theorem hasAt_poolMemory (pool : Pool) : HasAt (poolMemory pool) 0 pool.file :=
  load_store _ _ _

theorem readable_smallPool (behind : UInt8) :
    Readable smallPool.entries behind where
  count := by decide
  right :=
    ⟨⟨by decide, by decide⟩, (by decide : 2 < 256), (by decide : 2 < 256),
      trivial⟩
  single := by
    have allOne : ∀ entry ∈ smallPool.entries, entry.slots = 1 := by
      simp [smallPool, smallEntries, Constant.slots]
    intro front entry later isPool _
    exact allOne entry (by simp [isPool])
  stops := fun moreIndices => absurd rfl moreIndices

theorem reads_smallPool : Reads (poolMemory smallPool) 0 smallPool :=
  (reads_iff_readable smallPool (hasAt_poolMemory smallPool)).mpr
    (readable_smallPool _)

/-- The Integer entry 1 alone. -/
def oneEntry : List Constant :=
  [.word constantInteger isWordTag_integer 1]

theorem inCount_oneEntry : 1 + indices oneEntry < 2 ^ 16 := by
  decide

def onePool : Pool :=
  ⟨oneEntry, inCount_oneEntry⟩

/-- The last byte of the Integer 1 is shifted by twelve. -/
theorem not_reads_onePool : ¬ Reads (poolMemory onePool) 0 onePool := by
  intro reads
  have readable := readable_of_reads (hasAt_poolMemory onePool) reads
  have isShifted : byteOf 1 0 = 16 * byteOf 1 2 := readable.right.1.2
  exact absurd isShifted (by decide)

end BinTools.Java
