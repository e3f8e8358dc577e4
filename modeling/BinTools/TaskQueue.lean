import BinTools.NameHash

namespace BinTools.TaskQueue

/-!
# The queue of the thread pool

`enqueue` and `dequeue` of `thread.c`, one at a time.  Tasks are numbered in the
order in which they were allocated.  The front is set by the first task only,
and the rear is never reset.
-/

/-- What a task does. -/
structure Job where
  work : U64
  argc : U32
  args : U64
  deriving DecidableEq, Repr

/-- `task` -/
structure Task where
  job : Job
  prev : Option Nat
  deriving DecidableEq, Repr

/-- `thread_pool`, with the fields of its queue and all tasks. -/
structure ThreadPool where
  tasks : List Task
  front : Option Nat
  rear : Option Nat
  len : U32
  deriving DecidableEq, Repr

namespace ThreadPool

/-- A zeroed pool. -/
def fresh : ThreadPool where
  tasks := []
  front := none
  rear := none
  len := 0

/-- `enqueue` -/
def enqueue (pool : ThreadPool) (job : Job) : ThreadPool :=
  let t := pool.tasks.length
  match pool.rear with
  | none =>
      { tasks := pool.tasks ++ [{ job := job, prev := none }]
        front := some t
        rear := some t
        len := pool.len + 1 }
  | some rear =>
      { tasks := pool.tasks ++ [{ job := job, prev := some rear }]
        front := pool.front
        rear := some t
        len := pool.len + 1 }

/-- `dequeue` -/
def dequeue (pool : ThreadPool) : ThreadPool × Option Nat :=
  if pool.len ≠ 0 then
    ({ pool with len := pool.len - 1, front := none }, pool.front)
  else
    (pool, none)

/-- The work of a task that was returned. -/
def jobOf (pool : ThreadPool) (t : Option Nat) : Option Job :=
  t.bind fun t => (pool.tasks[t]?).map Task.job

end ThreadPool

/-- An operation on the queue. -/
inductive Operation where
  | enqueue (job : Job)
  | dequeue
  deriving DecidableEq, Repr

/--
The pool serves the jobs that wait: its length is their number, `dequeue` returns
the first of them, and null when there is none.
-/
def Serves : ThreadPool → List Job → List Operation → Prop
  | pool, waiting, [] => pool.len.toInt = waiting.length
  | pool, waiting, .enqueue job :: rest =>
      pool.len.toInt = waiting.length ∧
        Serves (pool.enqueue job) (waiting ++ [job]) rest
  | pool, waiting, .dequeue :: rest =>
      pool.len.toInt = waiting.length ∧
        pool.jobOf pool.dequeue.2 = waiting.head? ∧
          Serves pool.dequeue.1 waiting.tail rest

/-- A task was returned, and so many wait: nothing is asked for while one does. -/
def FitsReturned : Nat → List Operation → Prop
  | waiting, [] => waiting < 2 ^ 31
  | waiting, .enqueue _ :: rest =>
      waiting < 2 ^ 31 ∧ FitsReturned (waiting + 1) rest
  | waiting, .dequeue :: rest => waiting = 0 ∧ FitsReturned 0 rest

/--
At most one task is returned: no other is asked for while one waits.  Fewer than
2³¹ tasks wait.
-/
def Fits : Nat → List Operation → Prop
  | waiting, [] => waiting < 2 ^ 31
  | waiting, .enqueue _ :: rest =>
      waiting < 2 ^ 31 ∧ Fits (waiting + 1) rest
  | 0, .dequeue :: rest => Fits 0 rest
  | waiting + 1, .dequeue :: rest =>
      waiting + 1 < 2 ^ 31 ∧ FitsReturned waiting rest

/-! ## The states of a pool -/

variable {pool : ThreadPool} {waiting : List Job} {ops : List Operation}

/-- The length counts the jobs that wait, up to overflow. -/
def Counts (pool : ThreadPool) (waiting : List Job) : Prop :=
  pool.len = BitVec.ofNat 32 waiting.length

/-- Nothing was enqueued yet. -/
def Untouched (pool : ThreadPool) : Prop :=
  pool = ThreadPool.fresh

/-- Tasks were enqueued and none returned. -/
structure Filled (pool : ThreadPool) (waiting : List Job) : Prop where
  counts : Counts pool waiting
  jobs : pool.tasks.map Task.job = waiting
  notEmpty : waiting ≠ []
  front : pool.front = some 0
  rear : pool.rear.isSome

/-- The first task was returned. -/
structure Returned (pool : ThreadPool) (waiting : List Job) : Prop where
  counts : Counts pool waiting
  front : pool.front = none
  rear : pool.rear.isSome

/-- The length is right as long as it does not overflow. -/
theorem Counts.toInt_eq_iff (counts : Counts pool waiting) :
    pool.len.toInt = waiting.length ↔ waiting.length < 2 ^ 31 := by
  rw [counts, BitVec.toInt_ofNat']
  constructor
  · intro isLength
    have inRange := @Int.bmod_lt waiting.length (2 ^ 32) (by decide)
    omega
  · intro inRange
    exact Int.bmod_eq_of_le (by omega) (by omega)

/-- One more job waits. -/
theorem Counts.enqueue (counts : Counts pool waiting) (job : Job) :
    Counts (pool.enqueue job) (waiting ++ [job]) := by
  have isNext : pool.len + 1 = BitVec.ofNat 32 (waiting ++ [job]).length := by
    rw [counts, List.length_append, List.length_singleton, BitVec.ofNat_add]
    rfl
  unfold ThreadPool.enqueue
  split <;> exact isNext

/-- The first job fills the pool. -/
theorem Untouched.enqueue (untouched : Untouched pool) (job : Job) :
    Filled (pool.enqueue job) [job] := by
  subst untouched
  exact
    { counts := rfl
      jobs := rfl
      notEmpty := List.cons_ne_nil _ _
      front := rfl
      rear := rfl }

/-- A pool that has tasks takes one more. -/
theorem Filled.enqueue (filled : Filled pool waiting) (job : Job) :
    Filled (pool.enqueue job) (waiting ++ [job]) := by
  obtain ⟨rear, isRear⟩ := Option.isSome_iff_exists.mp filled.rear
  refine
    { counts := filled.counts.enqueue job
      jobs := ?_
      notEmpty := by simp
      front := ?_
      rear := ?_ }
  · simp [ThreadPool.enqueue, isRear, filled.jobs]
  · simp [ThreadPool.enqueue, isRear, filled.front]
  · simp [ThreadPool.enqueue, isRear]

/-- The front stays null. -/
theorem Returned.enqueue (returned : Returned pool waiting) (job : Job) :
    Returned (pool.enqueue job) (waiting ++ [job]) := by
  obtain ⟨rear, isRear⟩ := Option.isSome_iff_exists.mp returned.rear
  refine
    { counts := returned.counts.enqueue job
      front := ?_
      rear := ?_ }
  · simp [ThreadPool.enqueue, isRear, returned.front]
  · simp [ThreadPool.enqueue, isRear]

/-- The length of a pool with few tasks is not zero. -/
theorem Counts.len_ne_zero
    (counts : Counts pool waiting) (inRange : waiting.length < 2 ^ 31)
    (notEmpty : waiting ≠ []) :
    pool.len ≠ 0 := by
  have isSome : 0 < waiting.length := List.length_pos_iff.mpr notEmpty
  have isLength := counts.toInt_eq_iff.mpr inRange
  intro isZero
  rw [isZero] at isLength
  simp at isLength
  omega

/-- The first task is returned, and the front is null from then on. -/
theorem Filled.dequeue
    (filled : Filled pool waiting) (inRange : waiting.length < 2 ^ 31) :
    pool.jobOf pool.dequeue.2 = waiting.head? ∧
      Returned pool.dequeue.1 waiting.tail := by
  have notZero := filled.counts.len_ne_zero inRange filled.notEmpty
  rw [ThreadPool.dequeue, if_pos notZero]
  constructor
  · rw [filled.front, ← filled.jobs]
    simp [ThreadPool.jobOf, List.head?_eq_getElem?]
  · refine { counts := ?_, front := rfl, rear := filled.rear }
    obtain ⟨job, rest, rfl⟩ := List.exists_cons_of_ne_nil filled.notEmpty
    have isLength : pool.len = BitVec.ofNat 32 (rest.length + 1) :=
      filled.counts
    change pool.len - 1 = BitVec.ofNat 32 rest.length
    rw [isLength, BitVec.ofNat_add]
    exact BitVec.add_sub_cancel _ _

/-- After the first task nothing is returned. -/
theorem Returned.jobOf_dequeue (returned : Returned pool waiting) :
    pool.jobOf pool.dequeue.2 = none := by
  unfold ThreadPool.dequeue
  split_ifs
  · rw [returned.front]
    rfl
  · rfl

/-- An empty pool does not change. -/
theorem dequeue_of_len_eq_zero (isZero : pool.len = 0) :
    pool.dequeue = (pool, none) := by
  rw [ThreadPool.dequeue, if_neg (not_not.mpr isZero)]

/-! ## Runs -/

/-- After the first task, the pool serves while no other is asked for. -/
theorem Returned.serves_iff (returned : Returned pool waiting) :
    Serves pool waiting ops ↔ FitsReturned waiting.length ops := by
  induction ops generalizing pool waiting with
  | nil => exact returned.counts.toInt_eq_iff
  | cons op rest inductionHypothesis =>
      cases op with
      | enqueue job =>
          have isNext := inductionHypothesis (returned.enqueue job)
          rw [List.length_append, List.length_singleton] at isNext
          exact and_congr returned.counts.toInt_eq_iff isNext
      | dequeue =>
          rw [Serves, FitsReturned, returned.jobOf_dequeue]
          cases waiting with
          | nil =>
              rw [dequeue_of_len_eq_zero returned.counts]
              have isLength :=
                returned.counts.toInt_eq_iff.mpr (by decide)
              have isNext := inductionHypothesis returned
              simpa [isLength] using isNext
          | cons job later => simp

/-- A pool with tasks serves as long as one is returned at most. -/
theorem Filled.serves_iff (filled : Filled pool waiting) :
    Serves pool waiting ops ↔ Fits waiting.length ops := by
  induction ops generalizing pool waiting with
  | nil =>
      rw [Fits]
      exact filled.counts.toInt_eq_iff
  | cons op rest inductionHypothesis =>
      cases op with
      | enqueue job =>
          have isNext := inductionHypothesis (filled.enqueue job)
          rw [List.length_append, List.length_singleton] at isNext
          rw [Fits]
          exact and_congr filled.counts.toInt_eq_iff isNext
      | dequeue =>
          obtain ⟨job, later, rfl⟩ :=
            List.exists_cons_of_ne_nil filled.notEmpty
          rw [Serves, filled.counts.toInt_eq_iff, List.length_cons, Fits]
          refine and_congr_right fun inRange => ?_
          obtain ⟨isFirst, returned⟩ := filled.dequeue inRange
          rw [and_iff_right isFirst]
          exact returned.serves_iff

/--
A fresh pool serves its tasks in order exactly when no task is asked for while
one waits after the first was returned, and fewer than 2³¹ tasks wait.
-/
theorem serves_iff_fits (ops : List Operation) :
    Serves ThreadPool.fresh [] ops ↔ Fits 0 ops := by
  induction ops with
  | nil => simp [Serves, Fits, ThreadPool.fresh]
  | cons op rest inductionHypothesis =>
      cases op with
      | enqueue job =>
          have untouched : Untouched ThreadPool.fresh := rfl
          have isNext :
              Serves (ThreadPool.fresh.enqueue job) [job] rest ↔ Fits 1 rest :=
            (untouched.enqueue job).serves_iff
          rw [Serves, Fits, List.nil_append, isNext]
          simp [ThreadPool.fresh]
      | dequeue =>
          have isSame : ThreadPool.fresh.dequeue = (ThreadPool.fresh, none) :=
            dequeue_of_len_eq_zero rfl
          rw [Serves, Fits, isSame, ← inductionHypothesis]
          simp [ThreadPool.fresh, ThreadPool.jobOf]

/-- The second of two tasks is not returned. -/
theorem not_serves_second :
    ¬ Serves ThreadPool.fresh []
        [.enqueue { work := 0x1000, argc := 0, args := 0 },
          .enqueue { work := 0x2000, argc := 0, args := 0 },
          .dequeue, .dequeue] := by
  rintro ⟨_, _, _, _, _, isSecond, _⟩
  exact absurd isSecond (by decide +kernel)

end BinTools.TaskQueue
