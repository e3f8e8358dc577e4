import Mathlib.Data.List.Induction
import Mathlib.Data.Option.Basic
import Mathlib.Tactic.Common

namespace GuardedRun

/-!
# Runs of a partial step function

A step returns `none` when it does not come back or leaves the memory it may
use.  `Guarded` says that every step of a run meets a condition on the state it
starts from; `Always` says that the run completes and a property holds in every
state on the way.
-/

variable {State Action : Type*}

/-- Perform the actions in order. -/
def run (step : State → Action → Option State) :
    State → List Action → Option State
  | state, [] => some state
  | state, action :: rest =>
      (step state action).bind fun next => run step next rest

/-- Every step starts in a state that meets the condition for its action. -/
def Guarded
    (step : State → Action → Option State)
    (guard : State → Action → Prop) :
    State → List Action → Prop
  | _, [] => True
  | state, action :: rest =>
      guard state action ∧
        ∀ next ∈ step state action, Guarded step guard next rest

/-- The run completes and the property holds in every state it passes. -/
def Always
    (step : State → Action → Option State)
    (good : State → Prop) :
    State → List Action → Prop
  | state, [] => good state
  | state, action :: rest =>
      good state ∧ ∃ next ∈ step state action, Always step good next rest

/-- The property holds in every state the run reaches, as far as it gets. -/
def Throughout
    (step : State → Action → Option State)
    (good : State → Prop) :
    State → List Action → Prop
  | state, [] => good state
  | state, action :: rest =>
      good state ∧ ∀ next ∈ step state action, Throughout step good next rest

instance Guarded.decidable
    (step : State → Action → Option State)
    (guard : State → Action → Prop)
    [∀ state action, Decidable (guard state action)] :
    (state : State) → (actions : List Action) →
      Decidable (Guarded step guard state actions)
  | _, [] => inferInstanceAs (Decidable True)
  | state, action :: rest =>
      have := fun next => Guarded.decidable step guard next rest
      inferInstanceAs
        (Decidable
          (guard state action ∧
            ∀ next ∈ step state action, Guarded step guard next rest))

instance Always.decidable
    (step : State → Action → Option State)
    (good : State → Prop)
    [∀ state, Decidable (good state)] :
    (state : State) → (actions : List Action) →
      Decidable (Always step good state actions)
  | state, [] => inferInstanceAs (Decidable (good state))
  | state, action :: rest =>
      have := fun next => Always.decidable step good next rest
      inferInstanceAs
        (Decidable
          (good state ∧
            ∃ next ∈ step state action, Always step good next rest))

variable {step : State → Action → Option State}
variable {guard : State → Action → Prop}
variable {good invariant : State → Prop}

/--
When guarded steps succeed and keep an invariant, the invariant holds
throughout every guarded run.
-/
theorem always_of_guarded
    (holds : ∀ state, invariant state → good state)
    (keeps :
      ∀ state action,
        invariant state → guard state action →
          ∃ next ∈ step state action, invariant next)
    {state : State} {actions : List Action}
    (initially : invariant state)
    (guarded : Guarded step guard state actions) :
    Always step good state actions := by
  induction actions generalizing state with
  | nil => exact holds state initially
  | cons action rest inductionHypothesis =>
      obtain ⟨next, stepped, nextInvariant⟩ :=
        keeps state action initially guarded.1
      exact
        ⟨holds state initially, next, stepped,
          inductionHypothesis nextInvariant (guarded.2 next stepped)⟩

/--
When guarded steps keep an invariant, it holds where a guarded run ends, if no
step of it fails.
-/
theorem invariant_of_run
    (keeps :
      ∀ state action,
        invariant state → guard state action →
          ∀ next ∈ step state action, invariant next)
    {state : State} {actions : List Action}
    (initially : invariant state)
    (guarded : Guarded step guard state actions) :
    ∀ last ∈ run step state actions, invariant last := by
  induction actions generalizing state with
  | nil =>
      intro last reached
      cases reached
      exact initially
  | cons action rest inductionHypothesis =>
      intro last reached
      obtain ⟨next, stepped, later⟩ := Option.bind_eq_some_iff.mp reached
      exact
        inductionHypothesis (keeps state action initially guarded.1 next stepped)
          (guarded.2 next stepped) last later

/-- A property that holds throughout a run holds in its first state. -/
theorem Always.first
    {state : State} {actions : List Action}
    (always : Always step good state actions) :
    good state := by
  cases actions with
  | nil => exact always
  | cons action rest => exact always.1

/-- A property that holds throughout a run holds in its last state. -/
theorem Always.last
    {state : State} {actions : List Action}
    (always : Always step good state actions) :
    ∃ last ∈ run step state actions, good last := by
  induction actions generalizing state with
  | nil => exact ⟨state, rfl, always⟩
  | cons action rest inductionHypothesis =>
      obtain ⟨_, next, stepped, restAlways⟩ := always
      obtain ⟨last, reached, holds⟩ := inductionHypothesis restAlways
      refine ⟨last, ?_, holds⟩
      simpa [run, Option.mem_def.mp stepped] using reached

/-- A property throughout a run holds in its first state. -/
theorem Throughout.first
    {state : State} {actions : List Action}
    (throughout : Throughout step good state actions) :
    good state := by
  cases actions with
  | nil => exact throughout
  | cons action rest => exact throughout.1

/-- A property throughout a run holds where the run ends. -/
theorem Throughout.last
    {state : State} {actions : List Action}
    (throughout : Throughout step good state actions) :
    ∀ last ∈ run step state actions, good last := by
  induction actions generalizing state with
  | nil =>
      intro last reached
      cases reached
      exact throughout
  | cons action rest inductionHypothesis =>
      intro last reached
      obtain ⟨next, stepped, later⟩ := Option.bind_eq_some_iff.mp reached
      exact inductionHypothesis (throughout.2 next stepped) last later

/--
When guarded steps that succeed keep an invariant, and every unguarded step
succeeds and breaks the property, the property holds in every state a run
reaches exactly when every step of it is guarded.
-/
theorem throughout_iff_guarded
    (holds : ∀ state, invariant state → good state)
    (keeps :
      ∀ state action,
        invariant state → guard state action →
          ∀ next ∈ step state action, invariant next)
    (breaks :
      ∀ state action,
        invariant state → ¬ guard state action →
          ∃ next ∈ step state action, ¬ good next)
    {state : State} {actions : List Action}
    (initially : invariant state) :
    Throughout step good state actions ↔
      Guarded step guard state actions := by
  induction actions generalizing state with
  | nil => exact ⟨fun _ => trivial, fun _ => holds state initially⟩
  | cons action rest inductionHypothesis =>
      constructor
      · rintro ⟨_, restThroughout⟩
        have meets : guard state action := by
          by_contra unguarded
          obtain ⟨next, stepped, broken⟩ :=
            breaks state action initially unguarded
          exact broken (restThroughout next stepped).first
        refine ⟨meets, ?_⟩
        intro next stepped
        exact
          (inductionHypothesis
            (keeps state action initially meets next stepped)).mp
            (restThroughout next stepped)
      · rintro ⟨meets, restGuarded⟩
        refine ⟨holds state initially, ?_⟩
        intro next stepped
        exact
          (inductionHypothesis
            (keeps state action initially meets next stepped)).mpr
            (restGuarded next stepped)

/-- A condition that always holds guards every run. -/
theorem guarded_of_forall
    (always : ∀ state action, guard state action)
    (state : State) (actions : List Action) :
    Guarded step guard state actions := by
  induction actions generalizing state with
  | nil => trivial
  | cons action rest inductionHypothesis =>
      exact ⟨always state action, fun next _ => inductionHypothesis next⟩

/--
Within runs that have room for all of their steps: when guarded steps succeed
and keep an invariant, and every unguarded step fails or breaks the property,
the property holds throughout a run exactly when every step of it is guarded.
-/
theorem always_iff_guarded_within
    {room : State → Action → Prop}
    (holds : ∀ state, invariant state → good state)
    (keeps :
      ∀ state action,
        invariant state → room state action → guard state action →
          ∃ next ∈ step state action, invariant next)
    (breaks :
      ∀ state action,
        invariant state → room state action → ¬ guard state action →
          ∀ next ∈ step state action, ¬ good next)
    {state : State} {actions : List Action}
    (initially : invariant state)
    (roomy : Guarded step room state actions) :
    Always step good state actions ↔ Guarded step guard state actions := by
  induction actions generalizing state with
  | nil => exact ⟨fun _ => trivial, fun _ => holds state initially⟩
  | cons action rest inductionHypothesis =>
      obtain ⟨hasRoom, restRoomy⟩ := roomy
      constructor
      · rintro ⟨_, next, stepped, restAlways⟩
        have meets : guard state action := by
          by_contra unguarded
          exact
            breaks state action initially hasRoom unguarded next stepped
              restAlways.first
        refine ⟨meets, ?_⟩
        intro reached reachedStep
        obtain ⟨kept, keptStep, keptInvariant⟩ :=
          keeps state action initially hasRoom meets
        cases Option.mem_unique stepped reachedStep
        cases Option.mem_unique stepped keptStep
        exact
          (inductionHypothesis keptInvariant (restRoomy next stepped)).mp
            restAlways
      · rintro ⟨meets, restGuarded⟩
        obtain ⟨next, stepped, nextInvariant⟩ :=
          keeps state action initially hasRoom meets
        exact
          ⟨holds state initially, next, stepped,
            (inductionHypothesis nextInvariant (restRoomy next stepped)).mpr
              (restGuarded next stepped)⟩

/--
When moreover every unguarded step fails or breaks the property, the property
holds throughout a run exactly when every step of the run is guarded.
-/
theorem always_iff_guarded
    (holds : ∀ state, invariant state → good state)
    (keeps :
      ∀ state action,
        invariant state → guard state action →
          ∃ next ∈ step state action, invariant next)
    (breaks :
      ∀ state action,
        invariant state → ¬ guard state action →
          ∀ next ∈ step state action, ¬ good next)
    {state : State} {actions : List Action}
    (initially : invariant state) :
    Always step good state actions ↔ Guarded step guard state actions :=
  always_iff_guarded_within holds
    (fun state action held _ => keeps state action held)
    (fun state action held _ => breaks state action held)
    initially (guarded_of_forall (fun _ _ => trivial) state actions)

/--
An invariant that also speaks about the actions done so far holds at the end of
a run that completes.
-/
theorem invariant_of_foldlM
    (invariant : State → List Action → Prop)
    (keeps :
      ∀ state done action next,
        invariant state done → step state action = some next →
          invariant next (done ++ [action]))
    {start last : State} {actions : List Action}
    (initially : invariant start [])
    (completes : actions.foldlM step start = some last) :
    invariant last actions := by
  induction actions using List.reverseRecOn generalizing last with
  | nil =>
      cases completes
      exact initially
  | append_singleton done action inductionHypothesis =>
      rw [List.foldlM_append] at completes
      obtain ⟨state, before, stepped⟩ := Option.bind_eq_some_iff.mp completes
      exact
        keeps state done action last (inductionHypothesis before)
          (by simpa using stepped)

/-- A run completes when no step of it gets stuck. -/
theorem exists_foldlM
    (invariant : State → List Action → Prop) {bound : Nat}
    (keeps :
      ∀ state done action next,
        invariant state done → step state action = some next →
          invariant next (done ++ [action]))
    (continues :
      ∀ state done action,
        invariant state done → done.length < bound →
          ∃ next, step state action = some next)
    {start : State} {actions : List Action}
    (initially : invariant start [])
    (short : actions.length ≤ bound) :
    ∃ last, actions.foldlM step start = some last := by
  induction actions using List.reverseRecOn with
  | nil => exact ⟨start, rfl⟩
  | append_singleton done action inductionHypothesis =>
      rw [List.length_append, List.length_singleton] at short
      obtain ⟨state, before⟩ :=
        inductionHypothesis (Nat.le_of_succ_le short)
      obtain ⟨next, stepped⟩ :=
        continues state done action
          (invariant_of_foldlM invariant keeps initially before) short
      refine ⟨next, ?_⟩
      rw [List.foldlM_append, before]
      simpa using stepped

end GuardedRun
