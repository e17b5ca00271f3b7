import Mathlib.Logic.Basic

namespace StepRun
variable {State Action : Type}

/-- A run feeds the actions to the step function one after another. -/
def run (step : State → Action → Option State) : State → List Action → Option State
  | state, [] => some state
  | state, action :: rest => (step state action).bind fun next => run step next rest

/-- Each action of the run meets the condition in the state that receives it. -/
def Meets (step : State → Action → Option State) (condition : State → Action → Prop) :
    State → List Action → Prop
  | _, [] => True
  | state, action :: rest =>
    condition state action ∧ ∀ next, step state action = some next → Meets step condition next rest

section
variable (step : State → Action → Option State) (state : State)
include step state

@[simp] lemma run_nil : run step state [] = some state := rfl

lemma run_cons (action : Action) (rest : List Action) :
    run step state (action :: rest) = (step state action).bind fun next => run step next rest := rfl

lemma run_append (first second : List Action) :
    run step state (first ++ second) =
      (run step state first).bind fun middle => run step middle second := by
  induction first generalizing state with
  | nil => rfl
  | cons action rest ih =>
    rw [List.cons_append, run_cons, run_cons, Option.bind_assoc]
    congr 1
    funext next
    exact ih next

lemma run_concat (actions : List Action) (action : Action) :
    run step state (actions ++ [action]) =
      (run step state actions).bind fun final => step final action := by
  rw [run_append]
  congr 1
  funext final
  exact Option.bind_fun_some (step final action)

end

/-- A decidable condition is decided along the run. -/
instance decidableMeets (step : State → Action → Option State) (condition : State → Action → Prop)
    [∀ state action, Decidable (condition state action)] :
    ∀ (state : State) (actions : List Action), Decidable (Meets step condition state actions)
  | _, [] => isTrue trivial
  | state, action :: rest =>
    have (next : State) := decidableMeets step condition next rest
    have : Decidable (∀ next ∈ step state action, Meets step condition next rest) :=
      Option.decidableForallMem _
    inferInstanceAs (Decidable (_ ∧ _))

variable {step : State → Action → Option State}
variable {condition : State → Action → Prop}

/-- The last action of a run meets the condition in the state that the others reach. -/
lemma Meets.concat {action : Action} (actions : List Action) (state : State)
    (meets : Meets step condition state (actions ++ [action])) :
    Meets step condition state actions ∧ ∀ final, run step state actions = some final →
    condition final action := by
  induction actions generalizing state with
  | nil =>
    refine ⟨trivial, fun final reached => ?_⟩
    obtain rfl : state = final := Option.some.inj reached
    exact meets.1
  | cons first rest ih =>
    obtain ⟨here, later⟩ := meets
    refine ⟨⟨here, fun next stepped => (ih next (later next stepped)).1⟩, fun final reached => ?_⟩
    obtain ⟨next, stepped, reachedNext⟩ := Option.bind_eq_some_iff.mp reached
    exact (ih next (later next stepped)).2 final reachedNext

/-- Two conditions that the run meets are met together. -/
lemma Meets.and {first second : State → Action → Prop} (actions : List Action) (state : State)
    (meetsFirst : Meets step first state actions) (meetsSecond : Meets step second state actions) :
    Meets step (fun state action => first state action ∧ second state action) state actions := by
  induction actions generalizing state with
  | nil => trivial
  | cons action rest ih =>
    exact ⟨⟨meetsFirst.1, meetsSecond.1⟩, fun next stepped => ih next (meetsFirst.2 next stepped)
      (meetsSecond.2 next stepped)⟩

/-- A step that keeps the invariant and never gets stuck gives a run that ends in the invariant. -/
lemma run_invariant {invariant : State → Prop}
    (preserved : ∀ state action, invariant state → condition state action →
      ∃ next, step state action = some next ∧ invariant next) (actions : List Action) (state : State)
    (initial : invariant state) (meets : Meets step condition state actions) :
    ∃ final, run step state actions = some final ∧ invariant final := by
  induction actions generalizing state with
  | nil => exact ⟨state, rfl, initial⟩
  | cons action rest ih =>
    obtain ⟨next, stepped, kept⟩ := preserved state action initial meets.1
    obtain ⟨final, reached, holds⟩ := ih next kept (meets.2 next stepped)
    exact ⟨final, by rw [run_cons, stepped]; exact reached, holds⟩

end StepRun
