/- Pre- and postconditions for computations that change a state and may fail with an error. -/

import Mathlib.Logic.Basic

namespace Effect

/-- A computation on a state that returns a result or an error. -/
abbrev Act (State Error Result : Type) : Type := ExceptT Error (StateM State) Result

variable {State Error Result Next : Type}

/-- What a computation returns and the state that it leaves. -/
def perform (act : Act State Error Result) (state : State) : Except Error Result × State :=
  (ExceptT.run act).run state

/-- From each state of the precondition, results and errors meet their postconditions. -/
def Triple (before : State → Prop) (act : Act State Error Result) (after : Result → State → Prop)
    (failed : Error → State → Prop) : Prop :=
  ∀ state, before state → match perform act state with
    | (.ok result, next) => after result next
    | (.error error, next) => failed error next

variable {before : State → Prop} {act : Act State Error Result} {after : Result → State → Prop}
  {failed : Error → State → Prop}

lemma Triple.pure {result : Result} (holds : ∀ state, before state → after result state) :
    Triple before (pure result : Act State Error Result) after failed :=
  holds

lemma Triple.throw {error : Error} (holds : ∀ state, before state → failed error state) :
    Triple before (throw error : Act State Error Result) after failed :=
  holds

/-- The rule of composition. -/
lemma Triple.bind {next : Result → Act State Error Next} {middle : Result → State → Prop}
    {last : Next → State → Prop}
    (first : Triple before act middle failed)
    (second : ∀ result, Triple (middle result) (next result) last failed) :
    Triple before (act >>= next) last failed := by
  intro state start
  have reached := first state start
  have composed : perform (act >>= next) state = match perform act state with
      | (.ok result, later) => perform (next result) later
      | (.error error, later) => (.error error, later) := by
    unfold perform
    simp only [ExceptT.run_bind, StateT.run_bind]
    rcases (ExceptT.run act).run state with ⟨result | error, later⟩ <;> rfl
  rw [composed]
  generalize perform act state = outcome at reached
  obtain ⟨result, later⟩ := outcome
  cases result with
  | ok result => exact second result later reached
  | error error => exact reached

/-- A computation that reads the state first. -/
lemma Triple.inspect {next : State → Act State Error Result}
    (holds : ∀ state, before state → Triple (fun same => same = state) (next state) after failed) :
    Triple before (get >>= next) after failed :=
  fun state start => holds state start state rfl

/-- A computation that changes the state first. -/
lemma Triple.change {change : State → State} {next : Unit → Act State Error Result}
    (middle : State → Prop)
    (holds : ∀ state, before state → middle (change state))
    (second : Triple middle (next ()) after failed) :
    Triple before (modify change >>= next) after failed :=
  fun state start => second (change state) (holds state start)

lemma Triple.modify {change : State → State} {done : Unit → State → Prop}
    (holds : ∀ state, before state → done () (change state)) :
      Triple before (modify change : Act State Error Unit) done failed :=
  holds

/-- The rule of consequence. -/
lemma Triple.weaken {earlier : State → Prop} {later : Result → State → Prop}
    {worse : Error → State → Prop}
    (triple : Triple before act after failed) (pre : ∀ state, earlier state → before state)
    (post : ∀ result state, after result state → later result state)
    (error : ∀ problem state, failed problem state → worse problem state) :
      Triple earlier act later worse := by
  intro state start
  have reached := triple state (pre state start)
  generalize perform act state = outcome at reached
  obtain ⟨result, next⟩ := outcome
  cases result with
  | ok result => exact post result next reached
  | error problem => exact error problem next reached

/-- A computation from a state that meets the precondition. -/
lemma Triple.at (triple : Triple before act after failed) {state : State} (start : before state) :
    Triple (fun same => same = state) act after failed := by
  refine triple.weaken (fun same equal => ?_) (fun _ _ => id) fun _ _ => id
  rw [equal]
  exact start

/-- A condition that results and errors leave alike holds in the last state. -/
lemma Triple.either {kept : State → Prop} (triple : Triple before act (fun _ => kept) fun _ => kept)
    {state : State} (start : before state) : kept (perform act state).2 := by
  have reached := triple state start
  generalize perform act state = outcome at reached ⊢
  obtain ⟨_ | _, _⟩ := outcome <;> exact reached

/-- A precondition with a part that does not depend on the state. -/
lemma Triple.assume {claim : Prop} (triple : claim → Triple before act after failed) :
    Triple (fun state => before state ∧ claim) act after failed :=
  fun state start => triple start.2 state start.1

end Effect
