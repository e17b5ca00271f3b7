/- This file embeds `cpu_sched_rotate` from `kernel/sched/task.c`. -/

import Mathlib.Logic.Function.Iterate

namespace KosKernel.Sched
open Function Nat

/-- The ring `c_running` with the priorities of its tasks and `c_prio_max`. -/
structure RunRing (Task : Type) where
  next : Task → Task
  priority : Task → UInt8
  prioMax : UInt8

/-- The fields that `cpu_sched_rotate` writes. -/
structure Turn (Task : Type) where
  prioscore : Task → UInt8
  running : Task

namespace RunRing
variable {Task : Type} [DecidableEq Task]

/-- The decrement of `t_prioscore` wraps around. -/
def decrement (score : Task → UInt8) (task : Task) : Task → UInt8 := update score task (score task - 1)

/-- This is the loop of `cpu_sched_rotate`. -/
def skip (ring : RunRing Task) : Nat → (Task → UInt8) → Task → Option (Turn Task)
  | 0, _, _ => none
  | fuel + 1, score, newTask =>
    if score newTask = 0 then some ⟨decrement score newTask, newTask⟩
    else skip ring fuel (decrement score newTask) (ring.next newTask)

/-- This is `cpu_sched_rotate`. -/
def schedRotate (ring : RunRing Task) (fuel : Nat) (turn : Turn Task) : Option (Turn Task) :=
  (ring.skip fuel turn.prioscore (ring.next turn.running)).map fun ⟨score, newTask⟩ =>
    ⟨update score newTask (ring.prioMax - ring.priority newTask), newTask⟩

/-- A call of `cpu_sched_rotate` returns. -/
def Rotates (ring : RunRing Task) (turn after : Turn Task) : Prop :=
  ∃ fuel, ring.schedRotate fuel turn = some after

variable (ring : RunRing Task)

/-- The links `re_next` lead from each task to each other task of a ring of `count` tasks. -/
def Closed (count : Nat) : Prop := ∀ start task, ∃ steps < count, ring.next^[steps] start = task

/-- No score is above `c_prio_max - t_priority`. -/
def Scored (score : Task → UInt8) : Prop :=
  ∀ task, (score task).toNat + (ring.priority task).toNat ≤ ring.prioMax.toNat

/-- The potential of the task is below the bound while the loop looks at the task `current`. -/
def Due (count : Nat) (task : Task) (bound : Nat) (score : Task → UInt8) (current : Task) : Prop :=
  ∃ steps < count, ring.next^[steps] current = task ∧ (score task).toNat * count + steps < bound

variable {ring : RunRing Task} {count bound fuel : Nat} {task current : Task} {score : Task → UInt8}
  {turn after : Turn Task}

lemma decrement_toNat (positive : score current ≠ 0) :
    (decrement score current current).toNat + 1 = (score current).toNat := by
  have size := (score current).toNat_lt
  have nonzero : (score current).toNat ≠ 0 := fun zero => positive (UInt8.toNat_inj.mp zero)
  rw [decrement, update_self, UInt8.toNat_sub]
  simp only [UInt8.reduceToNat]
  omega

lemma decrement_of_ne (other : task ≠ current) : decrement score current task = score task :=
  update_of_ne other _ _

/-- What the loop keeps at each task that it passes holds when it stops. -/
lemma Rotates.rule {holds : (Task → UInt8) → Task → Prop} (rotates : ring.Rotates turn after)
    (passes : ∀ score task, holds score task → score task ≠ 0 →
      holds (decrement score task) (ring.next task))
    (start : holds turn.prioscore (ring.next turn.running)) : ∃ last, holds last after.running ∧
      after.prioscore = update last after.running (ring.prioMax - ring.priority after.running) := by
  obtain ⟨fuel, returns⟩ := rotates
  obtain ⟨stop, taken, rfl⟩ := Option.map_eq_some_iff.mp returns
  clear returns
  revert taken start
  generalize turn.prioscore = score, ring.next turn.running = current
  intro start taken
  induction fuel generalizing score current with
  | zero => cases taken
  | succ fuel ih =>
    rw [skip] at taken
    split at taken
    · cases taken
      exact ⟨score, start, update_idem _ _ _⟩
    · next positive => exact ih _ _ (passes score current start positive) taken

/-- The potential falls with each task that the loop passes. -/
lemma due_step (closed : ring.Closed count) (due : ring.Due count task (bound + 1) score current)
    (passes : current = task → score current ≠ 0) :
    ring.Due count task bound (decrement score current) (ring.next current) := by
  obtain ⟨steps, within, reaches, less⟩ := due
  by_cases here : current = task
  · subst here
    obtain ⟨again, short, back⟩ := closed (ring.next current) current
    refine ⟨again, short, back, ?_⟩
    rw [← decrement_toNat (passes rfl), succ_mul] at less
    omega
  · cases steps with
    | zero => exact absurd reaches here
    | succ steps =>
      refine ⟨steps, by omega, reaches, ?_⟩
      rw [decrement_of_ne (Ne.symm here)]
      omega

omit [DecidableEq Task] in
lemma not_due_zero : ¬ ring.Due count task 0 score current :=
  fun ⟨_, _, _, less⟩ => not_lt_zero _ less

/-- The loop ends before the potential is used up. -/
lemma skip_isSome (closed : ring.Closed count) (due : ring.Due count task bound score current) :
    (ring.skip bound score current).isSome := by
  induction bound generalizing score current with
  | zero => exact absurd due not_due_zero
  | succ bound ih =>
    rw [skip]
    split
    · rfl
    · next positive => exact ih (due_step closed due fun _ => positive)

/-- A call takes the task or lowers its potential. -/
lemma Rotates.due (closed : ring.Closed count) (rotates : ring.Rotates turn after)
    (due : ring.Due count task (bound + 1) turn.prioscore (ring.next turn.running)) :
    after.running = task ∨ ring.Due count task bound after.prioscore (ring.next after.running) := by
  obtain ⟨last, stops, equal⟩ := rotates.rule (fun score current due positive => by
    obtain ⟨steps, within, reaches, less⟩ := due_step closed due fun _ => positive
    exact ⟨steps, within, reaches, lt_succ_of_lt less⟩) due
  by_cases here : after.running = task
  · exact .inl here
  · have later := due_step closed stops fun equal => absurd equal here
    rw [Due, decrement_of_ne (Ne.symm here)] at later
    rw [Due, equal, update_of_ne (Ne.symm here)]
    exact .inr later

/-- A call keeps the bound of the scores. -/
lemma Rotates.scored (rotates : ring.Rotates turn after) (scored : ring.Scored turn.prioscore) :
    ring.Scored after.prioscore := by
  obtain ⟨last, bounded, equal⟩ :=
    rotates.rule (fun score current (scored : ring.Scored score) positive task => by
    have before := scored task
    by_cases here : task = current
    · subst here
      have step := decrement_toNat positive
      omega
    · rwa [decrement_of_ne here]) scored
  intro task
  have before := bounded task
  rw [equal]
  by_cases here : task = after.running
  · subst here
    rw [update_self, UInt8.toNat_sub_of_le _ _ (UInt8.le_iff_toNat_le.mpr (by omega))]
    omega
  · rwa [update_of_ne here]

/-- A task is taken by one of as many calls as its potential. -/
lemma run_takes (closed : ring.Closed count) (turns : Nat → Turn Task)
    (rotates : ∀ call, ring.Rotates (turns call) (turns (call + 1)))
    (due : ring.Due count task bound (turns 0).prioscore (ring.next (turns 0).running)) :
    ∃ call, 0 < call ∧ call ≤ bound ∧ (turns call).running = task := by
  induction bound generalizing turns with
  | zero => exact absurd due not_due_zero
  | succ bound ih =>
    obtain here | later := (rotates 0).due closed due
    · exact ⟨1, Nat.one_pos, Nat.le_add_left 1 bound, here⟩
    · obtain ⟨call, positive, within, taken⟩ :=
        ih (fun call => turns (call + 1)) (fun call => rotates (call + 1)) later
      exact ⟨call + 1, succ_pos call, succ_le_succ within, taken⟩

/-- A task of priority `p` is taken by one of `(c_prio_max - p + 1) * count` calls. -/
theorem schedRotate_fair (ring : RunRing Task) (count : Nat) (closed : ring.Closed count)
    (turn : Turn Task) (scored : ring.Scored turn.prioscore) :
    (∃ after, ring.Rotates turn after) ∧
    (∀ after, ring.Rotates turn after → ring.Scored after.prioscore) ∧
      ∀ turns : Nat → Turn Task, turns 0 = turn →
      (∀ call, ring.Rotates (turns call) (turns (call + 1))) →
        ∀ start task, ∃ call, start < call ∧
          call ≤ start + (ring.prioMax.toNat - (ring.priority task).toNat + 1) * count ∧
          (turns call).running = task := by
  refine ⟨?_, fun after rotates => rotates.scored scored, fun turns first rotates start task => ?_⟩
  · obtain ⟨steps, within, reaches⟩ := closed (ring.next turn.running) turn.running
    have ends := skip_isSome closed ⟨steps, within, reaches,
      lt_succ_self ((turn.prioscore _).toNat * count + steps)⟩
    obtain ⟨taken, ends⟩ := Option.isSome_iff_exists.mp ends
    exact ⟨_, _, congrArg (Option.map _) ends⟩
  · have bounded : ring.Scored (turns start).prioscore := by
      induction start with
      | zero => exact first ▸ scored
      | succ call ih => exact (rotates call).scored ih
    obtain ⟨steps, within, reaches⟩ := closed (ring.next (turns start).running) task
    have product := mul_le_mul_right count (le_sub_of_add_le (bounded task))
    obtain ⟨call, positive, fits, taken⟩ := run_takes closed (fun call => turns (start + call))
      (fun call => rotates (start + call)) ⟨steps, within, reaches, Nat.lt_of_lt_of_le
        (Nat.add_lt_add_of_le_of_lt product within) (Nat.le_of_eq (Nat.succ_mul _ _).symm)⟩
    exact ⟨start + call, Nat.lt_add_of_pos_right positive, Nat.add_le_add_left fits start, taken⟩

/-- Two tasks of the priorities 3 and 5 run for ever, the first one at least once in six calls. -/
theorem schedRotate_fair_pair : let ring : RunRing Bool := ⟨not, fun task => cond task 3 5, 5⟩
    ∃ turns : Nat → Turn Bool, turns 0 = ⟨fun task => cond task 2 0, false⟩ ∧
      (∀ call, ring.Rotates (turns call) (turns (call + 1))) ∧
      ∀ start, ∃ call, start < call ∧ call ≤ start + 6 ∧ (turns call).running = true := by
  intro ring
  have fair := schedRotate_fair ring 2 (by unfold Closed; decide)
  have follows : ∀ turn : {turn : Turn Bool // ring.Scored turn.prioscore},
      ∃ after : {turn : Turn Bool // ring.Scored turn.prioscore}, ring.Rotates turn.1 after.1 := by
    rintro ⟨turn, scored⟩
    obtain ⟨⟨after, rotates⟩, kept, _⟩ := fair turn scored
    exact ⟨⟨after, kept after rotates⟩, rotates⟩
  obtain ⟨next, rotates⟩ := Classical.skolem.mp follows
  have scored : ring.Scored fun task => cond task 2 0 := by unfold Scored; decide
  let first : {turn : Turn Bool // ring.Scored turn.prioscore} :=
    ⟨⟨fun task => cond task 2 0, false⟩, scored⟩
  have runs : ∀ call, ring.Rotates (next^[call] first).1 (next^[call + 1] first).1 := by
    intro call
    rw [iterate_succ_apply']
    exact rotates _
  exact ⟨fun call => (next^[call] first).1, rfl, runs,
    fun start => (fair _ scored).2.2 _ rfl runs start true⟩

end RunRing

end KosKernel.Sched
