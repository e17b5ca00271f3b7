/- The scheduling of jobs in `kernel/sched/task.c`, for owners that are not unloading. -/

import KosKernel.Library.StepRun
import Mathlib.Tactic

namespace KosKernel.Sched
open List Function StepRun

/-- The modes of the worker task. -/
inductive WorkerMode where
  | running
  | sleeping (timeout : Nat)
  | suspended

namespace WorkerMode

/-- A worker that does not run sleeps until the first delayed job. -/
def retimed (timeout : Nat) : WorkerMode → WorkerMode
  | running => running
  | _ => sleeping timeout

/-- The assertion about a new first job. -/
def asserted (timeout : Nat) : WorkerMode → Bool
  | sleeping before => before < timeout
  | _ => true

end WorkerMode

/-- The job lists of a CPU, the times that were asked for, and what the worker executed. -/
structure JobWorker where
  cpuJobs : List Nat
  cpuDelayJobs : List Nat
  jTime : Nat → Nat
  due : Nat → Nat
  mode : WorkerMode
  executed : List Nat

inductive JobCall where
  | work (job : Nat)
  | delayedWork (job absExectime : Nat)
  | wakeup (now : Nat)
  | turn

namespace JobWorker
variable (self : JobWorker) (job absExectime now : Nat)

/-- The test of `le_pself`. -/
def Scheduled : Prop := job ∈ self.cpuJobs ∨ job ∈ self.cpuDelayJobs

instance : Decidable (self.Scheduled job) := inferInstanceAs (Decidable (_ ∨ _))

def scheduleWork : JobWorker :=
  if self.Scheduled job then self
  else { self with
    cpuJobs := self.cpuJobs ++ [job], due := update self.due job 0
    mode := if self.cpuJobs = [] then .running else self.mode }

/-- A pending job goes back over jobs that are not earlier than itself, and its time stays. -/
def reinsert : JobWorker :=
  let before := (self.cpuDelayJobs.takeWhile (· ≠ job)).reverse
  let later : Nat → Bool := fun iter => self.jTime job ≤ self.jTime iter
  let sooner := (before.dropWhile later).reverse
  { self with
    cpuDelayJobs := sooner ++ job :: (before.takeWhile later).reverse ++
      (self.cpuDelayJobs.dropWhile (· ≠ job)).tail
    due := update self.due job absExectime
    mode := if sooner = [] then self.mode.retimed absExectime else self.mode }

/-- This is `schedule_delayed_work_j`. An earlier time for a job without a timeout is illegal. -/
def scheduleDelayedWork : Option JobWorker :=
  if self.Scheduled job then
    if absExectime < self.jTime job then
      if job ∈ self.cpuJobs then none else some (self.reinsert job absExectime)
    else some self
  else
    let sooner : Nat → Bool := fun iter => self.jTime iter ≤ absExectime
    let before := self.cpuDelayJobs.takeWhile sooner
    if before = [] ∧ ¬self.mode.asserted absExectime then none
    else some { self with
      jTime := update self.jTime job absExectime, due := update self.due job absExectime
      cpuDelayJobs := before ++ job :: self.cpuDelayJobs.dropWhile sooner
      mode := if before = [] then self.mode.retimed absExectime else self.mode }

/-- A turn of `cpu_jobworker`. -/
def turn : JobWorker :=
  match self.mode, self.cpuJobs, self.cpuDelayJobs with
  | .running, job :: rest, _ => { self with cpuJobs := rest, executed := self.executed ++ [job] }
  | .running, [], first :: _ => { self with mode := .sleeping (self.jTime first) }
  | .running, [], [] => { self with mode := .suspended }
  | _, _, _ => self

/-- The timeout of a sleeping worker wakes it. -/
def wakeup : JobWorker :=
  match self.mode with
  | .sleeping timeout => if timeout ≤ now then { self with mode := .running } else self
  | _ => self

def step : JobCall → Option JobWorker
  | .work job => some (self.scheduleWork job)
  | .delayedWork job absExectime => self.scheduleDelayedWork job absExectime
  | .wakeup now => some (self.wakeup now)
  | .turn => some self.turn

def init : JobWorker := ⟨[], [], fun _ => 0, fun _ => 0, .suspended, []⟩

/-- The delayed jobs are sorted by their right times, and the worker executes each job once. -/
structure Delivers (worker : JobWorker) : Prop where
  sorted : worker.cpuDelayJobs.Pairwise fun first second => worker.jTime first ≤ worker.jTime second
  moved : ∀ job ∈ worker.cpuDelayJobs, worker.jTime job = worker.due job
  executes : ∀ job now, worker.Scheduled job → worker.due job ≤ now →
    ∃ turns, ¬(turn^[turns] (worker.wakeup now)).Scheduled job ∧
      (turn^[turns] (worker.wakeup now)).executed.count job = worker.executed.count job + 1

/-- No job gets a timeout, and a call that asks for one is refused. -/
def Immediate (self : JobWorker) : JobCall → Prop
  | .delayedWork job absExectime => self.Scheduled job ∧ self.jTime job ≤ absExectime
  | _ => True

structure Ready (worker : JobWorker) : Prop where
  delayed : worker.cpuDelayJobs = []
  distinct : worker.cpuJobs.Nodup
  awake : worker.cpuJobs ≠ [] → worker.mode = .running

variable {self}

lemma turns_executed (self : JobWorker) (awake : self.mode = .running) :
    turn^[self.cpuJobs.length] self =
      { self with cpuJobs := [], executed := self.executed ++ self.cpuJobs } := by
  obtain ⟨jobs, delayed, times, due, mode, executed⟩ := self
  induction jobs generalizing executed with
  | nil => simp
  | cons job rest ih =>
    have next := ih (executed ++ [job]) awake
    cases awake
    rw [length_cons, iterate_succ_apply, turn]
    simpa using next

lemma Ready.delivers (ready : self.Ready) : self.Delivers := by
  refine ⟨by simp [ready.delayed], by simp [ready.delayed], fun job now scheduled _ => ?_⟩
  have mem : job ∈ self.cpuJobs := by simpa [Scheduled, ready.delayed] using scheduled
  have awake := ready.awake (ne_nil_of_mem mem)
  refine ⟨self.cpuJobs.length, ?_⟩
  rw [wakeup, awake, turns_executed self awake]
  simp [Scheduled, ready.delayed, count_eq_one_of_mem ready.distinct mem]

lemma Ready.step (ready : self.Ready) {call : JobCall} (immediate : self.Immediate call) :
    ∃ next, self.step call = some next ∧ next.Ready := by
  obtain ⟨delayed, distinct, awake⟩ := ready
  cases call with
  | work job =>
    refine ⟨_, rfl, ?_⟩
    rw [scheduleWork]
    split
    · exact ⟨delayed, distinct, awake⟩
    next new =>
    refine ⟨delayed, concat_eq_append ▸ distinct.concat fun mem => new (.inl mem), fun _ => ?_⟩
    split
    · rfl
    next some => exact awake some
  | delayedWork job absExectime =>
    exact ⟨self, by simp [JobWorker.step, scheduleDelayedWork, immediate.1,
      Nat.not_lt.mpr immediate.2], delayed, distinct, awake⟩
  | wakeup now =>
    refine ⟨_, rfl, ?_⟩
    rw [wakeup]
    repeat' split
    exacts [⟨delayed, distinct, fun _ => rfl⟩, ⟨delayed, distinct, awake⟩, ⟨delayed, distinct, awake⟩]
  | turn =>
    refine ⟨_, rfl, ?_⟩
    rw [turn]
    split
    next job rest runs jobs =>
      rw [jobs] at distinct
      exact ⟨delayed, distinct.of_cons, fun _ => runs⟩
    next jobs _ => exact ⟨delayed, distinct, absurd jobs⟩
    next jobs _ => exact ⟨delayed, distinct, absurd jobs⟩
    · exact ⟨delayed, distinct, awake⟩

lemma turns_delayed (turns : Nat) : (turn^[turns] self).cpuDelayJobs = self.cpuDelayJobs := by
  induction turns generalizing self with
  | zero => rfl
  | succ turns ih =>
    rw [iterate_succ_apply, ih, turn]
    split <;> rfl

end JobWorker

end KosKernel.Sched
