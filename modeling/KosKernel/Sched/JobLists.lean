/- The deletion of the jobs of an instance from the lists of a CPU in `kernel/sched/task.c`, without
the worker task. -/

import KosKernel.Library.LinkList

namespace KosKernel.Sched
open LinkList List Function

/-- The two job lists of a CPU. -/
inductive JobList where
  | cpuJobs
  | cpuDelayJobs
  deriving DecidableEq

/-- The links of the jobs, the jobs with a `le_pself`, the owners of the jobs and `cpu_jobs_end`. -/
structure CpuJobs (Instance : Type) where
  links : Links JobList
  scheduled : Nat → Bool
  jOwner : Nat → Instance
  cpuJobsEnd : Option Nat

namespace CpuJobs
variable {Instance : Type} [DecidableEq Instance] (inst : Instance)

/-- The loop of `jobs_delete_in_chain`, with a bound on its turns. -/
def jobsDeleteInChain (jOwner : Nat → Instance) : Nat → Link JobList → Links JobList → Links JobList
  | 0, _, links => links
  | turns + 1, piter, links =>
    match links.target piter with
    | none => links
    | some iter =>
      if jOwner iter = inst then
        jobsDeleteInChain jOwner turns piter
          { links with target := update links.target piter (links.target (.next iter)) }
      else jobsDeleteInChain jOwner turns (.next iter) links

/-- The loop to the last job of the chain. -/
def chainEnd (links : Links JobList) : Nat → Option Nat → Option Nat
  | turns + 1, some iter =>
    match links.target (.next iter) with
    | none => some iter
    | some next => chainEnd links turns (some next)
  | _, iter => iter

def jobsDeleteFromInstance (turns : Nat) (jobs : CpuJobs Instance) : CpuJobs Instance :=
  let links := jobsDeleteInChain inst jobs.jOwner turns (.head .cpuJobs) jobs.links
  let links := jobsDeleteInChain inst jobs.jOwner turns (.head .cpuDelayJobs) links
  { jobs with links, cpuJobsEnd := chainEnd links turns (links.target (.head .cpuJobs)) }

/-- The lists have these jobs in this order, and exactly these jobs are scheduled. -/
structure Lists (jobs : CpuJobs Instance) (listed : JobList → List Nat) : Prop where
  chain : ∀ list, Chain jobs.links (.head list) (listed list)
  scheduled : ∀ job, jobs.scheduled job = true ↔ ∃ list, job ∈ listed list
  jobsEnd : jobs.cpuJobsEnd = (listed .cpuJobs).getLast?

variable {inst} {links : Links JobList} {link : Link JobList} {nodes : List Nat} {turns : Nat}

lemma jobsDeleteInChain_foreign {jOwner : Nat → Instance} (chain : Chain links link nodes)
    (foreign : ∀ job ∈ nodes, jOwner job ≠ inst) :
      jobsDeleteInChain inst jOwner turns link links = links := by
  induction nodes generalizing link turns with
  | nil => cases turns <;> simp [jobsDeleteInChain, chain.target]
  | cons job rest ih =>
    obtain _ | turns := turns
    · rfl
    simp [jobsDeleteInChain, chain.1, foreign job mem_cons_self, ih chain.2.2 fun other mem =>
      foreign other (mem_cons_of_mem _ mem)]

lemma chainEnd_chain (chain : Chain links link nodes) (enough : nodes.length ≤ turns) :
    chainEnd links turns (links.target link) = nodes.getLast? := by
  induction nodes generalizing link turns with
  | nil => simp [chainEnd, chain.target]
  | cons job rest ih =>
    obtain _ | turns := turns
    · cases enough
    have follows : chainEnd links turns (links.target (.next job)) = rest.getLast? :=
      ih chain.2.2 (Nat.le_of_succ_le_succ enough)
    cases rest with
    | nil => simp [chainEnd, chain.1, chain.2.2.target]
    | cons next others =>
      rw [chain.2.2.1] at follows
      simp [chainEnd, chain.1, chain.2.2.1, follows, getLast?_cons_cons]

/-- The lists stay right exactly if no job on them belongs to the instance. -/
theorem jobsDeleteFromInstance_lists_iff (jobs : CpuJobs Instance) (inst : Instance)
    (listed : JobList → List Nat) (turns : Nat)
    (before : jobs.Lists listed) (enough : ∀ list, (listed list).length ≤ turns) :
    (jobsDeleteFromInstance inst turns jobs).Lists
      (fun list => (listed list).filter (jobs.jOwner · ≠ inst)) ↔
      ∀ list, ∀ job ∈ listed list, jobs.jOwner job ≠ inst := by
  constructor
  · intro after list job mem owned
    obtain ⟨other, kept⟩ := (after.scheduled job).mp ((before.scheduled job).mpr ⟨list, mem⟩)
    simp [owned] at kept
  · intro foreign
    have kept : ∀ list, (listed list).filter (jobs.jOwner · ≠ inst) = listed list :=
      fun list => filter_eq_self.mpr fun job mem => by simp [foreign list job mem]
    have same : ∀ list, jobsDeleteInChain inst jobs.jOwner turns (.head list) jobs.links = jobs.links :=
      fun list => jobsDeleteInChain_foreign (before.chain list) (foreign list)
    simp only [jobsDeleteFromInstance, kept, same]
    exact ⟨before.chain, before.scheduled, chainEnd_chain (before.chain _) (enough _)⟩

/-- One job in the list `cpu_jobs`. -/
def oneJob : CpuJobs Nat where
  links := { target := fun link => if link = .head .cpuJobs then some 0
    else none, self := fun _ => .head .cpuJobs }
  scheduled := (· = 0)
  jOwner := id
  cpuJobsEnd := some 0

def oneListed : JobList → List Nat
  | .cpuJobs => [0]
  | .cpuDelayJobs => []

lemma oneJob_lists : oneJob.Lists oneListed where
  chain
    | .cpuJobs => ⟨rfl, rfl, rfl⟩
    | .cpuDelayJobs => rfl
  scheduled job := by
    constructor
    · intro scheduled
      exact ⟨.cpuJobs, by simpa [oneJob, oneListed] using scheduled⟩
    · rintro ⟨_ | _, mem⟩ <;> simp_all [oneJob, oneListed]
  jobsEnd := rfl

/-- Two jobs in each of the lists, with owners of their own. -/
def fourJobs : CpuJobs Nat where
  links := {
    target := fun
      | .head .cpuJobs => some 0
      | .next 0 => some 1
      | .head .cpuDelayJobs => some 2
      | .next 2 => some 3
      | _ => none
    self := fun
      | 1 => .next 0
      | 2 => .head .cpuDelayJobs
      | 3 => .next 2
      | _ => .head .cpuJobs }
  scheduled := (· < 4)
  jOwner := id
  cpuJobsEnd := some 1

def fourListed : JobList → List Nat
  | .cpuJobs => [0, 1]
  | .cpuDelayJobs => [2, 3]

lemma fourJobs_lists : fourJobs.Lists fourListed where
  chain
    | .cpuJobs => ⟨rfl, rfl, rfl, rfl, rfl⟩
    | .cpuDelayJobs => ⟨rfl, rfl, rfl, rfl, rfl⟩
  scheduled job := by
    constructor
    · intro scheduled
      obtain low | high : job < 2 ∨ 2 ≤ job := by omega
      · exact ⟨.cpuJobs, by simp only [fourListed, mem_cons, not_mem_nil]; omega⟩
      · have below : job < 4 := of_decide_eq_true scheduled
        exact ⟨.cpuDelayJobs, by simp only [fourListed, mem_cons, not_mem_nil]; omega⟩
    · rintro ⟨_ | _, mem⟩ <;> fin_cases mem <;> decide
  jobsEnd := rfl

/-- The instance owns none of the jobs. -/
theorem jobsDeleteFromInstance_lists_other :
    (jobsDeleteFromInstance 9 2 fourJobs).Lists fun list => (fourListed list).filter
      (fourJobs.jOwner · ≠ 9) :=
  (jobsDeleteFromInstance_lists_iff fourJobs 9 fourListed 2 fourJobs_lists
    (by rintro (_ | _) <;> decide)).mpr
    (by rintro (_ | _) <;> decide)

/-- A removed job still counts as scheduled. -/
theorem jobsDeleteFromInstance_lists_fails :
    ¬ (jobsDeleteFromInstance 0 1 oneJob).Lists
      fun list => (oneListed list).filter (oneJob.jOwner · ≠ 0) := by
  intro after
  obtain ⟨_ | _, mem⟩ := (after.scheduled 0).mp rfl <;> simp [oneListed, oneJob] at mem

end CpuJobs

end KosKernel.Sched
