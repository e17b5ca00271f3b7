/- This is `killgrp_info` from `kernel/sched/signal.c` with the result of `kill`. The allocation
succeeds. -/

import Mathlib.Tactic

namespace KosKernel.Sched
open List
variable {Task : Type} [DecidableEq Task]

/-- The signalled tasks, those whose reference was dropped, `temp` and `result`. -/
structure KillRun (Task : Type) where
  killed : List Task
  released : List Task
  temp : Bool
  result : Nat

/-- A group with its `tp_group` list, and the tasks that can be referenced and signalled. -/
structure TaskGroup (Task : Type) where
  leader : Task
  tpGroup : List Task
  alive : Task → Bool
  permitted : Task → Bool

namespace TaskGroup
variable (group : TaskGroup Task) (memory buf : Nat → Task)

def others : List Task := group.tpGroup.filter (· ≠ group.leader)

def killNext (run : KillRun Task) (iter : Task) : KillRun Task where
  killed := if run.temp && group.permitted iter then run.killed ++ [iter] else run.killed
  released := run.released ++ [iter]
  temp := run.temp && group.permitted iter
  result := run.result + 1

/-- The loop that goes back from `dst` to `buf` and reads `*dst` before it moves. -/
def killLoop : Nat → KillRun Task → KillRun Task
  | 0, run => run
  | dst + 1, run => killLoop dst (group.killNext run (buf (dst + 1)))

/-- This is `killgrp_info`, over the old contents of the memory from `buf` on. -/
def killgrpInfo : KillRun Task × Option Nat :=
  if group.permitted group.leader then
    let taken := group.others.filter group.alive
    let run := group.killLoop (fun index => taken[index]?.getD (memory index)) taken.length
      ⟨[group.leader], [], true, 1⟩
    (run, if run.temp then some run.result else none)
  else (⟨[], [], false, 1⟩, none)

/-- This is the result of `kill` for the group. -/
def kill : Option Nat := (group.killgrpInfo memory).2.map fun result => if 1 < result then 0 else result

/-- All members got the signal once, and references and results are right. -/
def Reaches : Prop :=
  (group.killgrpInfo memory).1.killed ~ group.leader :: group.others ∧
    (group.killgrpInfo memory).1.released ~ group.others ∧
    (group.killgrpInfo memory).2 = some (group.killgrpInfo memory).1.killed.length ∧
      group.kill memory = some 0

/-- The tasks that the loop reads. -/
def visited : Nat → List Task
  | 0 => []
  | dst + 1 => buf (dst + 1) :: visited dst

variable {group} {memory} {buf}
omit [DecidableEq Task]

lemma killLoop_released (dst : Nat) (run : KillRun Task) :
    (group.killLoop buf dst run).released = run.released ++ visited buf dst := by
  induction dst generalizing run with
  | zero => simp [killLoop, visited]
  | succ dst ih => simp [killLoop, visited, ih, killNext]

/-- If all tasks may be signalled, all tasks get the signal and are counted. -/
lemma killLoop_permitted (dst : Nat) (killed released : List Task) (result : Nat)
    (all : ∀ task ∈ visited buf dst, group.permitted task = true) :
    group.killLoop buf dst ⟨killed, released, true, result⟩ =
      ⟨killed ++ visited buf dst, released ++ visited buf dst, true, result + dst⟩ := by
  induction dst generalizing killed released result with
  | zero => simp [killLoop, visited]
  | succ dst ih =>
    have here : group.permitted (buf (dst + 1)) = true := all _ mem_cons_self
    have next := ih (killed ++ [buf (dst + 1)]) (released ++ [buf (dst + 1)]) (result + 1)
      fun task mem => all task (mem_cons_of_mem _ mem)
    simp [killLoop, killNext, here, next, visited, Nat.add_comm, Nat.add_left_comm]

/-- The loop starts behind the filled part and never reads its first task. -/
lemma visited_filled (memory : Nat → Task) (first : Task) (rest : List Task) :
    visited (fun index => (first :: rest)[index]?.getD (memory index)) (rest.length + 1) =
      memory (rest.length + 1) :: rest.reverse := by
  have inner : ∀ dst ≤ rest.length,
      visited (fun index => (first :: rest)[index]?.getD (memory index)) dst =
        (rest.take dst).reverse := by
    intro dst inside
    induction dst with
    | zero => rfl
    | succ dst ih =>
      rw [visited, ih (by omega), ← take_append_getElem inside, reverse_append]
      simp [inside]
  rw [visited, inner _ le_rfl]
  simp

/-- The group is reached exactly if the word behind the filled part is the first other member. -/
theorem killgrpInfo_reaches_iff [DecidableEq Task] (group : TaskGroup Task) (memory : Nat → Task)
    (members : ∀ task ∈ group.leader :: group.tpGroup, group.alive task = true ∧
      group.permitted task = true) :
    group.Reaches memory ↔ group.others.head? = some (memory group.others.length) := by
  have taken : group.others.filter group.alive = group.others :=
    filter_eq_self.mpr fun task mem => (members task (mem_cons_of_mem _ (mem_of_mem_filter mem))).1
  have allowed : ∀ task ∈ group.others, group.permitted task = true :=
    fun task mem => (members task (mem_cons_of_mem _ (mem_of_mem_filter mem))).2
  rw [Reaches, kill, killgrpInfo, if_pos (members _ mem_cons_self).2, taken]
  dsimp only
  rcases list : group.others with _ | ⟨first, rest⟩
  · simp [killLoop]
  rw [list] at allowed
  have reads := visited_filled memory first rest
  have moved : memory (rest.length + 1) :: rest.reverse ~ first :: rest ↔
    first = memory (rest.length + 1) := by
    rw [((reverse_perm rest).cons _).congr_left, ← Multiset.coe_eq_coe, ← Multiset.cons_coe,
      ← Multiset.cons_coe, Multiset.cons_inj_left, eq_comm]
  constructor
  · rintro ⟨_, released, _⟩
    rw [length_cons, killLoop_released, reads, nil_append, moved] at released
    rw [head?_cons, length_cons, released]
  · intro behind
    rw [head?_cons, Option.some.injEq] at behind
    have order := moved.mpr behind
    rw [length_cons, killLoop_permitted, reads]
    · exact ⟨order.cons _, order, by simp; omega, by simp⟩
    · rw [reads]
      exact fun task mem => allowed task (order.subset mem)

/-- Two members and a word behind them that repeats the first one. -/
theorem killgrpInfo_reaches_pair :
    (⟨0, [0, 1], fun _ => true, fun _ => true⟩ : TaskGroup Nat).Reaches fun _ => 1 :=
  (killgrpInfo_reaches_iff _ _ (by simp)).mpr (by decide)

/-- The signal goes to the task behind the buffer and not to the first other member. -/
theorem killgrpInfo_reaches_fails :
    ¬(⟨0, [0, 1, 2], fun _ => true, fun _ => true⟩ : TaskGroup Nat).Reaches fun _ => 7 :=
  fun reached => absurd reached.1 (by decide)

end TaskGroup

end KosKernel.Sched
