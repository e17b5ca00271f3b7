/- The queue of a signal from `kernel/sched/task.c`, for tasks that wait in their slot `ts_first`
and push no wait set. -/

import KosKernel.Library.LinkList
import KosKernel.Library.StepRun

namespace KosKernel.Sched
open LinkList Function List StepRun

/-- The chain of the signal with the fields `s_task`, `le_next` and `le_pself`. -/
structure WaitQueue where
  links : Links Unit
  linked : Nat → Bool
  tssSig : Nat → Bool
  tssLast : Nat → Option Nat
  tsRecv : Nat → Bool

/-- The calls that take the lock of the signal. -/
inductive WaitCall where
  | addwait (task : Nat)
  | waitforClr (task : Nat)
  | clrwait (task : Nat)
  | send (maxThreads : Nat)

namespace WaitQueue

/-- No task waits. -/
def init : WaitQueue where
  links := ⟨fun _ => none, fun _ => .head ()⟩
  linked := fun _ => false
  tssSig := fun _ => false
  tssLast := fun _ => none
  tsRecv := fun _ => false

variable (debug : Bool) (self : WaitQueue)

/-- This is `sig_vsendone_unlocked` without data. -/
def vsendone : Option WaitQueue :=
  (self.links.target (.head ())).map fun slot =>
    let next := self.links.target (.next slot)
    let lasts :=
      match next with
      | none => self.tssLast
      | some next => update self.tssLast next (self.tssLast slot)
    { self with
      links := self.links.connect (.head ()) next
      linked := update self.linked slot false
      tssLast := if debug then update lasts slot none else lasts
      tsRecv := update self.tsRecv slot true }

/-- This is `sig_send`, with the number of tasks that it reached. -/
def send (debug : Bool) : Nat → WaitQueue → WaitQueue × Nat
  | 0, self => (self, 0)
  | maxThreads + 1, self =>
    match self.vsendone debug with
    | none => (self, 0)
    | some after =>
      let (after, count) := send debug maxThreads after
      (after, count + 1)

/-- This is `task_addwait`. -/
def addwait (task : Nat) : Option WaitQueue :=
  if self.tsRecv task || self.tssSig task then some self
  else
    let self :=
      { self with tssSig := update self.tssSig task true, linked := update self.linked task true }
    match self.links.target (.head ()) with
    | none =>
      some { self with
        links := (self.links.connect (.next task) none).connect (.head ()) (some task)
        tssLast := update self.tssLast task (some task) }
    | some first =>
      let lasts := if debug then update self.tssLast task none else self.tssLast
      (lasts first).map fun last =>
        { self with
          links := (self.links.connect (.next task) (self.links.target (.next last))).connect
            (.next last) (some task)
          tssLast := update lasts first (some task) }

/-- This is `task_waitfor_clr` with `tasksigslot_list_remove_endwrite`. -/
def waitforClr (task : Nat) : WaitQueue :=
  if self.tssSig task then
    { self with
      tssSig := update self.tssSig task false
      links :=
        if self.linked task then self.links.connect
          (self.links.self task) (self.links.target (.next task)) else self.links }
  else self

/-- This is `task_clrwait`, with the flag that it received the signal. -/
def clrwait (task : Nat) : WaitQueue × Bool :=
  let self := self.waitforClr task
  ({ self with tsRecv := update self.tsRecv task false }, self.tsRecv task)

/-- The state after a call and the result of the call as a number. -/
def perform : WaitCall → Option (WaitQueue × Nat)
  | .addwait task => (self.addwait debug task).map fun after => (after, 0)
  | .waitforClr task => some (self.waitforClr task, 0)
  | .clrwait task => some ((self.clrwait task).1, (self.clrwait task).2.toNat)
  | .send maxThreads => some (send debug maxThreads self)

/-- A call in a run. -/
def step (call : WaitCall) : Option WaitQueue := (self.perform debug call).map Prod.fst

end WaitQueue

/-- The waiting tasks in their order, and those that received the signal. -/
structure Waiting where
  queue : List Nat
  received : Nat → Bool

namespace Waiting

/-- What a call does to the tasks that wait, and its result. -/
def perform (self : Waiting) : WaitCall → Waiting × Nat
  | .addwait task =>
    (if self.received task = true ∨
      task ∈ self.queue then self else { self with queue := self.queue ++ [task] }, 0)
  | .waitforClr task => ({ self with queue := self.queue.erase task }, 0)
  | .clrwait task => (⟨self.queue.erase task, update self.received task false⟩,
      (self.received task).toNat)
  | .send maxThreads =>
    (⟨self.queue.drop maxThreads, fun task => self.received task || decide
      (task ∈ self.queue.take maxThreads)⟩, min maxThreads self.queue.length)

/-- The tasks that wait after some calls. -/
def run (self : Waiting) (calls : List WaitCall) : Waiting :=
  calls.foldl (fun waiting call => (waiting.perform call).1) self

end Waiting

namespace WaitQueue
variable {debug : Bool} {self : WaitQueue} {waiting : Waiting}

/-- The chain holds the tasks that wait, and its first slot knows the last one. -/
structure Represents (queue : WaitQueue) (waiting : Waiting) : Prop where
  chain : Chain queue.links (.head ()) waiting.queue
  nodup : waiting.queue.Nodup
  member : ∀ task, task ∈ waiting.queue ↔ queue.tssSig task = true ∧ queue.tsRecv task = false
  received : queue.tsRecv = waiting.received
  linked : ∀ task, queue.tssSig task = true → queue.linked task = !queue.tsRecv task
  last : ∀ first, waiting.queue.head? = some first → queue.tssLast first = waiting.queue.getLast?

/-- A task that leaves is the only one, or neither the first nor the last one. -/
def Inner (self : WaitQueue) : WaitCall → Prop
  | .waitforClr task | .clrwait task => self.tssSig task = true → self.linked task = true →
      (self.links.target (.head ()) = some task ↔ self.links.target (.next task) = none)
  | _ => True

instance (self : WaitQueue) (call) : Decidable (self.Inner call) := by
  cases call <;> unfold Inner <;> infer_instance

lemma init_represents : init.Represents ⟨[], fun _ => false⟩ :=
  ⟨rfl, nodup_nil, by simp [init], rfl, by simp [init], by simp⟩

/-- One task receives the signal. -/
lemma vsendone_represents (debug : Bool) (ok : self.Represents waiting) {task : Nat} {rest : List Nat}
    (queue : waiting.queue = task :: rest) :
    ∃ after, self.vsendone debug = some after ∧
    after.Represents ⟨rest, update waiting.received task true⟩ := by
  have chain := ok.chain
  have nodup := ok.nodup
  rw [queue] at chain nodup
  obtain ⟨here, own, follows⟩ := chain
  have absent := (nodup_cons.mp nodup).1
  refine ⟨_, by rw [vsendone, here]; rfl, ?_, (nodup_cons.mp
    nodup).2, fun other => ?_, ?_, fun other signal => ?_, fun first head => ?_⟩
  · have removed : Chain (self.links.connect (self.links.self task)
      (self.links.target (.next task))) (.head ()) ([] ++ rest) :=
      chain_remove (queue ▸ ok.chain) (away_head () _) nodup
    rwa [own] at removed
  · dsimp only
    by_cases same : other = task
    · subst same
      simpa using absent
    · have old := ok.member other
      rw [queue, mem_cons, or_iff_right same] at old
      rw [update_of_ne same]
      exact old
  · exact congrArg (update · task true) ok.received
  · dsimp only at signal ⊢
    by_cases same : other = task
    · subst same
      simp
    · rw [update_of_ne same, update_of_ne same]
      exact ok.linked other signal
  · cases rest with
    | nil => exact absurd head (by simp)
    | cons second rest =>
      obtain rfl : second = first := Option.some.inj head
      have different : second ≠ task := fun same => absent (by simp [same])
      have last := ok.last task (by rw [queue]; rfl)
      rw [queue, List.getLast?_cons_cons] at last
      dsimp only
      rw [follows.1]
      dsimp only
      cases debug with
      | false => rw [if_neg Bool.false_ne_true, update_self, last]
      | true => rw [if_pos rfl, update_of_ne different, update_self, last]

/-- A signal reaches the first tasks of the queue. -/
lemma send_represents (maxThreads : Nat) (ok : self.Represents waiting) :
    (send debug maxThreads self).1.Represents (waiting.perform (.send maxThreads)).1 ∧
      (send debug maxThreads self).2 = (waiting.perform (.send maxThreads)).2 := by
  induction maxThreads generalizing self waiting with
  | zero =>
    refine ⟨?_, (Nat.zero_min _).symm⟩
    have same : (waiting.perform (.send 0)).1 = waiting := by
      cases waiting
      simp [Waiting.perform]
    rw [same]
    exact ok
  | succ maxThreads ih =>
    cases queue : waiting.queue with
    | nil =>
      have empty : self.vsendone debug = none := by
        rw [vsendone, ok.chain.target, queue]
        rfl
      have same : (waiting.perform (.send (maxThreads + 1))).1 = waiting := by
        cases waiting
        simp_all [Waiting.perform]
      rw [send, empty, same]
      exact ⟨ok, by simp [Waiting.perform, queue]⟩
    | cons task rest =>
      obtain ⟨after, sent, kept⟩ := vsendone_represents debug ok queue
      obtain ⟨later, count⟩ := ih kept
      have same : (waiting.perform (.send (maxThreads + 1))).1 =
          (Waiting.perform ⟨rest, update waiting.received task true⟩ (.send maxThreads)).1 := by
        simp only [Waiting.perform, queue, drop_succ_cons, take_succ_cons, Waiting.mk.injEq, true_and]
        funext other
        by_cases equal : other = task
        · subst equal
          simp
        · simp [equal]
      rw [send, sent]
      dsimp only
      rw [same, count]
      refine ⟨later, ?_⟩
      simp only [Waiting.perform, queue, length_cons]
      omega

/-- The link behind the last task. -/
lemma last_of_getLast? (link : Link Unit) {queue : List Nat} {task : Nat}
    (last : queue.getLast? = some task) :
    LinkList.last link queue = .next task := by
  obtain ⟨front, rfl⟩ := List.getLast?_eq_some_iff.mp last
  rw [last_append]
  rfl

/-- A new task is added behind the last one. -/
lemma addwait_represents (ok : self.Represents waiting) (task : Nat) :
    ∃ after, self.addwait debug task = some after ∧ after.Represents
      (waiting.perform (.addwait task)).1 := by
  by_cases known : waiting.received task = true ∨ task ∈ waiting.queue
  · have skipped : (self.tsRecv task || self.tssSig task) = true := by
      rw [Bool.or_eq_true, ok.received]
      exact known.imp_right fun mem => ((ok.member task).mp mem).1
    refine ⟨self, by rw [addwait, if_pos skipped], ?_⟩
    rw [Waiting.perform, if_pos known]
    exact ok
  · obtain ⟨fresh, absent⟩ := not_or.mp known
    have unreceived : self.tsRecv task = false := by rw [ok.received]; exact Bool.eq_false_iff.mpr fresh
    have unsignalled : self.tssSig task = false :=
      Bool.eq_false_iff.mpr fun signal => absent ((ok.member task).mpr ⟨signal, unreceived⟩)
    have nodup : (waiting.queue ++ [task]).Nodup :=
      nodup_append.mpr ⟨ok.nodup, nodup_singleton task, fun one first two second => by
        rw [mem_singleton.mp second]
        exact fun same => absent (same ▸ first)⟩
    have mem : ∀ other, other ∈ waiting.queue ++ [task] ↔
      update self.tssSig task true other = true ∧ self.tsRecv other = false := by
      intro other
      by_cases same : other = task
      · subst same
        simpa using unreceived
      · rw [mem_append, ok.member other]
        simp [same]
    have linked : ∀ other, update self.tssSig task true other = true →
      update self.linked task true other = !self.tsRecv other := by
      intro other
      by_cases same : other = task
      · subst same
        simp [unreceived]
      · rw [update_of_ne same, update_of_ne same]
        exact ok.linked other
    have inserted :
      Chain ((self.links.connect (.next task)
        (self.links.target (LinkList.last (.head ()) waiting.queue))).connect
        (LinkList.last (.head ()) waiting.queue) (some task)) (.head ()) (waiting.queue ++ [task]) :=
      chain_insert task (by rw [append_nil]; exact ok.chain) (away_head () _) nodup
    have started : (self.tsRecv task || self.tssSig task) = false := by rw [unreceived, unsignalled]; rfl
    rw [addwait, if_neg (by rw [started]; decide), Waiting.perform, if_neg known]
    dsimp only
    cases queue : waiting.queue with
    | nil =>
      have empty : self.links.target (.head ()) = none := by rw [ok.chain.target, queue]; rfl
      rw [queue] at inserted nodup mem
      rw [LinkList.last, empty] at inserted
      rw [empty]
      refine ⟨_, rfl, inserted, nodup, mem, ok.received, linked, fun first head => ?_⟩
      obtain rfl : task = first := Option.some.inj head
      exact update_self _ _ _
    | cons first rest =>
      have here : self.links.target (.head ()) = some first := by rw [ok.chain.target, queue]; rfl
      have different : first ≠ task := fun same => absent (by rw [queue]; simp [same])
      have last := ok.last first (by rw [queue]; rfl)
      obtain ⟨final, ends⟩ : ∃ final, waiting.queue.getLast? = some final := by
        rw [queue]
        exact ⟨_, List.getLast?_cons⟩
      rw [last_of_getLast? _ ends] at inserted
      rw [ends] at last
      rw [here]
      dsimp only
      have known :
          (if debug then update self.tssLast task none else self.tssLast) first = some final := by
        cases debug with
        | false => exact last
        | true => exact (update_of_ne different _ _).trans last
      rw [known]
      rw [queue] at inserted nodup mem
      refine ⟨_, rfl, inserted, nodup, mem, ok.received, linked, fun other head => ?_⟩
      obtain rfl : first = other := Option.some.inj head
      rw [List.getLast?_append]
      exact update_self _ _ _

/-- A task that is neither first nor last leaves the ends of the queue as they are. -/
lemma erase_ends {front back : List Nat} (task : Nat) (before : front ≠ []) (behind : back ≠ []) :
    (front ++ back).head? = (front ++ task :: back).head? ∧
    (front ++ back).getLast? = (front ++ task :: back).getLast? := by
  obtain ⟨first, front, rfl⟩ := exists_cons_of_ne_nil before
  obtain ⟨second, back, rfl⟩ := exists_cons_of_ne_nil behind
  refine ⟨rfl, ?_⟩
  rw [List.getLast?_append, List.getLast?_append, List.getLast?_cons_cons]

/-- A task leaves the queue. -/
lemma waitforClr_represents (ok : self.Represents waiting) (task : Nat)
    (inner : self.Inner (.waitforClr task)) :
    (self.waitforClr task).Represents (waiting.perform (.waitforClr task)).1 := by
  show (self.waitforClr task).Represents { waiting with queue := waiting.queue.erase task }
  by_cases mem : task ∈ waiting.queue
  · obtain ⟨signal, unreceived⟩ := (ok.member task).mp mem
    have linked : self.linked task = true := by rw [ok.linked task signal, unreceived]; rfl
    obtain ⟨front, back, split⟩ := append_of_mem mem
    have nodup := ok.nodup
    rw [split] at nodup
    have notFront : task ∉ front :=
      fun early => (nodup_append.mp nodup).2.2 task early task mem_cons_self rfl
    have notBack : task ∉ back := (nodup_cons.mp (nodup_append.mp nodup).2.1).1
    have erased : waiting.queue.erase task = front ++ back := by
      rw [split, erase_append_right _ notFront, erase_cons_head]
    have chain := ok.chain
    rw [split] at chain
    have removed := chain_remove chain (away_head () _) nodup
    -- The task is the first one exactly if it is the last one.
    have ends : front = [] ↔ back = [] := by
      have first : self.links.target (.head ()) = some task ↔ front = [] := by
        rw [chain.target]
        cases front with
        | nil => simp
        | cons other rest =>
          have different : other ≠ task := fun same => notFront (by simp [same])
          simp [different]
      have last : self.links.target (.next task) = none ↔ back = [] := by
        rw [(chain_append.mp chain).2.2.2.target, List.head?_eq_none_iff]
      rw [← first, ← last]
      exact inner signal linked
    rw [waitforClr, if_pos signal, if_pos linked, erased]
    refine ⟨removed, nodup.sublist ((List.Sublist.refl front).append (sublist_cons_self task back)),
      fun other => ?_, ok.received, fun other stays => ?_, fun first head => ?_⟩
    · have old := ok.member other
      rw [split, mem_append, mem_cons] at old
      rw [mem_append]
      by_cases same : other = task
      · subst same
        simpa using ⟨notFront, notBack⟩
      · rw [or_iff_right same] at old
        dsimp only
        rw [update_of_ne same]
        exact old
    · dsimp only at stays
      by_cases same : other = task
      · rw [same, update_self] at stays
        exact absurd stays Bool.false_ne_true
      · rw [update_of_ne same] at stays
        exact ok.linked other stays
    · cases front with
      | nil =>
        rw [ends.mp rfl] at head
        exact absurd head (by simp)
      | cons other rest =>
        have behind : back ≠ [] := fun none => absurd (ends.mpr none) (by simp)
        obtain ⟨sameHead, sameLast⟩ := erase_ends task (show other :: rest ≠ [] by simp) behind
        rw [sameHead, ← split] at head
        rw [sameLast, ← split]
        exact ok.last first head
  · have erased : waiting.queue.erase task = waiting.queue := erase_of_not_mem mem
    rw [erased]
    by_cases signal : self.tssSig task = true
    · have received : self.tsRecv task = true := by
        by_contra other
        exact mem ((ok.member task).mpr ⟨signal, Bool.eq_false_iff.mpr other⟩)
      have unlinked : ¬self.linked task = true := by rw [ok.linked task signal, received]; decide
      rw [waitforClr, if_pos signal, if_neg unlinked]
      refine ⟨ok.chain, ok.nodup, fun other => ?_, ok.received, fun other stays => ?_, ok.last⟩
      · dsimp only
        by_cases same : other = task
        · subst same
          simpa using mem
        · rw [update_of_ne same]
          exact ok.member other
      · dsimp only at stays
        by_cases same : other = task
        · rw [same, update_self] at stays
          exact absurd stays Bool.false_ne_true
        · rw [update_of_ne same] at stays
          exact ok.linked other stays
    · rw [waitforClr, if_neg signal]
      exact ok

lemma waitforClr_tssSig (self : WaitQueue) (task : Nat) :
    (self.waitforClr task).tssSig task = false := by
  rw [waitforClr]
  split
  · exact update_self _ _ _
  · next absent => exact Bool.eq_false_iff.mpr absent

lemma waitforClr_tsRecv (self : WaitQueue) (task : Nat) :
    (self.waitforClr task).tsRecv = self.tsRecv := by
  rw [waitforClr]
  split <;> rfl

lemma clrwait_represents (ok : self.Represents waiting) (task : Nat)
    (inner : self.Inner (.clrwait task)) :
    (self.clrwait task).1.Represents (waiting.perform (.clrwait task)).1 ∧
    (self.clrwait task).2 = waiting.received task := by
  have left := waitforClr_represents ok task inner
  have unsignalled := waitforClr_tssSig self task
  refine ⟨⟨left.chain, left.nodup, fun other => ?_, ?_, fun other stays => ?_, left.last⟩, ?_⟩
  · show other ∈ waiting.queue.erase task ↔
      (self.waitforClr task).tssSig other = true ∧
        update (self.waitforClr task).tsRecv task false other = false
    have old := left.member other
    by_cases same : other = task
    · subst same
      refine old.trans ?_
      rw [unsignalled]
      simp
    · rw [update_of_ne same]
      exact old
  · show update (self.waitforClr task).tsRecv task false = update waiting.received task false
    rw [waitforClr_tsRecv, ok.received]
  · show (self.waitforClr task).linked other = !update (self.waitforClr task).tsRecv task false other
    have different : other ≠ task := fun same => absurd (same ▸ stays) (by
      show ¬(self.waitforClr task).tssSig task = true
      rw [unsignalled]
      decide)
    rw [update_of_ne different]
    exact left.linked other stays
  · show (self.waitforClr task).tsRecv task = _
    rw [waitforClr_tsRecv, ok.received]

/-- Each call does to the chain what it does to the tasks that wait. -/
lemma perform_represents (debug : Bool) (ok : self.Represents waiting) {call : WaitCall}
    (inner : self.Inner call) :
    ∃ after, self.perform debug call = some (after, (waiting.perform call).2) ∧ after.Represents
      (waiting.perform call).1 := by
  cases call with
  | addwait task =>
    obtain ⟨after, added, kept⟩ := addwait_represents ok task
    exact ⟨after, by rw [perform, added]; rfl, kept⟩
  | waitforClr task => exact ⟨_, rfl, waitforClr_represents ok task inner⟩
  | clrwait task =>
    obtain ⟨kept, reply⟩ := clrwait_represents ok task inner
    exact ⟨_, by rw [perform, reply]; rfl, kept⟩
  | send maxThreads =>
    obtain ⟨kept, count⟩ := send_represents maxThreads ok
    exact ⟨_, by rw [perform, ← count], kept⟩

lemma run_represents (calls : List WaitCall) (ok : self.Represents waiting)
    (inner : StepRun.Meets (step debug) Inner self calls) :
    ∃ final, run (step debug) self calls = some final ∧ final.Represents (waiting.run calls) := by
  induction calls generalizing self waiting with
  | nil => exact ⟨self, rfl, ok⟩
  | cons call rest ih =>
    obtain ⟨after, performed, kept⟩ := perform_represents debug ok inner.1
    have stepped : self.step debug call = some after := by rw [step, performed]; rfl
    obtain ⟨final, reached, represents⟩ := ih kept (inner.2 after stepped)
    exact ⟨final, by rw [run_cons, stepped]; exact reached, represents⟩

/-- If only inner tasks leave by themselves, the chain is the queue of the waiting tasks. -/
theorem waitQueue_fifo (debug : Bool) (calls : List WaitCall) (call : WaitCall)
    (inner : StepRun.Meets (step debug) Inner init (calls ++ [call])) :
    ∃ state next, run (step debug) init calls = some state ∧
    state.Represents (Waiting.run ⟨[], fun _ => false⟩ calls) ∧
      state.perform debug call = some (next, ((Waiting.run ⟨[], fun _ => false⟩ calls).perform call).2) ∧
      next.Represents ((Waiting.run ⟨[], fun _ => false⟩ calls).perform call).1 := by
  obtain ⟨before, last⟩ := StepRun.Meets.concat calls init inner
  obtain ⟨state, reached, represents⟩ := run_represents calls init_represents before
  obtain ⟨next, performed, kept⟩ := perform_represents debug represents (last state reached)
  exact ⟨state, next, reached, represents, performed, kept⟩

/-- The second of three tasks leaves, and the signal reaches the first one. -/
theorem waitQueue_fifo_three :
    ∃ state next, run (step true) init [.addwait 1, .addwait 2, .addwait 3, .waitforClr 2] = some state ∧
      state.Represents (Waiting.run ⟨[], fun _ => false⟩ [.addwait 1, .addwait 2,
        .addwait 3, .waitforClr 2]) ∧
      state.perform true (.send 1) = some (next, 1) ∧
      next.Represents ((Waiting.run ⟨[], fun _ => false⟩
        [.addwait 1, .addwait 2, .addwait 3, .waitforClr 2]).perform (.send 1)).1 :=
  waitQueue_fifo true [.addwait 1, .addwait 2, .addwait 3, .waitforClr 2] (.send 1) (by decide +kernel)

/-- The last of two tasks leaves, and the next one is added behind its slot. -/
theorem addwait_lost : (run (step true) init [.addwait 1, .addwait 2, .waitforClr 2, .addwait 3]).map
        (fun state => state.links.nodes 4 (state.links.target (.head ()))) = some [1] ∧
      (Waiting.run ⟨[], fun _ => false⟩ [.addwait 1, .addwait 2, .waitforClr 2,
        .addwait 3]).queue = [1, 3] := by
  decide +kernel

end WaitQueue

end KosKernel.Sched
