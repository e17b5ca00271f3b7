/- The pending signals of `kernel/sched/sighand.c.inl`. A call that loses its lock ends with
`-ERELOAD`. -/

import KosKernel.Library.StepRun
import Mathlib.Data.List.Basic

namespace KosKernel.Sched
open Function List Option StepRun

/-- The signals of a `sigset_t`. Eight signals share a byte. -/
abbrev SigSet : Type := Nat → Bool

/-- The number of bytes of a `sigset_t`. -/
def sizeofSigset : Nat := 128

/-- This is `siginfo_t`, of which the calls only read the number of the signal. -/
structure SigInfo where
  siSigno : Nat
  siValue : Nat
  deriving DecidableEq

/-- The fields of `struct sigpending` that its lock protects. -/
structure SigPending where
  spQueue : List SigInfo
  spMask : SigSet

/-- How the lock is held. -/
inductive LockMode where
  | read
  | write
  deriving DecidableEq

/-- The replies of the calls. -/
inductive SigReply where
  | ok
  | noMemory
  | discarded (count : Nat)
  | reload
  | nothing
  | undefined (signo : Nat)
  | entry (info : SigInfo)
  deriving DecidableEq

namespace SigPending

/-- This is `sigpending_init`. -/
def init : SigPending := ⟨[], fun _ => false⟩

variable (self : SigPending)

/-- This is `sigpending_enqueue_unlocked`. -/
def enqueueUnlocked (info : SigInfo) (allocated : Bool) : SigPending × SigReply :=
  if allocated then (⟨info :: self.spQueue, update self.spMask info.siSigno true⟩, .ok)
  else (self, .noMemory)

/-- This is `sigpending_enqueue`. -/
def enqueue (info : SigInfo) (allocated : Bool) : SigPending × SigReply × LockMode :=
  let (self, reply) := self.enqueueUnlocked info allocated
  (self, reply, .write)

/-- The code of `sigpending_discard` behind the label `check_again`. -/
def discard (signo : Nat) (lock : LockMode) (upgraded : Bool) : SigPending × SigReply × LockMode :=
  if self.spMask signo then
    if lock = .read ∧ upgraded = false then (self, .reload, .write)
    else
      let count := self.spQueue.countP (·.siSigno = signo)
      (⟨self.spQueue.filter (·.siSigno ≠ signo), update self.spMask signo false⟩,
        .discarded (if count = 0 then 1 else count), .write)
  else (self, .discarded 0, lock)

/-- The first bit that a byte of both sets has. -/
def findBit (mask deque : SigSet) (byte : Nat) : Option Nat :=
  (List.range 8).find? fun bit => mask (8 * byte + bit + 1) && deque (8 * byte + bit + 1)

/-- The search for a signal of both sets. -/
def findSignal (mask deque : SigSet) : Option Nat :=
  (List.range sizeofSigset).findSome? fun byte => (findBit mask deque byte).map (8 * byte + · + 1)

/-- The first entry of a signal, with the entries before it and behind it. -/
def findEntry (signo : Nat) : List SigInfo → Option (List SigInfo × SigInfo × List SigInfo)
  | [] => none
  | info :: rest =>
    if info.siSigno = signo then some ([], info, rest)
    else (findEntry signo rest).map fun (front, found, back) => (info :: front, found, back)

/-- This is `sigpending_try_dequeue_unlocked`. -/
def tryDequeueUnlocked (deque : SigSet) (lock : LockMode) (upgraded : Bool) :
    SigPending × SigReply × LockMode :=
  match findSignal self.spMask deque with
  | none => (self, .nothing, lock)
  | some signo =>
    match findEntry signo self.spQueue with
    | none => ({ self with spMask := update self.spMask signo false }, .undefined signo, lock)
    | some (front, info, back) =>
      if lock = .read ∧ upgraded = false then (self, .reload, .write)
      else if back.any (·.siSigno = signo) then ({ self with spQueue := front ++ back },
        .entry info, .write)
      else (⟨front ++ back, update self.spMask signo false⟩, .entry info, .write)

end SigPending

/-- The calls on pending signals. -/
inductive SigCall where
  | enqueue (info : SigInfo) (allocated : Bool)
  | discard (signo : Nat) (lock : LockMode) (upgraded : Bool)
  | tryDequeue (deque : SigSet) (lock : LockMode) (upgraded : Bool)

namespace SigPending
variable (self : SigPending)

/-- The state after a call, its reply and how the lock is held when it returns. -/
def perform : SigCall → SigPending × SigReply × LockMode
  | .enqueue info allocated => self.enqueue info allocated
  | .discard signo lock upgraded => self.discard signo lock upgraded
  | .tryDequeue deque lock upgraded => self.tryDequeueUnlocked deque lock upgraded

/-- A call in a run. -/
def step (call : SigCall) : Option SigPending := some (self.perform call).1

/-- The pending signals in the order of their arrival. -/
def arrived : List SigInfo := self.spQueue.reverse

/-- A bit is set if an instance of the signal is pending. -/
def Valid : Prop := ∀ signo, self.spMask signo = true ↔ ∃ info ∈ self.spQueue, info.siSigno = signo

/-- The signal numbers that the calls assert. -/
def SignalOk (signo : Nat) : Prop := 0 < signo ∧ signo < 65

/-- The calls answer in the order of arrival of the pending signals. -/
inductive Accepts (pending : List SigInfo) : SigCall → SigReply → List SigInfo → Prop where
  | enqueue (info : SigInfo) : Accepts pending (.enqueue info true) .ok (pending ++ [info])
  | noMemory (info : SigInfo) : Accepts pending (.enqueue info false) .noMemory pending
  | discard (signo : Nat) (lock : LockMode) (upgraded : Bool) :
      Accepts pending (.discard signo lock upgraded) (.discarded (pending.countP (·.siSigno = signo)))
        (pending.filter (·.siSigno ≠ signo))
  | discardAgain (signo : Nat) : Accepts pending (.discard signo .read false) .reload pending
  | nothing (deque : SigSet) (lock : LockMode) (upgraded : Bool) (none : ∀ info ∈ pending,
    deque info.siSigno = false) :
      Accepts pending (.tryDequeue deque lock upgraded) .nothing pending
  | dequeueAgain (deque : SigSet) : Accepts pending (.tryDequeue deque .read false) .reload pending
  | entry (deque : SigSet) (lock : LockMode) (upgraded : Bool) (front back : List SigInfo)
    (info : SigInfo)
      (split : pending = front ++ info :: back) (first : ∀ other ∈ front, other.siSigno ≠ info.siSigno)
      (member : deque info.siSigno = true) :
      Accepts pending (.tryDequeue deque lock upgraded) (.entry info) (front ++ back)

/-- A dequeue finds at most one instance of the least pending signal of its set. -/
def Single : SigCall → Prop
  | .enqueue info _ => SignalOk info.siSigno
  | .discard signo _ _ => SignalOk signo
  | .tryDequeue deque _ _ => ∀ info ∈ self.spQueue, deque info.siSigno = true →
      (∀ other ∈ self.spQueue, deque other.siSigno = true → info.siSigno ≤ other.siSigno) →
        self.spQueue.countP (·.siSigno = info.siSigno) ≤ 1

variable {signo : Nat} {queue : List SigInfo}

section Search
variable {mask deque : SigSet}

/-- The bytes of a set are searched in the order of the signals. -/
lemma findSome_bytes (bytes : Nat) :
    ((List.range bytes).findSome? fun byte => (findBit mask deque byte).map (8 * byte + · + 1)) =
      ((List.range (8 * bytes)).find?
        fun index => mask (index + 1) && deque (index + 1)).map (· + 1) := by
  induction bytes with
  | zero => rfl
  | succ bytes ih =>
    rw [range_succ, List.findSome?_append, ih, Nat.mul_succ, range_add, List.find?_append, map_or,
      List.find?_map, List.findSome?_singleton, Option.map_map]
    rfl

/-- The search finds the least signal of both sets. -/
lemma findSignal_some (found : findSignal mask deque = some signo) :
    mask signo = true ∧ deque signo = true ∧ ∀ other, 0 < other → mask other = true →
    deque other = true → signo ≤ other := by
  rw [findSignal, findSome_bytes] at found
  obtain ⟨index, first, rfl⟩ := map_eq_some_iff.mp found
  obtain ⟨both, -, least⟩ := List.find?_range_eq_some.mp first
  rw [Bool.and_eq_true] at both
  refine ⟨both.1, both.2, fun other positive pending mem => ?_⟩
  by_contra smaller
  have skipped := least (other - 1) (by omega)
  rw [Nat.sub_add_cancel positive, pending, mem] at skipped
  exact absurd skipped (by decide)

lemma findSignal_none (missing : findSignal mask deque = none) (ok : SignalOk signo)
    (pending : mask signo = true) :
    deque signo = false := by
  rw [findSignal, findSome_bytes, map_eq_none_iff, List.find?_eq_none] at missing
  have skipped := missing (signo - 1) (mem_range.mpr (by
    have bound := ok.2
    rw [sizeofSigset]
    omega))
  rw [Nat.sub_add_cancel ok.1, pending] at skipped
  exact Bool.eq_false_iff.mpr skipped

/-- The entry that is found is the first one of its signal. -/
lemma findEntry_some {front back : List SigInfo} {info : SigInfo}
    (found : findEntry signo queue = some (front, info, back)) :
    queue = front ++ info :: back ∧ info.siSigno = signo ∧ ∀ other ∈ front, other.siSigno ≠ signo := by
  induction queue generalizing front with
  | nil => exact absurd found (by simp [findEntry])
  | cons first rest ih =>
    rw [findEntry] at found
    split at found
    · next same =>
      obtain ⟨rfl, equal⟩ := Prod.mk.inj (some.inj found)
      obtain ⟨rfl, rfl⟩ := Prod.mk.inj equal
      exact ⟨rfl, same, by simp⟩
    · next different =>
      obtain ⟨⟨before, entry, behind⟩, later, equal⟩ := map_eq_some_iff.mp found
      obtain ⟨rfl, entries⟩ := Prod.mk.inj equal
      obtain ⟨rfl, rfl⟩ := Prod.mk.inj entries
      obtain ⟨rfl, same, others⟩ := ih later
      exact ⟨rfl, same, by simpa using ⟨different, others⟩⟩

lemma findEntry_none (missing : findEntry signo queue = none) :
    ∀ info ∈ queue, info.siSigno ≠ signo := by
  induction queue with
  | nil => simp
  | cons first rest ih =>
    rw [findEntry] at missing
    split at missing
    · exact absurd missing (by simp)
    · next different =>
      have later := ih (map_eq_none_iff.mp missing)
      simpa using ⟨different, later⟩

end Search

variable {self : SigPending}

/-- The pending signals have the numbers that the calls assert, and their bits are set. -/
structure Ok (state : SigPending) : Prop where
  mask : state.Valid
  signal : ∀ info ∈ state.spQueue, SignalOk info.siSigno

lemma init_ok : init.Ok := ⟨fun _ => by simp [init], by simp [init]⟩

/-- What a call does to the pending signals and to the lock. -/
structure Answers (state : SigPending) (call : SigCall) : Prop where
  ok : (state.perform call).1.Ok
  accepts : Accepts state.arrived call (state.perform call).2.1 (state.perform call).1.arrived
  locked : (state.perform call).1 ≠ state → (state.perform call).2.2 = .write

lemma enqueue_answers (ok : self.Ok) {info : SigInfo} (allocated : Bool)
    (signal : SignalOk info.siSigno) :
    self.Answers (.enqueue info allocated) := by
  cases allocated with
  | false => exact ⟨ok, .noMemory info, absurd rfl⟩
  | true =>
    refine ⟨⟨fun signo => ?_, ?_⟩, ?_, fun _ => rfl⟩
    · show update self.spMask info.siSigno true signo = true ↔ ∃ other ∈ info :: self.spQueue,
        other.siSigno = signo
      by_cases same : signo = info.siSigno
      · subst same
        simp
      · rw [update_of_ne same, ok.mask signo]
        simp [Ne.symm same]
    · show ∀ other ∈ info :: self.spQueue, SignalOk other.siSigno
      simpa using ⟨signal, ok.signal⟩
    · show Accepts self.arrived _ _ (info :: self.spQueue).reverse
      rw [reverse_cons]
      exact .enqueue info

/-- The bits after all instances of a signal are gone. -/
lemma ok_clear (ok : self.Ok) (sub : ∀ info ∈ queue, info ∈ self.spQueue)
    (gone : ∀ info ∈ queue, info.siSigno ≠ signo)
    (kept : ∀ info ∈ self.spQueue, info.siSigno ≠ signo → info ∈ queue) :
    Ok ⟨queue, update self.spMask signo false⟩ := by
  refine ⟨fun other => ?_, fun info mem => ok.signal info (sub info mem)⟩
  show update self.spMask signo false other = true ↔ ∃ info ∈ queue, info.siSigno = other
  by_cases same : other = signo
  · subst same
    simpa using gone
  rw [update_of_ne same, ok.mask other]
  constructor
  · rintro ⟨info, mem, rfl⟩
    exact ⟨info, kept info mem same, rfl⟩
  · rintro ⟨info, mem, rfl⟩
    exact ⟨info, sub info mem, rfl⟩

lemma discard_answers (ok : self.Ok) (signo : Nat) (lock : LockMode) (upgraded : Bool) :
    self.Answers (.discard signo lock upgraded) := by
  by_cases mem : self.spMask signo = true
  · by_cases again : lock = .read ∧ upgraded = false
    · obtain ⟨rfl, rfl⟩ := again
      have performed : self.perform (.discard signo .read false) = (self, .reload, .write) := by
        rw [perform, discard, if_pos mem, if_pos ⟨rfl, rfl⟩]
      exact ⟨by rw [performed]; exact ok, by rw [performed]; exact .discardAgain signo, fun _ => by
        rw [performed]⟩
    · obtain ⟨info, inside, rfl⟩ := (ok.mask signo).mp mem
      have some : self.spQueue.countP (·.siSigno = info.siSigno) ≠ 0 := by
        simpa using ⟨info, inside, rfl⟩
      have performed : self.perform (.discard info.siSigno lock upgraded) =
          (⟨self.spQueue.filter (·.siSigno ≠ info.siSigno), update self.spMask info.siSigno false⟩,
            .discarded (self.spQueue.countP (·.siSigno = info.siSigno)), .write) := by
        rw [perform, discard, if_pos mem, if_neg again]
        dsimp only
        rw [if_neg some]
      refine ⟨?_, ?_, fun _ => by rw [performed]⟩
      · rw [performed]
        exact ok_clear ok (fun other found => (mem_filter.mp found).1) (fun other found => by
          simpa using (mem_filter.mp found).2)
          fun other found different => mem_filter.mpr ⟨found, by simpa using different⟩
      · have accepted : Accepts self.arrived _ _ _ := .discard info.siSigno lock upgraded
        rw [performed]
        rw [arrived, countP_reverse, filter_reverse] at accepted
        exact accepted
  · have absent : ∀ info ∈ self.spQueue, info.siSigno ≠ signo := fun info inside same =>
      mem ((ok.mask signo).mpr ⟨info, inside, same⟩)
    have performed : self.perform (.discard signo lock upgraded) = (self, .discarded 0, lock) := by
      rw [perform, discard, if_neg mem]
    refine ⟨by rw [performed]; exact ok, ?_, absurd (by rw [performed])⟩
    have accepted : Accepts self.arrived _ _ _ := .discard signo lock upgraded
    have zero : self.spQueue.countP (·.siSigno = signo) = 0 := countP_eq_zero.mpr (by simpa using absent)
    have all : self.spQueue.filter (·.siSigno ≠ signo) = self.spQueue :=
      filter_eq_self.mpr (by simpa using absent)
    rw [arrived, countP_reverse, filter_reverse, zero, all] at accepted
    rw [performed]
    exact accepted

lemma tryDequeue_answers (ok : self.Ok) {deque : SigSet} {lock : LockMode} {upgraded : Bool}
    (single : self.Single (.tryDequeue deque lock upgraded)) :
      self.Answers (.tryDequeue deque lock upgraded) := by
  cases searched : findSignal self.spMask deque with
  | none =>
    have performed : self.perform (.tryDequeue deque lock upgraded) = (self, .nothing, lock) := by
      rw [perform, tryDequeueUnlocked, searched]
    refine ⟨by rw [performed]; exact ok, ?_, absurd (by rw [performed])⟩
    rw [performed]
    refine .nothing deque lock upgraded fun info mem => ?_
    have inside := mem_reverse.mp mem
    exact findSignal_none searched (ok.signal info inside) ((ok.mask _).mpr ⟨info, inside, rfl⟩)
  | some signo =>
    obtain ⟨pending, mem, least⟩ := findSignal_some searched
    cases located : findEntry signo self.spQueue with
    | none =>
      obtain ⟨info, inside, same⟩ := (ok.mask signo).mp pending
      exact absurd same (findEntry_none located info inside)
    | some result =>
      obtain ⟨front, info, back⟩ := result
      obtain ⟨split, rfl, before⟩ := findEntry_some located
      by_cases again : lock = .read ∧ upgraded = false
      · obtain ⟨rfl, rfl⟩ := again
        have performed : self.perform (.tryDequeue deque .read false) = (self, .reload, .write) := by
          simp [perform, tryDequeueUnlocked, searched, located, and_self]
        exact ⟨by rw [performed]; exact ok,
          by rw [performed]; exact .dequeueAgain deque, fun _ => by rw [performed]⟩
      · have inside : info ∈ self.spQueue := split ▸ mem_append_right front mem_cons_self
        have once := single info inside mem fun other pendingOther memberOther =>
          least other.siSigno (ok.signal other pendingOther).1
            ((ok.mask _).mpr ⟨other, pendingOther, rfl⟩) memberOther
        -- The entry that was found is the only one, so none is behind it.
        have behind : ∀ other ∈ back, other.siSigno ≠ info.siSigno := by
          have none : back.countP (·.siSigno = info.siSigno) = 0 := by
            rw [split, countP_append, countP_cons_of_pos (by simp)] at once
            omega
          simpa using countP_eq_zero.mp none
        have last : back.any (·.siSigno = info.siSigno) = false := by simpa using behind
        have performed : self.perform (.tryDequeue deque lock upgraded) =
            (⟨front ++ back, update self.spMask info.siSigno false⟩, .entry info, .write) := by
          simp [perform, tryDequeueUnlocked, searched, located, if_neg again, last, Bool.false_eq_true]
        refine ⟨?_, ?_, fun _ => by rw [performed]⟩
        · rw [performed]
          refine ok_clear ok (fun other found => ?_) (fun other found => ?_)
            fun other found different => ?_
          · rw [split]
            exact (mem_append.mp found).elim (mem_append_left _)
              fun late => mem_append_right _ (mem_cons_of_mem _ late)
          · exact (mem_append.mp found).elim (before other) (behind other)
          · rw [split, mem_append, mem_cons] at found
            obtain early | rfl | late := found
            · exact mem_append_left _ early
            · exact absurd rfl different
            · exact mem_append_right _ late
        · have accepted : Accepts self.arrived (.tryDequeue deque lock upgraded) (.entry info)
              (back.reverse ++ front.reverse) :=
            .entry deque lock upgraded back.reverse front.reverse info (by rw [arrived, split]; simp)
              (fun other found => behind other (mem_reverse.mp found)) mem
          rw [← reverse_append] at accepted
          rw [performed]
          exact accepted

/-- Every call answers as queues that keep the order of arrival do. -/
lemma perform_answers (ok : self.Ok) {call : SigCall} (single : self.Single call) :
    self.Answers call := by
  cases call with
  | enqueue info allocated => exact enqueue_answers ok allocated single
  | discard signo lock upgraded => exact discard_answers ok signo lock upgraded
  | tryDequeue deque lock upgraded => exact tryDequeue_answers ok single

lemma run_ok (calls : List SigCall) (ok : self.Ok) (single : StepRun.Meets step Single self calls) :
    ∃ final, run step self calls = some final ∧ final.Ok :=
  run_invariant (fun state call valid here => ⟨(state.perform call).1, rfl,
    (perform_answers valid here).ok⟩)
    calls self ok single

/-- If a dequeue finds at most one instance, the calls answer in the order of arrival. -/
theorem pending_fifo (calls : List SigCall) (call : SigCall)
    (single : StepRun.Meets step Single init (calls ++ [call])) :
    ∃ state, run step init calls = some state ∧ state.Valid ∧
      Accepts state.arrived call (state.perform call).2.1 (state.perform call).1.arrived ∧
      (state.perform call).1.Valid ∧
        ((state.perform call).1 ≠ state → (state.perform call).2.2 = .write) := by
  obtain ⟨before, last⟩ := StepRun.Meets.concat calls init single
  obtain ⟨state, reached, ok⟩ := run_ok calls init_ok before
  have answers := perform_answers ok (last state reached)
  exact ⟨state, reached, ok.mask, answers.accepts, answers.ok.mask, answers.locked⟩

/-- Two signals are pending, and the lower one is dequeued. -/
theorem pending_fifo_two : ∃ state, run step init [.enqueue ⟨10, 1⟩ true, .enqueue ⟨2, 2⟩ true] =
    some state ∧ state.Valid ∧
      Accepts state.arrived (.tryDequeue (fun _ => true) .read true)
        (state.perform (.tryDequeue (fun _ => true) .read true)).2.1
        (state.perform (.tryDequeue (fun _ => true) .read true)).1.arrived ∧
      (state.perform (.tryDequeue (fun _ => true) .read true)).1.Valid ∧
      ((state.perform (.tryDequeue (fun _ => true) .read true)).1 ≠ state →
        (state.perform (.tryDequeue (fun _ => true) .read true)).2.2 = .write) := by
  refine pending_fifo [.enqueue ⟨10, 1⟩ true, .enqueue ⟨2, 2⟩ true]
    (.tryDequeue (fun _ => true) .read true) ⟨?_, ?_⟩
  · exact ⟨by decide, by decide⟩
  · intro first stepped
    obtain rfl := some.inj stepped
    refine ⟨⟨by decide, by decide⟩, fun second stepped => ?_⟩
    obtain rfl := some.inj stepped
    refine ⟨?_, fun _ _ => trivial⟩
    show ∀ info ∈ [(⟨2, 2⟩ : SigInfo), ⟨10, 1⟩], true = true →
      (∀ other ∈ [(⟨2, 2⟩ : SigInfo), ⟨10, 1⟩], true = true →
      info.siSigno ≤ other.siSigno) → [(⟨2, 2⟩ : SigInfo), ⟨10, 1⟩].countP (·.siSigno = info.siSigno) ≤ 1
    decide

/-- Of two instances of a signal, the later one is dequeued first. -/
theorem dequeue_later_first : (run step init [.enqueue ⟨10, 1⟩ true, .enqueue ⟨10, 2⟩ true]).map
        (fun state => (state.arrived, (state.perform (.tryDequeue (fun _ => true) .write true)).2.1)) =
      some ([⟨10, 1⟩, ⟨10, 2⟩], .entry ⟨10, 2⟩) := by
  decide +kernel

end SigPending

end KosKernel.Sched
