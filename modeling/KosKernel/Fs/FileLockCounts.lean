import KosKernel.Fs.FileLockInc
import KosKernel.Fs.FileLockDec

namespace KosKernel.Fs.FileLock
open Cover
variable {bits : Nat}

/-- The ranges are sorted, disjoint and not empty, and they count at least one lock. -/
def WellFormed (ranges : List (LockRange bits)) : Prop :=
  Ascends 0 ranges ∧ ∀ range ∈ ranges, range.lrLocks ≠ 0

/-- One at the positions of the request and zero elsewhere. -/
def requested (start size position : Nat) : Nat :=
  if start ≤ position ∧ position < start + size then 1 else 0

lemma toNat_one_of_lt (word : 1 < 2 ^ bits) : (1 : BitVec bits).toNat = 1 :=
  Nat.mod_eq_of_lt word

variable {count : BitVec bits} {omalloc : Nat → Bool} {ranges after : List (LockRange bits)}
  {start size : Nat}
  {walk : Walk bits}

lemma toNat_add_one (fits : count.toNat + 1 < 2 ^ bits) : (count + 1).toNat = count.toNat + 1 := by
  rw [BitVec.toNat_add, toNat_one_of_lt (by omega), Nat.mod_eq_of_lt fits]

lemma toNat_sub_one (locked : count ≠ 0) : (count + -1).toNat + 1 = count.toNat := by
  have some : count.toNat ≠ 0 := fun none => locked (BitVec.eq_of_toNat_eq none)
  rw [← sub_eq_add_neg, BitVec.toNat_sub, toNat_one_of_lt (by omega),
    show 2 ^ bits - 1 + count.toNat = count.toNat - 1 + 2 ^ bits by
      omega, Nat.add_mod_right, Nat.mod_eq_of_lt (by omega)]
  omega

lemma incread_counts
    (room : ∀ position, start ≤ position → position < start + size →
      (lockCount ranges position).toNat + 1 < 2 ^ bits)
    (count : lockCount after = (incWalk omalloc ranges start size).upTo (start + size))
    (position : Nat) :
    (lockCount after position).toNat = (lockCount ranges position).toNat + requested start
      size position := by
  rw [count, Walk.upTo, Pi.add_apply, requested]
  simp only [incWalk, Nat.add_sub_cancel_left]
  split
  · next inside => rw [cover_inside _ inside.1 inside.2, toNat_add_one (room position inside.1 inside.2)]
  · next outside => rw [cover_outside _ (by omega), add_zero, Nat.add_zero]

lemma decread_counts (locked : ∀ position, start ≤ position → position < start + size →
    lockCount ranges position ≠ 0)
    (count : lockCount after = (decWalk omalloc ranges start size).upTo (start + size))
    (position : Nat) :
    (lockCount after position).toNat + requested start size position =
      (lockCount ranges position).toNat := by
  rw [count, Walk.upTo, Pi.add_apply, requested]
  simp only [decWalk, Nat.add_sub_cancel_left]
  split
  · next inside => rw [cover_inside _ inside.1 inside.2,
        toNat_sub_one (locked position inside.1 inside.2)]
  · next outside => rw [cover_outside _ (by omega), add_zero, add_zero]

/-- With all allocations granted, the calls count each position if no counter is full. -/
lemma flock_counts_iff (wellFormed : WellFormed ranges) (more : 0 < size) :
    ((∀ fuel, 2 * size + ranges.length < fuel → ∃ after,
        inodeFlockIncread (fun _ => true) fuel ranges start size = some (true, after) ∧
          WellFormed after ∧ ∀ position, (lockCount after position).toNat =
            (lockCount ranges position).toNat + requested start size position) ↔
      ∀ position, start ≤ position → position < start + size →
        (lockCount ranges position).toNat + 1 < 2 ^ bits) ∧
    ((∀ position, start ≤ position → position < start + size → lockCount ranges position ≠ 0) →
      ∀ fuel, 2 * size + ranges.length < fuel → ∃ after,
        inodeFlockDecread (fun _ => true) fuel ranges start size = some (true, after) ∧
          WellFormed after ∧ ∀ position, (lockCount after position).toNat +
            requested start size position = (lockCount ranges position).toNat) := by
  refine ⟨⟨fun contract position lower upper => ?_, fun room fuel enough => ?_⟩,
    fun locked fuel enough => ?_⟩
  · obtain ⟨after, _, _, counts⟩ := contract _ (Nat.lt_succ_self _)
    have small := BitVec.isLt (lockCount after position)
    rwa [counts position, requested, if_pos ⟨lower, upper⟩] at small
  · obtain ⟨ends, keeps⟩ := @inodeFlockIncread_good _ (fun _ => true) _ start _ fuel wellFormed.1 more
    obtain ⟨⟨result, after⟩, answer⟩ := ends enough
    have good := keeps result after answer
    cases result with
    | false =>
      obtain ⟨⟨_, refused⟩, _⟩ := good
      exact Bool.noConfusion refused
    | true =>
      obtain ⟨ascends, count, positive⟩ := good
      refine ⟨after, answer, ⟨ascends,
        positive ⟨wellFormed.2, fun position lower upper wraps => ?_⟩⟩, incread_counts room count⟩
      have raised := toNat_add_one (room position lower upper)
      rw [show lockCount ranges position + 1 = 0 from wraps] at raised
      exact absurd raised (by simp)
  · obtain ⟨ends, keeps⟩ := @inodeFlockDecread_good _ (fun _ => true) _ start _ fuel wellFormed.1 more
    obtain ⟨⟨result, after⟩, answer⟩ := ends enough locked
    have good := keeps result after answer
    cases result with
    | false =>
      obtain ⟨⟨_, refused⟩, _⟩ := good
      exact Bool.noConfusion refused
    | true =>
      obtain ⟨ascends, count, positive⟩ := good
      exact ⟨after, answer, ⟨ascends, positive wellFormed.2⟩, decread_counts locked count⟩

/-- No range is in write-mode, for which `LOCKRANGE_WFLAG` is the top bit. -/
def ReadLocks (ranges : List (LockRange bits)) : Prop := ∀ range ∈ ranges, range.lrLocks.msb = false

lemma Ascends.lockCount_msb {bound : Nat} (ascends : Ascends bound ranges) (readLocks : ReadLocks ranges)
    (position : Nat) : (lockCount ranges position).msb = false := by
  induction ranges generalizing bound with
  | nil => simp [lockCount]
  | cons range rest ih =>
    obtain ⟨mine, others⟩ := List.forall_mem_cons.mp readLocks
    rw [lockCount, Pi.add_apply, rangeLocks]
    by_cases inside : range.lrStart ≤ position ∧ position < range.lrStart + range.lrSize
    · rw [cover_inside _ inside.1 inside.2, ascends.2.2.lockCount_eq_zero inside.2, add_zero]
      exact mine
    · rw [cover_outside _ (by omega), zero_add]
      exact ih ascends.2.2 others

/-- A cover with the change of a walk is not empty. -/
lemma upTo_ne {position : Nat} (changes : walk.change ≠ 0) (begun : walk.start < position) :
    walk.upTo position ≠ lockCount walk.ranges := by
  intro same
  have here := congrFun same walk.start
  rw [Walk.upTo, Pi.add_apply, cover_inside _ le_rfl (by omega)] at here
  exact changes (add_eq_left.mp here)

/-- A failed walk left the counts alone if its first part was refused memory. -/
lemma Walk.Good.unchanged_iff (changes : walk.change ≠ 0) (good : walk.Good 0 (.stop false after)) :
    lockCount after = lockCount walk.ranges ↔ ∃ index < walk.first walk.ranges walk.start walk.size,
      walk.omalloc index = false := by
  obtain ⟨_, position, begins, _, count, begun⟩ := good
  have paid : ¬ walk.Paid ↔ ∃ index < walk.first walk.ranges walk.start walk.size,
    walk.omalloc index = false := by
    simp [Walk.Paid]
  rw [← paid, ← begun, count]
  constructor
  · exact fun same later => upTo_ne changes later same
  · intro early
    rw [show position = walk.start by omega, Walk.upTo, Nat.sub_self, cover_empty, add_zero]

/-- A failed call left the counts alone if its first part was refused memory. -/
theorem flock_failure_iff {omalloc : Nat → Bool} {ranges : List (LockRange bits)} {start size : Nat}
    (word : 0 < bits) (wellFormed : WellFormed ranges) :
    (∀ fuel after, inodeFlockIncread omalloc fuel ranges start size = some (false, after) →
      (0 < size ∧ lockCount after = lockCount ranges ↔ 0 < size ∧
        ∃ index < incFirst ranges start size, omalloc index = false)) ∧
    (∀ fuel after, inodeFlockDecread omalloc fuel ranges start size = some (false, after) →
      (lockCount after = lockCount ranges ↔ ∃ index < decFirst ranges start size,
        omalloc index = false)) ∧
    ∀ fuel, inodeFlockDecread omalloc fuel ranges start 0 = some (true, ranges) := by
  have single : (1 : BitVec bits) ≠ 0 := by
    intro none
    have one := toNat_one_of_lt (Nat.one_lt_two_pow word.ne')
    rw [none] at one
    exact absurd one (by simp)
  refine ⟨fun fuel after failed => ?_, fun fuel after failed => ?_, fun fuel => rfl⟩
  · refine and_congr_right fun more => ?_
    have good := (inodeFlockIncread_good fuel wellFormed.1 more).2 false after failed
    exact good.unchanged_iff single
  · rcases Nat.eq_zero_or_pos size with rfl | more
    · cases failed
    have good := (inodeFlockDecread_good fuel wellFormed.1 more).2 false after failed
    exact good.unchanged_iff (neg_ne_zero.mpr single)

/-- A call that would split a range first is refused memory and changes nothing. -/
theorem flock_failure_first : let ranges : List (LockRange 32) := [⟨0, 2, 1⟩, ⟨4, 2, 3⟩]
    ∃ after, inodeFlockIncread (fun _ => false) 20 ranges 1 4 = some (false, after) ∧
      lockCount after = lockCount ranges := by
  intro ranges
  have wellFormed : WellFormed ranges := ⟨by simp [ranges, Ascends, rangeEnd], by decide⟩
  have failed : inodeFlockIncread (fun _ => false) 20 ranges 1 4 = some (false, ranges) := by decide
  have unchanged := (flock_failure_iff (by decide) wellFormed).1 20 ranges failed
  exact ⟨ranges, failed, (unchanged.mpr ⟨by decide, 0, by decide, rfl⟩).2⟩

/-- The first position is locked although the call fails at the second one. -/
theorem incread_failure_keeps_part :
    inodeFlockIncread (fun _ => false) 5 [(⟨0, 1, 1⟩ : LockRange 32)] 0 2 = some (false, [⟨0, 1, 2⟩]) ∧
      inodeFlockIncread (fun _ => true) 5 [(⟨0, 1, 1⟩ : LockRange 32)] 0 0 =
        some (false, [⟨0, 1, 1⟩]) := by
  decide

end KosKernel.Fs.FileLock
