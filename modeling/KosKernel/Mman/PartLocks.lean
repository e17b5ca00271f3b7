import KosKernel.Library.StepRun
import KosKernel.Mman.PartRefs

namespace KosKernel.Mman
open Library MPart

/-- The calls that change the parts of a region. -/
inductive PartOp where
  | incref
  | decref
  | inclock
  | declock
  | setchng
  deriving DecidableEq

/-- A call works on a range of the region. -/
structure PartCall where
  op : PartOp
  start : Nat
  bytes : Nat

namespace PartOp
variable {bits : Nat} (type : MRegionType)

/-- The function that the call applies to each part of its range. -/
def action : PartOp → MPart bits → MPart bits
  | incref => actionIncref
  | decref => actionDecref type
  | inclock => actionInclck
  | declock => actionDeclck
  | setchng => actionStchng

/-- The effect of the call on the lock count of a page. -/
def lock : PartOp → BitVec 16 → BitVec 16
  | inclock => (· + 1)
  | declock => (· - 1)
  | _ => id

/-- The number by which the call is meant to change the lock count. -/
def gain : PartOp → Int
  | inclock => 1
  | declock => -1
  | _ => 0

/-- The lock count can be changed without leaving the range of its type. -/
def HasRoom (op : PartOp) (locked : BitVec 16) : Prop :=
  -(2 ^ 15) ≤ locked.toInt + op.gain ∧ locked.toInt + op.gain < 2 ^ 15

instance (op : PartOp) (locked : BitVec 16) : Decidable (op.HasRoom locked) :=
  inferInstanceAs (Decidable (_ ∧ _))

lemma lock_toInt {op : PartOp} {locked : BitVec 16} (room : op.HasRoom locked) :
    (op.lock locked).toInt = locked.toInt + op.gain := by
  obtain ⟨above, below⟩ := room
  have one : (1 : BitVec 16).toInt = 1 := rfl
  cases op with
  | inclock =>
    rw [gain] at above below ⊢
    rw [lock, BitVec.toInt_add]
    exact Int.bmod_eq_of_le (by omega) (by omega)
  | declock =>
    rw [gain] at above below ⊢
    rw [lock, BitVec.toInt_sub]
    exact Int.bmod_eq_of_le (by omega) (by omega)
  | incref | decref | setchng => exact (Int.add_zero _).symm

lemma lock_of_action (op : PartOp) (part : MPart bits) :
    (op.action type part).mtLocked = op.lock part.mtLocked := by
  cases op with
  | decref => exact actionDecref_locked type part
  | incref | inclock | declock | setchng => rfl

/-- Each call is lawful for the view of the lock counts, if the locks are watched. -/
lemma lawful (op : PartOp) :
    MPart.Lawful id (fun part _ => part.mtLocked)
    (op.action type : MPart bits → MPart bits) op.lock where
  start part := by
    cases op with
    | decref => exact actionDecref_start type part
    | incref | inclock | declock | setchng => rfl
  fills part size fills := by
    cases op with
    | decref => exact actionDecref_fills fills
    | incref | inclock | declock | setchng => exact fills
  like part other like := by
    refine ⟨?_, by rw [lock_of_action, lock_of_action]; exact congrArg (fun locked =>
      id (op.lock locked)) like.2⟩
    cases op with
    | incref => exact alike_actionIncref like.1
    | decref => exact alike_actionDecref type like.1
    | inclock | declock => exact ⟨like.1.refcnt, like.1.state, like.1.flags⟩
    | setchng => exact ⟨like.1.refcnt, like.1.state,
        congrArg (fun flags => { flags with chng := true }) like.1.flags⟩
  acts part _ := lock_of_action type op part
  cutLow _ _ _ _ divides _ _ := divides.lowLocked
  cutHigh _ _ _ _ divides _ := divides.highLocked
  joinLow _ _ _ _ joins _ _ _ := joins.locked
  joinHigh _ _ _ _ joins same _ := joins.locked.trans same

end PartOp

namespace PartCall
variable {bits : Nat}

/-- The number by which the call is meant to change the lock count of a page. -/
def gainAt (offset : Nat) (call : PartCall) : Int :=
  if call.start ≤ offset ∧ offset < call.start + call.bytes then call.op.gain else 0

end PartCall

namespace MRegion
variable {bits : Nat} (region : MRegion bits)

/-- The result of a call that succeeds. -/
def perform (call : PartCall) : Option (MRegion bits) :=
  (match call.op with
    | .incref => region.partIncref call.start call.bytes
    | .decref => region.partDecref call.start call.bytes
    | .inclock => region.partInclock call.start call.bytes
    | .declock => region.partDeclock call.start call.bytes
    | .setchng => region.partSetchng call.start call.bytes).bind fun
  | (after, true) => some after
  | (_, false) => none

/-- The lock count of the part that contains the page. -/
def lockAt (offset : Nat) : Option (BitVec 16) :=
  view (fun part _ => part.mtLocked) region.mrSize region.mrParts offset

/-- The splits succeed, joined parts have the same lock count, and no count leaves its type. -/
def LockSafe (call : PartCall) : Prop :=
  call.start + call.bytes ≤ region.mrSize ∧ region.Unswapped call.start call.bytes ∧
    MPart.Ready id region.mrSize call.start (call.start + call.bytes) (call.op.action region.mrType)
      none region.mrParts ∧
    ∀ part ∈ region.mrParts, call.op.HasRoom part.mtLocked

instance (region : MRegion bits) (call : PartCall) : Decidable (region.LockSafe call) :=
  inferInstanceAs (Decidable (_ ∧ _ ∧ _ ∧ _))

lemma lockAt_covered {region : MRegion bits} (covered : region.Covered) {offset : Nat}
    (inside : offset < region.mrSize) :
    ∃ locked, region.lockAt offset = some locked ∧ ∃ part ∈ region.mrParts, part.mtLocked = locked := by
  have shown : (region.lockAt offset).isSome :=
    Tiling.Tiles.viewAt_isSome covered (Nat.zero_le offset) inside
  obtain ⟨locked, found⟩ := Option.isSome_iff_exists.mp shown
  exact ⟨locked, found, Tiling.viewAt_mem found⟩

/-- A call that is safe for the locks succeeds and changes the lock counts as it should. -/
lemma perform_locks {region : MRegion bits} {call : PartCall} (covered : region.Covered)
    (safe : region.LockSafe call) :
    ∃ after, region.perform call = some after ∧ after.Covered ∧ after.mrSize = region.mrSize ∧
      ∀ offset < region.mrSize, ∃ old new, region.lockAt offset = some old ∧
      after.lockAt offset = some new ∧
        new.toInt = old.toInt + call.gainAt offset := by
  obtain ⟨within, unswapped, ready, room⟩ := safe
  obtain ⟨undo, performed⟩ : ∃ undo, region.perform call =
      (region.partAction call.start call.bytes (call.op.action region.mrType) undo).bind fun
        | (after, true) => some after
        | (_, false) => none := by
    obtain ⟨op, start, bytes⟩ := call
    cases op with
    | incref => exact ⟨some (actionDecref region.mrType), rfl⟩
    | decref => exact ⟨some actionIncref, rfl⟩
    | inclock => exact ⟨some actionDeclck, rfl⟩
    | declock => exact ⟨some actionInclck, rfl⟩
    | setchng => exact ⟨none, rfl⟩
  obtain ⟨parts, result, afterCovered, changed⟩ :=
    partAction_spec (call.op.lawful region.mrType) region covered within unswapped ready undo
  rw [result] at performed
  refine ⟨_, performed, afterCovered, rfl, fun offset inside => ?_⟩
  obtain ⟨old, found, part, mem, same⟩ := lockAt_covered covered inside
  refine ⟨old, _, found, changed.of_some found, ?_⟩
  unfold PartCall.gainAt
  split
  · rw [← same]
    exact PartOp.lock_toInt (room part mem)
  · exact (Int.add_zero _).symm

/-- After safe calls the lock count of each page has changed by its locks minus its unlocks. -/
theorem partLocks_exact (calls : List PartCall) (region : MRegion bits) (covered : region.Covered)
    (safe : StepRun.Meets perform LockSafe region calls) :
    ∃ after, StepRun.run perform region calls = some after ∧ after.Covered ∧
    after.mrSize = region.mrSize ∧
      ∀ offset < region.mrSize, ∃ old new, region.lockAt offset = some old ∧
      after.lockAt offset = some new ∧
        new.toInt = old.toInt + (calls.map (PartCall.gainAt offset)).sum := by
  induction calls generalizing region with
  | nil =>
    refine ⟨region, rfl, covered, rfl, fun offset inside => ?_⟩
    obtain ⟨old, found, _⟩ := lockAt_covered covered inside
    exact ⟨old, old, found, found, (Int.add_zero _).symm⟩
  | cons call rest ih =>
    obtain ⟨middle, performed, middleCovered, middleSize, middleLocks⟩ := perform_locks covered safe.1
    obtain ⟨after, reached, afterCovered, afterSize, afterLocks⟩ :=
      ih middle middleCovered (safe.2 middle performed)
    refine ⟨after, ?_, afterCovered, afterSize.trans middleSize, fun offset inside => ?_⟩
    · rw [StepRun.run_cons, performed]
      exact reached
    · obtain ⟨old, between, oldFound, betweenFound, gained⟩ := middleLocks offset inside
      obtain ⟨between', new, betweenFound', newFound, later⟩ := afterLocks offset (middleSize ▸ inside)
      obtain rfl : between = between' := Option.some.inj (betweenFound.symm.trans betweenFound')
      exact ⟨old, new, oldFound, newFound,
        by rw [later, gained, List.map_cons, List.sum_cons, Int.add_assoc]⟩

/-- A region of four pages that are not allocated yet. -/
def freshPages : MRegion 32 :=
  { mrType := .mem, mrSize := 0x4000, mrParts := [⟨0, 1, .missing, ⟨false, false⟩, 0, [], 0⟩] }

theorem partLocks_exact_inner : ∃ after, StepRun.run perform freshPages
        [⟨.inclock, 0x1000, 0x1000⟩, ⟨.incref, 0, 0x1000⟩, ⟨.setchng, 0x3000, 0x1000⟩,
          ⟨.declock, 0x1000, 0x1000⟩,
          ⟨.decref, 0, 0x1000⟩] = some after ∧ after.Covered ∧ after.mrSize = freshPages.mrSize ∧
      ∀ offset < freshPages.mrSize, ∃ old new, freshPages.lockAt offset = some old ∧
      after.lockAt offset = some new ∧
        new.toInt = old.toInt + ([⟨.inclock, 0x1000, 0x1000⟩, ⟨.incref, 0, 0x1000⟩,
          ⟨.setchng, 0x3000, 0x1000⟩,
          ⟨.declock, 0x1000, 0x1000⟩, ⟨.decref, 0, 0x1000⟩].map (PartCall.gainAt offset)).sum :=
  partLocks_exact _ freshPages (by decide) (by decide)

/-- A split part is joined again at once with the lock count of its lower half. -/
theorem partInclock_lost :
    (freshPages.perform ⟨.inclock, 0x1000, 0x3000⟩).bind (fun after => after.lockAt 0x2000) =
      some 0 ∧
      freshPages.lockAt 0x2000 = some 0 ∧ PartCall.gainAt 0x2000 ⟨.inclock, 0x1000, 0x3000⟩ = 1 := by
  decide

end MRegion

end KosKernel.Mman
