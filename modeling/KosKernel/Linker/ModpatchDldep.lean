/- The exits of `modpatch_dldep` from `kernel/linker/patch.c`. -/

import Mathlib.Logic.Function.Iterate
import Mathlib.Tactic.SplitIfs

namespace KosKernel.Linker

/-- This is `MNOTIFY_DECREF` on the branch counter `i_branch` and the references dropped so far. -/
def mnotifyDecref (counts : Nat × Nat) : Nat × Nat :=
  (counts.1 - 1, if counts.1 = 1 then counts.2 + 1 else counts.2)

/-- The references that `instance_mnotify` drops while a failing `mman_mmap_instance_unlocked`
unmaps the segments again. Only with `CONFIG_DEBUG` the counter starts at one. -/
def rollbackDrops (debug : Bool) (segments : Nat) : Nat :=
  (mnotifyDecref^[segments] (debug.toNat + segments, 0)).2

lemma mnotifyDecref_iterate (first segments : Nat) :
    (mnotifyDecref^[segments] (first + segments, 0)).2 = if first = 0 ∧ segments ≠ 0 then 1 else 0 := by
  -- The counter stays above one until the last segment.
  have many : ∀ more, mnotifyDecref^[more] (first + 1 + more, 0) = (first + 1, 0) := by
    intro more
    induction more with
    | zero => rfl
    | succ more ih =>
      rw [Function.iterate_succ_apply, ← ih]
      simp [mnotifyDecref, ← Nat.add_assoc]
  cases segments with
  | zero => simp
  | succ more =>
    rw [← Nat.add_assoc, Nat.add_right_comm, Function.iterate_succ_apply', many]
    simp [mnotifyDecref]

/-- A reference too many is dropped if a segment was mapped, except with `CONFIG_DEBUG`. -/
lemma rollbackDrops_eq (debug : Bool) (segments : Nat) :
    rollbackDrops debug segments = if debug ∨ segments = 0 then 0 else 1 := by
  rw [rollbackDrops, mnotifyDecref_iterate]
  cases debug <;> simp

namespace ModpatchDldep

/-- The steps that may fail, in the order of the source. -/
inductive Step where
  | read | instanceNew | mkregions | readAgain | upgrade | mmapInstance | patch | restoreReadonly | grow

/-- What `inst` points to. -/
inductive Inst where
  | null | loaded | new | existing
  deriving DecidableEq

/-- What a call meets, with searches by `has_write_lock`, the segments that were mapped before a
mapping failed, and `below` further dependencies. -/
structure Call where
  debug : Bool
  known : Bool
  loaded : Bool
  relo : Bool
  textrel : Bool
  reload : Bool
  existing : Bool → Bool
  noSpace : Bool → Bool
  segments : Nat
  below : Nat
  fails : Step → Bool

/-- The references that a call holds, those in `inst_patcher.p_depv`, and what it has changed. The
instance is unlinked when `LIST_REMOVE` goes through an `i_chain` that was never set. -/
structure Load where
  inst : Inst := .null
  refs : Inst → Int := fun _ => 0
  depc : Nat := 0
  locked : Bool := false
  mapped : Bool := false
  unlinked : Bool := false
  grown : Bool := false

namespace Load
open Function

@[simp] def incref (inst : Inst) (load : Load) : Load :=
  { load with inst, refs := update load.refs inst (load.refs inst + 1) }

@[simp] def decref (load : Load) : Load :=
  { load with refs := update load.refs load.inst (load.refs load.inst - 1) }

/-- A failing `mman_mmap_instance_unlocked` gives back its own reference, and the notifier drops more. -/
@[simp] def unmapped (drops : Nat) (load : Load) : Load :=
  { load with
    refs := update load.refs load.inst (load.refs load.inst - drops)
    unlinked := decide (drops ≠ 0) }

/-- The label `err`. -/
@[simp] def err (load : Load) : Except Load Load := .error { load.decref with depc := 0 }

end Load

/-- Nothing is left of a failed call. -/
@[simp] def Clean : Except Load Load → Prop
  | .error load => load.refs .null = 0 ∧ load.refs .loaded = 0 ∧ load.refs .new = 0 ∧
      load.refs .existing = 0 ∧ load.depc = 0 ∧ ¬load.locked ∧ ¬load.mapped ∧
      ¬load.unlinked ∧ ¬load.grown
  | .ok _ => True

variable (call : Call)

def done (load : Load) : Except Load Load :=
  if call.fails .grow then load.err else .ok { load with grown := true }

/-- The instance is mapped, and the lock is released. -/
def gotSpace (load : Load) : Except Load Load :=
  let load := { load with locked := false }
  if call.fails .mmapInstance then (load.unmapped (rollbackDrops call.debug call.segments)).err else
  let load := { load with mapped := true }
  if !call.relo then done call load else
  let load := { load with depc := call.below }
  if call.fails .patch || call.textrel && call.fails .restoreReadonly then load.err
  else done call load

/-- A search under the lock, with `next` behind it. -/
def findSpace (hasWriteLock : Bool) (load : Load) (next : Load → Except Load Load) :
    Except Load Load :=
  let ended := { load with locked := false }
  if call.existing hasWriteLock then done call (ended.decref.incref .existing) else
  if call.noSpace hasWriteLock then ended.err else next load

/-- An error carries the state in which it is returned. -/
def modpatchDldep : Except Load Load :=
  let load : Load := {}
  if call.known then .ok load else
  if call.fails .read then load.err else
  if call.loaded then done call (load.incref .loaded) else
  if call.fails .instanceNew then .error load else
  let load := load.incref .new
  if call.fails .mkregions then load.err else
  if call.fails .readAgain then load.err else
  findSpace call false { load with locked := true } fun load =>
    if call.fails .upgrade then Load.err { load with locked := false } else
    if call.reload then findSpace call true load (gotSpace call) else gotSpace call load

/-- The mapping succeeds, or it is undone without a reference dropped too many, and behind it
nothing fails. -/
def MapsCleanly : Prop :=
  call.fails .mmapInstance ∧ (call.debug ∨ call.segments = 0) ∨
    ¬call.fails .mmapInstance ∧ ¬call.fails .grow ∧
      ¬(call.relo ∧ (call.fails .patch ∨ call.textrel ∧ call.fails .restoreReadonly))

/-- Behind the mapping each failure leaves the new instance mapped. -/
lemma clean_gotSpace :
    Clean (gotSpace call { Load.incref .new {} with locked := true }) ↔ MapsCleanly call := by
  unfold gotSpace done MapsCleanly
  rw [rollbackDrops_eq]
  split_ifs <;> simp_all

/-- A search drops the new instance for one that it finds. -/
lemma clean_findSpace (writes : Bool) (next : Load → Except Load Load) :
    Clean (findSpace call writes { Load.incref .new {} with locked := true } next) ↔
      call.existing writes ∨ call.noSpace writes ∨
        Clean (next { Load.incref .new {} with locked := true }) := by
  unfold findSpace done
  split_ifs <;> simp_all

end ModpatchDldep

end KosKernel.Linker
