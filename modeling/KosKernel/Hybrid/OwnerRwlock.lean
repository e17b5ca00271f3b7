/- The atomic steps of `hybrid/sync/atomic-owner-rwlock.h`. A step without a result is a failed
assertion. -/

import Mathlib.Data.Nat.Bitwise

namespace KosKernel.Hybrid

/-- This is `ATOMIC_OWNER_RWLOCK_WFLAG`. -/
def wflag : Nat := 0x80000000

/-- This is `ATOMIC_OWNER_RWLOCK_NMASK`. -/
def nmask : Nat := 0x7fffffff

/-- The write flag is set in a lock word. -/
def flagged (word : Nat) : Bool := word &&& wflag != 0

/-- A thread holds the lock in one of two ways. -/
inductive Hold where
  | read
  | write
  deriving DecidableEq

/-- The functions of the lock. -/
inductive OwnerCall where
  | tryread
  | trywrite
  | trywriteR
  | tryupgrade
  | upgrade
  | downgrade
  | endread
  | endwrite

/-- The next memory access of a thread. The flag `loops` is set in the calls of `upgrade`. -/
inductive OwnerPc where
  | idle
  | tryreadLoad
  | tryreadOwner (temp : Nat)
  | tryreadCas (temp : Nat)
  | trywriteLoad (loops : Bool)
  | trywriteOwner (loops : Bool) (temp : Nat)
  | trywriteCas (loops : Bool) (temp newval : Nat)
  | trywriteRLoad
  | trywriteRCas
  | storeOwner
  | tryupgradeLoad (loops : Bool)
  | tryupgradeOwner (loops : Bool) (temp : Nat)
  | tryupgradeSame (loops : Bool) (temp : Nat)
  | tryupgradeCas (loops : Bool)
  | downgradeLoad
  | downgradeCas (f : Nat)
  | downgradeWrite
  | endreadLoad (loops : Bool)
  | endreadCas (loops : Bool) (f : Nat)
  | endreadDec (loops : Bool)
  | endwriteLoad
  | endwriteClear (f : Nat)
  | endwriteCas (f : Nat)
  deriving DecidableEq

/-- The two cells of the lock as a thread sees them, with what it holds, the last lock first. -/
structure OwnerView (Thread : Type) where
  aorwLock : Nat
  aorwOwner : Option Thread
  holds : List Hold
  pc : OwnerPc

namespace OwnerView
variable {Thread : Type} [DecidableEq Thread] (debug : Bool) (self : Thread)

/-- An assertion is checked only in a debug build. -/
def check (condition : Bool) : Option Unit := if debug && !condition then none else some ()

/-- A thread starts a call. -/
def start (view : OwnerView Thread) : OwnerCall → Option (OwnerView Thread)
  | .tryread => some { view with pc := .tryreadLoad }
  | .trywrite => some { view with pc := .trywriteLoad false }
  | .trywriteR => some { view with pc := .trywriteRLoad }
  | .tryupgrade => some { view with pc := .tryupgradeLoad false }
  | .upgrade => some { view with pc := .tryupgradeLoad true }
  | .downgrade => do
    check debug (view.aorwOwner = some self)
    some { view with pc := if debug then .downgradeLoad else .downgradeWrite }
  | .endread => some { view with pc := if debug then .endreadLoad false else .endreadDec false }
  | .endwrite => do
    check debug (view.aorwOwner = some self)
    some { view with pc := .endwriteLoad }

/-- What follows a failed `trywrite`, which `write` repeats. -/
def failedWrite (loops : Bool) : OwnerPc := if loops then .trywriteLoad true else .idle

/-- What follows a failed `tryupgrade`, behind which `upgrade` gives the lock up. -/
def failedUpgrade (loops : Bool) : OwnerPc :=
  if loops then (if debug then .endreadLoad true else .endreadDec true) else .idle

/-- What follows the end of a read lock, behind which `upgrade` acquires the lock for writing. -/
def afterEndread (loops : Bool) : OwnerPc := if loops then .trywriteLoad true else .idle

/-- A thread makes its next memory access. A weak compare-and-swap may fail without a reason. -/
def advance (fails : Bool) (view : OwnerView Thread) : Option (OwnerView Thread) :=
  let word := view.aorwLock
  match view.pc with
  | .idle => none
  | .tryreadLoad =>
    if flagged word then some { view with pc := .tryreadOwner word }
    else do
      check debug (word &&& nmask != nmask)
      some { view with pc := .tryreadCas word }
  | .tryreadOwner temp =>
    if view.aorwOwner ≠ some self then some { view with pc := .idle }
    else do
      check debug (temp &&& nmask != nmask)
      some { view with pc := .tryreadCas temp }
  | .tryreadCas temp =>
    if fails ∨ word ≠ temp then some { view with pc := .tryreadLoad }
    else some { view with aorwLock := (temp + 1) % 2 ^ 32, holds := .read :: view.holds, pc := .idle }
  | .trywriteLoad loops =>
    if flagged word then some { view with pc := .trywriteOwner loops word }
    else if word ≠ 0 then some { view with pc := failedWrite loops }
    else some { view with pc := .trywriteCas loops word wflag }
  | .trywriteOwner loops temp =>
    if view.aorwOwner ≠ some self then some { view with pc := failedWrite loops }
    else do
      check debug (flagged ((temp + 1) % 2 ^ 32))
      some { view with pc := .trywriteCas loops temp ((temp + 1) % 2 ^ 32) }
  | .trywriteCas loops temp newval =>
    if fails ∨ word ≠ temp then some { view with pc := .trywriteLoad loops }
    else some { view with
      aorwLock := newval, holds := .write :: view.holds, pc :=
        if newval = wflag then .storeOwner else .idle }
  | .trywriteRLoad => do
    check debug (!flagged word || view.aorwOwner != some self)
    some { view with pc := if word ≠ 0 then .idle else .trywriteRCas }
  | .trywriteRCas =>
    if fails ∨ word ≠ 0 then some { view with pc := .trywriteRLoad }
    else some { view with aorwLock := wflag, holds := .write :: view.holds, pc := .storeOwner }
  | .storeOwner => some { view with aorwOwner := some self, pc := .idle }
  | .tryupgradeLoad loops =>
    if word = 1 then some { view with pc := .tryupgradeCas loops }
    else if flagged word then some { view with pc := .tryupgradeOwner loops word }
    else some { view with pc := failedUpgrade debug loops }
  | .tryupgradeOwner loops temp =>
    if view.aorwOwner = some self then some { view with pc := .tryupgradeSame loops temp }
    else some { view with pc := failedUpgrade debug loops }
  | .tryupgradeSame loops temp =>
    if fails ∨ word ≠ temp then some { view with pc := .tryupgradeLoad loops }
    else some { view with holds := .write :: view.holds.tail, pc := .idle }
  | .tryupgradeCas loops =>
    if fails ∨ word ≠ 1 then some { view with pc := .tryupgradeLoad loops }
    else some { view with aorwLock := wflag, holds := .write :: view.holds.tail, pc := .storeOwner }
  | .downgradeLoad => do
    check debug (flagged word)
    check debug (word &&& nmask == 0)
    some { view with pc := .downgradeCas word }
  | .downgradeCas f =>
    if fails ∨ word ≠ f then some { view with pc := .downgradeLoad }
    else some { view with aorwLock := 1, holds := .read :: view.holds.tail, pc := .idle }
  | .downgradeWrite => some { view with aorwLock := 1, holds := .read :: view.holds.tail, pc := .idle }
  | .endreadLoad loops => do
    check debug (word != 0)
    check debug (!flagged word || word != wflag)
    check debug (!flagged word || view.aorwOwner == some self)
    some { view with pc := .endreadCas loops word }
  | .endreadCas loops f =>
    if fails ∨ word ≠ f then some { view with pc := .endreadLoad loops }
    else some { view with
      aorwLock := (f + 2 ^ 32 - 1) % 2 ^ 32, holds := view.holds.tail, pc := afterEndread loops }
  | .endreadDec loops =>
    some { view with
      aorwLock := (word + 2 ^ 32 - 1) % 2 ^ 32, holds := view.holds.tail, pc := afterEndread loops }
  | .endwriteLoad => do
    check debug (flagged word)
    some { view with pc := if debug && word &&& nmask == 0 then .endwriteClear word
      else .endwriteCas word }
  | .endwriteClear f => some { view with aorwOwner := none, pc := .endwriteCas f }
  | .endwriteCas f =>
    if fails ∨ word ≠ f then some { view with pc := .endwriteLoad }
    else some { view with
      aorwLock := if f &&& nmask ≠ 0 then f - 1 else 0, holds := view.holds.tail, pc := .idle }

end OwnerView

/-- The lock with all its threads. -/
structure OwnerRwlock (Thread : Type) where
  aorwLock : Nat
  aorwOwner : Option Thread
  holds : Thread → List Hold
  pc : Thread → OwnerPc

/-- A thread starts a call or makes its next access. -/
inductive OwnerAction where
  | call (function : OwnerCall)
  | go (fails : Bool)

namespace OwnerRwlock
variable {Thread : Type} [DecidableEq Thread]

/-- This is `ATOMIC_OWNER_RWLOCK_INIT`. -/
def init : OwnerRwlock Thread where
  aorwLock := 0
  aorwOwner := none
  holds := fun _ => []
  pc := fun _ => .idle

/-- The lock as a thread sees it. -/
def view (state : OwnerRwlock Thread) (thread : Thread) : OwnerView Thread where
  aorwLock := state.aorwLock
  aorwOwner := state.aorwOwner
  holds := state.holds thread
  pc := state.pc thread

/-- The lock after a step of a thread. -/
def put (state : OwnerRwlock Thread) (thread : Thread) (view : OwnerView Thread) :
    OwnerRwlock Thread where
  aorwLock := view.aorwLock
  aorwOwner := view.aorwOwner
  holds := Function.update state.holds thread view.holds
  pc := Function.update state.pc thread view.pc

/-- One step of one thread. -/
def step (debug : Bool) (state : OwnerRwlock Thread) (action : Thread × OwnerAction) :
    Option (OwnerRwlock Thread) :=
  match action.2 with
  | .call function =>
    if state.pc action.1 = .idle then ((state.view action.1).start debug action.1 function).map
      (state.put action.1) else none
  | .go fails => ((state.view action.1).advance debug action.1 fails).map (state.put action.1)

end OwnerRwlock

end KosKernel.Hybrid
