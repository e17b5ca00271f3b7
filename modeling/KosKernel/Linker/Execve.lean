/- The exits of `user_do_execve` from `kernel/linker/exec.c`. -/

import KosKernel.Linker.ModpatchDldep

namespace KosKernel.Linker.Execve

/-- The steps that may fail, in the order of the source. -/
inductive Step where
  | exec | mkregions | instanceNew | write | setenviron | mextract | mmapInstance | mktlb | patch
  | restoreReadonly | writeAgain | findspace | mrestore | mkustack | collectInit
  deriving DecidableEq

/-- A round of `relock_tasks_again` joins another task or fails. -/
inductive Round where
  | joined | interrupted | notTerminated | notJoined
  deriving DecidableEq

/-- What a call has replaced, taken and released, and whether `env_maps` holds mappings. -/
structure Exec where
  unmapped : Bool := false
  environ : Bool := false
  exe : Bool := false
  terminated : Bool := false
  envMaps : Bool := false
  envTaken : Nat := 0
  envReleased : Nat := 0
  instTaken : Nat := 0
  instReleased : Nat := 0

/-- This is `mman_maps_fini`, and `mman_mrestore_unlocked` empties the list too. -/
def Exec.mapsFini (exec : Exec) : Exec :=
  { exec with envMaps := false, envReleased := exec.envReleased + exec.envMaps.toNat }

def Exec.endTooLate (exec : Exec) : Exec :=
  { exec.mapsFini with instReleased := exec.instReleased + 1, terminated := true }

/-- A failing `mman_mmap_instance_unlocked` drops what the notifier drops. -/
def Exec.unmappedInstance (drops : Nat) (exec : Exec) : Exec :=
  { exec with instReleased := exec.instReleased + drops }

variable (debug textrel inuse : Bool) (segments : Nat) (rounds : List Round) (fails : Step → Bool)

/-- An error carries the state in which it is returned. -/
def userDoExecve : Except Exec Exec :=
  let exec : Exec := {}
  if fails .exec || fails .mkregions || fails .instanceNew then .error exec else
  let exec := { exec with instTaken := 1 }
  if rounds.any (· ≠ .joined) || fails .write then .error exec else
  if fails .setenviron then .error exec.endTooLate else
  let exec := { exec with environ := true }
  if fails .mextract then .error exec.endTooLate else
  let exec := { exec with envMaps := true, envTaken := 1, unmapped := true }
  if fails .mmapInstance then .error
    (exec.unmappedInstance (rollbackDrops debug segments)).endTooLate else
  let exec := { exec with exe := true }
  if fails .mktlb || fails .patch then .error exec.endTooLate else
  if textrel && fails .restoreReadonly || fails .writeAgain then .error exec.endTooLate else
  if inuse && fails .findspace || fails .mrestore then .error exec else
  let exec := exec.mapsFini
  if fails .mkustack || fails .collectInit then .error exec.endTooLate else .ok exec

def Exec.Released (exec : Exec) : Prop :=
  exec.instReleased = exec.instTaken ∧ exec.envReleased = exec.envTaken

/-- The task is as before or terminated, the latter only without its old image, and what was taken
is released. -/
def Clean : Except Exec Exec → Prop
  | .error exec => (exec.terminated ∨ ¬exec.unmapped ∧ ¬exec.environ ∧ ¬exec.exe) ∧
      (exec.terminated → exec.unmapped) ∧ exec.Released
  | .ok exec => exec.Released

/-- The late exit is clean when the old image is gone and the instance and the mappings were not
released. -/
lemma clean_endTooLate (exec : Exec) : Clean (.error exec.endTooLate) ↔ exec.unmapped ∧
    exec.instReleased + 1 = exec.instTaken ∧ exec.envReleased + exec.envMaps.toNat = exec.envTaken := by
  simp [Clean, Exec.Released, Exec.endTooLate, Exec.mapsFini]

end KosKernel.Linker.Execve
