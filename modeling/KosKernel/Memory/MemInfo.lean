/- The boot memory map of `kernel/memory/install.c`. The slots stay in memory when the vector shrinks. -/

import KosKernel.Memory.Align

namespace KosKernel.Memory

/-- These are the `MEMTYPE_*` constants. -/
inductive MemType where
  | ndef
  | ram
  | preserve
  | allocated
  | kfree
  | kernel
  | nvs
  | device
  | badram
  deriving DecidableEq

/-- The value of the constant decides which type overrides which. -/
def MemType.code : MemType → Nat
  | .ndef => 0
  | .ram => 1
  | .preserve => 2
  | .allocated => 3
  | .kfree => 4
  | .kernel => 5
  | .nvs => 6
  | .device => 7
  | .badram => 8

lemma MemType.code_injective : Function.Injective MemType.code := by
  intro first second same
  cases first <;> cases second <;> first | rfl | exact absurd same (by decide)

instance : LinearOrder MemType := LinearOrder.lift' MemType.code MemType.code_injective

/-- This is `MEMTYPE_ISUSE`. -/
def MemType.IsUse (type : MemType) : Prop := type = .ram

instance (type : MemType) : Decidable type.IsUse := inferInstanceAs (Decidable (_ = _))

structure MemInfo where
  miType : MemType
  miAddr : Nat
  deriving DecidableEq

/-- The slots of the vector and the number of slots in use. -/
structure MemInfoVec where
  v : Nat → MemInfo
  c : Nat

/-- The word size and the number of slots of the target. -/
structure MemTarget where
  bits : Nat
  maxCount : Nat

/-- The map hands ranges to the page allocator and takes them back. -/
inductive PageEvent where
  | addmemory (base bytes : Nat)
  | delmemory (base bytes : Nat)
  deriving DecidableEq

namespace MemInfoVec
variable (self : MemInfoVec) (info : Nat)

/-- This is `MEMINFO_DELETE`. Behind the last slot the count of the move underflows. -/
def delete : Option MemInfoVec :=
  if info < self.c then
    some ⟨fun slot => if info ≤ slot ∧ slot < self.c - 1 then self.v (slot + 1) else self.v slot,
      self.c - 1⟩
  else none

/-- This is `MEMINFO_DUP`. -/
def dup : MemInfoVec :=
  ⟨fun slot => if info < slot ∧ slot ≤ self.c then self.v (slot - 1) else self.v slot, self.c + 1⟩

def set (entry : MemInfo) : MemInfoVec :=
  { self with v := Function.update self.v info entry }

def setType (type : MemType) : MemInfoVec :=
  self.set info { self.v info with miType := type }

/-- This is `MEMINFO_END`. The last entry reaches to the end of the address space. -/
def endAddr : Nat := if info + 1 ≠ self.c then (self.v (info + 1)).miAddr else 0

/-- The walk of `meminfo_split_at` to the first slot that does not start below the address. -/
def splitWalk (self : MemInfoVec) (addr : Nat) : Nat → Nat → Nat
  | 0, iter => iter
  | slots + 1, iter => if (self.v iter).miAddr < addr then self.splitWalk addr slots (iter + 1) else iter

variable (target : MemTarget)

/-- This is `meminfo_split_at`. It panics when no slot is left. -/
def splitAt (self : MemInfoVec) (addr : Nat) : Option (MemInfoVec × Nat) :=
  let iter := self.splitWalk addr self.c 0
  if iter = self.c then
    if self.c = target.maxCount then none
    else some ({ self with c := self.c + 1 }.set iter ⟨(self.v (iter - 1)).miType, addr⟩, iter)
  else if (self.v iter).miAddr ≠ addr then
    if self.c = target.maxCount then none
    else some ((self.dup iter).set iter
      ⟨if iter ≠ 0 then ((self.dup iter).v (iter - 1)).miType else .ndef, addr⟩, iter)
  else some (self, iter)

/-- This is `meminfo_merge_with_prev`. -/
def mergeWithPrev : Option MemInfoVec :=
  if info ≠ 0 ∧ (self.v (info - 1)).miType = (self.v info).miType then self.delete info else some self

/-- The first part of `mem_install` finds or creates the slots at both ends of the range. -/
def splitRange (self : MemInfoVec) (base numBytes : Nat) : Option (MemInfoVec × Nat × Nat) :=
  (self.splitAt target base).bind fun (split, start) =>
    let addrEnd := (base + numBytes) % 2 ^ target.bits
    if addrEnd ≤ base then some (split, start, split.c)
    else (split.splitAt target addrEnd).map fun (both, stop) => (both, start, stop)

/-- The jumps to `delete_iter`. The stop pointer must not leave the vector. -/
def deleteNexts (iter : Nat) : Nat → MemInfoVec → Nat → Option (MemInfoVec × Nat)
  | 0, self, stop => some (self, stop)
  | slots + 1, self, stop =>
    if iter + 1 ≠ self.c ∧ (self.v (iter + 1)).miType = .ram then
      if stop = 0 then none
      else (self.delete (iter + 1)).bind fun deleted => deleteNexts iter slots deleted (stop - 1)
    else some (self, stop)

variable (delmemory : Nat → Nat → Bool)

/-- The page-aligned part of an entry changes hands when its use changes. -/
def exchange (self : MemInfoVec) (iter : Nat) (type : MemType) : Nat × List PageEvent :=
  if type ≤ .allocated then
    let infoBegin := ceilAlign target.bits (self.v iter).miAddr
    let infoEnd := floorAlign (self.endAddr iter)
    if infoBegin < infoEnd then
      let bytes := infoEnd - infoBegin
      if type.IsUse then
        if ¬ (self.v iter).miType.IsUse then (bytes, [.addmemory infoBegin bytes]) else (0, [])
      else if (self.v iter).miType.IsUse then
        (if delmemory infoBegin bytes then bytes else 0, [.delmemory infoBegin bytes])
      else (0, [])
    else (0, [])
  else ((self.endAddr iter + (2 ^ target.bits - (self.v iter).miAddr)) % 2 ^ target.bits, [])

/-- The loop of `mem_install`. A slot behind a `MEMTYPE_RAM` slot is deleted. -/
def installLoop (target : MemTarget) (delmemory : Nat → Nat → Bool) (type : MemType) :
    Nat → MemInfoVec → Nat → Nat → Nat → List PageEvent →
    Option (MemInfoVec × Nat × Nat × List PageEvent)
  | 0, self, _, stop, result, events => some (self, stop, result, events)
  | turns + 1, self, iter, stop, result, events =>
    if iter < stop then
      if type < (self.v iter).miType then
        installLoop target delmemory type turns self (iter + 1) stop result events
      else
        let (bytes, more) := self.exchange target delmemory iter type
        let marked := self.setType iter type
        (if iter ≠ 0 ∧ (marked.v (iter - 1)).miType = .ram then
          (marked.delete iter).map fun deleted => (deleted, iter - 1, stop - 1)
        else some (marked, iter, stop)).bind fun (joined, iter, stop) =>
        (deleteNexts iter joined.c joined stop).bind fun (merged, stop) =>
          installLoop target delmemory type turns merged (iter + 1) stop
            ((result + bytes) % 2 ^ target.bits)
            (events ++ more)
    else some (self, stop, result, events)

/-- This is `mem_install`, with its result and the calls to the page allocator. -/
def memInstall (self : MemInfoVec) (base numBytes : Nat) (type : MemType) :
    Option (MemInfoVec × Nat × List PageEvent) :=
  if numBytes = 0 then some (self, 0, [])
  else
    (self.splitRange target base numBytes).bind fun (split, start, stop) =>
    (installLoop target delmemory type (stop - start) split start stop 0 []).bind fun (swept, stop,
      result, events) =>
    (if stop ≠ swept.c then swept.mergeWithPrev stop else some swept).bind fun stopMerged =>
    (stopMerged.mergeWithPrev start).map fun merged => (merged, result, events)

end MemInfoVec

end KosKernel.Memory
