/- This file embeds `mman_mremap_unlocked` of `kernel/mman/mman.c`. Notifiers, allocations and page
directory updates succeed. -/

import KosKernel.Mman.BranchQuery

namespace KosKernel.Mman.MMan
open Hybrid

/-- The range of a branch is moved up by a word. -/
def shiftBranch (key : KeyType) (mman : MMan) (branch offset : Nat) : MMan :=
  let found := mman.branch branch
  { mman with branch := Function.update mman.branch branch { found with
      mbNode := ⟨(found.mbNode.aVmin + offset) % 2 ^ key.bits,
        (found.mbNode.aVmax + offset) % 2 ^ key.bits⟩ } }

/-- The loop of `mman_mextract_unlocked`, from the highest branch down. -/
def extractDown (key : KeyType) (addr : Nat) : List Nat → MMan → List Nat → Option (MMan × List Nat)
  | [], mman, chain => some (mman, chain)
  | iter :: lower, mman, chain =>
    if (mman.branch iter).mbNode.aVmax ≤ addr then some (mman, chain)
    else (ATree.remove key mman.ranges mman.mMap (mman.branch iter).mbNode.aVmin).bind fun removed =>
      extractDown key addr lower
        ({ mman with mMap := removed.1, mOrder := mman.mOrder.erase iter }.shiftBranch key iter
          (2 ^ key.bits - addr)) (iter :: chain)

/-- This is `mman_mextract_unlocked` when it unmaps the branches. A null root is dereferenced. -/
def mextractUnlocked (key : KeyType) (mman : MMan) (addr nBytes : Nat) (new : Nat × Nat) :
    Option (MMan × List Nat) :=
  let stop := (addr + Memory.ceilAlign key.bits nBytes) % 2 ^ key.bits
  let addrMax := before key stop
  (mman.splitBranchUnlocked key addr new.1).bind fun lowSplit =>
    (lowSplit.splitBranchUnlocked key stop new.2).bind fun split =>
    if split.mMap .head = none then none
    else (split.findany key addr addrMax).bind fun
      | none => some (split, [])
      | some iter =>
        let (lower, upper) := split.mOrder.span (· != iter)
        let higher := upper.tail.takeWhile fun next => (split.branch next).mbNode.aVmin < addrMax
        extractDown key addr (higher.reverse ++ iter :: lower.reverse) split []

/-- This is `mman_do_mrestore`. -/
def doMrestore (key : KeyType) (addr : Nat) (new : Nat → Nat × Nat) : List Nat → MMan → Option MMan
  | [], mman => some mman
  | branch :: behind, mman => (doMrestore key addr new behind mman).bind fun restored =>
    let placed := restored.shiftBranch key branch addr
    let found := placed.branch branch
    (placed.munmapUnlocked key found.mbNode.aVmin (found.size key) none (new branch).1
      (new branch).2).bind fun unmapped =>
      (unmapped.1.insbranchUnlocked key branch).bind fun inserted =>
        (inserted.mergeBranchUnlocked key found.mbNode.aVmin).bind fun merged =>
          merged.mergeBranchUnlocked key ((found.mbNode.aVmax + 1) % 2 ^ key.bits)

/-- This is `-ENOMEM`. -/
def enomem : Int := -12

/-- This is `mman_mremap_unlocked`, whose path without a failure returns `-ENOMEM`. -/
def mremapUnlocked (key : KeyType) (mman : MMan) (newAddr oldAddr nBytes : Nat)
    (first second : Nat × Nat) (new : Nat → Nat × Nat) : Option (MMan × Int) :=
  if oldAddr = newAddr then some (mman, 0)
  else (mman.mextractUnlocked key oldAddr nBytes first).bind fun extracted =>
    (extracted.1.munmapUnlocked key newAddr nBytes none second.1 second.2).bind fun unmapped =>
      (doMrestore key newAddr new extracted.2 unmapped.1).map fun restored => (restored, enomem)

variable {key : KeyType}

/-- The mappings of the old range have moved to the new one. -/
structure Moved (key : KeyType) (mman after : MMan) (newAddr oldAddr nBytes : Nat) : Prop where
  moved : ∀ offset < nBytes, after.mappedAt key (newAddr + offset) = mman.mappedAt key (oldAddr + offset)
  gone : ∀ offset < nBytes, after.mappedAt key (oldAddr + offset) = some none
  kept : ∀ address, (address < oldAddr ∨ oldAddr + nBytes ≤ address) →
    (address < newAddr ∨ newAddr + nBytes ≤ address) →
    after.mappedAt key address = mman.mappedAt key address

/-- A mapping is moved with success only if there is nothing to move. -/
theorem mremap_moves_iff (mman : MMan) (newAddr oldAddr nBytes : Nat) (first second : Nat × Nat)
    (new : Nat → Nat × Nat) (apart : oldAddr + nBytes ≤ newAddr ∨ newAddr + nBytes ≤ oldAddr) :
    (∃ after reply, mman.mremapUnlocked key newAddr oldAddr nBytes first second new =
      some (after, reply) ∧ 0 ≤ reply ∧
      Moved key mman after newAddr oldAddr nBytes) ↔ oldAddr = newAddr := by
  rw [mremapUnlocked]
  constructor
  · rintro ⟨after, reply, moved, success, _⟩
    by_contra differ
    rw [if_neg differ] at moved
    obtain ⟨extracted, _, moved⟩ := Option.bind_eq_some_iff.mp moved
    obtain ⟨unmapped, _, moved⟩ := Option.bind_eq_some_iff.mp moved
    obtain ⟨restored, _, same⟩ := Option.map_eq_some_iff.mp moved
    rw [← (Prod.mk.inj same).2] at success
    exact absurd success (by decide)
  · rintro rfl
    rw [if_pos rfl]
    exact ⟨mman, 0, rfl, le_rfl, fun _ _ => rfl, fun offset inside => by omega, fun _ _ _ => rfl⟩

/-- No bytes are moved with success, and a page is not. -/
theorem mremap_moves_nothing :
    (∃ after reply, (neighbours 7 7).mremapUnlocked uintptr32 0x1000 0x1000 0 (1, 2) (3, 4)
      (fun _ => (5, 6)) =
      some (after, reply) ∧ 0 ≤ reply ∧ Moved uintptr32 (neighbours 7 7) after 0x1000 0x1000 0) ∧
    ¬ ∃ after reply, (neighbours 7 7).mremapUnlocked uintptr32 0x5000 0x1000 0x1000 (1, 2) (3, 4)
      (fun _ => (5, 6)) =
      some (after, reply) ∧ 0 ≤ reply ∧ Moved uintptr32 (neighbours 7 7) after 0x5000 0x1000 0x1000 :=
  ⟨(mremap_moves_iff (neighbours 7 7) 0x1000 0x1000 0 (1, 2) (3, 4) (fun _ => (5, 6))
    (.inl (by decide))).mpr rfl,
    (mremap_moves_iff (neighbours 7 7) 0x5000 0x1000 0x1000 (1, 2) (3, 4) (fun _ => (5, 6))
      (.inl (by decide))).not.mpr
      (by decide)⟩

/-- The page has moved, but the call reports that the memory does not suffice. -/
theorem mremapUnlocked_reports_failure :
    ((neighbours 7 7).mremapUnlocked uintptr32 0x5000 0x1000 0x1000 (1, 2) (3, 4) (fun _ => (5, 6))).map
      (fun result => (result.2, result.1.mappedAt uintptr32 0x5000,
        result.1.mappedAt uintptr32 0x1000)) =
    some (enomem, some (some ⟨7, 0, 3, 0, 0⟩), some none) := by
  decide +kernel

end KosKernel.Mman.MMan
