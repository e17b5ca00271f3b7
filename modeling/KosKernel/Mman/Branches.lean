/- The functions of `kernel/mman/mman.c` that change branches. Notifiers and page directory updates
succeed. -/

import KosKernel.Hybrid.ATree
import KosKernel.Memory.Align

namespace KosKernel.Mman
open LinkTree Function Hybrid

/-- This is `struct mbranch` without the links of the tree and of the list. -/
structure MBranch where
  mbNode : KeyRange
  mbProt : BitVec 32
  mbStart : Nat
  mbRegion : Nat
  mbNotify : Nat
  mbClosure : Nat
  deriving DecidableEq

/-- The branches of a `struct mman`, their memory and the counters `mr_refcnt`. -/
structure MMan where
  mMap : Cells
  mOrder : List Nat
  branch : Nat → MBranch
  mrRefcnt : Nat → UInt32

namespace MBranch

/-- This is `MBRANCH_SIZE`. -/
def size (key : KeyType) (branch : MBranch) : Nat :=
  (branch.mbNode.aVmax + 2 ^ key.bits - branch.mbNode.aVmin + 1) % 2 ^ key.bits

end MBranch

namespace MMan
variable (key : KeyType) (mman : MMan)

/-- The memory gives the tree the range of each branch. -/
def ranges : Ranges := fun branch => (mman.branch branch).mbNode

/-- This is `LIST_INSERT_AFTER`. -/
def insertAfter (place new : Nat) : List Nat → List Nat
  | [] => []
  | first :: rest => if first = place then first :: new :: rest else first :: insertAfter place new rest

/-- The word before, as in `start-1`. -/
def before (start : Nat) : Nat := (start + (2 ^ key.bits - 1)) % 2 ^ key.bits

/-- This is `MREGION_INCREF`. -/
def regionIncref (region : Nat) : MMan :=
  { mman with mrRefcnt := update mman.mrRefcnt region (mman.mrRefcnt region + 1) }

/-- The decrement of `MREGION_DECREF`. -/
def regionDecref (region : Nat) : MMan :=
  { mman with mrRefcnt := update mman.mrRefcnt region (mman.mrRefcnt region - 1) }

/-- The loop of `mman_insbranch_unlocked` that finds the place in the list. -/
def orderInsert (branch : Nat → MBranch) (new : Nat) : List Nat → List Nat
  | [] => [new]
  | insert :: rest =>
    if (branch new).mbNode.aVmax < (branch insert).mbNode.aVmin then new :: insert :: rest
    else insert :: orderInsert branch new rest

variable (branch : Nat)

/-- The branch is inserted into the tree. -/
def treeInsert : Option MMan :=
  (ATree.insert key mman.ranges mman.mMap branch).map fun cells => { mman with mMap := cells }

/-- The branch at the position is taken out of the tree. -/
def treePopAt (position : ATree.Position) : Option MMan :=
  (ATree.popAt key mman.ranges (ATree.callDepth key) position.proot position.semi
    position.level mman.mMap).map
    fun result => { mman with mMap := result.1 }

/-- This is `mman_insbranch_unlocked`. -/
def insbranchUnlocked : Option MMan :=
  (mman.treeInsert key branch).map fun inserted =>
    { inserted with mOrder := orderInsert inserted.branch branch inserted.mOrder }

/-- The upper half of a branch that is split. -/
def upperHalf (branch : MBranch) (start : Nat) : MBranch :=
  { branch with
    mbNode := ⟨start, branch.mbNode.aVmax⟩
    mbStart := (branch.mbStart + (start - branch.mbNode.aVmin)) % 2 ^ key.bits }

/-- The lower half of a branch that is split. -/
def lowerHalf (branch : MBranch) (start : Nat) : MBranch :=
  { branch with mbNode := ⟨branch.mbNode.aVmin, before key start⟩ }

/-- The effect of `mman_split_branch_unlocked` apart from the tree. -/
def divideBranch (loBranch hiBranch start : Nat) : MMan :=
  let lo := mman.branch loBranch
  { mman with
    branch := update (update mman.branch hiBranch (upperHalf key lo start)) loBranch
      (lowerHalf key lo start)
    mOrder := insertAfter loBranch hiBranch mman.mOrder }.regionIncref lo.mbRegion

/-- This is `mman_split_branch_unlocked`. -/
def splitBranchUnlocked (start hiBranch : Nat) : Option MMan :=
  (ATree.plocate key mman.ranges mman.mMap start).bind fun
    | none => some mman
    | some ploBranch =>
      (mman.mMap ploBranch.proot).bind fun loBranch =>
        if (mman.branch loBranch).mbNode.aVmin = start then some mman
        else
          (mman.treePopAt key ploBranch).bind fun popped =>
            ((popped.divideBranch key loBranch hiBranch start).treeInsert key loBranch).bind
              fun inserted =>
              inserted.treeInsert key hiBranch

/-- The tests of `mman_merge_branch_unlocked`, which do not compare the regions. -/
def mergeCandidates (start : Nat) : Option (Option (ATree.Position × Nat × ATree.Position × Nat)) :=
  (ATree.plocate key mman.ranges mman.mMap (before key start)).bind fun
    | none => some none
    | some ploBranch =>
      (mman.mMap ploBranch.proot).bind fun loBranch =>
        let lo := mman.branch loBranch
        if lo.mbNode.aVmax ≠ before key start then some none
        else
          (ATree.plocate key mman.ranges mman.mMap start).bind fun
            | none => some none
            | some phiBranch =>
              (mman.mMap phiBranch.proot).bind fun hiBranch =>
                let hi := mman.branch hiBranch
                if lo.mbProt ≠ hi.mbProt ∨ lo.mbNotify ≠ hi.mbNotify ∨
                  lo.mbClosure ≠ hi.mbClosure then some none
                else
                  let loRegion := lo.mbRegion
                  let hiRegion := lo.mbRegion
                  if loRegion = hiRegion then
                    if (lo.mbStart + lo.size key) % 2 ^ key.bits ≠ hi.mbStart then some none
                    else some (some (ploBranch, loBranch, phiBranch, hiBranch))
                  else some none

/-- The state after the two branches have left the tree and before the extended one is inserted. -/
def extendLower (loBranch hiBranch : Nat) : MMan :=
  let lo := mman.branch loBranch
  let hiRegion := lo.mbRegion
  { mman with
    branch := update mman.branch loBranch
      { lo with mbNode := ⟨lo.mbNode.aVmin, (mman.branch hiBranch).mbNode.aVmax⟩ }
    mOrder := mman.mOrder.erase hiBranch }.regionDecref hiRegion

/-- This is `mman_merge_branch_unlocked`. Both positions are those from before the first pop. -/
def mergeBranchUnlocked (start : Nat) : Option MMan :=
  (mman.mergeCandidates key start).bind fun
    | none => some mman
    | some (ploBranch, loBranch, phiBranch, hiBranch) =>
      (mman.treePopAt key phiBranch).bind fun hiPopped =>
        (hiPopped.treePopAt key ploBranch).bind fun bothPopped =>
          (bothPopped.extendLower loBranch hiBranch).treeInsert key loBranch

/-- The range meets the range of the branch. -/
def overlaps (addrMin addrMax branch : Nat) : Prop :=
  addrMin ≤ (mman.branch branch).mbNode.aVmax ∧ (mman.branch branch).mbNode.aVmin ≤ addrMax

instance (mman : MMan) (addrMin addrMax branch : Nat) :
    Decidable (mman.overlaps addrMin addrMax branch) :=
  inferInstanceAs (Decidable (_ ∧ _))

/-- The branch goes with the range. A tag restricts this to the branches with this closure. -/
def unmaps (addrMin addrMax : Nat) (tag : Option Nat) (branch : Nat) : Prop :=
  mman.overlaps addrMin addrMax branch ∧ ∀ wanted ∈ tag, (mman.branch branch).mbClosure = wanted

instance (mman : MMan) (addrMin addrMax : Nat) (tag : Option Nat) (branch : Nat) :
    Decidable (mman.unmaps addrMin addrMax tag branch) :=
  have : Decidable (∀ wanted ∈ tag, (mman.branch branch).mbClosure = wanted) :=
    Option.decidableForallMem _
  inferInstanceAs (Decidable (_ ∧ _))

/-- The effect of `mman_munmap_impl` on a branch apart from the tree. -/
def dropBranch : MMan :=
  { mman with mOrder := mman.mOrder.erase branch }.regionDecref (mman.branch branch).mbRegion

/-- This is `mman_munmap_impl`. -/
def munmapImpl (addrMin addrMax : Nat) (tag : Option Nat) : Nat → ATree.Position → MMan →
    Option (MMan × Nat)
  | 0, _, _ => none
  | fuel + 1, position, mman =>
    match mman.mMap position.proot with
    | none => some (mman, 0)
    | some branch =>
      if mman.unmaps addrMin addrMax tag branch then
        (mman.treePopAt key position).bind fun popped =>
          (munmapImpl addrMin addrMax tag fuel position (popped.dropBranch branch)).map fun result =>
            (result.1, result.2 + (mman.branch branch).size key)
      else
        let walkMin := addrMin < position.semi ∧ (mman.mMap (.low branch)).isSome
        let walkMax := position.semi ≤ addrMax ∧ (mman.mMap (.high branch)).isSome
        let lower : ATree.Position := ⟨.low branch, ATree.walkMin key position.semi position.level,
          ATree.nextLevel position.level⟩
        let upper : ATree.Position := ⟨.high branch, ATree.walkMax key position.semi position.level,
          ATree.nextLevel position.level⟩
        (if walkMax then munmapImpl addrMin addrMax tag fuel upper mman else some (mman, 0)).bind
          fun high =>
          (if walkMin then munmapImpl addrMin addrMax tag fuel lower high.1
            else some (high.1, 0)).map fun low =>
            (low.1, high.2 + low.2)

/-- The position of the root cell. -/
def root : ATree.Position := ⟨.head, ATree.semi0 key, ATree.level0 key⟩

variable (addr nBytes : Nat)

/-- This is `mman_munmap_unlocked`. -/
def munmapUnlocked (tag : Option Nat) (loNew hiNew : Nat) : Option (MMan × Nat) :=
  if nBytes = 0 then some (mman, 0)
  else
    let nBytes := Memory.ceilAlign key.bits nBytes
    (mman.splitBranchUnlocked key addr loNew).bind fun lowSplit =>
      (lowSplit.splitBranchUnlocked key ((addr + nBytes) % 2 ^ key.bits) hiNew).bind fun split =>
        munmapImpl key addr (before key ((addr + nBytes) % 2 ^ key.bits)) tag
          (split.mOrder.length + key.bits + 1) (root key) split

/-- The branch gets the protection. -/
def setProt (prot : BitVec 32) : MMan :=
  { mman with branch := update mman.branch branch { mman.branch branch with mbProt := prot } }

/-- This is `mman_mprotect_impl`. -/
def mprotectImpl (addrMin addrMax : Nat) (amask omask : BitVec 32) :
    Nat → Option Nat → Nat → Nat → MMan → Option (MMan × Nat)
  | 0, _, _, _, _ => none
  | _ + 1, none, _, _, mman => some (mman, 0)
  | fuel + 1, some branch, semi, level, mman =>
    let here := mman.overlaps addrMin addrMax branch
    let changed := if here then mman.setProt branch
      ((mman.branch branch).mbProt &&& amask ||| omask) else mman
    let bytes := if here then (mman.branch branch).size key else 0
    let walkMin := addrMin < semi ∧ (mman.mMap (.low branch)).isSome
    let walkMax := semi ≤ addrMax ∧ (mman.mMap (.high branch)).isSome
    (if walkMax then
      mprotectImpl addrMin addrMax amask omask fuel (changed.mMap (.high branch))
        (ATree.walkMax key semi level)
        (ATree.nextLevel level) changed
    else some (changed, 0)).bind fun high =>
      (if walkMin then
        mprotectImpl addrMin addrMax amask omask fuel (high.1.mMap (.low branch))
          (ATree.walkMin key semi level)
          (ATree.nextLevel level) high.1
      else some (high.1, 0)).map fun low => (low.1, bytes + high.2 + low.2)

/-- The part of `mman_mprotect_unlocked` before the merges. -/
def mprotectRange (amask omask : BitVec 32) (loNew hiNew : Nat) : Option (MMan × Nat) :=
  (mman.splitBranchUnlocked key addr loNew).bind fun lowSplit =>
    (lowSplit.splitBranchUnlocked key ((addr + nBytes) % 2 ^ key.bits) hiNew).bind fun split =>
      mprotectImpl key addr (before key ((addr + nBytes) % 2 ^ key.bits)) amask omask (key.bits + 2)
        (split.mMap .head)
        (ATree.semi0 key) (ATree.level0 key) split

/-- This is `mman_mprotect_unlocked`. -/
def mprotectUnlocked (amask omask : BitVec 32) (loNew hiNew : Nat) : Option (MMan × Nat) :=
  if nBytes = 0 then some (mman, 0)
  else
    let nBytes := Memory.ceilAlign key.bits nBytes
    (mman.mprotectRange key addr nBytes amask omask loNew hiNew).bind fun result =>
      (result.1.mergeBranchUnlocked key addr).bind fun merged =>
        (merged.mergeBranchUnlocked key ((addr + nBytes) % 2 ^ key.bits)).map fun last =>
          (last, result.2)

/-- The arguments of `mman_mmap_unlocked` that describe the mapped memory. -/
structure Mapping where
  start : Nat
  region : Nat
  prot : BitVec 32
  notify : Nat
  closure : Nat

/-- The part of `mman_mmap_unlocked` before the merges. -/
def mmapRange (mapping : Mapping) (newleaf loNew hiNew : Nat) : Option MMan :=
  let leaf : MBranch :=
    { mbNode := ⟨addr, before key ((addr + nBytes) % 2 ^ key.bits)⟩
      mbProt := mapping.prot
      mbStart := mapping.start
      mbRegion := mapping.region
      mbNotify := mapping.notify
      mbClosure := mapping.closure }
  let allocated := { mman with branch := update mman.branch newleaf leaf }.regionIncref mapping.region
  (allocated.munmapUnlocked key addr nBytes none loNew hiNew).bind fun unmapped =>
    unmapped.1.insbranchUnlocked key newleaf

/-- This is `mman_mmap_unlocked`. -/
def mmapUnlocked (mapping : Mapping) (newleaf loNew hiNew : Nat) : Option MMan :=
  if nBytes = 0 then some mman
  else
    let nBytes := Memory.ceilAlign key.bits nBytes
    (mman.mmapRange key addr nBytes mapping newleaf loNew hiNew).bind fun mapped =>
      (mapped.mergeBranchUnlocked key addr).bind fun merged => merged.mergeBranchUnlocked key
        ((addr + nBytes) % 2 ^ key.bits)

end MMan

end KosKernel.Mman
