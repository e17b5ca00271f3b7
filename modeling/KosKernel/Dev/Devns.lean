/- The table of major device numbers of `kernel/dev/device.c`. Each call carries the address that
`omalloc` returns. -/

import KosKernel.Dev.Minor
import KosKernel.Hybrid.ATree
import KosKernel.Library.LinkList

namespace KosKernel.Dev
open Hybrid LinkTree LinkList ATree

/-- This is `major_t`. -/
def majorT : KeyType := ⟨16, by decide, by decide⟩

/-- The namespace is the tree of leaves, their ranges and vectors, and the sorted list. -/
structure Devns where
  dTree : Cells
  range : Ranges
  maBvec : Nat → List MinorTree
  dSort : Links Unit

/-- This is `DEVNS_MAJOR_CNT`. -/
def majorCnt (keys : KeyRange) : Nat := keys.aVmax - keys.aVmin + 1

namespace Devns
variable (self : Devns)

/-- The leaves that the sorted list visits. -/
def sorted : List Nat := self.dSort.nodes (majorMask + 2) (self.dSort.target (.head ()))

/-- A leaf returns to the tree under its current range. -/
def insertLeaf (leaf : Nat) : Option Devns :=
  (insert majorT self.range self.dTree leaf).map fun dTree => { self with dTree }

/-- A leaf gets a new range and a new vector. -/
def setLeaf (leaf : Nat) (keys : KeyRange) (bvec : List MinorTree) : Devns :=
  { self with
    range := Function.update self.range leaf keys
    maBvec := Function.update self.maBvec leaf bvec }

/-- The leaf below the new major is popped and extended by an empty slot. -/
def popAbove (presult : Position) : Option (Devns × Nat) :=
  (pop majorT self.range self.dTree presult.proot).map fun (dTree, result) =>
    let keys := self.range result
    ({ self with dTree }.setLeaf result ⟨keys.aVmin, keys.aVmax + 1⟩
      ((self.maBvec result).take (majorCnt keys) ++ [BTree.null]), result)

/-- The leaf that follows is popped, and its vector and its range go to the popped leaf. -/
def mergeNext (result : Nat) (pnext : Position) : Option Devns :=
  (pop majorT self.range self.dTree pnext.proot).map fun (dTree, next) =>
    let keys := self.range result
    let bvec := (self.maBvec result).take (majorCnt keys) ++ (self.maBvec next).take
      (majorCnt (self.range next))
    { self with dTree, dSort := self.dSort.connect (.next result) (self.dSort.target
      (.next next)) }.setLeaf
      result ⟨keys.aVmin, (self.range next).aVmax⟩ bvec

/-- The leaf above the new major is extended by an empty slot at its start. -/
def extendBelow (presult : Position) : Option (Devns × Nat) :=
  (pop majorT self.range self.dTree presult.proot).bind fun (dTree, result) =>
    let keys := self.range result
    ({ self with dTree }.setLeaf result ⟨keys.aVmin - 1, keys.aVmax⟩
      (BTree.null :: (self.maBvec result).take (majorCnt keys))).insertLeaf result |>.map (·, result)

/-- The link in front of the first leaf that does not end below the major. -/
def sortWalk (dSort : Links Unit) (range : Ranges) (id : Nat) : Nat → Link Unit → Option (Link Unit)
  | 0, _ => none
  | fuel + 1, psort =>
    match dSort.target psort with
    | none => some psort
    | some sort => if (range sort).aVmax < id then sortWalk dSort range id fuel (.next
        sort) else some psort

/-- A new leaf for one major enters the tree and the sorted list. -/
def createLeaf (id result : Nat) : Option (Devns × Nat) :=
  ((self.setLeaf result ⟨id, id⟩ [BTree.null]).insertLeaf result).bind fun inserted =>
    (sortWalk inserted.dSort inserted.range id (majorMask + 2) (.head ())).map fun psort =>
      ({ inserted with dSort :=
          (inserted.dSort.connect (.next result) (inserted.dSort.target psort)).connect psort (some
            result) }, result)

/-- The lookup of the leaf that ends right below the major. -/
def plocateBelow (id : Nat) : Option (Option Position) :=
  if id ≠ 0 then plocate majorT self.range self.dTree (id - 1) else some none

/-- The lookup of the leaf that starts right above the major. -/
def plocateAbove (id : Nat) : Option (Option Position) :=
  if id ≠ majorMask then plocate majorT self.range self.dTree ((id + 1) % 2 ^ 16) else some none

/-- The leaf below takes the major, joins the leaf that follows and returns to the tree. -/
def extendAbove (id : Nat) (presult : Position) : Option (Devns × Nat) :=
  (self.popAbove presult).bind fun (extended, result) =>
    (plocate majorT extended.range extended.dTree ((id + 1) % 2 ^ 16)).bind fun
      | none => (extended.insertLeaf result).map (·, result)
      | some pnext => (extended.mergeNext result pnext).bind fun merged =>
        (merged.insertLeaf result).map (·, result)

/-- This is `devns_alloc_major`. -/
def allocMajor (id omalloc : Nat) : Option (Devns × Nat) :=
  (locate majorT self.range self.dTree id).bind fun
    | some result => some (self, result)
    | none => (self.plocateBelow id).bind fun
      | some presult => self.extendAbove id presult
      | none => (self.plocateAbove id).bind fun
        | some presult => self.extendBelow presult
        | none => self.createLeaf id omalloc

/-- A write to one slot of a leaf. -/
def setSlot (leaf index : Nat) (tree : MinorTree) : Devns :=
  { self with maBvec := Function.update self.maBvec leaf ((self.maBvec leaf).set index tree) }

/-- This is `devns_insert_unlocked`. The flag tells whether the minor was free. -/
def insertUnlocked (dev : Device) (id omalloc : Nat) : Option (Devns × Bool) :=
  (self.allocMajor (major id) omalloc).bind fun (allocated, leaf) =>
    let index := major id - (allocated.range leaf).aVmin
    (allocated.maBvec leaf)[index]?.map fun pminorTree =>
      match insertMinor pminorTree dev id with
      | none => (allocated, false)
      | some tree => (allocated.setSlot leaf index tree, true)

/-- The part of a leaf above a released major becomes a leaf of its own. -/
def splitLeaf (leaf id upper : Nat) : Option Devns :=
  let keys := self.range leaf
  let lowerKeys : KeyRange := ⟨keys.aVmin, id - 1⟩
  let upperKeys : KeyRange := ⟨id + 1, keys.aVmax⟩
  let upperBvec := ((self.maBvec leaf).drop (majorCnt lowerKeys)).take (majorCnt upperKeys)
  let dSort := (self.dSort.connect (.next upper) (self.dSort.target (.next leaf))).connect
    (.next leaf) (some upper)
  let split :=
    ({ self with dSort }.setLeaf leaf lowerKeys
      ((self.maBvec leaf).take (majorCnt lowerKeys))).setLeaf
    upper upperKeys upperBvec
  (split.insertLeaf upper).bind fun inserted => inserted.insertLeaf leaf

/-- The part of `devns_delete_unlocked` that releases an emptied major. -/
def releaseMajor (pmajor : Position) (id omalloc : Nat) : Option Devns :=
  (pop majorT self.range self.dTree pmajor.proot).bind fun (dTree, leaf) =>
    let popped := { self with dTree }
    let keys := self.range leaf
    let bvec := self.maBvec leaf
    if id = keys.aVmin then
      if id = keys.aVmax then
        some { popped with dSort := self.dSort.connect (self.dSort.self leaf) (self.dSort.target
          (.next leaf)) }
      else
        let trimmed : KeyRange := ⟨keys.aVmin + 1, keys.aVmax⟩
        (popped.setLeaf leaf trimmed ((bvec.drop 1).take (majorCnt trimmed))).insertLeaf leaf
    else if id = keys.aVmax then
      let trimmed : KeyRange := ⟨keys.aVmin, keys.aVmax - 1⟩
      (popped.setLeaf leaf trimmed (bvec.take (majorCnt trimmed))).insertLeaf leaf
    else popped.splitLeaf leaf id omalloc

/-- This is `devns_lookup_unlocked`. -/
def lookupUnlocked (id : Nat) : Option (Option Device) :=
  (locate majorT self.range self.dTree (major id)).bind fun
    | none => some none
    | some leaf =>
      (self.maBvec leaf)[major id - (self.range leaf).aVmin]?.map (devnsDeviceGet · (minor id))

/-- This is `devns_delete_unlocked`. -/
def deleteUnlocked (dev : Option Nat) (id : Nat) (release : Bool) (omalloc : Nat) :
    Option (Devns × Option Device) :=
  (plocate majorT self.range self.dTree (major id)).bind fun
    | none => some (self, none)
    | some pmajor => (self.dTree pmajor.proot).bind fun leaf =>
      let index := major id - (self.range leaf).aVmin
      (self.maBvec leaf)[index]?.bind fun pdevTree =>
        match deleteMinor pdevTree dev id with
        | none => some (self, none)
        | some (tree, result) =>
          let deleted := self.setSlot leaf index tree
          if tree = .null ∧ release then
            (deleted.releaseMajor pmajor (major id) omalloc).map (·, some result)
          else some (deleted, some result)

end Devns

end KosKernel.Dev
