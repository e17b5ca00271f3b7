/- The functions of `hybrid/list/atree-abi.h` over the pointer cells of the nodes, with fuel for
their calls and loops. -/

import KosKernel.Library.LinkTree

namespace KosKernel.Hybrid
open LinkTree Function

/-- A key type is an unsigned integer type whose bits an `ATREE_LEVEL_T` can count. -/
structure KeyType where
  bits : Nat
  positive : 0 < bits
  counted : bits ≤ 2 ^ 32

/-- This is `uintptr_t` on the 32-bit target. -/
def uintptr32 : KeyType := ⟨32, by decide, by decide⟩

/-- The keys of a node run from `ATREE_NODE_MIN` to `ATREE_NODE_MAX`. -/
structure KeyRange where
  aVmin : Nat
  aVmax : Nat
  deriving DecidableEq

/-- The memory tells the range of each node. -/
abbrev Ranges := Nat → KeyRange

namespace ATree
variable (key : KeyType)

/-- This is `(Tkey)1 << level`. -/
def bit (level : Nat) : Nat := if level < key.bits then 2 ^ level else 0

variable (semi level : Nat)

/-- This is `semi & ~((Tkey)1 << level)`. -/
def unset : Nat := semi &&& ((2 ^ key.bits - 1) ^^^ bit key level)

/-- An `ATREE_LEVEL_T` wraps when it is decremented at zero. -/
def nextLevel (level : Nat) : Nat := (level + (2 ^ 32 - 1)) % 2 ^ 32

def semi0 : Nat := (2 ^ key.bits - 1) / 2 + 1

def level0 : Nat := key.bits - 1

def mapMin : Nat := unset key semi level

def mapMax : Nat :=
  semi ||| ((bit key level + (2 ^ key.bits - 1)) % 2 ^ key.bits)

/-- This is the `semi` after `ATREE_WALKMIN`. -/
def walkMin : Nat := unset key semi level ||| bit key (nextLevel level)

/-- This is the `semi` after `ATREE_WALKMAX`. -/
def walkMax : Nat := semi ||| bit key (nextLevel level)

/-- A new leaf starts without children. -/
def clearLinks (cells : Cells) (newleaf : Nat) : Cells :=
  update (update cells (.low newleaf) none) (.high newleaf) none

mutual

/-- This is `priv_reinsertall`. -/
def privReinsertall (key : KeyType) (range : Ranges) : Nat → Slot → Nat → Nat → Nat →
    Cells → Option Cells
  | 0, _, _, _, _, _ => none
  | fuel + 1, proot, insertRoot, semi, level, cells =>
    (match cells (.low insertRoot) with
      | none => some cells
      | some aMin => privReinsertall key range fuel proot aMin semi level cells).bind fun lowMoved =>
    (match lowMoved (.high insertRoot) with
      | none => some lowMoved
      | some aMax => privReinsertall key range fuel proot aMax semi level lowMoved).bind fun bothMoved =>
    insertAt key range fuel proot insertRoot semi level bothMoved
termination_by structural fuel => fuel

/-- This is `insert_at`. -/
def insertAt (key : KeyType) (range : Ranges) : Nat → Slot → Nat → Nat → Nat → Cells → Option Cells
  | 0, _, _, _, _, _ => none
  | fuel + 1, proot, newleaf, semi, level, cells =>
    match cells proot with
    | none => some (update (clearLinks cells newleaf) proot (some newleaf))
    | some iter =>
      if (range newleaf).aVmin ≤ semi ∧ semi ≤ (range newleaf).aVmax then
        privReinsertall key range fuel proot iter semi level
          (update (clearLinks cells newleaf) proot (some newleaf))
      else if (range newleaf).aVmax < semi then
        insertAt key range fuel (.low iter) newleaf (walkMin key semi level) (nextLevel level) cells
      else
        insertAt key range fuel (.high iter) newleaf (walkMax key semi level) (nextLevel level) cells
termination_by structural fuel => fuel

end

/-- This is `tryinsert_at`. -/
def tryinsertAt (key : KeyType) (range : Ranges) : Nat → Slot → Nat → Nat → Nat → Cells →
    Option (Cells × Bool)
  | 0, _, _, _, _, _ => none
  | fuel + 1, proot, newleaf, semi, level, cells =>
    match cells proot with
    | none => some (update (clearLinks cells newleaf) proot (some newleaf), true)
    | some iter =>
      if (range newleaf).aVmin ≤ (range iter).aVmax ∧ (range iter).aVmin ≤ (range newleaf).aVmax then
        some (cells, false)
      else if (range newleaf).aVmin ≤ semi ∧ semi ≤ (range newleaf).aVmax then
        (privReinsertall key range fuel proot iter semi level
          (update (clearLinks cells newleaf) proot (some newleaf))).map (·, true)
      else if (range newleaf).aVmax < semi then
        tryinsertAt key range fuel (.low iter) newleaf (walkMin key semi level) (nextLevel level) cells
      else
        tryinsertAt key range fuel (.high iter) newleaf (walkMax key semi level) (nextLevel level) cells

variable (key : KeyType)

/-- This is the guarded call of `priv_reinsertall` on a child pointer. -/
def reinsertChild (range : Ranges) (fuel : Nat) (proot : Slot) (child : Option Nat)
    (semi level : Nat) (cells : Cells) : Option Cells :=
  match child with
  | none => some cells
  | some insertRoot => privReinsertall key range fuel proot insertRoot semi level cells

/-- This is `pop_at`. -/
def popAt (range : Ranges) (fuel : Nat) (proot : Slot) (semi level : Nat) (cells : Cells) :
    Option (Cells × Nat) :=
  match cells proot with
  | none => none
  | some root =>
    let detached := update cells proot none
    (reinsertChild key range fuel proot (detached (.low root)) semi level detached).bind fun lowMoved =>
    (reinsertChild key range fuel proot (lowMoved (.high root)) semi level lowMoved).map
      fun bothMoved => (bothMoved, root)

/-- This is `locate_at`. A node below level 0 gives no result, because it is reached by a shift that
is not defined. -/
def locateAt (key : KeyType) (range : Ranges) (cells : Cells) :
    Nat → Option Nat → Nat → Nat → Nat → Option (Option Nat)
  | 0, _, _, _, _ => none
  | _ + 1, none, _, _, _ => some none
  | fuel + 1, some root, wanted, semi, level =>
    if key.bits ≤ level then none
    else if (range root).aVmin ≤ wanted ∧ wanted ≤ (range root).aVmax then some (some root)
    else if wanted < semi then
      locateAt key range cells fuel (cells (.low root)) wanted (walkMin key semi level) (nextLevel level)
    else
      locateAt key range cells fuel (cells (.high root)) wanted (walkMax key semi level)
        (nextLevel level)

/-- A position is a cell with its centre and its level. -/
structure Position where
  proot : Slot
  semi : Nat
  level : Nat
  deriving DecidableEq

/-- This is `plocate_at`, again without a result below level 0. -/
def plocateAt (key : KeyType) (range : Ranges) (cells : Cells) :
    Nat → Slot → Nat → Nat → Nat → Option (Option Position)
  | 0, _, _, _, _ => none
  | fuel + 1, proot, wanted, semi, level =>
    match cells proot with
    | none => some none
    | some root =>
      if key.bits ≤ level then none
      else if (range root).aVmin ≤ wanted ∧
        wanted ≤ (range root).aVmax then some (some ⟨proot, semi, level⟩)
      else if wanted < semi then
        plocateAt key range cells fuel (.low root) wanted (walkMin key semi level) (nextLevel level)
      else
        plocateAt key range cells fuel (.high root) wanted (walkMax key semi level) (nextLevel level)

/-- This is `remove_at`. -/
def removeAt (key : KeyType) (range : Ranges) (fuel : Nat) (proot : Slot) (wanted semi level : Nat)
    (cells : Cells) : Option (Cells × Option Nat) :=
  (plocateAt key range cells fuel proot wanted semi level).bind fun
    | none => some (cells, none)
    | some removeHead =>
      (popAt key range fuel removeHead.proot removeHead.semi removeHead.level cells).map
        fun result => (result.1, some result.2)

/-- This many nested calls are enough for every tree over the key type. -/
def callDepth : Nat := key.bits * key.bits + 4 * key.bits + 1

def insert (range : Ranges) (cells : Cells) (newleaf : Nat) : Option Cells :=
  insertAt key range (callDepth key) .head newleaf (semi0 key) (level0 key) cells

def tryinsert (range : Ranges) (cells : Cells) (newleaf : Nat) : Option (Cells × Bool) :=
  tryinsertAt key range (callDepth key) .head newleaf (semi0 key) (level0 key) cells

/-- This is the convenience wrapper `pop`. -/
def pop (range : Ranges) (cells : Cells) (proot : Slot) : Option (Cells × Nat) :=
  popAt key range (callDepth key) proot (semi0 key) (level0 key) cells

def remove (key : KeyType) (range : Ranges) (cells : Cells) (wanted : Nat) :
    Option (Cells × Option Nat) :=
  removeAt key range (callDepth key) .head wanted (semi0 key) (level0 key) cells

def locate (key : KeyType) (range : Ranges) (cells : Cells) (wanted : Nat) : Option (Option Nat) :=
  locateAt key range cells (callDepth key) (cells .head) wanted (semi0 key) (level0 key)

/-- This is `plocate_at` from the root of the tree. -/
def plocate (key : KeyType) (range : Ranges) (cells : Cells) (wanted : Nat) : Option (Option Position) :=
  plocateAt key range cells (callDepth key) .head wanted (semi0 key) (level0 key)

end ATree

end KosKernel.Hybrid
