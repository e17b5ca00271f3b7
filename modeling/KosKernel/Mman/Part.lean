/- The parts of a memory region from `kernel/mman/part.c`. Allocations succeed, and there is no swap. -/

import KosKernel.Library.Tiling

namespace KosKernel.Mman
open Library

/-- One link of a `struct mscatter`. -/
structure MScatter where
  mStart : Nat
  mSize : Nat
  deriving DecidableEq

/-- This is `mscatter_split_lo`. -/
def mscatterSplitLo (bits : Nat) : List MScatter → Nat → Option (List MScatter × List MScatter)
  | [], _ => none
  | link :: rest, offset =>
    if link.mSize < offset then
      (mscatterSplitLo bits rest (offset - link.mSize)).map fun (low, high) => (link :: low, high)
    else if offset = link.mSize then
      match rest with
      | [] => some ([link], [⟨0, 0⟩])
      | _ :: _ => some ([link], rest)
    else
      some ([{ link with mSize := offset }],
        ⟨(link.mStart + offset) % 2 ^ bits, link.mSize - offset⟩ :: rest)

/-- This is `mscatter_cat`. The last link grows if the next one follows it in memory. -/
def mscatterCat (bits : Nat) : List MScatter → List MScatter → List MScatter
  | [], source => source
  | [last], source =>
    match source with
    | [] => [last]
    | next :: rest =>
      if (last.mStart + last.mSize) % 2 ^ bits = next.mStart then
        { last with mSize := last.mSize + next.mSize } :: rest
      else last :: next :: rest
  | link :: second :: rest, source => link :: mscatterCat bits (second :: rest) source

/-- The values `MPART_STATE_*`. -/
inductive MPartState where
  | missing
  | incore
  | inswap
  | unknown
  deriving DecidableEq

/-- The flags `MPART_FLAG_CHNG` and `MPART_FLAG_KEEP`. -/
structure MPartFlags where
  chng : Bool
  keep : Bool
  deriving DecidableEq

/-- This is `struct mregion_part` without its links. -/
structure MPart (bits : Nat) where
  mtStart : Nat
  mtRefcnt : UInt32
  mtState : MPartState
  mtFlags : MPartFlags
  mtLocked : BitVec 16
  mtMemory : List MScatter
  mtStick : Nat
  deriving DecidableEq

/-- The values `MREGION_TYPE_*`. -/
inductive MRegionType where
  | mem
  | physical
  | loguard
  | higuard
  | reserved
  deriving DecidableEq

namespace MPart
variable {bits : Nat} (part : MPart bits)

/-- This is `mregion_part_split_lo`, with the parts below and from the address on. -/
def splitLo (splitAddr : Nat) : Option (MPart bits × MPart bits) :=
  match part.mtState with
  | .incore =>
    (mscatterSplitLo bits part.mtMemory (splitAddr - part.mtStart)).map fun (low, high) =>
      ({ part with mtMemory := low }, { part with mtStart := splitAddr, mtMemory := high })
  | .inswap => none
  | _ => some (part, { part with mtStart := splitAddr })

/-- The test of `mregion_part_merge`. It does not look at the locks. -/
def Mergeable (part next : MPart bits) : Prop :=
  next.mtRefcnt = part.mtRefcnt ∧ next.mtState = part.mtState ∧ next.mtFlags = part.mtFlags

instance (part next : MPart bits) : Decidable (Mergeable part next) :=
  inferInstanceAs (Decidable (_ ∧ _))

/-- This is `mregion_part_merge`. Swap tickets are never joined. -/
def merge (part next : MPart bits) : Option (MPart bits) :=
  if Mergeable part next then
    match part.mtState with
    | .incore => some { part with mtMemory := mscatterCat bits part.mtMemory next.mtMemory }
    | .inswap => none
    | _ => some part
  else none

/-- This is `action_incref`. -/
def actionIncref : MPart bits := { part with mtRefcnt := part.mtRefcnt + 1 }

/-- This is `action_decref` apart from the pages and file contents that it gives back. -/
def actionDecref (type : MRegionType) (part : MPart bits) : MPart bits :=
  let dropped := { part with mtRefcnt := part.mtRefcnt - 1 }
  if dropped.mtRefcnt = 0 then
    let clean := { dropped with mtFlags := { dropped.mtFlags with chng := false } }
    if type = .mem ∧ ¬ clean.mtFlags.keep then { clean with mtState := .missing } else clean
  else dropped

/-- This is `action_inclck`. -/
def actionInclck : MPart bits := { part with mtLocked := part.mtLocked + 1 }

/-- This is `action_declck`. -/
def actionDeclck : MPart bits := { part with mtLocked := part.mtLocked - 1 }

/-- This is `action_stchng`. -/
def actionStchng : MPart bits := { part with mtFlags := { part.mtFlags with chng := true } }

/-- This is `MREGION_PART_END` of the part before the list. -/
def stop (limit : Nat) (rest : List (MPart bits)) : Nat := Tiling.stop mtStart limit rest

/-- The part is joined with the one behind it if that is possible. -/
def mergeNext : List (MPart bits) → MPart bits × List (MPart bits) × Bool
  | [] => (part, [], false)
  | next :: rest =>
    match part.merge next with
    | some merged => (merged, rest, true)
    | none => (part, next :: rest, false)

/-- The part is joined with the one before it if that is possible. -/
def mergePrev : List (MPart bits) → MPart bits × List (MPart bits) × Bool
  | [] => (part, [], false)
  | prev :: done =>
    match prev.merge part with
    | some merged => (merged, done, true)
    | none => (part, prev :: done, false)

/-- The loop of `mregion_part_action`, with the address at which a part could not be split. -/
def actionLoop (limit : Nat) (action : MPart bits → MPart bits) :
    Nat → List (MPart bits) → List (MPart bits) → Nat → Nat → Option (List (MPart bits) × Option Nat)
  | 0, _, _, _, _ => none
  | _ + 1, done, [], _, _ => some (done.reverse, none)
  | fuel + 1, done, part :: rest, start, bytes =>
    let partEnd := stop limit rest
    if partEnd ≤ start then actionLoop limit action fuel (part :: done) rest start bytes
    else
      let updateSize := min partEnd (start + bytes) - part.mtStart
      if start ≠ part.mtStart then
        match part.splitLo start with
        | none => some (done.reverse ++ part :: rest, some start)
        | some (low, high) => actionLoop limit action fuel (low :: done) (high :: rest) start bytes
      else if start + updateSize = partEnd then
        let (joined, rest, again) := (action part).mergeNext rest
        let (joined, done, back) := joined.mergePrev done
        if bytes = updateSize then some (done.reverse ++ joined :: rest, none)
        else if again || back then
          actionLoop limit action fuel done (joined :: rest) (start + updateSize) (bytes - updateSize)
        else actionLoop limit action fuel (joined :: done) rest (start + updateSize) (bytes - updateSize)
      else
        match part.splitLo (start + updateSize) with
        | none => some (done.reverse ++ part :: rest, some start)
        | some (low, high) =>
          if bytes = updateSize then some (done.reverse ++ action low :: high :: rest, none)
          else actionLoop limit action fuel (action low :: done) (high :: rest) (start + updateSize)
            (bytes - updateSize)

end MPart

/-- The fields of `struct mregion` that the parts need. -/
structure MRegion (bits : Nat) where
  mrType : MRegionType
  mrSize : Nat
  mrParts : List (MPart bits)

namespace MRegion
variable {bits : Nat} (region : MRegion bits)

/-- This many turns of the loop are enough. -/
def turns : Nat := 3 * region.mrSize + 2 * region.mrParts.length + 2

variable (start bytes : Nat)

/-- This is `mregion_part_action`. -/
def partAction (action : MPart bits → MPart bits) (undo : Option (MPart bits → MPart bits)) :
    Option (MRegion bits × Bool) :=
  if bytes = 0 then some (region, true)
  else
    (MPart.actionLoop region.mrSize action region.turns [] region.mrParts start bytes).bind fun
      | (parts, none) => some ({ region with mrParts := parts }, true)
      | (parts, some failed) =>
        match undo with
        | none => some ({ region with mrParts := parts }, false)
        | some undo =>
          if failed - start = 0 then some ({ region with mrParts := parts }, false)
          else (MPart.actionLoop region.mrSize undo { region with mrParts := parts }.turns
            [] parts start (failed - start)).map
            fun (parts, _) => ({ region with mrParts := parts }, false)

/-- This is `mregion_part_incref`. -/
def partIncref : Option (MRegion bits × Bool) :=
  region.partAction start bytes MPart.actionIncref (some (MPart.actionDecref region.mrType))

/-- This is `mregion_part_decref`. -/
def partDecref : Option (MRegion bits × Bool) :=
  region.partAction start bytes (MPart.actionDecref region.mrType) (some MPart.actionIncref)

/-- This is `mregion_part_inclock`. -/
def partInclock : Option (MRegion bits × Bool) :=
  region.partAction start bytes MPart.actionInclck (some MPart.actionDeclck)

/-- This is `mregion_part_declock`. -/
def partDeclock : Option (MRegion bits × Bool) :=
  region.partAction start bytes MPart.actionDeclck (some MPart.actionInclck)

/-- This is `mregion_part_setchng`. -/
def partSetchng : Option (MRegion bits × Bool) :=
  region.partAction start bytes MPart.actionStchng none

end MRegion

end KosKernel.Mman
