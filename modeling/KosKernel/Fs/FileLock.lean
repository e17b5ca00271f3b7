/- The read locks of `kernel/fs/file-lock.c`, for ranges that end where `pos_t` does not wrap. -/

import Mathlib.Data.BitVec

namespace KosKernel.Fs

/-- This is `struct ilockrange` without its link. -/
structure LockRange (bits : Nat) where
  lrStart : Nat
  lrSize : Nat
  lrLocks : BitVec bits
  deriving DecidableEq

namespace FileLock
variable {bits : Nat}

/-- The position behind a range. -/
def rangeEnd (range : LockRange bits) : Nat := range.lrStart + range.lrSize

/-- The cell of `prange` is the link of an earlier range or of the current one. -/
inductive Prange where
  | before (skipped : Nat)
  | current

/-- The variables of the walk, with the ranges before the current one from the nearest one. -/
structure Cursor (bits : Nat) where
  front : List (LockRange bits)
  range : LockRange bits
  rest : List (LockRange bits)
  prange : Prange
  start : Nat
  size : Nat
  used : Nat

/-- The walk stops, goes to `next` or to an earlier label, or uses missing memory. -/
inductive Flow (bits : Nat) where
  | stop (result : Bool) (ranges : List (LockRange bits))
  | next (passed rest : List (LockRange bits)) (start size used : Nat)
  | back (cursor : Cursor bits)
  | crash

namespace Cursor
variable (self : Cursor bits)

/-- This is the list in `fl_ranges`. -/
def ranges : List (LockRange bits) := self.front.reverse ++ self.range :: self.rest

/-- The walk goes to the label `next`. -/
def next : Flow bits := .next (self.range :: self.front) self.rest self.start self.size self.used

/-- This is `PREV_RANGE` under `HAS_PREV_RANGE`. -/
def prev : Option (LockRange bits) :=
  match self.prange with
  | .before skipped => self.front[skipped]?
  | .current => some self.range

/-- The previous range borders on the current one with the same number of locks. -/
def joins : Bool :=
  self.prev.any fun prev => self.range.lrLocks = prev.lrLocks ∧ self.range.lrStart = rangeEnd prev

/-- The code behind `merge_curr_prev`. A range merged with itself would be freed and used. -/
def mergePrev : Option (Cursor bits) :=
  match self.prange with
  | .current => none
  | .before skipped => self.front[skipped]?.map fun prev =>
    { self with
      front := self.front.drop (skipped + 1)
      range := { prev with lrSize := prev.lrSize + self.range.lrSize }
      prange := .current }

/-- The current range and `prange` when `range` moves on and `prange` does not. -/
def advance (range : LockRange bits) (rest : List (LockRange bits)) : Cursor bits :=
  { self with
    front := self.range :: self.front
    range, rest
    prange := match self.prange with
      | .before skipped => .before (skipped + 1)
      | .current => .before 0 }

/-- A part of the request is done. -/
def consume (amount : Nat) (onward : Cursor bits → Flow bits) : Flow bits :=
  if self.size - amount = 0 then .stop true self.ranges
  else onward { self with start := self.start + amount, size := self.size - amount }

/-- The current range is merged with the previous one where both fit. -/
def tryMerge (merged apart : Cursor bits → Flow bits) : Flow bits :=
  if self.joins then
    match self.mergePrev with
    | some cursor => merged cursor
    | none => .crash
  else apart self

end Cursor

/-- The walk from label to label. -/
def follow (top back : Cursor bits → Flow bits)
    (last : List (LockRange bits) → Nat → Nat → Nat → Flow bits) :
    Nat → Flow bits → Option (Bool × List (LockRange bits))
  | _, .stop result ranges => some (result, ranges)
  | _, .crash => none
  | 0, _ => none
  | fuel + 1, .back cursor => follow top back last fuel (back cursor)
  | fuel + 1, .next passed [] start size used => follow top back last fuel (last passed start size used)
  | fuel + 1, .next passed (range :: rest) start size used =>
    follow top back last fuel (top ⟨passed, range, rest, .before 0, start, size, used⟩)

section Incread
variable (omalloc : Nat → Bool) (self : Cursor bits)

/-- The request begins inside of the current range. -/
def incSub : Flow bits :=
  let range := self.range
  let subsize := min (rangeEnd range - self.start) self.size
  if self.start + subsize = rangeEnd range then
    if omalloc self.used then
      { self with
        range := { range with lrSize := range.lrSize - subsize }
        rest := ⟨self.start, subsize, range.lrLocks + 1⟩ :: self.rest
        used := self.used + 1 }.consume subsize Cursor.next
    else .stop false self.ranges
  else if omalloc self.used then
    if omalloc (self.used + 1) then
      { self with
        range := { range with lrSize := self.start - range.lrStart }
        rest := ⟨self.start, self.size, range.lrLocks + 1⟩ ::
          ⟨self.start + self.size, rangeEnd range - self.start - self.size, range.lrLocks⟩ :: self.rest
        used := self.used + 2 }.consume subsize Cursor.next
    else .stop false self.ranges
  else .stop false self.ranges

/-- The counter of the current range was raised. -/
def incRaised (overlap : Nat) (mustContinue : Bool) : Flow bits :=
  self.tryMerge (fun merged => merged.consume overlap Flow.back) fun self =>
    self.consume overlap fun self => if mustContinue then incSub omalloc self else self.next

/-- The request begins with the current range. -/
def incBegin : Flow bits :=
  let range := self.range
  let overlap := min range.lrSize self.size
  if overlap = range.lrSize then
    let raised := { range with lrLocks := range.lrLocks + 1 }
    match self.rest with
    | [] => incRaised omalloc { self with range := raised } overlap false
    | next :: rest =>
      if raised.lrLocks = next.lrLocks ∧ rangeEnd raised = next.lrStart then
        incRaised omalloc { self with range :=
          { raised with lrSize := raised.lrSize + next.lrSize }, rest } overlap true
      else incRaised omalloc { self with range := raised } overlap false
  else if omalloc self.used then
    incRaised omalloc
      { self with
        range := ⟨range.lrStart, overlap, range.lrLocks + 1⟩
        rest := ⟨range.lrStart + overlap, range.lrSize - overlap, range.lrLocks⟩ :: self.rest
        used := self.used + 1 } overlap false
  else .stop false self.ranges

/-- The request begins with the current range or inside of it. -/
def incWithin : Flow bits :=
  if self.start = self.range.lrStart then incBegin omalloc self else incSub omalloc self

/-- The gap behind the current range is locked. The request goes on with the next range. -/
def incBeyond (overflow : Nat) : Flow bits :=
  self.consume overflow fun self =>
    match self.rest with
    | [] => .crash
    | next :: rest =>
      if self.range.lrLocks = next.lrLocks then
        incWithin omalloc
          { self with range := { self.range with lrSize := self.range.lrSize + next.lrSize }, rest }
      else incWithin omalloc (self.advance next rest)

/-- The part of the request between the current range and the next one. -/
def gapBehind (range : LockRange bits) (rest : List (LockRange bits)) (size : Nat) : Nat :=
  match rest with
  | [] => size
  | next :: _ => min (next.lrStart - rangeEnd range) size

/-- The request does not begin below the current range. -/
def incBody : Flow bits :=
  let range := self.range
  if rangeEnd range < self.start then self.next
  else if self.start = rangeEnd range then
    let overflow := gapBehind range self.rest self.size
    if overflow = 0 then self.next
    else if range.lrLocks = 1 then
      incBeyond omalloc { self with range := { range with lrSize := range.lrSize + overflow } } overflow
    else if omalloc self.used then
      incBeyond omalloc { self.advance ⟨rangeEnd range, overflow, 1⟩ self.rest
        with used := self.used + 1 } overflow
    else .stop false self.ranges
  else incWithin omalloc self

/-- One turn of the loop. -/
def incTop : Flow bits :=
  let range := self.range
  if self.start < range.lrStart then
    let underflow := range.lrStart - self.start
    if self.size < underflow then
      if omalloc self.used then
        .stop true (self.front.reverse ++ ⟨self.start, self.size, 1⟩ :: range :: self.rest)
      else .stop false self.ranges
    else if range.lrLocks = 1 then
      { self with range := ⟨range.lrStart - underflow, range.lrSize + underflow,
        range.lrLocks⟩ }.tryMerge
        (fun merged => merged.consume underflow (incBody omalloc)) fun self =>
          self.consume underflow (incBody omalloc)
    else if omalloc self.used then
      { self with front := ⟨self.start, underflow, 1⟩ :: self.front, used := self.used + 1 }.consume
        underflow
        (incBody omalloc)
    else .stop false self.ranges
  else incBody omalloc self

/-- The rest of the request lies behind all ranges. -/
def incLast (passed : List (LockRange bits)) (start size used : Nat) : Flow bits :=
  if omalloc used then .stop true (passed.reverse ++ [⟨start, size, 1⟩]) else .stop false passed.reverse

/-- This is `inode_flock_incread`. The empty request returns `-EOK`, which is false. -/
def inodeFlockIncread (fuel : Nat) (ranges : List (LockRange bits)) (start size : Nat) :
    Option (Bool × List (LockRange bits)) :=
  if size = 0 then some (false, ranges)
  else follow (incTop omalloc) (incBody omalloc) (incLast omalloc) fuel (.next [] ranges start size 0)

end Incread

section Decread
variable (omalloc : Nat → Bool) (self : Cursor bits)

/-- The request begins inside of the current range or behind it. -/
def decInside : Flow bits :=
  let range := self.range
  if rangeEnd range ≤ self.start then self.next
  else
    let overlap := min (rangeEnd range - self.start) self.size
    if self.start + overlap = rangeEnd range then
      if range.lrLocks = 1 then
        { self with range := { range with lrSize := range.lrSize - overlap } }.consume
          overlap Cursor.next
      else if omalloc self.used then
        { self with
          range := { range with lrSize := range.lrSize - overlap }
          rest := ⟨self.start, overlap, range.lrLocks - 1⟩ :: self.rest
          used := self.used + 1 }.consume overlap Cursor.next
      else .stop false self.ranges
    else
      let kept := { range with lrSize := self.start - range.lrStart }
      let behind := ⟨self.start + overlap, rangeEnd range - (self.start + overlap), range.lrLocks⟩
      if range.lrLocks = 1 then
        if omalloc self.used then .stop true
          { self with range := kept, rest := behind :: self.rest }.ranges
        else .stop false self.ranges
      else if omalloc self.used then
        if omalloc (self.used + 1) then
          .stop true { self with range := kept, rest := ⟨self.start, overlap, range.lrLocks - 1⟩ ::
            behind :: self.rest }.ranges
        else .stop false self.ranges
      else .stop false self.ranges

/-- A part of the request at the start of a range is done. It does not go on below a range. -/
def decOnward : Flow bits :=
  if self.start = self.range.lrStart then .back self
  else if self.start < self.range.lrStart then .crash
  else decInside omalloc self

/-- The current range is merged with the next one where both fit. -/
def mergeNext : Cursor bits :=
  match self.rest with
  | [] => self
  | next :: rest =>
    if next.lrLocks = self.range.lrLocks ∧ next.lrStart = rangeEnd self.range then
      { self with range := { self.range with lrSize := self.range.lrSize + next.lrSize }, rest }
    else self

/-- The counter of the current range was lowered. -/
def decLowered (overlap : Nat) : Flow bits :=
  self.tryMerge (fun merged => (mergeNext merged).consume overlap (decOnward omalloc)) fun self =>
    (mergeNext self).consume overlap (decOnward omalloc)

/-- The request begins with the current range. -/
def decStart : Flow bits :=
  let range := self.range
  let overlap := min range.lrSize self.size
  if range.lrLocks = 1 then
    if range.lrSize - overlap = 0 then
      if self.size - overlap = 0 then .stop true (self.front.reverse ++ self.rest)
      else
        match self.rest with
        | [] => .crash
        | next :: rest => decOnward omalloc
            { self with range := next, rest, start := self.start + overlap, size := self.size - overlap }
    else
      { self with range := { range with lrStart := range.lrStart + overlap, lrSize := range.lrSize -
        overlap } }.consume
        overlap (decOnward omalloc)
  else if overlap = range.lrSize then
    decLowered omalloc { self with range := { range with lrLocks := range.lrLocks - 1 } } overlap
  else if omalloc self.used then
    decLowered omalloc
      { self with
        range := ⟨range.lrStart, overlap, range.lrLocks - 1⟩
        rest := ⟨self.start + overlap, range.lrSize - overlap, range.lrLocks⟩ :: self.rest
        used := self.used + 1 } overlap
  else .stop false self.ranges

/-- One turn of the loop. A request below the current range fails an assertion. -/
def decTop : Flow bits :=
  if self.start < self.range.lrStart then .crash
  else if self.start = self.range.lrStart then decStart omalloc self
  else decInside omalloc self

/-- This is `inode_flock_decread`. Behind the last range a null pointer is read. -/
def inodeFlockDecread (fuel : Nat) (ranges : List (LockRange bits)) (start size : Nat) :
    Option (Bool × List (LockRange bits)) :=
  if size = 0 then some (true, ranges)
  else follow (decTop omalloc) (decStart omalloc) (fun _ _ _ _ => .crash) fuel
    (.next [] ranges start size 0)

end Decread

end FileLock

end KosKernel.Fs
