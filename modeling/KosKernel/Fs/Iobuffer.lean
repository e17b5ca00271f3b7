/- This file embeds `struct iobuffer` with its non-blocking calls. Positions are offsets from
`ib_buffer`. -/

import KosKernel.Fs.AtomicIobuffer

namespace KosKernel.Fs
open Window

/-- This is `struct iobuffer` without its signals, its lock and its interrupt flag. -/
structure Iobuffer where
  ibMaxsize : Nat
  ibSize : Nat
  ibBuffer : Nat → Byte
  ibRpos : Nat
  ibWpos : Nat

/-- These are the flags that a non-blocking read may carry. -/
structure IoMode where
  ioPeek : Bool
  ioSkip : Bool

/-- This is `IO_BLOCKNONE` without other flags. -/
def ioBlockNone : IoMode := ⟨false, false⟩

namespace Iobuffer

/-- This is `IOBUFFER_INIT_EX`, a buffer without memory. -/
def init (maxSize : Nat) : Iobuffer := ⟨maxSize, 0, fun _ => 0, 0, 0⟩

variable (self : Iobuffer)

/-- This is `IOBUFFER_MAXREAD` at the current read position. -/
def maxRead : Nat :=
  if self.ibRpos < self.ibWpos then self.ibWpos - self.ibRpos
  else self.ibSize - (self.ibRpos - self.ibWpos)

/-- This is `IOBUFFER_MAXWRITE` at the current read position. -/
def maxWrite : Nat :=
  if self.ibWpos ≤ self.ibRpos then self.ibRpos - self.ibWpos
  else self.ibSize - (self.ibWpos - self.ibRpos)

/-- The reader copies the upper and then the lower half and names its last position. -/
def copyOut (bufsize : Nat) : List Byte × Nat :=
  if self.maxRead = 0 then ([], self.ibRpos) else
  let linear := min (min self.maxRead (self.ibSize - self.ibRpos)) bufsize
  let upper := slice self.ibBuffer self.ibRpos linear
  if bufsize = linear ∨ (self.ibRpos + linear = self.ibWpos ∧ linear = self.maxRead) then
    (upper, self.ibRpos + linear)
  else
    let low := min self.ibWpos (bufsize - linear)
    (upper ++ slice self.ibBuffer 0 low, low)

/-- The read position that meets the write position resets the buffer to its empty state. -/
def commitRead (rpos : Nat) : Iobuffer :=
  if rpos = self.ibWpos then { self with ibWpos := 0, ibRpos := self.ibSize }
  else { self with ibRpos := rpos }

/-- This is `iobuffer_read` without blocking. -/
def read (bufsize : Nat) (mode : IoMode) : Iobuffer × List Byte × Nat :=
  let (bytes, rpos) := self.copyOut bufsize
  (if mode.ioPeek then self else self.commitRead rpos, if mode.ioSkip then [] else bytes, bytes.length)

/-- A `krealloc` with `GFP_CALLOC` keeps the old bytes and clears the new ones. -/
def krealloc (buffer : Nat → Byte) (oldSize newSize : Nat) : Nat → Byte := fun position =>
  if position < min oldSize newSize then buffer position else 0

/-- The growth keeps both offsets, but a read position at the end stays there. -/
def realloc (newSize : Nat) : Iobuffer :=
  { self with
    ibBuffer := krealloc self.ibBuffer self.ibSize newSize
    ibRpos := if self.ibRpos = self.ibSize ∧ self.ibSize ≠ 0 then newSize else self.ibRpos
    ibSize := newSize }

/-- The size that the writer asks for, clamped to `ib_maxsize`. -/
def wantedSize (bits : Nat) (self : Iobuffer) (bufsize maxWrite : Nat) : Nat :=
  min ((self.ibSize + (bufsize - maxWrite)) % 2 ^ bits) self.ibMaxsize

/-- The upper copy must not pass a read position above the write position. -/
def upperRoom : Nat :=
  if self.ibWpos < self.ibRpos then min (self.ibSize - self.ibWpos) (self.ibRpos - self.ibWpos)
  else self.ibSize - self.ibWpos

/-- A copy moves the bytes to `position` and leaves the write position behind them. -/
def putAt (position : Nat) (bytes : List Byte) : Iobuffer :=
  { self with ibBuffer := store self.ibBuffer position bytes, ibWpos := position + bytes.length }

/-- A write that stored something moves a read position at the end back to the start. -/
def finishWrite (result : Nat) : Iobuffer × Nat :=
  (if result ≠ 0 ∧ self.ibRpos = self.ibSize then { self with ibRpos := 0 } else self, result)

/-- A pass over the ring ends the call or jumps back to `buffer_is_full`. -/
inductive PassEnd where
  | finished (next : Iobuffer) (stored : Nat)
  | isFull (next : Iobuffer) (stored maxWrite : Nat)

/-- The pass copies into the upper portion and, behind its end, into the lower. -/
def copyPass (buf : List Byte) : PassEnd :=
  let high := min self.upperRoom buf.length
  let upper := self.putAt self.ibWpos (buf.take high)
  if buf.length = high then .finished upper high else
  if upper.ibWpos ≠ upper.ibSize then .isFull upper high 0 else
  if upper.ibRpos = 0 ∨ upper.ibRpos = upper.ibSize then .isFull upper high upper.ibRpos else
  let rest := buf.drop high
  let low := min upper.ibRpos rest.length
  let lower := upper.putAt 0 (rest.take low)
  if rest.length = low then .finished lower (high + low) else .isFull lower (high + low) low

/-- The writer from its label `buffer_is_full` on. -/
def writeLoop (bits : Nat) : Nat → Iobuffer → List Byte → Nat → Nat → Option (Iobuffer × Nat)
  | 0, _, _, _, _ => none
  | fuel + 1, self, buf, maxWrite, result =>
    let newSize := self.wantedSize bits buf.length maxWrite
    if maxWrite < buf.length ∧ newSize = self.ibSize ∧ maxWrite = 0 then
      some (self.finishWrite result)
    else
    let grown := if maxWrite < buf.length ∧ newSize ≠ self.ibSize then self.realloc newSize else self
    match grown.copyPass buf with
    | .finished next stored => some (next.finishWrite (result + stored))
    | .isFull next stored left => writeLoop bits fuel next (buf.drop stored) left (result + stored)

/-- This is `iobuffer_write` without blocking. -/
def write (bits : Nat) (self : Iobuffer) (buf : List Byte) : Option (Iobuffer × Nat) :=
  writeLoop bits (buf.length + 2) self buf self.maxWrite 0

end Iobuffer

end KosKernel.Fs
