/- This file embeds `struct atomic_iobuffer` for calls that run one after another. Positions are
offsets from `aib_buffer`. -/

import KosKernel.Library.Window

namespace KosKernel.Fs
open Window

/-- The ring content is raw bytes. -/
abbrev Byte := UInt8

/-- This is `struct atomic_iobuffer` without its signal and its lock. -/
structure AtomicIobuffer where
  aibSize : Nat
  aibBuffer : Nat → Byte
  aibRpos : Nat
  aibWpos : Nat
  aibApos : Nat

namespace AtomicIobuffer

/-- The initial state encodes the empty ring by a read position past the last byte. -/
def init (buffer : Nat → Byte) (size : Nat) : AtomicIobuffer :=
  ⟨size, buffer, size, 0, 0⟩

variable (self : AtomicIobuffer)

/-- This is `ATOMIC_IOBUFFER_MAXREAD`. -/
def maxRead (rpos apos : Nat) : Nat :=
  if rpos < apos then apos - rpos else self.aibSize - (rpos - apos)

/-- This is `ATOMIC_IOBUFFER_MAXWRITE`. -/
def maxWrite (rpos wpos : Nat) : Nat :=
  if wpos ≤ rpos then rpos - wpos else self.aibSize - (wpos - rpos)

/-- The available bytes are those between the read and the avail position. -/
def available : Nat := self.maxRead self.aibRpos self.aibApos

/-- The space is what one pass of the writer may claim. -/
def space : Nat := self.maxWrite self.aibRpos self.aibWpos

/-- A pass copies `bufavail` bytes and names the next read position. -/
def copyOut (bufavail : Nat) : List Byte × Nat :=
  let highCopy := self.aibSize - self.aibRpos
  if bufavail ≤ highCopy then
    (slice self.aibBuffer self.aibRpos bufavail, self.aibRpos + bufavail)
  else
    let lowCopy := bufavail - highCopy
    (slice self.aibBuffer self.aibRpos highCopy ++ slice self.aibBuffer 0 lowCopy, lowCopy)

/-- The outer loop of a non-blocking reader. A failed exchange has already reset `aib_apos`. -/
def readLoop : Nat → AtomicIobuffer → Nat → List Byte → Option (AtomicIobuffer × List Byte)
  | 0, _, _, _ => none
  | fuel + 1, self, bufsiz, result =>
    if bufsiz = 0 then some (self, result) else
    let bufavail := min self.available bufsiz
    if bufavail = 0 then some (self, result) else
    let (chunk, newRpos) := self.copyOut bufavail
    if newRpos = self.aibApos then
      if self.aibWpos = self.aibApos then
        readLoop fuel { self with aibApos := 0, aibWpos := 0, aibRpos := self.aibSize }
          (bufsiz - bufavail) (result ++ chunk)
      else
        readLoop fuel { self with aibApos := 0 } bufsiz result
    else
      readLoop fuel { self with aibRpos := newRpos } (bufsiz - bufavail) (result ++ chunk)

/-- This is `atomic_iobuffer_read` with `blocking = false`. -/
def read (bufsiz : Nat) : Option (AtomicIobuffer × List Byte) :=
  readLoop (bufsiz + 1) self bufsiz []

/-- One pass of the writer copies `bufavail` bytes and moves both write positions. -/
def copyIn (buf : List Byte) (bufavail : Nat) : AtomicIobuffer :=
  let highCopy := min (self.aibSize - self.aibWpos) bufavail
  let advanced := self.aibWpos + highCopy
  let newWpos := if self.aibSize < advanced then advanced - self.aibSize else advanced
  let high := store self.aibBuffer self.aibWpos (buf.take highCopy)
  let low := store high 0 ((buf.drop highCopy).take (bufavail - highCopy))
  { self with aibBuffer := low, aibWpos := newWpos, aibApos := newWpos }

/-- The outer loop of the writer stops when no space is left. -/
def kwriteLoop : Nat → AtomicIobuffer → List Byte → Nat → Option (AtomicIobuffer × Nat)
  | 0, _, _, _ => none
  | fuel + 1, self, buf, result =>
    if buf.length = 0 then some (self, result) else
    if self.space = 0 then some (self, result) else
    let bufavail := min self.space buf.length
    kwriteLoop fuel (self.copyIn buf bufavail) (buf.drop bufavail) (result + bufavail)

/-- This is `atomic_iobuffer_kwrite`. -/
def kwrite (buf : List Byte) : Option (AtomicIobuffer × Nat) :=
  kwriteLoop (buf.length + 1) self buf 0

end AtomicIobuffer

end KosKernel.Fs
