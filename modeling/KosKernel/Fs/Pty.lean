/- The line discipline of `kernel/fs/pty.c` with its canon buffer, for one writer whose allocations
succeed. -/

import Mathlib.Algebra.Group.Nat.Defs
import Mathlib.Data.List.Basic

namespace KosKernel.Fs

/-- This is `struct canonbuffer`, with the bytes up to `cb_pos` and the size up to `cb_end`. -/
structure CanonBuffer where
  data : List UInt8
  size : Nat
  cbMaxsize : Nat

/-- This is `struct canon`. -/
structure Canon where
  data : List UInt8
  size : Nat

namespace CanonBuffer

/-- The size for which `canonbuffer_write` asks, computed in `size_t`. -/
def wantedSize (bits : Nat) (self : CanonBuffer) (bufsize : Nat) : Nat :=
  let newsize := if self.data.length + bufsize < 2 ^ bits then self.data.length + bufsize
    else 2 ^ bits - 1
  if self.cbMaxsize ≤ newsize then self.cbMaxsize else newsize

/-- The size that is allocated, with `CEIL_ALIGN` to 128 bytes. -/
def allocatedSize (bits : Nat) (self : CanonBuffer) (newsize : Nat) : Nat :=
  min ((newsize + 127) % 2 ^ bits / 128 * 128) self.cbMaxsize

/-- This is `canonbuffer_write`. -/
def write (bits : Nat) (self : CanonBuffer) (bytes : List UInt8) : CanonBuffer × Nat :=
  if bytes.length ≤ self.size - self.data.length then ({ self with data := self.data ++ bytes },
    bytes.length)
  else
    let newsize := self.wantedSize bits bytes.length
    if newsize = self.size then (self, 0)
    else
      let newsize := self.allocatedSize bits newsize
      let result := min (newsize - self.data.length) bytes.length
      ({ self with data := self.data ++ bytes.take result, size := newsize }, result)

variable (self : CanonBuffer)

/-- This is `canonbuffer_clear`. -/
def clear : CanonBuffer × Nat := ({ self with data := [] }, self.data.length)

/-- This is `canonbuffer_erase`. -/
def erase (max : Nat) : CanonBuffer × Nat :=
  ({ self with data := self.data.take (self.data.length - max) }, min max self.data.length)

/-- This is `canonbuffer_capture`. -/
def capture : CanonBuffer × Canon := ({ self with data := [], size := 0 }, ⟨self.data, self.size⟩)

/-- This is `canonbuffer_release`. -/
def release (canon : Canon) : CanonBuffer :=
  if self.size = 0 then { self with data := [], size := canon.size } else self

end CanonBuffer

/-- The control characters of `c_cc` that the master looks at. -/
structure ControlChars where
  vintr : UInt8
  vquit : UInt8
  verase : UInt8
  vkill : UInt8
  veof : UInt8
  veol : UInt8
  veol2 : UInt8

/-- What a character asks for. -/
inductive Control where
  | endLine
  | kill
  | erase
  | signal (signum : Nat)
  | eof
  | plain
  deriving DecidableEq

/-- The branches of `master_canon_write_impl` in their order. -/
def ControlChars.control (cc : ControlChars) (ch : UInt8) : Control :=
  if ch = 10 ∨ ch = cc.veol ∨ ch = cc.veol2 then .endLine
  else if ch = cc.vkill then .kill
  else if ch = cc.verase then .erase
  else if ch = cc.vintr ∨ ch = cc.vquit then .signal (if ch = cc.vintr then 2 else 3)
  else if ch = cc.veof then .eof
  else .plain

/-- The width of `size_t`, the limit of `pm_m2s`, `pm_ios` and the presence of `pm_fproc`. -/
structure PtySettings where
  bits : Nat
  m2sMaxsize : Nat
  cCc : ControlChars
  icanon : Bool
  echo : Bool
  onlcr : Bool
  pmFproc : Bool

/-- This is `struct ptymaster` with all that went through its buffers. -/
structure PtyMaster where
  pmCanon : CanonBuffer
  pmM2s : List UInt8
  pmS2m : List UInt8
  interrupts : Nat
  signals : List Nat

namespace PtyMaster
variable (settings : PtySettings) (self : PtyMaster) (bytes : List UInt8)

/-- The bytes that `iobuffer_write` with `IO_BLOCKNONE` takes for the slave. -/
def m2sWrite : PtyMaster :=
  { self with pmM2s := self.pmM2s ++ bytes.take (settings.m2sMaxsize - self.pmM2s.length) }

/-- The loop of `master_s2m_write_crlf` ends behind the first line. -/
def crlf : List UInt8 :=
  let line := bytes.takeWhile (· ≠ 10)
  if line.length = bytes.length then line else line ++ [13, 10]

/-- This is `master_s2m_write`. -/
def s2mWrite : PtyMaster :=
  { self with pmS2m := self.pmS2m ++ if settings.onlcr then crlf bytes else bytes }

/-- The macro `PRINT`. -/
def print : PtyMaster × Nat :=
  let written := self.pmCanon.write settings.bits bytes
  let self := { self with pmCanon := written.1 }
  (if settings.echo then self.s2mWrite settings bytes else self, written.2)

/-- The macro `PRINT` behind the test that there is something to print. -/
def printSome : PtyMaster × Nat :=
  if bytes = [] then (self, 0) else self.print settings bytes

/-- This is `pty_dump_canon`. -/
def dumpCanon : PtyMaster :=
  let captured := self.pmCanon.capture
  let self := { self with pmCanon := captured.1 }.m2sWrite settings captured.2.data
  { self with pmCanon := self.pmCanon.release captured.2 }

/-- The code behind the label `handle_clear`. -/
def echoClear (nClear : Nat) : PtyMaster :=
  if settings.echo then nClear.repeat (fun self => self.s2mWrite settings [8, 32, 8]) self else self

/-- The echo of a control character. -/
def echoControl (ch : UInt8) : PtyMaster :=
  if settings.echo then { self with pmS2m := self.pmS2m ++ [94, 64 + ch] } else self

/-- The branch for `VEOF`. -/
def endOfFile : PtyMaster :=
  let captured := self.pmCanon.capture
  let self := { self with pmCanon := captured.1 }
  let self := if captured.2.data.length ≠ 0 then { self with interrupts := self.interrupts + 1 }
    else self.m2sWrite settings captured.2.data
  { self with pmCanon := self.pmCanon.release captured.2 }

/-- What a control character does to the printed line. -/
def handle (ch : UInt8) : Control → PtyMaster
  | .endLine => self.dumpCanon settings
  | .kill =>
    let cleared := self.pmCanon.clear
    { self with pmCanon := cleared.1 }.echoClear settings cleared.2
  | .erase =>
    let erased := self.pmCanon.erase 1
    { self with pmCanon := erased.1 }.echoClear settings erased.2
  | .signal signum =>
    let self := self.echoControl settings ch
    if settings.pmFproc then { self with signals := self.signals ++ [signum] } else self
  | .eof => self.endOfFile settings
  | .plain => self

/-- The bytes that a control character prints before it acts. -/
def flushed (run : List UInt8) (ch : UInt8) : Control → List UInt8
  | .endLine => run ++ [ch]
  | .kill => []
  | .erase | .signal _ | .eof => run
  | .plain => []

/-- The loop of `master_canon_write_impl`. -/
def canonLoop : List UInt8 → List UInt8 → PtyMaster → Nat → PtyMaster × Nat
  | [], run, self, result =>
    let printed := self.printSome settings run
    (printed.1, result + printed.2)
  | ch :: rest, run, self, result =>
    let control := settings.cCc.control ch
    if control = .plain then canonLoop rest (run ++ [ch]) self result
    else
      let printed := self.printSome settings (flushed run ch control)
      canonLoop rest [] (printed.1.handle settings ch control) (result + printed.2)

/-- This is `master_write`. -/
def masterWrite (buf : List UInt8) : PtyMaster × Nat :=
  if settings.icanon then canonLoop settings buf [] self 0
  else
    let self := if settings.echo then self.s2mWrite settings buf else self
    (self.m2sWrite settings buf, min buf.length (settings.m2sMaxsize - self.pmM2s.length))

/-- Some calls of `master_write`. -/
def masterWrites (calls : List (List UInt8)) : PtyMaster :=
  calls.foldl (fun self buf => (self.masterWrite settings buf).1) self

/-- A new terminal. -/
def fresh (cbMaxsize : Nat) : PtyMaster := ⟨⟨[], 0, cbMaxsize⟩, [], [], 0, []⟩

end PtyMaster

end KosKernel.Fs
