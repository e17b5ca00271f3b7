/- The conversions of `libs/libc/unicode.c`. With `UNICODE_F_NOFAIL` a conversion need not return,
so the loops get fuel. -/

import Mathlib.Data.Nat.Bitwise

namespace KosKernel.Libc

/-- The table `uni_bytemarks`. -/
def uniBytemarks : List Nat := [0x00, 0x00, 0xC0, 0xE0, 0xF0, 0xF8, 0xFC]

/-- The table `utf8_trailing_bytes`. -/
def utf8TrailingBytes (byte : UInt8) : Nat :=
  if byte.toNat < 0xC0 then 0
  else if byte.toNat < 0xE0 then 1
  else if byte.toNat < 0xF0 then 2
  else if byte.toNat < 0xF8 then 3
  else if byte.toNat < 0xFC then 4
  else 5

/-- The table `utf8_offsets`. -/
def utf8Offsets : List Nat := [0x00000000, 0x00003080, 0x000E2080, 0x03C82080, 0xFA082080, 0x82082080]

/-- The flags `UNICODE_F_*`. -/
structure UnicodeMode where
  noZeroTerm : Bool := false
  alwaysZeroTerm : Bool := false
  stopOnNul : Bool := false
  doSingle : Bool := false
  utf16Half : Bool := false
  updateSrc : Bool := false
  setErrno : Bool := false
  noFail : Bool := false
  deriving DecidableEq

/-- This is `mbstate_t`, with its fields `__count` and `__value.__wch`. -/
structure MbState where
  count : Nat
  wch : Nat
  deriving DecidableEq

namespace MbState
variable (state : MbState)

/-- This is `MBSTATE_GETMISSING`. -/
def missing : Nat := state.count % 256

/-- This is `MBSTATE_GETSRCSIZE`. -/
def srcSize : Nat := state.count / 2 ^ 16 % 256

/-- This is `MBSTATE_SETCOUNT`. -/
def setCount (missing srcSize : Nat) : MbState := { state with count := missing ||| srcSize <<< 16 }

end MbState

/-- The result of a conversion. An error tells if it set `errno` to `EILSEQ`. -/
inductive UnicodeReply where
  | size (units : Nat)
  | utf16Half
  | error (errno : Bool)
  deriving DecidableEq

/-- What a conversion leaves. The source that is left is stored with `UNICODE_F_UPDATESRC`. -/
structure Conversion (α β : Type) where
  reply : UnicodeReply
  buf : List β
  src : Option (List α)
  state : MbState
  deriving DecidableEq

/-- The target of a conversion. -/
structure Target (β : Type) where
  buf : List β
  dst : Nat

variable {α β : Type}

/-- A unit is stored if the position lies in the buffer. -/
def Target.put (out : Target β) (unit : β) : Target β := ⟨out.buf.set out.dst unit, out.dst + 1⟩

variable (mode : UnicodeMode)

/-- The code behind the label `done`. -/
def done (iter : List α) (out : Target β) (state : MbState) : Conversion α β :=
  ⟨.size out.dst, out.buf, if mode.updateSrc then some iter else none, state⟩

/-- The code behind the loop. -/
def loopEnd [OfNat β 0] (mode : UnicodeMode) (iter : List α) (out : Target β) (state : MbState) :
    Conversion α β :=
  done mode iter (if mode.noZeroTerm then out else out.put 0) state

/-- This is `GOTO_DONE`. -/
def gotoDone [OfNat β 0] (mode : UnicodeMode) (iter : List α) (out : Target β) (state : MbState) :
    Conversion α β :=
  done mode iter (if mode.alwaysZeroTerm && !mode.noZeroTerm then out.put 0 else out) state

/-- How an iteration of a loop ends. -/
inductive Iteration (α β : Type) where
  | next (iter : List α) (out : Target β)
  | stop (result : Conversion α β)

/-- A loop of a conversion. -/
def loop (body : List α → Target β → Iteration α β) : Nat → Iteration α β → Option (Conversion α β)
  | _, .stop result => some result
  | 0, .next _ _ => none
  | fuel + 1, .next iter out => loop body fuel (body iter out)

/-- The end of an iteration. -/
def charDone [OfNat β 0] (mode : UnicodeMode) (iter : List α) (out : Target β) (state : MbState) :
    Iteration α β :=
  if mode.doSingle then .stop (loopEnd mode iter out state) else .next iter out

/-- The code behind the label `err`. -/
def onError [OfNat β 0] [OfNat β 0x3F] (mode : UnicodeMode) (iter : List α) (out : Target β)
    (state : MbState) : Iteration α β :=
  if mode.noFail then charDone mode iter (out.put 0x3F) state
  else .stop ⟨.error mode.setErrno, out.buf, none, state⟩

/-- The byte continues a character. -/
def isTail (ch : UInt8) : Bool := 0x80 ≤ ch.toNat && ch.toNat ≤ 0xBF

/-- The bounds of the second byte. -/
def secondCheck (lead ch : UInt8) : Bool :=
  if lead.toNat = 0xE0 then 0xA0 ≤ ch.toNat
  else if lead.toNat = 0xED then ch.toNat ≤ 0x9F
  else if lead.toNat = 0xF0 then 0x90 ≤ ch.toNat
  else if lead.toNat = 0xF4 then ch.toNat ≤ 0x8F
  else 0x80 ≤ ch.toNat

/-- The bounds of the first byte. -/
def leadCheck (lead : UInt8) : Bool := !(0x80 ≤ lead.toNat && lead.toNat < 0xC2) && lead.toNat ≤ 0xF4

/-- This is `libc_utf8_check`. -/
def utf8Check : List UInt8 → Bool
  | [lead] => leadCheck lead
  | [lead, second] => isTail second && secondCheck lead second && leadCheck lead
  | [lead, second, third] => isTail third && isTail second && secondCheck lead second && leadCheck lead
  | [lead, second, third, fourth] =>
    isTail fourth && isTail third && isTail second && secondCheck lead second && leadCheck lead
  | _ => false

/-- The switches that read the bytes of a character. -/
def readChar : List UInt8 → Nat → Nat
  | [], ch => ch
  | [byte], ch => (ch + byte.toNat) % 2 ^ 32
  | byte :: rest, ch => readChar rest ((ch + byte.toNat) % 2 ^ 32 * 64 % 2 ^ 32)

/-- How a decoded character is stored. -/
inductive Stored (β : Type) where
  | put (out : Target β)
  | illegal
  | half (out : Target β) (state : MbState)

/-- The value is half of a pair of UTF-16. -/
def isSurrogate (ch : Nat) : Bool := 0xD800 ≤ ch && ch ≤ 0xDFFF

/-- The code of `libc_utf8to32` that stores a character. -/
def store32 (out : Target UInt32) (ch : Nat) : Stored UInt32 :=
  if 0x10FFFF < ch then .illegal
  else if isSurrogate ch then .illegal
  else .put (out.put (.ofNat ch))

variable (state : MbState)

/-- The code of `libc_utf8to16` that stores a character. -/
def store16 (out : Target UInt16) (ch srcSize : Nat) : Stored UInt16 :=
  if ch ≤ 0xFFFF then if isSurrogate ch then .illegal else .put (out.put (.ofNat ch))
  else if 0x10FFFF < ch then .illegal
  else
    let ch := ch - 0x10000
    let out := out.put (.ofNat (ch >>> 10 + 0xD800))
    if out.dst < out.buf.length then .put (out.put (.ofNat (ch % 0x400 + 0xDC00)))
    else if mode.utf16Half then
      .half (if mode.noZeroTerm then out else out.put 0)
        { state.setCount 0 srcSize with wch := (ch % 0x400 + 0x10000 + utf8Offsets.getD srcSize 0) %
          2 ^ 32 }
    else .put { out with dst := out.dst + 1 }

section Decode
variable [OfNat β 0] [OfNat β 0x3F] (store : Target β → Nat → Nat → Stored β) (mode : UnicodeMode)
  (state : MbState)

/-- The code of `libc_utf8to32` and `libc_utf8to16` behind the label `got_char`. -/
def gotChar (iter : List UInt8) (out : Target β) (ch srcSize : Nat) : Iteration UInt8 β :=
  match store out ((ch + 2 ^ 32 - utf8Offsets.getD srcSize 0) % 2 ^ 32) srcSize with
  | .put out => charDone mode iter out state
  | .illegal => onError mode iter out state
  | .half out state => .stop ⟨.utf16Half, out.buf, if mode.updateSrc then some iter else none, state⟩

/-- An iteration of the loops of `libc_utf8to32` and `libc_utf8to16`. -/
def decodeBody (iter : List UInt8) (out : Target β) : Iteration UInt8 β :=
  match iter with
  | [] => .stop (loopEnd mode [] out state)
  | lead :: _ =>
    if mode.stopOnNul && lead = 0 then .stop (loopEnd mode iter out state)
    else
      let srcSize := utf8TrailingBytes lead
      if iter.length < srcSize + 1 then
        .stop (gotoDone mode [] out { state.setCount (srcSize + 1 - iter.length) srcSize
          with wch := readChar iter 0 })
      else if utf8Check (iter.take (srcSize + 1)) then
        gotChar store mode state (iter.drop (srcSize + 1)) out
          (readChar (iter.take (srcSize + 1)) 0) srcSize
      else onError mode iter out state

/-- The common code of the decoders. -/
def decode (fuel : Nat) (utf8 : List UInt8) (buf : List β) : Option (Conversion UInt8 β) :=
  if state.count ≠ 0 then
    if utf8.length < state.missing then some (gotoDone mode utf8 ⟨buf, 0⟩ state)
    else
      let count := if state.missing ≤ 5 then state.missing else 0
      let cleared := { state with count := 0 }
      loop (decodeBody store mode cleared) fuel
        (gotChar store mode cleared (utf8.drop count) ⟨buf, 0⟩
          (readChar (utf8.take count) state.wch) state.srcSize)
  else loop (decodeBody store mode state) fuel (.next utf8 ⟨buf, 0⟩)

end Decode

variable (fuel : Nat)

/-- This is `libc_utf8to32`. -/
def utf8to32 (utf8 : List UInt8) (utf32 : List UInt32) (state : MbState) (mode : UnicodeMode) :
    Option (Conversion UInt8 UInt32) :=
  decode (fun out ch _ => store32 out ch) mode state fuel utf8 utf32

/-- This is `libc_utf8to16`. -/
def utf8to16 (utf8 : List UInt8) (utf16 : List UInt16) (state : MbState) (mode : UnicodeMode) :
    Option (Conversion UInt8 UInt16) :=
  decode (store16 mode { state with count := 0 }) mode state fuel utf8 utf16

/-- The number of bytes of a character. -/
def dstSize (ch : Nat) : Option Nat :=
  if ch < 0x80 then some 1
  else if ch < 0x800 then some 2
  else if ch < 0x10000 then some 3
  else if ch ≤ 0x10FFFF then some 4
  else none

/-- A byte that continues a character. -/
def tailByte (ch : Nat) : UInt8 := .ofNat ((ch ||| 0x80) &&& 0xBF)

/-- The first byte of a character of the given size. -/
def leadByte (size ch : Nat) : UInt8 := .ofNat (ch ||| uniBytemarks.getD size 0)

/-- The statement `if (dst < dst_end) { *dst++ = byte; } ++dst` of `libc_utf32to8`. -/
def Target.putTwice (out : Target UInt8) (byte : UInt8) : Target UInt8 :=
  if out.dst < out.buf.length then ⟨out.buf.set out.dst byte, out.dst + 2⟩ else ⟨out.buf, out.dst + 1⟩

/-- The switch of `libc_utf32to8`, which starts with the last byte. -/
def putForward (size : Nat) : Nat → Nat → Target UInt8 → Target UInt8
  | 0, _, out => out
  | 1, ch, out => out.put (leadByte size ch)
  | count + 2, ch, out => putForward size (count + 1) (ch >>> 6) (out.putTwice (tailByte ch))

/-- An iteration of `libc_utf32to8`. -/
def body32to8 (iter : List UInt32) (out : Target UInt8) : Iteration UInt32 UInt8 :=
  match iter with
  | [] => .stop (loopEnd mode [] out state)
  | unit :: iter =>
    let ch := unit.toNat
    if ch = 0 ∧ mode.stopOnNul then .stop (loopEnd mode iter out state)
    else if isSurrogate ch then onError mode iter out state
    else
      match dstSize ch with
      | none => onError mode iter out state
      | some size => charDone mode iter (putForward size size ch out) state

/-- This is `libc_utf32to8`. -/
def utf32to8 (utf32 : List UInt32) (utf8 : List UInt8) (state : MbState) (mode : UnicodeMode) :
    Option (Conversion UInt32 UInt8) :=
  loop (body32to8 mode state) fuel (.next utf32 ⟨utf8, 0⟩)

/-- The statement `if (temp < dst_end) { temp[-1] = byte; }` of `libc_utf16to8`. -/
def putBehind (buf : List UInt8) (temp : Nat) (byte : UInt8) : List UInt8 :=
  if temp < buf.length then buf.set (temp - 1) byte else buf

/-- The switch of `libc_utf16to8`. -/
def putBackward (size : Nat) : Nat → Nat → Nat → List UInt8 → List UInt8
  | 0, _, _, buf => buf
  | 1, ch, temp, buf => putBehind buf temp (leadByte size ch)
  | count + 2, ch, temp,
    buf => putBackward size (count + 1) (ch >>> 6) (temp - 1) (putBehind buf temp (tailByte ch))

/-- The code of `libc_utf16to8` behind the label `second_char`. -/
def secondChar (ch : Nat) (second : UInt16) (iter : List UInt16) (out : Target UInt8) :
    Iteration UInt16 UInt8 :=
  let low := second.toNat
  if low < 0xDC00 ∨ 0xDFFF < low then onError mode (second :: iter) out state
  else
    let ch := ((ch + 2 ^ 32 - 0xD800) % 2 ^ 32 * 0x400 + (low - 0xDC00) + 0x10000) % 2 ^ 32
    match dstSize ch with
    | none => onError mode iter out state
    | some size =>
      charDone mode iter ⟨putBackward size size ch (out.dst + size) out.buf, out.dst + size⟩ state

/-- An iteration of `libc_utf16to8`. -/
def body16to8 (iter : List UInt16) (out : Target UInt8) : Iteration UInt16 UInt8 :=
  match iter with
  | [] => .stop (loopEnd mode [] out state)
  | unit :: iter =>
    let ch := unit.toNat
    if ch = 0 ∧ mode.stopOnNul then .stop (loopEnd mode iter out state)
    else if ch < 0xD800 ∨ 0xDBFF < ch then onError mode iter out state
    else
      match iter with
      | [] => .stop (gotoDone mode [] out ⟨2, ch⟩)
      | second :: iter => secondChar mode state ch second iter out

/-- This is `libc_utf16to8`. -/
def utf16to8 (utf16 : List UInt16) (utf8 : List UInt8) (state : MbState) (mode : UnicodeMode) :
    Option (Conversion UInt16 UInt8) :=
  if state.count ≠ 0 then
    match utf16 with
    | [] => some (gotoDone mode [] ⟨utf8, 0⟩ state)
    | second :: iter =>
      let cleared := { state with count := 0 }
      loop (body16to8 mode cleared) fuel (secondChar mode cleared state.wch second iter ⟨utf8, 0⟩)
  else loop (body16to8 mode state) fuel (.next utf16 ⟨utf8, 0⟩)

end KosKernel.Libc
