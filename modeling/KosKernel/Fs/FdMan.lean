/- The file descriptor table of `kernel/fs/fd.c` without assertions. Each call is given the memory
behind the vector. -/

import Mathlib.Algebra.Group.Int.Defs
import Mathlib.Algebra.Group.Nat.Defs
import Mathlib.Logic.Function.Basic

namespace KosKernel.Fs

/-- The values `FD_TYPE_*`. -/
inductive FdType where
  | null
  | inode
  | file
  | dentry
  | task
  | mman
  | stack
  deriving DecidableEq

/-- This is `struct fd`. The flags stand in the low bits of the word that holds the type. -/
structure Fd where
  foOps : FdType
  foFlags : Fin 4
  foPtr : Nat
  deriving DecidableEq

namespace Fd

/-- This is `fd_invalid`. -/
def invalid : Fd := ⟨.null, 0, 0⟩

/-- This is `FD_SAFE_ISNULL`. -/
def isNull (descriptor : Fd) : Bool := descriptor.foOps = .null

/-- The flags of `FD_MASK` are cleared. -/
def clearFlags (descriptor : Fd) : Fd := { descriptor with foFlags := 0 }

end Fd

inductive Errno where
  | eok
  | ebadf
  | einval
  | emfile
  | enfile
  deriving DecidableEq

/-- The fields of `struct fdman`. -/
structure FdMan where
  fmCwd : Nat
  fmRoot : Nat
  fmHint : Nat
  fmVeca : Nat
  fmVecc : Nat
  fmVecm : Nat
  fmVecv : Nat → Fd
  strayed : Bool

namespace FdMan

def atFdcwd : Int := -100

def atFdroot : Int := -101

/-- This is `FDMAN_VECTOR_THRESHOLD`. -/
def vectorThreshold : Nat := 8

/-- This is `FDMAN_PUT_RESCAN_START`. -/
def putRescanStart : Nat := 3

/-- This is `CEIL_ALIGN(cnt,FDMAN_VECTOR_THRESHOLD)` on `unsigned int`. -/
def ceilThreshold (cnt : Nat) : Nat :=
  (cnt + (vectorThreshold - 1)) % 2 ^ 32 / vectorThreshold * vectorThreshold

/-- The conversion of a descriptor number to `unsigned int`. -/
def toUnsigned (no : Int) : Nat := (no % 2 ^ 32).toNat

variable (outside : Nat → Fd) (man : FdMan)

def access (index : Nat) : FdMan :=
  { man with strayed := man.strayed || decide (man.fmVeca ≤ index) }

def load (index : Nat) : FdMan × Fd := (man.access index, man.fmVecv index)

def store (index : Nat) (descriptor : Fd) : FdMan :=
  { man.access index with fmVecv := Function.update man.fmVecv index descriptor }

/-- The memory behind the vector may have changed since the last call. -/
def surround (outside : Nat → Fd) : FdMan :=
  { man with fmVecv := fun index => if index < man.fmVeca then man.fmVecv index else outside index }

/-- This is `trealloc`. -/
def trealloc (outside : Nat → Fd) (count : Nat) : FdMan :=
  { man with
    fmVecv := fun index => if index < min man.fmVeca count then man.fmVecv index else outside index
    fmVeca := count }

/-- The loop that clears new slots. -/
def fillInvalid : Nat → Nat → FdMan → FdMan
  | 0, _, man => man
  | count + 1, index, man => fillInvalid count (index + 1) (man.store index .invalid)

/-- This is `fdman_minsize_unlocked`. -/
def minsizeUnlocked (cnt : Nat) : FdMan :=
  if cnt ≤ man.fmVeca then man
  else
    let newAlloc := min (ceilThreshold cnt) man.fmVecm
    fillInvalid (newAlloc - man.fmVeca) man.fmVeca (man.trealloc outside newAlloc)

/-- The numbers that are not in the table name the working directory and the root. -/
def setSpecial (fDent : Nat → Nat) (no : Int) (fp : Fd) : FdMan × Errno :=
  match fp.foOps with
  | .dentry => exchange fp.foPtr
  | .file => exchange (fDent fp.foPtr)
  | _ => (man, .einval)
where
  exchange (dent : Nat) : FdMan × Errno :=
    if no = atFdcwd then ({ man with fmCwd := dent }, .eok)
    else if no = atFdroot then ({ man with fmRoot := dent }, .eok)
    else (man, .enfile)

/-- This is `fdman_set`. -/
def set (fDent : Nat → Nat) (outside : Nat → Fd) (man : FdMan) (no : Int) (fp : Fd) : FdMan × Errno :=
  if man.fmVecm ≤ toUnsigned no then man.setSpecial fDent no fp
  else if man.fmVecm ≤ toUnsigned no + 1 then (man, .ebadf)
  else
    let (man, oldFp) := (man.minsizeUnlocked outside (toUnsigned no + 1)).load (toUnsigned no)
    let man := man.store (toUnsigned no) fp
    (if oldFp.isNull then { man with fmVecc := man.fmVecc + 1 } else man, .eok)

/-- The loop of `fdman_del_unlocked` over the later slots. Its test comes after the access. -/
def scanTail : Nat → FdMan → Nat → FdMan × Bool
  | 0, man, _ => (man, false)
  | fuel + 1, man, pfd =>
    let (man, entry) := man.load (pfd + 1)
    if ¬ entry.isNull then (man, false)
    else if pfd + 1 ≠ man.fmVeca then scanTail fuel man (pfd + 1)
    else (man, true)

/-- The loop that lowers the number to the end of the last used slot. -/
def trim : Nat → FdMan → FdMan × Nat
  | 0, man => (man, 0)
  | no + 1, man =>
    let (man, entry) := man.load no
    if entry.isNull then trim no man else (man, no + 1)

/-- The vector is shortened when nothing is left behind the deleted slot. -/
def shrink (no : Nat) : FdMan :=
  let (man, no) := trim no man
  if no = 0 then { man with fmVeca := 0, fmVecv := outside }
  else
    let no := min (ceilThreshold no) man.fmVeca
    if no < man.fmVeca then man.trealloc outside no else man

/-- The slot of a descriptor is emptied. -/
def emptySlot (slot : Nat) : FdMan := { man with fmVecc := man.fmVecc - 1 }.store slot .invalid

/-- After a deletion far from the end of the vector its size may be reduced. -/
def reduce (no : Nat) : FdMan :=
  if man.fmVeca < no + vectorThreshold then man
  else
    let (man, empty) := scanTail (man.fmVeca + 1) man no
    if empty then man.shrink outside no else man

/-- This is `fdman_del_unlocked`. -/
def delUnlocked (no : Int) : FdMan × Fd :=
  if toUnsigned no < man.fmVeca then
    let (man, entry) := man.load (toUnsigned no)
    let oldFd := entry.clearFlags
    if oldFd.isNull then (man, oldFd)
    else ((man.emptySlot (toUnsigned no)).reduce outside (toUnsigned no), oldFd)
  else (man, .invalid)

/-- A loop of `fdman_put_nearby_unlocked` for a free slot below a bound. -/
def scanFree (bound : Nat) : Nat → FdMan → Nat → FdMan × Option Nat
  | 0, man, _ => (man, none)
  | fuel + 1, man, hint =>
    if hint < bound then
      let (man, entry) := man.load hint
      if entry.isNull then (man, some hint) else scanFree bound fuel man (hint + 1)
    else (man, none)

/-- The slot is used for the descriptor. -/
def gotSlot (hint : Nat) (fp : Fd) : FdMan :=
  let man := man.minsizeUnlocked outside (hint + 1)
  { man with fmHint := hint, fmVecc := man.fmVecc + 1 }.store hint fp

/-- The second pass looks below the hint, but not at the first slots. -/
def rescan (startHint : Nat) : FdMan × Option Nat :=
  if man.fmVecc ≠ man.fmVeca then scanFree (min startHint man.fmVeca) (man.fmVeca + 1) man putRescanStart
  else (man, none)

/-- A new slot in the back is the last choice. -/
def slotInBack : Option Nat := if man.fmVeca < man.fmVecm then some man.fmVeca else none

/-- This is `fdman_put_nearby_unlocked`. -/
def putNearbyUnlocked (hint : Nat) (fp : Fd) : FdMan × Except Errno Nat :=
  let (man, first) := scanFree man.fmVeca (man.fmVeca + 1) man hint
  let (man, second) := if first.isSome then (man, first) else man.rescan hint
  match second.or man.slotInBack with
  | some slot => (man.gotSlot outside slot fp, .ok slot)
  | none => (man, .error .emfile)

/-- This is `fdman_put`. -/
def put (fp : Fd) : FdMan × Except Errno Nat :=
  man.putNearbyUnlocked outside man.fmHint fp

/-- This is `fdman_init` with a given limit, which is `FDMAN_DEFAULT_VECM` in the source. -/
def init (fsRoot limit : Nat) (outside : Nat → Fd) : FdMan :=
  ⟨fsRoot, fsRoot, 0, 0, 0, limit, outside, false⟩

end FdMan

end KosKernel.Fs
