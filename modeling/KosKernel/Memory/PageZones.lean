/- The page zones of `kernel/memory.h` and the free headers, which lie inside of the free memory
itself. -/

import KosKernel.Memory.Align
import KosKernel.Library.LinkList

namespace KosKernel.Memory
open LinkList

/-- The zones of a target. The first `realCount` zones have a free list and leave no gap. -/
structure MZoneSpec where
  bits : Nat
  realCount : Nat
  maxNonEmpty : Nat
  msMin : Nat → Nat
  msMax : Nat → Nat
  hostBase : Nat
  wide : 12 < bits
  some_zone : 0 < realCount
  within : realCount ≤ maxNonEmpty + 1
  first : msMin 0 = 0
  aligned : ∀ zone, zone < realCount → pageSize ∣ msMin zone ∧ pageSize ∣ msMax zone + 1
  filled : ∀ zone, zone < realCount → msMin zone ≤ msMax zone
  next : ∀ zone, zone + 1 < realCount → msMin (zone + 1) = msMax zone + 1
  above : ∀ zone, realCount ≤ zone → zone ≤ maxNonEmpty → msMax (realCount - 1) + 1 < msMin zone
  bound : msMax (realCount - 1) + pageSize < 2 ^ bits
  host : msMax (realCount - 1) < hostBase

namespace MZoneSpec

/-- Addition of machine words. -/
def add (spec : MZoneSpec) (first second : Nat) : Nat := (first + second) % 2 ^ spec.bits

/-- Subtraction of machine words. -/
def sub (spec : MZoneSpec) (first second : Nat) : Nat :=
  (first + (2 ^ spec.bits - second)) % 2 ^ spec.bits

/-- This is `PAGE_ERROR` and also `(size_t)-1`. -/
def pageError (spec : MZoneSpec) : Nat := 2 ^ spec.bits - 1

/-- This is `CEIL_ALIGN(x,PAGESIZE)`. -/
def ceil (spec : MZoneSpec) (bytes : Nat) : Nat := ceilAlign spec.bits bytes

/-- A free list cannot be longer than the number of addresses. -/
def fuel (spec : MZoneSpec) : Nat := 2 ^ spec.bits + 1

/-- This is `mzone_of`. The search starts at the greatest nonempty zone. -/
def mzoneOf (spec : MZoneSpec) (address : Nat) : Nat := go spec.maxNonEmpty
where
  go : Nat → Nat
    | 0 => 0
    | zone + 1 => if address < spec.msMin (zone + 1) then go zone else zone + 1

variable {spec : MZoneSpec} {first second low high : Nat}

lemma add_of_lt (fits : first + second < 2 ^ spec.bits) : spec.add first second = first + second :=
  Nat.mod_eq_of_lt fits

lemma sub_of_le (order : second ≤ first) (word : first < 2 ^ spec.bits) :
    spec.sub first second = first - second := by
  unfold sub
  rw [show first + (2 ^ spec.bits - second) = first - second + 2 ^ spec.bits by omega, Nat.add_mod_right]
  exact Nat.mod_eq_of_lt (by omega)

lemma pageSize_dvd_word (spec : MZoneSpec) : pageSize ∣ 2 ^ spec.bits :=
  Nat.pow_dvd_pow 2 (show 12 ≤ spec.bits from spec.wide.le)

lemma pageSize_lt_word (spec : MZoneSpec) : pageSize < 2 ^ spec.bits :=
  Nat.pow_lt_pow_right (show 1 < 2 by decide) spec.wide

variable {address zone : Nat}

/-- No aligned address is `PAGE_ERROR`. -/
lemma aligned_ne_pageError (aligned : pageSize ∣ address) : address ≠ spec.pageError := by
  intro same
  obtain ⟨pages, total⟩ := spec.pageSize_dvd_word
  have positive : 0 < 2 ^ spec.bits := by positivity
  unfold pageError pageSize at *
  omega

lemma msMax_mono (order : low ≤ high) (real : high < spec.realCount) :
    spec.msMax low ≤ spec.msMax high := by
  induction high, order using Nat.le_induction with
  | base => exact le_rfl
  | succ zone _ ih =>
    have next := spec.next zone real
    have filled := spec.filled (zone + 1) real
    omega

lemma msMax_lt_msMin (order : low < high) (real : high < spec.realCount) :
    spec.msMax low < spec.msMin high := by
  obtain _ | zone := high
  · omega
  have lower := msMax_mono (show low ≤ zone by omega) (show zone < spec.realCount by omega)
  have next := spec.next zone real
  omega

/-- Addresses of a zone stay below the word size, even with a page on top. -/
lemma msMax_bound (real : zone < spec.realCount) : spec.msMax zone + pageSize < 2 ^ spec.bits := by
  have last := msMax_mono (show zone ≤ spec.realCount - 1 by omega)
    (show spec.realCount - 1 < spec.realCount by omega)
  have bound := spec.bound
  omega

/-- The end of the memory that the zones hold. -/
def limit (spec : MZoneSpec) : Nat := spec.msMax (spec.realCount - 1) + 1

lemma msMax_lt_limit (real : zone < spec.realCount) : spec.msMax zone < spec.limit := by
  have last := msMax_mono (show zone ≤ spec.realCount - 1 by omega)
    (show spec.realCount - 1 < spec.realCount by omega)
  unfold limit
  omega

lemma limit_bound (spec : MZoneSpec) : spec.limit + (pageSize - 1) < 2 ^ spec.bits := by
  have bound := spec.bound
  unfold limit
  unfold pageSize at *
  omega

/-- The search gives the last zone that starts at or below the address. -/
lemma mzoneOf_go (spec : MZoneSpec) (address top : Nat) :
    mzoneOf.go spec address top ≤ top ∧ spec.msMin (mzoneOf.go spec address top) ≤ address ∧
      ∀ zone, mzoneOf.go spec address top < zone → zone ≤ top → address < spec.msMin zone := by
  induction top with
  | zero => exact ⟨le_rfl, by rw [mzoneOf.go, spec.first]; exact Nat.zero_le _, by omega⟩
  | succ top ih =>
    rw [mzoneOf.go]
    split
    · rename_i below
      refine ⟨by omega, ih.2.1, fun zone above bounded => ?_⟩
      rcases Nat.lt_or_eq_of_le bounded with smaller | rfl
      · exact ih.2.2 zone above (by omega)
      · exact below
    · exact ⟨le_rfl, by omega, by omega⟩

lemma mzoneOf_lower (spec : MZoneSpec) (address : Nat) : spec.msMin (spec.mzoneOf address) ≤ address :=
  (mzoneOf_go spec address spec.maxNonEmpty).2.1

lemma mzoneOf_lt (bounded : address ≤ spec.msMax (spec.realCount - 1) + 1) :
    spec.mzoneOf address < spec.realCount := by
  obtain ⟨top, lower, _⟩ := mzoneOf_go spec address spec.maxNonEmpty
  by_contra outside
  have above := spec.above (spec.mzoneOf address) (by omega) top
  unfold mzoneOf at above
  omega

lemma mzoneOf_upper (bounded : address ≤ spec.msMax (spec.realCount - 1)) :
    address ≤ spec.msMax (spec.mzoneOf address) := by
  have real := mzoneOf_lt (show address ≤ spec.msMax (spec.realCount - 1) + 1 by omega)
  by_cases last : spec.mzoneOf address = spec.realCount - 1
  · rwa [last]
  · have next := spec.next (spec.mzoneOf address) (by omega)
    have within := spec.within
    have above := (mzoneOf_go spec address spec.maxNonEmpty).2.2 (spec.mzoneOf address + 1)
      (Nat.lt_succ_self _) (by omega)
    omega

/-- An address inside a zone belongs to that zone. -/
lemma mzoneOf_eq (real : zone < spec.realCount) (lower : spec.msMin zone ≤ address)
    (upper : address ≤ spec.msMax zone) : spec.mzoneOf address = zone := by
  have top := msMax_mono (show zone ≤ spec.realCount - 1 by omega)
    (show spec.realCount - 1 < spec.realCount by omega)
  have found := mzoneOf_lt (show address ≤ spec.msMax (spec.realCount - 1) + 1 by omega)
  have foundLower := spec.mzoneOf_lower address
  have foundUpper := mzoneOf_upper (show address ≤ spec.msMax (spec.realCount - 1) by omega)
  rcases Nat.lt_trichotomy (spec.mzoneOf address) zone with below | same | above
  · have := msMax_lt_msMin below real
    omega
  · exact same
  · have := msMax_lt_msMin above found
    omega

end MZoneSpec

/-- The zones of a 32-bit target. -/
def i386 : MZoneSpec where
  bits := 32
  realCount := 2
  maxNonEmpty := 1
  msMin zone := if zone = 0 then 0 else 0x100000
  msMax zone := if zone = 0 then 0xfffff else 0xbfffffff
  hostBase := 0xc0000000
  wide := by decide
  some_zone := by decide
  within := by decide
  first := rfl
  aligned := by decide
  filled := by decide
  next := by
    intro zone small
    obtain rfl : zone = 0 := by omega
    rfl
  above := by omega
  bound := by decide
  host := by decide

/-- The zones of a 64-bit target. The zones from the fifth on are aliases without a free list. -/
def x8664 : MZoneSpec where
  bits := 64
  realCount := 4
  maxNonEmpty := 6
  msMin zone := [0, 0x100000, 0x80000000, 0x100000000, 0xffffffff80000000, 0xffffffff80100000,
    0xffffffffffffffff, 0xffffffffffffffff].getD zone 0
  msMax zone := [0xfffff, 0x7fffffff, 0xffffffff, 0x7fffffffffff, 0xffffffff8009ffff,
    0xffffffffffffffff, 0, 0].getD zone 0
  hostBase := 0xffff800000000000
  wide := by decide
  some_zone := by decide
  within := by decide
  first := rfl
  aligned := by decide
  filled := by decide
  next := by
    intro zone small
    have : zone < 3 := by omega
    interval_cases zone <;> rfl
  above := by
    intro zone lower upper
    interval_cases zone <;> decide
  bound := by decide
  host := by decide

/-- The fields of `p_free`. -/
structure FreeHeader where
  pNext : Nat
  pSelf : Link Nat
  pSize : Nat
  pAttr : Bool
  deriving DecidableEq

/-- A header of zero bytes. The null pointer is the first field of the page at address zero. -/
def FreeHeader.zero : FreeHeader := ⟨0, .next 0, 0, false⟩

/-- A page holds the free header and the words behind it. -/
structure Page where
  pFree : FreeHeader
  pData : Nat → Nat

def Page.zero : Page := ⟨.zero, fun _ => 0⟩

/-- These are the fields of `struct mzone` without the lock. -/
structure MZone where
  zRoot : Nat
  zInuse : Nat
  zAvail : Nat
  zAlloc : UInt32
  zFree : UInt32
  deriving DecidableEq

/-- The memory maps the address of each page to its contents. -/
structure PageState where
  page : Nat → Page
  zone : Nat → MZone

namespace PageState
variable (state : PageState)

/-- The pointer that a link holds. -/
def load : Link Nat → Nat
  | .head zone => (state.zone zone).zRoot
  | .next page => (state.page page).pFree.pNext

variable (page : Nat)

/-- The header of a page is replaced. -/
def setFree (header : FreeHeader) : PageState :=
  { state with page := Function.update state.page page { state.page page with pFree := header } }

def setZone (zone : Nat) (fields : MZone) : PageState :=
  { state with zone := Function.update state.zone zone fields }

/-- A link gets a new pointer. -/
def store (link : Link Nat) (pointer : Nat) : PageState :=
  match link with
  | .head zone => state.setZone zone { state.zone zone with zRoot := pointer }
  | .next page => state.setFree page { (state.page page).pFree with pNext := pointer }

def setSelf (link : Link Nat) : PageState :=
  state.setFree page { (state.page page).pFree with pSelf := link }

def setSize (page size : Nat) : PageState :=
  state.setFree page { (state.page page).pFree with pSize := size }

/-- The four stores that wipe a header. -/
def clearHeader : PageState := state.setFree page .zero

variable (spec : MZoneSpec) (state : PageState)

/-- The page behind a pointer learns the link that leads to it. -/
def adopt (pointer : Nat) (link : Link Nat) : PageState :=
  if pointer ≠ spec.pageError then state.setSelf pointer link else state

/-- A range is taken out of its list. -/
def unlink (page : Nat) : PageState :=
  let header := (state.page page).pFree
  (state.store header.pSelf header.pNext).adopt spec header.pNext header.pSelf

/-- This is `MEMSETX` with zeroes over whole pages. -/
def clearPages (start bytes : Nat) : PageState :=
  { state with page := fun page => if start ≤ page ∧
    page < start + bytes then .zero else state.page page }

/-- Pages are copied one after another from the lowest one. -/
def copyPages (spec : MZoneSpec) (state : PageState) (dst src : Nat) : Nat → PageState
  | 0 => state
  | count + 1 =>
    { state with page := Function.update state.page dst (state.page src) }.copyPages spec
      (spec.add dst pageSize)
      (spec.add src pageSize) count

/-- This is `PAGE_END`. -/
def pageEnd (page : Nat) : Nat := spec.add page (state.page page).pFree.pSize

end PageState

end KosKernel.Memory
