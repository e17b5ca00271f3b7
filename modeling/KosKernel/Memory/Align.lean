/-
This file embeds the page size and the alignment macros of `hybrid/align.h` on machine words.
-/

import Mathlib.Tactic

namespace KosKernel.Memory

def pageSize : Nat := 4096

/-- This is `CEIL_ALIGN` with the page size. It wraps for the last addresses below the word size. -/
def ceilAlign (bits address : Nat) : Nat := (address + (pageSize - 1)) % 2 ^ bits / pageSize * pageSize

/-- This is `FLOOR_ALIGN` with the page size. -/
def floorAlign (address : Nat) : Nat := address / pageSize * pageSize

/-- This is `CEIL_ALIGN` with any alignment. The mask need not have the form of a power of two. -/
def ceilAlignTo (bits address alignment : Nat) : Nat :=
  let mask := (alignment + (2 ^ bits - 1)) % 2 ^ bits
  let sum := (address + mask) % 2 ^ bits
  sum - (sum &&& mask)

end KosKernel.Memory
