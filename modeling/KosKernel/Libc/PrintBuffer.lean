/- The print buffer of `libs/libc/format-printer.c`, for a printer that accepts everything. -/

import Mathlib.Algebra.Group.Nat.Defs

namespace KosKernel.Libc
open List

/-- This is `struct buffer`: the bytes, the size of the memory, `b_state`, and what was printed. -/
structure PrintBuffer where
  used : List UInt8
  size : Nat
  state : Nat
  printed : List UInt8

def ssizeMax : Nat := 2 ^ 31 - 1

/-- This is `BUFFER_PRINTLIMIT`. -/
def printLimit : Nat := 4096

namespace PrintBuffer

/-- This is `libc_buffer_init`. -/
def init : PrintBuffer := ⟨[], 0, 0, []⟩

variable (self : PrintBuffer)

/-- This is `BUFFER_UNUSED`, a `size_t`. -/
def unused : Nat := (self.size + 2 ^ 32 - self.used.length) % 2 ^ 32

variable (data : List UInt8)

/-- The printer is called, and `BUFFER_ADDSTATE` adds its result. -/
def callPrinter : PrintBuffer :=
  { self with printed := self.printed ++ data, state := min (self.state + data.length) ssizeMax }

/-- Data is copied to `b_bufpos`, which moves behind it. -/
def append : PrintBuffer := { self with used := self.used ++ data }

/-- This is `libc_buffer_flush`. -/
def flush : PrintBuffer :=
  let self := if self.used = [] then self else self.callPrinter self.used
  { self with used := [], size := if 256 < self.size then 0 else self.size }

/-- The data goes to the start, but the position moves on from the end. -/
def spill : PrintBuffer :=
  if data = [] then self
  else { self.callPrinter (self.used.take printLimit) with
    used := data ++ self.used.drop data.length ++ replicate data.length 0 }

/-- The first copy behind the label `again` fills the unused part of the buffer. -/
def fill : PrintBuffer × List UInt8 :=
  (self.append (data.take self.unused), data.drop self.unused)

/-- The number of bytes by which the buffer may grow for the data. -/
def growth : Nat := min (printLimit - self.size) data.length

/-- The code of `libc_buffer_print` behind the label `again`, with failures of `libc_realloc`. -/
def again (self : PrintBuffer) (data : List UInt8) (failures : Nat) : PrintBuffer :=
  let (self, data) := self.fill data
  if self.growth data = 0 then self.spill data
  else
    match failures with
    | 0 =>
      ({ self with size := (self.size + self.growth data + 63) / 64 * 64 }.append
        (data.take (self.growth data))).spill
        (data.drop (self.growth data))
    | failures + 1 =>
      if data.length < self.flush.unused then self.flush.append data else self.flush.again data failures

/-- This is `libc_buffer_print`. -/
def print (failures : Nat) : PrintBuffer :=
  if printLimit ≤ data.length then self.flush.callPrinter data else self.again data failures

/-- This is `libc_buffer_fini`, with its result and all that the printer was given. -/
def fini : Nat × List UInt8 :=
  if self.used = [] then (0, self.printed) else (self.used.length + self.state,
    self.printed ++ self.used)

/-- Pieces are printed one after another, each with the number of failures of `libc_realloc`. -/
def printAll : PrintBuffer → List (List UInt8 × Nat) → PrintBuffer
  | self, [] => self
  | self, (data, failures) :: calls => (self.print data failures).printAll calls

/-- A piece is large, or it fits, or the buffer is flushed because it cannot grow. -/
def Fits (failures : Nat) : Prop :=
  printLimit ≤ data.length ∨ self.used.length + data.length ≤ printLimit ∨
    self.size < printLimit ∧ failures ≠ 0

def AllFit : PrintBuffer → List (List UInt8 × Nat) → Prop
  | _, [] => True
  | self, (data, failures) :: calls => self.Fits data failures ∧ (self.print data failures).AllFit calls

/-- The printer and the buffer together have all the data. -/
structure Holds (buffer : PrintBuffer) (data : List UInt8) : Prop where
  all : buffer.printed ++ buffer.used = data
  state : buffer.state = min buffer.printed.length ssizeMax
  inside : buffer.used.length ≤ buffer.size
  size : buffer.size ≤ printLimit

namespace Holds
variable {self middle : PrintBuffer} {data piece rest : List UInt8} {failures : Nat}

section
variable (holds : self.Holds data)
include holds

lemma append (room : self.used.length + piece.length ≤ self.size) :
    (self.append piece).Holds (data ++ piece) where
  all := by
    rw [← holds.all, append_assoc]
    rfl
  state := holds.state
  inside := length_append ▸ room
  size := holds.size

lemma callPrinter (empty : self.used = []) : (self.callPrinter piece).Holds (data ++ piece) where
  all := by
    rw [← holds.all]
    simp [PrintBuffer.callPrinter, empty]
  state := by
    have before := holds.state
    simp only [PrintBuffer.callPrinter, length_append]
    omega
  inside := holds.inside
  size := holds.size

lemma flush : self.flush.Holds data := by
  have all := holds.all
  have state := holds.state
  have size := holds.size
  unfold PrintBuffer.flush
  split
  · next empty =>
    rw [empty] at all
    exact ⟨all, state, Nat.zero_le _, by dsimp only; split <;> omega⟩
  · refine ⟨(append_nil _).trans all, ?_, Nat.zero_le _,
      by dsimp only [PrintBuffer.callPrinter]; split <;> omega⟩
    simp only [PrintBuffer.callPrinter, length_append]
    omega

lemma unused : self.unused = self.size - self.used.length := by
  have inside := holds.inside
  have size : self.size ≤ 4096 := holds.size
  rw [PrintBuffer.unused]
  omega

/-- What is left after the first copy follows a full buffer. -/
lemma fill (filled : self.fill piece = (middle, rest)) : ∃ front, middle.Holds front ∧
    front ++ rest = data ++ piece ∧ middle.size = self.size ∧
    rest.length = piece.length - (self.size - self.used.length) ∧
      middle.used.length = self.used.length + (piece.length - rest.length) := by
  have inside := holds.inside
  cases filled
  rw [holds.unused]
  refine ⟨_, holds.append ?_, by rw [append_assoc, take_append_drop], rfl, length_drop, ?_⟩
  · rw [length_take]
    omega
  · simp only [PrintBuffer.append, length_append, length_take, length_drop]
    omega

/-- What does not fit fits into a larger buffer or into the flushed one. -/
lemma again (small : piece.length < printLimit) (fits : self.Fits piece failures) :
    (self.again piece failures).Holds (data ++ piece) := by
  have limit : printLimit = 4096 := rfl
  fun_induction PrintBuffer.again self piece failures generalizing data with
  | case1 failures self piece middle rest filled none =>
    obtain ⟨front, copied, joined, same, left, position⟩ := holds.fill filled
    have empty : rest = [] := length_eq_zero_iff.mp (by
      unfold growth at none
      rcases fits with large | whole | grows <;> omega)
    rw [← joined, empty, append_nil, spill]
    exact copied
  | case2 self piece middle rest filled some =>
    obtain ⟨front, copied, joined, same, left, position⟩ := holds.fill filled
    have inside := holds.inside
    unfold growth at some
    have room : middle.size + rest.length ≤ printLimit :=
      by rcases fits with large | whole | grows <;> omega
    have all : middle.growth rest = rest.length := by
      unfold growth
      omega
    rw [← joined, all, take_length, drop_length, spill]
    exact append ⟨copied.all, copied.state, by dsimp only; omega, by dsimp only; omega⟩
      (by dsimp only; omega)
  | case3 self piece middle rest filled some failures room =>
    obtain ⟨front, copied, joined, -⟩ := holds.fill filled
    rw [copied.flush.unused] at room
    rw [← joined]
    exact copied.flush.append (by omega)
  | case4 self piece middle rest filled some failures room ih =>
    obtain ⟨front, copied, joined, -, left, -⟩ := holds.fill filled
    rw [← joined]
    exact ih copied.flush (by omega) (.inr (.inl (by show 0 + rest.length ≤ _; omega)))

/-- One call passes its piece on or keeps it in the buffer. -/
lemma print (fits : self.Fits piece failures) : (self.print piece failures).Holds (data ++ piece) := by
  rw [PrintBuffer.print]
  split
  · exact holds.flush.callPrinter rfl
  · exact holds.again (by omega) fits

end

lemma printAll {calls : List (List UInt8 × Nat)} (holds : self.Holds data) (fit : self.AllFit calls) :
    (self.printAll calls).Holds (data ++ (calls.map Prod.fst).flatten) := by
  induction calls generalizing self data with
  | nil => simpa [PrintBuffer.printAll] using holds
  | cons call calls ih =>
    rw [map_cons, flatten_cons, ← append_assoc]
    exact ih (holds.print fit.1) fit.2

end Holds

/-- If no piece overflows a full buffer and something is left, all is printed and counted. -/
theorem printAll_transparent (calls : List (List UInt8 × Nat)) (fit : init.AllFit calls)
    (few : (calls.map Prod.fst).flatten.length ≤ ssizeMax)
    (filled : (init.printAll calls).used = [] → (init.printAll calls).state = 0) :
    (init.printAll calls).fini = ((calls.map Prod.fst).flatten.length,
      (calls.map Prod.fst).flatten) := by
  have start : init.Holds [] := ⟨rfl, rfl, Nat.zero_le _, Nat.zero_le _⟩
  obtain ⟨all, state, -, -⟩ := start.printAll fit
  rw [nil_append] at all
  have count := congrArg length all
  rw [length_append] at count
  rw [fini]
  split
  · next empty =>
    have none := filled empty
    rw [empty, append_nil] at all
    rw [empty, length_nil] at count
    rw [all, show (calls.map Prod.fst).flatten.length = 0 by omega]
  · rw [all]
    exact congrArg (·, _) (by omega)

theorem printAll_transparent_letters :
    (init.printAll [([65], 1), ([66, 67], 0)]).fini = (3, [65, 66, 67]) :=
  printAll_transparent [([65], 1), ([66, 67], 0)] ⟨.inr (.inl (by decide)), .inr (.inl (by decide)),
    trivial⟩ (by decide)
    (by decide)

/-- A large piece is not counted, and what lies behind a full buffer is printed. -/
theorem printAll_miscounts : (init.printAll [(replicate 4096 65, 0)]).fini.1 = 0 ∧
    (init.printAll [(replicate 4095 65, 0), ([66, 67], 0)]).fini.1 = 8193 := by
  decide +kernel

end PrintBuffer

end KosKernel.Libc
