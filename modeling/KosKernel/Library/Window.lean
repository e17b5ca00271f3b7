import Mathlib.Tactic

namespace Window
variable {Cell : Type}

/-- The window lists the cells of `count` consecutive positions. -/
def slice (memory : Nat → Cell) (start count : Nat) : List Cell :=
  (List.range count).map fun offset => memory (start + offset)

/-- The update overwrites the window that starts at `start` with the given cells. -/
def store (memory : Nat → Cell) (start : Nat) (cells : List Cell) : Nat → Cell := fun position =>
  if position < start then memory position else (cells[position - start]?).getD (memory position)

section
variable (memory : Nat → Cell)
include memory
variable (start : Nat)

@[simp] lemma slice_length (count : Nat) : (slice memory start count).length = count := by
  simp [slice]

@[simp] lemma slice_zero : slice memory start 0 = [] := rfl

lemma slice_getElem? {count index : Nat} (inside : index < count) :
    (slice memory start count)[index]? = some (memory (start + index)) := by
  simp [slice, inside]

/-- A window splits at every inner position. -/
lemma slice_add (first second : Nat) : slice memory start (first + second) =
    slice memory start first ++ slice memory (start + first) second := by
  simp [slice, List.range_add, List.map_append, List.map_map, Function.comp_def, Nat.add_assoc]

/-- The front of a window is a window. -/
lemma slice_take {count fewer : Nat} (within : fewer ≤ count) :
    (slice memory start count).take fewer = slice memory start fewer := by
  rw [show count = fewer + (count - fewer) by omega, slice_add, List.take_left' (slice_length _ _ _)]

end

/-- Windows of memories that agree on them are equal. -/
lemma slice_congr {before after : Nat → Cell} {start count : Nat}
    (agree : ∀ position, start ≤ position → position < start + count →
      after position = before position) :
    slice after start count = slice before start count := by
  apply List.map_congr_left
  intro offset inside
  have bound : offset < count := List.mem_range.mp inside
  exact agree (start + offset) (by omega) (by omega)

section
variable (memory : Nat → Cell) (start : Nat)
include memory start
variable (cells : List Cell)

/-- An update leaves every position outside its window unchanged. -/
lemma store_outside (position : Nat) (outside : position < start ∨ start + cells.length ≤ position) :
    store memory start cells position = memory position := by
  unfold store
  by_cases before : position < start
  · rw [if_pos before]
  · rw [if_neg before, List.getElem?_eq_none (by omega)]
    rfl

/-- A window that misses the update keeps its cells. -/
lemma slice_store_outside (first count : Nat) (outside : first + count ≤ start ∨
    start + cells.length ≤ first) :
    slice (store memory start cells) first count = slice memory first count := by
  apply slice_congr
  intro position lower upper
  exact store_outside memory start cells position (by omega)

/-- The window of the update itself holds the new cells. -/
lemma slice_store_same : slice (store memory start cells) start cells.length = cells := by
  apply List.ext_getElem (by simp)
  intro index inside bound
  simp [slice, store, bound]

@[simp] lemma store_nil : store memory start [] = memory := by
  funext position
  exact store_outside memory start [] position (by simp; omega)

end

end Window
