/- A cyclic queue in a linear memory. Equal positions mean a full queue. -/

import KosKernel.Library.Window

namespace Ring
open Window
variable {Cell : Type}

/-- The queue runs from `first` to `last` and wraps once unless `first` is below `last`. -/
def contents (memory : Nat → Cell) (size first last : Nat) : List Cell :=
  if first < last then slice memory first (last - first)
  else slice memory first (size - first) ++ slice memory 0 last

/-- The number of queued cells follows from the two positions. -/
def held (size first last : Nat) : Nat :=
  if first < last then last - first else size - (first - last)

variable {size first last : Nat}

section
variable (memory : Nat → Cell)
include memory

lemma contents_length (within : first ≤ size) :
    (contents memory size first last).length = held size first last := by
  unfold contents held
  split
  · simp
  · simp only [List.length_append, slice_length]
    omega

/-- The queued cells follow each other in the memory and continue at its start. -/
lemma contents_getElem? {index : Nat} (within : first ≤ size) (bounded : last ≤ size)
    (inside : index < held size first last) :
    (contents memory size first last)[index]? =
      some (memory (if first + index < size then first + index else first + index - size)) := by
  unfold held at inside
  unfold contents
  by_cases order : first < last
  · rw [if_pos order] at inside ⊢
    rw [slice_getElem? memory first inside, if_pos (by omega)]
  rw [if_neg order] at inside ⊢
  by_cases upper : first + index < size
  · rw [List.getElem?_append_left (by rw [slice_length]; omega),
      slice_getElem? memory first (by omega), if_pos upper]
  · rw [List.getElem?_append_right (by rw [slice_length]; omega), slice_length,
      slice_getElem? memory 0 (by omega), if_neg upper,
      show 0 + (index - (size - first)) = first + index - size by omega]

/-- The encoding with the first position past the end is empty. -/
@[simp] lemma contents_empty (size : Nat) : contents memory size size 0 = [] := by
  simp [contents]

/-- A partial read below the end moves the first position forward. -/
lemma contents_advance {count : Nat} (inside : first + count ≤ size)
    (partialRead : first < last → first + count < last) :
    contents memory size first last = slice memory first count ++ contents memory size
      (first + count) last := by
  unfold contents
  by_cases order : first < last
  · have bound := partialRead order
    rw [if_pos order, if_pos bound, show last - first = count + (last - (first + count)) by
      omega, slice_add]
  · rw [if_neg order, if_neg (by omega), show size - first = count + (size - (first + count)) by
      omega, slice_add, List.append_assoc]

/-- A partial read across the end continues at the start of the memory. -/
lemma contents_wrap {low : Nat} (order : last ≤ first) (partialRead : low < last) :
    contents memory size first last =
    slice memory first (size - first) ++ slice memory 0 low ++ contents memory size low last := by
  have split : slice memory 0 last = slice memory 0 low ++ slice memory low (last - low) := by
    have joined := slice_add memory 0 low (last - low)
    rwa [show low + (last - low) = last by omega, Nat.zero_add] at joined
  unfold contents
  rw [if_neg (by omega), if_pos partialRead, split, List.append_assoc]

/-- Cells stored behind the last position extend the queue while they stay in the free part. -/
lemma contents_store (size first last : Nat) (cells : List Cell)
    (room : last ≤ first → last + cells.length ≤ first) :
    contents (store memory last cells) size first (last + cells.length) =
      contents memory size first last ++ cells := by
  unfold contents
  by_cases order : first < last
  · rw [if_pos order, if_pos (by omega), show last + cells.length - first =
      (last - first) + cells.length by omega, slice_add,
      slice_store_outside memory last cells first (last - first) (by omega),
      show first + (last - first) = last by omega, slice_store_same]
  · rw [if_neg (by omega), if_neg (by omega), slice_add, Nat.zero_add, slice_store_same,
      slice_store_outside memory last cells first (size - first) (by omega),
      slice_store_outside memory last cells 0 last (by omega), List.append_assoc]

/-- Cells stored at the start extend a queue that ends at the end of the memory. -/
lemma contents_store_wrapped (size first : Nat) (cells : List Cell) (order : first < size)
    (room : cells.length ≤ first) :
    contents (store memory 0 cells) size first cells.length =
      contents memory size first size ++ cells := by
  unfold contents
  rw [if_neg (by omega), if_pos order, slice_store_same,
    slice_store_outside memory 0 cells first (size - first) (by omega)]

end

end Ring
