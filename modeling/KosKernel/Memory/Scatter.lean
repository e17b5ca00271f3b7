/- The scatter lists of `kernel/memory.h`. The first node belongs to the caller, and the others come
from `kmalloc`. -/

import KosKernel.Library.LinkPath
import KosKernel.Memory.Align

namespace KosKernel.Memory
open LinkPath List

/-- This is `struct mscatter`. -/
structure MScatter where
  mNext : Option Nat
  mStart : Nat
  mSize : Nat
  deriving DecidableEq

/-- The nodes in memory and the addresses that `kmalloc` has handed out for nodes. -/
structure ScatterHeap where
  node : Nat → MScatter
  nodes : Finset Nat

namespace ScatterHeap
variable (heap : ScatterHeap) (address : Nat)

def set (contents : MScatter) : ScatterHeap :=
  { heap with node := Function.update heap.node address contents }

def kmalloc : ScatterHeap := { heap with nodes := insert address heap.nodes }

def kfree : ScatterHeap := { heap with nodes := heap.nodes.erase address }

/-- The walk of `mscatter_split_lo` to the node of an offset. -/
def splitWalk (heap : ScatterHeap) : Nat → Nat → Nat → Option (Nat × Nat)
  | 0, _, _ => none
  | fuel + 1, part, offset =>
    if (heap.node part).mSize < offset then
      match (heap.node part).mNext with
      | none => none
      | some next => splitWalk heap fuel next (offset - (heap.node part).mSize)
    else some (part, offset)

/-- This is `mscatter_split_lo`. -/
def splitLo (bits fuel : Nat) (heap : ScatterHeap) (dst src offset : Nat) : Option ScatterHeap :=
  (heap.splitWalk fuel src offset).map fun (part, offset) =>
    let here := heap.node part
    if offset = here.mSize then
      match here.mNext with
      | some next => ((heap.set dst (heap.node next)).kfree next).set part { here with mNext := none }
      | none => heap.set dst ⟨none, 0, 0⟩
    else
      (heap.set part ⟨none, here.mStart, offset⟩).set dst
        ⟨here.mNext, (here.mStart + offset) % 2 ^ bits, here.mSize - offset⟩

/-- The walk of `mscatter_cat` to the last node. -/
def lastNode (heap : ScatterHeap) : Nat → Nat → Option Nat
  | 0, _ => none
  | fuel + 1, node =>
    match (heap.node node).mNext with
    | none => some node
    | some next => lastNode heap fuel next

/-- This is `mscatter_cat`. -/
def cat (bits fuel : Nat) (heap : ScatterHeap) (dst src : Nat) (copy : Option Nat) :
    Option (ScatterHeap × Bool) :=
  (heap.lastNode fuel dst).map fun next =>
    let here := heap.node next
    if (here.mStart + here.mSize) % 2 ^ bits = (heap.node src).mStart then
      (heap.set next ⟨(heap.node src).mNext, here.mStart,
        (here.mSize + (heap.node src).mSize) % 2 ^ bits⟩, true)
    else
      match copy with
      | none => (heap, false)
      | some srcCopy =>
        (((heap.kmalloc srcCopy).set srcCopy (heap.node src)).set
          next { here with mNext := some srcCopy }, true)

/-- This is `mscatter_takeone`. -/
def takeone (bits : Nat) (heap : ScatterHeap) (self : Nat) : ScatterHeap × Option Nat :=
  let here := heap.node self
  if here.mSize = 0 then (heap, none)
  else
    let taken : MScatter :=
      { here with mStart := (here.mStart + pageSize) % 2 ^ bits, mSize := here.mSize - pageSize }
    if taken.mSize = 0 then
      match here.mNext with
      | some freeNext => ((heap.set self (heap.node freeNext)).kfree freeNext, some here.mStart)
      | none => (heap.set self taken, some here.mStart)
    else (heap.set self taken, some here.mStart)

/-- The pages that calls of `mscatter_takeone` return until one fails. -/
def takeAll (bits : Nat) : Nat → ScatterHeap → Nat → Option (List Nat)
  | 0, _, _ => none
  | fuel + 1, heap, self =>
    match heap.takeone bits self with
    | (_, none) => some []
    | (next, some page) => (takeAll bits fuel next self).map (page :: ·)

/-- This is `mscatter_size`. -/
def size (bits : Nat) (heap : ScatterHeap) : Nat → Nat → Option Nat
  | 0, _ => none
  | fuel + 1, self =>
    match (heap.node self).mNext with
    | none => some ((heap.node self).mSize % 2 ^ bits)
    | some next => (heap.size bits fuel next).map fun rest => ((heap.node self).mSize + rest) % 2 ^ bits

/-- The starts and the sizes of some nodes. -/
def parts (nodes : List Nat) : List (Nat × Nat) :=
  nodes.map fun node => ((heap.node node).mStart, (heap.node node).mSize)

/-- The nodes of a scatter list. -/
abbrev Lists (head : Nat) (nodes : List Nat) : Prop :=
  Path (fun node => (heap.node node).mNext) (some head) nodes

end ScatterHeap

/-- The pages of a part. -/
def partSeq (bits : Nat) (part : Nat × Nat) : List Nat :=
  (List.range (part.2 / pageSize)).map fun index => (part.1 + pageSize * index) % 2 ^ bits

/-- The pages that a scatter list denotes. -/
def scatterPages (bits : Nat) (parts : List (Nat × Nat)) : List Nat := parts.flatMap (partSeq bits)

/-- The number of bytes of a scatter list. -/
def scatterBytes (parts : List (Nat × Nat)) : Nat := (parts.map Prod.snd).sum

/-- The parts are whole pages and their number of bytes is a machine word. -/
structure ScatterParts (bits : Nat) (parts : List (Nat × Nat)) : Prop where
  aligned : ∀ part ∈ parts, pageSize ∣ part.2
  word : ∀ part ∈ parts, part.1 < 2 ^ bits
  total : scatterBytes parts < 2 ^ bits

section Parts
variable {bits : Nat} {part : Nat × Nat} {parts front back : List (Nat × Nat)}
  (front back : List (Nat × Nat))

lemma scatterPages_append : scatterPages bits (front ++ back) =
    scatterPages bits front ++ scatterPages bits back := flatMap_append

lemma scatterPages_cons (part : Nat × Nat) (parts : List (Nat × Nat)) :
    scatterPages bits (part :: parts) = partSeq bits part ++ scatterPages bits parts := flatMap_cons

lemma scatterBytes_append : scatterBytes (front ++ back) = scatterBytes front + scatterBytes back := by
  rw [scatterBytes, map_append, sum_append]
  rfl

lemma scatterBytes_cons (part : Nat × Nat) (parts : List (Nat × Nat)) :
    scatterBytes (part :: parts) = part.2 + scatterBytes parts := by
  rfl

/-- A part of whole pages is cut at a page. -/
lemma partSeq_add (bits start : Nat) {lower : Nat} (lowerAligned : pageSize ∣ lower) (upper : Nat) :
    partSeq bits (start, lower + upper) = partSeq bits (start, lower) ++ partSeq bits
      ((start + lower) % 2 ^ bits, upper) := by
  obtain ⟨count, rfl⟩ := lowerAligned
  have positive : 0 < pageSize := by decide
  simp only [partSeq, Nat.mul_add_div positive, Nat.mul_div_cancel_left count positive,
    range_add, map_append, map_map, Function.comp_def, Nat.mod_add_mod, Nat.mul_add, Nat.add_assoc]

lemma partSeq_zero (bits start : Nat) : partSeq bits (start, 0) = [] := by
  rw [partSeq, Nat.zero_div]
  rfl

/-- The first page of a part. -/
lemma partSeq_first {start size : Nat} (word : start < 2 ^ bits) (aligned : pageSize ∣ size)
    (filled : size ≠ 0) :
    partSeq bits (start, size) = start :: partSeq bits ((start + pageSize) % 2 ^ bits,
      size - pageSize) := by
  have enough : pageSize ≤ size := Nat.le_of_dvd (Nat.pos_of_ne_zero filled) aligned
  have one : partSeq bits (start, pageSize) = [start] := by
    rw [partSeq, Nat.div_self (show 0 < pageSize by decide)]
    simp [Nat.mod_eq_of_lt word]
  have parts := partSeq_add bits start (Nat.dvd_refl pageSize) (size - pageSize)
  rw [Nat.add_sub_cancel' enough, one] at parts
  exact parts

lemma length_partSeq (bits : Nat) (part : Nat × Nat) :
    (partSeq bits part).length = part.2 / pageSize := by
  rw [partSeq, length_map, length_range]

/-- The pages have the size of the list. -/
lemma length_scatterPages (bits : Nat) (aligned : ∀ part ∈ parts, pageSize ∣ part.2) :
    pageSize * (scatterPages bits parts).length = scatterBytes parts := by
  induction parts with
  | nil => rfl
  | cons part rest ih =>
    rw [scatterPages_cons, scatterBytes_cons, length_append, Nat.mul_add, length_partSeq,
      Nat.mul_div_cancel' (aligned part mem_cons_self)]
    rw [ih fun other mem => aligned other (mem_cons_of_mem part mem)]

end Parts

end KosKernel.Memory
