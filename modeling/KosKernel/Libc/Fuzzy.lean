import Mathlib.Order.Bounds.Basic
import Mathlib.Tactic

namespace KosKernel.Libc
open List Function

/-- A number of insertions, deletions and substitutions turns a string into another one. -/
inductive Edits : Nat → List UInt8 → List UInt8 → Prop where
  | nil : Edits 0 [] []
  | keep {count : Nat} {a b : List UInt8} (ch : UInt8) (edits : Edits count a b) :
    Edits count (ch :: a) (ch :: b)
  | insert {count : Nat} {a b : List UInt8} (ch : UInt8) (edits : Edits count a b) :
    Edits (count + 1) a (ch :: b)
  | delete {count : Nat} {a b : List UInt8} (ch : UInt8) (edits : Edits count a b) :
    Edits (count + 1) (ch :: a) b
  | substitute {count : Nat} {a b : List UInt8} (old new : UInt8) (edits : Edits count a b) :
      Edits (count + 1) (old :: a) (new :: b)

/-- This is `libc_tolower`. -/
def tolower (ch : UInt8) : UInt8 := if 65 ≤ ch ∧ ch ≤ 90 then ch + 32 else ch

/-- The cells of a row hold nothing before they are written. -/
abbrev Row : Type := Nat → Option Nat

/-- The loop of `fuzzy_memcmp.code` over the cells of `v1`, from the cell `j` on. -/
def fillCells (v0 : Row) (ch : UInt8) : List UInt8 → Nat → Row → Option Row
  | [], _, v1 => some v1
  | other :: rest, j, v1 => do
    let cost := (if ch ≠ other then 1 else 0) + (← v0 j)
    let cost := min cost ((← v1 j) + 1)
    let cost := min cost ((← v0 (j + 1)) + 1)
    fillCells v0 ch rest (j + 1) (update v1 (j + 1) (some cost))

/-- The loop over the rows, which copies all cells but the last one. -/
def fillRows (b : List UInt8) : List UInt8 → Nat → Row → Row → Option Row
  | [], _, _, v1 => some v1
  | ch :: rest, i, v0, v1 => do
    let v1 ← fillCells v0 ch b 0 (update v1 0 (some (i + 1)))
    fillRows b rest (i + 1) (fun j => if j < b.length then v1 j else v0 j) v1

variable (mallocs : Bool × Bool) (a b : List UInt8)

/-- The part behind `SWAP`. Rows from `libc_malloc` are read after they are freed. -/
def fuzzyRows : Option Nat := do
  let v1 ← fillRows b a 0 (fun i => if i < b.length then some i else none) fun _ => none
  if 128 ≤ b.length ∧ mallocs.1 ∧ mallocs.2 then none else v1 b.length

/-- This is `libc_fuzzy_memcmp`. -/
def fuzzyMemcmp : Option Nat :=
  if a = [] then some b.length
  else if b = [] then some a.length
  else if a.length < b.length then fuzzyRows mallocs b a
  else fuzzyRows mallocs a b

/-- This is `libc_fuzzy_memcasecmp`. -/
def fuzzyMemcasecmp : Option Nat := fuzzyMemcmp mallocs (a.map tolower) (b.map tolower)

/-- The result is the edit distance, computed from cells that were written and not freed. -/
def IsDistance (result : Option Nat) : Prop :=
  ∃ distance, result = some distance ∧ IsLeast { count | Edits count a b } distance

variable {a b}

lemma Edits.lengths {count : Nat} (edits : Edits count a b) :
    a.length ≤ b.length + count ∧ b.length ≤ a.length + count := by
  induction edits with
  | nil => exact ⟨le_rfl, le_rfl⟩
  | keep | insert | delete | substitute =>
    simp only [length_cons]
    omega

/-- The last cell of `v0` holds nothing when the loop reads it. -/
lemma fillCells_unwritten (v0 : Row) (ch : UInt8) (some : b ≠ []) (j : Nat)
    (unwritten : v0 (j + b.length) = none) (v1 : Row) : fillCells v0 ch b j v1 = none := by
  induction b generalizing j v1 with
  | nil => exact absurd rfl some
  | cons other rest ih =>
    rw [fillCells]
    cases rest with
    | nil =>
      rw [length_singleton] at unwritten
      simp [unwritten]
    | cons next rest =>
      rw [length_cons, Nat.add_comm _ 1, ← Nat.add_assoc] at unwritten
      simp [ih (cons_ne_nil _ _) (j + 1) unwritten]

lemma fuzzyRows_unwritten (some : a ≠ []) (others : b ≠ []) : fuzzyRows mallocs a b = none := by
  obtain ⟨ch, rest, rfl⟩ := exists_cons_of_ne_nil some
  rw [fuzzyRows, fillRows, fillCells_unwritten _ ch others 0 (by simp)]
  rfl

lemma fuzzyMemcmp_iff : IsDistance a b (fuzzyMemcmp mallocs a b) ↔ a = [] ∨ b = [] := by
  constructor
  · rintro ⟨distance, result, -⟩
    by_contra nonempty
    obtain ⟨some, others⟩ := not_or.mp nonempty
    rw [fuzzyMemcmp, if_neg some, if_neg others, fuzzyRows_unwritten mallocs others some,
      fuzzyRows_unwritten mallocs some others, ite_self] at result
    cases result
  · rintro (rfl | rfl)
    · refine ⟨b.length, rfl, ?_, fun count edits => by simpa using Edits.lengths edits⟩
      exact b.rec .nil fun ch _ edits => edits.insert ch
    · refine ⟨a.length, by cases a <;> rfl, ?_, fun count edits => by simpa using Edits.lengths edits⟩
      exact a.rec .nil fun ch _ edits => edits.delete ch

/-- Both functions compute the edit distance exactly if one of the strings is empty. -/
theorem fuzzy_isDistance_iff (mallocs : Bool × Bool) (a b : List UInt8) :
    (IsDistance a b (fuzzyMemcmp mallocs a b) ↔ a = [] ∨ b = []) ∧
      (IsDistance (a.map tolower) (b.map tolower) (fuzzyMemcasecmp mallocs a b) ↔ a = [] ∨ b = []) := by
  refine ⟨fuzzyMemcmp_iff mallocs, ?_⟩
  rw [fuzzyMemcasecmp, fuzzyMemcmp_iff, map_eq_nil_iff, map_eq_nil_iff]

/-- A comparison of `ab` with `a` reads a cell that was not written. -/
theorem fuzzy_isDistance_fails :
    ¬IsDistance [97, 98] [97] (fuzzyMemcmp (false, false) [97, 98] [97]) := by
  rintro ⟨_, result, -⟩
  cases result

end KosKernel.Libc
