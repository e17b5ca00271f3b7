import Mathlib.Tactic

namespace Cover
variable {Value : Type} [AddCommMonoid Value] (start size : Nat)

/-- The function with the value on the range and zero elsewhere. -/
def cover (value : Value) : Nat → Value :=
  fun position => if start ≤ position ∧ position < start + size then value else 0

lemma cover_inside {start size position : Nat} (value : Value) (lower : start ≤ position)
    (upper : position < start + size) :
    cover start size value position = value := if_pos ⟨lower, upper⟩

lemma cover_outside {start size position : Nat} (value : Value)
    (outside : position < start ∨ start + size ≤ position) :
    cover start size value position = 0 := if_neg (by omega)

@[simp] lemma cover_empty (start : Nat) (value : Value) : cover start 0 value = 0 := by
  funext position
  exact cover_outside value (by omega)

@[simp] lemma cover_zero : cover start size (0 : Value) = 0 := by
  funext position
  exact ite_self 0

/-- A cover of two ranges that border on each other. -/
lemma cover_split (start first second : Nat) (value : Value) :
    cover start (first + second) value = cover start first value + cover
      (start + first) second value := by
  funext position
  rw [Pi.add_apply]
  rcases Nat.lt_or_ge position start with before | after
  · rw [cover_outside _ (.inl before), cover_outside _ (.inl before),
      cover_outside _ (.inl (by omega)), add_zero]
  rcases Nat.lt_or_ge position (start + first) with inFirst | behind
  · rw [cover_inside _ after (by omega), cover_inside _ after inFirst,
      cover_outside _ (.inl inFirst), add_zero]
  rw [cover_outside _ (.inr behind), zero_add]
  unfold cover
  congr 1
  apply propext
  omega

/-- The values of covers of one range add up. -/
lemma cover_add (first second : Value) :
    cover start size (first + second) = cover start size first + cover start size second := by
  funext position
  rw [Pi.add_apply]
  unfold cover
  split
  · rfl
  · exact (add_zero 0).symm

lemma cover_neg {Group : Type} [AddCommGroup Group] (value : Group) :
    cover start size (-value) = -cover start size value := by
  rw [eq_neg_iff_add_eq_zero, ← cover_add, neg_add_cancel, cover_zero]

end Cover
