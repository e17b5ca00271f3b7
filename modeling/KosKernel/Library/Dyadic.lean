import Mathlib.Tactic

namespace Dyadic

section
variable {base level : Nat} (aligned : 2 ^ (level + 1) ∣ base)
include aligned

/-- Setting the bit below the alignment adds its value. -/
lemma or_pow : base ||| 2 ^ level = base + 2 ^ level := by
  obtain ⟨count, rfl⟩ := aligned
  exact (Nat.two_pow_add_eq_or_of_lt (Nat.pow_lt_pow_right (by decide) (Nat.lt_succ_self level))
    count).symm

/-- Setting all bits below the centre leads to the end of the block. -/
lemma or_low : (base + 2 ^ level) ||| (2 ^ level - 1) = base + 2 ^ level + (2 ^ level - 1) := by
  obtain ⟨count, rfl⟩ := aligned
  have whole : 2 ^ (level + 1) * count + 2 ^ level = 2 ^ level * (2 * count + 1) := by ring
  rw [whole]
  exact (Nat.two_pow_add_eq_or_of_lt (Nat.sub_lt (Nat.two_pow_pos level) Nat.one_pos) _).symm

/-- Clearing the bit of the centre leads to the start of the block. -/
lemma and_not_pow {bits : Nat} (inside : base + 2 ^ level < 2 ^ bits) :
    (base + 2 ^ level) &&& ((2 ^ bits - 1) ^^^ 2 ^ level) = base := by
  have below : base < 2 ^ bits := by omega
  have levelInside : level < bits := (Nat.pow_lt_pow_iff_right (by decide : 1 < 2)).mp (by omega)
  rw [← or_pow aligned]
  apply Nat.eq_of_testBit_eq
  intro index
  by_cases same : level = index
  · subst same
    have clear : base.testBit level = false := by
      obtain ⟨count, rfl⟩ := aligned
      rw [Nat.testBit_two_pow_mul]
      simp
    simp [clear, levelInside]
  · by_cases small : index < bits
    · simp [same, small]
    · have high : base.testBit index = false :=
        Nat.testBit_lt_two_pow (lt_of_lt_of_le below (Nat.pow_le_pow_right (by decide) (by omega)))
      simp [same, high]

end

end Dyadic
