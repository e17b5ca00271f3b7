import Mathlib.Algebra.BigOperators.Group.Finset.Piecewise
import Mathlib.Algebra.Order.BigOperators.Group.Finset
import Mathlib.Algebra.Order.Ring.Nat

namespace UpdateSum
open Finset
variable {Place Value : Type} [DecidableEq Place] [Fintype Place]
variable (weight : Value → Nat) (values : Place → Value) (place : Place)

/-- The sum changes by the difference of the two weights. -/
lemma sum_update (value : Value) :
    ∑ other, weight (Function.update values place value other) + weight (values place) =
      ∑ other, weight (values other) + weight value := by
  have weights : (fun other => weight (Function.update values place value other)) =
      Function.update (fun other => weight (values other)) place (weight value) := by
    funext other
    exact Function.apply_update (fun _ => weight) values place value other
  have split := sum_eq_add_sum_sdiff_singleton_of_mem (mem_univ place) fun other => weight (values other)
  rw [weights, sum_update_of_mem (mem_univ place)]
  omega

omit [DecidableEq Place] in
/-- The weight of one place is part of the sum. -/
lemma le_sum : weight (values place) ≤ ∑ other, weight (values other) :=
  single_le_sum (f := fun other => weight (values other)) (fun _ _ => Nat.zero_le _) (mem_univ place)

end UpdateSum
