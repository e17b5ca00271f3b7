import KosKernel.Hybrid.ATree

namespace KosKernel.Hybrid.ATree
open LinkTree
variable {key : KeyType} {range : Ranges}

/-- A checked run stops when its calls run out or when two nodes meet on level zero. -/
inductive Stop where
  | calls
  | levelZero
  deriving DecidableEq

mutual

/-- This is `priv_reinsertall` with the check. -/
def reinsertallChecked (key : KeyType) (range : Ranges) : Nat → Slot → Nat → Nat → Nat → Cells →
    Except Stop Cells
  | 0, _, _, _, _, _ => .error .calls
  | fuel + 1, proot, insertRoot, semi, level, cells =>
    (match cells (.low insertRoot) with
      | none => Except.ok cells
      | some aMin => reinsertallChecked key range fuel proot aMin semi level cells).bind fun lowMoved =>
    (match lowMoved (.high insertRoot) with
      | none => Except.ok lowMoved
      | some aMax => reinsertallChecked key range fuel proot aMax semi level lowMoved).bind
          fun bothMoved =>
    insertChecked key range fuel proot insertRoot semi level bothMoved
termination_by structural fuel => fuel

/-- This is `insert_at` with the check in front of every step down. -/
def insertChecked (key : KeyType) (range : Ranges) : Nat → Slot → Nat → Nat → Nat → Cells →
    Except Stop Cells
  | 0, _, _, _, _, _ => .error .calls
  | fuel + 1, proot, newleaf, semi, level, cells =>
    match cells proot with
    | none => .ok (Function.update (clearLinks cells newleaf) proot (some newleaf))
    | some iter =>
      if level = 0 then .error .levelZero
      else if (range newleaf).aVmin ≤ semi ∧ semi ≤ (range newleaf).aVmax then
        reinsertallChecked key range fuel proot iter semi level
          (Function.update (clearLinks cells newleaf) proot (some newleaf))
      else if (range newleaf).aVmax < semi then
        insertChecked key range fuel (.low iter) newleaf (walkMin key semi level) (nextLevel level) cells
      else
        insertChecked key range fuel (.high iter) newleaf (walkMax key semi level)
          (nextLevel level) cells
termination_by structural fuel => fuel

end

/-- This is the checked call on a child pointer. -/
def reinsertChildChecked (key : KeyType) (range : Ranges) (fuel : Nat) (proot : Slot)
    (child : Option Nat) (semi level : Nat) (cells : Cells) : Except Stop Cells :=
  match child with
  | none => .ok cells
  | some insertRoot => reinsertallChecked key range fuel proot insertRoot semi level cells

variable (fuel : Nat) (proot : Slot) (insertRoot semi level : Nat) (cells : Cells)

lemma reinsertallChecked_succ :
    reinsertallChecked key range (fuel + 1) proot insertRoot semi level cells =
      (reinsertChildChecked key range fuel proot (cells (.low insertRoot)) semi level cells).bind
        fun lowMoved =>
      (reinsertChildChecked key range fuel proot (lowMoved (.high insertRoot)) semi level
        lowMoved).bind fun bothMoved =>
        insertChecked key range fuel proot insertRoot semi level bothMoved := by
  rfl

lemma privReinsertall_succ :
    privReinsertall key range (fuel + 1) proot insertRoot semi level cells =
      (reinsertChild key range fuel proot (cells (.low insertRoot)) semi level cells).bind
        fun lowMoved =>
      (reinsertChild key range fuel proot (lowMoved (.high insertRoot)) semi level lowMoved).bind
        fun bothMoved =>
        insertAt key range fuel proot insertRoot semi level bothMoved := by
  rfl

lemma ok_bind (middle : Cells) (second : Cells → Except Stop Cells) :
    (Except.ok middle : Except Stop Cells).bind second = second middle := rfl

variable {after cells : Cells} {fuel semi level : Nat} {proot : Slot}

/-- A sequence of two runs that ends well passes through a state between them. -/
lemma bind_ok {first : Except Stop Cells} {second : Cells → Except Stop Cells}
    (done : first.bind second = .ok after) :
    ∃ middle, first = .ok middle ∧ second middle = .ok after := by
  cases first with
  | error stop => exact nomatch done
  | ok middle => exact ⟨middle, rfl, done⟩

/-- A run that passes all checks is a run of the source. -/
lemma checked_refines (fuel : Nat) : (∀ proot child semi level cells after,
      reinsertChildChecked key range fuel proot child semi level cells = .ok after →
        reinsertChild key range fuel proot child semi level cells = some after) ∧
    ∀ proot newleaf semi level cells after,
      insertChecked key range fuel proot newleaf semi level cells = .ok after →
        insertAt key range fuel proot newleaf semi level cells = some after := by
  induction fuel with
  | zero =>
    constructor
    · intro proot child semi level cells after done
      cases child with
      | none => exact congrArg some (Except.ok.inj done)
      | some insertRoot => exact nomatch done
    · intro proot newleaf semi level cells after done
      exact nomatch done
  | succ fuel ih =>
    obtain ⟨reinserts, inserts⟩ := ih
    constructor
    · intro proot child semi level cells after done
      cases child with
      | none => exact congrArg some (Except.ok.inj done)
      | some insertRoot =>
        obtain ⟨lowMoved, lowDone, rest⟩ := bind_ok done
        obtain ⟨bothMoved, highDone, last⟩ := bind_ok rest
        rw [reinsertChild, privReinsertall_succ, reinserts _ _ _ _ _ _ lowDone, Option.bind_some,
          reinserts _ _ _ _ _ _ highDone, Option.bind_some, inserts _ _ _ _ _ _ last]
    · intro proot newleaf semi level cells after done
      rw [insertChecked] at done
      rw [insertAt]
      cases here : cells proot with
      | none =>
        rw [here] at done
        exact congrArg some (Except.ok.inj done)
      | some iter =>
        rw [here] at done
        dsimp only at done ⊢
        split at done
        · exact nomatch done
        split at done
        · next covers =>
            rw [if_pos covers]
            exact reinserts _ (some iter) _ _ _ _ done
        next beside =>
          rw [if_neg beside]
          split at done
          · next less =>
              rw [if_pos less]
              exact inserts _ _ _ _ _ _ done
          · next more =>
              rw [if_neg more]
              exact inserts _ _ _ _ _ _ done

lemma insertAt_of_checked {newleaf : Nat}
    (done : insertChecked key range fuel proot newleaf semi level cells = .ok after) :
    insertAt key range fuel proot newleaf semi level cells = some after :=
  (checked_refines fuel).2 proot newleaf semi level cells after done

lemma reinsertChild_of_checked {child : Option Nat}
    (done : reinsertChildChecked key range fuel proot child semi level cells = .ok after) :
    reinsertChild key range fuel proot child semi level cells = some after :=
  (checked_refines fuel).1 proot child semi level cells after done

end KosKernel.Hybrid.ATree
