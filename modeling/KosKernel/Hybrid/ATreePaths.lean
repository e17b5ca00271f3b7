import KosKernel.Hybrid.ATreeStored

namespace KosKernel.Hybrid.ATree
open LinkTree
variable {range : Ranges} {cells after : Cells} {proot : Slot} {base size root : Nat} {key : KeyType}

/-- The search for the key does not come past the cell. -/
def SearchAvoids (key : KeyType) (range : Ranges) (cells : Cells) (cell : Slot) : Nat → Slot → Nat →
    Nat → Nat → Prop
  | 0, _, _, _, _ => True
  | fuel + 1, proot, wanted, semi, level =>
    proot ≠ cell ∧ match cells proot with
      | none => True
      | some root =>
        if (range root).aVmin ≤ wanted ∧ wanted ≤ (range root).aVmax then True
        else if wanted < semi then
          SearchAvoids key range cells cell fuel (.low root) wanted (walkMin key semi level)
            (nextLevel level)
        else
          SearchAvoids key range cells cell fuel (.high root) wanted (walkMax key semi level)
            (nextLevel level)

instance decidableSearchAvoids (key : KeyType) (range : Ranges) (cells : Cells) (cell : Slot) :
    ∀ (fuel : Nat) (proot : Slot) (wanted semi level : Nat),
      Decidable (SearchAvoids key range cells cell fuel proot wanted semi level)
  | 0, _, _, _, _ => isTrue trivial
  | fuel + 1, proot, wanted, semi, level =>
    have := decidableSearchAvoids key range cells cell fuel
    by
      unfold SearchAvoids
      split <;> infer_instance

variable {shape : Shape} {fuel wanted semi level : Nat} {position : Position}

/-- A pointer leads to one shape only. -/
lemma holds_unique {pointer : Option Nat} {other : Shape} (holds : Holds cells pointer shape)
    (again : Holds cells pointer other) : shape = other := by
  induction shape generalizing pointer other with
  | leaf =>
    rw [show pointer = none from holds] at again
    exact (holds_none again).symm
  | node low root high lowSame highSame =>
    obtain ⟨rfl, lower, upper⟩ := holds
    obtain ⟨lowOther, highOther, rfl⟩ := holds_some again
    rw [lowSame lower again.2.1, highSame upper again.2.2]

/-- A position search stays in the tree. -/
lemma plocateAt_inner (holds : Holds cells (cells proot) shape)
    (located : plocateAt key range cells fuel proot wanted semi level = some (some position)) :
    (∃ inner, Holds cells (cells position.proot) inner ∧ ∀ node ∈ inner.nodes, node ∈ shape.nodes) ∧
      (position.proot = proot ∨ ∃ parent ∈ shape.nodes, position.proot = .low parent ∨
        position.proot = .high parent) := by
  induction shape generalizing proot fuel semi level with
  | leaf =>
    cases fuel with
    | zero => cases located
    | succ turns => simp [plocateAt, show cells proot = none from holds] at located
  | node low root high lowInner highInner =>
    cases fuel with
    | zero => cases located
    | succ turns =>
      rw [plocateAt, holds.1] at located
      dsimp only at located
      split at located
      · cases located
      split at located
      · obtain rfl := Option.some.inj (Option.some.inj located)
        exact ⟨⟨_, holds, fun _ mem => mem⟩, .inl rfl⟩
      split at located
      · obtain ⟨⟨inner, innerHolds, subset⟩, cell⟩ := lowInner holds.2.1 located
        refine ⟨⟨inner, innerHolds, fun node mem => by simp [subset node mem]⟩, .inr ?_⟩
        rcases cell with here | ⟨parent, mem, owned⟩
        · exact ⟨root, by simp, .inl here⟩
        · exact ⟨parent, by simp [mem], owned⟩
      · obtain ⟨⟨inner, innerHolds, subset⟩, cell⟩ := highInner holds.2.2 located
        refine ⟨⟨inner, innerHolds, fun node mem => by simp [subset node mem]⟩, .inr ?_⟩
        rcases cell with here | ⟨parent, mem, owned⟩
        · exact ⟨root, by simp, .inr here⟩
        · exact ⟨parent, by simp [mem], owned⟩

/-- A position search gives the same result where the cells are the same. -/
lemma plocateAt_congr (holds : Holds cells (cells proot) shape) (here : after proot = cells proot)
    (same : ∀ node ∈ shape.nodes, after (.low node) = cells (.low node) ∧
      after (.high node) = cells (.high node))
    (fuel wanted semi level : Nat) :
    plocateAt key range after fuel proot wanted semi level =
      plocateAt key range cells fuel proot wanted semi level := by
  induction shape generalizing proot fuel semi level with
  | leaf =>
    cases fuel with
    | zero => rfl
    | succ turns => rw [plocateAt, plocateAt, here, show cells proot = none from holds]
  | node low root high lowSame highSame =>
    cases fuel with
    | zero => rfl
    | succ turns =>
      obtain ⟨lowHere, highHere⟩ := same root (by simp)
      rw [plocateAt, plocateAt, here, holds.1]
      dsimp only
      rw [lowSame holds.2.1 lowHere (fun node mem => same node (by simp [mem])),
        highSame holds.2.2 highHere fun node mem => same node (by simp [mem])]

/-- A change of the subtree that a search finds leaves searches among other nodes alone. -/
lemma plocateAt_sibling {visited sibling : Slot} {rest inner : Shape}
    (holds : Holds cells (cells visited) shape) (siblingHolds : Holds cells (cells sibling) rest)
    (located : plocateAt key range cells fuel visited wanted semi level = some (some position))
    (innerHolds : Holds cells (cells position.proot) inner)
    (frame : Frame cells after position.proot inner.nodes)
    (elsewhere : sibling ≠ position.proot) (siblingOutside : sibling.Outside shape.nodes)
    (visitedOutside : visited.Outside rest.nodes) (apart : ∀ node ∈ rest.nodes, node ∉ shape.nodes)
    (turns other center depth : Nat) :
    plocateAt key range after turns sibling other center depth =
      plocateAt key range cells turns sibling other center depth := by
  obtain ⟨⟨innerShape, innerShapeHolds, subset⟩, cell⟩ := plocateAt_inner holds located
  obtain rfl := holds_unique innerHolds innerShapeHolds
  have links : ∀ node ∈ rest.nodes, Slot.low node ≠ position.proot ∧
    Slot.high node ≠ position.proot := by
    intro node mem
    rcases cell with here | ⟨parent, parentMem, owned⟩
    · rw [here]
      exact ⟨(visitedOutside node mem).1.symm, (visitedOutside node mem).2.symm⟩
    · have differ : node ≠ parent := fun equal => apart node mem (equal ▸ parentMem)
      rcases owned with owned | owned <;> rw [owned] <;> simp [differ]
  refine plocateAt_congr siblingHolds (frame sibling elsewhere (siblingOutside.mono subset)) ?_
    turns other center depth
  intro node mem
  have unowned : node ∉ inner.nodes := fun found => apart node mem (subset node found)
  exact ⟨frame _ (links node mem).1 (outside_low unowned),
    frame _ (links node mem).2 (outside_high unowned)⟩

/-- A change of the subtree that a search finds leaves searches alone that avoid its cell. -/
lemma plocateAt_avoids {inner : Shape} (holds : Holds cells (cells proot) shape)
    (distinct : shape.nodes.Nodup) (outside : proot.Outside shape.nodes) {other : Nat}
    (located : plocateAt key range cells fuel proot wanted semi level = some (some position))
    (innerHolds : Holds cells (cells position.proot) inner)
    (frame : Frame cells after position.proot inner.nodes)
    (avoids : SearchAvoids key range cells position.proot fuel proot other semi level) :
    plocateAt key range after fuel proot other semi level =
      plocateAt key range cells fuel proot other semi level := by
  induction shape generalizing proot fuel semi level with
  | leaf =>
    cases fuel with
    | zero => rfl
    | succ turns => simp [plocateAt, show cells proot = none from holds] at located
  | node low root high lowAvoids highAvoids =>
    obtain ⟨⟨innerShape, innerShapeHolds, subset⟩, _⟩ := plocateAt_inner holds located
    obtain rfl := holds_unique innerHolds innerShapeHolds
    cases fuel with
    | zero => rfl
    | succ turns =>
      obtain ⟨elsewhere, later⟩ := avoids
      have here : after proot = cells proot := frame proot elsewhere (outside.mono subset)
      obtain ⟨lowDistinct, restDistinct, disjoint⟩ := List.nodup_append.mp distinct
      obtain ⟨rootHigh, highDistinct⟩ := List.nodup_cons.mp restDistinct
      have rootLow : root ∉ low.nodes := fun found => disjoint root found root (by simp) rfl
      rw [plocateAt, holds.1] at located
      rw [holds.1] at later
      dsimp only at located later
      rw [plocateAt, plocateAt, here, holds.1]
      dsimp only
      by_cases below : key.bits ≤ level
      · rw [if_pos below, if_pos below]
      rw [if_neg below] at located ⊢
      rw [if_neg below]
      by_cases coversWanted : (range root).aVmin ≤ wanted ∧ wanted ≤ (range root).aVmax
      · rw [if_pos coversWanted, Option.some.injEq, Option.some.injEq] at located
        exact absurd (congrArg Position.proot located) elsewhere
      rw [if_neg coversWanted] at located
      by_cases coversOther : (range root).aVmin ≤ other ∧ other ≤ (range root).aVmax
      · rw [if_pos coversOther, if_pos coversOther]
      rw [if_neg coversOther] at later ⊢
      rw [if_neg coversOther]
      by_cases wantedLow : wanted < semi <;> by_cases otherLow : other < semi
      · rw [if_pos wantedLow] at located
        rw [if_pos otherLow] at later ⊢
        rw [if_pos otherLow]
        exact lowAvoids holds.2.1 lowDistinct (outside_low rootLow) located later
      · rw [if_pos wantedLow] at located
        rw [if_neg otherLow] at later ⊢
        rw [if_neg otherLow]
        cases turns with
        | zero => rfl
        | succ turns =>
          exact plocateAt_sibling holds.2.1 holds.2.2 located innerHolds frame later.1
            (outside_high rootLow)
            (outside_low rootHigh) (fun node mem found => disjoint node found node
              (by simp [mem]) rfl) _ _ _ _
      · rw [if_neg wantedLow] at located
        rw [if_pos otherLow] at later ⊢
        rw [if_pos otherLow]
        cases turns with
        | zero => rfl
        | succ turns =>
          exact plocateAt_sibling holds.2.2 holds.2.1 located innerHolds frame later.1
            (outside_low rootHigh)
            (outside_high rootLow) (fun node mem found => disjoint node mem node
              (by simp [found]) rfl) _ _ _ _
      · rw [if_neg wantedLow] at located
        rw [if_neg otherLow] at later ⊢
        rw [if_neg otherLow]
        exact highAvoids holds.2.2 highDistinct (outside_high rootHigh) located later

/-- A pop does not move the nodes that are found without coming past its cell. -/
lemma Stored.plocate_popped {nodes : List Nat} (stored : Stored key range cells nodes)
    (separated : Separated range nodes) {other root : Nat}
    (located : ATree.plocate key range cells wanted = some (some position))
    (popped : popAt key range (callDepth key) position.proot position.semi position.level cells =
      some (after, root))
    (avoids : SearchAvoids key range cells position.proot (callDepth key) .head other
      (semi0 key) (level0 key)) :
    ATree.plocate key range after other = ATree.plocate key range cells other := by
  obtain ⟨shape, rooted, members⟩ := stored
  rcases plocateAt_spec (block_root key) rooted wanted (atCenter_root key) (bits_lt_callDepth key) with
    ⟨missed, _⟩ | ⟨slot, base, size, low, found, high, others, reached, _, subtree⟩
  · rw [ATree.plocate, missed] at located
    cases located
  rw [ATree.plocate, reached, Option.some.injEq, Option.some.injEq] at located
  subst located
  have apart : Separated range (Shape.node low found high).nodes := separated.mono fun node mem =>
    members.mem_iff.mp (subtree.members.mem_iff.mpr (List.mem_append_left _ mem))
  obtain ⟨result, inner, done, updated⟩ := popAt_updated subtree.block subtree.rooted apart
    (insertCalls_le_callDepth subtree.block.size_le)
  rw [done, Option.some.injEq] at popped
  obtain ⟨rfl, rfl⟩ := popped
  refine plocateAt_avoids rooted.holds rooted.nodup rooted.outside reached subtree.rooted.holds ?_ avoids
  refine updated.frame.mono fun node mem => ?_
  rw [List.mem_append] at mem
  rw [nodes_node, List.mem_append]
  tauto

end KosKernel.Hybrid.ATree
