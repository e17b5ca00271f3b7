import KosKernel.Hybrid.ATreeStored

namespace KosKernel.Hybrid.ATree
open LinkTree Function List
variable {key : KeyType} {range : Ranges} {starts : List Slot} {nodes : List Nat}
variable {cells after : Cells} {fuel semi level : Nat} {proot : Slot}

lemma clearLinks_within (within : Within cells starts nodes) (newleaf : Nat) :
    Within (clearLinks cells newleaf) starts nodes :=
  (within.update _ (by simp)).update _ (by simp)

/-- The reinsertion of a child keeps the pointers if the reinsertion of a node does. -/
lemma reinsertChild_within {slot : Slot}
    (reinserts : ∀ {insertRoot : Nat} {cells after : Cells}, Within cells starts nodes →
      insertRoot ∈ nodes →
      privReinsertall key range fuel proot insertRoot semi level cells = some after →
      Within after starts nodes)
    (within : Within cells starts nodes) (among : slot.Among starts nodes)
    (moved : reinsertChild key range fuel proot (cells slot) semi level cells = some after) :
    Within after starts nodes := by
  cases here : cells slot with
  | none =>
    rw [here] at moved
    cases moved
    exact within
  | some root =>
    rw [here] at moved
    exact reinserts within (within slot among root here) moved

/-- An insertion of one of the nodes keeps the pointers among the nodes. -/
lemma insertAt_within (fuel : Nat) :
    (∀ {proot : Slot} {newleaf semi level : Nat} {cells after : Cells}, Within cells starts nodes →
      proot.Among starts nodes → newleaf ∈ nodes →
      insertAt key range fuel proot newleaf semi level cells = some after →
      Within after starts nodes) ∧
    ∀ {proot : Slot} {insertRoot semi level : Nat} {cells after : Cells}, Within cells starts nodes →
      proot.Among starts nodes → insertRoot ∈ nodes →
      privReinsertall key range fuel proot insertRoot semi level cells = some after →
      Within after starts nodes := by
  induction fuel with
  | zero => exact ⟨fun _ _ _ done => (nomatch done), fun _ _ _ done => (nomatch done)⟩
  | succ fuel ih =>
    obtain ⟨inserted, reinserted⟩ := ih
    constructor
    · intro proot newleaf semi level cells after within among mem done
      have attached : Within (update (clearLinks cells newleaf) proot (some newleaf)) starts nodes :=
        (clearLinks_within within newleaf).update proot fun node same => Option.some.inj same ▸ mem
      rw [insertAt] at done
      cases here : cells proot with
      | none =>
        rw [here] at done
        cases done
        exact attached
      | some iter =>
        have found := within proot among iter here
        rw [here] at done
        dsimp only at done
        split at done
        · exact reinserted attached among found done
        · split at done
          · exact inserted within (.inr ⟨iter, found, .inl rfl⟩) mem done
          · exact inserted within (.inr ⟨iter, found, .inr rfl⟩) mem done
    · intro proot insertRoot semi level cells after within among mem done
      obtain ⟨lowMoved, lowDone, rest⟩ := Option.bind_eq_some_iff.mp done
      obtain ⟨bothMoved, highDone, last⟩ := Option.bind_eq_some_iff.mp rest
      have lowWithin := reinsertChild_within (fun inside => reinserted inside among) within
        (.inr ⟨insertRoot, mem, .inl rfl⟩) lowDone
      have highWithin := reinsertChild_within (fun inside => reinserted inside among) lowWithin
        (.inr ⟨insertRoot, mem, .inr rfl⟩) highDone
      exact inserted highWithin among mem last

/-- A pop with any centre leaves no pointer to the popped node. -/
lemma popAt_within {start : Slot} {shape : Shape} (holds : Holds cells (cells start) shape)
    (nodup : shape.nodes.Nodup) (among : proot.Among [start] shape.nodes) {root : Nat}
    (done : popAt key range fuel proot semi level cells = some (after, root)) :
    Within after [start] (shape.nodes.filter (· ≠ root)) := by
  rw [popAt] at done
  cases here : cells proot with
  | none =>
    rw [here] at done
    cases done
  | some popped =>
    rw [here] at done
    obtain ⟨lowMoved, lowDone, rest⟩ := Option.bind_eq_some_iff.mp done
    obtain ⟨bothMoved, highDone, same⟩ := Option.map_eq_some_iff.mp rest
    obtain ⟨rfl, rfl⟩ : bothMoved = after ∧ popped = root := Prod.mk.inj same
    have mem := holds.within proot among popped here
    obtain ⟨notLow, notHigh⟩ := holds.loopless nodup mem
    -- The cells of the popped node still lead to the nodes that are inserted again.
    have detached : Within (update cells proot none) [start, .low popped, .high popped]
        (shape.nodes.filter (· ≠ popped)) := by
      intro slot inside node points
      by_cases cleared : slot = proot
      · rw [cleared, update_self] at points
        cases points
      rw [update_of_ne cleared] at points
      have whole : slot.Among [start] shape.nodes := by
        rcases inside with first | ⟨other, kept, child⟩
        · simp only [mem_cons, not_mem_nil, or_false] at first
          rcases first with rfl | rfl | rfl
          · exact .inl (mem_singleton_self _)
          · exact .inr ⟨popped, mem, .inl rfl⟩
          · exact .inr ⟨popped, mem, .inr rfl⟩
        · exact .inr ⟨other, (mem_filter.mp kept).1, child⟩
      refine mem_filter.mpr ⟨holds.within slot whole node points, ?_⟩
      have differs : node ≠ popped := by
        rintro rfl
        exact cleared (holds.unique nodup whole among points here)
      simpa using differs
    have start : proot.Among [start, .low popped, .high popped] (shape.nodes.filter (· ≠ popped)) := by
      rcases among with first | ⟨other, kept, child⟩
      · exact .inl (mem_cons.mpr (.inl (mem_singleton.mp first)))
      refine .inr ⟨other, mem_filter.mpr ⟨kept, ?_⟩, child⟩
      have differs : other ≠ popped := by
        rintro rfl
        rcases child with rfl | rfl
        · exact notLow here
        · exact notHigh here
      simpa using differs
    have lowWithin := reinsertChild_within
      (fun inside found moved => (insertAt_within fuel).2 inside start found moved)
      detached (.inl (by simp)) lowDone
    have highWithin := reinsertChild_within
      (fun inside found moved => (insertAt_within fuel).2 inside start found moved)
      lowWithin (.inl (by simp)) highDone
    intro slot inside
    refine highWithin slot (inside.imp_left fun first => ?_)
    exact mem_cons.mpr (.inl (mem_singleton.mp first))

/-- A lookup finds one of the nodes, and its range covers the key. -/
lemma locateAt_within (within : Within cells starts nodes) (fuel : Nat) :
    ∀ {slot : Slot} {wanted semi level node : Nat}, slot.Among starts nodes →
      locateAt key range cells fuel (cells slot) wanted semi level = some (some node) →
      node ∈ nodes ∧ Covers range wanted node := by
  induction fuel with
  | zero => exact fun _ located => nomatch located
  | succ fuel ih =>
    intro slot wanted semi level node among located
    cases here : cells slot with
    | none =>
      rw [here] at located
      exact nomatch located
    | some root =>
      have mem := within slot among root here
      rw [here, locateAt] at located
      split at located
      · cases located
      split at located
      · rename_i covers
        cases located
        exact ⟨mem, covers⟩
      · split at located
        · exact ih (.inr ⟨root, mem, .inl rfl⟩) located
        · exact ih (.inr ⟨root, mem, .inr rfl⟩) located

end KosKernel.Hybrid.ATree
