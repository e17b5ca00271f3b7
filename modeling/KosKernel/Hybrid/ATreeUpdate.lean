import KosKernel.Hybrid.ATreeRoom
import KosKernel.Hybrid.ATreeChecked

namespace KosKernel.Hybrid.ATree
open LinkTree Function List
variable {key : KeyType} {range : Ranges}

/-- A cell leads to a placed tree in which each node stands once. -/
structure Rooted (range : Ranges) (cells : Cells) (proot : Slot) (base size : Nat)
    (shape : Shape) : Prop where
  holds : Holds cells (cells proot) shape
  placed : Placed range shape base size
  nodup : shape.nodes.Nodup
  outside : proot.Outside shape.nodes

/-- An operation on a cell leaves a placed tree with exactly the listed nodes. -/
structure Updated (range : Ranges) (cells after : Cells) (proot : Slot) (base size : Nat)
    (nodes : List Nat) (shape : Shape) : Prop where
  rooted : Rooted range after proot base size shape
  members : shape.nodes.Perm nodes
  frame : Frame cells after proot nodes

variable {cells after : Cells} {proot : Slot} {base size root newleaf calls : Nat} {shape : Shape}
  {nodes : List Nat}

lemma Rooted.updated (rooted : Rooted range cells proot base size shape) :
    Updated range cells cells proot base size shape.nodes shape :=
  ⟨rooted, List.Perm.refl _, Frame.refl _ _ _⟩

/-- Two operations on one cell compose when the second keeps the nodes of the first. -/
lemma Updated.trans {middle : Cells} {few many : List Nat} {first second : Shape}
    (one : Updated range cells middle proot base size few first)
    (two : Updated range middle after proot base size many second) (subset : ∀ node ∈ few, node ∈ many) :
    Updated range cells after proot base size many second :=
  ⟨two.rooted, two.members, (one.frame.mono subset).trans two.frame⟩

lemma Updated.perm {others : List Nat} (updated : Updated range cells after proot base size nodes shape)
    (same : nodes.Perm others) : Updated range cells after proot base size others shape :=
  ⟨updated.rooted, updated.members.trans same, updated.frame.mono fun _ => same.mem_iff.mp⟩

section
variable {low high lowAfter highAfter : Shape}
  (rooted : Rooted range cells proot base (size + 1) (.node low root high))
include rooted

lemma Rooted.low_fresh : ∀ node ∈ low.nodes, node ∉ root :: high.nodes :=
  fun node mem found => (nodup_append.mp rooted.nodup).2.2 node mem node found rfl

lemma Rooted.high_fresh : ∀ node ∈ high.nodes, node ∉ root :: low.nodes := by
  intro node mem found
  obtain ⟨_, rest, disjoint⟩ := nodup_append.mp rooted.nodup
  rcases mem_cons.mp found with rfl | found
  · exact (nodup_cons.mp rest).1 mem
  · exact disjoint node found node (by simp [mem]) rfl

lemma Rooted.low_away : proot.Outside low.nodes := rooted.outside.mono fun node mem => by simp [mem]

lemma Rooted.high_away : proot.Outside high.nodes := rooted.outside.mono fun node mem => by simp [mem]

/-- A tree keeps its place when its lower subtree changes. -/
lemma Rooted.with_low (lower : Rooted range after (.low root) base size lowAfter)
    (subset : ∀ node ∈ lowAfter.nodes, node ∈ nodes) (frame : Frame cells after (.low root) nodes)
    (fresh : ∀ node ∈ nodes, node ∉ root :: high.nodes) (away : proot.Outside nodes) :
    Rooted range after proot base (size + 1) (.node lowAfter root high) := by
  obtain ⟨⟨here, _, upper⟩, ⟨inside, above, _, upperPlaced⟩, nodup, outside⟩ := rooted
  have rest : (root :: high.nodes).Nodup := (nodup_append.mp nodup).2.1
  have rootNew : root ∉ nodes := fun found => fresh root found mem_cons_self
  have same : after proot = cells proot := frame proot (outside root (by simp)).1 away
  refine ⟨⟨by rw [same, here], lower.holds, ?_⟩, ⟨inside, above, lower.placed, upperPlaced⟩, ?_, ?_⟩
  · rw [frame (.high root) (by simp) (outside_high rootNew)]
    refine frame.holds upper (outside_low (nodup_cons.mp rest).1) fun node mem found => ?_
    exact fresh node found (mem_cons_of_mem _ mem)
  · refine nodup_append.mpr ⟨lower.nodup, rest, fun node mem other found same => ?_⟩
    exact fresh node (subset node mem) (same ▸ found)
  · intro node mem
    rcases mem_append.mp mem with found | found
    · exact away node (subset node found)
    · exact outside node (mem_append_right _ found)

/-- A tree keeps its place when its upper subtree changes above the centre. -/
lemma Rooted.with_high (upper : Rooted range after (.high root) (base + 2 ^ size) size highAfter)
    (subset : ∀ node ∈ highAfter.nodes, node ∈ nodes) (frame : Frame cells after (.high root) nodes)
    (above : ∀ node ∈ nodes, base + 2 ^ size < (range node).aVmin)
    (fresh : ∀ node ∈ nodes, node ∉ root :: low.nodes)
    (away : proot.Outside nodes) :
      Rooted range after proot base (size + 1) (.node low root highAfter) := by
  obtain ⟨⟨here, lower, _⟩, ⟨inside, _, lowerPlaced, _⟩, nodup, outside⟩ := rooted
  obtain ⟨lowDistinct, _, disjoint⟩ := nodup_append.mp nodup
  have rootLow : root ∉ low.nodes := fun found => disjoint root found root mem_cons_self rfl
  have rootNew : root ∉ nodes := fun found => fresh root found mem_cons_self
  have same : after proot = cells proot := frame proot (outside root (by simp)).2 away
  refine ⟨⟨by rw [same, here], ?_, upper.holds⟩,
    ⟨inside, fun node mem => above node (subset node mem), lowerPlaced, upper.placed⟩, ?_, ?_⟩
  · rw [frame (.low root) (by simp) (outside_low rootNew)]
    refine frame.holds lower (outside_high rootLow) fun node mem found => ?_
    exact fresh node found (mem_cons_of_mem _ mem)
  · refine nodup_append.mpr ⟨lowDistinct, nodup_cons.mpr ⟨fun found => rootNew (subset root found),
      upper.nodup⟩, ?_⟩
    intro node mem other found same
    rcases mem_cons.mp found with rfl | found
    · exact rootLow (same ▸ mem)
    · exact fresh other (subset other found) (same ▸ mem_cons_of_mem _ mem)
  · intro node mem
    rw [nodes_node, mem_append, mem_cons] at mem
    rcases mem with found | rfl | found
    · exact outside node (by simp [found])
    · exact outside node (by simp)
    · exact away node (subset node found)

/-- A change of the lower subtree changes the whole tree in the same way. -/
lemma Rooted.replace_low (updated : Updated range cells after (.low root) base size nodes lowAfter)
    (fresh : ∀ node ∈ nodes, node ∉ root :: high.nodes) (away : proot.Outside nodes) :
    Updated range cells after proot base (size + 1) (nodes ++ root :: high.nodes)
      (.node lowAfter root high) := by
  obtain ⟨lower, members, frame⟩ := updated
  refine ⟨rooted.with_low lower (fun node => members.mem_iff.mp) frame fresh away,
    members.append_right _, ?_⟩
  intro slot other unowned
  exact frame slot (unowned root (by simp)).1 (unowned.mono fun _ => mem_append_left _)

/-- A change of the upper subtree above the centre changes the whole tree in the same way. -/
lemma Rooted.replace_high (updated : Updated range cells after (.high root) (base + 2 ^ size) size
    nodes highAfter)
    (above : ∀ node ∈ nodes, base + 2 ^ size < (range node).aVmin)
    (fresh : ∀ node ∈ nodes, node ∉ root :: low.nodes) (away : proot.Outside nodes) :
    Updated range cells after proot base (size + 1) (nodes ++ root :: low.nodes)
      (.node low root highAfter) := by
  obtain ⟨upper, members, frame⟩ := updated
  refine ⟨rooted.with_high upper (fun node => members.mem_iff.mp) frame above fresh away, ?_, ?_⟩
  · have turned : (low.nodes ++ root :: highAfter.nodes).Perm (highAfter.nodes ++ root :: low.nodes) :=
      perm_append_comm.trans perm_middle.symm
    exact turned.trans (members.append_right _)
  · intro slot other unowned
    exact frame slot (unowned root (by simp)).2 (unowned.mono fun _ => mem_append_left _)

end

/-- The lower subtree of a tree is a tree on its own. -/
lemma Rooted.low {low high : Shape}
    (rooted : Rooted range cells proot base (size + 1) (.node low root high)) :
    Rooted range cells (.low root) base size low := by
  have parts := nodup_append.mp rooted.nodup
  refine ⟨rooted.holds.2.1, rooted.placed.2.2.1, parts.1, outside_low ?_⟩
  intro mem
  exact parts.2.2 root mem root (by simp) rfl

/-- The upper subtree of a tree is a tree on its own. -/
lemma Rooted.high {low high : Shape}
    (rooted : Rooted range cells proot base (size + 1) (.node low root high)) :
    Rooted range cells (.high root) (base + 2 ^ size) size high := by
  have parts := nodup_append.mp rooted.nodup
  have rest := nodup_cons.mp parts.2.1
  exact ⟨rooted.holds.2.2, rooted.placed.2.2.2, rest.2, outside_high rest.1⟩

/-- The memory after a new leaf took over a cell. -/
def attach (cells : Cells) (proot : Slot) (newleaf : Nat) : Cells :=
  update (clearLinks cells newleaf) proot (some newleaf)

/-- An attached leaf is a tree of one node. -/
lemma attach_updated (cells : Cells) (away : proot.Outside [newleaf])
    (inside : Inside range base (size + 1) newleaf) :
    Updated range cells (attach cells proot newleaf) proot base (size + 1) [newleaf]
      (.node .leaf newleaf .leaf) := by
  obtain ⟨notLow, notHigh⟩ := away newleaf (by simp)
  refine ⟨⟨⟨?_, ?_, ?_⟩, ⟨inside, by simp, placed_leaf _ _, placed_leaf _ _⟩, by simp, away⟩,
    List.Perm.refl _, ?_⟩
  · simp [attach]
  · simp [holds_leaf, attach, clearLinks, update_of_ne notLow.symm]
  · simp [holds_leaf, attach, clearLinks, update_of_ne notHigh.symm]
  · intro slot other unowned
    obtain ⟨otherLow, otherHigh⟩ := unowned newleaf (by simp)
    simp [attach, clearLinks, other, otherLow, otherHigh]

/-- A checked insertion succeeds on all trees that meet the condition and keeps it. -/
def Accepts (key : KeyType) (range : Ranges) (base size calls : Nat) (keeps : Shape → Prop) : Prop :=
  ∀ (cells : Cells) (proot : Slot) (shape : Shape) (newleaf : Nat),
    Rooted range cells proot base (size + 1) shape → keeps shape → newleaf ∉ shape.nodes →
    proot.Outside [newleaf] → Inside range base (size + 1) newleaf →
    Roomy range base (size + 1) (newleaf :: shape.nodes) →
    ∀ fuel, calls ≤ fuel → ∃ after result,
      insertChecked key range fuel proot newleaf (base + 2 ^ size) size cells = .ok after ∧
        Updated range cells after proot base (size + 1) (newleaf :: shape.nodes) result ∧ keeps result

/-- A detached subtree passes the checks when it is inserted again. -/
def Reaccepts (key : KeyType) (range : Ranges) (base size calls : Nat) (keeps : Shape → Prop) : Prop :=
  ∀ (moved : Shape) (cells : Cells) (proot : Slot) (shape : Shape) (child : Option Nat),
    Holds cells child moved → Rooted range cells proot base (size + 1) shape → keeps shape →
    (moved.nodes ++ shape.nodes).Nodup → proot.Outside moved.nodes →
    (∀ node ∈ moved.nodes, Inside range base (size + 1) node) →
    Roomy range base (size + 1) (moved.nodes ++ shape.nodes) →
    ∀ fuel, calls + moved.depth ≤ fuel → ∃ after result,
      reinsertChildChecked key range fuel proot child (base + 2 ^ size) size cells = .ok after ∧
        Updated range cells after proot base (size + 1) (moved.nodes ++ shape.nodes) result ∧
          keeps result

/-- The reinsertion of a subtree is a sequence of insertions. -/
lemma reaccepts_of_accepts {keeps : Shape → Prop} (accepts : Accepts key range base size calls keeps) :
    Reaccepts key range base size calls keeps := by
  intro moved
  induction moved with
  | leaf =>
    intro cells proot shape child holds rooted kept _ _ _ _ fuel _
    obtain rfl : child = none := holds
    exact ⟨cells, shape, rfl, rooted.updated, kept⟩
  | node low root high lowMoves highMoves =>
    intro cells proot shape child holds rooted kept nodup away inside roomy fuel enough
    obtain ⟨rfl, lower, upper⟩ := holds
    rw [Shape.depth] at enough
    obtain _ | rest := fuel
    · omega
    have order : ((Shape.node low root high).nodes ++ shape.nodes).Perm
        (root :: (high.nodes ++ (low.nodes ++ shape.nodes))) := by
      rw [nodes_node, append_assoc, cons_append]
      refine perm_middle.trans (List.Perm.cons root ?_)
      rw [← append_assoc, ← append_assoc]
      exact perm_append_comm.append_right _
    have distinct := order.nodup_iff.mp nodup
    obtain ⟨rootNew, restDistinct⟩ := nodup_cons.mp distinct
    obtain ⟨_, lowDistinct, highNew⟩ := nodup_append.mp restDistinct
    have within : ∀ node ∈ root :: (high.nodes ++ (low.nodes ++ shape.nodes)),
        node ∈ (Shape.node low root high).nodes ++ shape.nodes := fun _ => order.mem_iff.mpr
    simp only [mem_append, not_or] at rootNew
    obtain ⟨lowAfter, lowShape, lowDone, lowUpdated, lowKept⟩ :=
      lowMoves cells proot shape _ lower rooted kept lowDistinct
        (away.mono fun node mem => by simp [mem])
        (fun node mem => inside node (by simp [mem]))
        (roomy.mono fun node mem => within node (by simp_all)) rest (by omega)
    have unchanged : lowAfter (.high root) = cells (.high root) :=
      lowUpdated.frame _ (away root (by simp)).2.symm (outside_high (by simp [rootNew]))
    have upperLeft : Holds lowAfter (lowAfter (.high root)) high := by
      rw [unchanged]
      apply lowUpdated.frame.holds upper (away.mono fun node mem => by simp [mem])
      intro node mem found
      exact highNew node mem node found rfl
    have lowMembers := lowUpdated.members
    obtain ⟨highAfter, highShape, highDone, highUpdated, highKept⟩ :=
      highMoves lowAfter proot lowShape _ upperLeft lowUpdated.rooted lowKept
        ((lowMembers.append_left high.nodes).nodup_iff.mpr restDistinct)
        (away.mono fun node mem => by simp [mem])
        (fun node mem => inside node (by simp [mem]))
        (roomy.mono fun node mem => within node (by
          rw [mem_append, lowMembers.mem_iff] at mem
          simp only [mem_cons, mem_append] at mem ⊢
          tauto)) rest (by omega)
    have highMembers : highShape.nodes.Perm (high.nodes ++ (low.nodes ++ shape.nodes)) :=
      highUpdated.members.trans (lowMembers.append_left high.nodes)
    obtain ⟨after, result, done, updated, resultKept⟩ :=
      accepts highAfter proot highShape root highUpdated.rooted highKept
        (by rw [highMembers.mem_iff]; simp [rootNew])
        (away.mono fun node mem => by simp at mem; simp [mem]) (inside root (by simp))
        (roomy.mono fun node mem => within node (by
          rwa [mem_cons, highMembers.mem_iff, ← mem_cons] at mem)) rest (by omega)
    refine ⟨after, result, ?_, ?_, resultKept⟩
    · rw [reinsertChildChecked, reinsertallChecked_succ, lowDone, ok_bind, highDone, ok_bind, done]
    · have twice := lowUpdated.trans (highUpdated.perm (lowMembers.append_left high.nodes))
        fun _ => mem_append_right _
      have thrice := twice.trans (updated.perm (highMembers.cons root))
        fun _ => mem_cons_of_mem _
      exact thrice.perm order.symm

/-- The nodes of a tree with a new leaf in the upper subtree. -/
lemma upper_first (low high : List Nat) (root newleaf : Nat) :
    ((newleaf :: high) ++ root :: low).Perm (newleaf :: (low ++ root :: high)) := by
  apply List.Perm.cons newleaf
  have turned : (high ++ root :: low).Perm (root :: low ++ high) := perm_append_comm
  exact turned.trans perm_middle.symm

section
variable (block : Block key base (size + 1))
  (smaller : ∀ rest, size = rest + 1 → ∀ half, Block key half (rest + 1) →
    Accepts key range half rest calls fun _ => True)
include block smaller

/-- A leaf beside the centre goes to the half of the block that it lies in. -/
lemma insertChecked_walk {low high : Shape}
    (rooted : Rooted range cells proot base (size + 1) (.node low root high))
    (new : newleaf ∉ (Shape.node low root high).nodes) (away : proot.Outside [newleaf])
    (inside : Inside range base (size + 1) newleaf)
    (roomy : Roomy range base (size + 1) (newleaf :: (Shape.node low root high).nodes))
    (beside : ¬ ((range newleaf).aVmin ≤ base + 2 ^ size ∧ base + 2 ^ size ≤ (range newleaf).aVmax))
    {fuel : Nat} (enough : calls < fuel) :
    ∃ after lowAfter highAfter, insertChecked key range fuel proot newleaf (base + 2 ^ size) size
      cells = .ok after ∧
        Updated range cells after proot base (size + 1) (newleaf :: (Shape.node low root high).nodes)
          (.node lowAfter root highAfter) := by
  obtain _ | turns := fuel
  · omega
  simp only [nodes_node, mem_append, mem_cons, not_or] at new
  obtain ⟨notLow, notRoot, notHigh⟩ := new
  have rootInside := rooted.placed.inside root (by simp)
  obtain ⟨rest, rfl⟩ := roomy.size_of_two (by simp) (by simp) notRoot inside rootInside
  have rootLow : root ∉ low.nodes := fun mem => rooted.low_fresh root mem (by simp)
  by_cases less : (range newleaf).aVmax < base + 2 ^ (rest + 1)
  · obtain ⟨after, lowAfter, done, updated, _⟩ :=
      smaller rest rfl base block.low cells (.low root) low newleaf
      rooted.low trivial notLow (outside_low (by simp [Ne.symm notRoot])) (inside.low less)
      (roomy.low (fun node mem => by rcases mem_cons.mp mem with rfl | mem <;> simp [*])
        (by simp) (by simp [Ne.symm notRoot, rootLow]) rootInside) turns (by omega)
    refine ⟨after, lowAfter, high, ?_, ?_⟩
    · rw [insertChecked, rooted.holds.1]
      simp [if_neg beside, if_pos less, walkMin_center block, nextLevel_succ block, done]
    · apply rooted.replace_low updated
      · exact forall_mem_cons.mpr ⟨by simp [notRoot, notHigh], rooted.low_fresh⟩
      · exact forall_mem_cons.mpr ⟨away _ (by simp), rooted.low_away⟩
  · have more : base + 2 ^ (rest + 1) < (range newleaf).aVmin := by omega
    have upperAbove : ∀ node ∈ newleaf :: high.nodes, base + 2 ^ (rest + 1) < (range node).aVmin :=
      forall_mem_cons.mpr ⟨more, rooted.placed.2.1⟩
    obtain ⟨after, highAfter, done, updated, _⟩ :=
      smaller rest rfl _ block.high cells (.high root) high newleaf
      rooted.high trivial notHigh (outside_high (by simp [Ne.symm notRoot])) (inside.high more)
      (roomy_above (roomy.apart.mono fun node mem => by
        rcases mem_cons.mp mem with rfl | mem <;> simp [*]) upperAbove) turns (by omega)
    refine ⟨after, low, highAfter, ?_, ?_⟩
    · rw [insertChecked, rooted.holds.1]
      simp [if_neg beside, if_neg less, walkMax_center block, nextLevel_succ block, done]
    · apply (rooted.replace_high updated upperAbove ?_ ?_).perm
        (upper_first low.nodes high.nodes root newleaf)
      · exact forall_mem_cons.mpr ⟨by simp [notRoot, notLow], rooted.high_fresh⟩
      · exact forall_mem_cons.mpr ⟨away _ (by simp), rooted.high_away⟩

/-- The root of a tree covers the centre of its block. -/
def Covered (range : Ranges) (center : Nat) : Shape → Prop
  | .leaf => False
  | .node _ root _ => (range root).aVmin ≤ center ∧ center ≤ (range root).aVmax

/-- Below a root that covers the centre no insertion displaces a node of this block. -/
lemma accepts_covered : Accepts key range base size (calls + 1) (Covered range (base + 2 ^ size)) := by
  intro cells proot shape newleaf rooted covered new away inside roomy fuel enough
  cases shape with
  | leaf => exact absurd covered id
  | node low root high =>
    have beside : ¬ ((range newleaf).aVmin ≤ base + 2 ^ size ∧
      base + 2 ^ size ≤ (range newleaf).aVmax) := by
      intro covers
      have same := roomy.apart.eq_of_covers (by simp) (by simp) covers covered
      exact new (by simp [same])
    obtain ⟨after, lowAfter, highAfter, done, updated⟩ :=
      insertChecked_walk block smaller rooted new away inside roomy beside (by omega : calls < fuel)
    exact ⟨after, _, done, updated, covered⟩

end

/-- This many calls are enough for an insertion into a block. -/
def insertCalls (size : Nat) : Nat := size * size + 3 * size

lemma insertCalls_succ (size : Nat) : insertCalls (size + 1) = insertCalls size + (2 * size + 4) := by
  unfold insertCalls
  ring

/-- An insertion adds its leaf to any placed tree of the block. -/
lemma accepts (size : Nat) : ∀ base, Block key base (size + 1) →
    Accepts key range base size (insertCalls (size + 1)) fun _ => True := by
  induction size using Nat.strong_induction_on with
  | _ size ih =>
    intro base block
    have smaller : ∀ rest, size = rest + 1 → ∀ half, Block key half (rest + 1) →
        Accepts key range half rest (insertCalls size) fun _ => True := by
      intro rest here half halfBlock
      rw [here]
      exact ih rest (by omega) half halfBlock
    intro cells proot shape newleaf rooted _ new away inside roomy fuel enough
    rw [insertCalls_succ] at enough
    obtain _ | turns := fuel
    · omega
    have attached := attach_updated cells away inside
    cases shape with
    | leaf =>
      refine ⟨_, _, ?_, attached, trivial⟩
      rw [insertChecked, show cells proot = none from rooted.holds]
      rfl
    | node low root high =>
      by_cases covers : (range newleaf).aVmin ≤ base + 2 ^ size ∧ base + 2 ^ size ≤ (range newleaf).aVmax
      · have joined : (newleaf :: (Shape.node low root high).nodes).Perm
            ((Shape.node low root high).nodes ++ [newleaf]) := (perm_append_singleton _ _).symm
        have left : Holds (attach cells proot newleaf) (cells proot) (.node low root high) := by
          apply attached.frame.holds rooted.holds rooted.outside
          intro node mem found
          rw [mem_singleton] at found
          exact new (found ▸ mem)
        have differs : newleaf ≠ root := fun same => new (by simp [same])
        have occupied : size ≠ 0 := by
          obtain ⟨rest, rfl⟩ := roomy.size_of_two (by simp) (by simp) differs inside
            (rooted.placed.inside root (by simp))
          exact Nat.succ_ne_zero rest
        obtain ⟨after, result, done, updated, _⟩ :=
          reaccepts_of_accepts (accepts_covered block smaller) (.node low root high) _ proot _ _ left
            attached.rooted covers
            (joined.nodup_iff.mp (nodup_cons.mpr ⟨new, rooted.nodup⟩)) rooted.outside
            rooted.placed.inside (roomy.mono fun _ => joined.mem_iff.mpr) turns
            (by have := rooted.placed.depth_le; omega)
        refine ⟨after, result, ?_, ?_, trivial⟩
        · rw [insertChecked]
          simp only [if_neg occupied, if_pos covers]
          exact done
        · exact (attached.trans updated fun node mem => by simp_all).perm joined.symm
      · obtain ⟨after, lowAfter, highAfter, done, updated⟩ :=
          insertChecked_walk block smaller rooted new away inside roomy covers
            (by omega : insertCalls size < turns + 1)
        exact ⟨after, _, done, updated, trivial⟩

/-- On a leaf apart from all nodes of the tree `tryinsert_at` does what `insert_at` does. -/
lemma tryinsertAt_apart (holds : Holds cells (cells proot) shape)
    (apart : ∀ node ∈ shape.nodes, (range newleaf).aVmax < (range node).aVmin ∨
      (range node).aVmax < (range newleaf).aVmin)
    (fuel semi level : Nat) :
    tryinsertAt key range fuel proot newleaf semi level cells =
      (insertAt key range fuel proot newleaf semi level cells).map (·, true) := by
  induction shape generalizing proot fuel semi level with
  | leaf =>
    cases fuel with
    | zero => rfl
    | succ turns =>
      rw [tryinsertAt, insertAt, show cells proot = none from holds]
      rfl
  | node low root high lowTries highTries =>
    cases fuel with
    | zero => rfl
    | succ turns =>
      obtain ⟨here, lower, upper⟩ := holds
      have clear : ¬ ((range newleaf).aVmin ≤ (range root).aVmax ∧
        (range root).aVmin ≤ (range newleaf).aVmax) := by
        rcases apart root (by simp) with less | less <;> omega
      rw [tryinsertAt, insertAt, here]
      simp only [if_neg clear]
      split
      · rfl
      · split
        · exact lowTries lower (fun node mem => apart node (by simp [mem])) turns _ _
        · exact highTries upper (fun node mem => apart node (by simp [mem])) turns _ _

lemma tryinsertAt_eq (holds : Holds cells (cells proot) shape)
    (apart : ∀ node ∈ shape.nodes, Below range newleaf node ∨ Below range node newleaf)
    (fuel semi level : Nat) :
    tryinsertAt key range fuel proot newleaf semi level cells =
      (insertAt key range fuel proot newleaf semi level cells).map (·, true) :=
  tryinsertAt_apart holds (fun node mem => (apart node mem).imp And.left And.left) fuel semi level

/-- A cleared cell is an empty tree. -/
lemma detach_rooted (cells : Cells) (proot : Slot) (base size : Nat) :
    Rooted range (update cells proot none) proot base size .leaf :=
  ⟨by simp [holds_leaf], placed_leaf _ _, by simp, by simp [Slot.Outside]⟩

/-- The child cells of the root and the subtrees survive when the root is detached. -/
lemma Rooted.detached {low high : Shape}
    (rooted : Rooted range cells proot base size (.node low root high)) :
    Holds (update cells proot none) (update cells proot none (.low root)) low ∧
      Holds (update cells proot none) (update cells proot none (.high root)) high := by
  have frame := Frame.update cells proot none []
  obtain ⟨_, lower, upper⟩ := rooted.holds
  obtain ⟨notLow, notHigh⟩ := rooted.outside root (by simp)
  constructor
  · rw [update_of_ne notLow.symm]
    exact frame.holds lower (rooted.outside.mono fun node mem => by simp [mem]) (by simp)
  · rw [update_of_ne notHigh.symm]
    exact frame.holds upper (rooted.outside.mono fun node mem => by simp [mem]) (by simp)

/-- A pop at the position of the cell returns the root and keeps all other nodes. -/
lemma popAt_updated {low high : Shape} (block : Block key base (size + 1))
    (rooted : Rooted range cells proot base (size + 1) (.node low root high))
    (separated : Separated range (Shape.node low root high).nodes) {fuel : Nat}
    (enough : insertCalls (size + 1) + size ≤ fuel) :
    ∃ after result, popAt key range fuel proot (base + 2 ^ size) size cells = some (after, root) ∧
      Updated range cells after proot base (size + 1) (high.nodes ++ low.nodes) result := by
  have moves : Reaccepts key range base size (insertCalls (size + 1)) fun _ => True :=
    reaccepts_of_accepts (accepts size base block)
  obtain ⟨lower, upper⟩ := rooted.detached
  have order : (low.nodes ++ root :: high.nodes).Perm (root :: (high.nodes ++ low.nodes)) :=
    perm_middle.trans (perm_append_comm.cons root)
  obtain ⟨rootNew, distinct⟩ := nodup_cons.mp (order.nodup_iff.mp rooted.nodup)
  obtain ⟨highDistinct, lowDistinct, disjoint⟩ := nodup_append.mp distinct
  have insides := rooted.placed.inside
  have lowDepth := rooted.placed.2.2.1.depth_le
  have highDepth := rooted.placed.2.2.2.depth_le
  obtain ⟨lowAfter, lowShape, lowDone, lowUpdated, _⟩ :=
    moves low (update cells proot none) proot .leaf _ lower (detach_rooted cells proot base (size + 1))
      trivial (by simpa using lowDistinct) (rooted.outside.mono fun node mem => by simp [mem])
      (fun node mem => insides node (by simp [mem]))
      ((separated.mono fun node mem => by simp_all).roomy block) fuel (by omega)
  rw [nodes_leaf, append_nil] at lowUpdated
  have unchanged : lowAfter (.high root) = update cells proot none (.high root) :=
    lowUpdated.frame _ (rooted.outside root (by simp)).2.symm
      (outside_high fun mem => rootNew (by simp [mem]))
  have upperLeft : Holds lowAfter (lowAfter (.high root)) high := by
    rw [unchanged]
    apply lowUpdated.frame.holds upper (rooted.outside.mono fun node mem => by simp [mem])
    intro node mem found
    exact disjoint node mem node found rfl
  have members := lowUpdated.members.append_left high.nodes
  obtain ⟨after, result, done, updated, _⟩ :=
    moves high lowAfter proot lowShape _ upperLeft lowUpdated.rooted trivial
      (members.nodup_iff.mpr distinct) (rooted.outside.mono fun node mem => by simp [mem])
      (fun node mem => insides node (by simp [mem]))
      ((separated.mono fun node mem => order.mem_iff.mpr
        (mem_cons_of_mem _ (members.mem_iff.mp mem))).roomy block) fuel (by omega)
  refine ⟨after, result, ?_, ?_⟩
  · rw [popAt, rooted.holds.1]
    dsimp only
    rw [reinsertChild_of_checked lowDone, Option.bind_some, reinsertChild_of_checked done]
    rfl
  · have whole := lowUpdated.trans (updated.perm members) fun _ => mem_append_right _
    exact ⟨whole.rooted, whole.members, (Frame.update cells proot none _).trans whole.frame⟩

end KosKernel.Hybrid.ATree
