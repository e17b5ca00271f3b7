import KosKernel.Hybrid.ATreeLookup

namespace KosKernel.Hybrid.ATree
open LinkTree Function List
variable {key : KeyType} {range : Ranges}

/-- The root cell leads to a placed tree with exactly the listed nodes. -/
def Stored (key : KeyType) (range : Ranges) (cells : Cells) (nodes : List Nat) : Prop :=
  ∃ shape, Rooted range cells .head 0 key.bits shape ∧ shape.nodes.Perm nodes

variable {cells : Cells} {nodes : List Nat} {size : Nat}

/-- A null root pointer stores no node. -/
lemma stored_nil (key : KeyType) (range : Ranges) (empty : cells .head = none) :
    Stored key range cells [] :=
  ⟨.leaf, ⟨empty, placed_leaf _ _, nodup_nil, outside_head _⟩, List.Perm.refl _⟩

lemma Stored.perm {others : List Nat} (stored : Stored key range cells nodes)
    (same : nodes.Perm others) :
    Stored key range cells others := by
  obtain ⟨shape, rooted, members⟩ := stored
  exact ⟨shape, rooted, members.trans same⟩

lemma Stored.nodup (stored : Stored key range cells nodes) : nodes.Nodup := by
  obtain ⟨shape, rooted, members⟩ := stored
  exact members.nodup_iff.mp rooted.nodup

variable {shape : Shape} {base child fuel : Nat} {ranges : Ranges} {proot : Slot}

/-- A tree keeps its place when the range of a node outside of it changes. -/
lemma Placed.congr (placed : Placed range shape base size)
    (same : ∀ node ∈ shape.nodes, ranges node = range node) :
    Placed ranges shape base size := by
  induction shape generalizing base size with
  | leaf => exact placed_leaf _ _
  | node low root high lowSame highSame =>
    obtain ⟨rest, rfl⟩ := placed.exists_size
    obtain ⟨inside, above, lower, upper⟩ := placed
    refine ⟨?_, ?_, lowSame lower fun node mem => same node (by simp [mem]),
      highSame upper fun node mem => same node (by simp [mem])⟩
    · unfold Inside
      rw [same root (by simp)]
      exact inside
    · intro node mem
      rw [same node (by simp [mem])]
      exact above node mem

lemma Stored.congr (stored : Stored key range cells nodes)
    (same : ∀ node ∈ nodes, ranges node = range node) :
    Stored key ranges cells nodes := by
  obtain ⟨shape, rooted, members⟩ := stored
  exact ⟨shape, ⟨rooted.holds, rooted.placed.congr fun node mem => same node (members.mem_iff.mp mem),
    rooted.nodup, rooted.outside⟩, members⟩

lemma atCenter_root (key : KeyType) : AtCenter 0 key.bits (semi0 key) (level0 key) := by
  intro rest width
  obtain ⟨size, same, center, level⟩ := semi0_eq key
  obtain rfl : rest = size := by omega
  exact ⟨center, level⟩

lemma bits_lt_callDepth (key : KeyType) : key.bits < callDepth key := by
  unfold callDepth
  omega

lemma insertCalls_le_callDepth (small : size + 1 ≤ key.bits) :
    insertCalls (size + 1) + size ≤ callDepth key := by
  have square : (size + 1) * (size + 1) ≤ key.bits * key.bits := Nat.mul_le_mul small small
  unfold callDepth insertCalls
  omega

/-- This is the checked insertion at the root of the tree. -/
def insertRoot (key : KeyType) (range : Ranges) (cells : Cells) (newleaf : Nat) : Except Stop Cells :=
  insertChecked key range (callDepth key) .head newleaf (semi0 key) (level0 key) cells

/-- A new node whose block has room passes all checks. -/
lemma Stored.accept {newleaf : Nat} (stored : Stored key range cells nodes) (new : newleaf ∉ nodes)
    (roomy : Roomy range 0 key.bits (newleaf :: nodes)) (inside : Inside range 0 key.bits newleaf) :
    ∃ after, insertRoot key range cells newleaf = .ok after ∧
    Stored key range after (newleaf :: nodes) := by
  obtain ⟨shape, rooted, members⟩ := stored
  have newShape : newleaf ∉ shape.nodes := fun mem => new (members.mem_iff.mp mem)
  obtain ⟨size, width, center, level⟩ := semi0_eq key
  rw [width] at rooted roomy inside
  obtain ⟨after, result, done, updated, _⟩ :=
    accepts size 0 (width ▸ block_root key) cells .head shape newleaf rooted trivial newShape
      (outside_head _) inside
      (roomy.mono fun node mem => ((members.cons newleaf).mem_iff).mp mem) (callDepth key)
      (le_trans (Nat.le_add_right _ _) (insertCalls_le_callDepth (le_of_eq width.symm)))
  rw [← center, ← level] at done
  exact ⟨after, done, result, width ▸ updated.rooted, updated.members.trans (members.cons newleaf)⟩

/-- Both insertions add a new node whose range is apart from all stored ranges. -/
lemma Stored.insert {newleaf : Nat} (stored : Stored key range cells nodes) (new : newleaf ∉ nodes)
    (separated : Separated range (newleaf :: nodes))
    (order : (range newleaf).aVmin ≤ (range newleaf).aVmax)
    (fits : (range newleaf).aVmax < 2 ^ key.bits) :
    ∃ after, ATree.insert key range cells newleaf = some after ∧
      tryinsert key range cells newleaf = some (after, true) ∧
      Stored key range after (newleaf :: nodes) := by
  obtain ⟨size, width, _⟩ := semi0_eq key
  have roomy : Roomy range 0 key.bits (newleaf :: nodes) :=
    width ▸ separated.roomy (width ▸ block_root key)
  obtain ⟨after, accepted, afterStored⟩ :=
    stored.accept new roomy ⟨Nat.zero_le _, order, by rwa [Nat.zero_add]⟩
  have done : ATree.insert key range cells newleaf = some after := insertAt_of_checked accepted
  refine ⟨after, done, ?_, afterStored⟩
  obtain ⟨shape, rooted, members⟩ := stored
  unfold ATree.insert at done
  unfold tryinsert
  rw [tryinsertAt_eq rooted.holds, done]
  · rfl
  · intro node mem
    have listed := members.mem_iff.mp mem
    exact separated newleaf (by simp) node (by simp [listed]) fun equal => new (equal ▸ listed)

/-- A lookup finds exactly the stored node that covers the key. -/
lemma Stored.locate (stored : Stored key range cells nodes) (separated : Separated range nodes)
    (wanted : Nat) :
    ∃ found, ATree.locate key range cells wanted = some found ∧
      ∀ node, found = some node ↔ node ∈ nodes ∧ Covers range wanted node := by
  obtain ⟨shape, rooted, members⟩ := stored
  obtain ⟨found, located, exactly⟩ := locateAt_spec (block_root key) rooted
    (separated.mono fun _ => members.mem_iff.mp) wanted (atCenter_root key) (bits_lt_callDepth key)
  refine ⟨found, located, ?_⟩
  intro node
  rw [exactly, members.mem_iff]

/-- At most one node stands below the node of the cell. -/
def AtMostOneBelow (cells : Cells) (proot : Slot) : Prop :=
  match cells proot with
  | none => True
  | some root =>
    match cells (.low root), cells (.high root) with
    | none, none => True
    | some child, none => cells (.low child) = none ∧ cells (.high child) = none
    | none, some child => cells (.low child) = none ∧ cells (.high child) = none
    | some _, some _ => False

instance (cells : Cells) (proot : Slot) : Decidable (AtMostOneBelow cells proot) := by
  unfold AtMostOneBelow
  split
  · infer_instance
  · split <;> infer_instance

/-- The wrapper `pop` is right at the root cell, and where it has no order to decide. -/
def PopSafe (cells : Cells) (proot : Slot) : Prop := proot = .head ∨ AtMostOneBelow cells proot

instance (cells : Cells) (proot : Slot) : Decidable (PopSafe cells proot) :=
  inferInstanceAs (Decidable (_ ∨ _))

/-- A single node returns to a cleared cell, whatever centre the caller names. -/
lemma privReinsertall_single (cleared : cells proot = none) (noLow : cells (.low child) = none)
    (noHigh : cells (.high child) = none) (semi level : Nat) (enough : 2 ≤ fuel) :
    privReinsertall key range fuel proot child semi level cells = some (attach cells proot child) := by
  obtain ⟨turns, rfl⟩ : ∃ turns, fuel = turns + 2 := ⟨fuel - 2, by omega⟩
  rw [privReinsertall_succ, noLow, reinsertChild, Option.bind_some, noHigh, reinsertChild,
    Option.bind_some, insertAt, cleared]
  rfl

/-- A pointer without children leads to a single node. -/
lemma holds_single (holds : Holds cells (some child) shape) (noLow : cells (.low child) = none)
    (noHigh : cells (.high child) = none) : shape = .node .leaf child .leaf := by
  obtain ⟨low, high, rfl⟩ := holds_some holds
  obtain ⟨_, lower, upper⟩ := holds
  rw [noLow] at lower
  rw [noHigh] at upper
  rw [holds_none lower, holds_none upper]

/-- With at most one node below, a pop keeps the other nodes in place for every centre. -/
lemma popAt_single {root : Nat} {low high : Shape}
    (rooted : Rooted range cells proot base (size + 1) (.node low root high))
    (few : AtMostOneBelow cells proot) (semi level : Nat) (enough : 2 ≤ fuel) :
    ∃ after result, popAt key range fuel proot semi level cells = some (after, root) ∧
      Updated range cells after proot base (size + 1) (high.nodes ++ low.nodes) result := by
  have insides := rooted.placed.inside
  obtain ⟨here, lower, upper⟩ := rooted.holds
  obtain ⟨notLow, notHigh⟩ := rooted.outside root (by simp)
  unfold AtMostOneBelow at few
  rw [here] at few
  dsimp only at few
  rw [popAt, here]
  dsimp only
  rw [update_of_ne notLow.symm]
  cases lowCell : cells (.low root) with
  | none =>
    rw [lowCell] at lower few
    obtain rfl := holds_none lower
    rw [reinsertChild, Option.bind_some, update_of_ne notHigh.symm]
    cases highCell : cells (.high root) with
    | none =>
      rw [highCell] at upper
      obtain rfl := holds_none upper
      exact ⟨_, .leaf, rfl, detach_rooted cells proot base (size + 1), List.Perm.refl _,
        Frame.update _ _ _ _⟩
    | some child =>
      rw [highCell] at upper few
      obtain ⟨noLow, noHigh⟩ := few
      obtain rfl := holds_single upper noLow noHigh
      obtain ⟨childLow, childHigh⟩ := rooted.outside child (by simp)
      have attached := attach_updated (update cells proot none)
        (rooted.outside.mono fun node mem => by simp [mem]) (insides child (by simp))
      refine ⟨_, _, ?_, attached.rooted, attached.members,
        (Frame.update cells proot none _).trans attached.frame⟩
      rw [reinsertChild, privReinsertall_single (by simp) (by rwa [update_of_ne childLow.symm])
        (by rwa [update_of_ne childHigh.symm]) semi level enough]
      rfl
  | some child =>
    rw [lowCell] at lower few
    cases highCell : cells (.high root) with
    | some other => rw [highCell] at few; exact absurd few id
    | none =>
      rw [highCell] at upper few
      obtain rfl := holds_none upper
      obtain ⟨noLow, noHigh⟩ := few
      obtain rfl := holds_single lower noLow noHigh
      obtain ⟨childLow, childHigh⟩ := rooted.outside child (by simp)
      have differs : root ≠ child := fun same => by
        have := rooted.nodup
        simp [same] at this
      have attached := attach_updated (update cells proot none)
        (rooted.outside.mono fun node mem => by simp at mem; simp [mem]) (insides child (by simp))
      refine ⟨_, _, ?_, attached.rooted, attached.members,
        (Frame.update cells proot none _).trans attached.frame⟩
      rw [reinsertChild, privReinsertall_single (by simp) (by rwa [update_of_ne childLow.symm])
        (by rwa [update_of_ne childHigh.symm]) semi level enough, Option.bind_some]
      have cleared : attach (update cells proot none) proot child (.high root) = none := by
        simp [attach, clearLinks, notHigh.symm, differs, highCell]
      rw [cleared]
      rfl

/-- A position lookup leads to the node of the key, which both pops take out. -/
lemma Stored.plocate (stored : Stored key range cells nodes) (separated : Separated range nodes)
    (wanted : Nat) :
    (ATree.plocate key range cells wanted = some none ∧ ∀ node ∈ nodes, ¬ Covers range wanted node) ∨
      ∃ position root others, ATree.plocate key range cells wanted = some (some position) ∧
        cells position.proot = some root ∧ nodes.Perm (root :: others) ∧ Covers range wanted root ∧
        (∃ after, popAt key range (callDepth key) position.proot position.semi position.level cells =
          some (after, root) ∧ Stored key range after others) ∧
        (PopSafe cells position.proot → ∃ after, pop key range cells position.proot =
          some (after, root) ∧ Stored key range after others) := by
  obtain ⟨shape, rooted, members⟩ := stored
  rcases plocateAt_spec (block_root key) rooted wanted (atCenter_root key) (bits_lt_callDepth key) with
    ⟨missed, free⟩ | ⟨slot, base, size, low, root, high, others, located, held, subtree⟩
  · exact .inl ⟨missed, fun node mem => free node (members.mem_iff.mpr mem)⟩
  right
  have apart : Separated range (Shape.node low root high).nodes := separated.mono fun node mem =>
    members.mem_iff.mp (subtree.members.mem_iff.mpr (mem_append_left _ mem))
  have keeps : ∀ after result, Updated range cells after slot base (size + 1)
    (high.nodes ++ low.nodes) result →
        Stored key range after (high.nodes ++ low.nodes ++ others) := by
    intro after result updated
    obtain ⟨whole, wholeUpdated⟩ := subtree.replace after _ result updated fun node mem => by
      rw [mem_append] at mem
      simp only [nodes_node, mem_append, mem_cons]
      tauto
    exact ⟨whole, wholeUpdated.rooted, wholeUpdated.members⟩
  obtain ⟨after, inner, done, updated⟩ := popAt_updated subtree.block subtree.rooted apart
    (insertCalls_le_callDepth subtree.block.size_le)
  refine ⟨_, root, high.nodes ++ low.nodes ++ others, located, subtree.rooted.holds.1, ?_, held,
    ⟨after, done, keeps after inner updated⟩, ?_⟩
  · have first := members.symm.trans subtree.members
    have second : ((low.nodes ++ root :: high.nodes) ++ others).Perm
        ((root :: (high.nodes ++ low.nodes)) ++ others) :=
      (perm_middle.trans (perm_append_comm.cons root)).append_right others
    exact first.trans second
  · rintro (atRoot | few)
    · rcases subtree.position with ⟨_, rfl, width⟩ | inner
      · obtain ⟨rootSize, same, center, level⟩ := semi0_eq key
        obtain rfl : size = rootSize := by omega
        refine ⟨after, ?_, keeps after inner updated⟩
        unfold pop
        rw [center, level]
        exact done
      · subst atRoot
        exact absurd (outside_head _) inner
    · obtain ⟨last, shapeLast, popped, lastUpdated⟩ :=
        popAt_single subtree.rooted few (semi0 key) (level0 key)
        (show 2 ≤ callDepth key by
          have := key.positive
          unfold callDepth
          omega)
      exact ⟨last, popped, keeps last shapeLast lastUpdated⟩

end KosKernel.Hybrid.ATree
