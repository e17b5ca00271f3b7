import KosKernel.Hybrid.ATreeUpdate

namespace KosKernel.Hybrid.ATree
open LinkTree List
variable {key : KeyType} {range : Ranges}

/-- The range of a node contains the key. -/
def Covers (range : Ranges) (wanted node : Nat) : Prop :=
  (range node).aVmin ≤ wanted ∧ wanted ≤ (range node).aVmax

instance (range : Ranges) (wanted node : Nat) : Decidable (Covers range wanted node) :=
  inferInstanceAs (Decidable (_ ∧ _))

/-- A cell of a tree leads to a subtree, and the listed other nodes are the rest of the tree. -/
structure Subtree (key : KeyType) (range : Ranges) (cells : Cells) (proot : Slot)
    (base size : Nat) (shape : Shape)
    (slot : Slot) (innerBase innerSize : Nat) (inner : Shape) (others : List Nat) : Prop where
  block : Block key innerBase (innerSize + 1)
  rooted : Rooted range cells slot innerBase (innerSize + 1) inner
  members : shape.nodes.Perm (inner.nodes ++ others)
  position : (slot = proot ∧ innerBase = base ∧ innerSize + 1 = size) ∨ ¬ slot.Outside shape.nodes
  replace : ∀ after nodes result, Updated range cells after slot innerBase (innerSize + 1) nodes result →
    (∀ node ∈ nodes, node ∈ inner.nodes) →
      ∃ whole, Updated range cells after proot base size (nodes ++ others) whole

/-- A walk to the lower child keeps the position of the block. -/
def AtCenter (base size semi level : Nat) : Prop :=
  ∀ rest, size = rest + 1 → semi = base + 2 ^ rest ∧ level = rest

variable {base size : Nat} {cells : Cells} {proot : Slot} {shape : Shape}

section
variable (block : Block key base (size + 1))
include block

lemma AtCenter.low : AtCenter base size (walkMin key (base + 2 ^ size) size) (nextLevel size) := by
  rintro rest rfl
  exact ⟨walkMin_center block, nextLevel_succ block⟩

lemma AtCenter.high : AtCenter (base + 2 ^ size) size (walkMax key (base + 2 ^ size) size)
    (nextLevel size) := by
  rintro rest rfl
  exact ⟨walkMax_center block, nextLevel_succ block⟩

/-- The whole tree is a subtree of itself. -/
lemma Rooted.subtree (rooted : Rooted range cells proot base (size + 1) shape) :
    Subtree key range cells proot base (size + 1) shape proot base size shape [] where
  block := block
  rooted := rooted
  members := by simp
  position := .inl ⟨rfl, rfl, rfl⟩
  replace := by
    intro after nodes result updated _
    rw [append_nil]
    exact ⟨result, updated⟩

end

variable {slot : Slot} {root innerBase innerSize semi level fuel : Nat} {low high inner : Shape}
  {others : List Nat}

/-- A subtree of the lower child is a subtree of the tree. -/
lemma Subtree.of_low (rooted : Rooted range cells proot base (size + 1) (.node low root high))
    (subtree : Subtree key range cells (.low root) base size low slot innerBase innerSize inner others) :
    Subtree key range cells proot base (size + 1) (.node low root high) slot innerBase innerSize inner
      (others ++ root :: high.nodes) where
  block := subtree.block
  rooted := subtree.rooted
  members := by
    rw [← append_assoc]
    exact subtree.members.append_right _
  position := by
    right
    intro outside
    rcases subtree.position with ⟨rfl, _, _⟩ | inner
    · exact (outside root (by simp)).1 rfl
    · exact inner (outside.mono fun node mem => by simp [mem])
  replace := by
    intro after nodes result updated subset
    obtain ⟨whole, lowUpdated⟩ := subtree.replace after nodes result updated subset
    have within : ∀ node ∈ nodes ++ others, node ∈ low.nodes := by
      intro node mem
      rw [subtree.members.mem_iff]
      rw [mem_append] at mem ⊢
      exact mem.imp_left (subset node)
    refine ⟨.node whole root high, ?_⟩
    rw [← append_assoc]
    exact rooted.replace_low lowUpdated (fun node mem => rooted.low_fresh node (within node mem))
      (rooted.low_away.mono within)

/-- A subtree of the upper child is a subtree of the tree. -/
lemma Subtree.of_high (rooted : Rooted range cells proot base (size + 1) (.node low root high))
    (subtree : Subtree key range cells (.high root) (base + 2 ^ size) size high slot innerBase innerSize
      inner others) :
    Subtree key range cells proot base (size + 1) (.node low root high) slot innerBase innerSize inner
      (others ++ root :: low.nodes) where
  block := subtree.block
  rooted := subtree.rooted
  members := by
    rw [← append_assoc]
    have turned : (low.nodes ++ root :: high.nodes).Perm (high.nodes ++ root :: low.nodes) :=
      perm_middle.trans ((perm_append_comm.cons root).trans perm_middle.symm)
    exact turned.trans (subtree.members.append_right _)
  position := by
    right
    intro outside
    rcases subtree.position with ⟨rfl, _, _⟩ | inner
    · exact (outside root (by simp)).2 rfl
    · exact inner (outside.mono fun node mem => by simp [mem])
  replace := by
    intro after nodes result updated subset
    obtain ⟨whole, highUpdated⟩ := subtree.replace after nodes result updated subset
    have within : ∀ node ∈ nodes ++ others, node ∈ high.nodes := by
      intro node mem
      rw [subtree.members.mem_iff]
      rw [mem_append] at mem ⊢
      exact mem.imp_left (subset node)
    refine ⟨.node low root whole, ?_⟩
    rw [← append_assoc]
    apply rooted.replace_high highUpdated
    · exact fun node mem => rooted.placed.2.1 node (within node mem)
    · exact fun node mem => rooted.high_fresh node (within node mem)
    · exact rooted.high_away.mono within

/-- The lookup of a position finds the node that covers the key, if there is one. -/
lemma plocateAt_spec (block : Block key base size)
    (rooted : Rooted range cells proot base size shape) (wanted : Nat)
    (center : AtCenter base size semi level) (enough : size < fuel) :
    (plocateAt key range cells fuel proot wanted semi level = some none ∧ ∀ node ∈ shape.nodes,
      ¬ Covers range wanted node) ∨
      ∃ slot innerBase innerSize low root high others,
        plocateAt key range cells fuel proot wanted semi level =
            some (some ⟨slot, innerBase + 2 ^ innerSize, innerSize⟩) ∧ Covers range wanted root ∧
          Subtree key range cells proot base size shape slot innerBase innerSize
            (.node low root high) others := by
  induction shape generalizing proot base size semi level fuel with
  | leaf =>
    left
    obtain _ | turns := fuel
    · omega
    rw [plocateAt, show cells proot = none from rooted.holds]
    exact ⟨rfl, by simp⟩
  | node low root high lowFinds highFinds =>
    obtain ⟨rest, rfl⟩ := rooted.placed.exists_size
    obtain ⟨rfl, rfl⟩ := center rest rfl
    obtain _ | turns := fuel
    · omega
    have above : ¬ key.bits ≤ level := by
      have := block.size_le
      omega
    rw [plocateAt, rooted.holds.1]
    simp only [if_neg above]
    by_cases covers : Covers range wanted root
    · right
      refine ⟨proot, base, level, low, root, high, [], ?_, covers, rooted.subtree block⟩
      simp [if_pos (show (range root).aVmin ≤ wanted ∧ wanted ≤ (range root).aVmax from covers)]
    simp only [if_neg (show ¬ ((range root).aVmin ≤ wanted ∧ wanted ≤ (range root).aVmax) from covers)]
    by_cases less : wanted < base + 2 ^ level
    · simp only [if_pos less]
      rcases lowFinds block.low rooted.low (AtCenter.low block) (by omega : level < turns) with
        ⟨missed, free⟩ | ⟨slot, innerBase, innerSize, left, found, right, others, located, held, subtree⟩
      · left
        refine ⟨missed, ?_⟩
        intro node mem
        rw [nodes_node, mem_append, mem_cons] at mem
        rcases mem with mem | rfl | mem
        · exact free node mem
        · exact covers
        · have above := rooted.placed.2.1 node mem
          unfold Covers
          omega
      · right
        exact ⟨slot, innerBase, innerSize, left, found, right, _, located, held,
          Subtree.of_low rooted subtree⟩
    · simp only [if_neg less]
      rcases highFinds block.high rooted.high (AtCenter.high block) (by omega : level < turns) with
        ⟨missed, free⟩ | ⟨slot, innerBase, innerSize, left, found, right, others, located, held, subtree⟩
      · left
        refine ⟨missed, ?_⟩
        intro node mem
        rw [nodes_node, mem_append, mem_cons] at mem
        rcases mem with mem | rfl | mem
        · have below := (rooted.low.placed.inside node mem).2.2
          unfold Covers
          omega
        · exact covers
        · exact free node mem
      · right
        exact ⟨slot, innerBase, innerSize, left, found, right, _, located, held,
          Subtree.of_high rooted subtree⟩

/-- A lookup returns the pointer in the cell that the lookup of the position returns. -/
lemma locateAt_eq (cells : Cells) (proot : Slot) (wanted semi level fuel : Nat) :
    locateAt key range cells fuel (cells proot) wanted semi level =
      (plocateAt key range cells fuel proot wanted semi level).map fun found =>
        found.bind fun position => cells position.proot := by
  induction fuel generalizing proot semi level with
  | zero => rfl
  | succ turns ih =>
    rw [plocateAt]
    cases here : cells proot with
    | none => rfl
    | some root =>
      rw [locateAt]
      dsimp only
      by_cases below : key.bits ≤ level
      · rw [if_pos below, if_pos below]
        rfl
      rw [if_neg below, if_neg below]
      by_cases covers : (range root).aVmin ≤ wanted ∧ wanted ≤ (range root).aVmax
      · rw [if_pos covers, if_pos covers]
        exact congrArg some here.symm
      rw [if_neg covers, if_neg covers]
      by_cases less : wanted < semi
      · rw [if_pos less, if_pos less]
        exact ih (.low root) _ _
      · rw [if_neg less, if_neg less]
        exact ih (.high root) _ _

/-- A lookup finds exactly the node of a separated tree that covers the key. -/
lemma locateAt_spec (block : Block key base size) (rooted : Rooted range cells proot base size shape)
    (separated : Separated range shape.nodes) (wanted : Nat) (center : AtCenter base size semi level)
    (enough : size < fuel) :
    ∃ found, locateAt key range cells fuel (cells proot) wanted semi level = some found ∧
      ∀ node, found = some node ↔ node ∈ shape.nodes ∧ Covers range wanted node := by
  rw [locateAt_eq]
  rcases plocateAt_spec block rooted wanted center enough with
    ⟨missed, free⟩ | ⟨slot, innerBase, innerSize, low, root, high, others, located, held, subtree⟩
  · refine ⟨none, by rw [missed]; rfl, ?_⟩
    intro node
    simp only [reduceCtorEq, false_iff, not_and]
    exact free node
  · refine ⟨some root, ?_, ?_⟩
    · rw [located]
      exact congrArg some subtree.rooted.holds.1
    · have mem : root ∈ shape.nodes := subtree.members.mem_iff.mpr (by simp)
      intro node
      rw [Option.some.injEq]
      constructor
      · rintro rfl
        exact ⟨mem, held⟩
      · rintro ⟨found, covers⟩
        exact separated.apart.eq_of_covers mem found held covers

end KosKernel.Hybrid.ATree
