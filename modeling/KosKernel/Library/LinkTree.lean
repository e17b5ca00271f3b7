import Mathlib.Tactic

namespace LinkTree
open Function List

/-- A pointer cell is the root cell or one of the two child cells of a node. -/
inductive Slot where
  | head
  | low (node : Nat)
  | high (node : Nat)
  deriving DecidableEq

/-- The memory gives each cell its pointer. -/
abbrev Cells := Slot → Option Nat

/-- A shape is the tree that a pointer leads to. -/
inductive Shape where
  | leaf
  | node (low : Shape) (root : Nat) (high : Shape)

/-- The nodes of a shape from the lowest to the highest. -/
def Shape.nodes : Shape → List Nat
  | .leaf => []
  | .node low root high => low.nodes ++ root :: high.nodes

/-- The number of nodes on the longest path. -/
def Shape.depth : Shape → Nat
  | .leaf => 0
  | .node low _ high => max low.depth high.depth + 1

/-- A pointer leads to a shape when every child cell leads to the child shape. -/
def Holds (cells : Cells) : Option Nat → Shape → Prop
  | pointer, .leaf => pointer = none
  | pointer, .node low root high =>
    pointer = some root ∧ Holds cells (cells (.low root)) low ∧ Holds cells (cells (.high root)) high

/-- A cell belongs to none of the nodes. -/
def Slot.Outside (slot : Slot) (nodes : List Nat) : Prop :=
  ∀ node ∈ nodes, slot ≠ .low node ∧ slot ≠ .high node

/-- An operation changes at most one cell and the child cells of the listed nodes. -/
def Frame (cells after : Cells) (changed : Slot) (nodes : List Nat) : Prop :=
  ∀ slot, slot ≠ changed → slot.Outside nodes → after slot = cells slot

@[simp] lemma nodes_leaf : Shape.leaf.nodes = [] := rfl

@[simp] lemma nodes_node (low high : Shape) (root : Nat) :
    (Shape.node low root high).nodes = low.nodes ++ root :: high.nodes := rfl

variable {cells after : Cells} {pointer : Option Nat} {shape : Shape} {node : Nat}
  {nodes : List Nat} {changed : Slot}

lemma holds_leaf : Holds cells pointer .leaf ↔ pointer = none := Iff.rfl

/-- A null pointer leads to no node. -/
lemma holds_none (holds : Holds cells none shape) : shape = .leaf := by
  cases shape with
  | leaf => rfl
  | node low root high => exact absurd holds.1 (by simp)

lemma Holds.isSome (holds : Holds cells pointer shape) {node : Nat} (mem : node ∈ shape.nodes) :
    pointer.isSome := by
  cases pointer with
  | none => simp [holds_none holds] at mem
  | some root => rfl

/-- A pointer to a node leads to a shape with this root. -/
lemma holds_some {root : Nat} (holds : Holds cells (some root) shape) :
    ∃ low high, shape = .node low root high := by
  cases shape with
  | leaf => exact absurd holds (by simp [Holds])
  | node low other high =>
    obtain rfl : root = other := Option.some.inj holds.1
    exact ⟨low, high, rfl⟩

/-- A shape survives changes of cells that belong to other nodes. -/
lemma holds_congr (holds : Holds cells pointer shape)
    (same : ∀ node ∈ shape.nodes, after (.low node) = cells (.low node) ∧
      after (.high node) = cells (.high node)) :
    Holds after pointer shape := by
  induction shape generalizing pointer with
  | leaf => exact holds
  | node low root high lowKept highKept =>
    obtain ⟨here, lower, upper⟩ := holds
    obtain ⟨lowSame, highSame⟩ := same root (by simp)
    refine ⟨here, ?_, ?_⟩
    · rw [lowSame]
      exact lowKept lower fun node mem => same node (by simp [mem])
    · rw [highSame]
      exact highKept upper fun node mem => same node (by simp [mem])

lemma Slot.Outside.mono {slot : Slot} {few many : List Nat} (outside : slot.Outside many)
    (subset : ∀ node ∈ few, node ∈ many) : slot.Outside few :=
  fun node mem => outside node (subset node mem)

lemma outside_head (nodes : List Nat) : Slot.head.Outside nodes :=
  fun _ _ => ⟨by simp, by simp⟩

lemma outside_low (absent : node ∉ nodes) : (Slot.low node).Outside nodes := by
  intro other mem
  constructor
  · intro same
    rw [Slot.low.injEq] at same
    exact absent (same ▸ mem)
  · simp

lemma outside_high (absent : node ∉ nodes) : (Slot.high node).Outside nodes := by
  intro other mem
  constructor
  · simp
  · intro same
    rw [Slot.high.injEq] at same
    exact absent (same ▸ mem)

lemma Frame.refl (cells : Cells) (changed : Slot) (nodes : List Nat) :
    Frame cells cells changed nodes := fun _ _ _ => rfl

lemma Frame.trans {middle : Cells} (first : Frame cells middle changed nodes)
    (second : Frame middle after changed nodes) : Frame cells after changed nodes :=
  fun slot other outside => (second slot other outside).trans (first slot other outside)

lemma Frame.mono {few many : List Nat} (frame : Frame cells after changed few)
    (subset : ∀ node ∈ few, node ∈ many) :
    Frame cells after changed many :=
  fun slot other outside => frame slot other (outside.mono subset)

/-- A write to the one cell stays in its frame. -/
lemma Frame.update (cells : Cells) (changed : Slot) (pointer : Option Nat) (nodes : List Nat) :
    Frame cells (update cells changed pointer) changed nodes :=
  fun _ other _ => update_of_ne other _ _

/-- A shape away from the frame is still there. -/
lemma Frame.holds (frame : Frame cells after changed nodes) (holds : Holds cells pointer shape)
    (away : changed.Outside shape.nodes) (apart : ∀ node ∈ shape.nodes, node ∉ nodes) :
      Holds after pointer shape := by
  apply holds_congr holds
  intro node mem
  exact ⟨frame _ (away node mem).1.symm (outside_low (apart node mem)),
    frame _ (away node mem).2.symm (outside_high (apart node mem))⟩

/-- The cell is one of the given ones or a child cell of one of the nodes. -/
def Slot.Among (slot : Slot) (starts : List Slot) (nodes : List Nat) : Prop :=
  slot ∈ starts ∨ ∃ node ∈ nodes, slot = .low node ∨ slot = .high node

/-- Every pointer in the given cells and in the cells of the nodes leads to one of the nodes. -/
def Within (cells : Cells) (starts : List Slot) (nodes : List Nat) : Prop :=
  ∀ slot : Slot, slot.Among starts nodes → ∀ node, cells slot = some node → node ∈ nodes

/-- A tree points to its own nodes only. -/
lemma Holds.within {start : Slot} (holds : Holds cells (cells start) shape) :
    Within cells [start] shape.nodes := by
  induction shape generalizing start with
  | leaf =>
    rintro slot (atStart | ⟨node, mem, _⟩) target here
    · rw [mem_singleton.mp atStart, holds_leaf.mp holds] at here
      exact nomatch here
    · exact nomatch mem
  | node low root high lower upper =>
    obtain ⟨here, lowHolds, highHolds⟩ := holds
    rintro slot among target points
    rw [nodes_node, mem_append, mem_cons]
    have inLow (inside : slot.Among [.low root] low.nodes) : target ∈ low.nodes :=
      lower lowHolds slot inside target points
    have inHigh (inside : slot.Among [.high root] high.nodes) : target ∈ high.nodes :=
      upper highHolds slot inside target points
    rcases among with atStart | ⟨node, mem, child⟩
    · rw [mem_singleton.mp atStart] at points
      exact .inr (.inl (Option.some.inj (points.symm.trans here)))
    rw [nodes_node, mem_append, mem_cons] at mem
    rcases mem with mem | rfl | mem
    · exact .inl (inLow (.inr ⟨node, mem, child⟩))
    · rcases child with child | child
      · exact .inl (inLow (.inl (mem_singleton.mpr child)))
      · exact .inr (.inr (inHigh (.inl (mem_singleton.mpr child))))
    · exact .inr (.inr (inHigh (.inr ⟨node, mem, child⟩)))

/-- Each node of a tree is the target of one cell only. -/
lemma Holds.unique {start : Slot} (holds : Holds cells (cells start) shape) (nodup : shape.nodes.Nodup)
    {first second : Slot} (firstAmong : first.Among [start] shape.nodes)
    (secondAmong : second.Among [start] shape.nodes) {target : Nat}
    (firstPoints : cells first = some target)
    (secondPoints : cells second = some target) : first = second := by
  induction shape generalizing start with
  | leaf =>
    rcases firstAmong with atFirst | ⟨_, mem, _⟩
    · rcases secondAmong with atSecond | ⟨_, mem, _⟩
      · exact (mem_singleton.mp atFirst).trans (mem_singleton.mp atSecond).symm
      · exact nomatch mem
    · exact nomatch mem
  | node low root high lower upper =>
    obtain ⟨here, lowHolds, highHolds⟩ := holds
    obtain ⟨lowNodup, restNodup, apart⟩ := nodup_append.mp nodup
    obtain ⟨notHigh, highNodup⟩ := nodup_cons.mp restNodup
    have parts {slot : Slot} (among : slot.Among [start] (Shape.node low root high).nodes)
        (points : cells slot = some target) :
        (slot = start ∧ target = root) ∨ (slot.Among [.low root] low.nodes ∧ target ∈ low.nodes) ∨
          (slot.Among [.high root] high.nodes ∧ target ∈ high.nodes) := by
      have inLow (inside : slot.Among [.low root] low.nodes) :
          slot.Among [.low root] low.nodes ∧ target ∈ low.nodes :=
        ⟨inside, lowHolds.within slot inside target points⟩
      have inHigh (inside : slot.Among [.high root] high.nodes) :
          slot.Among [.high root] high.nodes ∧ target ∈ high.nodes :=
        ⟨inside, highHolds.within slot inside target points⟩
      rcases among with atStart | ⟨node, mem, child⟩
      · obtain rfl := mem_singleton.mp atStart
        exact .inl ⟨rfl, Option.some.inj (points.symm.trans here)⟩
      rw [nodes_node, mem_append, mem_cons] at mem
      rcases mem with mem | rfl | mem
      · exact .inr (.inl (inLow (.inr ⟨node, mem, child⟩)))
      · rcases child with child | child
        · exact .inr (.inl (inLow (.inl (mem_singleton.mpr child))))
        · exact .inr (.inr (inHigh (.inl (mem_singleton.mpr child))))
      · exact .inr (.inr (inHigh (.inr ⟨node, mem, child⟩)))
    rcases parts firstAmong firstPoints with ⟨rfl, rfl⟩ | ⟨firstLow, inLow⟩ | ⟨firstHigh, inHigh⟩
    · rcases parts secondAmong secondPoints with ⟨rfl, _⟩ | ⟨_, inLow⟩ | ⟨_, inHigh⟩
      · rfl
      · exact absurd rfl (apart _ inLow _ mem_cons_self)
      · exact absurd inHigh notHigh
    · rcases parts secondAmong secondPoints with ⟨rfl, rfl⟩ | ⟨secondLow, _⟩ | ⟨_, inHigh⟩
      · exact absurd rfl (apart _ inLow _ mem_cons_self)
      · exact lower lowHolds lowNodup firstLow secondLow
      · exact absurd rfl (apart _ inLow _ (mem_cons_of_mem _ inHigh))
    · rcases parts secondAmong secondPoints with ⟨rfl, rfl⟩ | ⟨_, inLow⟩ | ⟨secondHigh, _⟩
      · exact absurd inHigh notHigh
      · exact absurd rfl (apart _ inLow _ (mem_cons_of_mem _ inHigh))
      · exact upper highHolds highNodup firstHigh secondHigh

/-- No node of a tree is its own child. -/
lemma Holds.loopless (holds : Holds cells pointer shape) (nodup : shape.nodes.Nodup)
    (mem : node ∈ shape.nodes) :
    cells (.low node) ≠ some node ∧ cells (.high node) ≠ some node := by
  induction shape generalizing pointer with
  | leaf => exact nomatch mem
  | node low root high lower upper =>
    obtain ⟨_, lowHolds, highHolds⟩ := holds
    obtain ⟨lowNodup, restNodup, apart⟩ := nodup_append.mp nodup
    obtain ⟨notHigh, highNodup⟩ := nodup_cons.mp restNodup
    rw [nodes_node, mem_append, mem_cons] at mem
    rcases mem with mem | rfl | mem
    · exact lower lowHolds lowNodup mem
    · constructor
      · intro points
        exact apart _ (lowHolds.within _ (.inl (mem_singleton_self _)) _ points) _ mem_cons_self rfl
      · intro points
        exact notHigh (highHolds.within _ (.inl (mem_singleton_self _)) _ points)
    · exact upper highHolds highNodup mem

/-- A pointer to one of the nodes, or a null pointer, may be stored in any cell. -/
lemma Within.update {starts : List Slot} (within : Within cells starts nodes) (changed : Slot)
    (inside : ∀ node, pointer = some node → node ∈ nodes) :
    Within (update cells changed pointer) starts nodes := by
  intro slot among node points
  by_cases same : slot = changed
  · subst same
    rw [update_self] at points
    exact inside node points
  · rw [update_of_ne same] at points
    exact within slot among node points

end LinkTree
