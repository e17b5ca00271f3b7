import KosKernel.Hybrid.ATree
import KosKernel.Library.Dyadic

namespace KosKernel.Hybrid.ATree
open LinkTree Nat
variable {key : KeyType} {range : Ranges}

/-- The range of a node lies in the block of `2 ^ size` keys at the base. -/
def Inside (range : Ranges) (base size node : Nat) : Prop :=
  base ≤ (range node).aVmin ∧ (range node).aVmin ≤ (range node).aVmax ∧
    (range node).aVmax < base + 2 ^ size

/-- One range ends below the other, and no block of two keys holds both. -/
def Below (range : Ranges) (lower upper : Nat) : Prop :=
  (range lower).aVmax < (range upper).aVmin ∧ (range lower).aVmin / 2 < (range upper).aVmax / 2

/-- All listed nodes have ranges that are apart from each other. -/
def Separated (range : Ranges) (nodes : List Nat) : Prop :=
  ∀ first ∈ nodes, ∀ second ∈ nodes, first ≠ second → Below range first second ∨ Below range second first

/-- Each node lies in its block, and the centre is strictly between the two subtrees. -/
def Placed (range : Ranges) : Shape → Nat → Nat → Prop
  | .leaf, _, _ => True
  | .node _ _ _, _, 0 => False
  | .node low root high, base, size + 1 =>
    Inside range base (size + 1) root ∧ (∀ upper ∈ high.nodes, base + 2 ^ size < (range upper).aVmin) ∧
      Placed range low base size ∧ Placed range high (base + 2 ^ size) size

/-- A block is one of the blocks that a walk from the root reaches. -/
def Block (key : KeyType) (base size : Nat) : Prop := 2 ^ size ∣ base ∧ base + 2 ^ size ≤ 2 ^ key.bits

lemma block_root (key : KeyType) : Block key 0 key.bits := ⟨dvd_zero _, by simp⟩

variable {base size : Nat}

lemma Block.low (block : Block key base (size + 1)) : Block key base size := by
  obtain ⟨aligned, fits⟩ := block
  exact ⟨Dvd.dvd.trans (dvd_mul_right _ _) aligned, by omega⟩

lemma Block.high (block : Block key base (size + 1)) : Block key (base + 2 ^ size) size := by
  obtain ⟨aligned, fits⟩ := block
  exact ⟨dvd_add (Dvd.dvd.trans (dvd_mul_right _ _) aligned) (dvd_refl _), by omega⟩

lemma Block.size_le (block : Block key base size) : size ≤ key.bits :=
  (Nat.pow_le_pow_iff_right (by decide : 1 < 2)).mp (le_trans (Nat.le_add_left _ _) block.2)

lemma bit_of_lt {level : Nat} (small : level < key.bits) : bit key level = 2 ^ level := if_pos small

lemma nextLevel_succ (block : Block key base (size + 2)) : nextLevel (size + 1) = size := by
  have := block.size_le
  have := key.counted
  unfold nextLevel
  rw [show size + 1 + (2 ^ 32 - 1) = size + 2 ^ 32 by omega, add_mod_right, mod_eq_of_lt (by omega)]

section
variable (block : Block key base (size + 1))
include block

lemma unset_center : unset key (base + 2 ^ size) size = base := by
  have small := block.size_le
  obtain ⟨aligned, fits⟩ := block
  unfold unset
  rw [bit_of_lt small]
  apply Dyadic.and_not_pow aligned
  omega

/-- The lower bound of a position is the start of its block. -/
lemma mapMin_center : mapMin key (base + 2 ^ size) size = base := unset_center block

/-- The upper bound of a position is the end of its block. -/
lemma mapMax_center : mapMax key (base + 2 ^ size) size = base + 2 ^ (size + 1) - 1 := by
  have small := block.size_le
  have positive := Nat.two_pow_pos size
  have bound : 2 ^ size < 2 ^ key.bits := Nat.pow_lt_pow_right (by decide) small
  unfold mapMax
  rw [bit_of_lt small, show 2 ^ size + (2 ^ key.bits - 1) = (2 ^ size - 1) + 2 ^ key.bits by omega,
    add_mod_right, mod_eq_of_lt (by omega), Dyadic.or_low block.1]
  omega

end

/-- A walk to the lower child reaches the centre of the lower half. -/
lemma walkMin_center (block : Block key base (size + 2)) :
    walkMin key (base + 2 ^ (size + 1)) (size + 1) = base + 2 ^ size := by
  have small := block.size_le
  unfold walkMin
  rw [unset_center block, nextLevel_succ block, bit_of_lt (by omega), Dyadic.or_pow block.low.1]

/-- A walk to the upper child reaches the centre of the upper half. -/
lemma walkMax_center (block : Block key base (size + 2)) :
    walkMax key (base + 2 ^ (size + 1)) (size + 1) = base + 2 ^ (size + 1) + 2 ^ size := by
  have small := block.size_le
  unfold walkMax
  rw [nextLevel_succ block, bit_of_lt (by omega), Dyadic.or_pow block.high.1]

lemma semi0_eq (key : KeyType) :
    ∃ size, key.bits = size + 1 ∧ semi0 key = 0 + 2 ^ size ∧ level0 key = size := by
  obtain ⟨size, width⟩ := Nat.exists_eq_add_of_le' key.positive
  refine ⟨size, width, ?_, ?_⟩
  · unfold semi0
    rw [width, pow_succ]
    have := Nat.two_pow_pos size
    omega
  · unfold level0
    omega

lemma placed_leaf (base size : Nat) : Placed range .leaf base size := by
  cases size <;> trivial

/-- A placed tree with a node has a block with a centre. -/
lemma Placed.exists_size {low high : Shape} {root : Nat}
    (placed : Placed range (.node low root high) base size) :
    ∃ rest, size = rest + 1 := by
  cases size with
  | zero => exact absurd placed id
  | succ rest => exact ⟨rest, rfl⟩

/-- Every node of a placed tree lies in the block of the tree. -/
lemma Placed.inside {shape : Shape} (placed : Placed range shape base size) :
    ∀ node ∈ shape.nodes, Inside range base size node := by
  induction shape generalizing base size with
  | leaf => simp
  | node low root high lowInside highInside =>
    obtain ⟨rest, rfl⟩ := placed.exists_size
    obtain ⟨here, _, lower, upper⟩ := placed
    intro node mem
    rw [nodes_node, List.mem_append, List.mem_cons] at mem
    rcases mem with mem | rfl | mem
    · obtain ⟨first, order, last⟩ := lowInside lower node mem
      exact ⟨first, order, lt_of_lt_of_le last (by omega)⟩
    · exact here
    · obtain ⟨first, order, last⟩ := highInside upper node mem
      exact ⟨by omega, order, lt_of_lt_of_le last (by omega)⟩

/-- The size of its block bounds the depth of a placed tree. -/
lemma Placed.depth_le {shape : Shape} (placed : Placed range shape base size) : shape.depth ≤ size := by
  induction shape generalizing base size with
  | leaf => exact zero_le _
  | node low root high lowDepth highDepth =>
    obtain ⟨rest, rfl⟩ := placed.exists_size
    obtain ⟨_, _, lower, upper⟩ := placed
    exact succ_le_succ (max_le (lowDepth lower) (highDepth upper))

/-- A node below the centre fits the lower half. -/
lemma Inside.low {node : Nat} (inside : Inside range base (size + 1) node)
    (less : (range node).aVmax < base + 2 ^ size) : Inside range base size node :=
  ⟨inside.1, inside.2.1, less⟩

/-- A node above the centre fits the upper half. -/
lemma Inside.high {node : Nat} (inside : Inside range base (size + 1) node)
    (more : base + 2 ^ size < (range node).aVmin) : Inside range (base + 2 ^ size) size node := by
  obtain ⟨_, order, last⟩ := inside
  exact ⟨by omega, order, by omega⟩

lemma Separated.mono {few many : List Nat} (separated : Separated range many)
    (subset : ∀ node ∈ few, node ∈ many) : Separated range few :=
  fun first firstMem second secondMem => separated first (subset first firstMem) second
    (subset second secondMem)

end KosKernel.Hybrid.ATree
