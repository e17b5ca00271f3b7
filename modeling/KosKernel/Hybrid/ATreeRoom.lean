import KosKernel.Hybrid.ATreePlaced

namespace KosKernel.Hybrid.ATree
open LinkTree Finset
variable {key : KeyType} {range : Ranges}

/-- All listed nodes have disjoint ranges. -/
def Apart (range : Ranges) (nodes : List Nat) : Prop :=
  ∀ first ∈ nodes, ∀ second ∈ nodes, first ≠ second →
    (range first).aVmax < (range second).aVmin ∨ (range second).aVmax < (range first).aVmin

instance (nodes : List Nat) : Decidable (Apart range nodes) := by
  unfold Apart
  infer_instance

instance (base size node : Nat) : Decidable (Inside range base size node) := by
  unfold Inside
  infer_instance

/-- The nodes of a block other than its two lowest ones. -/
def others (range : Ranges) (base size lowest next : Nat) (nodes : List Nat) : Finset Nat :=
  nodes.toFinset.filter fun node => Inside range base size node ∧ node ≠ lowest ∧ node ≠ next

/-- Both keys of the lowest position have nodes, and enough others can stand above it. -/
def Crowded (range : Ranges) (base size : Nat) (nodes : List Nat) : Prop :=
  ∃ lowest ∈ nodes, ∃ next ∈ nodes, range lowest = ⟨base, base⟩ ∧ range next = ⟨base + 1, base + 1⟩ ∧
    ∀ above < size - 1, above < (others range base (above + 2) lowest next nodes).card

instance (base size : Nat) (nodes : List Nat) : Decidable (Crowded range base size nodes) := by
  unfold Crowded
  infer_instance

/-- The nodes are disjoint and do not crowd the block. -/
structure Roomy (range : Ranges) (base size : Nat) (nodes : List Nat) : Prop where
  apart : Apart range nodes
  uncrowded : ¬ Crowded range base size nodes

variable {few many nodes : List Nat} {base size : Nat}

lemma Apart.mono (apart : Apart range many) (subset : ∀ node ∈ few, node ∈ many) : Apart range few :=
  fun first firstMem second secondMem => apart first (subset first firstMem) second
    (subset second secondMem)

/-- Disjoint nodes cannot both cover a key. -/
lemma Apart.eq_of_covers (apart : Apart range nodes) {first second wanted : Nat}
    (firstMem : first ∈ nodes)
    (secondMem : second ∈ nodes) (firstCovers : (range first).aVmin ≤ wanted ∧
      wanted ≤ (range first).aVmax)
    (secondCovers : (range second).aVmin ≤ wanted ∧ wanted ≤ (range second).aVmax) : first = second := by
  by_contra differs
  rcases apart first firstMem second secondMem differs with less | less <;> omega

lemma Separated.apart (separated : Separated range nodes) : Apart range nodes := by
  intro first firstMem second secondMem differs
  exact (separated first firstMem second secondMem differs).imp And.left And.left

lemma others_mono {lowest next : Nat} (subset : ∀ node ∈ few, node ∈ many) :
    others range base size lowest next few ⊆ others range base size lowest next many := by
  intro node mem
  unfold others at mem ⊢
  rw [mem_filter, List.mem_toFinset] at mem ⊢
  exact ⟨subset node mem.1, mem.2⟩

lemma Crowded.mono (crowded : Crowded range base size few) (subset : ∀ node ∈ few, node ∈ many) :
    Crowded range base size many := by
  obtain ⟨lowest, lowestMem, next, nextMem, lowestRange, nextRange, enough⟩ := crowded
  refine ⟨lowest, subset lowest lowestMem, next, subset next nextMem, lowestRange, nextRange, ?_⟩
  intro above small
  exact lt_of_lt_of_le (enough above small) (card_le_card (others_mono subset))

lemma Roomy.mono (roomy : Roomy range base size many) (subset : ∀ node ∈ few, node ∈ many) :
    Roomy range base size few :=
  ⟨roomy.apart.mono subset, fun crowded => roomy.uncrowded (crowded.mono subset)⟩

/-- A node that stands above a crowded lower half makes the whole block crowded. -/
lemma Crowded.grow {root : Nat} (crowded : Crowded range base size few)
    (subset : ∀ node ∈ few, node ∈ many)
    (mem : root ∈ many) (new : root ∉ few) (inside : Inside range base (size + 1) root) :
    Crowded range base (size + 1) many := by
  obtain ⟨lowest, lowestMem, next, nextMem, lowestRange, nextRange, enough⟩ := crowded
  refine ⟨lowest, subset lowest lowestMem, next, subset next nextMem, lowestRange, nextRange, ?_⟩
  intro above small
  by_cases inner : above < size - 1
  · exact lt_of_lt_of_le (enough above inner) (card_le_card (others_mono subset))
  obtain rfl : size = above + 1 := by omega
  have rootOther : root ∈ others range base (above + 2) lowest next many := by
    unfold others
    rw [mem_filter, List.mem_toFinset]
    exact ⟨mem, inside, fun same => new (same ▸ lowestMem), fun same => new (same ▸ nextMem)⟩
  cases above with
  | zero => exact card_pos.mpr ⟨root, rootOther⟩
  | succ below =>
    have fewer := enough below (by omega)
    have rootNew : root ∉ others range base (below + 2) lowest next few := by
      unfold others
      rw [mem_filter, List.mem_toFinset]
      exact fun found => new found.1
    have added : Insert.insert root (others range base (below + 2) lowest next few) ⊆
        others range base (below + 1 + 2) lowest next many := by
      apply insert_subset rootOther
      intro node found
      unfold others at found ⊢
      rw [mem_filter, List.mem_toFinset] at found ⊢
      obtain ⟨nodeMem, ⟨first, order, last⟩, different⟩ := found
      have wider : 2 ^ (below + 2) ≤ 2 ^ (below + 1 + 2) := Nat.pow_le_pow_right (by decide) (by omega)
      exact ⟨subset node nodeMem, ⟨first, order, by omega⟩, different⟩
    have counted := card_le_card added
    rw [card_insert_of_notMem rootNew] at counted
    omega

/-- The lower half has room for the nodes that stand below a root. -/
lemma Roomy.low {root : Nat} (roomy : Roomy range base (size + 1) many)
    (subset : ∀ node ∈ few, node ∈ many)
    (mem : root ∈ many) (new : root ∉ few) (inside : Inside range base (size + 1) root) :
      Roomy range base size few :=
  ⟨roomy.apart.mono subset, fun crowded => roomy.uncrowded (crowded.grow subset mem new inside)⟩

/-- A block always has room for nodes that leave its first key free. -/
lemma roomy_above (apart : Apart range nodes) (above : ∀ node ∈ nodes, base < (range node).aVmin) :
    Roomy range base size nodes := by
  refine ⟨apart, ?_⟩
  rintro ⟨lowest, mem, _, _, lowestRange, _⟩
  have free := above lowest mem
  rw [lowestRange] at free
  exact lt_irrefl _ free

/-- Separated nodes have room in every block. -/
lemma Separated.roomy (separated : Separated range nodes) (block : Block key base (size + 1)) :
    Roomy range base (size + 1) nodes := by
  refine ⟨separated.apart, ?_⟩
  rintro ⟨lowest, lowestMem, next, nextMem, lowestRange, nextRange, _⟩
  have differs : lowest ≠ next := by
    rintro rfl
    rw [lowestRange, KeyRange.mk.injEq] at nextRange
    omega
  have even : 2 ∣ base := Dvd.dvd.trans (dvd_pow_self 2 (Nat.succ_ne_zero size)) block.1
  have below := separated lowest lowestMem next nextMem differs
  unfold Below at below
  rw [lowestRange, nextRange] at below
  dsimp only at below
  omega

/-- Two nodes that have room in one block need a block with more than two keys. -/
lemma Roomy.size_of_two {first second : Nat} (roomy : Roomy range base (size + 1) nodes)
    (firstMem : first ∈ nodes)
    (secondMem : second ∈ nodes) (differs : first ≠ second)
    (firstInside : Inside range base (size + 1) first)
    (secondInside : Inside range base (size + 1) second) : ∃ rest, size = rest + 1 := by
  cases size with
  | succ rest => exact ⟨rest, rfl⟩
  | zero =>
    have single {node other : Nat} (inside : Inside range base (0 + 1) node)
        (otherInside : Inside range base (0 + 1) other) (less : (range node).aVmax <
          (range other).aVmin) :
        range node = ⟨base, base⟩ ∧ range other = ⟨base + 1, base + 1⟩ := by
      obtain ⟨_, _, _⟩ := inside
      obtain ⟨_, _, _⟩ := otherInside
      cases lower : range node
      cases upper : range other
      simp only [lower, upper, KeyRange.mk.injEq] at *
      omega
    exfalso
    apply roomy.uncrowded
    rcases roomy.apart first firstMem second secondMem differs with less | less
    · obtain ⟨lower, upper⟩ := single firstInside secondInside less
      exact ⟨first, firstMem, second, secondMem, lower, upper, by simp⟩
    · obtain ⟨lower, upper⟩ := single secondInside firstInside less
      exact ⟨second, secondMem, first, firstMem, lower, upper, by simp⟩

end KosKernel.Hybrid.ATree
