/- The functions of the `BTREE_MK*` macros. A pointer to a pointer is the path from the root to the
slot it names. -/

import Mathlib.Tactic

namespace KosKernel.Hybrid
open List

/-- A tree pointer is null or leads to a node with its two child pointers. -/
inductive BTree (Elem : Type) where
  | null
  | node (btMin : BTree Elem) (elem : Elem) (btMax : BTree Elem)
  deriving DecidableEq

/-- A slot is reached through child pointers. -/
inductive BTreeChild where
  | btMin
  | btMax

abbrev BTreeSlot := List BTreeChild

namespace BTree
variable {Elem : Type} (val : Elem → Nat)

/-- This is the function of `BTREE_MKGET`. -/
def get : BTree Elem → Nat → Option Elem
  | .null, _ => none
  | .node btMin elem btMax, key =>
    if key < val elem then get btMin key else if val elem < key then get btMax key else some elem

/-- This is the function of `BTREE_MKHAS`. -/
def has : BTree Elem → Nat → Bool
  | .null, _ => false
  | .node btMin elem btMax, key =>
    if key < val elem then has btMin key else if val elem < key then has btMax key else true

/-- This is the function of `BTREE_MKPGET`. -/
def pget : BTree Elem → Nat → Option BTreeSlot
  | .null, _ => none
  | .node btMin elem btMax, key =>
    if key < val elem then (pget btMin key).map (.btMin :: ·)
    else if val elem < key then (pget btMax key).map (.btMax :: ·)
    else some []

/-- This is the function of `BTREE_MKINS`. The new node loses its former children. -/
def ins : BTree Elem → Elem → BTree Elem
  | .null, elem => .node .null elem .null
  | .node btMin root btMax, elem =>
    if val elem < val root then .node (ins btMin elem) root btMax else .node btMin root (ins btMax elem)

/-- The function of `BTREE_MKDEL`. With two children the upper one moves into the lower subtree. -/
def del : BTree Elem → BTree Elem
  | .null => .null
  | .node .null _ btMax => btMax
  | .node btMin _ .null => btMin
  | .node btMin _ (.node _ upper _) => ins val btMin upper

/-- A read through a slot follows the child pointers. -/
def deref : BTree Elem → BTreeSlot → BTree Elem
  | tree, [] => tree
  | .null, _ :: _ => .null
  | .node btMin _ _, .btMin :: slot => deref btMin slot
  | .node _ _ btMax, .btMax :: slot => deref btMax slot

/-- A write through a slot replaces the pointer it holds. -/
def assign : BTree Elem → BTreeSlot → BTree Elem → BTree Elem
  | _, [], tree => tree
  | .null, _ :: _, _ => .null
  | .node btMin elem btMax, .btMin :: slot, tree => .node (assign btMin slot tree) elem btMax
  | .node btMin elem btMax, .btMax :: slot, tree => .node btMin elem (assign btMax slot tree)

/-- A caller deletes through the slot that `pget` returned. -/
def delAt (tree : BTree Elem) (slot : BTreeSlot) : BTree Elem :=
  tree.assign slot (del val (tree.deref slot))

/-- The nodes in the order of their keys. -/
def inorder : BTree Elem → List Elem
  | .null => []
  | .node btMin elem btMax => inorder btMin ++ elem :: inorder btMax

/-- The keys increase strictly from the lowest to the highest node. -/
def Ordered (tree : BTree Elem) : Prop := tree.inorder.Pairwise fun low high => val low < val high

/-- The node that a deletion moves has no children of its own. -/
def KeepsUpper : BTree Elem → Prop
  | .node (.node _ _ _) _ (.node low _ high) => low = .null ∧ high = .null
  | _ => True

instance [DecidableEq Elem] (tree : BTree Elem) : Decidable tree.KeepsUpper := by
  unfold KeepsUpper
  split <;> infer_instance

variable {val} {elem : Elem} {tree : BTree Elem} {btMin btMax : BTree Elem} {key : Nat}
  {slot : BTreeSlot}

lemma ordered_node : (BTree.node btMin elem btMax).Ordered val ↔
    btMin.Ordered val ∧ btMax.Ordered val ∧ (∀ low ∈ btMin.inorder, val low < val elem) ∧
      ∀ high ∈ btMax.inorder, val elem < val high := by
  simp only [Ordered, inorder, pairwise_append, pairwise_cons, mem_cons, forall_eq_or_imp]
  constructor
  · rintro ⟨lower, ⟨above, upper⟩, across⟩
    exact ⟨lower, upper, fun low mem => (across low mem).1, above⟩
  · rintro ⟨lower, upper, below, above⟩
    exact ⟨lower, ⟨above, upper⟩, fun low mem =>
      ⟨below low mem, fun high found => lt_trans (below low mem) (above high found)⟩⟩

/-- A lookup in an ordered tree finds exactly the nodes of the tree. -/
lemma get_eq_some (ordered : tree.Ordered val) (key : Nat) (found : Elem) :
    tree.get val key = some found ↔ found ∈ tree.inorder ∧ val found = key := by
  induction tree with
  | null => simp [get, inorder]
  | node btMin elem btMax lower upper =>
    obtain ⟨orderedMin, orderedMax, below, above⟩ := ordered_node.mp ordered
    simp only [inorder, mem_append, mem_cons]
    rw [get]
    split
    · rename_i less
      rw [lower orderedMin]
      constructor
      · rintro ⟨mem, same⟩
        exact ⟨.inl mem, same⟩
      · rintro ⟨mem | rfl | mem, same⟩
        · exact ⟨mem, same⟩
        · omega
        · have := above found mem
          omega
    · rename_i notLess
      split
      · rename_i more
        rw [upper orderedMax]
        constructor
        · rintro ⟨mem, same⟩
          exact ⟨.inr (.inr mem), same⟩
        · rintro ⟨mem | rfl | mem, same⟩
          · have := below found mem
            omega
          · omega
          · exact ⟨mem, same⟩
      · rename_i notMore
        constructor
        · rintro ⟨rfl⟩
          exact ⟨.inr (.inl rfl), by omega⟩
        · rintro ⟨mem | rfl | mem, same⟩
          · have := below found mem
            omega
          · rfl
          · have := above found mem
            omega

/-- The membership test agrees with the lookup. -/
lemma has_eq_isSome (tree : BTree Elem) (key : Nat) : tree.has val key = (tree.get val key).isSome := by
  induction tree with
  | null => rfl
  | node btMin elem btMax lower upper =>
    rw [has, get]
    split
    · exact lower
    · split
      · exact upper
      · rfl

/-- The slot search succeeds on the same keys as the lookup. -/
lemma pget_isSome (tree : BTree Elem) (key : Nat) :
    (tree.pget val key).isSome = (tree.get val key).isSome := by
  induction tree with
  | null => rfl
  | node btMin elem btMax lower upper =>
    rw [pget, get]
    split
    · rw [Option.isSome_map, lower]
    · split
      · rw [Option.isSome_map, upper]
      · rfl

lemma mem_inorder_ins (tree : BTree Elem) (elem other : Elem) :
    other ∈ (tree.ins val elem).inorder ↔ other = elem ∨ other ∈ tree.inorder := by
  induction tree with
  | null => simp [ins, inorder]
  | node btMin root btMax lower upper =>
    rw [ins]
    split
    · simp only [inorder, mem_append, mem_cons, lower]
      tauto
    · simp only [inorder, mem_append, mem_cons, upper]
      tauto

/-- An insertion of a new key keeps the tree ordered. -/
lemma ordered_ins (ordered : tree.Ordered val) (elem : Elem)
    (fresh : ∀ other ∈ tree.inorder, val other ≠ val elem) :
    (tree.ins val elem).Ordered val := by
  induction tree with
  | null => simp [ins, Ordered, inorder]
  | node btMin root btMax lower upper =>
    obtain ⟨orderedMin, orderedMax, below, above⟩ := ordered_node.mp ordered
    simp only [inorder, mem_append, mem_cons] at fresh
    have differs := fresh root (by simp)
    rw [ins]
    split
    · rename_i less
      refine ordered_node.mpr ⟨lower orderedMin fun other mem => fresh other (.inl mem),
        orderedMax, ?_, above⟩
      intro low mem
      rcases (mem_inorder_ins btMin elem low).mp mem with rfl | old
      · exact less
      · exact below low old
    · rename_i notLess
      refine ordered_node.mpr ⟨orderedMin, upper orderedMax fun other mem =>
        fresh other (.inr (.inr mem)), below, ?_⟩
      intro high mem
      rcases (mem_inorder_ins btMax elem high).mp mem with rfl | old
      · omega
      · exact above high old

/-- A node above all keys goes to the end. -/
lemma inorder_ins_above (tree : BTree Elem) (elem : Elem)
    (above : ∀ low ∈ tree.inorder, val low < val elem) :
    (tree.ins val elem).inorder = tree.inorder ++ [elem] := by
  induction tree with
  | null => rfl
  | node btMin root btMax lower upper =>
    simp only [inorder, mem_append, mem_cons] at above
    have more := above root (by simp)
    rw [ins, if_neg (by omega), inorder, upper fun low mem => above low (.inr (.inr mem)), inorder]
    simp

/-- With two children the deletion keeps the lower subtree and one node of the upper subtree. -/
lemma inorder_del_both {low high left right : BTree Elem} {middle upper : Elem}
    (ordered : (BTree.node (.node low middle high) elem (.node left upper right)).Ordered val) :
    (del val (.node (.node low middle high) elem (.node left upper right))).inorder =
      (BTree.node low middle high).inorder ++ [upper] := by
  obtain ⟨_, _, below, above⟩ := ordered_node.mp ordered
  exact inorder_ins_above (.node low middle high) upper fun other mem => lt_trans (below other mem)
    (above upper (by simp [inorder]))

/-- The deletion drops exactly the node of the slot when the moved child has no children. -/
lemma inorder_del (ordered : (BTree.node btMin elem btMax).Ordered val)
    (keeps : (BTree.node btMin elem btMax).KeepsUpper) :
    (del val (.node btMin elem btMax)).inorder = btMin.inorder ++ btMax.inorder := by
  cases btMin with
  | null => simp [del, inorder]
  | node low middle high =>
    cases btMax with
    | null => simp [del, inorder]
    | node left upper right =>
      obtain ⟨rfl, rfl⟩ := keeps
      rw [inorder_del_both ordered]
      rfl

/-- A found slot holds the node of the key, and a write through it changes only that part. -/
lemma pget_slot (found : tree.pget val key = some slot) :
    ∃ btMin elem btMax before after, tree.deref slot = .node btMin elem btMax ∧ val elem = key ∧
      ∀ replacement, (tree.assign slot replacement).inorder = before ++ replacement.inorder ++ after ∧
        tree.inorder = before ++ (BTree.node btMin elem btMax).inorder ++ after := by
  induction tree generalizing slot with
  | null => simp [pget] at found
  | node btMin elem btMax lower upper =>
    rw [pget] at found
    split at found
    · obtain ⟨rest, inner, rfl⟩ := Option.map_eq_some_iff.mp found
      obtain ⟨low, middle, high, before, after, held, same, context⟩ := lower inner
      refine ⟨low, middle, high, before, after ++ elem :: btMax.inorder, held, same, ?_⟩
      intro replacement
      obtain ⟨changed, whole⟩ := context replacement
      constructor
      · simp [assign, inorder, changed]
      · rw [inorder, whole]
        simp [append_assoc]
    · split at found
      · obtain ⟨rest, inner, rfl⟩ := Option.map_eq_some_iff.mp found
        obtain ⟨low, middle, high, before, after, held, same, context⟩ := upper inner
        refine ⟨low, middle, high, btMin.inorder ++ elem :: before, after, held, same, ?_⟩
        intro replacement
        obtain ⟨changed, whole⟩ := context replacement
        constructor
        · simp [assign, inorder, changed]
        · rw [inorder, whole]
          simp [append_assoc, cons_append]
      · obtain rfl : [] = slot := Option.some.inj found
        refine ⟨btMin, elem, btMax, [], [], rfl, by omega, ?_⟩
        intro replacement
        simp [assign]

/-- A deletion through a found slot removes the node of the key and keeps every other node. -/
lemma delAt_spec (ordered : tree.Ordered val) (found : tree.pget val key = some slot)
    (keeps : (tree.deref slot).KeepsUpper) :
    (tree.delAt val slot).Ordered val ∧ ∀ other, other ∈ (tree.delAt val slot).inorder ↔
      other ∈ tree.inorder ∧ val other ≠ key := by
  obtain ⟨btMin, elem, btMax, before, after, held, same, context⟩ := pget_slot found
  obtain ⟨changed, whole⟩ := context (del val (tree.deref slot))
  rw [held] at keeps changed
  rw [delAt, held]
  have inner : (BTree.node btMin elem btMax).Ordered val := by
    unfold Ordered at ordered
    rw [whole] at ordered
    exact (pairwise_append.mp (pairwise_append.mp ordered).1).2.1
  rw [inorder_del inner keeps] at changed
  have order : tree.inorder.Pairwise fun low high => val low < val high := ordered
  rw [whole] at order
  constructor
  · unfold Ordered
    rw [changed]
    refine order.sublist (((List.Sublist.refl _).append ?_).append (List.Sublist.refl _))
    exact (List.Sublist.refl _).append (sublist_cons_self _ _)
  · intro other
    rw [changed, whole]
    simp only [inorder, pairwise_append, pairwise_cons, mem_append, mem_cons] at order ⊢
    obtain ⟨⟨_, ⟨_, ⟨above, _⟩, below⟩, outer⟩, _, last⟩ := order
    constructor
    · rintro ((mem | mem | mem) | mem)
      · have := outer other mem elem (by simp)
        exact ⟨by tauto, by omega⟩
      · have := below other mem elem (by simp)
        exact ⟨by tauto, by omega⟩
      · have := above other mem
        exact ⟨by tauto, by omega⟩
      · have := last elem (by simp) other mem
        exact ⟨by tauto, by omega⟩
    · rintro ⟨(mem | mem | rfl | mem) | mem, differs⟩
      · tauto
      · tauto
      · exact absurd same differs
      · tauto
      · tauto

end BTree

end KosKernel.Hybrid
