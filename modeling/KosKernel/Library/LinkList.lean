/-
This file describes linked lists in which every node also stores the link that leads to it.
A link is a list head or the next pointer of a node.
-/

import Mathlib.Tactic

namespace LinkList
open Function List

/-- A link is the head of a list or the next pointer of a node. -/
inductive Link (Head : Type) where
  | head (list : Head)
  | next (node : Nat)
  deriving DecidableEq

/-- The memory gives each link its target and each node the link that leads to it. -/
structure Links (Head : Type) where
  target : Link Head → Option Nat
  self : Nat → Link Head

variable {Head : Type} {links after : Links Head} {link : Link Head}

/-- From a link the nodes follow each other up to a null pointer. -/
def Chain (links : Links Head) : Link Head → List Nat → Prop
  | link, [] => links.target link = none
  | link, node :: rest =>
    links.target link = some node ∧ links.self node = link ∧ Chain links (.next node) rest

/-- From a link the nodes follow each other. -/
def Segment (links : Links Head) : Link Head → List Nat → Prop
  | _, [] => True
  | link, node :: rest =>
    links.target link = some node ∧ links.self node = link ∧ Segment links (.next node) rest

/-- The link behind the listed nodes. -/
def last (link : Link Head) : List Nat → Link Head
  | [] => link
  | node :: rest => last (.next node) rest

/-- A pointer leads to the first listed node, and the others follow it. -/
def Tail (links : Links Head) : Option Nat → List Nat → Prop
  | pointer, [] => pointer = none
  | pointer, node :: rest => pointer = some node ∧ Chain links (.next node) rest

/-- The nodes that a walk along the next pointers visits. -/
def Links.nodes (links : Links Head) : Nat → Option Nat → List Nat
  | 0, _ => []
  | _ + 1, none => []
  | fuel + 1, some node => node :: links.nodes fuel (links.target (.next node))

/-- A link is no next pointer of the listed nodes. -/
def Link.Away (link : Link Head) (nodes : List Nat) : Prop := ∀ node ∈ nodes, link ≠ .next node

lemma away_head (list : Head) (nodes : List Nat) : (Link.head list).Away nodes :=
  fun _ _ => by simp

variable {nodes front back : List Nat}

lemma away_next {node : Nat} (absent : node ∉ nodes) : (Link.next node : Link Head).Away nodes := by
  intro other mem same
  rw [Link.next.injEq] at same
  exact absent (same ▸ mem)

lemma Link.Away.mono {few many : List Nat} (away : link.Away many)
    (subset : ∀ node ∈ few, node ∈ many) : link.Away few :=
  fun node mem => away node (subset node mem)

section
variable (sameLink : after.target link = links.target link)
  (sameTargets : ∀ node ∈ nodes, after.target (.next node) = links.target (.next node))
  (sameSelf : ∀ node ∈ nodes, after.self node = links.self node)
include sameLink sameTargets sameSelf

/-- A chain survives changes of other links and other nodes. -/
lemma Chain.congr (chain : Chain links link nodes) : Chain after link nodes := by
  induction nodes generalizing link with
  | nil => exact sameLink.trans chain
  | cons node rest ih =>
    obtain ⟨here, self, follows⟩ := chain
    exact ⟨sameLink.trans here, (sameSelf node (by simp)).trans self,
      ih (sameTargets node (by simp)) (fun other mem => sameTargets other (by simp [mem]))
        (fun other mem => sameSelf other (by simp [mem])) follows⟩

/-- A segment survives changes of other links and other nodes. -/
lemma Segment.congr (segment : Segment links link nodes) : Segment after link nodes := by
  induction nodes generalizing link with
  | nil => trivial
  | cons node rest ih =>
    obtain ⟨here, self, follows⟩ := segment
    exact ⟨sameLink.trans here, (sameSelf node (by simp)).trans self,
      ih (sameTargets node (by simp)) (fun other mem => sameTargets other (by simp [mem]))
        (fun other mem => sameSelf other (by simp [mem])) follows⟩

end

/-- A chain is a segment and the chain behind it. -/
lemma chain_append : Chain links link (front ++ back) ↔ Segment links link front ∧
    Chain links (last link front) back := by
  induction front generalizing link with
  | nil => simp [Segment, last]
  | cons node rest ih => simp only [cons_append, Chain, Segment, last, ih, and_assoc]

/-- A chain gives the tail that its link leads to. -/
lemma Chain.tail (chain : Chain links link nodes) : Tail links (links.target link) nodes := by
  cases nodes with
  | nil => exact chain
  | cons node rest => exact ⟨chain.1, chain.2.2⟩

lemma Tail.pointer {nodes : List Nat} {pointer : Option Nat} (tail : Tail links pointer nodes) :
    pointer = nodes.head? := by
  cases nodes with
  | nil => exact tail
  | cons node rest => exact tail.1

lemma Chain.target (chain : Chain links link nodes) : links.target link = nodes.head? := by
  cases nodes with
  | nil => exact chain
  | cons node rest => exact chain.1

/-- A walk visits exactly the nodes of the chain. -/
lemma Chain.nodes_eq (chain : Chain links link nodes) {fuel : Nat} (enough : nodes.length < fuel) :
    links.nodes fuel (links.target link) = nodes := by
  induction nodes generalizing link fuel with
  | nil =>
    obtain _ | turns := fuel
    · omega
    rw [show links.target link = none from chain, Links.nodes]
  | cons node rest ih =>
    rw [length_cons] at enough
    obtain _ | turns := fuel
    · omega
    rw [chain.1, Links.nodes, ih chain.2.2 (by omega)]

/-- The link behind a segment is the first link or a next pointer of the segment. -/
lemma last_cases (link : Link Head) (nodes : List Nat) :
    last link nodes = link ∨ ∃ node ∈ nodes, last link nodes = .next node := by
  induction nodes generalizing link with
  | nil => exact .inl rfl
  | cons node rest ih =>
    right
    rcases ih (.next node) with same | ⟨other, mem, same⟩
    · exact ⟨node, by simp, same⟩
    · exact ⟨other, by simp [mem], same⟩

lemma last_append (link : Link Head) (front back : List Nat) :
    last link (front ++ back) = last (last link front) back := by
  induction front generalizing link with
  | nil => rfl
  | cons node rest ih => exact ih (.next node)

variable [DecidableEq Head]

/-- A link gets a new target, and the target learns its link. -/
def Links.connect (links : Links Head) (link : Link Head) (node : Option Nat) : Links Head where
  target := update links.target link node
  self :=
    match node with
    | none => links.self
    | some node => update links.self node link

@[simp] lemma connect_target (links : Links Head) (link : Link Head) (node : Option Nat) :
    (links.connect link node).target = update links.target link node := rfl

lemma connect_self_of_ne (links : Links Head) (link : Link Head) {node : Option Nat} {other : Nat}
    (differs : node ≠ some other) : (links.connect link node).self other = links.self other := by
  cases node with
  | none => rfl
  | some node =>
    apply update_of_ne
    exact fun same => differs (by rw [same])

lemma connect_self (links : Links Head) (link : Link Head) (node : Nat) :
    (links.connect link (some node)).self node = link := update_self _ _ _

/-- A connection between a segment and a tail makes one chain. -/
lemma chain_connect {pointer : Option Nat} (segment : Segment links link front)
    (tail : Tail links pointer back)
    (away : link.Away (front ++ back)) (distinct : (front ++ back).Nodup) :
    Chain (links.connect (last link front) pointer) link (front ++ back) := by
  induction front generalizing link with
  | nil =>
    cases back with
    | nil =>
      obtain rfl : pointer = none := tail
      simp [Chain, last]
    | cons node rest =>
      obtain ⟨rfl, follows⟩ := tail
      obtain ⟨absent, _⟩ := nodup_cons.mp distinct
      refine ⟨by simp [last], connect_self _ _ _, ?_⟩
      apply follows.congr
      · exact update_of_ne (away node (by simp)).symm _ _
      · intro other mem
        exact update_of_ne (away other (by simp [mem])).symm _ _
      · intro other mem
        apply connect_self_of_ne
        rintro ⟨rfl⟩
        exact absent mem
  | cons node rest ih =>
    obtain ⟨here, self, follows⟩ := segment
    obtain ⟨absent, restDistinct⟩ := nodup_cons.mp distinct
    have nextAway : (Link.next node : Link Head).Away (rest ++ back) := away_next absent
    refine ⟨?_, ?_, ih follows nextAway restDistinct⟩
    · have differs : link ≠ last (.next node) rest := by
        rcases last_cases (Link.next node) rest with same | ⟨other, mem, same⟩
        · rw [same]
          exact away node (by simp)
        · rw [same]
          exact away other (by simp [mem])
      simp [last, connect_target, update_of_ne differs, here]
    · refine (connect_self_of_ne _ _ ?_).trans self
      intro leads
      cases back with
      | nil => exact absurd (leads.symm.trans tail) (by simp)
      | cons first others =>
        obtain rfl : node = first := Option.some.inj (leads.symm.trans tail.1)
        exact absent (by simp)

/-- A node is taken out when the link that leads to it moves on to its successor. -/
lemma chain_remove {node : Nat} (chain : Chain links link (front ++ node :: back))
    (away : link.Away (front ++ node :: back)) (distinct : (front ++ node :: back).Nodup) :
    Chain (links.connect (links.self node) (links.target (.next node))) link (front ++ back) := by
  obtain ⟨segment, here, self, follows⟩ := chain_append.mp chain
  rw [self]
  have subset : ∀ other ∈ front ++ back, other ∈ front ++ node :: back := by
    intro other mem
    grind
  exact chain_connect segment follows.tail (away.mono subset)
    (distinct.sublist ((List.Sublist.refl front).append (sublist_cons_self node back)))

/-- A node is placed between a segment and a tail. -/
lemma chain_place {front back : List Nat} {pointer : Option Nat} (node : Nat)
    (segment : Segment links link front)
    (tail : Tail links pointer back) (away : link.Away (front ++ node :: back))
    (distinct : (front ++ node :: back).Nodup) :
    Chain ((links.connect (.next node) pointer).connect (last link front) (some node)) link
      (front ++ node :: back) := by
  obtain ⟨_, backDistinct, disjoint⟩ := nodup_append.mp distinct
  have newBack : node ∉ back := (nodup_cons.mp backDistinct).1
  have newFront : node ∉ front := fun mem => disjoint node mem node (by simp) rfl
  have behind : Chain (links.connect (.next node) pointer) (.next node) back := by
    have none : Segment links (.next node) [] := trivial
    exact chain_connect none tail (away_next newBack) (nodup_cons.mp backDistinct).2
  refine chain_connect ?_ ⟨rfl, behind⟩ away distinct
  apply segment.congr
  · exact update_of_ne (away node (by simp)) _ _
  · intro other mem
    apply update_of_ne
    intro same
    rw [Link.next.injEq] at same
    exact newFront (same ▸ mem)
  · intro other mem
    apply connect_self_of_ne
    rw [tail.pointer]
    intro first
    exact disjoint other mem other (mem_cons_of_mem _ (mem_of_mem_head? first)) rfl

/-- A new node goes between a segment and the chain behind it. -/
lemma chain_insert (node : Nat) (chain : Chain links link (front ++ back))
    (away : link.Away (front ++ node :: back)) (distinct : (front ++ node :: back).Nodup) :
    Chain ((links.connect (.next node) (links.target (last link front))).connect (last link front)
      (some node)) link
      (front ++ node :: back) := by
  obtain ⟨segment, rest⟩ := chain_append.mp chain
  exact chain_place node segment rest.tail away distinct

end LinkList
