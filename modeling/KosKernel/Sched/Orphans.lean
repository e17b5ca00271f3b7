/- The part of `task_is_terminating` in `kernel/sched/task.c` that hands the children to `inittask`,
without references. -/

import KosKernel.Library.LinkList

namespace KosKernel.Sched
open List hiding Chain
open LinkList Function

/-- The children lists of the tasks, with their sibling links, and the parents. -/
structure Family where
  links : Links Nat
  tpParent : Nat → Nat

namespace Family
variable (t inittask : Nat)

/-- The loop over the children, with a bound on its turns. It gives `pend`. -/
def orphan : Nat → Link Nat → Family → Link Nat × Family
  | 0, pend, family => (pend, family)
  | turns + 1, pend, family =>
    match family.links.target pend with
    | none => (pend, family)
    | some child =>
      if child = t then
        -- `pend` moves to the self-entry before that is removed. Nothing reads its `le_pself` again.
        orphan turns (.next child)
          { family with links := family.links.connect (family.links.self child) (family.links.target
            (.next child)) }
      else orphan turns (.next child) { family with tpParent := update family.tpParent child inittask }

def taskIsTerminating (turns : Nat) (family : Family) : Family :=
  let (pend, family) := orphan t inittask turns (.head t) family
  match family.links.target (.head t) with
  | none => family
  | some first =>
    let links := family.links.connect pend (family.links.target (.head inittask))
    let links := links.connect (.head inittask) (some first)
    { family with links := { links with target := update links.target (.head t) none } }

/-- The children but `t` and the previous children of `inittask` are in its list once. -/
def HandedOver (family : Family) (children inits : List Nat) : Prop :=
  (∃ nodes, Chain family.links (.head inittask) nodes ∧ nodes.Nodup ∧ inits ⊆ nodes ∧
    ∀ child ∈ children, child ≠ t → child ∈ nodes ∧ family.tpParent child = inittask) ∧
      family.links.target (.head t) = none

variable {t inittask} {links : Links Nat} {link : Link Nat} {nodes : List Nat} {turns : Nat}

/-- The loop sets the parents and takes the self-entry out, but `pend` passes through it. -/
lemma orphan_run {self : Nat → Link Nat} (tpParent : Nat → Nat)
    (chain : Chain ⟨links.target, self⟩ link nodes)
    (known : t ∈ nodes → links.self t = self t)
    (away : link.Away nodes) (distinct : nodes.Nodup) (enough : nodes.length < turns) :
    ∃ after, orphan t inittask turns link ⟨links, tpParent⟩ = (last link nodes,
        ⟨if t ∈ nodes then links.connect (links.self t) (links.target (.next t)) else links, after⟩) ∧
      ∀ child, after child = if child ∈ nodes ∧ child ≠ t then inittask else tpParent child := by
  induction nodes generalizing links link turns tpParent with
  | nil =>
    refine ⟨tpParent, ?_, by simp⟩
    cases turns <;> simp [orphan, last, show links.target link = none from chain]
  | cons child rest ih =>
    obtain ⟨here, own, follows⟩ := chain
    obtain ⟨absent, restDistinct⟩ := nodup_cons.mp distinct
    obtain _ | turns := turns
    · cases enough
    have fewer : rest.length < turns := Nat.lt_of_succ_lt_succ enough
    have start : links.target link = some child := here
    by_cases same : child = t
    · subst same
      -- Only the link in front of the self-entry changes, so the loop goes on as before.
      have kept : Chain ⟨(links.connect link (links.target (.next child))).target, self⟩
        (.next child) rest := by
        apply follows.congr
        · exact update_of_ne (away child mem_cons_self).symm _ _
        · exact fun other inside => update_of_ne (away other (mem_cons_of_mem _ inside)).symm _ _
        · exact fun _ _ => rfl
      obtain ⟨after, run, parents⟩ :=
        ih tpParent kept (fun inside => absurd inside absent) (away_next absent) restDistinct fewer
      have link : links.self child = link := (known mem_cons_self).trans own
      refine ⟨after, by simpa [orphan, start, link, absent, last] using run, fun other => ?_⟩
      rw [parents]
      by_cases equal : other = child <;> simp [equal]
    · obtain ⟨after, run, parents⟩ := ih (update tpParent child inittask) follows
        (fun inside => known (mem_cons_of_mem _ inside)) (away_next absent) restDistinct fewer
      refine ⟨after, by simpa [orphan, start, same, Ne.symm same, last] using run, fun other => ?_⟩
      rw [parents]
      by_cases equal : other = child <;> simp [equal, same]

/-- A chain survives a connection elsewhere. -/
lemma chain_elsewhere {other : Link Nat} {pointer : Option Nat} (chain : Chain links link nodes)
    (differs : other ≠ link)
    (away : other.Away nodes) (absent : ∀ node ∈ nodes, pointer ≠ some node) :
      Chain (links.connect other pointer) link nodes :=
  chain.congr (update_of_ne differs.symm _ _) (fun node mem => update_of_ne (away node mem).symm _ _)
    fun node mem => connect_self_of_ne _ _ (absent node mem)

variable {children inits : List Nat}

section
variable (family : Family) (chain : Chain family.links (.head t) children)
  (previous : Chain family.links (.head inittask) inits)
  (distinct : (children ++ inits).Nodup) (differs : t ≠ inittask) (enough : children.length < turns)
include chain previous distinct differs enough

/-- After the loop the other children are linked, and `pend` is behind the last entry. -/
lemma orphan_spec : ∃ after,
    orphan t inittask turns (.head t) family = (last (.head t) children, after) ∧
    Chain after.links (.head t) (children.erase t) ∧ Chain after.links (.head inittask) inits ∧
    ∀ child ∈ children, child ≠ t → after.tpParent child = inittask := by
  obtain ⟨own, _, disjoint⟩ := nodup_append.mp distinct
  obtain ⟨parents, run, set⟩ :=
    orphan_run family.tpParent chain (fun _ => rfl) (away_head _ _) own enough
  refine ⟨_, run, ?_, ?_, fun child inside other => (set child).trans (if_pos ⟨inside, other⟩)⟩
  all_goals
    split
  · next mem =>
    obtain ⟨front, back, rfl⟩ := append_of_mem mem
    have notFront : t ∉ front := fun inside => (nodup_append.mp own).2.2 t inside t mem_cons_self rfl
    rw [erase_append_right _ notFront, erase_cons_head]
    exact chain_remove chain (away_head _ _) own
  · next mem => rwa [erase_of_not_mem mem]
  · next mem =>
    obtain ⟨front, back, rfl⟩ := append_of_mem mem
    obtain ⟨_, _, self, follows⟩ := chain_append.mp chain
    have absent : ∀ node ∈ inits, family.links.target (.next t) ≠ some node := by
      intro node inside first
      rw [follows.target] at first
      exact disjoint node (by simp [mem_of_mem_head? first]) node inside rfl
    rcases last_cases (Link.head t) front with same | ⟨other, inside, same⟩
    · rw [self, same]
      exact chain_elsewhere previous (by simpa using differs) (away_head _ _) absent
    · rw [self, same]
      exact chain_elsewhere previous (by simp)
        (away_next fun old => disjoint other (by simp [inside]) other old rfl) absent
  · exact previous

/-- The list of `inittask` loses the previous children if the self-entry is the last one. -/
lemma taskIsTerminating_spec (others : children.erase t ≠ []) :
    Chain (taskIsTerminating t inittask turns family).links (.head inittask)
      (if children.getLast? = some t then children.erase t else children.erase t ++ inits) ∧
    (taskIsTerminating t inittask turns family).links.target (.head t) = none ∧
    ∀ child ∈ children, child ≠ t →
    (taskIsTerminating t inittask turns family).tpParent child = inittask := by
  obtain ⟨own, _, disjoint⟩ := nodup_append.mp distinct
  obtain ⟨after, run, kids, old, parents⟩ := orphan_spec family chain previous distinct differs enough
  obtain ⟨first, rest, list⟩ := exists_cons_of_ne_nil others
  have starts : after.links.target (.head t) = some first := by rw [kids.target, list, head?_cons]
  have whole : (children.erase t ++ inits).Nodup := distinct.sublist (erase_sublist.append_right inits)
  have spliced : ∀ nodes, nodes.head? = some first → nodes.Nodup →
      Chain (after.links.connect (last (.head t) children) (after.links.target (.head inittask)))
        (.head t) nodes →
      Chain (taskIsTerminating t inittask turns family).links (.head inittask) nodes := by
    intro nodes begins nodup joined
    have segment :
      Segment (after.links.connect (last (.head t) children) (after.links.target (.head inittask)))
      (.head inittask) [] := trivial
    have moved := chain_connect segment (begins ▸ joined.target ▸ joined.tail) (away_head _ _) nodup
    have other : Link.head inittask ≠ Link.head t := fun same => differs (Link.head.inj same).symm
    simp only [taskIsTerminating, run, starts]
    exact moved.congr (update_of_ne other _ _) (fun node _ => by simp) fun _ _ => rfl
  refine ⟨?_, by simp [taskIsTerminating, run, starts], by simpa [taskIsTerminating,
    run, starts] using parents⟩
  split
  · next isLast =>
    obtain ⟨front, split⟩ := getLast?_eq_some_iff.mp isLast
    have ends : last (.head t) children = .next t := by
      rw [split, last_append]
      rfl
    refine spliced _ (list ▸ rfl) whole.of_append_left (ends ▸ ?_)
    refine chain_elsewhere kids (by simp) (away_next own.not_mem_erase) fun node inside first => ?_
    rw [old.target] at first
    exact disjoint node (mem_of_mem_erase inside) node (mem_of_mem_head? first) rfl
  · next notLast =>
    obtain rfl | ⟨front, child, split⟩ := eq_nil_or_concat children
    · simp at others
    have differ : child ≠ t := fun same => notLast (by simp [split, same])
    have kept : children.erase t = front.erase t ++ [child] := by
      rw [split, concat_eq_append]
      by_cases inside : t ∈ front
      · rw [erase_append_left _ inside]
      · rw [erase_append_right _ inside, erase_of_not_mem inside, erase_of_not_mem
          (by simp [differ.symm])]
    have ends : last (.head t) children = last (.head t) (children.erase t) := by
      rw [kept, split, concat_eq_append, last_append, last_append]
      rfl
    refine spliced _ (by simp [list]) whole (ends ▸ ?_)
    rw [← append_nil (children.erase t), chain_append] at kids
    exact chain_connect kids.1 old.tail (away_head _ _) whole

end

lemma chain_unique {one two : List Nat} (first : Chain links link one)
    (second : Chain links link two) : one = two := by
  have walk := first.nodes_eq (Nat.lt_add_of_pos_right (Nat.succ_pos two.length))
  rw [← walk]
  exact second.nodes_eq (by omega)

/-- The children are handed over exactly if the self-entry is not the last one of several. -/
theorem taskIsTerminating_handedOver_iff (family : Family)
    (chain : Chain family.links (.head t) children)
    (previous : Chain family.links (.head inittask) inits) (filled : inits ≠ [])
    (distinct : t ≠ inittask → (children ++ inits).Nodup) (enough : children.length < turns) :
    (taskIsTerminating t inittask turns family).HandedOver t inittask children inits ↔
      t ≠ inittask ∧ (children.getLast? = some t → children = [t]) := by
  constructor
  · rintro ⟨⟨nodes, listed, _, kept, _⟩, empty⟩
    have differs : t ≠ inittask := by
      rintro rfl
      rw [listed.target, head?_eq_none_iff] at empty
      rw [empty] at kept
      exact filled (subset_nil.mp kept)
    refine ⟨differs, fun isLast => ?_⟩
    by_contra several
    have others : children.erase t ≠ [] := by
      rw [ne_eq, erase_eq_nil_iff, not_or]
      exact ⟨fun none => by simp [none] at isLast, several⟩
    obtain ⟨lost, _⟩ := taskIsTerminating_spec family chain previous (distinct differs) differs
      enough others
    rw [if_pos isLast] at lost
    rw [chain_unique listed lost] at kept
    obtain ⟨old, inside⟩ := exists_mem_of_ne_nil inits filled
    exact (nodup_append.mp (distinct differs)).2.2 old (mem_of_mem_erase (kept inside)) old inside rfl
  · rintro ⟨differs, alone⟩
    have whole := distinct differs
    by_cases others : children.erase t = []
    · obtain ⟨after, run, kids, old, parents⟩ := orphan_spec family chain previous whole differs enough
      rw [others] at kids
      have same : taskIsTerminating t inittask turns family = after := by
        rw [taskIsTerminating, run]
        simp [show after.links.target (.head t) = none from kids]
      rw [same]
      refine ⟨⟨inits, old, whole.of_append_right, Subset.refl _, fun child inside other => ?_⟩, kids⟩
      have still := (mem_erase_of_ne other).mpr inside
      rw [others] at still
      cases still
    · obtain ⟨joined, empty, parents⟩ :=
        taskIsTerminating_spec family chain previous whole differs enough others
      rw [if_neg fun isLast => others (by simp [alone isLast])] at joined
      exact ⟨⟨_, joined, whole.sublist (erase_sublist.append_right inits), subset_append_right _ _,
        fun child inside other =>
        ⟨mem_append_left _ ((mem_erase_of_ne other).mpr inside), parents child inside other⟩⟩, empty⟩

/-- The task 1 with two children, and `inittask` with itself. -/
def pair (first second : Nat) : Family where
  links := {
    target := fun link => if link = .head 1 then some first else if link = .next first then some second
      else if link = .head 0 then some 0 else none
    self := fun node => if node = 0 then .head 0 else if node = first then .head 1 else .next first }
  tpParent _ := 1

theorem taskIsTerminating_handedOver_first :
    (taskIsTerminating 1 0 3 (pair 1 2)).HandedOver 1 0 [1, 2] [0] :=
  (taskIsTerminating_handedOver_iff (pair 1 2) (by exact ⟨rfl, rfl, rfl, rfl, rfl⟩)
    (by exact ⟨rfl, rfl, rfl⟩) (by decide)
    (by decide) (by decide)).mpr (by decide)

/-- The self-entry is the last one, and `inittask` loses its previous child. -/
theorem taskIsTerminating_handedOver_fails : ¬(taskIsTerminating 1 0 3 (pair 2 1)).HandedOver 1
    0 [2, 1] [0] := by
  rintro ⟨⟨nodes, listed, _, kept, _⟩, _⟩
  have lost : Chain (taskIsTerminating 1 0 3 (pair 2 1)).links (.head 0) [2] := ⟨rfl, rfl, rfl⟩
  rw [chain_unique listed lost] at kept
  exact absurd kept (by decide)

end Family

end KosKernel.Sched
