import KosKernel.Hybrid.ATreePaths
import KosKernel.Mman.BranchTree

namespace KosKernel.Mman.MMan
open LinkTree List Hybrid ATree
variable {key : KeyType}

section Unmap
variable (addrMin addrMax : Nat) (tag : Option Nat)

/-- The walk took exactly the branches of the range out of the subtree and out of the list. -/
structure Unmapped (key : KeyType) (mman after : MMan) (proot : Slot) (base size : Nat)
    (shape result : Shape) : Prop where
  branch : after.branch = mman.branch
  rooted : Rooted mman.ranges after.mMap proot base size result
  members : result.nodes.Perm (shape.nodes.filter fun branch => ¬ mman.unmaps addrMin addrMax tag branch)
  frame : Frame mman.mMap after.mMap proot shape.nodes
  order : after.mOrder = mman.mOrder.filter fun branch => ¬ (branch ∈ shape.nodes ∧
    mman.unmaps addrMin addrMax tag branch)

variable {addrMin addrMax tag} {mman : MMan} {proot : Slot} {base size : Nat} {shape : Shape}

/-- Nothing happens to a subtree without branches of the range. -/
lemma unmapped_refl (rooted : Rooted mman.ranges mman.mMap proot base size shape)
    (free : ∀ branch ∈ shape.nodes, ¬ mman.unmaps addrMin addrMax tag branch) :
    Unmapped addrMin addrMax tag key mman mman proot base size shape shape where
  branch := rfl
  rooted := rooted
  members := by
    rw [filter_eq_self.mpr fun branch mem => decide_eq_true (free branch mem)]
  frame := Frame.refl _ _ _
  order := by
    rw [filter_eq_self.mpr]
    exact fun branch _ => decide_eq_true fun found => free branch found.1 found.2

lemma Unmapped.subset {after : MMan} {result : Shape}
    (unmapped : Unmapped addrMin addrMax tag key mman after proot base size shape result) :
    ∀ node ∈ result.nodes, node ∈ shape.nodes :=
  fun _ mem => (mem_filter.mp (unmapped.members.mem_iff.mp mem)).1

/-- A walk into both subtrees of a branch that stays is a walk of the tree. -/
lemma Unmapped.node {middle after : MMan} {root : Nat} {low high lowAfter highAfter : Shape}
    (rooted : Rooted mman.ranges mman.mMap proot base (size + 1) (.node low root high))
    (stays : ¬ mman.unmaps addrMin addrMax tag root)
    (upper : Unmapped addrMin addrMax tag key mman middle (.high root) (base + 2 ^ size)
      size high highAfter)
    (lower : Unmapped addrMin addrMax tag key middle after (.low root) base size low lowAfter) :
    Unmapped addrMin addrMax tag key mman after proot base (size + 1) (.node low root high)
      (.node lowAfter root highAfter) := by
  have sameRanges : middle.ranges = mman.ranges := by
    unfold ranges
    rw [upper.branch]
  have sameUnmaps : ∀ branch, middle.unmaps addrMin addrMax tag branch ↔
    mman.unmaps addrMin addrMax tag branch := by
    intro branch
    unfold unmaps overlaps
    rw [upper.branch]
  have between := rooted.with_high upper.rooted upper.subset upper.frame rooted.placed.2.1
    rooted.high_fresh rooted.high_away
  have lowerRooted : Rooted mman.ranges after.mMap (.low root) base size lowAfter :=
    sameRanges ▸ lower.rooted
  refine ⟨lower.branch.trans upper.branch,
    between.with_low lowerRooted lower.subset lower.frame between.low_fresh between.low_away,
    ?_, ?_, ?_⟩
  · have lowMembers := lower.members
    simp only [sameUnmaps] at lowMembers
    rw [nodes_node, nodes_node, filter_append, filter_cons, if_pos (decide_eq_true stays)]
    exact lowMembers.append (upper.members.cons root)
  · intro slot other unowned
    have notLow : slot ≠ .low root := (unowned root (by simp)).1
    have notHigh : slot ≠ .high root := (unowned root (by simp)).2
    rw [lower.frame slot notLow (unowned.mono fun node mem => by simp [mem]),
      upper.frame slot notHigh (unowned.mono fun node mem => by simp [mem])]
  · rw [lower.order, upper.order, filter_filter]
    refine filter_congr fun branch _ => ?_
    rw [← Bool.decide_and, decide_eq_decide, sameUnmaps, nodes_node, mem_append, mem_cons]
    by_cases isRoot : branch = root
    · subst isRoot
      tauto
    · tauto

/-- A walk after the root of the subtree has been taken out is a walk of the subtree. -/
lemma Unmapped.pop {after : MMan} {cells : Cells} {root : Nat} {low high popped result : Shape}
    (rooted : Rooted mman.ranges mman.mMap proot base size (.node low root high))
    (goes : mman.unmaps addrMin addrMax tag root) (distinct : mman.mOrder.Nodup)
    (updated : Updated mman.ranges mman.mMap cells proot base size (high.nodes ++ low.nodes) popped)
    (unmapped : Unmapped addrMin addrMax tag key ({ mman with mMap := cells }.dropBranch root)
      after proot base size
      popped result) :
    Unmapped addrMin addrMax tag key mman after proot base size (.node low root high) result := by
  have shared : ∀ node ∈ popped.nodes, node ∈ (Shape.node low root high).nodes := by
    intro node mem
    have found := updated.members.mem_iff.mp mem
    rw [mem_append] at found
    rw [nodes_node, mem_append]
    tauto
  refine ⟨unmapped.branch, unmapped.rooted, ?_, ?_, ?_⟩
  · refine unmapped.members.trans ?_
    have gone : ¬ decide (¬ mman.unmaps addrMin addrMax tag root) = true := by simpa using goes
    rw [nodes_node, filter_append, filter_cons, if_neg gone, ← filter_append]
    exact (updated.members.trans perm_append_comm).filter _
  · exact (updated.frame.mono fun node mem => shared node (updated.members.mem_iff.mpr mem)).trans
      (unmapped.frame.mono shared)
  · rw [unmapped.order]
    show List.filter _ (mman.mOrder.erase root) = _
    rw [distinct.erase_eq_filter, filter_filter]
    refine filter_congr fun branch _ => ?_
    have same : branch ∈ (Shape.node low root high).nodes ↔ branch = root ∨ branch ∈ popped.nodes := by
      rw [updated.members.mem_iff, nodes_node, mem_append, mem_cons, mem_append]
      tauto
    rw [Bool.eq_iff_iff]
    simp only [Bool.and_eq_true, decide_eq_true_eq, bne_iff_ne, ne_eq, same]
    by_cases isRoot : branch = root
    · subst isRoot
      simp only [not_true_eq_false, and_false, true_or, true_and, false_iff, not_not]
      exact goes
    · simp only [isRoot, not_false_eq_true, and_true, false_or]
      exact Iff.rfl

/-- The walk goes into a subtree if it can hold a branch of the range. -/
lemma munmapImpl_child {fuel : Nat} {position : Position} {walks : Prop} [Decidable walks]
    (rooted : Rooted mman.ranges mman.mMap position.proot base size shape)
    (visited : ∃ after bytes result, munmapImpl key addrMin addrMax tag fuel position mman =
      some (after, bytes) ∧
      Unmapped addrMin addrMax tag key mman after position.proot base size shape result)
    (free : ¬ walks → ∀ branch ∈ shape.nodes, ¬ mman.unmaps addrMin addrMax tag branch) :
    ∃ after bytes result, (if walks then munmapImpl key addrMin addrMax tag fuel position mman
      else some (mman, 0)) = some (after, bytes) ∧
      Unmapped addrMin addrMax tag key mman after position.proot base size shape result := by
  by_cases goes : walks
  · rw [if_pos goes]
    exact visited
  · rw [if_neg goes]
    exact ⟨mman, 0, shape, rfl, unmapped_refl rooted (free goes)⟩

/-- Every walk of `mman_munmap_impl` ends and takes the branches of the range out. -/
lemma munmapImpl_spec (fuel : Nat) (position : Position) (block : Block key base size)
    (center : AtCenter base size position.semi position.level)
    (rooted : Rooted mman.ranges mman.mMap position.proot base size shape)
    (separated : Separated mman.ranges shape.nodes)
    (distinct : mman.mOrder.Nodup) (enough : shape.nodes.length + size < fuel) :
    ∃ after bytes result, munmapImpl key addrMin addrMax tag fuel position mman = some (after, bytes) ∧
      Unmapped addrMin addrMax tag key mman after position.proot base size shape result := by
  induction fuel generalizing mman position base size shape with
  | zero => omega
  | succ fuel ih =>
    cases shape with
    | leaf =>
      refine ⟨mman, 0, .leaf, ?_, unmapped_refl rooted fun _ mem => absurd mem (by simp)⟩
      rw [munmapImpl, show mman.mMap position.proot = none from rooted.holds]
    | node low root high =>
      obtain ⟨rest, rfl⟩ := rooted.placed.exists_size
      obtain ⟨semi, level⟩ := center rest rfl
      rw [munmapImpl, rooted.holds.1]
      dsimp only
      rw [nodes_node, length_append, length_cons] at enough
      by_cases goes : mman.unmaps addrMin addrMax tag root
      · rw [if_pos goes]
        obtain ⟨cells, popped, done, updated⟩ := popAt_updated block rooted separated
          (insertCalls_le_callDepth block.size_le)
        have took : mman.treePopAt key position = some { mman with mMap := cells } := by
          rw [treePopAt, semi, level, done]
          rfl
        have length := updated.members.length_eq
        rw [length_append] at length
        have apart : Separated mman.ranges popped.nodes := separated.mono fun node mem => by
          have found := updated.members.mem_iff.mp mem
          rw [mem_append] at found
          rw [nodes_node, mem_append]
          tauto
        have dropped : Rooted ({ mman with mMap := cells }.dropBranch root).ranges
            ({ mman with mMap := cells }.dropBranch root).mMap position.proot base
              (rest + 1) popped := updated.rooted
        obtain ⟨after, bytes, result, ran, unmapped⟩ :=
          ih position block center dropped apart (distinct.erase root)
          (by omega)
        refine ⟨after, bytes + (mman.branch root).size key, result, ?_,
          unmapped.pop rooted goes distinct updated⟩
        rw [took, Option.bind_some, ran]
        rfl
      · rw [if_neg goes, semi, level]
        have upperFree : ¬ (base + 2 ^ rest ≤ addrMax ∧ (mman.mMap (.high root)).isSome) →
            ∀ branch ∈ high.nodes, ¬ mman.unmaps addrMin addrMax tag branch := by
          intro stops branch mem unmapped
          have above : base + 2 ^ rest < (mman.branch branch).mbNode.aVmin :=
            rooted.placed.2.1 branch mem
          have overlap : (mman.branch branch).mbNode.aVmin ≤ addrMax := unmapped.1.2
          exact stops ⟨by omega, rooted.holds.2.2.isSome mem⟩
        obtain ⟨middle, highBytes, highAfter, highRan, upper⟩ := munmapImpl_child rooted.high
          (ih ⟨.high root, walkMax key (base + 2 ^ rest) rest, nextLevel rest⟩ block.high
            (AtCenter.high block)
            rooted.high (separated.mono fun node mem => by simp [mem]) distinct (by omega)) upperFree
        rw [highRan, Option.bind_some]
        have sameRanges : middle.ranges = mman.ranges :=
          congrArg (fun branch node => (branch node).mbNode) upper.branch
        have between : Rooted middle.ranges middle.mMap (.low root) base rest low :=
          sameRanges ▸ (rooted.with_high upper.rooted upper.subset upper.frame rooted.placed.2.1
            rooted.high_fresh
            rooted.high_away).low
        have lowerFree : ¬ (addrMin < base + 2 ^ rest ∧ (mman.mMap (.low root)).isSome) →
            ∀ branch ∈ low.nodes, ¬ middle.unmaps addrMin addrMax tag branch := by
          intro stops branch mem unmapped
          have below : (mman.branch branch).mbNode.aVmax < base + 2 ^ rest :=
            (rooted.low.placed.inside branch mem).2.2
          have overlap : addrMin ≤ (mman.branch branch).mbNode.aVmax := upper.branch ▸ unmapped.1.1
          exact stops ⟨by omega, rooted.holds.2.1.isSome mem⟩
        obtain ⟨after, lowBytes, lowAfter, lowRan, lower⟩ := munmapImpl_child between
          (ih ⟨.low root, walkMin key (base + 2 ^ rest) rest, nextLevel rest⟩ block.low
            (AtCenter.low block)
            between (sameRanges ▸ separated.mono fun node mem => by simp [mem])
            (upper.order ▸ distinct.filter _) (by omega)) lowerFree
        refine ⟨after, highBytes + lowBytes, _, ?_, upper.node rooted goes lower⟩
        rw [lowRan]
        rfl

/-- The walk keeps a valid memory manager valid and leaves exactly the other branches. -/
lemma Valid.munmapImpl (valid : Valid key mman) (addrMin addrMax : Nat) (tag : Option Nat) :
    ∃ after bytes, MMan.munmapImpl key addrMin addrMax tag (mman.mOrder.length + key.bits + 1)
      (root key) mman = some (after, bytes) ∧ Valid key after ∧ after.branch = mman.branch ∧
      after.mOrder = mman.mOrder.filter fun branch => ¬ mman.unmaps addrMin addrMax tag branch := by
  obtain ⟨shape, rooted, members⟩ := valid.stored
  have length := members.length_eq
  obtain ⟨after, bytes, result, ran, unmapped⟩ :=
    munmapImpl_spec (mman.mOrder.length + key.bits + 1) (root key)
    (block_root key) (atCenter_root key) rooted (valid.separated.mono fun _ => members.mem_iff.mp)
    valid.stored.nodup (by omega)
  have order : after.mOrder = mman.mOrder.filter fun branch =>
    ¬ mman.unmaps addrMin addrMax tag branch := by
    rw [unmapped.order]
    refine filter_congr fun branch mem => ?_
    rw [decide_eq_decide, members.mem_iff]
    exact not_congr (and_iff_right mem)
  have sameRanges : after.ranges = mman.ranges :=
    congrArg (fun branch node => (branch node).mbNode) unmapped.branch
  have stored : Stored key after.ranges after.mMap after.mOrder := by
    rw [sameRanges, order]
    exact ⟨result, unmapped.rooted, unmapped.members.trans (members.filter _)⟩
  refine ⟨after, bytes, ran, ⟨stored, ?_, ?_⟩, unmapped.branch, order⟩
  · rw [order, unmapped.branch]
    exact valid.ascending.filter _
  · intro branch mem
    rw [order] at mem
    rw [unmapped.branch]
    exact valid.aligned branch (mem_filter.mp mem).1

end Unmap

section Protect
variable {mman : MMan}

/-- The two memory managers differ at most in the protections of their branches. -/
structure Reprotected (mman after : MMan) : Prop where
  map : after.mMap = mman.mMap
  order : after.mOrder = mman.mOrder
  refcnt : after.mrRefcnt = mman.mrRefcnt
  branch : ∀ branch, ∃ prot, after.branch branch = { mman.branch branch with mbProt := prot }

lemma Reprotected.refl (mman : MMan) : Reprotected mman mman := ⟨rfl, rfl, rfl, fun _ => ⟨_, rfl⟩⟩

lemma Reprotected.trans {middle after : MMan} (first : Reprotected mman middle)
    (second : Reprotected middle after) :
    Reprotected mman after := by
  refine ⟨second.map.trans first.map, second.order.trans first.order,
    second.refcnt.trans first.refcnt, fun branch => ?_⟩
  obtain ⟨_, early⟩ := first.branch branch
  obtain ⟨prot, late⟩ := second.branch branch
  exact ⟨prot, by rw [late, early]⟩

lemma reprotected_setProt (mman : MMan) (branch : Nat) (prot : BitVec 32) :
    Reprotected mman (mman.setProt branch prot) := by
  refine ⟨rfl, rfl, rfl, fun other => ?_⟩
  unfold setProt
  dsimp only
  by_cases same : other = branch
  · subst same
    exact ⟨prot, Function.update_self _ _ _⟩
  · exact ⟨_, by rw [Function.update_of_ne same]⟩

/-- Every walk of `mman_mprotect_impl` ends and changes protections only. -/
lemma mprotectImpl_spec (addrMin addrMax : Nat) (amask omask : BitVec 32) (fuel : Nat)
    {pointer : Option Nat} {shape : Shape}
    (holds : Holds mman.mMap pointer shape) (enough : shape.depth < fuel) (semi level : Nat) :
    ∃ after bytes, mprotectImpl key addrMin addrMax amask omask fuel pointer semi level mman =
      some (after, bytes) ∧
      Reprotected mman after := by
  induction fuel generalizing mman pointer shape semi level with
  | zero => omega
  | succ fuel ih =>
    cases shape with
    | leaf =>
      rw [show pointer = none from holds]
      exact ⟨mman, 0, rfl, Reprotected.refl mman⟩
    | node low root high =>
      obtain ⟨rfl, lower, upper⟩ := holds
      rw [Shape.depth] at enough
      rw [mprotectImpl]
      generalize changedAt : (if mman.overlaps addrMin addrMax root then
        mman.setProt root ((mman.branch root).mbProt &&& amask ||| omask) else mman) = changed
      have first : Reprotected mman changed := by
        rw [← changedAt]
        split
        · exact reprotected_setProt _ _ _
        · exact Reprotected.refl _
      have visit : ∀ (state : MMan) (walks : Prop) [Decidable walks] (child : Shape) (slot : Slot)
        (center depth : Nat),
          Reprotected mman state → Holds mman.mMap (mman.mMap slot) child → child.depth < fuel →
          ∃ after bytes, (if walks then mprotectImpl key addrMin addrMax amask omask fuel
            (state.mMap slot) center depth state
            else some (state, 0)) = some (after, bytes) ∧ Reprotected mman after := by
        intro state walks _ child slot center depth reached childHolds shallow
        by_cases goes : walks
        · rw [if_pos goes]
          have stateHolds : Holds state.mMap (state.mMap slot) child := reached.map ▸ childHolds
          obtain ⟨after, bytes, ran, later⟩ := ih stateHolds shallow center depth
          exact ⟨after, bytes, ran, reached.trans later⟩
        · rw [if_neg goes]
          exact ⟨state, 0, rfl, reached⟩
      obtain ⟨middle, highBytes, highRan, second⟩ := visit changed
        (semi ≤ addrMax ∧ (mman.mMap (.high root)).isSome) high (.high root) (walkMax key semi level)
        (nextLevel level) first upper (by omega)
      rw [highRan, Option.bind_some]
      obtain ⟨after, lowBytes, lowRan, third⟩ := visit middle
        (addrMin < semi ∧ (mman.mMap (.low root)).isSome) low (.low root) (walkMin key semi level)
        (nextLevel level) second lower (by omega)
      rw [lowRan]
      exact ⟨after, _, rfl, third⟩

lemma Reprotected.valid {after : MMan} (reprotected : Reprotected mman after)
    (valid : Valid key mman) : Valid key after := by
  have node : ∀ branch, (after.branch branch).mbNode = (mman.branch branch).mbNode := by
    intro branch
    obtain ⟨prot, same⟩ := reprotected.branch branch
    rw [same]
  refine ⟨?_, ?_, ?_⟩
  · rw [reprotected.map, reprotected.order]
    exact valid.stored.congr fun branch _ => node branch
  · rw [reprotected.order]
    refine valid.ascending.imp fun less => ?_
    unfold Precedes at less ⊢
    rwa [node, node]
  · intro branch mem
    rw [reprotected.order] at mem
    rw [node]
    exact valid.aligned branch mem

end Protect

end KosKernel.Mman.MMan
