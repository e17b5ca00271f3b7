import KosKernel.Hybrid.ATreeRangeMap
import KosKernel.Mman.Branches

namespace KosKernel.Mman.MMan
open LinkTree Function List Hybrid ATree
variable {key : KeyType}

/-- The first branch ends below the second one. -/
def Precedes (branch : Nat → MBranch) (first second : Nat) : Prop :=
  (branch first).mbNode.aVmax < (branch second).mbNode.aVmin

/-- The tree holds the branches of the list, which ascends, and they are made of whole pages. -/
structure Valid (key : KeyType) (mman : MMan) : Prop where
  stored : Stored key mman.ranges mman.mMap mman.mOrder
  ascending : mman.mOrder.Pairwise (Precedes mman.branch)
  aligned : ∀ branch ∈ mman.mOrder, (mman.branch branch).mbNode.PageAligned key

variable {new place : Nat}

section Order
variable {branch : Nat → MBranch} {order : List Nat}

lemma disjoint_of_ascending (ascending : order.Pairwise (Precedes branch)) :
    ∀ first ∈ order, ∀ second ∈ order, first ≠ second →
    (branch first).mbNode.Disjoint (branch second).mbNode := by
  intro first firstMem second secondMem differs
  have symmetric : Std.Symm fun one other => (branch one).mbNode.Disjoint (branch other).mbNode :=
    ⟨fun _ _ => Or.symm⟩
  have apart : order.Pairwise fun one other => (branch one).mbNode.Disjoint (branch other).mbNode :=
    ascending.imp fun less => .inl less
  exact apart.forall firstMem secondMem differs

lemma orderInsert_perm (branch : Nat → MBranch) (new : Nat) (order : List Nat) :
    (orderInsert branch new order).Perm (new :: order) := by
  induction order with
  | nil => exact List.Perm.refl _
  | cons insert rest ih =>
    rw [orderInsert]
    split
    · exact List.Perm.refl _
    · exact (ih.cons insert).trans (List.Perm.swap new insert rest)

/-- The place that the loop finds keeps the list ascending. -/
lemma orderInsert_ascending (ascending : order.Pairwise (Precedes branch))
    (nonempty : ∀ other ∈ order, (branch other).mbNode.aVmin ≤ (branch other).mbNode.aVmax)
    (apart : ∀ other ∈ order, (branch other).mbNode.Disjoint (branch new).mbNode) :
    (orderInsert branch new order).Pairwise (Precedes branch) := by
  induction order with
  | nil => exact pairwise_singleton _ _
  | cons insert rest ih =>
    obtain ⟨first, later⟩ := pairwise_cons.mp ascending
    rw [orderInsert]
    split
    next here =>
      refine pairwise_cons.mpr ⟨?_, ascending⟩
      intro other mem
      rcases mem_cons.mp mem with rfl | behind
      · exact here
      · have above : (branch insert).mbNode.aVmax < (branch other).mbNode.aVmin := first other behind
        have order := nonempty insert mem_cons_self
        exact here.trans (order.trans_lt above)
    next past =>
      refine pairwise_cons.mpr ⟨?_, ih later (fun other mem => nonempty other (mem_cons_of_mem _ mem))
        fun other mem => apart other (mem_cons_of_mem _ mem)⟩
      intro other mem
      rcases mem_cons.mp ((orderInsert_perm branch new rest).mem_iff.mp mem) with rfl | behind
      · exact (apart insert mem_cons_self).resolve_right past
      · exact first other behind

lemma insertAfter_perm (new : Nat) (mem : place ∈ order) :
    (insertAfter place new order).Perm (new :: order) := by
  induction order with
  | nil => cases mem
  | cons first rest ih =>
    rw [insertAfter]
    split
    next => exact List.Perm.swap new first rest
    next other =>
      have later : place ∈ rest := (mem_cons.mp mem).resolve_left (Ne.symm other)
      exact ((ih later).cons first).trans (List.Perm.swap new first rest)

/-- A new element behind its place keeps a list ordered if it is ordered like the place. -/
lemma insertAfter_pairwise {relation : Nat → Nat → Prop} (ordered : order.Pairwise relation)
    (mem : place ∈ order)
    (here : relation place new) (below : ∀ other ∈ order, relation other place → relation other new)
    (above : ∀ other ∈ order, relation place other → relation new other) :
    (insertAfter place new order).Pairwise relation := by
  induction order with
  | nil => cases mem
  | cons first rest ih =>
    obtain ⟨start, later⟩ := pairwise_cons.mp ordered
    rw [insertAfter]
    split
    next same =>
      subst same
      refine pairwise_cons.mpr ⟨?_, pairwise_cons.mpr ⟨?_, later⟩⟩
      · intro other found
        rcases mem_cons.mp found with rfl | behind
        · exact here
        · exact start other behind
      · exact fun other behind => above other (mem_cons_of_mem _ behind) (start other behind)
    next different =>
      have inRest : place ∈ rest := (mem_cons.mp mem).resolve_left (Ne.symm different)
      refine pairwise_cons.mpr ⟨?_, ih later inRest
        (fun other found => below other (mem_cons_of_mem _ found))
        fun other found => above other (mem_cons_of_mem _ found)⟩
      intro other found
      rcases mem_cons.mp ((insertAfter_perm new inRest).mem_iff.mp found) with rfl | behind
      · exact below first mem_cons_self (start place inRest)
      · exact start other behind

end Order

variable {mman : MMan}

lemma Valid.disjoint (valid : Valid key mman) : ∀ first ∈ mman.mOrder, ∀ second ∈ mman.mOrder,
    first ≠ second →
    (mman.branch first).mbNode.Disjoint (mman.branch second).mbNode :=
  disjoint_of_ascending valid.ascending

lemma Valid.separated (valid : Valid key mman) : Separated mman.ranges mman.mOrder :=
  separated_of_aligned valid.aligned valid.disjoint

/-- A branch with an aligned range apart from the others can be inserted into the tree. -/
lemma treeInsert_spec {nodes : List Nat} (stored : Stored key mman.ranges mman.mMap nodes)
    (fresh : new ∉ nodes)
    (aligned : ∀ branch ∈ new :: nodes, (mman.branch branch).mbNode.PageAligned key)
    (disjoint : ∀ first ∈ new :: nodes, ∀ second ∈ new :: nodes, first ≠ second →
      (mman.branch first).mbNode.Disjoint (mman.branch second).mbNode) :
    ∃ cells, mman.treeInsert key new = some { mman with mMap := cells } ∧
    Stored key mman.ranges cells (new :: nodes) := by
  have newAligned := aligned new mem_cons_self
  obtain ⟨cells, inserted, _, after⟩ :=
    stored.insert fresh (separated_of_aligned aligned disjoint) newAligned.2.2.1
    newAligned.2.2.2
  exact ⟨cells, by rw [treeInsert, inserted]; rfl, after⟩

/-- A new branch apart from the others can be inserted. -/
lemma Valid.insbranch (valid : Valid key mman) (fresh : new ∉ mman.mOrder)
    (newAligned : (mman.branch new).mbNode.PageAligned key)
    (apart : ∀ other ∈ mman.mOrder, (mman.branch other).mbNode.Disjoint (mman.branch new).mbNode) :
    ∃ after, mman.insbranchUnlocked key new = some after ∧ Valid key after ∧
    after.mOrder.Perm (new :: mman.mOrder) ∧
      after.branch = mman.branch := by
  have same := orderInsert_perm mman.branch new mman.mOrder
  have ascending := orderInsert_ascending valid.ascending
    (fun other mem => (valid.aligned other mem).2.2.1) apart
  have aligned : ∀ branch ∈ new :: mman.mOrder, (mman.branch branch).mbNode.PageAligned key := by
    intro branch mem
    rcases mem_cons.mp mem with rfl | old
    · exact newAligned
    · exact valid.aligned branch old
  have disjoint : ∀ first ∈ new :: mman.mOrder, ∀ second ∈ new :: mman.mOrder, first ≠ second →
      (mman.branch first).mbNode.Disjoint (mman.branch second).mbNode :=
        fun first firstMem second secondMem =>
    disjoint_of_ascending ascending first (same.mem_iff.mpr firstMem) second (same.mem_iff.mpr secondMem)
  obtain ⟨cells, inserted, stored⟩ := treeInsert_spec valid.stored fresh aligned disjoint
  refine ⟨{ mman with mMap := cells, mOrder := orderInsert mman.branch new mman.mOrder },
    by rw [insbranchUnlocked, inserted]; rfl, ⟨stored.perm same.symm, ascending, ?_⟩, same, rfl⟩
  exact fun branch mem => aligned branch (same.mem_iff.mp mem)

/-- This is what a lookup of a position tells about a valid memory manager. -/
lemma Valid.plocate (valid : Valid key mman) (wanted : Nat) :
    (plocate key mman.ranges mman.mMap wanted = some none ∧ ∀ node ∈ mman.mOrder,
      ¬ Covers mman.ranges wanted node) ∨
      ∃ position root others cells, plocate key mman.ranges mman.mMap wanted = some (some position) ∧
        mman.mMap position.proot = some root ∧ mman.mOrder.Perm (root :: others) ∧
        Covers mman.ranges wanted root ∧
        mman.treePopAt key position = some { mman with mMap := cells } ∧
        Stored key mman.ranges cells others := by
  rcases valid.stored.plocate valid.separated wanted with missed | found
  · exact .inl missed
  · obtain ⟨position, root, others, located, held, members, covers, ⟨after, popped, stored⟩, _⟩ := found
    exact .inr ⟨position, root, others, after, located, held, members, covers,
      by rw [treePopAt, popped]; rfl, stored⟩

lemma before_eq {start : Nat} (positive : 0 < start) (small : start < 2 ^ key.bits) :
    before key start = start - 1 := by
  unfold before
  rw [show start + (2 ^ key.bits - 1) = start - 1 + 2 ^ key.bits by
    omega, Nat.add_mod_right, Nat.mod_eq_of_lt (by omega)]

lemma before_zero (key : KeyType) : before key 0 = 2 ^ key.bits - 1 := by
  have positive := Nat.two_pow_pos key.bits
  unfold before
  rw [Nat.zero_add, Nat.mod_eq_of_lt (by omega)]

section Split
variable {lo hi start : Nat}

lemma divideBranch_lo (mman : MMan) (lo hi start : Nat) :
    (mman.divideBranch key lo hi start).branch lo = lowerHalf key (mman.branch lo) start :=
  update_self _ _ _

lemma divideBranch_hi (mman : MMan) (start : Nat) (differ : hi ≠ lo) :
    (mman.divideBranch key lo hi start).branch hi = upperHalf key (mman.branch lo) start := by
  show update _ lo _ hi = _
  rw [update_of_ne differ, update_self]

lemma divideBranch_other (mman : MMan) (start : Nat) {other : Nat} (notLo : other ≠ lo)
    (notHi : other ≠ hi) :
    (mman.divideBranch key lo hi start).branch other = mman.branch other := by
  show update _ lo _ other = _
  rw [update_of_ne notLo, update_of_ne notHi]

/-- The two halves of a branch take its place in the list. -/
lemma Valid.divide (valid : Valid key mman) (mem : lo ∈ mman.mOrder) (fresh : hi ∉ mman.mOrder)
    (page : pageSize ∣ start) (above : (mman.branch lo).mbNode.aVmin < start)
    (below : start ≤ (mman.branch lo).mbNode.aVmax) :
    (mman.divideBranch key lo hi start).mOrder.Perm (hi :: mman.mOrder) ∧
      (mman.divideBranch key lo hi start).mOrder.Pairwise
        (Precedes (mman.divideBranch key lo hi start).branch) ∧
      ∀ branch ∈ (mman.divideBranch key lo hi start).mOrder,
        ((mman.divideBranch key lo hi start).branch branch).mbNode.PageAligned key := by
  obtain ⟨lowPage, highPage, _, small⟩ := valid.aligned lo mem
  have differ : hi ≠ lo := fun same => fresh (same ▸ mem)
  have last : before key start = start - 1 := before_eq (by omega) (by omega)
  have loNode : ((mman.divideBranch key lo hi start).branch lo).mbNode =
    ⟨(mman.branch lo).mbNode.aVmin, start - 1⟩ := by
    rw [divideBranch_lo, lowerHalf, last]
  have hiNode : ((mman.divideBranch key lo hi start).branch hi).mbNode =
    ⟨start, (mman.branch lo).mbNode.aVmax⟩ := by
    rw [divideBranch_hi mman start differ, upperHalf]
  have otherNode : ∀ other, other ≠ lo → other ≠ hi →
    (mman.divideBranch key lo hi start).branch other = mman.branch other :=
    fun _ => divideBranch_other mman start
  have notHi : ∀ other ∈ mman.mOrder, other ≠ hi := fun other found same => fresh (same ▸ found)
  have same : (mman.divideBranch key lo hi start).mOrder.Perm (hi :: mman.mOrder) :=
    insertAfter_perm hi mem
  refine ⟨same, ?_, ?_⟩
  · refine insertAfter_pairwise (valid.ascending.imp_of_mem ?_) mem ?_ ?_ ?_
    · intro first second firstMem secondMem less
      have less : (mman.branch first).mbNode.aVmax < (mman.branch second).mbNode.aVmin := less
      unfold Precedes
      by_cases firstLo : first = lo <;> by_cases secondLo : second = lo
      · subst firstLo secondLo
        omega
      · subst firstLo
        rw [loNode, otherNode second secondLo (notHi second secondMem)]
        show start - 1 < _
        omega
      · subst secondLo
        rw [loNode, otherNode first firstLo (notHi first firstMem)]
        exact less
      · rw [otherNode first firstLo (notHi first firstMem),
          otherNode second secondLo (notHi second secondMem)]
        exact less
    · unfold Precedes
      rw [loNode, hiNode]
      show start - 1 < start
      omega
    · intro other found less
      unfold Precedes at less ⊢
      rw [loNode] at less
      rw [hiNode]
      exact lt_trans less above
    · intro other found less
      unfold Precedes at less ⊢
      rw [loNode] at less
      have beyond : start - 1 < ((mman.divideBranch key lo hi start).branch other).mbNode.aVmin := less
      by_cases isLo : other = lo
      · rw [isLo, loNode] at beyond
        have less : start - 1 < (mman.branch lo).mbNode.aVmin := beyond
        omega
      rw [otherNode other isLo (notHi other found)] at beyond ⊢
      rw [hiNode]
      have nonempty := (valid.aligned other found).2.2.1
      rcases valid.disjoint lo mem other found (Ne.symm isLo) with behind | ahead
      · exact behind
      · omega
  · intro branch found
    rcases mem_cons.mp (same.mem_iff.mp found) with rfl | old
    · rw [hiNode]
      exact ⟨page, highPage, below, small⟩
    by_cases isLo : branch = lo
    · subst isLo
      rw [loNode]
      refine ⟨lowPage, ?_, ?_, ?_⟩
      · show pageSize ∣ start - 1 + 1
        rwa [Nat.sub_add_cancel (by omega)]
      · show (mman.branch branch).mbNode.aVmin ≤ start - 1
        omega
      · show start - 1 < _
        omega
    · rw [otherNode branch isLo (notHi branch old)]
      exact valid.aligned branch old

/-- Splitting at a page keeps a valid memory manager valid. -/
lemma Valid.split (valid : Valid key mman) (page : pageSize ∣ start) (fresh : hi ∉ mman.mOrder) :
    ∃ after, mman.splitBranchUnlocked key start hi = some after ∧ Valid key after ∧
      ((after = mman ∧ ∀ branch ∈ mman.mOrder, Covers mman.ranges start branch →
        (mman.branch branch).mbNode.aVmin = start) ∨
        ∃ lo ∈ mman.mOrder, (mman.branch lo).mbNode.aVmin < start ∧
        start ≤ (mman.branch lo).mbNode.aVmax ∧
          ∃ cells, after = { mman.divideBranch key lo hi start with mMap := cells }) := by
  unfold splitBranchUnlocked
  rcases valid.plocate start with ⟨missed, free⟩ | ⟨position, lo, others, cells, located, held,
    members, covers, popped, stored⟩
  · rw [missed]
    exact ⟨mman, rfl, valid, .inl ⟨rfl, fun branch mem covers => absurd covers (free branch mem)⟩⟩
  have mem : lo ∈ mman.mOrder := members.mem_iff.mpr mem_cons_self
  obtain ⟨reached, below⟩ := covers
  rw [located, Option.bind_some]
  dsimp only
  rw [held, Option.bind_some]
  by_cases begins : (mman.branch lo).mbNode.aVmin = start
  · rw [if_pos begins]
    refine ⟨mman, rfl, valid, .inl ⟨rfl, fun branch found covers => ?_⟩⟩
    rw [valid.separated.apart.eq_of_covers found mem covers ⟨reached, below⟩]
    exact begins
  · have above : (mman.branch lo).mbNode.aVmin < start := lt_of_le_of_ne reached begins
    obtain ⟨same, ascending, aligned⟩ := valid.divide mem fresh page above below
    have distinct := members.nodup_iff.mp valid.stored.nodup
    obtain ⟨loNew, _⟩ := nodup_cons.mp distinct
    have whole : (mman.divideBranch key lo hi start).mOrder.Perm (hi :: lo :: others) :=
      same.trans (members.cons hi)
    have disjoint := disjoint_of_ascending ascending
    have subset : ∀ branch ∈ lo :: others, branch ∈ (mman.divideBranch key lo hi start).mOrder :=
      fun branch found => whole.mem_iff.mpr (mem_cons_of_mem _ found)
    rw [if_neg begins, popped]
    let divided : MMan := { mman.divideBranch key lo hi start with mMap := cells }
    have dividedStored : Stored key divided.ranges divided.mMap others := by
      refine stored.congr fun node found => ?_
      show ((mman.divideBranch key lo hi start).branch node).mbNode = _
      have notLo : node ≠ lo := fun equal => loNew (equal ▸ found)
      have notHi : node ≠ hi := fun equal =>
        fresh (equal ▸ members.mem_iff.mpr (mem_cons_of_mem _ found))
      rw [divideBranch_other mman start notLo notHi]
      rfl
    obtain ⟨first, inserted, firstStored⟩ := treeInsert_spec dividedStored loNew
      (fun branch found => aligned branch (subset branch found))
      fun one oneFound other otherFound => disjoint one (subset one oneFound) other
        (subset other otherFound)
    have hiNew : hi ∉ lo :: others := fun found => fresh (members.mem_iff.mpr found)
    have firstStored' : Stored key { divided with mMap := first }.ranges
      { divided with mMap := first }.mMap (lo :: others) :=
      firstStored
    obtain ⟨last, insertedLast, lastStored⟩ := treeInsert_spec firstStored' hiNew
      (fun branch found => aligned branch (whole.mem_iff.mpr found))
      fun one oneFound other otherFound => disjoint one (whole.mem_iff.mpr oneFound) other
        (whole.mem_iff.mpr otherFound)
    refine ⟨{ divided with mMap := last }, ?_, ⟨lastStored.perm whole.symm, ascending, aligned⟩,
      .inr ⟨lo, mem, above, below, last, rfl⟩⟩
    show (divided.treeInsert key lo).bind _ = _
    rw [inserted]
    exact insertedLast

end Split

end KosKernel.Mman.MMan
