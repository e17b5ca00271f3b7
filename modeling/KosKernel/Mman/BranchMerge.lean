import KosKernel.Hybrid.ATreePaths
import KosKernel.Mman.BranchTree

namespace KosKernel.Mman.MMan
open LinkTree List Option Hybrid ATree
variable {key : KeyType} {mman : MMan} {start : Nat}

/-- The two branches pass the tests of `mman_merge_branch_unlocked`. -/
structure MergePair (key : KeyType) (mman : MMan) (start : Nat) (ploBranch : Position) (loBranch : Nat)
    (phiBranch : Position) (hiBranch : Nat) : Prop where
  loLocated : plocate key mman.ranges mman.mMap (before key start) = some (some ploBranch)
  loHeld : mman.mMap ploBranch.proot = some loBranch
  loMember : loBranch ∈ mman.mOrder
  loEnds : (mman.branch loBranch).mbNode.aVmax = before key start
  hiLocated : plocate key mman.ranges mman.mMap start = some (some phiBranch)
  hiHeld : mman.mMap phiBranch.proot = some hiBranch
  hiMember : hiBranch ∈ mman.mOrder
  hiCovers : Covers mman.ranges start hiBranch
  prot : (mman.branch loBranch).mbProt = (mman.branch hiBranch).mbProt
  notify : (mman.branch loBranch).mbNotify = (mman.branch hiBranch).mbNotify
  closure : (mman.branch loBranch).mbClosure = (mman.branch hiBranch).mbClosure
  offset : ((mman.branch loBranch).mbStart + (mman.branch loBranch).size key) % 2 ^ key.bits =
    (mman.branch hiBranch).mbStart

/-- The page is not the first one, and the search for the lower branch avoids the upper cell. -/
def MergeSafe (key : KeyType) (mman : MMan) (start : Nat) : Prop :=
  match mman.mergeCandidates key start with
  | some (some (_, _, phiBranch, _)) =>
    start ≠ 0 ∧ SearchAvoids key mman.ranges mman.mMap phiBranch.proot (callDepth key) .head
      (before key start) (semi0 key)
      (level0 key)
  | _ => True

instance (key : KeyType) (mman : MMan) (start : Nat) : Decidable (MergeSafe key mman start) := by
  unfold MergeSafe
  split <;> infer_instance

/-- The page is not the first one, and the tree without the upper branch has the lower branch in the
same cell. -/
def MergeFinds (key : KeyType) (mman : MMan) (start : Nat) : Prop :=
  match mman.mergeCandidates key start with
  | some (some (ploBranch, _, phiBranch, _)) =>
    start ≠ 0 ∧ ((mman.treePopAt key phiBranch).bind fun popped =>
      plocate key popped.ranges popped.mMap (before key start)) = some (some ploBranch)
  | _ => True

instance (key : KeyType) (mman : MMan) (start : Nat) : Decidable (MergeFinds key mman start) := by
  unfold MergeFinds
  split <;> infer_instance

/-- The tests end, and they find at most a pair of branches. -/
lemma Valid.mergeCandidates (valid : Valid key mman) (start : Nat) :
    mman.mergeCandidates key start = some none ∨ ∃ ploBranch loBranch phiBranch hiBranch,
      mman.mergeCandidates key start = some (some (ploBranch, loBranch, phiBranch, hiBranch)) ∧
        MergePair key mman start ploBranch loBranch phiBranch hiBranch := by
  unfold MMan.mergeCandidates
  rcases valid.plocate (before key start) with ⟨missed, _⟩ | ⟨plo, lo, _, _, loLocated, loHeld,
    loMembers, _, _, _⟩
  · rw [missed]
    exact .inl rfl
  rw [loLocated, bind_some]
  dsimp only
  rw [loHeld, bind_some]
  by_cases ends : (mman.branch lo).mbNode.aVmax = before key start
  case neg =>
    rw [if_pos ends]
    exact .inl rfl
  rw [if_neg (not_not.mpr ends)]
  rcases valid.plocate start with ⟨missed, _⟩ | ⟨phi, hi, _, _, hiLocated, hiHeld,
    hiMembers, hiCovers, _, _⟩
  · rw [missed]
    exact .inl rfl
  rw [hiLocated, bind_some]
  dsimp only
  rw [hiHeld, bind_some]
  split
  · exact .inl rfl
  next settings =>
    rw [if_pos rfl]
    split
    · exact .inl rfl
    next offset =>
      simp only [not_or, not_not] at settings offset
      exact .inr ⟨plo, lo, phi, hi, rfl, loLocated, loHeld, loMembers.mem_iff.mpr mem_cons_self,
        ends, hiLocated, hiHeld,
        hiMembers.mem_iff.mpr mem_cons_self, hiCovers, settings.1, settings.2.1, settings.2.2, offset⟩

section Extend
variable {lo hi : Nat}

lemma extendLower_lo (mman : MMan) (lo hi : Nat) : (mman.extendLower lo hi).branch lo =
    { mman.branch lo with mbNode := ⟨(mman.branch lo).mbNode.aVmin, (mman.branch hi).mbNode.aVmax⟩ } :=
  Function.update_self _ _ _

lemma extendLower_other (mman : MMan) (hi : Nat) {other : Nat} (differ : other ≠ lo) :
    (mman.extendLower lo hi).branch other = mman.branch other :=
  Function.update_of_ne differ _ _

/-- The lower branch takes the place of both in the list. -/
lemma Valid.extend (valid : Valid key mman) (loMember : lo ∈ mman.mOrder) (hiMember : hi ∈ mman.mOrder)
    (adjacent : (mman.branch lo).mbNode.aVmax + 1 = (mman.branch hi).mbNode.aVmin) :
    (mman.extendLower lo hi).mOrder.Pairwise (Precedes (mman.extendLower lo hi).branch) ∧
      ∀ branch ∈ (mman.extendLower lo hi).mOrder,
        ((mman.extendLower lo hi).branch branch).mbNode.PageAligned key := by
  obtain ⟨loPage, _, loNonempty, _⟩ := valid.aligned lo loMember
  obtain ⟨_, hiPage, hiNonempty, small⟩ := valid.aligned hi hiMember
  have subset : ∀ branch ∈ mman.mOrder.erase hi, branch ∈ mman.mOrder := fun _ => mem_of_mem_erase
  have notHi : ∀ branch ∈ mman.mOrder.erase hi, branch ≠ hi := by
    rintro branch mem rfl
    exact (valid.stored.nodup.not_mem_erase) mem
  have loNode : ((mman.extendLower lo hi).branch lo).mbNode = ⟨(mman.branch lo).mbNode.aVmin,
    (mman.branch hi).mbNode.aVmax⟩ := by
    rw [extendLower_lo]
  refine ⟨(valid.ascending.sublist erase_sublist).imp_of_mem ?_, ?_⟩
  · intro first second firstMem secondMem less
    have less : (mman.branch first).mbNode.aVmax < (mman.branch second).mbNode.aVmin := less
    unfold Precedes
    by_cases firstLo : first = lo <;> by_cases secondLo : second = lo
    · subst firstLo secondLo
      omega
    · subst firstLo
      rw [loNode, extendLower_other mman hi secondLo]
      show (mman.branch hi).mbNode.aVmax < _
      have nonempty := (valid.aligned second (subset second secondMem)).2.2.1
      rcases valid.disjoint hi hiMember second (subset second secondMem)
        (Ne.symm (notHi second secondMem)) with
        behind | ahead
      · exact behind
      · omega
    · subst secondLo
      rw [loNode, extendLower_other mman hi firstLo]
      exact less
    · rw [extendLower_other mman hi firstLo, extendLower_other mman hi secondLo]
      exact less
  · intro branch mem
    have old := subset branch mem
    by_cases isLo : branch = lo
    · subst isLo
      rw [loNode]
      refine ⟨loPage, hiPage, ?_, small⟩
      show (mman.branch branch).mbNode.aVmin ≤ (mman.branch hi).mbNode.aVmax
      omega
    · rw [extendLower_other mman hi isLo]
      exact valid.aligned branch old

end Extend

/-- Both branches of a pair touch each other at the page. -/
lemma MergePair.adjacent {plo phi : Position} {lo hi : Nat} (valid : Valid key mman)
    (pair : MergePair key mman start plo lo phi hi) (positive : start ≠ 0)
    (small : start < 2 ^ key.bits) :
    (mman.branch lo).mbNode.aVmax + 1 = start ∧ (mman.branch hi).mbNode.aVmin = start ∧ lo ≠ hi := by
  have ends := pair.loEnds
  rw [before_eq (by omega) small] at ends
  obtain ⟨reached, below⟩ : (mman.branch hi).mbNode.aVmin ≤ start ∧
    start ≤ (mman.branch hi).mbNode.aVmax := pair.hiCovers
  have differ : lo ≠ hi := by
    rintro rfl
    omega
  have nonempty := (valid.aligned lo pair.loMember).2.2.1
  rcases valid.disjoint lo pair.loMember hi pair.hiMember differ with behind | ahead
  · exact ⟨by omega, by omega, differ⟩
  · omega

/-- The upper branch of a pair leaves the tree. -/
lemma MergePair.popUpper {plo phi : Position} {lo hi : Nat} (valid : Valid key mman)
    (pair : MergePair key mman start plo lo phi hi) :
    ∃ others hiCells, mman.mOrder.Perm (hi :: others) ∧ Stored key mman.ranges hiCells others ∧
      popAt key mman.ranges (callDepth key) phi.proot phi.semi phi.level mman.mMap = some (hiCells, hi) ∧
        mman.treePopAt key phi = some { mman with mMap := hiCells } := by
  rcases valid.stored.plocate valid.separated start with ⟨missed, _⟩ |
    ⟨phi', hi', others, hiLocated, hiHeld, members, _, ⟨hiCells, hiPopped, hiStored⟩, _⟩
  · rw [pair.hiLocated] at missed
    cases missed
  obtain rfl : phi' = phi := some.inj (some.inj (hiLocated.symm.trans pair.hiLocated))
  obtain rfl : hi' = hi := some.inj (hiHeld.symm.trans pair.hiHeld)
  refine ⟨others, hiCells, members, hiStored, hiPopped, ?_⟩
  rw [treePopAt, hiPopped]
  rfl

/-- A search that avoids the upper cell finds the lower branch in its old cell. -/
lemma Valid.finds (valid : Valid key mman) (safe : MergeSafe key mman start) :
    MergeFinds key mman start := by
  rcases valid.mergeCandidates start with nothing | ⟨plo, lo, phi, hi, found, pair⟩
  · rw [MergeFinds, nothing]
    trivial
  rw [MergeSafe, found] at safe
  rw [MergeFinds, found]
  obtain ⟨_, hiCells, _, _, hiPopped, hiTook⟩ := pair.popUpper valid
  refine ⟨safe.1, ?_⟩
  rw [hiTook, bind_some, ← pair.loLocated]
  exact valid.stored.plocate_popped valid.separated pair.hiLocated hiPopped safe.2

/-- A merge that finds the lower branch again keeps a valid memory manager valid. -/
lemma Valid.merge (valid : Valid key mman) (small : start < 2 ^ key.bits)
    (finds : MergeFinds key mman start) :
    ∃ after, mman.mergeBranchUnlocked key start = some after ∧ Valid key after ∧
      ((mman.mergeCandidates key start = some none ∧ after = mman) ∨
        ∃ plo lo phi hi cells, mman.mergeCandidates key start = some (some (plo, lo, phi, hi)) ∧
          MergePair key mman start plo lo phi hi ∧ start ≠ 0 ∧
            after = { mman.extendLower lo hi with mMap := cells }) := by
  unfold mergeBranchUnlocked
  rcases valid.mergeCandidates start with nothing | ⟨plo, lo, phi, hi, found, pair⟩
  · rw [nothing]
    exact ⟨mman, rfl, valid, .inl ⟨rfl, rfl⟩⟩
  rw [MergeFinds, found] at finds
  obtain ⟨positive, again⟩ := finds
  obtain ⟨loEnds, hiBegins, differ⟩ := pair.adjacent valid positive small
  obtain ⟨ascending, aligned⟩ := valid.extend pair.loMember pair.hiMember (loEnds.trans hiBegins.symm)
  rw [found, bind_some]
  dsimp only
  -- The upper branch leaves the tree first.
  obtain ⟨others, hiCells, members, hiStored, _, hiTook⟩ := pair.popUpper valid
  have otherMem : ∀ branch ∈ others, branch ∈ mman.mOrder :=
    fun branch mem => members.mem_iff.mpr (mem_cons_of_mem _ mem)
  -- The lower branch is still where it was found.
  have separated : Separated mman.ranges others := valid.separated.mono otherMem
  rw [hiTook, bind_some] at again
  have kept : ATree.plocate key mman.ranges hiCells (before key start) = some (some plo) := again
  rcases hiStored.plocate separated (before key start) with ⟨missed, _⟩ |
    ⟨plo', lo', rest, loLocated, _, restMembers, loCovers, ⟨loCells, loPopped, loStored⟩, _⟩
  · rw [kept] at missed
    cases missed
  obtain rfl : plo' = plo := some.inj (some.inj (loLocated.symm.trans kept))
  have loMember' : lo' ∈ mman.mOrder := otherMem lo' (restMembers.mem_iff.mpr mem_cons_self)
  have loCoversLast : Covers mman.ranges (before key start) lo := by
    have nonempty := (valid.aligned lo pair.loMember).2.2.1
    exact ⟨pair.loEnds ▸ nonempty, le_of_eq pair.loEnds.symm⟩
  obtain rfl : lo' = lo := valid.separated.apart.eq_of_covers loMember' pair.loMember
    loCovers loCoversLast
  have loTook : MMan.treePopAt key { mman with mMap := hiCells } plo' =
    some { mman with mMap := loCells } := by
    exact congrArg (Option.map _) loPopped
  -- The extended branch is inserted again.
  have whole : (mman.mOrder.erase hi).Perm (lo' :: rest) := by
    have erased := members.erase hi
    rw [erase_cons_head] at erased
    exact erased.trans restMembers
  have fresh : lo' ∉ rest := (nodup_cons.mp (whole.nodup_iff.mp (valid.stored.nodup.erase hi))).1
  let extended : MMan := { mman.extendLower lo' hi with mMap := loCells }
  have extendedStored : Stored key extended.ranges extended.mMap rest := by
    refine loStored.congr fun node mem => ?_
    show ((mman.extendLower lo' hi).branch node).mbNode = _
    have other : node ≠ lo' := fun equal => fresh (equal ▸ mem)
    rw [extendLower_other mman hi other]
    rfl
  obtain ⟨last, inserted, lastStored⟩ := treeInsert_spec extendedStored fresh
    (fun branch mem => aligned branch (whole.mem_iff.mpr mem))
    fun one oneMember other otherMem => disjoint_of_ascending ascending one
      (whole.mem_iff.mpr oneMember) other
      (whole.mem_iff.mpr otherMem)
  refine ⟨{ extended with mMap := last }, ?_, ⟨lastStored.perm whole.symm, ascending, aligned⟩,
    .inr ⟨plo', lo', phi, hi, last, rfl, pair, positive, rfl⟩⟩
  rw [hiTook, bind_some, loTook]
  exact inserted

end KosKernel.Mman.MMan
