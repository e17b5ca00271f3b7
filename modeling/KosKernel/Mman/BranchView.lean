import KosKernel.Mman.BranchMerge

namespace KosKernel.Mman.MMan
open LinkTree List Option Hybrid ATree
variable {key : KeyType} {mman : MMan} {start : Nat}

/-- What is mapped at an address. -/
structure Mapped where
  region : Nat
  offset : Nat
  prot : BitVec 32
  notify : Nat
  closure : Nat
  deriving DecidableEq

/-- What the branch maps at the address. -/
def mappedBy (key : KeyType) (mman : MMan) (address branch : Nat) : Mapped :=
  let found := mman.branch branch
  ⟨found.mbRegion, (found.mbStart + (address - found.mbNode.aVmin)) % 2 ^ key.bits, found.mbProt,
    found.mbNotify, found.mbClosure⟩

/-- What the lookup of the address finds. There is no result if the search does not end. -/
def mappedAt (key : KeyType) (mman : MMan) (address : Nat) : Option (Option Mapped) :=
  (locate key mman.ranges mman.mMap address).map fun found => found.map (mman.mappedBy key address)

/-- Each region counts the branches that use it and the references from outside. -/
def Counted (mman : MMan) (outside : Nat → Nat) : Prop :=
  ∀ region, (mman.mrRefcnt region).toNat =
    mman.mOrder.countP (fun branch => (mman.branch branch).mbRegion = region) + outside region

/-- The call ends, each address keeps its meaning, and the counts stay right. -/
def MergeKeeps (key : KeyType) (mman : MMan) (outside : Nat → Nat) (start : Nat) : Prop :=
  ∃ after, mman.mergeBranchUnlocked key start = some after ∧
    (∀ address, after.mappedAt key address = mman.mappedAt key address) ∧
    after.Counted outside

/-- If two branches are merged, they have the same region. -/
def SameRegion (key : KeyType) (mman : MMan) (start : Nat) : Prop :=
  match mman.mergeCandidates key start with
  | some (some (_, loBranch, _, hiBranch)) =>
    (mman.branch loBranch).mbRegion = (mman.branch hiBranch).mbRegion
  | _ => True

instance (key : KeyType) (mman : MMan) (start : Nat) : Decidable (SameRegion key mman start) := by
  unfold SameRegion
  exact match mman.mergeCandidates key start with
    | some (some (_, _, _, _)) => Nat.decEq _ _
    | some none | none => isTrue trivial

/-- Two valid memory managers mean the same at an address if the branches that cover it do. -/
lemma mappedAt_eq {after : MMan} (valid : Valid key mman) (afterValid : Valid key after) {address : Nat}
    (covered : ∀ branch ∈ mman.mOrder, Covers mman.ranges address branch → ∃ other ∈ after.mOrder,
      Covers after.ranges address other ∧ after.mappedBy key address other =
        mman.mappedBy key address branch)
    (free : ∀ other ∈ after.mOrder, Covers after.ranges address other → ∃ branch ∈ mman.mOrder,
      Covers mman.ranges address branch) : after.mappedAt key address = mman.mappedAt key address := by
  obtain ⟨found, located, exactly⟩ := valid.stored.locate valid.separated address
  obtain ⟨afterFound, afterLocated, afterExactly⟩ :=
    afterValid.stored.locate afterValid.separated address
  rw [mappedAt, mappedAt, located, afterLocated]
  cases found with
  | some branch =>
    obtain ⟨mem, covers⟩ := (exactly branch).mp rfl
    obtain ⟨other, otherMem, otherCovers, same⟩ := covered branch mem covers
    rw [(afterExactly other).mpr ⟨otherMem, otherCovers⟩]
    simp [same]
  | none =>
    cases afterFound with
    | none => rfl
    | some other =>
      obtain ⟨otherMem, otherCovers⟩ := (afterExactly other).mp rfl
      obtain ⟨branch, mem, covers⟩ := free other otherMem otherCovers
      cases (exactly branch).mpr ⟨mem, covers⟩

section Pair
variable {plo phi : Position} {lo hi : Nat} {outside : Nat → Nat}

/-- The size of a branch is the distance to the address behind it. -/
lemma size_of_end (branch : MBranch) (nonempty : branch.mbNode.aVmin ≤ branch.mbNode.aVmax)
    (below : branch.mbNode.aVmax + 1 < 2 ^ key.bits) :
      branch.size key = branch.mbNode.aVmax + 1 - branch.mbNode.aVmin := by
  unfold MBranch.size
  rw [show branch.mbNode.aVmax + 2 ^ key.bits - branch.mbNode.aVmin + 1 =
    branch.mbNode.aVmax + 1 - branch.mbNode.aVmin + 2 ^ key.bits by
      omega, Nat.add_mod_right, Nat.mod_eq_of_lt (by omega)]

/-- The extended branch maps what both branches of one region mapped. -/
lemma MergePair.mappedBy_lo (valid : Valid key mman) (pair : MergePair key mman start plo lo phi hi)
    (positive : start ≠ 0)
    (small : start < 2 ^ key.bits) (same : (mman.branch lo).mbRegion = (mman.branch hi).mbRegion)
    {address : Nat} (covers : Covers mman.ranges address lo ∨ Covers mman.ranges address hi) :
    (mman.extendLower lo hi).mappedBy key address lo =
      mman.mappedBy key address (if Covers mman.ranges address lo then lo else hi) := by
  obtain ⟨loEnds, hiBegins, _⟩ := pair.adjacent valid positive small
  have nonempty := (valid.aligned lo pair.loMember).2.2.1
  unfold mappedBy
  rw [extendLower_lo]
  split
  · rfl
  next notLo =>
    obtain ⟨above, _⟩ : (mman.branch hi).mbNode.aVmin ≤ address ∧
      address ≤ (mman.branch hi).mbNode.aVmax := covers.resolve_left notLo
    have offset := pair.offset
    rw [size_of_end (mman.branch lo) nonempty (by omega)] at offset
    have distance : (mman.branch lo).mbStart + (address - (mman.branch lo).mbNode.aVmin) =
        (mman.branch lo).mbStart + ((mman.branch lo).mbNode.aVmax + 1 - (mman.branch lo).mbNode.aVmin) +
          (address - (mman.branch hi).mbNode.aVmin) := by omega
    dsimp only
    rw [same, pair.prot, pair.notify, pair.closure, ← offset, Nat.mod_add_mod, distance]

/-- The list without the upper branch has one branch of its region less. -/
lemma countP_extendLower (lo : Nat) (mem : hi ∈ mman.mOrder) (region : Nat) :
    (mman.extendLower lo hi).mOrder.countP
      (fun branch => ((mman.extendLower lo hi).branch branch).mbRegion = region) +
        (if (mman.branch hi).mbRegion = region then 1 else 0) =
      mman.mOrder.countP fun branch => (mman.branch branch).mbRegion = region := by
  have sameRegion : ∀ branch, ((mman.extendLower lo hi).branch branch).mbRegion =
    (mman.branch branch).mbRegion := by
    intro branch
    by_cases isLo : branch = lo
    · rw [isLo, extendLower_lo]
    · rw [extendLower_other mman hi isLo]
  simp only [sameRegion]
  rw [(perm_cons_erase mem).countP_eq, countP_cons]
  simp only [decide_eq_true_eq]
  rfl

/-- If the counts stay right, the merged branches have the same region. -/
lemma same_of_counted (mem : hi ∈ mman.mOrder) (counted : mman.Counted outside)
    (after : (mman.extendLower lo hi).Counted outside) :
    (mman.branch lo).mbRegion = (mman.branch hi).mbRegion := by
  by_contra differ
  have old := counted (mman.branch hi).mbRegion
  have new := after (mman.branch hi).mbRegion
  have less := countP_extendLower lo mem (mman.branch hi).mbRegion
  rw [if_pos rfl] at less
  have kept : (mman.extendLower lo hi).mrRefcnt (mman.branch hi).mbRegion =
    mman.mrRefcnt (mman.branch hi).mbRegion :=
    Function.update_of_ne (Ne.symm differ) _ _
  rw [kept] at new
  omega

/-- The counts stay right if the merged branches have the same region. -/
lemma Counted.extendLower (mem : hi ∈ mman.mOrder) (counted : mman.Counted outside)
    (same : (mman.branch lo).mbRegion = (mman.branch hi).mbRegion) :
      (mman.extendLower lo hi).Counted outside := by
  intro region
  have old := counted region
  have less := countP_extendLower lo mem region
  by_cases used : (mman.branch hi).mbRegion = region
  · rw [if_pos used] at less
    have lowered : (mman.extendLower lo hi).mrRefcnt region = mman.mrRefcnt region - 1 := by
      rw [← used, ← same]
      exact Function.update_self _ _ _
    have positive : (1 : UInt32).toNat ≤ (mman.mrRefcnt region).toNat := by
      rw [UInt32.toNat_one]
      omega
    rw [lowered, UInt32.toNat_sub_of_le _ _ (UInt32.le_iff_toNat_le.mpr positive), UInt32.toNat_one]
    omega
  · rw [if_neg used] at less
    have kept : (mman.extendLower lo hi).mrRefcnt region = mman.mrRefcnt region :=
      Function.update_of_ne (fun equal => used (equal.trans same).symm) _ _
    rw [kept]
    omega

end Pair

/-- A merge that returns leaves the memory manager as it was or with the extended branch. -/
lemma mergeBranch_result {after : MMan} (done : mman.mergeBranchUnlocked key start = some after) :
    (mman.mergeCandidates key start = some none ∧ after = mman) ∨
      ∃ plo lo phi hi cells, mman.mergeCandidates key start = some (some (plo, lo, phi, hi)) ∧
        after = { mman.extendLower lo hi with mMap := cells } := by
  obtain ⟨candidates, found, done⟩ := bind_eq_some_iff.mp done
  cases candidates with
  | none => exact .inl ⟨found, (some.inj done).symm⟩
  | some pair =>
    obtain ⟨plo, lo, phi, hi⟩ := pair
    obtain ⟨hiPopped, hiDone, done⟩ := bind_eq_some_iff.mp done
    obtain ⟨bothPopped, bothDone, done⟩ := bind_eq_some_iff.mp done
    obtain ⟨hiResult, _, rfl⟩ := map_eq_some_iff.mp hiDone
    obtain ⟨bothResult, _, rfl⟩ := map_eq_some_iff.mp bothDone
    obtain ⟨cells, _, rfl⟩ := map_eq_some_iff.mp done
    exact .inr ⟨plo, lo, phi, hi, cells, found, rfl⟩

/-- Two adjacent branches of the regions with offsets that line up. -/
def neighbours (loRegion hiRegion : Nat) : MMan :=
  { mMap := fun
      | .head => some 10
      | .low 10 => some 20
      | _ => none
    mOrder := [10, 20]
    branch := fun branch =>
      if branch = 10 then ⟨⟨0x1000, 0x1fff⟩, 3, 0, loRegion, 0, 0⟩ else ⟨⟨0x2000, 0x2fff⟩, 3,
        0x1000, hiRegion, 0, 0⟩
    mrRefcnt := fun region => .ofNat ([loRegion, hiRegion].count region + 1) }

lemma neighbours_valid (loRegion hiRegion : Nat) : Valid uintptr32 (neighbours loRegion hiRegion) := by
  refine ⟨⟨.node (.node .leaf 20 .leaf) 10 .leaf,
    ⟨⟨rfl, ⟨rfl, rfl, rfl⟩, rfl⟩, ?_, by decide, outside_head _⟩, ?_⟩, ?_, ?_⟩
  · simp [Placed, Inside, uintptr32, ranges, neighbours]
  · exact List.Perm.swap 10 20 []
  · simp [neighbours, Precedes]
  · simp [neighbours, KeyRange.PageAligned, uintptr32, pageSize]

lemma neighbours_counted : (neighbours 7 7).Counted fun _ => 1 := by
  intro region
  simp only [neighbours, count_cons, countP_cons, UInt32.toNat_ofNat']
  by_cases here : 7 = region <;> simp [here]

end KosKernel.Mman.MMan
