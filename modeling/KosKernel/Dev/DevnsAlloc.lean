import KosKernel.Dev.DevnsTable

namespace KosKernel.Dev.Devns
open Hybrid LinkTree LinkList Function List Option ATree
variable {self : Devns} {slots : Slots} {leaves front back : List Nat} {leaf id : Nat}

/-- The expected slots after an allocation. -/
def slotsAlloc (slots : Slots) (id : Nat) : Slots :=
  if (slots id).isSome then slots else update slots id (some .null)

/-- The pop at a lookup result keeps the tree in order. -/
def SafeAt (dTree : Cells) : Option (Option Position) → Prop
  | some (some position) => PopSafe dTree position.proot
  | _ => True

instance (dTree : Cells) (found : Option (Option Position)) : Decidable (SafeAt dTree found) := by
  unfold SafeAt
  split <;> infer_instance

/-- The pop of the leaf that follows an extended leaf keeps the tree in order. -/
def MergeSafe (self : Devns) (id : Nat) (presult : Position) : Prop :=
  match self.popAbove presult with
  | some (extended, _) =>
    SafeAt extended.dTree (plocate majorT extended.range extended.dTree ((id + 1) % 2 ^ 16))
  | none => True

instance (self : Devns) (id : Nat) (presult : Position) : Decidable (self.MergeSafe id presult) := by
  unfold MergeSafe
  split <;> infer_instance

/-- Every pop of an allocation keeps the tree in order. -/
def AllocSafe (self : Devns) (id : Nat) : Prop :=
  match locate majorT self.range self.dTree id with
  | some none =>
    match self.plocateBelow id with
    | some (some presult) => PopSafe self.dTree presult.proot ∧ self.MergeSafe id presult
    | _ => SafeAt self.dTree (self.plocateAbove id)
  | _ => True

instance (self : Devns) (id : Nat) : Decidable (self.AllocSafe id) := by
  unfold AllocSafe
  split
  · split <;> infer_instance
  · infer_instance

/-- An operation left a sound table in which the leaf covers the major. -/
def Gives (after : Devns) (slots : Slots) (id leaf : Nat) : Prop :=
  ∃ leaves, Sound after slots leaves ∧ leaf ∈ leaves ∧ Covers after.range id leaf

variable {range : Ranges} {dTree : Cells} {next : Nat} {dSort : Links Unit} {rest : List Nat}
  {presult : Position}

/-- The slot of another major does not change. -/
lemma leafSound_update {maBvec : Nat → List MinorTree} {tree : Option MinorTree}
    (sound : LeafSound range maBvec slots leaf) (free : ¬ Covers range id leaf) :
    LeafSound range maBvec (update slots id tree) leaf := by
  apply sound.congr rfl rfl
  intro other covers
  apply update_of_ne
  exact fun same => free (same ▸ covers)

/-- The leaf right below a free major ends there. -/
lemma ends_below (free : ¬ Covers self.range id leaf) (positive : id ≠ 0)
    (covers : Covers self.range (id - 1) leaf) : (self.range leaf).aVmax + 1 = id := by
  unfold Covers at free covers
  omega

/-- The leaf right above a free major starts there. -/
lemma starts_above (free : ¬ Covers self.range id leaf)
    (covers : Covers self.range (id + 1) leaf) : (self.range leaf).aVmin = id + 1 := by
  unfold Covers at free covers
  omega

/-- A leaf that takes the major above it. -/
abbrev grownRange (self : Devns) (leaf : Nat) : KeyRange :=
  ⟨(self.range leaf).aVmin, (self.range leaf).aVmax + 1⟩

/-- The vector of a leaf that takes the major above it. -/
abbrev grownBvec (self : Devns) (leaf : Nat) : List MinorTree :=
  (self.maBvec leaf).take (majorCnt (self.range leaf)) ++ [.null]

/-- The extended vector keeps the slots of the leaf and adds an empty one. -/
lemma extend_vector (sound : LeafSound self.range self.maBvec slots leaf)
    (ends : (self.range leaf).aVmax + 1 = id) :
    (self.grownBvec leaf).length = majorCnt (self.grownRange leaf) ∧
      ∀ wanted, (self.range leaf).aVmin ≤ wanted → wanted ≤ (self.range leaf).aVmax + 1 →
        (self.grownBvec leaf)[wanted - (self.range leaf).aVmin]? =
          update slots id (some BTree.null) wanted := by
  have order := sound.order
  have length := sound.length
  rw [grownBvec, take_of_length_le (le_of_eq length)]
  unfold majorCnt at length ⊢
  constructor
  · rw [length_append, length_singleton]
    simp only
    omega
  · intro wanted low high
    by_cases same : wanted = id
    · subst same
      rw [update_self, List.getElem?_append_right (by omega), length,
        show wanted - (self.range leaf).aVmin - ((self.range leaf).aVmax - (self.range leaf).aVmin +
          1) = 0 by omega]
      rfl
    · rw [update_of_ne same, List.getElem?_append_left (by omega)]
      exact sound.slot wanted ⟨low, by omega⟩

section
variable (sound : Sound self slots (front ++ leaf :: back))
include sound

/-- The leaf below a free major takes it into its range. -/
lemma extend_fits (small : id ≤ majorMask) (ends : (self.range leaf).aVmax + 1 = id)
    (apart : ∀ other ∈ front ++ back, ¬ Covers self.range (id + 1) other) :
    Fits self.range (update slots id (some .null)) front back
      (self.grownRange leaf) (self.grownBvec leaf) := by
  obtain ⟨_, _, leafs, below, above⟩ := sound.without
  have leafSound := sound.leaf leaf (by simp)
  have order := leafSound.order
  obtain ⟨length, slot⟩ := extend_vector leafSound ends
  refine ⟨by simp only; omega, by simp only; omega, below, ?_, length, slot⟩
  intro other mem
  have gap := above other mem
  have otherOrder := (leafs other (by simp [mem])).order
  have notNext := apart other (by simp [mem])
  unfold Covers at notNext
  simp only
  omega

/-- The new slots are covered by the extended leaf or by the others. -/
lemma extend_covered (keys : KeyRange) (tree : Option MinorTree)
    (wider : ∀ wanted, Covers self.range wanted leaf → keys.aVmin ≤ wanted ∧ wanted ≤ keys.aVmax)
    (new : keys.aVmin ≤ id ∧ id ≤ keys.aVmax) (wanted : Nat)
    (has : (update slots id tree wanted).isSome) :
    (keys.aVmin ≤ wanted ∧ wanted ≤ keys.aVmax) ∨ ∃ other ∈ front ++ back,
      Covers self.range wanted other := by
  by_cases same : wanted = id
  · exact .inl (same ▸ new)
  rw [update_of_ne same] at has
  obtain ⟨other, mem, covers⟩ := sound.covered wanted has
  rw [mem_append, mem_cons] at mem
  rcases mem with mem | rfl | mem
  · exact .inr ⟨other, by simp [mem], covers⟩
  · exact .inl (wider wanted covers)
  · exact .inr ⟨other, by simp [mem], covers⟩

/-- The other leaves are sound for the slots after the allocation. -/
lemma Sound.others_update (free : slots id = none) (tree : Option MinorTree) :
    ∀ other ∈ front ++ back, LeafSound self.range self.maBvec (update slots id tree) other := by
  have uncovered := sound.not_covers free
  obtain ⟨_, _, leafs, _, _⟩ := sound.without
  intro other mem
  apply leafSound_update (leafs other mem)
  apply uncovered
  grind

/-- Without a leaf that follows, the extended leaf returns to the tree. -/
lemma extend_alone (free : slots id = none) (small : id ≤ majorMask)
    (ends : (self.range leaf).aVmax + 1 = id)
    (apart : ∀ other ∈ front ++ back, ¬ Covers self.range (id + 1) other)
    (stored : ATree.Stored majorT self.range dTree (front ++ back)) :
    ∃ after, (setLeaf { self with dTree } leaf (self.grownRange leaf)
      (self.grownBvec leaf)).insertLeaf leaf = some after ∧
      Gives after (update slots id (some .null)) id leaf := by
  obtain ⟨new, ascending, _, _, _⟩ := sound.without
  have order := (sound.leaf leaf (by simp)).order
  have fits := extend_fits sound small ends apart
  have covered := extend_covered sound (self.grownRange leaf) (some .null)
    (fun wanted covers => ⟨covers.1, Nat.le_succ_of_le covers.2⟩)
    (show (self.range leaf).aVmin ≤ id ∧ id ≤ (self.range leaf).aVmax + 1 by omega)
  obtain ⟨last, inserted, whole⟩ := setLeaf_insertLeaf { self with dTree } fits stored ascending new
    (sound.others_update free _) covered
  refine ⟨_, inserted, _, whole self.dSort sound.chain, by simp, ?_⟩
  unfold Covers
  simp only [setLeaf_range]
  omega

end

/-- Only the first leaf above a popped leaf can start at a given major. -/
lemma next_is_first (ascending : Ascending range (front ++ leaf :: back))
    (order : ∀ other ∈ front ++ leaf :: back, (range other).aVmin ≤ (range other).aVmax)
    (mem : next ∈ front ++ back)
    (starts : (range next).aVmin = (range leaf).aVmax + 2) : ∃ rest, back = next :: rest := by
  obtain ⟨joined, below, above⟩ := ascending_around.mp ascending
  have leafOrder := order leaf (by simp)
  rcases mem_append.mp mem with mem | mem
  · have := below next mem
    have := order next (by simp [mem])
    omega
  cases back with
  | nil => exact absurd mem (by simp)
  | cons first rest =>
    rcases mem_cons.mp mem with rfl | later
    · exact ⟨rest, rfl⟩
    · have gap := above first (by simp)
      have firstOrder := order first (by simp)
      have := (pairwise_cons.mp (pairwise_append.mp joined).2.1).1 next later
      omega

/-- The vector of two joined leaves holds the slots of both. -/
lemma merge_slot {lower upper : List MinorTree} {low middle high : Nat} (order : low ≤ middle)
    (lowerLength : lower.length = middle - low + 1) (lowerSlot : ∀ id, low ≤ id → id ≤ middle →
      lower[id - low]? = slots id)
    (upperSlot : ∀ id, middle + 1 ≤ id → id ≤ high → upper[id - (middle + 1)]? = slots id) :
    ∀ id, low ≤ id → id ≤ high → (lower ++ upper)[id - low]? = slots id := by
  intro id first last
  by_cases small : id ≤ middle
  · rw [List.getElem?_append_left (by omega)]
    exact lowerSlot id first small
  · rw [List.getElem?_append_right (by omega), lowerLength, show id - low - (middle - low + 1) =
      id - (middle + 1) by omega]
    exact upperSlot id (by omega) last

/-- The leaf behind a leaf leaves the sorted list. -/
lemma chain_remove_next (chain : Chain dSort (.head ()) (front ++ leaf :: next :: rest))
    (distinct : (front ++ leaf :: next :: rest).Nodup) :
    Chain (dSort.connect (.next leaf) (dSort.target (.next next))) (.head ())
      (front ++ leaf :: rest) := by
  obtain ⟨_, _, _, _, self, _⟩ := chain_append.mp chain
  rw [append_cons] at chain distinct ⊢
  rw [← self]
  exact chain_remove chain (away_head _ _) distinct

/-- The extended leaf joins the leaf that follows and returns to the tree. -/
lemma extend_merge (sound : Sound self slots (front ++ leaf :: next :: rest)) (free : slots id = none)
    (ends : (self.range leaf).aVmax + 1 = id) (starts : (self.range next).aVmin = id + 1)
    {extended : Devns}
    (sameRange : extended.range = (setLeaf self leaf (self.grownRange leaf) (self.grownBvec leaf)).range)
    (sameBvec : extended.maBvec = (setLeaf self leaf (self.grownRange leaf)
      (self.grownBvec leaf)).maBvec)
    (sameSort : extended.dSort = self.dSort) {pnext : Position}
    (popped : pop majorT extended.range extended.dTree pnext.proot = some (dTree, next))
    (stored : ATree.Stored majorT extended.range dTree (front ++ rest)) :
    ∃ merged after, extended.mergeNext leaf pnext = some merged ∧ merged.insertLeaf leaf = some after ∧
      Gives after (update slots id (some .null)) id leaf := by
  obtain ⟨new, ascending, leafs, below, above⟩ := sound.without
  have differs : ∀ other ∈ front ++ next :: rest, other ≠ leaf := fun other mem same => new (same ▸ mem)
  have subset : ∀ other ∈ front ++ rest, other ∈ front ++ next :: rest := by
    intro other mem
    grind
  have rangeLeaf : extended.range leaf = self.grownRange leaf := by
    rw [sameRange, setLeaf_range]
  have bvecLeaf : extended.maBvec leaf = self.grownBvec leaf := by
    rw [sameBvec, setLeaf_bvec]
  have rangeOther : ∀ other ∈ front ++ next :: rest, extended.range other = self.range other := by
    intro other mem
    rw [sameRange, setLeaf_range_of_ne (differs other mem)]
  have bvecOther : ∀ other ∈ front ++ next :: rest, extended.maBvec other = self.maBvec other := by
    intro other mem
    rw [sameBvec, setLeaf_bvec_of_ne (differs other mem)]
  have nextMem : next ∈ front ++ next :: rest := by simp
  have leafSound := sound.leaf leaf (by simp)
  have nextSound := leafs next nextMem
  have others := sound.others_update free (some .null)
  have leafOrder := leafSound.order
  have nextOrder := nextSound.order
  obtain ⟨length, slot⟩ := extend_vector leafSound ends
  rw [← bvecLeaf] at length slot
  have fits : Fits extended.range (update slots id (some .null)) front rest
      ⟨(extended.range leaf).aVmin, (extended.range next).aVmax⟩
      ((extended.maBvec leaf).take (majorCnt (extended.range leaf)) ++
        (extended.maBvec next).take (majorCnt (extended.range next))) := by
    rw [rangeOther next nextMem, bvecOther next nextMem, rangeLeaf,
      take_of_length_le (le_of_eq length), take_of_length_le (le_of_eq nextSound.length)]
    refine ⟨by simp only; omega, nextSound.bounded, ?_, ?_, ?_, ?_⟩
    · intro other mem
      rw [rangeOther other (by simp [mem])]
      exact below other mem
    · intro other mem
      rw [rangeOther other (by simp [mem])]
      exact (pairwise_cons.mp (pairwise_append.mp ascending).2.1).1 other mem
    · rw [length_append, length, nextSound.length]
      unfold majorCnt
      simp only
      omega
    · have middle : (extended.maBvec leaf).length = id - (self.range leaf).aVmin + 1 := by
        rw [length]
        unfold majorCnt
        simp only
        omega
      apply merge_slot (by omega) middle
      · intro wanted low high
        exact slot wanted low (by omega)
      · intro wanted low high
        have held := (others next nextMem).slot wanted ⟨by omega, high⟩
        rwa [starts] at held
  obtain ⟨last, inserted, whole⟩ := setLeaf_insertLeaf
    { extended with dTree, dSort := extended.dSort.connect (.next leaf) (extended.dSort.target
      (.next next)) }
    fits stored
    ((ascending_around.mp ascending).1.congr fun other mem => rangeOther other (subset other mem))
    (fun mem => new (subset leaf mem))
    (fun other mem => (others other (subset other mem)).congr (rangeOther other (subset other mem))
      (bvecOther other (subset other mem)) fun _ _ => rfl)
    (by
      intro wanted has
      rw [rangeLeaf, rangeOther next nextMem]
      have covered := extend_covered sound ⟨(self.range leaf).aVmin, (self.range next).aVmax⟩
        (some .null)
        (fun other covers => ⟨covers.1, by have := covers.2; simp only; omega⟩)
        (show (self.range leaf).aVmin ≤ id ∧ id ≤ (self.range next).aVmax by omega) wanted has
      rcases covered with inside | ⟨other, mem, covers⟩
      · exact .inl inside
      by_cases same : other = next
      · subst same
        unfold Covers at covers
        exact .inl ⟨by simp only; omega, covers.2⟩
      have outer : other ∈ front ++ rest := by
        grind
      refine .inr ⟨other, outer, ?_⟩
      unfold Covers
      rw [rangeOther other mem]
      exact covers)
  refine ⟨_, _, ?_, inserted, _, whole _ (sameSort ▸ chain_remove_next sound.chain sound.nodup),
    by simp, ?_⟩
  · rw [mergeNext, popped]
    rfl
  · unfold Covers
    simp only [setLeaf_range]
    rw [rangeLeaf, rangeOther next nextMem]
    simp only
    omega

/-- The leaf below a free major takes it, and joins the leaf above when there is one. -/
lemma extendAbove_sound (sound : Sound self slots leaves) (free : slots id = none)
    (small : id ≤ majorMask)
    (positive : id ≠ 0) (located : plocate majorT self.range self.dTree (id - 1) = some (some presult))
    (safe : PopSafe self.dTree presult.proot) (mergeSafe : self.MergeSafe id presult) :
    ∃ after leaf, self.extendAbove id presult = some (after, leaf) ∧
    Gives after (update slots id (some .null)) id leaf := by
  have uncovered := sound.not_covers free
  obtain ⟨leaf, front, back, _, rfl, covers, pops⟩ := sound.located located
  obtain ⟨dTree, popped, stored⟩ := pops safe
  have ends := ends_below (uncovered leaf (by simp)) positive covers
  obtain ⟨new, ascending, leafs, below, above⟩ := sound.without
  have differs : ∀ other ∈ front ++ back, other ≠ leaf := fun other mem same => new (same ▸ mem)
  have extend : self.popAbove presult = some (setLeaf { self with dTree } leaf
      (self.grownRange leaf) (self.grownBvec leaf), leaf) := by
    rw [popAbove, popped]
    rfl
  generalize state : setLeaf { self with dTree } leaf (self.grownRange leaf) (self.grownBvec leaf) =
    extended at extend
  have rangeOther : ∀ other ∈ front ++ back, extended.range other = self.range other := by
    intro other mem
    rw [← state]
    exact update_of_ne (differs other mem) _ _
  have remaining : ATree.Stored majorT extended.range extended.dTree (front ++ back) := by
    have kept := stored.congr rangeOther
    rw [← state] at kept ⊢
    exact kept
  have separated : Separated extended.range (front ++ back) := by
    apply (ascending.congr rangeOther).separated
    intro other mem
    rw [rangeOther other mem]
    exact (leafs other mem).order
  have fitsWord : (id + 1) % 2 ^ 16 = id + 1 :=
    Nat.mod_eq_of_lt (lt_of_le_of_lt (Nat.succ_le_succ small) (by decide))
  rw [extendAbove, extend, bind_some]
  unfold MergeSafe at mergeSafe
  rw [extend] at mergeSafe
  dsimp only at mergeSafe ⊢
  rw [fitsWord] at mergeSafe ⊢
  rcases remaining.plocate separated (id + 1) with
    ⟨missed, alone⟩ | ⟨pnext, next, others, nextFound, _, members, nextCovers, _, nextPops⟩
  · rw [missed]
    obtain ⟨after, inserted, gives⟩ := extend_alone sound free small ends
      (fun other mem otherCovers => alone other mem (by
        unfold Covers
        rwa [rangeOther other mem])) stored
    rw [state] at inserted
    exact ⟨after, leaf, by rw [inserted]; rfl, gives⟩
  · rw [nextFound] at mergeSafe ⊢
    obtain ⟨nextTree, nextPopped, nextStored⟩ := nextPops mergeSafe
    have nextMem : next ∈ front ++ back := members.mem_iff.mpr (by simp)
    unfold Covers at nextCovers
    rw [rangeOther next nextMem] at nextCovers
    have starts := starts_above (uncovered next (by grind)) nextCovers
    obtain ⟨rest, rfl⟩ := next_is_first sound.ascending (fun other mem => (sound.leaf other mem).order)
      nextMem (by omega)
    have left : others.Perm (front ++ rest) := List.Perm.cons_inv (members.symm.trans perm_middle)
    obtain ⟨merged, after, joined, inserted, gives⟩ := extend_merge sound free ends starts
      (by rw [← state]; rfl) (by rw [← state]; rfl) (by rw [← state]; rfl) nextPopped
        (nextStored.perm left)
    refine ⟨after, leaf, ?_, gives⟩
    rw [bind_some]
    dsimp only
    rw [joined, bind_some, inserted]
    rfl

/-- The leaf above a free major takes it into its range. -/
lemma extendBelow_sound (sound : Sound self slots leaves) (free : slots id = none)
    (small : id ≤ majorMask) (apart : id ≠ 0 → ∀ leaf ∈ leaves, ¬ Covers self.range (id - 1) leaf)
    (located : plocate majorT self.range self.dTree (id + 1) = some (some presult))
    (safe : PopSafe self.dTree presult.proot) :
    ∃ after leaf, self.extendBelow presult = some (after, leaf) ∧
    Gives after (update slots id (some .null)) id leaf := by
  have uncovered := sound.not_covers free
  obtain ⟨leaf, front, back, _, rfl, covers, pops⟩ := sound.located located
  obtain ⟨dTree, popped, stored⟩ := pops safe
  have starts := starts_above (uncovered leaf (by simp)) covers
  obtain ⟨new, ascending, leafs, below, above⟩ := sound.without
  have leafSound := sound.leaf leaf (by simp)
  have order := leafSound.order
  have length := leafSound.length
  have fits : Fits self.range (update slots id (some .null)) front back
      ⟨(self.range leaf).aVmin - 1, (self.range leaf).aVmax⟩
      (.null :: (self.maBvec leaf).take (majorCnt (self.range leaf))) := by
    rw [take_of_length_le (le_of_eq length)]
    refine ⟨by simp only; omega, leafSound.bounded, ?_, above, ?_, ?_⟩
    · intro other mem
      have gap := below other mem
      have otherOrder := (leafs other (by simp [mem])).order
      have notCovers := uncovered other (by simp [mem])
      have notBelow : id ≠ 0 → ¬ Covers self.range (id - 1) other :=
        fun positive => apart positive other (by simp [mem])
      unfold Covers at notCovers notBelow
      simp only
      omega
    · rw [length_cons, length]
      unfold majorCnt
      simp only
      omega
    · intro wanted low high
      simp only at low high ⊢
      by_cases same : wanted = id
      · subst same
        rw [update_self, show wanted - ((self.range leaf).aVmin - 1) = 0 by omega]
        rfl
      · rw [update_of_ne same, show wanted - ((self.range leaf).aVmin - 1) =
          wanted - (self.range leaf).aVmin + 1 by omega]
        exact leafSound.slot wanted ⟨by omega, high⟩
  have covered := extend_covered sound ⟨(self.range leaf).aVmin - 1, (self.range leaf).aVmax⟩
    (some .null)
    (fun wanted covers => ⟨by have := covers.1; simp only; omega, covers.2⟩)
    (show (self.range leaf).aVmin - 1 ≤ id ∧ id ≤ (self.range leaf).aVmax by omega)
  obtain ⟨last, inserted, whole⟩ := setLeaf_insertLeaf { self with dTree } fits stored ascending new
    (sound.others_update free _) covered
  refine ⟨_, leaf, ?_, _, whole self.dSort sound.chain, by simp, ?_⟩
  · rw [extendBelow, popped, bind_some]
    dsimp only
    rw [inserted]
    rfl
  · unfold Covers
    simp only [setLeaf_range]
    omega

/-- The walk stops at the first leaf that does not end below the major. -/
lemma sortWalk_spec {link : Link Unit} (chain : Chain dSort link leaves) (range : Ranges)
    (id : Nat) {fuel : Nat} (enough : leaves.length < fuel) :
    ∃ front back, leaves = front ++ back ∧ sortWalk dSort range id fuel link = some (last link front) ∧
      (∀ leaf ∈ front, (range leaf).aVmax < id) ∧ ∀ leaf ∈ back.head?, id ≤ (range leaf).aVmax := by
  induction leaves generalizing link fuel with
  | nil =>
    obtain _ | turns := fuel
    · omega
    refine ⟨[], [], rfl, ?_, by simp, by simp⟩
    rw [sortWalk, show dSort.target link = none from chain]
    rfl
  | cons first rest ih =>
    obtain _ | turns := fuel
    · omega
    rw [length_cons] at enough
    rw [sortWalk, chain.1]
    by_cases less : (range first).aVmax < id
    · obtain ⟨front, back, rfl, walked, below, stops⟩ := ih chain.2.2 (by omega : rest.length < turns)
      refine ⟨first :: front, back, rfl, ?_, ?_, stops⟩
      · simp only [if_pos less, walked]
        rfl
      · intro leaf mem
        rcases mem_cons.mp mem with rfl | mem
        · exact less
        · exact below leaf mem
    · refine ⟨[], first :: rest, rfl, ?_, by simp, ?_⟩
      · simp only [if_neg less]
        rfl
      · intro leaf mem
        obtain rfl : first = leaf := by simpa using mem
        omega

/-- A leaf for one major fits where the walk along the sorted list stops. -/
lemma create_fits (sound : Sound self slots (front ++ back)) (free : slots id = none)
    (small : id ≤ majorMask)
    (notBelow : id ≠ 0 → ∀ leaf ∈ front ++ back, ¬ Covers self.range (id - 1) leaf)
    (notAbove : id ≠ majorMask → ∀ leaf ∈ front ++ back, ¬ Covers self.range (id + 1) leaf)
    (below : ∀ leaf ∈ front, (self.range leaf).aVmax < id)
    (stops : ∀ leaf ∈ back.head?, id ≤ (self.range leaf).aVmax) :
    Fits self.range (update slots id (some .null)) front back ⟨id, id⟩ [.null] := by
  refine ⟨le_refl _, small, ?_, ?_, by unfold majorCnt; simp, ?_⟩
  · intro other mem
    have less := below other mem
    have order := (sound.leaf other (by simp [mem])).order
    have gap : id ≠ 0 → ¬ Covers self.range (id - 1) other :=
      fun positive => notBelow positive other (by simp [mem])
    unfold Covers at gap
    simp only
    omega
  · cases back with
    | nil => simp
    | cons first rest =>
      have more := stops first (by simp)
      have firstSound := sound.leaf first (by simp)
      have order := firstSound.order
      have bounded := firstSound.bounded
      have notHere := sound.not_covers free first (by simp)
      have gap : id ≠ majorMask → ¬ Covers self.range (id + 1) first :=
        fun inner => notAbove inner first (by simp)
      unfold Covers at notHere gap
      have starts : id + 1 < (self.range first).aVmin := by omega
      intro other mem
      rcases mem_cons.mp mem with rfl | later
      · exact starts
      · have := (pairwise_cons.mp (pairwise_append.mp sound.ascending).2.1).1 other later
        simp only
        omega
  · intro wanted low high
    obtain rfl : wanted = id := by simp only at low high; omega
    simp

/-- A major without neighbours gets a leaf of its own. -/
lemma createLeaf_sound (sound : Sound self slots leaves) (free : slots id = none)
    (small : id ≤ majorMask)
    (notBelow : id ≠ 0 → ∀ leaf ∈ leaves, ¬ Covers self.range (id - 1) leaf)
    (notAbove : id ≠ majorMask → ∀ leaf ∈ leaves, ¬ Covers self.range (id + 1) leaf)
    {result : Nat} (fresh : result ∉ leaves) :
    ∃ after, self.createLeaf id result = some (after, result) ∧
    Gives after (update slots id (some .null)) id result := by
  have uncovered := sound.not_covers free
  have enough : leaves.length < majorMask + 2 := by
    have counted := sound.ascending.length_le (Nat.zero_le _) fun leaf mem =>
      ⟨Nat.zero_le _, (sound.leaf leaf mem).order, (sound.leaf leaf mem).bounded⟩
    omega
  have sameRange : ∀ leaf ∈ leaves, (self.setLeaf result ⟨id, id⟩ [.null]).range leaf =
    self.range leaf :=
    fun leaf mem => setLeaf_range_of_ne fun same => fresh (same ▸ mem)
  obtain ⟨front, back, rfl, walked, below, stops⟩ := sortWalk_spec sound.chain
    (self.setLeaf result ⟨id, id⟩ [.null]).range id enough
  have fits := create_fits sound free small notBelow notAbove
    (fun leaf mem => by
      rw [← sameRange leaf (by simp [mem])]
      exact below leaf mem)
    (fun leaf mem => by
      rw [← sameRange leaf (by simp [mem_of_mem_head? mem])]
      exact stops leaf mem)
  obtain ⟨dTree, inserted, whole⟩ := setLeaf_insertLeaf self fits sound.stored sound.ascending fresh
    (fun other mem => leafSound_update (sound.leaf other mem) (uncovered other mem)) (by
      intro wanted has
      by_cases same : wanted = id
      · exact .inl ⟨le_of_eq same.symm, le_of_eq same⟩
      · rw [update_of_ne same] at has
        exact .inr (sound.covered wanted has))
  have chain := chain_insert result sound.chain (away_head () _)
    (perm_middle.nodup_iff.mpr (nodup_cons.mpr ⟨fresh, sound.nodup⟩))
  refine ⟨_, ?_, _, whole _ chain, by simp, ?_⟩
  · rw [createLeaf, inserted, bind_some]
    rw [show (self.setLeaf result ⟨id, id⟩ [.null]).dSort = self.dSort from rfl, walked]
    rfl
  · unfold Covers
    simp only [setLeaf_range]
    omega

/-- A safe allocation keeps the table sound and leaves the major in the returned leaf. -/
lemma allocMajor_sound (sound : Sound self slots leaves) (small : id ≤ majorMask)
    (safe : self.AllocSafe id) {omalloc : Nat} (fresh : omalloc ∉ leaves) :
    ∃ after leaf, self.allocMajor id omalloc = some (after, leaf) ∧
    Gives after (slotsAlloc slots id) id leaf := by
  obtain ⟨found, located, exactly⟩ := sound.stored.locate sound.separated id
  unfold AllocSafe at safe
  rw [located] at safe
  rw [allocMajor, located]
  cases found with
  | some leaf =>
    obtain ⟨mem, covers⟩ := (exactly leaf).mp rfl
    have kept : slotsAlloc slots id = slots := if_pos (sound.isSome_of_covers mem covers)
    exact ⟨self, leaf, rfl, leaves, by rw [kept]; exact sound, mem, covers⟩
  | none =>
    have free := sound.absent fun leaf mem covers => nomatch (exactly leaf).mpr ⟨mem, covers⟩
    have new : slotsAlloc slots id = update slots id (some .null) := if_neg (by simp [free])
    rw [new]
    have fitsWord : (id + 1) % 2 ^ 16 = id + 1 :=
      Nat.mod_eq_of_lt (lt_of_le_of_lt (Nat.succ_le_succ small) (by decide))
    have lower : (∃ presult, id ≠ 0 ∧ self.plocateBelow id = some (some presult) ∧
          plocate majorT self.range self.dTree (id - 1) = some (some presult)) ∨
        self.plocateBelow id = some none ∧
          (id ≠ 0 → ∀ leaf ∈ leaves, ¬ Covers self.range (id - 1) leaf) := by
      unfold plocateBelow
      by_cases positive : id ≠ 0
      · rw [if_pos positive]
        rcases sound.plocate (id - 1) with ⟨missed, none⟩ | ⟨position, _, _, _, hit, _⟩
        · exact .inr ⟨missed, fun _ => none⟩
        · exact .inl ⟨position, positive, hit, hit⟩
      · exact .inr ⟨if_neg positive, fun nonzero => absurd nonzero positive⟩
    rcases lower with ⟨presult, positive, below, hit⟩ | ⟨below, notBelow⟩
    · rw [below] at safe ⊢
      exact extendAbove_sound sound free small positive hit safe.1 safe.2
    rw [below] at safe ⊢
    unfold plocateAbove at safe ⊢
    by_cases inner : id ≠ majorMask
    · rw [if_pos inner, fitsWord] at safe ⊢
      rcases sound.plocate (id + 1) with ⟨missed, notAbove⟩ | ⟨position, _, _, _, hit, _⟩
      · rw [missed]
        obtain ⟨after, created, gives⟩ :=
          createLeaf_sound sound free small notBelow (fun _ => notAbove) fresh
        exact ⟨after, omalloc, created, gives⟩
      · rw [hit] at safe ⊢
        exact extendBelow_sound sound free small notBelow hit safe
    · rw [if_neg inner]
      obtain ⟨after, created, gives⟩ := createLeaf_sound sound free small notBelow
        (fun outer => absurd outer inner) fresh
      exact ⟨after, omalloc, created, gives⟩

end KosKernel.Dev.Devns
