import KosKernel.Dev.DevnsAlloc

namespace KosKernel.Dev.Devns
open Hybrid LinkTree LinkList Function List ATree
variable {self : Devns} {slots : Slots} {leaves front back : List Nat} {leaf id : Nat}

/-- The majors of a leaf above a released major in its middle have no devices. -/
def SplitSafe (self : Devns) (id leaf : Nat) : Prop :=
  (self.range leaf).aVmin < id → id < (self.range leaf).aVmax →
    ∀ tree ∈ (self.maBvec leaf).drop (id - (self.range leaf).aVmin + 1), tree = .null

instance (self : Devns) (id leaf : Nat) : Decidable (self.SplitSafe id leaf) := by
  unfold SplitSafe
  infer_instance

/-- A release pops its leaf safely and splits only below empty slots. -/
def ReleaseSafe (self : Devns) (id : Nat) : Prop :=
  match plocate majorT self.range self.dTree id with
  | some (some pmajor) =>
    PopSafe self.dTree pmajor.proot ∧ ∀ leaf ∈ self.dTree pmajor.proot, self.SplitSafe id leaf
  | _ => True

instance (self : Devns) (id : Nat) : Decidable (self.ReleaseSafe id) := by
  unfold ReleaseSafe
  split <;> infer_instance

/-- The other leaves do not cover the major of a leaf. -/
lemma Sound.apart (sound : Sound self slots (front ++ leaf :: back))
    (covers : Covers self.range id leaf) :
    ∀ other ∈ front ++ back, ¬ Covers self.range id other := by
  obtain ⟨new, _⟩ := sound.without
  intro other mem otherCovers
  have same := sound.separated.apart.eq_of_covers (by grind)
    (by simp : leaf ∈ front ++ leaf :: back) otherCovers covers
  exact new (same ▸ mem)

/-- A write to the slot of a major changes only this slot. -/
lemma setSlot_sound (sound : Sound self slots leaves) (mem : leaf ∈ leaves)
    (covers : Covers self.range id leaf) (tree : MinorTree) :
    Sound (self.setSlot leaf (id - (self.range leaf).aVmin) tree)
      (update slots id (some tree)) leaves := by
  obtain ⟨front, back, rfl⟩ := append_of_mem mem
  have apart := sound.apart covers
  obtain ⟨new, _, leafs, _, _⟩ := sound.without
  refine ⟨sound.stored, sound.chain, sound.ascending, ?_, ?_⟩
  · intro other otherMem
    by_cases same : other = leaf
    · subst same
      have leafSound := sound.leaf other (by simp)
      have length := leafSound.length
      unfold majorCnt at length
      have low := covers.1
      have high := covers.2
      refine ⟨leafSound.order, leafSound.bounded, ?_, ?_⟩
      · simp only [setSlot, update_self, length_set]
        exact leafSound.length
      · intro wanted wantedCovers
        have wantedLow : (self.range other).aVmin ≤ wanted := wantedCovers.1
        simp only [setSlot, update_self]
        by_cases here : wanted = id
        · subst here
          rw [update_self, List.getElem?_set_self (by omega)]
        · rw [update_of_ne here, List.getElem?_set_ne (by omega)]
          exact leafSound.slot wanted wantedCovers
    · have outer : other ∈ front ++ back := by
        grind
      exact (leafSound_update (leafs other outer) (apart other outer)).congr rfl
        (update_of_ne same _ _) fun _ _ => rfl
  · intro wanted has
    by_cases here : wanted = id
    · exact ⟨leaf, by simp, here ▸ covers⟩
    · rw [update_of_ne here] at has
      exact sound.covered wanted has

section
variable (sound : Sound self slots (front ++ leaf :: back))
include sound

/-- After a release the slots of all other majors are still covered. -/
lemma release_covered {wanted : Nat} (has : (update slots id none wanted).isSome) :
    wanted ≠ id ∧ (Covers self.range wanted leaf ∨ ∃ other ∈ front ++ back,
      Covers self.range wanted other) := by
  by_cases here : wanted = id
  · subst here
    simp at has
  rw [update_of_ne here] at has
  refine ⟨here, ?_⟩
  obtain ⟨other, mem, covers⟩ := sound.covered wanted has
  rw [mem_append, mem_cons] at mem
  rcases mem with mem | rfl | mem
  · exact .inr ⟨other, by simp [mem], covers⟩
  · exact .inl covers
  · exact .inr ⟨other, by simp [mem], covers⟩

/-- The leaf of a single major leaves the tree and the sorted list. -/
lemma release_single (low : id = (self.range leaf).aVmin) (high : id = (self.range leaf).aVmax)
    {dTree : Cells} (stored : ATree.Stored majorT self.range dTree (front ++ back)) :
    Sound { self with dTree, dSort := self.dSort.connect (self.dSort.self leaf) (self.dSort.target
      (.next leaf)) }
      (update slots id none) (front ++ back) := by
  have apart := sound.apart (show Covers self.range id leaf from ⟨by omega, by omega⟩)
  obtain ⟨_, ascending, leafs, _, _⟩ := sound.without
  refine ⟨stored, chain_remove sound.chain (away_head _ _) sound.nodup, ascending,
    fun other mem => leafSound_update (leafs other mem) (apart other mem), ?_⟩
  intro wanted has
  obtain ⟨differs, covers | outer⟩ := release_covered sound has
  · unfold Covers at covers
    omega
  · exact outer

/-- A leaf trimmed at one end returns to the tree. -/
lemma release_trim (covers : Covers self.range id leaf) {keys : KeyRange} {bvec : List MinorTree}
    (order : keys.aVmin ≤ keys.aVmax) (low : (self.range leaf).aVmin ≤ keys.aVmin)
    (high : keys.aVmax ≤ (self.range leaf).aVmax)
    (exactly : ∀ wanted, Covers self.range wanted leaf → wanted ≠ id → keys.aVmin ≤ wanted ∧
      wanted ≤ keys.aVmax)
    (length : bvec.length = majorCnt keys) (slot : ∀ wanted, keys.aVmin ≤ wanted → wanted ≤ keys.aVmax →
      bvec[wanted - keys.aVmin]? = update slots id none wanted) {dTree : Cells}
    (stored : ATree.Stored majorT self.range dTree (front ++ back)) :
    ∃ after, (setLeaf { self with dTree } leaf keys bvec).insertLeaf leaf = some after ∧
      Sound after (update slots id none) (front ++ leaf :: back) := by
  have apart := sound.apart covers
  obtain ⟨new, ascending, leafs, below, above⟩ := sound.without
  have bounded := (sound.leaf leaf (by simp)).bounded
  have fits : Fits self.range (update slots id none) front back keys bvec := by
    refine ⟨order, by omega, ?_, ?_, length, slot⟩
    · intro other mem
      have := below other mem
      omega
    · intro other mem
      have := above other mem
      omega
  obtain ⟨last, inserted, whole⟩ := setLeaf_insertLeaf { self with dTree } fits stored ascending new
    (fun other mem => leafSound_update (leafs other mem) (apart other mem)) (fun wanted has => by
      obtain ⟨differs, inner | outer⟩ := release_covered sound has
      · exact .inl (exactly wanted inner differs)
      · exact .inr outer)
  exact ⟨_, inserted, whole self.dSort sound.chain⟩

end

/-- The slots from the released major to the end of its leaf are all empty. -/
lemma SplitSafe.slot_null (safe : self.SplitSafe id leaf)
    (sound : LeafSound self.range self.maBvec slots leaf)
    (emptied : slots id = some .null) (low : (self.range leaf).aVmin < id)
    (high : id < (self.range leaf).aVmax)
    {wanted : Nat} (first : id ≤ wanted) (last : wanted ≤ (self.range leaf).aVmax) :
    (self.maBvec leaf)[wanted - (self.range leaf).aVmin]? = some .null := by
  by_cases here : wanted = id
  · rw [here, sound.slot id ⟨by omega, by omega⟩, emptied]
  have length := sound.length
  unfold majorCnt at length
  have index : wanted - (self.range leaf).aVmin =
    id - (self.range leaf).aVmin + 1 + (wanted - id - 1) := by omega
  have inside : wanted - id - 1 <
    ((self.maBvec leaf).drop (id - (self.range leaf).aVmin + 1)).length := by
    rw [length_drop]
    omega
  rw [index, ← List.getElem?_drop, List.getElem?_eq_getElem inside, safe low high _ (getElem_mem inside)]

/-- The lower part of a split leaf fits its place. -/
lemma split_lower_fits (sound : Sound self slots (front ++ leaf :: back))
    (low : (self.range leaf).aVmin < id) (high : id < (self.range leaf).aVmax) :
    Fits self.range (update slots id none) front back ⟨(self.range leaf).aVmin, id - 1⟩
      ((self.maBvec leaf).take (majorCnt ⟨(self.range leaf).aVmin, id - 1⟩)) := by
  obtain ⟨_, _, _, below, above⟩ := sound.without
  have leafSound := sound.leaf leaf (by simp)
  have length := leafSound.length
  have bounded := leafSound.bounded
  unfold majorCnt at length ⊢
  refine ⟨by simp only; omega, by simp only; omega, below, ?_, ?_, ?_⟩
  · intro other mem
    have := above other mem
    simp only
    omega
  · rw [length_take]
    unfold majorCnt
    simp only
    omega
  · intro wanted first last
    simp only at first last ⊢
    rw [List.getElem?_take_of_lt (by omega), update_of_ne (by omega)]
    exact leafSound.slot wanted ⟨first, by omega⟩

/-- The upper part of a split leaf fits above the lower part, as it is empty. -/
lemma split_upper_slot (sound : LeafSound self.range self.maBvec slots leaf)
    (emptied : slots id = some .null)
    (low : (self.range leaf).aVmin < id) (high : id < (self.range leaf).aVmax)
    (safe : self.SplitSafe id leaf) :
    (((self.maBvec leaf).drop (majorCnt ⟨(self.range leaf).aVmin, id - 1⟩)).take
        (majorCnt ⟨id + 1, (self.range leaf).aVmax⟩)).length =
          majorCnt ⟨id + 1, (self.range leaf).aVmax⟩ ∧
      ∀ wanted, id + 1 ≤ wanted → wanted ≤ (self.range leaf).aVmax →
        (((self.maBvec leaf).drop (majorCnt ⟨(self.range leaf).aVmin, id - 1⟩)).take
          (majorCnt ⟨id + 1, (self.range leaf).aVmax⟩))[wanted - (id + 1)]? =
            update slots id none wanted := by
  have length := sound.length
  unfold majorCnt at length ⊢
  simp only
  constructor
  · rw [length_take, length_drop]
    omega
  · intro wanted first last
    rw [List.getElem?_take_of_lt (by omega), List.getElem?_drop, update_of_ne (by omega),
      show id - 1 - (self.range leaf).aVmin + 1 + (wanted - (id + 1)) =
        wanted - 1 - (self.range leaf).aVmin by omega,
      safe.slot_null sound emptied low high (by omega) (by omega),
      ← sound.slot wanted ⟨by omega, last⟩, safe.slot_null sound emptied low high (by omega) last]

/-- A new leaf goes behind a leaf of the sorted list. -/
lemma chain_insert_next {dSort : Links Unit} {upper : Nat}
    (chain : Chain dSort (.head ()) (front ++ leaf :: back))
    (distinct : (front ++ leaf :: upper :: back).Nodup) :
    Chain ((dSort.connect (.next upper) (dSort.target (.next leaf))).connect (.next leaf)
      (some upper)) (.head ())
      (front ++ leaf :: upper :: back) := by
  rw [append_cons] at chain distinct ⊢
  have inserted := chain_insert upper chain (away_head () _) distinct
  rwa [show last (Link.head ()) (front ++ [leaf]) = .next leaf by rw [last_append]; rfl] at inserted

/-- A leaf loses a major in its middle and the part above it becomes a new leaf. -/
lemma release_split (sound : Sound self slots (front ++ leaf :: back)) (emptied : slots id = some .null)
    (low : (self.range leaf).aVmin < id) (high : id < (self.range leaf).aVmax)
    (safe : self.SplitSafe id leaf)
    {upper : Nat} (fresh : upper ∉ front ++ leaf :: back) {dTree : Cells}
    (stored : ATree.Stored majorT self.range dTree (front ++ back)) :
    ∃ after, splitLeaf { self with dTree } leaf id upper = some after ∧
      Sound after (update slots id none) (front ++ leaf :: upper :: back) := by
  have apart := sound.apart (show Covers self.range id leaf from ⟨by omega, by omega⟩)
  obtain ⟨new, ascending, leafs, below, above⟩ := sound.without
  have leafSound := sound.leaf leaf (by simp)
  have bounded := leafSound.bounded
  obtain ⟨upperLength, upperSlot⟩ := split_upper_slot leafSound emptied low high safe
  have lowerFits := split_lower_fits sound low high
  have distinct : (front ++ leaf :: upper :: back).Nodup := by
    have moved : (front ++ leaf :: upper :: back).Perm (upper :: (front ++ leaf :: back)) := by
      rw [append_cons, append_cons front leaf back]
      exact perm_middle
    exact moved.nodup_iff.mpr (nodup_cons.mpr ⟨fresh, sound.nodup⟩)
  have chain := chain_insert_next sound.chain distinct
  unfold splitLeaf
  dsimp only
  generalize (self.dSort.connect (.next upper) (self.dSort.target (.next leaf))).connect
    (.next leaf) (some upper) = sort at chain ⊢
  generalize upperVector : ((self.maBvec leaf).drop (majorCnt ⟨(self.range leaf).aVmin, id - 1⟩)).take
    (majorCnt ⟨id + 1, (self.range leaf).aVmax⟩) = upperBvec at upperLength upperSlot ⊢
  generalize (self.maBvec leaf).take (majorCnt ⟨(self.range leaf).aVmin, id - 1⟩) =
    lowerBvec at lowerFits ⊢
  obtain ⟨lowerAscends, lowerSounds⟩ :=
    @Fits.parts { self with dTree, dSort := sort } _ _ _ leaf _ _ lowerFits
    ascending new fun other mem => leafSound_update (leafs other mem) (apart other mem)
  generalize lowerState : setLeaf { self with dTree, dSort := sort } leaf
    ⟨(self.range leaf).aVmin, id - 1⟩ lowerBvec = lower at lowerAscends lowerSounds ⊢
  have lowerLeaf : lower.range leaf = ⟨(self.range leaf).aVmin, id - 1⟩ := by
    rw [← lowerState, setLeaf_range]
  have lowerOther : ∀ other ∈ front ++ back, lower.range other = self.range other := by
    intro other mem
    rw [← lowerState]
    exact setLeaf_range_of_ne fun same => new (same ▸ mem)
  have upperFits : Fits lower.range (update slots id none) (front ++ [leaf]) back
      ⟨id + 1, (self.range leaf).aVmax⟩ upperBvec := by
    refine ⟨by simp only; omega, bounded, ?_, ?_, upperLength, upperSlot⟩
    · intro other mem
      rw [mem_append, mem_singleton] at mem
      rcases mem with mem | rfl
      · rw [lowerOther other (by simp [mem])]
        have := below other mem
        simp only
        omega
      · rw [lowerLeaf]
        simp only
        omega
    · intro other mem
      rw [lowerOther other (by simp [mem])]
      exact above other mem
  rw [append_cons] at lowerAscends lowerSounds fresh
  obtain ⟨ascends, sounds⟩ := upperFits.parts lowerAscends fresh lowerSounds
  generalize upperState : lower.setLeaf upper ⟨id + 1, (self.range leaf).aVmax⟩ upperBvec =
    whole at ascends sounds ⊢
  rw [← append_cons] at ascends sounds fresh
  have wholeOther : ∀ other ∈ front ++ back, whole.range other = self.range other := by
    intro other mem
    rw [← upperState, setLeaf_range_of_ne, lowerOther other mem]
    rintro rfl
    apply fresh
    grind
  have wholeTree : whole.dTree = dTree := by rw [← upperState, ← lowerState]; rfl
  have wholeSort : whole.dSort = sort := by rw [← upperState, ← lowerState]; rfl
  have inner : List.Sublist (front ++ upper :: back) (front ++ leaf :: upper :: back) :=
    (List.Sublist.refl front).append (sublist_cons_self leaf _)
  have remaining : ATree.Stored majorT whole.range whole.dTree (front ++ back) := by
    rw [wholeTree]
    exact stored.congr wholeOther
  have upperNew : upper ∉ front ++ back := by
    intro mem
    apply fresh
    grind
  obtain ⟨first, firstInserted, firstStored⟩ :=
    insertLeaf_stored remaining upperNew (ascends.sublist inner)
    fun other mem => sounds other (inner.subset mem)
  have leafNew : leaf ∉ front ++ upper :: back := (nodup_cons.mp (perm_middle.nodup_iff.mp distinct)).1
  obtain ⟨second, secondInserted, secondStored⟩ :=
    @insertLeaf_stored { whole with dTree := first } _ _ _ _
    firstStored leafNew ascends sounds
  have wholeUpper : whole.range upper = ⟨id + 1, (self.range leaf).aVmax⟩ :=
    by rw [← upperState, setLeaf_range]
  have wholeLeaf : whole.range leaf = ⟨(self.range leaf).aVmin, id - 1⟩ := by
    rw [← upperState, setLeaf_range_of_ne, lowerLeaf]
    rintro rfl
    exact fresh (by simp)
  refine ⟨{ whole with dTree := second }, ?_, secondStored, ?_, ascends, sounds, ?_⟩
  · rw [firstInserted, Option.bind_some, secondInserted]
  · rw [← wholeSort] at chain
    exact chain
  · intro wanted has
    obtain ⟨differs, covers | ⟨other, mem, covers⟩⟩ := release_covered sound has
    · obtain ⟨covered, reaches⟩ := covers
      by_cases less : wanted < id
      · refine ⟨leaf, by simp, ?_⟩
        unfold Covers
        rw [wholeLeaf]
        exact ⟨covered, by simp only; omega⟩
      · refine ⟨upper, by simp, ?_⟩
        unfold Covers
        rw [wholeUpper]
        exact ⟨by simp only; omega, reaches⟩
    · refine ⟨other, ?_, ?_⟩
      · grind
      · unfold Covers
        rw [wholeOther other mem]
        exact covers

/-- A safe release of an emptied major keeps the table sound. -/
lemma releaseMajor_sound (sound : Sound self slots leaves) (emptied : slots id = some .null)
    {pmajor : Position} (located : plocate majorT self.range self.dTree id = some (some pmajor))
    (safe : self.ReleaseSafe id) {omalloc : Nat} (fresh : omalloc ∉ leaves) :
    ∃ after rest, self.releaseMajor pmajor id omalloc = some after ∧ Sound
      after (update slots id none) rest := by
  unfold ReleaseSafe at safe
  rw [located] at safe
  obtain ⟨popSafe, splitSafe⟩ := safe
  obtain ⟨leaf, front, back, here, rfl, covers, pops⟩ := sound.located located
  obtain ⟨dTree, popped, stored⟩ := pops popSafe
  have leafSound := sound.leaf leaf (by simp)
  have length := leafSound.length
  obtain ⟨low, high⟩ := covers
  rw [releaseMajor, popped, Option.bind_some]
  dsimp only
  by_cases first : id = (self.range leaf).aVmin
  · rw [if_pos first]
    by_cases last : id = (self.range leaf).aVmax
    · rw [if_pos last]
      exact ⟨_, _, rfl, release_single sound first last stored⟩
    rw [if_neg last]
    obtain ⟨after, inserted, whole⟩ := @release_trim _ _ _ _ leaf id sound ⟨low, high⟩
      ⟨(self.range leaf).aVmin + 1, (self.range leaf).aVmax⟩
      (((self.maBvec leaf).drop 1).take
        (majorCnt ⟨(self.range leaf).aVmin + 1, (self.range leaf).aVmax⟩))
      (by simp only; omega) (by simp only; omega) (le_refl _)
      (fun wanted inner differs => ⟨by have := inner.1; simp only; omega, inner.2⟩)
      (by
        rw [length_take, length_drop, length]
        unfold majorCnt
        simp only
        omega)
      (by
        intro wanted wantedLow wantedHigh
        unfold majorCnt
        simp only at wantedLow wantedHigh ⊢
        rw [List.getElem?_take_of_lt (by omega), List.getElem?_drop, update_of_ne (by omega),
          show 1 + (wanted - ((self.range leaf).aVmin + 1)) = wanted - (self.range leaf).aVmin by omega]
        exact leafSound.slot wanted ⟨by omega, wantedHigh⟩) dTree stored
    exact ⟨after, _, inserted, whole⟩
  · rw [if_neg first]
    by_cases last : id = (self.range leaf).aVmax
    · rw [if_pos last]
      obtain ⟨after, inserted, whole⟩ := @release_trim _ _ _ _ leaf id sound ⟨low, high⟩
        ⟨(self.range leaf).aVmin, (self.range leaf).aVmax - 1⟩
        ((self.maBvec leaf).take (majorCnt ⟨(self.range leaf).aVmin, (self.range leaf).aVmax - 1⟩))
        (by simp only; omega) (le_refl _) (by simp only; omega)
        (fun wanted inner differs => ⟨inner.1, by have := inner.2; simp only; omega⟩)
        (by
          rw [length_take, length]
          unfold majorCnt
          simp only
          omega)
        (by
          intro wanted wantedLow wantedHigh
          unfold majorCnt
          simp only at wantedLow wantedHigh ⊢
          rw [List.getElem?_take_of_lt (by omega), update_of_ne (by omega)]
          exact leafSound.slot wanted ⟨wantedLow, by omega⟩) dTree stored
      exact ⟨after, _, inserted, whole⟩
    · rw [if_neg last]
      obtain ⟨after, done, whole⟩ := release_split sound emptied (by omega) (by omega)
        (splitSafe leaf here) fresh stored
      exact ⟨after, _, done, whole⟩

end KosKernel.Dev.Devns
