import KosKernel.Dev.Devns
import KosKernel.Hybrid.ATreeStored

namespace KosKernel.Dev.Devns
open Hybrid LinkTree LinkList ATree

/-- The caller expects each allocated major to keep its own minor tree. -/
abbrev Slots := Nat → Option MinorTree

/-- The leaves ascend and leave at least one major between them. -/
def Ascending (range : Ranges) (leaves : List Nat) : Prop :=
  leaves.Pairwise fun low high => (range low).aVmax + 1 < (range high).aVmin

/-- A leaf has a range of majors and holds the expected minor tree of each of them. -/
structure LeafSound (range : Ranges) (maBvec : Nat → List MinorTree) (slots : Slots)
    (leaf : Nat) : Prop where
  order : (range leaf).aVmin ≤ (range leaf).aVmax
  bounded : (range leaf).aVmax ≤ majorMask
  length : (maBvec leaf).length = majorCnt (range leaf)
  slot : ∀ id, Covers range id leaf → (maBvec leaf)[id - (range leaf).aVmin]? = slots id

/-- The tree and the sorted list hold the same leaves, which cover the expected majors. -/
structure Sound (table : Devns) (slots : Slots) (leaves : List Nat) : Prop where
  stored : ATree.Stored majorT table.range table.dTree leaves
  chain : Chain table.dSort (.head ()) leaves
  ascending : Ascending table.range leaves
  leaf : ∀ leaf ∈ leaves, LeafSound table.range table.maBvec slots leaf
  covered : ∀ id, (slots id).isSome → ∃ leaf ∈ leaves, Covers table.range id leaf

variable {self : Devns} {range : Ranges} {slots : Slots} {leaves front back : List Nat} {leaf id : Nat}

/-- Ascending leaves are far enough apart for the tree. -/
lemma Ascending.separated (ascending : Ascending range leaves)
    (order : ∀ leaf ∈ leaves, (range leaf).aVmin ≤ (range leaf).aVmax) : Separated range leaves := by
  have below : ∀ low ∈ leaves, ∀ high ∈ leaves, (range low).aVmax + 1 < (range high).aVmin →
    Below range low high := by
    intro low lowMem high highMem less
    have := order low lowMem
    have := order high highMem
    exact ⟨by omega, by omega⟩
  have either : leaves.Pairwise fun first second =>
      Below range first second ∨ Below range second first := by
    apply List.Pairwise.imp_of_mem _ ascending
    exact fun firstMem secondMem less => .inl (below _ firstMem _ secondMem less)
  have : Std.Symm fun first second => Below range first second ∨ Below range second first :=
    ⟨fun _ _ => Or.symm⟩
  intro first firstMem second secondMem differs
  exact either.forall firstMem secondMem differs

/-- The leaves around one leaf ascend, and it fits between them. -/
lemma ascending_around : Ascending range (front ++ leaf :: back) ↔ Ascending range (front ++ back) ∧
    (∀ other ∈ front, (range other).aVmax + 1 < (range leaf).aVmin) ∧
    ∀ other ∈ back, (range leaf).aVmax + 1 < (range other).aVmin := by
  simp only [Ascending, List.pairwise_append, List.pairwise_cons, List.mem_cons, forall_eq_or_imp]
  constructor
  · rintro ⟨first, ⟨above, second⟩, across⟩
    exact ⟨⟨first, second, fun other mem => (across other mem).2⟩,
      fun other mem => (across other mem).1, above⟩
  · rintro ⟨⟨first, second, across⟩, below, above⟩
    exact ⟨first, ⟨above, second⟩, fun other mem => ⟨below other mem, across other mem⟩⟩

lemma Ascending.congr {ranges : Ranges} (ascending : Ascending range leaves)
    (same : ∀ leaf ∈ leaves, ranges leaf = range leaf) : Ascending ranges leaves := by
  apply List.Pairwise.imp_of_mem _ ascending
  intro low high lowMem highMem less
  rwa [same low lowMem, same high highMem]

/-- The number of majors bounds the number of leaves. -/
lemma Ascending.length_le (ascending : Ascending range leaves) {lowest : Nat}
    (small : lowest ≤ majorMask + 1)
    (bounds : ∀ leaf ∈ leaves, lowest ≤ (range leaf).aVmin ∧ (range leaf).aVmin ≤ (range leaf).aVmax ∧
      (range leaf).aVmax ≤ majorMask) : lowest + leaves.length ≤ majorMask + 1 := by
  induction leaves generalizing lowest with
  | nil => exact small
  | cons first rest ih =>
    obtain ⟨above, follows⟩ := List.pairwise_cons.mp ascending
    obtain ⟨low, order, high⟩ := bounds first (by simp)
    have shorter : lowest + 1 + rest.length ≤ majorMask + 1 := ih follows (by omega) fun leaf mem => by
      have := above leaf mem
      have := bounds leaf (by simp [mem])
      exact ⟨by omega, this.2⟩
    rw [List.length_cons]
    omega

lemma LeafSound.congr {maBvec bvecs : Nat → List MinorTree} {ranges : Ranges} {others : Slots}
    (sound : LeafSound range maBvec slots leaf) (sameRange : ranges leaf = range leaf)
    (sameVector : bvecs leaf = maBvec leaf) (sameSlots : ∀ id, Covers range id leaf →
      others id = slots id) :
    LeafSound ranges bvecs others leaf := by
  obtain ⟨order, bounded, length, slot⟩ := sound
  refine ⟨by rwa [sameRange], by rwa [sameRange], by rwa [sameRange, sameVector], ?_⟩
  intro id covers
  unfold Covers at covers
  rw [sameRange] at covers ⊢
  rw [sameVector, sameSlots id covers]
  exact slot id covers

section
variable (sound : Sound self slots leaves)
include sound

lemma Sound.separated : Separated self.range leaves :=
  sound.ascending.separated fun leaf mem => (sound.leaf leaf mem).order

lemma Sound.nodup : leaves.Nodup := sound.stored.nodup

/-- A covered major has a slot. -/
lemma Sound.isSome_of_covers (mem : leaf ∈ leaves) (covers : Covers self.range id leaf) :
    (slots id).isSome := by
  have leafSound := sound.leaf leaf mem
  rw [← leafSound.slot id covers]
  simp only [isSome_getElem?, leafSound.length]
  unfold majorCnt
  obtain ⟨low, high⟩ := covers
  omega

/-- A major without a slot is in no leaf. -/
lemma Sound.not_covers (free : slots id = none) : ∀ leaf ∈ leaves, ¬ Covers self.range id leaf := by
  intro leaf mem covers
  have := sound.isSome_of_covers mem covers
  rw [free] at this
  exact absurd this (by simp)

/-- A major in no leaf has no slot. -/
lemma Sound.absent (free : ∀ leaf ∈ leaves, ¬ Covers self.range id leaf) : slots id = none := by
  by_contra taken
  obtain ⟨leaf, mem, covers⟩ := sound.covered id (Option.isSome_iff_ne_none.mpr taken)
  exact free leaf mem covers

/-- The leaf of a major holds its slot. -/
lemma Sound.held (mem : leaf ∈ leaves) (covers : Covers self.range id leaf) :
    ∃ tree, slots id = some tree ∧ (self.maBvec leaf)[id - (self.range leaf).aVmin]? = some tree := by
  obtain ⟨tree, taken⟩ := Option.isSome_iff_exists.mp (sound.isSome_of_covers mem covers)
  exact ⟨tree, taken, taken ▸ (sound.leaf leaf mem).slot id covers⟩

end

/-- A fresh or popped leaf enters the tree between its neighbours. -/
lemma insertLeaf_stored (stored : ATree.Stored majorT self.range self.dTree (front ++ back))
    (new : leaf ∉ front ++ back) (ascending : Ascending self.range (front ++ leaf :: back))
    (leafs : ∀ other ∈ front ++ leaf :: back, LeafSound self.range self.maBvec slots other) :
    ∃ dTree, self.insertLeaf leaf = some { self with dTree } ∧
    ATree.Stored majorT self.range dTree (front ++ leaf :: back) := by
  have middle : (front ++ leaf :: back).Perm (leaf :: (front ++ back)) := List.perm_middle
  have order : ∀ other ∈ front ++ leaf :: back, (self.range other).aVmin ≤ (self.range other).aVmax :=
    fun other mem => (leafs other mem).order
  obtain ⟨dTree, inserted, _, kept⟩ := stored.insert new
    ((ascending.separated order).mono fun _ => middle.mem_iff.mpr) (order leaf (by simp))
    (lt_of_le_of_lt (leafs leaf (by simp)).bounded (by decide))
  exact ⟨dTree, by rw [insertLeaf, inserted]; rfl, kept.perm middle.symm⟩

variable {keys : KeyRange} {bvec : List MinorTree}

/-- The range of a leaf and of the leaves around it after the leaf changed. -/
lemma setLeaf_range_of_ne {other : Nat} (differs : other ≠ leaf) :
    (self.setLeaf leaf keys bvec).range other = self.range other := Function.update_of_ne differs _ _

lemma setLeaf_bvec_of_ne {other : Nat} (differs : other ≠ leaf) :
    (self.setLeaf leaf keys bvec).maBvec other = self.maBvec other := Function.update_of_ne differs _ _

@[simp] lemma setLeaf_range (keys : KeyRange) (bvec : List MinorTree) :
    (self.setLeaf leaf keys bvec).range leaf = keys := Function.update_self _ _ _

@[simp] lemma setLeaf_bvec (keys : KeyRange) (bvec : List MinorTree) :
    (self.setLeaf leaf keys bvec).maBvec leaf = bvec := Function.update_self _ _ _

/-- What a leaf needs to take a place between other leaves. -/
structure Fits (range : Ranges) (slots : Slots) (front back : List Nat) (keys : KeyRange)
    (bvec : List MinorTree) : Prop where
  order : keys.aVmin ≤ keys.aVmax
  bounded : keys.aVmax ≤ majorMask
  below : ∀ other ∈ front, (range other).aVmax + 1 < keys.aVmin
  above : ∀ other ∈ back, keys.aVmax + 1 < (range other).aVmin
  length : bvec.length = majorCnt keys
  slot : ∀ id, keys.aVmin ≤ id → id ≤ keys.aVmax → bvec[id - keys.aVmin]? = slots id

/-- A leaf that fits between sound leaves is sound with them. -/
lemma Fits.parts (fits : Fits self.range slots front back keys bvec)
    (ascending : Ascending self.range (front ++ back)) (new : leaf ∉ front ++ back)
    (leafs : ∀ other ∈ front ++ back, LeafSound self.range self.maBvec slots other) :
    Ascending (self.setLeaf leaf keys bvec).range (front ++ leaf :: back) ∧
    ∀ other ∈ front ++ leaf :: back,
        LeafSound (self.setLeaf leaf keys bvec).range (self.setLeaf leaf keys bvec).maBvec
          slots other := by
  have differs : ∀ other ∈ front ++ back, other ≠ leaf := fun other mem same => new (same ▸ mem)
  have frontSame : ∀ other ∈ front, (self.setLeaf leaf keys bvec).range other = self.range other :=
    fun other mem => setLeaf_range_of_ne (differs other (by simp [mem]))
  have backSame : ∀ other ∈ back, (self.setLeaf leaf keys bvec).range other = self.range other :=
    fun other mem => setLeaf_range_of_ne (differs other (by simp [mem]))
  constructor
  · refine ascending_around.mpr ⟨ascending.congr fun other mem =>
      setLeaf_range_of_ne (differs other mem), ?_, ?_⟩
    · intro other mem
      rw [setLeaf_range, frontSame other mem]
      exact fits.below other mem
    · intro other mem
      rw [setLeaf_range, backSame other mem]
      exact fits.above other mem
  · intro other mem
    by_cases same : other = leaf
    · subst same
      refine ⟨by simpa using fits.order, by simpa using fits.bounded, by simpa using fits.length, ?_⟩
      intro id covers
      unfold Covers at covers
      rw [setLeaf_range] at covers ⊢
      rw [setLeaf_bvec]
      exact fits.slot id covers.1 covers.2
    · have outer : other ∈ front ++ back := by
        grind
      exact (leafs other outer).congr (setLeaf_range_of_ne same) (setLeaf_bvec_of_ne same) fun _ _ => rfl

/-- A changed leaf returns to the tree when it fits between the leaves around it. -/
lemma setLeaf_insertLeaf (popped : Devns) (fits : Fits popped.range slots front back keys bvec)
    (stored : ATree.Stored majorT popped.range popped.dTree (front ++ back))
    (ascending : Ascending popped.range (front ++ back)) (new : leaf ∉ front ++ back)
    (leafs : ∀ other ∈ front ++ back, LeafSound popped.range popped.maBvec slots other)
    (covered : ∀ id, (slots id).isSome → (keys.aVmin ≤ id ∧ id ≤ keys.aVmax) ∨
      ∃ other ∈ front ++ back, Covers popped.range id other) :
    ∃ dTree, (popped.setLeaf leaf keys bvec).insertLeaf leaf =
      some { popped.setLeaf leaf keys bvec with dTree } ∧
      ∀ dSort, Chain dSort (.head ()) (front ++ leaf :: back) →
        Sound { popped.setLeaf leaf keys bvec with dTree, dSort } slots (front ++ leaf :: back) := by
  have differs : ∀ other ∈ front ++ back, other ≠ leaf := fun other mem same => new (same ▸ mem)
  obtain ⟨ascends, sounds⟩ := fits.parts ascending new leafs
  have remaining : ATree.Stored majorT (popped.setLeaf leaf keys bvec).range popped.dTree
    (front ++ back) :=
    stored.congr fun other mem => setLeaf_range_of_ne (differs other mem)
  obtain ⟨dTree, inserted, whole⟩ := insertLeaf_stored remaining new ascends sounds
  refine ⟨dTree, inserted, fun dSort chain => ⟨whole, chain, ascends, sounds, ?_⟩⟩
  intro id has
  rcases covered id has with inside | ⟨other, mem, covers⟩
  · refine ⟨leaf, by simp, ?_⟩
    unfold Covers
    rwa [setLeaf_range]
  refine ⟨other, ?_, ?_⟩
  · grind
  · unfold Covers
    rw [setLeaf_range_of_ne (differs other mem)]
    exact covers

/-- A lookup finds no leaf, or one that a safe pop takes out of the tree. -/
lemma Sound.plocate (sound : Sound self slots leaves) (id : Nat) :
    (plocate majorT self.range self.dTree id = some none ∧ ∀ leaf ∈ leaves,
      ¬ Covers self.range id leaf) ∨
      ∃ position leaf front back, plocate majorT self.range self.dTree id = some (some position) ∧
        self.dTree position.proot = some leaf ∧ leaves = front ++ leaf :: back ∧
        Covers self.range id leaf ∧
        (PopSafe self.dTree position.proot →
          ∃ dTree, pop majorT self.range self.dTree position.proot = some (dTree, leaf) ∧
            ATree.Stored majorT self.range dTree (front ++ back)) := by
  rcases sound.stored.plocate sound.separated id with
    ⟨missed, free⟩ | ⟨position, leaf, others, located, here, members, covers, _, pops⟩
  · exact .inl ⟨missed, free⟩
  right
  obtain ⟨front, back, rfl⟩ := List.append_of_mem (members.mem_iff.mpr (List.mem_cons_self))
  refine ⟨position, leaf, front, back, located, here, rfl, covers, ?_⟩
  intro safe
  obtain ⟨dTree, popped, stored⟩ := pops safe
  exact ⟨dTree, popped, stored.perm (List.Perm.cons_inv (members.symm.trans List.perm_middle))⟩

/-- A position that a lookup found is the place of a leaf. -/
lemma Sound.located (sound : Sound self slots leaves) {position : Position}
    (located : ATree.plocate majorT self.range self.dTree id = some (some position)) :
    ∃ leaf front back, self.dTree position.proot = some leaf ∧ leaves = front ++ leaf :: back ∧
      Covers self.range id leaf ∧ (PopSafe self.dTree position.proot →
        ∃ dTree, pop majorT self.range self.dTree position.proot = some (dTree, leaf) ∧
          ATree.Stored majorT self.range dTree (front ++ back)) := by
  rcases sound.plocate id with ⟨missed, _⟩ | ⟨other, leaf, front, back, found, rest⟩
  · rw [missed] at located
    exact absurd located (by simp)
  · obtain rfl : other = position := Option.some.inj (Option.some.inj (found.symm.trans located))
    exact ⟨leaf, front, back, rest⟩

/-- The device that the expected slots give to a number. -/
def slotsLookup (slots : Slots) (id : Nat) : Option Device :=
  (slots (major id)).bind (devnsDeviceGet · (minor id))

/-- A lookup in a sound table finds the device that the slots expect. -/
lemma Sound.lookupUnlocked (sound : Sound self slots leaves) (id : Nat) :
    self.lookupUnlocked id = some (slotsLookup slots id) := by
  obtain ⟨found, located, exactly⟩ := sound.stored.locate sound.separated (major id)
  rw [Devns.lookupUnlocked, located, Option.bind_some, slotsLookup]
  cases found with
  | none =>
    rw [sound.absent fun leaf mem covers => nomatch (exactly leaf).mpr ⟨mem, covers⟩]
    rfl
  | some leaf =>
    obtain ⟨mem, covers⟩ := (exactly leaf).mp rfl
    obtain ⟨tree, taken, held⟩ := sound.held mem covers
    rw [taken]
    dsimp only
    rw [held]
    rfl

/-- What remains of a sound table when one leaf is left out. -/
lemma Sound.without (sound : Sound self slots (front ++ leaf :: back)) :
    leaf ∉ front ++ back ∧ Ascending self.range (front ++ back) ∧
      (∀ other ∈ front ++ back, LeafSound self.range self.maBvec slots other) ∧
      (∀ other ∈ front, (self.range other).aVmax + 1 < (self.range leaf).aVmin) ∧
      ∀ other ∈ back, (self.range leaf).aVmax + 1 < (self.range other).aVmin := by
  obtain ⟨ascending, below, above⟩ := ascending_around.mp sound.ascending
  refine ⟨(List.nodup_cons.mp (List.perm_middle.nodup_iff.mp sound.nodup)).1, ascending,
    ?_, below, above⟩
  intro other mem
  apply sound.leaf
  grind

end KosKernel.Dev.Devns
