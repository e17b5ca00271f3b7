import KosKernel.Hybrid.ATreeStored
import KosKernel.Library.StepRun

namespace KosKernel.Hybrid
open Function List

def pageSize : Nat := 4096

/-- A range is page-aligned and made of keys of the type. -/
def KeyRange.PageAligned (key : KeyType) (keys : KeyRange) : Prop :=
  pageSize ∣ keys.aVmin ∧ pageSize ∣ keys.aVmax + 1 ∧ keys.aVmin ≤ keys.aVmax ∧ keys.aVmax < 2 ^ key.bits

instance (key : KeyType) (keys : KeyRange) : Decidable (keys.PageAligned key) :=
  inferInstanceAs (Decidable (_ ∧ _))

/-- Two ranges share no key. -/
def KeyRange.Disjoint (first second : KeyRange) : Prop :=
  first.aVmax < second.aVmin ∨ second.aVmax < first.aVmin

instance (first second : KeyRange) : Decidable (first.Disjoint second) :=
  inferInstanceAs (Decidable (_ ∨ _))

namespace ATree
open LinkTree
variable {key : KeyType} {range : Ranges}

/-- A call inserts a node or takes one out. `popAt` uses the position that `plocate_at` returned. -/
inductive Call where
  | insert (newleaf : Nat) (keys : KeyRange)
  | tryinsert (newleaf : Nat) (keys : KeyRange)
  | remove (wanted : Nat)
  | popAt (wanted : Nat)

/-- The history keeps the pointer cells, the ranges of the nodes and the list of live nodes. -/
structure History where
  cells : Cells
  range : Ranges
  live : List Nat

/-- The live nodes after the node of a key left. -/
def liveWithout (range : Ranges) (live : List Nat) (wanted : Nat) : List Nat :=
  live.filter fun node => ¬ Covers range wanted node

/-- A call changes the tree as the code does and the live list as the caller expects. -/
def History.step (key : KeyType) (history : History) : Call → Option History
  | .insert newleaf keys =>
    let range := update history.range newleaf keys
    (insert key range history.cells newleaf).map fun cells => ⟨cells, range, newleaf :: history.live⟩
  | .tryinsert newleaf keys =>
    let range := update history.range newleaf keys
    (tryinsert key range history.cells newleaf).bind fun
      | (cells, true) => some ⟨cells, range, newleaf :: history.live⟩
      | (_, false) => none
  | .remove wanted =>
    (remove key history.range history.cells wanted).map fun result =>
      ⟨result.1, history.range, liveWithout history.range history.live wanted⟩
  | .popAt wanted =>
    (plocate key history.range history.cells wanted).bind fun
      | none => some ⟨history.cells, history.range, liveWithout history.range history.live wanted⟩
      | some position =>
        (popAt key history.range (callDepth key) position.proot position.semi position.level
          history.cells).map
          fun result => ⟨result.1, history.range, liveWithout history.range history.live wanted⟩

/-- The history starts with a null root pointer over arbitrary memory. -/
def History.start (cells : Cells) (range : Ranges) : History := ⟨update cells .head none, range, []⟩

/-- A new node is not live and its page-aligned range meets no live range. -/
def History.Accepts (key : KeyType) (history : History) (newleaf : Nat) (keys : KeyRange) : Prop :=
  newleaf ∉ history.live ∧ keys.PageAligned key ∧ ∀ node ∈ history.live,
    keys.Disjoint (history.range node)

instance (key : KeyType) (history : History) (newleaf : Nat) (keys : KeyRange) :
    Decidable (history.Accepts key newleaf keys) := inferInstanceAs (Decidable (_ ∧ _ ∧ _))

/-- The callers insert only new nodes under page-aligned ranges that no live node uses. -/
def History.Legal (key : KeyType) (history : History) : Call → Prop
  | .insert newleaf keys => history.Accepts key newleaf keys
  | .tryinsert newleaf keys => history.Accepts key newleaf keys
  | .remove _ => True
  | .popAt _ => True

instance (key : KeyType) (history : History) (call : Call) : Decidable (history.Legal key call) := by
  cases call <;> unfold History.Legal <;> infer_instance

/-- Every node stands between the bounds of its position, and the centre splits the subtrees. -/
def InPosition (key : KeyType) (range : Ranges) : Shape → Nat → Nat → Prop
  | .leaf, _, _ => True
  | .node low root high, semi, level =>
    mapMin key semi level ≤ (range root).aVmin ∧ (range root).aVmax ≤ mapMax key semi level ∧
      (∀ node ∈ low.nodes, (range node).aVmax < semi) ∧
        (∀ node ∈ high.nodes, semi < (range node).aVmin) ∧
      InPosition key range low (walkMin key semi level) (nextLevel level) ∧
      InPosition key range high (walkMax key semi level) (nextLevel level)

/-- The tree holds exactly the live nodes, and a lookup finds the one that contains the key. -/
def History.RangeMap (key : KeyType) (history : History) : Prop :=
  (∃ shape, Holds history.cells (history.cells .head) shape ∧ shape.nodes.Perm history.live ∧
      shape.nodes.Nodup ∧ InPosition key history.range shape (semi0 key) (level0 key)) ∧
    ∀ wanted, ∃ found, locate key history.range history.cells wanted = some found ∧
      ∀ node, found = some node ↔ node ∈ history.live ∧ Covers history.range wanted node

/-- The tree is placed in the block of all keys, over aligned and disjoint ranges. -/
structure History.Sound (key : KeyType) (history : History) : Prop where
  stored : Stored key history.range history.cells history.live
  aligned : ∀ node ∈ history.live, (history.range node).PageAligned key
  disjoint : ∀ first ∈ history.live, ∀ second ∈ history.live, first ≠ second →
    (history.range first).Disjoint (history.range second)

/-- Disjoint page-aligned ranges never share a block of two keys. -/
lemma below_of_aligned {lower upper : Nat} (lowerAligned : (range lower).PageAligned key)
    (upperAligned : (range upper).PageAligned key) (less : (range lower).aVmax < (range upper).aVmin) :
    Below range lower upper := by
  obtain ⟨⟨first, lowerStart⟩, _, lowerOrder, _⟩ := lowerAligned
  obtain ⟨_, ⟨last, upperEnd⟩, upperOrder, _⟩ := upperAligned
  unfold pageSize at lowerStart upperEnd
  exact ⟨less, by omega⟩

/-- Nodes with disjoint page-aligned ranges are separated. -/
lemma separated_of_aligned {nodes : List Nat} (aligned : ∀ node ∈ nodes, (range node).PageAligned key)
    (disjoint : ∀ first ∈ nodes, ∀ second ∈ nodes, first ≠ second →
      (range first).Disjoint (range second)) : Separated range nodes := by
  intro first firstMem second secondMem differs
  have firstAligned := aligned first firstMem
  have secondAligned := aligned second secondMem
  exact (disjoint first firstMem second secondMem differs).imp
    (below_of_aligned firstAligned secondAligned) (below_of_aligned secondAligned firstAligned)

variable {history : History}

lemma History.Sound.separated (sound : history.Sound key) :
    Separated history.range history.live := separated_of_aligned sound.aligned sound.disjoint

/-- A placed tree has its nodes in position. -/
lemma inPosition_of_placed {shape : Shape} {base size semi level : Nat} (block : Block key base size)
    (placed : Placed range shape base size) (center : AtCenter base size semi level) :
    InPosition key range shape semi level := by
  induction shape generalizing base size semi level with
  | leaf => trivial
  | node low root high lowIn highIn =>
    obtain ⟨rest, rfl⟩ := placed.exists_size
    obtain ⟨rfl, rfl⟩ := center rest rfl
    obtain ⟨inside, above, lower, upper⟩ := placed
    refine ⟨?_, ?_, ?_, above, lowIn block.low lower (AtCenter.low block),
      highIn block.high upper (AtCenter.high block)⟩
    · rw [mapMin_center block]
      exact inside.1
    · rw [mapMax_center block]
      have := inside.2.2
      omega
    · exact fun node mem => (lower.inside node mem).2.2

/-- A sound history is a range map. -/
lemma History.Sound.rangeMap (sound : history.Sound key) : history.RangeMap key := by
  refine ⟨?_, sound.stored.locate sound.separated⟩
  obtain ⟨shape, rooted, members⟩ := sound.stored
  exact ⟨shape, rooted.holds, members, rooted.nodup,
    inPosition_of_placed (block_root key) rooted.placed (atCenter_root key)⟩

/-- An accepted insertion adds its node to the tree. -/
lemma History.Sound.insert (sound : history.Sound key) {newleaf : Nat} {keys : KeyRange}
    (accepts : history.Accepts key newleaf keys) :
    ∃ cells, ATree.insert key (update history.range newleaf keys) history.cells newleaf = some cells ∧
      tryinsert key (update history.range newleaf keys) history.cells newleaf = some (cells, true) ∧
      History.Sound key ⟨cells, update history.range newleaf keys, newleaf :: history.live⟩ := by
  obtain ⟨new, newAligned, newDisjoint⟩ := accepts
  have same : ∀ node ∈ history.live, update history.range newleaf keys node = history.range node := by
    intro node mem
    apply update_of_ne
    exact fun equal => new (equal ▸ mem)
  have aligned : ∀ node ∈ newleaf :: history.live,
    (update history.range newleaf keys node).PageAligned key := by
    intro node mem
    rcases mem_cons.mp mem with rfl | alive
    · rwa [update_self]
    · rw [same node alive]
      exact sound.aligned node alive
  have disjoint : ∀ first ∈ newleaf :: history.live, ∀ second ∈ newleaf :: history.live, first ≠ second →
      (update history.range newleaf keys first).Disjoint
        (update history.range newleaf keys second) := by
    intro first firstMem second secondMem differs
    rcases mem_cons.mp firstMem with rfl | firstAlive
    · rcases mem_cons.mp secondMem with rfl | secondAlive
      · exact absurd rfl differs
      · rw [update_self, same second secondAlive]
        exact newDisjoint second secondAlive
    · rcases mem_cons.mp secondMem with rfl | secondAlive
      · rw [update_self, same first firstAlive]
        exact (newDisjoint first firstAlive).symm
      · rw [same first firstAlive, same second secondAlive]
        exact sound.disjoint first firstAlive second secondAlive differs
  have keysAligned := aligned newleaf (by simp)
  obtain ⟨cells, inserted, tried, stored⟩ := (sound.stored.congr same).insert new
    (separated_of_aligned aligned disjoint) keysAligned.2.2.1 keysAligned.2.2.2
  exact ⟨cells, inserted, tried, stored, aligned, disjoint⟩

/-- The nodes that remain are aligned and disjoint as before. -/
lemma History.Sound.without (sound : history.Sound key) {wanted : Nat} {cells : Cells}
    (stored : Stored key history.range cells (liveWithout history.range history.live wanted)) :
    History.Sound key ⟨cells, history.range, liveWithout history.range history.live wanted⟩ := by
  have within : ∀ node ∈ liveWithout history.range history.live wanted, node ∈ history.live :=
    fun node mem => (mem_filter.mp mem).1
  exact ⟨stored, fun node mem => sound.aligned node (within node mem),
    fun first firstMem second secondMem =>
      sound.disjoint first (within first firstMem) second (within second secondMem)⟩

/-- The live list without the node of a key is the rest of the list. -/
lemma liveWithout_perm {live others : List Nat} {root wanted : Nat} (separated : Separated range live)
    (distinct : live.Nodup) (order : live.Perm (root :: others)) (held : Covers range wanted root) :
    others.Perm (liveWithout range live wanted) := by
  apply List.Perm.trans _ (order.filter _).symm
  rw [filter_cons_of_neg (by simpa using held)]
  apply List.Perm.of_eq
  symm
  apply filter_eq_self.mpr
  intro node mem
  have other : node ≠ root := fun equal => (nodup_cons.mp (order.nodup_iff.mp distinct)).1 (equal ▸ mem)
  have alive : node ∈ live := order.mem_iff.mpr (mem_cons_of_mem _ mem)
  simp only [decide_not, Bool.not_eq_eq_eq_not, Bool.not_true, decide_eq_false_iff_not]
  exact fun covers => other (separated.apart.eq_of_covers alive
    (order.mem_iff.mpr (by simp)) covers held)

/-- A lookup finds no live node, or leads to a pop that takes out the node. -/
lemma History.Sound.popAt (sound : history.Sound key) (wanted : Nat) :
    (plocate key history.range history.cells wanted = some none ∧
        History.Sound key ⟨history.cells, history.range,
          liveWithout history.range history.live wanted⟩) ∨
      ∃ position cells root, plocate key history.range history.cells wanted = some (some position) ∧
        ATree.popAt key history.range (callDepth key) position.proot position.semi position.level
          history.cells = some (cells, root) ∧
        History.Sound key ⟨cells, history.range, liveWithout history.range history.live wanted⟩ := by
  rcases sound.stored.plocate sound.separated wanted with
    ⟨missed, free⟩ | ⟨position, root, others, located, _, order, held, ⟨cells, done, stored⟩, _⟩
  · have all : liveWithout history.range history.live wanted = history.live := by
      apply filter_eq_self.mpr
      intro node mem
      simpa using free node mem
    exact .inl ⟨missed, sound.without (by rw [all]; exact sound.stored)⟩
  · exact .inr ⟨position, cells, root, located, done,
      sound.without (stored.perm (liveWithout_perm sound.separated sound.stored.nodup order held))⟩

/-- One legal call keeps the history sound. -/
lemma History.step_sound (key : KeyType) (history : History) (call : Call) (sound : history.Sound key)
    (legal : history.Legal key call) : ∃ next, history.step key call = some next ∧ next.Sound key := by
  cases call with
  | insert newleaf keys =>
    obtain ⟨cells, done, _, kept⟩ := sound.insert legal
    exact ⟨_, by simp only [step, done]; rfl, kept⟩
  | tryinsert newleaf keys =>
    obtain ⟨cells, _, done, kept⟩ := sound.insert legal
    exact ⟨_, by simp only [step, done]; rfl, kept⟩
  | remove wanted =>
    rcases sound.popAt wanted with ⟨missed, kept⟩ | ⟨position, cells, root, located, done, kept⟩
    · refine ⟨_, ?_, kept⟩
      simp only [step, remove, removeAt]
      rw [show plocateAt key history.range history.cells _ _ _ _ _ = _ from missed]
      rfl
    · refine ⟨_, ?_, kept⟩
      simp only [step, remove, removeAt]
      rw [show plocateAt key history.range history.cells _ _ _ _ _ = _ from located]
      simp only [Option.bind_some, done]
      rfl
  | popAt wanted =>
    rcases sound.popAt wanted with ⟨missed, kept⟩ | ⟨position, cells, root, located, done, kept⟩
    · exact ⟨_, by simp only [step, missed]; rfl, kept⟩
    · exact ⟨_, by simp only [step, located, Option.bind_some, done]; rfl, kept⟩

/-- Every legal history of an address tree is a map from the live ranges to their nodes. -/
theorem aTree_rangeMap (key : KeyType) (cells : Cells) (range : Ranges) (calls : List Call)
    (legal : StepRun.Meets (History.step key) (History.Legal key) (History.start cells range) calls) :
    ∃ final, StepRun.run (History.step key) (History.start cells range) calls = some final ∧
    final.RangeMap key := by
  have empty : History.Sound key (History.start cells range) :=
    ⟨stored_nil key range (by simp [History.start]), by simp [History.start], by simp [History.start]⟩
  obtain ⟨final, reached, sound⟩ := StepRun.run_invariant (History.step_sound key) calls _ empty legal
  exact ⟨final, reached, sound.rangeMap⟩

/-- The second node covers the centre of all keys and displaces the first one. -/
theorem aTree_rangeMap_displaced :
    ∃ final, StepRun.run (History.step uintptr32) (History.start (fun _ => none) fun _ => ⟨0, 0⟩)
      [.insert 1 ⟨0x1000, 0x1fff⟩, .tryinsert 2 ⟨0x7ffff000, 0x80000fff⟩, .insert 3 ⟨0x3000, 0x3fff⟩,
        .popAt 0x80000000, .remove 0x1234] = some final ∧ final.RangeMap uintptr32 :=
  aTree_rangeMap uintptr32 (fun _ => none) (fun _ => ⟨0, 0⟩) _ (by decide)

end ATree

end KosKernel.Hybrid
