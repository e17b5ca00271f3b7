import KosKernel.Dev.DeviceUnload

namespace KosKernel.Dev
open Hybrid LinkTree Function List Finset Option

/-- The order of the walk: a leaf, those above it, those below it. -/
def visits (cells : Cells) : Nat → Option Nat → List Nat
  | 0, _ => []
  | _ + 1, none => []
  | fuel + 1, some leaf => leaf :: (visits cells fuel (cells (.high leaf)) ++ visits cells fuel
      (cells (.low leaf)))

/-- The minor trees of a leaf. -/
def leafTrees (ns : Devns) (leaf : Nat) : List MinorTree :=
  (ns.maBvec leaf).take (majorCnt (ns.range leaf))

/-- The minor trees of the namespace in the order of the walk. -/
def visitedTrees (ns : Devns) : List MinorTree :=
  (visits ns.dTree (majorT.bits + 1) (ns.dTree .head)).flatMap (leafTrees ns)

section Turn
variable (iOwner : Nat → Nat) (inst : Nat)

/-- The device of the instance that a turn meets first. -/
def target (trees : List MinorTree) : Option Device := trees.findSome? (meets iOwner inst)

/-- The walk leaves every tree that it visits before it has met a device. -/
def AllAdvance : List MinorTree → Prop
  | [] => True
  | tree :: rest => Advances iOwner inst tree ∧ (meets iOwner inst tree = none → AllAdvance rest)

instance decidableAllAdvance : ∀ trees : List MinorTree, Decidable (AllAdvance iOwner inst trees)
  | [] => isTrue trivial
  | tree :: rest =>
    have := decidableAllAdvance rest
    by
      unfold AllAdvance
      infer_instance

variable {iOwner inst}

lemma target_cons (tree : MinorTree) (rest : List MinorTree) : target iOwner inst (tree :: rest) =
    if meets iOwner inst tree = none then target iOwner inst rest else meets iOwner inst tree := by
  unfold target
  rw [List.findSome?_cons]
  cases meets iOwner inst tree <;> rfl

variable (first second : List MinorTree)

lemma target_append : target iOwner inst (first ++ second) =
    if target iOwner inst first = none then target iOwner inst second else target iOwner inst first := by
  unfold target
  rw [List.findSome?_append]
  cases first.findSome? (meets iOwner inst) <;> rfl

lemma allAdvance_append : AllAdvance iOwner inst (first ++ second) ↔
    AllAdvance iOwner inst first ∧
    (target iOwner inst first = none → AllAdvance iOwner inst second) := by
  induction first with
  | nil => simp [AllAdvance, target]
  | cons tree rest ih =>
    rw [cons_append, AllAdvance, AllAdvance, ih, target_cons]
    by_cases none : meets iOwner inst tree = none
    · simp [none, and_assoc]
    · simp [none]

variable {trees : List MinorTree} {fuel : Nat}

/-- The first device that is met lies in a visited tree. -/
lemma mem_of_target {device : Device} (met : target iOwner inst trees = some device) :
    ∃ tree ∈ trees, device ∈ tree.inorder ∧ Owned iOwner inst device := by
  obtain ⟨tree, mem, found⟩ := exists_of_findSome?_eq_some met
  exact ⟨tree, mem, mem_of_meets found⟩

/-- A walk that meets no device has seen every tree, and none holds an owned device. -/
lemma free_of_target (advance : AllAdvance iOwner inst trees) (none : target iOwner inst trees = none) :
    ∀ tree ∈ trees, ∀ device ∈ tree.inorder, ¬ Owned iOwner inst device := by
  induction trees with
  | nil => exact fun tree mem => nomatch mem
  | cons tree rest ih =>
    rw [target_cons] at none
    have missed : meets iOwner inst tree = Option.none := by
      by_contra met
      rw [if_neg met] at none
      exact met none
    rw [if_pos missed] at none
    intro other mem
    rcases mem_cons.mp mem with rfl | mem
    · exact (meets_eq_none advance.1).mp missed
    · exact ih (advance.2 missed) none other mem

variable {ns : Devns} {shape : Shape} {pointer : Option Nat}

/-- The loop over a vector deletes the first device that it meets. -/
lemma vectorDeleteFromInstance_eq {omalloc : Nat} (advance : AllAdvance iOwner inst trees)
    (deletes : Deletes ns omalloc (target iOwner inst trees))
    (enough : ∀ tree ∈ trees, tree.inorder.length ≤ fuel) :
    vectorDeleteFromInstance iOwner inst omalloc fuel trees ns =
      deleteMet ns omalloc (target iOwner inst trees) := by
  induction trees with
  | nil => rfl
  | cons tree rest ih =>
    rw [target_cons] at deletes ⊢
    rw [vectorDeleteFromInstance]
    have later (missed : meets iOwner inst tree = none) :
        vectorDeleteFromInstance iOwner inst omalloc fuel rest ns =
          deleteMet ns omalloc (target iOwner inst rest) := by
      rw [if_pos missed] at deletes
      exact ih (advance.2 missed) deletes fun other mem => enough other (mem_cons_of_mem _ mem)
    by_cases empty : tree = .null
    · subst empty
      rw [later rfl]
      rfl
    rw [if_neg empty]
    have here : Deletes ns omalloc (meets iOwner inst tree) := by
      intro device met
      rw [if_neg (by simp [met])] at deletes
      exact deletes device met
    rw [deviceDeleteFromInstance_eq empty advance.1 here (enough tree mem_cons_self),
      here.returnFound_eq]
    split
    · rename_i missed
      exact later missed
    · rfl

/-- The leaves of a shape in the order of the walk. -/
def upperFirst : Shape → List Nat
  | .leaf => []
  | .node low root high => root :: (upperFirst high ++ upperFirst low)

lemma upperFirst_perm (shape : Shape) : (upperFirst shape).Perm shape.nodes := by
  induction shape with
  | leaf => exact List.Perm.refl _
  | node low root high lower upper =>
    exact (((upper.append lower).trans perm_append_comm).cons root).trans perm_middle.symm

lemma visits_eq {cells : Cells} (holds : Holds cells pointer shape) (enough : shape.depth < fuel) :
    visits cells fuel pointer = upperFirst shape := by
  induction shape generalizing pointer fuel with
  | leaf =>
    obtain _ | fuel := fuel
    · omega
    rw [holds_leaf.mp holds]
    rfl
  | node low root high lower upper =>
    obtain _ | fuel := fuel
    · omega
    obtain ⟨rfl, lowHolds, highHolds⟩ := holds
    rw [Shape.depth] at enough
    rw [visits, upperFirst, upper highHolds (by omega), lower lowHolds (by omega)]

variable (iOwner inst) in
/-- The walk through a pointer to a leaf, which ends at a null pointer. -/
def majorTurn (omalloc fuel : Nat) (ns : Devns) : Option Nat → Option (Devns × Option Device)
  | none => some (ns, none)
  | some root => devnsMajorDeleteFromInstance iOwner inst omalloc fuel ns root

lemma returnFound_null (found : Option (Devns × Option Device)) :
    returnFound found (fun after => some (after, none)) = found := by
  cases found with
  | none => rfl
  | some pair =>
    obtain ⟨_, result⟩ := pair
    cases result <;> rfl

/-- A leaf without a device leads to the leaves above it and then to those below it. -/
lemma majorTurn_succ (omalloc fuel : Nat) (ns : Devns) (root : Nat) :
    majorTurn iOwner inst omalloc (fuel + 1) ns (some root) =
      returnFound (vectorDeleteFromInstance iOwner inst omalloc fuel (leafTrees ns root) ns) fun after =>
        returnFound (majorTurn iOwner inst omalloc fuel after (after.dTree (.high root))) fun later =>
          majorTurn iOwner inst omalloc fuel later (after.dTree (.low root)) := by
  rw [majorTurn, devnsMajorDeleteFromInstance]
  congr 1
  funext after
  cases after.dTree (.low root) with
  | some aMin => cases after.dTree (.high root) <;> rfl
  | none =>
    cases after.dTree (.high root) with
    | none => rfl
    | some aMax => exact (returnFound_null _).symm

/-- The walk over the majors of a shape deletes the first device that it meets. -/
lemma majorTurn_eq {omalloc bound : Nat} (holds : Holds ns.dTree pointer shape)
    (advance : AllAdvance iOwner inst ((upperFirst shape).flatMap (leafTrees ns)))
    (deletes : Deletes ns omalloc (target iOwner inst ((upperFirst shape).flatMap (leafTrees ns))))
    (sizes : ∀ leaf ∈ upperFirst shape, ∀ tree ∈ leafTrees ns leaf, tree.inorder.length ≤ bound)
    (enough : shape.depth + bound ≤ fuel) :
    majorTurn iOwner inst omalloc fuel ns pointer =
      deleteMet ns omalloc (target iOwner inst ((upperFirst shape).flatMap (leafTrees ns))) := by
  induction shape generalizing pointer fuel with
  | leaf =>
    rw [holds_leaf.mp holds]
    rfl
  | node low root high lower upper =>
    obtain ⟨rfl, lowHolds, highHolds⟩ := holds
    rw [Shape.depth] at enough
    obtain _ | fuel := fuel
    · omega
    simp only [upperFirst, List.flatMap_cons, List.flatMap_append] at advance deletes ⊢
    simp only [upperFirst, List.mem_cons, List.mem_append] at sizes
    obtain ⟨here, above⟩ := (allAdvance_append _ _).mp advance
    rw [target_append] at deletes ⊢
    have first : Deletes ns omalloc (target iOwner inst (leafTrees ns root)) := by
      intro device met
      rw [if_neg (by simp [met])] at deletes
      exact deletes device met
    rw [majorTurn_succ, vectorDeleteFromInstance_eq here first fun tree mem =>
      le_trans (sizes root (.inl rfl) tree mem) (by omega), first.returnFound_eq]
    split
    · rename_i missed
      rw [if_pos missed, target_append] at deletes
      obtain ⟨highAdvance, below⟩ := (allAdvance_append _ _).mp (above missed)
      have second : Deletes ns omalloc
        (target iOwner inst ((upperFirst high).flatMap (leafTrees ns))) := by
        intro device met
        rw [if_neg (by simp [met])] at deletes
        exact deletes device met
      rw [upper highHolds highAdvance second (fun leaf mem => sizes leaf (.inr (.inl mem))) (by omega),
        second.returnFound_eq, target_append]
      split
      · rename_i none
        rw [if_pos none] at deletes
        exact lower lowHolds (below none) deletes (fun leaf mem => sizes leaf (.inr (.inr mem)))
          (by omega)
      · rfl
    · rfl

end Turn

namespace Devns
variable {self : Devns} {slots : Slots} {leaves : List Nat} {iOwner : Nat → Nat} {inst : Nat}

/-- Each minor tree is in order, and its devices carry the major under which it stands. -/
def Filed (slots : Slots) : Prop :=
  ∀ id tree, slots id = some tree → tree.Ordered Device.btreeVal ∧ ∀ device ∈ tree.inorder,
    major device.dId = id

lemma eq_of_major_minor {first second : Nat} (sameMajor : major first = major second)
    (sameMinor : minor first = minor second) : first = second := by
  unfold major minorBits at sameMajor
  unfold minor minorMask minorBits at sameMinor
  rw [Nat.one_shiftLeft, Nat.and_two_pow_sub_one_eq_mod, Nat.and_two_pow_sub_one_eq_mod] at sameMinor
  omega

/-- The lookup of a number finds the device that carries it. -/
lemma Filed.slotsLookup_eq_some (filed : Filed slots) (id : Nat) (device : Device) :
    slotsLookup slots id = some device ↔ device.dId = id ∧ ∃ tree, slots (major id) = some tree ∧
    device ∈ tree.inorder := by
  unfold slotsLookup
  constructor
  · intro found
    obtain ⟨tree, held, got⟩ := bind_eq_some_iff.mp found
    obtain ⟨ordered, majors⟩ := filed _ tree held
    obtain ⟨mem, same⟩ := (BTree.get_eq_some ordered _ _).mp got
    exact ⟨eq_of_major_minor (majors device mem) same, tree, held, mem⟩
  · rintro ⟨rfl, tree, held, mem⟩
    rw [held]
    exact (BTree.get_eq_some (filed _ tree held).1 _ _).mpr ⟨mem, rfl⟩

variable {id omalloc : Nat} {tree : MinorTree} {device : Device} {dev : Option Nat}

/-- The deletion of a device returns what it unlinks from the tree of its major. -/
lemma deleteUnlocked_result (sound : Sound self slots leaves) {release : Bool} {after : Devns}
    {result : Option Device} (done : self.deleteUnlocked dev id release omalloc = some (after, result)) :
    result = (slots (major id)).bind fun tree => (deleteMinor tree dev id).map Prod.snd := by
  rcases sound.plocate (major id) with
    ⟨missed, free⟩ | ⟨pmajor, leaf, front, back, found, here, rfl, covers, _⟩
  · rw [deleteUnlocked, missed] at done
    cases done
    rw [sound.absent free]
    rfl
  · obtain ⟨tree, taken, held⟩ := sound.held (by simp) covers
    rw [deleteUnlocked, found, bind_some] at done
    dsimp only at done
    rw [here, bind_some, held, bind_some] at done
    rw [taken, bind_some]
    cases deleted : deleteMinor tree dev id with
    | none =>
      rw [deleted] at done
      cases done
      rfl
    | some pair =>
      rw [deleted] at done
      dsimp only at done
      split at done
      · obtain ⟨_, _, same⟩ := map_eq_some_iff.mp done
        exact (congrArg Prod.snd same).symm
      · cases done
        rfl

/-- A deletion unlinks the device that a lookup finds. -/
lemma deleteMinor_found (ordered : tree.Ordered Device.btreeVal) {left : MinorTree}
    (deleted : deleteMinor tree dev id = some (left, device)) :
      devnsDeviceGet tree (minor id) = some device := by
  unfold deleteMinor at deleted
  cases found : devnsDevicePget tree (minor id) with
  | none =>
    rw [found] at deleted
    exact nomatch deleted
  | some pdevice =>
    obtain ⟨btMin, elem, btMax, before, after, held, same, context⟩ := BTree.pget_slot found
    rw [found] at deleted
    dsimp only at deleted
    rw [held] at deleted
    dsimp only at deleted
    split at deleted
    · exact nomatch deleted
    · cases deleted
      refine (BTree.get_eq_some ordered _ _).mpr ⟨?_, same⟩
      rw [(context .null).2]
      simp [BTree.inorder]

/-- This deletion moves no subtree away, and a release of the major is safe. -/
def DeleteSafe (self : Devns) (trees : List MinorTree) (device : Device) : Prop :=
  (∀ tree ∈ trees, device ∈ tree.inorder → ∀ pdevice ∈ devnsDevicePget tree (minor device.dId),
    (tree.deref pdevice).KeepsUpper) ∧
    (self.Empties (some device.address) device.dId → self.ReleaseSafe (major device.dId))

instance (self : Devns) (trees : List MinorTree) (device : Device) :
    Decidable (self.DeleteSafe trees device) := by
  unfold DeleteSafe
  infer_instance

/-- A safe deletion takes exactly its device out of the namespace. -/
lemma deleteUnlocked_exact (sound : Sound self slots leaves) (filed : Filed slots)
    (held : slots (major device.dId) = some tree) (mem : device ∈ tree.inorder) {trees : List MinorTree}
    (listed : tree ∈ trees) (safe : self.DeleteSafe trees device) (fresh : omalloc ∉ leaves) :
    ∃ after others rest, self.deleteUnlocked (some device.address) device.dId true omalloc =
      some (after, some device) ∧
      Sound after others rest ∧ Filed others ∧
      ∀ id, slotsLookup others id = if id = device.dId then none else slotsLookup slots id := by
  obtain ⟨ordered, majors⟩ := filed _ tree held
  have got : devnsDeviceGet tree (minor device.dId) = some device :=
    (BTree.get_eq_some ordered _ _).mpr ⟨mem, rfl⟩
  obtain ⟨kept, lookups⟩ := MinorTree.deleteMinor_agrees ordered (fun _ => rfl)
    (some device.address) device.dId
    fun pdevice found => safe.1 tree listed mem pdevice found
  have live : MinorTree.liveDelete (devnsDeviceGet tree) (some device.address) device.dId =
      update (devnsDeviceGet tree) (minor device.dId) none := by
    unfold MinorTree.liveDelete
    rw [got]
    simp
  obtain ⟨after, result, rest, done, whole⟩ := deleteUnlocked_sound sound (some device.address) true
    (fun _ => safe.2) fresh
  have returned := deleteUnlocked_result sound done
  rw [held, bind_some] at returned
  rw [live] at lookups
  cases deleted : deleteMinor tree (some device.address) device.dId with
  | none =>
    have lost := lookups (minor device.dId)
    rw [deleted, map_none, getD_none, update_self, got] at lost
    exact nomatch lost
  | some pair =>
    obtain ⟨left, other⟩ := pair
    obtain rfl : device = other := some.inj (got.symm.trans (deleteMinor_found ordered deleted))
    rw [deleted] at returned kept lookups
    simp only [map_some, getD_some] at returned kept lookups
    have changed : slotsDelete slots (some device.address) device.dId true =
        update slots (major device.dId) (if left = .null then none else some left) := by
      simp [slotsDelete, held, deleted]
    rw [changed] at whole
    refine ⟨after, _, rest, by rw [done, returned], whole, ?_, ?_⟩
    · intro id other taken
      by_cases here : id = major device.dId
      · subst here
        rw [update_self] at taken
        obtain ⟨_, rfl⟩ : left ≠ .null ∧ left = other := by
          split at taken
          · exact nomatch taken
          · exact ⟨‹_›, some.inj taken⟩
        refine ⟨kept, fun remaining inside => majors remaining ?_⟩
        have found := (BTree.get_eq_some kept _ _).mpr ⟨inside, rfl⟩
        change devnsDeviceGet left (minor remaining.dId) = some remaining at found
        rw [lookups] at found
        by_cases same : minor remaining.dId = minor device.dId
        · rw [same, update_self] at found
          exact nomatch found
        · rw [update_of_ne same] at found
          exact ((BTree.get_eq_some ordered _ _).mp found).1
      · rw [update_of_ne here] at taken
        exact filed id other taken
    · intro id
      unfold slotsLookup
      by_cases here : major id = major device.dId
      · have read : (update slots (major device.dId) (if left = .null then none else some left)
            (major id)).bind (devnsDeviceGet · (minor id)) = devnsDeviceGet left (minor id) := by
          rw [here, update_self]
          split
          · rename_i empty
            rw [empty]
            rfl
          · rfl
        rw [read, lookups, here, held, bind_some]
        by_cases same : minor id = minor device.dId
        · rw [if_pos (eq_of_major_minor here same), same, update_self]
        · rw [if_neg fun equal => same (by rw [equal]), update_of_ne same]
      · have differs : id ≠ device.dId := fun equal => here (by rw [equal])
        rw [if_neg differs, update_of_ne here]

/-- The walk over the majors sees exactly the minor trees of the slots. -/
lemma Sound.mem_visitedTrees (sound : Sound self slots leaves) (tree : MinorTree) :
    tree ∈ visitedTrees self ↔ ∃ id, slots id = some tree := by
  obtain ⟨shape, rooted, members⟩ := sound.stored
  have order : (upperFirst shape).Perm leaves := (upperFirst_perm shape).trans members
  unfold visitedTrees
  rw [visits_eq rooted.holds (Nat.lt_succ_of_le rooted.placed.depth_le), mem_flatMap]
  constructor
  · rintro ⟨leaf, mem, inside⟩
    have leafSound := sound.leaf leaf (order.mem_iff.mp mem)
    rw [leafTrees, take_of_length_le (Nat.le_of_eq leafSound.length)] at inside
    obtain ⟨index, bound, rfl⟩ := getElem_of_mem inside
    have order := leafSound.order
    have length := leafSound.length
    unfold majorCnt at length
    have slot := leafSound.slot ((self.range leaf).aVmin + index) ⟨by omega, by omega⟩
    rw [Nat.add_sub_cancel_left, List.getElem?_eq_getElem bound] at slot
    exact ⟨_, slot.symm⟩
  · rintro ⟨id, held⟩
    obtain ⟨leaf, mem, covers⟩ := sound.covered id (by rw [held]; rfl)
    have leafSound := sound.leaf leaf mem
    refine ⟨leaf, order.mem_iff.mpr mem, ?_⟩
    rw [leafTrees, take_of_length_le (Nat.le_of_eq leafSound.length)]
    exact mem_of_getElem? ((leafSound.slot id covers).trans held)

/-- A turn leaves every visited tree and deletes the device safely. -/
def UnloadClear (iOwner : Nat → Nat) (inst : Nat) (self : Devns) (omalloc : Nat) : Prop :=
  AllAdvance iOwner inst (visitedTrees self) ∧ omalloc ∉ self.sorted ∧
    ∀ device ∈ target iOwner inst (visitedTrees self), self.DeleteSafe (visitedTrees self) device

instance (iOwner : Nat → Nat) (inst : Nat) (self : Devns) (omalloc : Nat) :
    Decidable (UnloadClear iOwner inst self omalloc) := by
  unfold UnloadClear
  infer_instance

/-- A clear turn returns and either finds no device of the instance or takes one out. -/
lemma unloadTurn_clear (sound : Sound self slots leaves) (filed : Filed slots)
    (clear : UnloadClear iOwner inst self omalloc) :
    ∃ bound, (∀ fuel, bound ≤ fuel → unloadTurn iOwner inst omalloc fuel self =
        deleteMet self omalloc (target iOwner inst (visitedTrees self))) ∧
      match target iOwner inst (visitedTrees self) with
      | none => ∀ id device, slotsLookup slots id = some device → ¬ Owned iOwner inst device
      | some device => Owned iOwner inst device ∧ slotsLookup slots device.dId = some device ∧
          ∃ after others rest, self.deleteUnlocked (some device.address) device.dId true omalloc =
              some (after, some device) ∧ Sound after others rest ∧ Filed others ∧
            ∀ id, slotsLookup others id = if id = device.dId then none else slotsLookup slots id := by
  obtain ⟨advance, fresh, safe⟩ := clear
  rw [sound.sorted_eq] at fresh
  have listed (device : Device) (met : target iOwner inst (visitedTrees self) = some device) :
      ∃ tree ∈ visitedTrees self, slots (major device.dId) = some tree ∧ device ∈ tree.inorder ∧
        Owned iOwner inst device := by
    obtain ⟨tree, listed, mem, owned⟩ := mem_of_target met
    obtain ⟨id, held⟩ := (sound.mem_visitedTrees tree).mp listed
    obtain rfl := (filed id tree held).2 device mem
    exact ⟨tree, listed, held, mem, owned⟩
  have deletes : Deletes self omalloc (target iOwner inst (visitedTrees self)) := by
    intro device met
    obtain ⟨tree, listed, held, mem, _⟩ := listed device met
    obtain ⟨after, _, _, deleted, _⟩ :=
      deleteUnlocked_exact sound filed held mem listed (safe device met) fresh
    exact ⟨after, deleted⟩
  obtain ⟨shape, rooted, _⟩ := sound.stored
  have seen : visitedTrees self = (upperFirst shape).flatMap (leafTrees self) := by
    rw [visitedTrees, visits_eq rooted.holds (Nat.lt_succ_of_le rooted.placed.depth_le)]
  obtain ⟨bound, sizes⟩ : ∃ bound, ∀ tree ∈ visitedTrees self, tree.inorder.length ≤ bound :=
    ⟨((visitedTrees self).map (·.inorder.length)).sum,
      fun tree mem => single_le_sum (by simp) _ (mem_map_of_mem mem)⟩
  refine ⟨shape.depth + bound, ?_, ?_⟩
  · intro fuel enough
    rw [seen] at advance deletes sizes ⊢
    exact majorTurn_eq rooted.holds advance deletes
      (fun leaf mem tree inside => sizes tree (mem_flatMap.mpr ⟨leaf, mem, inside⟩)) enough
  · split
    · rename_i none
      intro id device found
      obtain ⟨_, tree, held, mem⟩ := (filed.slotsLookup_eq_some id device).mp found
      exact free_of_target advance none tree ((sound.mem_visitedTrees tree).mpr ⟨_, held⟩) device mem
    · rename_i device met
      obtain ⟨tree, listed, held, mem, owned⟩ := listed device met
      exact ⟨owned, (filed.slotsLookup_eq_some _ _).mpr ⟨rfl, tree, held, mem⟩,
        deleteUnlocked_exact sound filed held mem listed (safe device met) fresh⟩

open scoped Classical in
/-- The numbers of the devices that belong to the instance. -/
noncomputable def ownedIds (iOwner : Nat → Nat) (inst : Nat) (slots : Slots) : Finset Nat :=
  (Finset.range (2 ^ 32)).filter fun id => ∃ device, slotsLookup slots id = some device ∧
    Owned iOwner inst device

/-- Every turn of the loop is clear in the state that it meets. -/
def LoopClear (iOwner : Nat → Nat) (inst : Nat) (omalloc : Nat → Nat) : Nat → Nat → Devns → Prop
  | 0, _, _ => True
  | turns + 1, turn, self => UnloadClear iOwner inst self (omalloc turn) ∧
      ∀ fuel after device, unloadTurn iOwner inst (omalloc turn) fuel self = some (after, some device) →
        LoopClear iOwner inst omalloc turns (turn + 1) after

/-- A sound table has devices for existing numbers only. -/
lemma Sound.id_lt (sound : Sound self slots leaves) (found : slotsLookup slots id = some device) :
    id < 2 ^ 32 := by
  obtain ⟨tree, held, _⟩ := bind_eq_some_iff.mp found
  obtain ⟨leaf, mem, covers⟩ := sound.covered (major id) (by rw [held]; rfl)
  have bounded := le_trans covers.2 (sound.leaf leaf mem).bounded
  unfold major minorBits majorMask majorBits at bounded
  omega

/-- The deletion of an owned device leaves fewer of them. -/
lemma ownedIds_card_lt (sound : Sound self slots leaves) {others : Slots}
    (owned : Owned iOwner inst device) (found : slotsLookup slots device.dId = some device)
    (lookups : ∀ id, slotsLookup others id = if id = device.dId then none else slotsLookup slots id) :
    (ownedIds iOwner inst others).card < (ownedIds iOwner inst slots).card := by
  apply card_lt_card
  rw [ssubset_iff_of_subset]
  · refine ⟨device.dId, ?_, ?_⟩
    · exact Finset.mem_filter.mpr ⟨Finset.mem_range.mpr (sound.id_lt found), device, found, owned⟩
    · intro mem
      obtain ⟨_, left, remains, _⟩ := Finset.mem_filter.mp mem
      rw [lookups, if_pos rfl] at remains
      exact nomatch remains
  · intro id mem
    obtain ⟨small, left, remains, leftOwned⟩ := Finset.mem_filter.mp mem
    rw [lookups] at remains
    split at remains
    · exact nomatch remains
    · exact mem_filter.mpr ⟨small, left, remains, leftOwned⟩

/-- The loop ends, and it has deleted exactly the devices of the instance. -/
lemma devnsDeleteFromInstance_loop (iOwner : Nat → Nat) (inst : Nat)
    (omalloc : Nat → Nat) (count : Nat) :
    ∀ {self : Devns} {slots : Slots} {leaves : List Nat} (turn : Nat),
      (ownedIds iOwner inst slots).card < count →
      Sound self slots leaves → Filed slots → (∀ turns, LoopClear iOwner inst omalloc turns turn self) →
      ∃ bound after others rest, (∀ fuel, bound ≤ fuel →
        devnsDeleteFromInstance iOwner inst omalloc fuel turn self = some after) ∧
          Sound after others rest ∧
          ∀ id, slotsLookup others id =
            (slotsLookup slots id).filter fun device => ¬ Owned iOwner inst device := by
  induction count with
  | zero => exact fun _ less => absurd less (Nat.not_lt_zero _)
  | succ count ih =>
    intro self slots leaves turn few sound filed clear
    obtain ⟨bound, turned, outcome⟩ := unloadTurn_clear sound filed (clear 1).1
    cases met : target iOwner inst (visitedTrees self) with
    | none =>
      rw [met] at turned outcome
      refine ⟨bound + 1, self, slots, leaves, ?_, sound, ?_⟩
      · intro fuel enough
        obtain _ | fuel := fuel
        · omega
        rw [devnsDeleteFromInstance, turned fuel (by omega)]
        rfl
      · intro id
        cases found : slotsLookup slots id with
        | none => rfl
        | some device => simp [Option.filter, outcome id device found]
    | some device =>
      rw [met] at turned outcome
      obtain ⟨owned, found, after, others, rest, deleted, kept, keptFiled, lookups⟩ := outcome
      rw [deleteMet, deleted] at turned
      obtain ⟨later, last, final, lastRest, looped, lastSound, lastLookups⟩ := ih (turn + 1)
        (lt_of_lt_of_le (ownedIds_card_lt sound owned found lookups) (Nat.le_of_lt_succ few)) kept
          keptFiled
        fun turns => (clear (turns + 1)).2 bound after device (turned bound le_rfl)
      refine ⟨max bound later + 1, last, final, lastRest, ?_, lastSound, ?_⟩
      · intro fuel enough
        obtain _ | fuel := fuel
        · omega
        rw [devnsDeleteFromInstance, turned fuel (by omega)]
        exact looped fuel (by omega)
      · intro id
        rw [lastLookups, lookups]
        split
        · rename_i same
          rw [same, found]
          simp [Option.filter, owned]
        · rfl

/-- The call deletes exactly an owned device of the tree, if there is one. -/
def UnloadsOne (iOwner : Nat → Nat) (inst omalloc : Nat) (self : Devns) (tree : MinorTree) : Prop :=
  ∃ fuel after result, deviceDeleteFromInstance iOwner inst omalloc fuel self tree =
    some (after, result) ∧
    (result = none ↔ ∀ device ∈ tree.inorder, ¬ Owned iOwner inst device) ∧
    (∀ device ∈ result, device ∈ tree.inorder ∧ Owned iOwner inst device) ∧
    ∀ id, after.lookupUnlocked id = if ∃ device ∈ result,
      id = device.dId then some none else self.lookupUnlocked id

/-- A walk that leaves every node and a safe deletion unload one device. -/
lemma unloadsOne_of_advances (sound : Sound self slots leaves) (filed : Filed slots)
    (held : slots id = some tree)
    (present : tree ≠ .null) (fresh : omalloc ∉ leaves) (advances : Advances iOwner inst tree)
    (safe : ∀ device ∈ meets iOwner inst tree, self.DeleteSafe [tree] device) :
    UnloadsOne iOwner inst omalloc self tree := by
  cases met : meets iOwner inst tree with
  | none =>
    have nothing : Deletes self omalloc (meets iOwner inst tree) := by
      rw [met]
      exact fun device found => nomatch found
    have walked := deviceDeleteFromInstance_eq present advances nothing (le_refl _)
    rw [met] at walked
    refine ⟨_, self, none, walked, iff_of_true rfl ((meets_eq_none advances).mp met), ?_, ?_⟩
    · exact fun device found => nomatch found
    · simp
  | some device =>
    obtain ⟨mem, owned⟩ := mem_of_meets met
    obtain rfl := (filed id tree held).2 device mem
    obtain ⟨after, others, rest, deleted, kept, _, lookups⟩ := deleteUnlocked_exact sound filed held mem
      (List.mem_singleton_self tree) (safe device met) fresh
    have deletes : Deletes self omalloc (meets iOwner inst tree) := by
      intro other same
      obtain rfl : device = other := some.inj (met.symm.trans same)
      exact ⟨after, deleted⟩
    have walked := deviceDeleteFromInstance_eq present advances deletes (le_refl _)
    rw [met, deleteMet, deleted] at walked
    refine ⟨_, after, some device, walked, ?_, ?_, ?_⟩
    · exact iff_of_false (by simp) fun none => none device mem owned
    · rintro other ⟨rfl⟩
      exact ⟨mem, owned⟩
    · intro id
      rw [kept.lookupUnlocked, sound.lookupUnlocked, lookups]
      by_cases same : id = device.dId <;> simp [same]

/-- A loop of clear turns ends and deletes exactly the devices of the instance. -/
theorem deleteFromInstance_exact (iOwner : Nat → Nat) (inst : Nat) {self : Devns} {slots : Slots}
    {leaves : List Nat} (sound : Sound self slots leaves) (filed : Filed slots) :
    (∀ id tree omalloc, slots id = some tree → tree ≠ .null → omalloc ∉ leaves →
      (UnloadsOne iOwner inst omalloc self tree → Advances iOwner inst tree) ∧
      (Advances iOwner inst tree → (∀ device ∈ meets iOwner inst tree, self.DeleteSafe [tree] device) →
        UnloadsOne iOwner inst omalloc self tree)) ∧
    ∀ omalloc, (∀ turns, LoopClear iOwner inst omalloc turns 0 self) →
      ∃ fuel after, devnsDeleteFromInstance iOwner inst omalloc fuel 0 self = some after ∧
      ∀ id, after.lookupUnlocked id =
          (self.lookupUnlocked id).map (·.filter fun device => ¬ Owned iOwner inst device) := by
  constructor
  · intro id tree omalloc held present fresh
    refine ⟨?_, unloadsOne_of_advances sound filed held present fresh⟩
    rintro ⟨fuel, after, result, returned, _⟩
    exact (advances_of_returns returned).1
  · intro omalloc clear
    obtain ⟨bound, after, others, rest, looped, kept, lookups⟩ :=
      devnsDeleteFromInstance_loop iOwner inst omalloc _ 0 (Nat.lt_succ_self _) sound filed clear
    refine ⟨bound, after, looped bound le_rfl, fun id => ?_⟩
    rw [kept.lookupUnlocked, sound.lookupUnlocked, lookups]
    rfl

/-- The loop deletes the two devices of an instance and leaves the one of another between them. -/
theorem deleteFromInstance_exact_two : let owner := fun device => if device = 200 then 8 else 7
    ∃ final, StepRun.run History.step (History.start blank)
        [.insert ⟨100, 0⟩ 0x100001 1, .insert ⟨200, 0⟩ 0x100002 2, .insert ⟨300, 0⟩ 0x100003 3] =
          some final ∧
      ∃ fuel after, devnsDeleteFromInstance owner 7 (fun _ => 9) fuel 0 final.self = some after ∧
        ∀ id, after.lookupUnlocked id =
          (final.self.lookupUnlocked id).map (·.filter fun device => ¬ Owned owner 7 device) := by
  intro owner
  obtain ⟨final, reached, leaves, sound⟩ := StepRun.run_invariant History.step_sound
    [.insert ⟨100, 0⟩ 0x100001 1, .insert ⟨200, 0⟩ 0x100002 2, .insert ⟨300, 0⟩ 0x100003 3]
    (History.start blank) ⟨[], start_sound blank⟩ (by decide)
  refine ⟨final, reached, ?_⟩
  cases reached
  refine (deleteFromInstance_exact owner 7 sound ?_).2 (fun _ => 9) ?_
  · intro id tree held
    by_cases here : id = 1
    · subst here
      cases held
      exact ⟨by unfold BTree.Ordered; decide, by decide⟩
    · exact absurd held (by simp [slotsInsert, slotsAlloc, History.start, major, minorBits, here])
  · intro turns
    cases turns with
    | zero => trivial
    | succ turns =>
      refine ⟨by decide, fun fuel after device turned => ?_⟩
      obtain _ | _ | fuel := fuel
      · cases turned
      · cases turned
      cases turned
      cases turns with
      | zero => trivial
      | succ turns =>
        refine ⟨by decide, fun fuel after device turned => ?_⟩
        obtain _ | _ | _ | fuel := fuel
        · cases turned
        · cases turned
        · cases turned
        cases turned
        cases turns with
        | zero => trivial
        | succ turns =>
          refine ⟨by decide, fun fuel after device ended => ?_⟩
          obtain _ | _ | fuel := fuel <;> cases ended

/-- The call for a module without devices never leaves a node with two neighbours below it. -/
theorem deviceDeleteFromInstance_hangs : ∃ final, StepRun.run History.step (History.start blank)
        [.insert ⟨100, 0⟩ 2 1, .insert ⟨200, 0⟩ 1 1, .insert ⟨300, 0⟩ 3 1] = some final ∧
      ∃ tree, final.slots 0 = some tree ∧ ¬ UnloadsOne (fun _ => 5) 7 2 final.self tree := by
  refine ⟨_, rfl, _, rfl, ?_⟩
  rintro ⟨fuel, after, result, returned, _⟩
  exact absurd (advances_of_returns returned).1 (by decide)

end Devns

end KosKernel.Dev
