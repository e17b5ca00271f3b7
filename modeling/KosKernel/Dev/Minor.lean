/- The minor-device trees of `kernel/dev/device.c`. -/

import KosKernel.Hybrid.BTree
import KosKernel.Library.StepRun

namespace KosKernel.Dev
open Hybrid Function

def minorBits : Nat := 20

def majorBits : Nat := 12

def minorMask : Nat := (1 <<< minorBits) - 1

def majorMask : Nat := (1 <<< majorBits) - 1

def major (dev : Nat) : Nat := dev >>> minorBits

def minor (dev : Nat) : Nat := dev &&& minorMask

/-- A device is known by its address and carries its number. -/
structure Device where
  address : Nat
  dId : Nat
  deriving DecidableEq

/-- This is the `BTREE_VAL` of the device trees. -/
def Device.btreeVal (device : Device) : Nat := minor device.dId

abbrev MinorTree := BTree Device

variable (root : MinorTree)

def devnsDeviceHas (key : Nat) : Bool := root.has Device.btreeVal key

def devnsDeviceGet (key : Nat) : Option Device := root.get Device.btreeVal key

def devnsDevicePget (key : Nat) : Option BTreeSlot := root.pget Device.btreeVal key

def devnsDeviceIns (node : Device) : MinorTree := root.ins Device.btreeVal node

def devnsDeviceDel (pnode : BTreeSlot) : MinorTree := root.delAt Device.btreeVal pnode

/-- The tree part of `devns_insert_unlocked` fails when the minor exists. -/
def insertMinor (pminorTree : MinorTree) (dev : Device) (id : Nat) : Option MinorTree :=
  if devnsDeviceHas pminorTree (minor id) then none
  else some (devnsDeviceIns pminorTree { dev with dId := id })

/-- The tree part of `devns_delete_unlocked`. No device is given for `DEVNS_DELETE_ANY`. -/
def deleteMinor (pdevTree : MinorTree) (dev : Option Nat) (id : Nat) : Option (MinorTree × Device) :=
  match devnsDevicePget pdevTree (minor id) with
  | none => none
  | some pdevice =>
    match pdevTree.deref pdevice with
    | .null => none
    | .node _ result _ =>
      if dev ≠ none ∧ dev ≠ some result.address then none
      else some (devnsDeviceDel pdevTree pdevice, result)

namespace MinorTree

/-- A call inserts a device under a number or deletes the device of a number. -/
inductive Call where
  | insert (dev : Device) (id : Nat)
  | delete (dev : Option Nat) (id : Nat)

/-- The history records the device that each minor should lead to. -/
structure History where
  tree : MinorTree
  live : Nat → Option Device

/-- A free minor takes the new device. -/
def liveInsert (live : Nat → Option Device) (dev : Device) (id : Nat) : Nat → Option Device :=
  if (live (minor id)).isSome then live else update live (minor id) (some { dev with dId := id })

/-- A deletion frees the minor when it holds the wanted device. -/
def liveDelete (live : Nat → Option Device) (dev : Option Nat) (id : Nat) : Nat → Option Device :=
  match live (minor id) with
  | none => live
  | some device =>
    if dev ≠ none ∧ dev ≠ some device.address then live else update live (minor id) none

variable (history : History)

/-- A call changes the tree as the code does and the record as the caller expects. -/
def History.step : Call → Option History
  | .insert dev id =>
    some ⟨(insertMinor history.tree dev id).getD history.tree, liveInsert history.live dev id⟩
  | .delete dev id =>
    some ⟨((deleteMinor history.tree dev id).map Prod.fst).getD history.tree,
      liveDelete history.live dev id⟩

/-- The history starts with the empty tree. -/
def History.start : History := ⟨.null, fun _ => none⟩

/-- The keys increase in order, and every lookup finds exactly the recorded device. -/
def History.Agrees : Prop :=
  history.tree.Ordered Device.btreeVal ∧ ∀ key, devnsDeviceGet history.tree key = history.live key

/-- A deletion with two children finds an upper child that has no children. -/
def History.KeepsChildren : Call → Prop
  | .insert _ _ => True
  | .delete _ id =>
    match devnsDevicePget history.tree (minor id) with
    | none => True
    | some pdevice => (history.tree.deref pdevice).KeepsUpper

instance (history : History) (call : Call) : Decidable (history.KeepsChildren call) := by
  unfold History.KeepsChildren
  split
  · infer_instance
  · split <;> infer_instance

variable {tree : MinorTree} {live : Nat → Option Device}

section
variable (ordered : tree.Ordered Device.btreeVal)
include ordered

/-- A device tree that agrees with a record holds exactly the recorded devices. -/
lemma mem_iff_live (agrees : ∀ key, devnsDeviceGet tree key = live key) (device : Device) :
    device ∈ tree.inorder ↔ live (minor device.dId) = some device := by
  rw [← agrees, devnsDeviceGet, BTree.get_eq_some ordered]
  exact ⟨fun mem => ⟨mem, rfl⟩, fun found => found.1⟩

/-- Two ordered trees with the same lookup results agree with the same record. -/
lemma get_eq_of_mem (named : ∀ key device, live key = some device → minor device.dId = key)
    (members : ∀ device, device ∈ tree.inorder ↔ live (minor device.dId) = some device) (key : Nat) :
    devnsDeviceGet tree key = live key := by
  refine Option.ext fun device => ?_
  rw [devnsDeviceGet, BTree.get_eq_some ordered, members]
  constructor
  · rintro ⟨held, same⟩
    rw [← held]
    exact congrArg live same.symm
  · intro held
    have same := named key device held
    exact ⟨same ▸ held, same⟩

variable (agrees : ∀ key, devnsDeviceGet tree key = live key)
include agrees

/-- A recorded device has the minor that it is recorded under. -/
lemma live_minor {key : Nat} {device : Device} (held : live key = some device) :
    minor device.dId = key := by
  rw [← agrees, devnsDeviceGet, BTree.get_eq_some ordered] at held
  exact held.2

/-- An insertion adds the device exactly when the minor is free. -/
lemma insertMinor_agrees (dev : Device) (id : Nat) :
    ((insertMinor tree dev id).getD tree).Ordered Device.btreeVal ∧
    ∀ key, devnsDeviceGet ((insertMinor tree dev id).getD tree) key = liveInsert live dev id key := by
  have present : devnsDeviceHas tree (minor id) = (live (minor id)).isSome := by
    rw [devnsDeviceHas, BTree.has_eq_isSome, ← agrees, devnsDeviceGet]
  unfold insertMinor liveInsert
  rw [present]
  split
  · exact ⟨ordered, agrees⟩
  rename_i free
  have empty : live (minor id) = none := by simpa using free
  have fresh : ∀ other ∈ tree.inorder, other.btreeVal ≠ Device.btreeVal { dev with dId := id } := by
    intro other mem same
    have held := (mem_iff_live ordered agrees other).mp mem
    rw [show minor other.dId = minor id from same, empty] at held
    exact absurd held (by simp)
  have kept := BTree.ordered_ins ordered { dev with dId := id } fresh
  refine ⟨kept, get_eq_of_mem kept ?_ ?_⟩
  · intro key device held
    by_cases same : key = minor id
    · subst same
      rw [update_self, Option.some.injEq] at held
      rw [← held]
    · rw [update_of_ne same] at held
      exact live_minor ordered agrees held
  · intro device
    change device ∈ (BTree.ins Device.btreeVal tree { dev with dId := id }).inorder ↔ _
    rw [BTree.mem_inorder_ins, mem_iff_live ordered agrees]
    by_cases same : minor device.dId = minor id
    · rw [same, empty]
      simp [eq_comm]
    · rw [update_of_ne same]
      have differs : device ≠ { dev with dId := id } := fun equal => same (by rw [equal])
      simp [differs]

/-- A deletion removes the wanted device and no other. -/
lemma deleteMinor_agrees (dev : Option Nat) (id : Nat)
    (keeps : ∀ pdevice, devnsDevicePget tree (minor id) = some pdevice →
      (tree.deref pdevice).KeepsUpper) :
    (((deleteMinor tree dev id).map Prod.fst).getD tree).Ordered Device.btreeVal ∧
      ∀ key, devnsDeviceGet (((deleteMinor tree dev id).map Prod.fst).getD tree) key =
        liveDelete live dev id key := by
  have located : (devnsDevicePget tree (minor id)).isSome = (devnsDeviceGet tree (minor id)).isSome :=
    BTree.pget_isSome tree (minor id)
  rw [agrees] at located
  unfold deleteMinor liveDelete
  cases found : devnsDevicePget tree (minor id) with
  | none =>
    rw [found] at located
    have absent : live (minor id) = none := by simpa using located.symm
    simp only [absent]
    exact ⟨ordered, agrees⟩
  | some pdevice =>
    obtain ⟨btMin, result, btMax, before, after, held, same, context⟩ := BTree.pget_slot found
    have recorded : live (minor id) = some result := by
      have mem : result ∈ tree.inorder := by
        rw [(context .null).2]
        simp [BTree.inorder]
      have := (mem_iff_live ordered agrees result).mp mem
      rwa [show minor result.dId = minor id from same] at this
    simp only [recorded, held]
    split
    · exact ⟨ordered, agrees⟩
    obtain ⟨kept, members⟩ := BTree.delAt_spec ordered found (keeps pdevice found)
    refine ⟨kept, get_eq_of_mem kept ?_ ?_⟩
    · intro key device left
      by_cases equal : key = minor id
      · subst equal
        simp at left
      · rw [update_of_ne equal] at left
        exact live_minor ordered agrees left
    · intro device
      refine (members device).trans ?_
      rw [mem_iff_live ordered agrees]
      by_cases equal : minor device.dId = minor id
      · simp [Device.btreeVal, equal]
      · simp [Device.btreeVal, equal]

end

/-- One call keeps the agreement of the tree with the record. -/
lemma History.step_agrees (call : Call) (agrees : history.Agrees) (keeps : history.KeepsChildren call) :
    ∃ next, history.step call = some next ∧ next.Agrees := by
  cases call with
  | insert dev id => exact ⟨_, rfl, insertMinor_agrees agrees.1 agrees.2 dev id⟩
  | delete dev id =>
    refine ⟨_, rfl, deleteMinor_agrees agrees.1 agrees.2 dev id ?_⟩
    intro pdevice found
    simpa only [History.KeepsChildren, found] using keeps

/-- Deletions that move only childless nodes keep the tree ordered and every lookup exact. -/
theorem minorTree_agrees (calls : List Call)
    (keeps : StepRun.Meets History.step History.KeepsChildren History.start calls) :
    ∃ final, StepRun.run History.step History.start calls = some final ∧ final.Agrees :=
  StepRun.run_invariant History.step_agrees calls History.start
    ⟨List.Pairwise.nil, fun _ => rfl⟩ keeps

/-- The condition admits a deletion with two children. -/
theorem minorTree_agrees_two_children : ∃ final, StepRun.run History.step History.start
      [.insert ⟨100, 0⟩ 2, .insert ⟨200, 0⟩ 1, .insert ⟨300, 0⟩ 4, .delete none 2] = some final ∧
      final.Agrees :=
  minorTree_agrees _ (by decide)

/-- A deletion with two children loses the device below the upper child. -/
theorem deleteMinor_loses_upper : ∃ final, StepRun.run History.step History.start
      [.insert ⟨100, 0⟩ 2, .insert ⟨200, 0⟩ 1, .insert ⟨300, 0⟩ 4, .insert ⟨400, 0⟩ 3,
        .delete none 2] = some final ∧
      ¬ final.Agrees :=
  ⟨_, rfl, fun agrees => absurd (agrees.2 3) (by decide)⟩

end MinorTree

end KosKernel.Dev
