/- The removal of the devices of a module instance from a device namespace. -/

import KosKernel.Dev.DevnsHistory

namespace KosKernel.Dev
open Hybrid LinkTree List

/-- A caller returns a device that was deleted and goes on when there is none. -/
def returnFound (found : Option (Devns × Option Device))
    (next : Devns → Option (Devns × Option Device)) :
    Option (Devns × Option Device) :=
  found.bind fun
    | (after, some result) => some (after, some result)
    | (after, none) => next after

/-- This is `device_delete_from_instance`. The address is that of a new leaf. -/
def deviceDeleteFromInstance (iOwner : Nat → Nat) (inst omalloc : Nat) :
    Nat → Devns → MinorTree → Option (Devns × Option Device)
  | 0, _, _ => none
  | _ + 1, _, .null => none
  | fuel + 1, ns, .node btMin self btMax =>
    if iOwner self.address = inst then ns.deleteUnlocked (some self.address) self.dId true omalloc
    else if btMin ≠ .null then
      if btMax ≠ .null then
        -- The jump to `again` leaves `self` as it is.
        returnFound (deviceDeleteFromInstance iOwner inst omalloc fuel ns btMax) fun after =>
          deviceDeleteFromInstance iOwner inst omalloc fuel after (.node btMin self btMax)
      else deviceDeleteFromInstance iOwner inst omalloc fuel ns btMin
    else if btMax ≠ .null then deviceDeleteFromInstance iOwner inst omalloc fuel ns btMax
    else some (ns, none)

/-- The loop of `devns_major_delete_from_instance` over the vector of a leaf. -/
def vectorDeleteFromInstance (iOwner : Nat → Nat) (inst omalloc fuel : Nat) :
    List MinorTree → Devns → Option (Devns × Option Device)
  | [], ns => some (ns, none)
  | dev :: rest, ns =>
    if dev = .null then vectorDeleteFromInstance iOwner inst omalloc fuel rest ns
    else returnFound (deviceDeleteFromInstance iOwner inst omalloc fuel ns dev)
      (vectorDeleteFromInstance iOwner inst omalloc fuel rest)

/-- This is `devns_major_delete_from_instance`. -/
def devnsMajorDeleteFromInstance (iOwner : Nat → Nat) (inst omalloc : Nat) :
    Nat → Devns → Nat → Option (Devns × Option Device)
  | 0, _, _ => none
  | fuel + 1, ns, self =>
    returnFound (vectorDeleteFromInstance iOwner inst omalloc fuel
        ((ns.maBvec self).take (majorCnt (ns.range self))) ns) fun after =>
      match after.dTree (.low self), after.dTree (.high self) with
      | some aMin, some aMax =>
        returnFound (devnsMajorDeleteFromInstance iOwner inst omalloc fuel after aMax) fun later =>
          devnsMajorDeleteFromInstance iOwner inst omalloc fuel later aMin
      | some aMin, none => devnsMajorDeleteFromInstance iOwner inst omalloc fuel after aMin
      | none, some aMax => devnsMajorDeleteFromInstance iOwner inst omalloc fuel after aMax
      | none, none => some (after, none)

variable (iOwner : Nat → Nat)

/-- One turn of the loop in `devns_delete_from_instance`, up to the hooks. -/
def unloadTurn (inst omalloc fuel : Nat) (self : Devns) : Option (Devns × Option Device) :=
  match self.dTree .head with
  | none => some (self, none)
  | some root => devnsMajorDeleteFromInstance iOwner inst omalloc fuel self root

/-- The loop of `devns_delete_from_instance`, with the addresses that `omalloc` returns. -/
def devnsDeleteFromInstance (iOwner : Nat → Nat) (inst : Nat) (omalloc : Nat → Nat) : Nat → Nat →
    Devns → Option Devns
  | 0, _, _ => none
  | fuel + 1, turn, self => (unloadTurn iOwner inst (omalloc turn) fuel self).bind fun
    | (after, some _) => devnsDeleteFromInstance iOwner inst omalloc fuel (turn + 1) after
    | (after, none) => some after

/-- The device belongs to the module instance. -/
def Owned (inst : Nat) (device : Device) : Prop := iOwner device.address = inst

instance (iOwner : Nat → Nat) (inst : Nat) (device : Device) : Decidable (Owned iOwner inst device) :=
  inferInstanceAs (Decidable (_ = _))

/-- A call that returns deletes the device at which its walk stops, if there is one. -/
def deleteMet (ns : Devns) (omalloc : Nat) : Option Device → Option (Devns × Option Device)
  | none => some (ns, none)
  | some device => ns.deleteUnlocked (some device.address) device.dId true omalloc

/-- The deletion of the device succeeds. -/
def Deletes (ns : Devns) (omalloc : Nat) (met : Option Device) : Prop :=
  ∀ device, met = some device → ∃ after,
    ns.deleteUnlocked (some device.address) device.dId true omalloc = some (after, some device)

variable {ns : Devns} {omalloc : Nat} {tree : MinorTree}

/-- The result of a successful deletion ends every search around it. -/
lemma Deletes.returnFound_eq {met : Option Device} (deletes : Deletes ns omalloc met)
    (next : Devns → Option (Devns × Option Device)) :
    returnFound (deleteMet ns omalloc met) next =
      if met = none then next ns else deleteMet ns omalloc met := by
  cases met with
  | none => rfl
  | some device =>
    obtain ⟨after, deleted⟩ := deletes device rfl
    rw [deleteMet, deleted]
    rfl

section Walk
variable (iOwner : Nat → Nat) (inst : Nat)

/-- The device of the instance that the walk meets first. -/
def meets : MinorTree → Option Device
  | .null => none
  | .node btMin self btMax =>
    if Owned iOwner inst self then some self else if btMax = .null then meets btMin else meets btMax

/-- A node with two children is owned, or its upper subtree holds an owned device. -/
def Advances : MinorTree → Prop
  | .null => True
  | .node btMin self btMax =>
    Owned iOwner inst self ∨ if btMin = .null ∨ btMax = .null then Advances btMin ∧ Advances btMax
      else Advances btMax ∧ ∃ device ∈ btMax.inorder, Owned iOwner inst device

instance decidableAdvances : ∀ tree : MinorTree, Decidable (Advances iOwner inst tree)
  | .null => isTrue trivial
  | .node btMin self btMax =>
    have := decidableAdvances btMin
    have := decidableAdvances btMax
    by
      unfold Advances
      infer_instance

variable {iOwner inst}

lemma mem_of_meets {device : Device} (met : meets iOwner inst tree = some device) :
    device ∈ tree.inorder ∧ Owned iOwner inst device := by
  induction tree with
  | null => exact nomatch met
  | node btMin self btMax lower upper =>
    rw [meets] at met
    simp only [BTree.inorder, mem_append, mem_cons]
    split at met
    · rename_i owned
      cases met
      exact ⟨Or.inr (Or.inl rfl), owned⟩
    · split at met
      · exact ⟨Or.inl (lower met).1, (lower met).2⟩
      · exact ⟨Or.inr (Or.inr (upper met).1), (upper met).2⟩

/-- A walk that leaves every node misses no owned device. -/
lemma meets_eq_none (advances : Advances iOwner inst tree) :
    meets iOwner inst tree = none ↔ ∀ device ∈ tree.inorder, ¬ Owned iOwner inst device := by
  induction tree with
  | null => simp [meets, BTree.inorder]
  | node btMin self btMax lower upper =>
    rw [meets]
    simp only [BTree.inorder, mem_append, mem_cons]
    by_cases owned : Owned iOwner inst self
    · rw [if_pos owned]
      refine iff_of_false (by simp) fun none => none self (Or.inr (Or.inl rfl)) owned
    rw [if_neg owned]
    have inner := advances.resolve_left owned
    by_cases single : btMin = .null ∨ btMax = .null
    · rw [if_pos single] at inner
      rcases single with rfl | rfl
      · by_cases last : btMax = .null
        · subst last
          simpa [meets, BTree.inorder] using owned
        · rw [if_neg last, upper inner.2]
          simp [BTree.inorder, owned]
      · rw [if_pos rfl, lower inner.1]
        simp only [BTree.inorder, not_mem_nil, or_false]
        constructor
        · rintro none device (mem | rfl)
          · exact none device mem
          · exact owned
        · exact fun none device mem => none device (Or.inl mem)
    · rw [if_neg single] at inner
      obtain ⟨device, mem, held⟩ := inner.2
      rw [if_neg fun empty => single (Or.inr empty), upper inner.1]
      exact iff_of_false (fun none => none device mem held)
        fun none => none device (Or.inr (Or.inr mem)) held

/-- A walk that leaves every node ends with the deletion of the device that it meets. -/
lemma deviceDeleteFromInstance_eq (present : tree ≠ .null) (advances : Advances iOwner inst tree)
    (deletes : Deletes ns omalloc (meets iOwner inst tree)) {fuel : Nat}
    (enough : tree.inorder.length ≤ fuel) :
    deviceDeleteFromInstance iOwner inst omalloc fuel ns tree =
      deleteMet ns omalloc (meets iOwner inst tree) := by
  induction tree generalizing fuel with
  | null => exact absurd rfl present
  | node btMin self btMax lower upper =>
    simp only [BTree.inorder, length_append, length_cons] at enough
    obtain _ | fuel := fuel
    · omega
    rw [deviceDeleteFromInstance]
    rw [meets] at deletes ⊢
    by_cases owned : Owned iOwner inst self
    · rw [if_pos owned, if_pos (show iOwner self.address = inst from owned)]
      rfl
    rw [if_neg owned] at deletes ⊢
    rw [if_neg (show ¬ iOwner self.address = inst from owned)]
    have inner := advances.resolve_left owned
    by_cases first : btMin = .null
    · rw [if_pos (Or.inl first)] at inner
      rw [if_neg (not_not_intro first)]
      by_cases last : btMax = .null
      · rw [if_neg (not_not_intro last), if_pos last, first]
        rfl
      · rw [if_pos last, if_neg last] at *
        exact upper last inner.2 deletes (by omega)
    · rw [if_pos first]
      by_cases last : btMax = .null
      · rw [if_pos (Or.inr last)] at inner
        rw [if_pos last] at deletes
        rw [if_neg (not_not_intro last), if_pos last]
        exact lower first inner.1 deletes (by omega)
      · rw [if_neg (not_or.mpr ⟨first, last⟩)] at inner
        rw [if_neg last] at deletes
        obtain ⟨device, mem, held⟩ := inner.2
        have met : meets iOwner inst btMax ≠ none :=
          fun none => (meets_eq_none inner.1).mp none device mem held
        rw [if_pos last, upper last inner.1 deletes (by omega), if_neg last,
          deletes.returnFound_eq, if_neg met]

/-- A walk that returns has left every node, and it returns a device only if one is owned. -/
lemma advances_of_returns {fuel : Nat} {after : Devns} {result : Option Device}
    (returns : deviceDeleteFromInstance iOwner inst omalloc fuel ns tree = some (after, result)) :
    Advances iOwner inst tree ∧ (result ≠ none → ∃ device ∈ tree.inorder, Owned iOwner inst device) := by
  induction fuel generalizing ns tree after result with
  | zero => exact nomatch returns
  | succ fuel ih =>
    cases tree with
    | null => exact nomatch returns
    | node btMin self btMax =>
      rw [deviceDeleteFromInstance] at returns
      rw [Advances]
      simp only [BTree.inorder, mem_append, mem_cons]
      by_cases owned : Owned iOwner inst self
      · exact ⟨Or.inl owned, fun _ => ⟨self, Or.inr (Or.inl rfl), owned⟩⟩
      rw [if_neg (show ¬ iOwner self.address = inst from owned)] at returns
      by_cases first : btMin = .null
      · rw [if_neg (not_not_intro first)] at returns
        rw [if_pos (Or.inl first)]
        by_cases last : btMax = .null
        · rw [if_neg (not_not_intro last)] at returns
          cases returns
          subst first last
          exact ⟨Or.inr ⟨trivial, trivial⟩, absurd rfl⟩
        · rw [if_pos last] at returns
          obtain ⟨inner, found⟩ := ih returns
          refine ⟨Or.inr ⟨first ▸ trivial, inner⟩, fun some => ?_⟩
          obtain ⟨device, mem, held⟩ := found some
          exact ⟨device, Or.inr (Or.inr mem), held⟩
      · rw [if_pos first] at returns
        by_cases last : btMax = .null
        · rw [if_neg (not_not_intro last)] at returns
          rw [if_pos (Or.inr last)]
          obtain ⟨inner, found⟩ := ih returns
          refine ⟨Or.inr ⟨inner, last ▸ trivial⟩, fun some => ?_⟩
          obtain ⟨device, mem, held⟩ := found some
          exact ⟨device, Or.inl mem, held⟩
        · rw [if_pos last] at returns
          obtain ⟨⟨middle, below⟩, upper, rest⟩ := Option.bind_eq_some_iff.mp returns
          cases below with
          | none =>
            -- The same node again, with less fuel.
            obtain ⟨whole, found⟩ := ih rest
            refine ⟨whole, fun some => ?_⟩
            simpa only [BTree.inorder, mem_append, mem_cons] using found some
          | some device =>
            obtain ⟨inner, found⟩ := ih upper
            rw [if_neg (not_or.mpr ⟨first, last⟩)]
            obtain ⟨other, mem, held⟩ := found (by simp)
            exact ⟨Or.inr ⟨inner, other, mem, held⟩, fun _ => ⟨other, Or.inr (Or.inr mem), held⟩⟩

end Walk

end KosKernel.Dev
