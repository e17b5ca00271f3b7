/- This is `devns_alloc_major` with allocations that may fail. -/

import KosKernel.Dev.DevnsHistory
import KosKernel.Hybrid.ATreePaths
import KosKernel.Hybrid.ATreeReach

namespace KosKernel.Dev.Devns
open Hybrid LinkTree List Option History ATree

/-- The results of the allocations in a call: both calls of `trealloc`, `omalloc` and `tcalloc`. -/
structure AllocEnv where
  trealloc : Bool
  merge : Bool
  omalloc : Option Nat
  tcalloc : Bool

variable (env : AllocEnv) (self : Devns) (id : Nat)

/-- The leaf below the new major is popped first. -/
def extendAboveWith (presult : Position) : Option (Devns × Option Nat) :=
  if env.trealloc then
    (self.popAbove presult).bind fun (extended, result) =>
      (plocate majorT extended.range extended.dTree ((id + 1) % 2 ^ 16)).bind fun
        | none => (extended.insertLeaf result).map (·, some result)
        | some pnext =>
          if env.merge then (extended.mergeNext result pnext).bind fun merged =>
            (merged.insertLeaf result).map (·, some result)
          else (extended.insertLeaf result).map (·, some result)
  else (pop majorT self.range self.dTree presult.proot).map fun (dTree, _) => ({ self with dTree }, none)

/-- The leaf above the new major is popped first. -/
def extendBelowWith (presult : Position) : Option (Devns × Option Nat) :=
  if env.trealloc then (self.extendBelow presult).map fun (extended, result) => (extended, some result)
  else (pop majorT self.range self.dTree presult.proot).map fun (dTree, _) => ({ self with dTree }, none)

/-- A new leaf is freed again when there is no memory for its vector. -/
def createLeafWith : Option (Devns × Option Nat) :=
  match env.omalloc with
  | none => some (self, none)
  | some result =>
    if env.tcalloc then (self.createLeaf id result).map fun (created, leaf) => (created, some leaf)
    else some (self, none)

/-- This is `devns_alloc_major`. -/
def allocMajorWith : Option (Devns × Option Nat) :=
  (locate majorT self.range self.dTree id).bind fun
    | some result => some (self, some result)
    | none => (self.plocateBelow id).bind fun
      | some presult => self.extendAboveWith env id presult
      | none => (self.plocateAbove id).bind fun
        | some presult => self.extendBelowWith env presult
        | none => self.createLeafWith env id

/-- With enough memory the call is the one of the model without failures. -/
lemma allocMajorWith_enough (id omalloc : Nat) :
    self.allocMajorWith ⟨true, true, some omalloc, true⟩ id =
    (self.allocMajor id omalloc).map fun (after, leaf) => (after, some leaf) := by
  unfold allocMajorWith allocMajor
  cases locate majorT self.range self.dTree id with
  | none => rfl
  | some located =>
    cases located with
    | some leaf => rfl
    | none =>
      cases self.plocateBelow id with
      | none => rfl
      | some below =>
        cases below with
        | some presult =>
          dsimp only [bind_some, extendAboveWith, extendAbove]
          cases self.popAbove presult with
          | none => rfl
          | some pair =>
            dsimp only [bind_some]
            cases plocate majorT pair.1.range pair.1.dTree ((id + 1) % 2 ^ 16) with
            | none => rfl
            | some next =>
              cases next with
              | none => simp [Function.comp_def]
              | some pnext =>
                dsimp only [bind_some]
                cases pair.1.mergeNext pair.2 pnext with
                | none => rfl
                | some merged => simp [Function.comp_def]
        | none =>
          cases self.plocateAbove id with
          | none => rfl
          | some above => cases above <;> rfl

variable {self : Devns} {slots : Slots} {leaves : List Nat}

/-- The leaf next to the new major, which the call extends. -/
def neighbour (self : Devns) (id : Nat) : Option Position :=
  match self.plocateBelow id with
  | some (some presult) => some presult
  | _ =>
    match self.plocateAbove id with
    | some (some presult) => some presult
    | _ => none

/-- The first allocation of the call fails, or the second one of a new leaf. -/
def Fails (env : AllocEnv) (self : Devns) (id : Nat) : Prop :=
  locate majorT self.range self.dTree id = some none ∧ match self.neighbour id with
    | some _ => env.trealloc = false
    | none => env.omalloc = none ∨ env.tcalloc = false

/-- The call returns nothing, and every lookup finds the same device as before. -/
def KeepsLookups (env : AllocEnv) (self : Devns) (id : Nat) : Prop :=
  ∃ after, self.allocMajorWith env id = some (after, none) ∧ ∀ dev, after.lookupUnlocked dev =
    self.lookupUnlocked dev

/-- The minor trees of the leaf next to the new major are empty. -/
def NeighbourEmpty (self : Devns) (id : Nat) : Prop :=
  ∀ presult ∈ self.neighbour id, ∀ leaf ∈ self.dTree presult.proot,
    ∀ tree ∈ self.maBvec leaf, tree = .null

/-- The pop of the leaf next to the new major keeps the tree in order. -/
def NeighbourSafe (self : Devns) (id : Nat) : Prop :=
  ∀ presult ∈ self.neighbour id, PopSafe self.dTree presult.proot

lemma Sound.plocate_isSome (sound : Sound self slots leaves) (wanted : Nat) :
    (ATree.plocate majorT self.range self.dTree wanted).isSome := by
  rcases sound.plocate wanted with ⟨missed, _⟩ | ⟨position, _, _, _, located, _⟩
  · rw [missed]
    rfl
  · rw [located]
    rfl

variable {id leaf : Nat} {dTree : Cells}

/-- The neighbour is the result of a position lookup. -/
lemma neighbour_located {presult : Position} (next : self.neighbour id = some presult) :
    ∃ wanted, plocate majorT self.range self.dTree wanted = some (some presult) := by
  unfold neighbour plocateBelow plocateAbove at next
  split at next
  · rename_i position below
    cases next
    split at below
    · exact ⟨_, below⟩
    · cases below
  · split at next
    · rename_i position above
      cases next
      split at above
      · exact ⟨_, above⟩
      · cases above
    · cases next

/-- A failing call returns nothing. The neighbour has left the tree. -/
lemma allocMajorWith_fails (sound : Sound self slots leaves) {env : AllocEnv}
    (fails : self.Fails env id) :
    self.allocMajorWith env id = match self.neighbour id with
      | none => some (self, none)
      | some presult => (pop majorT self.range self.dTree presult.proot).map fun (dTree, _) =>
        ({ self with dTree }, none) := by
  obtain ⟨missed, failed⟩ := fails
  have below : (self.plocateBelow id).isSome := by
    unfold plocateBelow
    split
    · exact sound.plocate_isSome _
    · rfl
  have above : (self.plocateAbove id).isSome := by
    unfold plocateAbove
    split
    · exact sound.plocate_isSome _
    · rfl
  obtain ⟨lower, atLower⟩ := isSome_iff_exists.mp below
  obtain ⟨upper, atUpper⟩ := isSome_iff_exists.mp above
  unfold neighbour at failed ⊢
  unfold allocMajorWith
  rw [missed, bind_some]
  rw [atLower] at failed ⊢
  cases lower with
  | some presult =>
    rw [bind_some]
    dsimp only [extendAboveWith] at failed ⊢
    rw [if_neg (by simp [failed])]
  | none =>
    rw [atUpper] at *
    cases upper with
    | some presult =>
      dsimp only [extendBelowWith, bind_some] at failed ⊢
      rw [if_neg (by simp [failed])]
    | none =>
      dsimp only [createLeafWith, bind_some] at failed ⊢
      rcases failed with none | none
      · rw [none]
      cases env.omalloc with
      | none => rfl
      | some result =>
        dsimp only
        rw [if_neg (by simp [none])]

/-- A table that lost a leaf finds the same devices when the leaf had none. -/
lemma popped_lookups {front back : List Nat} (sound : Sound self slots (front ++ leaf :: back))
    (empty : ∀ tree ∈ self.maBvec leaf, tree = .null)
    (stored : ATree.Stored majorT self.range dTree (front ++ back))
    (dev : Nat) : lookupUnlocked { self with dTree } dev = self.lookupUnlocked dev := by
  have fewer : ∀ other ∈ front ++ back, other ∈ front ++ leaf :: back := by
    intro other mem
    grind
  obtain ⟨found, located, exactly⟩ := stored.locate (sound.separated.mono fewer) (major dev)
  obtain ⟨before, locatedBefore, exactlyBefore⟩ := sound.stored.locate sound.separated (major dev)
  by_cases covers : Covers self.range (major dev) leaf
  · have gone : found = none := by
      cases found with
      | none => rfl
      | some other =>
        obtain ⟨mem, otherCovers⟩ := (exactly other).mp rfl
        exact absurd otherCovers (sound.apart covers other mem)
    have nothing : slotsLookup slots dev = none := by
      obtain ⟨tree, held, slot⟩ := sound.held (by simp) covers
      rw [slotsLookup, held, empty tree (mem_of_getElem? slot)]
      rfl
    rw [sound.lookupUnlocked, nothing, lookupUnlocked, located, gone]
    rfl
  · have same : found = before := by
      refine Option.ext fun other => ?_
      rw [exactly, exactlyBefore]
      refine ⟨fun inside => ⟨fewer other inside.1, inside.2⟩, fun inside => ⟨?_, inside.2⟩⟩
      have mem := inside.1
      rw [mem_append, mem_cons] at mem
      rw [mem_append]
      rcases mem with mem | rfl | mem
      · exact .inl mem
      · exact absurd inside.2 covers
      · exact .inr mem
    rw [lookupUnlocked, lookupUnlocked, located, locatedBefore, same]

/-- A number with the given major and minor. -/
lemma major_minor_of {majorId minorId : Nat} (small : minorId < 2 ^ 20) :
    major (majorId * 2 ^ 20 + minorId) = majorId ∧ minor (majorId * 2 ^ 20 + minorId) = minorId := by
  unfold major minor minorMask minorBits
  rw [Nat.one_shiftLeft, Nat.and_two_pow_sub_one_eq_mod]
  omega

lemma btreeVal_lt (device : Device) : device.btreeVal < 2 ^ 20 := by
  unfold Device.btreeVal minor minorMask minorBits
  rw [Nat.one_shiftLeft, Nat.and_two_pow_sub_one_eq_mod]
  exact Nat.mod_lt _ (by decide)

/-- Each tree of a leaf that is not empty has a number whose lookup finds its root. -/
lemma Sound.lookup_root (sound : Sound self slots leaves) (mem : leaf ∈ leaves) {tree : MinorTree}
    (inside : tree ∈ self.maBvec leaf) (present : tree ≠ .null) :
    ∃ dev device, Covers self.range (major dev) leaf ∧ self.lookupUnlocked dev = some (some device) := by
  have leafSound := sound.leaf leaf mem
  obtain ⟨index, bound, rfl⟩ := getElem_of_mem inside
  have order := leafSound.order
  have length := leafSound.length
  unfold majorCnt at length
  have covers : Covers self.range ((self.range leaf).aVmin + index) leaf := ⟨by omega, by omega⟩
  have slot := leafSound.slot _ covers
  rw [Nat.add_sub_cancel_left, List.getElem?_eq_getElem bound] at slot
  cases root : (self.maBvec leaf)[index] with
  | null => exact absurd root present
  | node btMin device btMax =>
    obtain ⟨sameMajor, sameMinor⟩ :=
      @major_minor_of ((self.range leaf).aVmin + index) _ (btreeVal_lt device)
    refine ⟨((self.range leaf).aVmin + index) * 2 ^ 20 + device.btreeVal, device, by rwa [sameMajor], ?_⟩
    rw [sound.lookupUnlocked, slotsLookup, sameMajor, sameMinor, ← slot, root]
    simp [devnsDeviceGet, BTree.get]

/-- A table that lost a leaf does not find the devices of its majors. -/
lemma popped_misses (sound : Sound self slots leaves) {wanted : Nat} {position : Position}
    (located : plocate majorT self.range self.dTree wanted = some (some position))
    (popped : pop majorT self.range self.dTree position.proot = some (dTree, leaf)) (mem : leaf ∈ leaves)
    {dev : Nat} (covers : Covers self.range (major dev) leaf) (device : Device) :
    lookupUnlocked { self with dTree } dev ≠ some (some device) := by
  obtain ⟨shape, rooted, members⟩ := sound.stored
  have among := (plocateAt_inner rooted.holds located).2.imp_left mem_singleton.mpr
  have within := popAt_within rooted.holds rooted.nodup among popped
  intro found
  rw [lookupUnlocked] at found
  cases reached : locate majorT self.range dTree (major dev) with
  | none =>
    rw [reached] at found
    cases found
  | some result =>
    rw [reached] at found
    cases result with
    | none => cases found
    | some other =>
      obtain ⟨inside, otherCovers⟩ := locateAt_within within _ (.inl (mem_singleton_self _)) reached
      obtain ⟨listed, differs⟩ := mem_filter.mp inside
      have same := sound.separated.apart.eq_of_covers (members.mem_iff.mp listed) mem otherCovers covers
      simp [same] at differs

/-- Without memory, every lookup is kept if a leaf is created or its neighbour is empty and safe. -/
theorem allocMajor_outOfMemory (sound : Sound self slots leaves) {env : AllocEnv} {id : Nat}
    (fails : self.Fails env id) :
    (self.NeighbourSafe id → self.NeighbourEmpty id → self.KeepsLookups env id) ∧
      (self.KeepsLookups env id → self.NeighbourEmpty id) := by
  have outcome := allocMajorWith_fails sound fails
  constructor
  · intro safe empty
    cases next : self.neighbour id with
    | none =>
      rw [next] at outcome
      exact ⟨self, outcome, fun _ => rfl⟩
    | some presult =>
      rw [next] at outcome
      obtain ⟨wanted, located⟩ := neighbour_located next
      obtain ⟨leaf, front, back, here, rfl, _, pops⟩ := sound.located located
      obtain ⟨dTree, popped, stored⟩ := pops (safe presult next)
      dsimp only at outcome
      rw [popped] at outcome
      exact ⟨{ self with dTree }, outcome, popped_lookups sound (empty presult next leaf here) stored⟩
  · rintro ⟨after, done, lookups⟩ presult next leaf here tree inside
    by_contra present
    rw [next] at outcome
    obtain ⟨wanted, located⟩ := neighbour_located next
    obtain ⟨other, front, back, there, rfl, _⟩ := sound.located located
    obtain rfl : other = leaf := some.inj (there.symm.trans here)
    rw [done] at outcome
    obtain ⟨⟨dTree, root⟩, popped, same⟩ := map_eq_some_iff.mp outcome.symm
    obtain rfl : root = other := by
      have kept := popped
      unfold pop popAt at kept
      rw [there] at kept
      obtain ⟨_, _, rest⟩ := bind_eq_some_iff.mp kept
      obtain ⟨_, _, pair⟩ := map_eq_some_iff.mp rest
      exact (congrArg Prod.snd pair).symm
    obtain ⟨dev, device, covers, before⟩ := sound.lookup_root (by simp) inside present
    cases same
    exact popped_misses sound located popped (by simp) covers device ((lookups dev).trans before)

/-- The major next to an empty leaf may run out of memory. -/
theorem allocMajor_outOfMemory_empty :
    ∃ final, StepRun.run step (start blank) [.allocMajor 1 100] = some final ∧
      final.self.KeepsLookups ⟨false, true, none, true⟩ 2 := by
  obtain ⟨final, reached, leaves, sound⟩ := StepRun.run_invariant step_sound [.allocMajor 1 100]
    (start blank) ⟨[], start_sound blank⟩ (by decide)
  refine ⟨final, reached, ?_⟩
  cases reached
  refine (allocMajor_outOfMemory sound ?_).1 ?_ ?_
  · exact ⟨by decide, rfl⟩
  · unfold NeighbourSafe
    decide
  · unfold NeighbourEmpty
    decide

/-- Without memory, an allocation loses the device of the leaf next to it. -/
theorem allocMajor_outOfMemory_loses :
    ∃ final, StepRun.run step (start blank) [.insert ⟨7, 0⟩ 0x100001 100] = some final ∧
      ¬ final.self.KeepsLookups ⟨false, true, none, true⟩ 2 := by
  refine ⟨_, rfl, ?_⟩
  rintro ⟨after, done, lookups⟩
  cases done
  exact absurd (lookups 0x100001) (by decide)

end KosKernel.Dev.Devns
