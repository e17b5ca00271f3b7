import KosKernel.Dev.DevnsRelease

namespace KosKernel.Dev.Devns
open Hybrid LinkTree LinkList Function StepRun Option ATree
variable {self : Devns} {slots : Slots} {leaves : List Nat}

/-- The expected slots after the insertion of a device. -/
def slotsInsert (slots : Slots) (dev : Device) (id : Nat) : Slots :=
  update (slotsAlloc slots (major id)) (major id)
    ((slotsAlloc slots (major id) (major id)).map fun tree => (insertMinor tree dev id).getD tree)

/-- The expected slots after the deletion of a device. -/
def slotsDelete (slots : Slots) (dev : Option Nat) (id : Nat) (release : Bool) : Slots :=
  match slots (major id) with
  | none => slots
  | some pdevTree =>
    match deleteMinor pdevTree dev id with
    | none => slots
    | some (tree, _) => update slots (major id) (if tree = .null ∧ release then none else some tree)

/-- A call carries the address that `omalloc` returns when it needs a new leaf. -/
inductive Call where
  | allocMajor (id omalloc : Nat)
  | insert (dev : Device) (id omalloc : Nat)
  | delete (dev : Option Nat) (id : Nat) (release : Bool) (omalloc : Nat)

/-- The history keeps the namespace and the slot that each allocated major should have. -/
structure History where
  self : Devns
  slots : Slots

variable (history : History)

/-- A call changes the namespace by the code and the slots by what is expected. -/
def History.step : Call → Option History
  | .allocMajor id omalloc => (history.self.allocMajor id omalloc).map fun result =>
    ⟨result.1, slotsAlloc history.slots id⟩
  | .insert dev id omalloc => (history.self.insertUnlocked dev id omalloc).map fun result =>
    ⟨result.1, slotsInsert history.slots dev id⟩
  | .delete dev id release omalloc =>
    (history.self.deleteUnlocked dev id release omalloc).map fun result =>
    ⟨result.1, slotsDelete history.slots dev id release⟩

variable (memory : Devns)

/-- The history starts with null pointers over arbitrary memory. -/
def History.start : History where
  self := { memory with
    dTree := update memory.dTree .head none
    dSort := { memory.dSort with target := update memory.dSort.target (.head ()) none } }
  slots := fun _ => none

/-- A memory in which every field is zero. -/
def blank : Devns := ⟨fun _ => none, fun _ => ⟨0, 0⟩, fun _ => [], ⟨fun _ => none, fun _ => .head ()⟩⟩

/-- The deletion takes the last device of its major. -/
def Empties (self : Devns) (dev : Option Nat) (id : Nat) : Prop :=
  match plocate majorT self.range self.dTree (major id) with
  | some (some pmajor) => ∃ leaf ∈ self.dTree pmajor.proot, ∃ tree ∈ (self.maBvec leaf)[major
      id - (self.range leaf).aVmin]?,
        ∃ deleted ∈ deleteMinor tree dev id, deleted.1 = .null
  | _ => False

instance (self : Devns) (dev : Option Nat) (id : Nat) : Decidable (self.Empties dev id) := by
  unfold Empties
  split <;> infer_instance

/-- A call names an existing device number and a new address, and is safe. -/
def History.Clear : Call → Prop
  | .allocMajor id omalloc => id ≤ majorMask ∧ omalloc ∉ history.self.sorted ∧ history.self.AllocSafe id
  | .insert _ id omalloc =>
    id < 2 ^ 32 ∧ omalloc ∉ history.self.sorted ∧ history.self.AllocSafe (major id)
  | .delete dev id release omalloc => id < 2 ^ 32 ∧ omalloc ∉ history.self.sorted ∧
      (release = true → history.self.Empties dev id → history.self.ReleaseSafe (major id))

instance (history : History) (call : Call) : Decidable (history.Clear call) := by
  cases call <;> unfold History.Clear <;> infer_instance

/-- The sorted list and the tree hold the same leaves, which cover the expected majors. -/
structure History.Table (history : History) : Prop where
  linked : Chain history.self.dSort (.head ()) history.self.sorted
  ascending : Ascending history.self.range history.self.sorted
  nonempty : ∀ leaf ∈ history.self.sorted, (history.self.range leaf).aVmin ≤
    (history.self.range leaf).aVmax
  listed : ∃ shape, Holds history.self.dTree (history.self.dTree .head) shape ∧
    shape.nodes.Perm history.self.sorted
  covered : ∀ id, (history.slots id).isSome ↔ ∃ leaf ∈ history.self.sorted,
    Covers history.self.range id leaf
  slot : ∀ leaf ∈ history.self.sorted, ∀ id, Covers history.self.range id leaf →
    (history.self.maBvec leaf)[id - (history.self.range leaf).aVmin]? = history.slots id
  located : ∀ id, ∃ found, locate majorT history.self.range history.self.dTree id = some found ∧
    ∀ leaf, found = some leaf ↔ leaf ∈ history.self.sorted ∧ Covers history.self.range id leaf

lemma major_le {id : Nat} (small : id < 2 ^ 32) : major id ≤ majorMask := by
  unfold major minorBits majorMask majorBits
  omega

/-- The walk along the sorted list visits the leaves of a sound table. -/
lemma Sound.sorted_eq (sound : Sound self slots leaves) : self.sorted = leaves := by
  have counted := sound.ascending.length_le (Nat.zero_le _) fun leaf mem =>
    ⟨Nat.zero_le _, (sound.leaf leaf mem).order, (sound.leaf leaf mem).bounded⟩
  exact sound.chain.nodes_eq (by omega)

/-- A sound table has the properties that the callers rely on. -/
lemma Sound.table (sound : Sound self slots leaves) : History.Table ⟨self, slots⟩ := by
  have same := sound.sorted_eq
  refine ⟨?_, ?_, ?_, ?_, ?_, ?_, ?_⟩ <;> dsimp only <;> rw [same]
  · exact sound.chain
  · exact sound.ascending
  · exact fun leaf mem => (sound.leaf leaf mem).order
  · obtain ⟨shape, rooted, members⟩ := sound.stored
    exact ⟨shape, rooted.holds, members⟩
  · exact fun id => ⟨sound.covered id, fun ⟨leaf, mem, covers⟩ => sound.isSome_of_covers mem covers⟩
  · exact fun leaf mem => (sound.leaf leaf mem).slot
  · exact sound.stored.locate sound.separated

/-- A safe insertion of a device keeps the table sound. -/
lemma insertUnlocked_sound (sound : Sound self slots leaves) (dev : Device) {id omalloc : Nat}
    (small : id < 2 ^ 32) (safe : self.AllocSafe (major id)) (fresh : omalloc ∉ leaves) :
    ∃ after flag rest, self.insertUnlocked dev id omalloc = some (after, flag) ∧
    Sound after (slotsInsert slots dev id) rest := by
  obtain ⟨allocated, leaf, done, rest, kept, mem, covers⟩ :=
    allocMajor_sound sound (major_le small) safe fresh
  obtain ⟨tree, taken, held⟩ := kept.held mem covers
  rw [insertUnlocked, done, bind_some]
  dsimp only
  rw [held, map_some]
  cases inserted : insertMinor tree dev id with
  | none =>
    refine ⟨allocated, false, rest, rfl, ?_⟩
    have same : slotsInsert slots dev id = slotsAlloc slots (major id) := by
      unfold slotsInsert
      rw [taken, map_some, inserted, getD_none, ← taken, update_eq_self]
    rw [same]
    exact kept
  | some grown =>
    refine ⟨_, true, rest, rfl, ?_⟩
    have same : slotsInsert slots dev id = update (slotsAlloc slots (major id)) (major id)
      (some grown) := by
      unfold slotsInsert
      rw [taken, map_some, inserted, getD_some]
    rw [same]
    exact setSlot_sound kept mem covers grown

/-- A write to the slot of a major does not touch the slots above it. -/
lemma setSlot_releaseSafe {id leaf : Nat} {tree : MinorTree} (safe : self.ReleaseSafe id) :
    (self.setSlot leaf (id - (self.range leaf).aVmin) tree).ReleaseSafe id := by
  unfold ReleaseSafe at safe ⊢
  rw [show plocate majorT (self.setSlot leaf _ tree).range (self.setSlot leaf _ tree).dTree id =
    plocate majorT self.range self.dTree id from rfl]
  split at safe
  · refine ⟨safe.1, ?_⟩
    intro other here low high other' mem
    by_cases same : other = leaf
    · subst same
      apply safe.2 other here low high
      simp only [setSlot, update_self] at mem
      rwa [List.drop_set_of_lt (by omega)] at mem
    · apply safe.2 other here low high
      simp only [setSlot, update_of_ne same] at mem
      exact mem
  · trivial

/-- A safe deletion of a device keeps the table sound. -/
lemma deleteUnlocked_sound (sound : Sound self slots leaves) (dev : Option Nat) {id omalloc : Nat}
    (release : Bool)
    (safe : release = true → self.Empties dev id → self.ReleaseSafe (major id))
    (fresh : omalloc ∉ leaves) :
    ∃ after result rest, self.deleteUnlocked dev id release omalloc = some (after, result) ∧
      Sound after (slotsDelete slots dev id release) rest := by
  unfold Empties at safe
  rcases sound.plocate (major id) with
    ⟨missed, free⟩ | ⟨pmajor, leaf, front, back, found, here, rfl, covers, _⟩
  · refine ⟨self, none, leaves, ?_, ?_⟩
    · rw [deleteUnlocked, missed, bind_some]
    · unfold slotsDelete
      rw [sound.absent free]
      exact sound
  · have mem : leaf ∈ front ++ leaf :: back := by simp
    obtain ⟨tree, taken, held⟩ := sound.held mem covers
    unfold slotsDelete
    rw [deleteUnlocked, found, bind_some]
    rw [found] at safe
    dsimp only at safe ⊢
    rw [here, bind_some, held, bind_some, taken]
    dsimp only
    cases deleted : deleteMinor tree dev id with
    | none => exact ⟨self, none, _, rfl, sound⟩
    | some pair =>
      obtain ⟨left, result⟩ := pair
      have changed := setSlot_sound sound mem covers left
      dsimp only
      by_cases emptied : left = .null ∧ release = true
      · rw [if_pos emptied, if_pos emptied]
        obtain ⟨rfl, released⟩ := emptied
        have releaseSafe := safe released ⟨leaf, here, tree, held, _, deleted, rfl⟩
        obtain ⟨after, rest, done, kept⟩ := releaseMajor_sound changed (update_self _ _ _) found
          (setSlot_releaseSafe releaseSafe) fresh
        rw [update_idem] at kept
        exact ⟨after, some result, rest, by rw [done]; rfl, kept⟩
      · rw [if_neg emptied, if_neg emptied]
        exact ⟨_, some result, _, rfl, changed⟩

/-- One clear call keeps the table sound. -/
lemma History.step_sound (call : Call)
    (sound : ∃ leaves, Sound history.self history.slots leaves) (clear : history.Clear call) :
    ∃ next, history.step call = some next ∧ ∃ leaves, Sound next.self next.slots leaves := by
  obtain ⟨leaves, sound⟩ := sound
  have same := sound.sorted_eq
  cases call with
  | allocMajor id omalloc =>
    obtain ⟨small, fresh, safe⟩ := clear
    rw [same] at fresh
    obtain ⟨after, leaf, done, rest, kept, _⟩ := allocMajor_sound sound small safe fresh
    exact ⟨_, by rw [step, done]; rfl, rest, kept⟩
  | insert dev id omalloc =>
    obtain ⟨small, fresh, safe⟩ := clear
    rw [same] at fresh
    obtain ⟨after, flag, rest, done, kept⟩ := insertUnlocked_sound sound dev small safe fresh
    exact ⟨_, by rw [step, done]; rfl, rest, kept⟩
  | delete dev id release omalloc =>
    obtain ⟨_, fresh, safe⟩ := clear
    rw [same] at fresh
    obtain ⟨after, result, rest, done, kept⟩ := deleteUnlocked_sound sound dev release safe fresh
    exact ⟨_, by rw [step, done]; rfl, rest, kept⟩

/-- The table without leaves is sound. -/
lemma start_sound : Sound (History.start memory).self (History.start memory).slots [] :=
  ⟨stored_nil majorT memory.range (by simp [History.start]), by simp [History.start, Chain],
    List.Pairwise.nil, by simp, by simp [History.start]⟩

/-- Every history of clear calls keeps the table of majors exact. -/
theorem devns_table (calls : List Call)
    (clear : StepRun.Meets History.step History.Clear (History.start memory) calls) :
    ∃ final, run History.step (History.start memory) calls = some final ∧ final.Table := by
  obtain ⟨final, reached, leaves, sound⟩ := run_invariant History.step_sound calls _
    ⟨[], start_sound memory⟩ clear
  exact ⟨final, reached, sound.table⟩

/-- The condition admits extensions, a merge, a trim and the split below an empty slot. -/
theorem devns_table_example : ∃ final, run History.step (History.start blank)
      [.allocMajor 3 100, .allocMajor 1 200, .allocMajor 2 300, .insert ⟨7, 0⟩ 0x200001 300,
        .delete none 0x200001 true 300, .insert ⟨8, 0⟩ 0x100001 400,
          .delete none 0x100001 true 400] = some final ∧
      final.Table :=
  devns_table blank _ (by decide)

/-- The pop of an inner leaf misplaces the leaves below it, and a lookup misses one. -/
example :
    (run History.step (History.start blank)
      [.allocMajor 10 1, .allocMajor 20 2, .allocMajor 0x900 3, .allocMajor 40 4, .allocMajor 50 5,
        .allocMajor 60 6, .allocMajor 70 7, .allocMajor 21 8]).map
      (fun final => (final.slots 0x900, locate majorT final.self.range final.self.dTree 0x900)) =
    some (some .null, some none) := by decide

/-- The split moves the devices of the upper majors to other slots. -/
theorem releaseMajor_split_shifts : ∃ final, run History.step (History.start blank)
      [.allocMajor 1 100, .insert ⟨7, 0⟩ 0x200000 200, .insert ⟨8, 0⟩ 0x300000 200,
        .delete none 0x200000 true 200] = some final ∧ ¬ final.Table :=
  ⟨_, rfl, fun table => absurd (table.slot 200 (by decide) 3 (by decide)) (by decide)⟩

end KosKernel.Dev.Devns
