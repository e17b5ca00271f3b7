import KosKernel.Memory.MemInfoSweep
import KosKernel.Library.StepRun

namespace KosKernel.Memory.MemInfoVec
open Breakpoints List
variable {target : MemTarget} {type : MemType} {self : MemInfoVec} {list : List MemInfo}
  {base numBytes : Nat}

/-- The vector has room, the loop merges only what it may, and no range vanishes. -/
def InstallSafe (target : MemTarget) (list : List MemInfo) (base stop : Nat) (type : MemType) : Prop :=
  (below list base ++ inside list base stop ++ above target list stop).length ≤ target.maxCount ∧
  if type = .ram then
    (∃ last ∈ (below list base).getLast?, IsRam last) →
      (∀ entry ∈ inside list base stop, entry.miType ≤ .ram) →
      ¬ ∀ entry ∈ above target list stop, IsRam entry
  else
    (∀ last ∈ (below list base).getLast?, IsRam last → ∀ first ∈ (inside list base stop).head?,
      type < first.miType) ∧
    (inside list base stop).IsChain (Apart type) ∧
    ∀ last ∈ (inside list base stop).getLast?, last.miType ≤ type →
      ∀ first ∈ (above target list stop).head?, ¬ IsRam first

instance (target : MemTarget) (list : List MemInfo) (base stop : Nat) (type : MemType) :
    Decidable (InstallSafe target list base stop type) := by
  unfold InstallSafe
  infer_instance

/-- The entries behind an installation. -/
def installed (target : MemTarget) (list : List MemInfo) (base stop : Nat) (type : MemType) :
    List MemInfo :=
  (below list base ++ (inside list base stop).map (raise type) ++ above target list
    stop).destutter Differ

/-- For `MEMTYPE_RAM` the loop drops the same entries inside of the range as a full merge. -/
lemma destutter_raised_ram {todo : List MemInfo} (chain : todo.IsChain Differ) :
    (todo.map (raise .ram)).destutter NotBothRam = (todo.map (raise .ram)).destutter Differ := by
  have pairs : (todo.map (raise .ram)).IsChain fun first second => NotBothRam first second →
    Differ first second := by
    rw [isChain_map]
    refine chain.imp fun first second differ quiet same => ?_
    by_cases firstCovered : first.miType ≤ .ram
    · have firstRam := raise_isRam firstCovered
      exact quiet ⟨firstRam, same.symm.trans firstRam⟩
    by_cases secondCovered : second.miType ≤ .ram
    · have secondRam := raise_isRam secondCovered
      exact quiet ⟨same.trans secondRam, secondRam⟩
    · rw [raise_of_lt (not_le.mp firstCovered), raise_of_lt (not_le.mp secondCovered)] at same
      exact differ same
  generalize todo.map (raise .ram) = raised at pairs
  cases raised with
  | nil => rfl
  | cons start raised =>
    rw [destutter_cons', destutter_cons']
    induction raised generalizing start with
    | nil => rfl
    | cons next raised ih =>
      obtain ⟨first, rest⟩ := isChain_cons_cons.mp pairs
      rw [destutter'_cons, destutter'_cons]
      by_cases quiet : NotBothRam start next
      · rw [if_pos quiet, if_pos (first quiet), ih next rest]
      have rams := not_not.mp quiet
      have same : ¬ Differ start next := fun differ => differ (rams.1.trans rams.2.symm)
      rw [if_neg quiet, if_neg same]
      apply ih
      refine isChain_cons.mpr ⟨?_, rest.tail⟩
      intro other isOther quiet
      have later := (isChain_cons.mp rest).1 other isOther
      rw [← notBothRam_transparent start next other (not_not.mpr rams)] at quiet
      exact (differ_transparent start next other same).mp (later quiet)

/-- A safe installation raises the covered entries and drops repeated types. -/
lemma memInstall_entries (delmemory : Nat → Nat → Bool) (held : self.entries = list)
    (ascending : Ascending MemInfo.miAddr list)
    (chain : list.IsChain Differ) (based : Based list)
    (bounded : ∀ entry ∈ list, entry.miAddr < 2 ^ target.bits)
    (baseBound : base < 2 ^ target.bits) (bytesBound : numBytes < 2 ^ target.bits)
    (positive : numBytes ≠ 0) (safe : InstallSafe target list base (base + numBytes) type) :
    ∃ next result events, self.memInstall target delmemory base numBytes type =
      some (next, result, events) ∧
      next.entries = installed target list base (base + numBytes) type := by
  have order : base < base + numBytes := by omega
  have filled : list ≠ [] := by
    rintro rfl
    simp [Based] at based
  obtain ⟨room, safe⟩ := safe
  obtain ⟨split, splits, splitHeld⟩ :=
    splitRange_entries held ascending filled bounded baseBound bytesBound positive room
  have lowChain : (below list base).IsChain Differ := below_isChain ascending chain
  have insideChain : (inside list base (base + numBytes)).IsChain Differ :=
    below_isChain (startingAt_ascending ascending) (startingAt_isChain ascending chain based)
  have aboveChain : (above target list (base + numBytes)).IsChain Differ := by
    unfold above
    split
    · exact startingAt_isChain ascending chain based
    · exact isChain_nil
  have nonempty : inside list base (base + numBytes) ≠ [] := by simp [inside_eq_cons order]
  rw [memInstall, if_neg positive, splits, Option.bind_some, installed,
    destutter_three differ_transparent _ lowChain aboveChain]
  dsimp only
  rw [Nat.add_sub_cancel_left]
  generalize inside list base (base + numBytes) = middle at *
  have reduced : (middle.map (raise type)).destutter Differ ≠ [] := by simpa using nonempty
  by_cases ram : type = .ram
  · subst ram
    have lowQuiet := lowChain.imp fun _ _ => NotBothRam.of_differ
    obtain ⟨swept, stop, result, events, loops, sweptHeld, position⟩ :=
      installLoop_ram middle.length splitHeld (le_refl _)
      lowQuiet insideChain aboveChain (fun none => absurd none nonempty) 0 []
    rw [destutter_three notBothRam_transparent _ lowQuiet
      (aboveChain.imp fun _ _ => NotBothRam.of_differ),
      destutter_raised_ram insideChain] at sweptHeld
    obtain ⟨stopMerged, stopMerges, stopHeld⟩ :=
      merge_stop reduced lowChain (isChain_destutter _ _) sweptHeld position
    have grows := join_grows (show middle.map (raise .ram) ≠ [] by simpa using nonempty) aboveChain
      fun last raised => safe last fun entry mem => (le_max_left _ _).trans
        (raised (raise .ram entry) (mem_map_of_mem mem)).le
    obtain ⟨merged, merges, mergedHeld⟩ := merge_start lowChain
      (isChain_join differ_transparent (isChain_destutter _ _) aboveChain) stopHeld grows
    refine ⟨merged, result, events, ?_, mergedHeld⟩
    rw [loops, Option.bind_some]
    rw [stopMerges, Option.bind_some, merges, Option.map_some]
  · rw [if_neg ram] at safe
    obtain ⟨lower, apart, upper⟩ := safe
    obtain ⟨swept, result, events, loops, sweptHeld⟩ :=
      installLoop_other middle.length splitHeld (le_refl _) ram insideChain
      apart lower upper 0 []
    obtain ⟨stopMerged, merged, stopMerges, merges, mergedHeld⟩ := merge_both reduced sweptHeld
    refine ⟨merged, result, events, ?_, mergedHeld⟩
    rw [loops, Option.bind_some]
    rw [stopMerges, Option.bind_some, merges, Option.map_some]

section Map
variable {stop : Nat}

/-- The properties of the entries that do not depend on the types. -/
structure Placed (target : MemTarget) (list : List MemInfo) : Prop where
  ascending : Ascending MemInfo.miAddr list
  based : Based list
  bounded : ∀ entry ∈ list, entry.miAddr < 2 ^ target.bits

lemma Placed.of_addresses {list other : List MemInfo} (placed : Placed target list)
    (same : other.map MemInfo.miAddr = list.map MemInfo.miAddr) : Placed target other where
  ascending := by
    have ordered := pairwise_map.mpr placed.ascending
    exact pairwise_map.mp (same ▸ ordered)
  based := by
    have first := placed.based
    rw [Based, ← List.head?_map] at first ⊢
    rwa [same]
  bounded := by
    intro entry mem
    have address := mem_map_of_mem (f := MemInfo.miAddr) mem
    rw [same, mem_map] at address
    obtain ⟨origin, isMember, equal⟩ := address
    exact equal ▸ placed.bounded origin isMember

section
variable (placed : Placed target list)
include placed

lemma Placed.cutAt {address : Nat} (small : address < 2 ^ target.bits) :
    Placed target (cutAt list address) :=
  ⟨cutAt_ascending placed.ascending, cutAt_based placed.ascending placed.based,
    cutAt_bounded placed.bounded small⟩

section
variable (baseBound : base < 2 ^ target.bits) (order : base < stop)
include baseBound order

/-- The three parts form a placed list with the same types. -/
lemma Placed.parts : Placed target (below list base ++ inside list base stop ++ above target list stop) ∧
    ∀ point, typeAt (below list base ++ inside list base stop ++ above target list stop) point =
      typeAt list point := by
  have first := placed.cutAt baseBound
  by_cases reach : stop < 2 ^ target.bits
  · rw [parts_of_lt order reach placed.ascending]
    refine ⟨first.cutAt reach, fun point => ?_⟩
    rw [typeAt_cutAt first.ascending, typeAt_cutAt placed.ascending]
  · obtain ⟨whole, none⟩ := parts_of_ge order (not_lt.mp reach) placed.bounded
    rw [none, whole, append_nil]
    exact ⟨first, typeAt_cutAt placed.ascending⟩

variable (type : MemType)

lemma Placed.raised : Placed target (below list base ++ (inside list base stop).map (raise type) ++
    above target list stop) := by
  refine (placed.parts baseBound order).1.of_addresses ?_
  rw [map_append, map_append, map_map, map_append, map_append]
  rfl

lemma Placed.installed : Placed target (installed target list base stop type) := by
  have raised := placed.raised baseBound order type
  have sublist := destutter_sublist Differ
    (below list base ++ (inside list base stop).map (raise type) ++ above target list stop)
  refine ⟨raised.ascending.sublist sublist, ?_,
    fun entry mem => raised.bounded entry (sublist.subset mem)⟩
  have based := raised.based
  rwa [Based, MemInfoVec.installed, head?_destutter]

/-- An installation raises the types of the addresses in its range and of no other. -/
lemma typeAt_installed {point : Nat} (pointBound : point < 2 ^ target.bits) :
    typeAt (installed target list base stop type) point =
      if base ≤ point ∧ point < stop then max (typeAt list point) type else typeAt list point := by
  have repeats (first second : MemInfo) (same : ¬ Differ first second) :
    first.miType = second.miType := not_not.mp same
  rw [← (placed.parts baseBound order).2 point, typeAt, installed,
    valueAt_destutter repeats (placed.raised baseBound order type).ascending]
  have upper : ∀ entry ∈ above target list stop, stop ≤ entry.miAddr := by
    intro entry mem
    unfold above at mem
    split at mem
    · rcases mem_cons.mp mem with rfl | mem
      · exact le_refl _
      · have := (mem_filter.mp mem).2
        simp only [decide_eq_true_eq] at this
        omega
    · simp at mem
  have middle : ∀ entry ∈ inside list base stop, base ≤ entry.miAddr := by
    intro entry mem
    rcases mem_cons.mp (mem_below.mp mem).1 with rfl | mem
    · exact le_refl _
    · have := (mem_filter.mp mem).2
      simp only [decide_eq_true_eq] at this
      omega
  unfold typeAt
  rw [valueAt_append, valueAt_append, valueAt_append, valueAt_append]
  by_cases behind : stop ≤ point
  · rw [if_neg (by omega), above, if_pos (by omega)]
    exact valueAt_hidden behind _ _ _
  have upperAbove : ∀ entry ∈ above target list stop, point < entry.miAddr := by
    intro entry mem
    have := upper entry mem
    omega
  rw [valueAt_above upperAbove, valueAt_above upperAbove]
  by_cases reached : base ≤ point
  · rw [if_pos (by omega), inside_eq_cons order]
    exact valueAt_map reached (raise type) (max · type) (fun _ => rfl) (fun _ => rfl) _
  have middleAbove : ∀ entry ∈ inside list base stop, point < entry.miAddr := by
    intro entry mem
    have := middle entry mem
    omega
  rw [if_neg (by omega), valueAt_above middleAbove, valueAt_above]
  intro entry mem
  obtain ⟨origin, isMember, rfl⟩ := mem_map.mp mem
  exact middleAbove origin isMember

end

end

end Map

end KosKernel.Memory.MemInfoVec

namespace KosKernel.Memory
open Breakpoints MemInfoVec

/-- A call of `mem_install` with the outcome of the calls that take memory back. -/
structure Install where
  base : Nat
  numBytes : Nat
  type : MemType
  delmemory : Nat → Nat → Bool

/-- A range that passes the end of the address space reaches up to that end. -/
def Install.Covers (install : Install) (point : Nat) : Prop :=
  install.base ≤ point ∧ point < install.base + install.numBytes

instance (install : Install) (point : Nat) : Decidable (install.Covers point) :=
  inferInstanceAs (Decidable (_ ∧ _))

/-- The greatest type of the installed ranges that cover an address. -/
def expectedType (installs : List Install) (point : Nat) : MemType :=
  ((installs.filter (·.Covers point)).map Install.type).foldr max MemType.ndef

/-- The history keeps the vector and the installations. -/
structure MapHistory where
  self : MemInfoVec
  installs : List Install

namespace MapHistory

/-- The vector starts with one entry in front of arbitrary slots. -/
def start (slots : Nat → MemInfo) : MapHistory := ⟨⟨Function.update slots 0 ⟨.ndef, 0⟩, 1⟩, []⟩

variable (target : MemTarget)

def step (history : MapHistory) (install : Install) : Option MapHistory :=
  (history.self.memInstall target install.delmemory install.base install.numBytes install.type).map
    fun result =>
    ⟨result.1, install :: history.installs⟩

/-- The arguments are words and the installation is safe. -/
def Clear (history : MapHistory) (install : Install) : Prop :=
  install.base < 2 ^ target.bits ∧ install.numBytes < 2 ^ target.bits ∧
    (install.numBytes ≠ 0 → InstallSafe target history.self.entries install.base
      (install.base + install.numBytes)
      install.type)

instance (target : MemTarget) (history : MapHistory) (install : Install) :
    Decidable (history.Clear target install) :=
  inferInstanceAs (Decidable (_ ∧ _ ∧ (_ → _)))

/-- The vector is sorted and without equal neighbours, and each address has its type. -/
structure Mapped (target : MemTarget) (history : MapHistory) : Prop where
  sorted : Ascending MemInfo.miAddr history.self.entries
  alternating : history.self.entries.IsChain Differ
  typed : ∀ point, point < 2 ^ target.bits → typeAt history.self.entries point =
    expectedType history.installs point

/-- One clear installation keeps the map. -/
lemma step_mapped {target : MemTarget} (history : MapHistory) (install : Install)
    (mapped : history.Mapped target ∧ Placed target history.self.entries)
    (clear : history.Clear target install) :
    ∃ next, history.step target install = some next ∧ next.Mapped target ∧
    Placed target next.self.entries := by
  obtain ⟨mapped, placed⟩ := mapped
  obtain ⟨baseBound, bytesBound, safe⟩ := clear
  by_cases empty : install.numBytes = 0
  · refine ⟨⟨history.self, install :: history.installs⟩, ?_,
      ⟨mapped.sorted, mapped.alternating, ?_⟩, placed⟩
    · rw [step, memInstall, if_pos empty, Option.map_some]
    · intro point small
      have outside : ¬ install.Covers point := by
        rintro ⟨lower, upper⟩
        omega
      rw [mapped.typed point small, expectedType, expectedType,
        List.filter_cons_of_neg (by simpa using outside)]
  · obtain ⟨next, result, events, installs, held⟩ :=
      memInstall_entries install.delmemory rfl placed.ascending
      mapped.alternating placed.based placed.bounded baseBound bytesBound empty (safe empty)
    have order : install.base < install.base + install.numBytes := by omega
    have nextPlaced := placed.installed baseBound order install.type
    rw [← held] at nextPlaced
    refine ⟨⟨next, install :: history.installs⟩, ?_, ⟨nextPlaced.ascending, ?_, ?_⟩, nextPlaced⟩
    · rw [step, installs, Option.map_some]
    · rw [held]
      exact List.isChain_destutter _ _
    · intro point small
      rw [held, typeAt_installed placed baseBound order install.type small, mapped.typed point small]
      unfold expectedType
      by_cases covers : install.Covers point
      · rw [List.filter_cons_of_pos (by simpa using covers), if_pos ⟨covers.1, covers.2⟩,
          List.map_cons, List.foldr_cons, max_comm]
      · rw [List.filter_cons_of_neg (by simpa using covers), if_neg (show ¬ (_ ∧ _) from covers)]

/-- Every history of clear installations keeps the boot memory map exact. -/
theorem memInstall_mapped (slots : Nat → MemInfo) (installs : List Install)
    (clear : StepRun.Meets (step target) (Clear target) (start slots) installs) :
    ∃ final, StepRun.run (step target) (start slots) installs = some final ∧ final.Mapped target := by
  have entries : (start slots).self.entries = [⟨.ndef, 0⟩] := by simp [start, MemInfoVec.entries]
  have initial : (start slots).Mapped target ∧ Placed target (start slots).self.entries := by
    refine ⟨⟨?_, ?_, ?_⟩, ?_, ?_, ?_⟩ <;> rw [entries]
    · exact List.pairwise_singleton _ _
    · exact List.isChain_singleton _
    · intro point _
      simp [typeAt, expectedType, start]
    · exact List.pairwise_singleton _ _
    · rfl
    · simp
  obtain ⟨final, reached, mapped, _⟩ := StepRun.run_invariant step_mapped installs _ initial clear
  exact ⟨final, reached, mapped⟩

/-- A map with a kernel, memory around it, a device and a range at the very end. -/
theorem memInstall_mapped_boot : ∃ final, StepRun.run (step ⟨32, 2041⟩) (start fun _ => ⟨.ndef, 0⟩)
      [⟨0x100000, 0x100000, .kernel, fun _ _ => true⟩, ⟨0, 0x9fc00, .ram, fun _ _ => true⟩,
        ⟨0x100000, 0x7f00000, .ram, fun _ _ => true⟩, ⟨0xa0000, 0x60000, .device, fun _ _ => true⟩,
        ⟨0x9fc00, 0x400, .ram, fun _ _ => true⟩, ⟨0xfff00000, 0x100000, .nvs, fun _ _ => true⟩,
        ⟨0x180000, 0x10000, .badram, fun _ _ => true⟩] = some final ∧ final.Mapped ⟨32, 2041⟩ :=
  memInstall_mapped ⟨32, 2041⟩ _ _ (by decide +kernel)

/-- A device behind `MEMTYPE_RAM` is merged into it. -/
theorem memInstall_device_lost : ∃ final, StepRun.run (step ⟨32, 2041⟩) (start fun _ => ⟨.ndef, 0⟩)
      [⟨0x1000, 0x1000, .ram, fun _ _ => true⟩, ⟨0x2000, 0x1000, .device, fun _ _ => true⟩] =
        some final ∧
      ¬ final.Mapped ⟨32, 2041⟩ :=
  ⟨_, rfl, fun mapped => absurd (mapped.typed 0x2000 (by decide)) (by decide +kernel)⟩

/-- Memory up to the end of the address space vanishes, and the last merge underflows. -/
example : (StepRun.run (step ⟨32, 2041⟩) (start fun _ => ⟨.ndef, 0⟩)
    [⟨0x1000, 0x1000, .ram, fun _ _ => true⟩, ⟨0x2000, 0xffffe000, .ram, fun _ _ => true⟩]).isNone =
      true := by
  decide +kernel

end MapHistory

end KosKernel.Memory
