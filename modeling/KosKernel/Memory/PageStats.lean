import KosKernel.Memory.PageAlloc

namespace KosKernel.Memory.PageState
open LinkList

/-- The statistics of a zone without the root of its list. -/
def stats (fields : MZone) : Nat × Nat × UInt32 × UInt32 :=
  (fields.zInuse, fields.zAvail, fields.zAlloc, fields.zFree)

section Lists
variable (spec : MZoneSpec) (state : PageState) (zone page pointer bytes : Nat)
  (link : Link Nat) (attr : Bool)

@[simp] lemma stats_store : stats ((state.store link pointer).zone zone) = stats (state.zone zone) := by
  cases link with
  | head other =>
    by_cases same : zone = other
    · subst same
      simp [store, setZone, stats]
    · simp [store, setZone, Function.update_of_ne same]
  | next page => rfl

@[simp] lemma stats_setFree (header : FreeHeader) :
    stats ((state.setFree page header).zone zone) = stats (state.zone zone) := rfl

@[simp] lemma stats_clearHeader :
    stats ((state.clearHeader page).zone zone) = stats (state.zone zone) := rfl

@[simp] lemma stats_setSize (size : Nat) :
    stats ((state.setSize page size).zone zone) = stats (state.zone zone) := rfl

lemma stats_ite (condition : Prop) [Decidable condition] (first second : PageState) :
    stats ((if condition then first else second).zone zone) =
      if condition then stats (first.zone zone) else stats (second.zone zone) := by
  split <;> rfl

@[simp] lemma stats_adopt : stats ((state.adopt spec pointer link).zone zone) =
    stats (state.zone zone) := by
  unfold adopt
  split <;> rfl

@[simp] lemma stats_unlink : stats ((state.unlink spec page).zone zone) = stats (state.zone zone) := by
  simp [unlink]

@[simp] lemma stats_moveUp : stats ((state.moveUp spec page bytes).zone zone) =
    stats (state.zone zone) := by
  simp [moveUp]

@[simp] lemma stats_splitUpper (hiSplit : Nat) :
    stats ((state.splitUpper spec page hiSplit).zone zone) = stats (state.zone zone) := by
  simp [splitUpper]

@[simp] lemma stats_extendPrev (iter : Nat) :
    stats ((state.extendPrev spec page iter bytes attr).zone zone) = stats (state.zone zone) := by
  simp [extendPrev, stats_ite]

@[simp] lemma stats_extendNext (iter : Nat) :
    stats ((state.extendNext spec page iter bytes attr).zone zone) = stats (state.zone zone) := by
  simp [extendNext, stats_ite]

@[simp] lemma stats_insertRange (iter : Nat) :
    stats ((state.insertRange spec link page iter bytes attr).zone zone) = stats (state.zone zone) := by
  simp [insertRange]

end Lists

section Calls
variable {spec : MZoneSpec} {state after : PageState} {zone start bytes : Nat} {attr : Bool}

/-- One zone counts an event, and the statistics of the others stay. -/
def Counts (before after : PageState) (zone : Nat) (count : MZone → MZone) : Prop :=
  ∀ other, stats (after.zone other) =
    stats (if other = zone then count (before.zone other) else before.zone other)

/-- The counted values depend on the statistics only. -/
lemma counts_setZone {count : MZone → MZone} {before middle : PageState}
    (same : ∀ other, stats (middle.zone other) = stats (before.zone other))
    (reads : ∀ first second, stats first = stats second → stats (count first) = stats (count second)) :
    Counts before (middle.setZone zone (count (middle.zone zone))) zone count := by
  intro other
  by_cases here : other = zone
  · subst here
    simp only [setZone, Function.update_self, if_true]
    exact reads _ _ (same other)
  · simp only [setZone, Function.update_of_ne here, if_neg here]
    exact same other

variable {first second : MZone}

section
variable (same : stats first = stats second)
include same

lemma stats_countTop : stats (countTop spec bytes first) = stats (countTop spec bytes second) := by
  simp only [stats, Prod.mk.injEq, countTop] at *
  simp [same]

lemma stats_countIn : stats (countIn spec bytes first) = stats (countIn spec bytes second) := by
  simp only [stats, Prod.mk.injEq, countIn] at *
  simp [same]

lemma stats_countFree : stats (countFree spec bytes first) = stats (countFree spec bytes second) := by
  simp only [stats, Prod.mk.injEq, countFree] at *
  simp [same]

lemma stats_countAdded : stats (countAdded spec bytes first) = stats (countAdded spec bytes second) := by
  simp only [stats, Prod.mk.injEq, countAdded] at *
  simp [same]

end

lemma stats_freeRange (freed : state.freeRange spec zone start bytes attr = some after) (other : Nat) :
    stats (after.zone other) = stats (state.zone other) := by
  obtain ⟨piter, _, rfl⟩ := Option.map_eq_some_iff.mp freed
  cases piter with
  | head zone => simp [stats_ite]
  | next prev => simp [stats_ite]

lemma Counts.wiped {count : MZone → MZone} {before : PageState}
    (counts : Counts before after zone count) (wipes : Prop)
    [Decidable wipes] :
    Counts before (if wipes then after.clearPages start bytes else after) zone count := by
  split
  · exact counts
  · exact counts

/-- The statistics after an allocation at the upper end of a range. -/
lemma counts_takeTop (bestPage bestSize : Nat) :
    Counts state (state.takeTop spec zone bestPage bestSize bytes attr).1 zone
      (countTop spec bytes) := by
  refine (counts_setZone (fun other => ?_) fun _ _ => stats_countTop).wiped _
  simp [stats_ite]

/-- The statistics after an allocation below an address. -/
lemma counts_takeIn (bestPage max : Nat) :
    Counts state (state.takeIn spec zone bestPage max bytes attr).1 zone (countIn spec bytes) := by
  refine (counts_setZone (fun other => ?_) fun _ _ => stats_countIn).wiped _
  simp [stats_ite]

end Calls

end KosKernel.Memory.PageState
