import KosKernel.Memory.PageRuns

namespace KosKernel.Memory
open LinkList FreeRanges List Option MZoneSpec PageSystem
namespace PageState

/-- The search of a zone up to the upgrade of its lock, which may be lost. -/
def upgradeSearch (spec : MZoneSpec) (state : PageState) (lost : Option PageState) (bytes : Nat)
    (attr : Bool) (zone : Nat) :
    Option (PageState × Nat × Nat × Nat) :=
  (state.searchZone spec bytes attr spec.fuel (state.zone zone).zRoot (noCandidate spec)).bind
    fun best =>
    if best.1 = spec.pageError then some (state, bytes, best)
    else
      match lost with
      | none => some (state, spec.ceil bytes, best)
      | some changed =>
        (changed.searchZone spec (spec.ceil bytes) attr spec.fuel (changed.zone zone).zRoot best).map
          fun best => (changed, spec.ceil (spec.ceil bytes), best)

/-- This is `page_malloc`. -/
def pageMallocUpgrade (spec : MZoneSpec) (state : PageState) (lost : Option PageState) (bytes : Nat)
    (attr : Bool) (zone : Nat) :
    Option (PageState × Nat) :=
  (tryZones (fun zone =>
    (state.upgradeSearch spec lost bytes attr zone).map fun (state, bytes, bestPage, bestSize) =>
      if bestPage ≠ spec.pageError then some (state.takeTop spec zone bestPage bestSize bytes attr)
        else none)
    zone).map (·.getD (state, spec.pageError))

/-- This is `page_malloc_part`. -/
def pageMallocPartUpgrade (spec : MZoneSpec) (state : PageState) (lost : Option PageState)
    (minSize maxSize : Nat) (attr : Bool) (zone : Nat) : Option (PageState × Nat × Nat) :=
  (tryZones (fun zone =>
    (state.upgradeSearch spec lost minSize attr zone).map fun (state, _, bestPage, bestSize) =>
      if bestPage ≠ spec.pageError then
        let allocSize := min bestSize (floorAlign maxSize)
        let (taken, result) := state.takeTop spec zone bestPage bestSize allocSize attr
        some (taken, result, allocSize)
      else none) zone).map (·.getD (state, spec.pageError, 0))

/-- The smallest of the sufficient ranges. -/
def leastFits (bytes : Nat) (ranges : List PageRange) : List PageRange :=
  ranges.filter fun range => bytes ≤ range.size ∧ ∀ other ∈ ranges, bytes ≤ other.size →
    range.size ≤ other.size

/-- The first smallest sufficient range of the wanted attribute, or else the last smallest one. -/
def choice (bytes : Nat) (attr : Bool) (ranges : List PageRange) : Option PageRange :=
  ((leastFits bytes ranges).find? fun range => range.tag = attr).or (leastFits bytes ranges).getLast?

section Scan
variable {state : PageState} {bytes : Nat} {attr : Bool} {ranges : List PageRange} {best : Nat × Nat}

/-- Ranges that are too small or greater than the candidate are skipped. -/
lemma foldl_pick_skip (skipped : ∀ range ∈ ranges, range.size < bytes ∨ best.2 < range.size ∨
      (range.size = best.2 ∧ (state.page best.1).pFree.pAttr = attr)) :
    ranges.foldl (pick state bytes attr) best = best := by
  induction ranges with
  | nil => rfl
  | cons range rest ih =>
    rw [foldl_cons, pick, if_pos (skipped range mem_cons_self)]
    exact ih fun other mem => skipped other (mem_cons_of_mem _ mem)

/-- A search in greater ranges stays with a greater candidate. -/
lemma foldl_pick_greater {least : Nat} (above : least < best.2)
    (greater : ∀ range ∈ ranges, bytes ≤ range.size → least < range.size) :
    least < (ranges.foldl (pick state bytes attr) best).2 := by
  rcases foldl_pick_cases ranges best with ⟨same, _⟩ | ⟨range, mem, chosen, fits, _⟩
  · rw [same]
    exact above
  · rw [chosen]
    exact greater range mem fits

/-- The list up to its first range of the least sufficient size. -/
structure FirstFit (bytes : Nat) (ranges front : List PageRange) (first : PageRange)
    (back : List PageRange) : Prop where
  split : ranges = front ++ first :: back
  fits : bytes ≤ first.size
  least : ∀ other ∈ ranges, bytes ≤ other.size → first.size ≤ other.size
  greater : ∀ other ∈ front, bytes ≤ other.size → first.size < other.size

lemma exists_firstFit {range : PageRange} (mem : range ∈ ranges) (fits : bytes ≤ range.size) :
    ∃ front first back, FirstFit bytes ranges front first back := by
  -- One of the sufficient ranges has the least size, so the filtered list is not empty.
  have some : ∃ least ∈ leastFits bytes ranges, bytes ≤ least.size := by
    obtain ⟨least, inside, minimal⟩ :=
      Finset.exists_min_image {range ∈ ranges.toFinset | bytes ≤ range.size} Range.size
      ⟨range, Finset.mem_filter.mpr ⟨mem_toFinset.mpr mem, fits⟩⟩
    obtain ⟨listed, enough⟩ := Finset.mem_filter.mp inside
    refine ⟨least, mem_filter.mpr ⟨mem_toFinset.mp listed,
      decide_eq_true ⟨enough, fun other inRanges fitting => ?_⟩⟩, enough⟩
    exact minimal other (Finset.mem_filter.mpr ⟨mem_toFinset.mpr inRanges, fitting⟩)
  cases filtered : leastFits bytes ranges with
  | nil =>
    obtain ⟨least, inside, _⟩ := some
    rw [filtered] at inside
    cases inside
  | cons first rest =>
    obtain ⟨front, back, split, rejected, accepted, _⟩ := filter_eq_cons_iff.mp filtered
    obtain ⟨enough, minimal⟩ := of_decide_eq_true accepted
    refine ⟨front, first, back, split, enough, minimal, fun other inFront fitting => ?_⟩
    by_contra small
    refine rejected other inFront (decide_eq_true ⟨fitting, fun third inRanges thirdFits => ?_⟩)
    have := minimal third inRanges thirdFits
    omega

variable {front back : List PageRange} {first : PageRange}

/-- A worse candidate gives way to the first range of the least sufficient size. -/
lemma FirstFit.foldl_pick (found : FirstFit bytes ranges front first back)
    (worse : first.size < best.2 ∨ (first.size = best.2 ∧ (state.page best.1).pFree.pAttr ≠ attr)) :
    ranges.foldl (pick state bytes attr) best =
      back.foldl (pick state bytes attr) (first.start, first.size) := by
  have fits := found.fits
  rw [found.split, foldl_append, foldl_cons]
  congr 1
  rcases worse with less | ⟨same, differs⟩
  · have above : first.size < (front.foldl (pick state bytes attr) best).2 :=
      foldl_pick_greater less found.greater
    rw [pick, if_neg (by omega)]
  · rw [foldl_pick_skip fun other inFront => ?_, pick, if_neg (by simp [same, differs]; omega)]
    have := found.greater other inFront
    omega

/-- Among the ranges of the least size the search moves on until the attribute fits. -/
lemma foldl_pick_least (attr : Bool) (headers : ∀ range ∈ first :: back, state.HasHeader range)
    (fits : bytes ≤ first.size)
    (least : ∀ other ∈ back, bytes ≤ other.size → first.size ≤ other.size) :
    ∃ chosen, (((first :: back).filter fun range => range.size = first.size).find? fun range =>
      range.tag = attr).or
        ((first :: back).filter fun range => range.size = first.size).getLast? = some chosen ∧
      back.foldl (pick state bytes attr) (first.start, first.size) = (chosen.start, chosen.size) := by
  induction back generalizing first with
  | nil =>
    refine ⟨first, ?_, rfl⟩
    by_cases matching : first.tag = attr <;> simp [matching]
  | cons range rest ih =>
    obtain ⟨_, tag⟩ := headers first mem_cons_self
    have restLeast : ∀ other ∈ rest, bytes ≤ other.size → first.size ≤ other.size := fun other mem =>
      least other (mem_cons_of_mem _ mem)
    by_cases same : range.size = first.size
    · by_cases matching : first.tag = attr
      · -- The first range already has the attribute.
        refine ⟨first, by simp [matching], foldl_pick_skip fun other mem => ?_⟩
        have := least other mem
        rw [show (state.page (first.start, first.size).1).pFree.pAttr = attr from tag.trans matching]
        simp only [and_true]
        omega
      · have rangeLeast : ∀ other ∈ rest, bytes ≤ other.size → range.size ≤ other.size :=
          same ▸ restLeast
        obtain ⟨chosen, known, folded⟩ := ih (fun other mem => headers other (mem_cons_of_mem _ mem))
          (same ▸ fits) rangeLeast
        refine ⟨chosen, ?_, ?_⟩
        · rw [filter_cons_of_pos (by simp), List.find?_cons_of_neg (by simp [matching]), ← known]
          simp [same]
        · rw [foldl_cons, pick, if_neg ?_]
          · exact folded
          · rw [show (state.page (first.start, first.size).1).pFree.pAttr = first.tag from tag]
            simp only [same, matching, and_false, or_false]
            omega
    · have skip : range.size < bytes ∨ first.size < range.size := by
        have := least range mem_cons_self
        omega
      obtain ⟨chosen, known, folded⟩ := ih (fun other mem => headers other (by
        rcases mem_cons.mp mem with here | later
        · exact here ▸ mem_cons_self
        · exact mem_cons_of_mem _ (mem_cons_of_mem _ later))) fits restLeast
      refine ⟨chosen, ?_, ?_⟩
      · rw [← known]
        simp [same]
      · rw [foldl_cons, pick, if_pos (by omega)]
        exact folded

lemma FirstFit.leastFits_eq (found : FirstFit bytes ranges front first back) :
    leastFits bytes ranges = (first :: back).filter fun range => range.size = first.size := by
  obtain ⟨split, fits, least, greater⟩ := found
  have inRanges : ∀ other ∈ first :: back, other ∈ ranges :=
    fun other mem => split ▸ mem_append_right _ mem
  have firstIn := inRanges first mem_cons_self
  have behind : ∀ keep : PageRange → Bool, (∀ other ∈ front, ¬ keep other = true) →
      ranges.filter keep = (first :: back).filter keep := fun keep rejected => by
    rw [split, filter_append, filter_eq_nil_iff.mpr rejected, nil_append]
  rw [leastFits, behind _ fun other inFront => ?_]
  · refine filter_congr fun other mem => ?_
    simp only [decide_eq_decide]
    constructor
    · rintro ⟨fitting, minimal⟩
      exact le_antisymm (minimal first firstIn fits) (least other (inRanges other mem) fitting)
    · intro same
      rw [same]
      exact ⟨fits, least⟩
  · simp only [decide_eq_true_eq, not_and]
    intro fitting minimal
    have := minimal first firstIn fits
    have := greater other inFront fitting
    omega

/-- A search with a worse candidate ends with the choice of the list. -/
lemma FirstFit.choice (found : FirstFit bytes ranges front first back)
    (headers : ∀ range ∈ ranges, state.HasHeader range) (attr : Bool) :
    ∃ chosen, PageState.choice bytes attr ranges = some chosen ∧ chosen.size = first.size ∧
    chosen ∈ ranges ∧
      ∀ best : Nat × Nat, (first.size < best.2 ∨
        (first.size = best.2 ∧ (state.page best.1).pFree.pAttr ≠ attr)) →
        ranges.foldl (pick state bytes attr) best = (chosen.start, chosen.size) := by
  have inRanges : ∀ other ∈ first :: back, other ∈ ranges :=
    fun other mem => found.split ▸ mem_append_right _ mem
  obtain ⟨chosen, known, folded⟩ :=
    foldl_pick_least attr (fun range mem => headers range (inRanges range mem))
    found.fits fun other mem => found.least other (inRanges other (mem_cons_of_mem _ mem))
  have filtered : chosen ∈ (first :: back).filter fun range => range.size = first.size := by
    rcases or_eq_some_iff.mp known with first | ⟨_, last⟩
    · exact mem_of_find?_eq_some first
    · exact mem_of_getLast? last
  obtain ⟨listed, size⟩ := mem_filter.mp filtered
  refine ⟨chosen, ?_, of_decide_eq_true size, inRanges chosen listed, fun best worse => ?_⟩
  · rw [PageState.choice, found.leastFits_eq, known]
  · rw [found.foldl_pick worse, folded]

end Scan

section Retry
variable {spec : MZoneSpec} {before after : PageState} {zone bytes : Nat} {attr : Bool}

/-- The repeated search ends with the range of a fresh search. -/
def TakesCurrent (spec : MZoneSpec) (before after : PageState) (bytes : Nat) (attr : Bool)
    (zone : Nat) : Prop :=
  ∃ range ∈ after.freeList spec zone, spec.ceil bytes ≤ range.size ∧
    before.upgradeSearch spec (some after) bytes attr zone = some (after, spec.ceil bytes,
      range.start, range.size) ∧
    after.upgradeSearch spec none (spec.ceil bytes) attr zone = some (after, spec.ceil bytes,
      range.start, range.size)

/-- The choice of the current list is smaller than the old one, or equal to it or preferred. -/
def RetrySafe (spec : MZoneSpec) (before after : PageState) (bytes : Nat) (attr : Bool)
    (zone : Nat) : Prop :=
  ∃ old ∈ choice bytes attr (before.freeList spec zone),
    ∃ next ∈ choice (spec.ceil bytes) attr (after.freeList spec zone),
    next.size < old.size ∨ (next.size = old.size ∧
      ((after.page old.start).pFree.pAttr ≠ attr ∨ next.start = old.start))

instance : Decidable (RetrySafe spec before after bytes attr zone) := by
  unfold RetrySafe
  infer_instance

variable {range : PageRange}

/-- Every range of a zone is smaller than the first `best_size`. -/
lemma Fits.lt_noCandidate (fits : Fits spec zone range) (real : zone < spec.realCount) :
    range.size < (noCandidate spec).2 := by
  have roundable := fits.roundable real
  have page : pageSize = 4096 := rfl
  unfold noCandidate pageError
  omega

/-- A search with enough memory ends with the choice of the zone's list. -/
lemma Intact.searchZone_choice (intact : Intact spec before) (real : zone < spec.realCount)
    (mem : range ∈ before.freeList spec zone) (fits : bytes ≤ range.size) (attr : Bool) :
    ∃ chosen ∈ before.freeList spec zone, choice bytes attr (before.freeList spec zone) =
      some chosen ∧ bytes ≤ chosen.size ∧
      (∀ other ∈ before.freeList spec zone, bytes ≤ other.size → chosen.size ≤ other.size) ∧
      ∀ best : Nat × Nat, (chosen.size < best.2 ∨
        (chosen.size = best.2 ∧ (before.page best.1).pFree.pAttr ≠ attr)) →
        before.searchZone spec bytes attr spec.fuel (before.zone zone).zRoot best =
          some (chosen.start, chosen.size) := by
  obtain ⟨listed, arranged⟩ := intact zone real
  obtain ⟨front, first, back, found⟩ := exists_firstFit mem fits
  obtain ⟨chosen, known, size, inside, folded⟩ := found.choice listed.headers attr
  rw [← size] at folded
  refine ⟨chosen, inside, known, size ▸ found.fits, size ▸ found.least, fun best worse => ?_⟩
  rw [listed.searchZone arranged real, folded best worse]

lemma choice_none {ranges : List PageRange} (small : ∀ range ∈ ranges, range.size < bytes) :
    choice bytes attr ranges = none := by
  have empty : leastFits bytes ranges = [] := by
    refine filter_eq_nil_iff.mpr fun range mem => ?_
    have := small range mem
    simp only [decide_eq_true_eq, not_and]
    omega
  rw [choice, empty]
  rfl

/-- After a lost lock the repeated search is a fresh one exactly under the condition. -/
theorem retry_takesCurrent_iff (intactBefore : Intact spec before) (intactAfter : Intact spec after)
    (real : zone < spec.realCount) (found : ∃ range ∈ before.freeList spec zone, bytes ≤ range.size) :
    TakesCurrent spec before after bytes attr zone ↔ RetrySafe spec before after bytes attr zone := by
  obtain ⟨range, mem, fits⟩ := found
  obtain ⟨old, oldIn, oldChosen, oldFits, _, oldSearch⟩ :=
    intactBefore.searchZone_choice real mem fits attr
  have whole := (intactBefore zone real).2.fits old oldIn
  have rounded := ceil_le oldFits whole.sizeAligned (whole.roundable real)
  have again : spec.ceil (spec.ceil bytes) = spec.ceil bytes := by
    refine ceil_eq (spec.ceil_dvd bytes) ?_
    have := whole.roundable real
    omega
  have rescan : before.upgradeSearch spec (some after) bytes attr zone =
      (after.searchZone spec (spec.ceil bytes) attr spec.fuel (after.zone zone).zRoot
        (old.start, old.size)).map
        fun best => (after, spec.ceil bytes, best) := by
    rw [upgradeSearch, oldSearch _ (.inl (Fits.lt_noCandidate whole real)), bind_some,
      if_neg (aligned_ne_pageError whole.startAligned), again]
  by_cases some : ∃ range ∈ after.freeList spec zone, spec.ceil bytes ≤ range.size
  · obtain ⟨candidate, candidateIn, enough⟩ := some
    obtain ⟨next, nextIn, nextChosen, nextFits, least, nextSearch⟩ :=
      intactAfter.searchZone_choice real candidateIn enough attr
    have nextWhole := (intactAfter zone real).2.fits next nextIn
    have fresh : after.upgradeSearch spec none (spec.ceil bytes) attr zone =
        .some (after, spec.ceil bytes, next.start, next.size) := by
      rw [upgradeSearch, nextSearch _ (.inl (Fits.lt_noCandidate nextWhole real)), bind_some,
        if_neg (aligned_ne_pageError nextWhole.startAligned), again]
    by_cases worse : next.size < old.size ∨
      (next.size = old.size ∧ (after.page old.start).pFree.pAttr ≠ attr)
    · refine iff_of_true ⟨next, nextIn, nextFits, ?_, fresh⟩ ⟨old, oldChosen, next, nextChosen, ?_⟩
      · rw [rescan, nextSearch _ worse, map_some]
      · exact worse.imp_right fun ⟨same, differs⟩ => ⟨same, .inl differs⟩
    -- The old candidate survives the repeated search.
    have stays : before.upgradeSearch spec (.some after) bytes attr zone =
        .some (after, spec.ceil bytes, old.start, old.size) := by
      obtain ⟨listed, arranged⟩ := intactAfter zone real
      rw [rescan, listed.searchZone arranged real, foldl_pick_skip fun other inside => ?_, map_some]
      have := least other inside
      push Not at worse
      by_cases equal : next.size = old.size
      · have kept := worse.2 equal
        simp only [kept, and_true]
        omega
      · omega
    unfold TakesCurrent RetrySafe
    rw [stays, fresh, oldChosen, nextChosen]
    constructor
    · rintro ⟨taken, _, _, first, second⟩
      simp only [some.injEq, Prod.mk.injEq, true_and] at first second
      exact ⟨old, rfl, next, rfl, .inr ⟨second.2.trans first.2.symm, .inr (second.1.trans first.1.symm)⟩⟩
    · rintro ⟨first, isOld, second, isNext, condition⟩
      obtain rfl := mem_some_iff.mp isOld
      obtain rfl := mem_some_iff.mp isNext
      push Not at worse
      obtain ⟨size, start⟩ : next.size = old.size ∧ next.start = old.start := by
        rcases condition with less | ⟨same, differs | start⟩
        · omega
        · exact absurd (worse.2 same) differs
        · exact ⟨same, start⟩
      exact ⟨next, nextIn, nextFits, by rw [size, start], rfl⟩
  · push Not at some
    refine iff_of_false ?_ ?_
    · rintro ⟨taken, takenIn, enough, _⟩
      have := some taken takenIn
      omega
    · rintro ⟨_, _, next, nextChosen, _⟩
      rw [choice_none some] at nextChosen
      cases nextChosen

/-- Without a lost lock both models of `page_malloc` agree. -/
lemma pageMallocUpgrade_none :
    after.pageMallocUpgrade spec none bytes attr zone = after.pageMalloc spec bytes attr zone := by
  unfold pageMallocUpgrade pageMalloc
  congr 2
  funext zone
  rw [upgradeSearch]
  cases after.searchZone spec bytes attr spec.fuel (after.zone zone).zRoot (noCandidate spec) with
  | none => rfl
  | some best => by_cases missing : best.1 = spec.pageError <;> simp [missing]

/-- Without a lost lock both models of `page_malloc_part` agree. -/
lemma pageMallocPartUpgrade_none {maxSize : Nat} :
    after.pageMallocPartUpgrade spec none bytes maxSize attr zone =
      after.pageMallocPart spec bytes maxSize attr zone := by
  unfold pageMallocPartUpgrade pageMallocPart
  congr 2
  funext zone
  rw [upgradeSearch]
  cases after.searchZone spec bytes attr spec.fuel (after.zone zone).zRoot (noCandidate spec) with
  | none => rfl
  | some best => by_cases missing : best.1 = spec.pageError <;> simp [missing]

section
variable (intact : Intact spec after) (real : zone < spec.realCount)
  (current : TakesCurrent spec before after bytes attr zone)
include intact real current

/-- A repeated search that takes the current range makes `page_malloc` a fresh call. -/
lemma TakesCurrent.pageMalloc :
    before.pageMallocUpgrade spec (some after) bytes attr zone =
      after.pageMalloc spec (spec.ceil bytes) attr zone := by
  obtain ⟨range, mem, _, repeated, fresh⟩ := current
  have start : range.start ≠ spec.pageError :=
    aligned_ne_pageError ((intact zone real).2.fits range mem).startAligned
  rw [← pageMallocUpgrade_none]
  cases zone <;> simp [pageMallocUpgrade, tryZones, repeated, fresh, start]

/-- A repeated search that takes the current range makes `page_malloc_part` a fresh call. -/
lemma TakesCurrent.pageMallocPart (maxSize : Nat) :
    before.pageMallocPartUpgrade spec (some after) bytes maxSize attr zone =
    after.pageMallocPart spec (spec.ceil bytes) maxSize attr zone := by
  obtain ⟨range, mem, _, repeated, fresh⟩ := current
  have start : range.start ≠ spec.pageError :=
    aligned_ne_pageError ((intact zone real).2.fits range mem).startAligned
  rw [← pageMallocPartUpgrade_none]
  cases zone <;> simp [pageMallocPartUpgrade, tryZones, repeated, fresh, start]

end

end Retry

end PageState

open PageState

/-- The memory of a history on an empty machine. -/
def historyMemory (calls : List PageCall) : PageState :=
  ((StepRun.run (step i386) (boot i386 fun _ => .zero) calls).getD (boot i386 fun _ => .zero)).memory

lemma historyMemory_intact (calls : List PageCall)
    (safe : StepRun.Meets (step i386) (Safe i386) (boot i386 fun _ => .zero) calls) :
    Intact i386 (historyMemory calls) := by
  obtain ⟨system, reached, partitioned⟩ := run_partitioned i386 (fun _ => .zero) calls safe
  rw [historyMemory, reached]
  exact partitioned.intact

/-- Another allocation trims the range while the lock is lost. -/
theorem retry_takesCurrent_trimmed : TakesCurrent i386 (historyMemory [.addmemory 1 0x100000 0x3000])
        (historyMemory [.addmemory 1 0x100000 0x3000, .malloc 0x1000 false 1]) 0x800 true 1 :=
  (retry_takesCurrent_iff (historyMemory_intact _ (by decide +kernel))
    (historyMemory_intact _ (by decide +kernel)) (by decide)
    (by decide +kernel)).mpr (by decide +kernel)

/-- Another allocation takes the only range while the lock is lost. -/
theorem retry_takes_stale : ¬ TakesCurrent i386 (historyMemory [.addmemory 1 0x100000 0x1000])
        (historyMemory [.addmemory 1 0x100000 0x1000, .malloc 0x1000 false 1]) 0x1000 false 1 ∧
      (historyMemory [.addmemory 1 0x100000 0x1000, .malloc 0x1000 false 1]).freeList i386 1 = [] ∧
      ((historyMemory [.addmemory 1 0x100000 0x1000]).pageMallocUpgrade i386
        (some (historyMemory [.addmemory 1 0x100000 0x1000, .malloc 0x1000 false 1])) 0x1000 false
          1).map Prod.snd =
        some 0x100000 := by
  have empty : (historyMemory [.addmemory 1 0x100000 0x1000, .malloc 0x1000 false 1]).freeList i386
    1 = [] := by decide +kernel
  refine ⟨fun ⟨range, mem, _⟩ => ?_, empty, by decide +kernel⟩
  cases mem

end KosKernel.Memory
