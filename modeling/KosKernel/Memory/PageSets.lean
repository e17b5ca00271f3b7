import KosKernel.Memory.PageFree

namespace KosKernel.Memory
open LinkList FreeRanges List Finset

/-- The addresses of the pages from `start` on. -/
def pagesOf (start bytes : Nat) : Finset Nat :=
  (Finset.range (bytes / pageSize)).image fun index => start + pageSize * index

variable {page : Nat}

lemma mem_pagesOf {start bytes : Nat} (startAligned : pageSize ∣ start)
    (sizeAligned : pageSize ∣ bytes) :
    page ∈ pagesOf start bytes ↔ pageSize ∣ page ∧ start ≤ page ∧ page < start + bytes := by
  obtain ⟨count, rfl⟩ := sizeAligned
  have positive : 0 < pageSize := by decide
  simp only [pagesOf, Finset.mem_image, Finset.mem_range, Nat.mul_div_cancel_left count positive]
  constructor
  · rintro ⟨index, small, rfl⟩
    have step : pageSize * index + pageSize ≤ pageSize * count := by
      exact Nat.mul_le_mul_left _ small
    exact ⟨Nat.dvd_add startAligned (Nat.dvd_mul_right _ _), by omega, by omega⟩
  · rintro ⟨aligned, lower, upper⟩
    obtain ⟨index, offset⟩ := Nat.dvd_sub aligned startAligned
    refine ⟨index, ?_, by omega⟩
    exact Nat.lt_of_mul_lt_mul_left (a := pageSize) (by omega)

@[simp] lemma pagesOf_zero (start : Nat) : pagesOf start 0 = ∅ := by simp [pagesOf]

lemma Fits.mzoneOf_eq {spec : MZoneSpec} {zone address : Nat} {range : PageRange}
    (fits : Fits spec zone range)
    (real : zone < spec.realCount) (has : range.Has address) : spec.mzoneOf address = zone := by
  refine MZoneSpec.mzoneOf_eq real (fits.lower.trans has.1) ?_
  have upper := fits.upper
  have below := has.2
  omega

namespace PageState
variable {spec : MZoneSpec} {before after : PageState}

/-- The free list of each zone is linked and arranged. -/
def Intact (spec : MZoneSpec) (state : PageState) : Prop :=
  ∀ zone, zone < spec.realCount → Listed spec state zone (state.freeList spec zone) ∧
    Arranged spec zone (state.freeList spec zone)

/-- The pages that the free lists cover. -/
def freePages (spec : MZoneSpec) (state : PageState) : Finset Nat :=
  (Finset.range spec.realCount).biUnion fun zone =>
    (state.freeList spec zone).toFinset.biUnion fun range => pagesOf range.start range.size

lemma Intact.mem_freePages (intact : Intact spec before) : page ∈ before.freePages spec ↔
    pageSize ∣ page ∧ ∃ zone, zone < spec.realCount ∧ Covered (before.freeList spec zone) page := by
  simp only [freePages, Finset.mem_biUnion, Finset.mem_range, List.mem_toFinset]
  constructor
  · rintro ⟨zone, real, range, mem, inside⟩
    have fits := (intact zone real).2.fits range mem
    obtain ⟨aligned, has⟩ := (mem_pagesOf fits.startAligned fits.sizeAligned).mp inside
    exact ⟨aligned, zone, real, range, mem, has⟩
  · rintro ⟨aligned, zone, real, range, mem, has⟩
    have fits := (intact zone real).2.fits range mem
    exact ⟨zone, real, range, mem, (mem_pagesOf fits.startAligned fits.sizeAligned).mpr ⟨aligned, has⟩⟩

/-- Free ranges with the attribute `PAGEATTR_ZERO` are zero behind their header. -/
def Zeroed (spec : MZoneSpec) (state : PageState) : Prop :=
  ∀ zone, zone < spec.realCount → ∀ range ∈ state.freeList spec zone, range.tag = true →
    ∀ page, pageSize ∣ page → range.Has page → state.ZeroAt range page

/-- Pages are handed out. Only free pages change, and the pages are zero if that is asked for. -/
structure Allocates (spec : MZoneSpec) (before after : PageState) (attr : Bool)
    (taken : Finset Nat) : Prop where
  intact : Intact spec after
  wasFree : taken ⊆ before.freePages spec
  free : after.freePages spec = before.freePages spec \ taken
  frame : ∀ page, pageSize ∣ page → page ∉ before.freePages spec → after.page page = before.page page
  zeroed : Zeroed spec before → Zeroed spec after ∧
    (attr = true → ∀ page ∈ taken, after.page page = .zero)

/-- Pages are handed back. Only pages that are free afterwards change. -/
structure Frees (spec : MZoneSpec) (before after : PageState) (attr : Bool) (given : Finset Nat) :
    Prop where
  intact : Intact spec after
  free : after.freePages spec = before.freePages spec ∪ given
  frame : ∀ page, pageSize ∣ page → page ∉ after.freePages spec → after.page page = before.page page
  zeroed : Zeroed spec before → (attr = true → ∀ page ∈ given, before.page page = .zero) →
    Zeroed spec after

section Zones
variable {zone : Nat} {ranges : List PageRange}

section
variable (intact : Intact spec before)
include intact

/-- One zone gets a new list, and the lists of the others keep their headers. -/
lemma Intact.replace (listed : Listed spec after zone ranges) (arranged : Arranged spec zone ranges)
    (others : ∀ other, other < spec.realCount → other ≠ zone → ∀ range ∈ before.freeList spec other,
      (after.page range.start).pFree = (before.page range.start).pFree)
    (roots : ∀ other, other ≠ zone → (after.zone other).zRoot = (before.zone other).zRoot) :
    Intact spec after ∧ (zone < spec.realCount → after.freeList spec zone = ranges) ∧
      ∀ other, other < spec.realCount → other ≠ zone →
      after.freeList spec other = before.freeList spec other := by
  have kept : ∀ other, other < spec.realCount → other ≠ zone →
      Listed spec after other (before.freeList spec other) := fun other real differs =>
    (intact other real).1.congr (others other real differs) (roots other differs)
  have same : ∀ other, other < spec.realCount → other ≠ zone →
      after.freeList spec other = before.freeList spec other := fun other real differs =>
    (kept other real differs).freeList_eq (intact other real).2 real
  refine ⟨fun other real => ?_, listed.freeList_eq arranged, same⟩
  by_cases here : other = zone
  · subst here
    rw [listed.freeList_eq arranged real]
    exact ⟨listed, arranged⟩
  · rw [same other real here]
    exact ⟨kept other real here, (intact other real).2⟩

lemma Intact.mzoneOf_eq (real : zone < spec.realCount)
    (covered : Covered (before.freeList spec zone) page) :
    spec.mzoneOf page = zone := by
  obtain ⟨range, mem, has⟩ := covered
  exact ((intact zone real).2.fits range mem).mzoneOf_eq real has

/-- A page is free when the list of its zone covers it. -/
lemma Intact.mem_freePages_zone (real : zone < spec.realCount) (inside : spec.mzoneOf page = zone) :
    page ∈ before.freePages spec ↔ pageSize ∣ page ∧ Covered (before.freeList spec zone) page := by
  rw [intact.mem_freePages]
  refine and_congr_right fun _ => ⟨?_, fun covered => ⟨zone, real, covered⟩⟩
  rintro ⟨other, otherReal, covered⟩
  rwa [← inside, intact.mzoneOf_eq otherReal covered]

/-- Pages of other zones are free as before. -/
lemma Intact.mem_freePages_else (kept : Intact spec after)
    (others : ∀ other, other < spec.realCount → other ≠ zone →
      after.freeList spec other = before.freeList spec other)
    (outside : spec.mzoneOf page ≠ zone) :
    page ∈ after.freePages spec ↔ page ∈ before.freePages spec := by
  rw [kept.mem_freePages, intact.mem_freePages]
  refine and_congr_right fun _ => ⟨?_, ?_⟩
  · rintro ⟨other, real, covered⟩
    have differs : other ≠ zone := fun same => outside (same ▸ kept.mzoneOf_eq real covered)
    exact ⟨other, real, others other real differs ▸ covered⟩
  · rintro ⟨other, real, covered⟩
    have differs : other ≠ zone := fun same => outside (same ▸ intact.mzoneOf_eq real covered)
    exact ⟨other, real, (others other real differs).symm ▸ covered⟩

end

end Zones

section Taken
variable {zone start bytes : Nat} {attr : Bool} {front back : List PageRange} {range : PageRange}

section
variable (taken : Taken spec before after zone front range back start bytes attr)
  (arranged : Arranged spec zone (front ++ range :: back))
include taken arranged

/-- What is left of a zero range is still zero. -/
lemma Taken.zeroAt {part : PageRange}
    (zeroed : ∀ origin ∈ front ++ range :: back, origin.tag = true → origin.Has page →
      before.ZeroAt origin page)
    (mem : part ∈ front ++ (cutOut range start bytes ++ back)) (tag : part.tag = true)
    (has : part.Has page) :
    after.ZeroAt part page := by
  obtain ⟨lower, upper, _⟩ := taken.part
  have rest := arranged.cut taken.part
  have outside := ((covered_cut arranged.apart lower upper page).mp ⟨part, mem, has⟩).2
  obtain ⟨origin, listed, originTag, originHas, start⟩ : ∃ origin ∈ front ++ range :: back,
      origin.tag = true ∧ origin.Has page ∧ (page ≠ part.start → page ≠ origin.start) := by
    rw [mem_append, mem_append] at mem
    rcases mem with low | middle | high
    · exact ⟨part, by simp [low], tag, has, id⟩
    · obtain ⟨above, below, _, same⟩ := mem_cutOut middle lower upper
      refine ⟨range, by simp, same ▸ tag, ⟨above.trans has.1,
        has.2.trans_le below⟩, fun behind first => behind ?_⟩
      exact le_antisymm (first ▸ above) has.1
    · exact ⟨part, by simp [high], tag, has, id⟩
  obtain ⟨data, header⟩ := zeroed origin listed originTag originHas
  refine ⟨(taken.data page outside).trans data, fun behind => ?_⟩
  rw [taken.other page outside (arranged.start_absent listed originHas (start behind))
    (rest.start_absent mem has behind)]
  exact header (start behind)

/-- Pages outside of the list do not change. -/
lemma Taken.untouched (outside : ¬ Covered (front ++ range :: back) page) :
    after.page page = before.page page := by
  obtain ⟨lower, upper, _⟩ := taken.part
  have rest := arranged.cut taken.part
  refine taken.other page (fun within =>
    outside ⟨range, by simp, lower.trans within.1, within.2.trans_le upper⟩) ?_ ?_
  · intro mem
    obtain ⟨other, listed, rfl⟩ := mem_map.mp mem
    exact outside ⟨other, listed, arranged.has_start listed⟩
  · intro mem
    obtain ⟨other, listed, rfl⟩ := mem_map.mp mem
    exact outside ((covered_cut arranged.apart lower upper other.start).mp ⟨other, listed,
      rest.has_start listed⟩).1

end

section
variable (intact : Intact spec before) (real : zone < spec.realCount)
  (known : before.freeList spec zone = front ++ range :: back)
  (taken : Taken spec before after zone front range back start bytes attr)
include intact real known taken

/-- The list of one zone loses the part, and the other lists stay. -/
lemma Taken.lists : Intact spec after ∧
    after.freeList spec zone = front ++ (cutOut range start bytes ++ back) ∧
    ∀ other, other < spec.realCount → other ≠ zone →
    after.freeList spec other = before.freeList spec other := by
  obtain ⟨_, arranged⟩ := intact zone real
  rw [known] at arranged
  obtain ⟨kept, here, others⟩ := intact.replace taken.listed (arranged.cut taken.part)
    (fun other otherReal differs range mem => by
    have fits := (intact other otherReal).2
    have zoned := (fits.fits range mem).mzoneOf_eq otherReal (fits.has_start mem)
    rw [taken.untouched arranged fun covered =>
      differs (zoned.symm.trans (intact.mzoneOf_eq real (known ▸ covered)))])
    taken.roots
  exact ⟨kept, here real, others⟩

/-- A part that is cut out of one list is handed out. -/
lemma Taken.allocates : Allocates spec before after attr (pagesOf start bytes) := by
  obtain ⟨kept, here, others⟩ := taken.lists intact real known
  obtain ⟨_, arranged⟩ := intact zone real
  rw [known] at arranged
  obtain ⟨lower, upper, startAligned, sizeAligned, filled⟩ := taken.part
  have cut := covered_cut arranged.apart lower upper
  have inside : ∀ page, start ≤ page ∧ page < start + bytes →
    Covered (front ++ range :: back) page := fun page within =>
    ⟨range, by simp, lower.trans within.1, within.2.trans_le upper⟩
  have elsewhere : ∀ page, spec.mzoneOf page ≠ zone → after.page page = before.page page :=
    fun page differs =>
    taken.untouched arranged fun covered => differs (intact.mzoneOf_eq real (known ▸ covered))
  have within : ∀ page ∈ pagesOf start bytes, spec.mzoneOf page = zone ∧
    page ∈ before.freePages spec := by
    intro page mem
    obtain ⟨aligned, bounds⟩ := (mem_pagesOf startAligned sizeAligned).mp mem
    have covered := inside page bounds
    rw [← known] at covered
    exact ⟨intact.mzoneOf_eq real covered, intact.mem_freePages.mpr ⟨aligned, zone, real, covered⟩⟩
  constructor
  case intact => exact kept
  case wasFree => exact fun page mem => (within page mem).2
  case free =>
    ext page
    rw [mem_sdiff]
    by_cases zoned : spec.mzoneOf page = zone
    · rw [kept.mem_freePages_zone real zoned, here, cut, intact.mem_freePages_zone real zoned, known,
        mem_pagesOf startAligned sizeAligned]
      exact ⟨fun both => ⟨⟨both.1, both.2.1⟩, fun found => both.2.2 found.2⟩,
        fun both => ⟨both.1.1, both.1.2, fun found => both.2 ⟨both.1.1, found⟩⟩⟩
    · rw [intact.mem_freePages_else kept others zoned]
      exact ⟨fun free => ⟨free, fun found => zoned (within page found).1⟩, fun both => both.1⟩
  case frame =>
    intro page aligned outside
    refine taken.untouched arranged fun covered =>
      outside (intact.mem_freePages.mpr ⟨aligned, zone, real, ?_⟩)
    rwa [known]
  case zeroed =>
    intro zeroed
    constructor
    · intro other otherReal part mem tag page aligned has
      by_cases same : other = zone
      · subst same
        rw [here] at mem
        refine taken.zeroAt arranged (fun origin listed originTag originHas => ?_) mem tag has
        exact zeroed other real origin (by rwa [known]) originTag page aligned originHas
      · rw [others other otherReal same] at mem
        have zoned := ((intact other otherReal).2.fits part mem).mzoneOf_eq otherReal has
        have zero := zeroed other otherReal part mem tag page aligned has
        unfold ZeroAt at zero ⊢
        rwa [elsewhere page (by rwa [zoned])]
    · intro asked page mem
      obtain ⟨aligned, bounds⟩ := (mem_pagesOf startAligned sizeAligned).mp mem
      refine taken.zeroed asked page bounds fun tag => zeroed zone real range (by simp [known])
        tag page aligned ?_
      exact ⟨lower.trans bounds.1, bounds.2.trans_le upper⟩

end

end Taken

section Joined
variable {zone start bytes : Nat} {attr : Bool} {front back : List PageRange}

/-- A joined zero range is zero, since the freed pages are. -/
lemma Joined.zeroAt
    (joined : Joined spec before after zone (front ++ back) (joinIn and front ⟨start, bytes, attr⟩ back))
    (arranged : Arranged spec zone (front ++ back)) (fits : Fits spec zone ⟨start, bytes, attr⟩)
    (below : ∀ range ∈ front, range.stop ≤ start)
    (above : ∀ range ∈ back, start + bytes ≤ range.start) {range : PageRange}
    (zeroed : ∀ origin ∈ front ++ back, origin.tag = true → origin.Has page → before.ZeroAt origin page)
    (promised : attr = true → start ≤ page ∧ page < start + bytes → before.page page = .zero)
    (mem : range ∈ joinIn and front ⟨start, bytes, attr⟩ back) (tag : range.tag = true)
    (has : range.Has page) :
    after.ZeroAt range page := by
  have new := arranged.join fits below above
  have weaker : ∀ first second, (first && second) = true → first = true ∧ second = true := by decide
  obtain ⟨origin, listed, originHas, originTag⟩ := origin_joinIn (· = true) weaker mem tag has
  rcases listed with listed | rfl
  · obtain ⟨data, header⟩ := zeroed origin listed originTag originHas
    refine ⟨(joined.edits.data page).trans data, fun behind => ?_⟩
    by_cases first : page = origin.start
    · subst first
      exact joined.wiped range mem tag origin listed has behind
    · rw [joined.edits.other page fun found => (mem_append.mp found).elim
        (arranged.start_absent listed originHas first) (new.start_absent mem has behind)]
      exact header first
  · have zero := promised originTag originHas
    have absent : page ∉ (front ++ back).map Range.start := by
      intro found
      obtain ⟨other, inside, rfl⟩ := mem_map.mp found
      have filled := (arranged.fits other inside).filled
      have bounds : start ≤ other.start ∧ other.start < start + bytes := originHas
      rcases mem_append.mp inside with low | high
      · have := below other low
        unfold Range.stop at this
        omega
      · have := above other high
        omega
    refine ⟨(joined.edits.data page).trans (by rw [zero]; rfl), fun behind => ?_⟩
    rw [joined.edits.other page fun found => (mem_append.mp found).elim absent
      (new.start_absent mem has behind), zero]
    rfl

/-- A range that is joined in is handed back. -/
lemma Joined.frees (intact : Intact spec before) (real : zone < spec.realCount)
    (known : before.freeList spec zone = front ++ back)
    (joined : Joined spec before after zone (front ++ back) (joinIn and front ⟨start, bytes, attr⟩ back))
    (fits : Fits spec zone ⟨start, bytes, attr⟩)
    (below : ∀ range ∈ front, range.stop ≤ start) (above : ∀ range ∈ back, start + bytes ≤ range.start) :
    Frees spec before after attr (pagesOf start bytes) := by
  obtain ⟨_, arranged⟩ := intact zone real
  rw [known] at arranged
  have new := arranged.join fits below above
  have cover := covered_joinIn and front ⟨start, bytes, attr⟩ back
  have untouched : ∀ page, ¬ Covered (joinIn and front ⟨start, bytes, attr⟩ back) page →
    after.page page = before.page page := by
    intro page outside
    refine joined.edits.other page fun found => ?_
    rcases mem_append.mp found with old | fresh
    · obtain ⟨other, listed, rfl⟩ := mem_map.mp old
      exact outside ((cover other.start).mpr (.inl ⟨other, listed, arranged.has_start listed⟩))
    · obtain ⟨other, listed, rfl⟩ := mem_map.mp fresh
      exact outside ⟨other, listed, new.has_start listed⟩
  have elsewhere : ∀ page, spec.mzoneOf page ≠ zone → after.page page = before.page page := by
    intro page differs
    refine untouched page ?_
    rintro ⟨range, mem, has⟩
    exact differs ((new.fits range mem).mzoneOf_eq real has)
  obtain ⟨kept, here, others⟩ :=
    intact.replace joined.listed new (fun other otherReal differs range mem => by
    have fits := (intact other otherReal).2
    rw [elsewhere range.start]
    rwa [(fits.fits range mem).mzoneOf_eq otherReal (fits.has_start mem)]) fun other differs => by
      rw [joined.edits.zones other differs]
  constructor
  case intact => exact kept
  case free =>
    ext page
    rw [mem_union]
    by_cases zoned : spec.mzoneOf page = zone
    · rw [kept.mem_freePages_zone real zoned, here real, cover,
        intact.mem_freePages_zone real zoned, known,
        mem_pagesOf fits.startAligned fits.sizeAligned, and_or_left]
      rfl
    · rw [intact.mem_freePages_else kept others zoned]
      refine ⟨.inl, fun either => either.resolve_right fun found => zoned ?_⟩
      exact fits.mzoneOf_eq real ((mem_pagesOf fits.startAligned fits.sizeAligned).mp found).2
  case frame =>
    intro page aligned outside
    refine untouched page fun covered => outside (kept.mem_freePages.mpr ⟨aligned, zone, real, ?_⟩)
    rwa [here real]
  case zeroed =>
    intro zeroed promised other otherReal range mem tag page aligned has
    by_cases same : other = zone
    · subst same
      rw [here real] at mem
      refine joined.zeroAt arranged fits below above (fun origin listed originTag originHas => ?_)
        (fun asked bounds => ?_)
        mem tag has
      · exact zeroed other real origin (by rwa [known]) originTag page aligned originHas
      · exact promised asked page ((mem_pagesOf fits.startAligned fits.sizeAligned).mpr
          ⟨aligned, bounds⟩)
    · rw [others other otherReal same] at mem
      have zoned := ((intact other otherReal).2.fits range mem).mzoneOf_eq otherReal has
      have zero := zeroed other otherReal range mem tag page aligned has
      unfold ZeroAt at zero ⊢
      rwa [elsewhere page (by rwa [zoned])]

end Joined

end PageState

end KosKernel.Memory
