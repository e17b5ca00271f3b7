import KosKernel.Memory.PageRetry

namespace KosKernel.Memory
open LinkList FreeRanges MZoneSpec Nat

lemma MZoneSpec.mzoneOf_mono {spec : MZoneSpec} {low high : Nat} (order : low ≤ high) :
    spec.mzoneOf low ≤ spec.mzoneOf high := by
  by_contra less
  have top := (mzoneOf_go spec low spec.maxNonEmpty).1
  have above := (mzoneOf_go spec high spec.maxNonEmpty).2.2 (spec.mzoneOf low)
    (Nat.lt_of_not_le less) top
  have lower := spec.mzoneOf_lower low
  omega

variable {zone : Nat} {address : Nat} {Result : Type} {attempt : Nat → Option (Option Result)}
namespace PageState
variable {spec : MZoneSpec} {state : PageState} {low high bytes : Nat} {range : PageRange}

/-- All pages of the block at the address are free. -/
def Available (spec : MZoneSpec) (state : PageState) (low high bytes address : Nat) : Prop :=
  pageSize ∣ address ∧ low ≤ address ∧ address ≤ high ∧ pagesOf address bytes ⊆ state.freePages spec

/-- The call fails exactly if there is no block, and otherwise it returns one. -/
def InContract (spec : MZoneSpec) (state : PageState) (low high bytes : Nat) (attr : Bool) : Prop :=
  ∃ after result, state.pageMallocIn spec low high bytes attr = some (after, result) ∧
    (result = spec.pageError ↔ ∀ address, ¬ Available spec state low high (spec.ceil bytes) address) ∧
    (result ≠ spec.pageError → Available spec state low high (spec.ceil bytes) result)

/-- The condition under which `page_malloc_in` keeps its contract. -/
structure InSafe (spec : MZoneSpec) (state : PageState) (low high bytes : Nat) : Prop where
  /-- The upper bound lies in a zone that exists, or no zone is searched. -/
  real : spec.mzoneOf high < spec.realCount ∨ spec.mzoneOf high < spec.mzoneOf low
  /-- If the bounds are in the wrong order, no free range holds them both. -/
  inverted : ¬ (high + bytes < low ∧ ∃ zone < spec.realCount, ∃ range ∈ state.freeList spec zone,
    range.start ≤ high ∧ low < range.stop)
  /-- If there is a block, there is one that does not reach over the end of its zone. -/
  zoned : (∃ address, Available spec state low high bytes address) →
    ∃ address, Available spec state low high bytes address ∧
      spec.mzoneOf address = spec.mzoneOf (address + (bytes - pageSize))

/-- Free pages that follow each other in one zone lie in one range. -/
lemma Intact.block_range (intact : Intact spec state) (aligned : pageSize ∣ address) (filled : 0 < bytes)
    (sizeAligned : pageSize ∣ bytes) (free : pagesOf address bytes ⊆ state.freePages spec)
    (zoned : spec.mzoneOf address = spec.mzoneOf (address + (bytes - pageSize))) :
    ∃ zone < spec.realCount, ∃ range ∈ state.freeList spec zone, range.start ≤ address ∧
    address + bytes ≤ range.stop := by
  have inside : ∀ page, pageSize ∣ page → address ≤ page → page < address + bytes →
    page ∈ state.freePages spec :=
    fun page pageAligned lower upper =>
      free ((mem_pagesOf aligned sizeAligned).mpr ⟨pageAligned, lower, upper⟩)
  obtain ⟨_, zone, real, range, mem, has⟩ :=
    intact.mem_freePages.mp (inside address aligned le_rfl (by omega))
  refine ⟨zone, real, range, mem, has.1, ?_⟩
  have fits := (intact zone real).2.fits range mem
  -- The range reaches over one page after another.
  have reaches : ∀ count, count * pageSize ≤ bytes → address + count * pageSize ≤ range.stop := by
    intro count
    induction count with
    | zero =>
      intro _
      exact has.2.le
    | succ count ih =>
      intro bound
      rw [succ_mul] at bound ⊢
      have page : pageSize = 4096 := rfl
      have lower := ih (by omega)
      have next : pageSize ∣ address + count * pageSize := dvd_add aligned (dvd_mul_left _ _)
      rcases lt_or_eq_of_le lower with less | touch
      · obtain ⟨pages, position⟩ := next
        obtain ⟨ends, stop⟩ := fits.stop_aligned
        rw [position, stop, page] at less
        rw [← add_assoc, position, stop, page]
        omega
      · -- The page behind the range would be free in the same zone without a gap.
        have isFree := inside _ next (le_add_right _ _) (by omega)
        have sameZone : spec.mzoneOf (address + count * pageSize) = zone := by
          have here : spec.mzoneOf address = zone := fits.mzoneOf_eq real has
          refine le_antisymm ?_ (here ▸ mzoneOf_mono (le_add_right _ _))
          rw [← here, zoned]
          exact mzoneOf_mono (by omega)
        obtain ⟨_, other, listed, covers⟩ := (intact.mem_freePages_zone real sameZone).mp isFree
        obtain ⟨front, back, split⟩ := List.append_of_mem mem
        have apart := (intact zone real).2.apart
        rw [split] at apart listed
        obtain ⟨_, below, above⟩ := apart_middle.mp apart
        unfold Range.Has at covers has
        rcases List.mem_append.mp listed with front | later
        · have := below other front
          omega
        · rcases List.mem_cons.mp later with rfl | back
          · omega
          · have := above other back
            omega
  obtain ⟨count, rfl⟩ := sizeAligned
  rw [mul_comm]
  exact reaches count (by rw [mul_comm])

/-- A block inside a range is free, and it lies in one zone. -/
lemma Intact.block_available (intact : Intact spec state) (real : zone < spec.realCount)
    (mem : range ∈ state.freeList spec zone) (aligned : pageSize ∣ address) (lower : low ≤ address)
    (upper : address ≤ high) (filled : 0 < bytes) (sizeAligned : pageSize ∣ bytes)
    (first : range.start ≤ address) (last : address + bytes ≤ range.stop) :
    Available spec state low high bytes address ∧
    spec.mzoneOf address = spec.mzoneOf (address + (bytes - pageSize)) := by
  have fits := (intact zone real).2.fits range mem
  refine ⟨⟨aligned, lower, upper, fun page inside => ?_⟩, ?_⟩
  · obtain ⟨pageAligned, from_, below⟩ := (mem_pagesOf aligned sizeAligned).mp inside
    exact intact.mem_freePages.mpr ⟨pageAligned, zone, real, range, mem, first.trans from_, by omega⟩
  · have page : 0 < pageSize := by decide
    rw [fits.mzoneOf_eq real ⟨first, by omega⟩, fits.mzoneOf_eq real ⟨by omega, by omega⟩]

lemma tryZones_skipped (skipped : ∀ other, other ≤ zone → attempt other = some none) :
    tryZones attempt zone = some none := by
  induction zone with
  | zero => exact skipped 0 le_rfl
  | succ zone ih =>
    rw [tryZones, skipped (zone + 1) le_rfl]
    exact ih fun other small => skipped other (le_succ_of_le small)

lemma tryZones_stuck (stuck : attempt zone = none) : tryZones attempt zone = none := by
  cases zone with
  | zero => exact stuck
  | succ zone => rw [tryZones, stuck, Option.bind_none]

/-- Without a search in a zone `page_malloc_in` fails. -/
lemma pageMallocIn_unsearched (attr : Bool) (skipped : spec.mzoneOf high < spec.mzoneOf low) :
    state.pageMallocIn spec low high bytes attr = some (state, spec.pageError) := by
  unfold PageState.pageMallocIn
  dsimp only
  rw [tryZones_skipped]
  · rfl
  · intro other small
    exact if_pos (lt_of_le_of_lt small skipped)

/-- A zone behind the array is read. -/
lemma pageMallocIn_outside (attr : Bool) (outside : spec.realCount ≤ spec.mzoneOf high)
    (searched : spec.mzoneOf low ≤ spec.mzoneOf high) :
      state.pageMallocIn spec low high bytes attr = none := by
  unfold PageState.pageMallocIn
  dsimp only
  rw [tryZones_stuck]
  · rfl
  · exact (if_neg (not_lt.mpr searched)).trans (if_pos outside)

section Condition
variable (intact : Intact spec state) (fits : high + bytes < 2 ^ spec.bits) (filled : 0 < bytes)
  (sizeAligned : pageSize ∣ bytes)
include intact

lemma Intact.stop_lt (real : zone < spec.realCount) (mem : range ∈ state.freeList spec zone) :
    range.stop < 2 ^ spec.bits :=
  ((intact zone real).2.fits range mem).bounded real

/-- A range that holds both bounds lies in their zone. -/
lemma Intact.zone_between (real : zone < spec.realCount) (mem : range ∈ state.freeList spec zone)
    (order : high < low) (first : range.start ≤ high) (last : low < range.stop) :
    spec.mzoneOf high = zone ∧ spec.mzoneOf low = zone := by
  have inside := (intact zone real).2.fits range mem
  exact ⟨inside.mzoneOf_eq real ⟨first, by omega⟩, inside.mzoneOf_eq real ⟨by omega, last⟩⟩

include fits filled sizeAligned

/-- When the scan finds nothing, the condition says that there is no block. -/
lemma Intact.inSafe_failed (real : spec.mzoneOf high < spec.realCount) (word : low < 2 ^ spec.bits)
    (nothing : ∀ other, spec.mzoneOf low ≤ other → other ≤ spec.mzoneOf high →
      ∀ range ∈ state.freeList spec other, ¬ Candidate spec low high bytes range) :
    InSafe spec state low high bytes ↔ ∀ address, ¬ Available spec state low high bytes address := by
  constructor
  · intro safe address available
    obtain ⟨block, ⟨aligned, lower, upper, free⟩, zoned⟩ := safe.zoned ⟨address, available⟩
    obtain ⟨zone, zoneReal, range, mem, first, last⟩ :=
      intact.block_range aligned filled sizeAligned free zoned
    have here : spec.mzoneOf block = zone :=
      ((intact zone zoneReal).2.fits range mem).mzoneOf_eq zoneReal ⟨first, by omega⟩
    exact nothing zone (here ▸ mzoneOf_mono lower) (here ▸ mzoneOf_mono upper) range mem
      (.of_block lower upper filled first last fits (intact.stop_lt zoneReal mem))
  · intro none
    refine ⟨.inl real, ?_, fun ⟨address, available⟩ => absurd available (none address)⟩
    rintro ⟨far, zone, zoneReal, range, mem, first, last⟩
    have order : high < low := by omega
    obtain ⟨here, there⟩ := intact.zone_between zoneReal mem order first last
    exact nothing zone there.le here.ge range mem
      ((Candidate.inverted order word fits (intact.stop_lt zoneReal mem)).mpr ⟨far, first, last⟩)

/-- If the scan finds a range, the bounds are in order and a part of the range is free. -/
lemma Intact.inSafe_found (real : zone < spec.realCount) (mem : range ∈ state.freeList spec zone)
    (topReal : spec.mzoneOf high < spec.realCount) (word : low < 2 ^ spec.bits)
    (highAligned : pageSize ∣ high) (candidate : Candidate spec low high bytes range) :
    (InSafe spec state low high bytes ↔ low ≤ high) ∧
      (low ≤ high → Available spec state low high bytes
        (min high (range.start + (range.size - bytes)))) := by
  have stop := intact.stop_lt real mem
  have whole := (intact zone real).2.fits range mem
  have block : low ≤ high → Available spec state low high bytes
    (min high (range.start + (range.size - bytes))) ∧
      spec.mzoneOf (min high (range.start + (range.size - bytes))) =
        spec.mzoneOf (min high (range.start + (range.size - bytes)) + (bytes - pageSize)) := by
    intro order
    obtain ⟨lower, first, last⟩ := candidate.ordered order fits stop
    refine intact.block_available real mem ?_ lower (Nat.min_le_left _ _) filled sizeAligned first last
    rcases Nat.le_total high (range.start + (range.size - bytes)) with less | more
    · rwa [Nat.min_eq_left less]
    · rw [Nat.min_eq_right more]
      exact Nat.dvd_add whole.startAligned (Nat.dvd_sub whole.sizeAligned sizeAligned)
  refine ⟨⟨fun safe => Nat.le_of_not_lt fun order => safe.inverted ?_,
    fun order => ⟨.inl topReal, by omega, fun _ => ?_⟩⟩, fun order => (block order).1⟩
  · obtain ⟨far, first, last⟩ := (Candidate.inverted order word fits stop).mp candidate
    exact ⟨far, zone, real, range, mem, first, last⟩
  · exact ⟨_, block order⟩

end Condition

/-- Without overflow `page_malloc_in` keeps its contract exactly under the condition. -/
theorem pageMallocIn_contract_iff (intact : Intact spec state) (highAligned : pageSize ∣ high)
    (word : low < 2 ^ spec.bits) (asked : 0 < bytes) (rounds : bytes + (pageSize - 1) < 2 ^ spec.bits)
    (fits : high + spec.ceil bytes < 2 ^ spec.bits) (attr : Bool) :
    InContract spec state low high bytes attr ↔ InSafe spec state low high (spec.ceil bytes) := by
  have filled : 0 < spec.ceil bytes := asked.trans_le (ceil_bounds rounds).1
  have unordered : high < low → ∀ address,
    ¬ Available spec state low high (spec.ceil bytes) address := fun order address available =>
    absurd (available.2.1.trans available.2.2.1) (not_le.mpr order)
  by_cases skipped : spec.mzoneOf high < spec.mzoneOf low
  · have order : high < low := Nat.lt_of_not_le fun order => absurd (mzoneOf_mono order)
      (Nat.not_le.mpr skipped)
    refine iff_of_true ⟨state, spec.pageError, pageMallocIn_unsearched attr skipped,
      iff_of_true rfl (unordered order),
        absurd rfl⟩ ⟨.inr skipped, ?_, fun ⟨address, available⟩ =>
          absurd available (unordered order address)⟩
    rintro ⟨_, zone, real, range, mem, first, last⟩
    obtain ⟨here, there⟩ := intact.zone_between real mem order first last
    omega
  · by_cases real : spec.mzoneOf high < spec.realCount
    · rcases intact.pageMallocIn_cases real highAligned filled attr with ⟨failed, nothing⟩ | hit
      · rw [intact.inSafe_failed fits filled (spec.ceil_dvd bytes) real word nothing]
        constructor
        · rintro ⟨after, result, found, error, _⟩
          rw [failed] at found
          exact error.mp (congrArg Prod.snd (Option.some.inj found)).symm
        · exact fun none => ⟨state, spec.pageError, failed, iff_of_true rfl none, absurd rfl⟩
      · obtain ⟨other, front, range, back, after, small, known, candidate, found, _, taken⟩ := hit
        have valid : min high (range.start + (range.size - spec.ceil bytes)) ≠ spec.pageError :=
          aligned_ne_pageError taken.part.startAligned
        obtain ⟨safe_iff, available⟩ :=
          intact.inSafe_found fits filled (spec.ceil_dvd bytes) (lt_of_le_of_lt small real)
          (show range ∈ state.freeList spec other by simp [known]) real word highAligned candidate
        rw [safe_iff]
        constructor
        · rintro ⟨reached, result, again, error, _⟩
          rw [found] at again
          obtain rfl : _ = result := congrArg Prod.snd (Option.some.inj again)
          by_contra order
          exact valid (error.mpr (unordered (Nat.lt_of_not_le order)))
        · intro order
          exact ⟨after, _, found, iff_of_false valid fun none => none _ (available order),
            fun _ => available order⟩
    · refine iff_of_false (fun ⟨after, result, found, _⟩ => ?_) fun safe => safe.real.elim real skipped
      rw [pageMallocIn_outside attr (Nat.le_of_not_lt real) (Nat.le_of_not_lt skipped)] at found
      exact absurd found.symm (Option.some_ne_none _)

/-- Five free pages. -/
def wideMemory : PageState := historyMemory [.addmemory 1 0x100000 0x5000]

/-- A block of two pages is found between two addresses. -/
theorem pageMallocIn_contract_wide : InContract i386 wideMemory 0x101000 0x102000 0x2000 false := by
  have free : Available i386 wideMemory 0x101000 0x102000 0x2000 0x101000 :=
    ⟨by decide, by decide, by decide, by decide +kernel⟩
  exact (pageMallocIn_contract_iff (historyMemory_intact _ (by decide +kernel)) (by decide)
    (by decide) (by decide) (by decide)
    (by decide) false).mpr ⟨by decide, fun ⟨far, _⟩ => absurd far (by decide),
      fun _ => ⟨0x101000, free, by decide⟩⟩

/-- The last page of the lower zone and the first page of the upper zone are free. -/
def borderMemory : PageState := historyMemory [.addmemory 0 0xff000 0x1000, .addmemory 1 0x100000 0x1000]

/-- With wrong bounds a page below is returned, and pages at a border are not found. -/
theorem pageMallocIn_breaks_contract :
    (wideMemory.pageMallocIn i386 0x104000 0x100000 0x1000 false).map (·.2) = some 0x100000 ∧
      ¬ InContract i386 wideMemory 0x104000 0x100000 0x1000 false ∧
      (borderMemory.pageMallocIn i386 0xff000 0xff000 0x2000 false).map (·.2) = some i386.pageError ∧
      Available i386 borderMemory 0xff000 0xff000 0x2000 0xff000 ∧
      ¬ InContract i386 borderMemory 0xff000 0xff000 0x2000 false := by
  have below : (wideMemory.pageMallocIn i386 0x104000 0x100000 0x1000 false).map (·.2) =
    some 0x100000 := by decide +kernel
  have missed : (borderMemory.pageMallocIn i386 0xff000 0xff000 0x2000 false).map (·.2) =
    some i386.pageError := by decide +kernel
  have free : Available i386 borderMemory 0xff000 0xff000 0x2000 0xff000 :=
    ⟨by decide, le_rfl, le_rfl, by decide +kernel⟩
  refine ⟨below, fun ⟨after, result, found, _, valid⟩ => ?_, missed, free,
    fun ⟨after, result, found, error, _⟩ => ?_⟩
  · rw [found] at below
    obtain rfl : result = 0x100000 := Option.some.inj below
    exact absurd (valid (by decide)).2.1 (by decide)
  · rw [found] at missed
    exact error.mp (Option.some.inj missed) 0xff000 free

end PageState

end KosKernel.Memory
