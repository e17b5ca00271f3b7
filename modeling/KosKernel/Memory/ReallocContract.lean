import KosKernel.Memory.PageIn

namespace KosKernel.Memory
open FreeRanges Finset Option MZoneSpec
namespace PageState
variable {spec : MZoneSpec} {state after : PageState} {start old new : Nat}

/-- A size in whole pages. -/
def wholePages (bytes : Nat) : Nat := (bytes + (pageSize - 1)) / pageSize * pageSize

lemma ceil_eq_wholePages {bytes : Nat} (rounds : bytes + (pageSize - 1) < 2 ^ spec.bits) :
    spec.ceil bytes = wholePages bytes := by
  unfold ceil ceilAlign wholePages
  rw [Nat.mod_eq_of_lt rounds]

lemma ceil_wraps {bytes : Nat} (word : bytes < 2 ^ spec.bits)
    (wraps : ¬ bytes + (pageSize - 1) < 2 ^ spec.bits) :
    spec.ceil bytes = 0 := by
  have less := spec.pageSize_lt_word
  unfold ceil ceilAlign
  rw [Nat.mod_eq_sub_mod (Nat.le_of_not_lt wraps), Nat.mod_eq_of_lt (by omega),
    Nat.div_eq_of_lt (by omega), Nat.zero_mul]

/-- The call fails without a change, or the block is exchanged for one with the old contents. -/
def ReallocContract (spec : MZoneSpec) (state : PageState) (start oldBytes newBytes : Nat)
    (attr : Bool) (zone : Nat) : Prop :=
  ∃ after result, state.pageRealloc spec start oldBytes newBytes attr zone = some (after, result) ∧
    ReallocOutcome spec state after start (wholePages oldBytes) result (wholePages newBytes) attr

/-- The new size can be rounded, and a growing block has room above or looks below. -/
def ReallocFits (spec : MZoneSpec) (state : PageState) (start oldBytes newBytes : Nat) : Prop :=
  oldBytes = 0 ∨ (newBytes + (pageSize - 1) < 2 ^ spec.bits ∧ (spec.ceil oldBytes < spec.ceil newBytes →
    AboveFree spec state start (spec.ceil oldBytes) (spec.ceil newBytes) ∨
      BelowSafe spec state start (spec.ceil newBytes - spec.ceil oldBytes)))

lemma Writes.symm {pages : Finset Nat} (writes : Writes state after pages) : Writes after state pages :=
  ⟨writes.zone.symm, fun page aligned outside => (writes.page page aligned outside).symm⟩

/-- Pages that lie below an aligned address end there. -/
lemma page_end_le {page bound : Nat} (aligned : pageSize ∣ page) (boundAligned : pageSize ∣ bound)
    (less : page < bound) :
    page + pageSize ≤ bound := by
  have gap := Nat.le_of_dvd (Nat.sub_pos_of_lt less) (Nat.dvd_sub boundAligned aligned)
  omega

/-- Free pages end below the limit. -/
lemma Intact.free_le_limit (intact : Intact spec state) {page : Nat}
    (free : page ∈ state.freePages spec) :
    page + pageSize ≤ spec.limit := by
  obtain ⟨aligned, zone, real, range, mem, has⟩ := intact.mem_freePages.mp free
  have fits := (intact zone real).2.fits range mem
  have ends := page_end_le aligned fits.stop_aligned has.2
  have upper := fits.upper
  have top := msMax_lt_limit real
  omega

/-- A block that was handed out with less than the new size is not what the contract asks for. -/
lemma Holds.not_reallocates {below : PageState} {result : Nat} {attr : Bool}
    (held : Holds spec state start old)
    (intact : Intact spec state) (filled : 0 < old) (newAligned : pageSize ∣ new) (more : old < new)
    (outside : start < new - old)
    (resultAligned : pageSize ∣ result)
    (allocates : Allocates spec state below false (pagesOf result (new - old))) :
    ¬ Reallocates spec state
      (if attr then (below.copyPages spec result start (old / pageSize)).clearPages
        (spec.add result old) (new - old)
      else below.copyPages spec result start (old / pageSize)) start old result new attr := by
  intro moved
  have word := spec.limit_bound
  have page : pageSize = 4096 := rfl
  have count : pageSize * (old / pageSize) = old := Nat.mul_div_cancel' held.sizeAligned
  have diffAligned := Nat.dvd_sub newAligned held.sizeAligned
  -- The new block lies below the limit, so no address wraps while it is written.
  have bounded : result + new ≤ spec.limit := by
    have large : pageSize ≤ new := Nat.le_of_dvd (by omega) newAligned
    have lastAligned : pageSize ∣ result + new - pageSize :=
      Nat.dvd_sub (Nat.dvd_add resultAligned newAligned) (Nat.dvd_refl _)
    have last : result + new - pageSize ∈ pagesOf result new := by
      rw [mem_pagesOf resultAligned newAligned]
      omega
    rcases mem_union.mp (moved.exchanges.wasFree last) with free | inOld
    · have := intact.free_le_limit free
      omega
    · rw [mem_pagesOf held.startAligned held.sizeAligned] at inOld
      have ends := page_end_le lastAligned (Nat.dvd_add held.startAligned held.sizeAligned) inOld.2.2
      omega
  have writes : Writes below (if attr then (below.copyPages spec result start
    (old / pageSize)).clearPages (spec.add result old) (new - old)
      else below.copyPages spec result start (old / pageSize)) (pagesOf result new) := by
    have copied : Writes below (below.copyPages spec result start (old / pageSize))
      (pagesOf result new) := by
      refine (writes_copyPages start (old / pageSize) resultAligned (by omega)).mono fun page mem => ?_
      rw [count, mem_pagesOf resultAligned held.sizeAligned] at mem
      rw [mem_pagesOf resultAligned newAligned]
      omega
    split
    · rw [add_of_lt (show result + old < 2 ^ spec.bits by omega)]
      refine (copied.trans (writes_clearPages (Nat.dvd_add resultAligned held.sizeAligned)
        diffAligned)).mono ?_
      refine union_subset (Finset.Subset.refl _) fun page mem => ?_
      rw [mem_pagesOf (Nat.dvd_add resultAligned held.sizeAligned) diffAligned] at mem
      rw [mem_pagesOf resultAligned newAligned]
      omega
    · exact copied
  -- The writes do not touch the lists that the contract leaves, so these are the lists before the
  -- writes.
  have same := (moved.exchanges.intact.writes writes.symm
    (by rw [moved.exchanges.free]; exact disjoint_sdiff)).2.1
  have first : start ∈ pagesOf start old :=
    (mem_pagesOf held.startAligned held.sizeAligned).mpr ⟨held.startAligned, le_rfl, by omega⟩
  have notFree : start ∉ state.freePages spec := disjoint_left.mp held.apart first
  have inNew : start ∈ pagesOf result new := by
    by_contra missing
    have free : start ∈ below.freePages spec := by
      rw [same, moved.exchanges.free]
      exact mem_sdiff.mpr ⟨mem_union_right _ first, missing⟩
    rw [allocates.free] at free
    exact notFree (mem_sdiff.mp free).1
  have notTaken : start ∉ pagesOf result (new - old) := fun mem => notFree (allocates.wasFree mem)
  rw [mem_pagesOf resultAligned newAligned] at inNew
  rw [mem_pagesOf resultAligned diffAligned] at notTaken
  omega

variable {zone oldBytes newBytes : Nat}

/-- Under the condition the contract holds. -/
lemma Intact.reallocContract_of_fits (intact : Intact spec state) (real : zone < spec.realCount)
    (held : oldBytes = 0 ∨ Holds spec state start (spec.ceil oldBytes))
    (oldRounds : oldBytes + (pageSize - 1) < 2 ^ spec.bits)
    (fits : ReallocFits spec state start oldBytes newBytes)
    (attr : Bool) : ReallocContract spec state start oldBytes newBytes attr zone := by
  unfold ReallocContract
  by_cases empty : oldBytes = 0
  · subst empty
    by_cases rounds : newBytes + (pageSize - 1) < 2 ^ spec.bits
    · rw [← ceil_eq_wholePages rounds]
      exact intact.reallocEmpty real start newBytes attr
    -- No range is large enough for a size that cannot be rounded.
    rcases intact.pageMalloc_cases real newBytes attr with failed | hit
    · exact ⟨state, spec.pageError, failed, .inl ⟨rfl, rfl⟩⟩
    · obtain ⟨other, front, range, back, after, small, known, enough, _⟩ := hit
      have otherReal : other < spec.realCount := by omega
      have roundable := ((intact other otherReal).2.fits range (by simp [known])).roundable otherReal
      omega
  · obtain ⟨newRounds, safe⟩ := fits.resolve_left empty
    rw [← ceil_eq_wholePages oldRounds, ← ceil_eq_wholePages newRounds]
    exact (held.resolve_left empty).realloc intact empty oldRounds newRounds real safe attr

section
variable (held : Holds spec state start (spec.ceil oldBytes)) (intact : Intact spec state)
  (asked : oldBytes ≠ 0)
  (oldRounds : oldBytes + (pageSize - 1) < 2 ^ spec.bits)
include held intact asked oldRounds

/-- A size that wraps to nothing frees the whole block. -/
lemma Holds.not_contract_wrapped (word : newBytes < 2 ^ spec.bits)
    (wraps : ¬ newBytes + (pageSize - 1) < 2 ^ spec.bits) (attr : Bool) :
    ¬ ReallocContract spec state start oldBytes newBytes attr zone := by
  rintro ⟨after, result, found, outcome⟩
  have filled : 0 < spec.ceil oldBytes := (Nat.pos_of_ne_zero asked).trans_le (ceil_bounds oldRounds).1
  have nothing := ceil_wraps word wraps
  rw [pageRealloc_eq asked, nothing, if_pos filled] at found
  obtain ⟨reached, freed, shrunk⟩ := held.shrink intact (Nat.dvd_zero _) filled attr
  rw [freed] at found
  obtain ⟨rfl, rfl⟩ := Prod.mk.inj (some.inj found)
  obtain ⟨error, _⟩ | ⟨_, moved⟩ := outcome
  · exact aligned_ne_pageError held.startAligned error
  have first : start ∈ pagesOf start (spec.ceil oldBytes) :=
    (mem_pagesOf held.startAligned held.sizeAligned).mpr ⟨held.startAligned, le_rfl, by omega⟩
  have free : start ∈ reached.freePages spec := by
    rw [shrunk.exchanges.free, pagesOf_zero, sdiff_empty]
    exact mem_union_right _ first
  rw [moved.exchanges.free] at free
  refine (mem_sdiff.mp free).2 ?_
  unfold wholePages
  rw [mem_pagesOf held.startAligned (Nat.dvd_mul_left _ _)]
  refine ⟨held.startAligned, le_rfl, ?_⟩
  have pages : 0 < (newBytes + (pageSize - 1)) / pageSize := Nat.div_pos (by omega) (by omega)
  exact Nat.lt_add_of_pos_right (Nat.mul_pos pages (by omega))

/-- Without room above, an address below that wraps breaks the contract. -/
lemma Holds.not_contract_below (newRounds : newBytes + (pageSize - 1) < 2 ^ spec.bits)
    (grows : spec.ceil oldBytes < spec.ceil newBytes)
    (noneAbove : ¬ AboveFree spec state start (spec.ceil oldBytes) (spec.ceil newBytes))
    (lost : ¬ BelowSafe spec state start (spec.ceil newBytes - spec.ceil oldBytes)) (attr : Bool) :
    ¬ ReallocContract spec state start oldBytes newBytes attr zone := by
  rintro ⟨after, result, found, outcome⟩
  rw [← ceil_eq_wholePages oldRounds, ← ceil_eq_wholePages newRounds] at outcome
  have newAligned := spec.ceil_dvd newBytes
  have newWord := MZoneSpec.ceil_rounds newRounds
  have filled : 0 < spec.ceil oldBytes :=
    (Nat.pos_of_ne_zero asked).trans_le (MZoneSpec.ceil_bounds oldRounds).1
  rw [pageRealloc_eq asked, if_neg grows.le.not_gt, if_pos grows] at found
  generalize spec.ceil oldBytes = old at *
  generalize spec.ceil newBytes = new at *
  unfold reallocGrow at found
  simp only at found
  obtain ⟨above, missed, reached, aboveOutcome⟩ := held.above intact filled newAligned newWord grows attr
  obtain ⟨error, rfl⟩ : missed = spec.pageError ∧ above = state :=
    aboveOutcome.elim (fun failed => ⟨failed.1, failed.2.1⟩) fun hit => absurd hit.2.1 noneAbove
  rw [reached, Option.bind_some, if_neg (not_not.mpr error)] at found
  obtain ⟨outside, inRange⟩ := not_or.mp lost
  have diffAligned := Nat.dvd_sub newAligned held.sizeAligned
  have rounded : spec.ceil (new - old) = new - old := MZoneSpec.ceil_eq diffAligned (by omega)
  have wrapped : spec.sub start (new - old) = start + (2 ^ spec.bits - (new - old)) :=
    Nat.mod_eq_of_lt (by omega)
  have aligned : pageSize ∣ spec.sub start (new - old) := by
    rw [wrapped]
    exact Nat.dvd_add held.startAligned (Nat.dvd_sub spec.pageSize_dvd_word diffAligned)
  by_cases real : spec.mzoneOf (spec.sub start (new - old)) < spec.realCount
  · have wide : ¬ ∀ zone, zone < spec.realCount → ∀ range ∈ above.freeList spec zone,
      range.Has (spec.sub start (new - old)) →
        range.size < new - old := fun none => inRange ⟨real, none⟩
    push Not at wide
    obtain ⟨home, homeReal, range, mem, has, enough⟩ := wide
    -- The sum of the wrapped address and the size is the start of the block again.
    have candidate : Candidate spec (spec.sub start (new - old)) (spec.sub start (new - old))
      (new - old) range := by
      refine ⟨has.1, has.2, enough, ?_⟩
      have sum : spec.add (spec.sub start (new - old)) (new - old) = start := by
        rw [wrapped, MZoneSpec.add, show start + (2 ^ spec.bits - (new - old)) + (new - old) =
          start + 2 ^ spec.bits by omega, Nat.add_mod_right]
        exact Nat.mod_eq_of_lt (by omega)
      have above := has.2
      rw [sum, if_pos (by omega), MZoneSpec.sub, Nat.mod_eq_of_lt (by omega)]
      omega
    rcases intact.pageMallocIn_cases real aligned (show 0 < spec.ceil (new - old) by omega) false with
      ⟨_, nothing⟩ | ⟨other, front, chosen, back, below, small, known, _, hit, _, taken⟩
    · have here : spec.mzoneOf (spec.sub start (new - old)) = home :=
        ((intact home homeReal).2.fits range mem).mzoneOf_eq homeReal has
      exact nothing home here.le here.ge range mem (rounded.symm ▸ candidate)
    have allocates := taken.allocates intact (Nat.lt_of_le_of_lt small real) known
    have resultAligned := taken.part.startAligned
    rw [rounded] at allocates hit resultAligned
    have valid : _ ≠ spec.pageError := MZoneSpec.aligned_ne_pageError resultAligned
    rw [hit, Option.bind_some, if_pos valid] at found
    obtain ⟨rfl, rfl⟩ := Prod.mk.inj (some.inj found)
    exact held.not_reallocates intact filled newAligned grows (by omega) resultAligned allocates
      (outcome.resolve_left fun failed => valid failed.1).2
  · rw [pageMallocIn_outside false (Nat.le_of_not_lt real) le_rfl] at found
    exact absurd found.symm (Option.some_ne_none _)

end

/-- For every block that is held, `page_realloc` keeps its contract exactly under the condition. -/
theorem realloc_contract_iff (intact : Intact spec state) {zone oldBytes newBytes : Nat}
    (real : zone < spec.realCount)
    (held : oldBytes = 0 ∨ Holds spec state start (spec.ceil oldBytes))
    (oldRounds : oldBytes + (pageSize - 1) < 2 ^ spec.bits)
    (word : newBytes < 2 ^ spec.bits) (attr : Bool) :
    ReallocContract spec state start oldBytes newBytes attr zone ↔
      ReallocFits spec state start oldBytes newBytes := by
  refine ⟨fun contract => ?_, fun fits => intact.reallocContract_of_fits real held oldRounds fits attr⟩
  by_contra misfit
  obtain ⟨asked, broken⟩ := not_or.mp misfit
  have block := held.resolve_left asked
  by_cases newRounds : newBytes + (pageSize - 1) < 2 ^ spec.bits
  · have growth : ¬ (spec.ceil oldBytes < spec.ceil newBytes →
        AboveFree spec state start (spec.ceil oldBytes) (spec.ceil newBytes) ∨
          BelowSafe spec state start (spec.ceil newBytes - spec.ceil oldBytes)) := fun safe =>
            broken ⟨newRounds, safe⟩
    obtain ⟨grows, neither⟩ := Classical.not_imp.mp growth
    obtain ⟨noneAbove, lost⟩ := not_or.mp neither
    exact block.not_contract_below intact asked oldRounds newRounds grows noneAbove lost attr contract
  · exact block.not_contract_wrapped intact asked oldRounds word newRounds attr contract

/-- A block of one page below four free pages. -/
def roomMemory : PageState :=
  historyMemory [.addmemory 1 0x100000 0x5000, .mallocIn 0x100000 0x100000 0x1000 false]

/-- The block grows into the page above. -/
theorem realloc_contract_above : ReallocContract i386 roomMemory 0x100000 0x1000 0x2000 true 1 := by
  have intact : Intact i386 roomMemory := historyMemory_intact _ (by decide +kernel)
  have held : Holds i386 roomMemory 0x100000 (i386.ceil 0x1000) :=
    ⟨by decide, by decide, by decide, by decide +kernel⟩
  have above : AboveFree i386 roomMemory 0x100000 (i386.ceil 0x1000) (i386.ceil 0x2000) :=
    ⟨1, by decide, ⟨0x101000, 0x4000, false⟩, by decide +kernel, by decide, by decide⟩
  exact (realloc_contract_iff intact (by decide) (.inr held) (by decide) (by decide) true).mpr
    (.inr ⟨by decide, fun _ => .inl above⟩)

/-- The calls that leave one page of memory in use. -/
def lowCalls : List PageCall := [.addmemory 0 0x1000 0x1000, .malloc 0x1000 false 0]

/-- The memory of a 64-bit machine after these calls. -/
def lowMemory : PageState :=
  ((StepRun.run (PageSystem.step x8664) (PageSystem.boot x8664 fun _ => .zero) lowCalls).getD
    (PageSystem.boot x8664 fun _ => .zero)).memory

/-- One page is in use, and the memory above the first megabyte is free. -/
def highMemory : PageState := historyMemory [.addmemory 0 0x1000 0x1000, .malloc 0x1000 false 0,
    .addmemory 1 0x100000 0xbff00000]

/-- A zone behind the array is used, or the result is smaller than the new size. -/
theorem realloc_breaks_contract :
    lowMemory.pageRealloc x8664 0x1000 0x1000 0x3000 false 0 = none ∧
    ¬ ReallocContract x8664 lowMemory 0x1000 0x1000 0x3000 false 0 ∧
      (highMemory.pageRealloc i386 0x1000 0x1000 0x50002000 false 1).map (·.2) = some 0x6ffff000 ∧
      ¬ ReallocContract i386 highMemory 0x1000 0x1000 0x50002000 false 1 := by
  have outside : (lowMemory.pageRealloc x8664 0x1000 0x1000 0x3000 false 0).isNone = true :=
    by decide +kernel
  have returned : (highMemory.pageRealloc i386 0x1000 0x1000 0x50002000 false 1).map (·.2) =
    some 0x6ffff000 := by decide +kernel
  have none := isNone_iff_eq_none.mp outside
  refine ⟨none, fun ⟨after, result, found, _⟩ => ?_, returned, fun ⟨after, result, found, outcome⟩ => ?_⟩
  · rw [none] at found
    exact absurd found.symm (some_ne_none _)
  · rw [found] at returned
    obtain rfl : result = 0x6ffff000 := some.inj returned
    have moved := (outcome.resolve_left fun failed => absurd failed.1 (by decide)).2
    -- The page behind the part that was handed out is neither free nor in the old block.
    have lists : highMemory.freeList i386 0 = [] ∧
      highMemory.freeList i386 1 = [⟨0x100000, 0xbff00000, false⟩] := by decide +kernel
    have behind : 0xc0000000 ∈ pagesOf 0x6ffff000 (wholePages 0x50002000) :=
      (mem_pagesOf (by decide) (by decide)).mpr ⟨by decide, by decide, by decide⟩
    rcases mem_union.mp (moved.exchanges.wasFree behind) with free | inOld
    · obtain ⟨zone, real, inZone⟩ := mem_biUnion.mp free
      obtain ⟨range, mem, inRange⟩ := mem_biUnion.mp inZone
      have small : zone < 2 := mem_range.mp real
      rw [List.mem_toFinset] at mem
      interval_cases zone
      · exact absurd mem List.not_mem_nil
      · rw [lists.2, List.mem_singleton] at mem
        subst mem
        rw [mem_pagesOf (by decide) (by decide)] at inRange
        exact absurd inRange.2.2 (by decide)
    · rw [mem_pagesOf (by decide) (by decide)] at inOld
      exact absurd inOld.2.2 (by decide)

end PageState

end KosKernel.Memory
