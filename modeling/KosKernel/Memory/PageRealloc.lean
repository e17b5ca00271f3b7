import KosKernel.Memory.PageCalls

namespace KosKernel.Memory
open FreeRanges Finset Option MZoneSpec Nat
namespace PageState
variable {spec : MZoneSpec} {state middle after : PageState} {attr : Bool}
  {taken more given : Finset Nat}

section Realloc
variable {start old new : Nat}

/-- The pages of a result. -/
def takenPages (spec : MZoneSpec) (start bytes : Nat) : Finset Nat :=
  if start = spec.pageError then ∅ else pagesOf start bytes

lemma takenPages_of_aligned (aligned : pageSize ∣ start) (bytes : Nat) :
    takenPages spec start bytes = pagesOf start bytes := if_neg (aligned_ne_pageError aligned)

/-- The caller holds the pages of a range. -/
structure Holds (spec : MZoneSpec) (state : PageState) (start bytes : Nat) : Prop where
  startAligned : pageSize ∣ start
  sizeAligned : pageSize ∣ bytes
  bounded : start + bytes ≤ spec.limit
  apart : Disjoint (pagesOf start bytes) (state.freePages spec)

variable {bytes index zone oldBytes : Nat}

/-- The pages of a block are addressed by their index. -/
lemma page_mem_pagesOf (startAligned : pageSize ∣ start) (sizeAligned : pageSize ∣ bytes)
    (less : pageSize * index < bytes) : start + pageSize * index ∈ pagesOf start bytes :=
  (mem_pagesOf startAligned sizeAligned).mpr
    ⟨dvd_add startAligned (dvd_mul_right _ _), le_add_right _ _, by omega⟩

/-- A block is exchanged for another one, with the common part and perhaps zero behind it. -/
structure Reallocates (spec : MZoneSpec) (before after : PageState) (start old result new : Nat)
    (attr : Bool) : Prop where
  exchanges : Exchanges spec before after (pagesOf start old) (pagesOf result new)
  kept : ∀ index, pageSize * index < min old new → after.page (result + pageSize * index) =
    before.page (start + pageSize * index)
  cleared : Zeroed spec before → attr = true → ∀ index, old ≤ pageSize * index → pageSize * index < new →
    after.page (result + pageSize * index) = .zero

/-- Copied pages arrive unless a page is overwritten before it is read. -/
lemma copyPages_page {dst src count : Nat} (aligned : pageSize ∣ dst)
    (dstBound : dst + pageSize * count ≤ spec.limit)
    (srcBound : src + pageSize * count ≤ spec.limit) (order : dst ≤ src ∨ src + pageSize * count ≤ dst)
    (less : index < count) :
    (state.copyPages spec dst src count).page (dst + pageSize * index) =
      state.page (src + pageSize * index) := by
  induction count generalizing state dst src index with
  | zero => omega
  | succ count ih =>
    have word := spec.limit_bound
    have page : pageSize = 4096 := rfl
    rw [mul_succ] at dstBound srcBound order
    rw [PageState.copyPages, add_of_lt (show dst + pageSize < 2 ^ spec.bits by omega),
      add_of_lt (show src + pageSize < 2 ^ spec.bits by omega)]
    have nextAligned : pageSize ∣ dst + pageSize := dvd_add aligned (dvd_refl _)
    obtain ⟨stored, same, here, others⟩ : ∃ stored,
      { state with page := Function.update state.page dst (state.page src) } = stored ∧
        stored.page dst = state.page src ∧ ∀ page, page ≠ dst → stored.page page = state.page page :=
      ⟨_, rfl, Function.update_self .., fun _ differs => Function.update_of_ne differs ..⟩
    rw [same]
    cases index with
    | zero =>
      have writes : Writes stored _ _ :=
        writes_copyPages (src + pageSize) count nextAligned
          (show dst + pageSize + pageSize * count ≤ spec.limit by omega)
      rw [mul_zero, add_zero, add_zero, writes.page dst aligned, here]
      rw [mem_pagesOf nextAligned (dvd_mul_right _ _)]
      omega
    | succ index =>
      have bound : pageSize * (index + 1) ≤ pageSize * count := mul_le_mul_left _ (le_of_lt_succ less)
      rw [mul_succ] at bound ⊢
      rw [← add_assoc, add_right_comm, ih nextAligned (by omega) (by omega) (by omega)
        (lt_of_succ_lt_succ less), others _ (by omega), ← add_assoc, add_right_comm]

section
variable (held : Holds spec state start old) (intact : Intact spec state)
include held intact

/-- The range loses its upper part. -/
lemma Holds.shrink (newAligned : pageSize ∣ new) (less : new < old) (attr : Bool) :
    ∃ after, state.ffree spec (spec.add start new) (old - new) false = some after ∧
      Reallocates spec state after start old start new attr := by
  have word := spec.limit_bound
  have bounded := held.bounded
  have behind : spec.add start new = start + new := add_of_lt (by omega)
  have restAligned := dvd_sub held.sizeAligned newAligned
  have rounded : spec.ceil (old - new) = old - new := ceil_eq restAligned (by omega)
  have parts : pagesOf start old = pagesOf (start + new) (old - new) ∪ pagesOf start new := by
    rw [← pagesOf_append held.startAligned newAligned restAligned, Nat.add_sub_cancel' less.le]
  have apart := held.apart
  rw [parts, disjoint_union_left] at apart
  rw [behind]
  obtain ⟨after, freed, pieces⟩ := intact.ffree (dvd_add held.startAligned newAligned)
    (show old - new + (pageSize - 1) < 2 ^ spec.bits by omega) (by omega)
      (by rw [rounded]; exact apart.1) false
  rw [rounded] at pieces
  have frees := pieces.frees intact
  have between : Disjoint (pagesOf start new) (pagesOf (start + new) (old - new)) := by
    refine disjoint_left.mpr fun page low high => ?_
    rw [mem_pagesOf held.startAligned newAligned] at low
    rw [mem_pagesOf (dvd_add held.startAligned newAligned) restAligned] at high
    omega
  have exchanges := frees.exchanges.keep apart.2 between
  rw [← parts] at exchanges
  refine ⟨after, freed, exchanges, fun index inside => ?_, fun _ _ index lower upper => by omega⟩
  have mem := page_mem_pagesOf held.startAligned newAligned (show pageSize * index < new by omega)
  refine frees.frame _ (dvd_add held.startAligned (dvd_mul_right _ _)) ?_
  rw [exchanges.free]
  exact fun free => (mem_sdiff.mp free).2 mem

/-- A free range of one zone follows the block and is large enough for the rest. -/
def AboveFree (spec : MZoneSpec) (state : PageState) (start old new : Nat) : Prop :=
  ∃ zone < spec.realCount, ∃ range ∈ state.freeList spec zone, range.start = start + old ∧
    new - old ≤ range.size

/-- A free range that holds the address behind the block starts there. -/
lemma Holds.range_above (filled : 0 < old) (real : zone < spec.realCount) {range : PageRange}
    (mem : range ∈ state.freeList spec zone) (has : range.Has (start + old)) :
      range.start = start + old := by
  have endAligned := dvd_add held.startAligned held.sizeAligned
  have fitsRange := (intact zone real).2.fits range mem
  by_contra differs
  have below : start + old - pageSize ∈ pagesOf start old := by
    rw [mem_pagesOf held.startAligned held.sizeAligned]
    refine ⟨Nat.dvd_sub endAligned (Nat.dvd_refl _), ?_⟩
    obtain ⟨pages, rfl⟩ := held.sizeAligned
    unfold pageSize at *
    omega
  refine disjoint_left.mp held.apart below (intact.mem_freePages.mpr
    ⟨Nat.dvd_sub endAligned (Nat.dvd_refl _), zone, real, range, mem, ?_, ?_⟩)
  · obtain ⟨low, high⟩ := has
    obtain ⟨index, same⟩ := dvd_sub endAligned fitsRange.startAligned
    unfold pageSize at *
    omega
  · have := has.2
    omega

/-- The pages behind the range are handed out, or nothing changes. -/
lemma Holds.above (filled : 0 < old) (newAligned : pageSize ∣ new)
    (newRounds : new + (pageSize - 1) < 2 ^ spec.bits) (more : old < new) (attr : Bool) :
    ∃ after found, state.pageMallocIn spec (spec.add start old) (spec.add start old)
      (new - old) attr = some (after, found) ∧
      ((found = spec.pageError ∧ after = state ∧ ¬ AboveFree spec state start old new) ∨
        (found ≠ spec.pageError ∧ AboveFree spec state start old new ∧
          Reallocates spec state after start old start new attr)) := by
  have word := spec.limit_bound
  have bounded := held.bounded
  have behind : spec.add start old = start + old := add_of_lt (by omega)
  have diffAligned := dvd_sub newAligned held.sizeAligned
  have rounded : spec.ceil (new - old) = new - old := ceil_eq diffAligned (by omega)
  have positive : 0 < spec.ceil (new - old) := by
    omega
  have endAligned := dvd_add held.startAligned held.sizeAligned
  have real : spec.mzoneOf (start + old) < spec.realCount := mzoneOf_lt bounded
  rw [behind]
  -- A range that follows the block is found, and a range that is found follows the block.
  have candidate_iff : ∀ {zone : Nat}, zone < spec.realCount → ∀ range ∈ state.freeList spec zone,
      (Candidate spec (start + old) (start + old) (new - old) range ↔ range.start = start + old ∧
        new - old ≤ range.size) := by
    intro zone zoneReal range mem
    have fitsRange := (intact zone zoneReal).2.fits range mem
    have stop := fitsRange.bounded zoneReal
    constructor
    · exact fun candidate => ⟨held.range_above intact filled zoneReal mem ⟨candidate.1,
        candidate.2.1⟩, candidate.2.2.1⟩
    · rintro ⟨same, enough⟩
      exact .of_block le_rfl le_rfl (by omega) same.le (by unfold Range.stop; omega) (by omega) stop
  rcases intact.pageMallocIn_cases real endAligned positive attr with ⟨failed, nothing⟩ | hit
  · refine ⟨state, spec.pageError, failed,
      .inl ⟨rfl, rfl, fun ⟨zone, zoneReal, range, mem, same, enough⟩ => ?_⟩⟩
    have fitsRange := (intact zone zoneReal).2.fits range mem
    have here : spec.mzoneOf (start + old) = zone :=
      fitsRange.mzoneOf_eq zoneReal ⟨same.le, by unfold Range.stop; omega⟩
    refine nothing zone here.le here.ge range mem ?_
    rw [rounded]
    exact (candidate_iff zoneReal range mem).mpr ⟨same, enough⟩
  · obtain ⟨other, front, range, back, reached, small, known, candidate, found, _, taken⟩ := hit
    have otherReal : other < spec.realCount := by omega
    have mem : range ∈ state.freeList spec other := by simp [known]
    rw [rounded] at candidate found taken
    obtain ⟨same, enough⟩ := (candidate_iff otherReal range mem).mp candidate
    rw [min_eq_left (by omega)] at found taken
    have valid : start + old ≠ spec.pageError := aligned_ne_pageError endAligned
    have allocates := taken.allocates intact otherReal known
    refine ⟨reached, start + old, found,
      .inr ⟨valid, ⟨other, otherReal, range, mem, same, enough⟩, ?_, ?_, ?_⟩⟩
    · have exchanges := allocates.exchanges.keep held.apart (disjoint_empty_right _)
      rwa [← pagesOf_append held.startAligned held.sizeAligned diffAligned,
        Nat.add_sub_cancel' more.le] at exchanges
    · intro index inside
      refine allocates.frame _ (dvd_add held.startAligned (dvd_mul_right _ _)) ?_
      exact disjoint_left.mp held.apart (page_mem_pagesOf held.startAligned held.sizeAligned (by omega))
    · intro zeroed asked index lower upper
      refine (allocates.zeroed zeroed).2 asked _ ?_
      rw [mem_pagesOf endAligned diffAligned]
      exact ⟨dvd_add held.startAligned (dvd_mul_right _ _), by omega, by omega⟩

/-- A block grows downwards only inside of the word, or finds no range. -/
def BelowSafe (spec : MZoneSpec) (state : PageState) (start diff : Nat) : Prop :=
  diff ≤ start ∨ (spec.mzoneOf (spec.sub start diff) < spec.realCount ∧
    ∀ zone, zone < spec.realCount → ∀ range ∈ state.freeList spec zone,
      range.Has (spec.sub start diff) → range.size < diff)

/-- The pages before the range are handed out, or nothing changes. -/
lemma Holds.below (newAligned : pageSize ∣ new) (newRounds : new + (pageSize - 1) < 2 ^ spec.bits)
    (more : old < new) (safe : BelowSafe spec state start (new - old)) :
    ∃ after found, state.pageMallocIn spec (spec.sub start (new - old)) (spec.sub start (new - old))
      (new - old) false = some (after, found) ∧
      ((found = spec.pageError ∧ after = state) ∨ (new - old ≤ start ∧ found = start - (new - old) ∧
        Allocates spec state after false (pagesOf found (new - old)))) := by
  have word := spec.limit_bound
  have bounded := held.bounded
  have diffAligned := dvd_sub newAligned held.sizeAligned
  have rounded : spec.ceil (new - old) = new - old := ceil_eq diffAligned (by omega)
  by_cases inside : new - old ≤ start
  · have lower : spec.sub start (new - old) = start - (new - old) := sub_of_le inside (by omega)
    have lowerAligned := dvd_sub held.startAligned diffAligned
    have real : spec.mzoneOf (start - (new - old)) < spec.realCount :=
      mzoneOf_lt (show _ ≤ spec.limit by omega)
    rw [lower]
    obtain ⟨after, found, reached, outcome, exact⟩ := intact.pageMallocAt real lowerAligned
      (show 0 < spec.ceil (new - old) by omega) (by omega) false
    refine ⟨after, found, reached, ?_⟩
    cases outcome with
    | failed error same => exact .inl ⟨error, same⟩
    | done foundAligned _ _ allocates =>
      rw [rounded] at allocates
      exact .inr ⟨inside, exact.resolve_left (aligned_ne_pageError foundAligned), allocates⟩
  · obtain ⟨real, none⟩ := safe.resolve_left inside
    have wrapped : spec.sub start (new - old) = start + (2 ^ spec.bits - (new - old)) :=
      mod_eq_of_lt (by omega)
    have aligned : pageSize ∣ spec.sub start (new - old) := by
      rw [wrapped]
      exact dvd_add held.startAligned (dvd_sub spec.pageSize_dvd_word diffAligned)
    have unchanged := intact.pageMallocAt_wrapped real aligned (show 0 < spec.ceil (new - old) by omega)
      (fun zone zoneReal range mem has => by rw [rounded]; exact none zone zoneReal range mem has) false
    exact ⟨state, spec.pageError, unchanged, .inl ⟨rfl, rfl⟩⟩

end

section
variable {result : Nat} (exchanges : Exchanges spec state after given (pagesOf result new))
  (resultAligned : pageSize ∣ result) (oldAligned : pageSize ∣ old) (newAligned : pageSize ∣ new)
  (bounded : result + new ≤ spec.limit) (grows : old < new)
include exchanges resultAligned oldAligned newAligned bounded grows

/-- The upper part of a new range is cleared. -/
lemma Exchanges.clearUpper :
    Exchanges spec state (after.clearPages (spec.add result old) (new - old)) given
      (pagesOf result new) := by
  have word := spec.limit_bound
  have behind : spec.add result old = result + old := add_of_lt (by omega)
  rw [behind]
  refine exchanges.writes (writes_clearPages (dvd_add resultAligned oldAligned)
    (dvd_sub newAligned oldAligned)) ?_
  intro page mem
  rw [mem_pagesOf (dvd_add resultAligned oldAligned) (dvd_sub newAligned oldAligned)] at mem
  rw [mem_pagesOf resultAligned newAligned]
  omega

/-- The contents of the old range are copied to the lower part of a new one. -/
lemma Exchanges.copyLower (start : Nat) :
    Exchanges spec state (after.copyPages spec result start (old / pageSize)) given
      (pagesOf result new) := by
  have count : pageSize * (old / pageSize) = old := Nat.mul_div_cancel' oldAligned
  refine exchanges.writes (writes_copyPages start (old / pageSize) resultAligned (by omega)) ?_
  intro page mem
  rw [count, mem_pagesOf resultAligned oldAligned] at mem
  rw [mem_pagesOf resultAligned newAligned]
  omega

end

section Move
variable {result : Nat}

/-- The copy arrives in the lower part of the new range. -/
lemma Holds.copied (held : Holds spec state start old) (resultAligned : pageSize ∣ result)
    (bounded : result + new ≤ spec.limit) (more : old < new)
    (apart : result ≤ start ∨ start + old ≤ result)
    (frame : ∀ page ∈ pagesOf start old, middle.page page = state.page page)
    (inside : pageSize * index < old) :
    (middle.copyPages spec result start (old / pageSize)).page (result + pageSize * index) =
      state.page (start + pageSize * index) := by
  have count : pageSize * (old / pageSize) = old := Nat.mul_div_cancel' held.sizeAligned
  have heldBound := held.bounded
  rw [copyPages_page resultAligned (by omega) (by omega) (by omega)
    (Nat.lt_of_mul_lt_mul_left (count.symm ▸ inside)),
    frame _ (page_mem_pagesOf held.startAligned held.sizeAligned inside)]

section
variable (held : Holds spec state start old)
include held

/-- The copy leaves the upper part of the new range alone. -/
lemma Holds.uncopied (resultAligned : pageSize ∣ result) (bounded : result + new ≤ spec.limit)
    (more : old < new) (outside : old ≤ pageSize * index) :
    (middle.copyPages spec result start (old / pageSize)).page (result + pageSize * index) =
      middle.page (result + pageSize * index) := by
  have count : pageSize * (old / pageSize) = old := Nat.mul_div_cancel' held.sizeAligned
  refine (writes_copyPages start (old / pageSize) resultAligned (by omega)).page _
    (dvd_add resultAligned (dvd_mul_right _ _)) ?_
  rw [count, mem_pagesOf resultAligned held.sizeAligned]
  omega

/-- The range moves down, and its upper part is cleared if that is asked for. -/
lemma Holds.moveDown (newAligned : pageSize ∣ new) (more : old < new) (inside : new - old ≤ start)
    (allocates : Allocates spec state after false (pagesOf (start - (new - old)) (new - old)))
    (attr : Bool) :
    Reallocates spec state
      (if attr then (after.copyPages spec (start - (new - old)) start (old / pageSize)).clearPages
        (spec.add (start - (new - old)) old) (new - old)
      else after.copyPages spec (start - (new - old)) start (old / pageSize)) start old
        (start - (new - old)) new attr := by
  have word := spec.limit_bound
  have heldBound := held.bounded
  have diffAligned := dvd_sub newAligned held.sizeAligned
  have lowerAligned := dvd_sub held.startAligned diffAligned
  have bounded : start - (new - old) + new ≤ spec.limit := by omega
  have parts := pagesOf_append lowerAligned diffAligned held.sizeAligned
  rw [Nat.sub_add_cancel inside, Nat.sub_add_cancel more.le, union_comm] at parts
  have exchanges := allocates.exchanges.keep held.apart (disjoint_empty_right _)
  rw [← parts] at exchanges
  have moved := exchanges.copyLower lowerAligned held.sizeAligned newAligned bounded more start
  have copied : ∀ index, pageSize * index < old →
    (after.copyPages spec (start - (new - old)) start (old / pageSize)).page
      (start - (new - old) + pageSize * index) = state.page (start + pageSize * index) :=
    fun index less => held.copied lowerAligned bounded more (.inl (by omega)) (fun page mem =>
      allocates.frame page ((mem_pagesOf held.startAligned held.sizeAligned).mp mem).1
        (disjoint_left.mp held.apart mem)) less
  have behind : spec.add (start - (new - old)) old = start - (new - old) + old := add_of_lt (by omega)
  cases attr with
  | false => exact ⟨moved, fun index less => copied index (by omega),
      fun _ never => absurd never Bool.false_ne_true⟩
  | true =>
    refine ⟨moved.clearUpper lowerAligned held.sizeAligned newAligned bounded more, fun index less => ?_,
      fun _ _ index lower upper => ?_⟩
    · rw [← copied index (by omega)]
      exact if_neg (by omega)
    · exact if_pos (by omega)

/-- The range moves to other pages, and its old pages are handed back. -/
lemma Holds.move (resultAligned : pageSize ∣ result) (newAligned : pageSize ∣ new)
    (bounded : result + new ≤ spec.limit) (more : old < new)
    (exchanges : Exchanges spec state middle ∅ (pagesOf result new))
    (cleared : Zeroed spec state → attr = true → ∀ index, old ≤ pageSize * index →
      pageSize * index < new →
      middle.page (result + pageSize * index) = .zero) :
    ∃ after, (middle.copyPages spec result start (old / pageSize)).ffree spec start old false =
      some after ∧
      Reallocates spec state after start old result new attr := by
  have word := spec.limit_bound
  have held' := held.bounded
  have moved := exchanges.copyLower resultAligned held.sizeAligned newAligned bounded more start
  have rounded : spec.ceil old = old := ceil_eq held.sizeAligned (by omega)
  have fresh : pagesOf result new ⊆ state.freePages spec := by
    have free := exchanges.wasFree
    rwa [union_empty] at free
  have between : Disjoint (pagesOf start old) (pagesOf result new) :=
    disjoint_of_subset_right fresh held.apart
  have apart : Disjoint (pagesOf start (spec.ceil old))
    ((middle.copyPages spec result start (old / pageSize)).freePages spec) := by
    rw [rounded, moved.free, union_empty]
    exact disjoint_of_subset_right sdiff_subset held.apart
  obtain ⟨after, freed, pieces⟩ :=
    moved.intact.ffree held.startAligned (show old + (pageSize - 1) < 2 ^ spec.bits by omega)
    (by rw [rounded]; exact held') apart false
  rw [rounded] at pieces
  have frees := pieces.frees moved.intact
  have final := moved.release frees between
  -- The pages of the new range are not free in the end.
  have kept : ∀ index, pageSize * index < new → after.page (result + pageSize * index) =
      (middle.copyPages spec result start (old / pageSize)).page (result + pageSize * index) := by
    intro index less
    refine frees.frame _ (dvd_add resultAligned (dvd_mul_right _ _)) ?_
    rw [final.free]
    exact fun free => (mem_sdiff.mp free).2 (page_mem_pagesOf resultAligned newAligned less)
  -- Two disjoint ranges lie one behind the other.
  have separate : result ≤ start ∨ start + old ≤ result := by
    by_contra overlap
    have shared : result ∈ pagesOf start old :=
      (mem_pagesOf held.startAligned held.sizeAligned).mpr ⟨resultAligned, by omega, by omega⟩
    exact disjoint_left.mp between shared
      ((mem_pagesOf resultAligned newAligned).mpr ⟨resultAligned, le_rfl, by omega⟩)
  refine ⟨after, freed, final, fun index less => ?_, fun zeroed asked index lower upper => ?_⟩
  · rw [kept index (by omega)]
    refine held.copied resultAligned bounded more separate (fun page mem => ?_) (by omega)
    exact exchanges.frame page ((mem_pagesOf held.startAligned held.sizeAligned).mp mem).1
      (disjoint_left.mp held.apart mem) (notMem_empty page)
  · rw [kept index upper, held.uncopied resultAligned bounded more lower]
    exact cleared zeroed asked index lower upper

end

end Move

lemma AllocatesAt.exchanges (intact : Intact spec state)
    (outcome : AllocatesAt spec state after attr start bytes) :
    Exchanges spec state after ∅ (takenPages spec start bytes) := by
  cases outcome with
  | failed error same =>
    rw [takenPages, if_pos error, same]
    exact Exchanges.refl intact
  | done startAligned _ _ allocates =>
    rw [takenPages_of_aligned startAligned]
    exact allocates.exchanges

/-- A new range is handed out, and its upper part is cleared if only that is asked for. -/
lemma Holds.fresh (held : Holds spec state start old) (intact : Intact spec state)
    (newAligned : pageSize ∣ new)
    (newRounds : new + (pageSize - 1) < 2 ^ spec.bits) (more : old < new)
    (real : zone < spec.realCount) (attr : Bool) :
    ∃ taken result, (if attr ∧ new - old < old then
        (state.pageMalloc spec new false zone).map fun (taken, result) =>
          if result = spec.pageError then (taken, result)
          else (taken.clearPages (spec.add result old) (new - old), result)
      else state.pageMalloc spec new attr zone) = some (taken, result) ∧
      ((result = spec.pageError ∧ taken = state) ∨
        (pageSize ∣ result ∧ result + new ≤ spec.limit ∧
          Exchanges spec state taken ∅ (pagesOf result new) ∧
          (Zeroed spec state → attr = true → ∀ index, old ≤ pageSize * index → pageSize * index < new →
            taken.page (result + pageSize * index) = .zero))) := by
  have rounded : spec.ceil new = new := ceil_eq newAligned newRounds
  have word := spec.limit_bound
  split
  · obtain ⟨taken, result, found, outcome⟩ := intact.pageMalloc real new false
    rw [rounded] at outcome
    rw [found]
    cases outcome with
    | failed error same => exact ⟨taken, result, by simp [error], .inl ⟨error, same⟩⟩
    | done resultAligned _ bounded allocates =>
      have valid : result ≠ spec.pageError := aligned_ne_pageError resultAligned
      refine ⟨_, result, congrArg some (if_neg valid),
        .inr ⟨resultAligned, bounded, ?_, fun _ _ index lower upper => ?_⟩⟩
      · exact allocates.exchanges.clearUpper resultAligned held.sizeAligned newAligned bounded more
      · rw [add_of_lt (show result + old < 2 ^ spec.bits by omega)]
        exact if_pos (by omega)
  · obtain ⟨taken, result, found, outcome⟩ := intact.pageMalloc real new attr
    rw [rounded] at outcome
    refine ⟨taken, result, found, ?_⟩
    cases outcome with
    | failed error same => exact .inl ⟨error, same⟩
    | done resultAligned _ bounded allocates =>
      refine .inr ⟨resultAligned, bounded, allocates.exchanges, fun zeroed asked index _ upper => ?_⟩
      exact (allocates.zeroed zeroed).2 asked _ (page_mem_pagesOf resultAligned newAligned upper)

lemma AllocatesAt.zeroed (outcome : AllocatesAt spec state after attr start bytes)
    (zeroed : Zeroed spec state) :
    Zeroed spec after ∧ (attr = true → ∀ page ∈ takenPages spec start bytes,
      after.page page = .zero) := by
  cases outcome with
  | failed error same =>
    rw [takenPages, if_pos error, same]
    exact ⟨zeroed, by simp⟩
  | done startAligned _ _ allocates =>
    rw [takenPages_of_aligned startAligned]
    exact allocates.zeroed zeroed

/-- What a caller of `page_realloc` promises about the old range. -/
structure ReallocSafe (spec : MZoneSpec) (state : PageState) (start oldBytes newBytes : Nat) : Prop where
  oldRounds : oldBytes + (pageSize - 1) < 2 ^ spec.bits
  newRounds : newBytes + (pageSize - 1) < 2 ^ spec.bits
  held : Holds spec state start (spec.ceil oldBytes)
  below : spec.ceil oldBytes < spec.ceil newBytes →
    BelowSafe spec state start (spec.ceil newBytes - spec.ceil oldBytes)

/-- A rounded size leaves room for another rounding. -/
lemma MZoneSpec.ceil_rounds (rounds : bytes + (pageSize - 1) < 2 ^ spec.bits) :
    spec.ceil bytes + (pageSize - 1) < 2 ^ spec.bits := by
  obtain ⟨pages, word⟩ := spec.pageSize_dvd_word
  obtain ⟨count, total⟩ := spec.ceil_dvd bytes
  have small : spec.ceil bytes < 2 ^ spec.bits := lt_of_le_of_lt (ceil_bounds rounds).2 rounds
  unfold pageSize at *
  omega

/-- The outcome of a reallocation. It fails without a change, or the block is exchanged. -/
def ReallocOutcome (spec : MZoneSpec) (before after : PageState) (start old result new : Nat)
    (attr : Bool) : Prop :=
  (result = spec.pageError ∧ after = before) ∨
    (result ≠ spec.pageError ∧ Reallocates spec before after start old result new attr)

/-- A block of no size is allocated. -/
lemma Intact.reallocEmpty (intact : Intact spec state) (real : zone < spec.realCount)
    (start newBytes : Nat) (attr : Bool) :
    ∃ after result, state.pageMalloc spec newBytes attr zone = some (after, result) ∧
      ReallocOutcome spec state after start 0 result (spec.ceil newBytes) attr := by
  obtain ⟨after, result, found, outcome⟩ := intact.pageMalloc real newBytes attr
  refine ⟨after, result, found, ?_⟩
  cases outcome with
  | failed error same => exact .inl ⟨error, same⟩
  | done resultAligned sizeAligned _ allocates =>
    refine .inr ⟨aligned_ne_pageError resultAligned, ?_, fun index less => by
      omega, fun zeroed asked index _ upper => ?_⟩
    · exact allocates.exchanges
    · exact (allocates.zeroed zeroed).2 asked _ (page_mem_pagesOf resultAligned sizeAligned upper)

/-- The branch of `page_realloc` for a block that grows. -/
def reallocGrow (spec : MZoneSpec) (state : PageState) (start old new : Nat) (attr : Bool)
    (zone : Nat) : Option (PageState × Nat) :=
  (state.pageMallocIn spec (spec.add start old) (spec.add start old) (new - old) attr).bind
    fun (above, found) =>
    if found ≠ spec.pageError then some (above, start)
    else
      (above.pageMallocIn spec (spec.sub start (new - old)) (spec.sub start (new - old))
        (new - old) false).bind fun (below, result) =>
        if result ≠ spec.pageError then
          let moved := below.copyPages spec result start (old / pageSize)
          some (if attr then moved.clearPages (spec.add result old) (new - old) else moved, result)
        else
          (if attr ∧ new - old < old then
            (below.pageMalloc spec new false zone).map fun (taken, result) =>
              if result = spec.pageError then (taken, result)
              else (taken.clearPages (spec.add result old) (new - old), result)
          else below.pageMalloc spec new attr zone).bind fun (taken, result) =>
            if result = spec.pageError then some (taken, result)
            else ((taken.copyPages spec result start (old / pageSize)).ffree spec start old
              false).map (·, result)

lemma pageRealloc_eq (filled : oldBytes ≠ 0) (newBytes : Nat) (attr : Bool) (zone : Nat) :
    state.pageRealloc spec start oldBytes newBytes attr zone = if spec.ceil newBytes <
      spec.ceil oldBytes then
        (state.ffree spec (spec.add start (spec.ceil newBytes))
          (spec.ceil oldBytes - spec.ceil newBytes) false).map (·, start)
      else if spec.ceil oldBytes < spec.ceil newBytes then
        state.reallocGrow spec start (spec.ceil oldBytes) (spec.ceil newBytes) attr zone
      else some (state, start) := by
  rw [PageState.pageRealloc, if_neg filled]
  rfl

/-- A block grows upwards, downwards or at a new place. -/
lemma Holds.grow (held : Holds spec state start old) (intact : Intact spec state) (filled : 0 < old)
    (newAligned : pageSize ∣ new) (newRounds : new + (pageSize - 1) < 2 ^ spec.bits) (more : old < new)
    (real : zone < spec.realCount) (safe : AboveFree spec state start old new ∨
      BelowSafe spec state start (new - old))
    (attr : Bool) :
    ∃ after result, state.reallocGrow spec start old new attr zone = some (after, result) ∧
      ReallocOutcome spec state after start old result new attr := by
  unfold reallocGrow
  simp only
  have valid : start ≠ spec.pageError := aligned_ne_pageError held.startAligned
  obtain ⟨above, found, reached, outcome⟩ := held.above intact filled newAligned newRounds more attr
  rw [reached, bind_some]
  rcases outcome with ⟨error, rfl, noneAbove⟩ | ⟨hit, _, grown⟩
  · rw [if_neg (not_not.mpr error)]
    obtain ⟨lower, result, lowerReached, lowerOutcome⟩ :=
      held.below intact newAligned newRounds more (safe.resolve_left noneAbove)
    rw [lowerReached, bind_some]
    rcases lowerOutcome with ⟨lowerError, rfl⟩ | ⟨inside, rfl, allocates⟩
    · rw [if_neg (not_not.mpr lowerError)]
      obtain ⟨taken, result, moved, outcome⟩ := held.fresh intact newAligned newRounds more real attr
      rw [moved, bind_some]
      rcases outcome with ⟨failed, same⟩ | ⟨resultAligned, bounded, exchanges, cleared⟩
      · exact ⟨taken, result, if_pos failed, .inl ⟨failed, same⟩⟩
      · have resultValid : result ≠ spec.pageError := aligned_ne_pageError resultAligned
        obtain ⟨after, freed, final⟩ := held.move resultAligned newAligned bounded more exchanges cleared
        exact ⟨after, result, by rw [if_neg resultValid, freed, map_some], .inr ⟨resultValid, final⟩⟩
    · have lowerAligned := dvd_sub held.startAligned (dvd_sub newAligned held.sizeAligned)
      have resultValid : start - (new - old) ≠ spec.pageError := aligned_ne_pageError lowerAligned
      exact ⟨_, _, if_pos resultValid,
        .inr ⟨resultValid, held.moveDown newAligned more inside allocates attr⟩⟩
  · exact ⟨above, start, if_pos hit, .inr ⟨valid, grown⟩⟩

/-- This is what `page_realloc` does to a block that is not empty. -/
lemma Holds.realloc {newBytes : Nat} (held : Holds spec state start (spec.ceil oldBytes))
    (intact : Intact spec state)
    (asked : oldBytes ≠ 0) (oldRounds : oldBytes + (pageSize - 1) < 2 ^ spec.bits)
    (newRounds : newBytes + (pageSize - 1) < 2 ^ spec.bits) (real : zone < spec.realCount)
    (safe : spec.ceil oldBytes < spec.ceil newBytes →
      AboveFree spec state start (spec.ceil oldBytes) (spec.ceil newBytes) ∨
      BelowSafe spec state start (spec.ceil newBytes - spec.ceil oldBytes)) (attr : Bool) :
    ∃ after result, state.pageRealloc spec start oldBytes newBytes attr zone = some (after, result) ∧
      ReallocOutcome spec state after start (spec.ceil oldBytes) result (spec.ceil newBytes) attr := by
  have newAligned := spec.ceil_dvd newBytes
  have newWord := MZoneSpec.ceil_rounds newRounds
  have filled : 0 < spec.ceil oldBytes := (pos_of_ne_zero asked).trans_le (ceil_bounds oldRounds).1
  have valid : start ≠ spec.pageError := aligned_ne_pageError held.startAligned
  rw [pageRealloc_eq asked]
  generalize spec.ceil oldBytes = old at *
  generalize spec.ceil newBytes = new at *
  rcases lt_trichotomy new old with shrinks | same | grows
  · obtain ⟨after, freed, shrunk⟩ := held.shrink intact newAligned shrinks attr
    exact ⟨after, start, by rw [if_pos shrinks, freed, map_some], .inr ⟨valid, shrunk⟩⟩
  · subst same
    refine ⟨state, start, by rw [if_neg (lt_irrefl _), if_neg (lt_irrefl _)], .inr ⟨valid, ?_,
      fun _ _ => rfl, fun _ _ _ _ _ => by omega⟩⟩
    have exchanges := (Exchanges.refl intact).keep held.apart (disjoint_empty_right _)
    rwa [empty_union] at exchanges
  · rw [if_neg grows.le.not_gt, if_pos grows]
    exact held.grow intact filled newAligned newWord grows real (safe grows) attr

/-- This is what `page_realloc` does to the free pages. -/
lemma Intact.pageRealloc (intact : Intact spec state) {newBytes : Nat} (real : zone < spec.realCount)
    (safe : oldBytes = 0 ∨ ReallocSafe spec state start oldBytes newBytes) (attr : Bool) :
    ∃ after result, state.pageRealloc spec start oldBytes newBytes attr zone = some (after, result) ∧
      Exchanges spec state after (if result = spec.pageError then ∅ else pagesOf start
        (spec.ceil oldBytes))
        (takenPages spec result (spec.ceil newBytes)) := by
  have outcome : ∃ after result, state.pageRealloc spec start oldBytes newBytes attr zone =
    some (after, result) ∧
      ReallocOutcome spec state after start (spec.ceil oldBytes) result (spec.ceil newBytes) attr := by
    by_cases empty : oldBytes = 0
    · rw [PageState.pageRealloc, empty, spec.ceil_zero]
      exact intact.reallocEmpty real start newBytes attr
    · obtain ⟨oldRounds, newRounds, held, below⟩ := safe.resolve_left empty
      exact held.realloc intact empty oldRounds newRounds real (fun grows => .inr (below grows)) attr
  obtain ⟨after, result, found, ⟨error, rfl⟩ | ⟨valid, moved⟩⟩ := outcome
  · refine ⟨after, result, found, ?_⟩
    rw [if_pos error, takenPages, if_pos error]
    exact Exchanges.refl intact
  · refine ⟨after, result, found, ?_⟩
    rw [if_neg valid, takenPages, if_neg valid]
    exact moved.exchanges

end Realloc

end PageState

end KosKernel.Memory
