import KosKernel.Memory.PageSearch
import KosKernel.Memory.PageStats

namespace KosKernel.Memory
open LinkList FreeRanges Finset Option MZoneSpec PageState

section Rounding
variable {spec : MZoneSpec} {bytes size : Nat}

lemma MZoneSpec.ceil_dvd (spec : MZoneSpec) (bytes : Nat) : pageSize ∣ spec.ceil bytes :=
  Nat.dvd_mul_left _ _

lemma floorAlign_dvd (bytes : Nat) : pageSize ∣ floorAlign bytes := Nat.dvd_mul_left _ _

lemma MZoneSpec.ceil_bounds (fits : bytes + (pageSize - 1) < 2 ^ spec.bits) :
    bytes ≤ spec.ceil bytes ∧ spec.ceil bytes ≤ bytes + (pageSize - 1) := by
  unfold ceil ceilAlign
  rw [Nat.mod_eq_of_lt fits]
  unfold pageSize
  omega

/-- A rounded size does not pass an aligned bound. -/
lemma MZoneSpec.ceil_le (small : bytes ≤ size) (aligned : pageSize ∣ size)
    (fits : size + (pageSize - 1) < 2 ^ spec.bits) :
    spec.ceil bytes ≤ size := by
  have bounds : bytes ≤ spec.ceil bytes ∧ spec.ceil bytes ≤ bytes + (pageSize - 1) :=
    ceil_bounds (by omega)
  obtain ⟨pages, rounded⟩ := spec.ceil_dvd bytes
  unfold pageSize at *
  omega

lemma MZoneSpec.ceil_eq (aligned : pageSize ∣ bytes)
    (fits : bytes + (pageSize - 1) < 2 ^ spec.bits) : spec.ceil bytes = bytes :=
  le_antisymm (ceil_le le_rfl aligned fits) (ceil_bounds fits).1

lemma MZoneSpec.ceil_zero (spec : MZoneSpec) : spec.ceil 0 = 0 := by
  refine ceil_eq (Nat.dvd_zero _) ?_
  have := spec.pageSize_lt_word
  omega

lemma Fits.roundable {zone : Nat} {range : PageRange} (fits : Fits spec zone range)
    (real : zone < spec.realCount) :
    range.size + (pageSize - 1) < 2 ^ spec.bits := by
  have upper := fits.upper
  have bound := msMax_bound real
  unfold Range.stop at upper
  unfold pageSize at *
  omega

end Rounding

namespace PageState
variable {spec : MZoneSpec} {state : PageState} {attr : Bool}

/-- The zones are searched until one has a sufficient range, and its smallest one is taken. -/
lemma Intact.search_least {Result : Type} (intact : Intact spec state) {zone : Nat}
    (real : zone < spec.realCount)
    (bytes : Nat) (attr : Bool) (take : Nat → Nat → Nat → Result) {found : Option (Option Result)}
    (searched : found = tryZones (fun zone =>
      (state.searchZone spec bytes attr spec.fuel (state.zone zone).zRoot (noCandidate spec)).map
        fun (bestPage, bestSize) => if bestPage ≠ spec.pageError then some
          (take zone bestPage bestSize) else none) zone) :
    (found = some none ∧ ∀ other ≤ zone, ∀ range ∈ state.freeList spec other, range.size < bytes) ∨
      ∃ other front range back, other ≤ zone ∧ state.freeList spec other = front ++ range :: back ∧
        bytes ≤ range.size ∧
        found = some (some (take other range.start range.size)) ∧
        (∀ rival ∈ state.freeList spec other, bytes ≤ rival.size → range.size ≤ rival.size) ∧
        ∀ above, other < above → above ≤ zone → ∀ rival ∈ state.freeList spec above,
          rival.size < bytes := by
  -- A zone without a sufficient range gives nothing, and the others give their smallest one.
  have attempts : ∀ other ≤ zone, ∃ outcome,
      (state.searchZone spec bytes attr spec.fuel (state.zone other).zRoot (noCandidate spec)).map
        (fun (bestPage, bestSize) => if bestPage ≠ spec.pageError then some
          (take other bestPage bestSize) else none) = some outcome ∧
      ((outcome = none ∧ ∀ range ∈ state.freeList spec other, range.size < bytes) ∨
        ∃ result, outcome = some result ∧ ∃ range ∈ state.freeList spec other,
          result = take other range.start range.size ∧
          bytes ≤ range.size ∧ ∀ rival ∈ state.freeList spec other, bytes ≤ rival.size →
            range.size ≤ rival.size) := by
    intro other small
    have otherReal : other < spec.realCount := by omega
    obtain ⟨listed, arranged⟩ := intact other otherReal
    rw [listed.searchZone arranged otherReal]
    refine ⟨_, rfl, ?_⟩
    rcases foldl_pick_cases (state.freeList spec other) (noCandidate spec) with ⟨same,
      least⟩ | ⟨range, mem, chosen, fits, _, least⟩
    · rw [same]
      refine .inl ⟨if_neg (by simp), fun range mem => Nat.lt_of_not_le fun fits => ?_⟩
      have bound := least range mem fits
      have roundable := (arranged.fits range mem).roundable otherReal
      have page : pageSize = 4096 := rfl
      unfold noCandidate pageError at bound
      omega
    · rw [chosen]
      have valid : range.start ≠ spec.pageError :=
        aligned_ne_pageError (arranged.fits range mem).startAligned
      exact .inr ⟨_, if_pos valid, range, mem, rfl, fits, least⟩
  rw [searched]
  rcases tryZones_cases attempts with failed | ⟨other, small, _, reached,
    ⟨range, mem, rfl, fits, least⟩, above⟩
  · exact .inl failed
  · obtain ⟨front, back, split⟩ := List.append_of_mem mem
    exact .inr ⟨other, front, range, back, small, split, fits, reached, least, above⟩

/-- The search of `page_malloc` and what it takes. -/
lemma Intact.pageMalloc_cases (intact : Intact spec state) {zone : Nat}
    (real : zone < spec.realCount) (bytes : Nat) (attr : Bool) :
    state.pageMalloc spec bytes attr zone = some (state, spec.pageError) ∨
      ∃ other front range back after, other ≤ zone ∧ state.freeList spec other = front ++ range :: back ∧
        bytes ≤ range.size ∧ state.pageMalloc spec bytes attr zone =
          some (after, range.start + (range.size - spec.ceil bytes)) ∧
        after = (state.takeTop spec other range.start range.size (spec.ceil bytes) attr).1 ∧
        Taken spec state after other front range back (range.start + (range.size - spec.ceil bytes))
          (spec.ceil bytes) attr := by
  unfold pageMalloc
  rcases intact.search_least real bytes attr (fun zone bestPage bestSize =>
    state.takeTop spec zone bestPage bestSize (spec.ceil bytes) attr) rfl with ⟨failed, _⟩ | hit
  · exact .inl (by rw [failed]; rfl)
  obtain ⟨other, front, range, back, small, known, fits, found, _⟩ := hit
  have otherReal : other < spec.realCount := by omega
  obtain ⟨listed, arranged⟩ := intact other otherReal
  rw [known] at listed arranged
  have whole := arranged.fits range (by simp)
  have enough : spec.ceil bytes ≤ range.size :=
    ceil_le fits whole.sizeAligned (whole.roundable otherReal)
  obtain ⟨after, stored, taken⟩ := listed.takeTop arranged otherReal enough (spec.ceil_dvd bytes) attr
  refine .inr ⟨other, front, range, back, after, small, known, fits, ?_, by rw [stored], taken⟩
  rw [found, stored]
  rfl

/-- An allocation fails without a change, or it hands out the pages of its result. -/
inductive AllocatesAt (spec : MZoneSpec) (before after : PageState) (attr : Bool)
    (start bytes : Nat) : Prop where
  | failed (error : start = spec.pageError) (same : after = before)
  | done (startAligned : pageSize ∣ start) (sizeAligned : pageSize ∣ bytes)
    (bounded : start + bytes ≤ spec.limit)
      (allocates : Allocates spec before after attr (pagesOf start bytes))

lemma Taken.allocatesAt {after : PageState} {zone start bytes : Nat} {front back : List PageRange}
    {range : PageRange}
    (taken : Taken spec state after zone front range back start bytes attr) (intact : Intact spec state)
    (real : zone < spec.realCount) (known : state.freeList spec zone = front ++ range :: back) :
    AllocatesAt spec state after attr start bytes := by
  have whole := (intact zone real).2.fits range (by simp [known])
  have upper := whole.upper
  have top := msMax_lt_limit real
  have inside := taken.part.upper
  exact .done taken.part.startAligned taken.part.sizeAligned (by omega)
    (taken.allocates intact real known)

section
variable (intact : Intact spec state)
include intact

/-- This is what `page_malloc` does to the free pages. -/
lemma Intact.pageMalloc {zone : Nat} (real : zone < spec.realCount) (bytes : Nat) (attr : Bool) :
    ∃ after start, state.pageMalloc spec bytes attr zone = some (after, start) ∧
      AllocatesAt spec state after attr start (spec.ceil bytes) := by
  rcases intact.pageMalloc_cases real bytes attr with failed | hit
  · exact ⟨state, spec.pageError, failed, .failed rfl rfl⟩
  · obtain ⟨other, front, range, back, after, small, known, _, found, _, taken⟩ := hit
    exact ⟨after, _, found, taken.allocatesAt intact (by omega) known⟩

/-- The search of `page_malloc_part` and what it takes. -/
lemma Intact.pageMallocPart_cases {zone : Nat} (real : zone < spec.realCount)
    (minSize maxSize : Nat) (attr : Bool) :
    (state.pageMallocPart spec minSize maxSize attr zone = some (state, spec.pageError, 0) ∧
        ∀ other ≤ zone, ∀ range ∈ state.freeList spec other, range.size < minSize) ∨
      ∃ other front range back after, other ≤ zone ∧ state.freeList spec other = front ++ range :: back ∧
        minSize ≤ range.size ∧ (∀ rival ∈ state.freeList spec other, minSize ≤ rival.size →
          range.size ≤ rival.size) ∧
        (∀ above, other < above → above ≤ zone → ∀ rival ∈ state.freeList spec above,
          rival.size < minSize) ∧
        state.pageMallocPart spec minSize maxSize attr zone =
          some (after, range.start + (range.size - min range.size (floorAlign maxSize)),
            min range.size (floorAlign maxSize)) ∧
        after = (state.takeTop spec other range.start range.size
          (min range.size (floorAlign maxSize)) attr).1 ∧
        Taken spec state after other front range back
          (range.start + (range.size - min range.size (floorAlign maxSize)))
          (min range.size (floorAlign maxSize)) attr := by
  unfold pageMallocPart
  rcases intact.search_least real minSize attr (fun zone bestPage bestSize =>
    let taken := state.takeTop spec zone bestPage bestSize (min bestSize (floorAlign maxSize)) attr
    (taken.1, taken.2, min bestSize (floorAlign maxSize))) rfl with ⟨failed, none⟩ | hit
  · exact .inl ⟨by rw [failed]; rfl, none⟩
  obtain ⟨other, front, range, back, small, known, fits, found, least, above⟩ := hit
  have otherReal : other < spec.realCount := by omega
  obtain ⟨listed, arranged⟩ := intact other otherReal
  rw [known] at listed arranged
  have whole := arranged.fits range (by simp)
  have aligned : pageSize ∣ min range.size (floorAlign maxSize) := by
    rcases Nat.le_total range.size (floorAlign maxSize) with less | more
    · rw [Nat.min_eq_left less]
      exact whole.sizeAligned
    · rw [Nat.min_eq_right more]
      exact floorAlign_dvd maxSize
  obtain ⟨after, stored, taken⟩ := listed.takeTop arranged otherReal (Nat.min_le_left _ _) aligned attr
  refine .inr ⟨other, front, range, back, after, small, known, fits, least, above, ?_,
    by rw [stored], taken⟩
  rw [found, stored]
  rfl

/-- What `page_malloc_part` does to the free pages. A part is empty only if nothing is wanted. -/
lemma Intact.pageMallocPart {zone : Nat} (real : zone < spec.realCount)
    (minSize maxSize : Nat) (attr : Bool) :
    ∃ after start size, state.pageMallocPart spec minSize maxSize attr zone = some (after, start, size) ∧
      AllocatesAt spec state after attr start size ∧ size ≤ floorAlign maxSize ∧
      (start ≠ spec.pageError → 0 < floorAlign maxSize → 0 < size) := by
  rcases intact.pageMallocPart_cases real minSize maxSize attr with ⟨failed, _⟩ | hit
  · exact ⟨state, spec.pageError, 0, failed, .failed rfl rfl, Nat.zero_le _, absurd rfl⟩
  · obtain ⟨other, front, range, back, after, small, known, _, _, _, found, _, taken⟩ := hit
    have filled := ((intact other (by omega)).2.fits range (by simp [known])).filled
    exact ⟨after, _, _, found, taken.allocatesAt intact (by omega) known, Nat.min_le_right _ _,
      fun _ wanted => Nat.lt_min.mpr ⟨filled, wanted⟩⟩

/-- The scan of `page_malloc_in` and what it takes. -/
lemma Intact.pageMallocIn_cases {low high bytes : Nat} (real : spec.mzoneOf high < spec.realCount)
    (aligned : pageSize ∣ high) (positive : 0 < spec.ceil bytes) (attr : Bool) :
    (state.pageMallocIn spec low high bytes attr = some (state, spec.pageError) ∧
        ∀ other, spec.mzoneOf low ≤ other → other ≤ spec.mzoneOf high →
        ∀ range ∈ state.freeList spec other,
          ¬ Candidate spec low high (spec.ceil bytes) range) ∨
      ∃ other front range back after, other ≤ spec.mzoneOf high ∧
      state.freeList spec other = front ++ range :: back ∧
        Candidate spec low high (spec.ceil bytes) range ∧
        state.pageMallocIn spec low high bytes attr =
          some (after, min high (range.start + (range.size - spec.ceil bytes))) ∧
        after = (state.takeIn spec other range.start high (spec.ceil bytes) attr).1 ∧
        Taken spec state after other front range back
          (min high (range.start + (range.size - spec.ceil bytes)))
          (spec.ceil bytes) attr := by
  have attempts : ∀ other ≤ spec.mzoneOf high, ∃ outcome, (if other < spec.mzoneOf low then some none
        else if spec.realCount ≤ other then none
        else (state.scanZone spec low high (spec.ceil bytes) spec.fuel (state.zone other).zRoot
          (noCandidate spec)).map
          fun (bestPage, _) =>
            if bestPage ≠ spec.pageError then some
              (state.takeIn spec other bestPage high (spec.ceil bytes) attr) else none) =
        some outcome ∧
      ((outcome = none ∧ (spec.mzoneOf low ≤ other →
          ∀ range ∈ state.freeList spec other, ¬ Candidate spec low high (spec.ceil bytes) range)) ∨
        ∃ result, outcome = some result ∧ ∃ range ∈ state.freeList spec other,
          result = state.takeIn spec other range.start high (spec.ceil bytes) attr ∧
          Candidate spec low high (spec.ceil bytes) range) := by
    intro other small
    split
    · exact ⟨none, rfl, .inl ⟨rfl, fun lower => by omega⟩⟩
    have otherReal : other < spec.realCount := by omega
    obtain ⟨listed, arranged⟩ := intact other otherReal
    obtain ⟨⟨bestPage, bestSize⟩, scanned, cases⟩ :=
      scanZone_chain listed.chain listed.headers arranged.apart
      (fun range mem => (arranged.fits range mem).bounded otherReal) (arranged.short otherReal)
        (noCandidate spec)
    rw [if_neg (Nat.not_le.mpr otherReal)]
    refine ⟨_, congrArg (Option.map _) scanned, ?_⟩
    rcases cases with ⟨same, least⟩ | ⟨range, mem, same, candidate⟩
    · refine .inl ⟨if_neg (not_not.mpr (Prod.mk.inj same).1), fun _ range mem candidate => ?_⟩
      have bound := least range mem candidate
      have roundable := (arranged.fits range mem).roundable otherReal
      have page : pageSize = 4096 := rfl
      unfold noCandidate pageError at bound
      omega
    · obtain rfl : bestPage = range.start := same
      have valid : range.start ≠ spec.pageError :=
        aligned_ne_pageError (arranged.fits range mem).startAligned
      exact .inr ⟨_, if_pos valid, range, mem, rfl, candidate⟩
  unfold pageMallocIn
  rcases tryZones_cases attempts with ⟨failed, none⟩ | ⟨other, small, _, reached,
    ⟨range, mem, rfl, candidate⟩, _⟩
  · exact .inl ⟨by simp only [failed]; rfl, fun other lower upper => none other upper lower⟩
  have otherReal : other < spec.realCount := by omega
  obtain ⟨listed, arranged⟩ := intact other otherReal
  obtain ⟨front, back, known⟩ := List.append_of_mem mem
  rw [known] at listed arranged
  obtain ⟨after, stored, taken⟩ := listed.takeIn arranged otherReal positive candidate.2.2.1
    (spec.ceil_dvd bytes)
    candidate.1 aligned attr
  refine .inr ⟨other, front, range, back, after, small, known, candidate, ?_, by rw [stored], taken⟩
  simp only [reached, stored]
  rfl

/-- This is what `page_malloc_in` does to the free pages. -/
lemma Intact.pageMallocIn {low high bytes : Nat} (real : spec.mzoneOf high < spec.realCount)
    (aligned : pageSize ∣ high) (positive : 0 < spec.ceil bytes) (attr : Bool) :
    ∃ after start, state.pageMallocIn spec low high bytes attr = some (after, start) ∧
      AllocatesAt spec state after attr start (spec.ceil bytes) := by
  rcases intact.pageMallocIn_cases real aligned positive attr with ⟨failed, _⟩ | hit
  · exact ⟨state, spec.pageError, failed, .failed rfl rfl⟩
  · obtain ⟨other, front, range, back, after, small, known, _, found, _, taken⟩ := hit
    exact ⟨after, _, found, taken.allocatesAt intact (by omega) known⟩

variable {address bytes : Nat} (real : spec.mzoneOf address < spec.realCount)
  (aligned : pageSize ∣ address)
  (positive : 0 < spec.ceil bytes)
include real aligned positive

/-- With equal bounds `page_malloc_in` returns exactly the wanted address. -/
lemma Intact.pageMallocAt (fits : address + spec.ceil bytes < 2 ^ spec.bits) (attr : Bool) :
    ∃ after start, state.pageMallocIn spec address address bytes attr = some (after, start) ∧
      AllocatesAt spec state after attr start (spec.ceil bytes) ∧
      (start = spec.pageError ∨ start = address) := by
  rcases intact.pageMallocIn_cases real aligned positive attr with ⟨failed, _⟩ | hit
  · exact ⟨state, spec.pageError, failed, .failed rfl rfl, .inl rfl⟩
  obtain ⟨other, front, range, back, after, small, known, ⟨first, last, size, reach⟩, found,
    _, taken⟩ := hit
  refine ⟨after, _, found, taken.allocatesAt intact (by omega) known, .inr ?_⟩
  have bounded := ((intact other (by omega)).2.fits range (by simp [known])).bounded (by omega)
  have limit : spec.add address (spec.ceil bytes) = address + spec.ceil bytes := add_of_lt fits
  unfold Range.stop at *
  split at reach
  · omega
  · rw [sub_of_le (by omega) bounded] at reach
    omega

/-- A wrapped range is not found when no range of its size holds the address. -/
lemma Intact.pageMallocAt_wrapped (none : ∀ zone, zone < spec.realCount →
    ∀ range ∈ state.freeList spec zone,
      range.Has address → range.size < spec.ceil bytes) (attr : Bool) :
    state.pageMallocIn spec address address bytes attr = some (state, spec.pageError) := by
  rcases intact.pageMallocIn_cases real aligned positive attr with ⟨failed, _⟩ | hit
  · exact failed
  · obtain ⟨other, front, range, back, after, small, known, ⟨first, last, size, _⟩, _⟩ := hit
    have := none other (by omega) range (by simp [known]) ⟨first, last⟩
    omega

end

section Counted
variable {after : PageState} {zone : Nat} {fields : MZone} {given : Finset Nat}

section
variable (root : fields.zRoot = (state.zone zone).zRoot)
include root

lemma links_setZone : (state.setZone zone fields).links spec = state.links spec := by
  unfold links
  congr 1
  funext link
  cases link with
  | head other =>
    by_cases same : other = zone
    · subst same
      simp [load, setZone, root]
    · simp [load, setZone, Function.update_of_ne same]
  | next page => rfl

lemma freeList_setZone (other : Nat) :
    (state.setZone zone fields).freeList spec other = state.freeList spec other := by
  rw [freeList, links_setZone root]
  rfl

lemma freePages_setZone : (state.setZone zone fields).freePages spec = state.freePages spec := by
  simp [freePages, freeList_setZone root]

end

/-- New statistics do not touch the lists. -/
lemma Frees.counted (frees : Frees spec state after attr given)
    (root : fields.zRoot = (after.zone zone).zRoot) :
    Frees spec state (after.setZone zone fields) attr given where
  intact other real := by
    obtain ⟨listed, arranged⟩ := frees.intact other real
    rw [freeList_setZone root]
    refine ⟨⟨?_, listed.headers⟩, arranged⟩
    rw [links_setZone root]
    exact listed.chain
  free := by rw [freePages_setZone root, frees.free]
  frame page aligned outside := by
    rw [freePages_setZone root] at outside
    exact frees.frame page aligned outside
  zeroed zeroed promised other real range mem := by
    rw [freeList_setZone root] at mem
    exact frees.zeroed zeroed promised other real range mem

end Counted

section Free
variable {zone start bytes : Nat}

/-- A range whose pages are not free overlaps no range of the list. -/
lemma Intact.outside (intact : Intact spec state) (real : zone < spec.realCount)
    (startAligned : pageSize ∣ start)
    (sizeAligned : pageSize ∣ bytes) (filled : 0 < bytes)
    (apart : Disjoint (pagesOf start bytes) (state.freePages spec))
    (range : PageRange) (mem : range ∈ state.freeList spec zone) :
    range.stop ≤ start ∨ start + bytes ≤ range.start := by
  by_contra overlap
  have fits := (intact zone real).2.fits range mem
  have positive := fits.filled
  -- The greater of the two starts lies in both ranges.
  have aligned : pageSize ∣ max range.start start := by
    rcases Nat.le_total range.start start with less | more
    · rwa [Nat.max_eq_right less]
    · rw [Nat.max_eq_left more]
      exact fits.startAligned
  unfold Range.stop at overlap
  have shared : max range.start start ∈ pagesOf start bytes :=
    (mem_pagesOf startAligned sizeAligned).mpr ⟨aligned, by omega, by omega⟩
  refine disjoint_left.mp apart shared
    (intact.mem_freePages.mpr ⟨aligned, zone, real, range, mem, ?_, ?_⟩)
  · omega
  · unfold Range.stop
    omega

/-- A range of one zone whose pages are not free is handed back. -/
lemma Intact.freeRange (intact : Intact spec state) (real : zone < spec.realCount)
    (fits : Fits spec zone ⟨start, bytes, attr⟩)
    (apart : Disjoint (pagesOf start bytes) (state.freePages spec)) :
    ∃ after, state.freeRange spec zone start bytes attr = some after ∧
    Frees spec state after attr (pagesOf start bytes) := by
  obtain ⟨listed, arranged⟩ := intact zone real
  obtain ⟨after, front, back, known, below, above, found, joined⟩ := listed.freeRange arranged real fits
    (intact.outside real fits.startAligned fits.sizeAligned fits.filled apart)
  rw [known] at joined
  exact ⟨after, found, joined.frees intact real known fits below above⟩

/-- The part of a free that lies in one zone. -/
structure Piece (spec : MZoneSpec) (before after : PageState) (attr : Bool) (zone : Nat)
    (given : Finset Nat) : Prop where
  real : zone < spec.realCount
  filled : given.Nonempty
  zoned : ∀ page ∈ given, pageSize ∣ page ∧ spec.mzoneOf page = zone
  apart : Disjoint given (before.freePages spec)
  frees : Frees spec before after attr given
  counts : Counts before after zone (countFree spec (pageSize * given.card))

/-- A free goes through its zones one after another. -/
inductive Pieces (spec : MZoneSpec) (attr : Bool) (before : PageState) :
    Finset Nat → PageState → Prop where
  | none : Pieces spec attr before ∅ before
  | more {given piece : Finset Nat} {middle after : PageState} {zone : Nat}
    (rest : Pieces spec attr before given middle)
      (fresh : ∀ page ∈ given, spec.mzoneOf page ≠ zone)
        (next : Piece spec middle after attr zone piece) :
      Pieces spec attr before (given ∪ piece) after

lemma Frees.refl (intact : Intact spec state) : Frees spec state state attr ∅ where
  intact := intact
  free := (union_empty _).symm
  frame _ _ _ := rfl
  zeroed zeroed _ := zeroed

lemma Frees.trans {middle after : PageState} {lower upper : Finset Nat}
    (first : Frees spec state middle attr lower)
    (second : Frees spec middle after attr upper) (aligned : ∀ page ∈ upper, pageSize ∣ page)
    (apart : Disjoint upper (middle.freePages spec)) : Frees spec state after attr (lower ∪ upper) where
  intact := second.intact
  free := by rw [second.free, first.free, union_assoc]
  frame page pageAligned outside := by
    rw [second.frame page pageAligned outside]
    refine first.frame page pageAligned fun inside => outside ?_
    rw [second.free]
    exact mem_union_left _ inside
  zeroed zeroed promised := by
    refine second.zeroed (first.zeroed zeroed fun asked page mem => ?_) fun asked page mem => ?_
    · exact promised asked page (mem_union_left _ mem)
    · rw [first.frame page (aligned page mem) (disjoint_left.mp apart mem)]
      exact promised asked page (mem_union_right _ mem)

lemma Pieces.frees {given : Finset Nat} {after : PageState} (intact : Intact spec state)
    (pieces : Pieces spec attr state given after) : Frees spec state after attr given := by
  induction pieces with
  | none => exact Frees.refl intact
  | more rest fresh next ih =>
    exact ih.trans next.frees (fun page mem => (next.zoned page mem).1) next.apart

lemma card_pagesOf (aligned : pageSize ∣ bytes) : pageSize * (pagesOf start bytes).card = bytes := by
  rw [pagesOf, card_image_of_injective, card_range, Nat.mul_div_cancel' aligned]
  intro first second same
  exact Nat.eq_of_mul_eq_mul_left (show 0 < pageSize by decide) (Nat.add_left_cancel same)

lemma pagesOf_append {lower upper : Nat} (startAligned : pageSize ∣ start)
    (lowerAligned : pageSize ∣ lower) (upperAligned : pageSize ∣ upper) :
    pagesOf start (lower + upper) = pagesOf (start + lower) upper ∪ pagesOf start lower := by
  ext page
  rw [mem_union, mem_pagesOf startAligned (Nat.dvd_add lowerAligned upperAligned),
    mem_pagesOf (Nat.dvd_add startAligned lowerAligned) upperAligned,
      mem_pagesOf startAligned lowerAligned]
  omega

section
variable (intact : Intact spec state)
include intact

/-- A range of one zone is one piece of a free. -/
lemma Intact.piece (real : zone < spec.realCount) (fits : Fits spec zone ⟨start, bytes, attr⟩)
    (apart : Disjoint (pagesOf start bytes) (state.freePages spec)) :
    ∃ freed, state.freeRange spec zone start bytes attr = some freed ∧
      Piece spec state (freed.setZone zone (countFree spec bytes (freed.zone zone))) attr zone
        (pagesOf start bytes) := by
  obtain ⟨freed, found, frees⟩ := intact.freeRange real fits apart
  refine ⟨freed, found, real, ⟨start, ?_⟩, fun page mem => ?_, apart, frees.counted rfl, ?_⟩
  · exact (mem_pagesOf fits.startAligned fits.sizeAligned).mpr
      ⟨fits.startAligned, le_rfl, Nat.lt_add_of_pos_right fits.filled⟩
  · obtain ⟨aligned, has⟩ := (mem_pagesOf fits.startAligned fits.sizeAligned).mp mem
    exact ⟨aligned, fits.mzoneOf_eq real has⟩
  · rw [card_pagesOf fits.sizeAligned]
    exact counts_setZone (stats_freeRange found) fun _ _ => stats_countFree

/-- This is what `page_ffree` does to pages that are not free. The upper zones come first. -/
lemma Intact.pageFfree {depth : Nat} (startAligned : pageSize ∣ start) (sizeAligned : pageSize ∣ bytes)
    (filled : 0 < bytes) (bounded : start + bytes ≤ spec.limit)
    (apart : Disjoint (pagesOf start bytes) (state.freePages spec))
    (deep : spec.realCount ≤ depth + spec.mzoneOf start) :
    ∃ after, pageFfree spec depth state start bytes attr = some after ∧
    Pieces spec attr state (pagesOf start bytes) after := by
  have word := spec.limit_bound
  induction depth generalizing start bytes with
  | zero =>
    have real := mzoneOf_lt (show start ≤ spec.limit by omega)
    omega
  | succ depth ih =>
    have real := mzoneOf_lt (show start ≤ spec.limit by omega)
    have rounded : spec.ceil bytes = bytes := ceil_eq sizeAligned (by omega)
    have stop : spec.sub (spec.add start bytes) 1 = start + bytes - 1 := by
      rw [add_of_lt (by omega), sub_of_le (by omega) (by omega)]
    have lower := spec.mzoneOf_lower start
    have upper := mzoneOf_upper (show start ≤ spec.msMax (spec.realCount - 1) by
      unfold limit at *; omega)
    have zoneEnd := (spec.aligned _ real).2
    rw [pageFfree, if_neg (by omega)]
    simp only [rounded, stop, if_neg (Nat.not_le.mpr real)]
    by_cases crosses : spec.msMax (spec.mzoneOf start) < start + bytes - 1
    · rw [if_pos crosses]
      have next : spec.mzoneOf start + 1 < spec.realCount := by
        by_contra last
        have same : spec.mzoneOf start = spec.realCount - 1 := by omega
        rw [same] at crosses
        unfold limit at *
        omega
      have nextStart := spec.next _ next
      have nextFilled := spec.filled _ next
      obtain ⟨low, low_eq⟩ : ∃ low, start + low = spec.msMax (spec.mzoneOf start) + 1 :=
        ⟨spec.msMax (spec.mzoneOf start) + 1 - start, by omega⟩
      obtain ⟨high, rfl⟩ : ∃ high, bytes = low + high := ⟨bytes - low, by omega⟩
      have offset : spec.sub (spec.add (spec.msMax (spec.mzoneOf start)) 1) start = low := by
        rw [add_of_lt (by omega), sub_of_le (by omega)
          (by omega)]
        omega
      have lowAligned : pageSize ∣ low := (Nat.dvd_add_right startAligned).mp (low_eq ▸ zoneEnd)
      have highAligned : pageSize ∣ high := (Nat.dvd_add_right lowAligned).mp sizeAligned
      have parts := pagesOf_append startAligned lowAligned highAligned
      rw [parts, disjoint_union_left] at apart
      have nextZone : spec.mzoneOf (start + low) = spec.mzoneOf start + 1 :=
        MZoneSpec.mzoneOf_eq next (by omega) (by omega)
      obtain ⟨middle, found, pieces⟩ :=
        ih (Nat.dvd_add startAligned lowAligned) highAligned (by omega) (by omega)
        apart.1 (by omega)
      have frees := pieces.frees intact
      have between : Disjoint (pagesOf start low) (pagesOf (start + low) high) := by
        refine disjoint_left.mpr fun page inLow inHigh => ?_
        rw [mem_pagesOf startAligned lowAligned] at inLow
        rw [mem_pagesOf (Nat.dvd_add startAligned lowAligned) highAligned] at inHigh
        omega
      have lowApart : Disjoint (pagesOf start low) (middle.freePages spec) := by
        rw [frees.free]
        exact disjoint_union_right.mpr ⟨apart.2, between⟩
      have lowFilled : 0 < low := by omega
      have fits : Fits spec (spec.mzoneOf start) ⟨start, low, attr⟩ :=
        ⟨startAligned, lowAligned, lowFilled, lower, by
        show start + low ≤ _
        omega⟩
      obtain ⟨freed, freedFound, piece⟩ := frees.intact.piece real fits lowApart
      refine ⟨freed.setZone (spec.mzoneOf start)
        (countFree spec low (freed.zone (spec.mzoneOf start))), ?_, ?_⟩
      · have above : spec.add start low = start + low := add_of_lt (by omega)
        have rest : spec.sub (low + high) low = high := by
          rw [sub_of_le (by omega) (by omega), Nat.add_sub_cancel_left]
        rw [offset, above, rest, found, map_some]
        simp [freedFound]
      · rw [parts]
        refine .more pieces (fun page mem => ?_) piece
        rw [mem_pagesOf (Nat.dvd_add startAligned lowAligned) highAligned] at mem
        intro same
        have := mzoneOf_upper (show page ≤ spec.msMax (spec.realCount - 1) by unfold limit at *; omega)
        rw [same] at this
        omega
    · rw [if_neg crosses]
      have fits : Fits spec (spec.mzoneOf start) ⟨start, bytes, attr⟩ :=
        ⟨startAligned, sizeAligned, filled, lower, by
        show start + bytes ≤ _
        omega⟩
      obtain ⟨freed, freedFound, piece⟩ := intact.piece real fits apart
      refine ⟨_, by rw [bind_some, freedFound, map_some], ?_⟩
      have single := Pieces.more .none (by simp) piece
      rwa [empty_union] at single

/-- This is what `page_ffree` does with any size. -/
lemma Intact.ffree (startAligned : pageSize ∣ start) (roundable : bytes + (pageSize - 1) < 2 ^ spec.bits)
    (bounded : start + spec.ceil bytes ≤ spec.limit)
    (apart : Disjoint (pagesOf start (spec.ceil bytes)) (state.freePages spec)) (attr : Bool) :
    ∃ after, state.ffree spec start bytes attr = some after ∧
    Pieces spec attr state (pagesOf start (spec.ceil bytes)) after := by
  unfold PageState.ffree
  by_cases empty : bytes = 0
  · subst empty
    rw [spec.ceil_zero]
    exact ⟨state, rfl, .none⟩
  have rounds := ceil_bounds roundable
  have word := spec.limit_bound
  have again : spec.ceil (spec.ceil bytes) = spec.ceil bytes := ceil_eq (spec.ceil_dvd bytes) (by omega)
  obtain ⟨after, freed, pieces⟩ := intact.pageFfree startAligned (spec.ceil_dvd bytes)
    (show 0 < spec.ceil bytes by omega) bounded apart
      (show spec.realCount ≤ spec.realCount + 1 + _ by omega)
  refine ⟨after, ?_, pieces⟩
  rw [PageState.pageFfree, if_neg empty]
  rw [PageState.pageFfree, if_neg (show ¬ spec.ceil bytes = 0 by omega)] at freed
  simp only [again] at freed
  exact freed

/-- This is what `page_addmemory` does with memory of its zone. -/
lemma Intact.pageAddmemory (real : zone < spec.realCount) (startAligned : pageSize ∣ start)
    (sizeAligned : pageSize ∣ bytes) (lower : spec.msMin zone ≤ start)
    (upper : start + bytes ≤ spec.msMax zone + 1)
    (apart : Disjoint (pagesOf start bytes) (state.freePages spec)) :
    ∃ after, state.pageAddmemory spec zone start bytes = some after ∧
    Frees spec state after false (pagesOf start bytes) ∧
      Counts state after zone (if bytes = 0 then id else countAdded spec bytes) := by
  unfold PageState.pageAddmemory
  have top := msMax_lt_limit real
  have word := spec.limit_bound
  have host := spec.host
  unfold limit at top word
  have sum : spec.add start bytes = start + bytes := add_of_lt (by omega)
  rw [if_neg (show ¬ spec.hostBase < spec.add start bytes by omega)]
  by_cases empty : bytes = 0
  · subst empty
    refine ⟨state, ?_, Frees.refl intact, fun other => by simp⟩
    split <;> simp
  · rw [if_neg (by omega), if_neg empty]
    have fits : Fits spec zone ⟨start, bytes, false⟩ :=
      ⟨startAligned, sizeAligned, Nat.pos_of_ne_zero empty, lower, upper⟩
    obtain ⟨added, found, frees⟩ := intact.freeRange real fits apart
    refine ⟨added.setZone zone (countAdded spec bytes (added.zone zone)),
      by rw [found, map_some], frees.counted rfl, ?_⟩
    rw [if_neg empty]
    exact counts_setZone (stats_freeRange found) fun _ _ => stats_countAdded

end

end Free

end PageState

end KosKernel.Memory
