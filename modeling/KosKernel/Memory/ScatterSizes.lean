import KosKernel.Memory.ScatterAlloc

namespace KosKernel.Memory
open LinkList FreeRanges List Option MZoneSpec PageState Nat

/-- The sizes of the parts when the last one is cut to what is left. -/
def partSizes : List Nat → Nat → Option (List Nat)
  | [], _ => none
  | size :: rest, bytes => if bytes ≤ size then some [bytes] else (partSizes rest
      (bytes - size)).map (size :: ·)

/-- Every part that is reached before the size is complete has the least size. -/
def PartsReach (least bytes : Nat) (sizes : List Nat) : Prop :=
  bytes ≤ sizes.sum → ∀ count < sizes.length, count = 0 ∨ (sizes.take count).sum < bytes →
    least ≤ min (sizes.getD count 0) (bytes - (sizes.take count).sum)

instance decidablePartsReach (least bytes : Nat) (sizes : List Nat) :
    Decidable (PartsReach least bytes sizes) :=
  inferInstanceAs (Decidable (_ → _))

variable {bytes zone : Nat}

/-- There are parts exactly if the ranges are large enough. -/
lemma partSizes_isSome {sizes : List Nat} (enough : bytes ≤ sizes.sum) (some : sizes ≠ []) :
    ∃ parts, partSizes sizes bytes = .some parts := by
  induction sizes generalizing bytes with
  | nil => exact absurd rfl some
  | cons size rest ih =>
    rw [partSizes]
    by_cases last : bytes ≤ size
    · exact ⟨[bytes], if_pos last⟩
    · rw [sum_cons] at enough
      obtain ⟨parts, found⟩ := ih (show bytes - size ≤ rest.sum by omega)
        (by rintro rfl; rw [sum_nil] at enough; omega)
      exact ⟨size :: parts, by rw [if_neg last, found]; rfl⟩

lemma partSizes_sum {sizes parts : List Nat} (found : partSizes sizes bytes = some parts) :
    bytes ≤ sizes.sum := by
  induction sizes generalizing bytes parts with
  | nil => exact absurd found.symm (some_ne_none parts)
  | cons size rest ih =>
    rw [partSizes] at found
    rw [sum_cons]
    by_cases last : bytes ≤ size
    · omega
    · rw [if_neg last] at found
      obtain ⟨later, behind, _⟩ := map_eq_some_iff.mp found
      have := ih behind
      omega

lemma partsReach_iff (least bytes : Nat) (sizes : List Nat) :
    (∀ parts, partSizes sizes bytes = some parts → ∀ part ∈ parts, least ≤ part) ↔
      PartsReach least bytes sizes := by
  induction sizes generalizing bytes with
  | nil =>
    constructor
    · exact fun _ _ count less => absurd less (not_lt_zero count)
    · exact fun _ parts never => absurd never.symm (some_ne_none parts)
  | cons size rest ih =>
    rw [partSizes]
    by_cases last : bytes ≤ size
    · rw [if_pos last]
      constructor
      · intro reached _ count _ inside
        cases count with
        | zero =>
          rw [take_zero, sum_nil, getD_cons_zero, Nat.sub_zero, Nat.min_eq_right last]
          exact reached [bytes] rfl bytes mem_cons_self
        | succ count =>
          rw [take_succ_cons, sum_cons] at inside
          omega
      · intro reached parts same part mem
        have first := reached (by rw [sum_cons]; omega) 0 (succ_pos _) (.inl rfl)
        rw [take_zero, sum_nil, getD_cons_zero, Nat.sub_zero, Nat.min_eq_right last] at first
        rw [← some.inj same] at mem
        exact mem_singleton.mp mem ▸ first
    · rw [if_neg last]
      constructor
      · intro reached enough count less inside
        rw [sum_cons] at enough
        obtain ⟨later, behind⟩ := partSizes_isSome (show bytes - size ≤ rest.sum by omega)
          (by rintro rfl; rw [sum_nil] at enough; omega)
        have all := forall_mem_cons.mp (reached (size :: later) (by rw [behind]; rfl))
        cases count with
        | zero =>
          rw [take_zero, sum_nil, getD_cons_zero, Nat.min_eq_left (by omega)]
          exact all.1
        | succ count =>
          rw [take_succ_cons, sum_cons] at inside
          have rest := (ih (bytes - size)).mp
            (fun parts found => some.inj (behind.symm.trans found) ▸ all.2)
            (by omega) count (lt_of_succ_lt_succ less) (.inr (by omega))
          rw [take_succ_cons, sum_cons, getD_cons_succ]
          omega
      · intro reached parts found
        obtain ⟨later, behind, rfl⟩ := map_eq_some_iff.mp found
        have total := partSizes_sum behind
        have enough : bytes ≤ (size :: rest).sum := by
          rw [sum_cons]
          omega
        refine forall_mem_cons.mpr ⟨?_,
          (ih (bytes - size)).mpr (fun _ count less inside => ?_) later behind⟩
        · have first := reached enough 0 (succ_pos _) (.inl rfl)
          rw [take_zero, getD_cons_zero] at first
          omega
        · have next := reached enough (count + 1) (succ_lt_succ less) (.inr (by
            rw [take_succ_cons, sum_cons]
            rcases inside with rfl | inside
            · rw [take_zero, sum_nil]
              omega
            · omega))
          rw [take_succ_cons, sum_cons, getD_cons_succ] at next
          omega

namespace PageState
variable {spec : MZoneSpec} {state after : PageState} {attr : Bool}

/-- The sizes of the sufficient ranges in ascending order. -/
def sortedFits (bytes : Nat) (ranges : List PageRange) : List Nat :=
  ((ranges.map Range.size).filter (bytes ≤ ·)).insertionSort (· ≤ ·)

/-- The sizes of the sufficient ranges of the first zones, from the last of these zones down. -/
def fitSizes (spec : MZoneSpec) (state : PageState) (bytes : Nat) : Nat → List Nat
  | 0 => []
  | zone + 1 => sortedFits bytes (state.freeList spec zone) ++ state.fitSizes spec bytes zone

lemma sortedFits_nil {ranges : List PageRange} (small : ∀ range ∈ ranges, range.size < bytes) :
    sortedFits bytes ranges = [] := by
  have none : (ranges.map Range.size).filter (bytes ≤ ·) = [] := by
    refine filter_eq_nil_iff.mpr fun size mem => ?_
    obtain ⟨range, listed, rfl⟩ := mem_map.mp mem
    have := small range listed
    simp only [decide_eq_true_eq]
    omega
  rw [sortedFits, none]
  rfl

/-- The smallest sufficient range comes first. -/
lemma sortedFits_least {front back : List PageRange} {range : PageRange} (fits : bytes ≤ range.size)
    (least : ∀ rival ∈ front ++ range :: back, bytes ≤ rival.size → range.size ≤ rival.size) :
    sortedFits bytes (front ++ range :: back) = range.size :: sortedFits bytes (front ++ back) := by
  unfold sortedFits
  rw [← insertionSort_cons_of_forall_rel]
  · refine List.Perm.eq_of_pairwise' (pairwise_insertionSort _ _) (pairwise_insertionSort _ _) ?_
    refine (perm_insertionSort _ _).trans (List.Perm.trans ?_ (perm_insertionSort _ _).symm)
    rw [map_append, map_append]
    refine (perm_middle.filter _).trans ?_
    rw [filter_cons_of_pos (by simpa only [decide_eq_true_eq] using fits)]
  · intro size mem
    obtain ⟨inside, enough⟩ := mem_filter.mp mem
    obtain ⟨rival, listed, rfl⟩ := mem_map.mp inside
    refine least rival ?_ (of_decide_eq_true enough)
    exact mem_append.mpr ((mem_append.mp listed).imp_right (mem_cons_of_mem range))

/-- Zones without a sufficient range add nothing. -/
lemma fitSizes_skip {count : Nat} (less : zone ≤ count)
    (small : ∀ above, zone ≤ above → above < count → ∀ range ∈ state.freeList spec above,
      range.size < bytes) :
    state.fitSizes spec bytes count = state.fitSizes spec bytes zone := by
  induction count, less using le_induction with
  | base => rfl
  | succ count bound ih =>
    rw [fitSizes, sortedFits_nil (small count bound (lt_succ_self count))]
    exact ih fun above lower upper => small above lower (lt_succ_of_lt upper)

lemma fitSizes_congr {count : Nat}
    (same : ∀ zone < count, after.freeList spec zone = state.freeList spec zone) :
    after.fitSizes spec bytes count = state.fitSizes spec bytes count := by
  induction count with
  | zero => rfl
  | succ count ih =>
    rw [fitSizes, fitSizes, same count (lt_succ_self count),
      ih fun zone less => same zone (lt_succ_of_lt less)]

section
variable (intact : Intact spec state) (real : zone < spec.realCount)
include intact real

/-- `page_malloc_part` hands out the first sufficient size and unlinks a range that is used up. -/
lemma Intact.pageMallocPart_sizes (minSize : Nat) {maxSize : Nat} (aligned : pageSize ∣ maxSize)
    (attr : Bool) :
    (state.fitSizes spec minSize (zone + 1) = [] ∧
        state.pageMallocPart spec minSize maxSize attr zone = some (state, spec.pageError, 0)) ∨
      ∃ size rest after start, state.fitSizes spec minSize (zone + 1) = size :: rest ∧ pageSize ∣ size ∧
        state.pageMallocPart spec minSize maxSize attr zone =
          some (after, start, min size maxSize) ∧ start ≠ spec.pageError ∧
        (size ≤ maxSize → Intact spec after ∧ after.fitSizes spec minSize (zone + 1) = rest) := by
  have floor : floorAlign maxSize = maxSize := Nat.div_mul_cancel aligned
  rcases intact.pageMallocPart_cases real minSize maxSize attr with ⟨failed, small⟩ | hit
  · exact .inl ⟨fitSizes_skip (zero_le _) fun above _ less => small above (le_of_lt_succ less), failed⟩
  obtain ⟨other, front, range, back, after, bound, known, fits, least, above, found, _, taken⟩ := hit
  rw [floor] at found taken
  rw [known] at least
  have otherReal : other < spec.realCount := by omega
  obtain ⟨kept, here, others⟩ := taken.lists intact otherReal known
  refine .inr ⟨range.size, sortedFits minSize (front ++ back) ++ state.fitSizes spec minSize other,
    after, _, ?_, ((intact other otherReal).2.fits range (by simp [known])).sizeAligned, found,
    aligned_ne_pageError taken.part.startAligned, fun whole => ⟨kept, ?_⟩⟩
  · rw [fitSizes_skip (succ_le_succ bound) fun next lower upper =>
      above next lower (le_of_lt_succ upper), fitSizes, known,
      sortedFits_least fits least, cons_append]
  · rw [Nat.min_eq_left whole, Nat.sub_self, Nat.add_zero, cutOut_whole, nil_append] at here
    rw [fitSizes_skip (succ_le_succ bound) fun next lower upper => ?_, fitSizes, here,
      fitSizes_congr fun next less => others next (by omega) (by omega)]
    rw [others next (by omega) (by omega)]
    exact above next lower (le_of_lt_succ upper)

/-- The parts of a scatter are the sufficient ranges in ascending order, and the last one is cut. -/
lemma Intact.scatterLoop_sizes (minScatter : Nat) {turns : Nat} (aligned : pageSize ∣ bytes)
    (small : bytes < 2 ^ spec.bits) {kmalloc : List Kmalloc} (leaves : LeavesPages kmalloc)
    {parts : List (Nat × Nat)} {outcome : Option (List (Nat × Nat))}
    (reached : PageState.scatterLoop spec minScatter attr zone turns state bytes kmalloc parts =
      some (after, outcome)) :
    (∀ all, outcome = some all → ∃ sizes,
      partSizes (state.fitSizes spec minScatter (zone + 1)) bytes = some sizes ∧
        all.map Prod.snd = sizes.reverse ++ parts.map Prod.snd) ∧
      (kmalloc = [] → outcome = none →
        partSizes (state.fitSizes spec minScatter (zone + 1)) bytes = none) := by
  induction turns generalizing state bytes kmalloc parts with
  | zero => exact absurd reached (some_ne_none _).symm
  | succ turns ih =>
    obtain ⟨⟨taken, start, size⟩, found, later⟩ := bind_eq_some_iff.mp reached
    have step : (state.fitSizes spec minScatter (zone + 1) = [] ∧ start = spec.pageError) ∨
        ∃ first rest, state.fitSizes spec minScatter (zone + 1) = first :: rest ∧
          start ≠ spec.pageError ∧
          size = min first bytes ∧ pageSize ∣ first ∧ (first ≤ bytes → Intact spec taken ∧
            taken.fitSizes spec minScatter (zone + 1) = rest) := by
      rcases intact.pageMallocPart_sizes real minScatter aligned attr with ⟨none, failed⟩ | hit
      · obtain ⟨-, rfl, -⟩ : taken = state ∧ start = spec.pageError ∧ size = 0 := by simp_all
        exact .inl ⟨none, rfl⟩
      · obtain ⟨first, rest, reachedState, reachedStart, sizes, whole, given, valid, next⟩ := hit
        obtain ⟨rfl, rfl, rfl⟩ : reachedState = taken ∧ reachedStart = start ∧
          min first bytes = size := by simp_all
        exact .inr ⟨first, rest, sizes, valid, rfl, whole, next⟩
    rcases step with ⟨none, error⟩ | ⟨first, rest, sizes, valid, rfl, whole, next⟩
    · simp only [if_pos error] at later
      obtain ⟨freed, _, same⟩ := map_eq_some_iff.mp later
      obtain ⟨rfl, rfl⟩ := Prod.mk.inj same
      rw [none]
      exact ⟨fun all never => absurd never.symm (some_ne_none all), fun _ _ => rfl⟩
    · simp only [if_neg valid] at later
      rw [sizes, partSizes]
      by_cases complete : bytes ≤ first
      · rw [if_pos (min_eq_right complete).symm, min_eq_right complete] at later
        obtain ⟨rfl, rfl⟩ := Prod.mk.inj (some.inj later)
        refine ⟨fun all same => ⟨[bytes], if_pos complete, ?_⟩,
          fun _ never => absurd never (some_ne_none _)⟩
        rw [← some.inj same]
        rfl
      · have less : first ≤ bytes := by omega
        obtain ⟨kept, left⟩ := next less
        rw [if_neg (by omega), leaves.head, id, min_eq_left less, sub_of_le less small] at later
        rw [if_neg complete]
        split at later
        · obtain ⟨success, failure⟩ := ih kept (dvd_sub aligned whole) (by omega) leaves.tail later
          rw [left] at success failure
          refine ⟨fun all same => ?_, fun empty failed => ?_⟩
          · obtain ⟨behind, split, order⟩ := success all same
            refine ⟨first :: behind, by rw [split]; rfl, ?_⟩
            rw [order, reverse_cons, append_assoc, map_cons, singleton_append]
          · rw [failure (by rw [empty]; rfl) failed]
            rfl
        · next refused =>
          obtain ⟨freed, _, same⟩ := map_eq_some_iff.mp later
          obtain ⟨rfl, rfl⟩ := Prod.mk.inj same
          refine ⟨fun all never => absurd never.symm (some_ne_none all), fun empty => absurd ?_ refused⟩
          rw [empty]
          rfl

/-- The least size that the loop of `page_malloc_scatter` asks for. -/
def loopScatter (spec : MZoneSpec) (bytes minScatter : Nat) : Nat :=
  let minScatter := min (spec.ceil minScatter) (spec.ceil bytes)
  if minScatter = 0 then pageSize else minScatter

/-- The size contract of `page_malloc_part`. -/
def PartContract (spec : MZoneSpec) (state : PageState) (minSize maxSize : Nat) (attr : Bool)
    (zone : Nat) : Prop :=
  ∀ after start size, state.pageMallocPart spec minSize maxSize attr zone =
    some (after, start, size) → start ≠ spec.pageError →
    pageSize ∣ size ∧ spec.ceil minSize ≤ size ∧ size ≤ max (spec.ceil minSize) (floorAlign maxSize)

/-- No part of a successful `page_malloc_scatter` is smaller than the rounded least size, if `kmalloc`
leaves the pages alone meanwhile. -/
def ScatterContract (spec : MZoneSpec) (state : PageState) (bytes minScatter : Nat) (attr : Bool)
    (zone : Nat) : Prop :=
  ∀ kmalloc after parts, LeavesPages kmalloc →
    state.pageMallocScatter spec bytes minScatter attr zone kmalloc = some (after, some parts) →
      ∀ part ∈ parts, spec.ceil (min minScatter bytes) ≤ part.2

lemma Intact.partContract_iff (minSize maxSize : Nat) (attr : Bool) :
    PartContract spec state minSize maxSize attr zone ↔
    spec.ceil minSize ≤ floorAlign maxSize ∨ ∀ other ≤ zone, ∀ range ∈ state.freeList spec other,
      range.size < minSize := by
  rcases intact.pageMallocPart_cases real minSize maxSize attr with ⟨failed, small⟩ | hit
  · refine iff_of_true (fun after start size found valid => ?_) (.inr small)
    rw [failed] at found
    exact absurd (congrArg (·.2.1) (some.inj found)).symm valid
  obtain ⟨other, front, range, back, after, bound, known, fits, _, _, found, _, taken⟩ := hit
  have otherReal : other < spec.realCount := by omega
  have whole := (intact other otherReal).2.fits range (by simp [known])
  have enough : spec.ceil minSize ≤ range.size :=
    ceil_le fits whole.sizeAligned (whole.roundable otherReal)
  have valid : range.start + (range.size - min range.size (floorAlign maxSize)) ≠ spec.pageError :=
    aligned_ne_pageError taken.part.startAligned
  constructor
  · intro contract
    obtain ⟨_, lower, _⟩ := contract _ _ _ found valid
    exact .inl (lower.trans (min_le_right _ _))
  · rintro (wide | none)
    · intro reached start size again _
      rw [found] at again
      obtain ⟨rfl, rfl, rfl⟩ : after = reached ∧ _ = start ∧ min range.size (floorAlign maxSize) =
        size := by simpa using again
      exact ⟨taken.part.sizeAligned, Nat.le_min.mpr ⟨enough, wide⟩,
        (Nat.min_le_right _ _).trans (Nat.le_max_right _ _)⟩
    · have := none other bound range (by simp [known])
      omega

lemma Intact.scatterContract_iff (bytes minScatter : Nat) (attr : Bool) :
    ScatterContract spec state bytes minScatter attr zone ↔
      (bytes ≠ 0 → PartsReach (spec.ceil (min minScatter bytes)) (spec.ceil bytes)
        (state.fitSizes spec (loopScatter spec bytes minScatter) (zone + 1))) := by
  by_cases nothing : bytes = 0
  · refine iff_of_true (fun kmalloc after parts _ found part mem => ?_) (absurd nothing)
    rw [PageState.pageMallocScatter, if_pos nothing] at found
    obtain rfl : [] = parts := some.inj (congrArg Prod.snd (some.inj found))
    exact absurd mem not_mem_nil
  · have bounded : spec.ceil bytes < 2 ^ spec.bits := by
      refine (Nat.div_mul_le_self _ _).trans_lt (Nat.mod_lt _ (Nat.two_pow_pos _))
    rw [← partsReach_iff, imp_iff_right nothing]
    constructor
    · intro contract sizes split size mem
      have quiet := leavesPages_inHeap []
      obtain ⟨after, outcome, found, _⟩ := intact.pageMallocScatter real bytes minScatter attr [] quiet
      have loop := found
      rw [PageState.pageMallocScatter, if_neg nothing] at loop
      obtain ⟨success, failure⟩ := intact.scatterLoop_sizes real _ (spec.ceil_dvd bytes)
        bounded quiet loop
      cases outcome with
      | none => exact absurd ((failure rfl rfl).symm.trans split).symm (some_ne_none sizes)
      | some parts =>
        obtain ⟨same, again, order⟩ := success parts rfl
        obtain rfl : sizes = same := some.inj (split.symm.trans again)
        have listed : size ∈ parts.map Prod.snd := by
          rw [order, map_nil, append_nil]
          exact mem_reverse.mpr mem
        obtain ⟨part, inside, rfl⟩ := mem_map.mp listed
        exact contract [] after parts quiet found part inside
    · intro reached kmalloc after parts leaves found part mem
      rw [PageState.pageMallocScatter, if_neg nothing] at found
      obtain ⟨sizes, split, order⟩ :=
        (intact.scatterLoop_sizes real _ (spec.ceil_dvd bytes) bounded leaves found).1 parts rfl
      refine reached sizes split part.2 (mem_reverse.mp ?_)
      rw [map_nil, append_nil] at order
      exact order ▸ mem_map_of_mem mem

end

/-- The parts are as large as asked for exactly if the ranges that are taken allow it. -/
theorem part_sizes_iff (intact : Intact spec state) {zone : Nat} (real : zone < spec.realCount)
    (minSize maxSize bytes minScatter : Nat) (attr : Bool) :
    (PartContract spec state minSize maxSize attr zone ↔
      spec.ceil minSize ≤ floorAlign maxSize ∨ ∀ other ≤ zone, ∀ range ∈ state.freeList spec other,
        range.size < minSize) ∧
    (ScatterContract spec state bytes minScatter attr zone ↔
      (bytes ≠ 0 → PartsReach (spec.ceil (min minScatter bytes)) (spec.ceil bytes)
        (state.fitSizes spec (loopScatter spec bytes minScatter) (zone + 1)))) :=
  ⟨intact.partContract_iff real minSize maxSize attr,
    intact.scatterContract_iff real bytes minScatter attr⟩

theorem part_sizes_holed :
    PartContract i386 holedMemory 0x1000 0x1000 false 1 ∧
    ScatterContract i386 holedMemory 0x2000 0x1000 false 1 := by
  have both := part_sizes_iff (historyMemory_intact _ (by decide +kernel) : Intact i386 holedMemory)
    (show 1 < i386.realCount by decide) 0x1000 0x1000 0x2000 0x1000 false
  exact ⟨both.1.mpr (.inl (by decide +kernel)), both.2.mpr (by decide +kernel)⟩

/-- Two free pages, a used page and two free pages. -/
def pairedMemory : PageState :=
  historyMemory [.addmemory 1 0x100000 0x5000, .mallocIn 0x102000 0x102000 0x1000 false]

/-- A part of at most one page has one page, and so has a part of a scatter. -/
theorem part_below_minimum : (pairedMemory.pageMallocPart i386 0x2000 0x1000 false 1).map (·.2) =
    some (0x101000, 0x1000) ∧
      (pairedMemory.pageMallocScatter i386 0x3000 0x2000 false 1 []).map (·.2) =
        some (some [(0x104000, 0x1000), (0x100000, 0x2000)]) ∧
      ¬ PartContract i386 pairedMemory 0x2000 0x1000 false 1 ∧
      ¬ ScatterContract i386 pairedMemory 0x3000 0x2000 false 1 := by
  have part : (pairedMemory.pageMallocPart i386 0x2000 0x1000 false 1).map (·.2) =
    some (0x101000, 0x1000) := by decide +kernel
  have scatter : (pairedMemory.pageMallocScatter i386 0x3000 0x2000 false 1 []).map (·.2) =
      some (some [(0x104000, 0x1000), (0x100000, 0x2000)]) := by decide +kernel
  refine ⟨part, scatter, fun contract => ?_, fun contract => ?_⟩
  · obtain ⟨⟨after, _⟩, found, rfl⟩ := map_eq_some_iff.mp part
    have lower := (contract after 0x101000 0x1000 found (by decide)).2.1
    exact absurd lower (by decide)
  · obtain ⟨⟨after, _⟩, found, rfl⟩ := map_eq_some_iff.mp scatter
    have lower := contract [] after _ (leavesPages_inHeap []) found (0x104000, 0x1000) (by decide)
    exact absurd lower (by decide)

end PageState

end KosKernel.Memory
