import KosKernel.Memory.PageLists

namespace KosKernel.Memory
open LinkList FreeRanges List MZoneSpec
namespace PageState
variable {spec : MZoneSpec} {state : PageState} {zone : Nat} {front back : List PageRange}
  {range : PageRange}

section Headers

section
variable (listed : Listed spec state zone (front ++ range :: back))
  (bounded : range.start + range.size < 2 ^ spec.bits)
include listed bounded

/-- The header moves to the upper part of its range. -/
lemma Listed.moveUp {bytes : Nat} (part : bytes ≤ range.size)
    (valid : range.start + bytes ≠ spec.pageError)
    (distinct : ((front ++ ⟨range.start + bytes, range.size - bytes, range.tag⟩ :: back).map
      Range.start).Nodup) :
    Listed spec (state.moveUp spec range.start bytes) zone
        (front ++ ⟨range.start + bytes, range.size - bytes, range.tag⟩ :: back) ∧
      Edits state (state.moveUp spec range.start bytes) zone
        ((front ++ ⟨range.start + bytes, range.size - bytes, range.tag⟩ :: back).map Range.start) := by
  obtain ⟨segment, self, tail⟩ := listed.middle
  obtain ⟨size, attr⟩ := listed.headers range (by simp)
  have newBase : spec.add range.start bytes = range.start + bytes := add_of_lt (by omega)
  have rest : spec.sub (state.page range.start).pFree.pSize bytes = range.size - bytes := by
    rw [size]
    exact sub_of_le part (by omega)
  refine listed_place ⟨range.start + bytes, range.size - bytes, range.tag⟩ segment tail
    listed.others distinct valid rfl ?_
  unfold PageState.moveUp
  simp [newBase, rest, self, attr]

/-- The part of a range from an address on gets a header of its own. -/
lemma Listed.splitUpper {hiSplit : Nat} (lower : range.start ≤ hiSplit) (upper : hiSplit ≤ range.stop)
    (valid : hiSplit ≠ spec.pageError)
    (distinct : ((front ++ range :: ⟨hiSplit, range.stop - hiSplit, range.tag⟩ :: back).map
      Range.start).Nodup) :
    Listed spec (state.splitUpper spec range.start hiSplit) zone
        (front ++ range :: ⟨hiSplit, range.stop - hiSplit, range.tag⟩ :: back) ∧
      Edits state (state.splitUpper spec range.start hiSplit) zone
        ((front ++ range :: ⟨hiSplit, range.stop - hiSplit, range.tag⟩ :: back).map Range.start) := by
  obtain ⟨segment, self, tail⟩ := listed.middle
  obtain ⟨size, attr⟩ := listed.headers range (by simp)
  have chain := listed.chain
  rw [append_cons, map_append] at chain
  have reaches : Segment (state.links spec) (.head zone) ((front ++ [range]).map Range.start) :=
    (chain_append.mp chain).1
  have behind : last (.head zone) ((front ++ [range]).map Range.start) = .next range.start := by
    rw [map_append, last_append]
    rfl
  have fresh : spec.pointer (state.page range.start).pFree.pNext ≠ some hiSplit := by
    intro leads
    have known := tail_known tail (List.Subset.refl back) _ leads
    rw [append_cons, map_append, map_cons, nodup_middle, nodup_cons] at distinct
    exact distinct.1 (mem_append_right _ known)
  have rest : spec.sub (state.page range.start).pFree.pSize (spec.sub hiSplit range.start) =
    range.stop - hiSplit := by
    unfold Range.stop at *
    rw [sub_of_le lower (by omega), sub_of_le (by omega) (by omega)]
    omega
  rw [append_cons] at distinct ⊢
  refine listed_place ⟨hiSplit, range.stop - hiSplit, range.tag⟩ reaches tail
    (by simpa using listed.headers) distinct valid
    rfl ?_
  -- Both stores to the new header together set the size and the link.
  unfold PageState.splitUpper
  simp only [adopt_page_of_ne _ _ fresh, setFree_page_self, setFree_adopt _ _ _ fresh,
    setFree_setFree, rest, attr, behind]

end

end Headers

/-- The page of a range is zero, except for the header at the start of the range. -/
def ZeroAt (state : PageState) (range : PageRange) (page : Nat) : Prop :=
  (state.page page).pData = (fun _ => 0) ∧ (page ≠ range.start → (state.page page).pFree = .zero)

/-- An allocation cuts a part out of a range and touches nothing but free pages. -/
structure Taken (spec : MZoneSpec) (before after : PageState) (zone : Nat) (front : List PageRange)
    (range : PageRange) (back : List PageRange) (start bytes : Nat) (attr : Bool) : Prop where
  part : Part range start bytes
  listed : Listed spec after zone (front ++ (cutOut range start bytes ++ back))
  data : ∀ page, ¬ (start ≤ page ∧ page < start + bytes) →
    (after.page page).pData = (before.page page).pData
  other : ∀ page, ¬ (start ≤ page ∧ page < start + bytes) →
    page ∉ (front ++ range :: back).map Range.start →
    page ∉ (front ++ (cutOut range start bytes ++ back)).map Range.start →
      after.page page = before.page page
  zeroed : attr = true → ∀ page, start ≤ page ∧ page < start + bytes →
    (range.tag = true → before.ZeroAt range page) → after.page page = .zero
  roots : ∀ other, other ≠ zone → (after.zone other).zRoot = (before.zone other).zRoot

section HandOut
variable {before taken : PageState} {start bytes : Nat} {attr : Bool}

/-- The last steps of every allocation: the header and the pages are wiped. -/
def handOut (taken : PageState) (zone : Nat) (count : MZone → MZone) (range : PageRange)
    (start bytes : Nat) (attr : Bool) : PageState :=
  let cleared := if attr ∧ range.tag ∧ start = range.start then taken.clearHeader start else taken
  let counted := cleared.setZone zone (count (cleared.zone zone))
  if attr ∧ ¬ range.tag then counted.clearPages start bytes else counted

variable (count : MZone → MZone)

lemma handOut_zone : (taken.handOut zone count range start bytes attr).zone =
    Function.update taken.zone zone (count (taken.zone zone)) := by
  unfold handOut
  split <;> split <;> rfl

lemma handOut_page_outside {page : Nat} (filled : start = range.start → 0 < bytes)
    (outside : ¬ (start ≤ page ∧ page < start + bytes)) :
    (taken.handOut zone count range start bytes attr).page page = taken.page page := by
  have cleared : (if attr ∧ range.tag ∧
    start = range.start then taken.clearHeader start else taken).page page = taken.page page := by
    split
    · rename_i wiped
      exact setFree_page_of_ne taken _ (by omega)
    · rfl
  simp only [handOut]
  by_cases wipes : attr = true ∧ ¬ range.tag = true
  · rw [if_pos wipes]
    exact (if_neg outside).trans cleared
  · rw [if_neg wipes]
    exact cleared

/-- The pages that are handed out are zero when the attribute asks for it. -/
lemma handOut_page_inside {page : Nat} (inside : start ≤ page ∧ page < start + bytes)
    (lower : range.start ≤ start) (asked : attr = true)
    (zero : range.tag = true → taken.ZeroAt range page) :
    (taken.handOut zone count range start bytes attr).page page = .zero := by
  unfold handOut
  cases tag : range.tag with
  | false =>
    rw [if_pos (by simp [asked])]
    exact if_pos inside
  | true =>
    obtain ⟨data, header⟩ := zero tag
    rw [if_neg (by simp), setZone_page]
    by_cases first : page = range.start
    · obtain rfl : page = start := by omega
      rw [if_pos (by simp [asked, first]), clearHeader, setFree_page_self, data]
      rfl
    have same : (if attr ∧ true = true ∧
      start = range.start then taken.clearHeader start else taken).page page = taken.page page := by
      split
      · exact setFree_page_of_ne taken _ (by omega)
      · rfl
    rw [same]
    exact congrArg₂ Page.mk (header first) data

/-- Changes of headers followed by the last steps make an allocation. -/
lemma Taken.of_edits (arranged : Arranged spec zone (front ++ range :: back))
    (part : Part range start bytes)
    (listed : Listed spec taken zone (front ++ (cutOut range start bytes ++ back)))
    (edits : Edits before taken zone
      ((front ++ range :: back).map Range.start ++ (front ++ (cutOut range start bytes ++ back)).map
        Range.start))
    {count : MZone → MZone} (root : ∀ fields, (count fields).zRoot = fields.zRoot) :
    Taken spec before (taken.handOut zone count range start bytes attr) zone front range back start
      bytes attr := by
  have whole := arranged.fits range (by simp)
  have rest := arranged.cut part
  have positive : start = range.start → 0 < bytes := by
    intro same
    have filled := part.filled
    have := whole.filled
    unfold Range.stop at filled
    omega
  have away : ∀ other ∈ front ++ (cutOut range start bytes ++ back),
    ¬ (start ≤ other.start ∧ other.start < start + bytes) := by
    intro other mem
    exact ((covered_cut arranged.apart part.lower part.upper other.start).mp ⟨other, mem,
      rest.has_start mem⟩).2
  have interior : ∀ other ∈ front ++ range :: back, start ≤ other.start ∧
    other.start < start + bytes → other.start = range.start := by
    intro other mem inside
    have has : range.Has other.start := ⟨part.lower.trans inside.1, inside.2.trans_le part.upper⟩
    rw [arranged.apart.unique mem (by simp) (arranged.has_start mem) has]
  constructor
  case part => exact part
  case listed =>
    refine listed.congr (fun other mem => ?_) ?_
    · rw [handOut_page_outside count positive (away other mem)]
    · rw [handOut_zone, Function.update_self, root]
  case data =>
    intro page outside
    rw [handOut_page_outside count positive outside, edits.data]
  case other =>
    intro page outside old new
    rw [handOut_page_outside count positive outside]
    exact edits.other page fun mem => (mem_append.mp mem).elim old new
  case zeroed =>
    intro asked page inside zero
    refine handOut_page_inside count inside part.lower asked fun tag => ?_
    obtain ⟨data, header⟩ := zero tag
    refine ⟨(edits.data page).trans data, fun behind => ?_⟩
    rw [edits.other page, header behind]
    rintro mem
    rcases mem_append.mp mem with old | new
    · obtain ⟨other, known, rfl⟩ := mem_map.mp old
      exact behind (interior other known inside)
    · obtain ⟨other, known, rfl⟩ := mem_map.mp new
      exact away other known inside
  case roots =>
    intro other differs
    rw [handOut_zone, Function.update_of_ne differs, edits.zones other differs]

end HandOut

section Cut
variable {start bytes max : Nat} {attr : Bool}

/-- The headers change so that a part of a range is cut out. -/
def cutHeaders (spec : MZoneSpec) (state : PageState) (range : PageRange) (start bytes : Nat) :
    PageState :=
  if start = range.start then
    if bytes = range.size then state.unlink spec range.start else state.moveUp spec range.start bytes
  else
    (if start + bytes ≠ range.stop then state.splitUpper spec range.start (start + bytes)
      else state).setSize range.start
      (start - range.start)

section
variable (listed : Listed spec state zone (front ++ range :: back))
  (arranged : Arranged spec zone (front ++ range :: back)) (real : zone < spec.realCount)
include listed arranged real

lemma Listed.cutHeaders (part : Part range start bytes) :
    Listed spec (state.cutHeaders spec range start bytes) zone
      (front ++ (cutOut range start bytes ++ back)) ∧
      Edits state (state.cutHeaders spec range start bytes) zone
        ((front ++ range :: back).map Range.start ++
          (front ++ (cutOut range start bytes ++ back)).map Range.start) := by
  have bounded := (arranged.fits range (by simp)).bounded real
  have rest := arranged.cut part
  have distinct := arranged.apart.nodup
  have newDistinct := rest.apart.nodup
  have valid : start + bytes ≠ spec.pageError :=
    aligned_ne_pageError (Nat.dvd_add part.startAligned part.sizeAligned)
  have lower := part.lower
  have upper := part.upper
  unfold PageState.cutHeaders
  by_cases first : start = range.start
  · subst first
    rw [if_pos rfl]
    by_cases whole : bytes = range.size
    · subst whole
      rw [if_pos rfl, cutOut_whole]
      obtain ⟨unlinked, edits⟩ := listed.unlink distinct
      exact ⟨unlinked, edits.mono fun _ => mem_append_left _⟩
    · have less : bytes < range.size := by
        unfold Range.stop at upper
        omega
      rw [cutOut_lower less] at newDistinct ⊢
      rw [if_neg whole]
      obtain ⟨moved, edits⟩ := listed.moveUp bounded less.le valid newDistinct
      exact ⟨moved, edits.mono fun _ => mem_append_right _⟩
  · rw [if_neg first]
    have above : range.start < start := by omega
    by_cases reaches : start + bytes = range.stop
    · rw [if_neg (not_not.mpr reaches), cutOut_upper above reaches]
      exact ⟨listed.setSize distinct _, edits_setFree _ (by simp)⟩
    have below : start + bytes < range.stop := by omega
    rw [cutOut_inner above below] at newDistinct ⊢
    rw [if_pos reaches]
    have splitDistinct :
      ((front ++ range :: ⟨start + bytes, range.stop - (start + bytes), range.tag⟩ :: back).map
        Range.start).Nodup := by simpa using newDistinct
    obtain ⟨split, edits⟩ := listed.splitUpper bounded (by omega) below.le valid splitDistinct
    refine ⟨by simpa using split.setSize splitDistinct (start - range.start), ?_⟩
    refine (edits.mono fun page mem => mem_append_right _ ?_).trans (edits_setFree _ (by simp))
    simpa using mem

lemma Listed.taken (part : Part range start bytes) (count : MZone → MZone)
    (root : ∀ fields, (count fields).zRoot = fields.zRoot) :
    Taken spec state ((state.cutHeaders spec range start bytes).handOut zone count range start bytes
      attr) zone front
      range back start bytes attr := by
  obtain ⟨cut, edits⟩ := listed.cutHeaders arranged real part
  exact Taken.of_edits arranged part cut edits root

/-- The allocation at the upper end of a range. -/
lemma Listed.takeTop (enough : bytes ≤ range.size) (aligned : pageSize ∣ bytes) (attr : Bool) :
    ∃ after, state.takeTop spec zone range.start range.size bytes attr =
      (after, range.start + (range.size - bytes)) ∧
      Taken spec state after zone front range back (range.start + (range.size - bytes)) bytes attr := by
  have fits := arranged.fits range (by simp)
  have bounded := fits.bounded real
  obtain ⟨size, tag⟩ := listed.headers range (by simp)
  have rest : spec.sub range.size bytes = range.size - bytes := sub_of_le enough (by omega)
  have result : spec.add range.start (range.size - bytes) = range.start + (range.size - bytes) :=
    add_of_lt (by omega)
  have part : Part range (range.start + (range.size - bytes)) bytes :=
    { lower := by omega
      upper := by unfold Range.stop; omega
      startAligned := Nat.dvd_add fits.startAligned (Nat.dvd_sub fits.sizeAligned aligned)
      sizeAligned := aligned
      filled := by unfold Range.stop; omega }
  have cut : (if range.start + (range.size - bytes) = range.start then state.unlink spec range.start
      else state.setSize range.start (range.size - bytes)) =
        state.cutHeaders spec range (range.start + (range.size - bytes)) bytes := by
    unfold PageState.cutHeaders
    by_cases whole : bytes = range.size
    · rw [if_pos (by omega), if_pos (by omega), if_pos whole]
    · rw [if_neg (by omega), if_neg (by omega), if_neg (by unfold Range.stop; omega),
        Nat.add_sub_cancel_left]
  have partAttr : ((state.cutHeaders spec range (range.start + (range.size - bytes)) bytes).page
      range.start).pFree.pAttr = range.tag := by
    rw [← cut, ← tag]
    split
    · simp [PageState.unlink]
    · simp [PageState.setSize]
  refine ⟨_, ?_, listed.taken arranged real part (countTop spec bytes) fun _ => rfl⟩
  unfold PageState.takeTop PageState.handOut
  simp only [rest, result, size, cut, partAttr]

/-- The allocation below the greatest address. -/
lemma Listed.takeIn (positive : 0 < bytes) (enough : bytes ≤ range.size) (aligned : pageSize ∣ bytes)
    (below : range.start ≤ max) (maxAligned : pageSize ∣ max) (attr : Bool) :
    ∃ after, state.takeIn spec zone range.start max bytes attr =
      (after, min max (range.start + (range.size - bytes))) ∧
      Taken spec state after zone front range back (min max (range.start + (range.size - bytes)))
        bytes attr := by
  have fits := arranged.fits range (by simp)
  have bounded := fits.bounded real
  obtain ⟨size, tag⟩ := listed.headers range (by simp)
  have rest : spec.sub range.size bytes = range.size - bytes := sub_of_le enough (by omega)
  have top : spec.add range.start (range.size - bytes) = range.start + (range.size - bytes) :=
    add_of_lt (by omega)
  have topAligned : pageSize ∣ range.start + (range.size - bytes) :=
    Nat.dvd_add fits.startAligned (Nat.dvd_sub fits.sizeAligned aligned)
  obtain ⟨result, chosen⟩ : ∃ result, result = min max (range.start + (range.size - bytes)) := ⟨_, rfl⟩
  have choice : (if max < range.start + (range.size - bytes) then max
    else range.start + (range.size - bytes)) = result := by
    split <;> omega
  rw [← chosen]
  have part : Part range result bytes :=
    { lower := by omega
      upper := by unfold Range.stop; omega
      startAligned := by
        rw [← choice]
        split
        · exact maxAligned
        · exact topAligned
      sizeAligned := aligned
      filled := .inl positive }
  have lower := part.lower
  refine ⟨_, ?_, listed.taken arranged real part (countIn spec bytes) fun _ => rfl⟩
  have stop : spec.add range.start range.size = range.stop := add_of_lt bounded
  have behind : spec.add result bytes = result + bytes := add_of_lt (by omega)
  have before : spec.sub result range.start = result - range.start := sub_of_le lower (by omega)
  unfold PageState.takeIn PageState.handOut PageState.cutHeaders
  simp only [rest, top, size, tag, choice, stop, behind, before]
  by_cases first : result = range.start
  · simp [first, true_and, and_comm]
  · simp [first, and_false]

end

end Cut

end PageState

end KosKernel.Memory
