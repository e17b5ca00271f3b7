import KosKernel.Memory.PageTake

namespace KosKernel.Memory
open LinkList FreeRanges List MZoneSpec
namespace PageState
variable {spec : MZoneSpec} {state : PageState} {zone : Nat} {front back : List PageRange}

section Headers
variable {first second next : PageRange} {start bytes : Nat} {attr : Bool}

/-- A new range gets a header between two others. -/
lemma Listed.insertRange (listed : Listed spec state zone (front ++ back))
    (valid : start ≠ spec.pageError)
    (distinct : ((front ++ ⟨start, bytes, attr⟩ :: back).map Range.start).Nodup) {piter : Link Nat}
    (reached : piter = last (.head zone) (front.map Range.start)) :
    Listed spec (state.insertRange spec piter start (state.load piter) bytes attr) zone
      (front ++ ⟨start, bytes, attr⟩ :: back) ∧
      Edits state (state.insertRange spec piter start (state.load piter) bytes attr) zone
        ((front ++ ⟨start, bytes, attr⟩ :: back).map Range.start) := by
  subst reached
  have chain := listed.chain
  rw [map_append] at chain
  obtain ⟨segment, rest⟩ := chain_append.mp chain
  have tail : Tail (state.links spec)
    (spec.pointer (state.load (last (.head zone) (front.map Range.start))))
      (back.map Range.start) := rest.tail
  refine listed_place ⟨start, bytes, attr⟩ segment tail listed.headers distinct valid rfl ?_
  rw [PageState.insertRange, store_adopt]

/-- The freed range takes over the header of the range behind it. -/
lemma Listed.extendNext (listed : Listed spec state zone (front ++ next :: back))
    (valid : start ≠ spec.pageError)
    (away : start ≠ next.start) (bounded : bytes + next.size < 2 ^ spec.bits)
    (oldDistinct : ((front ++ next :: back).map Range.start).Nodup)
    (distinct : ((front ++ ⟨start, bytes + next.size, attr && next.tag⟩ :: back).map
      Range.start).Nodup) :
    Listed spec (state.extendNext spec start next.start bytes attr) zone
        (front ++ ⟨start, bytes + next.size, attr && next.tag⟩ :: back) ∧
      Edits state (state.extendNext spec start next.start bytes attr) zone
        ((front ++ next :: back).map Range.start ++
        (front ++ ⟨start, bytes + next.size, attr && next.tag⟩ :: back).map Range.start) ∧
      ((attr && next.tag) = true →
        ((state.extendNext spec start next.start bytes attr).page next.start).pFree = .zero) := by
  obtain ⟨segment, self, tail⟩ := listed.middle
  obtain ⟨size, tag⟩ := listed.headers next (by simp)
  have absent : ∀ ranges ⊆ front ++ back, next.start ∉ ranges.map Range.start := by
    intro ranges subset mem
    rw [map_append, map_cons, nodup_middle, nodup_cons, ← map_append] at oldDistinct
    exact oldDistinct.1 (map_subset Range.start subset mem)
  have nextAway : spec.pointer (state.page next.start).pFree.pNext ≠ some next.start := by
    intro leads
    exact absent back (subset_append_right _ _) (tail_known tail (List.Subset.refl back) _ leads)
  have selfAway : last (.head zone) (front.map Range.start) ≠ .next next.start := by
    rcases last_known zone (List.Subset.refl front) with same | ⟨page, mem, same⟩
    · simp [same]
    · rw [same]
      rintro ⟨rfl⟩
      exact absent front (subset_append_left _ _) mem
  obtain ⟨plain, plain_eq⟩ : ∃ plain, plain = ((state.setFree start ⟨(state.page next.start).pFree.pNext,
    last (.head zone) (front.map Range.start), bytes + next.size, attr && next.tag⟩).adopt spec
      (state.page next.start).pFree.pNext (.next start)).store
        (last (.head zone) (front.map Range.start)) start := ⟨_, rfl⟩
  -- The wipe of the old header commutes with the last two stores.
  have stored : state.extendNext spec start next.start bytes attr =
      if attr && next.tag then plain.clearHeader next.start else plain := by
    have total : spec.add next.size bytes = bytes + next.size := by
      rw [add_of_lt (by omega), Nat.add_comm]
    unfold PageState.extendNext
    rw [plain_eq]
    simp only [size, tag, self, total, setFree_page_self, Bool.and_comm]
    cases wipes : attr && next.tag with
    | false => simp
    | true =>
      simp only [if_true, clearHeader]
      rw [setFree_store _ _ _ selfAway, setFree_adopt _ _ _ nextAway, setFree_page_of_ne _ _ away,
        setFree_page_self]
  obtain ⟨placed, edits⟩ := listed_place ⟨start, bytes + next.size, attr && next.tag⟩ segment tail
    listed.others distinct valid
    rfl plain_eq
  rw [stored]
  refine ⟨placed.wiped ?_ _, (edits.mono fun page mem => ?_).wiped (by simp) _, fun wipes => ?_⟩
  · rw [map_append, map_cons, mem_append, mem_cons]
    rintro (low | same | high)
    · exact absent front (subset_append_left _ _) low
    · exact away same.symm
    · exact absent back (subset_append_right _ _) high
  · exact mem_append_right _ mem
  · rw [if_pos wipes, clearHeader, setFree_page_self]

/-- A range swallows the header of the range behind it. -/
lemma Listed.mergeNext (listed : Listed spec state zone (front ++ first :: second :: back))
    (distinct : ((front ++ first :: second :: back).map Range.start).Nodup) {size : Nat}
    {tag : Bool} {merged : PageState} (stored : merged = (state.setFree first.start
      ⟨(state.page second.start).pFree.pNext, (state.page first.start).pFree.pSelf, size,
        tag⟩).adopt spec
        (state.page second.start).pFree.pNext (.next first.start)) :
    Listed spec merged zone (front ++ ⟨first.start, size, tag⟩ :: back) ∧
      Edits state merged zone ((front ++ first :: second :: back).map Range.start) := by
  have behind : Listed spec state zone ((front ++ [first]) ++ second :: back) := by simpa using listed
  obtain ⟨_, self, tail⟩ := behind.middle
  rw [map_append, last_append] at self
  have inside : back ⊆ front ++ first :: second :: back := by
    intro other mem
    simp [mem]
  refine ⟨⟨?_, fun other mem => ?_⟩,
    stored ▸ (edits_setFree _ (by simp)).trans (edits_adopt _ (tail_known tail inside))⟩
  · have chain := behind.chain
    rw [append_cons] at distinct
    rw [map_append] at chain distinct
    have removed := chain_remove chain (away_head _ _) distinct
    have linked : links spec merged = (state.links spec).connect ((state.links spec).self second.start)
        ((state.links spec).target (.next second.start)) := by
      rw [stored, links_adopt, links_setFree, show (state.links spec).self second.start =
        .next first.start from self]
      rw [show Function.update (state.links spec).self first.start (state.page first.start).pFree.pSelf =
        (state.links spec).self from Function.update_eq_self _ _]
      rfl
    rw [linked]
    simpa using removed
  · rw [stored, hasHeader_adopt]
    refine headers_setFree ⟨first.start, size, tag⟩ (fun other mem => listed.headers other ?_) ?_
      rfl rfl other mem
    · rcases mem_append.mp mem with low | high
      · exact mem_append_left _ low
      · exact inside high
    · refine distinct.sublist ?_
      simp

end Headers

section Walk
variable {start : Nat}

/-- The walk stops behind the ranges that end at or before the address. -/
lemma walkFree_eq {link : Link Nat} {fuel : Nat}
    (chain : Chain (state.links spec) link ((front ++ back).map Range.start))
    (ends : ∀ range ∈ front ++ back, state.pageEnd spec range.start = range.stop)
    (below : ∀ range ∈ front, range.stop ≤ start) (above : ∀ range ∈ back, start < range.stop)
    (enough : front.length < fuel) :
    state.walkFree spec start fuel link = some (last link (front.map Range.start)) := by
  induction front generalizing link fuel with
  | nil =>
    obtain _ | turns := fuel
    · omega
    rw [walkFree]
    have target := chain.target
    cases back with
    | nil =>
      have stop : state.load link = spec.pageError := pointer_eq_none target
      simp [stop, last]
    | cons next rest =>
      obtain ⟨here, _⟩ := pointer_eq_some target
      have later := above next (by simp)
      rw [← ends next (by simp)] at later
      simp [here, last, later]
  | cons range rest ih =>
    obtain _ | turns := fuel
    · omega
    obtain ⟨target, _, follows⟩ := chain
    obtain ⟨here, valid⟩ := pointer_eq_some target
    have earlier := below range (by simp)
    rw [← ends range (by simp)] at earlier
    rw [here] at valid
    rw [walkFree, here, if_pos ⟨valid, earlier⟩]
    refine ih follows (fun other mem => ends other ?_) (fun other mem => below other ?_) ?_
    · exact mem_cons_of_mem _ mem
    · exact mem_cons_of_mem _ mem
    · simp at enough
      omega

end Walk

/-- A free changes headers only, and headers inside of a zero range are wiped. -/
structure Joined (spec : MZoneSpec) (before after : PageState) (zone : Nat)
    (old new : List PageRange) : Prop where
  listed : Listed spec after zone new
  edits : Edits before after zone (old.map Range.start ++ new.map Range.start)
  wiped : ∀ range ∈ new, range.tag = true → ∀ swallowed ∈ old, range.Has swallowed.start →
    swallowed.start ≠ range.start → (after.page swallowed.start).pFree = .zero

section Join
variable {after : PageState} {old : List PageRange} {merged prev : PageRange}
  {start bytes : Nat} {attr : Bool}

/-- Only the new range can have swallowed a header. -/
lemma Joined.of_merged (arranged : Arranged spec zone old)
    (listed : Listed spec after zone (front ++ merged :: back))
    (edits : Edits state after zone (old.map Range.start ++ (front ++ merged :: back).map Range.start))
    (others : ∀ range ∈ front ++ back, range ∈ old)
    (wiped : merged.tag = true → ∀ swallowed ∈ old, merged.Has swallowed.start →
      swallowed.start ≠ merged.start →
      (after.page swallowed.start).pFree = .zero) : Joined spec state after zone old
        (front ++ merged :: back) where
  listed := listed
  edits := edits
  wiped range mem tag swallowed known has differs := by
    rw [mem_append, mem_cons, or_left_comm, ← mem_append] at mem
    rcases mem with rfl | mem
    · exact wiped tag swallowed known has differs
    · have same := arranged.apart.unique (others range mem) known has (arranged.has_start known)
      exact absurd (by rw [same]) differs

/-- The freed range is joined with the range behind it. -/
lemma Listed.freeBehind (listed : Listed spec state zone (front ++ back))
    (arranged : Arranged spec zone (front ++ back))
    (real : zone < spec.realCount) (fits : Fits spec zone ⟨start, bytes, attr⟩)
    (below : ∀ range ∈ front, range.stop < start) (above : ∀ range ∈ back, start + bytes ≤ range.start)
    {piter : Link Nat} (reached : piter = last (.head zone) (front.map Range.start)) :
    Joined spec state
      (if state.load piter ≠ spec.pageError ∧ state.load piter = spec.add start bytes then
        state.extendNext spec start (state.load piter) bytes attr
      else state.insertRange spec piter start (state.load piter) bytes attr) zone (front ++ back)
      (front ++ joinNext and ⟨start, bytes, attr⟩ back) := by
  have valid : start ≠ spec.pageError := aligned_ne_pageError fits.startAligned
  have joined : Apart (front ++ joinNext and ⟨start, bytes, attr⟩ back) :=
    apart_joinNext arranged.apart below above
  have distinct := joined.nodup
  have stop : spec.add start bytes = start + bytes := add_of_lt (fits.bounded real)
  have outside : ∀ swallowed ∈ front ++ back,
    ¬ (start ≤ swallowed.start ∧ swallowed.start < start + bytes) := by
    intro swallowed mem inside
    rcases mem_append.mp mem with low | high
    · have := below swallowed low
      unfold Range.stop at this
      omega
    · have := above swallowed high
      omega
  have chain := listed.chain
  rw [map_append] at chain
  have target := (chain_append.mp chain).2.target
  rw [← reached] at target
  have plain : joinNext and ⟨start, bytes, attr⟩ back = ⟨start, bytes, attr⟩ :: back →
      Joined spec state (state.insertRange spec piter start (state.load piter) bytes attr)
        zone (front ++ back)
        (front ++ ⟨start, bytes, attr⟩ :: back) := by
    intro same
    rw [same] at distinct
    obtain ⟨inserted, edits⟩ := listed.insertRange valid distinct reached
    refine Joined.of_merged arranged inserted (edits.mono fun _ => mem_append_right _)
      (fun range mem => mem) fun _ swallowed mem has _ => ?_
    exact absurd has (outside swallowed mem)
  cases back with
  | nil =>
    have ends : state.load piter = spec.pageError := pointer_eq_none target
    rw [if_neg fun both => both.1 ends]
    exact plain rfl
  | cons next rest =>
    obtain ⟨here, filled⟩ := pointer_eq_some target
    have nextFits := arranged.fits next (by simp)
    by_cases touch : (⟨start, bytes, attr⟩ : PageRange).stop = next.start
    · have sum : start + bytes = next.start := touch
      rw [joinNext_touch _ touch] at distinct ⊢
      rw [here, stop, if_pos ⟨aligned_ne_pageError nextFits.startAligned, sum.symm⟩]
      have positive : 0 < bytes := fits.filled
      have nextBounded := nextFits.bounded real
      have bounded : bytes + next.size < 2 ^ spec.bits := by omega
      obtain ⟨extended, edits, wiped⟩ :=
        listed.extendNext valid (by omega) bounded arranged.apart.nodup distinct
      refine Joined.of_merged arranged extended edits (fun range mem => ?_)
        fun tag swallowed mem has differs => ?_
      · exact mem_append.mpr ((mem_append.mp mem).imp_right (mem_cons_of_mem _))
      · have reach : start ≤ swallowed.start ∧ swallowed.start < start + (bytes + next.size) := has
        have away := outside swallowed mem
        have inside : next.Has swallowed.start := ⟨by omega, by unfold Range.stop; omega⟩
        rw [arranged.apart.unique mem (by simp) (arranged.has_start mem) inside]
        exact wiped tag
    · have apart : ¬ (state.load piter ≠ spec.pageError ∧ state.load piter = spec.add start bytes) := by
        rintro ⟨_, same⟩
        exact touch (stop.symm.trans (same.symm.trans here))
      rw [if_neg apart, joinNext_gap _ touch]
      exact plain (joinNext_gap _ touch rest)

/-- The freed range is joined with the range before it and with the one that it reaches. -/
lemma Listed.freePrev (listed : Listed spec state zone (front ++ prev :: back))
    (arranged : Arranged spec zone (front ++ prev :: back)) (real : zone < spec.realCount)
    (fits : Fits spec zone ⟨start, bytes, attr⟩) (touch : prev.stop = start)
    (above : ∀ range ∈ back, start + bytes ≤ range.start) {after : PageState}
    (extended : after = state.extendPrev spec prev.start
      (state.page prev.start).pFree.pNext bytes attr) :
    Joined spec state after zone (front ++ prev :: back)
      (front ++ joinNext and (merge and prev ⟨start, bytes, attr⟩) back) := by
  obtain ⟨_, _, tail⟩ := listed.middle
  obtain ⟨size, tag⟩ := listed.headers prev (by simp)
  have bounded : start + bytes < 2 ^ spec.bits := fits.bounded real
  have aligned : pageSize ∣ start + bytes := fits.stop_aligned
  have distinct := arranged.apart.nodup
  obtain ⟨_, below, behind⟩ := apart_middle.mp arranged.apart
  unfold Range.stop at touch below behind
  have grownSize : spec.add prev.size bytes = prev.size + bytes := add_of_lt (by omega)
  have grownEnd : spec.add prev.start (prev.size + bytes) = start + bytes := by
    rw [add_of_lt (by omega)]
    omega
  have inner : ∀ swallowed ∈ front ++ prev :: back, swallowed.start ≠ prev.start →
      ¬ (prev.start ≤ swallowed.start ∧ swallowed.start < start + bytes) := by
    intro swallowed mem differs inside
    rcases mem_append.mp mem with low | high
    · have := below swallowed low
      omega
    · rcases mem_cons.mp high with rfl | high
      · exact differs rfl
      · have := above swallowed high
        omega
  obtain ⟨grown, grown_eq⟩ : ∃ grown,
    grown = state.setFree prev.start ⟨(state.page prev.start).pFree.pNext,
    (state.page prev.start).pFree.pSelf, prev.size + bytes, prev.tag && attr⟩ := ⟨_, rfl⟩
  have grownListed := listed.resize distinct (prev.size + bytes) (prev.tag && attr)
  have grownEdits : Edits state grown zone ((front ++ prev :: back).map Range.start) := by
    rw [grown_eq]
    exact edits_setFree _ (by simp)
  have grownPage : (grown.page prev.start).pFree = ⟨(state.page prev.start).pFree.pNext,
      (state.page prev.start).pFree.pSelf, prev.size + bytes, prev.tag && attr⟩ := by
        rw [grown_eq, setFree_page_self]
  rw [← grown_eq] at grownListed
  -- Without a touch the range only grows.
  have plain : start + bytes ≠ (state.page prev.start).pFree.pNext →
      Joined spec state after zone (front ++ prev :: back)
        (front ++ merge and prev ⟨start, bytes, attr⟩ :: back) := by
    intro gap
    have stored : after = grown := by
      rw [extended]
      unfold PageState.extendPrev pageEnd
      simp only [size, tag, grownSize, ← grown_eq, grownPage, grownEnd]
      exact if_neg gap
    rw [stored]
    refine Joined.of_merged arranged grownListed (grownEdits.mono fun _ => mem_append_left _)
      (fun range mem => ?_) fun _ swallowed mem has differs => ?_
    · exact mem_append.mpr ((mem_append.mp mem).imp_right (mem_cons_of_mem _))
    · have reach : prev.start ≤ swallowed.start ∧
        swallowed.start < prev.start + (prev.size + bytes) := has
      exact absurd ⟨reach.1, by omega⟩ (inner swallowed mem differs)
  cases back with
  | nil =>
    have ends : (state.page prev.start).pFree.pNext = spec.pageError := pointer_eq_none tail
    exact plain (by rw [ends]; exact aligned_ne_pageError aligned)
  | cons next rest =>
    obtain ⟨here, _⟩ := pointer_eq_some tail.1
    by_cases reaches : (merge and prev ⟨start, bytes, attr⟩).stop = next.start
    · have sum : prev.start + (prev.size + bytes) = next.start := reaches
      have nextFits := arranged.fits next (by simp)
      have nextBounded := nextFits.bounded real
      have mergedSize : spec.add (prev.size + bytes) next.size = prev.size + bytes + next.size :=
        add_of_lt (by omega)
      rw [joinNext_touch _ reaches]
      obtain ⟨nextSize, nextTag⟩ := grownListed.headers next (by simp)
      obtain ⟨merged, merged_eq⟩ : ∃ merged,
        merged = (grown.setFree prev.start ⟨(grown.page next.start).pFree.pNext,
        (grown.page prev.start).pFree.pSelf, prev.size + bytes + next.size,
          prev.tag && attr && next.tag⟩).adopt spec
          (grown.page next.start).pFree.pNext (.next prev.start) := ⟨_, rfl⟩
      obtain ⟨mergedListed, mergedEdits⟩ := grownListed.mergeNext (by simpa using distinct) merged_eq
      have stored : after =
          if prev.tag && attr && next.tag then merged.clearHeader next.start else merged := by
        have mergedAttr : (merged.page prev.start).pFree.pAttr = (prev.tag && attr && next.tag) := by
          rw [merged_eq, adopt_attr, setFree_page_self]
        rw [here] at grown_eq grownPage
        rw [grownPage] at merged_eq
        rw [extended]
        unfold PageState.extendPrev pageEnd
        simp only [size, tag, grownSize, ← grown_eq, grownPage, grownEnd, here, nextSize, nextTag,
          mergedSize, ← merged_eq, mergedAttr]
        exact if_pos (by omega)
      rw [stored]
      have absent : next.start ∉ (front ++ ⟨prev.start, prev.size + bytes + next.size,
        prev.tag && attr && next.tag⟩ ::
          rest).map Range.start := by
        have swapped := distinct
        rw [append_cons, map_append, map_cons, nodup_middle, nodup_cons] at swapped
        simpa using swapped.1
      have edits : Edits state merged zone ((front ++ prev :: next :: rest).map Range.start) := by
        refine grownEdits.trans (mergedEdits.mono fun page mem => ?_)
        simpa using mem
      refine Joined.of_merged arranged (mergedListed.wiped absent _)
        ((edits.mono fun _ => mem_append_left _).wiped (by simp) _)
        (fun range mem => ?_) fun wipes swallowed mem has differs => ?_
      · rcases mem_append.mp mem with low | high
        · exact mem_append_left _ low
        · exact mem_append_right _ (mem_cons_of_mem _ (mem_cons_of_mem _ high))
      · have reach : prev.start ≤ swallowed.start ∧
          swallowed.start < prev.start + (prev.size + bytes + next.size) := has
        have away := inner swallowed mem differs
        have inside : next.Has swallowed.start := ⟨by omega, by unfold Range.stop; omega⟩
        rw [arranged.apart.unique mem (by simp) (arranged.has_start mem) inside,
          show (prev.tag && attr && next.tag) = true from wipes, if_pos rfl, clearHeader,
            setFree_page_self]
    · rw [joinNext_gap _ reaches]
      have gap : prev.start + (prev.size + bytes) ≠ next.start := reaches
      exact plain (by omega)

/-- A range that does not overlap the list is joined in. -/
lemma Listed.freeRange {ranges : List PageRange} (listed : Listed spec state zone ranges)
    (arranged : Arranged spec zone ranges) (real : zone < spec.realCount)
    (fits : Fits spec zone ⟨start, bytes, attr⟩)
    (outside : ∀ range ∈ ranges, range.stop ≤ start ∨ start + bytes ≤ range.start) :
    ∃ after front back, ranges = front ++ back ∧ (∀ range ∈ front, range.stop ≤ start) ∧
      (∀ range ∈ back, start + bytes ≤ range.start) ∧
      state.freeRange spec zone start bytes attr = some after ∧
      Joined spec state after zone ranges (joinIn and front ⟨start, bytes, attr⟩ back) := by
  obtain ⟨front, back, rfl, below, above⟩ := arranged.apart.split outside
  have ends : ∀ range ∈ front ++ back, state.pageEnd spec range.start = range.stop := by
    intro range mem
    rw [pageEnd, (listed.headers range mem).1]
    exact add_of_lt ((arranged.fits range mem).bounded real)
  have short : front.length < spec.fuel := by
    have counted := arranged.short real
    rw [length_append] at counted
    omega
  have later : ∀ range ∈ back, start < range.stop := by
    intro range mem
    have := above range mem
    have := (arranged.fits range (by simp [mem])).filled
    unfold Range.stop
    omega
  have walked := walkFree_eq listed.chain ends below later short
  unfold PageState.freeRange
  rw [walked]
  rcases eq_nil_or_concat front with rfl | ⟨init, prev, rfl⟩
  · exact ⟨_, [], back, rfl, below, above, rfl, listed.freeBehind arranged real fits (by simp) above rfl⟩
  rw [concat_eq_append] at *
  have behind : last (.head zone) ((init ++ [prev]).map Range.start) = .next prev.start := by
    rw [map_append, last_append]
    rfl
  refine ⟨_, init ++ [prev], back, rfl, below, above, by rw [Option.map_some], ?_⟩
  rw [behind, joinIn_concat]
  simp only [ends prev (by simp)]
  by_cases touch : prev.stop = start
  · rw [if_pos touch, if_pos touch]
    rw [append_assoc] at listed arranged ⊢
    exact listed.freePrev arranged real fits touch above rfl
  rw [if_neg touch, if_neg touch, append_cons init prev (joinNext and _ back)]
  refine listed.freeBehind arranged real fits (fun range mem => ?_) above behind.symm
  rcases mem_append.mp mem with low | same
  · rw [append_assoc] at arranged
    have gap := (apart_middle.mp arranged.apart).2.1 range low
    have := below prev (by simp)
    unfold Range.stop at *
    omega
  · obtain rfl : range = prev := by simpa using same
    exact lt_of_le_of_ne (below range (by simp)) touch

end Join

end PageState

end KosKernel.Memory
