import KosKernel.Memory.PageSets

namespace KosKernel.Memory
open LinkList FreeRanges List MZoneSpec
namespace PageState

section Zones
variable {Result : Type}

/-- The zones are tried until one gives a result. -/
lemma tryZones_cases {attempt : Nat → Option (Option Result)} {zone : Nat} {Fails : Nat → Prop}
    {Finds : Nat → Result → Prop}
    (attempts : ∀ other ≤ zone, ∃ outcome, attempt other = some outcome ∧
      ((outcome = none ∧ Fails other) ∨ ∃ result, outcome = some result ∧ Finds other result)) :
    (tryZones attempt zone = some none ∧ ∀ other ≤ zone, Fails other) ∨
      ∃ other ≤ zone, ∃ result, tryZones attempt zone = some (some result) ∧ Finds other result ∧
        ∀ above, other < above → above ≤ zone → Fails above := by
  induction zone with
  | zero =>
    obtain ⟨_, here, ⟨rfl, fails⟩ | ⟨result, rfl, finds⟩⟩ := attempts 0 le_rfl
    · exact .inl ⟨here, fun other small => by rwa [Nat.le_zero.mp small]⟩
    · exact .inr ⟨0, le_rfl, result, here, finds, fun above greater small => by omega⟩
  | succ zone ih =>
    rw [tryZones]
    obtain ⟨_, here, ⟨rfl, fails⟩ | ⟨result, rfl, finds⟩⟩ := attempts (zone + 1) le_rfl
    · rw [here, Option.bind_some]
      have next {other : Nat} (small : other ≤ zone + 1) (below : other ≤ zone → Fails other) :
        Fails other :=
        (Nat.of_le_succ small).elim below (· ▸ fails)
      rcases ih fun other small => attempts other (by omega) with ⟨failed, all⟩ | ⟨other, small,
        result, reached, finds, above⟩
      · exact .inl ⟨failed, fun other small => next small (all other)⟩
      · exact .inr ⟨other,
          by omega, result, reached, finds, fun _ greater small => next small (above _ greater)⟩
    · exact .inr ⟨zone + 1, le_rfl, result,
        by rw [here]; rfl, finds, fun above greater small => by omega⟩

end Zones

section Search
variable {spec : MZoneSpec} {state : PageState} {zone bytes : Nat} {attr : Bool}
  {ranges : List PageRange}

/-- One turn of the search. -/
def pick (state : PageState) (bytes : Nat) (attr : Bool) (best : Nat × Nat)
    (range : PageRange) : Nat × Nat :=
  if range.size < bytes ∨ best.2 < range.size ∨
    (range.size = best.2 ∧ (state.page best.1).pFree.pAttr = attr) then best
  else (range.start, range.size)

lemma searchZone_chain {link : Link Nat} {fuel : Nat}
    (chain : Chain (state.links spec) link (ranges.map Range.start))
    (headers : ∀ range ∈ ranges, state.HasHeader range) (enough : ranges.length < fuel)
    (best : Nat × Nat) :
    state.searchZone spec bytes attr fuel (state.load link) best =
      some (ranges.foldl (pick state bytes attr) best) := by
  induction ranges generalizing link fuel best with
  | nil =>
    obtain _ | turns := fuel
    · omega
    have ends : state.load link = spec.pageError := pointer_eq_none chain
    rw [searchZone, if_pos ends, foldl_nil]
  | cons range rest ih =>
    obtain _ | turns := fuel
    · omega
    obtain ⟨target, _, follows⟩ := chain
    obtain ⟨here, valid⟩ := pointer_eq_some target
    obtain ⟨size, _⟩ := headers range (by simp)
    have next : ∀ best, state.searchZone spec bytes attr turns
      (state.page range.start).pFree.pNext best =
        some (rest.foldl (pick state bytes attr) best) :=
      ih follows (fun other mem => headers other (by simp [mem])) (by simp at enough; omega)
    rw [searchZone, if_neg valid, foldl_cons, here]
    simp only [size, pick]
    split
    · exact next best
    · exact next (range.start, range.size)

lemma Listed.searchZone (listed : Listed spec state zone ranges) (arranged : Arranged spec zone ranges)
    (real : zone < spec.realCount) (best : Nat × Nat) :
    state.searchZone spec bytes attr spec.fuel (state.zone zone).zRoot best =
      some (ranges.foldl (pick state bytes attr) best) :=
  searchZone_chain listed.chain listed.headers (arranged.short real) best

/-- A search ends with the old candidate or with a sufficient range, whichever is the smallest. -/
lemma foldl_pick_cases (ranges : List PageRange) (best : Nat × Nat) :
    (ranges.foldl (pick state bytes attr) best = best ∧ ∀ rival ∈ ranges, bytes ≤ rival.size →
      best.2 ≤ rival.size) ∨
      ∃ range ∈ ranges, ranges.foldl (pick state bytes attr) best = (range.start, range.size) ∧
      bytes ≤ range.size ∧
        range.size ≤ best.2 ∧ ∀ rival ∈ ranges, bytes ≤ rival.size → range.size ≤ rival.size := by
  induction ranges generalizing best with
  | nil => exact .inl ⟨rfl, fun rival mem => absurd mem not_mem_nil⟩
  | cons range rest ih =>
    rw [foldl_cons]
    have step : (pick state bytes attr best range = best ∧ (bytes ≤ range.size → best.2 ≤ range.size)) ∨
        (pick state bytes attr best range = (range.start, range.size) ∧ bytes ≤ range.size ∧
          range.size ≤ best.2) := by
      unfold pick
      split
      · exact .inl ⟨rfl, by omega⟩
      · exact .inr ⟨rfl, by omega, by omega⟩
    rcases step with ⟨kept, first⟩ | ⟨chosen, fits, first⟩
    · rw [kept]
      rcases ih best with ⟨same, least⟩ | ⟨other, mem, found, otherFits, below, least⟩
      · exact .inl ⟨same, forall_mem_cons.mpr ⟨first, least⟩⟩
      · refine .inr ⟨other, mem_cons_of_mem range mem, found, otherFits, below,
          forall_mem_cons.mpr ⟨?_, least⟩⟩
        exact fun enough => below.trans (first enough)
    · rw [chosen]
      rcases ih (range.start, range.size) with ⟨same, least⟩ | ⟨other, mem, found,
        otherFits, below, least⟩
      · exact .inr ⟨range, mem_cons_self, same, fits, first,
          forall_mem_cons.mpr ⟨fun _ => Nat.le_refl _, least⟩⟩
      · exact .inr ⟨other, mem_cons_of_mem range mem, found, otherFits, below.trans first,
          forall_mem_cons.mpr ⟨fun _ => below, least⟩⟩

end Search

section Scan
variable {spec : MZoneSpec} {state : PageState} {zone min max bytes : Nat} {ranges : List PageRange}

/-- A range from which the scan of `page_malloc_in` can take. -/
def Candidate (spec : MZoneSpec) (min max bytes : Nat) (range : PageRange) : Prop :=
  range.start ≤ max ∧ min < range.stop ∧ bytes ≤ range.size ∧
    bytes ≤ spec.sub (if spec.add max bytes < range.stop then spec.add max bytes else range.stop) min

/-- The scan finds a candidate if the list has one that is smaller than the best one so far. -/
lemma scanZone_chain {link : Link Nat} {fuel : Nat}
    (chain : Chain (state.links spec) link (ranges.map Range.start))
    (headers : ∀ range ∈ ranges, state.HasHeader range) (apart : Apart ranges)
    (bounded : ∀ range ∈ ranges, range.start + range.size < 2 ^ spec.bits)
    (enough : ranges.length < fuel) (best : Nat × Nat) :
    ∃ found, state.scanZone spec min max bytes fuel (state.load link) best = some found ∧
      ((found = best ∧ ∀ range ∈ ranges, Candidate spec min max bytes range → best.2 ≤ range.size) ∨
        ∃ range ∈ ranges, found.1 = range.start ∧ Candidate spec min max bytes range) := by
  induction ranges generalizing link fuel best with
  | nil =>
    obtain _ | turns := fuel
    · omega
    have ends : state.load link = spec.pageError := pointer_eq_none chain
    exact ⟨best, by rw [scanZone, if_pos (.inl ends)], .inl ⟨rfl,
      fun range mem => absurd mem not_mem_nil⟩⟩
  | cons range rest ih =>
    obtain _ | turns := fuel
    · omega
    obtain ⟨target, _, follows⟩ := chain
    obtain ⟨here, valid⟩ := pointer_eq_some target
    obtain ⟨size, _⟩ := headers range (by simp)
    obtain ⟨gaps, restApart⟩ := pairwise_cons.mp apart
    have stop : spec.add range.start range.size = range.stop := add_of_lt (bounded range (by simp))
    have short : rest.length < turns := by
      simp at enough
      omega
    have rest_scan := fun candidate =>
      ih follows (fun other mem => headers other (by simp [mem])) restApart
      (fun other mem => bounded other (by simp [mem])) short candidate
    -- The rest of the scan keeps the candidate or finds another one.
    have skip : (Candidate spec min max bytes range → best.2 ≤ range.size) →
        ∃ found, state.scanZone spec min max bytes turns (state.page range.start).pFree.pNext best =
          some found ∧
          ((found = best ∧ ∀ other ∈ range :: rest, Candidate spec min max bytes other →
            best.2 ≤ other.size) ∨
            ∃ other ∈ range :: rest, found.1 = other.start ∧ Candidate spec min max bytes other) := by
      intro passed
      obtain ⟨found, reached, ⟨same, least⟩ | ⟨other, mem, same, fits⟩⟩ := rest_scan best
      · exact ⟨found, reached, .inl ⟨same, forall_mem_cons.mpr ⟨passed, least⟩⟩⟩
      · exact ⟨found, reached, .inr ⟨other, mem_cons_of_mem range mem, same, fits⟩⟩
    have take : ∀ room, Candidate spec min max bytes range →
        ∃ found, state.scanZone spec min max bytes turns (state.page range.start).pFree.pNext
          (range.start, room) = some found ∧
          ∃ other ∈ range :: rest, found.1 = other.start ∧ Candidate spec min max bytes other := by
      intro room candidate
      obtain ⟨found, reached, ⟨rfl, _⟩ | ⟨other, mem, same, fits⟩⟩ := rest_scan (range.start, room)
      · exact ⟨_, reached, range, mem_cons_self, rfl, candidate⟩
      · exact ⟨found, reached, other, mem_cons_of_mem range mem, same, fits⟩
    rw [scanZone, here]
    rw [here] at valid
    by_cases past : max < range.start
    · refine ⟨best, if_pos (.inr past), .inl ⟨rfl, fun other mem candidate => absurd candidate.1 ?_⟩⟩
      rcases mem_cons.mp mem with rfl | mem
      · omega
      · have := gaps other mem
        unfold Range.stop at this
        omega
    · rw [if_neg (by simp [valid, past])]
      simp only [size, stop]
      obtain ⟨reach, reach_eq⟩ : ∃ reach,
        spec.sub (if spec.add max bytes < range.stop then spec.add max bytes else range.stop) min =
          reach := ⟨_, rfl⟩
      have candidate_iff : Candidate spec min max bytes range ↔ min < range.stop ∧
        bytes ≤ range.size ∧ bytes ≤ reach := by
        unfold Candidate
        rw [reach_eq]
        exact and_iff_right (Nat.le_of_not_lt past)
      rw [reach_eq]
      obtain ⟨room, room_eq⟩ : ∃ room, (if range.size < reach then range.size else reach) = room :=
        ⟨_, rfl⟩
      have room_le : room ≤ range.size ∧ room ≤ reach ∧
        (bytes ≤ range.size → bytes ≤ reach → bytes ≤ room) := by
        split at room_eq <;> omega
      rw [room_eq]
      by_cases before : range.stop ≤ min
      · rw [if_pos before]
        exact skip fun candidate => absurd (candidate_iff.mp candidate).1 (Nat.not_lt.mpr before)
      rw [if_neg before]
      by_cases small : room < bytes
      · rw [if_pos small]
        refine skip fun candidate => ?_
        obtain ⟨_, fits, reaches⟩ := candidate_iff.mp candidate
        exact absurd (room_le.2.2 fits reaches) (Nat.not_le.mpr small)
      · rw [if_neg small]
        have candidate : Candidate spec min max bytes range := candidate_iff.mpr (by omega)
        by_cases better : room < best.2
        · rw [if_pos better]
          split
          · exact ⟨_, rfl, .inr ⟨range, by simp, rfl, candidate⟩⟩
          · obtain ⟨found, reached, other⟩ := take room candidate
            exact ⟨found, reached, .inr other⟩
        · rw [if_neg better]
          exact skip fun _ => (Nat.le_of_not_lt better).trans room_le.1

end Scan

section Candidates
variable {spec : MZoneSpec} {low high bytes : Nat} {range : PageRange}

/-- With ordered bounds the chosen part lies between them and inside the range. -/
lemma Candidate.ordered (candidate : Candidate spec low high bytes range) (order : low ≤ high)
    (fits : high + bytes < 2 ^ spec.bits) (bounded : range.stop < 2 ^ spec.bits) :
    low ≤ min high (range.start + (range.size - bytes)) ∧
    range.start ≤ min high (range.start + (range.size - bytes)) ∧
      min high (range.start + (range.size - bytes)) + bytes ≤ range.stop := by
  obtain ⟨first, last, size, reach⟩ := candidate
  rw [add_of_lt fits] at reach
  unfold Range.stop at *
  split at reach
  · omega
  · rw [sub_of_le (by omega) bounded] at reach
    omega

/-- A block of a range between the bounds makes the range a candidate. -/
lemma Candidate.of_block {address : Nat} (lower : low ≤ address) (upper : address ≤ high)
    (filled : 0 < bytes)
    (first : range.start ≤ address) (last : address + bytes ≤ range.stop)
    (fits : high + bytes < 2 ^ spec.bits)
    (bounded : range.stop < 2 ^ spec.bits) : Candidate spec low high bytes range := by
  refine ⟨by omega, by omega, by unfold Range.stop at last; omega, ?_⟩
  rw [add_of_lt fits]
  split
  · rw [sub_of_le (by omega) fits]
    omega
  · rw [sub_of_le (by omega) bounded]
    omega

/-- With bounds in the wrong order a range that holds both of them is a candidate. -/
lemma Candidate.inverted (order : high < low) (word : low < 2 ^ spec.bits)
    (fits : high + bytes < 2 ^ spec.bits) (bounded : range.stop < 2 ^ spec.bits) :
    Candidate spec low high bytes range ↔ high + bytes < low ∧ range.start ≤ high ∧
    low < range.stop := by
  unfold Candidate
  rw [add_of_lt fits]
  constructor
  · rintro ⟨first, last, size, reach⟩
    refine ⟨Nat.lt_of_not_le fun near => ?_, first, last⟩
    split at reach
    · rw [sub_of_le near fits] at reach
      omega
    · rw [sub_of_le (by omega) bounded] at reach
      omega
  · rintro ⟨far, first, last⟩
    refine ⟨first, last, by unfold Range.stop at last; omega, ?_⟩
    rw [if_pos (by omega), sub, Nat.mod_eq_of_lt (by omega)]
    omega

end Candidates

end PageState

end KosKernel.Memory
