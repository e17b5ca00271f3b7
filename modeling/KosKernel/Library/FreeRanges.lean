import Mathlib.Tactic

namespace FreeRanges
open List

/-- A range of addresses with a tag. -/
structure Range (Tag : Type) where
  start : Nat
  size : Nat
  tag : Tag
  deriving DecidableEq

variable {Tag : Type} (range : Range Tag)

def Range.stop : Nat := range.start + range.size

/-- The range contains the address. -/
def Range.Has (address : Nat) : Prop := range.start ≤ address ∧ address < range.stop

instance (range : Range Tag) (address : Nat) : Decidable (range.Has address) :=
  inferInstanceAs (Decidable (_ ∧ _))

variable (ranges : List (Range Tag))

/-- Some range of the list contains the address. -/
def Covered (address : Nat) : Prop := ∃ range ∈ ranges, range.Has address

/-- The ranges ascend with a gap between any two. -/
def Apart : Prop := ranges.Pairwise fun first second => first.stop < second.start

/-- The number of addresses in the list. -/
def total : Nat := (ranges.map Range.size).sum

@[simp] lemma covered_nil (address : Nat) : ¬ Covered ([] : List (Range Tag)) address :=
  by simp [Covered]

@[simp] lemma covered_cons (ranges : List (Range Tag)) (address : Nat) :
    Covered (range :: ranges) address ↔ range.Has address ∨ Covered ranges address := by simp [Covered]

@[simp] lemma covered_append (front back : List (Range Tag)) (address : Nat) :
    Covered (front ++ back) address ↔ Covered front address ∨ Covered back address := by
  simp [Covered, or_and_right, exists_or]

/-- A list with a range in the middle has everything else at a distance. -/
lemma apart_middle {front back : List (Range Tag)} {range : Range Tag} :
    Apart (front ++ range :: back) ↔ Apart (front ++ back) ∧
    (∀ other ∈ front, other.stop < range.start) ∧
      ∀ other ∈ back, range.stop < other.start := by
  simp only [Apart, pairwise_append, pairwise_cons, mem_cons]
  constructor
  · rintro ⟨frontApart, ⟨above, backApart⟩, cross⟩
    exact ⟨⟨frontApart, backApart, fun low lower high upper => cross low lower high (.inr upper)⟩,
      fun low lower => cross low lower range (.inl rfl), above⟩
  · rintro ⟨⟨frontApart, backApart, cross⟩, below, above⟩
    refine ⟨frontApart, ⟨above, backApart⟩, fun low lower high upper => ?_⟩
    rcases upper with rfl | upper
    · exact below low lower
    · exact cross low lower high upper

variable {ranges : List (Range Tag)}

lemma Apart.nodup (apart : Apart ranges) : (ranges.map Range.start).Nodup := by
  refine List.Pairwise.map Range.start (fun first second gap => ?_) apart
  unfold Range.stop at gap
  omega

lemma Apart.length_le {bound : Nat} (apart : Apart ranges)
    (bounded : ∀ range ∈ ranges, range.start < bound) :
    ranges.length ≤ bound := by
  have subset : ranges.map Range.start ⊆ List.range bound := by
    intro start mem
    obtain ⟨range, inside, rfl⟩ := mem_map.mp mem
    exact mem_range.mpr (bounded range inside)
  simpa using (subperm_of_subset apart.nodup subset).length_le

/-- Two ranges of the list that share an address are the same. -/
lemma Apart.unique (apart : Apart ranges) {first second : Range Tag} {address : Nat}
    (mem : first ∈ ranges)
    (other : second ∈ ranges) (has : first.Has address) (too : second.Has address) : first = second := by
  obtain ⟨front, back, rfl⟩ := append_of_mem mem
  obtain ⟨_, below, above⟩ := apart_middle.mp apart
  rcases mem_append.mp other with low | high
  · have := below second low
    unfold Range.Has at has too
    omega
  rcases mem_cons.mp high with rfl | high
  · rfl
  · have := above second high
    unfold Range.Has at has too
    omega

/-- A gap separates the ranges below it from those above. -/
lemma Apart.split {low high : Nat} (apart : Apart ranges)
    (outside : ∀ range ∈ ranges, range.stop ≤ low ∨ high ≤ range.start) :
    ∃ front back, ranges = front ++ back ∧ (∀ range ∈ front, range.stop ≤ low) ∧ ∀ range ∈ back,
      high ≤ range.start := by
  induction ranges with
  | nil => exact ⟨[], [], rfl, by simp, by simp⟩
  | cons range rest ih =>
    obtain ⟨gaps, restApart⟩ := pairwise_cons.mp apart
    rcases outside range (by simp) with below | above
    · obtain ⟨front, back, rfl, lower, upper⟩ :=
        ih restApart fun other mem => outside other (by simp [mem])
      exact ⟨range :: front, back, rfl, by simpa using ⟨below, lower⟩, upper⟩
    refine ⟨[], range :: rest, rfl, by simp, fun other mem => ?_⟩
    rcases mem_cons.mp mem with rfl | mem
    · exact above
    · have := gaps other mem
      unfold Range.stop at this
      omega

section Cut
variable {front back : List (Range Tag)} {range : Range Tag} {start count : Nat}

/-- What is left of a range below and above the part that is cut out. -/
def cutOut (range : Range Tag) (start count : Nat) : List (Range Tag) :=
  (if range.start < start then [⟨range.start, start - range.start, range.tag⟩] else []) ++
    if start + count < range.stop then [⟨start + count, range.stop - (start + count), range.tag⟩] else []

lemma cutOut_whole : cutOut range range.start range.size = [] := by simp [cutOut, Range.stop]

lemma cutOut_lower (less : count < range.size) :
    cutOut range range.start count = [⟨range.start + count, range.size - count, range.tag⟩] := by
  unfold cutOut Range.stop
  rw [if_neg (lt_irrefl _), if_pos (by omega), Nat.add_sub_add_left, nil_append]

lemma cutOut_upper (above : range.start < start) (reaches : start + count = range.stop) :
    cutOut range start count = [⟨range.start, start - range.start, range.tag⟩] := by
  simp [cutOut, above, reaches]

lemma cutOut_inner (above : range.start < start) (below : start + count < range.stop) :
    cutOut range start count =
    [⟨range.start, start - range.start, range.tag⟩,
      ⟨start + count, range.stop - (start + count), range.tag⟩] := by
  simp [cutOut, above, below]

lemma mem_cutOut {part : Range Tag} (mem : part ∈ cutOut range start count) (lower : range.start ≤ start)
    (upper : start + count ≤ range.stop) :
    range.start ≤ part.start ∧ part.stop ≤ range.stop ∧ 0 < part.size ∧ part.tag = range.tag := by
  simp only [cutOut, mem_append] at mem
  rcases mem with mem | mem <;> split at mem <;> simp only [mem_singleton, not_mem_nil] at mem
  all_goals
    subst mem
    simp only [Range.stop, and_true] at *
    omega

lemma covered_cutOut (lower : range.start ≤ start) (upper : start + count ≤ range.stop) (address : Nat) :
    Covered (cutOut range start count) address ↔ range.Has address ∧
    ¬ (start ≤ address ∧ address < start + count) := by
  unfold Range.stop at *
  have low : Covered (if range.start < start then
      [⟨range.start, start - range.start, range.tag⟩] else []) address ↔
      range.start ≤ address ∧ address < start := by
    split <;> simp only [covered_cons, covered_nil, or_false, false_iff, Range.Has, Range.stop] <;> omega
  have high : Covered (if start + count < range.start + range.size then
        [⟨start + count, range.start + range.size - (start + count), range.tag⟩] else []) address ↔
      start + count ≤ address ∧ address < range.start + range.size := by
    split <;> simp only [covered_cons, covered_nil, or_false, false_iff, Range.Has, Range.stop] <;> omega
  rw [cutOut, Range.stop, covered_append, low, high, Range.Has, Range.stop]
  omega

section
variable (apart : Apart (front ++ range :: back)) (lower : range.start ≤ start)
  (upper : start + count ≤ range.stop)
include apart lower upper

/-- A part cut out of the middle leaves the list apart. -/
lemma apart_cutOut (filled : 0 < count ∨ start = range.stop) :
    Apart (front ++ (cutOut range start count ++ back)) := by
  obtain ⟨others, below, above⟩ := apart_middle.mp apart
  have parts : Apart (cutOut range start count) := by
    rw [cutOut]
    by_cases lowPart : range.start < start <;> by_cases highPart : start + count < range.stop
    · rw [if_pos lowPart, if_pos highPart]
      refine pairwise_pair.mpr ?_
      simp only [Range.stop] at *
      omega
    · rw [if_pos lowPart, if_neg highPart]
      exact pairwise_singleton _ _
    · rw [if_neg lowPart, if_pos highPart]
      exact pairwise_singleton _ _
    · rw [if_neg lowPart, if_neg highPart]
      exact List.Pairwise.nil
  obtain ⟨frontApart, backApart, cross⟩ := pairwise_append.mp others
  refine pairwise_append.mpr ⟨frontApart, pairwise_append.mpr ⟨parts, backApart, ?_⟩, ?_⟩
  · intro part mem other upperMember
    have bounds := mem_cutOut mem lower upper
    have gap := above other upperMember
    omega
  · intro other lowerMember part mem
    rcases mem_append.mp mem with mem | mem
    · have bounds := mem_cutOut mem lower upper
      have gap := below other lowerMember
      omega
    · exact cross other lowerMember part mem

/-- Exactly the part that is cut out is no longer covered. -/
lemma covered_cut (address : Nat) : Covered (front ++ (cutOut range start count ++ back)) address ↔
    Covered (front ++ range :: back) address ∧ ¬ (start ≤ address ∧ address < start + count) := by
  obtain ⟨_, below, above⟩ := apart_middle.mp apart
  have frontAway : Covered front address → ¬ (start ≤ address ∧ address < start + count) := by
    rintro ⟨other, mem, has⟩
    have gap := below other mem
    simp only [Range.Has, Range.stop] at *
    omega
  have backAway : Covered back address → ¬ (start ≤ address ∧ address < start + count) := by
    rintro ⟨other, mem, has⟩
    have gap := above other mem
    simp only [Range.Has, Range.stop] at *
    omega
  rw [covered_append, covered_append, covered_cutOut lower upper, covered_append, covered_cons]
  constructor
  · rintro (low | ⟨has, outside⟩ | high)
    · exact ⟨.inl low, frontAway low⟩
    · exact ⟨.inr (.inl has), outside⟩
    · exact ⟨.inr (.inr high), backAway high⟩
  · rintro ⟨low | has | high, outside⟩
    · exact .inl low
    · exact .inr (.inl ⟨has, outside⟩)
    · exact .inr (.inr high)

end

end Cut

section Join
variable (meet : Tag → Tag → Tag) {front back : List (Range Tag)} {range : Range Tag}

/-- Two ranges that touch become one. -/
def merge (first second : Range Tag) : Range Tag :=
  ⟨first.start, first.size + second.size, meet first.tag second.tag⟩

/-- A range is merged with the next one when they touch. -/
def joinNext (range : Range Tag) : List (Range Tag) → List (Range Tag)
  | [] => [range]
  | next :: rest =>
    if range.stop = next.start then merge meet range next :: rest else range :: next :: rest

lemma joinNext_touch {range next : Range Tag} (touch : range.stop = next.start)
    (rest : List (Range Tag)) :
    joinNext meet range (next :: rest) = merge meet range next :: rest := if_pos touch

lemma joinNext_gap {range next : Range Tag} (gap : range.stop ≠ next.start) (rest : List (Range Tag)) :
    joinNext meet range (next :: rest) = range :: next :: rest := if_neg gap

/-- A range is merged with the neighbours that it touches. -/
def joinIn (front : List (Range Tag)) (range : Range Tag) (back : List (Range Tag)) : List (Range Tag) :=
  match front.getLast? with
  | none => joinNext meet range back
  | some prev =>
    if prev.stop = range.start then front.dropLast ++ joinNext meet (merge meet prev range) back
    else front ++ joinNext meet range back

@[simp] lemma joinIn_nil (range : Range Tag) (back : List (Range Tag)) :
    joinIn meet [] range back = joinNext meet range back := rfl

lemma joinIn_concat (init : List (Range Tag)) (prev range : Range Tag) (back : List (Range Tag)) :
    joinIn meet (init ++ [prev]) range back = if prev.stop = range.start then init ++ joinNext meet
      (merge meet prev range) back
      else init ++ prev :: joinNext meet range back := by
  simp [joinIn]

lemma covered_joinNext (range : Range Tag) (back : List (Range Tag)) (address : Nat) :
    Covered (joinNext meet range back) address ↔ range.Has address ∨ Covered back address := by
  cases back with
  | nil => simp [joinNext]
  | cons next rest =>
    rw [joinNext]
    split
    · rename_i touch
      simp only [covered_cons, ← or_assoc]
      refine or_congr_left ?_
      simp only [merge, Range.Has, Range.stop] at *
      omega
    · simp

/-- Exactly the new range is covered in addition. -/
lemma covered_joinIn (front : List (Range Tag)) (range : Range Tag) (back : List (Range Tag))
    (address : Nat) :
    Covered (joinIn meet front range back) address ↔ Covered (front ++ back) address ∨
    range.Has address := by
  rcases eq_nil_or_concat front with rfl | ⟨init, prev, rfl⟩
  · rw [joinIn_nil, covered_joinNext, nil_append, or_comm]
  rw [concat_eq_append, joinIn_concat]
  split
  · rename_i touch
    have merged : (merge meet prev range).Has address ↔ prev.Has address ∨ range.Has address := by
      simp only [merge, Range.Has, Range.stop] at *
      omega
    simp [covered_append, covered_joinNext, covered_cons, merged, or_comm, or_left_comm]
  · simp [covered_append, covered_joinNext, covered_cons, or_assoc, or_comm, or_left_comm]

variable {meet}

lemma apart_joinNext (apart : Apart (front ++ back)) (below : ∀ other ∈ front, other.stop < range.start)
    (above : ∀ other ∈ back, range.stop ≤ other.start) : Apart (front ++ joinNext meet range back) := by
  cases back with
  | nil =>
    exact apart_middle.mpr ⟨apart, below, by simp⟩
  | cons next rest =>
    obtain ⟨others, nextBelow, nextAbove⟩ := apart_middle.mp apart
    rw [joinNext]
    split
    · rename_i touch
      refine apart_middle.mpr ⟨others, below, fun other mem => ?_⟩
      have gap := nextAbove other mem
      simp only [merge, Range.stop] at *
      omega
    · rename_i gap
      have first := above next (by simp)
      refine apart_middle.mpr ⟨apart, below, fun other mem => ?_⟩
      rcases mem_cons.mp mem with rfl | mem
      · omega
      · have := nextAbove other mem
        simp only [Range.stop] at *
        omega

/-- A range between the others is joined in without touching any. -/
lemma apart_joinIn (apart : Apart (front ++ back)) (below : ∀ other ∈ front, other.stop ≤ range.start)
    (above : ∀ other ∈ back, range.stop ≤ other.start) : Apart (joinIn meet front range back) := by
  rcases eq_nil_or_concat front with rfl | ⟨init, prev, rfl⟩
  · have none : ∀ other ∈ ([] : List (Range Tag)), other.stop < range.start := by simp
    exact apart_joinNext apart none above
  rw [concat_eq_append] at *
  rw [append_assoc] at apart
  obtain ⟨others, prevBelow, prevAbove⟩ := apart_middle.mp apart
  have order := below prev (by simp)
  rw [joinIn_concat]
  split
  · rename_i touch
    refine apart_joinNext others prevBelow fun other mem => ?_
    have gap := above other mem
    simp only [merge, Range.stop] at *
    omega
  · rename_i gap
    rw [append_cons]
    refine apart_joinNext (by simpa using apart) (fun other mem => ?_) above
    rcases mem_append.mp mem with mem | mem
    · have := prevBelow other mem
      simp only [Range.stop] at *
      omega
    · obtain rfl : other = prev := by simpa using mem
      omega

/-- A property that merged ranges inherit holds for the whole list. -/
lemma forall_joinNext {property : Range Tag → Prop}
    (closed : ∀ first second, property first → property second → first.stop = second.start →
      property (merge meet first second))
    (here : property range) (rest : ∀ other ∈ back, property other) (other : Range Tag)
    (mem : other ∈ joinNext meet range back) : property other := by
  cases back with
  | nil =>
    obtain rfl : other = range := by simpa [joinNext] using mem
    exact here
  | cons next back =>
    by_cases touch : range.stop = next.start
    · rw [joinNext_touch meet touch] at mem
      rcases mem_cons.mp mem with rfl | mem
      · exact closed range next here (rest next (by simp)) touch
      · exact rest other (by simp [mem])
    · rw [joinNext_gap meet touch] at mem
      rcases mem_cons.mp mem with rfl | mem
      · exact here
      · exact rest other mem

lemma forall_joinIn (property : Range Tag → Prop)
    (closed : ∀ first second, property first → property second → first.stop = second.start →
      property (merge meet first second))
    (lower : ∀ other ∈ front, property other) (here : property range)
    (upper : ∀ other ∈ back, property other)
    (other : Range Tag) (mem : other ∈ joinIn meet front range back) : property other := by
  rcases eq_nil_or_concat front with rfl | ⟨init, prev, rfl⟩
  · exact forall_joinNext closed here upper other mem
  rw [concat_eq_append] at *
  rw [joinIn_concat] at mem
  have last := lower prev (by simp)
  split at mem
  · rename_i touch
    rcases mem_append.mp mem with low | high
    · exact lower other (by simp [low])
    · exact forall_joinNext closed (closed prev range last here touch) upper other high
  · rcases mem_append.mp mem with low | high
    · exact lower other (by simp [low])
    · rcases mem_cons.mp high with rfl | high
      · exact last
      · exact forall_joinNext closed here upper other high

/-- Each address of a joined range comes from a range whose tag is at least as good. -/
lemma origin_joinIn (good : Tag → Prop) (weaker : ∀ first second, good (meet first second) →
    good first ∧ good second)
    {joined : Range Tag} (mem : joined ∈ joinIn meet front range back)
    (tag : good joined.tag) {address : Nat} (has : joined.Has address) :
    ∃ origin, (origin ∈ front ++ back ∨ origin = range) ∧ origin.Has address ∧ good origin.tag := by
  refine forall_joinIn (fun joined => good joined.tag → joined.Has address →
    ∃ origin, (origin ∈ front ++ back ∨ origin = range) ∧ origin.Has address ∧
      good origin.tag) ?_ ?_ ?_ ?_ joined mem tag has
  · intro first second firstOrigin secondOrigin touch tag has
    have tags := weaker _ _ tag
    by_cases low : address < first.stop
    · exact firstOrigin tags.1 ⟨has.1, low⟩
    · have reach := has.2
      simp only [Range.stop, merge] at reach touch low
      exact secondOrigin tags.2 ⟨by omega, by unfold Range.stop; omega⟩
  · exact fun other low tag has => ⟨other, .inl (mem_append_left _ low), has, tag⟩
  · exact fun tag has => ⟨range, .inr rfl, has, tag⟩
  · exact fun other high tag has => ⟨other, .inl (mem_append_right _ high), has, tag⟩

end Join

end FreeRanges
