import KosKernel.Fs.FileLock
import KosKernel.Library.Cover

namespace KosKernel.Fs.FileLock
open Cover List
variable {bits : Nat}

/-- The locks that a range gives to each position. -/
def rangeLocks (range : LockRange bits) : Nat → BitVec bits :=
  cover range.lrStart range.lrSize range.lrLocks

/-- The lock count of each position. -/
def lockCount : List (LockRange bits) → Nat → BitVec bits
  | [] => 0
  | range :: rest => rangeLocks range + lockCount rest

/-- The ranges begin at the bound or above it, ascend and are not empty. -/
def Ascends : Nat → List (LockRange bits) → Prop
  | _, [] => True
  | bound, range :: rest => bound ≤ range.lrStart ∧ 0 < range.lrSize ∧ Ascends (rangeEnd range) rest

/-- The position behind the nearest range. -/
def lastEnd : List (LockRange bits) → Nat
  | [] => 0
  | range :: _ => rangeEnd range

/-- The ranges descend and are not empty. -/
def Descends : List (LockRange bits) → Prop
  | [] => True
  | range :: front => lastEnd front ≤ range.lrStart ∧ 0 < range.lrSize ∧ Descends front

lemma lastEnd_cons (range : LockRange bits) (front : List (LockRange bits)) :
    lastEnd (range :: front) = range.lrStart + range.lrSize := rfl

lemma lockCount_append (first second : List (LockRange bits)) :
    lockCount (first ++ second) = lockCount first + lockCount second := by
  induction first with
  | nil => exact (zero_add _).symm
  | cons range rest ih => rw [cons_append, lockCount, lockCount, ih, add_assoc]

lemma lockCount_reverse (ranges : List (LockRange bits)) :
    lockCount ranges.reverse = lockCount ranges := by
  induction ranges with
  | nil => rfl
  | cons range rest ih =>
    rw [reverse_cons, lockCount_append, ih, lockCount, lockCount, lockCount, add_zero, add_comm]

lemma Ascends.mono {bound lower : Nat} {ranges : List (LockRange bits)} (ascends : Ascends bound ranges)
    (below : lower ≤ bound) : Ascends lower ranges := by
  cases ranges with
  | nil => trivial
  | cons range rest => exact ⟨below.trans ascends.1, ascends.2⟩

variable {front rest : List (LockRange bits)} {position start size amount used start' size' used' : Nat}
  {range : LockRange bits} {flow : Flow bits} {prange prange' : Prange}

/-- The ranges before and behind a position make up one list. -/
lemma Descends.ascends (descends : Descends front) (ascends : Ascends (lastEnd front) rest) :
    Ascends 0 (front.reverse ++ rest) := by
  induction front generalizing rest with
  | nil => exact ascends
  | cons range front ih =>
    rw [reverse_cons, append_assoc]
    exact ih descends.2.2 ⟨descends.1, descends.2.1, ascends⟩

lemma Ascends.lockCount_eq_zero {bound : Nat} {ranges : List (LockRange bits)}
    (ascends : Ascends bound ranges)
    (below : position < bound) : lockCount ranges position = 0 := by
  induction ranges generalizing bound with
  | nil => rfl
  | cons range rest ih =>
    obtain ⟨lower, filled, upper⟩ := ascends
    rw [lockCount, Pi.add_apply, rangeLocks, cover_outside _ (.inl (by omega)), zero_add]
    exact ih upper (by unfold rangeEnd; omega)

lemma Descends.lockCount_eq_zero (descends : Descends front) (above : lastEnd front ≤ position) :
    lockCount front position = 0 := by
  induction front with
  | nil => rfl
  | cons range front ih =>
    obtain ⟨lower, filled, rest⟩ := descends
    rw [lockCount, Pi.add_apply, rangeLocks, cover_outside _ (.inr above), zero_add]
    exact ih rest (by rw [lastEnd_cons] at above; omega)

/-- The ranges before the nearest one do not reach over its start. -/
lemma Descends.rangeEnd_le {nearest prev : LockRange bits} {index : Nat}
    (descends : Descends (nearest :: front))
    (found : front[index]? = some prev) : rangeEnd prev ≤ nearest.lrStart := by
  induction front generalizing nearest index with
  | nil => exact absurd found (by simp)
  | cons second front ih =>
    obtain ⟨lower, _, rest⟩ := descends
    rw [lastEnd_cons] at lower
    cases index with
    | zero =>
      obtain rfl : second = prev := by simpa using found
      exact lower
    | succ index =>
      have deeper := ih rest (by simpa using found)
      omega

/-- A range has the locks of its positions. -/
lemma lockCount_at (descends : Descends front) (border : lastEnd front ≤ range.lrStart)
    (ascends : Ascends (rangeEnd range) rest) (lower : range.lrStart ≤ position)
    (upper : position < rangeEnd range) :
    (lockCount front + rangeLocks range + lockCount rest) position = range.lrLocks := by
  rw [Pi.add_apply, Pi.add_apply, descends.lockCount_eq_zero (border.trans lower),
    ascends.lockCount_eq_zero upper, rangeLocks, cover_inside _ lower upper, zero_add, add_zero]

/-- A walk adds a change to all positions, safely if no count becomes zero. -/
structure Walk (bits : Nat) where
  ranges : List (LockRange bits)
  start : Nat
  size : Nat
  change : BitVec bits
  omalloc : Nat → Bool
  safe : Prop
  total : Prop
  first : List (LockRange bits) → Nat → Nat → Nat
  entry : Cursor bits → Prop

/-- A range is split into two. -/
lemma rangeLocks_split {first second : Nat} {locks : BitVec bits} (parts : size = first + second) :
    rangeLocks ⟨start, size, locks⟩ = cover start first locks + cover (start + first) second locks := by
  rw [rangeLocks, parts, cover_split]

namespace Walk
variable (walk : Walk bits)

/-- The counts after the change up to a position. -/
def upTo (position : Nat) : Nat → BitVec bits :=
  lockCount walk.ranges + cover walk.start (position - walk.start) walk.change

/-- The first part of the request got its allocations. -/
def Paid : Prop := ∀ index < walk.first walk.ranges walk.start walk.size, walk.omalloc index = true

/-- Nothing is done yet, or the first part is done. -/
def Stage (rest : List (LockRange bits)) (start size used : Nat) : Prop :=
  (start = walk.start ∧ used = 0 ∧
    walk.first rest start size = walk.first walk.ranges walk.start walk.size) ∨
    (walk.start < start ∧ walk.Paid)

/-- The list is in order, and the counts are changed up to the position. -/
structure Sound (cursor : Cursor bits) (position : Nat) : Prop where
  descends : Descends cursor.front
  border : lastEnd cursor.front ≤ cursor.range.lrStart
  filled : 0 < cursor.range.lrSize
  ascends : Ascends (rangeEnd cursor.range) cursor.rest
  count : lockCount cursor.front + rangeLocks cursor.range + lockCount cursor.rest = walk.upTo position
  positive : walk.safe → ∀ range ∈ cursor.front ++ cursor.range :: cursor.rest, range.lrLocks ≠ 0

/-- The rest of the request is not empty. -/
structure Inv (cursor : Cursor bits) : Prop extends walk.Sound cursor cursor.start where
  begins : walk.start ≤ cursor.start
  ends : cursor.start + cursor.size = walk.start + walk.size
  more : 0 < cursor.size

/-- What holds between two ranges. -/
structure Passed (passed rest : List (LockRange bits)) (start size used : Nat) : Prop where
  descends : Descends passed
  below : lastEnd passed ≤ start
  ascends : Ascends (lastEnd passed) rest
  count : lockCount passed + lockCount rest = walk.upTo start
  positive : walk.safe → ∀ range ∈ passed ++ rest, range.lrLocks ≠ 0
  begins : walk.start ≤ start
  ends : start + size = walk.start + walk.size
  more : 0 < size
  stage : walk.Stage rest start size used

/-- What holds at a label. Each turn of the walk lowers the weight. -/
def Good (weight : Nat) : Flow bits → Prop
  | .stop true ranges => Ascends 0 ranges ∧ lockCount ranges = walk.upTo (walk.start + walk.size) ∧
      (walk.safe → ∀ range ∈ ranges, range.lrLocks ≠ 0)
  | .stop false ranges => (∃ index, walk.omalloc index = false) ∧ ∃ position, walk.start ≤ position ∧
      position < walk.start + walk.size ∧ lockCount ranges = walk.upTo position ∧
      (walk.start < position ↔ walk.Paid)
  | .next passed rest start size used =>
    walk.Passed passed rest start size used ∧ 2 * size + rest.length ≤ weight
  | .back self => walk.Inv self ∧ walk.Stage (self.range ::
      self.rest) self.start self.size self.used ∧ walk.entry self ∧
      2 * self.size + self.rest.length < weight
  | .crash => ¬ walk.total

variable {walk} {self : Cursor bits} {weight : Nat}

lemma Good.mono {larger : Nat} (good : walk.Good weight flow) (le : weight ≤ larger) :
    walk.Good larger flow := by
  cases flow with
  | stop result ranges => cases result <;> exact good
  | next passed rest start size used => exact ⟨good.1, good.2.trans le⟩
  | back self => exact ⟨good.1, good.2.1, good.2.2.1, Nat.lt_of_lt_of_le good.2.2.2 le⟩
  | crash => exact good

lemma Good.ite {condition : Prop} [Decidable condition] {yes no : Flow bits}
    (holds : condition → walk.Good weight yes)
    (fails : ¬ condition → walk.Good weight no) : walk.Good weight (if condition then yes else no) := by
  split
  · next met => exact holds met
  · next missed => exact fails missed

lemma upTo_add (begins : walk.start ≤ position) :
    walk.upTo (position + amount) = walk.upTo position + cover position amount walk.change := by
  unfold upTo
  rw [show position + amount - walk.start = (position - walk.start) + amount by
    omega, cover_split, add_assoc, show walk.start + (position - walk.start) = position by omega]

/-- A cursor between the labels holds the whole list. -/
lemma Sound.whole (sound : walk.Sound self position) :
    Ascends 0 self.ranges ∧ lockCount self.ranges = walk.upTo position ∧
    (walk.safe → ∀ range ∈ self.ranges, range.lrLocks ≠ 0) := by
  refine ⟨sound.descends.ascends ⟨sound.border, sound.filled, sound.ascends⟩, ?_, ?_⟩
  · rw [← sound.count, Cursor.ranges, lockCount_append, lockCount_reverse, lockCount, add_assoc]
  · intro safe range mem
    apply sound.positive safe
    simpa [Cursor.ranges] using mem

/-- The walk stops at the end of the request. -/
lemma Sound.stop (sound : walk.Sound self position) (done : position = walk.start + walk.size) :
    walk.Good weight (.stop true self.ranges) := by
  subst done
  exact sound.whole

section
variable (stage : walk.Stage rest start size used)
include stage

lemma Stage.paid (granted : ∀ index < walk.first rest start size, walk.omalloc (used + index) =
    true) : walk.Paid := by
  rcases stage with ⟨_, rfl, same⟩ | ⟨_, paid⟩
  · rw [same] at granted
    exact fun index small => by simpa using granted index small
  · exact paid

lemma Stage.paid_zero (none : walk.first rest start size = 0) : walk.Paid :=
  stage.paid fun index small => absurd small (by omega)

end

/-- A range that is passed allocates nothing. -/
lemma Stage.skip {list : List (LockRange bits)} (stage : walk.Stage list start size used)
    (same : walk.first list start size = walk.first rest start size) :
      walk.Stage rest start size used := by
  rwa [Stage, ← same]

section
variable (inv : walk.Inv self)
  (stage : walk.Stage (self.range :: self.rest) self.start self.size self.used)
include inv stage

/-- A refused allocation stops the walk where it stands. -/
lemma Inv.alloc (index : Nat)
    (needed : index < walk.first (self.range :: self.rest) self.start self.size)
    (granted : walk.omalloc (self.used + index) = true → walk.Good weight flow) :
    walk.Good weight (if walk.omalloc (self.used + index) then flow else .stop false self.ranges) := by
  have more := inv.more
  have ends := inv.ends
  cases outcome : walk.omalloc (self.used + index) with
  | true => exact granted outcome
  | false =>
    refine ⟨⟨_, outcome⟩, self.start, inv.begins, by omega, inv.toSound.whole.2.1, ?_⟩
    rcases stage with ⟨here, unused, same⟩ | ⟨later, paid⟩
    · refine iff_of_false (by omega) fun paid => ?_
      rw [unused, Nat.zero_add, paid index (by omega)] at outcome
      exact Bool.noConfusion outcome
    · exact iff_of_true later paid

/-- The only allocation pays for the call. -/
lemma Inv.allocOne (one : walk.first (self.range :: self.rest) self.start self.size = 1)
    (paid : walk.Paid → walk.Good weight flow) :
    walk.Good weight (if walk.omalloc self.used then flow else .stop false self.ranges) := by
  refine inv.alloc stage 0 (by omega) fun granted => paid (stage.paid fun index small => ?_)
  rwa [show index = 0 by omega]

end

/-- The label `next` is reached behind the current range. -/
lemma Inv.next (inv : walk.Inv self) (behind : rangeEnd self.range ≤ self.start)
    (stage : walk.Stage self.rest self.start self.size self.used)
    (bound : 2 * self.size + self.rest.length ≤ weight) :
    walk.Good weight self.next := by
  refine ⟨⟨⟨inv.border, inv.filled, inv.descends⟩, behind, inv.ascends, ?_, ?_, inv.begins,
    inv.ends, inv.more, stage⟩, bound⟩
  · rw [← inv.count, lockCount]
    abel
  · intro safe range mem
    apply inv.positive safe
    grind

/-- The invariant of a cursor that is given by its parts. -/
lemma Inv.facts {here left : Nat} (inv : walk.Inv ⟨front, range, rest, prange, here, left, used⟩) :
    walk.start ≤ here ∧ here + left = walk.start + walk.size ∧ 0 < left ∧
    lastEnd front ≤ range.lrStart ∧ 0 < range.lrSize ∧
      Ascends (rangeEnd range) rest :=
  ⟨inv.begins, inv.ends, inv.more, inv.border, inv.filled, inv.ascends⟩

/-- The current range and the ranges behind it are replaced. -/
lemma Sound.recut {rest' : List (LockRange bits)} {range' : LockRange bits}
    (sound : walk.Sound ⟨front, range, rest, prange, start, size, used⟩ position)
    (begins : walk.start ≤ position) (ascends : Ascends (lastEnd front) (range' :: rest'))
    (count : rangeLocks range' + lockCount rest' = rangeLocks range + lockCount rest + cover
      position amount walk.change)
    (positive : walk.safe → range'.lrLocks ≠ 0 ∧ ∀ other ∈ rest', other.lrLocks ≠ 0) :
    walk.Sound ⟨front, range', rest', prange', start', size', used'⟩ (position + amount) := by
  refine ⟨sound.descends, ascends.1, ascends.2.1, ascends.2.2, ?_, ?_⟩
  · rw [upTo_add begins, ← sound.count, add_assoc, count]
    abel
  · intro safe other mem
    rcases mem_append.mp mem with mem | mem
    · exact sound.positive safe other (mem_append_left _ mem)
    · rcases mem_cons.mp mem with same | mem
      · exact same ▸ (positive safe).1
      · exact (positive safe).2 other mem

/-- The counters of the current range and of the ranges behind it are positive. -/
lemma Sound.positive_here (sound : walk.Sound self position) (safe : walk.safe) :
    self.range.lrLocks ≠ 0 ∧ ∀ other ∈ self.rest, other.lrLocks ≠ 0 :=
  forall_mem_cons.mp fun other mem => sound.positive safe other (mem_append_right _ mem)

section
variable {next : LockRange bits}
  (sound : walk.Sound ⟨front, range, next :: rest, prange, start, size, used⟩ position)
include sound

/-- The cursor moves to the next range. -/
lemma Sound.advance : walk.Sound ⟨range :: front, next, rest, prange', start', size',
    used'⟩ position := by
  refine ⟨⟨sound.border, sound.filled, sound.descends⟩, sound.ascends.1, sound.ascends.2.1,
    sound.ascends.2.2, ?_, ?_⟩
  · rw [← sound.count]
    simp only [lockCount]
    abel
  · intro safe other mem
    apply sound.positive safe
    grind

/-- The current range is merged with the next one. -/
lemma Sound.joinNext (same : range.lrLocks = next.lrLocks) (meets : rangeEnd range = next.lrStart) :
    walk.Sound ⟨front, { range with lrSize := range.lrSize + next.lrSize }, rest, prange', start',
      size', used'⟩ position := by
  refine ⟨sound.descends, sound.border, Nat.add_pos_left sound.filled _, ?_, ?_,
    fun safe other mem => ?_⟩
  · have behind := sound.ascends.2.2
    rwa [rangeEnd, ← meets, rangeEnd, Nat.add_assoc] at behind
  · rw [← sound.count]
    simp only [lockCount, rangeLocks, cover_split]
    rw [← same, ← meets, rangeEnd]
    abel
  · have old := sound.positive_here safe
    rcases mem_append.mp mem with mem | mem
    · exact sound.positive safe other (mem_append_left _ mem)
    · rcases mem_cons.mp mem with rfl | mem
      · exact old.1
      · exact (forall_mem_cons.mp old.2).2 other mem

end

/-- The range under the request still has the count from before the walk. -/
lemma Inv.count_here (inv : walk.Inv self) (lower : self.range.lrStart ≤ self.start)
    (upper : self.start < rangeEnd self.range) :
      lockCount walk.ranges self.start = self.range.lrLocks := by
  have begins := inv.begins
  have here := congrFun inv.count self.start
  rw [lockCount_at inv.descends inv.border inv.ascends lower upper, upTo, Pi.add_apply,
    cover_outside _ (.inr (by omega)), add_zero] at here
  exact here.symm

/-- A part of the request is done. -/
lemma Sound.consume {onward : Cursor bits → Flow bits}
    (sound : walk.Sound ⟨front, range, rest, prange, start, size, used⟩ (start + amount))
    (begins : walk.start ≤ start)
    (ends : start + size = walk.start + walk.size) (filled : 0 < amount) (fits : amount ≤ size)
    (continues : walk.Inv ⟨front, range, rest, prange, start + amount, size - amount, used⟩ →
      walk.start < start + amount → 0 < size - amount →
        walk.Good weight (onward ⟨front, range, rest, prange, start + amount, size - amount, used⟩)) :
    walk.Good weight (Cursor.consume ⟨front, range, rest, prange, start, size, used⟩ amount onward) := by
  unfold Cursor.consume
  dsimp only
  split
  · next done => exact sound.stop (by omega)
  next left =>
    have more : 0 < size - amount := Nat.pos_of_ne_zero left
    have begun : walk.start ≤ start + amount := by omega
    have ended : start + amount + (size - amount) = walk.start + walk.size := by omega
    exact continues ⟨⟨sound.descends, sound.border, sound.filled, sound.ascends, sound.count,
      sound.positive⟩, begun, ended, more⟩
      (by omega) more

/-- Only the nearest range before the current one can border on it. -/
lemma joins_spec (sound : walk.Sound self position) (joins : self.joins = true) :
    ∃ prev front, self.front = prev :: front ∧ self.prange = .before 0 ∧
    self.range.lrLocks = prev.lrLocks ∧
      self.range.lrStart = rangeEnd prev := by
  have filled := sound.filled
  have border := sound.border
  unfold Cursor.joins Cursor.prev at joins
  cases cell : self.prange with
  | current =>
    rw [cell] at joins
    simp only [Option.any_some, decide_eq_true_eq, rangeEnd] at joins
    omega
  | before skipped =>
    rw [cell] at joins
    simp only [Option.any_eq_true, decide_eq_true_eq] at joins
    obtain ⟨prev, found, locks, meets⟩ := joins
    have descends := sound.descends
    cases front : self.front with
    | nil =>
      rw [front] at found
      exact absurd found (by simp)
    | cons nearest front' =>
      rw [front] at found descends border
      cases skipped with
      | zero =>
        obtain rfl : nearest = prev := by simpa using found
        exact ⟨nearest, front', rfl, rfl, locks, meets⟩
      | succ skipped =>
        exfalso
        have below := descends.rangeEnd_le (by simpa using found)
        have := descends.2.1
        rw [lastEnd_cons] at border
        omega

/-- The current range may be merged with the previous one. -/
lemma Sound.tryMerge {merged apart : Cursor bits → Flow bits}
    (sound : walk.Sound ⟨front, range, rest, prange, start, size, used⟩ position)
    (together : ∀ front' range',
      walk.Sound ⟨front', range', rest, .current, start, size, used⟩ position →
      range'.lrStart < range.lrStart → rangeEnd range' = rangeEnd range →
      walk.Good weight (merged ⟨front', range', rest, .current, start, size, used⟩))
    (alone : walk.Good weight (apart ⟨front, range, rest, prange, start, size, used⟩)) :
    walk.Good weight (Cursor.tryMerge ⟨front, range, rest, prange, start, size, used⟩ merged apart) := by
  unfold Cursor.tryMerge
  split
  · next joins =>
      obtain ⟨prev, front', rfl, rfl, locks, meets⟩ := joins_spec sound joins
      obtain ⟨descends, border, filled, ascends, count, positive⟩ := sound
      dsimp only [rangeEnd] at locks meets filled count positive
      have ending : rangeEnd { prev with lrSize := prev.lrSize + range.lrSize } = rangeEnd range := by
        unfold rangeEnd
        dsimp only
        omega
      refine together front' _ ⟨descends.2.2, descends.1, by dsimp only; omega, by
        rwa [ending], ?_, ?_⟩ ?_ ending
      · rw [← count, lockCount]
        dsimp only [rangeLocks]
        rw [cover_split, locks, meets]
        abel
      · intro safe range mem
        simp only [mem_append, mem_cons] at mem
        rcases mem with mem | rfl | mem
        · exact positive safe range (by simp [mem])
        · exact positive safe prev (by simp)
        · exact positive safe range (by simp [mem])
      · have := descends.2.1
        dsimp only
        omega
  · exact alone

/-- The walk ends with what holds at its last label. -/
lemma follow_good {top back : Cursor bits → Flow bits} {last : List (LockRange bits) → Nat → Nat →
    Nat → Flow bits}
    (topGood : ∀ self : Cursor bits, walk.Inv self → lastEnd self.front ≤ self.start →
      walk.Stage (self.range :: self.rest) self.start self.size self.used →
      walk.Good (2 * self.size + self.rest.length) (top self))
    (backGood : ∀ self : Cursor bits, walk.Inv self →
      walk.Stage (self.range :: self.rest) self.start self.size self.used →
      walk.entry self → walk.Good (2 * self.size + self.rest.length) (back self))
    (lastGood : ∀ passed start size used, walk.Passed passed [] start size used →
      walk.Good 0 (last passed start size used))
    (fuel : Nat) (good : walk.Good weight flow) :
    (weight < fuel → walk.total → ∃ answer, follow top back last fuel flow = some answer) ∧
      ∀ result ranges, follow top back last fuel flow = some (result, ranges) →
      walk.Good 0 (.stop result ranges) := by
  induction fuel generalizing flow weight with
  | zero =>
    refine ⟨fun small => absurd small (Nat.not_lt_zero _), fun result ranges done => ?_⟩
    cases flow with
    | stop answer list =>
      cases done
      cases result <;> exact good
    | next passed rest start size used => cases done
    | back self => cases done
    | crash => cases done
  | succ fuel ih =>
    cases flow with
    | stop answer list =>
      refine ⟨fun _ _ => ⟨_, rfl⟩, fun result ranges done => ?_⟩
      cases done
      cases answer <;> exact good
    | crash => exact ⟨fun _ total => absurd total good, fun _ _ done => by cases done⟩
    | back self =>
      obtain ⟨inv, stage, entry, lighter⟩ := good
      obtain ⟨ends, keeps⟩ := ih (backGood self inv stage entry)
      exact ⟨fun small => ends (by omega), keeps⟩
    | next passed rest start size used =>
      obtain ⟨between, bound⟩ := good
      have more := between.more
      cases rest with
      | nil =>
        obtain ⟨ends, keeps⟩ := ih (lastGood passed start size used between)
        exact ⟨fun small => ends (by omega), keeps⟩
      | cons range rest =>
        obtain ⟨descends, below, ⟨border, filled, ascends⟩, count, positive, begins, stop, _,
          stage⟩ := between
        have inv : walk.Inv ⟨passed, range, rest, .before 0, start, size, used⟩ :=
          ⟨⟨descends, border, filled, ascends, by rw [← count, lockCount, add_assoc], positive⟩,
            begins, stop, more⟩
        obtain ⟨ends, keeps⟩ := ih (topGood _ inv below stage)
        rw [length_cons] at bound
        exact ⟨fun small => ends (by dsimp only; omega), keeps⟩

/-- The walk begins before the first range. -/
lemma start_good (walk : Walk bits) (ascends : Ascends 0 walk.ranges)
    (positive : walk.safe → ∀ range ∈ walk.ranges, range.lrLocks ≠ 0) (more : 0 < walk.size) :
    walk.Good (2 * walk.size + walk.ranges.length) (.next [] walk.ranges walk.start walk.size 0) := by
  refine ⟨⟨trivial, Nat.zero_le _, ascends, ?_, positive, le_rfl, rfl, more,
    .inl ⟨rfl, rfl, rfl⟩⟩, le_rfl⟩
  rw [upTo, Nat.sub_self, cover_empty, lockCount, zero_add, add_zero]

end Walk

end KosKernel.Fs.FileLock
