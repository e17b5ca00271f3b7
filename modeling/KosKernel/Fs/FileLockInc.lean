import KosKernel.Fs.FileLockWalk

namespace KosKernel.Fs.FileLock
open Cover List
variable {bits : Nat}

/-- The number of ranges that the first part of an increment allocates. -/
def incFirst : List (LockRange bits) → Nat → Nat → Nat
  | [], _, _ => 1
  | range :: rest, start, size =>
    if start < range.lrStart then if range.lrStart ≤ start + size ∧ range.lrLocks = 1 then 0 else 1
    else if rangeEnd range < start then incFirst rest start size
    else if start = rangeEnd range then
      if gapBehind range rest size = 0 then incFirst rest start size
      else if range.lrLocks = 1 then 0 else 1
    else if start = range.lrStart then if range.lrSize ≤ size then 0 else 1
    else if rangeEnd range ≤ start + size then 1 else 2

/-- An increment goes back inside of the current range or right behind it. -/
def incWalk (omalloc : Nat → Bool) (ranges : List (LockRange bits)) (start size : Nat) : Walk bits where
  ranges := ranges
  start := start
  size := size
  change := 1
  omalloc := omalloc
  safe := (∀ range ∈ ranges, range.lrLocks ≠ 0) ∧
    ∀ position, start ≤ position → position < start + size → lockCount ranges position + 1 ≠ 0
  total := True
  first := incFirst
  entry := fun self => self.range.lrStart < self.start ∧ self.start ≤ rangeEnd self.range

variable {rest : List (LockRange bits)}

lemma incFirst_inside {range : LockRange bits} {start size : Nat}
    (lower : range.lrStart < start) (upper : start < rangeEnd range) :
    incFirst (range :: rest) start size = if rangeEnd range ≤ start + size then 1 else 2 := by
  rw [incFirst, if_neg (by omega), if_neg (by omega), if_neg (by omega), if_neg (by omega)]

/-- The gap ends with the request or with the next range. -/
lemma gapBehind_spec (size : Nat) {range : LockRange bits} (ascends : Ascends (rangeEnd range) rest) :
    gapBehind range rest size ≤ size ∧ Ascends (rangeEnd range + gapBehind range rest size) rest ∧
    (gapBehind range rest size < size →
        ∃ next behind, rest = next :: behind ∧
        next.lrStart = rangeEnd range + gapBehind range rest size) := by
  cases rest with
  | nil => exact ⟨le_rfl, ascends, fun less => absurd less (Nat.lt_irrefl _)⟩
  | cons next behind =>
    have below := ascends.1
    have gap : gapBehind range (next :: behind) size = min (next.lrStart - rangeEnd range) size := rfl
    exact ⟨by omega, ⟨by omega, ascends.2⟩, fun less => ⟨next, behind, rfl, by omega⟩⟩

section
variable {omalloc : Nat → Bool} {ranges : List (LockRange bits)} {start size : Nat}
  {self : Cursor bits} {walk : Walk bits}
  (inc : walk = incWalk omalloc ranges start size)
include inc

/-- A counter under the request does not wrap. -/
lemma Walk.Inv.raised (inv : walk.Inv self) (lower : self.range.lrStart ≤ self.start)
    (upper : self.start < rangeEnd self.range) (safe : walk.safe) : self.range.lrLocks + 1 ≠ 0 := by
  have more := inv.more
  have ends := inv.ends
  have here := inv.count_here lower upper
  subst inc
  dsimp only [incWalk] at ends here
  rw [← here]
  exact safe.2 self.start inv.begins (by omega)

lemma one_ne_zero_of_safe (more : 0 < walk.size) (safe : walk.safe) : (1 : BitVec bits) ≠ 0 := by
  subst inc
  intro single
  apply safe.2 start le_rfl (Nat.lt_add_of_pos_right more)
  rw [single, add_zero, ← mul_one (lockCount ranges start), single, mul_zero]

lemma incSub_good (inv : walk.Inv self)
    (stage : walk.Stage (self.range :: self.rest) self.start self.size self.used)
    (lower : self.range.lrStart < self.start) (upper : self.start < rangeEnd self.range) :
    walk.Good (2 * self.size + self.rest.length) (incSub walk.omalloc self) := by
  have raised := inv.raised inc lower.le upper
  have old := inv.positive_here
  have change : walk.change = 1 := by rw [inc]; rfl
  have first : walk.first = incFirst := by rw [inc]; rfl
  obtain ⟨front, ⟨base, length, locks⟩, rest, prange, here, left, used⟩ := self
  obtain ⟨begins, ends, more, border, _, ascends⟩ := inv.facts
  have needed : incFirst (⟨base, length, locks⟩ :: rest) here left = _ := incFirst_inside lower upper
  simp only [rangeEnd] at lower upper raised old border ascends
  dsimp only [incSub, rangeEnd]
  refine Walk.Good.ite (fun reaches => ?_) fun inner => ?_
  · generalize sub : min (base + length - here) left = subsize at reaches ⊢
    rw [if_pos (by simp only [rangeEnd]; omega), ← first] at needed
    refine inv.allocOne stage needed fun paid => ?_
    refine Walk.Sound.consume (inv.toSound.recut begins ⟨border, ?_, ?_, ?_, ?_⟩ ?_
      fun safe => ⟨(old safe).1, forall_mem_cons.mpr ⟨raised safe, (old safe).2⟩⟩) begins inv.ends
        (by omega) (by omega) ?_
    · dsimp only
      omega
    · simp only [rangeEnd]
      omega
    · dsimp only
      omega
    · simpa only [rangeEnd, reaches] using ascends
    · rw [lockCount, rangeLocks_split (show length = length - subsize + subsize by omega), change]
      simp only [rangeLocks]
      rw [cover_add, show base + (length - subsize) = here by omega]
      abel
    · intro after begun _
      refine after.next ?_ (.inr ⟨begun, paid⟩) ?_
      · simp only [rangeEnd]
        omega
      · simp only [length_cons]
        omega
  · have sub : min (base + length - here) left = left := by omega
    rw [if_neg (by simp only [rangeEnd]; omega), ← first] at needed
    rw [sub]
    refine inv.alloc stage 0 (by dsimp only; omega) fun _ =>
      inv.alloc stage 1 (by dsimp only; omega) fun _ => ?_
    refine Walk.Sound.consume (inv.toSound.recut begins ⟨border, ?_, ?_, ?_, ?_, ?_, ?_⟩ ?_
      fun safe => ⟨(old safe).1, forall_mem_cons.mpr ⟨raised safe, forall_mem_cons.mpr (old safe)⟩⟩)
      begins inv.ends more le_rfl fun _ _ _ => by omega
    · dsimp only
      omega
    · simp only [rangeEnd]
      omega
    · exact more
    · simp only [rangeEnd]
      omega
    · dsimp only
      omega
    · simpa only [rangeEnd, show here + left + (base + length - here - left) = base + length by
        omega] using ascends
    · rw [lockCount, lockCount, rangeLocks_split
        (show length = here - base + (length - (here - base)) by omega),
        show length - (here - base) = left + (base + length - here - left) by omega, cover_split, change]
      simp only [rangeLocks]
      rw [cover_add, show base + (here - base) = here by omega]
      abel

variable {front rest : List (LockRange bits)}
variable {range : LockRange bits} {prange : Prange}

/-- The raised range begins with the done part, and a merged range goes on behind it. -/
lemma incRaised_good {here left used overlap weight : Nat} {mustContinue : Bool}
    (sound : walk.Sound ⟨front, range, rest, prange, here, left, used⟩ (here + overlap))
    (begins : walk.start ≤ here)
    (ends : here + left = walk.start + walk.size) (filled : 0 < overlap) (fits : overlap ≤ left)
    (starts : range.lrStart = here) (paid : walk.Paid)
    (reach : if mustContinue then here + overlap < rangeEnd range else here + overlap = rangeEnd range)
    (bound : 2 * (left - overlap) + rest.length < weight) :
    walk.Good weight (incRaised walk.omalloc ⟨front, range, rest, prange, here, left, used⟩ overlap
      mustContinue) := by
  have upper : here + overlap ≤ rangeEnd range := by
    split at reach <;> omega
  refine sound.tryMerge ?_ (sound.consume begins ends filled fits ?_)
  · intro front' range' merged lower ending
    refine merged.consume begins ends filled fits fun after begun _ =>
      ⟨after, .inr ⟨begun, paid⟩, ?_, bound⟩
    subst inc
    exact ⟨by dsimp only; omega, by dsimp only; omega⟩
  · intro after begun _
    refine .ite (fun continues => ?_) fun ended => ?_
    · rw [if_pos continues] at reach
      exact (incSub_good inc after (.inr ⟨begun, paid⟩) (by dsimp only; omega) reach).mono bound.le
    · rw [if_neg ended] at reach
      exact after.next reach.symm.le (.inr ⟨begun, paid⟩) bound.le

section
variable (inv : walk.Inv self)
  (stage : walk.Stage (self.range :: self.rest) self.start self.size self.used)
include inv stage

lemma incBegin_good (starts : self.start = self.range.lrStart) :
    walk.Good (2 * self.size + self.rest.length) (incBegin walk.omalloc self) := by
  have filled := inv.filled
  have raised := inv.raised inc starts.ge (by unfold rangeEnd; omega)
  have old := inv.positive_here
  have change : walk.change = 1 := by rw [inc]; rfl
  have first : walk.first = incFirst := by rw [inc]; rfl
  obtain ⟨front, ⟨base, length, locks⟩, rest, prange, here, left, used⟩ := self
  obtain ⟨begins, ends, more, border, _, ascends⟩ := inv.facts
  have needed : incFirst (⟨base, length, locks⟩ :: rest) here left = if length ≤ left then 0 else 1 := by
    simp only at starts filled
    rw [incFirst, if_neg (by dsimp only; omega), if_neg (by simp only [rangeEnd]; omega),
      if_neg (by simp only [rangeEnd]; omega), if_pos starts]
  simp only [rangeEnd] at starts filled raised old border ascends
  subst starts
  rw [← first] at needed
  refine .ite (fun whole => ?_) fun inner => ?_
  · dsimp only at whole
    rw [if_pos (by omega)] at needed
    have paid := stage.paid_zero needed
    simp only [whole]
    have raisedSound : walk.Sound ⟨front, ⟨here, length, locks + 1⟩, rest, prange, here, left, used⟩
      (here + length) := by
      refine inv.toSound.recut begins ⟨border, filled, ascends⟩ ?_ fun safe =>
        ⟨raised safe, (old safe).2⟩
      simp only [rangeLocks, change, cover_add]
      abel
    have alone := @incRaised_good _ _ _ _ _ _ inc _ _ _ _ _ _ _ _ _ false raisedSound begins ends
      filled (by omega) rfl paid rfl
      (show _ < 2 * left + rest.length by omega)
    cases rest with
    | nil => exact alone
    | cons next rest =>
      refine .ite (fun fit => ?_) fun _ => alone
      have above := ascends.2.1
      refine incRaised_good inc (raisedSound.joinNext fit.1 fit.2) begins ends filled
        (by omega) rfl paid ?_ ?_
      · simp only [rangeEnd, if_true]
        omega
      · simp only [length_cons]
        omega
  · dsimp only at inner ⊢
    have part : min length left = left := by omega
    rw [if_neg (by omega)] at needed
    rw [part]
    refine inv.allocOne stage needed fun paid => ?_
    refine incRaised_good inc (inv.toSound.recut begins ⟨border, more, le_rfl,
      by dsimp only; omega, ?_⟩ ?_
      fun safe => ⟨raised safe, forall_mem_cons.mpr (old safe)⟩) begins ends more le_rfl rfl paid rfl ?_
    · simpa only [rangeEnd, show here + left + (length - left) = here + length by omega] using ascends
    · rw [lockCount, rangeLocks_split (show length = left + (length - left) by omega), change]
      simp only [rangeLocks, cover_add]
      abel
    · simp only [length_cons]
      omega

lemma incWithin_good (lower : self.range.lrStart ≤ self.start)
    (upper : self.start < rangeEnd self.range) :
    walk.Good (2 * self.size + self.rest.length) (incWithin walk.omalloc self) :=
  .ite (incBegin_good inc inv stage) fun inner => incSub_good inc inv stage (by omega) upper

end

/-- The request goes on with the range right behind the filled gap. -/
lemma incBeyond_good {here left used overflow weight : Nat}
    (sound : walk.Sound ⟨front, range, rest, prange, here, left, used⟩ (here + overflow))
    (begins : walk.start ≤ here)
    (ends : here + left = walk.start + walk.size) (filled : 0 < overflow) (fits : overflow ≤ left)
    (lower : range.lrStart ≤ here) (reach : rangeEnd range = here + overflow) (paid : walk.Paid)
    (gap : overflow < left → ∃ next behind, rest = next :: behind ∧ next.lrStart = here + overflow)
    (bound : 2 * (left - overflow) + rest.length ≤ weight) :
    walk.Good weight (incBeyond walk.omalloc ⟨front, range, rest, prange, here, left,
      used⟩ overflow) := by
  refine sound.consume begins ends filled fits fun after begun more => ?_
  obtain ⟨next, behind, rfl, meets⟩ := gap (by omega)
  have ascends : Ascends (rangeEnd range) (next :: behind) := sound.ascends
  have above := ascends.2.1
  have stage : ∀ list amount, walk.Stage list (here + overflow) (left - overflow) amount :=
    fun _ _ => .inr ⟨begun, paid⟩
  rw [length_cons] at bound
  have lighter : 2 * (left - overflow) + behind.length ≤ weight := by omega
  refine .ite (fun same => ?_) fun _ => ?_
  · refine (incWithin_good inc ⟨after.toSound.joinNext same (reach.trans meets.symm), after.begins,
      after.ends, more⟩ (stage _ _)
      (by dsimp only; omega) ?_).mono lighter
    unfold rangeEnd at reach ⊢
    dsimp only
    omega
  · refine (incWithin_good inc ⟨after.toSound.advance, after.begins, after.ends, more⟩
      (stage _ _) meets.le ?_).mono lighter
    simp only [rangeEnd]
    omega

lemma incBody_good (inv : walk.Inv self)
    (stage : walk.Stage (self.range :: self.rest) self.start self.size self.used)
    (lower : self.range.lrStart ≤ self.start) :
    walk.Good (2 * self.size + self.rest.length) (incBody walk.omalloc self) := by
  have first : walk.first = incFirst := by rw [inc]; rfl
  have change : walk.change = 1 := by rw [inc]; rfl
  have skip (behind : rangeEnd self.range ≤ self.start)
      (same : incFirst (self.range :: self.rest) self.start self.size =
        incFirst self.rest self.start self.size) :
      walk.Good (2 * self.size + self.rest.length) self.next := by
    refine inv.next behind (stage.skip ?_) le_rfl
    rw [first, same]
  refine .ite (fun behind => ?_) fun notBehind => .ite (fun meets => ?_) fun inside => ?_
  · exact skip behind.le (by rw [incFirst, if_neg (by omega), if_pos behind])
  · refine .ite (fun empty => ?_) fun filled => ?_
    · exact skip meets.ge (by rw [incFirst, if_neg (by omega), if_neg notBehind,
        if_pos meets, if_pos empty])
    have needed : walk.first (self.range :: self.rest) self.start self.size =
      if self.range.lrLocks = 1 then 0 else 1 := by
      rw [first, incFirst, if_neg (by omega), if_neg notBehind, if_pos meets, if_neg filled]
    have old := inv.positive_here
    obtain ⟨fits, ascends, gap⟩ := gapBehind_spec self.size inv.ascends
    obtain ⟨front, range, rest, prange, here, left, used⟩ := self
    obtain ⟨begins, ends, more, border, size, _⟩ := inv.facts
    dsimp only at filled fits ascends gap needed meets lower old ⊢
    generalize gapBehind range rest left = overflow at filled fits ascends gap ⊢
    rw [← meets] at ascends gap
    refine .ite (fun single => ?_) fun several => ?_
    · rw [if_pos single] at needed
      have paid := stage.paid_zero needed
      have ending : rangeEnd { range with lrSize := range.lrSize + overflow } = here + overflow := by
        rw [meets, rangeEnd, rangeEnd, Nat.add_assoc]
      refine incBeyond_good inc (inv.toSound.recut begins ⟨border, by dsimp only; omega, by
        rwa [ending]⟩ ?_ old) begins inv.ends
        (Nat.pos_of_ne_zero filled) fits lower ending paid gap (by omega)
      simp only [rangeLocks, cover_split, change]
      rw [single, meets, rangeEnd]
      abel
    · rw [if_neg several] at needed
      refine inv.allocOne stage needed fun paid => ?_
      have inserted : walk.Sound ⟨front, range, ⟨rangeEnd range, overflow, 1⟩ :: rest, prange,
        here, left, used⟩
          (here + overflow) := by
        refine inv.toSound.recut begins ⟨border, size, le_rfl, Nat.pos_of_ne_zero filled, ?_⟩ ?_
          fun safe => ⟨(old safe).1, forall_mem_cons.mpr ⟨?_, (old safe).2⟩⟩
        · rwa [← meets]
        · simp only [lockCount, rangeLocks, change]
          rw [meets]
          abel
        · exact one_ne_zero_of_safe inc (by omega) safe
      exact incBeyond_good inc inserted.advance begins inv.ends (Nat.pos_of_ne_zero filled) fits meets.ge
        (by rw [meets]; rfl) paid gap (by simp only [Cursor.advance]; omega)
  · exact incWithin_good inc inv stage lower (by omega)

lemma incTop_good (inv : walk.Inv self) (below : lastEnd self.front ≤ self.start)
    (stage : walk.Stage (self.range :: self.rest) self.start self.size self.used) :
    walk.Good (2 * self.size + self.rest.length) (incTop walk.omalloc self) := by
  have single := one_ne_zero_of_safe inc
    (by have := inv.more; have := inv.ends; have := inv.begins; omega)
  refine .ite (fun under => ?_) fun within => incBody_good inc inv stage (by omega)
  have needed : walk.first (self.range :: self.rest) self.start self.size =
      if self.range.lrStart ≤ self.start + self.size ∧ self.range.lrLocks = 1 then 0 else 1 := by
    rw [show walk.first = incFirst by rw [inc]; rfl, incFirst, if_pos under]
  have change : walk.change = 1 := by rw [inc]; rfl
  have old := inv.positive_here
  obtain ⟨front, range, rest, prange, here, left, used⟩ := self
  obtain ⟨begins, ends, more, border, size, ascends⟩ := inv.facts
  dsimp only at under needed below old
  -- A new range of one lock fills a gap before the current range.
  have inserted {amount : Nat} (filled : 0 < amount) (fits : here + amount ≤ range.lrStart) :
      walk.Sound ⟨front, ⟨here, amount, 1⟩, range :: rest, prange, here, left, used + 1⟩
        (here + amount) := by
    refine inv.toSound.recut begins ⟨below, filled, fits, size, ascends⟩ ?_
      fun safe => ⟨single safe, forall_mem_cons.mpr (old safe)⟩
    simp only [lockCount, rangeLocks, change]
    abel
  refine .ite (fun short => ?_) fun long => ?_
  · rw [if_neg (by dsimp only at short; omega)] at needed
    refine inv.alloc stage 0 (by dsimp only; omega) fun _ => ?_
    exact (inserted more (by dsimp only at short; omega)).stop ends
  obtain ⟨underflow, gap⟩ : ∃ underflow, range.lrStart = here + underflow :=
    ⟨range.lrStart - here, by omega⟩
  have part : range.lrStart - here = underflow := by omega
  dsimp only at long
  dsimp only
  rw [part] at long ⊢
  refine .ite (fun one => ?_) fun several => ?_
  · rw [if_pos ⟨by omega, one⟩] at needed
    have paid := stage.paid_zero needed
    have grown : walk.Sound ⟨front, ⟨range.lrStart - underflow, range.lrSize + underflow,
      range.lrLocks⟩, rest, prange, here, left,
        used⟩ (here + underflow) := by
      refine inv.toSound.recut begins ⟨?_, by dsimp only; omega, ?_⟩ ?_ old
      · dsimp only
        omega
      · simpa only [rangeEnd, show range.lrStart - underflow + (range.lrSize + underflow) =
          range.lrStart + range.lrSize by omega]
          using ascends
      · simp only [rangeLocks, change]
        rw [Nat.add_comm range.lrSize, cover_split, one, show range.lrStart - underflow =
          here by omega, gap]
        abel
    refine grown.tryMerge ?_ (grown.consume begins ends (by omega) (by omega) fun after begun _ => ?_)
    · intro front' range' merged lower ending
      dsimp only at lower
      refine merged.consume begins ends (by omega) (by omega) fun after begun _ => ?_
      exact (incBody_good inc after (.inr ⟨begun, paid⟩) (by dsimp only; omega)).mono
        (by dsimp only; omega)
    · exact (incBody_good inc after (.inr ⟨begun, paid⟩) (by dsimp only; omega)).mono
        (by dsimp only; omega)
  · rw [if_neg (fun both => several both.2)] at needed
    refine inv.allocOne stage needed fun paid => ?_
    refine (inserted (by omega) gap.ge).advance.consume begins ends (by omega) (by omega)
      fun after begun _ => ?_
    exact (incBody_good inc after (.inr ⟨begun, paid⟩) gap.le).mono (by dsimp only; omega)

lemma incLast_good {passed : List (LockRange bits)} {start' size' used : Nat}
    (at_end : walk.Passed passed [] start' size' used) :
    walk.Good 0 (incLast walk.omalloc passed start' size' used) := by
  obtain ⟨descends, below, _, count, positive, begins, ends, more, stage⟩ := at_end
  have change : walk.change = 1 := by rw [inc]; rfl
  have first : walk.first [] start' size' = 1 := by rw [inc]; rfl
  unfold incLast
  cases granted : walk.omalloc used with
  | true =>
    have sound : walk.Sound ⟨passed, ⟨start', size', 1⟩, [], .before 0, start', size', used⟩
      (start' + size') := by
      refine ⟨descends, below, more, trivial, ?_, fun safe range mem => ?_⟩
      · rw [Walk.upTo_add begins, ← count, change]
        simp only [rangeLocks, lockCount]
        abel
      · rcases mem_append.mp mem with mem | mem
        · exact positive safe range (mem_append_left _ mem)
        · rw [mem_singleton.mp mem]
          exact one_ne_zero_of_safe inc (by omega) safe
    exact sound.stop ends
  | false =>
    refine ⟨⟨_, granted⟩, start', begins, by omega, ?_, ?_⟩
    · rw [lockCount_reverse, ← count, lockCount, add_zero]
    · rcases stage with ⟨here, unused, same⟩ | ⟨later, paid⟩
      · refine iff_of_false (by omega) fun paid => ?_
        rw [unused, paid 0 (by omega)] at granted
        exact Bool.noConfusion granted
      · exact iff_of_true later paid

end

/-- An increment returns, and its answer is good. -/
lemma inodeFlockIncread_good {omalloc : Nat → Bool} {ranges : List (LockRange bits)}
    {start size : Nat} (fuel : Nat) (ascends : Ascends 0 ranges) (more : 0 < size) :
    (2 * size + ranges.length < fuel →
      ∃ answer, inodeFlockIncread omalloc fuel ranges start size = some answer) ∧
      ∀ result after, inodeFlockIncread omalloc fuel ranges start size = some (result, after) →
        (incWalk omalloc ranges start size).Good 0 (.stop result after) := by
  rw [inodeFlockIncread, if_neg more.ne']
  obtain ⟨ends, keeps⟩ := Walk.follow_good (fun _ => incTop_good rfl)
    (fun _ inv stage entry => incBody_good rfl inv stage entry.1.le)
    (fun _ _ _ _ => incLast_good rfl) fuel
      (Walk.start_good (incWalk omalloc ranges start size) ascends (fun safe => safe.1) more)
  exact ⟨fun enough => ends enough trivial, keeps⟩

end KosKernel.Fs.FileLock
