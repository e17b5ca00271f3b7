import KosKernel.Fs.FileLockWalk

namespace KosKernel.Fs.FileLock
open Cover List
variable {bits : Nat}

/-- The number of ranges that the first part of a decrement allocates. -/
def decFirst : List (LockRange bits) → Nat → Nat → Nat
  | [], _, _ => 0
  | range :: rest, start, size =>
    if start = range.lrStart then if range.lrLocks = 1 ∨ range.lrSize ≤ size then 0 else 1
    else if rangeEnd range ≤ start then decFirst rest start size
    else if rangeEnd range ≤ start + size then if range.lrLocks = 1 then 0 else 1
    else if range.lrLocks = 1 then 1 else 2

/-- A decrement goes back to a label with the start of a range. -/
def decWalk (omalloc : Nat → Bool) (ranges : List (LockRange bits)) (start size : Nat) : Walk bits where
  ranges := ranges
  start := start
  size := size
  change := -1
  omalloc := omalloc
  safe := ∀ range ∈ ranges, range.lrLocks ≠ 0
  total := ∀ position, start ≤ position → position < start + size → lockCount ranges position ≠ 0
  first := decFirst
  entry := fun self => self.start = self.range.lrStart

lemma sub_one_ne_zero {locks : BitVec bits} (several : locks ≠ 1) : locks - 1 ≠ 0 :=
  fun none => several (sub_eq_zero.mp none)

lemma cover_lowered (start size : Nat) (locks : BitVec bits) :
    cover start size (locks - 1) = cover start size locks - cover start size 1 := by
  rw [sub_eq_add_neg, cover_add, cover_neg, sub_eq_add_neg]

section
variable {omalloc : Nat → Bool} {ranges : List (LockRange bits)} {start size : Nat}
  {self : Cursor bits} {walk : Walk bits}
  (dec : walk = decWalk omalloc ranges start size)
include dec

lemma decInside_good (inv : walk.Inv self)
    (stage : walk.Stage (self.range :: self.rest) self.start self.size self.used)
    (lower : self.range.lrStart < self.start) :
    walk.Good (2 * self.size + self.rest.length) (decInside walk.omalloc self) := by
  have change : walk.change = -1 := by rw [dec]; rfl
  have first : walk.first = decFirst := by rw [dec]; rfl
  have old := inv.positive_here
  refine .ite (fun behind => inv.next behind (stage.skip ?_) le_rfl) fun inside => ?_
  · rw [first, decFirst, if_neg lower.ne', if_pos behind]
  obtain ⟨front, range, rest, prange, here, left, used⟩ := self
  obtain ⟨begins, ends, more, border, _, ascends⟩ := inv.facts
  obtain ⟨base, length, locks⟩ := range
  have needed : walk.first (⟨base, length, locks⟩ :: rest) here left =
      if base + length ≤ here + left then if locks = 1 then 0 else 1
      else if locks = 1 then 1 else 2 := by
    rw [first, decFirst, if_neg (ne_of_gt lower), if_neg inside]
    rfl
  simp only [rangeEnd] at lower inside old border ascends
  dsimp only [rangeEnd]
  refine .ite (fun reaches => ?_) fun inner => ?_
  · generalize sub : min (base + length - here) left = overlap at reaches ⊢
    rw [if_pos (show base + length ≤ here + left by omega)] at needed
    refine .ite (fun one => ?_) fun several => ?_
    · rw [if_pos one] at needed
      have paid := stage.paid_zero needed
      refine Walk.Sound.consume (inv.toSound.recut begins ⟨border, by dsimp only; omega, ?_⟩ ?_ old)
        begins ends (by omega)
        (by omega) fun after begun _ => ?_
      · exact ascends.mono (by simp only [rangeEnd]; omega)
      · rw [rangeLocks_split (show length = length - overlap + overlap by omega), change]
        simp only [rangeLocks, cover_neg]
        rw [show base + (length - overlap) = here by omega, one]
        abel
      · exact after.next (by simp only [rangeEnd]; omega) (.inr ⟨begun, paid⟩) (by dsimp only; omega)
    · rw [if_neg several] at needed
      refine inv.allocOne stage needed fun paid => ?_
      refine Walk.Sound.consume (inv.toSound.recut begins ⟨border, by dsimp only; omega, ?_, ?_, ?_⟩ ?_
        fun safe => ⟨(old safe).1, forall_mem_cons.mpr ⟨sub_one_ne_zero several, (old safe).2⟩⟩)
          begins ends (by omega)
        (by omega) fun after begun _ => ?_
      · simp only [rangeEnd]
        omega
      · dsimp only
        omega
      · simpa only [rangeEnd, reaches] using ascends
      · rw [lockCount, rangeLocks_split (show length = length - overlap + overlap by omega), change]
        simp only [rangeLocks, cover_neg, cover_lowered]
        rw [show base + (length - overlap) = here by omega]
        abel
      · exact after.next (by simp only [rangeEnd]; omega) (.inr ⟨begun, paid⟩)
          (by simp only [length_cons]; omega)
  · have sub : min (base + length - here) left = left := by omega
    rw [if_neg (show ¬ base + length ≤ here + left by omega)] at needed
    rw [sub] at inner ⊢
    have parts : length = here - base + (left + (base + length - (here + left))) := by omega
    have tail : Ascends (here + left + (base + length - (here + left))) rest := by
      rwa [show here + left + (base + length - (here + left)) = base + length by omega]
    refine .ite (fun one => ?_) fun several => ?_
    · rw [if_pos one] at needed
      refine inv.alloc stage 0 (by dsimp only; omega) fun _ => ?_
      refine Walk.Sound.stop (inv.toSound.recut begins ⟨border, by dsimp only; omega, ?_, by
        dsimp only; omega, tail⟩ ?_
        fun safe => ⟨(old safe).1, forall_mem_cons.mpr (old safe)⟩) ends
      · simp only [rangeEnd]
        omega
      · rw [lockCount, rangeLocks_split parts, cover_split, change]
        simp only [rangeLocks, cover_neg]
        rw [show base + (here - base) = here by omega, one]
        abel
    · rw [if_neg several] at needed
      refine inv.alloc stage 0 (by dsimp only; omega) fun _ =>
        inv.alloc stage 1 (by dsimp only; omega) fun _ => ?_
      refine Walk.Sound.stop (inv.toSound.recut begins
        ⟨border, by dsimp only; omega, ?_, more, le_rfl, by dsimp only; omega, tail⟩ ?_ fun safe =>
          ⟨(old safe).1, forall_mem_cons.mpr ⟨sub_one_ne_zero several,
            forall_mem_cons.mpr (old safe)⟩⟩) ends
      · simp only [rangeEnd]
        omega
      · rw [lockCount, lockCount, rangeLocks_split parts, cover_split, change]
        simp only [rangeLocks, cover_neg, cover_lowered]
        rw [show base + (here - base) = here by omega]
        abel

/-- A position between the ranges has no lock, so a request over it is not covered. -/
lemma not_total {passed rest : List (LockRange bits)} {here : Nat} (descends : Descends passed)
    (below : lastEnd passed ≤ here)
    (ascends : Ascends (here + 1) rest) (count : lockCount passed + lockCount rest = walk.upTo here)
    (begins : walk.start ≤ here) (inside : here < walk.start + walk.size) : ¬ walk.total := by
  have none := congrFun count here
  rw [Pi.add_apply, descends.lockCount_eq_zero below,
    ascends.lockCount_eq_zero (Nat.lt_succ_self here), Walk.upTo, Pi.add_apply,
    cover_outside _ (.inr (by omega)), add_zero, add_zero] at none
  subst dec
  exact fun total => total here begins inside none.symm

lemma under_not_total (inv : walk.Inv self) (below : lastEnd self.front ≤ self.start)
    (under : self.start < self.range.lrStart) :
    ¬ walk.total := by
  have ascends : Ascends (self.start + 1) (self.range :: self.rest) := ⟨under, inv.filled, inv.ascends⟩
  refine not_total dec inv.descends below ascends ?_ inv.begins
    (inv.ends ▸ Nat.lt_add_of_pos_right inv.more)
  rw [← inv.count, lockCount, add_assoc]

/-- The request goes on at the start of a range or inside of it. -/
lemma decOnward_good {weight : Nat} (inv : walk.Inv self) (begun : walk.start < self.start)
    (paid : walk.Paid)
    (below : lastEnd self.front ≤ self.start) (bound : 2 * self.size + self.rest.length < weight) :
    walk.Good weight (decOnward walk.omalloc self) := by
  refine .ite (fun starts => ⟨inv, .inr ⟨begun, paid⟩, by rw [dec]; exact starts, bound⟩) fun apart =>
    .ite (under_not_total dec inv below) fun inside => ?_
  exact (decInside_good dec inv (.inr ⟨begun, paid⟩) (by omega)).mono bound.le

/-- The current range was lowered and may be merged with both neighbours. -/
lemma decLowered_good {front rest : List (LockRange bits)} {range : LockRange bits} {prange : Prange}
    {here left used overlap weight : Nat}
    (sound : walk.Sound ⟨front, range, rest, prange, here, left, used⟩ (here + overlap))
    (begins : walk.start ≤ here)
    (ends : here + left = walk.start + walk.size) (filled : 0 < overlap) (fits : overlap ≤ left)
    (starts : range.lrStart = here) (paid : walk.Paid)
    (bound : 2 * (left - overlap) + rest.length < weight) :
    walk.Good weight (decLowered walk.omalloc ⟨front, range, rest, prange, here,
      left, used⟩ overlap) := by
  have finish {front rest : List (LockRange bits)} {range : LockRange bits}
    {prange : Prange} {used : Nat}
      (sound : walk.Sound ⟨front, range, rest, prange, here, left, used⟩ (here + overlap))
        (lower : range.lrStart ≤ here)
      (lighter : 2 * (left - overlap) + rest.length < weight) :
      walk.Good weight (Cursor.consume ⟨front, range, rest, prange, here, left, used⟩ overlap
        (decOnward walk.omalloc)) := by
    refine sound.consume begins ends filled fits fun after begun _ =>
      decOnward_good dec after begun paid ?_ lighter
    have border : lastEnd front ≤ range.lrStart := sound.border
    dsimp only
    omega
  have either {front rest : List (LockRange bits)} {range : LockRange bits}
    {prange : Prange} {used : Nat}
      (sound : walk.Sound ⟨front, range, rest, prange, here, left, used⟩ (here + overlap))
        (lower : range.lrStart ≤ here)
      (lighter : 2 * (left - overlap) + rest.length < weight) :
      walk.Good weight ((mergeNext ⟨front, range, rest, prange, here, left, used⟩).consume
        overlap (decOnward walk.omalloc)) := by
    cases rest with
    | nil => exact finish sound lower lighter
    | cons next rest =>
      unfold mergeNext
      dsimp only
      split
      · next fit => exact finish (sound.joinNext fit.1.symm fit.2.symm) lower (by
            rw [length_cons] at lighter; omega)
      · exact finish sound lower lighter
  exact sound.tryMerge (fun _ _ merged lower _ => either merged (by omega) bound)
    (either sound starts.le bound)

lemma decStart_good (inv : walk.Inv self)
    (stage : walk.Stage (self.range :: self.rest) self.start self.size self.used)
    (starts : self.start = self.range.lrStart) :
    walk.Good (2 * self.size + self.rest.length) (decStart walk.omalloc self) := by
  have change : walk.change = -1 := by rw [dec]; rfl
  have first : walk.first = decFirst := by rw [dec]; rfl
  have old := inv.positive_here
  obtain ⟨front, ⟨base, length, locks⟩, rest, prange, here, left, used⟩ := self
  obtain ⟨begins, ends, more, border, filled, ascends⟩ := inv.facts
  have needed : walk.first (⟨base, length, locks⟩ :: rest) here left = if locks = 1 ∨
    length ≤ left then 0 else 1 := by
    rw [first, decFirst, if_pos starts]
  dsimp only [rangeEnd] at starts old border filled ascends
  subst starts
  refine .ite (fun one => ?_) fun several => ?_
  · dsimp only at one
    rw [if_pos (.inl one)] at needed
    have paid := stage.paid_zero needed
    refine .ite (fun removed => ?_) fun remains => ?_
    · dsimp only at removed
      have whole : min length left = length := by omega
      have count : lockCount front + lockCount rest = walk.upTo (here + length) := by
        rw [Walk.upTo_add begins, ← inv.count, change, one]
        simp only [rangeLocks, cover_neg]
        abel
      have onward : Ascends (lastEnd front) rest := ascends.mono (by omega)
      simp only [whole]
      refine .ite (fun done => ?_) fun left' => ?_
      · refine ⟨inv.descends.ascends onward, ?_, fun safe other mem => ?_⟩
        · rw [lockCount_append, lockCount_reverse, count,
            show here + length = walk.start + walk.size by omega]
        · apply inv.positive safe
          grind
      · cases rest with
        | nil =>
          have none : Ascends (here + length + 1) ([] : List (LockRange bits)) := trivial
          exact not_total dec inv.descends (by dsimp only; omega) none count (by omega) (by omega)
        | cons next rest =>
          have sound : walk.Sound ⟨front, next, rest, prange, here + length, left - length, used⟩
            (here + length) := by
            refine ⟨inv.descends, onward.1, onward.2.1, onward.2.2, ?_, fun safe other mem => ?_⟩
            · rw [← count, lockCount, add_assoc]
            · apply inv.positive safe
              grind
          refine decOnward_good dec ⟨sound, by dsimp only; omega, by
            dsimp only; omega, Nat.pos_of_ne_zero left'⟩
            (by dsimp only; omega) paid (by dsimp only; omega) ?_
          simp only [length_cons]
          omega
    · dsimp only at remains
      have part : min length left = left := by omega
      simp only [part]
      refine Walk.Sound.consume (inv.toSound.recut begins ⟨?_, by dsimp only; omega, ?_⟩ ?_ old)
        begins ends more le_rfl
        fun _ _ _ => by omega
      · dsimp only
        omega
      · simpa only [rangeEnd, show here + left + (length - left) = here + length by omega] using ascends
      · rw [rangeLocks_split (show length = left + (length - left) by omega), change, one]
        simp only [rangeLocks, cover_neg]
        abel
  · refine .ite (fun whole => ?_) fun inner => ?_
    · dsimp only at whole
      rw [if_pos (.inr (by omega))] at needed
      have paid := stage.paid_zero needed
      simp only [whole]
      refine decLowered_good dec (inv.toSound.recut begins ⟨border, filled, ascends⟩ ?_
        fun safe => ⟨sub_one_ne_zero several, (old safe).2⟩) begins ends filled
          (by omega) rfl paid (by omega)
      simp only [rangeLocks, change, cover_neg, cover_lowered]
      abel
    · dsimp only at inner
      have part : min length left = left := by omega
      rw [if_neg (not_or.mpr ⟨several, by omega⟩)] at needed
      simp only [part]
      refine inv.allocOne stage needed fun paid => ?_
      refine decLowered_good dec (inv.toSound.recut begins ⟨border, more, le_rfl,
        by dsimp only; omega, ?_⟩ ?_
        fun safe => ⟨sub_one_ne_zero several, forall_mem_cons.mpr (old safe)⟩) begins ends more
          le_rfl rfl paid ?_
      · simpa only [rangeEnd, show here + left + (length - left) = here + length by omega] using ascends
      · rw [lockCount, rangeLocks_split (show length = left + (length - left) by omega), change]
        simp only [rangeLocks, cover_neg, cover_lowered]
        abel
      · simp only [length_cons]
        omega

lemma decTop_good (inv : walk.Inv self) (below : lastEnd self.front ≤ self.start)
    (stage : walk.Stage (self.range :: self.rest) self.start self.size self.used) :
    walk.Good (2 * self.size + self.rest.length) (decTop walk.omalloc self) := by
  refine .ite (under_not_total dec inv below) fun above => .ite (decStart_good dec inv stage)
    fun inside => ?_
  exact decInside_good dec inv stage (by omega)

end

/-- A decrement of locked positions returns, and every answer of a decrement is good. -/
lemma inodeFlockDecread_good {omalloc : Nat → Bool} {ranges : List (LockRange bits)}
    {start size : Nat} (fuel : Nat) (ascends : Ascends 0 ranges) (more : 0 < size) :
    (2 * size + ranges.length < fuel → (∀ position, start ≤ position → position < start + size →
      lockCount ranges position ≠ 0) →
        ∃ answer, inodeFlockDecread omalloc fuel ranges start size = some answer) ∧
      ∀ result after, inodeFlockDecread omalloc fuel ranges start size = some (result, after) →
        (decWalk omalloc ranges start size).Good 0 (.stop result after) := by
  rw [inodeFlockDecread, if_neg more.ne']
  refine Walk.follow_good (fun _ => decTop_good rfl) (fun _ => decStart_good rfl)
    (fun passed here left used last => ?_) fuel
    (Walk.start_good (decWalk omalloc ranges start size) ascends id more)
  have ends := last.ends
  have rest := last.more
  have none : Ascends (here + 1) ([] : List (LockRange bits)) := trivial
  exact not_total rfl last.descends last.below none last.count last.begins (by omega)

end KosKernel.Fs.FileLock
