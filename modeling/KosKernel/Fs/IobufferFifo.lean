import KosKernel.Fs.Iobuffer
import KosKernel.Library.Ring
import KosKernel.Library.StepRun

namespace KosKernel.Fs
open Window List
namespace Iobuffer

/-- The unread bytes lie between the read and the write position. -/
def unread (self : Iobuffer) : List Byte :=
  Ring.contents self.ibBuffer self.ibSize self.ibRpos self.ibWpos

/-- Both positions are inside the buffer, which respects its maximum size. -/
structure Placed (ring : Iobuffer) : Prop where
  rposWithin : ring.ibRpos ≤ ring.ibSize
  wposWithin : ring.ibWpos ≤ ring.ibSize
  sizeWithin : ring.ibSize ≤ ring.ibMaxsize

variable {self : Iobuffer}

lemma unread_length (placed : self.Placed) : self.unread.length = self.maxRead :=
  Ring.contents_length self.ibBuffer placed.rposWithin

lemma init_placed (maxSize : Nat) : (init maxSize).Placed :=
  ⟨Nat.le_refl _, Nat.le_refl _, Nat.zero_le _⟩

/-- An empty request must not meet a full ring whose two positions are equal. -/
def ReadSafe (self : Iobuffer) (bufsize : Nat) : Prop :=
  ¬ (bufsize = 0 ∧ self.ibRpos = self.ibWpos ∧ self.ibSize ≠ 0)

section
variable (placed : self.Placed)
include placed

/-- A reader that ran into the write position has taken all unread bytes. -/
lemma commitRead_drained (rpos : Nat) (bytes : List Byte) (drained : rpos = self.ibWpos)
    (all : self.unread = bytes) :
    self.unread = bytes ++ (self.commitRead rpos).unread ∧ (self.commitRead rpos).Placed := by
  rw [commitRead, if_pos drained]
  refine ⟨?_, le_rfl, Nat.zero_le _, placed.sizeWithin⟩
  rw [show unread { self with ibWpos := 0, ibRpos := self.ibSize } =
    [] from Ring.contents_empty _ _, append_nil, all]

variable (bytes buf : List Byte) (bufsize : Nat)

/-- The bytes that a read copies are the front of the unread bytes. -/
lemma copyOut_unread (safe : self.ReadSafe bufsize) :
    self.unread = (self.copyOut bufsize).1 ++ (self.commitRead (self.copyOut bufsize).2).unread ∧
      (self.commitRead (self.copyOut bufsize).2).Placed := by
  have rposWithin := placed.rposWithin
  have wposWithin := placed.wposWithin
  have sizeWithin := placed.sizeWithin
  by_cases empty : self.maxRead = 0
  · have nothing : self.unread = [] := eq_nil_of_length_eq_zero (by rw [unread_length placed, empty])
    have copied : self.copyOut bufsize = ([], self.ibRpos) := by rw [copyOut, if_pos empty]
    rw [copied]
    by_cases met : self.ibRpos = self.ibWpos
    · exact commitRead_drained placed self.ibRpos [] met nothing
    · rw [commitRead, if_neg met]
      exact ⟨rfl, placed⟩
  · by_cases order : self.ibRpos < self.ibWpos
    · have count : self.maxRead = self.ibWpos - self.ibRpos := if_pos order
      have copied : self.copyOut bufsize =
        (slice self.ibBuffer self.ibRpos (min (self.ibWpos - self.ibRpos) bufsize),
            self.ibRpos + min (self.ibWpos - self.ibRpos) bufsize) := by
        rw [copyOut, if_neg empty]
        rw [count, Nat.min_eq_left (show self.ibWpos - self.ibRpos ≤ self.ibSize - self.ibRpos by
          omega), if_pos (by omega)]
      rw [copied]
      by_cases drained : self.ibRpos + min (self.ibWpos - self.ibRpos) bufsize = self.ibWpos
      · apply commitRead_drained placed _ _ drained
        rw [unread, Ring.contents, if_pos order, show min (self.ibWpos - self.ibRpos) bufsize =
          self.ibWpos - self.ibRpos by omega]
      · rw [commitRead, if_neg drained]
        exact ⟨Ring.contents_advance self.ibBuffer (by omega) (by omega),
          by dsimp only; omega, wposWithin, sizeWithin⟩
    · have count : self.maxRead = self.ibSize - (self.ibRpos - self.ibWpos) := if_neg order
      have sized : self.ibSize ≠ 0 := by omega
      by_cases high : bufsize ≤ self.ibSize - self.ibRpos
      · have copied : self.copyOut bufsize = (slice self.ibBuffer self.ibRpos bufsize,
          self.ibRpos + bufsize) := by
          have linear : min (min self.maxRead (self.ibSize - self.ibRpos)) bufsize = bufsize := by omega
          rw [copyOut, if_neg empty]
          rw [linear, if_pos (.inl rfl)]
        have apart : ¬ self.ibRpos + bufsize = self.ibWpos := by
          intro met
          exact safe ⟨by omega, by omega, sized⟩
        rw [copied, commitRead, if_neg apart]
        exact ⟨Ring.contents_advance self.ibBuffer (by omega) (by omega),
          by dsimp only; omega, wposWithin, sizeWithin⟩
      · have linear : min (min self.maxRead (self.ibSize - self.ibRpos)) bufsize =
          self.ibSize - self.ibRpos := by omega
        have copied : self.copyOut bufsize =
          (slice self.ibBuffer self.ibRpos (self.ibSize - self.ibRpos) ++
              slice self.ibBuffer 0 (min self.ibWpos (bufsize - (self.ibSize - self.ibRpos))),
              min self.ibWpos (bufsize - (self.ibSize - self.ibRpos))) := by
          rw [copyOut, if_neg empty]
          rw [linear, if_neg (by omega)]
        rw [copied]
        by_cases drained : min self.ibWpos (bufsize - (self.ibSize - self.ibRpos)) = self.ibWpos
        · apply commitRead_drained placed _ _ drained
          rw [unread, Ring.contents, if_neg order, drained]
        · rw [commitRead, if_neg drained]
          exact ⟨Ring.contents_wrap self.ibBuffer (by omega) (by omega),
            by dsimp only; omega, wposWithin, sizeWithin⟩

/-- A read returns the front of the unread bytes and keeps the rest. -/
lemma read_fifo (safe : self.ReadSafe bufsize) :
    self.unread = (self.read bufsize ioBlockNone).2.1 ++ (self.read bufsize ioBlockNone).1.unread ∧
      (self.read bufsize ioBlockNone).1.Placed :=
  copyOut_unread placed bufsize safe

/-- The request fits, or the buffer grows while its unread bytes do not cross the end. -/
def WriteSafe (bits : Nat) (self : Iobuffer) (bufsize : Nat) : Prop :=
  bufsize ≤ self.maxWrite ∨ (self.ibSize + (bufsize - self.maxWrite) < 2 ^ bits ∧
    (self.ibSize < self.ibMaxsize →
        self.ibSize = 0 ∨ self.ibRpos < self.ibWpos ∨ self.ibRpos = self.ibSize) ∧
      (self.ibMaxsize < self.ibSize + (bufsize - self.maxWrite) →
        self.ibSize = 0 ∨ self.ibRpos = 0 ∨ (self.ibWpos ≤ self.ibRpos ∧ self.ibRpos < self.ibSize)))

/-- The final step of a write keeps the unread bytes behind a moved write position. -/
lemma finishWrite_unread (result : Nat) (moved : result ≠ 0 → 0 < self.ibWpos) :
    (self.finishWrite result).1.unread = self.unread ∧ (self.finishWrite result).1.Placed := by
  unfold finishWrite
  split
  · rename_i reset
    have positive := moved reset.1
    have within := placed.wposWithin
    refine ⟨?_, Nat.zero_le _, within, placed.sizeWithin⟩
    simp only [unread, Ring.contents, reset.2]
    rw [if_pos positive, if_neg (by omega)]
    simp
  · exact ⟨rfl, placed⟩

/-- Bytes that fit behind the write position extend the unread bytes. -/
lemma putAt_unread (room : bytes.length ≤ self.upperRoom) (free : bytes.length ≤ self.maxWrite) :
    (self.putAt self.ibWpos bytes).unread = self.unread ++ bytes ∧
    (self.putAt self.ibWpos bytes).Placed := by
  have wposWithin := placed.wposWithin
  have bound : bytes.length ≤ self.ibSize - self.ibWpos := by
    unfold upperRoom at room
    split at room <;> omega
  refine ⟨Ring.contents_store self.ibBuffer _ _ _ bytes ?_, placed.rposWithin, ?_, placed.sizeWithin⟩
  · intro order
    have space : self.maxWrite = self.ibRpos - self.ibWpos := if_pos order
    change self.ibWpos ≤ self.ibRpos at order
    change self.ibWpos + bytes.length ≤ self.ibRpos
    omega
  · simp only [putAt]
    omega

/-- A pass over a ring with enough space stores the whole request. -/
lemma copyPass_fits (fits : buf.length ≤ self.maxWrite) :
    ∃ next, self.copyPass buf = .finished next buf.length ∧ next.Placed ∧
      next.unread = self.unread ++ buf ∧ (buf.length ≠ 0 → 0 < next.ibWpos) := by
  have rposWithin := placed.rposWithin
  have wposWithin := placed.wposWithin
  by_cases high : buf.length ≤ self.upperRoom
  · refine ⟨self.putAt self.ibWpos buf, ?_, ?_, ?_, ?_⟩
    · simp [copyPass, Nat.min_eq_right high]
    · exact (putAt_unread placed buf high fits).2
    · exact (putAt_unread placed buf high fits).1
    · simp only [putAt]
      omega
  · have order : self.ibRpos < self.ibWpos := by
      by_contra order
      have space : self.maxWrite = self.ibRpos - self.ibWpos := if_pos (by omega)
      unfold upperRoom at high
      split at high <;> omega
    have space : self.maxWrite = self.ibSize - (self.ibWpos - self.ibRpos) := if_neg (by omega)
    have room : self.upperRoom = self.ibSize - self.ibWpos := if_neg (by omega)
    have taken : (buf.take self.upperRoom).length = self.upperRoom := by simp; omega
    obtain ⟨appended, kept⟩ := putAt_unread placed (buf.take self.upperRoom) (by omega) (by omega)
    have dropped : (buf.drop self.upperRoom).length = buf.length - self.upperRoom := length_drop
    refine ⟨(self.putAt self.ibWpos (buf.take self.upperRoom)).putAt 0 (buf.drop self.upperRoom),
      ?_, ?_, ?_, ?_⟩
    · have full : self.ibWpos + self.upperRoom = self.ibSize := by omega
      have whole : min self.ibRpos (buf.length - self.upperRoom) = buf.length - self.upperRoom := by
        omega
      rw [copyPass, Nat.min_eq_left (by omega)]
      rw [if_neg (by omega), if_neg (by simp only [putAt, taken, full]; exact not_not_intro rfl),
        if_neg (by simp only [putAt]; omega)]
      simp only [putAt, dropped, whole, ite_true, take_of_length_le (Nat.le_of_eq dropped),
        show self.upperRoom + (buf.length - self.upperRoom) = buf.length by omega]
    · refine ⟨rposWithin, ?_, placed.sizeWithin⟩
      simp only [putAt, dropped]
      omega
    · have wrapped := Ring.contents_store_wrapped
        (self.putAt self.ibWpos (buf.take self.upperRoom)).ibBuffer self.ibSize self.ibRpos
        (buf.drop self.upperRoom) (by omega) (by omega)
      have joined : self.unread ++ buf = (self.unread ++ buf.take self.upperRoom) ++
        buf.drop self.upperRoom := by
        rw [append_assoc, take_append_drop]
      rw [joined, ← appended]
      have ended : (self.putAt self.ibWpos (buf.take self.upperRoom)).unread =
          Ring.contents (self.putAt self.ibWpos (buf.take self.upperRoom)).ibBuffer self.ibSize
            self.ibRpos self.ibSize := by
        simp only [unread, putAt, taken]
        rw [show self.ibWpos + self.upperRoom = self.ibSize by omega]
      rw [ended, ← wrapped]
      simp [unread, putAt]
    · simp only [putAt, dropped]
      omega

/-- A ring from which the writer leaves at its label with nothing left to reuse. -/
def StopsFull (self : Iobuffer) : Prop :=
  (self.ibRpos = 0 ∧ 0 < self.ibWpos) ∨ (self.ibWpos < self.ibRpos ∧ self.ibRpos < self.ibSize)

/-- A pass over such a ring fills its space and jumps back with `max_write` at zero. -/
lemma copyPass_full (stops : self.StopsFull) (more : self.maxWrite < buf.length) :
    ∃ next, self.copyPass buf = .isFull next self.maxWrite 0 ∧ next.Placed ∧
      next.unread = self.unread ++ buf.take self.maxWrite ∧ 0 < next.ibWpos ∧
      next.ibSize = self.ibSize ∧ next.ibMaxsize = self.ibMaxsize := by
  have wposWithin := placed.wposWithin
  have room : self.upperRoom = self.maxWrite := by
    unfold upperRoom maxWrite
    rcases stops with low | high
    · rw [if_neg (by omega), if_neg (by omega)]
      omega
    · rw [if_pos (by omega), if_pos (by omega)]
      omega
  have taken : (buf.take self.maxWrite).length = self.maxWrite := by simp; omega
  obtain ⟨appended, kept⟩ := putAt_unread placed (buf.take self.maxWrite) (by omega) (by omega)
  refine ⟨self.putAt self.ibWpos (buf.take self.maxWrite), ?_, kept, appended, ?_, rfl, rfl⟩
  · rw [copyPass, room, Nat.min_eq_left (by omega)]
    rw [if_neg (by omega)]
    rcases stops with low | high
    · have space : self.maxWrite = self.ibSize - (self.ibWpos - self.ibRpos) := if_neg (by omega)
      rw [if_neg (by simp only [putAt, taken]; omega), if_pos (by exact .inl low.1)]
      simp [putAt, low.1]
    · have space : self.maxWrite = self.ibRpos - self.ibWpos := if_pos (by omega)
      rw [if_pos (by simp only [putAt, taken]; omega)]
  · simp only [putAt, taken]
    rcases stops with low | high
    · omega
    · have space : self.maxWrite = self.ibRpos - self.ibWpos := if_pos (by omega)
      omega

/-- The growth keeps the unread bytes and adds its new bytes to the space. -/
lemma realloc_unread (newSize : Nat) (larger : self.ibSize ≤ newSize)
    (allowed : newSize ≤ self.ibMaxsize)
    (sized : self.ibSize ≠ 0) (straight : self.ibRpos < self.ibWpos ∨ self.ibRpos = self.ibSize) :
    (self.realloc newSize).unread = self.unread ∧ (self.realloc newSize).Placed ∧
      (self.realloc newSize).maxWrite = self.maxWrite + (newSize - self.ibSize) := by
  have wposWithin := placed.wposWithin
  have old (position : Nat) (inside : position < self.ibSize) :
      krealloc self.ibBuffer self.ibSize newSize position = self.ibBuffer position := by
    rw [krealloc, if_pos (by omega)]
  by_cases ended : self.ibRpos = self.ibSize
  · have state : self.realloc newSize =
        ⟨self.ibMaxsize, newSize, krealloc self.ibBuffer self.ibSize newSize, newSize, self.ibWpos⟩ := by
      simp [realloc, ended, sized]
    rw [state]
    refine ⟨?_, ⟨le_rfl, by dsimp only; omega, allowed⟩, ?_⟩
    · simp only [unread, Ring.contents, ended]
      rw [if_neg (by omega), if_neg (by omega), Nat.sub_self, Nat.sub_self, slice_zero, slice_zero,
        slice_congr fun position _ upper => old position (by omega)]
    · simp only [maxWrite, ended]
      rw [if_pos (by omega), if_pos (by omega)]
      omega
  · have order : self.ibRpos < self.ibWpos := by omega
    have state : self.realloc newSize =
        ⟨self.ibMaxsize, newSize, krealloc self.ibBuffer self.ibSize newSize, self.ibRpos,
          self.ibWpos⟩ := by
      simp [realloc, ended]
    rw [state]
    refine ⟨?_, ⟨by dsimp only; omega, by dsimp only; omega, allowed⟩, ?_⟩
    · simp only [unread, Ring.contents]
      rw [if_pos order, if_pos order, slice_congr fun position _ upper => old position (by omega)]
    · simp only [maxWrite]
      rw [if_neg (by omega), if_neg (by omega)]
      omega

end

/-- A first growth gives a ring that looks full until the copy is done. -/
lemma copyPass_fresh (self : Iobuffer) (buf : List Byte) (start : self.ibRpos = 0 ∧ self.ibWpos = 0)
    (sized : self.ibSize ≠ 0) (allowed : self.ibSize ≤ self.ibMaxsize) (some : buf.length ≠ 0) :
    ∃ next, (self.copyPass buf = if buf.length ≤ self.ibSize then .finished next buf.length
        else .isFull next self.ibSize 0) ∧ next.Placed ∧
      next.unread = buf.take self.ibSize ∧ 0 < next.ibWpos ∧
      next.ibSize = self.ibSize ∧ next.ibMaxsize = self.ibMaxsize := by
  have room : self.upperRoom = self.ibSize := by
    rw [upperRoom, if_neg (by omega), start.2, Nat.sub_zero]
  have taken : (buf.take self.ibSize).length = min self.ibSize buf.length := length_take
  refine ⟨self.putAt self.ibWpos (buf.take self.ibSize), ?_, ⟨?_, ?_, allowed⟩, ?_, ?_, rfl, rfl⟩
  · rw [copyPass, room]
    by_cases fits : buf.length ≤ self.ibSize
    · rw [Nat.min_eq_right fits, if_pos rfl, if_pos fits, take_of_length_le fits,
        take_of_length_le le_rfl]
    · rw [Nat.min_eq_left (by omega), if_neg (by omega), if_neg fits,
        if_neg (by simp only [putAt, taken, start.2]; omega), if_pos (by exact .inl start.1)]
      simp [putAt, start.1]
  · exact le_trans (Nat.le_of_eq start.1) (Nat.zero_le _)
  · simp only [putAt, taken, start.2]
    omega
  · simp only [unread, putAt, Ring.contents, start.1, start.2, Nat.zero_add]
    rw [if_pos (by omega), Nat.sub_zero, slice_store_same]
  · simp only [putAt, taken, start.2]
    omega

/-- At its maximum size the writer leaves its label with what it has stored. -/
lemma writeLoop_stops (bits fuel : Nat) (buf : List Byte) (result : Nat)
    (full : self.ibSize = self.ibMaxsize)
    (more : 0 < buf.length) (exact : self.ibSize + buf.length < 2 ^ bits) :
    writeLoop bits (fuel + 1) self buf 0 result = some (self.finishWrite result) := by
  have same : self.wantedSize bits buf.length 0 = self.ibSize := by
    rw [wantedSize, Nat.sub_zero, Nat.mod_eq_of_lt exact]
    omega
  rw [writeLoop]
  exact if_pos ⟨more, same, rfl⟩

/-- A pass that stops full at the maximum size ends the call with its bytes. -/
lemma writeLoop_after_full (bits fuel : Nat) {next : Iobuffer} (buf : List Byte) (stored : Nat)
    (pass : self.copyPass buf = .isFull next stored 0) (full : next.ibSize = next.ibMaxsize)
    (more : stored < buf.length) (exact : next.ibSize + (buf.length - stored) < 2 ^ bits) :
    (match self.copyPass buf with
      | .finished done count => some (done.finishWrite (0 + count))
      | .isFull done count left => writeLoop bits (fuel + 1) done (buf.drop count) left (0 + count)) =
      some (next.finishWrite stored) := by
  rw [pass]
  dsimp only
  rw [writeLoop_stops bits fuel (buf.drop stored) _ full (by simp; omega) (by simpa using exact),
    Nat.zero_add]

/-- The call stores what fits at the maximum size and keeps it behind the unread bytes. -/
def Appends (bits : Nat) (self : Iobuffer) (buf : List Byte) : Prop :=
  ∃ next count, self.write bits buf = some (next, count) ∧ next.Placed ∧
    next.unread = self.unread ++ buf.take count ∧
    count = min buf.length (self.maxWrite + (self.ibMaxsize - self.ibSize))

lemma maxWrite_le (placed : self.Placed) : self.maxWrite ≤ self.ibSize := by
  have rposWithin := placed.rposWithin
  unfold maxWrite
  split <;> omega

/-- An exact `size_t` sum is only clamped to the maximum size. -/
lemma wantedSize_exact {bits : Nat} {bufsize : Nat}
    (exact : self.ibSize + (bufsize - self.maxWrite) < 2 ^ bits) :
    self.wantedSize bits bufsize self.maxWrite = min (self.ibSize + (bufsize - self.maxWrite))
      self.ibMaxsize := by
  rw [wantedSize, Nat.mod_eq_of_lt exact]

/-- The first pass of a growing write runs over the grown buffer. -/
lemma write_grows (bits : Nat) (buf : List Byte) (more : self.maxWrite < buf.length)
    (larger : self.wantedSize bits buf.length self.maxWrite ≠ self.ibSize) :
    self.write bits buf =
      match (self.realloc (self.wantedSize bits buf.length self.maxWrite)).copyPass buf with
      | .finished next stored => some (next.finishWrite (0 + stored))
      | .isFull next stored left =>
        writeLoop bits (buf.length + 1) next (buf.drop stored) left (0 + stored) := by
  rw [write, writeLoop]
  rw [if_neg (by omega)]
  cases pass : (self.realloc (self.wantedSize bits buf.length self.maxWrite)).copyPass buf with
  | finished next stored
  | isFull next stored left => simp only [if_pos (And.intro more larger), pass]

section
variable (bits : Nat) (placed : self.Placed) (buf : List Byte)
include bits placed buf

lemma write_fits (fits : buf.length ≤ self.maxWrite) : self.Appends bits buf := by
  obtain ⟨next, pass, kept, appended, moved⟩ := copyPass_fits placed buf fits
  obtain ⟨same, final⟩ := finishWrite_unread kept buf.length moved
  refine ⟨(next.finishWrite buf.length).1, buf.length, ?_, final, ?_, by omega⟩
  · rw [write, writeLoop]
    dsimp only
    rw [if_neg (by omega), if_neg (by omega), pass]
    simp [finishWrite]
  · rw [same, appended, take_length]

section
variable (more : self.maxWrite < buf.length)
  (exact : self.ibSize + (buf.length - self.maxWrite) < 2 ^ bits)
include more exact

/-- At the maximum size the write stores what fits, unless it reuses read space twice. -/
lemma write_atMax (atMax : self.ibSize = self.ibMaxsize)
    (stops : self.ibSize = 0 ∨ self.ibRpos = 0 ∨
      (self.ibWpos ≤ self.ibRpos ∧ self.ibRpos < self.ibSize)) :
    self.Appends bits buf := by
  have freeWithin := maxWrite_le placed
  have same : self.wantedSize bits buf.length self.maxWrite = self.ibSize := by
    rw [wantedSize_exact exact]
    omega
  by_cases none : self.maxWrite = 0
  · refine ⟨self, 0, ?_, placed, by simp, by omega⟩
    rw [write, writeLoop]
    rw [if_pos ⟨more, same, none⟩]
    simp [finishWrite]
  · have stopsFull : self.StopsFull := by
      rcases stops with zero | low | high
      · omega
      · left
        unfold maxWrite at none
        split at none <;> omega
      · right
        rw [maxWrite, if_pos high.1] at none
        omega
    obtain ⟨next, pass, kept, appended, moved, size, maxsize⟩ := copyPass_full placed buf stopsFull more
    obtain ⟨unchanged, final⟩ := finishWrite_unread kept self.maxWrite fun _ => moved
    refine ⟨(next.finishWrite self.maxWrite).1, self.maxWrite, ?_, final,
      by rw [unchanged, appended], by omega⟩
    rw [write, writeLoop]
    dsimp only
    rw [if_neg (by omega), if_neg (by omega)]
    exact writeLoop_after_full bits buf.length buf self.maxWrite pass (by omega) more (by omega)

/-- The first write allocates the buffer and fills it from its start. -/
lemma write_unallocated (unallocated : self.ibSize = 0) (below : self.ibSize < self.ibMaxsize) :
    self.Appends bits buf := by
  have rposWithin := placed.rposWithin
  have wposWithin := placed.wposWithin
  have freeWithin := maxWrite_le placed
  have wanted := wantedSize_exact exact
  have grows := write_grows bits buf more (by omega)
  generalize self.wantedSize bits buf.length self.maxWrite = room at wanted grows
  have start : (self.realloc room).ibRpos = 0 ∧ (self.realloc room).ibWpos = 0 := by
    simp only [realloc, unallocated]
    constructor
    · rw [if_neg (by omega)]
      omega
    · omega
  have nothing : self.unread = [] := by
    apply eq_nil_of_length_eq_zero
    rw [unread_length placed]
    unfold maxRead
    split <;> omega
  obtain ⟨next, pass, kept, appended, moved, size, maxsize⟩ := copyPass_fresh _ buf start
    (by simp only [realloc]; omega) (by simp only [realloc]; omega) (by omega)
  change next.ibSize = room at size
  change next.ibMaxsize = self.ibMaxsize at maxsize
  change next.unread = buf.take room at appended
  change _ = if buf.length ≤ room then _ else
    PassEnd.isFull next room 0 at pass
  by_cases all : buf.length ≤ room
  · rw [if_pos all] at pass
    obtain ⟨unchanged, final⟩ := finishWrite_unread kept buf.length fun _ => moved
    refine ⟨(next.finishWrite buf.length).1, buf.length, ?_, final, ?_, by omega⟩
    · rw [grows, pass]
      simp [finishWrite]
    · rw [unchanged, appended, nothing, take_of_length_le all, take_length, nil_append]
  · rw [if_neg all] at pass
    obtain ⟨unchanged, final⟩ := finishWrite_unread kept room fun _ => moved
    refine ⟨(next.finishWrite room).1, room, ?_, final,
      by rw [unchanged, appended, nothing, nil_append], by omega⟩
    rw [grows]
    exact writeLoop_after_full bits buf.length buf _ pass (by omega) (by omega) (by omega)

/-- A later growth must find unread bytes that do not cross the end of the buffer. -/
lemma write_regrown (allocated : self.ibSize ≠ 0) (below : self.ibSize < self.ibMaxsize)
    (linear : self.ibRpos < self.ibWpos ∨ self.ibRpos = self.ibSize)
    (stops : self.ibMaxsize < self.ibSize + (buf.length - self.maxWrite) → self.ibRpos = 0) :
    self.Appends bits buf := by
  have wanted := wantedSize_exact exact
  have grows := write_grows bits buf more (by omega)
  generalize self.wantedSize bits buf.length self.maxWrite = room at wanted grows
  obtain ⟨same, grownPlaced, space⟩ := realloc_unread placed room (by omega) (by omega) allocated linear
  by_cases all : buf.length ≤ (self.realloc room).maxWrite
  · obtain ⟨next, pass, kept, appended, moved⟩ := copyPass_fits grownPlaced buf all
    obtain ⟨unchanged, final⟩ := finishWrite_unread kept buf.length moved
    refine ⟨(next.finishWrite buf.length).1, buf.length, ?_, final, ?_, by omega⟩
    · rw [grows, pass]
      simp [finishWrite]
    · rw [unchanged, appended, same, take_length]
  · have stopsFull : (self.realloc room).StopsFull := by
      left
      simp only [realloc]
      rw [if_neg (by omega)]
      omega
    obtain ⟨next, pass, kept, appended, moved, size, maxsize⟩ :=
      copyPass_full grownPlaced buf stopsFull (by omega)
    change next.ibSize = room at size
    change next.ibMaxsize = self.ibMaxsize at maxsize
    obtain ⟨unchanged, final⟩ := finishWrite_unread kept (self.realloc room).maxWrite fun _ => moved
    refine ⟨_, _, ?_, final, by rw [unchanged, appended, same], by omega⟩
    rw [grows]
    exact writeLoop_after_full bits buf.length buf _ pass (by omega) (by omega) (by omega)

end

/-- A safe write appends exactly the bytes that it reports. -/
lemma write_fifo (safe : self.WriteSafe bits buf.length) : self.Appends bits buf := by
  have sizeWithin := placed.sizeWithin
  by_cases fits : buf.length ≤ self.maxWrite
  · exact write_fits bits placed buf fits
  obtain ⟨exact, straight, stops⟩ := safe.resolve_left fits
  by_cases atMax : self.ibSize = self.ibMaxsize
  · exact write_atMax bits placed buf (by omega) exact atMax (stops (by omega))
  by_cases unallocated : self.ibSize = 0
  · exact write_unallocated bits placed buf (by omega) exact unallocated (by omega)
  · have linear := (straight (by omega)).resolve_left unallocated
    refine write_regrown bits placed buf (by omega) exact unallocated (by omega) linear ?_
    intro beyond
    rcases stops beyond with zero | low | high <;> omega

end

/-- Nothing has been read from the buffer, which is empty and without memory or starts with its bytes. -/
structure Linear (maxSize : Nat) (ring : Iobuffer) : Prop where
  limit : ring.ibMaxsize = maxSize
  rpos : ring.ibRpos = 0
  started : ring.ibSize = 0 ∨ 0 < ring.ibWpos

lemma finishWrite_linear {maxSize : Nat} (result : Nat) (linear : self.Linear maxSize) :
    (self.finishWrite result).1.Linear maxSize := by
  unfold finishWrite
  split
  · exact ⟨linear.limit, rfl, linear.started⟩
  · exact linear

/-- A pass over a buffer that was not read stays in the upper portion. -/
lemma copyPass_linear (buf : List Byte) (rpos : self.ibRpos = 0) :
    let upper := self.putAt self.ibWpos (buf.take (min self.upperRoom buf.length))
    ∃ stored left, self.copyPass buf = .finished upper stored ∨
      self.copyPass buf = .isFull upper stored left := by
  intro upper
  rw [copyPass]
  dsimp only
  split
  · exact ⟨_, 0, .inl rfl⟩
  split
  · exact ⟨_, _, .inr rfl⟩
  rw [if_pos (.inl (by exact rpos))]
  exact ⟨_, _, .inr rfl⟩

/-- A write to a buffer that was not read never leaves the write position at the start. -/
lemma writeLoop_linear {bits fuel maxSize maxWrite result count : Nat} {next : Iobuffer}
    {buf : List Byte}
    (linear : self.Linear maxSize)
    (written : writeLoop bits fuel self buf maxWrite result = some (next, count)) :
    next.Linear maxSize := by
  induction fuel generalizing self buf maxWrite result with
  | zero => cases written
  | succ fuel ih =>
    rw [writeLoop] at written
    dsimp only at written
    split at written
    · cases written
      exact finishWrite_linear _ linear
    generalize grows : (if maxWrite < buf.length ∧
        self.wantedSize bits buf.length maxWrite ≠ self.ibSize then
      self.realloc (self.wantedSize bits buf.length maxWrite) else self) = grown at written
    have grownRpos : grown.ibRpos = 0 := by
      rw [← grows]
      split
      · rw [realloc, linear.rpos]
        exact if_neg fun ⟨same, sized⟩ => sized same.symm
      · exact linear.rpos
    have grownLimit : grown.ibMaxsize = maxSize := by
      rw [← grows]
      split <;> exact linear.limit
    -- Only a growth gives memory to an empty buffer, and only if there is something to store.
    have grownStarted : 0 < grown.ibSize → 0 < grown.ibWpos ∨ 0 < buf.length := by
      rw [← grows]
      split
      next more => exact fun _ => .inr (by omega)
      next => exact fun sized => .inl (linear.started.resolve_left (by omega))
    have kept :
        (grown.putAt grown.ibWpos (buf.take (min grown.upperRoom buf.length))).Linear maxSize := by
      refine ⟨grownLimit, grownRpos, ?_⟩
      simp only [putAt, length_take, upperRoom, grownRpos]
      rw [if_neg (by omega)]
      omega
    obtain ⟨stored, left, finished | full⟩ := copyPass_linear buf grownRpos
    · rw [finished] at written
      cases written
      exact finishWrite_linear _ kept
    · rw [full] at written
      exact ih kept written

/-- A write without a read before it appends as much as the maximum size allows. -/
lemma write_linear {bits maxSize : Nat} (placed : self.Placed) (linear : self.Linear maxSize)
    (buf : List Byte) (exact : self.unread.length + buf.length < 2 ^ bits) :
    ∃ next, self.write bits buf = some (next, min buf.length (maxSize - self.unread.length)) ∧
      next.Placed ∧ next.Linear maxSize ∧
      next.unread = self.unread ++ buf.take (maxSize - self.unread.length) := by
  have wposWithin := placed.wposWithin
  have sizeWithin := placed.sizeWithin
  have started := linear.started
  have whole : self.unread.length + self.maxWrite = self.ibSize := by
    rw [unread_length placed, maxRead, maxWrite, linear.rpos]
    split <;> split <;> omega
  have safe : self.WriteSafe bits buf.length := by
    by_cases fits : buf.length ≤ self.maxWrite
    · exact .inl fits
    · refine .inr ⟨by omega, fun _ => ?_, fun _ => .inr (.inl linear.rpos)⟩
      rw [linear.rpos]
      exact started.imp_right .inl
  obtain ⟨next, count, written, kept, appended, all⟩ := write_fifo bits placed buf safe
  have room : self.maxWrite + (self.ibMaxsize - self.ibSize) = maxSize - self.unread.length := by
    rw [linear.limit] at sizeWithin ⊢
    omega
  rw [room] at all
  subst all
  refine ⟨next, written, kept, writeLoop_linear linear written, ?_⟩
  rw [appended, min_comm, ← take_eq_take_min]

/-- A caller writes or reads without blocking. -/
inductive Call where
  | write (buf : List Byte)
  | read (bufsize : Nat)

/-- The history keeps the buffer and both byte streams. -/
structure History where
  self : Iobuffer
  accepted : List Byte
  returned : List Byte

/-- A write adds the bytes it reports as written, and a read adds the bytes it delivers. -/
def History.step (bits : Nat) (history : History) : Call → Option History
  | .write buf => (history.self.write bits buf).map fun result =>
    ⟨result.1, history.accepted ++ buf.take result.2, history.returned⟩
  | .read bufsize =>
    let result := history.self.read bufsize ioBlockNone
    some ⟨result.1, history.accepted, history.returned ++ result.2.1⟩

/-- The history starts with a buffer that owns no memory. -/
def History.start (maxSize : Nat) : History := ⟨init maxSize, [], []⟩

/-- The reads returned the accepted bytes in order, and the buffer counts and holds the rest. -/
def History.Fifo (history : History) : Prop :=
  history.accepted = history.returned ++ history.self.unread ∧
    history.accepted.length = history.returned.length + history.self.maxRead

/-- Each call respects the safe states of the reader and of the writer. -/
def History.Safe (bits : Nat) (history : History) : Call → Prop
  | .write buf => history.self.WriteSafe bits buf.length
  | .read bufsize => history.self.ReadSafe bufsize

instance (bits : Nat) (history : History) (call : Call) : Decidable (history.Safe bits call) :=
  match call with
  | .write _ => inferInstanceAs (Decidable (_ ∨ _))
  | .read _ => inferInstanceAs (Decidable (¬ _))

/-- The positions are in place, and the streams differ by the unread bytes. -/
def History.Tracked (history : History) : Prop :=
  history.self.Placed ∧ history.accepted = history.returned ++ history.self.unread

/-- One safe call keeps the positions in place and the stream equation. -/
lemma History.step_fifo (bits : Nat) (history : History) (call : Call)
    (tracked : history.Tracked) (safe : history.Safe bits call) :
    ∃ next, history.step bits call = some next ∧ next.Tracked := by
  obtain ⟨placed, streams⟩ := tracked
  cases call with
  | write buf =>
    obtain ⟨next, count, written, kept, appended, _⟩ := write_fifo bits placed buf safe
    refine ⟨⟨next, history.accepted ++ buf.take count, history.returned⟩, ?_, kept, ?_⟩
    · simp [step, written]
    · simp [streams, appended]
  | read bufsize =>
    obtain ⟨front, kept⟩ := read_fifo placed bufsize safe
    refine ⟨_, rfl, kept, ?_⟩
    simp only [append_assoc, ← front]
    exact streams

/-- Every history of safe calls is a first-in first-out stream. -/
theorem iobuffer_fifo (bits maxSize : Nat) (calls : List Call)
    (safe : StepRun.Meets (History.step bits) (History.Safe bits) (History.start maxSize) calls) :
    ∃ final, StepRun.run (History.step bits) (History.start maxSize) calls = some final ∧
    final.Fifo := by
  obtain ⟨final, reached, placed, streams⟩ := StepRun.run_invariant
    (History.step_fifo bits) calls (History.start maxSize) ⟨init_placed maxSize, rfl⟩ safe
  refine ⟨final, reached, streams, ?_⟩
  rw [streams, length_append, unread_length placed]

/-- A wrapping write into a full buffer and a request beyond the maximum size are safe calls. -/
theorem iobuffer_fifo_example : ∃ final, StepRun.run (History.step 32) (History.start 3)
      [.write [1, 2, 3, 4], .read 2, .write [5, 6], .read 4, .write [7]] = some final ∧ final.Fifo :=
  iobuffer_fifo 32 3 _ (by decide)

/-- A growth of a wrapped buffer overwrites unread bytes. -/
theorem write_regrown_wrapped_loses : ∃ final, StepRun.run (History.step 32) (History.start 3)
      [.write [1, 2], .read 1, .write [3], .write [4]] = some final ∧ ¬ final.Fifo :=
  ⟨_, rfl, by unfold History.Fifo; decide⟩

end Iobuffer

end KosKernel.Fs
