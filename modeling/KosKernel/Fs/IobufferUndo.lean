/- This file embeds `iobuffer_unread` and `iobuffer_unwrite`. Positions are offsets modulo the
address space. -/

import KosKernel.Fs.IobufferResize

namespace KosKernel.Fs
open Window

/-- A pointer or a size moves `count` bytes backwards. -/
def back (bits position count : Nat) : Nat := (position + (2 ^ bits - count)) % 2 ^ bits

variable {bits count : Nat} {self : Iobuffer}

lemma back_within {position : Nat} (enough : count ≤ position) (bound : position < 2 ^ bits) :
    back bits position count = position - count := by
  rw [back, show position + (2 ^ bits - count) = position - count + 2 ^ bits by
    omega, Nat.add_mod_right, Nat.mod_eq_of_lt (by omega)]

lemma back_below {position : Nat} (short : position < count) (bound : count < 2 ^ bits) :
    back bits position count = position + 2 ^ bits - count := by
  rw [back, Nat.mod_eq_of_lt (by omega)]
  omega

/-- Both calls choose in this way between lower and upper memory. -/
def stepBack (bits size partsize count : Nat) : Nat :=
  if partsize ≤ count then back bits partsize count else back bits size (back bits count partsize)

/-- The choice is right at the start of the buffer only. -/
lemma stepBack_cases {size partsize : Nat} (bound : size < 2 ^ bits) (placed : partsize ≤ size)
    (within : count ≤ size) :
    (count = partsize → stepBack bits size partsize count = 0) ∧
    (count ≠ partsize → stepBack bits size partsize count ≤ size →
        stepBack bits size partsize count = partsize + 2 ^ bits - count ∨
          stepBack bits size partsize count + 2 ^ bits = size + partsize - count) := by
  unfold stepBack
  by_cases low : partsize ≤ count
  · rw [if_pos low]
    refine ⟨fun same => ?_, fun different _ => .inl (back_below (by omega) (by omega))⟩
    rw [same, back_within le_rfl (by omega), Nat.sub_self]
  rw [if_neg low, back_below (show count < partsize by omega) (by omega), back,
    show size + (2 ^ bits - (count + 2 ^ bits - partsize)) = size + partsize - count by omega]
  refine ⟨by omega, fun _ inside => .inr ?_⟩
  by_cases small : size + partsize - count < 2 ^ bits
  · rw [Nat.mod_eq_of_lt small] at inside
    omega
  · rw [Nat.mod_eq_sub_mod (by omega), Nat.mod_eq_of_lt (by omega)]
    omega

/-- The ring, the return value and whether the caller still holds the write lock. -/
structure Undone where
  ring : Iobuffer
  result : Int
  writing : Bool

/-- This is `iobuffer_unread`. It has no `rwlock_endwrite`. -/
def iobufferUnread (bits : Nat) (self : Iobuffer) (maxUnread : Nat) (interrupted : Bool) : Undone :=
  if interrupted then ⟨self, Iobuffer.eIntr, false⟩ else
  let maxWritesize := self.maxWrite
  let maxUnread := min maxUnread maxWritesize
  if maxUnread ≠ 0 then
    if self.ibWpos < self.ibRpos then
      ⟨{ self with ibRpos := back bits self.ibRpos maxUnread }, maxUnread, true⟩
    else
      let partsize := self.ibRpos
      ⟨{ self with ibRpos := stepBack bits self.ibSize partsize maxUnread }, maxUnread, true⟩
  else ⟨self, 0, true⟩

/-- This is `iobuffer_unwrite`. -/
def iobufferUnwrite (bits : Nat) (self : Iobuffer) (maxUnwrite : Nat) (interrupted : Bool) : Undone :=
  if interrupted then ⟨self, Iobuffer.eIntr, false⟩ else
  let maxReadsize := self.maxRead
  let maxUnwrite := min maxUnwrite maxReadsize
  if maxUnwrite ≠ 0 then
    if maxUnwrite = maxReadsize then
      ⟨{ self with ibWpos := 0, ibRpos := self.ibSize }, maxUnwrite, false⟩
    else if self.ibRpos < self.ibWpos then
      ⟨{ self with ibWpos := back bits self.ibWpos maxUnwrite }, maxUnwrite, false⟩
    else
      let partsize := self.ibWpos
      ⟨{ self with ibWpos := stepBack bits self.ibSize partsize maxUnwrite }, maxUnwrite, false⟩
  else ⟨self, 0, false⟩

namespace Iobuffer

/-- The last bytes that were written are gone, and their number is returned. -/
def Unwrites (self : Iobuffer) (maxUnwrite : Nat) (after : Undone) : Prop :=
  after.ring.Inside ∧ after.ring.unread = self.unread.take (self.unread.length - maxUnwrite) ∧
    after.result = min maxUnwrite self.unread.length

/-- As many bytes as are free stand before the unread bytes. -/
def Unreads (self : Iobuffer) (maxUnread : Nat) (after : Undone) : Prop :=
  after.ring.Inside ∧ after.ring.unread.length = self.unread.length + min maxUnread
    (self.ibSize - self.unread.length) ∧
    self.unread <:+ after.ring.unread ∧ after.result = min maxUnread (self.ibSize - self.unread.length)

lemma Inside.maxWrite_eq (inside : self.Inside) : self.maxWrite = self.ibSize - self.unread.length := by
  have rposInside := inside.rposInside
  rw [inside.unread_length]
  unfold maxWrite maxRead
  split <;> split <;> omega

/-- A write position that moves back below the read position must not have wrapped. -/
lemma unread_wpos_length {wpos : Nat} (inside : Inside { self with ibWpos := wpos }) :
    (unread { self with ibWpos := wpos }).length =
      if self.ibRpos < wpos then wpos - self.ibRpos else self.ibSize - (self.ibRpos - wpos) :=
  inside.unread_length

/-- Unread bytes in order lose their last ones with the write position. -/
lemma unread_take_straight (order : self.ibRpos < self.ibWpos) (fewer : count < self.maxRead) :
    unread { self with ibWpos := self.ibWpos - count } = self.unread.take (self.maxRead - count) := by
  have space : self.maxRead = self.ibWpos - self.ibRpos := if_pos order
  simp only [unread, Ring.contents]
  rw [if_pos (by omega), if_pos order, slice_take _ _ (by omega)]
  congr 1
  omega

/-- Unread bytes that cross the end lose their lower part with a write position at the start. -/
lemma unread_take_upper (wrapped : self.ibWpos ≤ self.ibRpos) :
    unread { self with ibWpos := 0 } = self.unread.take (self.maxRead - self.ibWpos) := by
  have space : self.maxRead = self.ibSize - (self.ibRpos - self.ibWpos) := if_neg (by omega)
  simp only [unread, Ring.contents]
  rw [if_neg (by omega), if_neg (by omega), slice_zero, List.append_nil,
    List.take_left' (by rw [slice_length]; omega)]

/-- An unwrite of a ring that crosses its end is only right for its lower part. -/
lemma unwrite_wrapped_iff (inside : self.Inside) (bound : self.ibSize < 2 ^ bits) (some : 0 < count)
    (fewer : count < self.maxRead) (wrapped : self.ibWpos ≤ self.ibRpos) :
    self.Unwrites count (iobufferUnwrite bits self count false) ↔ count = self.ibWpos := by
  have rposInside := inside.rposInside
  have wposInside := inside.wposInside
  have length := inside.unread_length
  have space : self.maxRead = self.ibSize - (self.ibRpos - self.ibWpos) := if_neg (by omega)
  have clamped : min count self.maxRead = count := by omega
  have state : iobufferUnwrite bits self count false =
      ⟨{ self with ibWpos := stepBack bits self.ibSize self.ibWpos count }, count, false⟩ := by
    simp only [iobufferUnwrite, clamped, Bool.false_eq_true, if_false]
    rw [if_pos (by omega), if_neg (by omega), if_neg (by omega)]
  obtain ⟨whole, partly⟩ := stepBack_cases bound wposInside (show count ≤ self.ibSize by omega)
  rw [state]
  constructor
  · rintro ⟨after, same, _⟩
    by_contra different
    have lengths := congrArg List.length same
    rw [unread_wpos_length after, List.length_take] at lengths
    have place := partly different after.wposInside
    split at lengths <;> omega
  · intro lower
    rw [whole lower]
    refine ⟨⟨rposInside, Nat.zero_le _⟩, ?_, ?_⟩
    · rw [length, lower, unread_take_upper wrapped]
    · dsimp only
      omega

/-- An unwrite takes nothing, everything, bytes in order, or the lower part of a crossing ring. -/
def UnwriteSafe (self : Iobuffer) (maxUnwrite : Nat) : Prop :=
  maxUnwrite = 0 ∨ self.maxRead ≤ maxUnwrite ∨ self.ibRpos < self.ibWpos ∨ maxUnwrite = self.ibWpos

/-- An unwrite that gets the lock is exact in the safe rings and in no other ring. -/
lemma unwrite_iff (inside : self.Inside) (bound : self.ibSize < 2 ^ bits) (maxUnwrite : Nat) :
    self.Unwrites maxUnwrite (iobufferUnwrite bits self maxUnwrite false) ↔
      self.UnwriteSafe maxUnwrite := by
  have length := inside.unread_length
  have wposInside := inside.wposInside
  by_cases nothing : min maxUnwrite self.maxRead = 0
  · refine iff_of_true ?_ (by unfold UnwriteSafe; omega)
    have state : iobufferUnwrite bits self maxUnwrite false = ⟨self, 0, false⟩ := by
      simp [iobufferUnwrite, nothing]
    rw [state]
    refine ⟨inside, ?_, ?_⟩
    · rw [List.take_of_length_le (by omega)]
    · dsimp only
      omega
  by_cases everything : self.maxRead ≤ maxUnwrite
  · refine iff_of_true ?_ (.inr (.inl everything))
    have state : iobufferUnwrite bits self maxUnwrite false =
        ⟨{ self with ibWpos := 0, ibRpos := self.ibSize }, self.maxRead, false⟩ := by
      rw [Nat.min_eq_right everything] at nothing
      simp [iobufferUnwrite, nothing, Nat.min_eq_right everything]
    rw [state]
    refine ⟨⟨le_rfl, Nat.zero_le _⟩, ?_, ?_⟩
    · rw [length, Nat.sub_eq_zero_of_le everything]
      exact Ring.contents_empty _ _
    · dsimp only
      omega
  by_cases order : self.ibRpos < self.ibWpos
  · refine iff_of_true ?_ (.inr (.inr (.inl order)))
    have space : self.maxRead = self.ibWpos - self.ibRpos := if_pos order
    have clamped : min maxUnwrite self.maxRead = maxUnwrite := by omega
    have state : iobufferUnwrite bits self maxUnwrite false =
        ⟨{ self with ibWpos := self.ibWpos - maxUnwrite }, maxUnwrite, false⟩ := by
      simp only [iobufferUnwrite, clamped, Bool.false_eq_true, if_false]
      rw [if_pos (by omega), if_neg (by omega), if_pos order, back_within (by omega) (by omega)]
    rw [state]
    refine ⟨⟨inside.rposInside, show self.ibWpos - maxUnwrite ≤ self.ibSize by omega⟩, ?_, ?_⟩
    · rw [length]
      exact unread_take_straight order (by omega)
    · dsimp only
      omega
  · rw [unwrite_wrapped_iff inside bound (by omega) (by omega) (by omega)]
    unfold UnwriteSafe
    omega

/-- An unread is right for nothing, for upper memory, and for the bytes below the read position. -/
def UnreadSafe (self : Iobuffer) (maxUnread : Nat) : Prop :=
  min maxUnread self.maxWrite = 0 ∨ self.ibWpos < self.ibRpos ∨ min maxUnread self.maxWrite = self.ibRpos

lemma unread_rpos_length {rpos : Nat} (inside : Inside { self with ibRpos := rpos }) :
    (unread { self with ibRpos := rpos }).length =
      if rpos < self.ibWpos then self.ibWpos - rpos else self.ibSize - (rpos - self.ibWpos) :=
  inside.unread_length

/-- A read position that moves back in order puts its bytes before the unread bytes. -/
lemma unread_suffix (inside : self.Inside) (enough : count ≤ self.ibRpos)
    (order : self.ibWpos < self.ibRpos → self.ibWpos ≤ self.ibRpos - count)
    (apart : self.ibRpos ≠ self.ibWpos) :
    self.unread <:+ unread { self with ibRpos := self.ibRpos - count } := by
  have rposInside := inside.rposInside
  have advanced := Ring.contents_advance self.ibBuffer
    (show self.ibRpos - count + count ≤ self.ibSize by omega)
    (show self.ibRpos - count < self.ibWpos → self.ibRpos - count + count < self.ibWpos by omega)
  rw [show self.ibRpos - count + count = self.ibRpos by omega] at advanced
  exact ⟨slice self.ibBuffer (self.ibRpos - count) count, advanced.symm⟩

/-- The positions that an unread leaves are exact in the safe rings only. -/
theorem unread_iff (inside : self.Inside) (bound : self.ibSize < 2 ^ bits) (maxUnread : Nat) :
    self.Unreads maxUnread (iobufferUnread bits self maxUnread false) ↔ self.UnreadSafe maxUnread := by
  have rposInside := inside.rposInside
  have wposInside := inside.wposInside
  have length := inside.unread_length
  have space := inside.maxWrite_eq
  obtain ⟨count, amount⟩ : ∃ count, min maxUnread self.maxWrite = count := ⟨_, rfl⟩
  by_cases nothing : count = 0
  · refine iff_of_true ?_ (.inl (amount.trans nothing))
    have state : iobufferUnread bits self maxUnread false = ⟨self, 0, true⟩ := by
      simp [iobufferUnread, amount, nothing]
    rw [state, Unreads, ← space, amount, nothing]
    exact ⟨inside, rfl, List.suffix_refl _, rfl⟩
  have room : self.maxWrite = if self.ibWpos ≤ self.ibRpos then self.ibRpos - self.ibWpos
      else self.ibSize - (self.ibWpos - self.ibRpos) := rfl
  have held : self.maxRead = if self.ibRpos < self.ibWpos then self.ibWpos - self.ibRpos
      else self.ibSize - (self.ibRpos - self.ibWpos) := rfl
  by_cases upper : self.ibWpos < self.ibRpos
  · refine iff_of_true ?_ (.inr (.inl upper))
    rw [if_neg (by omega)] at held
    have state : iobufferUnread bits self maxUnread false =
      ⟨{ self with ibRpos := self.ibRpos - count }, count, true⟩ := by
      simp only [iobufferUnread, amount, Bool.false_eq_true, if_false]
      rw [if_pos nothing, if_pos upper, back_within (by omega) (by omega)]
    have after : Inside { self with ibRpos := self.ibRpos - count } :=
      ⟨show self.ibRpos - count ≤ self.ibSize by omega, wposInside⟩
    rw [state, Unreads, ← space, amount]
    refine ⟨after, ?_, unread_suffix inside (by omega) (by omega) (by omega), rfl⟩
    rw [unread_rpos_length after, if_neg (by omega)]
    omega
  · have below : self.ibRpos < self.ibWpos := by
      rcases Nat.lt_or_ge self.ibRpos self.ibWpos with order | same
      · exact order
      · rw [if_pos same] at room
        omega
    rw [if_pos below] at held
    have state : iobufferUnread bits self maxUnread false =
        ⟨{ self with ibRpos := stepBack bits self.ibSize self.ibRpos count }, count, true⟩ := by
      simp only [iobufferUnread, amount, Bool.false_eq_true, if_false]
      rw [if_pos nothing, if_neg upper]
    obtain ⟨whole, partly⟩ := stepBack_cases bound rposInside (show count ≤ self.ibSize by omega)
    rw [state, Unreads, ← space, amount]
    constructor
    · rintro ⟨after, lengths, _⟩
      by_contra broken
      have different : count ≠ self.ibRpos := fun same => broken (.inr (.inr (amount.trans same)))
      have place := partly different after.rposInside
      rw [unread_rpos_length after] at lengths
      split at lengths <;> omega
    · intro safe
      have same : count = self.ibRpos := by
        rcases safe with zero | order | same
        · exact absurd (amount.symm.trans zero) nothing
        · omega
        · exact amount.symm.trans same
      have start : self.ibRpos - count = 0 := by omega
      have after : Inside { self with ibRpos := self.ibRpos - count } :=
        ⟨show self.ibRpos - count ≤ self.ibSize by omega, wposInside⟩
      rw [whole same, ← start]
      refine ⟨after, ?_, unread_suffix inside (by omega) (by omega) (by omega), rfl⟩
      rw [unread_rpos_length after, if_pos (by omega)]
      omega

/-- An unread of upper memory. -/
theorem unread_upper : let self : Iobuffer := ⟨4, 4, fun _ => 7, 3, 1⟩
    self.Unreads 1 (iobufferUnread 32 self 1 false) :=
  (unread_iff ⟨by decide, by decide⟩ (by decide) 1).mpr (.inr (.inl (by decide)))

/-- A caller takes back bytes that it read or wrote. -/
inductive UndoCall where
  | unread (maxUnread : Nat)
  | unwrite (maxUnwrite : Nat)

/-- An interrupted call changes nothing, every other call is exact, and the lock is released. -/
def Undoes (bits : Nat) (self : Iobuffer) (interrupted : Bool) : UndoCall → Prop
  | .unread maxUnread =>
    (iobufferUnread bits self maxUnread interrupted).writing = false ∧
      if interrupted then iobufferUnread bits self maxUnread interrupted = ⟨self, eIntr, false⟩
      else self.Unreads maxUnread (iobufferUnread bits self maxUnread interrupted)
  | .unwrite maxUnwrite =>
    (iobufferUnwrite bits self maxUnwrite interrupted).writing = false ∧
      if interrupted then iobufferUnwrite bits self maxUnwrite interrupted = ⟨self, eIntr, false⟩
      else self.Unwrites maxUnwrite (iobufferUnwrite bits self maxUnwrite interrupted)

/-- An unread is only right when it does not get the lock. -/
def UndoSafe (self : Iobuffer) (interrupted : Bool) : UndoCall → Prop
  | .unread _ => interrupted = true
  | .unwrite maxUnwrite => interrupted = true ∨ self.UnwriteSafe maxUnwrite

/-- An unread that gets the lock keeps it. -/
lemma iobufferUnread_writing (bits : Nat) (self : Iobuffer) (maxUnread : Nat) :
    (iobufferUnread bits self maxUnread false).writing = true := by
  simp only [iobufferUnread, Bool.false_eq_true, if_false]
  split
  · split <;> rfl
  · rfl

lemma iobufferUnwrite_writing (bits : Nat) (self : Iobuffer) (maxUnwrite : Nat) :
    (iobufferUnwrite bits self maxUnwrite false).writing = false := by
  simp only [iobufferUnwrite, Bool.false_eq_true, if_false]
  split
  · split
    · rfl
    · split <;> rfl
  · rfl

/-- Taking bytes back is exact in the safe calls and in no other call. -/
theorem undo_iff {bits : Nat} {self : Iobuffer} (inside : self.Inside) (bound : self.ibSize < 2 ^ bits)
    (interrupted : Bool) (call : UndoCall) :
    self.Undoes bits interrupted call ↔ self.UndoSafe interrupted call := by
  cases interrupted with
  | true =>
    cases call with
    | unread maxUnread => exact iff_of_true ⟨rfl, rfl⟩ rfl
    | unwrite maxUnwrite => exact iff_of_true ⟨rfl, rfl⟩ (.inl rfl)
  | false =>
    cases call with
    | unread maxUnread => simp [Undoes, UndoSafe, iobufferUnread_writing]
    | unwrite maxUnwrite =>
      simp [Undoes, UndoSafe, iobufferUnwrite_writing, unwrite_iff inside bound maxUnwrite]

/-- The last of two bytes in order is taken back. -/
theorem undo_last_byte : (⟨4, 4, fun _ => 7, 1, 3⟩ : Iobuffer).Undoes 32 false (.unwrite 1) :=
  (undo_iff ⟨by decide, by decide⟩ (by decide) false (.unwrite 1)).mpr
    (.inr (.inr (.inr (.inl (by decide)))))

/-- An unread leaves the lock held, and an unwrite of one of two lower bytes leaves the buffer. -/
theorem undo_locked_outside : ¬ (⟨4, 4, fun _ => 7, 1, 3⟩ : Iobuffer).Undoes 32 false (.unread 1) ∧
      ¬ (⟨4, 4, fun _ => 7, 3, 2⟩ : Iobuffer).Undoes 32 false (.unwrite 1) := by
  refine ⟨fun undone => ?_, fun undone => ?_⟩
  · exact absurd undone.1 (by decide)
  · exact absurd undone.2.1.wposInside (by decide)

end Iobuffer

end KosKernel.Fs
