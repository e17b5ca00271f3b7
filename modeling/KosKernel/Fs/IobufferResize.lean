/- This file embeds `iobuffer_reserve` and `iobuffer_flush`. -/

import KosKernel.Fs.IobufferFifo

namespace KosKernel.Fs
open Window
namespace Iobuffer

/-- Both positions are inside the buffer. A lowered maximum size does not shrink it. -/
structure Inside (ring : Iobuffer) : Prop where
  rposInside : ring.ibRpos ≤ ring.ibSize
  wposInside : ring.ibWpos ≤ ring.ibSize

lemma Inside.unread_length {ring : Iobuffer} (inside : ring.Inside) :
    ring.unread.length = ring.maxRead :=
  Ring.contents_length ring.ibBuffer inside.rposInside

lemma Inside.maxRead_le {ring : Iobuffer} (inside : ring.Inside) : ring.maxRead ≤ ring.ibSize := by
  have wposInside := inside.wposInside
  unfold maxRead
  split <;> omega

/-- A resizing call finds an interrupted wait or not, and memory or not. -/
structure ResizeEnv where
  interrupted : Bool
  allocated : Bool

/-- This is `-EINTR`. -/
def eIntr : Int := -4

variable (bits : Nat)

/-- This is `iobuffer_reserve`. -/
def reserve (self : Iobuffer) (writeSize : Nat) (env : ResizeEnv) : Iobuffer × Int :=
  if env.interrupted then (self, eIntr) else
  let newTotalSize := min ((self.ibSize + writeSize) % 2 ^ bits) self.ibMaxsize
  if newTotalSize ≠ self.ibSize then
    if env.allocated then
      ({ self with ibBuffer := krealloc self.ibBuffer self.ibSize newTotalSize, ibSize := newTotalSize },
        (newTotalSize : Int) - self.ibSize)
    else (self, 0)
  else (self, 0)

/-- This is `iobuffer_flush`. There is no result when the size of its `memmove` wraps. -/
def flush (self : Iobuffer) (env : ResizeEnv) : Option (Iobuffer × Nat) :=
  let newsize := self.maxRead
  if newsize = self.ibSize then some (self, 0) else
  if newsize = 0 then
    some ({ self with ibBuffer := fun _ => 0, ibRpos := 0, ibWpos := 0, ibSize := 0 }, self.ibSize)
  else
    let rindex := self.ibRpos
    if env.allocated then
      -- The reallocation cuts the buffer to its first bytes before the unread bytes are moved there.
      let newbuf := krealloc self.ibBuffer self.ibSize newsize
      if newsize < rindex then none
      else some ({ self with
        ibBuffer := store newbuf 0 (slice newbuf rindex (newsize - rindex))
        ibRpos := 0, ibWpos := newsize, ibSize := newsize }, self.ibSize - newsize)
    else some (self, 0)

/-- A caller asks for more memory or gives unused memory back. -/
inductive ResizeCall where
  | reserve (writeSize : Nat)
  | flush

/-- The buffer that a resizing call leaves. -/
def resize (self : Iobuffer) (env : ResizeEnv) : ResizeCall → Option Iobuffer
  | .reserve writeSize => some (self.reserve bits writeSize env).1
  | .flush => (self.flush env).map Prod.fst

/-- The call returns and leaves a buffer from which the same bytes are read. -/
def KeepsUnread (self : Iobuffer) (env : ResizeEnv) (call : ResizeCall) : Prop :=
  ∃ next, self.resize bits env call = some next ∧ next.Inside ∧ next.unread = self.unread

/-- A reservation meets bytes in order, a flush bytes at the start, or nothing changes. -/
def ResizeSafe (self : Iobuffer) (env : ResizeEnv) : ResizeCall → Prop
  | .reserve writeSize => env.interrupted = true ∨ env.allocated = false ∨
      min ((self.ibSize + writeSize) % 2 ^ bits) self.ibMaxsize = self.ibSize ∨
      (self.ibRpos < self.ibWpos ∧ self.ibWpos ≤ (self.ibSize + writeSize) % 2 ^ bits ∧
        self.ibWpos ≤ self.ibMaxsize)
  | .flush => env.allocated = false ∨ self.ibRpos = 0 ∨ self.maxRead = 0 ∨ self.maxRead = self.ibSize

instance (bits : Nat) (self : Iobuffer) (env : ResizeEnv) (call : ResizeCall) :
    Decidable (self.ResizeSafe bits env call) :=
  match call with
  | .reserve _ => inferInstanceAs (Decidable (_ ∨ _))
  | .flush => inferInstanceAs (Decidable (_ ∨ _))

variable {self : Iobuffer}

/-- A resized buffer with its offsets reads the same bytes exactly if they are in order. -/
lemma resized_unread_iff (inside : self.Inside) {newSize : Nat} (resized : newSize ≠ self.ibSize) :
    (Inside { self with ibBuffer := krealloc self.ibBuffer self.ibSize newSize, ibSize := newSize } ∧
      unread { self with ibBuffer := krealloc self.ibBuffer self.ibSize newSize, ibSize := newSize } =
        self.unread) ↔ self.ibRpos < self.ibWpos ∧ self.ibWpos ≤ newSize := by
  have rposInside := inside.rposInside
  have wposInside := inside.wposInside
  constructor
  · rintro ⟨after, same⟩
    have rposAfter : self.ibRpos ≤ newSize := after.rposInside
    have wposAfter : self.ibWpos ≤ newSize := after.wposInside
    refine ⟨?_, wposAfter⟩
    by_contra wrapped
    have lengths := congrArg List.length same
    rw [after.unread_length, inside.unread_length] at lengths
    simp only [maxRead, if_neg wrapped] at lengths
    omega
  · rintro ⟨order, fits⟩
    refine ⟨⟨show self.ibRpos ≤ newSize by omega, fits⟩, ?_⟩
    simp only [unread, Ring.contents]
    rw [if_pos order, if_pos order]
    apply slice_congr
    intro position lower upper
    rw [krealloc, if_pos (by omega)]

lemma reserve_keeps_iff (inside : self.Inside) (env : ResizeEnv) (writeSize : Nat) :
    self.KeepsUnread bits env (.reserve writeSize) ↔ self.ResizeSafe bits env (.reserve writeSize) := by
  have unchanged (same : (self.reserve bits writeSize env).1 = self) :
      self.KeepsUnread bits env (.reserve writeSize) := by
    refine ⟨self, ?_, inside, rfl⟩
    rw [resize, same]
  by_cases stopped : env.interrupted = true
  · refine iff_of_true (unchanged ?_) (.inl stopped)
    rw [reserve, if_pos stopped]
  by_cases allocated : env.allocated = true
  · by_cases same : min ((self.ibSize + writeSize) % 2 ^ bits) self.ibMaxsize = self.ibSize
    · refine iff_of_true (unchanged ?_) (.inr (.inr (.inl same)))
      rw [reserve, if_neg stopped]
      rw [if_neg (not_not_intro same)]
    · have state : self.resize bits env (.reserve writeSize) = some { self with
          ibBuffer := krealloc self.ibBuffer self.ibSize
            (min ((self.ibSize + writeSize) % 2 ^ bits) self.ibMaxsize)
          ibSize := min ((self.ibSize + writeSize) % 2 ^ bits) self.ibMaxsize } := by
        rw [resize, reserve, if_neg stopped]
        rw [if_pos same, if_pos allocated]
      simp only [KeepsUnread, state, Option.some.injEq, exists_eq_left', resized_unread_iff inside same]
      simp [ResizeSafe, stopped, allocated, same]
  · refine iff_of_true (unchanged ?_) (.inr (.inl (by simpa using allocated)))
    rw [reserve, if_neg stopped]
    dsimp only
    rw [if_neg allocated, ite_self]

/-- An empty ring loses its memory and stays empty. -/
lemma flush_empty_keeps (inside : self.Inside) (env : ResizeEnv) (shrinks : self.maxRead ≠ self.ibSize)
    (empty : self.maxRead = 0) : self.KeepsUnread bits env .flush := by
  refine ⟨{ self with ibBuffer := fun _ => 0, ibRpos := 0, ibWpos := 0, ibSize := 0 }, ?_,
    ⟨le_rfl, le_rfl⟩, ?_⟩
  · simp only [resize, flush]
    rw [if_neg shrinks, if_pos empty]
    rfl
  · rw [List.eq_nil_of_length_eq_zero (inside.unread_length.trans empty)]
    rfl

/-- The buffer that a flush leaves when it has moved the unread bytes. -/
def moved (self : Iobuffer) : Iobuffer := { self with
  ibBuffer := store (krealloc self.ibBuffer self.ibSize self.maxRead) 0
    (slice (krealloc self.ibBuffer self.ibSize self.maxRead) self.ibRpos (self.maxRead - self.ibRpos))
  ibRpos := 0
  ibWpos := self.maxRead
  ibSize := self.maxRead }

/-- A flush that has to move bytes does so from the positions of the cut buffer. -/
lemma resize_flush_moved (self : Iobuffer) (env : ResizeEnv)
    (shrinks : self.maxRead ≠ self.ibSize) (occupied : self.maxRead ≠ 0)
    (allocated : env.allocated = true) :
    self.resize bits env .flush = if self.maxRead < self.ibRpos then none else some self.moved := by
  simp only [resize, flush]
  rw [if_neg shrinks, if_neg occupied, if_pos allocated]
  split <;> rfl

/-- Unread bytes at the start of the buffer survive the cut of the buffer to their number. -/
lemma moved_straight_unread (inside : self.Inside) (shrinks : self.maxRead ≠ self.ibSize)
    (occupied : self.maxRead ≠ 0) (start : self.ibRpos = 0) : self.moved.unread = self.unread := by
  have within := inside.maxRead_le
  have order : self.ibRpos < self.ibWpos := by
    by_contra wrapped
    rw [maxRead, if_neg wrapped] at shrinks
    omega
  have count : self.ibWpos - self.ibRpos = self.maxRead := (if_pos order).symm
  have whole : (slice (krealloc self.ibBuffer self.ibSize self.maxRead) 0 self.maxRead).length =
    self.maxRead := slice_length _ _ _
  have same := slice_store_same (krealloc self.ibBuffer self.ibSize self.maxRead) 0
    (slice (krealloc self.ibBuffer self.ibSize self.maxRead) 0 self.maxRead)
  rw [whole] at same
  have after : self.moved.unread = slice self.moved.ibBuffer 0 self.maxRead :=
    if_pos (by simp only [moved]; omega)
  have before : self.unread = slice self.ibBuffer self.ibRpos (self.ibWpos - self.ibRpos) := if_pos order
  rw [after, before, count, moved, start, Nat.sub_zero, same]
  apply slice_congr
  intro position lower upper
  rw [krealloc, if_pos (by omega)]

/-- Unread bytes behind the start of the buffer are cut off before they are moved. -/
lemma moved_shifted_unread (inside : self.Inside) (shrinks : self.maxRead ≠ self.ibSize)
    (reached : self.ibRpos ≤ self.maxRead) (shifted : self.ibRpos ≠ 0)
    (differ : self.ibBuffer (self.maxRead - self.ibRpos) ≠ self.ibBuffer self.maxRead) :
    self.moved.unread ≠ self.unread := by
  have within := inside.maxRead_le
  intro same
  apply differ
  have before := Ring.contents_getElem? self.ibBuffer inside.rposInside inside.wposInside
    (show self.maxRead - self.ibRpos < self.maxRead by omega)
  have after := Ring.contents_getElem? self.moved.ibBuffer (Nat.zero_le self.maxRead)
    (le_refl self.maxRead)
    (show self.maxRead - self.ibRpos < Ring.held self.maxRead 0 self.maxRead by
      rw [Ring.held, if_pos (by omega)]
      omega)
  rw [if_pos (by omega), Nat.zero_add] at after
  rw [if_pos (by omega), show self.ibRpos + (self.maxRead - self.ibRpos) = self.maxRead by omega]
    at before
  have bytes : self.moved.ibBuffer (self.maxRead - self.ibRpos) = self.ibBuffer self.maxRead :=
    Option.some.inj (after.symm.trans ((congrArg (·[self.maxRead - self.ibRpos]?) same).trans before))
  rw [← bytes]
  simp only [moved]
  rw [store_outside _ _ _ _ (.inr (by rw [slice_length]; omega)), krealloc, if_pos (by omega)]

/-- A safe flush keeps the unread bytes. -/
lemma flush_keeps (inside : self.Inside) (env : ResizeEnv) (safe : self.ResizeSafe bits env .flush) :
    self.KeepsUnread bits env .flush := by
  have unchanged (same : self.flush env = some (self, 0)) : self.KeepsUnread bits env .flush := by
    refine ⟨self, ?_, inside, rfl⟩
    rw [resize, same]
    rfl
  by_cases full : self.maxRead = self.ibSize
  · exact unchanged (if_pos full)
  by_cases empty : self.maxRead = 0
  · exact flush_empty_keeps bits inside env full empty
  by_cases allocated : env.allocated = true
  · have start : self.ibRpos = 0 := by
      rcases safe with failed | start | none | all
      · simp [allocated] at failed
      · exact start
      · exact absurd none empty
      · exact absurd all full
    refine ⟨self.moved, ?_, ⟨Nat.zero_le _, le_rfl⟩, moved_straight_unread inside full empty start⟩
    rw [resize_flush_moved bits self env full empty allocated, if_neg (by omega)]
  · apply unchanged
    rw [flush]
    rw [if_neg full, if_neg empty, if_neg allocated]

/-- The same ring with other bytes. -/
def withBytes (self : Iobuffer) (buffer : Nat → Byte) : Iobuffer := { self with ibBuffer := buffer }

lemma Inside.withBytes (inside : self.Inside) (buffer : Nat → Byte) : (self.withBytes buffer).Inside :=
  ⟨inside.rposInside, inside.wposInside⟩

/-- An unsafe flush loses the byte behind the cut when another takes its place. -/
lemma flush_loses (inside : self.Inside) (env : ResizeEnv) (broken : ¬ self.ResizeSafe bits env .flush)
    (differ : self.ibBuffer (self.maxRead - self.ibRpos) ≠ self.ibBuffer self.maxRead) :
    ¬ self.KeepsUnread bits env .flush := by
  rintro ⟨next, reached, _, same⟩
  simp only [ResizeSafe, not_or, Bool.not_eq_false] at broken
  obtain ⟨allocated, shifted, occupied, shrinks⟩ := broken
  rw [resize_flush_moved bits self env shrinks occupied allocated] at reached
  split at reached
  · exact nomatch reached
  · rename_i enough
    cases Option.some.inj reached
    exact moved_shifted_unread inside shrinks (Nat.le_of_not_lt enough) shifted differ same

/-- A resizing call keeps the unread bytes of a ring exactly in the safe rings. -/
theorem resize_keeps_iff {self : Iobuffer} (inside : self.Inside) (env : ResizeEnv) (call : ResizeCall) :
    (∀ buffer, (self.withBytes buffer).KeepsUnread bits env call) ↔ self.ResizeSafe bits env call := by
  cases call with
  | reserve writeSize =>
    constructor
    · intro keeps
      exact (reserve_keeps_iff bits (inside.withBytes self.ibBuffer) env writeSize).mp
        (keeps self.ibBuffer)
    · intro safe buffer
      exact (reserve_keeps_iff bits (inside.withBytes buffer) env writeSize).mpr safe
  | flush =>
    constructor
    · intro keeps
      by_contra broken
      have shifted : self.ibRpos ≠ 0 := fun start => broken (.inr (.inl start))
      have occupied : self.maxRead ≠ 0 := fun empty => broken (.inr (.inr (.inl empty)))
      -- A single marked byte behind the cut shows the loss.
      refine flush_loses bits
        (inside.withBytes fun position => if position = self.maxRead then 1 else 0) env
        broken ?_ (keeps _)
      change (if self.maxRead - self.ibRpos = self.maxRead then (1 : Byte) else 0) ≠
        if self.maxRead = self.maxRead then 1 else 0
      rw [if_neg (by omega), if_pos rfl]
      decide
    · intro safe buffer
      exact flush_keeps bits (inside.withBytes buffer) env safe

/-- A reservation keeps two unread bytes in the middle of the buffer. -/
theorem resize_keeps_straight :
    ((⟨8, 4, fun _ => 0, 1, 3⟩ : Iobuffer).withBytes fun _ => 7).KeepsUnread 32 ⟨false,
      true⟩ (.reserve 3) :=
  (resize_keeps_iff 32 ⟨by decide, by decide⟩ ⟨false, true⟩ (.reserve 3)).mpr (by decide) fun _ => 7

/-- A reservation for a buffer without memory makes it look full. -/
theorem reserve_unallocated_gains : ¬ (init 4).KeepsUnread 32 ⟨false, true⟩ (.reserve 2) := by
  rw [reserve_keeps_iff 32 ⟨by decide, by decide⟩]
  decide

end Iobuffer

end KosKernel.Fs
