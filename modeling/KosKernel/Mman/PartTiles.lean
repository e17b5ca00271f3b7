import KosKernel.Mman.Part

namespace KosKernel.Mman
open Library

/-- The bytes of all links. -/
def mscatterSize : List MScatter → Nat
  | [] => 0
  | link :: rest => link.mSize + mscatterSize rest

/-- The address of the byte at an offset. -/
def mscatterAddress (bits : Nat) : List MScatter → Nat → Option Nat
  | [], _ => none
  | link :: rest, offset =>
    if offset < link.mSize then some ((link.mStart + offset) % 2 ^ bits)
    else mscatterAddress bits rest (offset - link.mSize)

/-- Splitting a scatter list divides its bytes at the offset. -/
lemma mscatterSplitLo_spec (bits : Nat) (links : List MScatter) (offset : Nat)
    (within : offset < mscatterSize links) :
    ∃ low high, mscatterSplitLo bits links offset = some (low, high) ∧ mscatterSize low = offset ∧
      mscatterSize high = mscatterSize links - offset ∧
      (∀ place, place < offset → mscatterAddress bits low place = mscatterAddress bits links place) ∧
      ∀ place, mscatterAddress bits high place = mscatterAddress bits links (offset + place) := by
  induction links generalizing offset with
  | nil => exact absurd within (Nat.not_lt_zero offset)
  | cons link rest ih =>
    simp only [mscatterSize] at within ⊢
    rcases Nat.lt_trichotomy link.mSize offset with beyond | meets | inside
    · obtain ⟨low, high, split, lowSize, highSize, lowBytes, highBytes⟩ :=
        ih (offset - link.mSize) (by omega)
      refine ⟨link :: low, high, by simp [mscatterSplitLo, beyond, split], ?_, by omega, ?_, ?_⟩
      · rw [mscatterSize]
        omega
      · intro place below
        simp only [mscatterAddress]
        by_cases first : place < link.mSize
        · rw [if_pos first, if_pos first]
        · rw [if_neg first, if_neg first, lowBytes _ (by omega)]
      · intro place
        rw [highBytes, mscatterAddress, if_neg (by omega)]
        congr 1
        omega
    · cases rest with
      | nil =>
        simp only [mscatterSize] at within
        omega
      | cons next following =>
        refine ⟨[link], next :: following, by simp [mscatterSplitLo, meets], by
          simp [mscatterSize, meets], ?_, ?_, ?_⟩
        · omega
        · intro place below
          simp only [mscatterAddress]
          rw [if_pos (by omega), if_pos (by omega)]
        · intro place
          rw [mscatterAddress.eq_2 bits (offset + place) link, if_neg (by omega)]
          congr 1
          omega
    · refine ⟨[{ link with mSize := offset }],
        ⟨(link.mStart + offset) % 2 ^ bits, link.mSize - offset⟩ :: rest, ?_, ?_, ?_, ?_, ?_⟩
      · cases rest <;> rw [mscatterSplitLo, if_neg (by omega), if_neg (by omega)]
      · rfl
      · simp only [mscatterSize]
        omega
      · intro place below
        simp only [mscatterAddress]
        rw [if_pos below, if_pos (by omega)]
      · intro place
        simp only [mscatterAddress]
        by_cases first : place < link.mSize - offset
        · rw [if_pos first, if_pos (by omega), Nat.mod_add_mod, Nat.add_assoc]
        · rw [if_neg first, if_neg (by omega)]
          congr 1
          omega

/-- Joining two scatter lists puts their bytes one behind the other. -/
lemma mscatterCat_spec (bits : Nat) (links source : List MScatter) :
    mscatterSize (mscatterCat bits links source) = mscatterSize links + mscatterSize source ∧
    (∀ place, place < mscatterSize links →
        mscatterAddress bits (mscatterCat bits links source) place = mscatterAddress bits links place) ∧
      ∀ place, mscatterAddress bits (mscatterCat bits links source) (mscatterSize links + place) =
        mscatterAddress bits source place := by
  induction links with
  | nil => simp [mscatterCat, mscatterSize]
  | cons link rest ih =>
    cases rest with
    | nil =>
      cases source with
      | nil => simp [mscatterCat, mscatterSize, mscatterAddress]
      | cons next following =>
        by_cases adjacent : (link.mStart + link.mSize) % 2 ^ bits = next.mStart
        · simp only [mscatterCat, adjacent, if_true, mscatterSize, mscatterAddress, Nat.add_zero]
          refine ⟨Nat.add_assoc _ _ _, ?_, ?_⟩
          · intro place below
            rw [if_pos (by omega), if_pos below]
          · intro place
            by_cases first : place < next.mSize
            · rw [if_pos (by omega), if_pos first, ← adjacent, Nat.mod_add_mod, Nat.add_assoc]
            · rw [if_neg (by omega), if_neg first]
              congr 1
              omega
        · simp only [mscatterCat, adjacent, if_false, mscatterSize, mscatterAddress, Nat.add_zero]
          refine ⟨trivial, ?_, ?_⟩
          · intro place below
            rw [if_pos below, if_pos below]
          · intro place
            rw [if_neg (by omega), Nat.add_sub_cancel_left]
    | cons second following =>
      obtain ⟨size, early, late⟩ := ih
      simp only [mscatterCat]
      refine ⟨?_, ?_, ?_⟩
      · rw [mscatterSize, size, mscatterSize.eq_2 link, Nat.add_assoc]
      · intro place below
        rw [mscatterSize] at below
        rw [mscatterAddress, mscatterAddress.eq_2 bits place link]
        by_cases first : place < link.mSize
        · rw [if_pos first, if_pos first]
        · rw [if_neg first, if_neg first, early _ (by omega)]
      · intro place
        rw [mscatterAddress, mscatterSize, if_neg (by omega), ← late place]
        congr 1
        omega

namespace MPart
variable {bits : Nat}

/-- The memory of a part that is in core has the size of the part. -/
def Fills (part : MPart bits) (size : Nat) : Prop :=
  part.mtState = .incore → mscatterSize part.mtMemory = size

instance (part : MPart bits) (size : Nat) : Decidable (part.Fills size) :=
  inferInstanceAs (Decidable (_ → _))

/-- The address of the byte at an offset of a part that is in core. -/
def physical (part : MPart bits) (offset : Nat) : Option Nat :=
  if part.mtState = .incore then mscatterAddress bits part.mtMemory offset else none

/-- Two parts agree on all that holds for each of their pages, apart from the memory. -/
structure Alike (part other : MPart bits) : Prop where
  refcnt : part.mtRefcnt = other.mtRefcnt
  state : part.mtState = other.mtState
  flags : part.mtFlags = other.mtFlags

variable {part other next : MPart bits} {size : Nat}

lemma Alike.symm (alike : Alike part other) : Alike other part :=
  ⟨alike.refcnt.symm, alike.state.symm, alike.flags.symm⟩

lemma Alike.trans {third : MPart bits} (alike : Alike part other) (further : Alike other third) :
    Alike part third :=
  ⟨alike.refcnt.trans further.refcnt, alike.state.trans further.state, alike.flags.trans further.flags⟩

lemma mergeable_iff : Mergeable part next ↔ Alike part next :=
  ⟨fun ⟨refcnt, state, flags⟩ => ⟨refcnt.symm, state.symm, flags.symm⟩,
    fun alike => ⟨alike.refcnt.symm, alike.state.symm, alike.flags.symm⟩⟩

/-- The part is divided into the two others at the offset. -/
structure Divides (part : MPart bits) (offset : Nat) (low high : MPart bits) : Prop where
  lowStart : low.mtStart = part.mtStart
  highStart : high.mtStart = part.mtStart + offset
  lowAlike : Alike low part
  highAlike : Alike high part
  lowLocked : low.mtLocked = part.mtLocked
  highLocked : high.mtLocked = part.mtLocked
  lowPhysical : ∀ place, place < offset → low.physical place = part.physical place
  highPhysical : ∀ place, high.physical place = part.physical (offset + place)

/-- A part that is not in swap can be split. -/
lemma splitLo_spec {splitAddr : Nat} (fills : part.Fills size) (above : part.mtStart < splitAddr)
    (below : splitAddr < part.mtStart + size) (unswapped : part.mtState ≠ .inswap) :
    ∃ low high, part.splitLo splitAddr = some (low, high) ∧
    Divides part (splitAddr - part.mtStart) low high ∧
      low.Fills (splitAddr - part.mtStart) ∧ high.Fills (part.mtStart + size - splitAddr) := by
  have position : splitAddr = part.mtStart + (splitAddr - part.mtStart) := by omega
  by_cases incore : part.mtState = .incore
  · have total := fills incore
    obtain ⟨low, high, split, lowSize, highSize, lowBytes, highBytes⟩ :=
      mscatterSplitLo_spec bits part.mtMemory (splitAddr - part.mtStart) (by omega)
    refine ⟨{ part with mtMemory := low }, { part with mtStart := splitAddr, mtMemory := high }, ?_,
      ?_, ?_, ?_⟩
    · simp [splitLo, incore, split]
    · refine ⟨rfl, position, ⟨rfl, rfl, rfl⟩, ⟨rfl, rfl, rfl⟩, rfl, rfl, ?_, ?_⟩
      · intro place inside
        simp only [physical, incore, if_true]
        exact lowBytes place inside
      · intro place
        simp only [physical, incore, if_true]
        exact highBytes place
    · exact fun _ => lowSize
    · intro _
      show mscatterSize high = _
      omega
  · refine ⟨part, { part with mtStart := splitAddr }, ?_, ?_, ?_, ?_⟩
    · unfold splitLo
      cases state : part.mtState with
      | missing => rfl
      | incore => exact absurd state incore
      | inswap => exact absurd state unswapped
      | unknown => rfl
    · refine ⟨rfl, position, ⟨rfl, rfl, rfl⟩, ⟨rfl, rfl, rfl⟩, rfl, rfl, fun _ _ => rfl, ?_⟩
      intro place
      simp [physical, incore]
    · exact fun state => absurd state incore
    · exact fun state => absurd state incore

/-- The two parts of the given sizes are joined to one. -/
structure Joins (part next : MPart bits) (size : Nat) (joined : MPart bits) : Prop where
  start : joined.mtStart = part.mtStart
  alike : Alike joined part
  nextAlike : Alike joined next
  locked : joined.mtLocked = part.mtLocked
  unswapped : joined.mtState ≠ .inswap
  lowPhysical : ∀ place, place < size → joined.physical place = part.physical place
  highPhysical : ∀ place, joined.physical (size + place) = next.physical place

/-- This is what a successful `mregion_part_merge` does. -/
lemma merge_spec {joined : MPart bits} {nextSize : Nat} (fills : part.Fills size)
    (nextFills : next.Fills nextSize)
    (merged : part.merge next = some joined) :
    Joins part next size joined ∧ joined.Fills (size + nextSize) := by
  unfold merge at merged
  split at merged
  case isFalse => cases merged
  case isTrue mergeable =>
    have alike := mergeable_iff.mp mergeable
    cases state : part.mtState with
    | inswap => simp only [state, reduceCtorEq] at merged
    | incore =>
      simp only [state, Option.some.injEq] at merged
      subst merged
      obtain ⟨total, early, late⟩ := mscatterCat_spec bits part.mtMemory next.mtMemory
      have size_eq := fills state
      have nextState : next.mtState = .incore := alike.state ▸ state
      have nextSize_eq := nextFills nextState
      refine ⟨⟨rfl, ⟨rfl, state.symm, rfl⟩, ⟨alike.refcnt, nextState.symm, alike.flags⟩, rfl, ?_,
        ?_, ?_⟩, fun _ => ?_⟩
      · simp
      · intro place inside
        simp only [physical, state, if_true]
        exact early place (by omega)
      · intro place
        simp only [physical, nextState, if_true]
        rw [← size_eq]
        exact late place
      · show mscatterSize (mscatterCat bits part.mtMemory next.mtMemory) = _
        omega
    | missing | unknown =>
      simp only [state, Option.some.injEq] at merged
      subst merged
      have nextState : next.mtState ≠ .incore := by simp [← alike.state, state]
      refine ⟨⟨rfl, ⟨rfl, rfl, rfl⟩, alike, rfl, ?_, fun _ _ => rfl, ?_⟩, ?_⟩
      · simp [state]
      · intro place
        simp [physical, state, nextState]
      · intro incore
        simp [state] at incore

end MPart

end KosKernel.Mman
