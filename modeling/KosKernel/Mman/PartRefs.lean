import KosKernel.Mman.PartAction

namespace KosKernel.Mman
open Library MPart
namespace MPart
variable {bits : Nat}

/-- The values that belong to one page of a region, with the address of its memory. -/
structure PageInfo where
  refcnt : UInt32
  state : MPartState
  flags : MPartFlags
  physical : Option Nat

/-- The values of the page at an offset of the part. -/
def pageInfo (part : MPart bits) (offset : Nat) : PageInfo :=
  ⟨part.mtRefcnt, part.mtState, part.mtFlags, part.physical offset⟩

/-- The effect of `action_incref` on a page. -/
def PageInfo.increment (info : PageInfo) : PageInfo := { info with refcnt := info.refcnt + 1 }

/-- The effect of `action_decref` on a page. -/
def PageInfo.decrement (type : MRegionType) (info : PageInfo) : PageInfo :=
  if info.refcnt - 1 = 0 then
    if type = .mem ∧ ¬ info.flags.keep then ⟨info.refcnt - 1, .missing,
      { info.flags with chng := false }, none⟩
    else { info with refcnt := info.refcnt - 1, flags := { info.flags with chng := false } }
  else { info with refcnt := info.refcnt - 1 }

lemma PageInfo.decrement_refcnt (type : MRegionType) (info : PageInfo) :
    (info.decrement type).refcnt = info.refcnt - 1 := by
  unfold decrement
  split_ifs <;> rfl

variable {type : MRegionType} {part other : MPart bits} {size : Nat}

/-- A page whose count stays positive keeps its state and its memory. -/
lemma PageInfo.decrement_kept {info : PageInfo} (positive : info.refcnt - 1 ≠ 0) :
    (info.decrement type).state = info.state ∧ (info.decrement type).physical = info.physical := by
  rw [decrement, if_neg positive]
  exact ⟨rfl, rfl⟩

lemma pageInfo_cut {low high : MPart bits} {offset : Nat} (divides : Divides part offset low high) :
    (∀ place, place < offset → low.pageInfo place = part.pageInfo place) ∧
      ∀ place, high.pageInfo place = part.pageInfo (offset + place) := by
  have lowAlike := divides.lowAlike
  have highAlike := divides.highAlike
  refine ⟨fun place inside => ?_, fun place => ?_⟩
  · rw [pageInfo, pageInfo, lowAlike.refcnt, lowAlike.state, lowAlike.flags,
      divides.lowPhysical place inside]
  · rw [pageInfo, pageInfo, highAlike.refcnt, highAlike.state, highAlike.flags,
      divides.highPhysical place]

lemma pageInfo_join {next joined : MPart bits} (joins : Joins part next size joined) :
    (∀ place, place < size → joined.pageInfo place = part.pageInfo place) ∧
      ∀ place, joined.pageInfo (size + place) = next.pageInfo place := by
  have alike := joins.alike
  have nextAlike := joins.nextAlike
  refine ⟨fun place inside => ?_, fun place => ?_⟩
  · rw [pageInfo, pageInfo, alike.refcnt, alike.state, alike.flags, joins.lowPhysical place inside]
  · rw [pageInfo, pageInfo, nextAlike.refcnt, nextAlike.state, nextAlike.flags, joins.highPhysical place]

/-- An action on the values of each page is lawful if no lock is watched. -/
lemma lawful_pageInfo {action : MPart bits → MPart bits} {change : PageInfo → PageInfo}
    (start : ∀ part, (action part).mtStart = part.mtStart) (fills : ∀ part size, part.Fills size →
      (action part).Fills size)
    (alike : ∀ part other, Alike part other → Alike (action part) (action other))
    (acts : ∀ part place, (action part).pageInfo place = change (part.pageInfo place)) :
    Lawful (fun _ => ()) pageInfo action change :=
  { start
    fills
    like := fun part other like => ⟨alike part other like.1, rfl⟩
    acts
    cutLow := fun _ _ _ _ divides => (pageInfo_cut divides).1
    cutHigh := fun _ _ _ _ divides => (pageInfo_cut divides).2
    joinLow := fun _ _ _ _ joins _ => (pageInfo_join joins).1
    joinHigh := fun _ _ _ _ joins _ => (pageInfo_join joins).2 }

lemma alike_actionIncref (alike : Alike part other) : Alike part.actionIncref other.actionIncref :=
  ⟨congrArg (· + 1) alike.refcnt, alike.state, alike.flags⟩

lemma actionDecref_start (type : MRegionType) (part : MPart bits) :
    (part.actionDecref type).mtStart = part.mtStart := by
  unfold actionDecref
  dsimp only
  split_ifs <;> rfl

lemma actionDecref_locked (type : MRegionType) (part : MPart bits) :
    (part.actionDecref type).mtLocked = part.mtLocked := by
  unfold actionDecref
  dsimp only
  split_ifs <;> rfl

lemma actionDecref_fills (fills : part.Fills size) : (part.actionDecref type).Fills size := by
  unfold actionDecref
  dsimp only
  split_ifs
  · intro incore
    cases incore
  · exact fills
  · exact fills

lemma alike_actionDecref (type : MRegionType) (alike : Alike part other) :
    Alike (part.actionDecref type) (other.actionDecref type) := by
  unfold actionDecref
  dsimp only
  rw [alike.refcnt, alike.flags]
  split_ifs
  · exact ⟨rfl, rfl, rfl⟩
  · exact ⟨rfl, alike.state, rfl⟩
  · exact ⟨rfl, alike.state, rfl⟩

lemma actionDecref_pageInfo (type : MRegionType) (part : MPart bits) (place : Nat) :
    (part.actionDecref type).pageInfo place = (part.pageInfo place).decrement type := by
  unfold actionDecref PageInfo.decrement pageInfo
  dsimp only
  split_ifs
  · simp [physical]
  · rfl
  · rfl

lemma lawful_incref : Lawful (fun _ => ()) pageInfo
    (actionIncref : MPart bits → MPart bits) PageInfo.increment :=
  lawful_pageInfo (fun _ => rfl) (fun _ _ fills => fills) (fun _ _ => alike_actionIncref) fun _ _ => rfl

lemma lawful_decref (type : MRegionType) :
    Lawful (fun _ => ()) pageInfo (actionDecref type : MPart bits → MPart bits)
      (PageInfo.decrement type) :=
  lawful_pageInfo (actionDecref_start type) (fun _ _ => actionDecref_fills)
    (fun _ _ => alike_actionDecref type)
    (actionDecref_pageInfo type)

/-- If no lock is watched, every join is safe. -/
lemma harmless_unwatched (limit finish : Nat) (action : MPart bits → MPart bits)
    (before : Option (MPart bits))
    (parts : List (MPart bits)) : Harmless (fun _ => ()) limit finish action before parts := by
  induction parts generalizing before with
  | nil => trivial
  | cons part rest ih => exact .inr ⟨fun _ _ _ => rfl, fun _ _ _ => rfl, fun _ => ih _⟩

lemma ready_unwatched (limit start finish : Nat) (action : MPart bits → MPart bits)
    (before : Option (MPart bits))
    (parts : List (MPart bits)) : Ready (fun _ => ()) limit start finish action before parts := by
  induction parts generalizing before with
  | nil => trivial
  | cons part rest ih =>
    rw [Ready]
    split
    · exact ih _
    · exact harmless_unwatched _ _ _ _ _

end MPart

namespace MRegion
variable {bits : Nat} {K V : Type} (region : MRegion bits)

/-- The parts cover the region without gaps, and the memory has the size of its part. -/
def Covered : Prop := MPart.Tiles region.mrSize 0 region.mrParts

instance (region : MRegion bits) : Decidable region.Covered := by
  unfold MRegion.Covered
  infer_instance

/-- Neither end of the range cuts a part that is in swap. -/
def Unswapped (start bytes : Nat) : Prop :=
  MPart.Uncut region.mrSize start region.mrParts ∧
    MPart.Uncut region.mrSize (start + bytes) region.mrParts

instance (region : MRegion bits) (start bytes : Nat) : Decidable (region.Unswapped start bytes) :=
  inferInstanceAs (Decidable (_ ∧ _))

/-- An action on a range succeeds and changes the view of exactly this range. -/
lemma partAction_spec {watch : BitVec 16 → K} {info : MPart bits → Nat → V}
    {action : MPart bits → MPart bits}
    {change : V → V} (laws : MPart.Lawful watch info action change) (region : MRegion bits)
    (covered : region.Covered)
    {start bytes : Nat} (within : start + bytes ≤ region.mrSize)
    (unswapped : region.Unswapped start bytes)
    (ready : MPart.Ready watch region.mrSize start (start + bytes) action none region.mrParts)
    (undo : Option (MPart bits → MPart bits)) :
    ∃ parts, region.partAction start bytes action undo = some ({ region with mrParts := parts }, true) ∧
      { region with mrParts := parts }.Covered ∧
      Tiling.Changed change start (start + bytes) (view info region.mrSize region.mrParts)
        (view info region.mrSize parts) := by
  unfold partAction
  by_cases empty : bytes = 0
  · rw [if_pos empty]
    refine ⟨region.mrParts, rfl, covered, fun place => ?_⟩
    rw [if_neg (by omega)]
  rw [if_neg empty]
  have begins : stop region.mrSize region.mrParts = 0 := Tiling.Tiles.stop_eq covered
  have cursor : MPart.AtCursor watch action region.mrSize [] region.mrParts start bytes :=
    ⟨covered, by omega, by omega, within, unswapped.1, unswapped.2, ready⟩
  have bound := pending_le region.mrSize region.mrParts start bytes
  obtain ⟨parts, result, tiles, changed⟩ := actionLoop_spec laws region.turns cursor (by
    unfold turns
    omega)
  refine ⟨parts, ?_, tiles, changed⟩
  rw [result]
  rfl

/-- The values of the page at an offset of the region. -/
def pageAt (offset : Nat) : Option (MPart.PageInfo) :=
  view pageInfo region.mrSize region.mrParts offset

lemma pageAt_covered {region : MRegion bits} (covered : region.Covered) {offset : Nat}
    (inside : offset < region.mrSize) :
    ∃ info, region.pageAt offset = some info :=
  Option.isSome_iff_exists.mp (Tiling.Tiles.viewAt_isSome covered (Nat.zero_le _) inside)

/-- The calls change the counts of exactly the pages of the range by one. -/
theorem partCounts_exact (covered : region.Covered) (start bytes : Nat)
    (within : start + bytes ≤ region.mrSize) (unswapped : region.Unswapped start bytes) :
    (∃ after, region.partIncref start bytes = some (after, true) ∧ after.Covered ∧
      after.mrSize = region.mrSize ∧
      ∀ offset < region.mrSize, ∃ old new, region.pageAt offset = some old ∧
      after.pageAt offset = some new ∧
        new.refcnt = (if start ≤ offset ∧ offset < start + bytes then old.refcnt + 1 else old.refcnt) ∧
        new.state = old.state ∧ new.physical = old.physical) ∧
    ∃ after, region.partDecref start bytes = some (after, true) ∧ after.Covered ∧
    after.mrSize = region.mrSize ∧
      ∀ offset < region.mrSize, ∃ old new, region.pageAt offset = some old ∧
      after.pageAt offset = some new ∧
        new.refcnt = (if start ≤ offset ∧ offset < start + bytes then old.refcnt - 1 else old.refcnt) ∧
        (new.refcnt ≠ 0 ∨ ¬ (start ≤ offset ∧ offset < start + bytes) →
          new.state = old.state ∧ new.physical = old.physical) := by
  refine ⟨?_, ?_⟩
  · obtain ⟨parts, result, afterCovered, changed⟩ :=
      partAction_spec lawful_incref region covered within unswapped
      (ready_unwatched _ _ _ _ _ _) (some (actionDecref region.mrType))
    refine ⟨_, result, afterCovered, rfl, fun offset inside => ?_⟩
    obtain ⟨old, found⟩ := pageAt_covered covered inside
    refine ⟨old, _, found, changed.of_some found, ?_⟩
    split
    · exact ⟨rfl, rfl, rfl⟩
    · exact ⟨rfl, rfl, rfl⟩
  · obtain ⟨parts, result, afterCovered, changed⟩ :=
      partAction_spec (lawful_decref region.mrType) region covered within
      unswapped (ready_unwatched _ _ _ _ _ _) (some actionIncref)
    refine ⟨_, result, afterCovered, rfl, fun offset inside => ?_⟩
    obtain ⟨old, found⟩ := pageAt_covered covered inside
    refine ⟨old, _, found, changed.of_some found, ?_⟩
    split
    · next inRange =>
      have count := MPart.PageInfo.decrement_refcnt region.mrType old
      refine ⟨count, ?_⟩
      rintro (positive | outside)
      · exact MPart.PageInfo.decrement_kept (count ▸ positive)
      · exact absurd inRange outside
    · exact ⟨rfl, fun _ => ⟨rfl, rfl⟩⟩

/-- Two pages in one part, whose memory lies in two places, and two pages that are shared. -/
def sharedPages : MRegion 32 :=
  { mrType := .mem
    mrSize := 0x4000
    mrParts :=
      [⟨0, 1, .incore, ⟨true, false⟩, 0, [⟨0x100000, 0x1000⟩, ⟨0x200000, 0x1000⟩], 0⟩,
        ⟨0x2000, 2, .incore, ⟨false, false⟩, 0, [⟨0x300000, 0x2000⟩], 0⟩] }

theorem partCounts_exact_shared :
    (∃ after, sharedPages.partIncref 0x1000 0x2000 = some (after, true) ∧ after.Covered ∧
      after.mrSize = sharedPages.mrSize ∧
      ∀ offset < sharedPages.mrSize, ∃ old new, sharedPages.pageAt offset = some old ∧
      after.pageAt offset = some new ∧
        new.refcnt = (if 0x1000 ≤ offset ∧
          offset < 0x1000 + 0x2000 then old.refcnt + 1 else old.refcnt) ∧
        new.state = old.state ∧ new.physical = old.physical) ∧
    ∃ after, sharedPages.partDecref 0x1000 0x2000 = some (after, true) ∧ after.Covered ∧
    after.mrSize = sharedPages.mrSize ∧
      ∀ offset < sharedPages.mrSize, ∃ old new, sharedPages.pageAt offset = some old ∧
      after.pageAt offset = some new ∧
        new.refcnt = (if 0x1000 ≤ offset ∧
          offset < 0x1000 + 0x2000 then old.refcnt - 1 else old.refcnt) ∧
        (new.refcnt ≠ 0 ∨ ¬ (0x1000 ≤ offset ∧ offset < 0x1000 + 0x2000) →
          new.state = old.state ∧ new.physical = old.physical) :=
  partCounts_exact sharedPages (by decide) 0x1000 0x2000 (by decide) (by decide)

end MRegion

end KosKernel.Mman
