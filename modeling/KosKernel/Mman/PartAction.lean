import KosKernel.Mman.PartTiles

namespace KosKernel.Mman.MPart
open Library List Tiling
variable {bits : Nat} {K V : Type}

/-- The parts cover a range of the region. -/
def Tiles (limit base : Nat) (parts : List (MPart bits)) : Prop :=
  Tiling.Tiles mtStart Fills limit base parts

instance (limit base : Nat) (parts : List (MPart bits)) : Decidable (Tiles limit base parts) := by
  unfold Tiles
  infer_instance

/-- If the two parts can be joined, they do not differ in what is watched of their locks. -/
def MergeSafe (watch : BitVec 16 → K) (part next : MPart bits) : Prop :=
  Mergeable part next → watch part.mtLocked = watch next.mtLocked

instance [DecidableEq K] (watch : BitVec 16 → K) (part next : MPart bits) :
    Decidable (MergeSafe watch part next) :=
  inferInstanceAs (Decidable (_ → _))

/-- The joins up to the end of the range are safe. A part that is cut there is not joined. -/
def Harmless (watch : BitVec 16 → K) (limit finish : Nat) (action : MPart bits → MPart bits) :
    Option (MPart bits) → List (MPart bits) → Prop
  | _, [] => True
  | before, part :: rest =>
    finish < stop limit rest ∨
      ((∀ prev ∈ before, MergeSafe watch prev (action part)) ∧
        (∀ next ∈ rest.head?, MergeSafe watch (action part) next) ∧
        (stop limit rest < finish → Harmless watch limit finish action (some (action part)) rest))

instance decidableHarmless [DecidableEq K] (watch : BitVec 16 → K) (limit finish : Nat)
    (action : MPart bits → MPart bits) :
    ∀ (before : Option (MPart bits)) (parts : List (MPart bits)),
      Decidable (Harmless watch limit finish action before parts)
  | _, [] => isTrue trivial
  | before, part :: rest =>
    have := decidableHarmless watch limit finish action (some (action part)) rest
    have : Decidable (∀ prev ∈ before, MergeSafe watch prev (action part)) := Option.decidableForallMem _
    have : Decidable (∀ next ∈ rest.head?, MergeSafe watch (action part) next) :=
      Option.decidableForallMem _
    inferInstanceAs (Decidable (_ ∨ (_ ∧ _ ∧ (_ → _))))

/-- The joins of the action on the range are safe. -/
def Ready (watch : BitVec 16 → K) (limit start finish : Nat) (action : MPart bits → MPart bits) :
    Option (MPart bits) → List (MPart bits) → Prop
  | _, [] => True
  | before, part :: rest =>
    if stop limit rest ≤ start then Ready watch limit start finish action (some part) rest
    else Harmless watch limit finish action (if part.mtStart < start then some part else before)
      (part :: rest)

instance decidableReady [DecidableEq K] (watch : BitVec 16 → K) (limit start finish : Nat)
    (action : MPart bits → MPart bits) :
    ∀ (before : Option (MPart bits)) (parts : List (MPart bits)),
      Decidable (Ready watch limit start finish action before parts)
  | _, [] => isTrue trivial
  | before, part :: rest =>
    have := decidableReady watch limit start finish action (some part) rest
    have := decidableHarmless watch limit finish action
      (if part.mtStart < start then some part else before) (part :: rest)
    inferInstanceAs (Decidable (if stop limit rest ≤ start then _ else _))

/-- The point does not lie inside a part that is in swap. -/
def Uncut (limit point : Nat) : List (MPart bits) → Prop
  | [] => True
  | part :: rest => (part.mtStart < point → point < stop limit rest →
      part.mtState ≠ .inswap) ∧ Uncut limit point rest

instance decidableUncut (limit point : Nat) : ∀ parts : List (MPart bits),
    Decidable (Uncut limit point parts)
  | [] => isTrue trivial
  | _ :: rest =>
    have := decidableUncut limit point rest
    inferInstanceAs (Decidable ((_ → _ → _) ∧ _))

/-- The parts agree on all that the joins look at and on what is watched of their locks. -/
def Like (watch : BitVec 16 → K) (part other : MPart bits) : Prop :=
  Alike part other ∧ watch part.mtLocked = watch other.mtLocked

/-- The action changes each value of the view, which cuts and safe joins keep. -/
structure Lawful (watch : BitVec 16 → K) (info : MPart bits → Nat → V) (action : MPart bits → MPart bits)
    (change : V → V) : Prop where
  start : ∀ part, (action part).mtStart = part.mtStart
  fills : ∀ part size, part.Fills size → (action part).Fills size
  like : ∀ part other, Like watch part other → Like watch (action part) (action other)
  acts : ∀ part place, info (action part) place = change (info part place)
  cutLow : ∀ part offset low high, Divides part offset low high → ∀ place, place < offset →
    info low place = info part place
  cutHigh : ∀ part offset low high, Divides part offset low high →
    ∀ place, info high place = info part (offset + place)
  joinLow : ∀ part next size joined, Joins part next size joined →
    watch part.mtLocked = watch next.mtLocked →
    ∀ place, place < size → info joined place = info part place
  joinHigh : ∀ part next size joined, Joins part next size joined →
    watch part.mtLocked = watch next.mtLocked →
    ∀ place, info joined (size + place) = info next place

variable {other part' joined : MPart bits} {point base : Nat} {pre : List (MPart bits)}
  {watch : BitVec 16 → K}

lemma Like.symm {part : MPart bits} (like : Like watch part other) : Like watch other part :=
  ⟨like.1.symm, like.2.symm⟩

lemma Like.trans {part third : MPart bits} (like : Like watch part other)
    (further : Like watch other third) : Like watch part third :=
  ⟨like.1.trans further.1, like.2.trans further.2⟩

lemma MergeSafe.like {part next next' : MPart bits} (safe : MergeSafe watch part next)
    (like : Like watch part part') (nextLike : Like watch next next') : MergeSafe watch part' next' := by
  intro mergeable
  have alike := mergeable_iff.mp mergeable
  have old : Mergeable part next := mergeable_iff.mpr (like.1.trans (alike.trans nextLike.1.symm))
  rw [← like.2, ← nextLike.2]
  exact safe old

section Guard
variable {watch : BitVec 16 → K} {info : MPart bits → Nat → V} {action : MPart bits → MPart bits}
  {change : V → V}
  {limit start finish : Nat} {before : Option (MPart bits)} {part next : MPart bits}
  {rest : List (MPart bits)}

/-- The guard looks at the part before the list only as far as joins do. -/
lemma Harmless.of_before {prev prev' : MPart bits}
    (harmless : Harmless watch limit finish action (some prev) rest)
    (like : Like watch prev prev') : Harmless watch limit finish action (some prev') rest := by
  cases rest with
  | nil => trivial
  | cons part rest =>
    rcases harmless with cut | ⟨early, late, following⟩
    · exact .inl cut
    · refine .inr ⟨?_, late, following⟩
      intro other found
      obtain rfl := Option.mem_some_iff.mp found
      exact (early prev rfl).like like ⟨⟨rfl, rfl, rfl⟩, rfl⟩

/-- The guard looks at the first part of the list only as far as joins do. -/
lemma Harmless.of_head (laws : Lawful watch info action change)
    (harmless : Harmless watch limit finish action before (part :: rest))
    (like : Like watch part part') :
    Harmless watch limit finish action before (part' :: rest) := by
  have acted := laws.like part part' like
  rcases harmless with cut | ⟨early, late, following⟩
  · exact .inl cut
  refine .inr ⟨?_, ?_, ?_⟩
  · intro prev found
    exact (early prev found).like ⟨⟨rfl, rfl, rfl⟩, rfl⟩ acted
  · intro next found
    exact (late next found).like acted ⟨⟨rfl, rfl, rfl⟩, rfl⟩
  · intro further
    exact (following further).of_before acted

/-- At the beginning of a part the guard is about the parts from there on. -/
lemma Harmless.ready (harmless : Harmless watch limit finish action before rest)
    (tiles : Tiles limit (stop limit rest) rest) :
      Ready watch limit (stop limit rest) finish action before rest := by
  cases rest with
  | nil => trivial
  | cons part rest =>
    have inside : part.mtStart < stop limit rest := tiles.2.1
    have begins : stop limit (part :: rest) = part.mtStart := rfl
    rw [Ready, begins, if_neg (by omega), if_neg (Nat.lt_irrefl _)]
    exact harmless

lemma Ready.harmless (ready : Ready watch limit start finish action before (part :: rest))
    (inside : start < stop limit rest) :
    Harmless watch limit finish action (if part.mtStart < start then some part else before)
      (part :: rest) := by
  rwa [Ready, if_neg (by omega)] at ready

lemma harmless_ready_inside (harmless : Harmless watch limit finish action (some part) (part :: rest))
    (below : part.mtStart < start) (inside : start < stop limit rest) :
    Ready watch limit start finish action before (part :: rest) := by
  rwa [Ready, if_neg (by omega), if_pos below]

end Guard

lemma mergeNext_cases (part : MPart bits) (rest : List (MPart bits)) :
    part.mergeNext rest = (part, rest, false) ∨
    ∃ next following joined, rest = next :: following ∧ part.merge next = some joined ∧
      part.mergeNext rest = (joined, following, true) := by
  cases rest with
  | nil => exact .inl rfl
  | cons next following =>
    cases merged : part.merge next with
    | none => exact .inl (by simp [mergeNext, merged])
    | some joined => exact .inr ⟨next, following, joined, rfl, merged, by simp [mergeNext, merged]⟩

lemma mergePrev_cases (part : MPart bits) (done : List (MPart bits)) :
    part.mergePrev done = (part, done, false) ∨
    ∃ prev earlier joined, done = prev :: earlier ∧ prev.merge part = some joined ∧
    part.mergePrev done = (joined, earlier, true) := by
  cases done with
  | nil => exact .inl rfl
  | cons prev earlier =>
    cases merged : prev.merge part with
    | none => exact .inl (by simp [mergePrev, merged])
    | some joined => exact .inr ⟨prev, earlier, joined, rfl, merged, by simp [mergePrev, merged]⟩

section Loop
variable (watch : BitVec 16 → K) (info : MPart bits → Nat → V) (action : MPart bits → MPart bits)
  (change : V → V)
  (limit : Nat)

/-- The view of the region. -/
abbrev view (parts : List (MPart bits)) : Nat → Option V := viewAt mtStart info limit parts

/-- This is what holds at the head of the loop. -/
structure AtCursor (done todo : List (MPart bits)) (start bytes : Nat) : Prop where
  tiles : Tiles limit 0 (done.reverse ++ todo)
  reached : stop limit todo ≤ start
  positive : 0 < bytes
  within : start + bytes ≤ limit
  uncutStart : Uncut limit start todo
  uncutFinish : Uncut limit (start + bytes) todo
  ready : Ready watch limit start (start + bytes) action done.head? todo

/-- This number gets smaller with each turn of the loop. -/
def pending (todo : List (MPart bits)) (start bytes : Nat) : Nat :=
  3 * bytes + 2 * todo.length + if stop limit todo < start then 1 else 0

lemma pending_le (todo : List (MPart bits)) (start bytes : Nat) :
    pending limit todo start bytes ≤ 3 * bytes + 2 * todo.length + 1 := by
  unfold pending
  split <;> omega

variable {watch info action change limit} {done todo rest : List (MPart bits)} {part : MPart bits}
  {start bytes : Nat}

lemma AtCursor.tail (cursor : AtCursor watch action limit done todo start bytes) :
    Tiles limit (stop limit todo) todo :=
  (tiles_append.mp cursor.tiles).2

/-- The loop passes over a part before the range. -/
lemma AtCursor.skip (cursor : AtCursor watch action limit done (part :: rest) start bytes)
    (early : stop limit rest ≤ start) : AtCursor watch action limit (part :: done) rest start bytes := by
  refine ⟨?_, early, cursor.positive, cursor.within, cursor.uncutStart.2, cursor.uncutFinish.2, ?_⟩
  · rw [reverse_cons, append_assoc]
    exact cursor.tiles
  · have ready := cursor.ready
    rwa [Ready, if_pos early] at ready

/-- A part around the point can be split there, and this keeps the view. -/
lemma AtCursor.splits (laws : Lawful watch info action change)
    (cursor : AtCursor watch action limit done (part :: rest) start bytes) (above : part.mtStart < point)
    (below : point < stop limit rest) (uncut : Uncut limit point (part :: rest)) :
    ∃ low high, part.splitLo point = some (low, high) ∧ Divides part (point - part.mtStart) low high ∧
      high.mtStart = point ∧ Tiles limit part.mtStart (low :: high :: rest) ∧
      ∀ place, part.mtStart ≤ place → view info limit (low :: high :: rest) place =
        view info limit (part :: rest) place := by
  have tail : Tiles limit part.mtStart (part :: rest) := cursor.tail
  have fills : part.Fills (stop limit rest - part.mtStart) := tail.2.2.1
  obtain ⟨low, high, split, divides, lowFills, highFills⟩ :=
    splitLo_spec fills above (by omega) (uncut.1 above below)
  have highStart : high.mtStart = point := by
    rw [divides.highStart]
    omega
  refine ⟨low, high, split, divides, highStart, ?_, ?_⟩
  · refine Tiling.Tiles.cut tail above below divides.lowStart highStart lowFills ?_
    have size : part.mtStart + (stop limit rest - part.mtStart) - point = stop limit rest - point := by
      omega
    exact size ▸ highFills
  · exact viewAt_cut rfl above below divides.lowStart highStart (laws.cutLow _ _ _ _ divides)
      (laws.cutHigh _ _ _ _ divides)

/-- Two parts that are joined safely keep their view. -/
lemma tiles_merge {part next : MPart bits} (laws : Lawful watch info action change)
    (tiles : Tiles limit base (part :: next :: rest)) (merged : part.merge next = some joined)
    (safe : watch part.mtLocked = watch next.mtLocked) :
    Tiles limit base (joined :: rest) ∧ Joins part next (next.mtStart - base) joined ∧
      ∀ place, base ≤ place → view info limit (joined :: rest) place =
        view info limit (part :: next :: rest) place := by
  obtain ⟨begun, above, fills, _, below, nextFills, following⟩ := id tiles
  obtain ⟨joins, joinedFills⟩ := merge_spec fills nextFills merged
  have joinedStart : joined.mtStart = base := joins.start.trans begun
  refine ⟨Tiling.Tiles.join tiles joinedStart joinedFills, joins, ?_⟩
  exact viewAt_join begun above below joinedStart (laws.joinLow _ _ _ _ joins safe)
    (laws.joinHigh _ _ _ _ joins safe)

/-- No part behind the point is cut there. -/
lemma uncut_of_le (tiles : Tiles limit base rest) (early : point ≤ base) : Uncut limit point rest := by
  induction rest generalizing base with
  | nil => trivial
  | cons part rest ih =>
    obtain ⟨begun, above, _, following⟩ := tiles
    exact ⟨fun below => absurd below (by omega), ih following (by omega)⟩

/-- The end of a list of parts can be exchanged for one with the same view. -/
lemma view_replace {old new : List (MPart bits)} (tiles : Tiles limit 0 (pre ++ old))
    (oldTiles : Tiles limit base old) (newTiles : Tiles limit base new)
    (same : ∀ place, base ≤ place → view info limit new place = view info limit old place) :
    Tiles limit 0 (pre ++ new) ∧ view info limit (pre ++ new) = view info limit (pre ++ old) := by
  refine ⟨Tiling.Tiles.replace tiles oldTiles newTiles, ?_⟩
  have leading := (tiles_append.mp tiles).1
  rw [Tiling.Tiles.stop_eq oldTiles] at leading
  have changed : Tiling.Changed id base base (view info limit (pre ++ old))
    (view info limit (pre ++ new)) :=
    changed_append leading oldTiles newTiles le_rfl
      (fun place behind => by rw [if_neg (by omega)]; exact same place behind) rfl
  funext place
  rw [changed place, if_neg (by omega)]

/-- The action on a whole part changes the view there. -/
lemma tiles_action (laws : Lawful watch info action change)
    (tiles : Tiles limit 0 (pre ++ part :: rest)) :
    Tiles limit 0 (pre ++ action part :: rest) ∧
      Tiling.Changed change part.mtStart (stop limit rest) (view info limit (pre ++ part :: rest))
        (view info limit (pre ++ action part :: rest)) := by
  obtain ⟨front, tail⟩ := tiles_append.mp tiles
  have acted : Tiles limit part.mtStart (action part :: rest) :=
    ⟨laws.start part, tail.2.1, laws.fills _ _ tail.2.2.1, tail.2.2.2⟩
  refine ⟨Tiling.Tiles.replace tiles tail acted, ?_⟩
  refine changed_append front tail acted le_rfl ?_ rfl
  intro place behind
  have reached : part.mtStart ≤ place := behind
  rw [viewAt, laws.start, laws.acts]
  change (if place < stop limit rest then _ else _) =
    if _ then Option.map change (if place < stop limit rest then _ else _)
    else if place < stop limit rest then _ else _
  by_cases inside : place < stop limit rest
  · rw [if_pos inside, if_pos ⟨reached, inside⟩, if_pos inside, Option.map_some]
  · rw [if_neg inside, if_neg (by omega), if_neg inside]

/-- The parts after the joins of a turn. -/
structure Joined (watch : BitVec 16 → K) (limit : Nat) (acted : MPart bits)
    (done rest : List (MPart bits))
    (joined : MPart bits) (done' rest' : List (MPart bits)) (stays : Bool) : Prop where
  tiles : Tiles limit 0 (done'.reverse ++ joined :: rest')
  like : Like watch joined acted
  shorter : rest'.length ≤ rest.length
  moved : stays = false → joined = acted ∧ done' = done ∧ rest' = rest
  stayed : stays = true → joined.mtState ≠ .inswap
  kept : rest' = rest ∨ ∃ next, rest = next :: rest' ∧ Like watch acted next ∧
    joined.mtStart < next.mtStart ∧ stays = true

section
variable (laws : Lawful watch info action change)
include laws

/-- The joins of one turn keep the view if they are safe. -/
lemma joined_spec {acted : MPart bits} (tiles : Tiles limit 0 (done.reverse ++ acted :: rest))
    (early : ∀ prev ∈ done.head?, MergeSafe watch prev acted)
    (late : ∀ next ∈ rest.head?, MergeSafe watch acted next) :
    ∃ first rest' again joined done' back, acted.mergeNext rest = (first, rest', again) ∧
      first.mergePrev done = (joined, done', back) ∧
      Joined watch limit acted done rest joined done' rest' (again || back) ∧
      view info limit (done'.reverse ++ joined :: rest') =
        view info limit (done.reverse ++ acted :: rest) := by
  have nextStep : ∃ first rest' again, acted.mergeNext rest = (first, rest', again) ∧
      Joined watch limit acted done rest first done rest' again ∧
      view info limit (done.reverse ++ first :: rest') =
        view info limit (done.reverse ++ acted :: rest) := by
    rcases mergeNext_cases acted rest with nothing | ⟨next, following, joined, rfl, merged, result⟩
    · exact ⟨acted, rest, false, nothing,
        ⟨tiles, ⟨⟨rfl, rfl, rfl⟩, rfl⟩, le_rfl, fun _ => ⟨rfl, rfl, rfl⟩, nofun, .inl rfl⟩, rfl⟩
    have tail : Tiles limit acted.mtStart (acted :: next :: following) := (tiles_append.mp tiles).2
    have mergeable : Mergeable acted next := by
      by_contra differ
      simp only [merge, differ, if_false, reduceCtorEq] at merged
    have locks := late next rfl mergeable
    obtain ⟨joinedTiles, joins, same⟩ := tiles_merge laws tail merged locks
    obtain ⟨whole, views⟩ := view_replace tiles tail joinedTiles same
    have ordered : acted.mtStart < next.mtStart := tail.2.1
    refine ⟨joined, following, true, result, ⟨whole, ⟨joins.alike, congrArg watch joins.locked⟩,
      Nat.le_succ _, nofun,
      fun _ => joins.unswapped, .inr ⟨next, rfl, ⟨mergeable_iff.mp mergeable, locks⟩, ?_, rfl⟩⟩, views⟩
    rw [joins.start]
    exact ordered
  obtain ⟨first, rest', again, firstResult, firstJoined, firstView⟩ := nextStep
  rcases mergePrev_cases first done with nothing | ⟨prev, earlier, joined, rfl, merged, result⟩
  · exact ⟨first, rest', again, first, done, false, firstResult, nothing,
      by rwa [Bool.or_false], firstView⟩
  have firstTiles := firstJoined.tiles
  rw [reverse_cons, append_assoc] at firstTiles
  have tail : Tiles limit prev.mtStart (prev :: first :: rest') := (tiles_append.mp firstTiles).2
  have mergeable : Mergeable prev first := by
    by_contra differ
    simp only [merge, differ, if_false, reduceCtorEq] at merged
  have safe : MergeSafe watch prev first :=
    (early prev rfl).like ⟨⟨rfl, rfl, rfl⟩, rfl⟩ firstJoined.like.symm
  obtain ⟨joinedTiles, joins, same⟩ := tiles_merge laws tail merged (safe mergeable)
  obtain ⟨whole, views⟩ := view_replace firstTiles tail joinedTiles same
  have ordered : prev.mtStart < first.mtStart := tail.2.1
  have joinedLike : Like watch joined first :=
    ⟨joins.nextAlike, (congrArg watch joins.locked).trans (safe mergeable)⟩
  refine ⟨first, rest', again, joined, earlier, true, firstResult, result, ?_, ?_⟩
  · rw [Bool.or_true]
    refine ⟨whole, joinedLike.trans firstJoined.like, firstJoined.shorter, nofun,
      fun _ => joins.unswapped, ?_⟩
    rcases firstJoined.kept with same | ⟨next, equal, like, below, _⟩
    · exact .inl same
    · refine .inr ⟨next, equal, like, ?_, rfl⟩
      rw [joins.start]
      exact ordered.trans below
  · rw [views, ← firstView, reverse_cons, append_assoc]

/-- After a part has been split where the range begins, the cursor is at its upper half. -/
lemma AtCursor.split (cursor : AtCursor watch action limit done (part :: rest) start bytes)
    (above : part.mtStart < start) (below : start < stop limit rest) {low high : MPart bits}
    (divides : Divides part (start - part.mtStart) low high) (highStart : high.mtStart = start)
    (tiles : Tiles limit 0 (done.reverse ++ low :: high :: rest)) :
    AtCursor watch action limit (low :: done) (high :: rest) start bytes := by
  have positive := cursor.positive
  refine ⟨?_, le_of_eq highStart, positive, cursor.within, ?_, ?_, ?_⟩
  · rw [reverse_cons, append_assoc]
    exact tiles
  · exact ⟨fun behind => absurd behind (by omega), cursor.uncutStart.2⟩
  · refine ⟨fun _ inside => ?_, cursor.uncutFinish.2⟩
    rw [divides.highAlike.state]
    exact cursor.uncutFinish.1 (by omega) inside
  · have harmless := cursor.ready.harmless below
    rw [if_pos above] at harmless
    have lowLike : Like watch part low := ⟨divides.lowAlike.symm, congrArg watch divides.lowLocked.symm⟩
    have highLike : Like watch part high :=
      ⟨divides.highAlike.symm, congrArg watch divides.highLocked.symm⟩
    rw [Ready, if_neg (by omega), if_neg (by omega)]
    exact (harmless.of_before lowLike).of_head laws highLike

/-- After the action on a whole part the cursor is ready for the rest of the range. -/
lemma AtCursor.next (cursor : AtCursor watch action limit done (part :: rest) start bytes)
    (harmless : Harmless watch limit (start + bytes) action (some (action part)) rest)
    (below : stop limit rest < start + bytes) (above : start < stop limit rest)
    {done' rest' : List (MPart bits)}
    {stays : Bool} (outcome : Joined watch limit (action part) done rest joined done' rest' stays) :
    if stays then AtCursor watch action limit done' (joined :: rest') (stop limit rest)
      (start + bytes - stop limit rest)
    else AtCursor watch action limit (joined :: done') rest' (stop limit rest)
      (start + bytes - stop limit rest) := by
  have within := cursor.within
  have finish : stop limit rest + (start + bytes - stop limit rest) = start + bytes := by omega
  have restTiles : Tiles limit (stop limit rest) rest := cursor.tail.2.2.2
  cases stays with
  | false =>
    obtain ⟨rfl, rfl, rfl⟩ := outcome.moved rfl
    refine ⟨?_, le_rfl, by omega, by omega, uncut_of_le restTiles le_rfl, by
      simpa only [finish] using cursor.uncutFinish.2, ?_⟩
    · rw [reverse_cons, append_assoc]
      exact outcome.tiles
    · rw [finish]
      exact harmless.ready restTiles
  | true =>
    have unswapped := outcome.stayed rfl
    have joinedTiles : Tiles limit joined.mtStart (joined :: rest') := (tiles_append.mp outcome.tiles).2
    rcases outcome.kept with rfl | ⟨next, rfl, like, earlier, _⟩
    · have ordered : joined.mtStart < stop limit rest' := joinedTiles.2.1
      refine ⟨outcome.tiles, ordered.le,
        by omega, by omega, ⟨fun _ _ => unswapped, uncut_of_le restTiles le_rfl⟩,
        ⟨fun _ _ => unswapped, by simpa only [finish] using cursor.uncutFinish.2⟩, ?_⟩
      rw [Ready, if_pos le_rfl, finish]
      exact (harmless.of_before outcome.like.symm).ready restTiles
    · have later : next.mtStart < stop limit rest' := restTiles.2.1
      have behind : Tiles limit (stop limit rest') rest' := restTiles.2.2.2
      refine ⟨outcome.tiles, earlier.le,
        by omega, by omega, ⟨fun _ _ => unswapped, uncut_of_le behind later.le⟩,
        ⟨fun _ _ => unswapped, by simpa only [finish] using cursor.uncutFinish.2.2⟩, ?_⟩
      rw [finish]
      refine harmless_ready_inside ?_ earlier later
      exact (harmless.of_before outcome.like.symm).of_head laws (like.symm.trans outcome.like.symm)

/-- The loop ends, and it changes the view exactly in the range. -/
lemma actionLoop_spec (fuel : Nat) (cursor : AtCursor watch action limit done todo start bytes)
    (enough : pending limit todo start bytes < fuel) :
    ∃ parts, actionLoop limit action fuel done todo start bytes = some (parts, none) ∧
    Tiles limit 0 parts ∧
      Tiling.Changed change start (start + bytes) (view info limit (done.reverse ++ todo))
        (view info limit parts) := by
  induction fuel generalizing done todo start bytes with
  | zero => omega
  | succ fuel ih =>
    have positive := cursor.positive
    have within := cursor.within
    cases todo with
    | nil =>
      have reached : limit ≤ start := cursor.reached
      omega
    | cons part rest =>
      have reached : part.mtStart ≤ start := cursor.reached
      have shape : pending limit (part :: rest) start bytes =
          3 * bytes + 2 * (rest.length + 1) + if part.mtStart < start then 1 else 0 := rfl
      rw [shape] at enough
      rw [actionLoop]
      by_cases early : stop limit rest ≤ start
      · -- The part ends before the range.
        rw [if_pos early]
        obtain ⟨parts, result, tiles, changed⟩ := ih (cursor.skip early) (by
          have bound := pending_le limit rest start bytes
          omega)
        rw [reverse_cons, append_assoc] at changed
        exact ⟨parts, result, tiles, changed⟩
      · rw [if_neg early]
        by_cases begun : start = part.mtStart
        · have harmless := cursor.ready.harmless (by omega)
          rw [if_neg (by omega)] at harmless
          rw [if_neg (not_not.mpr begun)]
          by_cases whole : stop limit rest ≤ start + bytes
          · -- The action is done on the whole part, and then the part is joined with its neighbours.
            have size : min (stop limit rest) (start + bytes) - part.mtStart =
              stop limit rest - part.mtStart := by omega
            rw [size, if_pos (by omega)]
            rcases harmless with cut | ⟨early, late, following⟩
            · omega
            obtain ⟨actedTiles, actedView⟩ := tiles_action laws cursor.tiles
            obtain ⟨first, rest', again, joined, done', back, nextResult, prevResult, outcome, same⟩ :=
              joined_spec laws actedTiles early late
            simp only [nextResult, prevResult]
            rw [← same, ← begun] at actedView
            by_cases last : stop limit rest = start + bytes
            · rw [if_pos (by omega)]
              exact ⟨_, rfl, outcome.tiles, last ▸ actedView⟩
            rw [if_neg (by omega)]
            have further := cursor.next laws (following (by omega)) (by omega) (by omega) outcome
            have shorter := outcome.shorter
            have finish : stop limit rest + (start + bytes - stop limit rest) = start + bytes := by omega
            rw [show start + (stop limit rest - part.mtStart) = stop limit rest by omega,
              show bytes - (stop limit rest - part.mtStart) = start + bytes - stop limit rest by omega]
            cases stays : again || back with
            | true =>
              rw [stays] at further
              have bound := pending_le limit (joined :: rest') (stop limit rest)
                (start + bytes - stop limit rest)
              rw [length_cons] at bound
              obtain ⟨parts, result, tiles, changed⟩ := ih further (by omega)
              rw [finish] at changed
              exact ⟨parts, result, tiles, actedView.trans changed (by omega) (by omega)⟩
            | false =>
              rw [stays] at further
              have bound := pending_le limit rest' (stop limit rest) (start + bytes - stop limit rest)
              obtain ⟨parts, result, tiles, changed⟩ := ih further (by omega)
              rw [finish, reverse_cons, append_assoc] at changed
              exact ⟨parts, result, tiles, actedView.trans changed (by omega) (by omega)⟩
          · -- The range ends inside the part, which is split there.
            have size : min (stop limit rest) (start + bytes) - part.mtStart = bytes := by omega
            rw [size, if_neg (by omega)]
            obtain ⟨low, high, split, divides, highStart, tiles, same⟩ :=
              cursor.splits laws (show part.mtStart < start + bytes by omega)
                (by omega) cursor.uncutFinish
            simp only [split, if_true]
            obtain ⟨whole, views⟩ := view_replace cursor.tiles cursor.tail tiles same
            obtain ⟨actedTiles, actedView⟩ := tiles_action laws whole
            have ends : stop limit (high :: rest) = start + bytes := highStart
            rw [views, divides.lowStart, ← begun, ends] at actedView
            exact ⟨_, rfl, actedTiles, actedView⟩
        · -- The range begins inside the part.
          rw [if_pos begun]
          obtain ⟨low, high, split, divides, highStart, tiles, same⟩ :=
            cursor.splits laws (show part.mtStart < start by omega) (by omega) cursor.uncutStart
          simp only [split]
          obtain ⟨whole, views⟩ := view_replace cursor.tiles cursor.tail tiles same
          obtain ⟨parts, result, partsTiles, changed⟩ :=
            ih (cursor.split laws (by omega) (by omega) divides highStart whole) (by
              rw [if_pos (by omega)] at enough
              have bound : pending limit (high :: rest) start bytes =
                3 * bytes + 2 * (rest.length + 1) := by
                have begins : stop limit (high :: rest) = start := highStart
                rw [pending, begins, if_neg (Nat.lt_irrefl _), length_cons, Nat.add_zero]
              omega)
          rw [reverse_cons, append_assoc, singleton_append, views] at changed
          exact ⟨parts, result, partsTiles, changed⟩

end

end Loop

end KosKernel.Mman.MPart
