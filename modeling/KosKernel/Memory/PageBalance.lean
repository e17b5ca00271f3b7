import KosKernel.Memory.PageRuns

namespace KosKernel.Memory
open FreeRanges PageState Function List Finset Option StepRun MZoneSpec PageCall Nat
variable {spec : MZoneSpec}

/-- The bytes of the pages that lie in a zone. -/
def zoneBytes (spec : MZoneSpec) (pages : Finset Nat) (zone : Nat) : Nat :=
  pageSize * {page ∈ pages | spec.mzoneOf page = zone}.card

section ZoneBytes
variable {pages piece : Finset Nat} {zone : Nat}

lemma filter_zoned (zoned : ∀ page ∈ piece, spec.mzoneOf page = zone) (other : Nat) :
    {page ∈ piece | spec.mzoneOf page = other} = if other = zone then piece else ∅ := by
  split
  · next same => exact filter_true_of_mem fun page mem => (zoned page mem).trans same.symm
  · next differs => exact filter_false_of_mem fun page mem here => differs (here.symm.trans
        (zoned page mem))

lemma zoneBytes_zoned (zoned : ∀ page ∈ piece, spec.mzoneOf page = zone) (other : Nat) :
    zoneBytes spec piece other = if other = zone then pageSize * piece.card else 0 := by
  rw [zoneBytes, filter_zoned zoned]
  split <;> simp

lemma zoneBytes_union (spec : MZoneSpec) (apart : Disjoint pages piece) (other : Nat) :
    zoneBytes spec (pages ∪ piece) other = zoneBytes spec pages other + zoneBytes spec piece other := by
  unfold zoneBytes
  rw [filter_union, card_union_of_disjoint (disjoint_filter_filter apart), mul_add]

lemma zoneBytes_sdiff (spec : MZoneSpec) (inside : piece ⊆ pages) (other : Nat) :
    zoneBytes spec pages other = zoneBytes spec (pages \ piece) other + zoneBytes spec piece other := by
  rw [← zoneBytes_union spec sdiff_disjoint, sdiff_union_of_subset inside]

/-- The pages are aligned and lie below the limit. -/
abbrev Sited (spec : MZoneSpec) (pages : Finset Nat) : Prop :=
  ∀ page ∈ pages, pageSize ∣ page ∧ page + pageSize ≤ spec.limit

/-- The pages below the limit fit into a machine word. -/
lemma zoneBytes_le (placed : Sited spec pages) (zone : Nat) :
    zoneBytes spec pages zone ≤ spec.limit := by
  have inside : {page ∈ pages | spec.mzoneOf page = zone} ⊆ pagesOf 0 spec.limit := by
    intro page mem
    obtain ⟨⟨index, rfl⟩, fits⟩ := placed page (mem_filter.mp mem).1
    refine Finset.mem_image.mpr ⟨index, Finset.mem_range.mpr ?_, zero_add _⟩
    rw [← mul_succ, mul_comm] at fits
    exact (le_div_iff_mul_le (by decide)).mpr fits
  have few : (pagesOf 0 spec.limit).card ≤ spec.limit / pageSize := card_image_le.trans (card_range _).le
  calc zoneBytes spec pages zone ≤ pageSize * (spec.limit / pageSize) :=
        mul_le_mul_left _ ((card_le_card inside).trans few)
    _ ≤ spec.limit := mul_div_le _ _

lemma pagesOf_apart {first second : PageRange} (firstFits : Fits spec zone first)
    (secondFits : Fits spec zone second)
    (gap : first.stop < second.start) :
      Disjoint (pagesOf first.start first.size) (pagesOf second.start second.size) := by
  refine disjoint_left.mpr fun page inFirst inSecond => ?_
  have below := ((mem_pagesOf firstFits.startAligned firstFits.sizeAligned).mp inFirst).2.2
  have above := ((mem_pagesOf secondFits.startAligned secondFits.sizeAligned).mp inSecond).2.1
  unfold Range.stop at gap
  omega

/-- Ranges with gaps between them have as many bytes as their pages. -/
lemma card_biUnion_pagesOf {ranges : List PageRange} (apart : Apart ranges)
    (fits : ∀ range ∈ ranges, Fits spec zone range) :
    pageSize * (ranges.toFinset.biUnion fun range => pagesOf range.start range.size).card =
      total ranges := by
  induction ranges with
  | nil => rfl
  | cons range rest ih =>
    obtain ⟨before, restApart⟩ := pairwise_cons.mp apart
    have fitsRange := fits range mem_cons_self
    have disjoint : Disjoint (pagesOf range.start range.size)
        (rest.toFinset.biUnion fun range => pagesOf range.start range.size) := by
      refine (disjoint_biUnion_right _ _ _).mpr fun other mem => ?_
      have listed := mem_toFinset.mp mem
      exact pagesOf_apart fitsRange (fits other (mem_cons_of_mem _ listed)) (before other listed)
    rw [toFinset_cons, biUnion_insert, card_union_of_disjoint disjoint, mul_add,
      card_pagesOf fitsRange.sizeAligned, ih restApart fun other mem =>
        fits other (mem_cons_of_mem _ mem)]
    rfl

/-- The free pages of a zone are those of its list. -/
lemma Intact.total_freeList {state : PageState} (intact : Intact spec state)
    (real : zone < spec.realCount) :
    total (state.freeList spec zone) = zoneBytes spec (state.freePages spec) zone := by
  obtain ⟨_, apart, fits⟩ := intact zone real
  rw [← card_biUnion_pagesOf apart fits]
  congr 2
  ext page
  rw [Finset.mem_filter]
  constructor
  · intro mem
    obtain ⟨range, listed, inside⟩ := mem_biUnion.mp mem
    have whole := fits range (mem_toFinset.mp listed)
    have has := ((mem_pagesOf whole.startAligned whole.sizeAligned).mp inside).2
    exact ⟨Finset.mem_biUnion.mpr ⟨zone, Finset.mem_range.mpr real, mem⟩, whole.mzoneOf_eq real has⟩
  · rintro ⟨free, here⟩
    obtain ⟨other, otherReal, mem⟩ := mem_biUnion.mp free
    obtain ⟨range, listed, inside⟩ := mem_biUnion.mp mem
    have whole := (intact other (Finset.mem_range.mp otherReal)).2.fits range
      (List.mem_toFinset.mp listed)
    have has := ((mem_pagesOf whole.startAligned whole.sizeAligned).mp inside).2
    rw [← here, whole.mzoneOf_eq (Finset.mem_range.mp otherReal) has]
    exact mem

end ZoneBytes

/-- The statistics of each zone count its pages in use, its free pages and its calls. -/
def Balanced (spec : MZoneSpec) (memory : PageState) (live : Finset Nat)
    (allocs frees : Nat → Nat) : Prop :=
  ∀ zone, zone < spec.realCount → stats (memory.zone zone) =
    (zoneBytes spec live zone, zoneBytes spec (memory.freePages spec) zone, .ofNat (allocs zone),
      .ofNat (frees zone))

/-- One more call in a zone. -/
def bump (counts : Nat → Nat) (zone : Nat) : Nat → Nat := update counts zone (counts zone + 1)

section Events
variable {before after : PageState} {live given taken : Finset Nat} {allocs frees : Nat → Nat}
  {zone bytes : Nat} {attr : Bool}

/-- A piece of a free moves its bytes from the pages in use to the free ones. -/
lemma Balanced.piece (balanced : Balanced spec before live allocs frees)
    (piece : Piece spec before after attr zone given)
    (givenLive : given ⊆ live) (placed : Sited spec (before.freePages spec ∪ live)) :
    Balanced spec after (live \ given) allocs (bump frees zone) := by
  intro other real
  have zoned : ∀ page ∈ given, spec.mzoneOf page = zone := fun page mem => (piece.zoned page mem).2
  have inuse := zoneBytes_sdiff spec givenLive other
  have avail := zoneBytes_union spec piece.apart.symm other
  rw [← piece.frees.free] at avail
  have word := spec.limit_bound
  have small := zoneBytes_le (fun page mem => placed page (mem_union_right _ mem)) other
  have afterPlaced : Sited spec (after.freePages spec) := by
    rw [piece.frees.free]
    exact fun page mem => placed page (union_subset_union_right givenLive mem)
  have fits := zoneBytes_le afterPlaced other
  rw [zoneBytes_zoned zoned] at inuse avail
  rw [piece.counts other]
  by_cases here : other = zone
  · subst here
    have old := balanced other real
    simp only [stats, Prod.mk.injEq, if_true] at old inuse avail ⊢
    simp only [countFree, old, bump, update_self, UInt32.ofNat_add, UInt32.ofNat_one, true_and]
    rw [sub_of_le (by omega) (by omega), add_of_lt (by omega)]
    refine ⟨by omega, by omega, trivial⟩
  · rw [if_neg here] at inuse avail ⊢
    rw [balanced other real, bump, update_of_ne here, inuse, avail, add_zero, add_zero]

/-- One more call in each zone that has one of the pages. -/
def touch (spec : MZoneSpec) (given : Finset Nat) (counts : Nat → Nat) (zone : Nat) : Nat :=
  counts zone + if ∃ page ∈ given, spec.mzoneOf page = zone then 1 else 0

/-- The pages of a further zone add one call there. -/
lemma bump_touch {piece : Finset Nat} (fresh : ∀ page ∈ given, spec.mzoneOf page ≠ zone)
    (filled : piece.Nonempty) (zoned : ∀ page ∈ piece, spec.mzoneOf page = zone) :
    bump (touch spec given frees) zone = touch spec (given ∪ piece) frees := by
  funext other
  by_cases here : other = zone
  · subst here
    obtain ⟨page, mem⟩ := filled
    have old : ¬ ∃ page ∈ given, spec.mzoneOf page = other :=
      fun ⟨page, inside, same⟩ => fresh page inside same
    have new : ∃ page ∈ given ∪ piece, spec.mzoneOf page = other :=
      ⟨page, mem_union_right _ mem, zoned page mem⟩
    rw [bump, update_self, touch, touch, if_neg old, if_pos new]
  · have same : (∃ page ∈ given ∪ piece, spec.mzoneOf page = other) ↔
      ∃ page ∈ given, spec.mzoneOf page = other := by
      simp only [mem_union, or_and_right, exists_or]
      refine or_iff_left ?_
      rintro ⟨page, mem, inZone⟩
      exact here (inZone.symm.trans (zoned page mem))
    rw [bump, update_of_ne here, touch, touch]
    simp only [same]

section
variable (balanced : Balanced spec before live allocs frees)
include balanced

/-- A free counts once for each zone that it touches. -/
lemma Balanced.pieces (intact : Intact spec before) (pieces : Pieces spec attr before given after)
    (givenLive : given ⊆ live) (placed : Sited spec (before.freePages spec ∪ live)) :
    Balanced spec after (live \ given) allocs (touch spec given frees) := by
  induction pieces with
  | none =>
    rw [sdiff_empty]
    exact balanced
  | @more given piece middle after zone rest fresh next ih =>
    obtain ⟨givenIn, pieceIn⟩ := union_subset_iff.mp givenLive
    have free := (rest.frees intact).free
    have inside : piece ⊆ live \ given := by
      refine fun page mem => mem_sdiff.mpr ⟨pieceIn mem, fun twice => ?_⟩
      refine disjoint_left.mp next.apart mem ?_
      rw [free]
      exact mem_union_right _ twice
    have middlePlaced : Sited spec (middle.freePages spec ∪ (live \ given)) := by
      intro page mem
      refine placed page ?_
      rw [free, union_assoc, union_sdiff_of_subset givenIn] at mem
      exact mem
    have final := (ih givenIn).piece next inside middlePlaced
    rwa [sdiff_sdiff_left, bump_touch fresh next.filled fun page mem => (next.zoned page mem).2] at final

/-- An allocation of `page_malloc_in` moves its bytes from the free pages to those in use. -/
lemma Balanced.takenIn (counts : Counts before after zone (countIn spec bytes))
    (allocates : Allocates spec before after attr taken)
    (zoned : ∀ page ∈ taken, spec.mzoneOf page = zone)
    (size : pageSize * taken.card = bytes) (apart : Disjoint (before.freePages spec) live)
    (placed : Sited spec (before.freePages spec ∪ live)) :
    Balanced spec after (live ∪ taken) (bump allocs zone) frees := by
  intro other real
  have avail := zoneBytes_sdiff spec allocates.wasFree other
  have inuse := zoneBytes_union spec (disjoint_of_subset_left allocates.wasFree apart).symm other
  rw [← allocates.free] at avail
  have word := spec.limit_bound
  have small := zoneBytes_le (fun page mem => placed page (mem_union_left _ mem)) other
  have livePlaced : Sited spec (live ∪ taken) := by
    rw [union_comm]
    exact fun page mem => placed page (union_subset_union_left allocates.wasFree mem)
  have fits := zoneBytes_le livePlaced other
  rw [zoneBytes_zoned zoned] at inuse avail
  rw [counts other]
  by_cases here : other = zone
  · subst here
    have old := balanced other real
    simp only [stats, Prod.mk.injEq, if_true] at old inuse avail ⊢
    simp only [countIn, old, bump, update_self, UInt32.ofNat_add, UInt32.ofNat_one, true_and]
    rw [sub_of_le (by omega) (by omega), add_of_lt (by omega)]
    refine ⟨by omega, by omega, trivial⟩
  · rw [if_neg here] at inuse avail ⊢
    rw [balanced other real, bump, update_of_ne here, inuse, avail, add_zero, add_zero]

/-- An allocation of no bytes is counted and changes nothing else. -/
lemma Balanced.takenNothing (counts : Counts before after zone (countTop spec 0))
    (free : after.freePages spec = before.freePages spec) (placed : Sited spec live) :
    Balanced spec after live (bump allocs zone) frees := by
  intro other real
  have small := zoneBytes_le placed other
  have word := spec.limit_bound
  rw [counts other, free]
  by_cases here : other = zone
  · subst here
    have old := balanced other real
    simp only [stats, Prod.mk.injEq, if_true] at old ⊢
    simp only [countTop, old, bump, update_self, UInt32.ofNat_add, UInt32.ofNat_one, true_and]
    rw [add_of_lt (by omega)]
    exact ⟨rfl, UInt32.sub_zero _⟩
  · rw [if_neg here, balanced other real, bump, update_of_ne here]

/-- New memory is free. -/
lemma Balanced.added
    (counts : Counts before after zone (if bytes = 0 then id else countAdded spec bytes))
    (free : after.freePages spec = before.freePages spec ∪ given)
    (zoned : ∀ page ∈ given, spec.mzoneOf page = zone)
    (size : pageSize * given.card = bytes) (apart : Disjoint (before.freePages spec) given)
    (placed : Sited spec (after.freePages spec)) :
    Balanced spec after live allocs frees := by
  intro other real
  have avail := zoneBytes_union spec apart other
  have fits := zoneBytes_le placed other
  have word := spec.limit_bound
  rw [← free, zoneBytes_zoned zoned, size] at avail
  rw [counts other]
  by_cases here : other = zone
  · subst here
    have old := balanced other real
    rw [if_pos rfl] at avail ⊢
    by_cases empty : bytes = 0
    · rw [avail, empty]
      exact old
    rw [if_neg empty]
    simp only [stats, Prod.mk.injEq] at old ⊢
    simp only [countAdded, old, true_and, and_true]
    rw [add_of_lt (by omega)]
    exact avail.symm
  · rw [if_neg here] at avail ⊢
    rw [balanced other real, avail, add_zero]

end

end Events

/-- The allocator together with the calls that each zone has served. -/
structure PageLedger where
  system : PageSystem
  allocs : Nat → Nat
  frees : Nat → Nat

/-- The zone that serves an allocation holds the last byte of the result. -/
def servedBy (spec : MZoneSpec) (start bytes : Nat) : Option Nat :=
  if start = spec.pageError then none else some (spec.mzoneOf (start + bytes - 1))

/-- The zone that serves the call, for the calls that the statistics count. -/
def PageCall.served (spec : MZoneSpec) (memory : PageState) : PageCall → Option Nat
  | .malloc bytes attr zone =>
    (memory.pageMalloc spec bytes attr zone).bind fun (_, start) => servedBy spec start (spec.ceil bytes)
  | .mallocIn low high bytes attr =>
    (memory.pageMallocIn spec low high bytes attr).bind fun (_, start) =>
      servedBy spec start (spec.ceil bytes)
  | .mallocPart minSize maxSize attr zone =>
    (memory.pageMallocPart spec minSize maxSize attr zone).bind fun (_, start, size) =>
      servedBy spec start size
  | _ => none

section Served
variable {state after : PageState} {live : Finset Nat} {allocs frees : Nat → Nat}
  {zone start bytes : Nat}
  {front back : List PageRange} {range : PageRange} {attr : Bool}

/-- An allocation is served by the zone of the range that it comes from. -/
lemma servedBy_taken (taken : Taken spec state after zone front range back start bytes attr)
    (fits : Fits spec zone range)
    (real : zone < spec.realCount) : servedBy spec start bytes = some zone := by
  obtain ⟨lower, upper, startAligned, _, filled⟩ := taken.part
  have positive := fits.filled
  have last : range.Has (start + bytes - 1) := by
    unfold Range.Has Range.stop at *
    omega
  rw [servedBy, if_neg (aligned_ne_pageError startAligned), fits.mzoneOf_eq real last]

lemma servedBy_error (bytes : Nat) : servedBy spec spec.pageError bytes = none := if_pos rfl

lemma pagesOf_zoned (part : Part range start bytes) (fits : Fits spec zone range)
    (real : zone < spec.realCount) : ∀ page ∈ pagesOf start bytes, spec.mzoneOf page = zone := by
  intro page mem
  obtain ⟨_, lower, upper⟩ := (mem_pagesOf part.startAligned part.sizeAligned).mp mem
  exact fits.mzoneOf_eq real ⟨part.lower.trans lower, upper.trans_le part.upper⟩

lemma Balanced.failed (balanced : Balanced spec state live allocs frees) (bytes : Nat) :
    Balanced spec state ((live \ ∅) ∪ takenPages spec spec.pageError bytes)
      ((servedBy spec spec.pageError bytes).elim allocs (bump allocs)) (touch spec ∅ frees) := by
  rw [servedBy_error, takenPages, if_pos rfl, sdiff_empty, union_empty]
  exact balanced

lemma Balanced.served (balanced : Balanced spec after (live ∪ pagesOf start bytes)
    (bump allocs zone) frees)
    (taken : Taken spec state after zone front range back start bytes attr) (fits : Fits spec zone range)
    (real : zone < spec.realCount) :
    Balanced spec after ((live \ ∅) ∪ takenPages spec start bytes)
      ((servedBy spec start bytes).elim allocs (bump allocs))
      (touch spec ∅ frees) := by
  rw [servedBy_taken taken fits real, sdiff_empty, takenPages_of_aligned taken.part.startAligned]
  exact balanced

/-- `page_malloc` and `page_malloc_part` keep the balance if they take no bytes. -/
lemma Balanced.servedNothing (balanced : Balanced spec state live allocs frees)
    (intact : Intact spec state)
    (real : zone < spec.realCount) (known : state.freeList spec zone = front ++ range :: back)
    (taken : Taken spec state after zone front range back start bytes attr)
    (counts : Counts state after zone (countTop spec bytes)) (none : bytes = 0)
    (placed : Sited spec live) :
    Balanced spec after ((live \ ∅) ∪ takenPages spec start bytes)
      ((servedBy spec start bytes).elim allocs (bump allocs))
      (touch spec ∅ frees) := by
  subst none
  have fits := (intact zone real).2.fits range (by simp [known])
  refine Balanced.served ?_ taken fits real
  rw [pagesOf_zero, union_empty]
  refine balanced.takenNothing counts ?_ placed
  rw [(taken.allocates intact real known).free, pagesOf_zero, sdiff_empty]

end Served

namespace PageLedger

def boot (spec : MZoneSpec) (contents : Nat → Page) : PageLedger :=
  ⟨PageSystem.boot spec contents, fun _ => 0, fun _ => 0⟩

def step (spec : MZoneSpec) (ledger : PageLedger) (call : PageCall) : Option PageLedger :=
  (call.perform spec ledger.system.memory).map fun outcome =>
    ⟨ledger.system.apply outcome, (call.served spec ledger.system.memory).elim ledger.allocs
      (bump ledger.allocs), touch spec outcome.given ledger.frees⟩

/-- No zone up to the given one has a range of the size. -/
def NoFit (spec : MZoneSpec) (memory : PageState) (zone bytes : Nat) : Prop :=
  ∀ other, other < zone + 1 → ∀ range ∈ memory.freeList spec other, range.size < bytes

/-- One of the five functions. `page_malloc` and `page_malloc_part` take no memory. -/
def TakesNone (spec : MZoneSpec) (memory : PageState) : PageCall → Prop
  | .malloc bytes _ zone => bytes = 0 ∨ NoFit spec memory zone bytes
  | .mallocPart minSize maxSize _ zone => floorAlign maxSize = 0 ∨ NoFit spec memory zone minSize
  | .memalign _ _ _ _ => False
  | .mallocScatter _ _ _ _ _ => False
  | .realloc _ _ _ _ _ => False
  | _ => True

def Countable (spec : MZoneSpec) (ledger : PageLedger) (call : PageCall) : Prop :=
  PageSystem.Safe spec ledger.system call ∧ TakesNone spec ledger.system.memory call

instance (memory : PageState) (zone bytes : Nat) : Decidable (NoFit spec memory zone bytes) := by
  unfold NoFit
  infer_instance

instance decidableTakesNone (spec : MZoneSpec) (memory : PageState) : (call : PageCall) →
    Decidable (TakesNone spec memory call)
  | .malloc .. | .mallocPart .. => inferInstanceAs (Decidable (_ ∨ _))
  | .memalign .. | .mallocScatter .. | .realloc .. => instDecidableFalse
  | .addmemory .. | .mallocIn .. | .ffree .. | .write .. => instDecidableTrue

instance (ledger : PageLedger) (call : PageCall) : Decidable (Countable spec ledger call) :=
  inferInstanceAs (Decidable (_ ∧ _))

section Calls
variable {system : PageSystem} {call : PageCall} {allocs frees : Nat → Nat}

/-- Each countable call keeps the balance. -/
lemma perform_balanced (partitioned : PageSystem.Partitioned spec system)
    (balanced : Balanced spec system.memory system.live allocs frees)
    (safe : PageSystem.Safe spec system call) (takesNone : TakesNone spec system.memory call) :
    ∃ outcome, call.perform spec system.memory = some outcome ∧
      Balanced spec outcome.memory ((system.live \ outcome.given) ∪ outcome.taken)
        ((call.served spec system.memory).elim allocs (bump allocs))
          (touch spec outcome.given frees) := by
  have intact := partitioned.intact
  have placed : Sited spec (system.memory.freePages spec ∪ system.live) := by
    rw [partitioned.whole]
    exact partitioned.placed
  have livePlaced : Sited spec system.live := fun page mem => placed page (mem_union_right _ mem)
  cases call with
  | addmemory zone start bytes =>
    obtain ⟨outcome, performed, performs, _⟩ := partitioned.perform safe
    obtain ⟨real, startAligned, sizeAligned, lower, upper, fresh⟩ := safe
    have apart : Disjoint (pagesOf start bytes) (system.memory.freePages spec) :=
      disjoint_of_subset_right (partitioned.whole ▸ subset_union_left) fresh
    obtain ⟨after, added, frees, counts⟩ :=
      intact.pageAddmemory real startAligned sizeAligned lower upper apart
    have same : outcome = ⟨after, pagesOf start bytes, ∅, ∅⟩ := by
      rw [perform, added, map_some, some.injEq] at performed
      exact performed.symm
    subst same
    refine ⟨_, performed, ?_⟩
    rw [sdiff_empty, union_empty]
    refine balanced.added counts frees.free (fun page mem => ?_) (card_pagesOf sizeAligned) apart.symm
      fun page mem => ?_
    · obtain ⟨_, above, below⟩ := (mem_pagesOf startAligned sizeAligned).mp mem
      exact mzoneOf_eq real (by omega) (by omega)
    · rw [frees.free] at mem
      rcases mem_union.mp mem with old | new
      · exact placed page (mem_union_left _ old)
      · exact performs.addedPlaced page new
  | malloc bytes attr zone =>
    rcases intact.pageMalloc_cases safe bytes attr with failed | hit
    · refine ⟨_, by rw [perform, failed, map_some], ?_⟩
      rw [served, failed]
      exact balanced.failed _
    obtain ⟨other, front, range, back, after, small, known, fitting, found, rfl, taken⟩ := hit
    have none := takesNone.resolve_right fun noFit =>
      (noFit other (by omega) range (by simp [known])).not_ge fitting
    refine ⟨_, by rw [perform, found, map_some], ?_⟩
    rw [served, found]
    exact balanced.servedNothing intact (lt_of_le_of_lt small safe) known taken (counts_takeTop _ _)
      (by rw [none, spec.ceil_zero]) livePlaced
  | mallocIn low high bytes attr =>
    rcases intact.pageMallocIn_cases safe.1 safe.2.1 safe.2.2 attr with ⟨failed, _⟩ | hit
    · refine ⟨_, by rw [perform, failed, map_some], ?_⟩
      rw [served, failed]
      exact balanced.failed _
    obtain ⟨other, front, range, back, after, small, known, _, found, rfl, taken⟩ := hit
    have otherReal : other < spec.realCount := lt_of_le_of_lt small safe.1
    have fits := (intact other otherReal).2.fits range (by simp [known])
    refine ⟨_, by rw [perform, found, map_some], ?_⟩
    rw [served, found]
    refine Balanced.served ?_ taken fits otherReal
    exact balanced.takenIn (counts_takeIn _ _) (taken.allocates intact otherReal known)
      (pagesOf_zoned taken.part fits otherReal) (card_pagesOf taken.part.sizeAligned)
        partitioned.apart placed
  | mallocPart minSize maxSize attr zone =>
    rcases intact.pageMallocPart_cases safe minSize maxSize attr with ⟨failed, _⟩ | hit
    · refine ⟨_, by rw [perform, failed, map_some], ?_⟩
      rw [served, failed]
      exact balanced.failed _
    obtain ⟨other, front, range, back, after, small, known, fitting, _, _, found, rfl, taken⟩ := hit
    have none := takesNone.resolve_right fun noFit =>
      (noFit other (by omega) range (by simp [known])).not_ge fitting
    refine ⟨_, by rw [perform, found, map_some], ?_⟩
    rw [served, found]
    exact balanced.servedNothing intact (lt_of_le_of_lt small safe) known taken (counts_takeTop _ _)
      (by rw [none, Nat.min_zero]) livePlaced
  | memalign | mallocScatter | realloc => exact takesNone.elim
  | ffree start bytes attr =>
    obtain ⟨after, freed, pieces, givenLive⟩ := partitioned.ffree safe attr
    refine ⟨_, by rw [perform, freed, map_some], ?_⟩
    rw [union_empty]
    exact balanced.pieces intact pieces givenLive placed
  | write page contents =>
    have writes := writes_page system.memory page contents
    have apart : Disjoint {page} (system.memory.freePages spec) :=
      disjoint_singleton_left.mpr fun isFree => disjoint_left.mp partitioned.apart isFree safe
    refine ⟨_, rfl, ?_⟩
    rw [sdiff_empty, union_empty]
    intro zone real
    rw [(intact.writes writes apart).2.1]
    exact balanced zone real

end Calls

/-- The zones agree with the ledger. -/
structure Agrees (spec : MZoneSpec) (ledger : PageLedger) : Prop where
  partitioned : PageSystem.Partitioned spec ledger.system
  balanced : Balanced spec ledger.system.memory ledger.system.live ledger.allocs ledger.frees

lemma boot_agrees (spec : MZoneSpec) (contents : Nat → Page) : Agrees spec (boot spec contents) := by
  refine ⟨PageSystem.boot_partitioned spec contents, fun zone _ => ?_⟩
  have none : (boot spec contents).system.memory.freePages spec = ∅ :=
    PageSystem.boot_freePages spec contents
  rw [none]
  rfl

/-- A run of countable calls keeps the ledger in agreement. -/
lemma run_agrees (spec : MZoneSpec) (contents : Nat → Page) (calls : List PageCall)
    (countable : StepRun.Meets (step spec) (Countable spec) (boot spec contents) calls) :
    ∃ ledger, run (step spec) (boot spec contents) calls = some ledger ∧ Agrees spec ledger := by
  refine run_invariant (fun ledger call agrees countable => ?_) calls _
    (boot_agrees spec contents) countable
  obtain ⟨partitioned, balanced⟩ := agrees
  obtain ⟨outcome, performed, performs, _⟩ := partitioned.perform countable.1
  obtain ⟨other, again, kept⟩ := perform_balanced partitioned balanced countable.1 countable.2
  obtain rfl : outcome = other := some.inj (performed.symm.trans again)
  exact ⟨_, by rw [step, performed, map_some], partitioned.apply performs, kept⟩

/-- After countable calls the statistics agree with the lists, the bytes and the calls. -/
theorem pageStats_agree (spec : MZoneSpec) (contents : Nat → Page) (calls : List PageCall)
    (countable : StepRun.Meets (step spec) (Countable spec) (boot spec contents) calls) :
    ∃ ledger, run (step spec) (boot spec contents) calls = some ledger ∧ ∀ zone, zone < spec.realCount →
      (ledger.system.memory.zone zone).zAvail = total (ledger.system.memory.freeList spec zone) ∧
      (ledger.system.memory.zone zone).zInuse = zoneBytes spec ledger.system.live zone ∧
      (ledger.system.memory.zone zone).zAvail + (ledger.system.memory.zone zone).zInuse =
        zoneBytes spec ledger.system.installed zone ∧
      (ledger.system.memory.zone zone).zAlloc.toNat = ledger.allocs zone % 2 ^ 32 ∧
      (ledger.system.memory.zone zone).zFree.toNat = ledger.frees zone % 2 ^ 32 := by
  obtain ⟨ledger, ran, partitioned, balanced⟩ := run_agrees spec contents calls countable
  refine ⟨ledger, ran, fun zone real => ?_⟩
  have fields := balanced zone real
  simp only [stats, Prod.mk.injEq] at fields
  obtain ⟨inuse, avail, alloc, free⟩ := fields
  rw [Intact.total_freeList partitioned.intact real, ← partitioned.whole,
    zoneBytes_union spec partitioned.apart, avail, inuse, alloc, free]
  exact ⟨rfl, rfl, rfl, UInt32.toNat_ofNat', UInt32.toNat_ofNat'⟩

theorem pageStats_agree_i386 : ∃ ledger, run (step i386) (boot i386 fun _ => .zero)
        [.addmemory 0 0x1000 0x4000, .addmemory 1 0x100000 0x8000,
          .mallocIn 0x102000 0x103000 0x1800 true,
          .malloc 0x9000 false 1, .malloc 0 false 1, .ffree 0x104000 0x1000 true] = some ledger ∧
      ∀ zone, zone < i386.realCount →
        (ledger.system.memory.zone zone).zAvail = total (ledger.system.memory.freeList i386 zone) ∧
        (ledger.system.memory.zone zone).zInuse = zoneBytes i386 ledger.system.live zone ∧
        (ledger.system.memory.zone zone).zAvail + (ledger.system.memory.zone zone).zInuse =
          zoneBytes i386 ledger.system.installed zone ∧
        (ledger.system.memory.zone zone).zAlloc.toNat = ledger.allocs zone % 2 ^ 32 ∧
        (ledger.system.memory.zone zone).zFree.toNat = ledger.frees zone % 2 ^ 32 :=
  pageStats_agree i386 (fun _ => .zero) _ (by decide +kernel)

/-- One page from `page_malloc` leaves `z_avail` too great and is taken from the frees. -/
theorem malloc_stats_disagree :
    ((run (step i386) (boot i386 fun _ => .zero) [.addmemory 1 0x100000 0x3000,
      .malloc 0x1000 false 1]).map fun ledger =>
      ((ledger.system.memory.zone 1).zAvail, total (ledger.system.memory.freeList i386 1),
        (ledger.system.memory.zone 1).zFree, ledger.frees 1)) =
          some (0x3000, 0x2000, 0xfffff000, 0) := by
  decide +kernel

end PageLedger

end KosKernel.Memory
