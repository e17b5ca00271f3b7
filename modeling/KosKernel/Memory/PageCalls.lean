import KosKernel.Memory.PageOps

namespace KosKernel.Memory
open FreeRanges Function Finset Option MZoneSpec PageState Nat
namespace PageState
variable {spec : MZoneSpec} {state middle after : PageState} {attr : Bool}
  {taken more given : Finset Nat}

section Compose

lemma Intact.aligned_free (intact : Intact spec state) {page : Nat}
    (free : page ∈ state.freePages spec) :
    pageSize ∣ page := (intact.mem_freePages.mp free).1

lemma Allocates.refl (intact : Intact spec state) : Allocates spec state state attr ∅ where
  intact := intact
  wasFree := empty_subset _
  free := sdiff_empty.symm
  frame _ _ _ := rfl
  zeroed zeroed := ⟨zeroed, by simp⟩

/-- Pages that were handed out are not free. -/
lemma Allocates.apart (allocates : Allocates spec state after attr taken) :
    Disjoint taken (after.freePages spec) := by
  rw [allocates.free]
  exact disjoint_sdiff

lemma Allocates.trans (intact : Intact spec state) (first : Allocates spec state middle attr taken)
    (second : Allocates spec middle after attr more) :
      Allocates spec state after attr (taken ∪ more) where
  intact := second.intact
  wasFree := by
    refine union_subset first.wasFree (second.wasFree.trans ?_)
    rw [first.free]
    exact sdiff_subset
  free := by
    rw [second.free, first.free]
    exact sdiff_sdiff_left
  frame page aligned outside := by
    rw [second.frame page aligned, first.frame page aligned outside]
    rw [first.free]
    exact fun inside => outside (mem_sdiff.mp inside).1
  zeroed zeroed := by
    obtain ⟨kept, zero⟩ := first.zeroed zeroed
    obtain ⟨last, moreZero⟩ := second.zeroed kept
    refine ⟨last, fun asked page mem => ?_⟩
    rcases mem_union.mp mem with old | new
    · rw [second.frame page (intact.aligned_free (first.wasFree old)) (disjoint_left.mp first.apart old)]
      exact zero asked page old
    · exact moreZero asked page new

/-- A part of the pages is handed back at once. -/
lemma Allocates.giveBack (intact : Intact spec state) (first : Allocates spec state middle attr taken)
    (second : Frees spec middle after attr given) (part : given ⊆ taken) :
    Allocates spec state after attr (taken \ given) := by
  have free : after.freePages spec = state.freePages spec \ (taken \ given) := by
    rw [second.free, first.free]
    ext page
    have known := @first.wasFree page
    simp only [mem_union, mem_sdiff]
    tauto
  constructor
  case intact => exact second.intact
  case wasFree => exact sdiff_subset.trans first.wasFree
  case free => exact free
  case frame =>
    intro page aligned outside
    rw [second.frame page aligned, first.frame page aligned outside]
    rw [free]
    exact fun inside => outside (mem_sdiff.mp inside).1
  case zeroed =>
    intro zeroed
    obtain ⟨kept, zero⟩ := first.zeroed zeroed
    refine ⟨second.zeroed kept fun asked page mem => zero asked page (part mem),
      fun asked page mem => ?_⟩
    obtain ⟨old, notGiven⟩ := mem_sdiff.mp mem
    rw [second.frame page (intact.aligned_free (first.wasFree old))]
    · exact zero asked page old
    · rw [second.free]
      exact fun inside => (mem_union.mp inside).elim (disjoint_left.mp first.apart old) notGiven

/-- A range of the pages is handed back by `page_ffree`. -/
lemma Allocates.ffree (intact : Intact spec state)
    (allocates : Allocates spec state middle attr taken) {start bytes : Nat}
    (startAligned : pageSize ∣ start) (sizeAligned : pageSize ∣ bytes)
    (bounded : start + bytes ≤ spec.limit) (part : pagesOf start bytes ⊆ taken) :
    ∃ after, middle.ffree spec start bytes attr = some after ∧
    Allocates spec state after attr (taken \ pagesOf start bytes) := by
  have word := spec.limit_bound
  have rounded : spec.ceil bytes = bytes := ceil_eq sizeAligned (by omega)
  have apart : Disjoint (pagesOf start (spec.ceil bytes)) (middle.freePages spec) := by
    rw [rounded]
    exact disjoint_of_subset_left part allocates.apart
  obtain ⟨after, freed, pieces⟩ :=
    allocates.intact.ffree startAligned (by omega) (by rwa [rounded]) apart attr
  rw [rounded] at pieces
  exact ⟨after, freed, allocates.giveBack intact (pieces.frees allocates.intact) part⟩

end Compose

section Memalign

/-- The rounded address lies in the first aligned step, for each alignment. -/
lemma ceilAlignTo_bounds {bits start alignment : Nat} (startAligned : pageSize ∣ start)
    (aligned : pageSize ∣ alignment) (positive : 0 < alignment) (fits : start + alignment < 2 ^ bits) :
    pageSize ∣ ceilAlignTo bits start alignment ∧ start ≤ ceilAlignTo bits start alignment ∧
      ceilAlignTo bits start alignment + pageSize ≤ start + alignment := by
  unfold ceilAlignTo
  have mask : (alignment + (2 ^ bits - 1)) % 2 ^ bits = alignment - 1 := by
    rw [show alignment + (2 ^ bits - 1) = alignment - 1 + 2 ^ bits by omega, add_mod_right]
    exact mod_eq_of_lt (by omega)
  simp only [mask]
  rw [mod_eq_of_lt (show start + (alignment - 1) < 2 ^ bits by omega)]
  have masked : (start + (alignment - 1)) &&& (alignment - 1) ≤ alignment - 1 := and_le_right
  obtain ⟨first, rfl⟩ := startAligned
  obtain ⟨count, rfl⟩ := aligned
  have low : ((pageSize * first + (pageSize * count - 1)) &&& (pageSize * count - 1)) % pageSize =
    pageSize - 1 := by
    rw [show pageSize = 2 ^ 12 from rfl, and_mod_two_pow]
    have lowSum : (2 ^ 12 * first + (2 ^ 12 * count - 1)) % 2 ^ 12 = 2 ^ 12 - 1 := by
      unfold pageSize at positive
      omega
    have lowMask : (2 ^ 12 * count - 1) % 2 ^ 12 = 2 ^ 12 - 1 := by
      omega
    rw [lowSum, lowMask]
    decide
  unfold pageSize at *
  refine ⟨?_, ?_, ?_⟩ <;> omega

/-- This is what `page_memalign` does to the free pages. -/
lemma Intact.pageMemalign (intact : Intact spec state) {zone alignment bytes : Nat}
    (real : zone < spec.realCount)
    (roundable : alignment ≤ pageSize ∨
      (alignment + (pageSize - 1) < 2 ^ spec.bits ∧ bytes + (pageSize - 1) < 2 ^ spec.bits))
    (attr : Bool) :
    ∃ after start, state.pageMemalign spec alignment bytes attr zone = some (after, start) ∧
      AllocatesAt spec state after attr start (spec.ceil bytes) := by
  unfold PageState.pageMemalign
  by_cases small : alignment ≤ pageSize
  · rw [if_pos small]
    exact intact.pageMalloc real bytes attr
  rw [if_neg small]
  obtain ⟨alignRounds, rounds⟩ := roundable.resolve_left small
  have alignBounds := ceil_bounds alignRounds
  have alignAligned := spec.ceil_dvd alignment
  have sizeAligned := spec.ceil_dvd bytes
  simp only
  by_cases overflow : 2 ^ spec.bits ≤ spec.ceil alignment + spec.ceil bytes
  · rw [if_pos overflow]
    exact ⟨state, spec.pageError, rfl, .failed rfl rfl⟩
  rw [if_neg overflow]
  have totalAligned := dvd_add alignAligned sizeAligned
  have totalRounds : spec.ceil alignment + spec.ceil bytes + (pageSize - 1) < 2 ^ spec.bits := by
    obtain ⟨pages, word⟩ := spec.pageSize_dvd_word
    unfold pageSize at *
    omega
  obtain ⟨taken, start, found, outcome⟩ :=
    intact.pageMalloc real (spec.ceil alignment + spec.ceil bytes) attr
  rw [ceil_eq totalAligned totalRounds] at outcome
  rw [found, bind_some]
  cases outcome with
  | failed error same =>
    rw [if_neg (not_not.mpr error), same]
    exact ⟨state, spec.pageError, rfl, .failed rfl rfl⟩
  | done startAligned _ bounded allocates =>
    have word := spec.limit_bound
    rw [if_pos (aligned_ne_pageError startAligned)]
    obtain ⟨innerAligned, lower, upper⟩ := ceilAlignTo_bounds startAligned alignAligned
      (show 0 < spec.ceil alignment by omega) (show start + spec.ceil alignment < 2 ^ spec.bits by omega)
    generalize ceilAlignTo spec.bits start (spec.ceil alignment) = inner at innerAligned lower upper
    generalize spec.ceil alignment = step at *
    generalize spec.ceil bytes = size at *
    have below : spec.sub inner start = inner - start := sub_of_le lower (by omega)
    have behind : spec.add inner size = inner + size := add_of_lt (by omega)
    have stop : spec.add start (step + size) = start + (step + size) := add_of_lt (by omega)
    have above : spec.sub (start + (step + size)) (inner + size) =
      start + (step + size) - (inner + size) :=
      sub_of_le (by omega) (by omega)
    have belowAligned := dvd_sub innerAligned startAligned
    have endAligned := dvd_add innerAligned sizeAligned
    have aboveAligned := dvd_sub (dvd_add startAligned totalAligned) endAligned
    rw [below, behind, stop, above]
    obtain ⟨low, lowFreed, lowAllocates⟩ :=
      allocates.ffree intact startAligned belowAligned (by omega) (by
      intro page mem
      rw [mem_pagesOf startAligned belowAligned] at mem
      rw [mem_pagesOf startAligned totalAligned]
      omega)
    obtain ⟨high, highFreed, highAllocates⟩ :=
      lowAllocates.ffree intact endAligned aboveAligned (by omega) (by
      intro page mem
      rw [mem_pagesOf endAligned aboveAligned] at mem
      rw [mem_sdiff, mem_pagesOf startAligned totalAligned, mem_pagesOf startAligned belowAligned]
      omega)
    refine ⟨high, inner, by rw [lowFreed,
      bind_some, highFreed]; rfl, .done innerAligned sizeAligned (by omega) ?_⟩
    convert highAllocates using 1
    ext page
    rw [mem_sdiff, mem_sdiff, mem_pagesOf innerAligned sizeAligned,
      mem_pagesOf startAligned totalAligned,
      mem_pagesOf startAligned belowAligned, mem_pagesOf endAligned aboveAligned]
    omega

end Memalign

section Scatter

/-- The pages of a scatter list. -/
def partPages : List (Nat × Nat) → Finset Nat
  | [] => ∅
  | (start, size) :: rest => pagesOf start size ∪ partPages rest

lemma leavesPages_inHeap (found : List Bool) : LeavesPages (found.map .inHeap) := by
  intro call mem
  obtain ⟨_, _, rfl⟩ := List.mem_map.mp mem
  rfl

lemma LeavesPages.head {kmalloc : List Kmalloc} (leaves : LeavesPages kmalloc) :
    (kmalloc.headD (.inHeap true)).pages = id := by
  cases kmalloc with
  | nil => rfl
  | cons call rest => exact leaves call List.mem_cons_self

lemma LeavesPages.tail {kmalloc : List Kmalloc} (leaves : LeavesPages kmalloc) :
    LeavesPages kmalloc.tail :=
  fun call mem => leaves call (List.mem_of_mem_tail mem)

/-- The parts of a scatter list were handed out one after another. -/
structure Scattered (spec : MZoneSpec) (before now : PageState) (attr : Bool)
    (parts : List (Nat × Nat)) : Prop where
  allocates : Allocates spec before now attr (partPages parts)
  placed : ∀ part ∈ parts, pageSize ∣ part.1 ∧ pageSize ∣ part.2 ∧ part.1 + part.2 ≤ spec.limit
  apart : parts.Pairwise fun first second => Disjoint (pagesOf first.1 first.2)
    (pagesOf second.1 second.2)

variable {parts : List (Nat × Nat)}

lemma partPages_disjoint {pages : Finset Nat}
    (apart : ∀ part ∈ parts, Disjoint pages (pagesOf part.1 part.2)) :
    Disjoint pages (partPages parts) := by
  induction parts with
  | nil => exact disjoint_empty_right _
  | cons part rest ih =>
    rw [partPages, disjoint_union_right]
    exact ⟨apart part (by simp), ih fun other mem => apart other (by simp [mem])⟩

lemma pagesOf_subset_partPages {part : Nat × Nat} (mem : part ∈ parts) :
    pagesOf part.1 part.2 ⊆ partPages parts := by
  induction parts with
  | nil => simp at mem
  | cons first rest ih =>
    rcases List.mem_cons.mp mem with rfl | mem
    · exact subset_union_left
    · exact (ih mem).trans subset_union_right

section
variable (intact : Intact spec state)
include intact

/-- An incomplete scatter is handed back as a whole. -/
lemma Scattered.free (scattered : Scattered spec state middle attr parts) :
    ∃ after, freeScatter spec attr middle parts = some after ∧ Allocates spec state after attr ∅ := by
  induction parts generalizing middle with
  | nil => exact ⟨middle, rfl, scattered.allocates⟩
  | cons part rest ih =>
    obtain ⟨startAligned, sizeAligned, bounded⟩ := scattered.placed part (by simp)
    obtain ⟨others, restApart⟩ := List.pairwise_cons.mp scattered.apart
    obtain ⟨next, freed, allocates⟩ := scattered.allocates.ffree intact startAligned sizeAligned bounded
      (pagesOf_subset_partPages (by simp))
    have left : partPages (part :: rest) \ pagesOf part.1 part.2 = partPages rest := by
      rw [partPages, Finset.union_sdiff_left, Finset.sdiff_eq_self_iff_disjoint]
      exact (partPages_disjoint others).symm
    rw [left] at allocates
    obtain ⟨after, found, nothing⟩ :=
      ih ⟨allocates, fun other mem => scattered.placed other (by simp [mem]), restApart⟩
    exact ⟨after, by rw [freeScatter, freed, bind_some, found], nothing⟩

/-- One more part is handed out. -/
lemma Scattered.extend (scattered : Scattered spec state middle attr parts) {start size : Nat}
    (startAligned : pageSize ∣ start) (sizeAligned : pageSize ∣ size)
    (bounded : start + size ≤ spec.limit)
    (allocates : Allocates spec middle after attr (pagesOf start size)) :
    Scattered spec state after attr ((start, size) :: parts) where
  allocates := by
    rw [partPages, union_comm]
    exact scattered.allocates.trans intact allocates
  placed part mem := by
    rcases List.mem_cons.mp mem with rfl | mem
    · exact ⟨startAligned, sizeAligned, bounded⟩
    · exact scattered.placed part mem
  apart := by
    refine List.pairwise_cons.mpr ⟨fun part mem => ?_, scattered.apart⟩
    refine disjoint_of_subset_left allocates.wasFree (Disjoint.symm ?_)
    exact disjoint_of_subset_left (pagesOf_subset_partPages mem) scattered.allocates.apart

/-- The loop of `page_malloc_scatter` ends with all parts or with nothing. -/
lemma Intact.scatterLoop {zone bytes turns : Nat} (real : zone < spec.realCount) (minScatter : Nat)
    (kmalloc : List Kmalloc) (leaves : LeavesPages kmalloc)
    (scattered : Scattered spec state middle attr parts) (aligned : pageSize ∣ bytes)
    (word : bytes < 2 ^ spec.bits) (enough : bytes / pageSize < turns) :
    ∃ after outcome, scatterLoop spec minScatter attr zone turns middle bytes kmalloc parts =
      some (after, outcome) ∧
      Scattered spec state after attr (outcome.getD []) ∧
      ∀ all, outcome = some all → (all.map Prod.snd).sum = bytes + (parts.map Prod.snd).sum := by
  induction turns generalizing middle bytes kmalloc parts with
  | zero => exact absurd enough (not_lt_zero _)
  | succ turns ih =>
    have floor : floorAlign bytes = bytes := Nat.div_mul_cancel aligned
    obtain ⟨taken, start, size, found, outcome, atMost, progress⟩ :=
      scattered.allocates.intact.pageMallocPart real minScatter bytes attr
    rw [floor] at atMost progress
    rw [scatterLoop, found, bind_some]
    cases outcome with
    | failed error same =>
      obtain ⟨after, freed, nothing⟩ := scattered.free intact
      simp only [error, if_true, same]
      rw [freeScatter, show middle.ffree spec spec.pageError 0 attr = some middle from rfl,
        bind_some, freed]
      exact ⟨after, none, rfl, ⟨nothing, by simp, .nil⟩, by simp⟩
    | done startAligned sizeAligned bounded allocates =>
      have valid : start ≠ spec.pageError := aligned_ne_pageError startAligned
      have extended := scattered.extend intact startAligned sizeAligned bounded allocates
      simp only [if_neg valid]
      by_cases complete : bytes = size
      · rw [if_pos complete]
        refine ⟨taken, some ((start, size) :: parts), rfl, extended, ?_⟩
        rintro all ⟨rfl⟩
        simp [complete]
      · rw [if_neg complete]
        rw [leaves.head, id]
        by_cases linked : (kmalloc.headD (.inHeap true)).node.isSome = true
        · rw [if_pos linked, sub_of_le atMost word]
          have fewer : (bytes - size) / pageSize < turns := by
            unfold pageSize at *
            omega
          obtain ⟨after, outcome, reached, all, total⟩ :=
            ih kmalloc.tail leaves.tail extended (dvd_sub aligned sizeAligned) (by omega) fewer
          refine ⟨after, outcome, reached, all, fun list same => ?_⟩
          rw [total list same, List.map_cons, List.sum_cons]
          omega
        · obtain ⟨after, freed, nothing⟩ := extended.free intact
          rw [if_neg linked, freed]
          exact ⟨after, none, rfl, ⟨nothing, by simp, .nil⟩, by simp⟩

/-- This is what `page_malloc_scatter` does to the free pages. -/
lemma Intact.pageMallocScatter {zone : Nat} (real : zone < spec.realCount) (bytes minScatter : Nat)
    (attr : Bool) (kmalloc : List Kmalloc) (leaves : LeavesPages kmalloc) :
    ∃ after outcome, state.pageMallocScatter spec bytes minScatter attr zone kmalloc =
      some (after, outcome) ∧
      Scattered spec state after attr (outcome.getD []) ∧
      ∀ all, outcome = some all → (all.map Prod.snd).sum = spec.ceil bytes := by
  unfold PageState.pageMallocScatter
  by_cases empty : bytes = 0
  · rw [if_pos empty]
    refine ⟨state, some [], rfl, ⟨Allocates.refl intact, by simp, .nil⟩, ?_⟩
    rintro all ⟨rfl⟩
    rw [empty, spec.ceil_zero]
    rfl
  · rw [if_neg empty]
    have start : Scattered spec state state attr [] := ⟨Allocates.refl intact, by simp, .nil⟩
    have word : spec.ceil bytes < 2 ^ spec.bits := by
      refine lt_of_le_of_lt (div_mul_le_self _ _) (mod_lt _ ?_)
      positivity
    obtain ⟨after, outcome, reached, scattered, total⟩ := intact.scatterLoop real
      (if min (spec.ceil minScatter) (spec.ceil bytes) = 0 then pageSize else min
        (spec.ceil minScatter) (spec.ceil bytes))
      kmalloc leaves start (spec.ceil_dvd bytes) word (lt_succ_self _)
    exact ⟨after, outcome, reached, scattered, by simpa using total⟩

end

end Scatter

section Writes

/-- Some pages get new contents. -/
structure Writes (before after : PageState) (pages : Finset Nat) : Prop where
  zone : after.zone = before.zone
  page : ∀ page, pageSize ∣ page → page ∉ pages → after.page page = before.page page

lemma Writes.trans {first second : Finset Nat} (lower : Writes state middle first)
    (upper : Writes middle after second) :
    Writes state after (first ∪ second) where
  zone := upper.zone.trans lower.zone
  page page aligned outside := by
    rw [mem_union, not_or] at outside
    exact (upper.page page aligned outside.2).trans (lower.page page aligned outside.1)

lemma Writes.mono {few many : Finset Nat} (writes : Writes state after few) (subset : few ⊆ many) :
    Writes state after many :=
  ⟨writes.zone, fun page aligned outside => writes.page page aligned fun inside =>
    outside (subset inside)⟩

lemma writes_page (state : PageState) (page : Nat) (contents : Page) :
    Writes state { state with page := update state.page page contents } {page} :=
  ⟨rfl, fun _ _ outside => update_of_ne (fun same => outside (mem_singleton.mpr same)) _ _⟩

lemma writes_clearPages {start bytes : Nat} (startAligned : pageSize ∣ start)
    (sizeAligned : pageSize ∣ bytes) :
    Writes state (state.clearPages start bytes) (pagesOf start bytes) where
  zone := rfl
  page page aligned outside := by
    rw [mem_pagesOf startAligned sizeAligned] at outside
    exact if_neg fun inside => outside ⟨aligned, inside⟩

lemma writes_copyPages {dst : Nat} (src count : Nat) (aligned : pageSize ∣ dst)
    (bounded : dst + pageSize * count ≤ spec.limit) :
    Writes state (state.copyPages spec dst src count) (pagesOf dst (pageSize * count)) := by
  induction count generalizing state dst src with
  | zero => exact ⟨rfl, fun _ _ _ => rfl⟩
  | succ count ih =>
    have word := spec.limit_bound
    rw [mul_succ] at bounded ⊢
    have next : spec.add dst pageSize = dst + pageSize := add_of_lt (by unfold pageSize at *; omega)
    have one : Writes state { state with page := update state.page dst (state.page src) }
      (pagesOf dst pageSize) := by
      refine ⟨rfl, fun page _ outside => update_of_ne ?_ _ _⟩
      rintro rfl
      exact outside ((mem_pagesOf aligned (dvd_refl _)).mpr ⟨aligned, by unfold pageSize; omega⟩)
    rw [copyPages, next, add_comm (pageSize * count),
      pagesOf_append aligned (dvd_refl _) (dvd_mul_right _ _), union_comm]
    refine one.trans (ih (spec.add src pageSize) (dvd_add aligned (dvd_refl _)) ?_)
    omega

/-- Writes to pages that are not free keep the lists. -/
lemma Intact.writes (intact : Intact spec state) (writes : Writes state after given)
    (apart : Disjoint given (state.freePages spec)) :
    Intact spec after ∧ after.freePages spec = state.freePages spec ∧
    (Zeroed spec state → Zeroed spec after) := by
  have same : ∀ page ∈ state.freePages spec, after.page page = state.page page := fun page free =>
    writes.page page (intact.aligned_free free) (disjoint_right.mp apart free)
  have kept : ∀ zone, zone < spec.realCount → Listed spec after zone (state.freeList spec zone) := by
    intro zone real
    refine (intact zone real).1.congr (fun range mem => ?_) (by rw [writes.zone])
    have arranged := (intact zone real).2
    rw [same range.start (intact.mem_freePages.mpr ⟨(arranged.fits range mem).startAligned, zone,
      real, range, mem, arranged.has_start mem⟩)]
  have lists : ∀ zone, zone < spec.realCount →
    after.freeList spec zone = state.freeList spec zone := fun zone real =>
    (kept zone real).freeList_eq (intact zone real).2 real
  refine ⟨fun zone real => ?_, ?_, fun zeroed zone real range mem tag page aligned has => ?_⟩
  · rw [lists zone real]
    exact ⟨kept zone real, (intact zone real).2⟩
  · exact biUnion_congr rfl fun zone real => by rw [lists zone (mem_range.mp real)]
  · rw [lists zone real] at mem
    have zero := zeroed zone real range mem tag page aligned has
    unfold ZeroAt at zero ⊢
    rwa [same page (intact.mem_freePages.mpr ⟨aligned, zone, real, range, mem, has⟩)]

end Writes

section Exchange
variable {kept : Finset Nat}

/-- Only pages that were free or handed back change in a call. -/
structure Exchanges (spec : MZoneSpec) (before after : PageState) (given taken : Finset Nat) : Prop where
  intact : Intact spec after
  wasFree : taken ⊆ before.freePages spec ∪ given
  free : after.freePages spec = (before.freePages spec ∪ given) \ taken
  frame : ∀ page, pageSize ∣ page → page ∉ before.freePages spec → page ∉ given →
    after.page page = before.page page
  zeroed : Zeroed spec before → Zeroed spec after

lemma Allocates.exchanges (allocates : Allocates spec state after attr taken) :
    Exchanges spec state after ∅ taken where
  intact := allocates.intact
  wasFree := by
    rw [union_empty]
    exact allocates.wasFree
  free := by rw [union_empty, allocates.free]
  frame page aligned outside _ := allocates.frame page aligned outside
  zeroed zeroed := (allocates.zeroed zeroed).1

lemma Exchanges.refl (intact : Intact spec state) : Exchanges spec state state ∅ ∅ :=
  Allocates.exchanges (show Allocates spec state state false ∅ from Allocates.refl intact)

lemma Frees.exchanges (frees : Frees spec state after false given) :
    Exchanges spec state after given ∅ where
  intact := frees.intact
  wasFree := empty_subset _
  free := by rw [sdiff_empty, frees.free]
  frame page aligned outside notGiven := by
    refine frees.frame page aligned ?_
    rw [frees.free, mem_union]
    exact not_or.mpr ⟨outside, notGiven⟩
  zeroed zeroed := frees.zeroed zeroed (by simp)

/-- Pages that the caller keeps count as handed back and out again. -/
lemma Exchanges.keep (exchanges : Exchanges spec state after given taken)
    (apart : Disjoint kept (state.freePages spec)) (fresh : Disjoint kept given) :
    Exchanges spec state after (given ∪ kept) (taken ∪ kept) where
  intact := exchanges.intact
  wasFree := by
    rw [← union_assoc]
    exact union_subset_union_left exchanges.wasFree
  free := by
    rw [exchanges.free]
    ext page
    have first : page ∈ kept → page ∉ state.freePages spec := fun mem => disjoint_left.mp apart mem
    have second : page ∈ kept → page ∉ given := fun mem => disjoint_left.mp fresh mem
    simp only [mem_union, mem_sdiff]
    tauto
  frame page aligned outside notGiven := by
    rw [mem_union, not_or] at notGiven
    exact exchanges.frame page aligned outside notGiven.1
  zeroed := exchanges.zeroed

/-- The pages that were handed out get new contents. -/
lemma Exchanges.writes (exchanges : Exchanges spec state middle given taken)
    (writes : Writes middle after kept)
    (inside : kept ⊆ taken) : Exchanges spec state after given taken := by
  have apart : Disjoint kept (middle.freePages spec) := by
    rw [exchanges.free]
    exact disjoint_of_subset_left inside disjoint_sdiff
  obtain ⟨intact, free, zeroed⟩ := exchanges.intact.writes writes apart
  refine ⟨intact, exchanges.wasFree, free.trans exchanges.free, fun page aligned outside notGiven => ?_,
    fun before => zeroed (exchanges.zeroed before)⟩
  rw [writes.page page aligned, exchanges.frame page aligned outside notGiven]
  exact fun mem => (mem_union.mp (exchanges.wasFree (inside mem))).elim outside notGiven

/-- More pages are handed back. -/
lemma Exchanges.release (exchanges : Exchanges spec state middle given taken)
    (frees : Frees spec middle after false kept)
    (apart : Disjoint kept taken) : Exchanges spec state after (given ∪ kept) taken where
  intact := frees.intact
  wasFree := by
    rw [← union_assoc]
    exact exchanges.wasFree.trans subset_union_left
  free := by
    rw [frees.free, exchanges.free]
    ext page
    have first : page ∈ kept → page ∉ taken := fun mem => disjoint_left.mp apart mem
    simp only [mem_union, mem_sdiff]
    tauto
  frame page aligned outside notGiven := by
    rw [mem_union, not_or] at notGiven
    rw [frees.frame page aligned, exchanges.frame page aligned outside notGiven.1]
    rw [frees.free, exchanges.free, mem_union, mem_sdiff, mem_union]
    exact fun mem => mem.elim (fun found => found.1.elim outside notGiven.1) notGiven.2
  zeroed zeroed := frees.zeroed (exchanges.zeroed zeroed) (by simp)

end Exchange

end PageState

end KosKernel.Memory
