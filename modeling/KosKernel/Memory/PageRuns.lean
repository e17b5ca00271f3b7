import KosKernel.Memory.PageRealloc
import KosKernel.Library.StepRun

namespace KosKernel.Memory
open FreeRanges PageState Finset StepRun Option

/-- A call to the page allocator, or a write of a program to a page. -/
inductive PageCall where
  | addmemory (zone start bytes : Nat)
  | malloc (bytes : Nat) (attr : Bool) (zone : Nat)
  | memalign (alignment bytes : Nat) (attr : Bool) (zone : Nat)
  | mallocIn (low high bytes : Nat) (attr : Bool)
  | mallocPart (minSize maxSize : Nat) (attr : Bool) (zone : Nat)
  | mallocScatter (bytes minScatter : Nat) (attr : Bool) (zone : Nat) (kmalloc : List Bool)
  | realloc (start oldBytes newBytes : Nat) (attr : Bool) (zone : Nat)
  | ffree (start bytes : Nat) (attr : Bool)
  | write (page : Nat) (contents : Page)

/-- The memory after a call, and the pages that the call installs, takes back and hands out. -/
structure PageOutcome where
  memory : PageState
  added : Finset Nat
  given : Finset Nat
  taken : Finset Nat

/-- The call is made, and its arguments and its result tell which pages change hands. -/
def PageCall.perform (spec : MZoneSpec) (memory : PageState) : PageCall → Option PageOutcome
  | .addmemory zone start bytes =>
    (memory.pageAddmemory spec zone start bytes).map fun after => ⟨after, pagesOf start bytes, ∅, ∅⟩
  | .malloc bytes attr zone =>
    (memory.pageMalloc spec bytes attr zone).map fun (after, start) =>
      ⟨after, ∅, ∅, takenPages spec start (spec.ceil bytes)⟩
  | .memalign alignment bytes attr zone =>
    (memory.pageMemalign spec alignment bytes attr zone).map fun (after, start) =>
      ⟨after, ∅, ∅, takenPages spec start (spec.ceil bytes)⟩
  | .mallocIn low high bytes attr =>
    (memory.pageMallocIn spec low high bytes attr).map fun (after, start) =>
      ⟨after, ∅, ∅, takenPages spec start (spec.ceil bytes)⟩
  | .mallocPart minSize maxSize attr zone =>
    (memory.pageMallocPart spec minSize maxSize attr zone).map fun (after, start, size) =>
      ⟨after, ∅, ∅, takenPages spec start size⟩
  | .mallocScatter bytes minScatter attr zone kmalloc =>
    (memory.pageMallocScatter spec bytes minScatter attr zone (kmalloc.map .inHeap)).map
      fun (after, parts) =>
      ⟨after, ∅, ∅, partPages (parts.getD [])⟩
  | .realloc start oldBytes newBytes attr zone =>
    (memory.pageRealloc spec start oldBytes newBytes attr zone).map fun (after, result) =>
      ⟨after, ∅, if result = spec.pageError then ∅ else pagesOf start (spec.ceil oldBytes),
        takenPages spec result (spec.ceil newBytes)⟩
  | .ffree start bytes attr =>
    (memory.ffree spec start bytes attr).map fun after => ⟨after, ∅, pagesOf start (spec.ceil bytes), ∅⟩
  | .write page contents => some ⟨{ memory with page := Function.update memory.page page contents },
      ∅, ∅, ∅⟩

/-- The call is an allocation with `PAGEATTR_ZERO`. A reallocation keeps old contents. -/
def PageCall.asksZero : PageCall → Bool
  | .malloc _ attr _ => attr
  | .memalign _ _ attr _ => attr
  | .mallocIn _ _ _ attr => attr
  | .mallocPart _ _ attr _ => attr
  | .mallocScatter _ _ attr _ _ => attr
  | _ => false

/-- The memory together with the pages that are installed and those that are in use. -/
structure PageSystem where
  memory : PageState
  installed : Finset Nat
  live : Finset Nat

namespace PageSystem
variable {spec : MZoneSpec} {system : PageSystem} {call : PageCall} {outcome : PageOutcome}

/-- Before the first call the zones are empty and the memory has any contents. -/
def boot (spec : MZoneSpec) (contents : Nat → Page) : PageSystem :=
  ⟨⟨contents, fun _ => ⟨spec.pageError, 0, 0, 0, 0⟩⟩, ∅, ∅⟩

def apply (system : PageSystem) (outcome : PageOutcome) : PageSystem :=
  ⟨outcome.memory, system.installed ∪ outcome.added, (system.live \ outcome.given) ∪ outcome.taken⟩

def step (spec : MZoneSpec) (system : PageSystem) (call : PageCall) : Option PageSystem :=
  (call.perform spec system.memory).map system.apply

/-- The caller holds each page of the range. -/
def Owns (spec : MZoneSpec) (system : PageSystem) (start bytes : Nat) : Prop :=
  pageSize ∣ start ∧ bytes + (pageSize - 1) < 2 ^ spec.bits ∧
    pagesOf start (spec.ceil bytes) ⊆ system.live

instance (start bytes : Nat) : Decidable (Owns spec system start bytes) :=
  inferInstanceAs (Decidable (_ ∧ _))

/-- The promises of a caller, and no size or address that wraps unexpectedly. -/
def Safe (spec : MZoneSpec) (system : PageSystem) : PageCall → Prop
  | .addmemory zone start bytes =>
    zone < spec.realCount ∧ pageSize ∣ start ∧ pageSize ∣ bytes ∧ spec.msMin zone ≤ start ∧
      start + bytes ≤ spec.msMax zone + 1 ∧ Disjoint (pagesOf start bytes) system.installed
  | .malloc _ _ zone => zone < spec.realCount
  | .memalign alignment bytes _ zone => zone < spec.realCount ∧ (alignment ≤ pageSize ∨
      (alignment + (pageSize - 1) < 2 ^ spec.bits ∧ bytes + (pageSize - 1) < 2 ^ spec.bits))
  | .mallocIn _ high bytes _ =>
    spec.mzoneOf high < spec.realCount ∧ pageSize ∣ high ∧ 0 < spec.ceil bytes
  | .mallocPart _ _ _ zone => zone < spec.realCount
  | .mallocScatter _ _ _ zone _ => zone < spec.realCount
  | .realloc start oldBytes newBytes _ zone => zone < spec.realCount ∧ (oldBytes = 0 ∨
      (Owns spec system start oldBytes ∧
      newBytes + (pageSize - 1) < 2 ^ spec.bits ∧ (spec.ceil oldBytes < spec.ceil newBytes →
        BelowSafe spec system.memory start (spec.ceil newBytes - spec.ceil oldBytes))))
  | .ffree start bytes _ => bytes = 0 ∨ Owns spec system start bytes
  | .write page _ => page ∈ system.live

instance (memory : PageState) (start diff : Nat) : Decidable (BelowSafe spec memory start diff) := by
  unfold BelowSafe
  infer_instance

instance decidableSafe (spec : MZoneSpec) (system : PageSystem) (call : PageCall) :
    Decidable (Safe spec system call) := by
  cases call <;> unfold Safe <;> infer_instance

/-- The free lists are intact, and free pages and pages in use make up the installed memory. -/
structure Partitioned (spec : MZoneSpec) (system : PageSystem) : Prop where
  intact : Intact spec system.memory
  apart : Disjoint (system.memory.freePages spec) system.live
  whole : system.memory.freePages spec ∪ system.live = system.installed
  placed : ∀ page ∈ system.installed, pageSize ∣ page ∧ page + pageSize ≤ spec.limit

/-- A call hands out pages that are free and changes the free pages by exactly these. -/
structure Performs (spec : MZoneSpec) (system : PageSystem) (outcome : PageOutcome) : Prop where
  intact : Intact spec outcome.memory
  givenLive : outcome.given ⊆ system.live
  wasFree : outcome.taken ⊆ system.memory.freePages spec ∪ outcome.given
  addedNew : Disjoint outcome.added system.installed
  addedPlaced : ∀ page ∈ outcome.added, pageSize ∣ page ∧ page + pageSize ≤ spec.limit
  free : outcome.memory.freePages spec =
    (system.memory.freePages spec ∪ outcome.added ∪ outcome.given) \ outcome.taken

/-- Memory that is handed back with `PAGEATTR_ZERO` is zero. -/
def ZeroPromise (spec : MZoneSpec) (system : PageSystem) : PageCall → Prop
  | .ffree start bytes true => ∀ page ∈ pagesOf start (spec.ceil bytes), system.memory.page page = .zero
  | _ => True

/-- Under the promise zero ranges stay zero and are handed out as such. -/
def Tracks (spec : MZoneSpec) (system : PageSystem) (call : PageCall) (outcome : PageOutcome) : Prop :=
  Zeroed spec system.memory → ZeroPromise spec system call → Zeroed spec outcome.memory ∧
    (call.asksZero = true → ∀ page ∈ outcome.taken, outcome.memory.page page = .zero)

/-- A partition survives the exchange of pages. -/
lemma Partitioned.apply (partitioned : Partitioned spec system)
    (performs : Performs spec system outcome) :
    Partitioned spec (system.apply outcome) := by
  obtain ⟨intact, apart, whole, placed⟩ := partitioned
  obtain ⟨kept, givenLive, wasFree, addedNew, addedPlaced, free⟩ := performs
  have liveInstalled : system.live ⊆ system.installed := whole ▸ subset_union_right
  refine ⟨kept, ?_, ?_, fun page mem => ?_⟩
  · refine disjoint_left.mpr fun page isFree isLive => ?_
    rw [show (system.apply outcome).memory = outcome.memory from rfl, free] at isFree
    obtain ⟨sources, notTaken⟩ := mem_sdiff.mp isFree
    obtain ⟨old, notGiven⟩ := mem_sdiff.mp ((mem_union.mp isLive).resolve_right notTaken)
    rcases mem_union.mp sources with source | given
    · rcases mem_union.mp source with wasFree | added
      · exact disjoint_left.mp apart wasFree old
      · exact disjoint_left.mp addedNew added (liveInstalled old)
    · exact notGiven given
  · show outcome.memory.freePages spec ∪ ((system.live \ outcome.given) ∪ outcome.taken) =
      system.installed ∪ outcome.added
    rw [free, ← whole]
    ext page
    have taken := @wasFree page
    simp only [mem_union, mem_sdiff] at taken ⊢
    tauto
  · rcases mem_union.mp mem with old | new
    · exact placed page old
    · exact addedPlaced page new

/-- A call without installed memory comes from an exchange. -/
lemma performs_of_exchanges {memory : PageState} {given taken : Finset Nat}
    (exchanges : Exchanges spec system.memory memory given taken) (givenLive : given ⊆ system.live) :
    Performs spec system ⟨memory, ∅, given, taken⟩ where
  intact := exchanges.intact
  givenLive := givenLive
  wasFree := exchanges.wasFree
  addedNew := disjoint_empty_left _
  addedPlaced := by simp
  free := by rw [union_empty, exchanges.free]

section
variable (partitioned : Partitioned spec system)
include partitioned

lemma Partitioned.holds {start bytes : Nat} (owns : Owns spec system start bytes) (filled : bytes ≠ 0) :
    Holds spec system.memory start (spec.ceil bytes) := by
  obtain ⟨aligned, rounds, inside⟩ := owns
  have sizeAligned := spec.ceil_dvd bytes
  have bounds := MZoneSpec.ceil_bounds rounds
  refine ⟨aligned, sizeAligned, ?_, disjoint_of_subset_left inside partitioned.apart.symm⟩
  -- The last page of the range is installed.
  have last : start + spec.ceil bytes - pageSize ∈ pagesOf start (spec.ceil bytes) := by
    rw [mem_pagesOf aligned sizeAligned]
    refine ⟨Nat.dvd_sub (Nat.dvd_add aligned sizeAligned) (Nat.dvd_refl _), ?_⟩
    unfold pageSize at *
    omega
  have installed : start + spec.ceil bytes - pageSize ∈ system.installed := by
    rw [← partitioned.whole]
    exact mem_union_right _ (inside last)
  have := (partitioned.placed _ installed).2
  omega

/-- A free of pages in use. -/
lemma Partitioned.ffree {start bytes : Nat} (safe : bytes = 0 ∨ Owns spec system start bytes)
    (attr : Bool) :
    ∃ after, system.memory.ffree spec start bytes attr = some after ∧
      Pieces spec attr system.memory (pagesOf start (spec.ceil bytes)) after ∧
      pagesOf start (spec.ceil bytes) ⊆ system.live := by
  by_cases empty : bytes = 0
  · rw [empty, spec.ceil_zero]
    exact ⟨system.memory, rfl, .none, empty_subset _⟩
  · have owns := safe.resolve_left empty
    have holds := partitioned.holds owns empty
    obtain ⟨after, freed, pieces⟩ :=
      partitioned.intact.ffree owns.1 owns.2.1 holds.bounded holds.apart attr
    exact ⟨after, freed, pieces, owns.2.2⟩

/-- Each safe call ends and changes the free pages by exactly the pages that change hands. -/
lemma Partitioned.perform (safe : Safe spec system call) :
    ∃ outcome, call.perform spec system.memory = some outcome ∧ Performs spec system outcome ∧
    Tracks spec system call outcome := by
  have intact := partitioned.intact
  have allocates {after : PageState} {start bytes : Nat} (performed : call.perform spec system.memory =
      some ⟨after, ∅, ∅, takenPages spec start bytes⟩)
      (result : AllocatesAt spec system.memory after call.asksZero start bytes) :
      ∃ outcome, call.perform spec system.memory = some outcome ∧ Performs spec system outcome ∧
        Tracks spec system call outcome :=
    ⟨_, performed, performs_of_exchanges (result.exchanges intact) (empty_subset _),
      fun zeroed _ => result.zeroed zeroed⟩
  cases call with
  | addmemory zone start bytes =>
    obtain ⟨real, startAligned, sizeAligned, lower, upper, fresh⟩ := safe
    have apart : Disjoint (pagesOf start bytes) (system.memory.freePages spec) :=
      disjoint_of_subset_right (partitioned.whole ▸ subset_union_left) fresh
    obtain ⟨after, added, frees, _⟩ :=
      intact.pageAddmemory real startAligned sizeAligned lower upper apart
    refine ⟨_, by rw [PageCall.perform, added, map_some], ⟨frees.intact, empty_subset _, empty_subset _,
      fresh, fun page mem => ?_, by rw [frees.free, union_empty, sdiff_empty]⟩,
      fun zeroed _ => ⟨frees.zeroed zeroed (by simp), by simp [PageCall.asksZero]⟩⟩
    obtain ⟨aligned, _, below⟩ := (mem_pagesOf startAligned sizeAligned).mp mem
    have top := MZoneSpec.msMax_lt_limit real
    unfold pageSize at *
    exact ⟨aligned, by omega⟩
  | malloc bytes attr zone =>
    obtain ⟨after, start, found, result⟩ := intact.pageMalloc safe bytes attr
    exact allocates (by rw [PageCall.perform, found, map_some]) result
  | memalign alignment bytes attr zone =>
    obtain ⟨after, start, found, result⟩ := intact.pageMemalign safe.1 safe.2 attr
    exact allocates (by rw [PageCall.perform, found, map_some]) result
  | mallocIn low high bytes attr =>
    obtain ⟨after, start, found, result⟩ := intact.pageMallocIn safe.1 safe.2.1 safe.2.2 attr
    exact allocates (by rw [PageCall.perform, found, map_some]) result
  | mallocPart minSize maxSize attr zone =>
    obtain ⟨after, start, size, found, result, _⟩ := intact.pageMallocPart safe minSize maxSize attr
    exact allocates (by rw [PageCall.perform, found, map_some]) result
  | mallocScatter bytes minScatter attr zone kmalloc =>
    obtain ⟨after, parts, found, scattered, _⟩ :=
      intact.pageMallocScatter safe bytes minScatter attr _ (leavesPages_inHeap kmalloc)
    exact ⟨_, by rw [PageCall.perform, found,
      map_some], performs_of_exchanges scattered.allocates.exchanges (empty_subset _),
      fun zeroed _ => scattered.allocates.zeroed zeroed⟩
  | realloc start oldBytes newBytes attr zone =>
    obtain ⟨real, promised⟩ := safe
    have reallocSafe : oldBytes = 0 ∨ ReallocSafe spec system.memory start oldBytes newBytes := by
      by_cases empty : oldBytes = 0
      · exact .inl empty
      · obtain ⟨owns, newRounds, below⟩ := promised.resolve_left empty
        exact .inr ⟨owns.2.1, newRounds, partitioned.holds owns empty, below⟩
    obtain ⟨after, result, found, exchanges⟩ := intact.pageRealloc real reallocSafe attr
    refine ⟨_, by rw [PageCall.perform, found, map_some], performs_of_exchanges exchanges ?_,
      fun zeroed _ => ⟨exchanges.zeroed zeroed, by simp [PageCall.asksZero]⟩⟩
    split
    · exact empty_subset _
    · rcases promised with empty | ⟨owns, _⟩
      · rw [empty, spec.ceil_zero, pagesOf_zero]
        exact empty_subset _
      · exact owns.2.2
  | ffree start bytes attr =>
    obtain ⟨after, freed, pieces, givenLive⟩ := partitioned.ffree safe attr
    have frees := pieces.frees intact
    refine ⟨_, by rw [PageCall.perform, freed, map_some], ⟨frees.intact, givenLive, empty_subset _,
      disjoint_empty_left _, by simp, by rw [frees.free, union_empty, sdiff_empty]⟩,
      fun zeroed promise => ⟨frees.zeroed zeroed fun asked => ?_, by simp [PageCall.asksZero]⟩⟩
    subst asked
    exact promise
  | write page contents =>
    have writes := writes_page system.memory page contents
    have apart : Disjoint {page} (system.memory.freePages spec) := by
      refine disjoint_singleton_left.mpr fun isFree => ?_
      exact disjoint_left.mp partitioned.apart isFree safe
    obtain ⟨kept, free, zeroes⟩ := intact.writes writes apart
    refine ⟨_, rfl, ⟨kept, empty_subset _, empty_subset _, disjoint_empty_left _, by simp, ?_⟩,
      fun zeroed _ => ⟨zeroes zeroed, by simp [PageCall.asksZero]⟩⟩
    rw [free, union_empty, union_empty, sdiff_empty]

end

variable (spec : MZoneSpec) (contents : Nat → Page)

lemma boot_freeList (zone : Nat) : (boot spec contents).memory.freeList spec zone = [] := by
  have root : ((boot spec contents).memory.links spec).target (.head zone) = none := if_pos rfl
  rw [freeList, root, MZoneSpec.fuel]
  rfl

lemma boot_freePages : (boot spec contents).memory.freePages spec = ∅ := by
  ext page
  simp [freePages, boot_freeList]

lemma boot_partitioned : Partitioned spec (boot spec contents) := by
  have none := boot_freePages spec contents
  refine ⟨fun zone _ => ?_, ?_, ?_, ?_⟩
  · rw [boot_freeList]
    exact ⟨⟨if_pos rfl, by simp⟩, ⟨.nil, by simp⟩⟩
  · rw [none]
    exact disjoint_empty_left _
  · rw [none]
    rfl
  · simp [boot]

/-- A run of safe calls keeps the partition. -/
lemma run_partitioned (calls : List PageCall)
    (safe : StepRun.Meets (step spec) (Safe spec) (boot spec contents) calls) :
    ∃ system, run (step spec) (boot spec contents) calls = some system ∧ Partitioned spec system := by
  refine run_invariant (fun system call partitioned safe => ?_) calls _
    (boot_partitioned spec contents) safe
  obtain ⟨outcome, performed, performs, _⟩ := partitioned.perform safe
  exact ⟨system.apply outcome, by rw [step, performed, map_some], partitioned.apply performs⟩

/-- After safe calls the memory is partitioned, and a call exchanges exactly its pages. -/
theorem pageCalls_partition (spec : MZoneSpec) (contents : Nat → Page) (calls : List PageCall)
    (call : PageCall)
    (safe : StepRun.Meets (step spec) (Safe spec) (boot spec contents) (calls ++ [call])) :
    ∃ system outcome, run (step spec) (boot spec contents) calls = some system ∧
    Partitioned spec system ∧
      call.perform spec system.memory = some outcome ∧ Performs spec system outcome ∧
      Partitioned spec (system.apply outcome) := by
  obtain ⟨safeCalls, safeCall⟩ := StepRun.Meets.concat calls _ safe
  obtain ⟨system, reached, partitioned⟩ := run_partitioned spec contents calls safeCalls
  obtain ⟨outcome, performed, performs, _⟩ := partitioned.perform (safeCall system reached)
  exact ⟨system, outcome, reached, partitioned, performed, performs, partitioned.apply performs⟩

theorem pageCalls_partition_i386 : ∃ system outcome, run (step i386) (boot i386 fun _ => .zero)
        [.addmemory 1 0x100000 0x10000, .malloc 0x1800 false 1, .memalign 0x2000 0x1000 true 1,
          .mallocIn 0x103000 0x105000 0x1000 false, .ffree 0x10e000 0x1000 false] = some system ∧
            Partitioned i386 system ∧
      (PageCall.realloc 0x10f000 0x1000 0x3000 true 1).perform i386 system.memory = some outcome ∧
      Performs i386 system outcome ∧ Partitioned i386 (system.apply outcome) :=
  pageCalls_partition i386 (fun _ => .zero) _ _ (by decide +kernel)

/-- A free of what a safe call handed out gives back the free pages from before. -/
theorem pageCalls_givesBack {calls : List PageCall} {memory : PageState} {start bytes : Nat}
    (safe : Meets (step spec) (Safe spec) (boot spec contents) (calls ++ [call]))
    (reached : run (step spec) (boot spec contents) calls = some system)
    (performed : call.perform spec system.memory = some ⟨memory, ∅, ∅, pagesOf start (spec.ceil bytes)⟩)
    (aligned : pageSize ∣ start) (rounds : bytes + (pageSize - 1) < 2 ^ spec.bits) (attr : Bool) :
    ∃ after, memory.ffree spec start bytes attr = some after ∧ Intact spec after ∧
      after.freePages spec = system.memory.freePages spec := by
  obtain ⟨safeCalls, safeCall⟩ := Meets.concat calls _ safe
  obtain ⟨_, found, partitioned⟩ := run_partitioned spec contents calls safeCalls
  cases reached.symm.trans found
  obtain ⟨_, result, performs, _⟩ := partitioned.perform (safeCall system reached)
  cases performed.symm.trans result
  obtain ⟨after, freed, pieces, _⟩ :=
    (partitioned.apply performs).ffree (.inr ⟨aligned, rounds, subset_union_right⟩) attr
  have frees := pieces.frees performs.intact
  have wasFree := performs.wasFree
  rw [union_empty] at wasFree
  refine ⟨after, freed, frees.intact, ?_⟩
  rw [frees.free, performs.free, union_empty, union_empty, sdiff_union_of_subset wasFree]

theorem pageCalls_givesBack_i386 : ∃ (system : PageSystem) (memory after : PageState),
    system.memory.pageMalloc i386 0x1800 false 1 = some (memory, 0x10e000) ∧
      memory.ffree i386 0x10e000 0x1800 false = some after ∧
      after.freePages i386 = system.memory.freePages i386 := by
  have found :
    ((run (step i386) (boot i386 fun _ => .zero) [.addmemory 1 0x100000 0x10000]).bind fun system =>
      system.memory.pageMalloc i386 0x1800 false 1).map Prod.snd = some 0x10e000 := by
    decide +kernel
  obtain ⟨⟨memory, _⟩, both, rfl⟩ := map_eq_some_iff.mp found
  obtain ⟨system, reached, malloc⟩ := bind_eq_some_iff.mp both
  obtain ⟨after, freed, _, same⟩ :=
    @pageCalls_givesBack system (.malloc 0x1800 false 1) i386 _ _ memory 0x10e000 0x1800
    (by decide +kernel) reached (by rw [PageCall.perform, malloc]; rfl) (by decide) (by decide) false
  exact ⟨system, memory, after, malloc, freed, same⟩

/-- A wrapped size makes `page_malloc_in` split a range into two that touch. -/
theorem mallocIn_wrapped_touches : ∃ system, run (step i386) (boot i386 fun _ => .zero)
        [.addmemory 1 0x100000 0x3000, .mallocIn 0x101000 0x101000 0xffffffff false] = some system ∧
      system.memory.freeList i386 1 = [⟨0x100000, 0x1000, false⟩, ⟨0x101000, 0x2000, false⟩] ∧
      ¬ Partitioned i386 system := by
  have lists : (run (step i386) (boot i386 fun _ => .zero)
      [.addmemory 1 0x100000 0x3000, .mallocIn 0x101000 0x101000 0xffffffff false]).map
        (fun system => system.memory.freeList i386 1) = some [⟨0x100000, 0x1000, false⟩,
          ⟨0x101000, 0x2000, false⟩] := by
    decide +kernel
  obtain ⟨system, reached, list⟩ := map_eq_some_iff.mp lists
  refine ⟨system, reached, list, fun partitioned => ?_⟩
  have apart := (partitioned.intact 1 (by decide)).2.apart
  rw [list] at apart
  exact absurd (List.pairwise_pair.mp apart) (by decide)

/-- A safe call that keeps the promise of zero memory. -/
def ZeroSafe (spec : MZoneSpec) (system : PageSystem) (call : PageCall) : Prop :=
  Safe spec system call ∧ ZeroPromise spec system call

/-- A run of safe calls that keep the promise tracks zero pages. -/
lemma run_zeroed (spec : MZoneSpec) (contents : Nat → Page) (calls : List PageCall)
    (safe : StepRun.Meets (step spec) (ZeroSafe spec) (boot spec contents) calls) :
    ∃ system, run (step spec) (boot spec contents) calls = some system ∧
    (Partitioned spec system ∧ Zeroed spec system.memory) := by
  refine run_invariant (fun system call held safe => ?_) calls _
    ⟨boot_partitioned spec contents, ?_⟩ safe
  · obtain ⟨partitioned, zeroed⟩ := held
    obtain ⟨outcome, performed, performs, tracks⟩ := partitioned.perform safe.1
    exact ⟨system.apply outcome, by
      rw [step, performed, map_some], partitioned.apply performs, (tracks zeroed safe.2).1⟩
  · intro zone _ range listed
    rw [boot_freeList] at listed
    cases listed

/-- If only zero memory is freed as zero, zero ranges are zero and are handed out as such. -/
theorem zeroPages_sound (spec : MZoneSpec) (contents : Nat → Page) (calls : List PageCall)
    (call : PageCall)
    (safe : StepRun.Meets (step spec) (ZeroSafe spec) (boot spec contents) (calls ++ [call])) :
    ∃ system outcome, run (step spec) (boot spec contents) calls = some system ∧
    Zeroed spec system.memory ∧
      call.perform spec system.memory = some outcome ∧ Zeroed spec outcome.memory ∧
      (call.asksZero = true → ∀ page ∈ outcome.taken, outcome.memory.page page = .zero) := by
  obtain ⟨safeCalls, safeCall⟩ := StepRun.Meets.concat calls _ safe
  obtain ⟨system, reached, partitioned, zeroed⟩ := run_zeroed spec contents calls safeCalls
  obtain ⟨safe, promise⟩ := safeCall system reached
  obtain ⟨outcome, performed, _, tracks⟩ := partitioned.perform safe
  exact ⟨system, outcome, reached, zeroed, performed, tracks zeroed promise⟩

set_option maxRecDepth 20000 in
theorem zeroPages_sound_i386 : ∃ system outcome, run (step i386) (boot i386 fun _ => .zero)
        [.addmemory 1 0x100000 0x3000, .malloc 0x1000 true 1, .ffree 0x102000 0x1000 true] =
          some system ∧
      Zeroed i386 system.memory ∧ (PageCall.malloc 0x2000 true 1).perform i386 system.memory =
        some outcome ∧
      Zeroed i386 outcome.memory ∧
      ((PageCall.malloc 0x2000 true 1).asksZero = true → ∀ page ∈ outcome.taken,
        outcome.memory.page page = .zero) := by
  refine zeroPages_sound i386 (fun _ => .zero) _ _ (StepRun.Meets.and _ _ (by decide +kernel) ?_)
  refine ⟨trivial, fun first added =>
    ⟨trivial, fun second taken => ⟨fun page mem => ?_, fun _ _ => ⟨trivial, fun _ _ => trivial⟩⟩⟩⟩
  have given : (run (step i386) (boot i386 fun _ => .zero) [.addmemory 1 0x100000 0x3000,
    .malloc 0x1000 true 1]).map
      (fun system => system.memory.page 0x102000) = some Page.zero := rfl
  rw [run_cons, added, bind_some, run_cons, taken, bind_some, run_nil, map_some, some.injEq] at given
  rw [show pagesOf 0x102000 (i386.ceil 0x1000) = {0x102000} from by decide +kernel, mem_singleton] at mem
  rw [mem, given]

/-- A page that a program fills with the words of a free range of zero memory. -/
def headerPage : Page := ⟨⟨i386.pageError, .head 1, 0x1000, true⟩, fun _ => 1⟩

/-- These calls leave a zero page free in zone 1 and a page of a program at address zero. -/
def wrappedHistory : List PageCall :=
  [.addmemory 0 0 0x1000, .malloc 0x1000 false 0, .write 0 headerPage, .addmemory 1 0x100000 0x1000,
    .malloc 0x1000 true 1, .ffree 0x100000 0x1000 true, .mallocIn 0x100000 0x100000 0xffffffff true]

set_option maxRecDepth 20000 in
/-- A wrapped size clears a header, and a page of a program is handed out as zero. -/
theorem mallocIn_wrapped_not_zero :
    StepRun.Meets (step i386) (ZeroPromise i386) (boot i386 fun _ => .zero)
      (wrappedHistory ++ [.malloc 0x1000 true 1]) ∧
    ∃ system outcome, run (step i386) (boot i386 fun _ => .zero) wrappedHistory = some system ∧
      (PageCall.malloc 0x1000 true 1).perform i386 system.memory = some outcome ∧
      0 ∈ outcome.taken ∧ outcome.memory.page 0 ≠ .zero := by
  refine ⟨⟨trivial, fun s₁ h₁ =>
    ⟨trivial, fun s₂ h₂ => ⟨trivial, fun s₃ h₃ => ⟨trivial, fun s₄ h₄ => ⟨trivial, fun s₅ h₅ =>
    ⟨fun page mem => ?_, fun _ _ => ⟨trivial, fun _ _ => ⟨trivial, fun _ _ => trivial⟩⟩⟩⟩⟩⟩⟩⟩, ?_⟩
  · have given : (run (step i386) (boot i386 fun _ => .zero) (wrappedHistory.take 5)).map
        (fun system => system.memory.page 0x100000) = some Page.zero := rfl
    have reached : run (step i386) (boot i386 fun _ => .zero) (wrappedHistory.take 5) = some s₅ := by
      simp [wrappedHistory, run_cons, h₁, h₂, h₃, h₄, h₅, run_nil]
    rw [reached, map_some, some.injEq] at given
    rw [show pagesOf 0x100000 (i386.ceil 0x1000) = {0x100000} from by
      decide +kernel, mem_singleton] at mem
    rw [mem, given]
  · have taken : ((run (step i386) (boot i386 fun _ => .zero) wrappedHistory).bind fun system =>
        (PageCall.malloc 0x1000 true 1).perform i386 system.memory).map
          (fun outcome => (decide (0 ∈ outcome.taken), (outcome.memory.page 0).pData 0)) =
            some (true, 1) := by
      decide +kernel
    obtain ⟨outcome, performed, same⟩ := map_eq_some_iff.mp taken
    obtain ⟨system, reached, called⟩ := bind_eq_some_iff.mp performed
    obtain ⟨isTaken, filled⟩ := Prod.mk.inj same
    refine ⟨system, outcome, reached, called, of_decide_eq_true isTaken, fun zero => ?_⟩
    rw [zero] at filled
    cases filled

end PageSystem

end KosKernel.Memory
