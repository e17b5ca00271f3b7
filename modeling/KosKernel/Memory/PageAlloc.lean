/- The page allocator of `kernel/memory/memory.c`. A walk that does not end and an access behind the
zones give no result. -/

import KosKernel.Memory.PageZones

namespace KosKernel.Memory.PageState
open LinkList
variable (spec : MZoneSpec)

/-- The search for the smallest sufficient range, the first one of the wanted attribute. -/
def searchZone (spec : MZoneSpec) (state : PageState) (bytes : Nat) (attr : Bool) : Nat → Nat →
    Nat × Nat → Option (Nat × Nat)
  | 0, _, _ => none
  | fuel + 1, iter, (bestPage, bestSize) =>
    if iter = spec.pageError then some (bestPage, bestSize)
    else
      let header := (state.page iter).pFree
      if header.pSize < bytes ∨ bestSize < header.pSize ∨
        (header.pSize = bestSize ∧ (state.page bestPage).pFree.pAttr = attr) then
        searchZone spec state bytes attr fuel header.pNext (bestPage, bestSize)
      else searchZone spec state bytes attr fuel header.pNext (iter, header.pSize)

/-- The locals `best_page` and `best_size` before a search. -/
def noCandidate : Nat × Nat := (spec.pageError, spec.pageError)

variable (bytes : Nat) (fields : MZone)

/-- The statistics of `page_malloc`. They subtract the bytes from `z_free`. -/
def countTop : MZone :=
  { fields with
    zInuse := spec.add fields.zInuse bytes
    zFree := fields.zFree - .ofNat bytes
    zAlloc := fields.zAlloc + 1 }

variable (state : PageState)

/-- The upper end of a range is taken. -/
def takeTop (zone bestPage bestSize bytes : Nat) (attr : Bool) : PageState × Nat :=
  let result := spec.add bestPage (spec.sub bestSize bytes)
  let taken :=
    if result = bestPage then state.unlink spec bestPage
    else state.setSize bestPage (spec.sub (state.page bestPage).pFree.pSize bytes)
  let partAttr := (taken.page bestPage).pFree.pAttr
  let cleared := if attr ∧ partAttr ∧ result = bestPage then taken.clearHeader result else taken
  let counted := cleared.setZone zone (countTop spec bytes (cleared.zone zone))
  (if attr ∧ ¬ partAttr then counted.clearPages result bytes else counted, result)

/-- The zones are tried one after another, from the given one down to the first. -/
def tryZones {Result : Type} (attempt : Nat → Option (Option Result)) : Nat → Option (Option Result)
  | 0 => attempt 0
  | zone + 1 =>
    (attempt (zone + 1)).bind fun found => if found.isSome then some found
      else tryZones attempt zone

/-- This is `page_malloc` when no lock is lost. -/
def pageMalloc (bytes : Nat) (attr : Bool) (zone : Nat) : Option (PageState × Nat) :=
  (tryZones (fun zone =>
    (state.searchZone spec bytes attr spec.fuel (state.zone zone).zRoot (noCandidate spec)).map
      fun (bestPage, bestSize) =>
        if bestPage ≠ spec.pageError then some
          (state.takeTop spec zone bestPage bestSize (spec.ceil bytes) attr)
        else none) zone).map (·.getD (state, spec.pageError))

/-- This is `page_malloc_part` when no lock is lost. -/
def pageMallocPart (minSize maxSize : Nat) (attr : Bool) (zone : Nat) : Option (PageState × Nat × Nat) :=
  (tryZones (fun zone =>
    (state.searchZone spec minSize attr spec.fuel (state.zone zone).zRoot (noCandidate spec)).map
      fun (bestPage, bestSize) =>
        if bestPage ≠ spec.pageError then
          let allocSize := min bestSize (floorAlign maxSize)
          let (taken, result) := state.takeTop spec zone bestPage bestSize allocSize attr
          some (taken, result, allocSize)
        else none) zone).map (·.getD (state, spec.pageError, 0))

/-- The scan of `page_malloc_in`. -/
def scanZone (spec : MZoneSpec) (state : PageState) (min max bytes : Nat) : Nat → Nat → Nat × Nat →
    Option (Nat × Nat)
  | 0, _, _ => none
  | fuel + 1, iter, best =>
    if iter = spec.pageError ∨ max < iter then some best
    else
      let header := (state.page iter).pFree
      let iterEnd := spec.add iter header.pSize
      if iterEnd ≤ min then scanZone spec state min max bytes fuel header.pNext best
      else
        let limit := spec.add max bytes
        let clipped := if limit < iterEnd then limit else iterEnd
        let reach := spec.sub clipped min
        let pageAvail := if header.pSize < reach then header.pSize else reach
        if pageAvail < bytes then scanZone spec state min max bytes fuel header.pNext best
        else if pageAvail < best.2 then
          if pageAvail = bytes then some (iter, pageAvail)
          else scanZone spec state min max bytes fuel header.pNext (iter, pageAvail)
        else scanZone spec state min max bytes fuel header.pNext best

/-- The header moves up to the rest of its range. -/
def moveUp (page bytes : Nat) : PageState :=
  let header := (state.page page).pFree
  let newBase := spec.add page bytes
  let moved := state.setFree newBase { header with pSize := spec.sub header.pSize bytes }
  (moved.adopt spec header.pNext (.next newBase)).store header.pSelf newBase

/-- The part of a range behind the allocated one gets a header of its own. -/
def splitUpper (page hiSplit : Nat) : PageState :=
  let header := (state.page page).pFree
  let copied := (state.setFree hiSplit header).adopt spec header.pNext (.next hiSplit)
  let upper := copied.setFree hiSplit
    { (copied.page hiSplit).pFree with
      pSelf := .next page
      pSize := spec.sub (copied.page hiSplit).pFree.pSize (spec.sub hiSplit page) }
  upper.store (.next page) hiSplit

/-- The statistics of `page_malloc_in`. -/
def countIn : MZone :=
  { fields with
    zAlloc := fields.zAlloc + 1
    zInuse := spec.add fields.zInuse bytes
    zAvail := spec.sub fields.zAvail bytes }

/-- The chosen range loses the wanted part at its upper end or at the greatest address. -/
def takeIn (zone bestPage max bytes : Nat) (attr : Bool) : PageState × Nat :=
  let header := (state.page bestPage).pFree
  let top := spec.add bestPage (spec.sub header.pSize bytes)
  let result := if max < top then max else top
  let taken :=
    if result = bestPage then
      let rest := if bytes = header.pSize then state.unlink spec bestPage else state.moveUp
        spec bestPage bytes
      if header.pAttr ∧ attr then rest.clearHeader bestPage else rest
    else
      let lower :=
        if spec.add result bytes ≠ spec.add bestPage header.pSize then
          state.splitUpper spec bestPage (spec.add result bytes)
        else state
      lower.setSize bestPage (spec.sub result bestPage)
  let counted := taken.setZone zone (countIn spec bytes (taken.zone zone))
  (if attr ∧ ¬ header.pAttr then counted.clearPages result bytes else counted, result)

/-- This is `page_malloc_in`. -/
def pageMallocIn (min max bytes : Nat) (attr : Bool) : Option (PageState × Nat) :=
  let bytes := spec.ceil bytes
  (tryZones (fun zone =>
    if zone < spec.mzoneOf min then some none
    else if spec.realCount ≤ zone then none
    else (state.scanZone spec min max bytes spec.fuel (state.zone zone).zRoot (noCandidate spec)).map
      fun (bestPage, _) =>
        if bestPage ≠ spec.pageError then some (state.takeIn spec zone bestPage max bytes attr)
          else none)
    (spec.mzoneOf max)).map (·.getD (state, spec.pageError))

/-- The walk to the link behind which a range belongs. -/
def walkFree (spec : MZoneSpec) (state : PageState) (start : Nat) : Nat → Link Nat → Option (Link Nat)
  | 0, _ => none
  | fuel + 1, piter =>
    let iter := state.load piter
    if iter ≠ spec.pageError ∧ state.pageEnd spec iter ≤ start then
      walkFree spec state start fuel (.next iter)
    else some piter

/-- The range before the freed one grows and may reach the next one. -/
def extendPrev (prev iter bytes : Nat) (attr : Bool) : PageState :=
  let header := (state.page prev).pFree
  let grown := state.setFree prev
    { header with pSize := spec.add header.pSize bytes, pAttr := header.pAttr && attr }
  if grown.pageEnd spec prev = iter then
    let other := (grown.page iter).pFree
    let merged := (grown.setFree prev
      { (grown.page prev).pFree with
        pAttr := (grown.page prev).pFree.pAttr && other.pAttr
        pSize := spec.add (grown.page prev).pFree.pSize other.pSize
        pNext := other.pNext }).adopt spec other.pNext (.next prev)
    if (merged.page prev).pFree.pAttr then merged.clearHeader iter else merged
  else grown

/-- The freed range takes over the header of the next one. -/
def extendNext (start iter bytes : Nat) (attr : Bool) : PageState :=
  let header := (state.page iter).pFree
  let moved := state.setFree start
    { header with pSize := spec.add header.pSize bytes, pAttr := header.pAttr && attr }
  let cleared := if (moved.page start).pFree.pAttr then moved.clearHeader iter else moved
  let fields := (cleared.page start).pFree
  (cleared.adopt spec fields.pNext (.next start)).store fields.pSelf start

/-- The freed range gets a header of its own. -/
def insertRange (piter : Link Nat) (start iter bytes : Nat) (attr : Bool) : PageState :=
  ((state.setFree start ⟨iter, piter, bytes, attr⟩).store piter start).adopt spec iter (.next start)

/-- A range of one zone becomes free. `page_addmemory` does the same with `PAGEATTR_NONE`. -/
def freeRange (zone start bytes : Nat) (attr : Bool) : Option PageState :=
  (state.walkFree spec start spec.fuel (.head zone)).map fun piter =>
    let iter := state.load piter
    let next :=
      if iter ≠ spec.pageError ∧ iter = spec.add start bytes then state.extendNext spec
        start iter bytes attr
      else state.insertRange spec piter start iter bytes attr
    match piter with
    | .head _ => next
    | .next prev =>
      if state.pageEnd spec prev = start then state.extendPrev spec prev iter bytes attr else next

/-- The statistics of `page_ffree`. -/
def countFree : MZone :=
  { fields with
    zInuse := spec.sub fields.zInuse bytes
    zAvail := spec.add fields.zAvail bytes
    zFree := fields.zFree + 1 }

/-- This is `page_ffree`. A range over the end of its zone is freed from its upper part on. -/
def pageFfree (spec : MZoneSpec) : Nat → PageState → Nat → Nat → Bool → Option PageState
  | 0, _, _, _, _ => none
  | depth + 1, state, start, bytes, attr =>
    if bytes = 0 then some state
    else
      let bytes := spec.ceil bytes
      let zone := spec.mzoneOf start
      if spec.realCount ≤ zone then none
      else
        (if spec.msMax zone < spec.sub (spec.add start bytes) 1 then
          let zoneOffset := spec.sub (spec.add (spec.msMax zone) 1) start
          (pageFfree spec depth state (spec.add start zoneOffset) (spec.sub bytes zoneOffset)
            attr).map (·, zoneOffset)
        else some (state, bytes)).bind fun (state, bytes) =>
          (state.freeRange spec zone start bytes attr).map fun freed =>
            freed.setZone zone (countFree spec bytes (freed.zone zone))

/-- A free crosses each zone at most once. -/
def ffree (start bytes : Nat) (attr : Bool) : Option PageState :=
  pageFfree spec (spec.realCount + 1) state start bytes attr

/-- The statistics of `page_addmemory`. -/
def countAdded : MZone :=
  { fields with zAvail := spec.add fields.zAvail bytes }

/-- This is `page_addmemory` for a kernel above `VM_HOST_BASE`. -/
def pageAddmemory (zone start bytes : Nat) : Option PageState :=
  if spec.hostBase ≤ start then some state
  else
    let bytes := if spec.hostBase < spec.add start bytes then spec.sub spec.hostBase start else bytes
    if bytes = 0 then some state
    else (state.freeRange spec zone start bytes false).map fun added =>
      added.setZone zone (countAdded spec bytes (added.zone zone))

/-- This is `page_memalign`. -/
def pageMemalign (alignment bytes : Nat) (attr : Bool) (zone : Nat) : Option (PageState × Nat) :=
  if alignment ≤ pageSize then state.pageMalloc spec bytes attr zone
  else
    let alignment := spec.ceil alignment
    let bytes := spec.ceil bytes
    if 2 ^ spec.bits ≤ alignment + bytes then some (state, spec.pageError)
    else
      let totalSize := alignment + bytes
      (state.pageMalloc spec totalSize attr zone).bind fun (taken, result) =>
        if result ≠ spec.pageError then
          let aligned := ceilAlignTo spec.bits result alignment
          let resultEnd := spec.add aligned bytes
          (taken.ffree spec result (spec.sub aligned result) attr).bind fun lower =>
            (lower.ffree spec resultEnd (spec.sub (spec.add result totalSize) resultEnd) attr).map
              (·, aligned)
        else some (taken, spec.pageError)

/-- The parts of an incomplete scatter are freed, the last one first. -/
def freeScatter (spec : MZoneSpec) (attr : Bool) : PageState → List (Nat × Nat) → Option PageState
  | state, [] => some state
  | state, (start, size) :: rest =>
    (state.ffree spec start size attr).bind fun freed => freeScatter spec attr freed rest

/-- The node that a call of `kmalloc` gives, and what its heap does to the pages meanwhile. -/
structure Kmalloc where
  node : Option Nat
  pages : PageState → PageState

/-- The heap has the memory at hand, or none of it. -/
def Kmalloc.inHeap (found : Bool) : Kmalloc := ⟨if found then some 0 else none, id⟩

/-- No call takes pages for the heap. -/
def LeavesPages (kmalloc : List Kmalloc) : Prop := ∀ call ∈ kmalloc, call.pages = id

/-- The loop of `page_malloc_scatter`. -/
def scatterLoop (spec : MZoneSpec) (minScatter : Nat) (attr : Bool) (zone : Nat) :
    Nat → PageState → Nat → List Kmalloc → List (Nat × Nat) →
      Option (PageState × Option (List (Nat × Nat)))
  | 0, _, _, _, _ => none
  | turns + 1, state, bytes, kmalloc, parts =>
    (state.pageMallocPart spec minScatter bytes attr zone).bind fun (taken, start, size) =>
      if start = spec.pageError then (freeScatter spec attr taken ((start, 0) :: parts)).map (·, none)
      else if bytes = size then some (taken, some ((start, size) :: parts))
      else
        let call := kmalloc.headD (.inHeap true)
        if call.node.isSome then
          scatterLoop spec minScatter attr zone turns (call.pages taken) (spec.sub bytes size)
            kmalloc.tail ((start, size) :: parts)
        else (freeScatter spec attr (call.pages taken) ((start, size) :: parts)).map (·, none)

/-- This is `page_malloc_scatter`. -/
def pageMallocScatter (bytes minScatter : Nat) (attr : Bool) (zone : Nat)
    (kmalloc : List Kmalloc) : Option (PageState × Option (List (Nat × Nat))) :=
  if bytes = 0 then some (state, some [])
  else
    let bytes := spec.ceil bytes
    let minScatter := min (spec.ceil minScatter) bytes
    let minScatter := if minScatter = 0 then pageSize else minScatter
    scatterLoop spec minScatter attr zone (bytes / pageSize + 1) state bytes kmalloc []

/-- This is `page_realloc`. -/
def pageRealloc (start oldBytes newBytes : Nat) (attr : Bool) (zone : Nat) : Option (PageState × Nat) :=
  if oldBytes = 0 then state.pageMalloc spec newBytes attr zone
  else
    let oldBytes := spec.ceil oldBytes
    let newBytes := spec.ceil newBytes
    if newBytes < oldBytes then
      (state.ffree spec (spec.add start newBytes) (oldBytes - newBytes) false).map (·, start)
    else if oldBytes < newBytes then
      let diff := newBytes - oldBytes
      (state.pageMallocIn spec (spec.add start oldBytes) (spec.add start oldBytes) diff attr).bind
        fun (above, found) =>
        if found ≠ spec.pageError then some (above, start)
        else
          (above.pageMallocIn spec (spec.sub start diff) (spec.sub start diff) diff false).bind
            fun (below, result) =>
            if result ≠ spec.pageError then
              let moved := below.copyPages spec result start (oldBytes / pageSize)
              some (if attr then moved.clearPages (spec.add result oldBytes) diff else moved, result)
            else
              (if attr ∧ diff < oldBytes then
                (below.pageMalloc spec newBytes false zone).map fun (taken, result) =>
                  if result = spec.pageError then (taken, result)
                  else (taken.clearPages (spec.add result oldBytes) diff, result)
              else below.pageMalloc spec newBytes attr zone).bind fun (taken, result) =>
                if result = spec.pageError then some (taken, result)
                else
                  ((taken.copyPages spec result start (oldBytes / pageSize)).ffree spec start
                    oldBytes false).map
                    (·, result)
    else some (state, start)

end KosKernel.Memory.PageState
