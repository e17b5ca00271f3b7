import KosKernel.Memory.PageAlloc
import KosKernel.Library.FreeRanges

namespace KosKernel.Memory
open LinkList FreeRanges MZoneSpec

/-- A free range is tagged with its attribute. -/
abbrev PageRange := Range Bool

/-- A pointer other than `PAGE_ERROR`. -/
def MZoneSpec.pointer (spec : MZoneSpec) (value : Nat) : Option Nat :=
  if value = spec.pageError then none else some value

variable {spec : MZoneSpec}

lemma MZoneSpec.pointer_of_ne {value : Nat} (valid : value ≠ spec.pageError) :
    spec.pointer value = some value := if_neg valid

lemma MZoneSpec.pointer_eq_some {value page : Nat} (leads : spec.pointer value = some page) :
    value = page ∧ value ≠ spec.pageError := by
  unfold pointer at leads
  split at leads
  · simp at leads
  · exact ⟨Option.some.inj leads, by assumption⟩

lemma MZoneSpec.pointer_eq_none {value : Nat} (ends : spec.pointer value = none) :
    value = spec.pageError := by
  unfold pointer at ends
  split at ends
  · assumption
  · simp at ends

namespace PageState
variable {spec : MZoneSpec} {state after final : PageState} {zone : Nat}

section Fields
variable (state : PageState) (page other pointer : Nat) (header : FreeHeader) (link : Link Nat)

@[simp] lemma setFree_page_self :
    (state.setFree page header).page page = ⟨header, (state.page page).pData⟩ := by
  simp [setFree]

lemma setFree_page_of_ne {page other : Nat} (differs : other ≠ page) :
    (state.setFree page header).page other = state.page other := Function.update_of_ne differs _ _

@[simp] lemma setFree_data : ((state.setFree page header).page other).pData =
    (state.page other).pData := by
  by_cases same : other = page
  · rw [same, setFree_page_self]
  · rw [setFree_page_of_ne state header same]

@[simp] lemma setFree_setFree (later : FreeHeader) :
    (state.setFree page header).setFree page later = state.setFree page later := by
  simp [setFree]

lemma setFree_comm {page other : Nat} (differs : page ≠ other) (later : FreeHeader) :
    (state.setFree page header).setFree other later =
      (state.setFree other later).setFree page header := by
  simp only [setFree, Function.update_of_ne differs, Function.update_of_ne differs.symm]
  rw [Function.update_comm differs]

@[simp] lemma setZone_page (fields : MZone) : (state.setZone zone fields).page = state.page := rfl

lemma store_page_of_ne {link : Link Nat} {other : Nat} (differs : link ≠ .next other) :
    (state.store link pointer).page other = state.page other := by
  cases link with
  | head zone => rfl
  | next page => exact setFree_page_of_ne state _ fun same => differs (by rw [same])

lemma setFree_store {link : Link Nat} {page : Nat} (differs : link ≠ .next page) :
    (state.store link pointer).setFree page header = (state.setFree page header).store link pointer := by
  cases link with
  | head zone => rfl
  | next other =>
    have away : other ≠ page := fun same => differs (by rw [same])
    rw [store, store, setFree_comm state _ away, setFree_page_of_ne state header away]

@[simp] lemma store_data : ((state.store link pointer).page other).pData = (state.page other).pData := by
  cases link with
  | head zone => rfl
  | next page => exact setFree_data state page other _

@[simp] lemma store_size : ((state.store link pointer).page other).pFree.pSize =
    (state.page other).pFree.pSize := by
  by_cases same : link = .next other
  · rw [same, store, setFree_page_self]
  · rw [store_page_of_ne state pointer same]

@[simp] lemma store_attr : ((state.store link pointer).page other).pFree.pAttr =
    (state.page other).pFree.pAttr := by
  by_cases same : link = .next other
  · rw [same, store, setFree_page_self]
  · rw [store_page_of_ne state pointer same]

lemma store_zone_of_ne {link : Link Nat} (differs : link ≠ .head zone) :
    (state.store link pointer).zone zone = state.zone zone := by
  cases link with
  | head other => exact Function.update_of_ne (fun same => differs (by rw [same])) _ _
  | next page => rfl

lemma adopt_page_of_ne {pointer other : Nat} (differs : spec.pointer pointer ≠ some other) :
    (state.adopt spec pointer link).page other = state.page other := by
  unfold adopt
  split
  · rename_i valid
    rw [pointer_of_ne valid] at differs
    exact setFree_page_of_ne state _ fun same => differs (by rw [same])
  · rfl

lemma setFree_adopt {pointer page : Nat} (differs : spec.pointer pointer ≠ some page) :
    (state.adopt spec pointer link).setFree page header = (state.setFree page header).adopt spec
      pointer link := by
  unfold adopt
  split
  · rename_i valid
    rw [pointer_of_ne valid] at differs
    have away : pointer ≠ page := fun same => differs (by rw [same])
    rw [setSelf, setFree_comm state _ away, setSelf, setFree_page_of_ne state header away]
  · rfl

lemma store_adopt (node : Nat) (back : Link Nat) :
    (state.store link pointer).adopt spec node back =
      (state.adopt spec node back).store link pointer := by
  unfold adopt
  split
  · cases link with
    | head zone => rfl
    | next page =>
      by_cases same : page = node
      · simp [store, setSelf, same]
      · rw [store, store, setSelf, setSelf, setFree_comm state _ same,
          setFree_page_of_ne state _ (Ne.symm same), setFree_page_of_ne state _ same]
  · rfl

@[simp] lemma adopt_zone : (state.adopt spec pointer link).zone = state.zone := by
  unfold adopt
  split <;> rfl

@[simp] lemma adopt_data : ((state.adopt spec pointer link).page other).pData =
    (state.page other).pData := by
  unfold adopt
  split
  · exact setFree_data state pointer other _
  · rfl

@[simp] lemma adopt_size : ((state.adopt spec pointer link).page other).pFree.pSize =
    (state.page other).pFree.pSize := by
  unfold adopt setSelf
  split
  · by_cases same : other = pointer
    · rw [same, setFree_page_self]
    · rw [setFree_page_of_ne state _ same]
  · rfl

@[simp] lemma adopt_attr : ((state.adopt spec pointer link).page other).pFree.pAttr =
    (state.page other).pFree.pAttr := by
  unfold adopt setSelf
  split
  · by_cases same : other = pointer
    · rw [same, setFree_page_self]
    · rw [setFree_page_of_ne state _ same]
  · rfl

end Fields

/-- The links of the free headers and of the zones. -/
def links (spec : MZoneSpec) (state : PageState) : Links Nat where
  target link := spec.pointer (state.load link)
  self page := (state.page page).pFree.pSelf

lemma links_setFree (spec : MZoneSpec) (state : PageState) (page : Nat) (header : FreeHeader) :
    (state.setFree page header).links spec =
      ⟨Function.update (state.links spec).target (.next page) (spec.pointer header.pNext),
        Function.update (state.links spec).self page header.pSelf⟩ := by
  unfold links
  congr 1
  · funext link
    cases link with
    | head zone => rfl
    | next other =>
      by_cases same : other = page
      · rw [same, Function.update_self, load, setFree_page_self]
      · rw [Function.update_of_ne (by simpa using same), load, setFree_page_of_ne state header same]
        rfl
  · funext other
    by_cases same : other = page
    · rw [same, Function.update_self, setFree_page_self]
    · rw [Function.update_of_ne same, setFree_page_of_ne state header same]

section
variable (spec) (state) (link : Link Nat) (pointer : Nat)

lemma links_store :
    (state.store link pointer).links spec =
      ⟨Function.update (state.links spec).target link (spec.pointer pointer),
        (state.links spec).self⟩ := by
  cases link with
  | head zone =>
    unfold links
    congr 1
    funext link
    cases link with
    | head other =>
      by_cases same : other = zone
      · rw [same]
        simp [load, store, setZone]
      · rw [Function.update_of_ne (by simpa using same)]
        simp [load, store, setZone, Function.update_of_ne same]
    | next page => rfl
  | next page =>
    rw [store, links_setFree]
    congr 1
    exact Function.update_eq_self _ _

lemma links_adopt :
    (state.adopt spec pointer link).links spec = ⟨(state.links spec).target,
      match spec.pointer pointer with
        | none => (state.links spec).self
        | some page => Function.update (state.links spec).self page link⟩ := by
  unfold adopt
  split
  · rename_i valid
    rw [pointer_of_ne valid, setSelf, links_setFree]
    congr 1
    exact Function.update_eq_self _ _
  · rename_i valid
    rw [MZoneSpec.pointer, if_pos (not_not.mp valid)]

/-- A link takes over a pointer, and the page behind it learns the link. -/
lemma links_connect :
    ((state.store link pointer).adopt spec pointer link).links spec =
      (state.links spec).connect link (spec.pointer pointer) := by
  rw [links_adopt, links_store]
  rfl

end

/-- A page gets a header and is placed between a link and the page behind it. -/
lemma links_place (state : PageState) (link : Link Nat) {page pointer : Nat} {header : FreeHeader}
    (valid : page ≠ spec.pageError) (fresh : spec.pointer pointer ≠ some page)
    (next : header.pNext = pointer) (self : header.pSelf = link) :
    (((state.setFree page header).adopt spec pointer (.next page)).store link page).links spec =
      ((state.links spec).connect (.next page) (spec.pointer pointer)).connect link (some page) := by
  rw [links_store, links_adopt, links_setFree, pointer_of_ne valid, next, self]
  congr 1
  cases known : spec.pointer pointer with
  | none => rfl
  | some node =>
    rw [known] at fresh
    exact Function.update_comm (fun same => fresh (by rw [same])) _ _ _

/-- The header at the start of a range tells its size and its attribute. -/
def HasHeader (state : PageState) (range : PageRange) : Prop :=
  (state.page range.start).pFree.pSize = range.size ∧ (state.page range.start).pFree.pAttr = range.tag

/-- The free list of a zone consists of the given ranges. -/
structure Listed (spec : MZoneSpec) (state : PageState) (zone : Nat) (ranges : List PageRange) :
    Prop where
  chain : Chain (state.links spec) (.head zone) (ranges.map Range.start)
  headers : ∀ range ∈ ranges, state.HasHeader range

/-- A change of headers touches the given pages and the list of one zone. -/
structure Edits (before after : PageState) (zone : Nat) (pages : List Nat) : Prop where
  data : ∀ page, (after.page page).pData = (before.page page).pData
  other : ∀ page, page ∉ pages → after.page page = before.page page
  zones : ∀ other, other ≠ zone → after.zone other = before.zone other

section Edits
variable {pages : List Nat}

lemma Edits.trans {middle : PageState} (first : Edits state middle zone pages)
    (second : Edits middle final zone pages) :
    Edits state final zone pages where
  data page := (second.data page).trans (first.data page)
  other page untouched := (second.other page untouched).trans (first.other page untouched)
  zones other differs := (second.zones other differs).trans (first.zones other differs)

lemma Edits.mono {few many : List Nat} (edits : Edits state after zone few)
    (subset : ∀ page ∈ few, page ∈ many) :
    Edits state after zone many where
  data := edits.data
  other page untouched := edits.other page fun mem => untouched (subset page mem)
  zones := edits.zones

lemma edits_setFree {page : Nat} (header : FreeHeader) (mem : page ∈ pages) :
    Edits state (state.setFree page header) zone pages where
  data other := setFree_data state page other header
  other _ untouched := setFree_page_of_ne state header fun same => untouched (same ▸ mem)
  zones _ _ := rfl

lemma edits_store {link : Link Nat} (pointer : Nat)
    (known : link = .head zone ∨ ∃ page ∈ pages, link = .next page) :
    Edits state (state.store link pointer) zone pages where
  data other := store_data state other pointer link
  other other untouched := by
    refine store_page_of_ne state pointer ?_
    intro leads
    rcases known with head | ⟨page, mem, next⟩
    · simp [head] at leads
    · rw [next, Link.next.injEq] at leads
      exact untouched (leads ▸ mem)
  zones other differs := by
    refine store_zone_of_ne state pointer ?_
    intro leads
    rcases known with head | ⟨page, mem, next⟩
    · rw [head, Link.head.injEq] at leads
      exact differs leads.symm
    · simp [next] at leads

lemma edits_adopt {pointer : Nat} (link : Link Nat)
    (known : ∀ page, spec.pointer pointer = some page → page ∈ pages) :
    Edits state (state.adopt spec pointer link) zone pages where
  data other := adopt_data state other pointer link
  other other untouched := adopt_page_of_ne state link fun leads => untouched (known other leads)
  zones other _ := by rw [adopt_zone]

lemma Edits.wiped {page : Nat} (edits : Edits state after zone pages) (mem : page ∈ pages)
    (wipes : Bool) :
    Edits state (if wipes then after.clearHeader page else after) zone pages := by
  cases wipes with
  | false => exact edits
  | true => exact edits.trans (edits_setFree _ mem)

end Edits

section Listed
variable {front back : List PageRange} {range : PageRange}

lemma HasHeader.congr (known : state.HasHeader range)
    (same : (after.page range.start).pFree = (state.page range.start).pFree) :
      after.HasHeader range := by
  unfold HasHeader at *
  rwa [same]

@[simp] lemma hasHeader_store (link : Link Nat) (pointer : Nat) :
    (state.store link pointer).HasHeader range ↔ state.HasHeader range := by simp [HasHeader]

@[simp] lemma hasHeader_adopt (link : Link Nat) (pointer : Nat) :
    (state.adopt spec pointer link).HasHeader range ↔ state.HasHeader range := by simp [HasHeader]

/-- One page gets the header of its range, and the others keep theirs. -/
lemma headers_setFree (range : PageRange) {header : FreeHeader}
    (known : ∀ other ∈ front ++ back, state.HasHeader other)
    (distinct : ((front ++ range :: back).map Range.start).Nodup) (size : header.pSize = range.size)
    (attr : header.pAttr = range.tag) (other : PageRange) (mem : other ∈ front ++ range :: back) :
    (state.setFree range.start header).HasHeader other := by
  rw [List.map_append, List.map_cons, List.nodup_middle, List.nodup_cons, ← List.map_append] at distinct
  rw [List.mem_append, List.mem_cons, or_left_comm, ← List.mem_append] at mem
  rcases mem with rfl | mem
  · simp [HasHeader, size, attr]
  · have differs : other.start ≠ range.start := fun same => distinct.1 (same ▸ List.mem_map_of_mem mem)
    exact (known other mem).congr (by rw [setFree_page_of_ne state header differs])

/-- A free list survives a change of other pages and other zones. -/
lemma Listed.congr {ranges : List PageRange} (listed : Listed spec state zone ranges)
    (samePages : ∀ range ∈ ranges, (after.page range.start).pFree = (state.page range.start).pFree)
    (sameRoot : (after.zone zone).zRoot = (state.zone zone).zRoot) : Listed spec after zone ranges where
  chain := by
    refine listed.chain.congr ?_ ?_ ?_
    · exact congrArg spec.pointer sameRoot
    · intro node mem
      obtain ⟨range, inside, rfl⟩ := List.mem_map.mp mem
      exact congrArg (fun header => spec.pointer header.pNext) (samePages range inside)
    · intro node mem
      obtain ⟨range, inside, rfl⟩ := List.mem_map.mp mem
      exact congrArg FreeHeader.pSelf (samePages range inside)
  headers range mem := (listed.headers range mem).congr (samePages range mem)

lemma Listed.others (listed : Listed spec state zone (front ++ range :: back)) (other : PageRange)
    (mem : other ∈ front ++ back) : state.HasHeader other :=
  listed.headers other (List.mem_append.mpr
    ((List.mem_append.mp mem).imp_right (List.mem_cons_of_mem _)))

/-- A free list survives the wipe of another header. -/
lemma Listed.wiped {ranges : List PageRange} (listed : Listed spec state zone ranges) {page : Nat}
    (absent : page ∉ ranges.map Range.start) (wipes : Bool) :
    Listed spec (if wipes then state.clearHeader page else state) zone ranges := by
  cases wipes with
  | false => exact listed
  | true =>
    refine listed.congr (fun range mem => ?_) rfl
    have differs : range.start ≠ page := fun same => absent (same ▸ List.mem_map_of_mem mem)
    exact congrArg Page.pFree (setFree_page_of_ne state _ differs)

/-- A range of the list knows the link that leads to it and the range behind it. -/
lemma Listed.middle (listed : Listed spec state zone (front ++ range :: back)) :
    Segment (state.links spec) (.head zone) (front.map Range.start) ∧
      (state.page range.start).pFree.pSelf = last (.head zone) (front.map Range.start) ∧
      Tail (state.links spec) (spec.pointer (state.page range.start).pFree.pNext)
        (back.map Range.start) := by
  have chain := listed.chain
  rw [List.map_append] at chain
  obtain ⟨segment, _, self, rest⟩ := chain_append.mp chain
  exact ⟨segment, self, rest.tail⟩

lemma last_known (zone : Nat) {front others : List PageRange} (subset : front ⊆ others) :
    last (.head zone) (front.map Range.start) = .head zone ∨
      ∃ page ∈ others.map Range.start, last (.head zone) (front.map Range.start) = .next page := by
  rcases last_cases (Link.head zone) (front.map Range.start) with same | ⟨page, mem, same⟩
  · exact .inl same
  · exact .inr ⟨page, List.map_subset Range.start subset mem, same⟩

lemma tail_known {links : Links Nat} {pointer : Option Nat} {back others : List PageRange}
    (tail : Tail links pointer (back.map Range.start)) (subset : back ⊆ others) (page : Nat)
    (leads : pointer = some page) :
    page ∈ others.map Range.start := by
  rw [tail.pointer] at leads
  exact List.map_subset Range.start subset (List.mem_of_mem_head? leads)

/-- A range leaves the list. -/
lemma Listed.unlink (listed : Listed spec state zone (front ++ range :: back))
    (distinct : ((front ++ range :: back).map Range.start).Nodup) :
    Listed spec (state.unlink spec range.start) zone (front ++ back) ∧
      Edits state (state.unlink spec range.start) zone ((front ++ range :: back).map Range.start) := by
  obtain ⟨segment, self, tail⟩ := listed.middle
  constructor
  · constructor
    · have chain := listed.chain
      rw [List.map_append] at chain distinct
      have removed := chain_remove chain (away_head _ _) distinct
      rw [List.map_append, PageState.unlink, links_connect]
      exact removed
    · intro other mem
      rw [PageState.unlink, hasHeader_adopt, hasHeader_store]
      exact listed.others other mem
  · refine (edits_store _ ?_).trans (edits_adopt _ ?_)
    · rw [self]
      exact last_known zone (by simp)
    · exact tail_known tail (by simp)

section
variable (listed : Listed spec state zone (front ++ range :: back))
  (distinct : ((front ++ range :: back).map Range.start).Nodup) (size : Nat)
include listed distinct size

/-- A range gets another size and attribute. -/
lemma Listed.resize (tag : Bool) : Listed spec (state.setFree range.start
        ⟨(state.page range.start).pFree.pNext, (state.page range.start).pFree.pSelf, size, tag⟩) zone
      (front ++ ⟨range.start, size, tag⟩ :: back) where
  chain := by
    rw [links_setFree]
    have chain := listed.chain
    simp only [List.map_append, List.map_cons] at chain ⊢
    convert chain using 1
    exact congrArg₂ Links.mk (Function.update_eq_self _ _) (Function.update_eq_self _ _)
  headers other mem := by
    exact headers_setFree ⟨range.start, size, tag⟩ listed.others (by simpa using distinct)
      rfl rfl other mem

lemma Listed.setSize : Listed spec (state.setSize range.start size) zone
    (front ++ ⟨range.start, size, range.tag⟩ :: back) := by
  have resized := listed.resize distinct size range.tag
  rwa [← (listed.headers range (by simp)).2] at resized ⊢

end

/-- A range gets a header between a segment and a tail of a list. -/
lemma listed_place (range : PageRange) {header : FreeHeader} {pointer : Nat}
    (segment : Segment (state.links spec) (.head zone) (front.map Range.start))
    (tail : Tail (state.links spec) (spec.pointer pointer) (back.map Range.start))
    (headers : ∀ other ∈ front ++ back, state.HasHeader other)
    (distinct : ((front ++ range :: back).map Range.start).Nodup) (valid : range.start ≠ spec.pageError)
    (known : header = ⟨pointer, last (.head zone) (front.map Range.start), range.size, range.tag⟩)
    (stored : after = ((state.setFree range.start header).adopt spec pointer (.next range.start)).store
      (last (.head zone) (front.map Range.start)) range.start) :
    Listed spec after zone (front ++ range :: back) ∧
    Edits state after zone ((front ++ range :: back).map Range.start) := by
  subst known stored
  have fresh : spec.pointer pointer ≠ some range.start := by
    intro leads
    have mem := tail_known tail (List.Subset.refl back) _ leads
    rw [List.map_append, List.map_cons, List.nodup_middle, List.nodup_cons] at distinct
    exact distinct.1 (List.mem_append_right _ mem)
  constructor
  · constructor
    · rw [links_place state _ valid fresh rfl rfl, List.map_append]
      rw [List.map_append] at distinct
      exact chain_place range.start segment tail (away_head _ _) distinct
    · intro other mem
      rw [hasHeader_store, hasHeader_adopt]
      exact headers_setFree range headers distinct rfl rfl other mem
  · have inside : back ⊆ front ++ range :: back :=
      List.subset_append_of_subset_right _ (List.subset_cons_self _ _)
    refine ((edits_setFree _ (by simp)).trans (edits_adopt _ (tail_known tail inside))).trans
      (edits_store _ ?_)
    exact last_known zone (List.subset_append_left _ _)

end Listed

/-- The ranges that a walk along a zone finds. -/
def freeList (spec : MZoneSpec) (state : PageState) (zone : Nat) : List PageRange :=
  ((state.links spec).nodes spec.fuel ((state.links spec).target (.head zone))).map fun page =>
    ⟨page, (state.page page).pFree.pSize, (state.page page).pFree.pAttr⟩

/-- A part of a range can be cut out at page borders. -/
structure Part (range : PageRange) (start bytes : Nat) : Prop where
  lower : range.start ≤ start
  upper : start + bytes ≤ range.stop
  startAligned : pageSize ∣ start
  sizeAligned : pageSize ∣ bytes
  filled : 0 < bytes ∨ start = range.stop

end PageState

/-- A nonempty range of pages inside a zone. -/
structure Fits (spec : MZoneSpec) (zone : Nat) (range : PageRange) : Prop where
  startAligned : pageSize ∣ range.start
  sizeAligned : pageSize ∣ range.size
  filled : 0 < range.size
  lower : spec.msMin zone ≤ range.start
  upper : range.stop ≤ spec.msMax zone + 1

/-- The ranges of a zone ascend with gaps between them. -/
structure Arranged (spec : MZoneSpec) (zone : Nat) (ranges : List PageRange) : Prop where
  apart : Apart ranges
  fits : ∀ range ∈ ranges, Fits spec zone range

section Arranged
variable {spec : MZoneSpec} {zone : Nat} {range : PageRange} {front back ranges : List PageRange}

lemma Fits.bounded (fits : Fits spec zone range) (real : zone < spec.realCount) :
    range.start + range.size < 2 ^ spec.bits := by
  have upper := fits.upper
  have bound := msMax_bound real
  unfold Range.stop pageSize at *
  omega

lemma Fits.start_lt (fits : Fits spec zone range) (real : zone < spec.realCount) :
    range.start < 2 ^ spec.bits := by
  have bounded := fits.bounded real
  omega

lemma Fits.stop_aligned (fits : Fits spec zone range) : pageSize ∣ range.stop :=
  Nat.dvd_add fits.startAligned fits.sizeAligned

lemma Arranged.has_start (arranged : Arranged spec zone ranges) (mem : range ∈ ranges) :
    range.Has range.start :=
  ⟨le_rfl, Nat.lt_add_of_pos_right (arranged.fits range mem).filled⟩

/-- No range starts at a page inside of another one. -/
lemma Arranged.start_absent (arranged : Arranged spec zone ranges) (mem : range ∈ ranges) {page : Nat}
    (has : range.Has page) (behind : page ≠ range.start) : page ∉ ranges.map Range.start := by
  intro found
  obtain ⟨other, listed, rfl⟩ := List.mem_map.mp found
  rw [arranged.apart.unique listed mem (arranged.has_start listed) has] at behind
  exact behind rfl

/-- A cut at page borders leaves an arranged list. -/
lemma Arranged.cut {start bytes : Nat} (arranged : Arranged spec zone (front ++ range :: back))
    (part : PageState.Part range start bytes) :
      Arranged spec zone (front ++ (cutOut range start bytes ++ back)) where
  apart := apart_cutOut arranged.apart part.lower part.upper part.filled
  fits piece mem := by
    have others := arranged.fits
    simp only [List.mem_append, List.mem_cons] at mem others
    rcases mem with mem | mem | mem
    · exact others piece (.inl mem)
    · have whole := others range (.inr (.inl rfl))
      have bounds := mem_cutOut mem part.lower part.upper
      refine ⟨?_, ?_, bounds.2.2.1, whole.lower.trans bounds.1, bounds.2.1.trans whole.upper⟩
      all_goals
        simp only [cutOut, List.mem_append] at mem
        rcases mem with mem | mem <;> split at mem <;>
          simp only [List.mem_singleton, List.not_mem_nil] at mem
        all_goals subst mem
      · exact whole.startAligned
      · exact Nat.dvd_add part.startAligned part.sizeAligned
      · exact Nat.dvd_sub part.startAligned whole.startAligned
      · exact Nat.dvd_sub whole.stop_aligned (Nat.dvd_add part.startAligned part.sizeAligned)
    · exact others piece (.inr (.inr mem))

/-- A new range between the others leaves an arranged list. -/
lemma Arranged.join {start bytes : Nat} {attr : Bool} (arranged : Arranged spec zone (front ++ back))
    (fits : Fits spec zone ⟨start, bytes, attr⟩) (below : ∀ range ∈ front, range.stop ≤ start)
    (above : ∀ range ∈ back, start + bytes ≤ range.start) :
    Arranged spec zone (joinIn and front ⟨start, bytes, attr⟩ back) where
  apart := apart_joinIn arranged.apart below above
  fits := by
    refine forall_joinIn (Fits spec zone) (fun first second low high touch => ?_) ?_ fits ?_
    · refine ⟨low.startAligned, Nat.dvd_add low.sizeAligned high.sizeAligned, ?_, low.lower, ?_⟩
      · exact Nat.add_pos_left low.filled _
      · have upper := high.upper
        simp only [merge, Range.stop] at *
        omega
    · exact fun range mem => arranged.fits range (List.mem_append_left _ mem)
    · exact fun range mem => arranged.fits range (List.mem_append_right _ mem)

/-- The walks have enough fuel for every list of a zone. -/
lemma Arranged.short (arranged : Arranged spec zone ranges) (real : zone < spec.realCount) :
    ranges.length < spec.fuel := by
  have counted := arranged.apart.length_le fun range mem => (arranged.fits range mem).start_lt real
  unfold fuel
  omega

lemma PageState.Listed.freeList_eq {state : PageState} (listed : Listed spec state zone ranges)
    (arranged : Arranged spec zone ranges) (real : zone < spec.realCount) :
      state.freeList spec zone = ranges := by
  rw [freeList, listed.chain.nodes_eq (by rw [List.length_map]; exact arranged.short real), List.map_map]
  refine (List.map_congr_left fun range mem => ?_).trans (List.map_id ranges)
  obtain ⟨size, attr⟩ := listed.headers range mem
  rw [Function.comp_apply, size, attr]
  rfl

end Arranged

end KosKernel.Memory
