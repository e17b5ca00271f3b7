import KosKernel.Mman.BranchMerge
import KosKernel.Mman.BranchUnmap

namespace KosKernel.Mman.MMan
open LinkTree Function List Option StepRun Nat Hybrid ATree
variable {key : KeyType} {mman : MMan}

/-- The range is made of whole pages of the address space. -/
structure PageRange (key : KeyType) (addr nBytes : Nat) : Prop where
  addrPage : pageSize ∣ addr
  bytesPage : pageSize ∣ nBytes
  sized : nBytes < 2 ^ key.bits
  within : addr + nBytes ≤ 2 ^ key.bits

instance (key : KeyType) (addr nBytes : Nat) : Decidable (PageRange key addr nBytes) :=
  decidable_of_iff (pageSize ∣ addr ∧ pageSize ∣ nBytes ∧ nBytes < 2 ^ key.bits ∧
    addr + nBytes ≤ 2 ^ key.bits)
    ⟨fun ⟨addrPage, bytesPage, sized, within⟩ => ⟨addrPage, bytesPage, sized, within⟩,
      fun range => ⟨range.addrPage, range.bytesPage, range.sized, range.within⟩⟩

variable {addr nBytes loNew hiNew : Nat}

/-- A whole number of pages is not rounded. -/
lemma PageRange.ceilAlign (range : PageRange key addr nBytes) :
    Memory.ceilAlign key.bits nBytes = nBytes := by
  obtain ⟨count, rfl⟩ := range.bytesPage
  have sized := range.sized
  unfold Memory.ceilAlign Memory.pageSize
  unfold pageSize at sized ⊢
  rcases Nat.eq_zero_or_pos count with rfl | positive
  · have small : (4096 * 0 + (4096 - 1)) % 2 ^ key.bits ≤ 4095 := mod_le _ _
    omega
  have wide : 12 ≤ key.bits := by
    by_contra narrow
    have bound : 2 ^ key.bits ≤ 2 ^ 12 := Nat.pow_le_pow_right (by decide) (by omega)
    omega
  obtain ⟨pages, words⟩ : 2 ^ 12 ∣ 2 ^ key.bits := pow_dvd_pow 2 wide
  rw [mod_eq_of_lt (by omega)]
  omega

/-- The address behind the range, as a word. -/
def rangeEnd (key : KeyType) (addr nBytes : Nat) : Nat := (addr + nBytes) % 2 ^ key.bits

lemma PageRange.rangeEnd (range : PageRange key addr nBytes) (positive : 0 < nBytes) :
    pageSize ∣ MMan.rangeEnd key addr nBytes ∧ MMan.rangeEnd key addr nBytes < 2 ^ key.bits ∧
      before key (MMan.rangeEnd key addr nBytes) = addr + nBytes - 1 := by
  have words := Nat.two_pow_pos key.bits
  have within := range.within
  have page : pageSize ∣ addr + nBytes := dvd_add range.addrPage range.bytesPage
  unfold MMan.rangeEnd
  refine ⟨?_, mod_lt _ words, ?_⟩
  · rcases lt_or_ge (addr + nBytes) (2 ^ key.bits) with inside | last
    · rwa [mod_eq_of_lt inside]
    · rw [show addr + nBytes = 2 ^ key.bits by omega, mod_self]
      exact dvd_zero _
  · rcases lt_or_ge (addr + nBytes) (2 ^ key.bits) with inside | last
    · rw [mod_eq_of_lt inside, before_eq (by omega) inside]
    · rw [show addr + nBytes = 2 ^ key.bits by omega, mod_self, before_zero]

section
variable (valid : Valid key mman)
include valid

/-- Splitting a branch touches only listed branches and the new one. -/
lemma Valid.split_frame {start hi : Nat} (page : pageSize ∣ start) (fresh : hi ∉ mman.mOrder) :
    ∃ after, mman.splitBranchUnlocked key start hi = some after ∧ Valid key after ∧
      (∀ branch ∈ after.mOrder, branch = hi ∨ branch ∈ mman.mOrder) ∧
      ∀ branch, branch ≠ hi → branch ∉ mman.mOrder → after.branch branch = mman.branch branch := by
  obtain ⟨after, done, afterValid, same | ⟨lo, mem, above, below, cells, rfl⟩⟩ := valid.split page fresh
  · obtain ⟨rfl, _⟩ := same
    exact ⟨after, done, afterValid, fun _ mem => .inr mem, fun _ _ _ => rfl⟩
  refine ⟨_, done, afterValid, ?_, ?_⟩
  · intro branch found
    exact mem_cons.mp ((insertAfter_perm hi mem).mem_iff.mp found)
  · intro branch notHi absent
    exact divideBranch_other mman start (fun equal => absent (equal ▸ mem)) notHi

/-- Both ends of a range of pages can be split. -/
lemma Valid.splitRange (range : PageRange key addr nBytes) (positive : 0 < nBytes)
    (differ : loNew ≠ hiNew) (loFresh : loNew ∉ mman.mOrder) (hiFresh : hiNew ∉ mman.mOrder) :
    ∃ lowSplit split, mman.splitBranchUnlocked key addr loNew = some lowSplit ∧
      lowSplit.splitBranchUnlocked key ((addr + nBytes) % 2 ^ key.bits) hiNew = some split ∧
      Valid key split ∧
      (∀ branch ∈ split.mOrder, branch = loNew ∨ branch = hiNew ∨ branch ∈ mman.mOrder) ∧
      ∀ branch, branch ≠ loNew → branch ≠ hiNew → branch ∉ mman.mOrder →
      split.branch branch = mman.branch branch := by
  obtain ⟨lowSplit, lowDone, lowValid, lowMembers, lowFrame⟩ := valid.split_frame range.addrPage loFresh
  have hiFresh' : hiNew ∉ lowSplit.mOrder := by
    intro mem
    rcases lowMembers hiNew mem with same | old
    · exact differ same.symm
    · exact hiFresh old
  obtain ⟨split, done, splitValid, members, frame⟩ :=
    lowValid.split_frame (range.rangeEnd positive).1 hiFresh'
  refine ⟨lowSplit, split, lowDone, done, splitValid, ?_, ?_⟩
  · intro branch mem
    rcases members branch mem with same | old
    · exact .inr (.inl same)
    · exact (lowMembers branch old).imp_right .inr
  · intro branch notLo notHi absent
    rw [frame branch notHi, lowFrame branch notLo absent]
    intro mem
    exact (lowMembers branch mem).elim notLo absent

/-- Unmapping a range of pages keeps a valid memory manager valid. -/
lemma Valid.munmap (tag : Option Nat) (range : PageRange key addr nBytes) (differ : loNew ≠ hiNew)
    (loFresh : loNew ∉ mman.mOrder) (hiFresh : hiNew ∉ mman.mOrder) :
    ∃ after bytes, mman.munmapUnlocked key addr nBytes tag loNew hiNew = some (after, bytes) ∧
    Valid key after ∧
      (∀ branch ∈ after.mOrder, branch = loNew ∨ branch = hiNew ∨ branch ∈ mman.mOrder) ∧
      (∀ branch, branch ≠ loNew → branch ≠ hiNew → branch ∉ mman.mOrder →
        after.branch branch = mman.branch branch) ∧
      (0 < nBytes → ∀ branch ∈ after.mOrder, ¬ after.unmaps addr (addr + nBytes - 1) tag branch) := by
  unfold munmapUnlocked
  rcases Nat.eq_zero_or_pos nBytes with rfl | positive
  · exact ⟨mman, 0, rfl, valid, fun _ mem => .inr (.inr mem), fun _ _ _ _ => rfl, nofun⟩
  obtain ⟨lowSplit, split, lowDone, done, splitValid, members, frame⟩ :=
    valid.splitRange range positive differ loFresh hiFresh
  have last : before key ((addr + nBytes) % 2 ^ key.bits) = addr + nBytes - 1 :=
    (range.rangeEnd positive).2.2
  obtain ⟨after, bytes, ran, afterValid, branch, order⟩ :=
    splitValid.munmapImpl addr (addr + nBytes - 1) tag
  rw [if_neg (by omega)]
  rw [range.ceilAlign, lowDone, bind_some, done, last]
  refine ⟨after, bytes, ran, afterValid, ?_, ?_, fun _ node found => ?_⟩
  · intro node found
    rw [order] at found
    exact members node (mem_filter.mp found).1
  · intro node notLo notHi absent
    rw [branch]
    exact frame node notLo notHi absent
  · rw [order] at found
    have kept := of_decide_eq_true (mem_filter.mp found).2
    unfold unmaps overlaps at kept ⊢
    rwa [branch]

/-- The part of `mman_mprotect_unlocked` before the merges keeps a valid memory manager valid. -/
lemma Valid.mprotectRange (amask omask : BitVec 32) (range : PageRange key addr nBytes)
    (positive : 0 < nBytes)
    (differ : loNew ≠ hiNew) (loFresh : loNew ∉ mman.mOrder) (hiFresh : hiNew ∉ mman.mOrder) :
    ∃ after bytes, mman.mprotectRange key addr nBytes amask omask loNew hiNew =
      some (after, bytes) ∧ Valid key after := by
  obtain ⟨lowSplit, split, lowDone, done, splitValid, _, _⟩ :=
    valid.splitRange range positive differ loFresh hiFresh
  obtain ⟨shape, rooted, _⟩ := splitValid.stored
  have depth := rooted.placed.depth_le
  obtain ⟨after, bytes, ran, reprotected⟩ :=
    mprotectImpl_spec addr (before key ((addr + nBytes) % 2 ^ key.bits)) amask omask
    (key.bits + 2) rooted.holds (by omega) (semi0 key) (level0 key)
  refine ⟨after, bytes, ?_, reprotected.valid splitValid⟩
  rw [MMan.mprotectRange, lowDone, bind_some, done]
  exact ran

/-- The part of `mman_mmap_unlocked` before the merges keeps a valid memory manager valid. -/
lemma Valid.mmapRange {newleaf : Nat} (mapping : Mapping) (range : PageRange key addr nBytes)
    (positive : 0 < nBytes)
    (distinct : [newleaf, loNew, hiNew].Nodup)
    (fresh : ∀ new ∈ [newleaf, loNew, hiNew], new ∉ mman.mOrder) :
    ∃ after, mman.mmapRange key addr nBytes mapping newleaf loNew hiNew = some after ∧
    Valid key after := by
  have within := range.within
  have last : before key ((addr + nBytes) % 2 ^ key.bits) = addr + nBytes - 1 :=
    (range.rangeEnd positive).2.2
  simp only [nodup_cons, mem_cons, not_mem_nil, or_false, not_or] at distinct
  simp only [mem_cons, not_mem_nil, or_false, forall_eq_or_imp, forall_eq] at fresh
  obtain ⟨⟨leafLo, leafHi⟩, differ, _⟩ := distinct
  obtain ⟨leafFresh, loFresh, hiFresh⟩ := fresh
  unfold MMan.mmapRange
  dsimp only
  generalize leafEq : (⟨⟨addr, before key ((addr + nBytes) % 2 ^ key.bits)⟩, mapping.prot,
    mapping.start, mapping.region, mapping.notify, mapping.closure⟩ : MBranch) = leaf
  have leafNode : leaf.mbNode = ⟨addr, addr + nBytes - 1⟩ := by rw [← leafEq, last]
  generalize allocatedEq : ({ mman with branch := update mman.branch newleaf leaf } : MMan).regionIncref
    mapping.region = allocated
  have allocatedOrder : allocated.mOrder = mman.mOrder := by rw [← allocatedEq]; rfl
  have allocatedBranch : allocated.branch = update mman.branch newleaf leaf := by rw [← allocatedEq]; rfl
  have allocatedMap : allocated.mMap = mman.mMap := by rw [← allocatedEq]; rfl
  have allocatedValid : Valid key allocated := by
    have same : ∀ branch ∈ mman.mOrder, allocated.branch branch = mman.branch branch := by
      intro branch mem
      have other : branch ≠ newleaf := fun equal => leafFresh (equal ▸ mem)
      rw [allocatedBranch, update_of_ne other]
    refine ⟨?_, ?_, ?_⟩
    · rw [allocatedMap, allocatedOrder]
      exact valid.stored.congr fun branch mem => congrArg MBranch.mbNode (same branch mem)
    · rw [allocatedOrder]
      refine valid.ascending.imp_of_mem fun {first second} firstMem secondMem less => ?_
      unfold Precedes at less ⊢
      rwa [same first firstMem, same second secondMem]
    · intro branch mem
      rw [allocatedOrder] at mem
      rw [same branch mem]
      exact valid.aligned branch mem
  obtain ⟨unmapped, bytes, done, unmappedValid, members, frame, free⟩ :=
    allocatedValid.munmap none range differ
    (allocatedOrder ▸ loFresh) (allocatedOrder ▸ hiFresh)
  have leafKept : unmapped.branch newleaf = leaf := by
    rw [frame newleaf leafLo leafHi (allocatedOrder ▸ leafFresh), allocatedBranch, update_self]
  have leafNew : newleaf ∉ unmapped.mOrder := by
    intro mem
    rcases members newleaf mem with same | same | old
    · exact leafLo same
    · exact leafHi same
    · exact leafFresh (allocatedOrder ▸ old)
  have endPage : pageSize ∣ addr + nBytes - 1 + 1 := by
    rw [Nat.sub_add_cancel (by omega)]
    exact dvd_add range.addrPage range.bytesPage
  have aligned : (unmapped.branch newleaf).mbNode.PageAligned key := by
    rw [leafKept, leafNode]
    refine ⟨range.addrPage, endPage, ?_, ?_⟩
    · show addr ≤ addr + nBytes - 1
      omega
    · show addr + nBytes - 1 < 2 ^ key.bits
      omega
  have apart : ∀ other ∈ unmapped.mOrder,
    (unmapped.branch other).mbNode.Disjoint (unmapped.branch newleaf).mbNode := by
    intro other mem
    have kept := free positive other mem
    have disjoint : ¬ (addr ≤ (unmapped.branch other).mbNode.aVmax ∧
        (unmapped.branch other).mbNode.aVmin ≤ addr + nBytes - 1) := fun overlap => kept ⟨overlap, nofun⟩
    rw [leafKept, leafNode]
    rcases lt_or_ge (unmapped.branch other).mbNode.aVmax addr with below | reaches
    · exact .inl below
    · exact .inr (lt_of_not_ge fun starts => disjoint ⟨reaches, starts⟩)
  obtain ⟨after, inserted, afterValid, _⟩ := unmappedValid.insbranch leafNew aligned apart
  exact ⟨after, by rw [done]; exact inserted, afterValid⟩

end

/-- The steps of the calls. A mapping or a change of the protection is followed by two merges. -/
inductive MmanStep where
  | split (start hiBranch : Nat)
  | merge (start : Nat)
  | munmap (addr nBytes : Nat) (tag : Option Nat) (loNew hiNew : Nat)
  | protect (addr nBytes : Nat) (amask omask : BitVec 32) (loNew hiNew : Nat)
  | map (addr nBytes : Nat) (mapping : Mapping) (newleaf loNew hiNew : Nat)

/-- The calls with the addresses that their allocations return. -/
inductive MmanCall where
  | mmap (addr nBytes : Nat) (mapping : Mapping) (newleaf loNew hiNew : Nat)
  | munmap (addr nBytes : Nat) (tag : Option Nat) (loNew hiNew : Nat)
  | mprotect (addr nBytes : Nat) (amask omask : BitVec 32) (loNew hiNew : Nat)
  | splitBranch (start hiBranch : Nat)
  | mergeBranch (start : Nat)

/-- The state after a step. -/
def performStep (key : KeyType) (mman : MMan) : MmanStep → Option MMan
  | .split start hiBranch => mman.splitBranchUnlocked key start hiBranch
  | .merge start => mman.mergeBranchUnlocked key start
  | .munmap addr nBytes tag loNew hiNew =>
    (mman.munmapUnlocked key addr nBytes tag loNew hiNew).map Prod.fst
  | .protect addr nBytes amask omask loNew hiNew =>
    (mman.mprotectRange key addr nBytes amask omask loNew hiNew).map Prod.fst
  | .map addr nBytes mapping newleaf loNew hiNew =>
    mman.mmapRange key addr nBytes mapping newleaf loNew hiNew

/-- The state after a call. -/
def perform (key : KeyType) (mman : MMan) : MmanCall → Option MMan
  | .mmap addr nBytes mapping newleaf loNew hiNew =>
    mman.mmapUnlocked key addr nBytes mapping newleaf loNew hiNew
  | .munmap addr nBytes tag loNew hiNew =>
    (mman.munmapUnlocked key addr nBytes tag loNew hiNew).map Prod.fst
  | .mprotect addr nBytes amask omask loNew hiNew =>
    (mman.mprotectUnlocked key addr nBytes amask omask loNew hiNew).map Prod.fst
  | .splitBranch start hiBranch => mman.splitBranchUnlocked key start hiBranch
  | .mergeBranch start => mman.mergeBranchUnlocked key start

/-- The steps that a call consists of. -/
def steps (key : KeyType) : MmanCall → List MmanStep
  | .mmap addr nBytes mapping newleaf loNew hiNew =>
    if nBytes = 0 then []
    else
      [.map addr (Memory.ceilAlign key.bits nBytes) mapping newleaf loNew hiNew, .merge addr,
        .merge (rangeEnd key addr (Memory.ceilAlign key.bits nBytes))]
  | .munmap addr nBytes tag loNew hiNew => [.munmap addr nBytes tag loNew hiNew]
  | .mprotect addr nBytes amask omask loNew hiNew =>
    if nBytes = 0 then []
    else
      [.protect addr (Memory.ceilAlign key.bits nBytes) amask omask loNew hiNew, .merge addr,
        .merge (rangeEnd key addr (Memory.ceilAlign key.bits nBytes))]
  | .splitBranch start hiBranch => [.split start hiBranch]
  | .mergeBranch start => [.merge start]

/-- The addresses are new and different. -/
def Fresh (mman : MMan) (news : List Nat) : Prop := news.Nodup ∧ ∀ new ∈ news, new ∉ mman.mOrder

instance (mman : MMan) (news : List Nat) : Decidable (mman.Fresh news) :=
  inferInstanceAs (Decidable (_ ∧ _))

/-- The step works on pages with new allocations, and its merges are safe. -/
def StepSafe (key : KeyType) (mman : MMan) : MmanStep → Prop
  | .split start hiBranch => pageSize ∣ start ∧ mman.Fresh [hiBranch]
  | .merge start => start < 2 ^ key.bits ∧ MergeSafe key mman start
  | .munmap addr nBytes _ loNew hiNew => PageRange key addr nBytes ∧ mman.Fresh [loNew, hiNew]
  | .protect addr nBytes _ _ loNew hiNew =>
    PageRange key addr nBytes ∧ 0 < nBytes ∧ mman.Fresh [loNew, hiNew]
  | .map addr nBytes _ newleaf loNew hiNew =>
    PageRange key addr nBytes ∧ 0 < nBytes ∧ mman.Fresh [newleaf, loNew, hiNew]

instance (key : KeyType) (mman : MMan) (step : MmanStep) : Decidable (StepSafe key mman step) := by
  cases step <;> unfold StepSafe <;> infer_instance

lemma Fresh.pair (fresh : mman.Fresh [loNew, hiNew]) :
    loNew ≠ hiNew ∧ loNew ∉ mman.mOrder ∧ hiNew ∉ mman.mOrder := by
  simpa [Fresh] using fresh

/-- A safe step keeps a valid memory manager valid. -/
lemma Valid.step (valid : Valid key mman) {step : MmanStep} (safe : StepSafe key mman step) :
    ∃ after, performStep key mman step = some after ∧ Valid key after := by
  cases step with
  | split start hiBranch =>
    obtain ⟨page, fresh⟩ := safe
    obtain ⟨after, done, afterValid, _⟩ := valid.split page (fresh.2 hiBranch mem_cons_self)
    exact ⟨after, done, afterValid⟩
  | merge start =>
    obtain ⟨small, mergeSafe⟩ := safe
    obtain ⟨after, done, afterValid, _⟩ := valid.merge small (valid.finds mergeSafe)
    exact ⟨after, done, afterValid⟩
  | munmap addr nBytes tag loNew hiNew =>
    obtain ⟨range, fresh⟩ := safe
    obtain ⟨differ, loFresh, hiFresh⟩ := fresh.pair
    obtain ⟨after, bytes, done, afterValid, _⟩ := valid.munmap tag range differ loFresh hiFresh
    exact ⟨after, by rw [performStep, done]; rfl, afterValid⟩
  | protect addr nBytes amask omask loNew hiNew =>
    obtain ⟨range, positive, fresh⟩ := safe
    obtain ⟨differ, loFresh, hiFresh⟩ := fresh.pair
    obtain ⟨after, bytes, done, afterValid⟩ :=
      valid.mprotectRange amask omask range positive differ loFresh hiFresh
    exact ⟨after, by rw [performStep, done]; rfl, afterValid⟩
  | map addr nBytes mapping newleaf loNew hiNew =>
    obtain ⟨range, positive, distinct, fresh⟩ := safe
    exact valid.mmapRange mapping range positive distinct fresh

/-- A call does its steps one after another. -/
lemma perform_steps (mman : MMan) (call : MmanCall) :
    mman.perform key call = run (performStep key) mman (steps key call) := by
  cases call with
  | mmap addr nBytes mapping newleaf loNew hiNew =>
    rw [perform, steps, mmapUnlocked]
    split_ifs
    · rfl
    · simp [run, performStep, rangeEnd, bind_fun_some]
  | mprotect addr nBytes amask omask loNew hiNew =>
    rw [perform, steps, mprotectUnlocked]
    split_ifs
    · rfl
    · simp only [StepRun.run, performStep, rangeEnd, Option.bind_fun_some, Option.map_bind,
        Option.bind_map, comp_def, Option.map_map, Option.map_id']
  | munmap addr nBytes tag loNew hiNew | splitBranch start hiBranch | mergeBranch start =>
    simp [perform, steps, run, performStep, bind_fun_some]

lemma run_perform (mman : MMan) (calls : List MmanCall) :
    run (perform key) mman calls = run (performStep key) mman (calls.flatMap (steps key)) := by
  induction calls generalizing mman with
  | nil => rfl
  | cons call rest ih =>
    rw [flatMap_cons, run_append, run_cons, perform_steps]
    congr 1
    funext next
    exact ih next

/-- After safe calls the tree and the list hold the same ascending branches of whole pages. -/
theorem branches_agree (calls : List MmanCall) (mman : MMan) (valid : Valid key mman)
    (safe : StepRun.Meets (performStep key) (StepSafe key) mman (calls.flatMap (steps key))) :
    ∃ after, run (perform key) mman calls = some after ∧
      (∃ shape, Holds after.mMap (after.mMap .head) shape ∧ shape.nodes.Perm after.mOrder ∧
        shape.nodes.Nodup) ∧
      after.mOrder.Pairwise (Precedes after.branch) ∧
      (∀ branch ∈ after.mOrder, (after.branch branch).mbNode.PageAligned key) ∧
      ∀ branch ∈ after.mOrder, ∀ address, Covers after.ranges address branch →
        locate key after.ranges after.mMap address = some (some branch) := by
  obtain ⟨after, reached, afterValid⟩ :=
    run_invariant (fun _ _ kept condition => Valid.step kept condition)
    (calls.flatMap (steps key)) mman valid safe
  refine ⟨after, (run_perform mman calls).trans reached, ?_, afterValid.ascending,
    afterValid.aligned, ?_⟩
  · obtain ⟨shape, rooted, members⟩ := afterValid.stored
    exact ⟨shape, rooted.holds, members, rooted.nodup⟩
  · intro branch mem address covers
    obtain ⟨found, located, exactly⟩ := afterValid.stored.locate afterValid.separated address
    rw [located, (exactly branch).mpr ⟨mem, covers⟩]

/-- A memory manager without branches. -/
def empty : MMan :=
  { mMap := fun _ => none, mOrder := [], branch := fun _ => ⟨⟨0, 0⟩, 0, 0, 0, 0, 0⟩,
    mrRefcnt := fun _ => 1 }

lemma empty_valid (key : KeyType) : Valid key empty :=
  ⟨stored_nil key _ rfl, List.Pairwise.nil, fun _ mem => absurd mem not_mem_nil⟩

/-- A writable mapping of the region without notifier. -/
def sharedMapping (start region : Nat) : Mapping := ⟨start, region, 3, 0, 0⟩

theorem branches_agree_merged : ∃ after, run (perform uintptr32) empty
        [.mmap 0x1000 0x1000 (sharedMapping 0 7) 10 11 12,
          .mmap 0x2000 0x2000 (sharedMapping 0x1000 7) 20 21 22,
          .mprotect 0x2000 0x1000 1 0 30 31, .munmap 0x3000 0x1000 none 40 41] = some after ∧
      (∃ shape, Holds after.mMap (after.mMap .head) shape ∧ shape.nodes.Perm after.mOrder ∧
        shape.nodes.Nodup) ∧
      after.mOrder.Pairwise (Precedes after.branch) ∧
      (∀ branch ∈ after.mOrder, (after.branch branch).mbNode.PageAligned uintptr32) ∧
      ∀ branch ∈ after.mOrder, ∀ address, Covers after.ranges address branch →
        locate uintptr32 after.ranges after.mMap address = some (some branch) :=
  branches_agree _ empty (empty_valid _) (by decide +kernel)

/-- The upper branch stands above the lower one, and the merge puts that below itself. -/
theorem mergeBranch_cycle : (run (perform uintptr32) empty
      [.mmap 0x2000 0x2000 (sharedMapping 0x1000 7) 10 11 12,
        .mmap 0x1000 0x1000 (sharedMapping 0 7) 20 21 22]).map
        (fun after => (after.mOrder, after.mMap .head, after.mMap (.low 20))) =
          some ([20], some 20, some 20) ∧
      ∀ cells : Cells, cells (.low 20) = some 20 → ∀ shape, ¬ Holds cells (some 20) shape := by
  refine ⟨by decide +kernel, fun cells cycle shape => ?_⟩
  induction shape with
  | leaf => simp [Holds]
  | node low root high lowIh _ =>
    rintro ⟨same, lower, _⟩
    obtain rfl := some.inj same
    rw [cycle] at lower
    exact lowIh lower

end KosKernel.Mman.MMan
