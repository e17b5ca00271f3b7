/- The walks of `mman_mlock_unlocked` and `mman_mcore_unlocked` from `kernel/mman/mman.c`. -/

import KosKernel.Mman.BranchQuery

namespace KosKernel.Mman.MMan
open LinkTree List Option Nat Hybrid ATree

/-- The part of a region that a walk passes on for a branch. -/
structure Part where
  mbranch : MBranch
  regionBegin : Nat
  regionSize : Nat
  deriving DecidableEq

/-- The part for a branch. Both of its ends are offset alike, so it is as large as the range. -/
def partOf (key : KeyType) (mman : MMan) (addr nBytes branch : Nat) : Part :=
  let found := mman.branch branch
  ⟨found, (found.mbStart + (addr + 2 ^ key.bits - found.mbNode.aVmin)) % 2 ^ key.bits, nBytes⟩

/-- What a walk has passed on, the branches behind it, and the outcomes of the later calls of
`mbranch_mcore`, which may remap the branches. -/
structure Passed where
  parts : List Part
  mspace : MMan
  remaps : List (Option MMan)

/-- One more part was passed on before. -/
def Passed.push (part : Part) (passed : Passed) : Passed := { passed with parts := part :: passed.parts }

/-- This is `mman_mlock_impl` with `MMAN_MLOCK_INCORE` and `mman_mcore_impl`, without their
assertions. The code starts over with `restart` when the branches were remapped. -/
def passParts (key : KeyType) (addr nBytes : Nat)
    (restart : MMan → List (Option MMan) → Option Passed) :
    Nat → Option Nat → Nat → Nat → MMan → List (Option MMan) → Option Passed
  | 0, _, _, _, _, _ => none
  | _ + 1, none, _, _, mspace, remaps => some ⟨[], mspace, remaps⟩
  | fuel + 1, some branch, semi, level, mspace, remaps =>
    let addrMax := before key ((addr + nBytes) % 2 ^ key.bits)
    let aMax := if semi ≤ addrMax then mspace.mMap (.high branch) else none
    let aMin := if addr < semi then mspace.mMap (.low branch) else none
    let walk := fun remaps =>
      (passParts key addr nBytes restart fuel aMax (walkMax key semi level) (nextLevel level)
        mspace remaps).bind fun high =>
          (passParts key addr nBytes restart fuel aMin (walkMin key semi level) (nextLevel level)
            high.mspace high.remaps).map fun low => { low with parts := high.parts ++ low.parts }
    if mspace.overlaps addr addrMax branch then
      Option.map (Passed.push (mspace.partOf key addr nBytes branch)) <|
        match remaps.head?.join with
        | some remapped =>
          if addr + pageSize - 1 = addrMax then some ⟨[], remapped, remaps.tail⟩
          else restart remapped remaps.tail
        | none => walk remaps.tail
    else walk remaps

/-- The walk from the root. -/
def passFrom (key : KeyType) (addr nBytes : Nat) : Nat → MMan → List (Option MMan) → Option Passed
  | 0, _, _ => none
  | turns + 1, mspace, remaps =>
    passParts key addr nBytes (passFrom key addr nBytes turns) (key.bits + 1) (mspace.mMap .head)
      (semi0 key) (level0 key) mspace remaps

/-- The parts that a walk passes on. Each remap makes it start over at most once. -/
def partsOf (key : KeyType) (mman : MMan) (addr nBytes : Nat) (remaps : List (Option MMan)) :
    Option (List Part) :=
  (passFrom key addr nBytes (remaps.length + 1) mman remaps).map Passed.parts

/-- This is `mman_mlock_unlocked`. It dereferences a null root, and it calls `mbranch_mcore` only with
`MMAN_MLOCK_INCORE`. -/
def mlockUnlocked (key : KeyType) (mman : MMan) (addr nBytes : Nat) (incore : Bool)
    (remaps : List (Option MMan)) : Option (List Part) :=
  if nBytes = 0 then some []
  else if mman.mMap .head = none then none
  else mman.partsOf key addr (Memory.ceilAlign key.bits nBytes) (if incore then remaps else [])

/-- This is `mman_mcore_unlocked`. -/
def mcoreUnlocked (key : KeyType) (mman : MMan) (addr nBytes : Nat) (remaps : List (Option MMan)) :
    Option (List Part) :=
  if nBytes = 0 ∨ mman.mMap .head = none then some []
  else mman.partsOf key addr (Memory.ceilAlign key.bits nBytes) remaps

/-- The part lies in its branch. -/
def Part.Inside (part : Part) : Prop :=
  let found := part.mbranch
  found.mbStart ≤ part.regionBegin ∧
    part.regionBegin + part.regionSize ≤ found.mbStart + (found.mbNode.aVmax + 1 - found.mbNode.aVmin)

/-- The part holds an address. -/
def Part.Holds (address : Nat) (part : Part) : Prop :=
  let start := part.mbranch.mbNode.aVmin + (part.regionBegin - part.mbranch.mbStart)
  start ≤ address ∧ address < start + part.regionSize

/-- Some branch maps the address. -/
def Maps (mman : MMan) (address : Nat) : Prop :=
  ∃ branch ∈ mman.mOrder, Covers mman.ranges address branch

/-- The parts hold exactly the mapped addresses of the range, each once and in its branch. -/
structure CoversOnce (mman : MMan) (addr nBytes : Nat) (parts : List Part) : Prop where
  inside : ∀ part ∈ parts, part.Inside
  once : parts.Pairwise fun first second => ∀ address, first.Holds address → ¬ second.Holds address
  exact : ∀ address, (∃ part ∈ parts, part.Holds address) ↔
    addr ≤ address ∧ address < addr + nBytes ∧ mman.Maps address

/-- Every branch that meets the range contains it. -/
def Contained (mman : MMan) (addr nBytes : Nat) : Prop :=
  ∀ branch ∈ mman.mOrder, mman.overlaps addr (addr + nBytes - 1) branch →
    (mman.branch branch).mbNode.aVmin ≤ addr ∧ addr + nBytes - 1 ≤ (mman.branch branch).mbNode.aVmax

/-- The range is a page, or nothing of it is mapped, or the first `mbranch_mcore` does not remap. -/
def Settled (mman : MMan) (addr nBytes : Nat) (remaps : List (Option MMan)) : Prop :=
  nBytes = pageSize ∨ (∀ address, addr ≤ address → address < addr + nBytes → ¬ mman.Maps address) ∨
    remaps.head?.join = none

/-- No branch leads behind the end of the regions. -/
def RegionsFit (key : KeyType) (mman : MMan) : Prop :=
  ∀ branch ∈ mman.mOrder,
    (mman.branch branch).mbStart + ((mman.ranges branch).aVmax + 1 - (mman.ranges branch).aVmin) ≤
      2 ^ key.bits

/-- A remap keeps the memory manager valid and the same addresses mapped. -/
def Remaps (key : KeyType) (mman : MMan) (remaps : List (Option MMan)) : Prop :=
  ∀ after, some after ∈ remaps → Valid key after ∧ ∀ address, after.Maps address ↔ mman.Maps address

variable {key : KeyType} {mman : MMan} {addr nBytes branch : Nat} {remaps : List (Option MMan)}

section Walk
variable {restart : MMan → List (Option MMan) → Option Passed} {fuel semi level first : Nat}
  {pointer : Option Nat}

/-- What a walk finds, it finds at a node or in one of the subtrees. -/
lemma walkRange_split {addrMax root : Nat} {found : List Nat}
    (walked : mman.walkRange key addr addrMax (fuel + 1) (some root) semi level = some found) :
    ∃ high low,
      mman.walkRange key addr addrMax fuel (if semi ≤ addrMax then mman.mMap (.high root) else none)
        (walkMax key semi level) (nextLevel level) = some high ∧
      mman.walkRange key addr addrMax fuel (if addr < semi then mman.mMap (.low root) else none)
        (walkMin key semi level) (nextLevel level) = some low ∧
      found = if mman.overlaps addr addrMax root then root :: (high ++ low) else high ++ low := by
  obtain ⟨high, highRan, rest⟩ := bind_eq_some_iff.mp walked
  obtain ⟨low, lowRan, same⟩ := map_eq_some_iff.mp rest
  exact ⟨high, low, highRan, lowRan, same.symm⟩

/-- Without a branch in the range nothing is passed on. -/
lemma passParts_nothing (walked : mman.walkRange key addr (before key ((addr + nBytes) % 2 ^ key.bits))
      fuel pointer semi level = some []) (remaps : List (Option MMan)) :
    passParts key addr nBytes restart fuel pointer semi level mman remaps = some ⟨[], mman, remaps⟩ := by
  induction fuel generalizing pointer semi level remaps with
  | zero => exact nomatch walked
  | succ fuel ih =>
    cases pointer with
    | none => rfl
    | some root =>
      obtain ⟨high, low, highRan, lowRan, same⟩ := walkRange_split walked
      split at same
      · cases same
      · next beside =>
          obtain ⟨rfl, rfl⟩ := append_eq_nil_iff.mp same.symm
          rw [passParts]
          simp only [if_neg beside, ih highRan, ih lowRan, bind_some, map_some, append_nil]

/-- The first branch that is found is passed on first, and a remap there starts the walk over. -/
lemma passParts_first {others : List Nat} {result : Passed}
    (walked : mman.walkRange key addr (before key ((addr + nBytes) % 2 ^ key.bits)) fuel pointer semi
      level = some (first :: others))
    (ran : passParts key addr nBytes restart fuel pointer semi level mman remaps = some result) :
    ∃ more, result.parts = mman.partOf key addr nBytes first :: more ∧ ∀ after,
      remaps.head?.join = some after →
      addr + pageSize - 1 ≠ before key ((addr + nBytes) % 2 ^ key.bits) →
        ∃ later, restart after remaps.tail = some later ∧ later.parts <+: more := by
  induction fuel generalizing pointer semi level others result with
  | zero => exact nomatch walked
  | succ fuel ih =>
    cases pointer with
    | none => exact nomatch walked
    | some root =>
      obtain ⟨high, low, highRan, lowRan, same⟩ := walkRange_split walked
      rw [passParts] at ran
      split at same
      · next meets =>
          obtain ⟨rfl, -⟩ := List.cons.inj same
          simp only [if_pos meets] at ran
          obtain ⟨passed, later, rfl⟩ := map_eq_some_iff.mp ran
          refine ⟨passed.parts, rfl, fun after outcome several => ?_⟩
          simp only [outcome, if_neg several] at later
          exact ⟨passed, later, prefix_refl _⟩
      · next beside =>
          simp only [if_neg beside] at ran
          obtain ⟨upper, upperRan, rest⟩ := bind_eq_some_iff.mp ran
          obtain ⟨lower, lowerRan, rfl⟩ := map_eq_some_iff.mp rest
          cases high with
          | nil =>
            rw [passParts_nothing highRan] at upperRan
            obtain rfl := some.inj upperRan
            rw [nil_append] at same
            exact ih (same ▸ lowRan) lowerRan
          | cons head tail =>
            obtain ⟨rfl, -⟩ := List.cons.inj same
            obtain ⟨more, parts, restarts⟩ := ih highRan upperRan
            refine ⟨more ++ lower.parts, by rw [parts, cons_append], fun after outcome several => ?_⟩
            obtain ⟨later, started, front⟩ := restarts after outcome several
            exact ⟨later, started, front.trans (prefix_append _ _)⟩

/-- The only branch of the range is passed on alone if it is not remapped. -/
lemma passParts_single (walked : mman.walkRange key addr (before key ((addr + nBytes) % 2 ^ key.bits))
      fuel pointer semi level = some [first]) (quiet : remaps.head?.join = none) :
    passParts key addr nBytes restart fuel pointer semi level mman remaps =
      some ⟨[mman.partOf key addr nBytes first], mman, remaps.tail⟩ := by
  induction fuel generalizing pointer semi level with
  | zero => exact nomatch walked
  | succ fuel ih =>
    cases pointer with
    | none => exact nomatch walked
    | some root =>
      obtain ⟨high, low, highRan, lowRan, same⟩ := walkRange_split walked
      rw [passParts]
      split at same
      · next meets =>
          obtain ⟨rfl, nothing⟩ := List.cons.inj same
          obtain ⟨rfl, rfl⟩ := append_eq_nil_iff.mp nothing.symm
          simp only [if_pos meets, quiet, passParts_nothing highRan, passParts_nothing lowRan, bind_some,
            map_some, append_nil, Passed.push]
      · next beside =>
          simp only [if_neg beside]
          rcases append_eq_singleton_iff.mp same.symm with ⟨rfl, rfl⟩ | ⟨rfl, rfl⟩
          · rw [passParts_nothing highRan, bind_some]
            dsimp only
            rw [ih lowRan]
            rfl
          · rw [ih highRan, bind_some]
            dsimp only
            rw [passParts_nothing lowRan]
            rfl

lemma passParts_none (enough : 0 < fuel) :
    passParts key addr nBytes restart fuel none semi level mman remaps = some ⟨[], mman, remaps⟩ := by
  obtain _ | more := fuel
  · omega
  · rfl

/-- A subtree without a branch in the range passes nothing on. -/
lemma passParts_beside {shape : Shape} {base size : Nat} (block : Block key base size)
    (holds : Holds mman.mMap pointer shape) (placed : Placed mman.ranges shape base size)
    (center : AtCenter base size semi level) (enough : size < fuel)
    (missing : ∀ node ∈ shape.nodes,
      ¬ mman.overlaps addr (before key ((addr + nBytes) % 2 ^ key.bits)) node) :
    passParts key addr nBytes restart fuel pointer semi level mman remaps =
      some ⟨[], mman, remaps⟩ := by
  obtain ⟨found, walked, perm⟩ := walkRange_perm addr _ block holds placed center enough
  rw [filter_eq_nil_iff.mpr fun node listed overlap =>
    missing node listed (of_decide_eq_true overlap)] at perm
  exact passParts_nothing (perm.eq_nil ▸ walked) remaps

/-- The branch of a page is passed on alone even if it is remapped. -/
lemma passParts_page {shape : Shape} {base size : Nat} {after : MMan}
    (outcome : remaps.head?.join = some after)
    (page : pageSize ∣ addr) (last : before key ((addr + nBytes) % 2 ^ key.bits) = addr + pageSize - 1)
    (aligned : ∀ node ∈ shape.nodes, pageSize ∣ (mman.ranges node).aVmin) (block : Block key base size)
    (holds : Holds mman.mMap pointer shape) (placed : Placed mman.ranges shape base size)
    (center : AtCenter base size semi level) (enough : size < fuel) (mem : first ∈ shape.nodes)
    (meets : mman.overlaps addr (addr + pageSize - 1) first)
    (alone : ∀ node ∈ shape.nodes, mman.overlaps addr (addr + pageSize - 1) node → node = first)
    (distinct : shape.nodes.Nodup) :
    passParts key addr nBytes restart fuel pointer semi level mman remaps =
      some ⟨[mman.partOf key addr nBytes first], after, remaps.tail⟩ := by
  induction shape generalizing base size semi level fuel pointer with
  | leaf => exact nomatch mem
  | node low root high lowPasses highPasses =>
    obtain ⟨half, rfl⟩ := placed.exists_size
    obtain ⟨rfl, rfl⟩ := center half rfl
    obtain _ | turns := fuel
    · omega
    obtain ⟨rfl, lower, upper⟩ := holds
    obtain ⟨_, above, lowPlaced, highPlaced⟩ := placed
    obtain ⟨lowDistinct, restDistinct, apart⟩ := List.nodup_append.mp distinct
    obtain ⟨rootHigh, highDistinct⟩ := List.nodup_cons.mp restDistinct
    rw [nodes_node] at mem alone aligned
    have lowAlone : ∀ node ∈ low.nodes, mman.overlaps addr (addr + pageSize - 1) node → node = first :=
      fun node listed => alone node (by simp [listed])
    have highAlone : ∀ node ∈ high.nodes, mman.overlaps addr (addr + pageSize - 1) node → node = first :=
      fun node listed => alone node (by simp [listed])
    rw [passParts, last]
    by_cases here : mman.overlaps addr (addr + pageSize - 1) root
    · obtain rfl := alone root (by simp) here
      simp only [if_pos here, outcome, if_true, map_some, Passed.push]
    simp only [if_neg here]
    have notRoot : first ≠ root := fun same => here (same ▸ meets)
    rcases mem_append.mp mem with inLow | inHigh
    · have missing : ∀ node ∈ high.nodes, ¬ mman.overlaps addr (addr + pageSize - 1) node := by
        intro node listed overlap
        obtain rfl := highAlone node listed overlap
        exact apart _ inLow _ (mem_cons_of_mem _ listed) rfl
      have less : addr < base + 2 ^ level := meets.1.trans_lt (lowPlaced.inside first inLow).2.2
      have nothing : passParts key addr nBytes restart turns
          (if base + 2 ^ level ≤ addr + pageSize - 1 then mman.mMap (.high root) else none)
          (walkMax key (base + 2 ^ level) level) (nextLevel level) mman remaps =
            some ⟨[], mman, remaps⟩ := by
        by_cases reaches : base + 2 ^ level ≤ addr + pageSize - 1
        · rw [if_pos reaches]
          exact passParts_beside block.high upper highPlaced (AtCenter.high block) (by omega)
            (last ▸ missing)
        · rw [if_neg reaches]
          exact passParts_none (by omega)
      rw [nothing, bind_some]
      dsimp only
      rw [if_pos less, lowPasses (fun node listed => aligned node (by simp [listed])) block.low lower
        lowPlaced (AtCenter.low block) (by omega) inLow lowAlone lowDistinct]
      rfl
    · have inHigh := (mem_cons.mp inHigh).resolve_left notRoot
      have begins := above first inHigh
      have ends : (mman.ranges first).aVmin ≤ addr + pageSize - 1 := meets.2
      have reaches : base + 2 ^ level ≤ addr + pageSize - 1 := by omega
      -- No branch begins inside of the page.
      have notLess : ¬ addr < base + 2 ^ level := by
        have begin := aligned first mem
        unfold pageSize at *
        omega
      rw [if_pos reaches, highPasses (fun node listed => aligned node (by simp [listed]))
        block.high upper
        highPlaced (AtCenter.high block) (by omega) inHigh highAlone highDistinct,
          bind_some, if_neg notLess, passParts_none (by omega)]
      rfl

end Walk

section Parts

/-- A part lies in its branch exactly if the branch contains the range. -/
lemma partOf_inside (valid : Valid key mman) (regions : mman.RegionsFit key) (positive : 0 < nBytes)
    (mem : branch ∈ mman.mOrder) (meets : mman.overlaps addr (addr + nBytes - 1) branch) :
    ((mman.partOf key addr nBytes branch).Inside ↔
      (mman.ranges branch).aVmin ≤ addr ∧ addr + nBytes - 1 ≤ (mman.ranges branch).aVmax) ∧
    ((mman.ranges branch).aVmin ≤ addr → ∀ address,
      ((mman.partOf key addr nBytes branch).Holds address ↔ addr ≤ address ∧
        address < addr + nBytes)) := by
  obtain ⟨_, _, filled, word⟩ := valid.aligned branch mem
  have region := regions branch mem
  obtain ⟨low, high⟩ := meets
  simp only [Part.Inside, Part.Holds, partOf, ranges] at region ⊢
  generalize (mman.branch branch).mbNode.aVmin = vmin at *
  generalize (mman.branch branch).mbStart = start at *
  rcases lt_or_ge (start + (addr + 2 ^ key.bits - vmin)) (2 ^ key.bits) with small | large
  · rw [mod_eq_of_lt small]
    exact ⟨by omega, fun lower address => by omega⟩
  · rw [mod_eq_sub_mod large, mod_eq_of_lt (by omega)]
    exact ⟨by omega, fun lower address => by omega⟩

/-- Behind a part that holds the whole range there is no other one. -/
lemma CoversOnce.alone {part other : Part} {more : List Part}
    (covers : mman.CoversOnce addr nBytes (part :: more))
    (whole : ∀ address, addr ≤ address ∧ address < addr + nBytes → part.Holds address)
    (positive : 0 < other.regionSize) : other ∉ more := by
  intro listed
  have held : other.Holds _ := ⟨le_rfl, Nat.lt_add_of_pos_right positive⟩
  obtain ⟨above, below, _⟩ := (covers.exact _).mp ⟨_, mem_cons_of_mem _ listed, held⟩
  exact (pairwise_cons.mp covers.once).1 _ listed _ (whole _ ⟨above, below⟩) held

section
variable (valid : Valid key mman) (regions : mman.RegionsFit key) (positive : 0 < nBytes)
include valid positive

/-- A walk from the root passes on a part if the first address is mapped. -/
lemma passFrom_first {turns : Nat} {passed : Passed} (range : PageRange key addr nBytes)
    (mapped : mman.Maps addr) (ran : passFrom key addr nBytes turns mman remaps = some passed) :
    ∃ first more, passed.parts = mman.partOf key addr nBytes first :: more := by
  obtain ⟨found, walked, perm⟩ := valid.walkAll addr (addr + nBytes - 1)
  rw [MMan.walkAll, ← last_eq positive range.within] at walked
  obtain _ | turns := turns
  · cases ran
  cases found with
  | nil =>
    obtain ⟨branch, mem, covers⟩ := mapped
    have overlap : mman.overlaps addr (addr + nBytes - 1) branch :=
      ⟨covers.2, covers.1.trans (by omega)⟩
    cases perm.mem_iff.mpr (mem_filter.mpr ⟨mem, decide_eq_true overlap⟩)
  | cons first others =>
    obtain ⟨more, parts, _⟩ := passParts_first walked ran
    exact ⟨first, more, parts⟩

/-- A range in one branch meets no other one. -/
lemma contained_of_first {first : Nat} (mem : first ∈ mman.mOrder)
    (low : (mman.ranges first).aVmin ≤ addr)
    (high : addr + nBytes - 1 ≤ (mman.ranges first).aVmax) :
    mman.Contained addr nBytes ∧ ∀ other ∈ mman.mOrder,
      mman.overlaps addr (addr + nBytes - 1) other → other = first := by
  have alone : ∀ other ∈ mman.mOrder, mman.overlaps addr (addr + nBytes - 1) other → other = first := by
    intro other otherMem meets
    have filled : (mman.ranges other).aVmin ≤ (mman.ranges other).aVmax :=
      (valid.aligned other otherMem).2.2.1
    have starts : addr ≤ (mman.ranges other).aVmax := meets.1
    have ends : (mman.ranges other).aVmin ≤ addr + nBytes - 1 := meets.2
    exact valid.separated.apart.eq_of_covers otherMem mem ⟨le_max_right addr _, max_le starts filled⟩
      ⟨low.trans (le_max_left _ _), max_le (by omega) (by omega)⟩
  refine ⟨fun other otherMem meets => ?_, alone⟩
  rw [alone other otherMem meets]
  exact ⟨low, high⟩

include regions

/-- The part of the only branch of the range covers it. -/
lemma coversOnce_single {first : Nat} (mem : first ∈ mman.mOrder)
    (low : (mman.ranges first).aVmin ≤ addr)
    (high : addr + nBytes - 1 ≤ (mman.ranges first).aVmax) :
    mman.CoversOnce addr nBytes [mman.partOf key addr nBytes first] := by
  have meets : mman.overlaps addr (addr + nBytes - 1) first :=
    ⟨(by omega : addr ≤ addr + nBytes - 1).trans high, low.trans (by omega)⟩
  obtain ⟨inside, holds⟩ := partOf_inside valid regions positive mem meets
  refine ⟨by simpa using inside.mpr ⟨low, high⟩, pairwise_singleton _ _, fun address => ?_⟩
  simp only [mem_singleton, exists_eq_left, holds low]
  constructor
  · rintro ⟨above, below⟩
    exact ⟨above, below, first, mem, low.trans above,
      (by omega : address ≤ addr + nBytes - 1).trans high⟩
  · exact fun ⟨above, below, _⟩ => ⟨above, below⟩

end

/-- The walk covers the range exactly if one branch contains it and is not remapped. -/
lemma Valid.partsOf_iff (valid : Valid key mman) (regions : mman.RegionsFit key) (positive : 0 < nBytes)
    (range : PageRange key addr nBytes) (remapped : Remaps key mman remaps) :
    (∃ parts, mman.partsOf key addr nBytes remaps = some parts ∧ mman.CoversOnce addr nBytes parts) ↔
      mman.Contained addr nBytes ∧ mman.Settled addr nBytes remaps := by
  have last := last_eq positive range.within
  obtain ⟨found, walked, perm⟩ := valid.walkAll addr (addr + nBytes - 1)
  have visited : ∀ branch, branch ∈ found ↔ branch ∈ mman.mOrder ∧
    mman.overlaps addr (addr + nBytes - 1) branch := by
    simp [perm.mem_iff]
  rw [MMan.walkAll, ← last] at walked
  rw [partsOf, passFrom]
  cases found with
  | nil =>
    have missing : ∀ branch ∈ mman.mOrder, ¬ mman.overlaps addr (addr + nBytes - 1) branch :=
      fun branch mem meets => not_mem_nil ((visited branch).mpr ⟨mem, meets⟩)
    have unmapped : ∀ address, addr ≤ address → address < addr + nBytes → ¬ mman.Maps address := by
      rintro address above below ⟨branch, mem, covers⟩
      exact missing branch mem ⟨above.trans covers.2, covers.1.trans (by omega)⟩
    rw [passParts_nothing walked]
    refine iff_of_true ⟨[], rfl, by simp, .nil, fun address => ?_⟩
      ⟨fun branch mem meets => absurd meets (missing branch mem), .inr (.inl unmapped)⟩
    simpa using unmapped address
  | cons first others =>
    obtain ⟨mem, meets⟩ := (visited first).mp mem_cons_self
    obtain ⟨inside, holds⟩ := partOf_inside valid regions positive mem meets
    constructor
    · rintro ⟨parts, ran, covers⟩
      obtain ⟨passed, reached, rfl⟩ := map_eq_some_iff.mp ran
      obtain ⟨more, parts, restarts⟩ := passParts_first walked reached
      rw [parts] at covers
      obtain ⟨low, high⟩ := inside.mp (covers.inside _ mem_cons_self)
      refine ⟨(contained_of_first valid positive mem low high).1, ?_⟩
      by_contra unsettled
      simp only [Settled, not_or] at unsettled
      obtain ⟨several, _, remap⟩ := unsettled
      obtain ⟨after, outcome⟩ := ne_none_iff_exists'.mp remap
      obtain ⟨later, started, front⟩ :=
        restarts after outcome (by rw [last]; unfold pageSize at *; omega)
      -- The walk through the remapped branches passes on a part of the same range again.
      obtain ⟨afterValid, same⟩ := remapped after (mem_of_head? (join_eq_some_iff.mp outcome))
      obtain ⟨again, _, partsAgain⟩ :=
        passFrom_first afterValid positive range ((same addr).mpr ⟨first, mem, low, meets.1⟩) started
      have listed : after.partOf key addr nBytes again ∈ more :=
        front.subset (partsAgain ▸ mem_cons_self)
      exact covers.alone (fun address => (holds low address).mpr) positive listed
    · rintro ⟨contained, settled⟩
      obtain ⟨low, high⟩ := contained first mem meets
      have alone := (contained_of_first valid positive mem low high).2
      have distinct : (first :: others).Nodup := perm.nodup_iff.mpr (valid.stored.nodup.filter _)
      obtain rfl : others = [] := by
        refine eq_nil_iff_forall_not_mem.mpr fun other listed => (nodup_cons.mp distinct).1 ?_
        obtain ⟨otherMem, overlap⟩ := (visited other).mp (mem_cons_of_mem _ listed)
        exact alone other otherMem overlap ▸ listed
      refine ⟨_, ?_, coversOnce_single valid regions positive mem low high⟩
      by_cases quiet : remaps.head?.join = none
      · rw [passParts_single walked quiet]
        rfl
      obtain ⟨after, outcome⟩ := ne_none_iff_exists'.mp quiet
      have page : nBytes = pageSize := by
        rcases settled with page | unmapped | none
        · exact page
        · exact absurd ⟨first, mem, low, meets.1⟩ (unmapped addr le_rfl (by omega))
        · exact absurd none quiet
      obtain ⟨shape, rooted, members⟩ := valid.stored
      rw [passParts_page outcome range.addrPage (by rw [last, page])
        (fun node listed => (valid.aligned node (members.mem_iff.mp listed)).1)
          (block_root key) rooted.holds
        rooted.placed (atCenter_root key) (lt_succ_self _) (members.mem_iff.mpr mem) (page ▸ meets)
        (fun node listed overlap => alone node (members.mem_iff.mp listed) (page ▸ overlap))
          rooted.nodup]
      rfl

end Parts

lemma neighbours_fit : RegionsFit uintptr32 (neighbours 7 7) := by
  simp [RegionsFit, neighbours, ranges, uintptr32]

end KosKernel.Mman.MMan
