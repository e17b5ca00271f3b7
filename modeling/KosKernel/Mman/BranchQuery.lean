/- The walks of `kernel/mman/mman.c` that look for the branches of a range. -/

import KosKernel.Mman.BranchRuns
import KosKernel.Mman.BranchView

namespace KosKernel.Mman.MMan
open LinkTree List Option Nat Hybrid ATree

/-- The branches that a walk over a range finds. It goes into the upper subtree first. -/
def walkRange (key : KeyType) (mman : MMan) (addrMin addrMax : Nat) : Nat → Option Nat → Nat → Nat →
    Option (List Nat)
  | 0, _, _, _ => none
  | _ + 1, none, _, _ => some []
  | fuel + 1, some branch, semi, level =>
    let aMax := if semi ≤ addrMax then mman.mMap (.high branch) else none
    let aMin := if addrMin < semi then mman.mMap (.low branch) else none
    (walkRange key mman addrMin addrMax fuel aMax (walkMax key semi level) (nextLevel level)).bind
      fun high =>
      (walkRange key mman addrMin addrMax fuel aMin (walkMin key semi level) (nextLevel level)).map
        fun low =>
        if mman.overlaps addrMin addrMax branch then branch :: (high ++ low) else high ++ low

/-- The walk from the root. -/
def walkAll (key : KeyType) (mman : MMan) (addrMin addrMax : Nat) : Option (List Nat) :=
  mman.walkRange key addrMin addrMax (key.bits + 1) (mman.mMap .head) (semi0 key) (level0 key)

/-- This is `mman_findany` from the root. -/
def findany (key : KeyType) (mman : MMan) (addrMin addrMax : Nat) : Option (Option Nat) :=
  (mman.walkAll key addrMin addrMax).map List.head?

/-- This is `mman_inuse_unlocked`. -/
def inuseUnlocked (key : KeyType) (mman : MMan) (start nBytes : Nat) : Option Bool :=
  if mman.mMap .head = none then some false
  else (mman.findany key start (before key ((start + nBytes) % 2 ^ key.bits))).map Option.isSome

/-- The loop of `mman_valid_unlocked` along the list. -/
def validFrom (key : KeyType) (mman : MMan) (validEnd : Nat) (mask prot : BitVec 32) : List Nat → Bool
  | [] => false
  | iter :: rest =>
    if (mman.branch iter).mbProt &&& mask ≠ prot then false
    else if validEnd ≤ (mman.branch iter).mbNode.aVmax then true
    else if ∀ next ∈ rest.head?, (mman.branch next).mbNode.aVmin ≠
      ((mman.branch iter).mbNode.aVmax + 1) % 2 ^ key.bits then false
    else validFrom key mman validEnd mask prot rest

/-- This is `mman_valid_unlocked`. -/
def validUnlocked (key : KeyType) (mman : MMan) (start nBytes : Nat) (mask prot : BitVec 32) :
    Option Bool :=
  let validEnd := (start + nBytes) % 2 ^ key.bits
  if mman.mMap .head = none ∨ validEnd ≤ start then some false
  else (locate key mman.ranges mman.mMap start).map fun found =>
    found.any fun iter => validFrom key mman (validEnd - 1) mask prot (mman.mOrder.dropWhile (· != iter))

variable {key : KeyType} {mman : MMan}

/-- The walk finds each branch of the range once. -/
lemma walkRange_perm (addrMin addrMax : Nat) {shape : Shape} {base size semi level fuel : Nat}
    {pointer : Option Nat} (block : Block key base size)
    (holds : Holds mman.mMap pointer shape) (placed : Placed mman.ranges shape base size)
    (center : AtCenter base size semi level) (enough : size < fuel) :
    ∃ found, mman.walkRange key addrMin addrMax fuel pointer semi level = some found ∧
      found.Perm (shape.nodes.filter (mman.overlaps addrMin addrMax ·)) := by
  induction shape generalizing base size semi level fuel pointer with
  | leaf =>
    obtain _ | turns := fuel
    · omega
    rw [show pointer = none from holds]
    exact ⟨[], rfl, List.Perm.refl _⟩
  | node low root high lowFinds highFinds =>
    obtain ⟨rest, rfl⟩ := placed.exists_size
    obtain ⟨rfl, rfl⟩ := center rest rfl
    obtain _ | turns := fuel
    · omega
    obtain ⟨rfl, lower, upper⟩ := holds
    obtain ⟨_, above, lowPlaced, highPlaced⟩ := placed
    have visit : ∀ (walks : Prop) [Decidable walks] (child : Shape) (slot : Slot) (center : Nat),
        (∃ found, mman.walkRange key addrMin addrMax turns (mman.mMap slot) center
          (nextLevel level) = some found ∧
          found.Perm (child.nodes.filter (mman.overlaps addrMin addrMax ·))) →
        (∀ branch ∈ child.nodes, mman.overlaps addrMin addrMax branch → walks) →
        ∃ found, mman.walkRange key addrMin addrMax turns (if walks then mman.mMap slot else none)
          center (nextLevel level) =
          some found ∧ found.Perm (child.nodes.filter (mman.overlaps addrMin addrMax ·)) := by
      intro walks _ child slot center visited needed
      by_cases goes : walks
      · rwa [if_pos goes]
      obtain _ | more := turns
      · omega
      have none : child.nodes.filter (mman.overlaps addrMin addrMax ·) = [] :=
        filter_eq_nil_iff.mpr fun branch mem overlap =>
          goes (needed branch mem (of_decide_eq_true overlap))
      rw [if_neg goes, none]
      exact ⟨[], rfl, List.Perm.refl _⟩
    obtain ⟨highFound, highRan, highPerm⟩ := visit (base + 2 ^ level ≤ addrMax) high (.high root) _
      (highFinds block.high upper highPlaced (AtCenter.high block) (by omega)) fun branch mem overlap =>
        ((above branch mem).trans_le overlap.2).le
    obtain ⟨lowFound, lowRan, lowPerm⟩ := visit (addrMin < base + 2 ^ level) low (.low root) _
      (lowFinds block.low lower lowPlaced (AtCenter.low block) (by omega)) fun branch mem overlap =>
        overlap.1.trans_lt (lowPlaced.inside branch mem).2.2
    have swapped := perm_append_comm.trans (lowPerm.append highPerm)
    refine ⟨_, by rw [walkRange, highRan, bind_some, lowRan, map_some], ?_⟩
    rw [nodes_node, filter_append, filter_cons]
    by_cases here : mman.overlaps addrMin addrMax root
    · rw [if_pos here, if_pos (decide_eq_true here)]
      exact (swapped.cons root).trans perm_middle.symm
    · rw [if_neg here, if_neg (by simpa using here)]
      exact swapped

/-- The walk from the root finds the branches of the range. -/
lemma Valid.walkAll (valid : Valid key mman) (addrMin addrMax : Nat) :
    ∃ found, mman.walkAll key addrMin addrMax = some found ∧
    found.Perm (mman.mOrder.filter (mman.overlaps addrMin addrMax ·)) := by
  obtain ⟨shape, rooted, members⟩ := valid.stored
  obtain ⟨found, walked, perm⟩ :=
    walkRange_perm addrMin addrMax (block_root key) rooted.holds rooted.placed
    (atCenter_root key) (lt_succ_self _)
  exact ⟨found, walked, perm.trans (members.filter _)⟩

variable {start nBytes : Nat}

/-- The last address of a range. -/
lemma last_eq (positive : 0 < nBytes) (within : start + nBytes ≤ 2 ^ key.bits) :
    before key ((start + nBytes) % 2 ^ key.bits) = start + nBytes - 1 := by
  rcases within.lt_or_eq with below | ends
  · rw [mod_eq_of_lt below, before_eq (by omega) below]
  · rw [ends, mod_self, before_zero]

/-- Every byte of a range is mapped with the protection. -/
def AllMapped (mman : MMan) (start nBytes : Nat) (mask prot : BitVec 32) : Prop :=
  ∀ address, start ≤ address → address < start + nBytes →
    ∃ branch ∈ mman.mOrder, Covers mman.ranges address branch ∧
      (mman.branch branch).mbProt &&& mask = prot

/-- Some byte of a range is mapped. -/
def SomeMapped (mman : MMan) (start nBytes : Nat) : Prop :=
  ∃ address, start ≤ address ∧ address < start + nBytes ∧ ∃ branch ∈ mman.mOrder,
    Covers mman.ranges address branch

/-- Both questions about a range are answered, and the answers agree with the map. -/
def QueriesAgree (key : KeyType) (mman : MMan) (start nBytes : Nat) (mask prot : BitVec 32) : Prop :=
  (∃ answer, mman.validUnlocked key start nBytes mask prot = some answer ∧
    (answer = true ↔ mman.AllMapped start nBytes mask prot)) ∧
    ∃ answer, mman.inuseUnlocked key start nBytes = some answer ∧
      (answer = true ↔ mman.SomeMapped start nBytes)

/-- The loop along the list accepts exactly the ranges that are mapped without a gap. -/
lemma validFrom_iff {start validEnd : Nat} {order : List Nat} {mask prot : BitVec 32}
    (small : validEnd < 2 ^ key.bits) (ascending : order.Pairwise (Precedes mman.branch))
    (filled : ∀ branch ∈ order, (mman.ranges branch).aVmin ≤ (mman.ranges branch).aVmax)
    (covered : ∃ iter ∈ order.head?, Covers mman.ranges start iter) (nonempty : start ≤ validEnd) :
    validFrom key mman validEnd mask prot order = true ↔ ∀ address, start ≤ address →
    address ≤ validEnd →
      ∃ branch ∈ order, Covers mman.ranges address branch ∧
      (mman.branch branch).mbProt &&& mask = prot := by
  induction order generalizing start with
  | nil => simp at covered
  | cons iter rest ih =>
    obtain ⟨_, ⟨⟩, lower, upper⟩ := covered
    obtain ⟨behind, later⟩ := pairwise_cons.mp ascending
    -- An address behind the first branch is covered by a later one.
    have beyond : ∀ address branch, branch ∈ iter :: rest → Covers mman.ranges address branch →
        (mman.ranges iter).aVmax < address → branch ∈ rest := by
      rintro address branch mem ⟨_, below⟩ above
      rcases mem_cons.mp mem with rfl | mem
      · omega
      · exact mem
    have early : ∀ branch ∈ iter :: rest, Covers mman.ranges start branch → branch = iter := by
      rintro branch mem ⟨above, _⟩
      rcases mem_cons.mp mem with same | mem
      · exact same
      · have : (mman.ranges iter).aVmax < (mman.ranges branch).aVmin := behind branch mem
        omega
    rw [validFrom]
    split_ifs with bad reached gap
    · refine iff_of_false id fun all => ?_
      obtain ⟨branch, mem, covers, good⟩ := all start le_rfl nonempty
      exact bad (early branch mem covers ▸ good)
    · exact iff_of_true rfl fun address above below =>
        ⟨iter, by simp, ⟨lower.trans above, below.trans reached⟩, not_not.mp bad⟩
    all_goals
      have ends : (mman.ranges iter).aVmax < validEnd := not_le.mp reached
      rw [mod_eq_of_lt (by omega)] at gap
    · refine iff_of_false id fun all => ?_
      obtain ⟨branch, mem, covers, _⟩ := all ((mman.ranges iter).aVmax + 1) (by omega) (by omega)
      cases rest with
      | nil => simpa using beyond _ branch mem covers (by omega)
      | cons next others =>
        have apart : (mman.ranges next).aVmin ≠ (mman.ranges iter).aVmax + 1 := gap next rfl
        have above : (mman.ranges iter).aVmax < (mman.ranges next).aVmin := behind next (by simp)
        have size := filled next (by simp)
        have low := covers.1
        rcases mem_cons.mp (beyond _ branch mem covers (by omega)) with rfl | mem
        · omega
        · have : (mman.ranges next).aVmax < (mman.ranges branch).aVmin :=
            (pairwise_cons.mp later).1 branch mem
          omega
    · simp only [not_forall, not_not] at gap
      obtain ⟨next, first, adjacent⟩ := gap
      have adjacent : (mman.ranges next).aVmin = (mman.ranges iter).aVmax + 1 := adjacent
      have size := filled next (mem_cons_of_mem _ (mem_of_mem_head? first))
      rw [ih later (fun branch mem => filled branch (mem_cons_of_mem _ mem)) ⟨next, first, le_rfl,
        size⟩ (by omega)]
      refine ⟨fun all address above below => ?_, fun all address above below => ?_⟩
      · by_cases here : address ≤ (mman.ranges iter).aVmax
        · exact ⟨iter, by simp, ⟨lower.trans above, here⟩, not_not.mp bad⟩
        · obtain ⟨branch, mem, found⟩ := all address (by omega) below
          exact ⟨branch, mem_cons_of_mem _ mem, found⟩
      · obtain ⟨branch, mem, covers, good⟩ := all address (by omega) below
        exact ⟨branch, beyond address branch mem covers (by omega), covers, good⟩

/-- A range that ends below the last address is answered right. -/
lemma Valid.validUnlocked (valid : Valid key mman) (mask prot : BitVec 32) (positive : 0 < nBytes)
    (below : start + nBytes < 2 ^ key.bits) :
      ∃ answer, mman.validUnlocked key start nBytes mask prot = some answer ∧
      (answer = true ↔ mman.AllMapped start nBytes mask prot) := by
  obtain ⟨found, located, exactly⟩ := valid.stored.locate valid.separated start
  have filled : ∀ branch ∈ mman.mOrder, (mman.ranges branch).aVmin ≤ (mman.ranges branch).aVmax :=
    fun branch mem => (valid.aligned branch mem).2.2.1
  rw [MMan.validUnlocked, mod_eq_of_lt below, located]
  cases found with
  | none =>
    have missing : ¬ mman.AllMapped start nBytes mask prot := fun all => by
      obtain ⟨branch, mem, covers, _⟩ := all start le_rfl (by omega)
      simpa using (exactly branch).mpr ⟨mem, covers⟩
    exact ⟨false, by split <;> rfl, by simpa using missing⟩
  | some iter =>
    obtain ⟨mem, covers⟩ := (exactly iter).mp rfl
    obtain ⟨front, rest, order, absent⟩ := eq_append_cons_of_mem mem
    have ascending := valid.ascending
    rw [order] at ascending
    obtain ⟨_, behind, early⟩ := pairwise_append.mp ascending
    have root : mman.mMap .head ≠ none := fun null => by
      rw [locate, null] at located
      cases located
    have dropped : mman.mOrder.dropWhile (· != iter) = iter :: rest := by
      rw [order, dropWhile_append_of_pos, dropWhile_cons_of_neg (by simp)]
      exact fun other listed => bne_iff_ne.mpr (ne_of_mem_of_not_mem listed absent)
    refine ⟨_, by rw [if_neg (by simp [root]; omega), map_some, any_some, dropped], ?_⟩
    rw [validFrom_iff (by omega) behind
      (fun branch listed => filled branch (by rw [order]; simp [listed]))
      ⟨iter, rfl, covers⟩ (by omega), AllMapped, order]
    refine forall_congr' fun address => forall_congr' fun above => imp_congr (by omega) ⟨?_, ?_⟩
    · rintro ⟨branch, listed, found⟩
      exact ⟨branch, mem_append_right _ listed, found⟩
    · rintro ⟨branch, listed, reaches, good⟩
      refine ⟨branch, (mem_append.mp listed).resolve_left fun before => ?_, reaches, good⟩
      have less : (mman.ranges branch).aVmax < (mman.ranges iter).aVmin :=
        early branch before iter (by simp)
      have lower := covers.1
      have upper := reaches.2
      omega

/-- The search for any branch of the range answers right. -/
lemma Valid.inuseUnlocked (valid : Valid key mman) (positive : 0 < nBytes)
    (within : start + nBytes ≤ 2 ^ key.bits) :
    ∃ answer, mman.inuseUnlocked key start nBytes = some answer ∧
    (answer = true ↔ mman.SomeMapped start nBytes) := by
  obtain ⟨found, walked, perm⟩ := valid.walkAll start (start + nBytes - 1)
  rw [MMan.inuseUnlocked, findany, last_eq positive within, walked]
  have some : found.head?.isSome = true ↔ mman.SomeMapped start nBytes := by
    constructor
    · intro nonempty
      obtain ⟨branch, first⟩ := isSome_iff_exists.mp nonempty
      obtain ⟨mem, meets⟩ := mem_filter.mp (perm.mem_iff.mp (mem_of_mem_head? first))
      obtain ⟨low, high⟩ := of_decide_eq_true meets
      have filled := (valid.aligned branch mem).2.2.1
      exact ⟨max start (mman.branch branch).mbNode.aVmin, le_max_left _ _,
        max_lt (by omega) (by omega), branch, mem, le_max_right _ _, max_le low filled⟩
    · rintro ⟨address, above, below, branch, mem, covers⟩
      have meets : mman.overlaps start (start + nBytes - 1) branch :=
        ⟨above.trans covers.2, covers.1.trans (by omega)⟩
      have listed : branch ∈ found := perm.mem_iff.mpr (mem_filter.mpr ⟨mem, decide_eq_true meets⟩)
      cases found with
      | nil => cases listed
      | cons first rest => rfl
  by_cases null : mman.mMap .head = none
  · rw [if_pos null]
    rw [MMan.walkAll, null] at walked
    obtain rfl : [] = found := Option.some.inj walked
    exact ⟨false, rfl, some⟩
  · rw [if_neg null]
    exact ⟨_, rfl, some⟩

/-- The last page of the address space is mapped. -/
def lastPage : MMan :=
  ⟨fun slot => if slot = .head then some 10 else none, [10],
    fun _ => ⟨⟨0xfffff000, 0xffffffff⟩, 3, 0, 7, 0, 0⟩, fun _ => 1⟩

end KosKernel.Mman.MMan
