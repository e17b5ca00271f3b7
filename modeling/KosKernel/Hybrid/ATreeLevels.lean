import KosKernel.Hybrid.ATreeStored

namespace KosKernel.Hybrid.ATree
open LinkTree List
variable {key : KeyType} {range : Ranges}

/-- The nodes are inserted one after the other. -/
def insertAll (key : KeyType) (range : Ranges) : Cells → List Nat → Except Stop Cells
  | cells, [] => .ok cells
  | cells, newleaf :: order =>
    (insertRoot key range cells newleaf).bind fun after => insertAll key range after order

/-- This is the check at which a run stopped. -/
def stopped : Except Stop Cells → Option Stop
  | .error stop => some stop
  | .ok _ => none

lemma insertAll_append (cells : Cells) (first second : List Nat) :
    insertAll key range cells (first ++ second) =
    (insertAll key range cells first).bind fun middle => insertAll key range middle second := by
  induction first generalizing cells with
  | nil => rfl
  | cons newleaf order ih =>
    rw [cons_append, insertAll, insertAll]
    cases insertRoot key range cells newleaf with
    | error stop => rfl
    | ok after => exact ih after

variable {cells : Cells} {nodes : List Nat} {newleaf base size : Nat}

/-- Nodes that do not crowd the tree pass all checks in their order. -/
lemma insertAll_roomy {done order : List Nat} (stored : Stored key range cells done)
    (distinct : (done ++ order).Nodup) (roomy : Roomy range 0 key.bits (done ++ order))
    (inside : ∀ node ∈ order, Inside range 0 key.bits node) :
      ∃ after, insertAll key range cells order = .ok after := by
  induction order generalizing cells done with
  | nil => exact ⟨cells, rfl⟩
  | cons newleaf order ih =>
    have moved : (done ++ newleaf :: order).Perm ((newleaf :: done) ++ order) := perm_middle
    have movedDistinct := moved.nodup_iff.mp distinct
    have new : newleaf ∉ done := fun mem => (nodup_cons.mp movedDistinct).1 (mem_append_left _ mem)
    obtain ⟨after, accepted, afterStored⟩ := stored.accept new
      (roomy.mono fun node mem => moved.mem_iff.mpr (mem_append_left _ mem)) (inside newleaf (by simp))
    obtain ⟨final, rest⟩ := ih afterStored movedDistinct
      (roomy.mono fun _ => moved.mem_iff.mpr)
      fun node mem => inside node (mem_cons_of_mem _ mem)
    refine ⟨final, ?_⟩
    rw [insertAll, accepted, ok_bind, rest]

/-- Each node stands below the one before it on the lower side. -/
def spine : List Nat → Shape
  | [] => .leaf
  | node :: rest => .node (spine rest) node .leaf

/-- Each node lies in the lower half of the block of the one before it. -/
def Stacked (range : Ranges) (base : Nat) : Nat → List Nat → Prop
  | _, [] => True
  | size, node :: rest => Inside range base size node ∧ Stacked range base (size - 1) rest

section
variable {stack : List Nat} {proot : Slot} (block : Block key base (size + 1))
  (rooted : Rooted range cells proot base (size + 1) (spine stack))
include block rooted

/-- A node of the next lower half extends a spine at its end. -/
lemma insertChecked_spine (new : newleaf ∉ stack) (away : proot.Outside [newleaf])
    (short : stack.length ≤ size)
    (inside : Inside range base (size + 1 - stack.length) newleaf) {fuel : Nat}
    (enough : stack.length < fuel) :
    ∃ after, insertChecked key range fuel proot newleaf (base + 2 ^ size) size cells = .ok after ∧
      Updated range cells after proot base (size + 1) (newleaf :: (spine stack).nodes)
        (spine (stack ++ [newleaf])) := by
  obtain _ | turns := fuel
  · omega
  induction stack generalizing size proot turns with
  | nil =>
    refine ⟨_, ?_, attach_updated cells away inside⟩
    rw [insertChecked, show cells proot = none from rooted.holds]
    rfl
  | cons node rest ih =>
    rw [length_cons] at short inside enough
    obtain _ | half := size
    · omega
    obtain _ | more := turns
    · omega
    obtain ⟨notNode, notRest⟩ := not_or.mp (mt mem_cons.mpr new)
    have narrow : 2 ^ (half + 1 + 1 - (rest.length + 1)) ≤ 2 ^ (half + 1) :=
      Nat.pow_le_pow_right (by decide) (by omega)
    have less : (range newleaf).aVmax < base + 2 ^ (half + 1) := lt_of_lt_of_le inside.2.2 (by omega)
    have beside : ¬ ((range newleaf).aVmin ≤ base + 2 ^ (half + 1) ∧
      base + 2 ^ (half + 1) ≤ (range newleaf).aVmax) := by
      omega
    have lower : Rooted range cells (.low node) base (half + 1) (spine rest) := rooted.low
    obtain ⟨after, done, updated⟩ :=
      ih block.low lower notRest (outside_low (by simpa using Ne.symm notNode))
      (by omega) (by rwa [show half + 1 - rest.length = half + 1 + 1 - (rest.length + 1) by omega])
        more (by omega)
    refine ⟨after, ?_, ?_⟩
    · rw [insertChecked, rooted.holds.1]
      simp only [if_neg (Nat.succ_ne_zero half), if_neg beside, if_pos less, walkMin_center block,
        nextLevel_succ block, done]
    · apply rooted.replace_low updated
      · exact forall_mem_cons.mpr ⟨by simpa using notNode, rooted.low_fresh⟩
      · exact forall_mem_cons.mpr ⟨away _ (by simp), rooted.low_away⟩

/-- A spine over all levels stops a node of the lowest position on level zero. -/
lemma insertChecked_full (full : stack.length = size + 1)
    (lowest : (range newleaf).aVmax ≤ base + 1) {fuel : Nat} (enough : size < fuel) :
    insertChecked key range fuel proot newleaf (base + 2 ^ size) size cells = .error .levelZero := by
  obtain _ | turns := fuel
  · omega
  induction size generalizing stack proot turns with
  | zero =>
    obtain ⟨node, rfl⟩ := length_eq_one_iff.mp full
    rw [insertChecked, rooted.holds.1]
    rfl
  | succ half ih =>
    obtain ⟨node, rest, rfl⟩ := exists_cons_of_length_eq_add_one full
    obtain _ | more := turns
    · omega
    have wide : 2 ^ 1 ≤ 2 ^ (half + 1) := Nat.pow_le_pow_right (by decide) (by omega)
    have less : (range newleaf).aVmax < base + 2 ^ (half + 1) := by omega
    have beside : ¬ ((range newleaf).aVmin ≤ base + 2 ^ (half + 1) ∧
      base + 2 ^ (half + 1) ≤ (range newleaf).aVmax) := by
      omega
    have lower : Rooted range cells (.low node) base (half + 1) (spine rest) := rooted.low
    have stops := ih block.low lower (Nat.succ.inj full) more (by omega)
    rw [insertChecked, rooted.holds.1]
    simp only [if_neg (Nat.succ_ne_zero half), if_neg beside, if_pos less, walkMin_center block,
      nextLevel_succ block, stops]

end

/-- A crowded block has nodes that stack up above the lowest one. -/
lemma exists_stack {lowest next : Nat} (lowestMem : lowest ∈ nodes)
    (lowestRange : range lowest = ⟨base, base⟩) (nextRange : range next = ⟨base + 1, base + 1⟩)
    (enough : ∀ above < size, above < (others range base (above + 2) lowest next nodes).card) :
    ∃ above : List Nat, above.length = size ∧ (above ++ [lowest]).Nodup ∧
      Stacked range base (size + 1) (above ++ [lowest]) ∧ next ∉ above ++ [lowest] ∧
      ∀ node ∈ above ++ [lowest], node ∈ nodes := by
  induction size with
  | zero =>
    have differs : next ≠ lowest := by
      rintro rfl
      rw [lowestRange, KeyRange.mk.injEq] at nextRange
      omega
    refine ⟨[], rfl, nodup_singleton _, ⟨?_, trivial⟩, by simpa using differs, by simpa⟩
    unfold Inside
    rw [lowestRange]
    simp
  | succ size ih =>
    obtain ⟨above, length, distinct, stacked, free, members⟩ :=
      ih fun level small => enough level (by omega)
    have fewer : above.toFinset.card < (others range base (size + 2) lowest next nodes).card := by
      have counted := above.toFinset_card_le
      have many := enough size (by omega)
      omega
    obtain ⟨node, found, fresh⟩ := Finset.exists_mem_notMem_of_card_lt_card fewer
    unfold others at found
    rw [Finset.mem_filter, mem_toFinset] at found
    obtain ⟨mem, inside, notLowest, notNext⟩ := found
    rw [mem_toFinset] at fresh
    refine ⟨node :: above, by rw [length_cons, length], ?_, ⟨inside, stacked⟩, ?_, ?_⟩
    · exact nodup_cons.mpr ⟨by simp [fresh, notLowest], distinct⟩
    · exact mt mem_cons.mp (not_or.mpr ⟨Ne.symm notNext, free⟩)
    · exact forall_mem_cons.mpr ⟨mem, members⟩

/-- A stack of nodes builds a spine. -/
lemma insertAll_stacked (width : key.bits = size + 1) {done order : List Nat}
    (rooted : Rooted range cells .head 0 (size + 1) (spine done)) (distinct : (done ++ order).Nodup)
    (fits : done.length + order.length ≤ size + 1)
    (stacked : Stacked range 0 (size + 1 - done.length) order) :
    ∃ after, insertAll key range cells order = .ok after ∧
    Rooted range after .head 0 (size + 1) (spine (done ++ order)) := by
  induction order generalizing cells done with
  | nil => exact ⟨cells, rfl, by rwa [append_nil]⟩
  | cons newleaf order ih =>
    rw [length_cons] at fits
    obtain ⟨inside, rest⟩ := stacked
    have block : Block key 0 (size + 1) := width ▸ block_root key
    have new : newleaf ∉ done := fun mem => (nodup_append.mp distinct).2.2 newleaf mem
      newleaf (by simp) rfl
    obtain ⟨half, same, center, level⟩ := semi0_eq key
    obtain rfl : size = half := by omega
    obtain ⟨middle, inserted, updated⟩ :=
      insertChecked_spine block rooted new (outside_head _) (by omega) inside
      (by have := bits_lt_callDepth key; omega : done.length < callDepth key)
    rw [← center, ← level] at inserted
    obtain ⟨after, finished, afterRooted⟩ := ih updated.rooted (by rwa [append_assoc]) (by simp; omega)
      (by rwa [length_append])
    refine ⟨after, ?_, by rwa [append_assoc] at afterRooted⟩
    rw [insertAll, insertRoot, inserted, ok_bind, finished]

/-- In a crowded tree some order leads two nodes to one position of level zero. -/
lemma insertAll_crowded (distinct : nodes.Nodup) (crowded : Crowded range 0 key.bits nodes)
    (cells : Cells)
    (empty : cells .head = none) :
    ∃ order, order.Perm nodes ∧ insertAll key range cells order = .error .levelZero := by
  obtain ⟨lowest, lowestMem, next, nextMem, lowestRange, nextRange, enough⟩ := crowded
  obtain ⟨size, width, center, level⟩ := semi0_eq key
  rw [width, Nat.add_sub_cancel] at enough
  obtain ⟨above, length, stackDistinct, stacked, free, members⟩ :=
    exists_stack lowestMem lowestRange nextRange enough
  generalize filled : above ++ [lowest] = stack at stackDistinct stacked free members
  replace length : stack.length = size + 1 := by rw [← filled, length_append, length, length_singleton]
  have start : Rooted range cells .head 0 (size + 1) (spine []) :=
    ⟨empty, placed_leaf _ _, nodup_nil, outside_head _⟩
  obtain ⟨middle, built, rooted⟩ :=
    insertAll_stacked width start stackDistinct (by simp [length]) stacked
  have stops : insertRoot key range middle next = .error .levelZero := by
    unfold insertRoot
    rw [center, level]
    apply insertChecked_full (width ▸ block_root key) rooted length
    · rw [nextRange]
    · have := bits_lt_callDepth key
      omega
  refine ⟨stack ++ next :: nodes.filter fun node => node ∉ stack ∧ node ≠ next, ?_, ?_⟩
  · have orderDistinct : (stack ++ next :: nodes.filter fun node => node ∉ stack ∧
      node ≠ next).Nodup := by
      apply nodup_append.mpr
      refine ⟨stackDistinct, nodup_cons.mpr ⟨by simp, distinct.filter _⟩, ?_⟩
      intro node mem other found same
      subst same
      rcases mem_cons.mp found with rfl | found
      · exact free mem
      · have left := (mem_filter.mp found).2
        simp [mem] at left
    rw [perm_ext_iff_of_nodup orderDistinct distinct]
    intro node
    rw [mem_append, mem_cons, mem_filter]
    constructor
    · rintro (mem | rfl | ⟨mem, _⟩)
      · exact members node mem
      · exact nextMem
      · exact mem
    · intro mem
      by_cases inStack : node ∈ stack
      · exact .inl inStack
      · by_cases isNext : node = next
        · exact .inr (.inl isNext)
        · exact .inr (.inr ⟨mem, by simp [inStack, isNext]⟩)
  · rw [insertAll_append, built, ok_bind, insertAll, stops]
    rfl

/-- Insertions in every order stay above level zero exactly if nothing crowds the tree. -/
theorem insertAll_levels_iff (key : KeyType) (range : Ranges) (nodes : List Nat) (distinct : nodes.Nodup)
    (apart : Apart range nodes) (inside : ∀ node ∈ nodes, Inside range 0 key.bits node) :
    (∀ order : List Nat, order.Perm nodes → ∀ cells : Cells, cells .head = none →
      ∃ after, insertAll key range cells order = .ok after) ↔ ¬ Crowded range 0 key.bits nodes := by
  constructor
  · intro passes crowded
    obtain ⟨order, same, stops⟩ := insertAll_crowded distinct crowded (fun _ => none) rfl
    obtain ⟨after, done⟩ := passes order same (fun _ => none) rfl
    rw [stops] at done
    exact nomatch done
  · intro uncrowded order same cells empty
    have roomy : Roomy range 0 key.bits order :=
      Roomy.mono ⟨apart, uncrowded⟩ fun _ => same.mem_iff.mp
    exact insertAll_roomy (stored_nil key range empty) (same.nodup_iff.mpr distinct) roomy
      fun node mem => inside node (same.mem_iff.mp mem)

/-- The node at an index below 32 has the key `2 ^ index`, the nodes 0 and 32 have the keys 0 and 1. -/
def powers : Ranges := fun node =>
  if node = 0 then ⟨0, 0⟩ else if node = 32 then ⟨1, 1⟩ else ⟨2 ^ node, 2 ^ node⟩

/-- The keys 4, 0, 8 and 2 can be inserted in this order. -/
theorem insertAll_levels_few : ∃ after, insertAll uintptr32 powers (fun _ => none)
    [2, 0, 3, 1] = .ok after :=
  (insertAll_levels_iff uintptr32 powers [0, 1, 2, 3] (by decide) (by decide) (by decide)).mpr
    (by decide)
    [2, 0, 3, 1] (by decide) (fun _ => none) rfl

/-- The powers of two from the highest down to 2, then 0 and then 1 meet on level zero. -/
theorem insertAll_powers_stop :
    Apart powers (List.range 33) ∧ (∀ node ∈ List.range 33, Inside powers 0 uintptr32.bits node) ∧
      stopped (insertAll uintptr32 powers (fun _ => none) ((List.range 32).reverse ++ [32])) =
        some .levelZero := by
  decide +kernel

end KosKernel.Hybrid.ATree
