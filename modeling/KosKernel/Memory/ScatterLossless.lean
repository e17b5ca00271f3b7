import KosKernel.Memory.Scatter

namespace KosKernel.Memory
open LinkPath List Option
namespace ScatterHeap
variable {bits : Nat} {heap after : ScatterHeap} {head src dst : Nat} {nodes front rest : List Nat}

/-- Other nodes have the same parts. -/
lemma parts_congr (agree : ∀ node ∈ nodes, after.node node = heap.node node) :
    after.parts nodes = heap.parts nodes :=
  map_congr_left fun node mem => by rw [agree node mem]

lemma parts_append (heap : ScatterHeap) (front rest : List Nat) :
    heap.parts (front ++ rest) = heap.parts front ++ heap.parts rest :=
  map_append

lemma parts_cons (heap : ScatterHeap) (node : Nat) (rest : List Nat) :
    heap.parts (node :: rest) = ((heap.node node).mStart, (heap.node node).mSize) ::
      heap.parts rest := rfl

lemma set_same (heap : ScatterHeap) (address : Nat) (contents : MScatter) :
    (heap.set address contents).node address = contents := by
  simp [set]

variable {address last self start size : Nat}

lemma set_other (heap : ScatterHeap) {other : Nat} (contents : MScatter) (different : other ≠ address) :
    (heap.set address contents).node other = heap.node other := by
  simp [set, Function.update_of_ne different]

lemma Lists.cons (listed : heap.Lists head nodes) : ∃ rest, nodes = head :: rest := by
  cases nodes with
  | nil => exact absurd listed (some_ne_none head)
  | cons node rest => exact ⟨rest, by rw [some.inj listed.1]⟩

/-- The nodes of a list keep their contents when another node is written. -/
lemma set_agree (heap : ScatterHeap) (contents : MScatter) (absent : address ∉ nodes) :
    ∀ node ∈ nodes, (heap.set address contents).node node = heap.node node := fun _ mem =>
  heap.set_other contents fun same => absent (same ▸ mem)

/-- A path depends only on the contents of its nodes. -/
lemma path_agree {pointer : Option Nat} (path : Path (fun node => (heap.node node).mNext) pointer nodes)
    (agree : ∀ node ∈ nodes, after.node node = heap.node node) :
      Path (fun node => (after.node node).mNext) pointer nodes :=
  path.congr fun node mem => by rw [agree node mem]

variable {fuel offset : Nat}

/-- The walk of a split stops in the node of the offset. -/
lemma splitWalk_spec (listed : heap.Lists src nodes) (enough : nodes.length ≤ fuel)
    (inside : offset ≤ scatterBytes (heap.parts nodes)) :
    ∃ front part rest inner, nodes = front ++ part :: rest ∧
    heap.splitWalk fuel src offset = some (part, inner) ∧
      inner ≤ (heap.node part).mSize ∧ scatterBytes (heap.parts front) + inner = offset := by
  induction nodes generalizing src fuel offset with
  | nil => exact absurd listed (some_ne_none src)
  | cons node others ih =>
    obtain rfl : src = node := some.inj listed.1
    obtain ⟨turns, rfl⟩ : ∃ turns, fuel = turns + 1 := ⟨fuel - 1, by rw [length_cons] at enough; omega⟩
    rw [parts_cons, scatterBytes_cons] at inside
    rw [splitWalk]
    split
    · next behind =>
      have path : Path (fun node => (heap.node node).mNext) (heap.node src).mNext others := listed.2
      cases others with
      | nil =>
        have none : scatterBytes (heap.parts []) = 0 := rfl
        omega
      | cons next rest =>
        have link : (heap.node src).mNext = some next := path.1
        rw [link] at path
        have short : (next :: rest).length ≤ turns := by
          rw [length_cons] at enough
          omega
        have remaining : offset - (heap.node src).mSize ≤
          scatterBytes (heap.parts (next :: rest)) := by omega
        obtain ⟨front, part, back, inner, split, reached, small, sum⟩ := ih path short remaining
        refine ⟨src :: front, part, back, inner, by rw [split, cons_append], ?_, small, ?_⟩
        · rw [link]
          exact reached
        · rw [parts_cons, scatterBytes_cons]
          omega
    · next here => exact ⟨[], src, others, offset, rfl, rfl, by omega, Nat.zero_add offset⟩

/-- The last node of a list. -/
lemma lastNode_spec (listed : heap.Lists head (front ++ [last])) (enough : front.length < fuel) :
    heap.lastNode fuel head = some last := by
  induction front generalizing head fuel with
  | nil =>
    obtain rfl : head = last := some.inj listed.1
    obtain _ | turns := fuel
    · omega
    have ends : (heap.node head).mNext = none := listed.2
    rw [lastNode, ends]
  | cons node others ih =>
    obtain rfl : head = node := some.inj listed.1
    obtain _ | turns := fuel
    · omega
    have path : Path (fun node => (heap.node node).mNext) (heap.node head).mNext
      (others ++ [last]) := listed.2
    obtain ⟨next, link⟩ : ∃ next, (heap.node head).mNext = some next := by
      rw [path.head]
      cases others with
      | nil => exact ⟨last, rfl⟩
      | cons first rest => exact ⟨first, rfl⟩
    rw [link] at path
    rw [lastNode, link]
    exact ih path (by rw [length_cons] at enough; omega)

/-- The sizes of the nodes add up. -/
lemma size_spec (listed : heap.Lists head nodes) (enough : nodes.length ≤ fuel)
    (total : scatterBytes (heap.parts nodes) < 2 ^ bits) :
    heap.size bits fuel head = some (scatterBytes (heap.parts nodes)) := by
  induction nodes generalizing head fuel with
  | nil => exact absurd listed (some_ne_none head)
  | cons node others ih =>
    obtain rfl : head = node := some.inj listed.1
    obtain ⟨turns, rfl⟩ : ∃ turns, fuel = turns + 1 := ⟨fuel - 1, by rw [length_cons] at enough; omega⟩
    have path : Path (fun node => (heap.node node).mNext) (heap.node head).mNext others := listed.2
    rw [parts_cons, scatterBytes_cons] at total ⊢
    cases others with
    | nil =>
      have ends : (heap.node head).mNext = none := path
      rw [size, ends]
      exact congrArg some (Nat.mod_eq_of_lt total)
    | cons next rest =>
      have link : (heap.node head).mNext = some next := path.1
      rw [link] at path
      have sum := ih path (show (next :: rest).length ≤ turns by rw [length_cons] at enough; omega)
        (by omega)
      rw [size, link]
      simp [sum, map_some, Nat.mod_eq_of_lt total]

/-- A list is split at an offset. -/
structure SplitAt (bits : Nat) (heap after : ScatterHeap) (nodes : List Nat) (dst src offset : Nat)
    (lower upper : List Nat) : Prop where
  lowerListed : after.Lists src lower
  upperListed : after.Lists dst upper
  apart : List.Disjoint lower upper
  lowerBytes : scatterBytes (after.parts lower) = offset
  bytes : scatterBytes (after.parts lower) + scatterBytes (after.parts upper) =
    scatterBytes (heap.parts nodes)
  pages : scatterPages bits (after.parts lower) ++ scatterPages bits (after.parts upper) =
    scatterPages bits (heap.parts nodes)
  aligned : ∀ part ∈ after.parts lower, pageSize ∣ part.2
  short : lower.length ≤ nodes.length
  owned : after.nodes ⊆ heap.nodes
  held : ∀ node ∈ lower ++ upper, node ≠ dst → node ∈ nodes ∧ (node ∈ heap.nodes → node ∈ after.nodes)

/-- The lower part ends in the cut node, and the upper part starts with the node of the caller. -/
lemma SplitAt.of_cut {part inner : Nat} {back : List Nat} (head : Nat × Nat)
    (listed : heap.Lists src (front ++ part :: rest))
    (fresh : dst ∉ front ++ part :: rest) (suffix : back <:+ rest)
    (path : Path (fun node => (heap.node node).mNext) back.head? back)
    (atPart : after.node part = ⟨none, (heap.node part).mStart, inner⟩)
    (atDst : after.node dst = ⟨back.head?, head.1, head.2⟩)
    (others : ∀ node, node ≠ part → node ≠ dst → after.node node = heap.node node)
    (bytes : inner + (head.2 + scatterBytes (heap.parts back)) =
      (heap.node part).mSize + scatterBytes (heap.parts rest))
    (pages : partSeq bits ((heap.node part).mStart, inner) ++
      (partSeq bits head ++ scatterPages bits (heap.parts back)) =
      partSeq bits ((heap.node part).mStart, (heap.node part).mSize) ++ scatterPages bits
        (heap.parts rest))
    (aligned : ∀ part ∈ heap.parts front, pageSize ∣ part.2) (innerAligned : pageSize ∣ inner)
    (owned : after.nodes ⊆ heap.nodes) (kept : ∀ node ∈ front ++ part :: back, node ∈ heap.nodes →
      node ∈ after.nodes) :
    SplitAt bits heap after (front ++ part :: rest) dst src
      (scatterBytes (heap.parts front) + inner) (front ++ [part])
      (dst :: back) := by
  have nodup := listed.nodup
  have within : ∀ node ∈ back, node ∈ rest := fun node mem => suffix.subset mem
  rw [nodup_append, nodup_cons] at nodup
  obtain ⟨_, ⟨partRest, _⟩, crossing⟩ := nodup
  rw [mem_append, mem_cons, not_or, not_or] at fresh
  obtain ⟨dstFront, dstPart, dstRest⟩ := fresh
  have frontAgree : ∀ node ∈ front, after.node node = heap.node node := fun node mem =>
    others node (crossing node mem part mem_cons_self) fun same => dstFront (same ▸ mem)
  have backAgree : ∀ node ∈ back, after.node node = heap.node node := fun node mem =>
    others node (fun same => partRest (same ▸ within node mem)) fun same =>
      dstRest (same ▸ within node mem)
  have lowerParts : after.parts (front ++ [part]) =
    heap.parts front ++ [((heap.node part).mStart, inner)] := by
    rw [parts_append, parts_congr frontAgree, parts_cons, atPart]
    rfl
  have upperParts : after.parts (dst :: back) = head :: heap.parts back := by
    rw [parts_cons, parts_congr backAgree, atDst]
  constructor
  case lowerListed =>
    refine Path.splice listed (fun node mem => by rw [frontAgree node mem]) ?_
    show (after.node part).mNext = none
    rw [atPart]
  case upperListed =>
    refine ⟨rfl, ?_⟩
    show Path _ (after.node dst).mNext back
    rw [atDst]
    exact path_agree path backAgree
  case apart =>
    refine disjoint_left.mpr fun node low high => ?_
    rw [mem_append, mem_singleton] at low
    rw [mem_cons] at high
    rcases low with low | rfl
    · rcases high with rfl | high
      · exact dstFront low
      · exact crossing node low node (mem_cons_of_mem part (within node high)) rfl
    · rcases high with same | high
      · exact dstPart same.symm
      · exact partRest (within node high)
  case lowerBytes =>
    rw [lowerParts, scatterBytes_append]
    rfl
  case bytes =>
    rw [lowerParts, upperParts, parts_append, parts_cons, scatterBytes_append, scatterBytes_append,
      scatterBytes_cons, scatterBytes_cons, scatterBytes_cons, Nat.add_assoc, ← bytes]
    rfl
  case pages =>
    rw [lowerParts, upperParts, parts_append, parts_cons, scatterPages_append, scatterPages_append,
      scatterPages_cons, scatterPages_cons, scatterPages_cons, ← pages, append_assoc, append_assoc]
    rfl
  case aligned =>
    intro part mem
    rw [lowerParts, mem_append, mem_singleton] at mem
    rcases mem with mem | rfl
    · exact aligned part mem
    · exact innerAligned
  case short => simp
  case owned => exact owned
  case held =>
    intro node mem notDst
    simp only [mem_append, mem_cons, not_mem_nil, or_false] at mem
    have inside : node ∈ front ++ part :: back := by
      simp only [mem_append, mem_cons]
      tauto
    refine ⟨?_, kept node inside⟩
    simp only [mem_append, mem_cons]
    rcases mem with (low | low) | high | high
    · exact .inl low
    · exact .inr (.inl low)
    · exact absurd high notDst
    · exact .inr (.inr (within node high))

/-- This is what `mscatter_split_lo` does. -/
lemma splitLo_spec (listed : heap.Lists src nodes) (fresh : dst ∉ nodes) (enough : nodes.length ≤ fuel)
    (parts : ScatterParts bits (heap.parts nodes)) (offsetAligned : pageSize ∣ offset)
    (inside : offset ≤ scatterBytes (heap.parts nodes)) :
    ∃ after lower upper, heap.splitLo bits fuel dst src offset = some after ∧
    SplitAt bits heap after nodes dst src offset lower upper := by
  obtain ⟨front, part, rest, inner, rfl, reached, small, rfl⟩ := splitWalk_spec listed enough inside
  have aligned := parts.aligned
  rw [parts_append] at aligned
  have frontAligned : ∀ part ∈ heap.parts front, pageSize ∣ part.2 :=
    fun part mem => aligned part (mem_append_left _ mem)
  have innerAligned : pageSize ∣ inner := by
    refine (Nat.dvd_add_right ?_).mp offsetAligned
    rw [← length_scatterPages bits frontAligned]
    exact Nat.dvd_mul_right _ _
  have dstPart : dst ≠ part := fun same => fresh (same ▸ mem_append_right _ mem_cons_self)
  have path : Path (fun node => (heap.node node).mNext) (heap.node part).mNext rest := Path.link listed
  rw [splitLo, reached]
  simp only [map_some]
  split
  · next whole =>
    subst whole
    cases rest with
    | nil =>
      have ends : (heap.node part).mNext = none := path
      simp only [ends]
      refine ⟨_, _, _, rfl, SplitAt.of_cut (0, 0) listed fresh (suffix_refl _) rfl ?_ ?_ ?_
        rfl ?_ frontAligned
        innerAligned (Finset.Subset.refl _) fun _ _ => id⟩
      · rw [set_other _ _ dstPart.symm, ← ends]
      · exact set_same _ _ _
      · exact fun _ _ => set_other _ _
      · rw [partSeq_zero, nil_append]
    | cons next back =>
      have link : (heap.node part).mNext = some next := path.1
      have nodup := (nodup_append.mp listed.nodup)
      obtain ⟨partBack, nextBack, _⟩ := (nodup_cons.mp nodup.2.1).imp_right nodup_cons.mp
      have nextLater : next ∉ front ++ part :: back := fun mem => by
        rcases mem_append.mp mem with early | later
        · exact nodup.2.2 next early next (mem_cons_of_mem part mem_cons_self) rfl
        · rcases mem_cons.mp later with same | later
          · exact partBack (same ▸ mem_cons_self)
          · exact nextBack later
      simp only [link]
      refine ⟨_, _, _, rfl, SplitAt.of_cut ((heap.node next).mStart, (heap.node next).mSize) listed fresh
        (suffix_cons next back) ?_ ?_ ?_ ?_ ?_ ?_ frontAligned innerAligned ?_ ?_⟩
      · exact path.2.head ▸ path.2
      · rw [set_same]
      · rw [set_other _ _ dstPart]
        show (heap.set dst (heap.node next)).node dst = _
        rw [set_same, ← path.2.head]
      · intro node notPart notDst
        rw [set_other _ _ notPart]
        exact set_other _ _ notDst
      · rw [parts_cons, scatterBytes_cons]
      · rw [parts_cons, scatterPages_cons]
      · exact Finset.erase_subset _ _
      · exact fun node mem owned => Finset.mem_erase.mpr ⟨fun same => nextLater (same ▸ mem), owned⟩
  · next short =>
    have upper : inner + ((heap.node part).mSize - inner) = (heap.node part).mSize :=
      Nat.add_sub_cancel' small
    refine ⟨_, _, _, rfl, SplitAt.of_cut (((heap.node part).mStart + inner) % 2 ^ bits,
      (heap.node part).mSize - inner) listed fresh
      (suffix_refl rest) ?_ ?_ ?_ ?_ ?_ ?_ frontAligned innerAligned
        (Finset.Subset.refl _) fun _ _ => id⟩
    · exact path.head ▸ path
    · rw [set_other _ _ dstPart.symm, set_same]
    · rw [set_same, path.head]
    · intro node notPart notDst
      rw [set_other _ _ notDst, set_other _ _ notPart]
    · rw [← Nat.add_assoc, upper]
    · rw [← append_assoc, ← partSeq_add bits _ innerAligned, upper]

/-- This is what `mscatter_cat` does. -/
lemma cat_spec {others : List Nat} (listed : heap.Lists dst (front ++ [last]))
    (added : heap.Lists src (src :: others)) (apart : List.Disjoint (front ++ [last]) (src :: others))
    (enough : front.length < fuel) (aligned : pageSize ∣ (heap.node last).mSize)
    (fits : (heap.node last).mSize + (heap.node src).mSize < 2 ^ bits) (copy : Option Nat)
    (unused : ∀ address, copy = some address → address ∉ front ++ [last] ∧ address ∉ others) :
    ∃ after done, heap.cat bits fuel dst src copy = some (after, done) ∧
    (done = false → copy = none ∧ after = heap) ∧
      (done = true → ∃ nodes, after.Lists dst nodes ∧ scatterPages bits (after.parts nodes) =
        scatterPages bits (heap.parts (front ++ [last])) ++ scatterPages bits
          (heap.parts (src :: others))) := by
  have lastFront : last ∉ front :=
    fun mem => (nodup_append.mp listed.nodup).2.2 last mem last mem_cons_self rfl
  have lastOthers : last ∉ others :=
    fun mem => apart (mem_append_right _ mem_cons_self) (mem_cons_of_mem src mem)
  have path : Path (fun node => (heap.node node).mNext) (heap.node src).mNext others := added.2
  rw [cat, lastNode_spec listed enough]
  simp only [map_some]
  split
  · next joins =>
    refine ⟨_, true, rfl, fun never => absurd never (by decide),
      fun _ => ⟨front ++ last :: others, ?_, ?_⟩⟩
    · refine Path.splice listed (fun node mem => ?_) ?_
      · rw [heap.set_agree _ lastFront node mem]
      · show Path _ ((heap.set last _).node last).mNext others
        rw [set_same]
        exact path_agree path (heap.set_agree _ lastOthers)
    · rw [parts_append, parts_cons, parts_congr (heap.set_agree _ lastFront),
        parts_congr (heap.set_agree _ lastOthers), set_same,
        Nat.mod_eq_of_lt fits, parts_append, parts_cons]
      simp only [scatterPages_append, scatterPages_cons, partSeq_add bits _ aligned, joins, append_assoc]
      rfl
  · next apartParts =>
    cases copy with
    | none => exact ⟨heap, false, rfl, fun _ => ⟨rfl, rfl⟩, fun never => absurd never (by decide)⟩
    | some address =>
      obtain ⟨newDst, newOthers⟩ := unused address rfl
      have newLast : address ≠ last := fun same => newDst (same ▸ mem_append_right _ mem_cons_self)
      have newFront : address ∉ front := fun mem => newDst (mem_append_left _ mem)
      have agree : ∀ nodes : List Nat, last ∉ nodes → address ∉ nodes → ∀ node ∈ nodes,
          ((((heap.kmalloc address).set address (heap.node src)).set last
            { heap.node last with mNext := some address }).node node) = heap.node node := by
        intro nodes noLast noNew node mem
        rw [set_agree _ _ noLast node mem]
        exact set_agree (heap.kmalloc address) _ noNew node mem
      refine ⟨_, true, rfl, fun never => absurd never (by decide),
        fun _ => ⟨front ++ last :: address :: others, ?_, ?_⟩⟩
      · refine Path.splice listed (fun node mem => ?_) ⟨?_, ?_⟩
        · rw [agree front lastFront newFront node mem]
        · rw [set_same]
        · beta_reduce
          rw [set_other _ _ newLast, set_same]
          exact path_agree path (agree others lastOthers newOthers)
      · rw [parts_append, parts_cons, parts_cons, parts_congr (agree front lastFront newFront),
          parts_congr (agree others lastOthers newOthers), set_same, set_other _ _ newLast,
            set_same, parts_append, parts_cons]
        simp only [scatterPages_append, scatterPages_cons, append_assoc]
        rfl

/-- The parts that are left when the first page is taken. -/
def dropFirst (bits : Nat) : List (Nat × Nat) → List (Nat × Nat)
  | [] => []
  | (start, size) :: rest =>
    if size - pageSize = 0 ∧ rest ≠ [] then rest else ((start + pageSize) % 2 ^ bits,
      size - pageSize) :: rest

/-- This is what `mscatter_takeone` does. -/
lemma takeone_spec (bits : Nat) (listed : heap.Lists self (self :: rest))
    (filled : (heap.node self).mSize ≠ 0) :
    ∃ after nodes, heap.takeone bits self = (after, some (heap.node self).mStart) ∧
    after.Lists self nodes ∧
      after.parts nodes = dropFirst bits (heap.parts (self :: rest)) := by
  have absent : self ∉ rest := (nodup_cons.mp listed.nodup).1
  have path : Path (fun node => (heap.node node).mNext) (heap.node self).mNext rest := listed.2
  have stays : ∀ contents : MScatter, contents.mNext = (heap.node self).mNext →
    (heap.set self contents).Lists self (self :: rest) ∧
      (heap.set self contents).parts (self :: rest) = (contents.mStart, contents.mSize) ::
        heap.parts rest := by
    intro contents same
    refine ⟨⟨rfl, ?_⟩, ?_⟩
    · beta_reduce
      rw [set_same, same]
      exact path_agree path (heap.set_agree contents absent)
    · rw [parts_cons, set_same, parts_congr (heap.set_agree contents absent)]
  rw [takeone, if_neg filled, parts_cons, dropFirst]
  dsimp only
  split
  · next whole =>
    cases rest with
    | nil =>
      have ends : (heap.node self).mNext = none := path
      obtain ⟨kept, parts⟩ := stays ⟨none, ((heap.node self).mStart + pageSize) % 2 ^ bits,
        (heap.node self).mSize - pageSize⟩
        ends.symm
      rw [ends, if_neg fun both => both.2 rfl]
      exact ⟨_, _, rfl, kept, parts⟩
    | cons second others =>
      have link : (heap.node self).mNext = some second := path.1
      have absentLater : self ∉ others := fun mem => absent (mem_cons_of_mem second mem)
      have agree := heap.set_agree (heap.node second) absentLater
      rw [link, if_pos ⟨whole, cons_ne_nil _ _⟩]
      refine ⟨_, self :: others, rfl, ⟨rfl, ?_⟩, ?_⟩
      · show Path _ ((heap.set self (heap.node second)).node self).mNext others
        rw [set_same]
        exact path_agree path.2 agree
      · show (heap.set self (heap.node second)).parts (self :: others) = _
        rw [parts_cons, set_same, parts_congr agree, parts_cons]
  · next more =>
    obtain ⟨kept, parts⟩ := stays
      ⟨(heap.node self).mNext, ((heap.node self).mStart + pageSize) % 2 ^ bits,
        (heap.node self).mSize - pageSize⟩ rfl
    rw [if_neg fun both => more both.1]
    exact ⟨_, _, rfl, kept, parts⟩

/-- The parts before the first empty one. -/
def filledParts (parts : List (Nat × Nat)) : List (Nat × Nat) := parts.takeWhile fun part => part.2 ≠ 0

/-- The first page is in front of the pages that are left. -/
lemma scatterPages_dropFirst (others : List (Nat × Nat)) (word : start < 2 ^ bits)
    (aligned : pageSize ∣ size) (filled : size ≠ 0) :
    scatterPages bits (filledParts ((start, size) :: others)) =
      start :: scatterPages bits (filledParts (dropFirst bits ((start, size) :: others))) := by
  have first : filledParts ((start, size) :: others) = (start, size) :: filledParts others :=
    takeWhile_cons_of_pos (by simpa using filled)
  rw [first, scatterPages_cons, partSeq_first word aligned filled, dropFirst, cons_append]
  refine congrArg (start :: ·) ?_
  by_cases empty : size - pageSize = 0
  · rw [empty, partSeq_zero, nil_append]
    by_cases last : others = []
    · subst last
      rfl
    · rw [if_pos ⟨rfl, last⟩]
  · rw [if_neg fun both => empty both.1]
    have next : filledParts (((start + pageSize) % 2 ^ bits, size - pageSize) :: others) =
        ((start + pageSize) % 2 ^ bits, size - pageSize) :: filledParts others :=
          takeWhile_cons_of_pos (by simpa using empty)
    rw [next, scatterPages_cons]

/-- Parts that are left are parts of the list or what is left of the first one. -/
lemma mem_dropFirst {others : List (Nat × Nat)} {part : Nat × Nat}
    (mem : part ∈ dropFirst bits ((start, size) :: others)) :
    part = ((start + pageSize) % 2 ^ bits, size - pageSize) ∨ part ∈ others := by
  rw [dropFirst] at mem
  split at mem
  · exact .inr mem
  · exact mem_cons.mp mem

/-- The calls of `mscatter_takeone` give the pages up to the first empty node. -/
lemma takeAll_spec (listed : heap.Lists self nodes)
    (aligned : ∀ part ∈ heap.parts nodes, pageSize ∣ part.2)
    (word : ∀ part ∈ heap.parts nodes, part.1 < 2 ^ bits)
    (enough : (scatterPages bits (filledParts (heap.parts nodes))).length < fuel) :
    takeAll bits fuel heap self = some (scatterPages bits (filledParts (heap.parts nodes))) := by
  induction fuel generalizing heap nodes with
  | zero => omega
  | succ fuel ih =>
    obtain ⟨rest, rfl⟩ := Lists.cons listed
    by_cases empty : (heap.node self).mSize = 0
    · have none : filledParts (heap.parts (self :: rest)) = [] :=
        takeWhile_cons_of_neg (by simpa using empty)
      rw [takeAll, takeone, if_pos empty, none]
      rfl
    have sizeAligned := aligned _ mem_cons_self
    have startWord := word _ mem_cons_self
    obtain ⟨after, left, taken, kept, parts⟩ := takeone_spec bits listed empty
    have pages := scatterPages_dropFirst (heap.parts rest) startWord sizeAligned empty
    rw [← parts_cons, ← parts] at pages
    have afterAligned : ∀ part ∈ after.parts left, pageSize ∣ part.2 := by
      intro part mem
      rw [parts] at mem
      rcases mem_dropFirst mem with rfl | mem
      · exact Nat.dvd_sub sizeAligned (Nat.dvd_refl _)
      · exact aligned part (mem_cons_of_mem _ mem)
    have afterWord : ∀ part ∈ after.parts left, part.1 < 2 ^ bits := by
      intro part mem
      rw [parts] at mem
      rcases mem_dropFirst mem with rfl | mem
      · exact Nat.mod_lt _ (Nat.two_pow_pos bits)
      · exact word part (mem_cons_of_mem _ mem)
    rw [pages, length_cons] at enough
    rw [takeAll, taken, pages]
    simp [ih kept afterAligned afterWord (by omega)]

/-- No empty node stands before a filled one. -/
def Packed (parts : List (Nat × Nat)) : Prop :=
  ∀ part ∈ parts.dropWhile fun part => part.2 ≠ 0, part.2 = 0

instance (parts : List (Nat × Nat)) : Decidable (Packed parts) :=
  inferInstanceAs (Decidable (∀ part ∈ _, _))

lemma packed_iff (bits : Nat) {parts : List (Nat × Nat)} (aligned : ∀ part ∈ parts, pageSize ∣ part.2) :
    scatterPages bits (filledParts parts) = scatterPages bits parts ↔ Packed parts := by
  have whole : scatterPages bits parts = scatterPages bits (filledParts parts) ++
      scatterPages bits (parts.dropWhile fun part => part.2 ≠ 0) := by
    rw [← scatterPages_append, filledParts, takeWhile_append_dropWhile]
  rw [whole, eq_comm, append_right_eq_self, scatterPages, flatMap_eq_nil_iff]
  refine forall₂_congr fun part mem => ?_
  obtain ⟨count, size⟩ := aligned part ((dropWhile_sublist _).subset mem)
  rw [← length_eq_zero_iff, length_partSeq, size]
  simp [pageSize]

/-- A list is split and joined again without loss, and its pages can be taken one by one. -/
structure Lossless (bits fuel : Nat) (heap : ScatterHeap) (nodes : List Nat)
    (dst src offset : Nat) : Prop where
  splits : ∃ after lower upper, heap.splitLo bits fuel dst src offset = some after ∧
    after.Lists src lower ∧ after.Lists dst upper ∧
    scatterPages bits (after.parts lower) ++ scatterPages bits (after.parts upper) =
      scatterPages bits (heap.parts nodes) ∧
    (scatterPages bits (after.parts lower)).length = offset / pageSize ∧
    ∀ copy, (∀ address, copy = some address → address ∉ after.nodes ∧ address ≠ src ∧ address ≠ dst) →
      ∃ joined done, after.cat bits fuel src dst copy = some (joined, done) ∧
        (done = false → copy = none ∧ joined = after) ∧
        (done = true → ∃ all, joined.Lists src all ∧ scatterPages bits (joined.parts all) =
          scatterPages bits (heap.parts nodes))
  taken : ∀ calls, (scatterPages bits (heap.parts nodes)).length < calls →
    takeAll bits calls heap src = some (scatterPages bits (heap.parts nodes))

/-- A split is undone by `mscatter_cat`. -/
lemma SplitAt.joins {lower upper : List Nat}
    (split : SplitAt bits heap after nodes dst src offset lower upper)
    (owned : ∀ node ∈ nodes, node ≠ src → node ∈ heap.nodes) (enough : nodes.length ≤ fuel)
    (total : scatterBytes (heap.parts nodes) < 2 ^ bits) (copy : Option Nat)
    (unused : ∀ address, copy = some address → address ∉ after.nodes ∧ address ≠ src ∧ address ≠ dst) :
    ∃ joined done, after.cat bits fuel src dst copy = some (joined, done) ∧
    (done = false → copy = none ∧ joined = after) ∧
      (done = true → ∃ all, joined.Lists src all ∧ scatterPages bits (joined.parts all) =
        scatterPages bits (heap.parts nodes)) := by
  obtain ⟨others, rfl⟩ := Lists.cons split.upperListed
  obtain ⟨first, nonempty⟩ := Lists.cons split.lowerListed
  obtain ⟨front, last, rfl⟩ : ∃ front last, lower = front ++ [last] :=
    ⟨lower.dropLast, lower.getLast (nonempty ▸ cons_ne_nil src first), (dropLast_append_getLast _).symm⟩
  have outside : ∀ address, copy = some address → ∀ node ∈ front ++ [last] ++ dst :: others,
    address ≠ node := by
    intro address same node mem equal
    obtain ⟨free, notSrc, notDst⟩ := unused address same
    subst equal
    obtain ⟨inside, kept⟩ := split.held address mem notDst
    exact free (kept (owned address inside notSrc))
  have bytes := split.bytes
  rw [parts_append, parts_cons, parts_cons, scatterBytes_append, scatterBytes_cons,
    scatterBytes_cons] at bytes
  have aligned : pageSize ∣ (after.node last).mSize := by
    refine split.aligned ((after.node last).mStart, (after.node last).mSize) ?_
    rw [parts_append]
    exact mem_append_right _ mem_cons_self
  have short := split.short
  rw [length_append, length_singleton] at short
  have apart : ∀ address, copy = some address → address ∉ front ++ [last] ∧ address ∉ others :=
    fun address same =>
    ⟨fun mem => outside address same address (mem_append_left _ mem) rfl,
      fun mem => outside address same address (mem_append_right _ (mem_cons_of_mem dst mem)) rfl⟩
  obtain ⟨joined, done, found, failed, whole⟩ := cat_spec split.lowerListed split.upperListed split.apart
    (show front.length < fuel by omega) aligned (show _ < 2 ^ bits by omega) copy apart
  refine ⟨joined, done, found, failed, fun success => ?_⟩
  obtain ⟨all, listed, pages⟩ := whole success
  exact ⟨all, listed, pages.trans split.pages⟩

/-- All pages are taken one by one exactly if no empty node precedes a filled one. -/
theorem scatter_lossless_iff (bits fuel : Nat) (heap : ScatterHeap) (nodes : List Nat)
    (dst src offset total : Nat)
    (listed : heap.Lists src nodes) (owned : ∀ node ∈ nodes, node ≠ src → node ∈ heap.nodes)
    (fresh : dst ∉ nodes)
    (parts : ScatterParts bits (heap.parts nodes)) (enough : nodes.length ≤ fuel)
    (measured : heap.size bits fuel src = some total)
    (offsetAligned : pageSize ∣ offset) (inside : offset ≤ total) :
    Lossless bits fuel heap nodes dst src offset ↔ Packed (heap.parts nodes) := by
  obtain rfl : scatterBytes (heap.parts nodes) = total :=
    some.inj ((size_spec listed enough parts.total).symm.trans measured)
  obtain ⟨after, lower, upper, found, split⟩ :=
    splitLo_spec listed fresh enough parts offsetAligned inside
  have length : (scatterPages bits (after.parts lower)).length = offset / pageSize := by
    rw [← split.lowerBytes, ← length_scatterPages bits split.aligned,
      Nat.mul_div_cancel_left _ (by decide)]
  have fewer : (scatterPages bits (filledParts (heap.parts nodes))).length ≤
    (scatterPages bits (heap.parts nodes)).length :=
    ((takeWhile_sublist _).flatMap _).length_le
  rw [← packed_iff bits parts.aligned]
  constructor
  · intro lossless
    have taken := lossless.taken _ (Nat.lt_succ_self _)
    rw [takeAll_spec listed parts.aligned parts.word (Nat.lt_succ_of_le fewer)] at taken
    exact some.inj taken
  · intro packed
    refine ⟨⟨after, lower, upper, found, split.lowerListed, split.upperListed, split.pages, length,
      ?_⟩, fun calls many => ?_⟩
    · exact split.joins owned enough parts.total
    · rw [takeAll_spec listed parts.aligned parts.word (by omega), packed]

/-- The five pages of three nodes, split inside of the second one. -/
theorem scatter_lossless_three :
    let heap : ScatterHeap := ⟨fun node => if node = 1 then ⟨some 3, 0x1000, 0x1000⟩ else
      if node = 3 then ⟨some 5, 0x4000, 0x3000⟩ else ⟨none, 0x9000, 0x1000⟩, {3, 5}⟩
    Packed (heap.parts [1, 3, 5]) ∧ Lossless 32 3 heap [1, 3, 5] 2 1 0x3000 := by
  intro heap
  have packed : Packed (heap.parts [1, 3, 5]) := by decide
  refine ⟨packed, (scatter_lossless_iff 32 3 heap [1, 3, 5] 2 1 0x3000 0x5000 ⟨rfl, rfl, rfl,
    rfl⟩ (by decide)
    (by decide) ⟨?_, ?_, ?_⟩ (by decide) (by decide +kernel) (by decide) (by decide)).mpr packed⟩
  · decide
  · decide
  · decide

/-- A list is joined with an empty rest and another list, whose page is then not found. -/
theorem takeone_misses_page :
    let heap : ScatterHeap :=
      ⟨fun node => if node = 3 then ⟨none, 0x5000, 0x1000⟩ else ⟨none, 0x1000, 0x1000⟩, ∅⟩
    ∃ split joined both, heap.splitLo 32 1 2 1 0x1000 = some split ∧
      split.cat 32 1 1 2 (some 4) = some (joined, true) ∧
      joined.cat 32 2 1 3 (some 5) = some (both, true) ∧ both.Lists 1 [1, 4, 5] ∧ both.nodes = {4, 5} ∧
      scatterPages 32 (both.parts [1, 4, 5]) = [0x1000, 0x5000] ∧
        takeAll 32 3 both 1 = some [0x1000] := by
  refine ⟨_, _, _, rfl, rfl, rfl, ⟨rfl, rfl, rfl, rfl⟩, ?_, ?_, ?_⟩
  · decide
  · decide
  · decide

end ScatterHeap

end KosKernel.Memory
