/- This file embeds `page_malloc_scatter` with the nodes of its list. -/

import KosKernel.Memory.PageRetry
import KosKernel.Memory.ScatterLossless

namespace KosKernel.Memory
open LinkPath ScatterHeap List Finset Option
namespace PageState

/-- The code behind the label `nomem`. The heap may do something to the pages in `kffree`. -/
def freeNodes (spec : MZoneSpec) (attr : Bool) (kffree : PageState → PageState) (scatter : Nat) :
    Nat → PageState → ScatterHeap → Nat → Option (PageState × ScatterHeap)
  | 0, _, _, _ => none
  | fuel + 1, state, heap, iter =>
    (state.ffree spec (heap.node iter).mStart (heap.node iter).mSize attr).bind fun freed =>
      let kept := if iter ≠ scatter then kffree freed else freed
      let released := if iter ≠ scatter then heap.kfree iter else heap
      match (heap.node iter).mNext with
      | none => some (kept, released)
      | some next => freeNodes spec attr kffree scatter fuel kept released next

/-- The loop of `page_malloc_scatter`. -/
def nodesLoop (spec : MZoneSpec) (minScatter : Nat) (attr : Bool) (zone : Nat)
    (kffree : PageState → PageState) (scatter fuel : Nat) :
    Nat → PageState → ScatterHeap → Nat → List Kmalloc → Option (PageState × ScatterHeap × Bool)
  | 0, _, _, _, _ => none
  | turns + 1, state, heap, bytes, kmalloc =>
    (state.pageMallocPart spec minScatter bytes attr zone).bind fun (taken, start, size) =>
      if start = spec.pageError then
        (freeNodes spec attr kffree scatter fuel taken
          (heap.set scatter ⟨(heap.node scatter).mNext, start, 0⟩) scatter).map
          fun (freed, heap) => (freed, heap, false)
      else
        let stored := heap.set scatter ⟨(heap.node scatter).mNext, start, size⟩
        if bytes = size then some (taken, stored, true)
        else
          let call := kmalloc.headD (.inHeap false)
          match call.node with
          | none =>
            (freeNodes spec attr kffree scatter fuel (call.pages taken) stored scatter).map
              fun (freed, heap) => (freed, heap, false)
          | some sNext =>
            let copied := (stored.kmalloc sNext).set sNext (stored.node scatter)
            nodesLoop spec minScatter attr zone kffree scatter fuel turns (call.pages taken)
              (copied.set scatter ⟨some sNext, start, size⟩) (spec.sub bytes size) kmalloc.tail

/-- This is `page_malloc_scatter` with the nodes of its list. -/
def mallocScatter (spec : MZoneSpec) (state : PageState) (heap : ScatterHeap)
    (scatter bytes minScatter : Nat) (attr : Bool) (zone : Nat) (kmalloc : List Kmalloc)
    (kffree : PageState → PageState) : Option (PageState × ScatterHeap × Bool) :=
  if bytes = 0 then some (state, heap.set scatter ⟨none, (heap.node scatter).mStart, 0⟩, true)
  else
    let bytes := spec.ceil bytes
    let minScatter := min (spec.ceil minScatter) bytes
    let minScatter := if minScatter = 0 then pageSize else minScatter
    nodesLoop spec minScatter attr zone kffree scatter (bytes / pageSize + 2) (bytes / pageSize + 1)
      state (heap.set scatter { heap.node scatter with mNext := none }) bytes kmalloc

variable {spec : MZoneSpec} {state after : PageState} {attr : Bool} {heap : ScatterHeap}
  {scatter : Nat} {others : List Nat}
  {base : Finset Nat} {parts : List (Nat × Nat)}

/-- The cleanup frees the parts of the nodes and hands back all nodes but the first of the list. -/
lemma freeNodes_spec {iter fuel : Nat} (listed : heap.Lists iter (iter :: others))
    (enough : others.length < fuel)
    (freed : freeScatter spec attr state (heap.parts (iter :: others)) = some after) :
    ∃ last, freeNodes spec attr id scatter fuel state heap iter = some (after, last) ∧
      ∀ node, node ∈ last.nodes ↔ node ∈ heap.nodes ∧ (node ∈ iter :: others → node = scatter) := by
  induction others generalizing iter fuel state heap with
  | nil =>
    obtain _ | turns := fuel
    · omega
    have ends : (heap.node iter).mNext = none := listed.2
    obtain ⟨first, found, rest⟩ := bind_eq_some_iff.mp freed
    obtain rfl : first = after := some.inj rest
    rw [freeNodes, found]
    simp only [ends, id, ite_self]
    refine ⟨_, rfl, fun node => ?_⟩
    split
    · next other =>
      simp only [kfree, Finset.mem_erase, List.mem_singleton]
      constructor
      · exact fun ⟨different, inside⟩ => ⟨inside, fun same => absurd same different⟩
      · exact fun ⟨inside, same⟩ => ⟨fun equal => other (equal ▸ same equal), inside⟩
    · next same =>
      rw [not_not] at same
      rw [List.mem_singleton, same]
      exact ⟨fun inside => ⟨inside, id⟩, And.left⟩
  | cons next rest ih =>
    obtain _ | turns := fuel
    · omega
    have link : (heap.node iter).mNext = some next := listed.2.1
    obtain ⟨first, found, later⟩ := bind_eq_some_iff.mp freed
    change freeScatter spec attr first (heap.parts (next :: rest)) = some after at later
    rw [freeNodes, found]
    simp only [link, id, ite_self]
    have behind : ∀ released : ScatterHeap, released.node = heap.node →
      released.Lists next (next :: rest) ∧
        released.parts (next :: rest) = heap.parts (next :: rest) := by
      intro released same
      unfold ScatterHeap.parts ScatterHeap.Lists
      rw [same]
      exact ⟨link ▸ listed.2, rfl⟩
    have short : rest.length < turns := by
      rw [List.length_cons] at enough
      omega
    split
    · next other =>
      obtain ⟨kept, parts⟩ := behind (heap.kfree iter) rfl
      obtain ⟨last, reached, nodes⟩ := ih kept short (parts.symm ▸ later)
      refine ⟨last, reached, fun node => (nodes node).trans ?_⟩
      simp only [kfree, Finset.mem_erase, List.mem_cons]
      constructor
      · exact fun ⟨⟨different, inside⟩, only⟩ => ⟨inside, fun mem => only (mem.resolve_left different)⟩
      · refine fun ⟨inside, only⟩ => ⟨⟨fun equal => other ?_, inside⟩, fun mem => only (.inr mem)⟩
        exact equal ▸ only (.inl equal)
    · next same =>
      rw [not_not] at same
      obtain ⟨kept, parts⟩ := behind heap rfl
      obtain ⟨last, reached, nodes⟩ := ih kept short later
      refine ⟨last, reached, fun node => (nodes node).trans (and_congr_right fun _ => ?_)⟩
      rw [List.mem_cons (a := node) (b := iter)]
      constructor
      · exact fun only mem => mem.elim (fun equal => equal.trans same) only
      · exact fun only mem => only (.inr mem)

/-- The nodes behind the first one hold the parts that were handed out. -/
structure Builds (base : Finset Nat) (heap : ScatterHeap) (scatter : Nat) (others : List Nat)
    (parts : List (Nat × Nat)) : Prop where
  listed : heap.Lists scatter (scatter :: others)
  parts : heap.parts others = parts
  nodes : heap.nodes = base ∪ others.toFinset
  apart : ∀ node ∈ others, node ∉ base

section
variable (builds : Builds base heap scatter others parts)
include builds

/-- The first node gets a part. -/
lemma Builds.store (start size : Nat) :
    let stored := heap.set scatter ⟨(heap.node scatter).mNext, start, size⟩
    stored.Lists scatter (scatter :: others) ∧ stored.parts (scatter :: others) =
      (start, size) :: parts ∧ stored.nodes = heap.nodes := by
  have absent : scatter ∉ others := (nodup_cons.mp builds.listed.nodup).1
  refine ⟨⟨rfl, ?_⟩, ?_, rfl⟩
  · beta_reduce
    rw [set_same]
    exact path_agree builds.listed.2 (heap.set_agree _ absent)
  · rw [parts_cons, set_same, parts_congr (heap.set_agree _ absent), builds.parts]

/-- The part of the first node moves to a new one behind it. -/
lemma Builds.push (start size : Nat) {sNext : Nat} (different : sNext ≠ scatter)
    (unused : sNext ∉ others) (outside : sNext ∉ base) :
    let stored := heap.set scatter ⟨(heap.node scatter).mNext, start, size⟩
    Builds base (((stored.kmalloc sNext).set sNext (stored.node scatter)).set scatter ⟨some sNext,
      start, size⟩) scatter (sNext :: others)
      ((start, size) :: parts) := by
  intro stored
  have absent : scatter ∉ others := (nodup_cons.mp builds.listed.nodup).1
  have agree : ∀ node ∈ others, (((stored.kmalloc sNext).set sNext (stored.node scatter)).set scatter
      ⟨some sNext, start, size⟩).node node = heap.node node := by
    intro node mem
    rw [set_agree _ _ absent node mem, set_agree _ _ unused node mem]
    exact heap.set_agree _ absent node mem
  have atNext : (((stored.kmalloc sNext).set sNext (stored.node scatter)).set scatter
    ⟨some sNext, start, size⟩).node sNext =
      ⟨(heap.node scatter).mNext, start, size⟩ := by
    rw [set_other _ _ different, set_same]
    exact set_same _ _ _
  constructor
  · refine ⟨rfl, ?_, ?_⟩
    · beta_reduce
      rw [set_same]
    · beta_reduce
      rw [atNext]
      exact path_agree builds.listed.2 agree
  · rw [parts_cons, atNext, parts_congr agree, builds.parts]
  · show insert sNext heap.nodes = _
    rw [builds.nodes, toFinset_cons, union_insert]
  · intro node mem
    rcases mem_cons.mp mem with rfl | mem
    · exact outside
    · exact builds.apart node mem

/-- Nodes that `kmalloc` has not handed out before. -/
structure FreshNodes (base : Finset Nat) (scatter : Nat) (others : List Nat) (kmalloc : List Kmalloc) :
    Prop where
  unused : ∀ address ∈ kmalloc.filterMap Kmalloc.node,
    address ∉ base ∧ address ≠ scatter ∧ address ∉ others
  once : (kmalloc.filterMap Kmalloc.node).Nodup

/-- After a failure only the old nodes are left. -/
lemma Builds.release {start size fuel : Nat} (enough : others.length < fuel)
    (freed : freeScatter spec attr state ((start, size) :: parts) = some after) :
    ∃ last, freeNodes spec attr id scatter fuel state
      (heap.set scatter ⟨(heap.node scatter).mNext, start, size⟩) scatter =
        some (after, last) ∧ last.nodes = base := by
  obtain ⟨listed, stored, nodes⟩ := builds.store start size
  obtain ⟨last, reached, left⟩ := freeNodes_spec listed enough (stored.symm ▸ freed)
  refine ⟨last, reached, Finset.ext fun node => (left node).trans ?_⟩
  have absent : scatter ∉ others := (List.nodup_cons.mp builds.listed.nodup).1
  rw [nodes, builds.nodes, Finset.mem_union, List.mem_toFinset, List.mem_cons]
  constructor
  · rintro ⟨old | new, only⟩
    · exact old
    · exact absurd (only (.inr new) ▸ new) absent
  · exact fun old => ⟨.inl old, fun mem => mem.elim id fun new => absurd old (builds.apart node new)⟩

/-- The loop with nodes follows the loop over the parts. -/
lemma nodesLoop_refines {minScatter zone fuel turns bytes : Nat} {kmalloc : List Kmalloc}
    {outcome : Option (List (Nat × Nat))} (fresh : FreshNodes base scatter others kmalloc)
    (enough : others.length + turns ≤ fuel)
    (reached : scatterLoop spec minScatter attr zone turns state bytes
      (kmalloc ++ [.inHeap false]) parts =
      some (after, outcome)) :
    ∃ last, nodesLoop spec minScatter attr zone id scatter fuel turns state heap bytes kmalloc =
        some (after, last, outcome.isSome) ∧
      (outcome = none → last.nodes = base) ∧
      ∀ all, outcome = some all → ∃ behind, last.Lists scatter (scatter :: behind) ∧
        last.parts (scatter :: behind) = all ∧ last.nodes = base ∪ behind.toFinset ∧
          ∀ node ∈ behind, node ∉ base := by
  induction turns generalizing state heap bytes kmalloc others parts with
  | zero => exact absurd reached (some_ne_none _).symm
  | succ turns ih =>
    obtain ⟨⟨taken, start, size⟩, found, later⟩ := bind_eq_some_iff.mp reached
    rw [nodesLoop, found, bind_some]
    -- A failure frees what was handed out and keeps the old nodes.
    have fails : ∀ left held {whole : ScatterHeap → List (Nat × Nat) → Prop},
        (freeScatter spec attr left ((start, held) :: parts)).map (·, none) = some (after, outcome) →
        ∃ last, (freeNodes spec attr id scatter fuel left
            (heap.set scatter ⟨(heap.node scatter).mNext, start, held⟩) scatter).map
            (fun (freed, heap) => (freed, heap, false)) = some (after, last, outcome.isSome) ∧
          (outcome = none → last.nodes = base) ∧ ∀ all, outcome = some all → whole last all := by
      intro left held whole failed
      obtain ⟨freed, stored, same⟩ := map_eq_some_iff.mp failed
      obtain ⟨rfl, rfl⟩ := Prod.mk.inj same
      obtain ⟨last, released, nodes⟩ := builds.release (show others.length < fuel by omega) stored
      refine ⟨last, ?_, fun _ => nodes, fun all same => absurd same.symm (some_ne_none all)⟩
      rw [released]
      rfl
    by_cases error : start = spec.pageError
    · simp only [if_pos error] at later ⊢
      exact fails taken 0 later
    simp only [if_neg error] at later ⊢
    by_cases complete : bytes = size
    · rw [if_pos complete] at later ⊢
      obtain ⟨rfl, rfl⟩ := Prod.mk.inj (some.inj later)
      obtain ⟨listed, stored, nodes⟩ := builds.store start size
      refine ⟨_, rfl, fun never => absurd never (some_ne_none _), fun all same =>
        ⟨others, listed, ?_, ?_, builds.apart⟩⟩
      · rw [stored, some.inj same]
      · rw [nodes, builds.nodes]
    · rw [if_neg complete] at later ⊢
      cases kmalloc with
      | nil => exact fails taken size later
      | cons call rest =>
        obtain ⟨address, pages⟩ := call
        cases address with
        | none => exact fails (pages taken) size later
        | some sNext =>
          obtain ⟨outside, different, unused⟩ := fresh.unused sNext mem_cons_self
          have once : (sNext :: rest.filterMap Kmalloc.node).Nodup := fresh.once
          refine ih (builds.push start size different unused outside)
            ⟨fun address mem => ?_, ?_⟩ ?_ later
          · obtain ⟨old, first, listed⟩ := fresh.unused address (mem_cons_of_mem _ mem)
            refine ⟨old, first, fun again => ?_⟩
            rcases mem_cons.mp again with rfl | again
            · exact (nodup_cons.mp once).1 mem
            · exact listed again
          · exact (nodup_cons.mp once).2
          · rw [length_cons]
            omega

end

/-- Two free pages with a used page between them. -/
def holedMemory : PageState :=
  historyMemory [.addmemory 1 0x100000 0x3000, .mallocIn 0x101000 0x101000 0x1000 false]

/-- Three free pages with used pages between them. -/
def singleMemory : PageState := historyMemory [.addmemory 1 0x100000 0x5000,
  .mallocIn 0x101000 0x101000 0x1000 false, .mallocIn 0x103000 0x103000 0x1000 false]

/-- A call of `kmalloc` that takes the page in the middle for its heap. -/
def growingHeap : Kmalloc :=
  ⟨some 2,
    fun state => ((state.pageMallocIn i386 0x102000 0x102000 0x1000 false).map Prod.fst).getD state⟩

end PageState

end KosKernel.Memory
