/- This file embeds `mem_unpreserve` of `kernel/memory/install.c`. -/

import KosKernel.Memory.MemInfoSweep

namespace KosKernel.Memory.MemInfoVec
open Breakpoints List Option

/-- The jumps to `delete_iter` remove the next slot as long as it is `MEMTYPE_RAM`. -/
def mergeNexts (iter : Nat) : Nat → MemInfoVec → Option MemInfoVec
  | 0, self => some self
  | slots + 1, self =>
    if iter + 1 ≠ self.c ∧ (self.v (iter + 1)).miType = .ram then (self.delete (iter + 1)).bind
      (mergeNexts iter slots)
    else some self

variable (target : MemTarget)

/-- A preserved entry hands over its pages. The begin is subtracted from the end twice. -/
def handOver (self : MemInfoVec) (iter : Nat) : Nat × List PageEvent :=
  if (self.v iter).miType = .preserve then
    let infoBegin := ceilAlign target.bits (self.v iter).miAddr
    let infoEnd := floorAlign (self.endAddr iter)
    if infoBegin < infoEnd then
      let infoEnd := infoEnd - infoBegin
      (infoEnd, [.addmemory infoBegin ((infoEnd + (2 ^ target.bits - infoBegin)) % 2 ^ target.bits)])
    else (0, [])
  else (0, [])

/-- The loop of `mem_unpreserve`. -/
def unpreserveLoop (target : MemTarget) :
    Nat → MemInfoVec → Nat → Nat → List PageEvent → Option (MemInfoVec × Nat × List PageEvent)
  | 0, _, _, _, _ => none
  | turns + 1, self, iter, result, events =>
    if iter < self.c then
      if (self.v iter).miType ≠ .allocated ∧ (self.v iter).miType ≠ .preserve then
        unpreserveLoop target turns self (iter + 1) result events
      else
        let handed := self.handOver target iter
        let marked := self.setType iter .ram
        (if iter ≠ 0 ∧ (marked.v (iter - 1)).miType = .ram then (marked.delete iter).map (·, iter - 1)
        else some (marked, iter)).bind fun (joined, iter) =>
        (mergeNexts iter joined.c joined).bind fun merged =>
          unpreserveLoop target turns merged (iter + 1) ((result + handed.1) % 2 ^ target.bits)
            (events ++ handed.2)
    else some (self, result, events)

/-- This is `mem_unpreserve`, with its result and the calls to the page allocator. -/
def memUnpreserve (self : MemInfoVec) : Option (MemInfoVec × Nat × List PageEvent) :=
  unpreserveLoop target (self.c + 1) self 0 0 []

/-- The type of an entry afterwards. -/
def freedType (type : MemType) : MemType := if type = .preserve ∨ type = .allocated then .ram else type

def freedEntry (entry : MemInfo) : MemInfo := { entry with miType := freedType entry.miType }

/-- The end of an entry for `mem_unpreserve`. The last entry ends at zero. -/
def endOf (back : List MemInfo) : Nat := (back.head?.map MemInfo.miAddr).getD 0

/-- The whole pages of a preserved entry, with their begin and their size. -/
def offer (entry : MemInfo) (back : List MemInfo) : List (Nat × Nat) :=
  if entry.miType = .preserve ∧ ceilAlign target.bits entry.miAddr < floorAlign (endOf back) then
    [(ceilAlign target.bits entry.miAddr, floorAlign (endOf back) - ceilAlign target.bits entry.miAddr)]
  else []

def offers (target : MemTarget) : List MemInfo → List (Nat × Nat)
  | [] => []
  | entry :: back => offer target entry back ++ offers target back

/-- The call for an offer. -/
def offerEvent (offer : Nat × Nat) : PageEvent :=
  .addmemory offer.1 ((offer.2 + (2 ^ target.bits - offer.1)) % 2 ^ target.bits)

variable {target : MemTarget} {self : MemInfoVec} {done todo back : List MemInfo} {entry : MemInfo}

/-- Without a stop position the jumps delete the same slots. -/
lemma mergeNexts_eq {iter slots stop : Nat} (enough : slots ≤ stop) :
    mergeNexts iter slots self = (deleteNexts iter slots self stop).map Prod.fst := by
  induction slots generalizing self stop with
  | zero => rfl
  | succ slots ih =>
    rw [mergeNexts, deleteNexts]
    split
    · rw [if_neg (by omega), map_bind]
      refine bind_congr fun deleted _ => ?_
      exact ih (by omega)
    · rfl

lemma mergeNexts_entries {front dropped : List MemInfo}
    (held : self.entries = front ++ dropped ++ back) {iter : Nat}
    (position : front.length = iter + 1) (rams : ∀ entry ∈ dropped, IsRam entry)
    (other : ∀ entry ∈ back.head?, ¬ IsRam entry) :
    ∃ merged, mergeNexts iter self.c self = some merged ∧ merged.entries = front ++ back := by
  have short : dropped.length ≤ self.c := by
    rw [c_eq held, length_append, length_append]
    omega
  obtain ⟨merged, deletes, left⟩ := deleteNexts_entries held position rams other short short
  exact ⟨merged, by rw [mergeNexts_eq le_rfl, deletes, map_some], left⟩

lemma endAddr_eq (held : self.entries = done ++ entry :: back) :
    self.endAddr done.length = endOf back := by
  have length := c_eq held
  rw [length_append, length_cons] at length
  cases back with
  | nil => exact if_neg (by simp only [length_nil] at length; omega)
  | cons next rest =>
    rw [endAddr, if_pos (by simp only [length_cons] at length; omega)]
    rw [append_cons] at held
    have slot := (slot_eq held).1
    rw [length_append, length_singleton] at slot
    rw [slot]
    rfl

/-- The first part of a turn makes the offer of its entry. -/
lemma handOver_eq (held : self.entries = done ++ entry :: back) : self.handOver target done.length =
    (((offer target entry back).map Prod.snd).sum,
      (offer target entry back).map (offerEvent target)) := by
  rw [handOver, (slot_eq held).1, endAddr_eq held, offer]
  by_cases preserved : entry.miType = .preserve
  · rw [if_pos preserved]
    by_cases filled : ceilAlign target.bits entry.miAddr < floorAlign (endOf back)
    · simp only [if_pos filled, if_pos (And.intro preserved filled)]
      rfl
    · simp only [if_neg filled, if_neg fun both => filled (And.right both)]
      rfl
  · rw [if_neg preserved, if_neg fun both => preserved both.1]
    rfl

/-- Only preserved entries are offered. -/
lemma offer_other (other : entry.miType ≠ .preserve) (back : List MemInfo) :
    offer target entry back = [] :=
  if_neg fun both => other both.1

lemma offers_rams {rams : List MemInfo} (allRam : ∀ entry ∈ rams, IsRam entry) (others : List MemInfo) :
    offers target (rams ++ others) = offers target others := by
  induction rams with
  | nil => rfl
  | cons first rams ih =>
    have ram : first.miType = .ram := allRam first mem_cons_self
    rw [cons_append, offers, offer_other (by rw [ram]; decide)]
    exact ih fun entry mem => allRam entry (mem_cons_of_mem first mem)

lemma freedEntry_other (other : entry.miType ≠ .allocated ∧ entry.miType ≠ .preserve) :
    freedEntry entry = entry := by
  unfold freedEntry freedType
  rw [if_neg fun either => either.elim other.2 other.1]

lemma freedEntry_isRam (freed : ¬ (entry.miType ≠ .allocated ∧ entry.miType ≠ .preserve)) :
    IsRam (freedEntry entry) := by
  have either : entry.miType = .preserve ∨ entry.miType = .allocated := by
    by_contra neither
    exact freed ⟨fun allocated => neither (.inr allocated), fun preserved => neither (.inl preserved)⟩
  exact if_pos either

/-- A turn for a freed entry leaves a `MEMTYPE_RAM` entry at the end of the finished part. -/
lemma unpreserveLoop_turn (held : self.entries = done ++ entry :: back)
    (freed : ¬ (entry.miType ≠ .allocated ∧ entry.miType ≠ .preserve))
    (quiet : done.IsChain NotBothRam) (turns result : Nat) (events : List PageEvent) :
    ∃ (front : List MemInfo) (joined : MemInfoVec), Settled done (freedEntry entry) front ∧
    joined.entries = front ++ back ∧
      unpreserveLoop target (turns + 1) self done.length result events =
        (mergeNexts (front.length - 1) joined.c joined).bind fun merged =>
          unpreserveLoop target turns merged front.length
            ((result + ((offer target entry back).map Prod.snd).sum) % 2 ^ target.bits)
            (events ++ (offer target entry back).map (offerEvent target)) := by
  obtain ⟨slot, used⟩ := slot_eq held
  have ram := freedEntry_isRam freed
  have marked : (self.setType done.length .ram).entries = done ++ freedEntry entry :: back := by
    have typed : ({ entry with miType := .ram } : MemInfo) = freedEntry entry := by
      rw [freedEntry, show freedType entry.miType = .ram from ram]
    rw [setType, slot, set_entries held, typed]
  rw [unpreserveLoop, if_pos used, slot, if_neg freed]
  simp only [handOver_eq held]
  rcases previous_cases marked ram quiet with ⟨kept, settled⟩ | ⟨follows, settled⟩
  · refine ⟨_, _, settled, by simpa using marked, ?_⟩
    rw [if_neg kept]
    simp
  · obtain ⟨deleted, deletes, left⟩ := delete_entries marked
    refine ⟨_, deleted, settled, left, ?_⟩
    rw [if_pos follows, deletes, map_some, bind_some]
    simp only [Nat.sub_one_add_one follows.1]

/-- The loop offers the entries in turn, frees them and merges `MEMTYPE_RAM` neighbours. -/
lemma unpreserveLoop_spec (turns : Nat) (held : self.entries = done ++ todo)
    (enough : todo.length < turns) (quiet : done.IsChain NotBothRam) (chain : todo.IsChain Differ)
    (border : ∀ last ∈ done.getLast?, IsRam last → ∀ first ∈ todo.head?, ¬ IsRam first) {result : Nat}
    (small : result < 2 ^ target.bits) (events : List PageEvent) :
    ∃ final, unpreserveLoop target turns self done.length result events =
        some (final, (result + ((offers target todo).map Prod.snd).sum) % 2 ^ target.bits,
          events ++ (offers target todo).map (offerEvent target)) ∧
      final.entries = (done ++ todo.map freedEntry).destutter NotBothRam := by
  induction turns generalizing self done todo result events with
  | zero => omega
  | succ turns ih =>
    cases todo with
    | nil =>
      rw [append_nil] at held
      refine ⟨self, ?_, ?_⟩
      · rw [unpreserveLoop, if_neg (by rw [c_eq held]; exact lt_irrefl _)]
        simp [offers, Nat.mod_eq_of_lt small]
      · rw [held, map_nil, append_nil, destutter_of_isChain _ _ quiet]
    | cons entry back =>
      rw [length_cons] at enough
      by_cases freed : entry.miType ≠ .allocated ∧ entry.miType ≠ .preserve
      · obtain ⟨slot, used⟩ := slot_eq held
        have moved : self.entries = (done ++ [entry]) ++ back := by simpa using held
        have front : (done ++ [entry]).IsChain NotBothRam := isChain_append.mpr
          ⟨quiet, isChain_singleton _, fun last isLast next isNext both => by
            obtain rfl : entry = next := by simpa using isNext
            exact border last isLast both.1 entry rfl both.2⟩
        obtain ⟨final, runs, finalHeld⟩ :=
          ih moved (by omega) front chain.tail (fun last isLast isRam next isNext nextRam => by
          obtain rfl : entry = last := by simpa using isLast
          obtain ⟨rest, rfl⟩ := List.head?_eq_some_iff.mp isNext
          exact (isChain_cons_cons.mp chain).1 (isRam.trans nextRam.symm)) small events
        refine ⟨final, ?_, ?_⟩
        · rw [unpreserveLoop, if_pos used, slot, if_pos freed, offers, offer_other freed.2]
          rw [length_append] at runs
          exact runs
        · rw [finalHeld, map_cons, freedEntry_other freed, append_assoc, singleton_append]
      · obtain ⟨front, joined, ⟨filled, frontQuiet, last, same⟩, joinedHeld, turn⟩ :=
          unpreserveLoop_turn held freed quiet turns result events
        have frontLength := length_pos_iff.mpr filled
        obtain ⟨rams, others, rfl, allRam, noRam, _⟩ := exists_rams back
        obtain ⟨merged, merges, left⟩ := mergeNexts_entries (by simpa using joinedHeld)
          (show front.length = front.length - 1 + 1 by omega) allRam noRam
        have freedRams : ∀ ram ∈ rams.map freedEntry, IsRam ram := by
          intro ram mem
          obtain ⟨origin, isMember, rfl⟩ := mem_map.mp mem
          have isRam := allRam origin isMember
          rwa [freedEntry_other (by rw [isRam]; decide)]
        rw [length_append] at enough
        obtain ⟨final, runs, finalHeld⟩ := ih left (by omega) frontQuiet chain.tail.right_of_append
          (fun _ _ _ => noRam) (Nat.mod_lt _ (Nat.two_pow_pos _)) _
        refine ⟨final, ?_, ?_⟩
        · rw [turn, merges, bind_some, runs, offers, offers_rams allRam, map_append, map_append,
            sum_append, Nat.mod_add_mod, Nat.add_assoc, append_assoc]
        · rw [finalHeld, map_cons, same, map_append, destutter_rams last filled freedRams]

end KosKernel.Memory.MemInfoVec
