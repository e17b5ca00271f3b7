/- The futex list of a region from `kernel/mman/futex.c`, for one call at a time and a region that
is not deleted. -/

import KosKernel.Library.LinkList
import KosKernel.Library.StepRun

namespace KosKernel.Mman
open LinkList StepRun Function List

/-- The futexes of a region. -/
structure MFutexList where
  links : Links Unit
  fRefcnt : Nat → UInt32
  fAddr : Nat → Nat

/-- The calls on a futex list. The allocation of a call succeeds and gives the fresh futex. -/
inductive FutexCall where
  | get (addr : Nat)
  | new (addr fresh : Nat)
  | drop (futex : Nat)

namespace MFutexList

/-- The walk stops at the link to the first futex that does not lie below the address. -/
def seek (self : MFutexList) (addr : Nat) : Nat → Link Unit → Option (Link Unit)
  | 0, _ => none
  | fuel + 1, iter =>
    match self.links.target iter with
    | none => some iter
    | some result => if addr ≤ self.fAddr result then some iter else self.seek addr fuel (.next result)

variable (self : MFutexList)

/-- A futex gets one reference more. -/
def incref (futex : Nat) : MFutexList :=
  { self with fRefcnt := update self.fRefcnt futex (self.fRefcnt futex + 1) }

variable (fuel addr : Nat)

/-- The walk of `mfutexptr_get` and `mfutexptr_new`, which differ if there is no live futex. -/
def lookup (missing : Option (MFutexList × Option Nat)) : Option (MFutexList × Option Nat) :=
  (self.seek addr fuel (.head ())).bind fun iter =>
    match self.links.target iter with
    | none => missing
    | some result =>
      if self.fAddr result ≠ addr ∨ self.fRefcnt result = 0 then missing else some
        (self.incref result, some result)

/-- This is `mfutexptr_get`. -/
def mfutexptrGet : Option (MFutexList × Option Nat) :=
  self.lookup fuel addr (some (self, none))

/-- This is `mfutexptr_new`. Its test of the allocation is the wrong way round. -/
def mfutexptrNew (allocated : Option Nat) : Option (MFutexList × Option Nat) :=
  self.lookup fuel addr (allocated.map fun _ => (self, none))

/-- This is `mfutex_destroy`. -/
def mfutexDestroy (futex : Nat) : MFutexList :=
  { self with links := self.links.connect (self.links.self futex) (self.links.target (.next futex)) }

/-- This is `MFUTEX_DECREF`. -/
def decref (futex : Nat) : MFutexList :=
  let after := { self with fRefcnt := update self.fRefcnt futex (self.fRefcnt futex - 1) }
  if after.fRefcnt futex = 0 then after.mfutexDestroy futex else after

/-- A call and the futex that it returns. -/
def perform (fuel : Nat) (self : MFutexList) : FutexCall → Option (MFutexList × Option Nat)
  | .get addr => self.mfutexptrGet fuel addr
  | .new addr fresh => self.mfutexptrNew fuel addr (some fresh)
  | .drop futex => some (self.decref futex, none)

/-- The state that a call leaves. -/
def step (fuel : Nat) (self : MFutexList) (call : FutexCall) : Option MFutexList :=
  (self.perform fuel call).map (·.1)

/-- The futexes of the list in their order. -/
def live (fuel : Nat) : List Nat := self.links.nodes fuel (self.links.target (.head ()))

/-- The list ascends strictly, its self pointers are right and its futexes are referenced. -/
structure Sorted (fuel : Nat) (list : MFutexList) : Prop where
  chain : Chain list.links (.head ()) (list.live fuel)
  ascending : (list.live fuel).Pairwise (list.fAddr · < list.fAddr ·)
  referenced : ∀ futex ∈ list.live fuel, list.fRefcnt futex ≠ 0
  enough : (list.live fuel).length < fuel

/-- New futexes are only asked for where one is live, and no counter wraps. -/
def Allowed (fuel : Nat) (self : MFutexList) : FutexCall → Prop
  | .get addr => ∀ futex ∈ self.live fuel, self.fAddr futex = addr → self.fRefcnt futex + 1 ≠ 0
  | .new addr _ => ∃ futex ∈ self.live fuel, self.fAddr futex = addr ∧ self.fRefcnt futex + 1 ≠ 0
  | .drop futex => futex ∈ self.live fuel

instance : (call : FutexCall) → Decidable (self.Allowed fuel call)
  | .get _ => inferInstanceAs (Decidable (∀ _ ∈ _, _))
  | .new _ _ => inferInstanceAs (Decidable (∃ _ ∈ _, _))
  | .drop _ => inferInstanceAs (Decidable (_ ∈ _))

/-- The reply is exactly the live futex of the address. -/
def Answers (fuel : Nat) (self : MFutexList) (addr : Nat) (reply : Option Nat) : Prop :=
  ∀ futex, reply = some futex ↔ futex ∈ self.live fuel ∧ self.fAddr futex = addr

/-- A call leaves the list with the right answer, and a new futex is always returned. -/
def Right (fuel : Nat) (after : MFutexList) : FutexCall → Option Nat → Prop
  | .get addr, reply => after.Answers fuel addr reply
  | .new addr _, reply => reply ≠ none ∧ after.Answers fuel addr reply
  | .drop _, _ => True

/-- The list is sorted, and every call that meets the condition is right. -/
def Correct (fuel : Nat) (self : MFutexList) : Prop :=
  self.Sorted fuel ∧ ∀ call, self.Allowed fuel call →
    ∃ after reply, self.perform fuel call = some (after, reply) ∧ after.Right fuel call reply

variable {fuel futex addr : Nat} {self : MFutexList}

/-- The walk stops between the futexes below the address and the others. -/
lemma seek_split (addr : Nat) {nodes : List Nat} {iter : Link Unit} (chain : Chain self.links iter nodes)
    (enough : nodes.length < fuel) :
    ∃ front back found, nodes = front ++ back ∧ self.seek addr fuel iter = some found ∧
      self.links.target found = back.head? ∧ (∀ below ∈ front, self.fAddr below < addr) ∧
      ∀ first ∈ back.head?, addr ≤ self.fAddr first := by
  obtain _ | turns := fuel
  · omega
  induction nodes generalizing iter turns with
  | nil => exact ⟨[], [], iter, rfl,
      by rw [seek, show self.links.target iter = none from chain], chain, by simp, by simp⟩
  | cons node rest ih =>
    rw [length_cons] at enough
    obtain _ | more := turns
    · omega
    by_cases reached : addr ≤ self.fAddr node
    · exact ⟨[], node :: rest, iter, rfl, by simp [seek, chain.1, if_pos reached], chain.1, by
        simp, by simpa⟩
    obtain ⟨front, back, found, rfl, sought, target, below, above⟩ := ih chain.2.2 more (by omega)
    refine ⟨node :: front, back, found, rfl, ?_, target, ?_, above⟩
    · rw [seek, chain.1]
      exact (if_neg reached).trans sought
    · exact forall_mem_cons.mpr ⟨by omega, below⟩

section
variable (sorted : self.Sorted fuel)
include sorted

/-- A lookup references the live futex of its address, or there is none. -/
lemma Sorted.lookup (addr : Nat) (missing : Option (MFutexList × Option Nat)) :
    (∃ futex ∈ self.live fuel, self.fAddr futex = addr ∧
      self.lookup fuel addr missing = some (self.incref futex, some futex)) ∨
    (∀ futex ∈ self.live fuel, self.fAddr futex ≠ addr) ∧ self.lookup fuel addr missing = missing := by
  obtain ⟨front, back, found, split, sought, target, below, above⟩ :=
    seek_split addr sorted.chain sorted.enough
  have ascending := sorted.ascending
  rw [split] at ascending
  simp only [MFutexList.lookup, sought, Option.bind_some, target, split, mem_append]
  cases back with
  | nil => exact .inr ⟨fun futex mem => (below futex (by simpa using mem)).ne, rfl⟩
  | cons node rest =>
    have reached : addr ≤ self.fAddr node := above node rfl
    have later := (pairwise_cons.mp (pairwise_append.mp ascending).2.1).1
    by_cases same : self.fAddr node = addr
    · exact .inl ⟨node, by simp, same, if_neg (by simp [same, sorted.referenced node (by simp [split])])⟩
    refine .inr ⟨?_, if_pos (.inl same)⟩
    rintro futex (mem | mem)
    · exact (below futex mem).ne
    · rcases mem_cons.mp mem with rfl | mem
      · exact same
      · have := later futex mem
        omega

/-- A live futex is the only answer for its address. -/
lemma Sorted.answers (mem : futex ∈ self.live fuel) (same : self.fAddr futex = addr) :
    self.Answers fuel addr (some futex) := by
  have distinct : ((self.live fuel).map self.fAddr).Nodup :=
    pairwise_map.mpr (sorted.ascending.imp Nat.ne_of_lt)
  refine fun other => ⟨?_, fun ⟨listed, equal⟩ => ?_⟩
  · rintro ⟨⟩
    exact ⟨mem, same⟩
  · exact congrArg some (inj_on_of_nodup_map distinct mem listed (same.trans equal.symm))

lemma Sorted.incref (room : self.fRefcnt futex + 1 ≠ 0) : (self.incref futex).Sorted fuel where
  chain := sorted.chain
  ascending := sorted.ascending
  referenced := by
    intro other mem
    simp only [MFutexList.incref, update_apply]
    split
    · exact room
    · exact sorted.referenced other mem
  enough := sorted.enough

/-- The last reference takes its futex out of the list. -/
lemma Sorted.decref (mem : futex ∈ self.live fuel) : (self.decref futex).Sorted fuel := by
  obtain ⟨chain, ascending, referenced, enough⟩ := sorted
  have others : ∀ other ∈ self.live fuel, other ≠ futex →
    update self.fRefcnt futex (self.fRefcnt futex - 1) other ≠ 0 := by
    intro other listed differs
    rw [update_of_ne differs]
    exact referenced other listed
  unfold MFutexList.decref
  dsimp only
  split
  · obtain ⟨front, back, split⟩ := append_of_mem mem
    have distinct : (self.live fuel).Nodup :=
      ascending.imp fun less same => less.ne (congrArg self.fAddr same)
    rw [split] at chain ascending distinct enough others
    have kept : (front ++ back).Sublist (front ++ futex :: back) := by simp
    have shorter : (front ++ back).length < fuel := lt_of_le_of_lt kept.length_le enough
    have removed := chain_remove chain (away_head () _) distinct
    have lists := removed.nodes_eq shorter
    refine ⟨?_, ?_, fun other listed => ?_, ?_⟩
    all_goals simp only [live, mfutexDestroy] at *
    · rwa [lists]
    · rw [lists]
      exact ascending.sublist kept
    · rw [lists] at listed
      exact others other (kept.subset listed) fun same =>
        (nodup_middle.mp distinct).notMem (same ▸ listed)
    · rwa [lists]
  · next more =>
    refine ⟨chain, ascending, fun other listed => ?_, enough⟩
    by_cases same : other = futex
    · exact same ▸ more
    · exact others other listed same

/-- A call that meets the condition is right and keeps the list sorted. -/
lemma Sorted.perform {call : FutexCall} (allowed : self.Allowed fuel call) :
    ∃ after reply, self.perform fuel call = some (after, reply) ∧ after.Sorted fuel ∧
    after.Right fuel call reply := by
  cases call with
  | get addr =>
    rcases sorted.lookup addr (some (self, none)) with ⟨futex, mem, same, found⟩ | ⟨absent, missed⟩
    · exact ⟨_, _, found, sorted.incref (allowed futex mem same), sorted.answers mem same⟩
    · refine ⟨_, _, missed, sorted, fun other => iff_of_false (Option.some_ne_none other).symm ?_⟩
      exact fun ⟨listed, equal⟩ => absent other listed equal
  | new addr fresh =>
    obtain ⟨futex, mem, same, room⟩ := allowed
    have answers := sorted.answers mem same
    rcases sorted.lookup addr (some (self, none)) with ⟨other, listed, equal, found⟩ | ⟨absent, _⟩
    · obtain rfl : futex = other := Option.some.inj ((answers other).mpr ⟨listed, equal⟩)
      exact ⟨_, _, found, sorted.incref room, Option.some_ne_none futex, answers⟩
    · exact absurd same (absent futex mem)
  | drop futex => exact ⟨_, _, rfl, sorted.decref allowed, trivial⟩

end

/-- A list with two futexes. -/
def pair : MFutexList where
  links := ⟨fun link => if link = .head () then some 7 else if link = .next 7 then some 8 else none,
    fun futex => if futex = 8 then .next 7 else .head ()⟩
  fRefcnt _ := 1
  fAddr futex := if futex = 8 then 128 else 64

/-- The list of a new region. -/
def empty : MFutexList := ⟨⟨fun _ => none, fun _ => .head ()⟩, fun _ => 0, fun _ => 0⟩

end MFutexList

end KosKernel.Mman
