import KosKernel.Hybrid.OwnerRwlock
import KosKernel.Library.UpdateSum

namespace KosKernel.Hybrid
open Function List

lemma wflag_eq : wflag = 2147483648 := rfl

lemma flagged_of_lt {word : Nat} (small : word < wflag) : flagged word = false := by
  have none : word &&& 2 ^ 31 = 0 := by
    rw [Nat.and_two_pow, Nat.testBit_lt_two_pow (show word < 2 ^ 31 from small)]
    rfl
  rw [flagged, show wflag = 2 ^ 31 from rfl, none]
  rfl

variable {count : Nat} {rest : List Hold}

lemma flagged_add (small : count < wflag) : flagged (wflag + count) = true := by
  have one : (wflag + count) &&& 2 ^ 31 = 2 ^ 31 := by
    rw [Nat.and_two_pow, show wflag = 2 ^ 31 from rfl, Nat.testBit_two_pow_add_eq,
      Nat.testBit_lt_two_pow small]
    rfl
  rw [flagged, show wflag = 2 ^ 31 from rfl, show 2 ^ 31 + count = wflag + count from rfl, one]
  rfl

lemma and_nmask (word : Nat) : word &&& nmask = word % wflag := Nat.and_two_pow_sub_one_eq_mod word 31

/-- The count of a word that has the write flag. -/
lemma and_nmask_add (small : count < wflag) : (wflag + count) &&& nmask = count := by
  rw [and_nmask, Nat.add_mod_left, Nat.mod_eq_of_lt small]

section Encoding
variable {Thread : Type} [Fintype Thread]

/-- The lock word counts the read locks, or has the write flag and the further locks. -/
inductive Encodes (holds : Thread → List Hold) : Nat → Prop
  | shared (reads : ∀ thread, ∀ hold ∈ holds thread, hold = .read) (small : ∑ thread,
    (holds thread).length < wflag) :
      Encodes holds (∑ thread, (holds thread).length)
  | owned (writer : Thread) (above : List Hold) (base : holds writer = above ++ [.write])
      (others : ∀ thread, thread ≠ writer → holds thread = []) (small : above.length < wflag) :
      Encodes holds (wflag + above.length)

variable {holds : Thread → List Hold} {word : Nat} {self : Thread} {stack : List Hold}
namespace Encodes

section
variable (encodes : Encodes holds word)
include encodes

/-- Either no thread writes, or the writer holds the lock alone. -/
lemma flagged_iff : flagged word = true ↔ ∃ thread, .write ∈ holds thread := by
  cases encodes with
  | shared reads small =>
    rw [flagged_of_lt small]
    refine iff_of_false Bool.false_ne_true fun ⟨thread, mem⟩ => ?_
    exact Hold.noConfusion (reads thread .write mem)
  | owned writer above base others small =>
    exact iff_of_true (flagged_add small) ⟨writer, by simp [base]⟩

lemma zero_iff : word = 0 ↔ ∀ thread, holds thread = [] := by
  cases encodes with
  | shared reads small =>
    rw [Finset.sum_eq_zero_iff]
    exact ⟨fun all thread => length_eq_zero_iff.mp (all thread (Finset.mem_univ thread)),
      fun all thread _ => by rw [all thread]; rfl⟩
  | owned writer above base others small =>
    refine iff_of_false (Nat.ne_of_gt (Nat.lt_add_right _ (by decide))) fun all => ?_
    have empty := all writer
    rw [base] at empty
    simp at empty

/-- The word of a writer. -/
lemma of_write (writes : .write ∈ holds self) :
    ∃ above, holds self = above ++ [.write] ∧ (∀ thread, thread ≠ self → holds thread = []) ∧
    above.length < wflag ∧
      word = wflag + above.length := by
  cases encodes with
  | shared reads small => exact Hold.noConfusion (reads self .write writes)
  | owned writer above base others small =>
    obtain rfl : self = writer := by
      by_contra differs
      rw [others self differs] at writes
      exact absurd writes not_mem_nil
    exact ⟨above, base, others, small, rfl⟩

lemma exclusive {other : Thread} (writes : .write ∈ holds self) (differs : other ≠ self) :
    holds other = [] := by
  obtain ⟨_, _, others, _⟩ := encodes.of_write writes
  exact others other differs

lemma of_not_flagged (free : flagged word = false) :
    (∀ thread, ∀ hold ∈ holds thread, hold = .read) ∧ word = ∑ thread, (holds thread).length ∧
    word < wflag := by
  cases encodes with
  | shared reads small => exact ⟨reads, rfl, small⟩
  | owned writer above base others small => exact Bool.noConfusion ((flagged_add small).symm.trans free)

end

/-- The free lock. -/
lemma init : Encodes (fun _ : Thread => []) 0 := by
  have zero : ∑ _thread : Thread, ([] : List Hold).length = 0 := by simp
  have encoded : Encodes (fun _ : Thread => []) (∑ _thread : Thread, ([] : List Hold).length) :=
    .shared (fun thread hold mem => absurd mem not_mem_nil) (by rw [zero]; decide)
  rwa [zero] at encoded

/-- The word is a number of 32 bits, and one more lock can be counted. -/
lemma space (encodes : Encodes holds word) (space : word &&& nmask < nmask) :
    word + 1 < 2 ^ 32 ∧ (flagged word = false → word + 1 < wflag) := by
  have bound : nmask + 1 = wflag := rfl
  by_cases set : flagged word = true
  · obtain ⟨writer, writes⟩ := encodes.flagged_iff.mp set
    obtain ⟨above, -, -, small, rfl⟩ := encodes.of_write writes
    rw [and_nmask_add small] at space
    refine ⟨?_, fun free => Bool.noConfusion (set.symm.trans free)⟩
    rw [wflag_eq] at bound ⊢
    omega
  · obtain ⟨-, -, small⟩ := encodes.of_not_flagged (Bool.eq_false_iff.mpr set)
    rw [and_nmask, Nat.mod_eq_of_lt small] at space
    rw [wflag_eq] at bound small ⊢
    exact ⟨by omega, fun _ => by omega⟩

end Encodes

variable [DecidableEq Thread]
namespace Encodes

/-- The stack of a thread changes and the word with it. -/
lemma put_shared (self : Thread) (stack : List Hold) (word : Nat)
    (reads : ∀ thread, ∀ hold ∈ holds thread, hold = .read) (onlyReads : ∀ hold ∈ stack, hold = .read)
    (count : word + (holds self).length = ∑ thread, (holds thread).length + stack.length)
    (small : word < wflag) :
    Encodes (update holds self stack) word := by
  have sum := UpdateSum.sum_update List.length holds self stack
  obtain rfl : word = ∑ thread, (update holds self stack thread).length := by omega
  refine .shared (fun thread hold mem => ?_) small
  by_cases same : thread = self
  · rw [same, update_self] at mem
    exact onlyReads hold mem
  · rw [update_of_ne same] at mem
    exact reads thread hold mem

lemma put_owned (above : List Hold) (others : ∀ thread, thread ≠ self → holds thread = [])
    (small : above.length < wflag) :
    Encodes (update holds self (above ++ [.write])) (wflag + above.length) := by
  refine .owned self above (update_self _ _ _) (fun thread differs => ?_) small
  rw [update_of_ne differs]
  exact others thread differs

/-- A reader enters. -/
lemma read (encodes : Encodes holds word) (free : flagged word = false) (space : word + 1 < wflag) :
    Encodes (update holds self (.read :: holds self)) (word + 1) := by
  obtain ⟨reads, sum, -⟩ := encodes.of_not_flagged free
  refine put_shared self _ _ reads (fun hold mem => ?_) (by rw [length_cons]; omega) space
  obtain rfl | mem := mem_cons.mp mem
  · rfl
  · exact reads self hold mem

/-- The writer enters once more. -/
lemma again (encodes : Encodes holds word) (writes : .write ∈ holds self) (hold : Hold)
    (space : word + 1 < 2 ^ 32) :
    Encodes (update holds self (hold :: holds self)) (word + 1) := by
  obtain ⟨above, base, others, small, rfl⟩ := encodes.of_write writes
  rw [base, ← cons_append]
  exact put_owned _ others (by rw [length_cons, wflag_eq]; omega)

/-- A writer takes the free lock. -/
lemma take (encodes : Encodes holds 0) : Encodes (update holds self (.write :: holds self)) wflag := by
  have free := encodes.zero_iff.mp rfl
  rw [free self]
  exact put_owned [] (fun thread _ => free thread) (by decide)

/-- A lock that is not the first one of a writer is given up. -/
lemma drop (encodes : Encodes holds word) {hold : Hold} (top : holds self = hold :: rest)
    (inner : hold = .read ∨ rest ≠ []) : Encodes (update holds self rest) (word - 1) ∧ 0 < word := by
  cases encodes with
  | shared reads small =>
    have part := UpdateSum.le_sum List.length holds self
    rw [top, length_cons] at part
    refine ⟨put_shared self rest _ reads (fun other mem => ?_) ?_ (by omega), by omega⟩
    · exact reads self other (by rw [top]; exact mem_cons_of_mem hold mem)
    · rw [top, length_cons]
      omega
  | owned writer above base others small =>
    obtain rfl : self = writer := by
      by_contra differs
      rw [others self differs] at top
      exact cons_ne_nil hold rest top.symm
    cases above with
    | nil =>
      rw [base] at top
      obtain ⟨rfl, rfl⟩ := cons.inj top
      exact absurd inner (by simp)
    | cons first above =>
      rw [base] at top
      obtain ⟨-, rfl⟩ := cons.inj top
      rw [length_cons] at small
      exact ⟨put_owned _ others (by omega), Nat.succ_pos _⟩

/-- The writer gives up its only lock, or turns it into a read lock. -/
lemma free (encodes : Encodes holds word) (only : holds self = [.write]) :
    word = wflag ∧ Encodes (update holds self []) 0 ∧ Encodes (update holds self [.read]) 1 := by
  obtain ⟨above, base, others, -, rfl⟩ := encodes.of_write (show .write ∈ holds self by simp [only])
  have none : above = [] := by
    rw [base] at only
    simpa using only
  have empty : ∀ thread, update holds self [] thread = [] := by
    intro thread
    by_cases same : thread = self
    · rw [same, update_self]
    · rw [update_of_ne same]
      exact others thread same
  have zero : ∑ thread, (update holds self [] thread).length = 0 :=
    Finset.sum_eq_zero fun thread _ => by rw [empty thread]; rfl
  have reads : ∀ thread, ∀ hold ∈ update holds self [] thread, hold = .read := by
    intro thread hold mem
    rw [empty thread] at mem
    exact absurd mem not_mem_nil
  refine ⟨by rw [none]; rfl, ?_, ?_⟩
  · have encoded := Encodes.shared reads (by rw [zero]; decide)
    rwa [zero] at encoded
  · have encoded := put_shared self [.read] 1 reads (by simp) (by rw [zero, empty self]; rfl) (by decide)
    rwa [update_idem] at encoded

/-- The only reader becomes the writer. -/
lemma upgrade (encodes : Encodes holds 1) (top : holds self = .read :: rest) :
    rest = [] ∧ Encodes (update holds self [.write]) wflag := by
  obtain ⟨reads, sum, -⟩ := encodes.of_not_flagged (by decide)
  have total := UpdateSum.sum_update List.length holds self []
  rw [top, length_cons, length_nil] at total
  have none : rest.length = 0 := by omega
  have zero : ∑ thread, (update holds self [] thread).length = 0 := by omega
  have empty := Finset.sum_eq_zero_iff.mp zero
  refine ⟨length_eq_zero_iff.mp none, put_owned [] (fun thread differs => ?_) (by decide)⟩
  have here := empty thread (Finset.mem_univ thread)
  rw [update_of_ne differs] at here
  exact length_eq_zero_iff.mp here

/-- The read lock on top of a write lock becomes a write lock. -/
lemma retop (encodes : Encodes holds word) (top : holds self = .read :: rest)
    (writes : .write ∈ holds self) :
    Encodes (update holds self (.write :: rest)) word := by
  obtain ⟨above, base, others, small, rfl⟩ := encodes.of_write writes
  cases above with
  | nil =>
    rw [base] at top
    exact Hold.noConfusion (cons.inj top).1
  | cons first above =>
    rw [base] at top
    obtain ⟨-, rfl⟩ := cons.inj top
    exact put_owned (.write :: above) others small

end Encodes

end Encoding

end KosKernel.Hybrid
