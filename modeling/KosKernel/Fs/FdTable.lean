import KosKernel.Fs.FdMan
import KosKernel.Library.StepRun
import Mathlib.Tactic

namespace KosKernel.Fs
open Function Finset Option StepRun FdMan
namespace FdMan
variable {man after : FdMan} {outside : Nat → Fd}

/-- The descriptor of a number. -/
def lookup (man : FdMan) (number : Nat) : Option Fd :=
  if number < man.fmVeca ∧ ¬ (man.fmVecv number).isNull then some (man.fmVecv number) else none

/-- The numbers in use. -/
def used (man : FdMan) : Finset Nat := {number ∈ Finset.range man.fmVeca | ¬ (man.fmVecv number).isNull}

/-- The counters of the table describe its vector. -/
structure Valid (man : FdMan) : Prop where
  fits : man.fmVeca ≤ man.fmVecm
  limited : man.fmVecm < 2 ^ 31
  counted : man.fmVecc = man.used.card

variable {number cnt : Nat}

lemma lookup_eq_none : man.lookup number = none ↔ number < man.fmVeca → (man.fmVecv number).isNull := by
  unfold lookup
  split <;> simp_all

lemma lookup_some {descriptor : Fd} : man.lookup number = some descriptor ↔
    number < man.fmVeca ∧ (man.fmVecv number).isNull = false ∧ man.fmVecv number = descriptor := by
  unfold lookup
  split <;> simp_all

lemma mem_used : number ∈ man.used ↔ man.lookup number ≠ none := by
  rw [ne_eq, lookup_eq_none, used, mem_filter, mem_range]
  tauto

/-- Tables with the same descriptors use the same numbers. -/
lemma used_eq (same : after.lookup = man.lookup) : after.used = man.used := by
  ext number
  rw [mem_used, mem_used, same]

section Accesses
variable {index : Nat}

section
variable (inside : index < man.fmVeca)
include inside

/-- An access inside the vector leaves no trace. -/
lemma access_inside : man.access index = man := by
  have bound : decide (man.fmVeca ≤ index) = false := decide_eq_false (by omega)
  rw [access, bound, Bool.or_false]

lemma load_inside : man.load index = (man, man.fmVecv index) := by
  rw [load, access_inside inside]

lemma store_inside (descriptor : Fd) :
    man.store index descriptor = { man with fmVecv := update man.fmVecv index descriptor } := by
  rw [store, access_inside inside]

lemma lookup_store (descriptor : Fd) : (man.store index descriptor).lookup =
    update man.lookup index (if descriptor.isNull then none else some descriptor) := by
  rw [store_inside inside]
  funext number
  by_cases here : number = index
  · subst here
    unfold lookup
    by_cases null : descriptor.isNull = true <;> simp [inside, null]
  · unfold lookup
    simp [update_of_ne here]

/-- A descriptor in a free slot is one more number. -/
lemma used_store_fp {fp : Fd} (filled : fp.isNull = false) :
    (man.store index fp).used = insert index man.used := by
  ext number
  rw [mem_insert, mem_used, mem_used, lookup_store inside, filled]
  by_cases here : number = index <;> simp [here]

lemma used_store_invalid : (man.store index .invalid).used = man.used.erase index := by
  ext number
  rw [mem_erase, mem_used, mem_used, lookup_store inside]
  by_cases here : number = index <;> simp [here, Fd.isNull, Fd.invalid]

end

end Accesses

section Growth

/-- The fields besides the vector and its size. -/
def others (man : FdMan) : Nat × Nat × Nat × Nat × Nat × Bool :=
  (man.fmCwd, man.fmRoot, man.fmHint, man.fmVecc, man.fmVecm, man.strayed)

/-- The cleared slots hold the invalid descriptor. -/
lemma fillInvalid_spec (count index : Nat) (man : FdMan) (inside : index + count ≤ man.fmVeca) :
    (fillInvalid count index man).fmVeca = man.fmVeca ∧
    (fillInvalid count index man).others = man.others ∧
      ∀ number, (fillInvalid count index man).fmVecv number =
        if index ≤ number ∧ number < index + count then .invalid else man.fmVecv number := by
  induction count generalizing index man with
  | zero =>
    refine ⟨rfl, rfl, fun number => ?_⟩
    rw [fillInvalid, if_neg (by omega)]
  | succ count ih =>
    have stored := store_inside (show index < man.fmVeca by omega) .invalid
    obtain ⟨size, rest, vector⟩ := ih (index + 1) (man.store index .invalid)
      (show index + 1 + count ≤ man.fmVeca by omega)
    rw [fillInvalid]
    refine ⟨by rw [size, stored], by rw [rest, stored]; rfl, fun number => ?_⟩
    rw [vector, stored]
    by_cases here : number = index
    · subst here
      rw [if_neg (by omega), if_pos (by omega)]
      exact update_self _ _ _
    · simp only [update_of_ne here]
      by_cases cleared : index + 1 ≤ number ∧ number < index + 1 + count
      · rw [if_pos cleared, if_pos (by omega)]
      · rw [if_neg cleared, if_neg (by omega)]

lemma ceilThreshold_bounds (small : cnt < 2 ^ 31) :
    cnt ≤ ceilThreshold cnt ∧ ceilThreshold cnt < cnt + vectorThreshold := by
  unfold ceilThreshold vectorThreshold
  omega

/-- A vector that has grown still has the same descriptors. -/
structure Grows (man after : FdMan) (cnt : Nat) : Prop where
  larger : man.fmVeca ≤ after.fmVeca
  enough : cnt ≤ after.fmVeca
  fits : after.fmVeca ≤ man.fmVecm
  others : after.others = man.others
  lookup : after.lookup = man.lookup

lemma minsizeUnlocked_grows (valid : Valid man) (below : cnt ≤ man.fmVecm) (outside : Nat → Fd) :
    Grows man (man.minsizeUnlocked outside cnt) cnt := by
  obtain ⟨fits, limited, _⟩ := valid
  unfold minsizeUnlocked
  by_cases enough : cnt ≤ man.fmVeca
  · rw [if_pos enough]
    exact ⟨le_rfl, enough, fits, rfl, rfl⟩
  rw [if_neg enough]
  have bounds := ceilThreshold_bounds (show cnt < 2 ^ 31 by omega)
  generalize alloc : min (ceilThreshold cnt) man.fmVecm = newAlloc
  have larger : man.fmVeca < newAlloc := by omega
  obtain ⟨size, rest, vector⟩ :=
    fillInvalid_spec (newAlloc - man.fmVeca) man.fmVeca (man.trealloc outside newAlloc)
    (show man.fmVeca + (newAlloc - man.fmVeca) ≤ newAlloc by omega)
  refine ⟨by rw [size]; exact larger.le, by rw [size]; show cnt ≤ newAlloc; omega,
    by rw [size]; show newAlloc ≤ man.fmVecm; omega, rest, ?_⟩
  funext number
  have bound : (man.trealloc outside newAlloc).fmVeca = newAlloc := rfl
  unfold lookup
  rw [size, vector, bound]
  by_cases old : number < man.fmVeca
  · have kept : (man.trealloc outside newAlloc).fmVecv number = man.fmVecv number :=
      if_pos (show number < min man.fmVeca newAlloc by omega)
    rw [if_neg (show ¬ (man.fmVeca ≤ number ∧ number < man.fmVeca + (newAlloc - man.fmVeca)) by
      omega), kept]
    simp [old, show number < newAlloc by omega]
  · by_cases new : number < newAlloc
    · rw [if_pos (show man.fmVeca ≤ number ∧ number < man.fmVeca + (newAlloc - man.fmVeca) by omega)]
      simp [old, Fd.isNull, Fd.invalid]
    · simp [old, new]

lemma Grows.valid (grows : Grows man after cnt) (valid : Valid man) : Valid after := by
  have others := grows.others
  simp only [FdMan.others, Prod.mk.injEq] at others
  obtain ⟨_, _, _, count, limit, _⟩ := others
  refine ⟨limit ▸ grows.fits, limit ▸ valid.limited, ?_⟩
  rw [count, used_eq grows.lookup]
  exact valid.counted

end Growth

section Loops

/-- The search for a free slot ends at the first one. -/
lemma scanFree_spec {bound fuel : Nat} (hint : Nat) (inside : bound ≤ man.fmVeca)
    (enough : bound < fuel + hint) :
    (scanFree bound fuel man hint = (man, none) ∧ ∀ number, hint ≤ number → number < bound →
      man.lookup number ≠ none) ∨
      ∃ slot, scanFree bound fuel man hint = (man, some slot) ∧ slot < bound ∧
      man.lookup slot = none := by
  induction fuel generalizing hint with
  | zero => exact .inl ⟨rfl, fun number lower upper => by omega⟩
  | succ fuel ih =>
    rw [scanFree]
    by_cases within : hint < bound
    · rw [if_pos within, load_inside (by omega)]
      by_cases null : (man.fmVecv hint).isNull = true
      · exact .inr ⟨hint, if_pos null, within, lookup_eq_none.mpr fun _ => null⟩
      simp only [if_neg null]
      rcases ih (hint + 1) (by omega) with ⟨none, full⟩ | found
      · refine .inl ⟨none, fun number lower upper free => ?_⟩
        rcases Nat.eq_or_lt_of_le lower with rfl | above
        · exact null (lookup_eq_none.mp free (by omega))
        · exact full number above upper free
      · exact .inr found
    · rw [if_neg within]
      exact .inl ⟨rfl, fun number lower upper => by omega⟩

/-- The lowered number is the end of the last used slot. -/
lemma trim_spec {no : Nat} (inside : no ≤ man.fmVeca) :
    ∃ stop, trim no man = (man, stop) ∧ stop ≤ no ∧
    (∀ number, stop ≤ number → number < no → man.lookup number = none) ∧
      (stop ≠ 0 → ∃ number, stop = number + 1 ∧ man.lookup number ≠ none) := by
  induction no with
  | zero => exact ⟨0, rfl, le_rfl, fun number lower upper => by omega, absurd rfl⟩
  | succ no ih =>
    rw [trim, load_inside (by omega)]
    by_cases null : (man.fmVecv no).isNull = true
    · obtain ⟨stop, trimmed, below, free, last⟩ := ih (by omega)
      refine ⟨stop, by simp [if_pos null, trimmed], by omega, fun number lower upper => ?_, last⟩
      rcases Nat.eq_or_lt_of_le (Nat.lt_succ_iff.mp upper) with rfl | less
      · exact lookup_eq_none.mpr fun _ => null
      · exact free number lower less
    · refine ⟨no + 1, by simp [if_neg null], le_rfl, fun number lower upper => by
        omega, fun _ => ⟨no, rfl, fun free => ?_⟩⟩
      exact null (lookup_eq_none.mp free (by omega))

/-- The scan stops at a used slot, or it looks at the slot behind the vector. -/
lemma scanTail_spec {fuel pfd : Nat} (inside : pfd < man.fmVeca) (enough : man.fmVeca ≤ fuel + pfd) :
    ((∃ number, pfd < number ∧ man.lookup number ≠ none) ∧ scanTail fuel man pfd = (man, false)) ∨
      ((∀ number, pfd < number → man.lookup number = none) ∧
        ∃ empty, scanTail fuel man pfd = ({ man with strayed := true }, empty)) := by
  induction fuel generalizing pfd with
  | zero => omega
  | succ fuel ih =>
    rw [scanTail]
    by_cases last : pfd + 1 = man.fmVeca
    · right
      have beyond : man.load (pfd + 1) = ({ man with strayed := true }, man.fmVecv (pfd + 1)) := by
        rw [load, access, last, decide_eq_true le_rfl, Bool.or_true]
      refine ⟨fun number above => lookup_eq_none.mpr fun within => by omega, ?_⟩
      rw [beyond, last]
      by_cases null : (man.fmVecv man.fmVeca).isNull = true
      · exact ⟨true, by simp [null]⟩
      · exact ⟨false, by simp [null]⟩
    · rw [load_inside (by omega)]
      by_cases null : (man.fmVecv (pfd + 1)).isNull = true
      · simp only [null, not_true_eq_false, if_false, ne_eq, last, not_false_eq_true, if_true]
        rcases ih (show pfd + 1 < man.fmVeca by omega) (by omega) with ⟨⟨number, above, live⟩,
          stopped⟩ | ⟨none, through⟩
        · exact .inl ⟨⟨number, by omega, live⟩, stopped⟩
        · refine .inr ⟨fun number above => ?_, through⟩
          rcases Nat.eq_or_lt_of_le (Nat.succ_le_of_lt above) with rfl | more
          · exact lookup_eq_none.mpr fun _ => null
          · exact none number more
      · refine .inl ⟨⟨pfd + 1, Nat.lt_succ_self _,
          fun free => null (lookup_eq_none.mp free (by omega))⟩, ?_⟩
        simp [null]

/-- The shorter vector has the same descriptors, as the other slots have none. -/
lemma lookup_cut {size : Nat} {vector : Nat → Fd} (smaller : size ≤ man.fmVeca)
    (kept : ∀ number, number < size → vector number = man.fmVecv number)
    (free : ∀ number, size ≤ number → man.lookup number = none) :
    { man with fmVeca := size, fmVecv := vector }.lookup = man.lookup := by
  funext number
  by_cases inside : number < size
  · unfold lookup
    simp [kept number inside, inside, show number < man.fmVeca by omega]
  · rw [free number (by omega)]
    exact lookup_eq_none.mpr fun within => absurd within inside

lemma shrink_spec (valid : Valid man) {no : Nat} (inside : no ≤ man.fmVeca)
    (free : ∀ number, no ≤ number → man.lookup number = none) (outside : Nat → Fd) :
    (man.shrink outside no).lookup = man.lookup ∧ (man.shrink outside no).fmVeca ≤ man.fmVeca ∧
      (man.shrink outside no).others = man.others := by
  obtain ⟨stop, trimmed, below, empty, _⟩ := trim_spec inside
  have behind : ∀ number, stop ≤ number → man.lookup number = none := fun number above => by
    by_cases less : number < no
    · exact empty number above less
    · exact free number (by omega)
  have limited := valid.limited
  have fits := valid.fits
  rw [shrink, trimmed]
  by_cases none : stop = 0
  · simp only [if_pos none]
    refine ⟨lookup_cut (Nat.zero_le _) (fun number within => by omega) fun number _ =>
      behind number (by omega), Nat.zero_le _, rfl⟩
  simp only [if_neg none]
  have bounds := ceilThreshold_bounds (show stop < 2 ^ 31 by omega)
  by_cases shorter : min (ceilThreshold stop) man.fmVeca < man.fmVeca
  · rw [if_pos shorter]
    refine ⟨lookup_cut shorter.le (fun number within => ?_) fun number above =>
      behind number (by omega), shorter.le, rfl⟩
    exact if_pos (by omega)
  · rw [if_neg shorter]
    exact ⟨rfl, le_rfl, rfl⟩

end Loops

end FdMan

/-- A call to the table. The numbers are those of the caller. -/
inductive FdCall where
  | set (no : Int) (fp : Fd)
  | putNearby (hint : Nat) (fp : Fd)
  | put (fp : Fd)
  | del (no : Int)

inductive FdReply where
  | error (code : Errno)
  | number (slot : Nat)
  | descriptor (old : Fd)

def FdReply.ofPut : Except Errno Nat → FdReply
  | .error code => .error code
  | .ok slot => .number slot

/-- What a finite map from numbers below the limit may answer, and the map after the call. -/
inductive Accepts (limit : Nat) (table : Nat → Option Fd) :
    FdCall → FdReply → (Nat → Option Fd) → Prop where
  | set {no : Int} {fp : Fd} (inside : toUnsigned no < limit) :
      Accepts limit table (.set no fp) (.error .eok) (update table (toUnsigned no) (some fp))
  | setOther {no : Int} {fp : Fd} {code : Errno} (beyond : limit ≤ toUnsigned no)
      (special : code = .eok → no = atFdcwd ∨ no = atFdroot) :
      Accepts limit table (.set no fp) (.error code) table
  | putNearby {hint slot : Nat} {fp : Fd} (inside : slot < limit) (free : table slot = none) :
      Accepts limit table (.putNearby hint fp) (.number slot) (update table slot (some fp))
  | putNearbyFull {hint : Nat} {fp : Fd}
      (full : ∀ number, putRescanStart ≤ number → number < limit → table number ≠ none) :
      Accepts limit table (.putNearby hint fp) (.error .emfile) table
  | put {hint : Nat} {fp : Fd} {reply : FdReply} {next : Nat → Option Fd}
      (nearby : Accepts limit table (.putNearby hint fp) reply next) :
        Accepts limit table (.put fp) reply next
  | del {no : Int} {old : Fd}
      (found : ∀ entry, table (toUnsigned no) = some entry → old = entry.clearFlags)
      (missing : table (toUnsigned no) = none → old.isNull = true) :
      Accepts limit table (.del no) (.descriptor old) (update table (toUnsigned no) none)

/-- The last number below the limit is not set. -/
def Settable (limit : Nat) : FdCall → Prop
  | .set no _ => toUnsigned no + 1 ≠ limit
  | _ => True

namespace FdMan
variable (fDent : Nat → Nat)

/-- A call with the contents of the memory behind the vector. -/
def perform (man : FdMan) (call : FdCall) (outside : Nat → Fd) : FdMan × FdReply :=
  let man := man.surround outside
  match call with
  | .set no fp => ((man.set fDent outside no fp).1, .error (man.set fDent outside no fp).2)
  | .putNearby hint fp =>
    ((man.putNearbyUnlocked outside hint fp).1, .ofPut (man.putNearbyUnlocked outside hint fp).2)
  | .put fp => ((man.put outside fp).1, .ofPut (man.put outside fp).2)
  | .del no => ((man.delUnlocked outside no).1, .descriptor (man.delUnlocked outside no).2)

/-- Only real descriptors are inserted. -/
def Promised (_ : FdMan) (action : FdCall × (Nat → Fd)) : Prop :=
  match action.1 with
  | .set _ fp => fp.isNull = false
  | .putNearby _ fp => fp.isNull = false
  | .put fp => fp.isNull = false
  | .del _ => True

/-- A deletion stays inside if its slot is unused or near the end or a later slot is used. -/
def InBounds (man : FdMan) (action : FdCall × (Nat → Fd)) : Prop :=
  match action.1 with
  | .del no => man.lookup (toUnsigned no) = none ∨ man.fmVeca < toUnsigned no + vectorThreshold ∨
      ∃ number, number < man.fmVeca ∧ toUnsigned no < number ∧ man.lookup number ≠ none
  | _ => True

section Calls
variable {man : FdMan} {outside : Nat → Fd} {fp : Fd} {no : Int}

lemma surround_lookup (man : FdMan) (outside : Nat → Fd) :
    (man.surround outside).lookup = man.lookup := by
  funext number
  unfold lookup surround
  by_cases inside : number < man.fmVeca <;> simp [inside]

lemma surround_valid (valid : Valid man) (outside : Nat → Fd) : Valid (man.surround outside) :=
  ⟨valid.fits, valid.limited, valid.counted.trans (by rw [used_eq (surround_lookup man outside)])⟩

/-- The answer of a call, the new table and the trace that it leaves. -/
structure Answers (man after : FdMan) (call : FdCall) (reply : FdReply) (inBounds : Prop) : Prop where
  valid : Valid after
  limit : after.fmVecm = man.fmVecm
  accepts : Accepts man.fmVecm man.lookup call reply after.lookup ↔ Settable man.fmVecm call
  strayed : after.strayed = false ↔ man.strayed = false ∧ inBounds

lemma setSpecial_answers (valid : Valid man) (fDent : Nat → Nat) (beyond : man.fmVecm ≤ toUnsigned no) :
    Answers man (man.setSpecial fDent no fp).1 (.set no fp)
      (.error (man.setSpecial fDent no fp).2) True := by
  have settable : Settable man.fmVecm (.set no fp) := by
    unfold Settable
    omega
  have refused : ∀ code, code ≠ .eok → Answers man man (.set no fp) (.error code) True :=
    fun code error =>
    ⟨valid, rfl, iff_of_true (.setOther beyond fun done => absurd done error) settable, by simp⟩
  have exchange : ∀ dent, Answers man (setSpecial.exchange man no dent).1 (.set no fp)
      (.error (setSpecial.exchange man no dent).2) True := by
    intro dent
    have kept := valid.counted
    unfold setSpecial.exchange
    split
    · next cwd =>
        exact ⟨⟨valid.fits, valid.limited, kept⟩, rfl,
          iff_of_true (.setOther beyond fun _ => .inl cwd) settable, by simp⟩
    · split
      · next root =>
          exact ⟨⟨valid.fits, valid.limited, kept⟩, rfl,
            iff_of_true (.setOther beyond fun _ => .inr root) settable, by simp⟩
      · exact refused .enfile (by decide)
  unfold setSpecial
  split
  · exact exchange _
  · exact exchange _
  · exact refused .einval (by decide)

/-- The last number is refused although it lies below the limit. -/
lemma set_last (valid : Valid man) (last : toUnsigned no + 1 = man.fmVecm) :
    Answers man man (.set no fp) (.error .ebadf) True := by
  refine ⟨valid, rfl, iff_of_false ?_ (absurd last), by simp⟩
  rintro (_ | ⟨beyond, _⟩)
  omega

/-- The count follows a descriptor that is stored. -/
lemma valid_store_fp (valid : Valid man) {index : Nat} (hint : Nat) (inside : index < man.fmVeca)
    (filled : fp.isNull = false) :
    Valid { man.store index fp with
      fmHint := hint
      fmVecc := if (man.fmVecv index).isNull then man.fmVecc + 1 else man.fmVecc } := by
  refine ⟨valid.fits, valid.limited, ?_⟩
  have same : ∀ count : Nat, { man.store index fp with fmHint := hint, fmVecc := count }.used =
    insert index man.used :=
    fun _ => used_store_fp inside filled
  rw [same]
  by_cases null : (man.fmVecv index).isNull = true
  · have fresh : index ∉ man.used := fun mem => mem_used.mp mem (lookup_eq_none.mpr fun _ => null)
    rw [card_insert_of_notMem fresh, ← valid.counted]
    exact if_pos null
  · have old : index ∈ man.used := mem_used.mpr fun free => null (lookup_eq_none.mp free inside)
    rw [insert_eq_of_mem old, ← valid.counted]
    exact if_neg null

lemma set_answers (valid : Valid man) (fDent : Nat → Nat) (filled : fp.isNull = false) :
    Answers man (man.set fDent outside no fp).1 (.set no fp)
      (.error (man.set fDent outside no fp).2) True := by
  unfold set
  by_cases special : man.fmVecm ≤ toUnsigned no
  · rw [if_pos special]
    exact setSpecial_answers valid fDent special
  rw [if_neg special]
  by_cases last : man.fmVecm ≤ toUnsigned no + 1
  · rw [if_pos last]
    exact set_last valid (by omega)
  rw [if_neg last]
  obtain ⟨grown, grownIs⟩ : ∃ grown, man.minsizeUnlocked outside (toUnsigned no + 1) = grown := ⟨_, rfl⟩
  have grows := minsizeUnlocked_grows valid (show toUnsigned no + 1 ≤ man.fmVecm by omega) outside
  rw [grownIs] at grows ⊢
  have inside : toUnsigned no < grown.fmVeca := grows.enough
  have others := grows.others
  simp only [FdMan.others, Prod.mk.injEq] at others
  obtain ⟨_, _, _, _, limit, trace⟩ := others
  have stored := valid_store_fp (grows.valid valid) grown.fmHint inside filled
  have table : (grown.store (toUnsigned no) fp).lookup =
    update man.lookup (toUnsigned no) (some fp) := by
    rw [lookup_store inside, grows.lookup, filled]
    rfl
  have traceStored : (grown.store (toUnsigned no) fp).strayed = man.strayed := by
    rw [store_inside inside]
    exact trace
  have accepts : Accepts man.fmVecm man.lookup (.set no fp) (.error .eok)
      (grown.store (toUnsigned no) fp).lookup := table ▸ .set (by omega)
  have settable : Settable man.fmVecm (.set no fp) := fun same => last same.ge
  simp only [load_inside inside]
  by_cases null : (grown.fmVecv (toUnsigned no)).isNull = true
  · simp only [null, if_true] at stored ⊢
    exact ⟨stored, limit, iff_of_true accepts settable, by simp [traceStored]⟩
  · simp only [if_neg null] at stored ⊢
    exact ⟨stored, limit, iff_of_true accepts settable, by simp [traceStored]⟩

variable {slot : Nat}

section
variable (valid : Valid man)
include valid

/-- A free number below the limit gets the descriptor. -/
lemma gotSlot_answers {hint : Nat} (filled : fp.isNull = false) (below : slot < man.fmVecm)
    (free : man.lookup slot = none) :
    Answers man (man.gotSlot outside slot fp) (.putNearby hint fp) (.number slot) True := by
  obtain ⟨grown, grownIs⟩ : ∃ grown, man.minsizeUnlocked outside (slot + 1) = grown := ⟨_, rfl⟩
  have grows := minsizeUnlocked_grows valid (show slot + 1 ≤ man.fmVecm by omega) outside
  rw [gotSlot, grownIs]
  rw [grownIs] at grows
  have inside : slot < grown.fmVeca := grows.enough
  have others := grows.others
  simp only [FdMan.others, Prod.mk.injEq] at others
  obtain ⟨_, _, _, _, limit, trace⟩ := others
  have null : (grown.fmVecv slot).isNull = true := by
    rw [← grows.lookup] at free
    exact lookup_eq_none.mp free inside
  have stored := valid_store_fp (grows.valid valid) slot inside filled
  rw [if_pos null] at stored
  refine ⟨stored, limit, ?_, ?_⟩
  · have table : (grown.store slot fp).lookup = update man.lookup slot (some fp) := by
      rw [lookup_store inside, grows.lookup, filled]
      rfl
    have accepts : Accepts man.fmVecm man.lookup (.putNearby hint fp) (.number slot)
        (grown.store slot fp).lookup := table ▸ .putNearby below free
    exact iff_of_true accepts trivial
  · have traceStored : (grown.store slot fp).strayed = man.strayed := by
      rw [store_inside inside]
      exact trace
    rw [and_true, ← traceStored]
    rfl

/-- The second pass finds a free slot unless all slots that it may use are taken. -/
lemma rescan_spec (hint : Nat) (above : ∀ number, hint ≤ number → number < man.fmVeca →
    man.lookup number ≠ none) :
    (man.rescan hint = (man, none) ∧ ∀ number, putRescanStart ≤ number → number < man.fmVeca →
      man.lookup number ≠ none) ∨
      ∃ slot, man.rescan hint = (man, some slot) ∧ slot < man.fmVeca ∧ man.lookup slot = none := by
  unfold rescan
  by_cases room : man.fmVecc ≠ man.fmVeca
  · rw [if_pos room]
    rcases scanFree_spec putRescanStart (show min hint man.fmVeca ≤ man.fmVeca by omega)
      (show min hint man.fmVeca < man.fmVeca + 1 + putRescanStart by omega) with ⟨none,
        below⟩ | ⟨slot, found, inside, free⟩
    · refine .inl ⟨none, fun number lower upper => ?_⟩
      by_cases behind : hint ≤ number
      · exact above number behind upper
      · exact below number lower (by omega)
    · exact .inr ⟨slot, found, by omega, free⟩
  · rw [if_neg room]
    refine .inl ⟨rfl, fun number _ upper => ?_⟩
    -- The count tells that every slot is in use.
    have all : man.used = Finset.range man.fmVeca := by
      refine eq_of_subset_of_card_le (filter_subset _ _) ?_
      rw [card_range, ← valid.counted]
      omega
    exact mem_used.mp (all ▸ mem_range.mpr upper)

lemma putNearbyUnlocked_answers (hint : Nat) (filled : fp.isNull = false) :
    Answers man (man.putNearbyUnlocked outside hint fp).1 (.putNearby hint fp)
      (.ofPut (man.putNearbyUnlocked outside hint fp).2) True := by
  have fits := valid.fits
  unfold putNearbyUnlocked
  rcases scanFree_spec hint (le_refl man.fmVeca) (show man.fmVeca < man.fmVeca + 1 + hint by omega) with
    ⟨first, above⟩ | ⟨slot, first, inside, free⟩
  · simp only [first, isSome_none, Bool.false_eq_true, if_false]
    rcases rescan_spec valid hint above with ⟨second, full⟩ | ⟨slot, second, inside, free⟩
    · simp only [second, none_or, slotInBack]
      by_cases room : man.fmVeca < man.fmVecm
      · simp only [if_pos room]
        exact gotSlot_answers valid filled room (lookup_eq_none.mpr fun within =>
          absurd within (lt_irrefl _))
      · simp only [if_neg room]
        refine ⟨valid, rfl, iff_of_true (.putNearbyFull fun number lower upper => ?_) trivial, by simp⟩
        exact full number lower (by omega)
    · simp only [second, some_or]
      exact gotSlot_answers valid filled (by omega) free
  · simp only [first, isSome_some, if_true, some_or]
    exact gotSlot_answers valid filled (by omega) free

lemma put_answers (filled : fp.isNull = false) :
    Answers man (man.put outside fp).1 (.put fp) (.ofPut (man.put outside fp).2) True := by
  obtain ⟨kept, limit, accepts, strayed⟩ := putNearbyUnlocked_answers valid man.fmHint filled
  exact ⟨kept, limit, iff_of_true (.put (accepts.mpr trivial)) trivial, strayed⟩

/-- A number without a descriptor leaves the table as it is. -/
lemma del_missing {old : Fd} (free : man.lookup (toUnsigned no) = none) (null : old.isNull = true) :
    Answers man man (.del no) (.descriptor old) (InBounds man (.del no, outside)) := by
  have accepts : Accepts man.fmVecm man.lookup (.del no) (.descriptor old)
      (update man.lookup (toUnsigned no) none) := by
    refine .del (fun entry found => ?_) fun _ => null
    rw [free] at found
    cases found
  rw [← free, update_eq_self] at accepts
  exact ⟨valid, rfl, iff_of_true accepts trivial, by simp [InBounds, free]⟩

end

lemma emptySlot_lookup (inside : slot < man.fmVeca) :
    (man.emptySlot slot).lookup = update man.lookup slot none := by
  have table := lookup_store inside .invalid
  exact table

lemma emptySlot_valid (valid : Valid man) (live : man.lookup slot ≠ none) (inside : slot < man.fmVeca) :
    Valid (man.emptySlot slot) := by
  refine ⟨valid.fits, valid.limited, ?_⟩
  have same : (man.emptySlot slot).used = man.used.erase slot := used_store_invalid inside
  rw [same, card_erase_of_mem (mem_used.mpr live), ← valid.counted]
  rfl

lemma emptySlot_strayed (inside : slot < man.fmVeca) : (man.emptySlot slot).strayed = man.strayed := by
  have stored : man.access slot = man := access_inside inside
  have same : (man.emptySlot slot).strayed = (man.access slot).strayed := rfl
  rw [same, stored]

/-- A deletion may shorten the vector, and then the slot behind the old one was read. -/
structure Reduces (man after : FdMan) (stays : Prop) : Prop where
  valid : Valid after
  limit : after.fmVecm = man.fmVecm
  lookup : after.lookup = man.lookup
  strayed : after.strayed = false ↔ man.strayed = false ∧ stays

lemma shrink_reduces (outside : Nat → Fd) (valid : Valid man) (strayed : man.strayed = true)
    (inside : slot ≤ man.fmVeca) (free : ∀ number, slot ≤ number → man.lookup number = none) :
    Reduces man (man.shrink outside slot) False := by
  obtain ⟨shrunk, smaller, others⟩ := shrink_spec valid inside free outside
  simp only [FdMan.others, Prod.mk.injEq] at others
  obtain ⟨_, _, _, count, limit, trace⟩ := others
  refine ⟨⟨limit ▸ smaller.trans valid.fits, limit ▸ valid.limited, ?_⟩, limit, shrunk,
    by simp [trace, strayed]⟩
  rw [count, used_eq shrunk]
  exact valid.counted

lemma reduce_reduces (outside : Nat → Fd) (valid : Valid man) (inside : slot < man.fmVeca)
    (free : man.lookup slot = none) :
    Reduces man (man.reduce outside slot)
      (man.fmVeca < slot + vectorThreshold ∨ ∃ number, slot < number ∧ man.lookup number ≠ none) := by
  unfold reduce
  by_cases close : man.fmVeca < slot + vectorThreshold
  · rw [if_pos close]
    exact ⟨valid, rfl, rfl, by simp [close]⟩
  rw [if_neg close]
  rcases scanTail_spec inside (show man.fmVeca ≤ man.fmVeca + 1 + slot by omega) with ⟨used,
    scanned⟩ | ⟨none, empty, scanned⟩
  · simp only [scanned]
    exact ⟨valid, rfl, rfl, by simp [used]⟩
  simp only [scanned]
  have stays : ¬ (man.fmVeca < slot + vectorThreshold ∨ ∃ number, slot < number ∧
    man.lookup number ≠ Option.none) := by
    rintro (short | ⟨number, above, used⟩)
    · exact close short
    · exact used (none number above)
  have marked : Valid { man with strayed := true } := ⟨valid.fits, valid.limited, valid.counted⟩
  have tail : ∀ number, slot ≤ number →
      ({ man with strayed := true } : FdMan).lookup number = Option.none := by
    intro number above
    rcases Nat.eq_or_lt_of_le above with rfl | more
    · exact free
    · exact none number more
  cases empty with
  | false => exact ⟨marked, rfl, rfl, by simp [stays]⟩
  | true =>
    obtain ⟨kept, limit, table, trace⟩ := shrink_reduces outside marked rfl inside.le tail
    exact ⟨kept, limit, table, by rw [if_pos rfl, trace]; simp [stays]⟩

/-- The slot is emptied, and the vector is cut behind the last descriptor. -/
lemma delUnlocked_answers (valid : Valid man) :
    Answers man (man.delUnlocked outside no).1 (.del no) (.descriptor (man.delUnlocked outside no).2)
      (InBounds man (.del no, outside)) := by
  unfold delUnlocked
  by_cases within : toUnsigned no < man.fmVeca
  · rw [if_pos within]
    simp only [load_inside within]
    rw [show (man.fmVecv (toUnsigned no)).clearFlags.isNull =
      (man.fmVecv (toUnsigned no)).isNull from rfl]
    by_cases null : (man.fmVecv (toUnsigned no)).isNull = true
    · rw [if_pos null]
      exact del_missing valid (lookup_eq_none.mpr fun _ => null) null
    rw [if_neg null]
    have found : man.lookup (toUnsigned no) = some (man.fmVecv (toUnsigned no)) :=
      lookup_some.mpr ⟨within, by simpa using null, rfl⟩
    have live : man.lookup (toUnsigned no) ≠ none := by simp [found]
    have table := emptySlot_lookup within
    obtain ⟨kept, limit, same, trace⟩ :=
      reduce_reduces outside (emptySlot_valid valid live within) within
      (by rw [table, update_self])
    refine ⟨kept, limit, ?_, ?_⟩
    · rw [same, table]
      refine iff_of_true (.del (fun entry isEntry => ?_) fun missing => absurd missing live) trivial
      rw [found, some.injEq] at isEntry
      rw [isEntry]
    · rw [trace, emptySlot_strayed within]
      have later : (∃ number, toUnsigned no < number ∧
        (man.emptySlot (toUnsigned no)).lookup number ≠ none) ↔
          ∃ number, number < man.fmVeca ∧ toUnsigned no < number ∧ man.lookup number ≠ none := by
        refine exists_congr fun number => ?_
        rw [table]
        by_cases above : toUnsigned no < number
        · rw [update_of_ne (by omega)]
          have inside : man.lookup number ≠ none → number < man.fmVeca := fun used => by
            by_contra beyond
            exact used (lookup_eq_none.mpr fun less => absurd less beyond)
          tauto
        · simp [above]
      rw [later]
      simp only [InBounds, live, false_or]
      rfl
  · rw [if_neg within]
    exact del_missing valid (lookup_eq_none.mpr fun inside => absurd inside within) rfl

/-- Each call but the setting of the last number answers as the finite map does. -/
lemma perform_answers (valid : Valid man) (fDent : Nat → Nat) (call : FdCall) (outside : Nat → Fd)
    (promised : Promised man (call, outside)) :
    Answers man (man.perform fDent call outside).1 call (man.perform fDent call outside).2
      (InBounds man (call, outside)) := by
  have table := surround_lookup man outside
  have kept := surround_valid valid outside
  have from_surround : ∀ {after : FdMan} {reply : FdReply},
      Answers (man.surround outside) after call reply (InBounds (man.surround outside) (call, outside)) →
      Answers man after call reply (InBounds man (call, outside)) := by
    intro after reply answers
    refine ⟨answers.valid, answers.limit, table ▸ answers.accepts, ?_⟩
    have same : InBounds (man.surround outside) (call, outside) ↔ InBounds man (call, outside) := by
      unfold InBounds
      rw [table]
      rfl
    rw [← same]
    exact answers.strayed
  refine from_surround ?_
  cases call with
  | set no fp => exact set_answers kept fDent promised
  | putNearby hint fp => exact putNearbyUnlocked_answers kept hint promised
  | put fp => exact put_answers kept promised
  | del no => exact delUnlocked_answers kept

end Calls

section Runs

def step (man : FdMan) (action : FdCall × (Nat → Fd)) : Option FdMan :=
  some (man.perform fDent action.1 action.2).1

lemma init_valid (fsRoot : Nat) {limit : Nat} (small : limit < 2 ^ 31) (outside : Nat → Fd) :
    Valid (init fsRoot limit outside) := ⟨Nat.zero_le _, small, rfl⟩

/-- A run keeps the table valid, and leaves no trace exactly if its calls stay inside. -/
lemma run_valid (actions : List (FdCall × (Nat → Fd))) (man : FdMan) (valid : Valid man)
    (promised : StepRun.Meets (step fDent) Promised man actions) :
    ∃ final, run (step fDent) man actions = some final ∧ Valid final ∧ final.fmVecm = man.fmVecm ∧
      (final.strayed = false ↔ man.strayed = false ∧
        StepRun.Meets (step fDent) InBounds man actions) := by
  induction actions generalizing man with
  | nil => exact ⟨man, rfl, valid, rfl, by simp [StepRun.Meets]⟩
  | cons action rest ih =>
    obtain ⟨here, later⟩ := promised
    have answers := perform_answers valid fDent action.1 action.2 here
    obtain ⟨final, reached, kept, limit, trace⟩ := ih _ answers.valid (later _ rfl)
    refine ⟨final, reached, kept, limit.trans answers.limit, ?_⟩
    rw [trace, answers.strayed, and_assoc]
    refine and_congr_right fun _ => ?_
    simp [StepRun.Meets, step]

/-- The table is a finite map whose last number cannot be set, and it stays in its vector exactly if
each deletion does. -/
theorem fdman_finiteMap (fsRoot limit : Nat) (outside : Nat → Fd) (small : limit < 2 ^ 31)
    (actions : List (FdCall × (Nat → Fd))) (action : FdCall × (Nat → Fd))
    (promised : StepRun.Meets (step fDent) Promised (init fsRoot limit outside) (actions ++ [action])) :
    ∃ man, run (step fDent) (init fsRoot limit outside) actions = some man ∧ Valid man ∧
      (∀ number, man.lookup number ≠ none → number < limit) ∧
      (Accepts limit man.lookup action.1 (man.perform fDent action.1 action.2).2
        (man.perform fDent action.1 action.2).1.lookup ↔ Settable limit action.1) ∧
      Valid (man.perform fDent action.1 action.2).1 ∧
      ((man.perform fDent action.1 action.2).1.strayed = false ↔
        StepRun.Meets (step fDent) InBounds (init fsRoot limit outside) (actions ++ [action])) := by
  obtain ⟨promisedFirst, promisedLast⟩ := StepRun.Meets.concat actions _ promised
  obtain ⟨man, reached, valid, sameLimit, _⟩ :=
    run_valid fDent actions _ (init_valid fsRoot small outside) promisedFirst
  obtain ⟨final, ran, _, _, trace⟩ :=
    run_valid fDent (actions ++ [action]) _ (init_valid fsRoot small outside) promised
  have answers := perform_answers valid fDent action.1 action.2 (promisedLast man reached)
  have accepts := answers.accepts
  rw [sameLimit] at accepts
  refine ⟨man, reached, valid, fun number used => ?_, accepts, answers.valid, ?_⟩
  · by_contra beyond
    refine used (lookup_eq_none.mpr fun inside => ?_)
    have fits := valid.fits
    rw [sameLimit, show (init fsRoot limit outside).fmVecm = limit from rfl] at fits
    omega
  · rw [run_concat, reached, bind_some, step, some.injEq] at ran
    rw [ran, trace]
    simp [init]

theorem fdman_finiteMap_small : ∃ man, run (step id) (init 1 20 fun _ => .invalid)
        [(.put ⟨.file, 0, 7⟩, fun _ => .invalid), (.set 12 ⟨.dentry, 1, 9⟩, fun _ => .invalid),
          (.putNearby 30 ⟨.task, 2, 4⟩, fun _ => .invalid), (.del 0, fun _ => .invalid)] = some man ∧
      Valid man ∧ (∀ number, man.lookup number ≠ none → number < 20) ∧
      (Accepts 20 man.lookup (.set 19 ⟨.mman, 0, 5⟩)
        (man.perform id (.set 19 ⟨.mman, 0, 5⟩) fun _ => .invalid).2
        (man.perform id (.set 19 ⟨.mman, 0, 5⟩) fun _ => .invalid).1.lookup ↔
          Settable 20 (.set 19 ⟨.mman, 0, 5⟩)) ∧
      Valid (man.perform id (.set 19 ⟨.mman, 0, 5⟩) fun _ => .invalid).1 ∧
      ((man.perform id (.set 19 ⟨.mman, 0, 5⟩) fun _ => .invalid).1.strayed = false ↔
        StepRun.Meets (step id) InBounds (init 1 20 fun _ => .invalid)
          [(.put ⟨.file, 0, 7⟩, fun _ => .invalid), (.set 12 ⟨.dentry, 1, 9⟩, fun _ => .invalid),
            (.putNearby 30 ⟨.task, 2, 4⟩, fun _ => .invalid), (.del 0, fun _ => .invalid),
            (.set 19 ⟨.mman, 0, 5⟩, fun _ => .invalid)]) :=
  fdman_finiteMap id 1 20 (fun _ => .invalid) (by decide) _ (.set 19 ⟨.mman, 0, 5⟩, fun _ => .invalid)
    ⟨rfl, fun _ _ => ⟨rfl, fun _ _ => ⟨rfl, fun _ _ => ⟨trivial, fun _ _ => ⟨rfl, fun _ _ => trivial⟩⟩⟩⟩⟩

/-- The only descriptor is deleted, and the slot behind the vector is read. -/
theorem delUnlocked_strays : (run (step id) (init 1 0xffff fun _ => .invalid)
      [(.put ⟨.file, 0, 7⟩, fun _ => .invalid), (.del 0, fun _ => .invalid)]).map strayed =
        some true := by
  decide

end Runs

end FdMan

end KosKernel.Fs
