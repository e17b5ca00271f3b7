import KosKernel.Memory.MemInfoMap
import KosKernel.Memory.MemUnpreserve

namespace KosKernel.Memory.MemInfoVec
open Breakpoints List MemInfo Nat
variable {target : MemTarget} {self : MemInfoVec} {list front back : List MemInfo}
  {entry : MemInfo} {page : Nat}

/-- The end of an entry. -/
def stopOf (target : MemTarget) (back : List MemInfo) : Nat :=
  (back.head?.map miAddr).getD (2 ^ target.bits)

/-- The page lies inside of a preserved entry. -/
def Interior (target : MemTarget) : List MemInfo → Nat → Prop
  | [], _ => False
  | entry :: back, page =>
    (entry.miType = .preserve ∧ entry.miAddr ≤ page ∧ page + pageSize ≤ stopOf target back) ∨
      Interior target back page

instance decidableInterior (target : MemTarget) : (list : List MemInfo) → (page : Nat) →
    Decidable (Interior target list page)
  | [], _ => inferInstanceAs (Decidable False)
  | _ :: back, page => @instDecidableOr _ _ _ (decidableInterior target back page)

/-- The numbers of the pages inside of preserved entries. -/
def interiorPages (target : MemTarget) (list : List MemInfo) : Finset Nat :=
  (Finset.range (2 ^ target.bits / pageSize)).filter fun index => Interior target list (pageSize * index)

/-- The page is part of a range that is handed to the page allocator. -/
def Passed (events : List PageEvent) (page : Nat) : Prop :=
  ∃ base bytes, PageEvent.addmemory base bytes ∈ events ∧ base ≤ page ∧ page < base + bytes

/-- It hands over the whole pages of the preserved entries and frees the entries. -/
def UnpreserveContract (target : MemTarget) (self : MemInfoVec) : Prop :=
  ∃ final result events, self.memUnpreserve target = some (final, result, events) ∧
    (∀ page, pageSize ∣ page → (Passed events page ↔ Interior target self.entries page)) ∧
    result = pageSize * (interiorPages target self.entries).card ∧
    ∀ point, typeAt final.entries point = freedType (typeAt self.entries point)

/-- The entry starts at zero and another one follows, or it contains no whole page. -/
def SafeEntry (target : MemTarget) (entry : MemInfo) : Option MemInfo → Prop
  | none => 2 ^ target.bits ≤ entry.miAddr + (pageSize - 1)
  | some next => entry.miAddr = 0 ∨
      (entry.miAddr + (pageSize - 1) < 2 ^ target.bits ∧
        floorAlign next.miAddr ≤ ceilAlign target.bits entry.miAddr)

def UnpreserveSafe (target : MemTarget) : List MemInfo → Prop
  | [] => True
  | entry :: back => (entry.miType = .preserve →
      SafeEntry target entry back.head?) ∧ UnpreserveSafe target back

/-- A property of some entry with the entries behind it holds at the first entry or further on. -/
lemma exists_split_cons (P : MemInfo → List MemInfo → Prop) (first : MemInfo) (list : List MemInfo) :
    (∃ front entry back, first :: list = front ++ entry :: back ∧ P entry back) ↔
      P first list ∨ ∃ front entry back, list = front ++ entry :: back ∧ P entry back := by
  constructor
  · rintro ⟨front, entry, back, split, holds⟩
    cases front with
    | nil =>
      obtain ⟨rfl, rfl⟩ := cons.inj split
      exact .inl holds
    | cons head front =>
      obtain ⟨rfl, rfl⟩ := cons.inj split
      exact .inr ⟨front, entry, back, rfl, holds⟩
  · rintro (here | ⟨front, entry, back, rfl, holds⟩)
    · exact ⟨[], first, list, rfl, here⟩
    · exact ⟨first :: front, entry, back, rfl, holds⟩

lemma interior_iff :
    Interior target list page ↔ ∃ front entry back, list = front ++ entry :: back ∧
    entry.miType = .preserve ∧
      entry.miAddr ≤ page ∧ page + pageSize ≤ stopOf target back := by
  induction list with
  | nil => simp [Interior]
  | cons first list ih => rw [Interior, ih, exists_split_cons]

variable {offered : Nat × Nat} {top : Nat} {first second : MemInfo} {more : List MemInfo}

lemma mem_offers :
    offered ∈ offers target list ↔ ∃ front entry back, list = front ++ entry :: back ∧
    offered ∈ offer target entry back := by
  induction list with
  | nil => simp [offers]
  | cons first list ih => rw [offers, mem_append, ih, exists_split_cons]

lemma unpreserveSafe_iff :
    UnpreserveSafe target list ↔ ∀ front entry back, list = front ++ entry :: back →
    entry.miType = .preserve →
      SafeEntry target entry back.head? := by
  induction list with
  | nil => simp [UnpreserveSafe]
  | cons first list ih =>
    have split := exists_split_cons (fun entry back => ¬ (entry.miType = .preserve →
      SafeEntry target entry back.head?)) first list
    rw [UnpreserveSafe, ih]
    constructor
    · rintro ⟨here, later⟩ front entry back same
      by_contra broken
      rcases split.mp ⟨front, entry, back, same, broken⟩ with now | ⟨front, entry, back, same, broken⟩
      · exact now here
      · exact broken (later front entry back same)
    · intro all
      exact ⟨all [] first list rfl, fun front entry back same => all (first :: front) entry back
        (by rw [same]; rfl)⟩

/-- The range of an offer as it is passed on. -/
def Reaches (target : MemTarget) (offered : Nat × Nat) (page : Nat) : Prop :=
  offered.1 ≤ page ∧ page < offered.1 + (offered.2 + (2 ^ target.bits - offered.1)) % 2 ^ target.bits

lemma passed_iff :
    Passed ((offers target list).map (offerEvent target)) page ↔ ∃ front entry back,
      list = front ++ entry :: back ∧
      ∃ offered ∈ offer target entry back, Reaches target offered page := by
  constructor
  · rintro ⟨base, bytes, mem, lower, upper⟩
    obtain ⟨offered, isOffer, same⟩ := mem_map.mp mem
    obtain ⟨rfl, rfl⟩ := PageEvent.addmemory.inj same
    obtain ⟨front, entry, back, split, inside⟩ := mem_offers.mp isOffer
    exact ⟨front, entry, back, split, offered, inside, lower, upper⟩
  · rintro ⟨front, entry, back, split, offered, inside, lower, upper⟩
    exact ⟨_, _, mem_map_of_mem (mem_offers.mpr ⟨front, entry, back, split, inside⟩), lower, upper⟩

section Spans
variable (placed : Placed target list) (split : list = front ++ entry :: back)
include placed split

/-- The entries behind an entry start at its end or later. -/
lemma stop_le_later {later : MemInfo} (mem : later ∈ back) : stopOf target back ≤ later.miAddr := by
  have ascending := placed.ascending
  rw [split] at ascending
  have behind := (pairwise_cons.mp (pairwise_append.mp ascending).2.1).2
  cases back with
  | nil => exact absurd mem not_mem_nil
  | cons next rest =>
    rcases mem_cons.mp mem with rfl | mem
    · exact le_rfl
    · exact ((pairwise_cons.mp behind).1 later mem).le

lemma start_lt_stop : entry.miAddr < stopOf target back ∧ stopOf target back ≤ 2 ^ target.bits := by
  have ascending := placed.ascending
  have bounded := placed.bounded
  rw [split] at ascending bounded
  cases back with
  | nil => exact ⟨bounded entry (by simp), le_rfl⟩
  | cons next rest =>
    have order := (pairwise_cons.mp (pairwise_append.mp ascending).2.1).1 next mem_cons_self
    exact ⟨order, (bounded next (by simp)).le⟩

/-- Only one entry holds an address. -/
lemma split_unique {otherFront otherBack : List MemInfo} {other : MemInfo}
    (otherSplit : list = otherFront ++ other :: otherBack)
    {point : Nat} (lower : entry.miAddr ≤ point) (upper : point < stopOf target back)
    (otherLower : other.miAddr ≤ point)
    (otherUpper : point < stopOf target otherBack) :
    front = otherFront ∧ entry = other ∧ back = otherBack := by
  rcases append_eq_append_iff.mp (split.symm.trans otherSplit) with ⟨between, rfl,
    rest⟩ | ⟨between, rfl, rest⟩
  · cases between with
    | nil =>
      obtain ⟨rfl, rfl⟩ := cons.inj rest
      exact ⟨(append_nil _).symm, rfl, rfl⟩
    | cons head between =>
      obtain ⟨rfl, rfl⟩ := cons.inj rest
      have := stop_le_later placed split (show other ∈ between ++ other :: otherBack by simp)
      omega
  · cases between with
    | nil =>
      obtain ⟨rfl, rfl⟩ := cons.inj rest
      exact ⟨append_nil _, rfl, rfl⟩
    | cons head between =>
      obtain ⟨rfl, rfl⟩ := cons.inj rest
      have := stop_le_later placed otherSplit (show entry ∈ between ++ entry :: back by simp)
      omega

end Spans

section Rounding
variable {bits address : Nat}

lemma floorAlign_le (address : Nat) : floorAlign address ≤ address := div_mul_le_self _ _

lemma lt_floorAlign_iff (aligned : pageSize ∣ page) :
    page < floorAlign address ↔ page + pageSize ≤ address := by
  obtain ⟨index, rfl⟩ := aligned
  unfold floorAlign pageSize
  omega

lemma ceilAlign_le_iff (fits : address + (pageSize - 1) < 2 ^ bits) (aligned : pageSize ∣ page) :
    ceilAlign bits address ≤ page ↔ address ≤ page := by
  obtain ⟨index, rfl⟩ := aligned
  unfold ceilAlign
  rw [mod_eq_of_lt fits]
  unfold pageSize
  omega

/-- Behind the last page the sum wraps to zero. -/
lemma ceilAlign_wraps (wide : 12 < bits) (word : address < 2 ^ bits)
    (wraps : 2 ^ bits ≤ address + (pageSize - 1)) :
    ceilAlign bits address = 0 := by
  have large : 2 ^ 12 < 2 ^ bits := Nat.pow_lt_pow_right (by decide) wide
  have page : pageSize = 4096 := rfl
  unfold ceilAlign
  rw [mod_eq_sub_mod wraps, mod_eq_of_lt (by omega), div_eq_of_lt (by omega), zero_mul]

lemma pageSize_dvd_two_pow (wide : 12 < bits) : pageSize ∣ 2 ^ bits := pow_dvd_pow 2 wide.le

lemma ceilAlign_dvd (bits address : Nat) : pageSize ∣ ceilAlign bits address := dvd_mul_left _ _

end Rounding

/-- An offer comes from a preserved entry with another one behind it. -/
lemma mem_offer : offered ∈ offer target entry back ↔ entry.miType = .preserve ∧
    ∃ next rest, back = next :: rest ∧ ceilAlign target.bits entry.miAddr < floorAlign next.miAddr ∧
      offered = (ceilAlign target.bits entry.miAddr,
        floorAlign next.miAddr - ceilAlign target.bits entry.miAddr) := by
  unfold offer
  cases back with
  | nil => simp [endOf, floorAlign]
  | cons next rest =>
    split
    · next both =>
      simp only [mem_singleton]
      exact ⟨fun same => ⟨both.1, next, rest, rfl, both.2, same⟩,
        fun ⟨_, other, behind, same, _, equal⟩ => by
        obtain ⟨rfl, rfl⟩ := cons.inj same
        exact equal⟩
    · next neither =>
      refine iff_of_false not_mem_nil fun ⟨preserved, other, behind, same, less, _⟩ =>
        neither ⟨preserved, ?_⟩
      obtain ⟨rfl, rfl⟩ := cons.inj same
      exact less

/-- A safe entry passes on exactly its whole pages. -/
lemma SafeEntry.reaches_iff (safe : SafeEntry target entry back.head?) (placed : Placed target list)
    (split : list = front ++ entry :: back) (preserved : entry.miType = .preserve)
    (aligned : pageSize ∣ page) :
    (∃ offered ∈ offer target entry back, Reaches target offered page) ↔
      entry.miAddr ≤ page ∧ page + pageSize ≤ stopOf target back := by
  cases back with
  | nil =>
    refine iff_of_false (fun ⟨offered, mem, _⟩ => ?_) fun ⟨lower, upper⟩ => ?_
    · obtain ⟨_, next, rest, never, _⟩ := mem_offer.mp mem
      exact absurd never.symm (cons_ne_nil next rest)
    · change 2 ^ target.bits ≤ entry.miAddr + (pageSize - 1) at safe
      change page + pageSize ≤ 2 ^ target.bits at upper
      have : pageSize = 4096 := rfl
      omega
  | cons next rest =>
    have order := start_lt_stop placed split
    have word : next.miAddr < 2 ^ target.bits := placed.bounded next (by rw [split]; simp)
    have floor := floorAlign_le next.miAddr
    rw [show stopOf target (next :: rest) = next.miAddr from rfl, ← lt_floorAlign_iff aligned]
    rcases safe with zero | ⟨fits, empty⟩
    · have ceil : ceilAlign target.bits entry.miAddr = 0 := by
        rw [zero, ceilAlign, div_eq_of_lt, zero_mul]
        exact (mod_le _ _).trans_lt (by decide)
      have reaches : Reaches target (0, floorAlign next.miAddr) page ↔
        page < floorAlign next.miAddr := by
        unfold Reaches
        simp only [Nat.zero_le, true_and, Nat.sub_zero, Nat.zero_add]
        rw [Nat.add_mod_right, Nat.mod_eq_of_lt (by omega)]
      rw [zero, and_iff_right (Nat.zero_le page), ← reaches]
      constructor
      · rintro ⟨offered, mem, reached⟩
        obtain ⟨_, _, _, same, _, rfl⟩ := mem_offer.mp mem
        obtain ⟨rfl, rfl⟩ := cons.inj same
        rwa [ceil] at reached
      · intro reached
        refine ⟨_, mem_offer.mpr ⟨preserved, next, rest, rfl, ?_, rfl⟩, by rwa [ceil]⟩
        rw [ceil]
        have := reaches.mp reached
        omega
    · refine iff_of_false (fun ⟨offered, mem, _⟩ => ?_) fun ⟨lower, upper⟩ => ?_
      · obtain ⟨_, _, _, same, less, _⟩ := mem_offer.mp mem
        obtain ⟨rfl, rfl⟩ := cons.inj same
        omega
      · have := (ceilAlign_le_iff fits aligned).mpr lower
        omega

section Exact
variable (placed : Placed target list) (chain : list.IsChain Differ)
  (exact : ∀ page, pageSize ∣ page → (Passed ((offers target list).map (offerEvent target)) page ↔
    Interior target list page))
include placed chain exact

section
variable {next : MemInfo} {rest : List MemInfo} (split : list = front ++ entry :: next :: rest)
  (preserved : entry.miType = .preserve)
include split preserved
omit exact in
/-- The page at the end of a preserved entry is not inside of another one. -/
lemma not_interior_end : ¬ Interior target list (floorAlign next.miAddr) := by
  intro inside
  obtain ⟨otherFront, other, otherBack, otherSplit, otherPreserved, lower, upper⟩ :=
    interior_iff.mp inside
  have nextSplit : list = (front ++ [entry]) ++ next :: rest := by rw [split]; simp
  have behind := (start_lt_stop placed nextSplit).1
  have floor := floorAlign_le next.miAddr
  have ceil : next.miAddr < floorAlign next.miAddr + pageSize := by
    unfold floorAlign pageSize
    omega
  obtain ⟨_, rfl, _⟩ := split_unique placed nextSplit otherSplit le_rfl behind (by omega) (by omega)
  have differ : Differ entry next := by
    rw [split] at chain
    exact (isChain_cons_cons.mp chain.right_of_append).1
  exact differ (preserved.trans otherPreserved.symm)

/-- For an entry that does not start in the last page the second subtraction does not wrap. -/
lemma exact_twice (filled : ceilAlign target.bits entry.miAddr < floorAlign next.miAddr) :
    2 * ceilAlign target.bits entry.miAddr ≤ floorAlign next.miAddr := by
  by_contra wraps
  have word : next.miAddr < 2 ^ target.bits := placed.bounded next (by rw [split]; simp)
  have floor := floorAlign_le next.miAddr
  refine not_interior_end placed chain split preserved
    ((exact (floorAlign next.miAddr) (dvd_mul_left _ _)).mp (passed_iff.mpr
    ⟨front, entry, next :: rest, split, _, mem_offer.mpr ⟨preserved, next, rest, rfl, filled, rfl⟩,
      filled.le, ?_⟩))
  rw [mod_eq_of_lt (by omega)]
  omega

/-- What is passed on of an entry ends as far before its end as the entry starts behind zero. -/
lemma exact_reaches (filled : ceilAlign target.bits entry.miAddr < floorAlign next.miAddr) :
    Reaches target (ceilAlign target.bits entry.miAddr,
      floorAlign next.miAddr - ceilAlign target.bits entry.miAddr) page ↔
      ceilAlign target.bits entry.miAddr ≤ page ∧
      page < floorAlign next.miAddr - ceilAlign target.bits entry.miAddr := by
  have twice := exact_twice placed chain exact split preserved filled
  have word : next.miAddr < 2 ^ target.bits := placed.bounded next (by rw [split]; simp)
  have floor := floorAlign_le next.miAddr
  unfold Reaches
  rw [show floorAlign next.miAddr - ceilAlign target.bits
    entry.miAddr + (2 ^ target.bits - ceilAlign target.bits entry.miAddr) =
    floorAlign next.miAddr - ceilAlign target.bits entry.miAddr - ceilAlign target.bits
      entry.miAddr + 2 ^ target.bits by omega,
    add_mod_right, mod_eq_of_lt (by omega)]
  omega

end

/-- A preserved entry at the end of the vector starts in the last page. -/
lemma exact_last (wide : 12 < target.bits) (split : list = front ++ [entry])
    (preserved : entry.miType = .preserve) :
    2 ^ target.bits ≤ entry.miAddr + (pageSize - 1) := by
  by_contra fits
  have fits := Nat.lt_of_not_le fits
  have aligned := ceilAlign_dvd target.bits entry.miAddr
  have lower := (ceilAlign_le_iff fits aligned).mp le_rfl
  have top : ceilAlign target.bits entry.miAddr + pageSize ≤ 2 ^ target.bits := by
    have below : ceilAlign target.bits entry.miAddr < 2 ^ target.bits :=
      (Nat.div_mul_le_self _ _).trans_lt (Nat.mod_lt _ (Nat.two_pow_pos _))
    have gap := Nat.le_of_dvd (Nat.sub_pos_of_lt below) (Nat.dvd_sub (pageSize_dvd_two_pow wide) aligned)
    omega
  obtain ⟨otherFront, other, otherBack, otherSplit, offered, mem, reached⟩ :=
    passed_iff.mp ((exact _ aligned).mpr
    (interior_iff.mpr ⟨front, entry, [], split, preserved, lower, top⟩))
  obtain ⟨otherPreserved, next, rest, rfl, filled, rfl⟩ := mem_offer.mp mem
  have less := ((exact_reaches placed chain exact otherSplit otherPreserved filled).mp reached).2
  have floor := floorAlign_le next.miAddr
  have behind : entry ∈ next :: rest := by
    have ends := congrArg List.getLast? (split.symm.trans otherSplit)
    rw [List.getLast?_concat, List.getLast?_append_cons] at ends
    exact mem_of_getLast? ends.symm
  have later : next.miAddr ≤ entry.miAddr := stop_le_later placed otherSplit behind
  omega

/-- An entry without a wrap that contains a whole page starts at zero. -/
lemma exact_middle {next : MemInfo} {rest : List MemInfo} (split : list = front ++ entry :: next :: rest)
    (preserved : entry.miType = .preserve)
    (fits : ∀ front entry next rest, list = front ++ entry :: next :: rest →
      entry.miType = .preserve → entry.miAddr + (pageSize - 1) < 2 ^ target.bits)
    (filled : ceilAlign target.bits entry.miAddr < floorAlign next.miAddr) : entry.miAddr = 0 := by
  by_contra positive
  have aligned := ceilAlign_dvd target.bits entry.miAddr
  have lower := (ceilAlign_le_iff (fits _ _ _ _ split preserved) aligned).mp le_rfl
  have twice := exact_twice placed chain exact split preserved filled
  have sizeAligned : pageSize ∣ floorAlign next.miAddr - ceilAlign target.bits entry.miAddr :=
    dvd_sub (dvd_mul_left _ _) aligned
  have upper : floorAlign next.miAddr - ceilAlign target.bits entry.miAddr + pageSize ≤ next.miAddr :=
    (lt_floorAlign_iff sizeAligned).mp (by omega)
  obtain ⟨otherFront, other, otherBack, otherSplit, offered, mem, reached⟩ :=
    passed_iff.mp ((exact _ sizeAligned).mpr
    (interior_iff.mpr ⟨front, entry, next :: rest, split, preserved, by omega, upper⟩))
  obtain ⟨otherPreserved, otherNext, otherRest, rfl, otherFilled, rfl⟩ := mem_offer.mp mem
  obtain ⟨from_, less⟩ :=
    (exact_reaches placed chain exact otherSplit otherPreserved otherFilled).mp reached
  have otherLower := (ceilAlign_le_iff (fits _ _ _ _ otherSplit otherPreserved) sizeAligned).mp from_
  have floor := floorAlign_le otherNext.miAddr
  obtain ⟨_, rfl, same⟩ := split_unique placed split otherSplit (show entry.miAddr ≤ _ by omega)
    (show _ < next.miAddr by have : 0 < pageSize := by decide
                             omega) otherLower (show _ < otherNext.miAddr by omega)
  obtain ⟨rfl, rfl⟩ := cons.inj same
  omega

end Exact

lemma length_offers_le (list : List MemInfo) : (offers target list).length ≤ list.length := by
  induction list with
  | nil => exact le_rfl
  | cons first list ih =>
    have one : (offer target first list).length ≤ 1 := by
      unfold offer
      split <;> simp
    rw [offers, length_append, length_cons]
    omega

/-- The size of the pages below a bound. -/
lemma interiorPages_card {bound : Nat} (aligned : pageSize ∣ bound) (small : bound ≤ 2 ^ target.bits)
    (same : ∀ page, pageSize ∣ page → page + pageSize ≤ 2 ^ target.bits →
      (Interior target list page ↔ page < bound)) :
    pageSize * (interiorPages target list).card = bound := by
  have positive : 0 < pageSize := by decide
  have pages : interiorPages target list = Finset.range (bound / pageSize) := by
    ext index
    have below : index < bound / pageSize ↔ pageSize * index < bound := by
      rw [Nat.lt_div_iff_mul_lt_of_dvd positive.ne' aligned, Nat.mul_comm]
    rw [interiorPages, Finset.mem_filter, Finset.mem_range, Finset.mem_range, below]
    constructor
    · rintro ⟨inside, interior⟩
      refine (same _ (Nat.dvd_mul_right _ _) ?_).mp interior
      have := Nat.mul_le_of_le_div _ _ _ (Nat.succ_le_of_lt inside)
      rw [Nat.mul_comm] at this
      exact this
    · intro less
      have gap := Nat.le_of_dvd (Nat.sub_pos_of_lt less) (Nat.dvd_sub aligned (Nat.dvd_mul_right _ _))
      have top : pageSize * index + pageSize ≤ 2 ^ target.bits := by omega
      refine ⟨?_, (same _ (Nat.dvd_mul_right _ _) top).mpr less⟩
      rw [← Nat.succ_le_iff, Nat.le_div_iff_mul_le positive, Nat.mul_comm]
      exact top
  rw [pages, Finset.card_range, Nat.mul_div_cancel' aligned]

/-- Entries in the last page are few. -/
lemma length_le_of_top (ascending : Ascending miAddr list)
    (inside : ∀ entry ∈ list, top ≤ entry.miAddr ∧ entry.miAddr < top + pageSize) :
      list.length ≤ pageSize := by
  have nodup : (list.map miAddr).Nodup := List.Pairwise.map _ (fun _ _ less => less.ne) ascending
  have subset : list.map miAddr ⊆ List.range' top pageSize := by
    intro address mem
    obtain ⟨entry, isMember, rfl⟩ := mem_map.mp mem
    exact mem_range'_1.mpr (inside entry isMember)
  simpa using (subperm_of_subset nodup subset).length_le

section Wrapped
variable {next : MemInfo} {rest : List MemInfo}

/-- The only address of a word whose page is the last one. -/
lemma floorAlign_top {bits address : Nat} (wide : 12 < bits) (lower : 2 ^ bits - pageSize ≤ address)
    (upper : address < 2 ^ bits) :
    floorAlign address = 2 ^ bits - pageSize := by
  obtain ⟨pages, total⟩ := pageSize_dvd_two_pow wide
  unfold floorAlign pageSize at *
  omega

/-- Offers from zero to the last page add up to its address only if there is one. -/
lemma sum_top {word count : Nat} (few : (count + 1) * pageSize ≤ word)
    (same : (word - pageSize + count * (word - pageSize)) % word = word - pageSize) : count = 0 := by
  obtain ⟨slack, rfl⟩ := Nat.exists_eq_add_of_le few
  have size : (count + 1) * pageSize + slack - pageSize = count * pageSize + slack := by
    rw [succ_mul]
    omega
  have page : pageSize = 4096 := rfl
  rw [size, show count * pageSize + slack + count * (count * pageSize + slack) =
    slack + count * ((count + 1) * pageSize + slack) by ring,
    add_mul_mod_self_right, mod_eq_of_lt (by rw [succ_mul]; omega)] at same
  have none : count * pageSize = 0 := by omega
  exact (Nat.mul_eq_zero.mp none).resolve_right (by decide)

/-- When preserved entries cover everything below a bound, the first entry does. -/
lemma covered_first (placed : Placed target (first :: second :: more))
    (chain : (first :: second :: more).IsChain Differ) (positive : 0 < top)
    (covers : ∀ page, pageSize ∣ page → page < top → Interior target (first :: second :: more) page) :
    first.miAddr = 0 ∧ first.miType = .preserve ∧ top ≤ second.miAddr := by
  have zero : first.miAddr = 0 := Option.some.inj placed.based
  have whole : first :: second :: more = [] ++ first :: second :: more := rfl
  have stop := (start_lt_stop placed whole).1
  have preserved : first.miType = .preserve := by
    obtain ⟨_, other, _, otherSplit, otherPreserved, lower, upper⟩ :=
      interior_iff.mp (covers 0 (dvd_zero _) positive)
    have page : 0 < pageSize := by decide
    obtain ⟨_, rfl, _⟩ := split_unique placed whole otherSplit zero.le (zero ▸ stop) lower (by omega)
    exact otherPreserved
  refine ⟨zero, preserved, Nat.le_of_not_lt fun less => ?_⟩
  have floor := floorAlign_le second.miAddr
  exact not_interior_end placed chain whole preserved
    (covers _ (dvd_mul_left _ _) (show floorAlign second.miAddr < top by omega))

lemma ceilAlign_zero (bits : Nat) : ceilAlign bits 0 = 0 := by
  rw [ceilAlign, div_eq_of_lt ((mod_le _ _).trans_lt (by decide)), zero_mul]

/-- If the sum of all offers reaches the last page, no offer follows such an entry. -/
lemma no_offers_top (wide : 32 ≤ target.bits) (top_eq : 2 ^ target.bits - pageSize = top)
    (placed : Placed target (first :: second :: more)) (chain : (first :: second :: more).IsChain Differ)
    (covers : ∀ page, pageSize ∣ page → page < top → Interior target (first :: second :: more) page)
    (returned : ((offers target (first :: second :: more)).map Prod.snd).sum % 2 ^ target.bits = top) :
    offers target (second :: more) = [] := by
  have page : pageSize = 4096 := rfl
  have large : 2 ^ 32 ≤ 2 ^ target.bits := Nat.pow_le_pow_right (by decide) wide
  obtain ⟨zero, preserved, secondTop⟩ := covered_first placed chain (by omega) covers
  obtain ⟨_, ascending⟩ := pairwise_cons.mp placed.ascending
  obtain ⟨secondBelow, _⟩ := pairwise_cons.mp ascending
  have bounded : ∀ later ∈ second :: more, later.miAddr < 2 ^ target.bits :=
    fun later mem => placed.bounded later (mem_cons_of_mem first mem)
  have floorTop : ∀ later ∈ second :: more, floorAlign later.miAddr = top := by
    intro later mem
    refine top_eq ▸ floorAlign_top (by omega) ?_ (bounded later mem)
    rcases mem_cons.mp mem with rfl | inMore
    · omega
    · have := secondBelow later inMore
      omega
  have all : ∀ offered ∈ offers target (second :: more), offered = (0, top) := by
    intro offered mem
    obtain ⟨otherFront, source, back, split, isOffer⟩ := mem_offers.mp mem
    obtain ⟨sourcePreserved, behind, others, rfl, _, rfl⟩ := mem_offer.mp isOffer
    -- The second entry is not preserved, so the source of the offer stands behind it.
    have sourceTop : top < source.miAddr := by
      cases otherFront with
      | nil =>
        obtain ⟨rfl, _⟩ := cons.inj split
        exact absurd (preserved.trans sourcePreserved.symm) (isChain_cons_cons.mp chain).1
      | cons head otherFront =>
        obtain ⟨rfl, rfl⟩ := cons.inj split
        exact secondTop.trans_lt (secondBelow source (by simp))
    have sourceWord := bounded source (by rw [split]; simp)
    rw [ceilAlign_wraps (by omega) sourceWord (by omega), floorTop behind (by rw [split]; simp),
      Nat.sub_zero]
  have firstOffer : offer target first (second :: more) = [(0, top)] := by
    unfold offer
    rw [show endOf (second :: more) = second.miAddr from rfl, zero, ceilAlign_zero,
      floorTop second mem_cons_self, if_pos ⟨preserved, by omega⟩, Nat.sub_zero]
  have few : (offers target (second :: more)).length ≤ pageSize := by
    have inside : ∀ later ∈ second :: more, top ≤ later.miAddr ∧ later.miAddr < top + pageSize := by
      intro later mem
      have word := bounded later mem
      have floor := floorAlign_le later.miAddr
      rw [floorTop later mem] at floor
      exact ⟨floor, by omega⟩
    exact (length_offers_le _).trans (length_le_of_top ascending inside)
  have room : ((offers target (second :: more)).length + 1) * pageSize ≤ 2 ^ target.bits :=
    (mul_le_mul_right pageSize (succ_le_succ few)).trans
      ((show (pageSize + 1) * pageSize ≤ 2 ^ 32 by decide).trans large)
  rw [offers, firstOffer, eq_replicate_of_mem all, ← top_eq] at returned
  simp only [singleton_append, map_cons, sum_cons, map_replicate, sum_replicate, smul_eq_mul] at returned
  exact eq_nil_of_length_eq_zero (sum_top room returned)

/-- Only the last entry starts in the last page. -/
lemma exact_fits (placed : Placed target list) (chain : list.IsChain Differ)
    (exact : ∀ page, pageSize ∣ page → (Passed ((offers target list).map (offerEvent target)) page ↔
      Interior target list page))
    (wide : 32 ≤ target.bits)
    (returned : ((offers target list).map Prod.snd).sum % 2 ^ target.bits =
      pageSize * (interiorPages target list).card)
    (split : list = front ++ entry :: next :: rest) (preserved : entry.miType = .preserve) :
    entry.miAddr + (pageSize - 1) < 2 ^ target.bits := by
  by_contra wraps
  have page : pageSize = 4096 := rfl
  have large : 2 ^ 32 ≤ 2 ^ target.bits := Nat.pow_le_pow_right (by decide) wide
  obtain ⟨top, top_eq⟩ : ∃ top, 2 ^ target.bits - pageSize = top := ⟨_, rfl⟩
  have topAligned : pageSize ∣ top :=
    top_eq ▸ Nat.dvd_sub (pageSize_dvd_two_pow (by omega)) (Nat.dvd_refl _)
  have order : entry.miAddr < next.miAddr := (start_lt_stop placed split).1
  have word : next.miAddr < 2 ^ target.bits := placed.bounded next (by rw [split]; simp)
  -- The offer of the entry reaches from zero to the last page.
  have offered : (0, top) ∈ offer target entry (next :: rest) := by
    have ceil : ceilAlign target.bits entry.miAddr = 0 :=
      ceilAlign_wraps (by omega) (by omega) (by omega)
    have floor : floorAlign next.miAddr = top := top_eq ▸ floorAlign_top (by omega) (by omega) word
    exact mem_offer.mpr ⟨preserved, next, rest, rfl, by omega, by rw [ceil, floor, Nat.sub_zero]⟩
  have covers : ∀ page, pageSize ∣ page → page < top → Interior target list page := by
    intro page aligned less
    refine (exact page aligned).mp (passed_iff.mpr ⟨front, entry, next :: rest, split, (0, top),
      offered, zero_le _, ?_⟩)
    rw [Nat.sub_zero, Nat.add_mod_right, Nat.mod_eq_of_lt (by omega)]
    omega
  have notTop : ¬ Interior target list top := by
    intro interior
    obtain ⟨_, other, _, otherSplit, _, lower, upper⟩ := interior_iff.mp interior
    obtain ⟨_, rfl, _⟩ := split_unique placed split otherSplit le_rfl order
      (show other.miAddr ≤ entry.miAddr by omega) (by omega)
    omega
  have total : pageSize * (interiorPages target list).card = top := by
    refine interiorPages_card topAligned (by omega) fun page aligned inside =>
      ⟨fun interior => ?_, covers page aligned⟩
    have different : page ≠ top := fun same => notTop (same ▸ interior)
    omega
  rw [total] at returned
  cases front with
  | nil =>
    have zero : entry.miAddr = 0 :=
      Option.some.inj (show some entry.miAddr = some 0 by rw [← placed.based, split]; rfl)
    omega
  | cons first tail =>
    obtain ⟨second, more, tail_eq⟩ : ∃ second more, tail ++ entry :: next :: rest =
      second :: more := exists_cons_of_ne_nil (by simp)
    have mem : (0, top) ∈ offers target (second :: more) :=
      mem_offers.mpr ⟨tail, entry, next :: rest, tail_eq.symm, offered⟩
    rw [cons_append, tail_eq] at split
    subst split
    rw [no_offers_top wide top_eq placed chain covers returned] at mem
    exact not_mem_nil mem

end Wrapped

/-- Under the condition only the first entry is offered. -/
lemma UnpreserveSafe.offers_eq (safe : UnpreserveSafe target (first :: back))
    (placed : Placed target (first :: back)) :
      offers target (first :: back) = offer target first back := by
  have none : offers target back = [] := by
    refine eq_nil_iff_forall_not_mem.mpr fun offered mem => ?_
    obtain ⟨front, entry, behind, split, isOffer⟩ := mem_offers.mp mem
    obtain ⟨preserved, next, rest, rfl, filled, _⟩ := mem_offer.mp isOffer
    have positive := (pairwise_cons.mp placed.ascending).1 entry (by rw [split]; simp)
    rcases unpreserveSafe_iff.mp safe (first :: front) entry (next :: rest) (by rw [split]; rfl)
      preserved with zero | ⟨_, empty⟩
    · omega
    · omega
  rw [offers, none, append_nil]

/-- Under the condition the whole pages of the preserved entries are passed on. -/
lemma UnpreserveSafe.exact (safe : UnpreserveSafe target list) (placed : Placed target list)
    (aligned : pageSize ∣ page) :
    Passed ((offers target list).map (offerEvent target)) page ↔ Interior target list page := by
  rw [passed_iff, interior_iff]
  constructor
  · rintro ⟨front, entry, back, split, offered, mem, reached⟩
    have preserved := (mem_offer.mp mem).1
    have exact := (unpreserveSafe_iff.mp safe front entry back split preserved).reaches_iff placed
      split preserved aligned
    exact ⟨front, entry, back, split, preserved, exact.mp ⟨offered, mem, reached⟩⟩
  · rintro ⟨front, entry, back, split, preserved, inside⟩
    have exact := (unpreserveSafe_iff.mp safe front entry back split preserved).reaches_iff placed
      split preserved aligned
    exact ⟨front, entry, back, split, exact.mpr inside⟩

/-- Under the condition their size is returned. -/
lemma UnpreserveSafe.returned (safe : UnpreserveSafe target list) (placed : Placed target list) :
    ((offers target list).map Prod.snd).sum % 2 ^ target.bits =
      pageSize * (interiorPages target list).card := by
  cases list with
  | nil => exact absurd placed.based (by simp [Based])
  | cons first back =>
    have zero : first.miAddr = 0 := Option.some.inj placed.based
    have exact : ∀ page, pageSize ∣ page → _ := fun _ => safe.exact placed
    rw [safe.offers_eq placed] at exact ⊢
    by_cases none : offer target first back = []
    · rw [none] at exact ⊢
      refine (interiorPages_card (dvd_zero _) (zero_le _) fun page aligned _ => ?_).symm
      rw [← exact page aligned]
      simp [Passed]
    · obtain ⟨offered, mem⟩ := exists_mem_of_ne_nil _ none
      obtain ⟨preserved, next, rest, rfl, filled, _⟩ := mem_offer.mp mem
      have word : next.miAddr < 2 ^ target.bits := placed.bounded next (by simp)
      have floor := floorAlign_le next.miAddr
      have single : offer target first (next :: rest) = [(0, floorAlign next.miAddr)] := by
        unfold offer
        rw [show endOf (next :: rest) = next.miAddr from rfl, if_pos ⟨preserved, filled⟩, zero,
          ceilAlign_zero, Nat.sub_zero]
      rw [single] at exact ⊢
      rw [map_singleton, sum_singleton, mod_eq_of_lt (by omega)]
      have floorAligned : pageSize ∣ floorAlign next.miAddr := dvd_mul_left _ _
      refine (interiorPages_card floorAligned (by omega) fun page aligned _ => ?_).symm
      rw [← exact page aligned]
      simp [Passed, offerEvent, mod_eq_of_lt (show floorAlign next.miAddr < 2 ^ target.bits by omega)]

/-- The final entries have the freed types. -/
lemma typeAt_freed (placed : Placed target list) (point : Nat) :
    typeAt ((list.map freedEntry).destutter NotBothRam) point = freedType (typeAt list point) := by
  have repeats : ∀ first second : MemInfo, ¬ NotBothRam first second → first.miType = second.miType := by
    intro first second both
    obtain ⟨firstRam, secondRam⟩ := not_not.mp both
    exact firstRam.trans secondRam.symm
  have ascending : Ascending miAddr (list.map freedEntry) :=
    List.Pairwise.map _ (fun _ _ less => less) placed.ascending
  rw [typeAt, valueAt_destutter repeats ascending]
  cases list with
  | nil => exact absurd placed.based (by simp [Based])
  | cons first list =>
    have zero : first.miAddr = 0 := Option.some.inj placed.based
    exact valueAt_map (zero ▸ zero_le point) freedEntry freedType (fun _ => rfl) (fun _ => rfl) _

/-- The whole run of `mem_unpreserve`. -/
lemma memUnpreserve_spec (target : MemTarget) (chain : self.entries.IsChain Differ) :
    ∃ final, self.memUnpreserve target =
      some (final, ((offers target self.entries).map Prod.snd).sum % 2 ^ target.bits,
      (offers target self.entries).map (offerEvent target)) ∧
      final.entries = (self.entries.map freedEntry).destutter NotBothRam := by
  have enough : self.entries.length < self.c + 1 := by
    rw [entries_length]
    omega
  obtain ⟨final, runs, left⟩ := unpreserveLoop_spec (self.c + 1) (nil_append self.entries).symm enough
    isChain_nil chain (fun last mem => absurd mem (by simp)) (Nat.two_pow_pos target.bits) []
  rw [zero_add] at runs
  exact ⟨final, runs, left⟩

/-- On a boot vector `mem_unpreserve` keeps its contract exactly under the condition. -/
theorem memUnpreserve_exact_iff (placed : Placed target self.entries)
    (chain : self.entries.IsChain Differ)
    (wide : 32 ≤ target.bits) : UnpreserveContract target self ↔ UnpreserveSafe target self.entries := by
  obtain ⟨final, runs, left⟩ := memUnpreserve_spec target chain
  constructor
  · rintro ⟨_, _, _, same, exact, returned, _⟩
    rw [runs] at same
    obtain ⟨rfl, rfl, rfl⟩ : final = _ ∧ _ = _ ∧ _ = _ := by simpa using same
    refine unpreserveSafe_iff.mpr fun front entry back split preserved => ?_
    cases back with
    | nil => exact exact_last placed chain exact (by omega) split preserved
    | cons next rest =>
      by_cases filled : ceilAlign target.bits entry.miAddr < floorAlign next.miAddr
      · refine .inl (exact_middle placed chain exact split preserved
          (fun _ _ _ _ otherSplit otherPreserved => ?_) filled)
        exact exact_fits placed chain exact wide returned otherSplit otherPreserved
      · exact .inr ⟨exact_fits placed chain exact wide returned split preserved, Nat.le_of_not_lt filled⟩
  · intro safe
    exact ⟨final, _, _, runs, fun _ => safe.exact placed, safe.returned placed,
      fun point => left ▸ typeAt_freed placed point⟩

/-- A vector with the given entries. -/
def ofEntries (list : List MemInfo) : MemInfoVec where
  v slot := list.getD slot ⟨.ndef, 0⟩
  c := list.length

theorem memUnpreserve_exact_based :
    UnpreserveContract ⟨32, 2041⟩ (ofEntries [⟨.preserve, 0⟩, ⟨.device, 0x2800⟩]) := by
  have held : (ofEntries [⟨.preserve, 0⟩, ⟨.device, 0x2800⟩]).entries =
    [⟨.preserve, 0⟩, ⟨.device, 0x2800⟩] := rfl
  have placed : Placed ⟨32, 2041⟩ [⟨.preserve, 0⟩, ⟨.device, 0x2800⟩] :=
    ⟨by simp [Ascending], rfl, by decide⟩
  refine (memUnpreserve_exact_iff (held ▸ placed) (by decide) (by decide)).mpr ?_
  exact ⟨fun _ => .inl rfl, fun other => absurd other (by decide), trivial⟩

/-- Of two preserved pages at `0x1000` only the first one is handed over. -/
theorem memUnpreserve_breaks_contract :
    ¬ UnpreserveContract ⟨32, 2041⟩
      (ofEntries [⟨.device, 0⟩, ⟨.preserve, 0x1000⟩, ⟨.device, 0x3000⟩]) := by
  rintro ⟨final, result, events, runs, exact, _⟩
  have handed : ((ofEntries [⟨.device, 0⟩, ⟨.preserve, 0x1000⟩, ⟨.device, 0x3000⟩]).memUnpreserve
    ⟨32, 2041⟩).map (·.2.2) =
      some [.addmemory 0x1000 0x1000] := by decide
  rw [runs, Option.map_some, Option.some.injEq] at handed
  obtain ⟨base, bytes, mem, _, upper⟩ := (exact 0x2000 (by decide)).mpr (by decide)
  rw [show events = [.addmemory 0x1000 0x1000] from handed, mem_singleton] at mem
  obtain ⟨rfl, rfl⟩ := PageEvent.addmemory.inj mem
  omega

end KosKernel.Memory.MemInfoVec
