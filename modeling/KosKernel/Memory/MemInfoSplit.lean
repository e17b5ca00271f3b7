import KosKernel.Memory.MemInfo
import KosKernel.Library.Breakpoints

namespace KosKernel.Memory
open Breakpoints Function List MemInfo

/-- Neighbours have different types. -/
def Differ (first second : MemInfo) : Prop := first.miType ≠ second.miType

/-- Neighbours are not both `MEMTYPE_RAM`. -/
def NotBothRam (first second : MemInfo) : Prop := ¬ (first.miType = .ram ∧ second.miType = .ram)

instance : DecidableRel Differ := fun _ _ => inferInstanceAs (Decidable (_ ≠ _))

instance : DecidableRel NotBothRam := fun _ _ => inferInstanceAs (Decidable (¬ _))

lemma differ_transparent : Transparent Differ := by
  intro first second third same
  rw [Differ, not_not] at same
  simp [Differ, same]

lemma notBothRam_transparent : Transparent NotBothRam := by
  intro first second third both
  rw [NotBothRam, not_not] at both
  simp [NotBothRam, both]

lemma NotBothRam.of_differ {first second : MemInfo} (differ : Differ first second) :
    NotBothRam first second :=
  fun both => differ (both.1.trans both.2.symm)

/-- The type that the entries give to an address. -/
def typeAt (entries : List MemInfo) (address : Nat) : MemType :=
  valueAt miAddr miType .ndef entries address

/-- The entries that start below an address. -/
def below (entries : List MemInfo) (address : Nat) : List MemInfo := entries.filter (·.miAddr < address)

/-- The entries from an address on, with one that starts there. -/
def startingAt (entries : List MemInfo) (address : Nat) : List MemInfo :=
  ⟨typeAt entries address, address⟩ :: entries.filter (address < ·.miAddr)

/-- A new range raises the types of the entries that it covers. -/
def raise (type : MemType) (entry : MemInfo) : MemInfo := { entry with miType := max entry.miType type }

variable {entry : MemInfo} {base stop : Nat} {target : MemTarget} {type : MemType}
  {list low high : List MemInfo}

lemma raise_of_le (covered : entry.miType ≤ type) : raise type entry = ⟨type, entry.miAddr⟩ := by
  rw [raise, max_eq_right covered]

lemma raise_of_lt (greater : type < entry.miType) : raise type entry = entry := by
  rw [raise, max_eq_left greater.le]

namespace MemInfoVec
variable {self : MemInfoVec} {front back : List MemInfo}

/-- The entries in use. -/
def entries (self : MemInfoVec) : List MemInfo := (List.range self.c).map self.v

@[simp] lemma entries_length (self : MemInfoVec) : self.entries.length = self.c := by simp [entries]

lemma entries_getElem? {self : MemInfoVec} {slot : Nat} (used : slot < self.c) :
    self.entries[slot]? = some (self.v slot) := by
  simp [entries, used]

lemma entries_eq {self : MemInfoVec} (length : self.c = list.length)
    (same : ∀ slot, slot < self.c → list[slot]? = some (self.v slot)) : self.entries = list := by
  apply ext_getElem?
  intro slot
  by_cases used : slot < self.c
  · rw [entries_getElem? used, same slot used]
  · rw [List.getElem?_eq_none (by simpa using used), List.getElem?_eq_none (by omega)]

/-- The entry behind a front part stands in the slot with the number of its length. -/
lemma slot_eq (held : self.entries = front ++ entry :: back) :
    self.v front.length = entry ∧ front.length < self.c := by
  have used : front.length < self.c := by
    rw [← entries_length, held]
    simp
  have found := entries_getElem? used
  rw [held, List.getElem?_append_right (le_refl _), Nat.sub_self] at found
  exact ⟨(Option.some.inj found).symm, used⟩

lemma c_eq (held : self.entries = list) : self.c = list.length := by rw [← held, entries_length]

lemma delete_entries (held : self.entries = front ++ entry :: back) :
    ∃ deleted, self.delete front.length = some deleted ∧ deleted.entries = front ++ back := by
  have used := (slot_eq held).2
  have length := c_eq held
  refine ⟨_, if_pos used, entries_eq (by simp [length]) ?_⟩
  intro slot inside
  dsimp only at inside ⊢
  by_cases lower : slot < front.length
  · have found := entries_getElem? (show slot < self.c by omega)
    rw [held, List.getElem?_append_left lower] at found
    rw [if_neg (by omega), List.getElem?_append_left lower, found]
  · have found := entries_getElem? (show slot + 1 < self.c by omega)
    rw [held, List.getElem?_append_right (by omega), show slot + 1 - front.length =
      (slot - front.length) + 1 by omega, List.getElem?_cons_succ] at found
    rw [if_pos (by omega), List.getElem?_append_right (by omega), found]

lemma set_entries (held : self.entries = front ++ entry :: back) (changed : MemInfo) :
    (self.set front.length changed).entries = front ++ changed :: back := by
  refine entries_eq (by simpa [set] using c_eq held) ?_
  intro slot inside
  have found := entries_getElem? (show slot < self.c from inside)
  rw [held] at found
  rcases Nat.lt_trichotomy slot front.length with lower | rfl | upper
  · rw [List.getElem?_append_left lower] at found ⊢
    rw [found]
    simp [set, update_of_ne lower.ne]
  · simp [set]
  obtain ⟨more, rfl⟩ := Nat.exists_eq_add_of_lt upper
  rw [List.getElem?_append_right (by omega), show front.length + more + 1 - front.length =
    more + 1 by omega, List.getElem?_cons_succ] at found ⊢
  rw [found]
  simp [set, update_of_ne upper.ne']

lemma insert_entries (held : self.entries = front ++ back) (entry : MemInfo) :
    ((self.dup front.length).set front.length entry).entries = front ++ entry :: back := by
  have length := c_eq held
  rw [length_append] at length
  refine entries_eq (by simp [set, dup, length]; omega) ?_
  intro slot inside
  have inside : slot < self.c + 1 := inside
  rcases Nat.lt_trichotomy slot front.length with lower | rfl | upper
  · have found := entries_getElem? (show slot < self.c by omega)
    rw [held, List.getElem?_append_left lower] at found
    rw [List.getElem?_append_left lower, found]
    simp [set, dup, update_of_ne lower.ne, show ¬ front.length < slot by omega]
  · simp [set]
  · obtain ⟨more, rfl⟩ := Nat.exists_eq_add_of_lt upper
    have found := entries_getElem? (show front.length + more < self.c by omega)
    rw [held, List.getElem?_append_right (by omega), Nat.add_sub_cancel_left] at found
    rw [List.getElem?_append_right (by omega), show front.length + more + 1 - front.length =
      more + 1 by omega, List.getElem?_cons_succ, found]
    simp [set, dup, update_of_ne upper.ne', upper, show front.length + more + 1 ≤ self.c by omega]

lemma append_entries (self : MemInfoVec) (entry : MemInfo) :
    ({ self with c := self.c + 1 }.set self.c entry).entries = self.entries ++ [entry] := by
  refine entries_eq (by simp [set]) ?_
  intro slot inside
  have inside : slot < self.c + 1 := inside
  by_cases lower : slot < self.c
  · rw [List.getElem?_append_left (by simpa using lower), entries_getElem? lower]
    simp [set, update_of_ne lower.ne]
  · obtain rfl : slot = self.c := by omega
    simp [set]

/-- The merge joins the two parts of the vector at a slot. -/
lemma mergeWithPrev_entries (held : self.entries = front ++ back) (filled : back ≠ []) :
    ∃ merged, self.mergeWithPrev front.length = some merged ∧
    merged.entries = join Differ front back := by
  obtain ⟨entry, back, rfl⟩ := exists_cons_of_ne_nil filled
  have here := (slot_eq held).1
  rcases eq_nil_or_concat front with rfl | ⟨init, last, rfl⟩
  · exact ⟨self, by simp [mergeWithPrev], held⟩
  rw [concat_eq_append] at held here ⊢
  have before :=
    (slot_eq (by rw [held, append_assoc]; rfl : self.entries = init ++ last :: entry :: back)).1
  have previous : (init ++ [last]).length - 1 = init.length := by simp
  rw [join_concat_cons, mergeWithPrev, previous, before, here]
  by_cases same : last.miType = entry.miType
  · rw [if_pos ⟨by simp, same⟩, if_neg (by simpa [Differ] using same)]
    obtain ⟨deleted, done, left⟩ := delete_entries held
    exact ⟨deleted, done, by rw [left, append_assoc]; rfl⟩
  · rw [if_neg (by simp [same]), if_pos (show Differ last entry from same)]
    exact ⟨self, rfl, by rw [held, append_assoc]; rfl⟩

end MemInfoVec

section Cut
variable {entries : List MemInfo} {address : Nat}

/-- The list with an entry that starts at the address. -/
def cutAt (entries : List MemInfo) (address : Nat) : List MemInfo :=
  below entries address ++ startingAt entries address

lemma mem_below : entry ∈ below entries address ↔ entry ∈ entries ∧ entry.miAddr < address := by
  simp [below]

/-- Either an entry starts at the address or the new entry repeats the one before it. -/
lemma cutAt_cases (ascending : Ascending miAddr entries) : cutAt entries address = entries ∨
    (entries = below entries address ++ entries.filter (address < ·.miAddr) ∧
      typeAt entries address = typeAt (below entries address) address) := by
  have upperAbove (entry : MemInfo) (mem : entry ∈ entries.filter (address < ·.miAddr)) :
      address < entry.miAddr := by simpa using (mem_filter.mp mem).2
  rcases ascending.cut address with ⟨entry, rfl, whole⟩ | whole
  · left
    have type : typeAt entries entry.miAddr = entry.miType := by
      rw [whole, typeAt, valueAt_append, valueAt_cons, if_pos (le_refl _), valueAt_above upperAbove]
    rw [cutAt, startingAt, type]
    exact whole.symm
  · right
    have type : typeAt entries address = typeAt (below entries address) address := by
      conv_lhs => rw [whole, typeAt, valueAt_append, valueAt_above upperAbove]
      rfl
    exact ⟨whole, type⟩

/-- The first entry starts at address zero. -/
def Based (entries : List MemInfo) : Prop := entries.head?.map miAddr = some 0

section
variable (ascending : Ascending miAddr entries)
include ascending

lemma startingAt_ascending : Ascending miAddr (startingAt entries address) := by
  refine pairwise_cons.mpr ⟨?_, ascending.filter _⟩
  intro entry mem
  simpa using (mem_filter.mp mem).2

lemma cutAt_ascending : Ascending miAddr (cutAt entries address) := by
  refine pairwise_append.mpr ⟨ascending.filter _, startingAt_ascending ascending, ?_⟩
  intro low lower high upper
  have lowBound := (mem_below.mp lower).2
  rcases mem_cons.mp upper with rfl | upper
  · exact lowBound
  · have highBound := (mem_filter.mp upper).2
    simp only [decide_eq_true_eq] at highBound
    omega

lemma typeAt_cutAt (point : Nat) : typeAt (cutAt entries address) point = typeAt entries point := by
  rcases cutAt_cases ascending with same | ⟨whole, type⟩
  · rw [same]
  rw [cutAt, startingAt, type]
  conv_rhs => rw [whole]
  apply valueAt_split
  · exact fun other mem => (mem_below.mp mem).2
  · rfl

lemma below_isChain (chain : entries.IsChain Differ) : (below entries address).IsChain Differ := by
  rcases ascending.cut address with ⟨entry, _, whole⟩ | whole <;> exact (whole ▸ chain).left_of_append

end

/-- Without an entry at the address there is one below it. -/
lemma Based.below_ne_nil (based : Based entries)
    (whole : entries = below entries address ++ entries.filter (address < ·.miAddr)) :
      below entries address ≠ [] := by
  intro none
  rw [none] at whole
  rw [Based, whole, Option.map_eq_some_iff] at based
  obtain ⟨first, isFirst, zero⟩ := based
  have positive := (mem_filter.mp (mem_of_mem_head? isFirst)).2
  simp [zero] at positive

lemma cutAt_based (ascending : Ascending miAddr entries) (based : Based entries) :
    Based (cutAt entries address) := by
  rcases cutAt_cases ascending with same | ⟨whole, _⟩
  · rwa [same]
  · obtain ⟨first, rest, some⟩ := exists_cons_of_ne_nil (based.below_ne_nil whole)
    rw [cutAt, some]
    rw [whole, some] at based
    exact based

lemma cutAt_bounded {limit : Nat} (bounded : ∀ entry ∈ entries, entry.miAddr < limit)
    (small : address < limit) :
    ∀ entry ∈ cutAt entries address, entry.miAddr < limit := by
  intro entry mem
  rcases mem_append.mp mem with low | high
  · exact bounded entry (mem_below.mp low).1
  · rcases mem_cons.mp high with rfl | high
    · exact small
    · exact bounded entry (mem_filter.mp high).1

/-- An entry behind the first one repeats an entry that was there before. -/
lemma startingAt_isChain (ascending : Ascending miAddr entries) (chain : entries.IsChain Differ)
    (based : Based entries) : (startingAt entries address).IsChain Differ := by
  rcases cutAt_cases ascending with same | ⟨whole, type⟩
  · have whole : (cutAt entries address).IsChain Differ := by rwa [same]
    exact whole.right_of_append
  obtain ⟨init, last, some⟩ := (eq_nil_or_concat _).resolve_left (based.below_ne_nil whole)
  rw [concat_eq_append] at some
  have mem : last ∈ below entries address := by simp [some]
  have lastType : typeAt entries address = last.miType := by
    rw [type, some]
    exact valueAt_last (mem_below.mp mem).2.le _
  have joined : (last :: entries.filter (address < ·.miAddr)).IsChain Differ := by
    rw [whole, some, append_assoc] at chain
    exact chain.right_of_append
  rw [startingAt, lastType]
  refine isChain_cons.mpr ⟨?_, (isChain_cons.mp joined).2⟩
  exact (isChain_cons.mp joined).1

/-- The entries that a range covers. -/
def inside (entries : List MemInfo) (base stop : Nat) : List MemInfo :=
  below (startingAt entries base) stop

/-- The entries behind a range. -/
def above (target : MemTarget) (entries : List MemInfo) (stop : Nat) : List MemInfo :=
  if stop < 2 ^ target.bits then startingAt entries stop else []

section
variable (order : base < stop)
include order

lemma inside_eq_cons (entries : List MemInfo) : inside entries base stop =
    ⟨typeAt entries base, base⟩ :: below (entries.filter (base < ·.miAddr)) stop := by
  rw [inside, below, startingAt, filter_cons_of_pos (by simpa using order)]
  rfl

lemma below_cutAt (entries : List MemInfo) :
    below (cutAt entries base) stop = below entries base ++ inside entries base stop := by
  rw [cutAt, below, filter_append]
  congr 1
  rw [filter_eq_self]
  intro entry mem
  have := (mem_below.mp mem).2
  simp only [decide_eq_true_eq]
  omega

lemma startingAt_cutAt (ascending : Ascending miAddr entries) :
    startingAt (cutAt entries base) stop = startingAt entries stop := by
  have low : (below entries base).filter (stop < ·.miAddr) = [] := by
    rw [filter_eq_nil_iff]
    intro entry mem
    have := (mem_below.mp mem).2
    simp only [decide_eq_true_eq]
    omega
  have high : (entries.filter (base < ·.miAddr)).filter (stop < ·.miAddr) =
    entries.filter (stop < ·.miAddr) := by
    rw [filter_filter]
    apply filter_congr
    intro entry _
    simp only [Bool.and_eq_decide, decide_eq_true_eq, decide_eq_decide]
    omega
  rw [startingAt, typeAt_cutAt ascending, cutAt, filter_append, low, startingAt,
    filter_cons_of_neg (by simpa using order.le), high]
  rfl

/-- The three parts together are the list that the splits make. -/
lemma parts_of_lt (reach : stop < 2 ^ target.bits) (ascending : Ascending miAddr entries) :
    below entries base ++ inside entries base stop ++ above target entries stop =
      cutAt (cutAt entries base) stop := by
  conv_rhs => rw [cutAt, below_cutAt order, startingAt_cutAt order ascending]
  rw [above, if_pos reach]

lemma parts_of_ge (reach : 2 ^ target.bits ≤ stop)
    (bounded : ∀ entry ∈ entries, entry.miAddr < 2 ^ target.bits) :
    inside entries base stop = startingAt entries base ∧ above target entries stop = [] := by
  refine ⟨?_, if_neg (by omega)⟩
  rw [inside, below, filter_eq_self]
  intro entry mem
  simp only [decide_eq_true_eq]
  rcases mem_cons.mp mem with rfl | mem
  · exact order
  · have := bounded entry (mem_filter.mp mem).1
    omega

end

lemma length_le_cutAt (ascending : Ascending miAddr entries) :
    entries.length ≤ (cutAt entries address).length := by
  rcases cutAt_cases ascending with same | ⟨whole, _⟩
  · rw [same]
  · conv_lhs => rw [whole]
    simp [cutAt, startingAt]

end Cut

namespace MemInfoVec
variable {self : MemInfoVec} {entries : List MemInfo} {address : Nat}

/-- The walk stops behind the entries below the address. -/
lemma splitWalk_eq (done : List MemInfo) (held : self.entries = done ++ low ++ high)
    (lower : ∀ entry ∈ low, entry.miAddr < address)
    (upper : ∀ entry ∈ high.head?, address ≤ entry.miAddr) {slots : Nat}
    (enough : slots + done.length = self.c) :
    self.splitWalk address slots done.length = (done ++ low).length := by
  induction low generalizing done slots with
  | nil =>
    rw [append_nil] at held ⊢
    cases slots with
    | zero => rfl
    | succ slots =>
      cases high with
      | nil =>
        have length := c_eq held
        rw [append_nil] at length
        omega
      | cons entry high =>
        have bound := upper entry rfl
        rw [splitWalk, (slot_eq held).1, if_neg (by omega)]
  | cons entry low ih =>
    rw [append_assoc] at held
    have used := (slot_eq held).2
    cases slots with
    | zero => omega
    | succ slots =>
      have moved : self.entries = (done ++ [entry]) ++ low ++ high := by simpa using held
      have walked := ih _ moved (fun other mem => lower other (by simp [mem]))
        (show slots + (done ++ [entry]).length = self.c by simp; omega)
      rw [splitWalk, (slot_eq held).1, if_pos (lower entry (by simp))]
      simpa using walked

/-- A new entry takes the type of the slot before it. -/
lemma typeAt_previous (held : self.entries = low ++ high)
    (lower : ∀ entry ∈ low, entry.miAddr < address) :
    typeAt low address = if low.length ≠ 0 then (self.v (low.length - 1)).miType else .ndef := by
  rcases eq_nil_or_concat low with rfl | ⟨init, last, rfl⟩
  · rfl
  · rw [concat_eq_append] at held lower ⊢
    have slot := (slot_eq (by rw [held, append_assoc]; rfl : self.entries = init ++ last :: high)).1
    rw [if_pos (by simp), show (init ++ [last]).length - 1 = init.length by simp, slot]
    exact valueAt_last (lower last (by simp)).le _

/-- The split cuts the entries at the address. -/
lemma splitAt_entries (held : self.entries = entries) (ascending : Ascending miAddr entries)
    (filled : entries ≠ []) (room : (cutAt entries address).length ≤ target.maxCount) :
    ∃ split, self.splitAt target address = some (split, (below entries address).length) ∧
    split.entries = cutAt entries address := by
  have walk {high : List MemInfo} (whole : entries = below entries address ++ high)
      (upper : ∀ entry ∈ high.head?, address ≤ entry.miAddr) :
      self.splitWalk address self.c 0 = (below entries address).length :=
    splitWalk_eq [] (by rw [held]; exact whole) (fun entry mem => (mem_below.mp mem).2) upper rfl
  rcases cutAt_cases ascending with same | ⟨whole, type⟩
  · have here : self.entries = below entries address ++ startingAt entries address :=
      held.trans same.symm
    obtain ⟨slot, used⟩ := slot_eq here
    refine ⟨self, ?_, held.trans same.symm⟩
    rw [splitAt, walk same.symm (by simp [startingAt]), if_neg used.ne, slot, if_neg (by simp)]
  · have here : self.entries = below entries address ++ entries.filter (address < ·.miAddr) :=
      held.trans whole
    have full : self.c ≠ target.maxCount := by
      have length := c_eq here
      rw [cutAt, startingAt, length_append, length_cons] at room
      rw [length_append] at length
      omega
    have above (entry : MemInfo) (first : entry ∈ (entries.filter (address < ·.miAddr)).head?) :
        address < entry.miAddr := by simpa using (mem_filter.mp (mem_of_mem_head? first)).2
    rw [splitAt, walk whole fun entry first => (above entry first).le, cutAt, startingAt, type]
    cases upper : entries.filter (address < ·.miAddr) with
    | nil =>
      rw [upper, append_nil] at here
      have length := c_eq here
      have nonempty : (below entries address).length ≠ 0 := by
        rw [← held, here] at filled
        simpa using filled
      have previous := typeAt_previous (by rw [here, append_nil]) fun entry mem => (mem_below.mp mem).2
      rw [if_pos nonempty] at previous
      rw [if_pos length.symm, if_neg full, previous, ← length, ← here]
      exact ⟨_, rfl, append_entries self _⟩
    | cons entry high =>
      rw [upper] at here
      obtain ⟨slot, used⟩ := slot_eq here
      have bound := above entry (by rw [upper]; rfl)
      have previous := typeAt_previous here fun entry mem => (mem_below.mp mem).2
      rw [if_neg used.ne, slot, if_pos bound.ne', if_neg full, previous]
      refine ⟨_, rfl, ?_⟩
      rw [insert_entries here]
      simp [dup, show ¬ (below entries address).length < (below entries address).length - 1 by omega]

/-- Both splits cut the entries at the two ends of the range. -/
lemma splitRange_entries {numBytes : Nat} (held : self.entries = entries)
    (ascending : Ascending miAddr entries) (filled : entries ≠ [])
    (bounded : ∀ entry ∈ entries, entry.miAddr < 2 ^ target.bits) (baseBound : base < 2 ^ target.bits)
    (bytesBound : numBytes < 2 ^ target.bits) (positive : numBytes ≠ 0)
    (room : (below entries base ++ inside entries base (base + numBytes) ++
      above target entries (base + numBytes)).length ≤ target.maxCount) :
    ∃ split, self.splitRange target base numBytes = some (split, (below entries base).length,
          (below entries base).length + (inside entries base (base + numBytes)).length) ∧
      split.entries = below entries base ++ inside entries base (base + numBytes) ++ above target
        entries (base + numBytes) := by
  have order : base < base + numBytes := by omega
  by_cases reach : base + numBytes < 2 ^ target.bits
  · have both := parts_of_lt order reach ascending
    have firstAscending : Ascending miAddr (cutAt entries base) := cutAt_ascending ascending
    rw [both] at room ⊢
    obtain ⟨first, firstSplit, firstHeld⟩ := splitAt_entries held ascending filled
      ((length_le_cutAt firstAscending).trans room)
    obtain ⟨second, secondSplit, secondHeld⟩ := splitAt_entries firstHeld firstAscending
      (by simp [cutAt, startingAt]) room
    refine ⟨second, ?_, secondHeld⟩
    rw [splitRange, firstSplit, Option.bind_some, Nat.mod_eq_of_lt reach]
    dsimp only
    rw [if_neg (by omega), secondSplit, below_cutAt order, length_append, Option.map_some]
  · have wraps : (base + numBytes) % 2 ^ target.bits ≤ base := by
      rw [Nat.mod_eq_sub_mod (by omega), Nat.mod_eq_of_lt (by omega)]
      omega
    obtain ⟨whole, none⟩ := parts_of_ge order (not_lt.mp reach) bounded
    rw [none, append_nil, whole] at room ⊢
    obtain ⟨first, firstSplit, firstHeld⟩ := splitAt_entries held ascending filled room
    refine ⟨first, ?_, firstHeld⟩
    rw [splitRange, firstSplit, Option.bind_some]
    dsimp only
    rw [if_pos wraps, c_eq firstHeld, cutAt, length_append]

end MemInfoVec

end KosKernel.Memory
