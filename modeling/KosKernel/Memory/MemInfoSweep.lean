import KosKernel.Memory.MemInfoSplit

namespace KosKernel.Memory.MemInfoVec
open Breakpoints List Option
variable {target : MemTarget} {delmemory : Nat → Nat → Bool} {type : MemType} {self : MemInfoVec}
  {done todo after : List MemInfo}

/-- The entry is `MEMTYPE_RAM`. -/
def IsRam (entry : MemInfo) : Prop := entry.miType = .ram

instance : DecidablePred IsRam := fun _ => inferInstanceAs (Decidable (_ = _))

variable {back : List MemInfo} {stop : Nat} {entry : MemInfo}

/-- The jumps delete the following `MEMTYPE_RAM` entries. -/
lemma deleteNexts_entries {front dropped : List MemInfo} (held : self.entries = front ++ dropped ++ back)
    {iter slots : Nat} (position : front.length = iter + 1) (rams : ∀ entry ∈ dropped, IsRam entry)
    (other : ∀ entry ∈ back.head?, ¬ IsRam entry) (enough : dropped.length ≤ slots)
    (inside : dropped.length ≤ stop) :
    ∃ deleted, deleteNexts iter slots self stop = some (deleted, stop - dropped.length) ∧
    deleted.entries = front ++ back := by
  induction dropped generalizing self stop slots with
  | nil =>
    rw [append_nil] at held
    refine ⟨self, ?_, held⟩
    cases slots with
    | zero => rfl
    | succ slots =>
      rw [deleteNexts, if_neg, length_nil, Nat.sub_zero]
      rintro ⟨more, ram⟩
      rw [← position] at more ram
      cases back with
      | nil =>
        have length := c_eq held
        rw [append_nil] at length
        exact more length.symm
      | cons entry back =>
        rw [(slot_eq held).1] at ram
        exact other entry rfl ram
  | cons entry dropped ih =>
    rw [append_assoc, cons_append] at held
    obtain ⟨slot, used⟩ := slot_eq held
    cases slots with
    | zero => simp at enough
    | succ slots =>
      rw [length_cons] at enough inside
      obtain ⟨deleted, deletes, left⟩ := delete_entries held
      rw [← append_assoc] at left
      obtain ⟨final, rest, finalHeld⟩ := ih left (fun other mem => rams other (by simp [mem]))
        (show dropped.length ≤ slots by omega) (show dropped.length ≤ stop - 1 by omega)
      refine ⟨final, ?_, finalHeld⟩
      have ram : (self.v front.length).miType = .ram := by
        rw [slot]
        exact rams entry (by simp)
      rw [deleteNexts, ← position, if_pos ⟨used.ne, ram⟩, if_neg (by omega), deletes, bind_some, rest]
      congr 2
      simp only [length_cons]
      omega

/-- The loop ends at the stop position. -/
lemma installLoop_end {iter : Nat} (ended : stop ≤ iter) (turns result : Nat) (events : List PageEvent) :
    installLoop target delmemory type turns self iter stop result events =
      some (self, stop, result, events) := by
  cases turns with
  | zero => rfl
  | succ turns => rw [installLoop, if_neg (by omega)]

/-- The loop passes over an entry of a greater type. -/
lemma installLoop_skip (held : self.entries = done ++ entry :: back) (inside : done.length < stop)
    (greater : type < entry.miType) (turns result : Nat) (events : List PageEvent) :
    installLoop target delmemory type (turns + 1) self done.length stop result events =
      installLoop target delmemory type turns self (done ++ [entry]).length stop result events := by
  rw [installLoop, if_pos inside, (slot_eq held).1, if_pos greater, length_append, length_singleton]

/-- An entry behind another type takes the new type. -/
lemma installLoop_push (held : self.entries = done ++ entry :: back) (inside : done.length < stop)
    (covered : entry.miType ≤ type) (other : ∀ last ∈ done.getLast?, ¬ IsRam last) (turns result : Nat)
    (events : List PageEvent) :
    ∃ (joined : MemInfoVec) (result' : Nat) (events' : List PageEvent),
      joined.entries = (done ++ [raise type entry]) ++ back ∧
      installLoop target delmemory type (turns + 1) self done.length stop result events =
        (deleteNexts done.length joined.c joined stop).bind fun (merged, stop) =>
          installLoop target delmemory type turns merged (done.length + 1) stop result' events' := by
  have slot := (slot_eq held).1
  have marked : (self.setType done.length type).entries = done ++ raise type entry :: back := by
    rw [setType, slot, set_entries held, raise_of_le covered]
  refine ⟨self.setType done.length type,
    (result + (self.exchange target delmemory done.length type).1) % 2 ^ target.bits,
    events ++ (self.exchange target delmemory done.length type).2, by rw [marked, append_assoc]; rfl, ?_⟩
  have kept : ¬ (done.length ≠ 0 ∧
      ((self.setType done.length type).v (done.length - 1)).miType = .ram) := by
    rintro ⟨positive, ram⟩
    rcases eq_nil_or_concat done with rfl | ⟨init, last, rfl⟩
    · exact positive rfl
    · rw [concat_eq_append] at marked ram other
      rw [append_assoc] at marked
      rw [show (init ++ [last]).length - 1 = init.length by simp, (slot_eq marked).1] at ram
      exact other last (by simp) ram
  rw [installLoop, if_pos inside, slot, if_neg (not_lt.mpr covered)]
  dsimp only
  rw [if_neg kept, bind_some]

/-- A list starts with some `MEMTYPE_RAM` entries. -/
lemma exists_rams (list : List MemInfo) :
    ∃ rams others, list = rams ++ others ∧ (∀ entry ∈ rams, IsRam entry) ∧
    (∀ entry ∈ others.head?, ¬ IsRam entry) ∧
      (list.IsChain Differ → rams.length ≤ 1) := by
  induction list with
  | nil => exact ⟨[], [], by simp⟩
  | cons first list ih =>
    by_cases ram : IsRam first
    · obtain ⟨rams, others, rfl, allRam, noRam, _⟩ := ih
      refine ⟨first :: rams, others, rfl, by simpa [ram] using allRam, noRam, ?_⟩
      intro chain
      cases rams with
      | nil => simp
      | cons second rams =>
        exact absurd (ram.trans (allRam second (by simp)).symm) (isChain_cons_cons.mp chain).1
    · exact ⟨[], first :: list, rfl, by simp, by simpa using ram, by simp⟩

/-- `MEMTYPE_RAM` entries behind another one do not count. -/
lemma destutter_rams {front rams : List MemInfo} (last : ∀ entry ∈ front.getLast?, IsRam entry)
    (filled : front ≠ []) (allRam : ∀ entry ∈ rams, IsRam entry) (back : List MemInfo) :
    (front ++ (rams ++ back)).destutter NotBothRam = (front ++ back).destutter NotBothRam := by
  obtain ⟨init, final, rfl⟩ := (eq_nil_or_concat front).resolve_left filled
  induction rams with
  | nil => rfl
  | cons ram rams ih =>
    rw [← ih fun entry mem => allRam entry (by simp [mem])]
    have both : ¬ NotBothRam final ram := fun quiet => quiet ⟨last final (by simp), allRam ram (by simp)⟩
    simpa using destutter_drop notBothRam_transparent init (rams ++ back) both

lemma raise_isRam (covered : entry.miType ≤ .ram) : IsRam (raise .ram entry) := by
  rw [raise_of_le covered]
  rfl

/-- The finished part ends with a `MEMTYPE_RAM` entry that stands for the given one. -/
structure Settled (done : List MemInfo) (entry : MemInfo) (front : List MemInfo) : Prop where
  filled : front ≠ []
  quiet : front.IsChain NotBothRam
  last : ∀ last ∈ front.getLast?, IsRam last
  same : ∀ rest, (done ++ entry :: rest).destutter NotBothRam = (front ++ rest).destutter NotBothRam

/-- An entry that became `MEMTYPE_RAM` ends the finished part, or it is deleted. -/
lemma previous_cases (marked : self.entries = done ++ entry :: back) (ram : IsRam entry)
    (quiet : done.IsChain NotBothRam) :
    (¬ (done.length ≠ 0 ∧ (self.v (done.length - 1)).miType = .ram) ∧
      Settled done entry (done ++ [entry])) ∨
      (done.length ≠ 0 ∧ (self.v (done.length - 1)).miType = .ram) ∧ Settled done entry done := by
  rcases eq_nil_or_concat done with rfl | ⟨init, last, rfl⟩
  · exact .inl ⟨fun both => both.1 rfl, by simp, isChain_singleton _, by simpa using ram, by simp⟩
  rw [concat_eq_append] at *
  rw [append_assoc] at marked
  rw [show (init ++ [last]).length - 1 = init.length by simp, (slot_eq marked).1]
  by_cases lastRam : IsRam last
  · refine .inr ⟨⟨by simp, lastRam⟩, by simp, quiet, by simpa using lastRam, fun rest => ?_⟩
    have both : ¬ NotBothRam last entry := fun quiet => quiet ⟨lastRam, ram⟩
    simpa using destutter_drop notBothRam_transparent init rest both
  · refine .inl ⟨fun both => lastRam both.2, by simp, ?_, by simpa using ram, by simp⟩
    refine isChain_append.mpr ⟨quiet, isChain_singleton _, fun final isFinal _ _ both => ?_⟩
    obtain rfl : last = final := by simpa using isFinal
    exact lastRam both.1

/-- A turn for `MEMTYPE_RAM` leaves such an entry at the end of the finished part. -/
lemma installLoop_ram_turn (held : self.entries = done ++ entry :: back) (inside : done.length < stop)
    (covered : entry.miType ≤ .ram) (quiet : done.IsChain NotBothRam) (turns result : Nat)
    (events : List PageEvent) :
    ∃ (front : List MemInfo) (joined : MemInfoVec) (stop' result' : Nat) (events' : List PageEvent),
      Settled done (raise .ram entry) front ∧ joined.entries = front ++ back ∧
      stop' + done.length + 1 = stop + front.length ∧
      installLoop target delmemory .ram (turns + 1) self done.length stop result events =
        (deleteNexts (front.length - 1) joined.c joined stop').bind fun (merged, stop) =>
          installLoop target delmemory .ram turns merged front.length stop result' events' := by
  have slot := (slot_eq held).1
  have marked : (self.setType done.length .ram).entries = done ++ raise .ram entry :: back := by
    rw [setType, slot, set_entries held, raise_of_le covered]
  rw [installLoop, if_pos inside, slot, if_neg (not_lt.mpr covered)]
  generalize self.exchange target delmemory done.length .ram = handed
  dsimp only
  rcases previous_cases marked (raise_isRam covered) quiet with ⟨kept, settled⟩ | ⟨follows, settled⟩
  · refine ⟨_, _, stop, (result + handed.1) % 2 ^ target.bits, events ++ handed.2, settled,
      by simpa using marked, ?_, ?_⟩
    · simp
      omega
    · rw [if_neg kept]
      simp
  · obtain ⟨deleted, deletes, left⟩ := delete_entries marked
    refine ⟨_, deleted, stop - 1, (result + handed.1) % 2 ^ target.bits, events ++ handed.2,
      settled, left, by omega, ?_⟩
    rw [if_pos follows, deletes, map_some, bind_some]
    simp only [Nat.sub_one_add_one follows.1]

lemma installLoop_ram_nil (held : self.entries = done ++ after)
    (quiet : (done ++ after).IsChain NotBothRam) (turns result : Nat) (events : List PageEvent) :
    ∃ (swept : MemInfoVec) (stop result' : Nat) (events' : List PageEvent),
      installLoop target delmemory .ram turns self done.length (done.length + 0) result events =
        some (swept, stop, result', events') ∧
      swept.entries = (done ++ [] ++ after).destutter NotBothRam ∧ stop + after.length = swept.c := by
  refine ⟨self, _, _, _, installLoop_end (by simp) _ _ _, ?_, ?_⟩
  · rw [held, append_nil, destutter_of_isChain _ _ quiet]
  · rw [c_eq held, length_append, Nat.add_zero]

/-- The loop for `MEMTYPE_RAM` merges all such neighbours and moves the stop position along. -/
lemma installLoop_ram (turns : Nat) (held : self.entries = done ++ todo ++ after)
    (enough : todo.length ≤ turns)
    (quiet : done.IsChain NotBothRam) (todoChain : todo.IsChain Differ)
    (afterChain : after.IsChain Differ)
    (ended : todo = [] → (done ++ after).IsChain NotBothRam) (result : Nat) (events : List PageEvent) :
    ∃ (swept : MemInfoVec) (stop result' : Nat) (events' : List PageEvent),
      installLoop target delmemory .ram turns self done.length
        (done.length + todo.length) result events =
        some (swept, stop, result', events') ∧
      swept.entries = (done ++ todo.map (raise .ram) ++ after).destutter NotBothRam ∧
      stop + after.length = swept.c := by
  -- the rest of the range or the entries behind it lose their first entries of this type
  induction turns generalizing self done todo result events with
  | zero =>
    obtain rfl : todo = [] := by simpa using enough
    exact installLoop_ram_nil (by simpa using held) (ended rfl) 0 result events
  | succ turns ih =>
    cases todo with
    | nil => exact installLoop_ram_nil (by simpa using held) (ended rfl) _ result events
    | cons entry todo =>
      rw [length_cons] at enough
      rw [append_assoc, cons_append] at held
      have inside : done.length < done.length + (entry :: todo).length := by simp
      by_cases greater : .ram < entry.miType
      · have other : ¬ IsRam entry := greater.ne'
        have moved : self.entries = (done ++ [entry]) ++ todo ++ after := by simpa using held
        have front : (done ++ [entry]).IsChain NotBothRam := isChain_append.mpr
          ⟨quiet, isChain_singleton _, fun _ _ next isNext both => by
            obtain rfl : entry = next := by simpa using isNext
            exact other both.2⟩
        obtain ⟨swept, stop, result', events', runs, sweptHeld, position⟩ :=
          ih moved (by omega) front todoChain.tail (fun _ => isChain_append.mpr
            ⟨front, afterChain.imp fun _ _ => NotBothRam.of_differ, fun last isLast _ _ both => by
              obtain rfl : entry = last := by simpa using isLast
              exact other both.1⟩) result events
        refine ⟨swept, stop, result', events', ?_, ?_, position⟩
        · rw [installLoop_skip held inside greater, ← runs]
          congr 1
          simp
          omega
        · rw [sweptHeld, map_cons, raise_of_lt greater]
          simp
      · obtain ⟨front, joined, stop', result', events', ⟨filled, frontQuiet, last, same⟩,
          joinedHeld, position, turn⟩ :=
          installLoop_ram_turn held inside (not_lt.mp greater) quiet turns result events
        have frontLength := length_pos_iff.mpr filled
        obtain ⟨rams, others, rfl, allRam, noRam, _⟩ := exists_rams todo
        have raised : ∀ entry ∈ rams.map (raise .ram), IsRam entry := by
          intro raisedRam mem
          obtain ⟨ram, isMember, rfl⟩ := mem_map.mp mem
          exact raise_isRam (allRam ram isMember).le
        simp only [length_cons, length_append] at position enough
        rw [turn, map_cons, append_assoc, cons_append, same, map_append, append_assoc,
          destutter_rams last filled raised]
        cases others with
        | nil =>
          obtain ⟨afterRams, afterOthers, rfl, allAfter, noAfter, few⟩ := exists_rams after
          have few := few afterChain
          have both (entry : MemInfo) (mem : entry ∈ rams ++ afterRams) : IsRam entry :=
            (mem_append.mp mem).elim (allRam entry) (allAfter entry)
          have joinedLength := c_eq joinedHeld
          simp only [length_append, length_nil] at joinedLength position
          obtain ⟨merged, deletes, left⟩ := deleteNexts_entries (by simpa using joinedHeld)
            (show front.length = front.length - 1 + 1 by omega) both noAfter
            (show _ ≤ joined.c by simp; omega) (show _ ≤ stop' by simp; omega)
          have chain : (front ++ afterOthers).IsChain NotBothRam := isChain_append.mpr
            ⟨frontQuiet, afterChain.right_of_append.imp fun _ _ => NotBothRam.of_differ,
              fun _ _ next isNext isRam => noAfter next isNext isRam.2⟩
          rw [deletes]
          refine ⟨merged, _, _, _, installLoop_end (by simp; omega) _ _ _, ?_, ?_⟩
          · rw [left, map_nil, nil_append, destutter_rams last filled allAfter,
              destutter_of_isChain _ _ chain]
          · rw [c_eq left]
            simp
            omega
        | cons next others =>
          obtain ⟨merged, deletes, left⟩ := deleteNexts_entries (by simpa using joinedHeld)
            (show front.length = front.length - 1 + 1 by omega) allRam
            (by simpa using noRam : ∀ entry ∈ (next :: others ++ after).head?, ¬ IsRam entry)
            (show _ ≤ joined.c by rw [c_eq joinedHeld]; simp; omega) (show _ ≤ stop' by omega)
          rw [← append_assoc] at left
          obtain ⟨swept, stop, result'', events'', runs, sweptHeld, final⟩ :=
            ih left (by omega) frontQuiet todoChain.tail.right_of_append (by simp) result' events'
          refine ⟨swept, stop, result'', events'', ?_, by rw [sweptHeld, append_assoc], final⟩
          rw [show stop' - rams.length = front.length + (next :: others).length by omega] at deletes
          rw [deletes]
          exact runs

/-- Covered neighbours are merged only if the upper one is `MEMTYPE_RAM`, which is covered itself. -/
def Apart (type : MemType) (first second : MemInfo) : Prop :=
  if first.miType ≤ type then second.miType ≤ type ↔ IsRam second else IsRam first → type < second.miType

instance (type : MemType) : DecidableRel (Apart type) := fun first second => by
  unfold Apart
  infer_instance

/-- Behind a covered entry stand covered `MEMTYPE_RAM` entries and then a greater type. -/
lemma Apart.split (covered : entry.miType ≤ type) (todoChain : (entry :: todo).IsChain Differ)
    (apart : (entry :: todo).IsChain (Apart type)) :
    ∃ rams others, todo = rams ++ others ∧ (∀ ram ∈ rams, IsRam ram ∧ ram.miType ≤ type) ∧
      ∀ first ∈ others.head?, ¬ IsRam first ∧ type < first.miType := by
  cases todo with
  | nil => exact ⟨[], [], by simp⟩
  | cons next todo =>
    obtain ⟨first, apart⟩ := isChain_cons_cons.mp apart
    rw [Apart, if_pos covered] at first
    by_cases ram : IsRam next
    · refine ⟨[next], todo, rfl, by simpa [ram] using first.mpr ram, ?_⟩
      intro second isSecond
      obtain ⟨todo, rfl⟩ := List.head?_eq_some_iff.mp isSecond
      have differ := (isChain_cons_cons.mp todoChain.tail).1
      have later := (isChain_cons_cons.mp apart).1
      rw [Apart, if_pos (first.mpr ram)] at later
      have noRam : ¬ IsRam second := fun isRam => differ (ram.trans isRam.symm)
      exact ⟨noRam, not_le.mp fun le => noRam (later.mp le)⟩
    · exact ⟨[], next :: todo, rfl, by simp, by simpa [ram] using fun le => ram (first.mp le)⟩

/-- Entries of the type of the first one do not count behind it. -/
lemma destutter_repeats {first : MemInfo} {repeats : List MemInfo}
    (same : ∀ entry ∈ repeats, first.miType = entry.miType) (rest : List MemInfo) :
    (first :: (repeats ++ rest)).destutter Differ = (first :: rest).destutter Differ := by
  induction repeats with
  | nil => rfl
  | cons entry repeats ih =>
    rw [← ih fun other mem => same other (by simp [mem])]
    exact destutter_drop differ_transparent [] (repeats ++ rest) (not_not.mpr (same entry (by simp)))

/-- The loop for another type gives the covered entries that type. -/
lemma installLoop_other (turns : Nat) (held : self.entries = done ++ todo ++ after)
    (enough : todo.length ≤ turns)
    (otherType : type ≠ .ram) (todoChain : todo.IsChain Differ) (apart : todo.IsChain (Apart type))
    (lower : ∀ last ∈ done.getLast?, IsRam last → ∀ first ∈ todo.head?, type < first.miType)
    (upper : ∀ last ∈ todo.getLast?, last.miType ≤ type → ∀ first ∈ after.head?, ¬ IsRam first)
    (result : Nat) (events : List PageEvent) :
    ∃ (swept : MemInfoVec) (result' : Nat) (events' : List PageEvent),
      installLoop target delmemory type turns self done.length
        (done.length + todo.length) result events =
        some (swept, done.length + ((todo.map (raise type)).destutter Differ).length, result', events') ∧
      swept.entries = done ++ (todo.map (raise type)).destutter Differ ++ after := by
  induction turns generalizing self done todo result events with
  | zero =>
    obtain rfl : todo = [] := by simpa using enough
    exact ⟨self, _, _, installLoop_end (by simp) _ _ _, by simpa using held⟩
  | succ turns ih =>
    cases todo with
    | nil => exact ⟨self, _, _, installLoop_end (by simp) _ _ _, by simpa using held⟩
    | cons entry todo =>
      rw [length_cons] at enough
      rw [append_assoc, cons_append] at held
      have inside : done.length < done.length + (entry :: todo).length := by simp
      by_cases greater : type < entry.miType
      · have moved : self.entries = (done ++ [entry]) ++ todo ++ after := by simpa using held
        have related : ∀ second ∈ (todo.map (raise type)).head?, Differ entry second := by
          intro second isSecond
          rw [List.head?_map, Option.mem_map] at isSecond
          obtain ⟨next, isNext, rfl⟩ := isSecond
          obtain ⟨others, rfl⟩ := List.head?_eq_some_iff.mp isNext
          by_cases covered : next.miType ≤ type
          · rw [raise_of_le covered]
            exact greater.ne'
          · rw [raise_of_lt (not_le.mp covered)]
            exact (isChain_cons_cons.mp todoChain).1
        obtain ⟨swept, result', events', runs, sweptHeld⟩ :=
          ih moved (by omega) todoChain.tail apart.tail
          (by
            intro last isLast ram next isNext
            obtain rfl : entry = last := by simpa using isLast
            obtain ⟨others, rfl⟩ := List.head?_eq_some_iff.mp isNext
            have first := (isChain_cons_cons.mp apart).1
            rw [Apart, if_neg (not_le.mpr greater)] at first
            exact first ram)
          (fun last isLast => upper last (mem_getLast?_cons isLast)) result events
        rw [map_cons, raise_of_lt greater, destutter_cons_of_related related]
        refine ⟨swept, result', events', ?_, by simpa using sweptHeld⟩
        rw [installLoop_skip held inside greater]
        rw [show done.length + (entry :: todo).length = (done ++ [entry]).length + todo.length by
          simp; omega, runs]
        simp
        omega
      · have covered := not_lt.mp greater
        have other : ∀ last ∈ done.getLast?, ¬ IsRam last :=
          fun last isLast ram => greater (lower last isLast ram entry rfl)
        obtain ⟨joined, result', events', joinedHeld, turn⟩ :=
          installLoop_push held inside covered other turns result events
        obtain ⟨rams, others, rfl, allRam, noRam⟩ := Apart.split covered todoChain apart
        have noNext : ∀ first ∈ (others ++ after).head?, ¬ IsRam first := by
          intro first isFirst
          cases others with
          | nil =>
            obtain ⟨last, isLast⟩ := isSome_iff_exists.mp (List.getLast?_isSome.mpr
              (cons_ne_nil entry (rams ++ [])))
            have mem := mem_of_mem_getLast? isLast
            rw [append_nil, mem_cons] at mem
            have lastCovered : last.miType ≤ type := by
              rcases mem with rfl | mem
              · exact covered
              · exact (allRam last mem).2
            exact upper last isLast lastCovered first isFirst
          | cons next others => exact (noRam first isFirst).1
        have joinedLength := c_eq joinedHeld
        simp only [length_append, length_singleton] at joinedLength enough
        obtain ⟨merged, deletes, left⟩ := deleteNexts_entries
          (by simpa using joinedHeld : joined.entries = (done ++ [raise type entry]) ++ rams ++
            (others ++ after))
          (show _ = done.length + 1 by simp) (fun ram mem => (allRam ram mem).1) noNext
          (show _ ≤ joined.c by omega)
          (show _ ≤ done.length + (entry :: (rams ++ others)).length by simp; omega)
        have tail : (entry :: (rams ++ others)) = (entry :: rams) ++ others := rfl
        obtain ⟨swept, result'', events'', runs, sweptHeld⟩ := ih
          (show merged.entries = (done ++ [raise type entry]) ++ others ++ after by rw [left]; simp)
            (by omega)
          (tail ▸ todoChain).right_of_append (tail ▸ apart).right_of_append
          (by
            intro last isLast ram
            obtain rfl : raise type entry = last := by simpa using isLast
            rw [raise_of_le covered] at ram
            exact absurd ram otherType)
          (fun last isLast => upper last (tail ▸ mem_getLast?_append_of_mem_getLast? isLast))
            result' events'
        have related : ∀ second ∈ (others.map (raise type)).head?, Differ (raise type entry) second := by
          intro second isSecond
          rw [List.head?_map, Option.mem_map] at isSecond
          obtain ⟨next, isNext, rfl⟩ := isSecond
          rw [raise_of_le covered, raise_of_lt (noRam next isNext).2]
          exact (noRam next isNext).2.ne
        have repeated : ∀ ram ∈ rams.map (raise type), (raise type entry).miType = ram.miType := by
          intro raised mem
          obtain ⟨ram, isMember, rfl⟩ := mem_map.mp mem
          rw [raise_of_le covered, raise_of_le (allRam ram isMember).2]
        rw [map_cons, map_append, destutter_repeats repeated, destutter_cons_of_related related]
        refine ⟨swept, result'', events'', ?_, by simpa using sweptHeld⟩
        rw [turn, deletes, bind_some]
        dsimp only
        rw [show done.length + (entry :: (rams ++ others)).length - rams.length =
          (done ++ [raise type entry]).length + others.length by simp; omega,
          show done.length + 1 = (done ++ [raise type entry]).length by simp, runs]
        simp
        omega

section Merges
variable {low middle high : List MemInfo}

lemma join_last (low : List MemInfo) (init : List MemInfo) (last : MemInfo) :
    ∃ init' last', join NotBothRam low (init ++ [last]) = init' ++ [last'] ∧
    last'.miType = last.miType := by
  rcases eq_nil_or_concat init with rfl | ⟨start, second, rfl⟩
  · rcases eq_nil_or_concat low with rfl | ⟨start, final, rfl⟩
    · exact ⟨[], last, rfl, rfl⟩
    · rw [concat_eq_append, nil_append, join_concat_cons]
      split
      · exact ⟨start ++ [final], last, by simp, rfl⟩
      · rename_i both
        rw [NotBothRam, not_not] at both
        exact ⟨start, final, rfl, both.1.trans both.2.symm⟩
  · rw [join_append_right _ _ _ (by simp)]
    exact ⟨_, last, rfl, rfl⟩

/-- The merge at the stop position joins the range with the entries behind it. -/
lemma merge_stop {swept : MemInfoVec} (filled : middle ≠ []) (lowChain : low.IsChain Differ)
    (middleChain : middle.IsChain Differ)
    (held : swept.entries = join NotBothRam low (join NotBothRam middle high))
    (position : stop + high.length = swept.c) :
    ∃ merged, (if stop ≠ swept.c then swept.mergeWithPrev stop else some swept) = some merged ∧
      merged.entries = join NotBothRam low (join Differ middle high) := by
  obtain ⟨init, last, rfl⟩ := (eq_nil_or_concat middle).resolve_left filled
  rw [concat_eq_append] at *
  obtain ⟨init', last', whole, sameType⟩ := join_last low init last
  cases high with
  | nil =>
    rw [if_neg (not_not.mpr (by simpa using position))]
    exact ⟨swept, rfl, by simpa using held⟩
  | cons first rest =>
    rw [length_cons] at position
    rw [join_concat_cons] at held ⊢
    rw [if_pos (by omega)]
    by_cases both : NotBothRam last first
    · -- nothing was joined here, so the stop position is behind the last entry
      rw [if_pos both, append_cons, join_append_right _ _ _ (by simp), whole] at held
      have length := c_eq held
      obtain ⟨merged, merges, mergedHeld⟩ := mergeWithPrev_entries held (by simp)
      refine ⟨merged, ?_, ?_⟩
      · rw [show stop = (init' ++ [last']).length by simp at length ⊢; omega, merges]
      · have alike : Differ last' first ↔ Differ last first := by rw [Differ, Differ, sameType]
        rw [mergedHeld, join_concat_cons]
        by_cases differ : Differ last first
        · rw [if_pos (alike.mpr differ), if_pos differ, append_cons init,
            join_append_right _ _ _ (by simp), whole]
          simp
        · rw [if_neg (alike.not.mpr differ), if_neg differ, append_cons init,
            join_append_right _ _ _ (by simp), whole]
          simp
    · -- the first entry behind the range is gone, so the stop position is at the last entry
      rw [if_neg both] at held
      have rams := not_not.mp both
      rw [if_neg (by simp [Differ, rams])]
      have kept := held
      rw [append_cons, join_append_right _ _ _ (by simp), whole, append_assoc] at kept
      have length := c_eq kept
      obtain ⟨merged, merges, mergedHeld⟩ := mergeWithPrev_entries kept (by simp)
      have quiet : (init' ++ [last']).IsChain NotBothRam := by
        rw [← whole]
        exact isChain_join notBothRam_transparent (lowChain.imp fun _ _ => NotBothRam.of_differ)
          (middleChain.imp fun _ _ => NotBothRam.of_differ)
      have related : ∀ before ∈ init'.getLast?, ∀ next ∈ ([last'] ++ rest).head?,
        Differ before next := by
        intro before isBefore next isNext same
        obtain rfl : last' = next := by simpa using isNext
        have ram : last'.miType = .ram := sameType.trans rams.1
        exact (isChain_append.mp quiet).2.2 before isBefore last' rfl ⟨same.trans ram, ram⟩
      refine ⟨merged, ?_, ?_⟩
      · rw [show stop = init'.length by simp at length; omega, merges]
      · rw [mergedHeld, join_of_related _ related, ← kept, held]

/-- The merge at the start position joins the range with the entries before it. -/
lemma merge_start {stopMerged : MemInfoVec} (lowChain : low.IsChain Differ)
    (highChain : high.IsChain Differ) (held : stopMerged.entries = join NotBothRam low high)
    (inside : low = [] ∨ low.length < (join NotBothRam low high).length) :
    ∃ merged, stopMerged.mergeWithPrev low.length = some merged ∧
    merged.entries = join Differ low high := by
  rcases eq_nil_or_concat low with rfl | ⟨init, last, rfl⟩
  · exact ⟨stopMerged, by simp [mergeWithPrev], held⟩
  rw [concat_eq_append] at *
  cases high with
  | nil => simp at inside
  | cons first rest =>
    rw [join_concat_cons] at held inside ⊢
    by_cases both : NotBothRam last first
    · rw [if_pos both, append_cons] at held
      rw [← join_concat_cons Differ]
      exact mergeWithPrev_entries held (by simp)
    -- the first entry of the range is gone, and the next one has another type
    rw [if_neg both, append_cons] at held inside
    have rams := not_not.mp both
    have filled : rest ≠ [] := by
      rintro rfl
      simp at inside
    obtain ⟨merged, merges, mergedHeld⟩ := mergeWithPrev_entries held filled
    refine ⟨merged, merges, ?_⟩
    rw [if_neg (by simp [Differ, rams]), mergedHeld, join_of_related, append_assoc]
    · rfl
    · intro before isBefore next isNext same
      obtain rfl : last = before := by simpa using isBefore
      obtain ⟨others, rfl⟩ := List.head?_eq_some_iff.mp isNext
      exact (isChain_cons_cons.mp highChain).1 (rams.2.trans (rams.1.symm.trans same))

/-- After the loop for another type the two merges join the three parts. -/
lemma merge_both {swept : MemInfoVec} (filled : middle ≠ [])
    (held : swept.entries = low ++ middle ++ high) :
    ∃ stopMerged merged,
      (if low.length + middle.length ≠ swept.c then swept.mergeWithPrev (low.length + middle.length)
        else some swept) = some stopMerged ∧
      stopMerged.mergeWithPrev low.length = some merged ∧
      merged.entries = join Differ low (join Differ middle high) := by
  have length := c_eq held
  rw [length_append, length_append] at length
  cases high with
  | nil =>
    obtain ⟨merged, merges, mergedHeld⟩ := mergeWithPrev_entries (by simpa using held) filled
    exact ⟨swept, merged, if_neg (not_not.mpr (by simpa using length.symm)), merges,
      by simpa using mergedHeld⟩
  | cons first rest =>
    obtain ⟨stopMerged, stopMerges, stopHeld⟩ := mergeWithPrev_entries held (by simp)
    rw [join_append _ _ _ filled] at stopHeld
    have joined : join Differ middle (first :: rest) ≠ [] := by
      obtain ⟨init, last, rfl⟩ := (eq_nil_or_concat middle).resolve_left filled
      rw [concat_eq_append, join_concat_cons]
      split <;> simp
    obtain ⟨merged, merges, mergedHeld⟩ := mergeWithPrev_entries stopHeld joined
    rw [length_cons] at length
    exact ⟨stopMerged, merged, by rw [if_pos (by omega), ← stopMerges,
      length_append], merges, mergedHeld⟩

/-- A list that shrinks to one entry has one type. -/
lemma type_of_destutter_singleton {list : List MemInfo} {only : MemInfo}
    (single : list.destutter Differ = [only]) :
    ∀ entry ∈ list, entry.miType = only.miType := by
  cases list with
  | nil => simp
  | cons first list =>
    rw [destutter_cons'] at single
    induction list generalizing first with
    | nil =>
      obtain rfl : first = only := by simpa using single
      simp
    | cons second list ih =>
      rw [destutter'_cons] at single
      split at single
      · exact absurd (List.cons.inj single).2 (destutter'_ne_nil _ _)
      rename_i same
      have rest := ih first single
      have firstType := rest first (by simp)
      intro entry mem
      rcases mem_cons.mp mem with rfl | mem
      · exact firstType
      · rcases mem_cons.mp mem with rfl | mem
        · exact (not_not.mp same).symm.trans firstType
        · exact rest entry (by simp [mem])

/-- A range can vanish into the `MEMTYPE_RAM` entry before it only with all entries behind it. -/
lemma join_grows (filled : middle ≠ []) (highChain : high.IsChain Differ)
    (others : (∃ last ∈ low.getLast?, IsRam last) → (∀ entry ∈ middle, IsRam entry) →
      ¬ ∀ entry ∈ high, IsRam entry) :
    low = [] ∨
    low.length < (join NotBothRam low (join Differ (middle.destutter Differ) high)).length := by
  have whole := destutter_three differ_transparent middle
    (isChain_nil : ([] : List MemInfo).IsChain Differ) highChain
  rw [nil_join, nil_append] at whole
  rw [← whole]
  rcases eq_nil_or_concat low with rfl | ⟨init, last, rfl⟩
  · exact .inl rfl
  right
  rw [concat_eq_append] at others ⊢
  cases reduced : (middle ++ high).destutter Differ with
  | nil => simp [filled] at reduced
  | cons first rest =>
    rw [join_concat_cons]
    split
    · simp
    rename_i both
    have rams := not_not.mp both
    cases rest with
    | nil =>
      have types := type_of_destutter_singleton reduced
      exact absurd (fun entry mem => (types entry (by simp [mem])).trans rams.2)
        (others ⟨last, by simp, rams.1⟩ fun entry mem => (types entry (by simp [mem])).trans rams.2)
    | cons second rest => simp

end Merges

end KosKernel.Memory.MemInfoVec
