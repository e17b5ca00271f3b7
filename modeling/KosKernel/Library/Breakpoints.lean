import Mathlib.Data.List.Destutter
import Mathlib.Tactic

namespace Breakpoints
open List

section Stutter
variable {Entry : Type} (R : Entry → Entry → Prop) [DecidableRel R]

/-- The join leaves out a first entry that repeats the last of the first list. -/
def join (low high : List Entry) : List Entry :=
  match low.getLast?, high with
  | some last, first :: rest => if R last first then low ++ first :: rest else low ++ rest
  | _, _ => low ++ high

@[simp] lemma join_nil (low : List Entry) : join R low [] = low := by
  unfold join
  split <;> simp_all

@[simp] lemma nil_join (high : List Entry) : join R [] high = high := rfl

lemma join_concat_cons (low rest : List Entry) (last first : Entry) :
    join R (low ++ [last]) (first :: rest) =
    if R last first then low ++ last :: first :: rest else low ++ last :: rest := by
  simp [join]

variable {low high : List Entry} {first : Entry}

/-- The join looks only at the last entry of the first list. -/
lemma join_append (front : List Entry) (high : List Entry) (filled : low ≠ []) :
    join R (front ++ low) high = front ++ join R low high := by
  obtain ⟨init, last, rfl⟩ := (eq_nil_or_concat low).resolve_left filled
  cases high with
  | nil => simp
  | cons first rest =>
    rw [concat_eq_append, ← append_assoc, join_concat_cons, join_concat_cons]
    split <;> simp

/-- The join looks only at the first entry of the second list. -/
lemma join_append_right (low : List Entry) {middle : List Entry} (high : List Entry)
    (filled : middle ≠ []) :
    join R low (middle ++ high) = join R low middle ++ high := by
  obtain ⟨first, middle, rfl⟩ := exists_cons_of_ne_nil filled
  rcases eq_nil_or_concat low with rfl | ⟨init, last, rfl⟩
  · simp
  · rw [concat_eq_append, cons_append, join_concat_cons, join_concat_cons]
    split <;> simp

/-- A join that drops nothing is an append. -/
lemma join_of_related (related : ∀ last ∈ low.getLast?, ∀ first ∈ high.head?, R last first) :
    join R low high = low ++ high := by
  cases high with
  | nil => simp
  | cons first rest =>
    rcases eq_nil_or_concat low with rfl | ⟨init, last, rfl⟩
    · simp
    · rw [concat_eq_append] at related ⊢
      rw [join_concat_cons, if_pos (related last (by simp) first (by simp)), append_cons]

variable {R}

/-- A dropped entry stands to the next entry as the entry that it repeats. -/
def Transparent (R : Entry → Entry → Prop) : Prop :=
  ∀ first second third, ¬ R first second → (R second third ↔ R first third)

section
variable (transparent : Transparent R)
include transparent

/-- The joins of chains are chains. -/
lemma isChain_join (lowChain : low.IsChain R) (highChain : high.IsChain R) :
    (join R low high).IsChain R := by
  cases high with
  | nil => simpa using lowChain
  | cons first rest =>
    rcases eq_nil_or_concat low with rfl | ⟨init, last, rfl⟩
    · simpa using highChain
    rw [concat_eq_append] at lowChain ⊢
    rw [join_concat_cons]
    split
    · rename_i related
      rw [append_cons]
      exact isChain_append.mpr ⟨lowChain, highChain, by simpa using related⟩
    rename_i repeats
    rw [append_cons]
    refine isChain_append.mpr ⟨lowChain, highChain.tail, ?_⟩
    intro other isLast next isNext
    rw [List.getLast?_concat, Option.mem_some] at isLast
    subst isLast
    obtain ⟨others, rfl⟩ := List.head?_eq_some_iff.mp isNext
    exact (transparent last first next repeats).mp (isChain_cons_cons.mp highChain).1

lemma destutter'_drop (start : Entry) (front back : List Entry) {second : Entry}
    (repeats : ¬ R first second) :
    (front ++ first :: second :: back).destutter' R start =
      (front ++ first :: back).destutter' R start := by
  induction front generalizing start with
  | nil =>
    by_cases kept : R start first
    · simp [nil_append, destutter'_cons, if_pos kept, if_neg repeats]
    · have gone : ¬ R start second := by rwa [← transparent start first second kept]
      simp [nil_append, destutter'_cons, if_neg kept, if_neg gone]
  | cons head front ih => simp only [cons_append, destutter'_cons, ih]

/-- An entry that repeats its predecessor does not count. -/
lemma destutter_drop (front back : List Entry) {second : Entry} (repeats : ¬ R first second) :
    (front ++ first :: second :: back).destutter R = (front ++ first :: back).destutter R := by
  cases front with
  | nil => simp only [nil_append, destutter_cons', destutter'_cons, if_neg repeats]
  | cons head front => exact destutter'_drop transparent head front back repeats

/-- Repetitions can be dropped from a part of the list first. -/
lemma destutter_part (front part back : List Entry) :
    (front ++ part.destutter R ++ back).destutter R = (front ++ part ++ back).destutter R := by
  cases part with
  | nil => simp
  | cons start part =>
    rw [destutter_cons']
    induction part generalizing front start with
    | nil => simp
    | cons next part ih =>
      rw [destutter'_cons]
      split
      · have moved := ih (front ++ [start]) next
        simpa using moved
      · rename_i repeats
        rw [ih front start]
        have dropped := destutter_drop transparent front (part ++ back) repeats
        simpa using dropped.symm

lemma destutter_join (front low high : List Entry) :
    (front ++ join R low high).destutter R = (front ++ low ++ high).destutter R := by
  cases high with
  | nil => simp
  | cons first rest =>
    rcases eq_nil_or_concat low with rfl | ⟨init, last, rfl⟩
    · simp
    rw [concat_eq_append, join_concat_cons]
    split
    · simp
    · rename_i repeats
      have dropped := destutter_drop transparent (front ++ init) rest repeats
      simpa using dropped.symm

/-- Three parts that are chains or made into chains are joined at their two borders. -/
lemma destutter_three (middle : List Entry) (lowChain : low.IsChain R) (highChain : high.IsChain R) :
    (low ++ middle ++ high).destutter R = join R low (join R (middle.destutter R) high) := by
  have chain := isChain_join transparent lowChain
    (isChain_join transparent (middle.isChain_destutter R) highChain)
  have outer := destutter_join transparent [] low (join R (middle.destutter R) high)
  have inner := destutter_join transparent low (middle.destutter R) high
  rw [← destutter_of_isChain R _ chain, ← destutter_part transparent low middle high, ← inner]
  simpa using outer.symm

end

/-- The first entry is never dropped. -/
lemma head?_destutter (entries : List Entry) : (entries.destutter R).head? = entries.head? := by
  cases entries with
  | nil => rfl
  | cons first rest =>
    rw [destutter_cons']
    induction rest generalizing first with
    | nil => rfl
    | cons second rest ih =>
      rw [destutter'_cons]
      split
      · rfl
      · exact ih first

/-- The first entry stays in front of a rest that starts with another one. -/
lemma destutter_cons_of_related {rest : List Entry} (related : ∀ second ∈ rest.head?, R first second) :
    (first :: rest).destutter R = first :: rest.destutter R := by
  cases rest with
  | nil => rfl
  | cons second rest => rw [destutter_cons_cons, if_pos (related second rfl), destutter_cons']

end Stutter

section Value
variable {Entry Value : Type} (start : Entry → Nat) (value : Entry → Value) (default : Value)

/-- The last entry that starts at or below a point decides its value. -/
def valueAt (entries : List Entry) (point : Nat) : Value :=
  entries.foldl (fun value' entry => if start entry ≤ point then value entry else value') default

/-- The entries start one above the other. -/
def Ascending (entries : List Entry) : Prop :=
  entries.Pairwise fun first second => start first < start second

@[simp] lemma valueAt_nil (point : Nat) : valueAt start value default [] point = default := rfl

@[simp] lemma valueAt_cons (entry : Entry) (entries : List Entry) (point : Nat) :
    valueAt start value default (entry :: entries) point =
      valueAt start value (if start entry ≤ point then value entry else default) entries point := rfl

lemma valueAt_append (low high : List Entry) (point : Nat) :
    valueAt start value default (low ++ high) point =
    valueAt start value (valueAt start value default low point) high point :=
  foldl_append

variable {start value} {entries : List Entry} {point : Nat}

/-- Entries above the point do not count. -/
lemma valueAt_above (above : ∀ entry ∈ entries, point < start entry) (default : Value) :
    valueAt start value default entries point = default := by
  induction entries with
  | nil => rfl
  | cons entry entries ih =>
    rw [valueAt_cons, if_neg (by have := above entry (by simp); omega)]
    exact ih fun other mem => above other (by simp [mem])

/-- Below all points of interest the last entry decides. -/
lemma valueAt_below {first second : Nat} (belowFirst : ∀ entry ∈ entries, start entry ≤ first)
    (belowSecond : ∀ entry ∈ entries, start entry ≤ second) (default : Value) :
    valueAt start value default entries first = valueAt start value default entries second := by
  induction entries generalizing default with
  | nil => rfl
  | cons entry entries ih =>
    rw [valueAt_cons, valueAt_cons, if_pos (belowFirst entry (by simp)),
      if_pos (belowSecond entry (by simp))]
    exact ih (fun other mem => belowFirst other (by simp [mem]))
      (fun other mem => belowSecond other (by simp [mem])) _

lemma valueAt_last {low : List Entry} {last : Entry} (below : start last ≤ point) (default : Value) :
    valueAt start value default (low ++ [last]) point = value last := by
  rw [valueAt_append, valueAt_cons, if_pos below, valueAt_nil]

/-- A new entry with the value of its place does not change the map. -/
lemma valueAt_split {low : List Entry} {entry : Entry} (below : ∀ other ∈ low, start other < start entry)
    {default : Value} (same : value entry = valueAt start value default low (start entry))
    (high : List Entry) (point : Nat) :
    valueAt start value default (low ++ entry :: high) point = valueAt start value default
      (low ++ high) point := by
  rw [valueAt_append, valueAt_append, valueAt_cons]
  split
  · rename_i reached
    rw [same, valueAt_below (fun other mem => (below other mem).le)
      (fun other mem => (below other mem).le.trans reached)]
  · rfl

/-- A change of all values from a point on changes the values behind that point. -/
lemma valueAt_map {first : Entry} (reached : start first ≤ point) (change : Entry → Entry)
    (effect : Value → Value) (sameStart : ∀ entry, start (change entry) = start entry)
    (changed : ∀ entry, value (change entry) = effect (value entry)) (default : Value) :
    valueAt start value default ((first :: entries).map change) point =
      effect (valueAt start value default (first :: entries) point) := by
  rw [map_cons, valueAt_cons, valueAt_cons, sameStart, if_pos reached, if_pos reached, changed]
  generalize value first = known
  induction entries generalizing known with
  | nil => rfl
  | cons entry entries ih =>
    rw [map_cons, valueAt_cons, valueAt_cons, sameStart, changed, ← ih]
    split <;> rfl

/-- An entry below the point hides what stands before it. -/
lemma valueAt_hidden {first : Entry} (reached : start first ≤ point) (entries : List Entry)
    (one other : Value) :
    valueAt start value one (first :: entries) point = valueAt start value other
      (first :: entries) point := by
  rw [valueAt_cons, valueAt_cons, if_pos reached, if_pos reached]

/-- Dropping repetitions does not change the map. -/
lemma valueAt_destutter {R : Entry → Entry → Prop} [DecidableRel R]
    (repeats : ∀ first second, ¬ R first second → value first = value second)
    (ascending : Ascending start entries) (default : Value) (point : Nat) :
    valueAt start value default (entries.destutter R) point =
      valueAt start value default entries point := by
  cases entries with
  | nil => rfl
  | cons first entries =>
    rw [destutter_cons']
    induction entries generalizing first default with
    | nil => rfl
    | cons second entries ih =>
      obtain ⟨firstBelow, tail⟩ := pairwise_cons.mp ascending
      have order := firstBelow second (by simp)
      rw [destutter'_cons]
      split
      · rw [valueAt_cons, ih _ _ tail, ← valueAt_cons]
      rename_i unrelated
      have rest : Ascending start (first :: entries) :=
        pairwise_cons.mpr ⟨fun other mem => firstBelow other (by simp [mem]), (pairwise_cons.mp tail).2⟩
      rw [ih _ _ rest, valueAt_cons, valueAt_cons, valueAt_cons, ← repeats first second unrelated]
      by_cases reached : start second ≤ point
      · rw [if_pos reached, if_pos (by omega)]
      · rw [if_neg reached]

/-- A list of entries above a point has nothing below it and is kept above it. -/
lemma filter_above (above : ∀ entry ∈ entries, point < start entry) :
    entries.filter (start · < point) = [] ∧ entries.filter (point < start ·) = entries := by
  constructor
  · rw [filter_eq_nil_iff]
    intro entry mem
    have := above entry mem
    simp only [decide_eq_true_eq]
    omega
  · rw [filter_eq_self]
    intro entry mem
    simpa using above entry mem

/-- An ascending list is cut at a point, where an entry may start. -/
lemma Ascending.cut (ascending : Ascending start entries) (point : Nat) : (∃ entry, start entry = point ∧
      entries = entries.filter (start · < point) ++ entry :: entries.filter (point < start ·)) ∨
    entries = entries.filter (start · < point) ++ entries.filter (point < start ·) := by
  induction entries with
  | nil => exact .inr rfl
  | cons first entries ih =>
    obtain ⟨firstBelow, tail⟩ := pairwise_cons.mp ascending
    rcases Nat.lt_trichotomy (start first) point with lower | here | upper
    · rw [filter_cons_of_pos (by simpa using lower), filter_cons_of_neg (by simpa using lower.le)]
      rcases ih tail with ⟨entry, exactly, whole⟩ | whole
      · exact .inl ⟨entry, exactly, congrArg (first :: ·) whole⟩
      · exact .inr (congrArg (first :: ·) whole)
    · obtain ⟨low, high⟩ := filter_above fun entry mem => here ▸ firstBelow entry mem
      rw [filter_cons_of_neg (by simp [here]), filter_cons_of_neg (by simp [here]), low, high]
      exact .inl ⟨first, here, rfl⟩
    · obtain ⟨low, high⟩ := filter_above fun entry mem => upper.trans (firstBelow entry mem)
      rw [filter_cons_of_neg (by simpa using upper.le), filter_cons_of_pos (by simpa using upper),
        low, high]
      exact .inr rfl

end Value

end Breakpoints
