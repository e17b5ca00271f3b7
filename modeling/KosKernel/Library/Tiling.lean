import Mathlib.Tactic

namespace KosKernel.Library.Tiling
variable {P V : Type} (begins : P → Nat)

/-- The point where the piece before the list ends. -/
def stop (limit : Nat) : List P → Nat
  | [] => limit
  | piece :: _ => begins piece

/-- The pieces cover the range without gaps, none is empty, and each fits its size. -/
def Tiles (fits : P → Nat → Prop) (limit : Nat) : Nat → List P → Prop
  | base, [] => base = limit
  | base, piece :: rest =>
    begins piece = base ∧ base < stop begins limit rest ∧ fits piece (stop begins limit rest - base) ∧
      Tiles fits limit (stop begins limit rest) rest

instance decidableTiles (fits : P → Nat → Prop) [∀ piece size, Decidable (fits piece size)]
    (limit : Nat) :
    ∀ (base : Nat) (pieces : List P), Decidable (Tiles begins fits limit base pieces)
  | base, [] => inferInstanceAs (Decidable (base = limit))
  | _, _ :: rest =>
    have := decidableTiles fits limit (stop begins limit rest) rest
    inferInstanceAs (Decidable (_ ∧ _ ∧ _ ∧ _))

/-- The value at a point is given by the first piece that ends behind it. -/
def viewAt (info : P → Nat → V) (limit : Nat) : List P → Nat → Option V
  | [], _ => none
  | piece :: rest, point =>
    if point < stop begins limit rest then some (info piece (point - begins piece))
    else viewAt info limit rest point

variable {begins} {fits : P → Nat → Prop} {info : P → Nat → V} {limit base : Nat}

lemma stop_append (pre mid : List P) :
    stop begins limit (pre ++ mid) = stop begins (stop begins limit mid) pre := by
  cases pre with
  | nil => rfl
  | cons piece rest => rfl

variable {pieces pre rest : List P} {point : Nat} {piece : P}

lemma Tiles.stop_eq (tiles : Tiles begins fits limit base pieces) : stop begins limit pieces = base := by
  cases pieces with
  | nil => exact Eq.symm tiles
  | cons piece rest => exact tiles.1

lemma Tiles.base_le (tiles : Tiles begins fits limit base pieces) : base ≤ limit := by
  induction pieces generalizing base with
  | nil => exact le_of_eq tiles
  | cons piece rest ih => exact tiles.2.1.le.trans (ih tiles.2.2.2)

lemma tiles_append {mid : List P} : Tiles begins fits limit base (pre ++ mid) ↔
    Tiles begins fits (stop begins limit mid) base pre ∧
    Tiles begins fits limit (stop begins limit mid) mid := by
  induction pre generalizing base with
  | nil =>
    constructor
    · intro tiles
      have meets := tiles.stop_eq
      exact ⟨meets.symm, meets.symm ▸ tiles⟩
    · rintro ⟨meets, tiles⟩
      exact Eq.symm meets ▸ tiles
  | cons piece rest ih => simp only [List.cons_append, Tiles, stop_append, ih, and_assoc]

lemma viewAt_append (pre mid : List P) (point : Nat) : viewAt begins info limit (pre ++ mid) point =
    (viewAt begins info (stop begins limit mid) pre point).or (viewAt begins info limit mid point) := by
  induction pre with
  | nil => rfl
  | cons piece rest ih =>
    simp only [List.cons_append, viewAt, stop_append, ih]
    split <;> rfl

lemma Tiles.viewAt_none (tiles : Tiles begins fits limit base pieces) (behind : limit ≤ point) :
    viewAt begins info limit pieces point = none := by
  induction pieces generalizing base with
  | nil => rfl
  | cons piece rest ih =>
    have bound := tiles.2.2.2.base_le
    rw [viewAt, if_neg (by omega)]
    exact ih tiles.2.2.2

lemma Tiles.viewAt_isSome (tiles : Tiles begins fits limit base pieces) (above : base ≤ point)
    (below : point < limit) : (viewAt begins info limit pieces point).isSome := by
  induction pieces generalizing base with
  | nil =>
    have meets : base = limit := tiles
    omega
  | cons piece rest ih =>
    rw [viewAt]
    split
    · rfl
    next later => exact ih tiles.2.2.2 (by omega)

/-- A value that all points of a piece share is the value of some piece. -/
lemma viewAt_mem {value : P → V} {found : V}
    (shown : viewAt begins (fun piece _ => value piece) limit pieces point = some found) :
    ∃ piece ∈ pieces, value piece = found := by
  induction pieces with
  | nil => cases shown
  | cons piece rest ih =>
    rw [viewAt] at shown
    split at shown
    · exact ⟨piece, List.mem_cons_self, Option.some.inj shown⟩
    · obtain ⟨other, mem, same⟩ := ih shown
      exact ⟨other, List.mem_cons_of_mem _ mem, same⟩

/-- Inside the range the second view shows the changed values, elsewhere the same values. -/
def Changed (change : V → V) (low high : Nat) (before after : Nat → Option V) : Prop :=
  ∀ point, after point = if low ≤ point ∧ point < high then (before point).map change else before point

variable {change : V → V} {low high via : Nat} {before after : List P} {next joined : P}

lemma Changed.of_some {before after : Nat → Option V}
    (changed : Changed change low high before after) {place : Nat} {old : V}
    (found : before place = some old) :
      after place = some (if low ≤ place ∧ place < high then change old else old) := by
  rw [changed place, found]
  split <;> rfl

lemma Changed.trans {middle : Nat} {first second third : Nat → Option V}
    (early : Changed change low middle first second) (late : Changed change middle high second third)
    (ordered : low ≤ middle) (within : middle ≤ high) : Changed change low high first third := by
  intro point
  rw [late point, early point]
  by_cases inLate : middle ≤ point ∧ point < high
  · rw [if_pos inLate, if_neg (by omega), if_pos (by omega)]
  · by_cases inEarly : low ≤ point ∧ point < middle
    · rw [if_neg inLate, if_pos inEarly, if_pos (by omega)]
    · rw [if_neg inLate, if_neg inEarly, if_neg (by omega)]

/-- A change of the last pieces is a change of the whole list. -/
lemma changed_append (leading : Tiles begins fits via base pre)
    (first : Tiles begins fits limit via before)
    (second : Tiles begins fits limit via after) (above : via ≤ low)
    (changed : ∀ point, via ≤ point → viewAt begins info limit after point =
      if low ≤ point ∧ point < high then (viewAt begins info limit before point).map change
      else viewAt begins info limit before point) (start : base = 0) :
    Changed change low high (viewAt begins info limit (pre ++ before))
      (viewAt begins info limit (pre ++ after)) := by
  intro point
  rw [viewAt_append, viewAt_append, first.stop_eq, second.stop_eq]
  by_cases behind : via ≤ point
  · rw [leading.viewAt_none behind]
    exact changed point behind
  · have inside : (viewAt begins info via pre point).isSome :=
      leading.viewAt_isSome (by omega) (by omega)
    obtain ⟨value, found⟩ := Option.isSome_iff_exists.mp inside
    rw [found, Option.some_or, Option.some_or, if_neg (by omega)]

/-- A list of tiles whose end is replaced by other tiles of the same range tiles the range. -/
lemma Tiles.replace (tiles : Tiles begins fits limit base (pre ++ before))
    (old : Tiles begins fits limit via before)
    (new : Tiles begins fits limit via after) : Tiles begins fits limit base (pre ++ after) := by
  rw [tiles_append, old.stop_eq] at tiles
  rw [tiles_append, new.stop_eq]
  exact ⟨tiles.1, new⟩

/-- Two pieces in the place of one tile its range. -/
lemma Tiles.cut {low high : P} (tiles : Tiles begins fits limit base (piece :: rest))
    (above : base < point)
    (below : point < stop begins limit rest) (lowBegins : begins low = base)
    (highBegins : begins high = point)
    (lowFits : fits low (point - base)) (highFits : fits high (stop begins limit rest - point)) :
    Tiles begins fits limit base (low :: high :: rest) := by
  have ends : stop begins limit (high :: rest) = point := highBegins
  refine ⟨lowBegins, ends ▸ above, ends ▸ lowFits, ends ▸ ⟨ends, below, highFits, tiles.2.2.2⟩⟩

/-- One piece in the place of two tiles their range. -/
lemma Tiles.join (tiles : Tiles begins fits limit base (piece :: next :: rest))
    (joinedBegins : begins joined = base)
    (joinedFits : fits joined (begins next - base + (stop begins limit rest - begins next))) :
    Tiles begins fits limit base (joined :: rest) := by
  obtain ⟨_, above, _, _, below, _, following⟩ := tiles
  have ordered : base < begins next := above
  have size : begins next - base + (stop begins limit rest - begins next) =
    stop begins limit rest - base := by
    omega
  exact ⟨joinedBegins, ordered.trans below, size ▸ joinedFits, following⟩

lemma viewAt_cut {low high : P} (begun : begins piece = base) (above : base < point)
    (below : point < stop begins limit rest) (lowBegins : begins low = base)
    (highBegins : begins high = point)
    (lowInfo : ∀ offset, offset < point - base → info low offset = info piece offset)
    (highInfo : ∀ offset, info high offset = info piece (point - base + offset)) (place : Nat)
    (reached : base ≤ place) :
    viewAt begins info limit (low :: high :: rest) place = viewAt begins info limit
      (piece :: rest) place := by
  have ends : stop begins limit (high :: rest) = point := highBegins
  rw [viewAt, ends, viewAt, viewAt, lowBegins, highBegins, begun]
  by_cases early : place < point
  · rw [if_pos early, if_pos (by omega), lowInfo _ (by omega)]
  · rw [if_neg early, highInfo, show point - base + (place - point) = place - base by omega]

lemma viewAt_join (begun : begins piece = base) (above : base < begins next)
    (below : begins next < stop begins limit rest) (joinedBegins : begins joined = base)
    (lowInfo : ∀ offset, offset < begins next - base → info joined offset = info piece offset)
    (highInfo : ∀ offset, info joined (begins next - base + offset) = info next offset) (place : Nat)
    (reached : base ≤ place) :
    viewAt begins info limit (joined :: rest) place = viewAt begins info limit
      (piece :: next :: rest) place :=
  (viewAt_cut joinedBegins above below begun rfl (fun offset within => (lowInfo offset within).symm)
    (fun offset => (highInfo offset).symm) place reached).symm

end KosKernel.Library.Tiling
