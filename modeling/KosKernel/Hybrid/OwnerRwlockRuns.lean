import KosKernel.Hybrid.OwnerRwlockWord
import KosKernel.Library.StepRun

namespace KosKernel.Hybrid.OwnerRwlock
open Function List Option StepRun OwnerView
variable {Thread : Type} [DecidableEq Thread]

/-- The caller holds what the function needs, and locks are given up in reverse order. -/
def Entitled (holds : List Hold) : OwnerCall → Prop
  | .tryread => True
  | .trywrite => True
  | .trywriteR => .write ∉ holds
  | .tryupgrade => holds.head? = some .read
  | .upgrade => holds.head? = some .read
  | .downgrade => holds = [.write]
  | .endread => holds.head? = some .read
  | .endwrite => holds.head? = some .write

/-- The next access of the thread is a read of the owner. -/
def readsOwner (debug : Bool) : OwnerPc → Bool
  | .tryreadOwner _ => true
  | .trywriteOwner _ _ => true
  | .tryupgradeOwner _ _ => true
  | .trywriteRLoad => debug
  | _ => false

/-- A thread does not find itself as the owner before another writer has stored its identity. -/
def Fresh (debug : Bool) (state : OwnerRwlock Thread) (thread : Thread) : Prop :=
  readsOwner debug (state.pc thread) = true → state.aorwOwner = some thread →
    ∀ other, other ≠ thread → state.pc other ≠ .storeOwner

/-- A thread starts only calls that it is entitled to, and goes on only in a call. -/
def Proper (state : OwnerRwlock Thread) (action : Thread × OwnerAction) : Prop :=
  match action.2 with
  | .call function => state.pc action.1 = .idle ∧ Entitled (state.holds action.1) function
  | .go _ => state.pc action.1 ≠ .idle

/-- The lock word can count one more lock, and no thread meets its own stale identity. -/
def Careful (debug : Bool) (state : OwnerRwlock Thread) (action : Thread × OwnerAction) : Prop :=
  match action.2 with
  | .call _ => True
  | .go _ => state.aorwLock &&& nmask < nmask ∧ state.Fresh debug action.1

/-- The thread is in `endwrite`. -/
def Ending : OwnerPc → Prop
  | .endwriteLoad => True
  | .endwriteClear _ => True
  | .endwriteCas _ => True
  | _ => False

/-- A thread that does not write is the owner only before a store of another writer. -/
def Stale (state : OwnerRwlock Thread) (thread : Thread) : Prop :=
  .write ∉ state.holds thread → state.aorwOwner = some thread → ∃ other, other ≠ thread ∧
    state.pc other = .storeOwner

/-- What a thread knows between its accesses. -/
def Local (holds : List Hold) (stale : Prop) : OwnerPc → Prop
  | .idle => True
  | .tryreadLoad => True
  | .tryreadOwner temp => temp &&& nmask < nmask ∧ stale
  | .tryreadCas temp => flagged temp = true → .write ∈ holds
  | .trywriteLoad _ => True
  | .trywriteOwner _ temp => (∃ count < nmask, temp = wflag + count) ∧ stale
  | .trywriteCas _ temp newval =>
    (.write ∈ holds ∧ newval = temp + 1 ∧ wflag ≤ temp ∧ newval < 2 ^ 32) ∨ (temp = 0 ∧ newval = wflag)
  | .trywriteRLoad => .write ∉ holds
  | .trywriteRCas => .write ∉ holds
  | .storeOwner => holds = [.write]
  | .tryupgradeLoad _ => holds.head? = some .read
  | .tryupgradeOwner _ _ => holds.head? = some .read ∧ stale
  | .tryupgradeSame _ _ => holds.head? = some .read ∧ .write ∈ holds
  | .tryupgradeCas _ => holds.head? = some .read
  | .downgradeLoad => holds = [.write]
  | .downgradeCas _ => holds = [.write]
  | .downgradeWrite => holds = [.write]
  | .endreadLoad _ => holds.head? = some .read
  | .endreadCas _ _ => holds.head? = some .read
  | .endreadDec _ => holds.head? = some .read
  | .endwriteLoad => holds.head? = some .write
  | .endwriteClear _ => holds = [.write]
  | .endwriteCas _ => holds.head? = some .write

variable {holds : List Hold} {pc : OwnerPc}

lemma Local.imp {stale stale' : Prop} (known : Local holds stale pc) (follows : stale → stale') :
    Local holds stale' pc := by
  cases pc <;> first | exact known | exact ⟨known.1, follows known.2⟩

/-- The thread has stored its identity, is about to do so or has taken it back. -/
def OwnerKnown (thread : Thread) (owner : Option Thread) (holds : List Hold) (pc : OwnerPc) : Prop :=
  .write ∈ holds → pc = .storeOwner ∨ owner = some thread ∨ (owner = none ∧ Ending pc ∧ holds = [.write])

variable [Fintype Thread]

/-- The invariant of all interleavings. -/
structure Inv (state : OwnerRwlock Thread) : Prop where
  word : Encodes state.holds state.aorwLock
  owner : ∀ thread, OwnerKnown thread state.aorwOwner (state.holds thread) (state.pc thread)
  known : ∀ thread, Local (state.holds thread) (state.Stale thread) (state.pc thread)

variable {debug : Bool} {state : OwnerRwlock Thread} {self : Thread}

/-- The invariant of the others survives a change of the owner by a writer. -/
lemma Inv.put (inv : Inv state) {view : OwnerView Thread}
    (word : Encodes (update state.holds self view.holds) view.aorwLock)
    (owner : view.aorwOwner = state.aorwOwner ∧ state.pc self ≠ .storeOwner ∨
      .write ∈ state.holds self ∧ ∀ other, other ≠ self → view.aorwOwner ≠ some other)
    (mine : OwnerKnown self view.aorwOwner view.holds view.pc)
    (known : Local view.holds ((state.put self view).Stale self) view.pc) :
      Inv (state.put self view) := by
  refine ⟨word, fun thread => ?_, fun thread => ?_⟩
  · by_cases same : thread = self
    · subst same
      simpa only [OwnerRwlock.put, update_self] using mine
    · simp only [OwnerRwlock.put, update_of_ne same]
      intro writes
      obtain ⟨unchanged, -⟩ | ⟨mine, -⟩ := owner
      · rw [unchanged]
        exact inv.owner thread writes
      · rw [inv.word.exclusive mine same] at writes
        exact absurd writes not_mem_nil
  · by_cases same : thread = self
    · subst same
      have here : Local view.holds ((state.put thread view).Stale thread) view.pc := known
      simpa only [OwnerRwlock.put, update_self] using here
    · have old := inv.known thread
      have holds : (state.put self view).holds thread = state.holds thread := update_of_ne same _ _
      have pc : (state.put self view).pc thread = state.pc thread := update_of_ne same _ _
      rw [holds, pc]
      refine old.imp fun stale notWrites found => ?_
      rw [holds] at notWrites
      obtain ⟨unchanged, notStoring⟩ | ⟨-, notOther⟩ := owner
      · obtain ⟨other, differs, stores⟩ := stale notWrites (unchanged ▸ found)
        refine ⟨other, differs, ?_⟩
        have apart : other ≠ self := fun equal => notStoring (equal ▸ stores)
        exact (update_of_ne apart _ _).trans stores
      · exact absurd found (notOther thread same)

/-- A step that only moves the thread. -/
lemma Inv.move (inv : Inv state) (pc : OwnerPc) (notStoring : state.pc self ≠ .storeOwner)
    (ending : Ending (state.pc self) → Ending pc)
    (known : Local (state.holds self) (state.Stale self) pc) :
    Inv (state.put self { state.view self with pc := pc }) := by
  have word : Encodes (update state.holds self (state.holds self)) state.aorwLock := by
    rw [update_eq_self]
    exact inv.word
  refine inv.put word (.inl ⟨rfl, notStoring⟩) (fun writes => ?_)
    (known.imp fun stale notWrites found => ?_)
  · obtain stores | owns | ⟨none, ends, only⟩ := inv.owner self writes
    · exact absurd stores notStoring
    · exact .inr (.inl owns)
    · exact .inr (.inr ⟨none, ending ends, only⟩)
  · have same : (state.put self { state.view self with pc := pc }).holds self = state.holds self :=
      update_self _ _ _
    rw [same] at notWrites
    obtain ⟨other, differs, stores⟩ := stale notWrites found
    exact ⟨other, differs, (update_of_ne differs _ _).trans stores⟩

/-- The position is neither at the store of an identity nor in `endwrite`. -/
def outside : OwnerPc → Bool
  | .storeOwner => false
  | .endwriteLoad => false
  | .endwriteClear _ => false
  | .endwriteCas _ => false
  | _ => true

lemma not_ending_of_outside (out : outside pc = true) : pc ≠ .storeOwner ∧ ¬Ending pc := by
  cases pc <;> simp_all [outside, Ending]

section
variable (inv : Inv state) (out : outside (state.pc self) = true)
include inv out

/-- A step that only moves a thread which is outside of the windows. -/
lemma Inv.goto (pc : OwnerPc) (known : Local (state.holds self) (state.Stale self) pc) :
    ∃ view, some { state.view self with pc := pc } = some view ∧ Inv (state.put self view) :=
  ⟨_, rfl, inv.move pc (not_ending_of_outside out).1
    (fun ends => absurd ends (not_ending_of_outside out).2) known⟩

omit [DecidableEq Thread] in
/-- A writer outside of the windows of its calls is the owner. -/
lemma Inv.owns (writes : .write ∈ state.holds self) : state.aorwOwner = some self := by
  obtain stores | owns | ⟨-, ends, -⟩ := inv.owner self writes
  · exact absurd stores (not_ending_of_outside out).1
  · exact owns
  · exact absurd ends (not_ending_of_outside out).2

/-- A step outside of the windows that changes the word and what the thread holds. -/
lemma Inv.change {word : Nat} (encodes : Encodes (update state.holds self holds) word)
    (owner : .write ∈ holds → pc = .storeOwner ∨ .write ∈ state.holds self)
    (known : ∀ stale, Local holds stale pc) :
    Inv (state.put self ⟨word, state.aorwOwner, holds, pc⟩) := by
  refine inv.put encodes (.inl ⟨rfl, (not_ending_of_outside out).1⟩) (fun writes => ?_) (known _)
  exact (owner writes).imp_right fun wrote => .inl (inv.owns out wrote)

end

omit [DecidableEq Thread] in
/-- A thread that saw the write flag of another is the owner only by a stale identity. -/
lemma Inv.stale (inv : Inv state) (set : flagged state.aorwLock = true) : state.Stale self := by
  intro notWrites found
  obtain ⟨writer, writes⟩ := inv.word.flagged_iff.mp set
  have differs : writer ≠ self := fun same => notWrites (same ▸ writes)
  obtain stores | owns | ⟨none, -, -⟩ := inv.owner writer writes
  · exact ⟨writer, differs, stores⟩
  · exact absurd (some.inj (owns.symm.trans found)) differs
  · exact absurd (none.symm.trans found) (some_ne_none self).symm

omit [DecidableEq Thread] [Fintype Thread] in
/-- A thread that finds itself as the owner writes. -/
lemma Stale.writes (stale : state.Stale self) (fresh : state.Fresh debug self)
    (reads : readsOwner debug (state.pc self) = true)
    (found : state.aorwOwner = some self) : .write ∈ state.holds self := by
  by_contra notWrites
  obtain ⟨other, differs, stores⟩ := stale notWrites found
  exact fresh reads found other differs stores

/-- The next access of the thread keeps the invariant. -/
def Keeps (debug : Bool) (state : OwnerRwlock Thread) (self : Thread) (fails : Bool) : Prop :=
  ∃ view, (state.view self).advance debug self fails = some view ∧ Inv (state.put self view)

lemma check_pos {condition : Bool} (holds : condition = true) : check debug condition = some () := by
  rw [check, holds, Bool.not_true, Bool.and_false]
  rfl

lemma failedWrite_local (loops : Bool) (holds : List Hold) (stale : Prop) :
    Local holds stale (failedWrite loops) := by
  cases loops <;> trivial

lemma afterEndread_local (loops : Bool) (holds : List Hold) (stale : Prop) :
    Local holds stale (afterEndread loops) := by
  cases loops <;> trivial

lemma failedUpgrade_local (loops : Bool) (top : holds.head? = some .read) (stale : Prop) :
    Local holds stale (failedUpgrade debug loops) := by
  cases loops with
  | false => trivial
  | true => cases debug <;> exact top

/-- An access is made where the thread stands, with what the thread knows there. -/
lemma Inv.access (inv : Inv state) {fails : Bool} (position : state.pc self = pc)
    (keeps : Local (state.holds self) (state.Stale self) pc →
      ∃ view, advance debug self fails ⟨state.aorwLock, state.aorwOwner, state.holds self, pc⟩ =
        some view ∧ Inv (state.put self view)) :
    Keeps debug state self fails := by
  subst position
  exact keeps (inv.known self)

/-- An access of a thread that is outside of the windows. -/
lemma Inv.here (inv : Inv state) {fails : Bool} (position : state.pc self = pc) (out : outside pc = true)
    (keeps : outside (state.pc self) = true → Local (state.holds self) (state.Stale self) pc →
      ∃ view, advance debug self fails ⟨state.aorwLock, state.aorwOwner, state.holds self, pc⟩ =
        some view ∧ Inv (state.put self view)) :
    Keeps debug state self fails :=
  inv.access position (keeps (position ▸ out))

section Accesses
variable (inv : Inv state) {fails loops : Bool} {temp newval f : Nat}
include inv

lemma tryreadLoad_keeps (position : state.pc self = .tryreadLoad)
    (space : state.aorwLock &&& nmask < nmask) :
    Keeps debug state self fails := by
  refine inv.here position rfl fun out _ => ?_
  simp only [advance]
  split
  · rename_i set
    exact inv.goto out (.tryreadOwner _) ⟨space, inv.stale set⟩
  · rename_i free
    rw [check_pos (by simpa using Nat.ne_of_lt space)]
    exact inv.goto out (.tryreadCas _) fun set => absurd set free

lemma tryreadOwner_keeps (position : state.pc self = .tryreadOwner temp)
    (fresh : state.Fresh debug self) :
    Keeps debug state self fails := by
  refine inv.here position rfl fun out known => ?_
  simp only [advance]
  split
  · exact inv.goto out .idle trivial
  · rename_i found
    rw [check_pos (by simpa using Nat.ne_of_lt known.1)]
    exact inv.goto out (.tryreadCas temp) fun _ => known.2.writes fresh (by rw [position]; rfl)
      (not_not.mp found)

lemma tryreadCas_keeps (position : state.pc self = .tryreadCas temp)
    (space : state.aorwLock &&& nmask < nmask) :
    Keeps debug state self fails := by
  refine inv.here position rfl fun out known => ?_
  obtain ⟨fits, fitsShared⟩ := inv.word.space space
  simp only [advance]
  split
  · exact inv.goto out .tryreadLoad trivial
  rename_i success
  obtain rfl : state.aorwLock = temp := not_not.mp (not_or.mp success).2
  rw [Nat.mod_eq_of_lt fits]
  refine ⟨_, rfl, inv.change out ?_ (fun writes => .inr ?_) fun _ => trivial⟩
  · by_cases set : flagged state.aorwLock = true
    · exact inv.word.again (known set) .read fits
    · have free := Bool.eq_false_iff.mpr set
      exact inv.word.read free (fitsShared free)
  · simpa using writes

lemma trywriteLoad_keeps (position : state.pc self = .trywriteLoad loops)
    (space : state.aorwLock &&& nmask < nmask) : Keeps debug state self fails := by
  refine inv.here position rfl fun out _ => ?_
  simp only [advance]
  split
  · rename_i set
    obtain ⟨writer, writes⟩ := inv.word.flagged_iff.mp set
    obtain ⟨above, -, -, small, word⟩ := inv.word.of_write writes
    rw [word, and_nmask_add small] at space
    exact inv.goto out (.trywriteOwner loops _) ⟨⟨above.length, space, word⟩, inv.stale set⟩
  · split
    · exact inv.goto out (failedWrite loops) (failedWrite_local loops _ _)
    · rename_i zero
      exact inv.goto out (.trywriteCas loops _ wflag) (.inr ⟨not_not.mp zero, rfl⟩)

lemma trywriteOwner_keeps (position : state.pc self = .trywriteOwner loops temp)
    (fresh : state.Fresh debug self) : Keeps debug state self fails := by
  refine inv.here position rfl fun out known => ?_
  obtain ⟨⟨count, small, rfl⟩, stale⟩ := known
  have bound : nmask + 1 = wflag := rfl
  have fits : wflag + count + 1 < 2 ^ 32 := by
    rw [wflag_eq] at bound ⊢
    omega
  simp only [advance]
  split
  · exact inv.goto out (failedWrite loops) (failedWrite_local loops _ _)
  rename_i found
  have set : flagged (wflag + count + 1) = true := flagged_add (show count + 1 < wflag by omega)
  rw [Nat.mod_eq_of_lt fits, check_pos set]
  have writes := stale.writes fresh (by rw [position]; rfl) (not_not.mp found)
  exact inv.goto out (.trywriteCas loops _ _) (.inl ⟨writes, rfl, Nat.le_add_right _ _, fits⟩)

lemma trywriteCas_keeps (position : state.pc self = .trywriteCas loops temp newval) :
    Keeps debug state self fails := by
  refine inv.here position rfl fun out known => ?_
  simp only [advance]
  split
  · exact inv.goto out (.trywriteLoad loops) trivial
  rename_i success
  obtain rfl : state.aorwLock = temp := not_not.mp (not_or.mp success).2
  obtain ⟨writes, rfl, high, fits⟩ | ⟨zero, rfl⟩ := known
  · rw [if_neg (by omega)]
    exact ⟨_, rfl, inv.change out (inv.word.again writes .write fits) (fun _ => .inr writes)
      fun _ => trivial⟩
  have free := inv.word.zero_iff.mp zero self
  refine ⟨_, rfl, inv.change out (zero ▸ inv.word).take (fun _ => .inl rfl) fun _ => ?_⟩
  show .write :: state.holds self = [.write]
  rw [free]

lemma trywriteRLoad_keeps (position : state.pc self = .trywriteRLoad) (fresh : state.Fresh debug self) :
    Keeps debug state self fails := by
  refine inv.here position rfl fun out known => ?_
  have checked : check debug (!flagged state.aorwLock || state.aorwOwner != some self) = some () := by
    cases build : debug with
    | false => rfl
    | true =>
      refine check_pos ?_
      rw [Bool.or_eq_true, Bool.not_eq_true', bne_iff_ne]
      by_cases set : flagged state.aorwLock = true
      · refine .inr fun found => known ((inv.stale set).writes fresh ?_ found)
        rw [position]
        exact build
      · exact .inl (Bool.eq_false_iff.mpr set)
  simp only [advance]
  rw [checked]
  refine inv.goto out (if state.aorwLock ≠ 0 then .idle else .trywriteRCas) ?_
  split
  · trivial
  · exact known

lemma trywriteRCas_keeps (position : state.pc self = .trywriteRCas) : Keeps debug state self fails := by
  refine inv.here position rfl fun out known => ?_
  simp only [advance]
  split
  · exact inv.goto out .trywriteRLoad known
  rename_i success
  have zero : state.aorwLock = 0 := not_not.mp (not_or.mp success).2
  refine ⟨_, rfl, inv.change out (zero ▸ inv.word).take (fun _ => .inl rfl) fun _ => ?_⟩
  show .write :: state.holds self = [.write]
  rw [inv.word.zero_iff.mp zero self]

lemma storeOwner_keeps (position : state.pc self = .storeOwner) : Keeps debug state self fails := by
  refine inv.access position fun known => ?_
  have only : state.holds self = [.write] := known
  refine ⟨_, rfl,
    inv.put ?_ (.inr ⟨by simp [only], fun other differs same => differs (some.inj same).symm⟩)
    (fun _ => .inr (.inl rfl)) trivial⟩
  rw [update_eq_self]
  exact inv.word

lemma tryupgradeLoad_keeps (position : state.pc self = .tryupgradeLoad loops) :
    Keeps debug state self fails := by
  refine inv.here position rfl fun out known => ?_
  simp only [advance]
  split
  · exact inv.goto out (.tryupgradeCas loops) known
  · split
    · rename_i set
      exact inv.goto out (.tryupgradeOwner loops _) ⟨known, inv.stale set⟩
    · exact inv.goto out (failedUpgrade debug loops) (failedUpgrade_local loops known _)

lemma tryupgradeOwner_keeps (position : state.pc self = .tryupgradeOwner loops temp)
    (fresh : state.Fresh debug self) : Keeps debug state self fails := by
  refine inv.here position rfl fun out known => ?_
  obtain ⟨top, stale⟩ := known
  simp only [advance]
  split
  · rename_i found
    exact inv.goto out (.tryupgradeSame loops temp) ⟨top,
      stale.writes fresh (by rw [position]; rfl) found⟩
  · exact inv.goto out (failedUpgrade debug loops) (failedUpgrade_local loops top _)

lemma tryupgradeSame_keeps (position : state.pc self = .tryupgradeSame loops temp) :
    Keeps debug state self fails := by
  refine inv.here position rfl fun out known => ?_
  obtain ⟨top, writes⟩ := known
  simp only [advance]
  split
  · exact inv.goto out (.tryupgradeLoad loops) top
  · exact ⟨_, rfl, inv.change out (inv.word.retop (cons_head?_tail top).symm writes)
      (fun _ => .inr writes)
      fun _ => trivial⟩

lemma tryupgradeCas_keeps (position : state.pc self = .tryupgradeCas loops) :
    Keeps debug state self fails := by
  refine inv.here position rfl fun out known => ?_
  simp only [advance]
  split
  · exact inv.goto out (.tryupgradeLoad loops) known
  rename_i success
  have one : state.aorwLock = 1 := not_not.mp (not_or.mp success).2
  obtain ⟨none, encodes⟩ := (one ▸ inv.word).upgrade (cons_head?_tail known).symm
  rw [none]
  exact ⟨_, rfl, inv.change out encodes (fun _ => .inl rfl) fun _ => rfl⟩

lemma downgradeLoad_keeps (position : state.pc self = .downgradeLoad) :
    Keeps debug state self fails := by
  refine inv.here position rfl fun out known => ?_
  have word := (inv.word.free known).1
  simp only [advance]
  rw [check_pos (by rw [word]; rfl), check_pos (by rw [word]; rfl)]
  exact inv.goto out (.downgradeCas _) known

/-- The write lock becomes a read lock. -/
lemma downgraded (only : state.holds self = [.write]) (out : outside (state.pc self) = true) :
    Inv (state.put self ⟨1, state.aorwOwner, .read :: (state.holds self).tail, .idle⟩) := by
  rw [only]
  exact inv.change out (inv.word.free only).2.2 (by simp) fun _ => trivial

lemma downgradeCas_keeps (position : state.pc self = .downgradeCas f) :
    Keeps debug state self fails := by
  refine inv.here position rfl fun out known => ?_
  simp only [advance]
  split
  · exact inv.goto out .downgradeLoad known
  · exact ⟨_, rfl, downgraded inv known out⟩

lemma downgradeWrite_keeps (position : state.pc self = .downgradeWrite) :
    Keeps debug state self fails := by
  refine inv.access position fun known => ?_
  exact ⟨_, rfl, downgraded inv known (by rw [position]; rfl)⟩

lemma endreadLoad_keeps (position : state.pc self = .endreadLoad loops) :
    Keeps debug state self fails := by
  refine inv.here position rfl fun out known => ?_
  have first : (state.holds self).head? = some .read := known
  have positive := (inv.word.drop (cons_head?_tail first).symm (.inl rfl)).2
  -- Only the reader itself may have set the flag, below its read lock.
  have writes : flagged state.aorwLock = true → .write ∈ state.holds self := by
    intro set
    obtain ⟨writer, wrote⟩ := inv.word.flagged_iff.mp set
    by_contra notWrites
    have empty : state.holds self = [] := inv.word.exclusive wrote fun same => notWrites (same ▸ wrote)
    rw [empty] at first
    exact absurd first (by simp)
  have more : flagged state.aorwLock = true → state.aorwLock ≠ wflag := by
    intro set same
    obtain ⟨above, base, -, -, word⟩ := inv.word.of_write (writes set)
    have none : above = [] := length_eq_zero_iff.mp (by omega)
    rw [base, none] at first
    exact absurd first (by simp)
  have checks : ∀ condition : Prop, [Decidable condition] → (flagged state.aorwLock = true → condition) →
      (!flagged state.aorwLock || decide condition) = true := by
    intro condition _ holds
    cases set : flagged state.aorwLock with
    | false => rfl
    | true => simpa using holds set
  simp only [advance]
  rw [check_pos (by simpa using Nat.ne_of_gt positive), check_pos (by simpa using checks _ more),
    check_pos (by simpa using checks _ fun set => inv.owns out (writes set))]
  exact inv.goto out (.endreadCas loops _) known

/-- A read lock is given up. -/
lemma endedRead (loops : Bool) (top : (state.holds self).head? = some .read)
    (out : outside (state.pc self) = true) (space : state.aorwLock &&& nmask < nmask) :
    Inv (state.put self ⟨(state.aorwLock + 2 ^ 32 - 1) % 2 ^ 32, state.aorwOwner,
      (state.holds self).tail, afterEndread loops⟩) := by
  obtain ⟨encodes, positive⟩ := inv.word.drop (cons_head?_tail top).symm (.inl rfl)
  have small := (inv.word.space space).1
  have less : (state.aorwLock + 2 ^ 32 - 1) % 2 ^ 32 = state.aorwLock - 1 := by omega
  rw [less]
  exact inv.change out encodes (fun writes => .inr (mem_of_mem_tail writes)) fun stale =>
    afterEndread_local loops _ stale

lemma endreadCas_keeps (position : state.pc self = .endreadCas loops f)
    (space : state.aorwLock &&& nmask < nmask) : Keeps debug state self fails := by
  refine inv.here position rfl fun out known => ?_
  simp only [advance]
  split
  · exact inv.goto out (.endreadLoad loops) known
  · rename_i success
    obtain rfl : state.aorwLock = f := not_not.mp (not_or.mp success).2
    exact ⟨_, rfl, endedRead inv loops known out space⟩

lemma endreadDec_keeps (position : state.pc self = .endreadDec loops)
    (space : state.aorwLock &&& nmask < nmask) : Keeps debug state self fails := by
  refine inv.access position fun known => ?_
  exact ⟨_, rfl, endedRead inv loops known (by rw [position]; rfl) space⟩

omit [DecidableEq Thread] in
/-- The word of a writer in `endwrite` counts the locks below its last one. -/
lemma endwrite_word (top : (state.holds self).head? = some .write) :
    flagged state.aorwLock = true ∧ state.aorwLock &&& nmask = (state.holds self).tail.length := by
  have writes : .write ∈ state.holds self := mem_of_mem_head? top
  obtain ⟨above, base, -, small, word⟩ := inv.word.of_write writes
  refine ⟨word ▸ flagged_add small, ?_⟩
  rw [word, and_nmask_add small, length_tail, base, length_append]
  rfl

lemma endwriteLoad_keeps (position : state.pc self = .endwriteLoad) : Keeps debug state self fails := by
  refine inv.access position fun known => ?_
  obtain ⟨set, count⟩ := endwrite_word inv known
  simp only [advance]
  rw [check_pos set]
  refine ⟨_, rfl, inv.move (if debug && state.aorwLock &&& nmask == 0 then .endwriteClear _
    else .endwriteCas _)
    (by rw [position]; simp) (fun _ => ?_) ?_⟩
  · split <;> trivial
  · split
    · rename_i alone
      have none : (state.holds self).tail = [] := by
        rw [Bool.and_eq_true, beq_iff_eq, count] at alone
        exact length_eq_zero_iff.mp alone.2
      show state.holds self = [.write]
      rw [← cons_head?_tail known, none]
    · exact known

lemma endwriteClear_keeps (position : state.pc self = .endwriteClear f) :
    Keeps debug state self fails := by
  refine inv.access position fun known => ?_
  have only : state.holds self = [.write] := known
  refine ⟨_, rfl, inv.put ?_ (.inr ⟨by simp [only], fun other _ => (some_ne_none other).symm⟩)
    (fun _ => .inr (.inr ⟨rfl, trivial, only⟩)) ?_⟩
  · rw [update_eq_self]
    exact inv.word
  · show (state.holds self).head? = some .write
    rw [only]
    rfl

lemma endwriteCas_keeps (position : state.pc self = .endwriteCas f) : Keeps debug state self fails := by
  refine inv.access position fun known => ?_
  obtain ⟨-, count⟩ := endwrite_word inv known
  have top := (cons_head?_tail known).symm
  simp only [advance]
  split
  · exact ⟨_, rfl, inv.move .endwriteLoad (by rw [position]; simp) (fun _ => trivial) known⟩
  rename_i success
  obtain rfl : state.aorwLock = f := not_not.mp (not_or.mp success).2
  refine ⟨_, rfl, inv.put ?_ (.inl ⟨rfl, by rw [position]; simp⟩) (fun writes => ?_) trivial⟩
  · split
    · rename_i more
      exact (inv.word.drop top (.inr fun none => more (by rw [count, none]; rfl))).1
    · rename_i alone
      have none : (state.holds self).tail = [] :=
        length_eq_zero_iff.mp (by rw [← count]; exact not_not.mp alone)
      rw [none] at top ⊢
      exact (inv.word.free top).2.1
  · obtain stores | owns | ⟨-, -, only⟩ := inv.owner self (mem_of_mem_tail writes)
    · rw [position] at stores
      exact OwnerPc.noConfusion stores
    · exact .inr (.inl owns)
    · rw [only] at writes
      exact absurd writes not_mem_nil

end Accesses

/-- Each access of a thread keeps the invariant. -/
lemma advance_keeps (inv : Inv state) (fails : Bool) (inside : state.pc self ≠ .idle)
    (space : state.aorwLock &&& nmask < nmask) (fresh : state.Fresh debug self) :
      Keeps debug state self fails := by
  cases position : state.pc self with
  | idle => exact absurd position inside
  | tryreadLoad => exact tryreadLoad_keeps inv position space
  | tryreadOwner temp => exact tryreadOwner_keeps inv position fresh
  | tryreadCas temp => exact tryreadCas_keeps inv position space
  | trywriteLoad loops => exact trywriteLoad_keeps inv position space
  | trywriteOwner loops temp => exact trywriteOwner_keeps inv position fresh
  | trywriteCas loops temp newval => exact trywriteCas_keeps inv position
  | trywriteRLoad => exact trywriteRLoad_keeps inv position fresh
  | trywriteRCas => exact trywriteRCas_keeps inv position
  | storeOwner => exact storeOwner_keeps inv position
  | tryupgradeLoad loops => exact tryupgradeLoad_keeps inv position
  | tryupgradeOwner loops temp => exact tryupgradeOwner_keeps inv position fresh
  | tryupgradeSame loops temp => exact tryupgradeSame_keeps inv position
  | tryupgradeCas loops => exact tryupgradeCas_keeps inv position
  | downgradeLoad => exact downgradeLoad_keeps inv position
  | downgradeCas f => exact downgradeCas_keeps inv position
  | downgradeWrite => exact downgradeWrite_keeps inv position
  | endreadLoad loops => exact endreadLoad_keeps inv position
  | endreadCas loops f => exact endreadCas_keeps inv position space
  | endreadDec loops => exact endreadDec_keeps inv position space
  | endwriteLoad => exact endwriteLoad_keeps inv position
  | endwriteClear f => exact endwriteClear_keeps inv position
  | endwriteCas f => exact endwriteCas_keeps inv position

/-- The start of a call keeps the invariant. -/
lemma start_keeps (debug : Bool) (inv : Inv state) (position : state.pc self = .idle)
    {function : OwnerCall} (entitled : Entitled (state.holds self) function) :
    ∃ view, (state.view self).start debug self function = some view ∧ Inv (state.put self view) := by
  have out : outside (state.pc self) = true := by rw [position]; rfl
  cases function with
  | tryread => exact inv.goto out .tryreadLoad trivial
  | trywrite => exact inv.goto out (.trywriteLoad false) trivial
  | trywriteR => exact inv.goto out .trywriteRLoad entitled
  | tryupgrade => exact inv.goto out (.tryupgradeLoad false) entitled
  | upgrade => exact inv.goto out (.tryupgradeLoad true) entitled
  | downgrade =>
    have only : state.holds self = [.write] := entitled
    have owns : (state.view self).aorwOwner = some self := inv.owns out (by simp [only])
    rw [start, check_pos (decide_eq_true owns)]
    refine inv.goto out (if debug then .downgradeLoad else .downgradeWrite) ?_
    split <;> exact only
  | endread =>
    refine inv.goto out (if debug then .endreadLoad false else .endreadDec false) ?_
    split <;> exact entitled
  | endwrite =>
    have owns : (state.view self).aorwOwner = some self := inv.owns out (mem_of_mem_head? entitled)
    rw [start, check_pos (decide_eq_true owns)]
    exact inv.goto out .endwriteLoad entitled

lemma step_keeps (inv : Inv state) {action : Thread × OwnerAction} (proper : state.Proper action)
    (careful : state.Careful debug action) : ∃ next, step debug state action = some next ∧ Inv next := by
  obtain ⟨thread, action⟩ := action
  cases action with
  | call function =>
    obtain ⟨position, entitled⟩ := proper
    obtain ⟨view, started, kept⟩ := start_keeps debug inv position entitled
    refine ⟨state.put thread view, ?_, kept⟩
    simp only [step]
    rw [if_pos position, started]
    rfl
  | go fails =>
    obtain ⟨space, fresh⟩ := careful
    obtain ⟨view, advanced, kept⟩ := advance_keeps inv fails proper space fresh
    refine ⟨state.put thread view, ?_, kept⟩
    simp only [step]
    rw [advanced]
    rfl

omit [DecidableEq Thread] in
/-- No thread holds a lock at first. -/
lemma init_inv : Inv (init : OwnerRwlock Thread) :=
  ⟨Encodes.init, fun _ writes => absurd writes not_mem_nil, fun _ => trivial⟩

/-- The thread acquires the lock for writing without waiting. -/
def Reacquires (debug : Bool) (state : OwnerRwlock Thread) (thread : Thread) : Prop :=
  ∃ next, run (step debug) state [(thread, .call .trywrite), (thread, .go false),
    (thread, .go false), (thread, .go false)] =
    some next ∧ next.pc thread = .idle ∧ next.holds thread = .write :: state.holds thread

/-- A writer holds the lock alone, and the word is zero if nobody holds it. -/
structure Excludes (debug : Bool) (state : OwnerRwlock Thread) : Prop where
  exclusive : ∀ thread other, .write ∈ state.holds thread → other ≠ thread → state.holds other = []
  again : ∀ thread, .write ∈ state.holds thread → state.pc thread = .idle →
    state.aorwLock &&& nmask < nmask →
    state.Reacquires debug thread
  zero : state.aorwLock = 0 ↔ ∀ thread, state.holds thread = []

omit [Fintype Thread] in
/-- The next access of a thread right behind another one. -/
lemma step_put_go (view : OwnerView Thread) (fails : Bool) :
    step debug (state.put self view) (self, .go fails) = (view.advance debug self fails).map
      (state.put self) := by
  have seen : (state.put self view).view self = view := by
    simp [OwnerRwlock.view, OwnerRwlock.put]
  have again : (state.put self view).put self = state.put self := by
    funext next
    simp [OwnerRwlock.put]
  simp only [step]
  rw [seen, again]

lemma Inv.reacquires (inv : Inv state) (writes : .write ∈ state.holds self)
    (position : state.pc self = .idle)
    (space : state.aorwLock &&& nmask < nmask) : state.Reacquires debug self := by
  have owns := inv.owns (by rw [position]; rfl) writes
  have fits := (inv.word.space space).1
  have set := inv.word.flagged_iff.mpr ⟨self, writes⟩
  have next : flagged (state.aorwLock + 1) = true := (inv.word.again writes .write fits).flagged_iff.mpr
    ⟨self, by rw [update_self]; exact mem_cons_self⟩
  obtain ⟨above, -, -, -, word⟩ := inv.word.of_write writes
  have notFirst : state.aorwLock + 1 ≠ wflag := by omega
  refine ⟨state.put self ⟨state.aorwLock + 1, state.aorwOwner, .write :: state.holds self, .idle⟩, ?_,
    update_self _ _ _, update_self _ _ _⟩
  have called : step debug state (self, .call .trywrite) =
      some (state.put self ⟨state.aorwLock, state.aorwOwner, state.holds self,
        .trywriteLoad false⟩) := by
    simp only [step, start]
    rw [if_pos position]
    rfl
  have loaded : advance debug self false
      ⟨state.aorwLock, state.aorwOwner, state.holds self, .trywriteLoad false⟩ =
      some ⟨state.aorwLock, state.aorwOwner, state.holds self,
        .trywriteOwner false state.aorwLock⟩ := if_pos set
  have compared : advance debug self false
      ⟨state.aorwLock, state.aorwOwner, state.holds self, .trywriteOwner false state.aorwLock⟩ =
      some ⟨state.aorwLock, state.aorwOwner, state.holds self,
        .trywriteCas false state.aorwLock (state.aorwLock + 1)⟩ := by
    unfold advance
    dsimp only
    rw [if_neg (not_not.mpr owns), Nat.mod_eq_of_lt fits, check_pos next]
    rfl
  have swapped : advance debug self false
      ⟨state.aorwLock, state.aorwOwner, state.holds self,
        .trywriteCas false state.aorwLock (state.aorwLock + 1)⟩ =
      some ⟨state.aorwLock + 1, state.aorwOwner, .write :: state.holds self, .idle⟩ := by
    unfold advance
    dsimp only
    rw [if_neg (not_or.mpr ⟨Bool.false_ne_true, not_not.mpr rfl⟩), if_neg notFirst]
  rw [run_cons, called, bind_some, run_cons, step_put_go, loaded, map_some, bind_some,
    run_cons, step_put_go, compared, map_some, bind_some, run_cons, step_put_go, swapped]
  rfl

lemma Inv.excludes (inv : Inv state) : state.Excludes debug :=
  ⟨fun _ _ => inv.word.exclusive, fun _ => inv.reacquires, inv.word.zero_iff⟩

/-- The lock excludes in every interleaving of entitled calls without stale identities. -/
theorem ownerRwlock_excludes (debug : Bool) (actions : List (Thread × OwnerAction))
    (allowed : StepRun.Meets (step debug) (fun state action => state.Proper action ∧
      state.Careful debug action)
      (init : OwnerRwlock Thread) actions) :
    ∃ final, run (step debug) init actions = some final ∧ final.Excludes debug := by
  obtain ⟨final, reached, inv⟩ :=
    run_invariant (fun _ _ inv allowed => step_keeps inv allowed.1 allowed.2) actions init
      init_inv allowed
  exact ⟨final, reached, inv.excludes⟩

instance decidableEntitled (holds : List Hold) (function) : Decidable (Entitled holds function) := by
  cases function <;> unfold Entitled <;> infer_instance

instance decidableProper (state : OwnerRwlock Thread) : ∀ action, Decidable (state.Proper action) := by
  rintro ⟨thread, _ | _⟩ <;> unfold Proper <;> infer_instance

instance decidableCareful (debug : Bool) (state : OwnerRwlock Thread) :
    ∀ action, Decidable (state.Careful debug action) := by
  rintro ⟨thread, _ | _⟩ <;> dsimp only [Careful, Fresh] <;> infer_instance

/-- A call of a thread with its accesses, none of which fails. -/
def whole (thread : Fin 2) (function : OwnerCall) (accesses : Nat) : List (Fin 2 × OwnerAction) :=
  (thread, .call function) :: List.replicate accesses (thread, .go false)

/-- A thread writes twice, another one is refused and reads behind it. -/
theorem ownerRwlock_excludes_twice :
    ∃ final, run (step true) init (whole 0 .trywrite 3 ++ whole 0 .trywrite 3 ++ whole 1 .tryread 2 ++
      whole 0 .endwrite 2 ++ whole 0 .endwrite 3 ++ whole 1 .tryread 2) = some final ∧
        final.Excludes true :=
  ownerRwlock_excludes true _ (by decide +kernel)

/-- Thread 0 enters by its stale identity before the store of thread 1. -/
theorem stale_owner_enters :
    (StepRun.Meets (step true) Proper init
      (whole 0 .trywrite 3 ++ whole 0 .downgrade 2 ++ whole 0 .endread 2 ++
        whole 1 .trywrite 2 ++ whole 0 .tryread 3 ++ [(1, .go false)]) ∧
      (run (step true) init (whole 0 .trywrite 3 ++ whole 0 .downgrade 2 ++ whole 0 .endread 2 ++
        whole 1 .trywrite 2 ++ whole 0 .tryread 3 ++ [(1, .go false)])).map
          (fun final => (final.holds 0, final.holds 1)) =
          some ([.read], [.write])) ∧
      StepRun.Meets (step false) Proper init (whole 0 .trywrite 3 ++ whole 0 .endwrite 2 ++
        whole 1 .trywrite 2 ++ whole 0 .tryread 3 ++ [(1, .go false)]) ∧
      (run (step false) init (whole 0 .trywrite 3 ++ whole 0 .endwrite 2 ++
        whole 1 .trywrite 2 ++ whole 0 .tryread 3 ++ [(1, .go false)])).map
          (fun final => (final.holds 0, final.holds 1)) =
          some ([.read], [.write]) := by
  decide +kernel

end KosKernel.Hybrid.OwnerRwlock
