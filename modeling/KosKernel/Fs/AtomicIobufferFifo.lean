import KosKernel.Fs.AtomicIobuffer
import KosKernel.Library.Ring
import KosKernel.Library.StepRun

namespace KosKernel.Fs
open Window
namespace AtomicIobuffer
variable (self : AtomicIobuffer)

/-- The unread bytes lie between the read and the avail position. -/
def unread : List Byte :=
  Ring.contents self.aibBuffer self.aibSize self.aibRpos self.aibApos

/-- Between two calls the avail position has caught up, and all positions are in the ring. -/
structure Settled (ring : AtomicIobuffer) : Prop where
  caughtUp : ring.aibApos = ring.aibWpos
  rposWithin : ring.aibRpos ≤ ring.aibSize
  wposWithin : ring.aibWpos ≤ ring.aibSize

variable {self : AtomicIobuffer}

lemma unread_length (settled : self.Settled) : self.unread.length = self.available :=
  Ring.contents_length self.aibBuffer settled.rposWithin

variable (buffer : Nat → Byte) (size : Nat)

lemma init_settled : (init buffer size).Settled :=
  ⟨rfl, Nat.le_refl _, Nat.zero_le _⟩

@[simp] lemma init_unread : (init buffer size).unread = [] := Ring.contents_empty buffer size

/-- This is the state that a pass of the reader leaves behind. -/
def afterPass (bufavail : Nat) : AtomicIobuffer :=
  if (self.copyOut bufavail).2 = self.aibApos then
    { self with aibApos := 0, aibWpos := 0, aibRpos := self.aibSize }
  else { self with aibRpos := (self.copyOut bufavail).2 }

/-- A pass of the reader removes its chunk from the front of the unread bytes. -/
lemma copyOut_unread (settled : self.Settled) (bufavail : Nat) (positive : 0 < bufavail)
    (fits : bufavail ≤ self.available) :
    self.unread = (self.copyOut bufavail).1 ++ (self.afterPass bufavail).unread ∧
      (self.copyOut bufavail).1.length = bufavail ∧ (self.afterPass bufavail).Settled := by
  obtain ⟨caughtUp, rposWithin, wposWithin⟩ := settled
  unfold available maxRead at fits
  by_cases high : bufavail ≤ self.aibSize - self.aibRpos
  · have copied : self.copyOut bufavail = (slice self.aibBuffer self.aibRpos bufavail,
      self.aibRpos + bufavail) := by
      simp [copyOut, high]
    by_cases drained : self.aibRpos + bufavail = self.aibApos
    · have order : self.aibRpos < self.aibApos := by omega
      refine ⟨?_, by simp [copied], by simp [afterPass, copied, drained]; exact ⟨rfl,
        le_rfl, Nat.zero_le _⟩⟩
      simp [afterPass, copied, drained, unread, Ring.contents, order,
        show self.aibApos - self.aibRpos = bufavail by omega]
    refine ⟨?_, by simp [copied], ?_⟩
    · rw [afterPass, if_neg (by rw [copied]; exact drained), copied]
      exact Ring.contents_advance self.aibBuffer (by omega) (by split at fits <;> omega)
    · rw [afterPass, if_neg (by rw [copied]; exact drained), copied]
      exact ⟨caughtUp, by dsimp only; omega, wposWithin⟩
  · have order : ¬ self.aibRpos < self.aibApos := by
      intro order
      rw [if_pos order] at fits
      omega
    rw [if_neg order] at fits
    have copied : self.copyOut bufavail =
      (slice self.aibBuffer self.aibRpos (self.aibSize - self.aibRpos) ++
          slice self.aibBuffer 0 (bufavail - (self.aibSize - self.aibRpos)),
          bufavail - (self.aibSize - self.aibRpos)) := by
      simp [copyOut, high]
    have size : (self.copyOut bufavail).1.length = bufavail := by
      rw [copied]
      simp only [List.length_append, slice_length]
      omega
    by_cases drained : bufavail - (self.aibSize - self.aibRpos) = self.aibApos
    · refine ⟨?_, size, by simp [afterPass, copied, drained]; exact ⟨rfl, le_rfl, Nat.zero_le _⟩⟩
      simp [afterPass, copied, drained, unread, Ring.contents, order]
    refine ⟨?_, size, ?_⟩
    · rw [afterPass, if_neg (by rw [copied]; exact drained), copied]
      exact Ring.contents_wrap self.aibBuffer (by omega) (by omega)
    · rw [afterPass, if_neg (by rw [copied]; exact drained), copied]
      exact ⟨caughtUp, by dsimp only; omega, wposWithin⟩

/-- With the avail position caught up, a pass with data moves on to `afterPass`. -/
lemma readLoop_pass (settled : self.Settled) (fuel bufsiz : Nat) (result : List Byte)
    (positive : 0 < min self.available bufsiz) :
    readLoop (fuel + 1) self bufsiz result =
      readLoop fuel (self.afterPass (min self.available bufsiz)) (bufsiz - min self.available bufsiz)
        (result ++ (self.copyOut (min self.available bufsiz)).1) := by
  rw [readLoop, if_neg (by omega), if_neg (by omega)]
  by_cases drained : (self.copyOut (min self.available bufsiz)).2 = self.aibApos
  · simp [drained, afterPass, settled.caughtUp]
  · simp [drained, afterPass]

/-- The loop returns, and what it returns leaves the front of the unread bytes. -/
lemma readLoop_fifo (fuel : Nat) (self : AtomicIobuffer) (settled : self.Settled) (bufsiz : Nat)
    (result : List Byte) (enough : bufsiz < fuel) :
    ∃ next bytes, readLoop fuel self bufsiz result = some (next, result ++ bytes) ∧
      next.Settled ∧ self.unread = bytes ++ next.unread := by
  induction fuel generalizing self bufsiz result with
  | zero => omega
  | succ fuel ih =>
    by_cases finished : min self.available bufsiz = 0
    · refine ⟨self, [], ?_, settled, rfl⟩
      rw [readLoop, List.append_nil]
      split
      · rfl
      · rw [if_pos finished]
    · have positive : 0 < min self.available bufsiz := by omega
      obtain ⟨front, _, kept⟩ := copyOut_unread settled _ positive (Nat.min_le_left _ _)
      obtain ⟨next, bytes, returned, settledNext, rest⟩ := ih
        (self.afterPass (min self.available bufsiz)) kept (bufsiz - min self.available bufsiz)
        (result ++ (self.copyOut (min self.available bufsiz)).1) (by omega)
      refine ⟨next, (self.copyOut (min self.available bufsiz)).1 ++ bytes, ?_, settledNext, ?_⟩
      · rw [readLoop_pass settled fuel bufsiz result positive, returned, List.append_assoc]
      · rw [front, rest, List.append_assoc]

/-- A read returns the front of the unread bytes and keeps the rest. -/
lemma read_fifo (settled : self.Settled) (bufsiz : Nat) :
    ∃ next bytes, self.read bufsiz = some (next, bytes) ∧ next.Settled ∧
    self.unread = bytes ++ next.unread :=
  readLoop_fifo (bufsiz + 1) self settled bufsiz [] (Nat.lt_succ_self _)

/-- The bytes of one pass end at or below the end of the ring. -/
def FitsHigh (buf : List Byte) : Prop :=
  min self.space buf.length ≤ self.aibSize - self.aibWpos

instance (self : AtomicIobuffer) (buf : List Byte) : Decidable (self.FitsHigh buf) :=
  inferInstanceAs (Decidable (_ ≤ _))

section
variable (settled : self.Settled) (buf : List Byte)
include settled buf

/-- A pass that does not wrap stores its bytes behind the write position. -/
lemma copyIn_high (bufavail : Nat) (high : bufavail ≤ self.aibSize - self.aibWpos) :
    self.copyIn buf bufavail = { self with
    aibBuffer := store self.aibBuffer self.aibWpos (buf.take bufavail)
    aibWpos := self.aibWpos + bufavail
    aibApos := self.aibWpos + bufavail } := by
  have within := settled.wposWithin
  have wrapped : ¬ self.aibSize < self.aibWpos + bufavail := by omega
  simp [copyIn, Nat.min_eq_right high, wrapped]

/-- A pass of the writer that does not wrap appends its bytes to the unread bytes. -/
lemma copyIn_unread (fits : self.FitsHigh buf) : (self.copyIn buf (min self.space buf.length)).unread =
      self.unread ++ buf.take (min self.space buf.length) ∧
    (self.copyIn buf (min self.space buf.length)).Settled := by
  obtain ⟨caughtUp, rposWithin, wposWithin⟩ := settled
  rw [copyIn_high ⟨caughtUp, rposWithin, wposWithin⟩ buf _ fits]
  have taken : (buf.take (min self.space buf.length)).length = min self.space buf.length := by simp
  constructor
  · have extended := Ring.contents_store self.aibBuffer self.aibSize self.aibRpos self.aibWpos
      (buf.take (min self.space buf.length)) (by
        intro order
        have bound : self.space = self.aibRpos - self.aibWpos := if_pos order
        omega)
    rw [taken] at extended
    simpa only [unread, caughtUp] using extended
  · unfold FitsHigh at fits
    exact ⟨rfl, rposWithin, by dsimp only; omega⟩

/-- After a pass that used all of the space the writer finds none. -/
lemma copyIn_space (fits : self.FitsHigh buf) (more : self.space < buf.length) :
    (self.copyIn buf (min self.space buf.length)).space = 0 := by
  rw [copyIn_high settled buf _ fits]
  have within := settled.wposWithin
  unfold FitsHigh at fits
  rw [Nat.min_eq_left (by omega)] at fits ⊢
  by_cases order : self.aibWpos ≤ self.aibRpos
  · have used : self.space = self.aibRpos - self.aibWpos := if_pos order
    rw [used] at fits ⊢
    have full : self.aibWpos + (self.aibRpos - self.aibWpos) = self.aibRpos := by omega
    simp [space, maxWrite, full]
  · have used : self.space = self.aibSize - (self.aibWpos - self.aibRpos) := if_neg order
    rw [used] at fits ⊢
    have full : self.aibWpos + (self.aibSize - (self.aibWpos - self.aibRpos)) = self.aibSize := by omega
    rw [space, maxWrite, if_neg (by dsimp only; omega)]
    dsimp only
    omega

/-- A write that does not wrap appends exactly the bytes that it reports. -/
lemma kwrite_fifo (fits : self.FitsHigh buf) :
    ∃ next count, self.kwrite buf = some (next, count) ∧ next.Settled ∧
    next.unread = self.unread ++ buf.take count := by
  by_cases finished : buf.length = 0 ∨ self.space = 0
  · refine ⟨self, 0, ?_, settled, by simp⟩
    rw [kwrite, kwriteLoop]
    split
    · rfl
    · rw [if_pos (by omega)]
  · obtain ⟨appended, kept⟩ := copyIn_unread settled buf fits
    refine ⟨self.copyIn buf (min self.space buf.length), min self.space buf.length, ?_, kept, appended⟩
    rw [kwrite, kwriteLoop, if_neg (by omega), if_neg (by omega)]
    dsimp only
    rw [Nat.zero_add]
    obtain ⟨fuel, fuelEq⟩ : ∃ fuel, buf.length = fuel + 1 := ⟨buf.length - 1, by omega⟩
    rw [fuelEq, kwriteLoop, ← fuelEq]
    by_cases all : buf.length ≤ self.space
    · rw [if_pos (by simp [Nat.min_eq_right all])]
    · have empty := copyIn_space settled buf fits (by omega)
      split <;> rfl

end

/-- A caller writes kernel bytes or reads without blocking. -/
inductive Call where
  | kwrite (buf : List Byte)
  | read (bufsiz : Nat)

/-- The history keeps the ring and both byte streams. -/
structure History where
  self : AtomicIobuffer
  accepted : List Byte
  returned : List Byte

variable (history : History)

/-- A write adds the bytes it reports as written, and a read adds the bytes it delivers. -/
def History.step : Call → Option History
  | .kwrite buf => (history.self.kwrite buf).map fun result =>
    ⟨result.1, history.accepted ++ buf.take result.2, history.returned⟩
  | .read bufsiz => (history.self.read bufsiz).map fun result =>
    ⟨result.1, history.accepted, history.returned ++ result.2⟩

/-- The history starts with the empty ring over arbitrary memory. -/
def History.start : History := ⟨init buffer size, [], []⟩

/-- The reads returned the accepted bytes in order, and the ring counts and holds the rest. -/
def History.Fifo : Prop :=
  history.accepted = history.returned ++ history.self.unread ∧
    history.accepted.length = history.returned.length + history.self.available

/-- A write stays clear of the wrap when its bytes end inside the ring. -/
def History.NoWrap : Call → Prop
  | .kwrite buf => history.self.FitsHigh buf
  | .read _ => True

instance (history : History) (call : Call) : Decidable (history.NoWrap call) := by
  cases call <;> unfold History.NoWrap <;> infer_instance

/-- The ring is settled, and the streams differ by the unread bytes. -/
def History.Tracked : Prop :=
  history.self.Settled ∧ history.accepted = history.returned ++ history.self.unread

/-- One call keeps the settled ring and the stream equation. -/
lemma History.step_fifo (call : Call) (tracked : history.Tracked) (clear : history.NoWrap call) :
    ∃ next, history.step call = some next ∧ next.Tracked := by
  obtain ⟨settled, streams⟩ := tracked
  cases call with
  | kwrite buf =>
    obtain ⟨next, count, written, kept, appended⟩ := kwrite_fifo settled buf clear
    refine ⟨⟨next, history.accepted ++ buf.take count, history.returned⟩, ?_, kept, ?_⟩
    · simp [step, written]
    · simp [streams, appended]
  | read bufsiz =>
    obtain ⟨next, bytes, delivered, kept, front⟩ := read_fifo settled bufsiz
    refine ⟨⟨next, history.accepted, history.returned ++ bytes⟩, ?_, kept, ?_⟩
    · simp [step, delivered]
    · simp [streams, front]

/-- Every history without a wrapping write is a first-in first-out stream. -/
theorem atomicIobuffer_fifo (calls : List Call)
    (clear : StepRun.Meets History.step History.NoWrap (History.start buffer size) calls) :
    ∃ final, StepRun.run History.step (History.start buffer size) calls = some final ∧ final.Fifo := by
  obtain ⟨final, reached, settled, streams⟩ := StepRun.run_invariant
    History.step_fifo calls (History.start buffer size)
    ⟨init_settled buffer size, by simp [History.start]⟩ clear
  refine ⟨final, reached, streams, ?_⟩
  rw [streams, List.length_append, unread_length settled]

/-- A write, a partial read and a write up to the end of the ring satisfy the condition. -/
theorem atomicIobuffer_fifo_example : ∃ final, StepRun.run History.step (History.start (fun _ => 0) 4)
      [.kwrite [1, 2], .read 1, .kwrite [3, 4], .read 3] = some final ∧ final.Fifo :=
  atomicIobuffer_fifo (fun _ => 0) 4 _ (by decide)

/-- A write that wraps reports a byte that the reader never sees. -/
theorem kwrite_wrap_loses : ∃ final, StepRun.run History.step (History.start (fun _ => 0) 2)
      [.kwrite [1, 2], .read 1, .kwrite [3]] = some final ∧ ¬ final.Fifo :=
  ⟨_, rfl, by unfold History.Fifo; decide⟩

end AtomicIobuffer

end KosKernel.Fs
