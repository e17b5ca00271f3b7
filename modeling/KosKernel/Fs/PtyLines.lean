import KosKernel.Fs.IobufferFifo
import KosKernel.Fs.Pty
import Mathlib.Data.List.Induction

namespace KosKernel.Fs
open List PtyMaster CanonBuffer
variable (cc : ControlChars)

/-- An editor holds the completed lines and the unfinished line. -/
def editByte (text : List UInt8 × List UInt8) (ch : UInt8) : List UInt8 × List UInt8 :=
  match cc.control ch with
  | .endLine => (text.1 ++ (text.2 ++ [ch]), [])
  | .kill => (text.1, [])
  | .erase => (text.1, text.2.dropLast)
  | .signal _ => text
  | .eof => (text.1 ++ text.2, [])
  | .plain => (text.1, text.2 ++ [ch])

/-- The completed lines of a stream and its unfinished line. -/
def edit (stream : List UInt8) : List UInt8 × List UInt8 := stream.foldl (editByte cc) ([], [])

/-- The canon buffer has room for each byte, and the slave for all completed lines. -/
structure Sufficient (settings : PtySettings) (cbMaxsize : Nat) (stream : List UInt8) : Prop where
  line : ∀ front ch back, stream = front ++ ch :: back →
    (edit settings.cCc front).2.length < cbMaxsize ∧ (edit settings.cCc front).2.length + 128 <
      2 ^ settings.bits
  slave : (edit settings.cCc stream).1.length ≤ settings.m2sMaxsize

variable (settings : PtySettings)

/-- However a stream is cut into calls, the slave gets the completed lines. -/
def LineContract (cbMaxsize : Nat) (stream : List UInt8) : Prop :=
  ∀ calls : List (List UInt8), calls.flatten = stream →
    ((fresh cbMaxsize).masterWrites settings calls).pmM2s = (edit settings.cCc stream).1

/-- Every end of file in a stream comes at the start of a line. -/
def EofQuiet (stream : List UInt8) : Prop :=
  ∀ front ch back, stream = front ++ ch :: back → cc.control ch = .eof → (edit cc front).2 = []

section Editor
variable {cc : ControlChars} {stream : List UInt8} {ch : UInt8}

lemma edit_snoc (cc : ControlChars) (stream : List UInt8) (ch : UInt8) :
    edit cc (stream ++ [ch]) = editByte cc (edit cc stream) ch := by
  rw [edit, foldl_append]
  rfl

/-- An editor that loses the line before an end of file. -/
def loseByte (cc : ControlChars) (text : List UInt8 × List UInt8) (ch : UInt8) :
    List UInt8 × List UInt8 :=
  if cc.control ch = .eof then (text.1, []) else editByte cc text ch

def lose (cc : ControlChars) (stream : List UInt8) : List UInt8 × List UInt8 :=
  stream.foldl (loseByte cc) ([], [])

section
variable (cc)

lemma lose_snoc (stream : List UInt8) (ch : UInt8) :
    lose cc (stream ++ [ch]) = loseByte cc (lose cc stream) ch := by
  rw [lose, foldl_append]
  rfl

/-- Both editors have the same unfinished line. -/
lemma lose_line (stream : List UInt8) : (lose cc stream).2 = (edit cc stream).2 := by
  induction stream using List.reverseRecOn with
  | nil => rfl
  | append_singleton stream ch ih =>
    rw [lose_snoc, edit_snoc, loseByte, editByte, editByte]
    cases cc.control ch <;> simp [ih]

/-- An editor adds to the completed lines. -/
lemma editByte_done (text : List UInt8 × List UInt8) (ch : UInt8) :
    ∃ more, (editByte cc text ch).1 = text.1 ++ more := by
  unfold editByte
  cases cc.control ch with
  | endLine => exact ⟨_, rfl⟩
  | eof => exact ⟨_, rfl⟩
  | _ => exact ⟨[], (append_nil text.1).symm⟩

lemma edit_done (stream back : List UInt8) :
    (edit cc stream).1.length ≤ (edit cc (stream ++ back)).1.length := by
  induction back using List.reverseRecOn with
  | nil => exact Nat.le_of_eq (by rw [append_nil])
  | append_singleton back ch ih =>
    obtain ⟨more, done⟩ := editByte_done cc (edit cc (stream ++ back)) ch
    rw [← append_assoc, edit_snoc, done, length_append]
    omega

/-- A character adds one byte to the unfinished line at most. -/
lemma editByte_line (text : List UInt8 × List UInt8) (ch : UInt8) :
    (editByte cc text ch).2.length ≤ text.2.length + 1 := by
  unfold editByte
  cases cc.control ch with
  | erase =>
    rw [length_dropLast]
    omega
  | _ => simp

/-- The lines are not longer than the stream. -/
lemma edit_length (stream : List UInt8) :
    (edit cc stream).1.length + (edit cc stream).2.length ≤ stream.length := by
  induction stream using List.reverseRecOn with
  | nil => exact Nat.le_refl _
  | append_singleton stream ch ih =>
    rw [edit_snoc, editByte, length_append]
    cases cc.control ch <;> simp <;> omega

lemma lose_length (stream : List UInt8) : (lose cc stream).1.length ≤ (edit cc stream).1.length := by
  induction stream using List.reverseRecOn with
  | nil => exact Nat.le_refl _
  | append_singleton stream ch ih =>
    have line := lose_line cc stream
    rw [lose_snoc, edit_snoc, loseByte, editByte, editByte]
    cases cc.control ch <;> simp [line] <;> omega

end

/-- Only the end of a line gives the slave something. -/
lemma lose_quiet (control : cc.control ch ≠ .endLine) :
    (lose cc (stream ++ [ch])).1 = (lose cc stream).1 := by
  rw [lose_snoc, loseByte, editByte]
  cases kind : cc.control ch with
  | endLine => exact absurd kind control
  | _ => simp

lemma eofQuiet_snoc : EofQuiet cc (stream ++ [ch]) ↔ EofQuiet cc stream ∧
    (cc.control ch = .eof → (edit cc stream).2 = []) := by
  constructor
  · intro quiet
    refine ⟨fun front other back split => quiet front other (back ++ [ch]) (by simp [split]),
      quiet stream ch [] rfl⟩
  · rintro ⟨quiet, last⟩ front other back split
    rcases eq_nil_or_concat back with rfl | ⟨between, final, rfl⟩
    · obtain ⟨rfl, same⟩ := append_inj' split rfl
      rw [← singleton_inj.mp same]
      exact last
    · refine quiet front other between ?_
      exact (append_inj' (split.trans (by simp : _ = (front ++ other :: between) ++ [final])) rfl).1

/-- No line is lost exactly if every end of file comes at the start of a line. -/
lemma lose_eq_iff (cc : ControlChars) (stream : List UInt8) :
    (lose cc stream).1 = (edit cc stream).1 ↔ EofQuiet cc stream := by
  induction stream using List.reverseRecOn with
  | nil => exact iff_of_true rfl fun front ch back split => absurd split (by simp)
  | append_singleton stream ch ih =>
    have line := lose_line cc stream
    have short := lose_length cc stream
    rw [eofQuiet_snoc, ← ih, lose_snoc, edit_snoc, loseByte]
    by_cases eof : cc.control ch = .eof
    · rw [if_pos eof, editByte, eof]
      refine ⟨fun same => ?_, fun ⟨same, empty⟩ => ?_⟩
      · have lengths := congrArg List.length same
        simp only [length_append] at lengths
        have empty : (edit cc stream).2 = [] := eq_nil_of_length_eq_zero (by omega)
        rw [empty, append_nil] at same
        exact ⟨same, fun _ => empty⟩
      · simp [same, empty rfl]
    · rw [editByte, editByte, line]
      cases control : cc.control ch with
      | eof => exact absurd control eof
      | endLine => simp
      | _ => simp

end Editor

section Discipline
variable {settings : PtySettings} {cbMaxsize : Nat} {stream run : List UInt8} {pty : PtyMaster}

lemma Sufficient.before {back : List UInt8} (enough : Sufficient settings cbMaxsize (stream ++ back)) :
    Sufficient settings cbMaxsize stream where
  line := fun front ch rest split => enough.line front ch (rest ++ back) (by simp [split])
  slave := Nat.le_trans (edit_done settings.cCc stream back) enough.slave

/-- Buffers for the whole stream are sufficient. -/
lemma Sufficient.of_length (canon : stream.length ≤ cbMaxsize)
    (word : stream.length + 127 < 2 ^ settings.bits)
    (slave : stream.length ≤ settings.m2sMaxsize) : Sufficient settings cbMaxsize stream where
  line := by
    intro front ch back split
    have short := edit_length settings.cCc front
    have length := congrArg List.length split
    rw [length_append, length_cons] at length
    omega
  slave := by
    have short := edit_length settings.cCc stream
    omega

/-- The unfinished line fits. -/
lemma Sufficient.fits (enough : Sufficient settings cbMaxsize stream) :
    (edit settings.cCc stream).2.length ≤ cbMaxsize ∧
    ((edit settings.cCc stream).2 ≠ [] → (edit settings.cCc stream).2.length + 127 <
      2 ^ settings.bits) := by
  rcases eq_nil_or_concat stream with rfl | ⟨front, ch, rfl⟩
  · exact ⟨Nat.zero_le _, absurd rfl⟩
  · have room := enough.line front ch [] (by simp)
    have longer := editByte_line settings.cCc (edit settings.cCc front) ch
    rw [concat_eq_append, edit_snoc]
    omega

/-- A write that fits the limit stores all bytes. -/
lemma CanonBuffer.write_fits {bits : Nat} {buffer : CanonBuffer} (bytes : List UInt8)
    (room : buffer.data.length ≤ buffer.size ∧ buffer.size ≤ buffer.cbMaxsize)
    (fits : buffer.data.length + bytes.length ≤ buffer.cbMaxsize)
    (word : buffer.data.length + bytes.length + 127 < 2 ^ bits) :
    ∃ size, buffer.write bits bytes = (⟨buffer.data ++ bytes, size, buffer.cbMaxsize⟩, bytes.length) ∧
      buffer.data.length + bytes.length ≤ size ∧ size ≤ buffer.cbMaxsize := by
  unfold write
  split
  · exact ⟨buffer.size, rfl, by omega, room.2⟩
  have wanted : buffer.wantedSize bits bytes.length = buffer.data.length + bytes.length := by
    have small : buffer.data.length + bytes.length < 2 ^ bits := by omega
    unfold wantedSize
    simp only [if_pos small]
    split <;> omega
  have allocated : buffer.data.length + bytes.length ≤ buffer.allocatedSize bits
    (buffer.data.length + bytes.length) ∧
      buffer.allocatedSize bits (buffer.data.length + bytes.length) ≤ buffer.cbMaxsize := by
    unfold allocatedSize
    rw [Nat.mod_eq_of_lt word]
    omega
  refine ⟨buffer.allocatedSize bits (buffer.data.length + bytes.length), ?_, allocated⟩
  simp only [wanted]
  rw [if_neg (by omega), Nat.min_eq_right (by omega), take_length]

/-- The terminal after a stream whose last bytes are still in the run of the current call. -/
structure Tracks (settings : PtySettings) (cbMaxsize : Nat) (stream run : List UInt8)
    (pty : PtyMaster) : Prop where
  slave : pty.pmM2s = (lose settings.cCc stream).1
  line : pty.pmCanon.data ++ run = (edit settings.cCc stream).2
  room : pty.pmCanon.data.length ≤ pty.pmCanon.size ∧ pty.pmCanon.size ≤ cbMaxsize
  limit : pty.pmCanon.cbMaxsize = cbMaxsize

/-- What the macro `PRINT` does with bytes that fit. -/
lemma printSome_fits (settings : PtySettings) (bytes : List UInt8)
    (limit : pty.pmCanon.cbMaxsize = cbMaxsize)
    (room : pty.pmCanon.data.length ≤ pty.pmCanon.size ∧ pty.pmCanon.size ≤ cbMaxsize)
    (fits : pty.pmCanon.data.length + bytes.length ≤ cbMaxsize)
    (word : bytes ≠ [] → pty.pmCanon.data.length + bytes.length + 127 < 2 ^ settings.bits) :
    (pty.printSome settings bytes).1.pmM2s = pty.pmM2s ∧
    (pty.printSome settings bytes).1.pmCanon.data = pty.pmCanon.data ++ bytes ∧
      (pty.pmCanon.data ++ bytes).length ≤ (pty.printSome settings bytes).1.pmCanon.size ∧
      (pty.printSome settings bytes).1.pmCanon.size ≤ cbMaxsize ∧
      (pty.printSome settings bytes).1.pmCanon.cbMaxsize = cbMaxsize := by
  subst limit
  unfold printSome
  split
  · next empty =>
    subst empty
    rw [append_nil]
    exact ⟨rfl, rfl, room.1, room.2, rfl⟩
  · next filled =>
    obtain ⟨size, written, large, small⟩ := write_fits bytes room fits (word filled)
    unfold print
    simp only [written]
    rw [length_append]
    split <;> exact ⟨rfl, rfl, large, small, rfl⟩

variable {ch : UInt8}

/-- A byte of a call that is not at the end of the call. -/
lemma Tracks.plain (tracked : Tracks settings cbMaxsize stream run pty)
    (control : settings.cCc.control ch = .plain) :
      Tracks settings cbMaxsize (stream ++ [ch]) (run ++ [ch]) pty where
  slave := by
    rw [lose_snoc, loseByte, editByte, control]
    exact tracked.slave
  line := by
    rw [edit_snoc, editByte, control, ← append_assoc, tracked.line]
  room := tracked.room
  limit := tracked.limit

/-- The end of a call. -/
lemma Tracks.flush (tracked : Tracks settings cbMaxsize stream run pty)
    (enough : Sufficient settings cbMaxsize stream) :
    Tracks settings cbMaxsize stream [] (pty.printSome settings run).1 := by
  obtain ⟨fits, word⟩ := enough.fits
  rw [← tracked.line, length_append] at fits
  rw [← tracked.line, length_append] at word
  obtain ⟨slave, data, large, small, limit⟩ :=
    printSome_fits settings run tracked.limit tracked.room fits
    fun filled => word fun empty => filled (append_eq_nil_iff.mp empty).2
  exact ⟨slave.trans tracked.slave, by rw [data, append_nil, tracked.line], ⟨data ▸ large, small⟩, limit⟩

/-- The echo of deleted bytes leaves the line and the slave. -/
lemma echoClear_keeps (settings : PtySettings) (pty : PtyMaster) (nClear : Nat) :
    (pty.echoClear settings nClear).pmCanon = pty.pmCanon ∧
    (pty.echoClear settings nClear).pmM2s = pty.pmM2s := by
  unfold echoClear
  split
  · induction nClear with
    | zero => exact ⟨rfl, rfl⟩
    | succ nClear ih => exact ih
  · exact ⟨rfl, rfl⟩

/-- The memory of a captured line comes back without the line. -/
lemma release_capture (buffer : CanonBuffer) :
    buffer.capture.1.release buffer.capture.2 = { buffer with data := [] } := by
  simp [capture, release]

/-- The end of a line. -/
lemma Tracks.endLine (tracked : Tracks settings cbMaxsize stream run pty)
    (enough : Sufficient settings cbMaxsize (stream ++ [ch]))
    (control : settings.cCc.control ch = .endLine) :
    Tracks settings cbMaxsize (stream ++ [ch])
    [] ((pty.printSome settings (run ++ [ch])).1.dumpCanon settings) := by
  have line := tracked.line
  have lengths := congrArg List.length line
  have known := lose_length settings.cCc stream
  have next : (edit settings.cCc (stream ++ [ch])) =
    ((edit settings.cCc stream).1 ++ ((edit settings.cCc stream).2 ++ [ch]), []) := by
    rw [edit_snoc, editByte, control]
  have done : (lose settings.cCc (stream ++ [ch])).1 = (lose settings.cCc stream).1 ++
    ((edit settings.cCc stream).2 ++ [ch]) := by
    rw [lose_snoc, loseByte, if_neg (by rw [control]; decide), editByte, control, lose_line]
  have slaveRoom := enough.slave
  obtain ⟨lineRoom, word⟩ := enough.line stream ch [] rfl
  rw [length_append] at lengths
  simp only [next, length_append, length_singleton] at slaveRoom
  obtain ⟨slave, data, large, small, limit⟩ :=
    printSome_fits settings (run ++ [ch]) tracked.limit tracked.room
    (by rw [length_append, length_singleton]; omega)
      (fun _ => by rw [length_append, length_singleton]; omega)
  generalize (pty.printSome settings (run ++ [ch])).1 = printed at slave data large small limit ⊢
  rw [← append_assoc, line] at data
  have took : printed.pmCanon.data.take (settings.m2sMaxsize - printed.pmM2s.length) =
    printed.pmCanon.data := by
    refine take_of_length_le ?_
    rw [slave, tracked.slave, data, length_append, length_singleton]
    omega
  refine ⟨?_, by rw [next]; exact congrArg CanonBuffer.data (release_capture printed.pmCanon), ?_, ?_⟩
  · change printed.pmM2s ++ printed.pmCanon.data.take (settings.m2sMaxsize - printed.pmM2s.length) = _
    rw [took, done, slave, tracked.slave, data]
  · change ((printed.pmCanon.capture.1).release printed.pmCanon.capture.2).data.length ≤
      ((printed.pmCanon.capture.1).release printed.pmCanon.capture.2).size ∧
        ((printed.pmCanon.capture.1).release printed.pmCanon.capture.2).size ≤ cbMaxsize
    exact ⟨Nat.zero_le _, small⟩
  · change ((printed.pmCanon.capture.1).release printed.pmCanon.capture.2).cbMaxsize = cbMaxsize
    exact limit

/-- A control character that takes something from the line. -/
lemma Tracks.edited {data : List UInt8} {next : PtyMaster}
    (tracked : Tracks settings cbMaxsize stream run pty)
    (control : settings.cCc.control ch ≠ .endLine)
    (canon : next.pmCanon = { pty.pmCanon with data := data })
    (short : data.length ≤ pty.pmCanon.data.length) (slave : next.pmM2s = pty.pmM2s)
    (line : data = (edit settings.cCc (stream ++ [ch])).2) :
      Tracks settings cbMaxsize (stream ++ [ch]) [] next where
  slave := by rw [lose_quiet control, slave, tracked.slave]
  line := by rw [canon, append_nil, ← line]
  room := by
    rw [canon]
    exact ⟨Nat.le_trans short tracked.room.1, tracked.room.2⟩
  limit := by
    rw [canon]
    exact tracked.limit

/-- The unfinished line after a control character that does not complete it. -/
def controlledLine (line : List UInt8) : Control → List UInt8
  | .kill | .eof => []
  | .erase => line.dropLast
  | .endLine | .signal _ | .plain => line

/-- Such a character gives the slave nothing. -/
lemma handle_keeps (settings : PtySettings) (pty : PtyMaster) (ch : UInt8) {control : Control}
    (quiet : control ≠ .endLine) :
    (pty.handle settings ch control).pmCanon = { pty.pmCanon
      with data := controlledLine pty.pmCanon.data control } ∧
      (pty.handle settings ch control).pmM2s = pty.pmM2s := by
  cases control with
  | endLine => exact absurd rfl quiet
  | kill =>
    exact echoClear_keeps settings { pty with pmCanon := pty.pmCanon.clear.1 } pty.pmCanon.clear.2
  | erase =>
    have kept := echoClear_keeps settings { pty with pmCanon := (pty.pmCanon.erase 1).1 }
      (pty.pmCanon.erase 1).2
    refine ⟨kept.1.trans ?_, kept.2⟩
    rw [controlledLine, dropLast_eq_take]
    rfl
  | signal signum =>
    simp only [handle, echoControl]
    split <;> split <;> exact ⟨rfl, rfl⟩
  | eof =>
    simp only [handle, endOfFile]
    split
    · exact ⟨release_capture pty.pmCanon, rfl⟩
    · next empty =>
      have none : pty.pmCanon.data = [] := eq_nil_of_length_eq_zero (not_not.mp empty)
      exact ⟨release_capture pty.pmCanon, by simp [m2sWrite, capture, none]⟩
  | plain => exact ⟨rfl, rfl⟩

/-- A control character. -/
lemma Tracks.handle (tracked : Tracks settings cbMaxsize stream run pty)
    (enough : Sufficient settings cbMaxsize (stream ++ [ch]))
    (control : settings.cCc.control ch ≠ .plain) :
    Tracks settings cbMaxsize (stream ++ [ch]) []
      (((pty.printSome settings (flushed run ch (settings.cCc.control ch))).1).handle settings ch
        (settings.cCc.control ch)) := by
  by_cases lineEnd : settings.cCc.control ch = .endLine
  · rw [lineEnd]
    exact tracked.endLine enough lineEnd
  obtain ⟨canon, slave⟩ := handle_keeps settings
    (pty.printSome settings (flushed run ch (settings.cCc.control ch))).1 ch lineEnd
  have next := edit_snoc settings.cCc stream ch
  have flushed := tracked.flush enough.before
  have whole := flushed.line
  rw [append_nil] at whole
  unfold editByte at next
  cases kind : settings.cCc.control ch with
  | plain => exact absurd kind control
  | endLine => exact absurd kind lineEnd
  | kill =>
    rw [kind] at next canon slave
    exact tracked.edited lineEnd canon (Nat.zero_le _) slave (by rw [next]; rfl)
  | erase =>
    rw [kind] at next canon slave
    refine flushed.edited lineEnd canon ?_ slave (by rw [next, ← whole]; rfl)
    exact Nat.le_trans (Nat.le_of_eq length_dropLast) (Nat.sub_le _ _)
  | signal signum =>
    rw [kind] at next canon slave
    exact flushed.edited lineEnd canon (Nat.le_refl _) slave (by rw [next, ← whole]; rfl)
  | eof =>
    rw [kind] at next canon slave
    exact flushed.edited lineEnd canon (Nat.zero_le _) slave (by rw [next]; rfl)

/-- The loop over the bytes of a call. -/
lemma Tracks.canonLoop (bytes : List UInt8) (result : Nat)
    (tracked : Tracks settings cbMaxsize stream run pty)
    (enough : Sufficient settings cbMaxsize (stream ++ bytes)) :
    Tracks settings cbMaxsize (stream ++ bytes) [] (canonLoop settings bytes run pty result).1 := by
  induction bytes generalizing stream run pty result with
  | nil =>
    rw [append_nil] at enough ⊢
    exact tracked.flush enough
  | cons ch rest ih =>
    rw [append_cons] at enough ⊢
    unfold canonLoop
    simp only
    split
    · next plain => exact ih result (tracked.plain plain) enough
    · next control => exact ih _ (tracked.handle enough.before control) enough

/-- Any calls in canonical mode. -/
lemma Tracks.masterWrites (canonical : settings.icanon = true) (calls : List (List UInt8))
    (tracked : Tracks settings cbMaxsize stream [] pty)
    (enough : Sufficient settings cbMaxsize (stream ++ calls.flatten)) :
    Tracks settings cbMaxsize (stream ++ calls.flatten) [] (pty.masterWrites settings calls) := by
  induction calls generalizing stream pty with
  | nil =>
    rw [flatten_nil, append_nil]
    exact tracked
  | cons buf calls ih =>
    rw [flatten_cons, ← append_assoc] at enough ⊢
    refine ih ?_ enough
    have canon : pty.masterWrite settings buf = PtyMaster.canonLoop settings buf [] pty 0 :=
      if_pos canonical
    simp only [canon]
    exact tracked.canonLoop buf 0 enough.before

end Discipline

section SlaveBuffer
variable {settings : PtySettings} {pty : PtyMaster} {ring : Iobuffer}

/-- The buffer `pm_m2s`, from which nothing has been read, holds the bytes for the slave. -/
structure SlaveBuffer (settings : PtySettings) (pty : PtyMaster) (ring : Iobuffer) : Prop where
  placed : ring.Placed
  linear : ring.Linear settings.m2sMaxsize
  bytes : ring.unread = pty.pmM2s

lemma fresh_slaveBuffer (cbMaxsize : Nat) :
    SlaveBuffer settings (fresh cbMaxsize) (.init settings.m2sMaxsize) :=
  ⟨Iobuffer.init_placed _, ⟨rfl, rfl, .inl rfl⟩, rfl⟩

/-- A write for the slave is a call of `iobuffer_write`. -/
lemma SlaveBuffer.write (slave : SlaveBuffer settings pty ring) (bytes : List UInt8)
    (word : pty.pmM2s.length + bytes.length < 2 ^ settings.bits) :
    ∃ next, ring.write settings.bits bytes =
        some (next, min bytes.length (settings.m2sMaxsize - pty.pmM2s.length)) ∧
      SlaveBuffer settings (pty.m2sWrite settings bytes) next := by
  have same := slave.bytes
  obtain ⟨next, written, placed, linear, appended⟩ :=
    Iobuffer.write_linear slave.placed slave.linear bytes (same.symm ▸ word)
  rw [same] at written appended
  exact ⟨next, written, placed, linear, appended⟩

/-- Writes for the slave without reads are calls of `iobuffer_write`. -/
lemma SlaveBuffer.writes (slave : SlaveBuffer settings pty ring) (calls : List (List UInt8))
    (word : pty.pmM2s.length + calls.flatten.length < 2 ^ settings.bits) :
    ∃ next, calls.foldlM (fun ring bytes => (ring.write settings.bits bytes).map Prod.fst) ring =
      some next ∧
      SlaveBuffer settings (calls.foldl (fun pty bytes => pty.m2sWrite settings bytes) pty) next := by
  induction calls generalizing pty ring with
  | nil => exact ⟨ring, rfl, slave⟩
  | cons bytes calls ih =>
    rw [flatten_cons, length_append] at word
    obtain ⟨middle, written, kept⟩ := slave.write bytes (by omega)
    have longer : (pty.m2sWrite settings bytes).pmM2s.length ≤ pty.pmM2s.length + bytes.length := by
      rw [m2sWrite, length_append, length_take]
      omega
    obtain ⟨next, reached, final⟩ := ih kept (by omega)
    refine ⟨next, ?_, final⟩
    rw [foldlM_cons, written]
    exact reached

end SlaveBuffer

/-- The bytes for the slave do not depend on the cut into calls. -/
lemma masterWrites_lose (canonical : settings.icanon = true) (cbMaxsize : Nat)
    (calls : List (List UInt8)) (enough : Sufficient settings cbMaxsize calls.flatten) :
    ((fresh cbMaxsize).masterWrites settings calls).pmM2s = (lose settings.cCc calls.flatten).1 := by
  have start : Tracks settings cbMaxsize [] [] (fresh cbMaxsize) :=
    ⟨rfl, rfl, ⟨Nat.le_refl 0, Nat.zero_le _⟩, rfl⟩
  exact (start.masterWrites canonical calls enough).slave

/-- The line discipline is the editor exactly if each end of file starts a line. -/
theorem lineDiscipline_edits_iff (canonical : settings.icanon = true) (cbMaxsize : Nat)
    (stream : List UInt8) (enough : Sufficient settings cbMaxsize stream) :
    LineContract settings cbMaxsize stream ↔ EofQuiet settings.cCc stream := by
  rw [← lose_eq_iff]
  constructor
  · intro contract
    have single : [stream].flatten = stream := by simp
    rw [← contract [stream] single]
    conv_lhs => rw [← single]
    exact (masterWrites_lose settings canonical cbMaxsize [stream] (single.symm ▸ enough)).symm
  · intro same calls cut
    rw [← same, ← cut]
    exact masterWrites_lose settings canonical cbMaxsize calls (cut ▸ enough)

/-- The usual control characters in canonical mode on a machine with 32 bits. -/
def usualSettings : PtySettings := ⟨32, 4096, ⟨3, 28, 127, 21, 4, 255, 254⟩, true, true, true, true⟩

/-- An end of file, a corrected line and a part of a line. -/
theorem lineDiscipline_edits_corrected :
    LineContract usualSettings 256 [4, 97, 98, 127, 99, 3, 10, 100] :=
  (lineDiscipline_edits_iff usualSettings rfl 256 [4, 97, 98, 127, 99, 3, 10, 100]
    (Sufficient.of_length (by decide) (by decide) (by decide))).mpr ((lose_eq_iff _ _).mp (by decide))

/-- An end of file behind a part of a line loses the part. -/
theorem lineDiscipline_loses_line : ¬ LineContract usualSettings 256 [97, 4] := fun contract =>
  absurd (contract [[97, 4]] rfl) (by decide)

end KosKernel.Fs
