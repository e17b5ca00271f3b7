import KosKernel.Libc.Unicode
import KosKernel.Library.Utf

namespace KosKernel.Libc
open Utf List Nat Target Bool
open String (utf8EncodeChar)
variable {α β : Type} (out : Target β)

/-- Units are stored one after another. -/
def Target.puts (units : List β) : Target β := units.foldl put out

lemma Target.puts_append (first second : List β) :
    out.puts (first ++ second) = (out.puts first).puts second :=
  foldl_append

/-- Storing units moves the position and keeps the size of the buffer. -/
lemma Target.puts_size (units : List β) :
    (out.puts units).dst = out.dst + units.length ∧ (out.puts units).buf.length = out.buf.length := by
  induction units generalizing out with
  | nil => exact ⟨rfl, rfl⟩
  | cons unit rest ih =>
    obtain ⟨moved, same⟩ := ih (out.put unit)
    refine ⟨?_, same.trans length_set⟩
    rw [puts, foldl_cons, ← puts, moved, length_cons]
    show out.dst + 1 + rest.length = _
    omega

/-- Units that fit replace the start of what is left of the buffer. -/
lemma Target.puts_behind (front buf units : List β) (fits : units.length ≤ buf.length) :
    puts ⟨front ++ buf, front.length⟩ units = ⟨front ++ units ++ buf.drop units.length,
      front.length + units.length⟩ := by
  induction units generalizing front buf with
  | nil => simp [puts]
  | cons unit rest ih =>
    cases buf with
    | nil => exact absurd fits (by simp)
    | cons first buf =>
      have put : put ⟨front ++ first :: buf, front.length⟩ unit =
        ⟨(front ++ [unit]) ++ buf, (front ++ [unit]).length⟩ := by
        simp [put]
      rw [puts, foldl_cons, ← puts, put, ih _ _ (le_of_succ_le_succ fits)]
      have count : (front ++ [unit]).length + rest.length = front.length + (unit :: rest).length := by
        rw [length_append, length_singleton, length_cons]
        omega
      rw [count]
      simp

/-- A regular conversion of the whole source. -/
structure UnicodeMode.Plain (mode : UnicodeMode) : Prop where
  stopOnNul : mode.stopOnNul = false
  doSingle : mode.doSingle = false
  noFail : mode.noFail = false

/-- The units with their terminator. -/
def terminated [OfNat β 0] (mode : UnicodeMode) (units : List β) : List β :=
  if mode.noZeroTerm then units else units ++ [0]

/-- The conversion of the whole source to the given units. -/
def converted [OfNat β 0] (mode : UnicodeMode) (state : MbState) (buf units : List β) : Conversion α β :=
  ⟨.size (terminated mode units).length,
    terminated mode units ++ buf.drop (terminated mode units).length,
    if mode.updateSrc then some [] else none, state⟩

variable (mode : UnicodeMode)

/-- The end of the loop stores the terminator. -/
lemma loopEnd_puts [OfNat β 0] (state : MbState) (buf units : List β)
    (room : units.length < buf.length) :
    loopEnd mode ([] : List α) (puts ⟨buf, 0⟩ units) state = converted mode state buf units := by
  have stored : (if mode.noZeroTerm then puts ⟨buf, 0⟩ units else (puts ⟨buf, 0⟩ units).put 0) =
      puts ⟨buf, 0⟩ (terminated mode units) := by
    rw [terminated]
    split
    · rfl
    · rw [puts_append]
      rfl
  have fits : (terminated mode units).length ≤ buf.length := by
    rw [terminated]
    split
    · exact le_of_lt room
    · rw [length_append]
      exact room
  have all := puts_behind [] buf (terminated mode units) fits
  rw [loopEnd, stored]
  rw [nil_append, nil_append, length_nil, zero_add] at all
  rw [all, done, converted]

section Loop
variable {body : List α → Target β → Iteration α β} {source : Char → List α}
  {target : Char → List β} {Good : Char → Prop}

section
variable
  (each : ∀ char rest out, Good char → out.dst + (target char).length < out.buf.length →
    body (source char ++ rest) out = .next rest (out.puts (target char)))
include each

/-- A loop that handles each good character of a text handles the text. -/
lemma loop_text (text : List Char) (good : ∀ char ∈ text, Good char) (fuel : Nat) (rest : List α)
    (out : Target β) (room : out.dst + (text.flatMap target).length < out.buf.length) :
    loop body (text.length + fuel) (.next (text.flatMap source ++ rest) out) =
      loop body fuel (.next rest (out.puts (text.flatMap target))) := by
  induction text generalizing out with
  | nil => rw [length_nil, zero_add]; rfl
  | cons char text ih =>
    rw [flatMap_cons, length_append] at room
    obtain ⟨moved, same⟩ := out.puts_size (target char)
    have step := each char (text.flatMap source ++ rest) out (good char mem_cons_self) (by omega)
    rw [length_cons, add_right_comm, flatMap_cons, append_assoc, loop, step,
      ih (fun other mem => good other (mem_cons_of_mem char mem)) _ (by omega), flatMap_cons,
      puts_append]

/-- A loop that handles each good character of a text converts the text. -/
lemma loop_converts [OfNat β 0] {mode : UnicodeMode} {state : MbState}
    (last : ∀ out, body [] out = .stop (loopEnd mode [] out state)) (text : List Char)
    (good : ∀ char ∈ text, Good char)
    (fuel : Nat) (enough : text.length < fuel) (buf : List β)
    (room : (text.flatMap target).length < buf.length) :
    loop body fuel (.next (text.flatMap source) ⟨buf, 0⟩) =
      some (converted mode state buf (text.flatMap target)) := by
  obtain ⟨more, rfl⟩ : ∃ more, fuel = text.length + (more + 1) := ⟨fuel - text.length - 1, by omega⟩
  have run := loop_text each text good (more + 1) [] ⟨buf, 0⟩ (by rwa [zero_add])
  rw [append_nil] at run
  rw [run, loop, last, loopEnd_puts mode state buf _ room, loop]

end

end Loop

variable (char : Char)

lemma isSurrogate_char : isSurrogate char.toNat = false := by
  have valid := toNat_valid char
  simp only [isSurrogate, and_eq_false_iff, decide_eq_false_iff_not]
  omega

section Bytes
variable (lead second third fourth : UInt8)

lemma isTail_iff (ch : UInt8) : isTail ch = true ↔ 0x80 ≤ ch.toNat ∧ ch.toNat ≤ 0xBF := by
  simp [isTail]

lemma leadCheck_iff : leadCheck lead = true ↔ (lead.toNat < 0x80 ∨ 0xC2 ≤ lead.toNat) ∧
    lead.toNat ≤ 0xF4 := by
  simp only [leadCheck, and_eq_true, not_eq_true', and_eq_false_iff, decide_eq_false_iff_not,
    decide_eq_true_eq]
  omega

lemma secondCheck_iff : secondCheck lead second = true ↔
    (lead.toNat = 0xE0 → 0xA0 ≤ second.toNat) ∧ (lead.toNat = 0xED → second.toNat ≤ 0x9F) ∧
      (lead.toNat = 0xF0 → 0x90 ≤ second.toNat) ∧ (lead.toNat = 0xF4 → second.toNat ≤ 0x8F) ∧
        (lead.toNat ≠ 0xED → lead.toNat ≠ 0xF4 → 0x80 ≤ second.toNat) := by
  unfold secondCheck
  split_ifs <;> simp only [decide_eq_true_eq] <;> omega

/-- The characters of each length that the check accepts. -/
lemma utf8Check_one : utf8TrailingBytes lead = 0 ∧ utf8Check [lead] = true ↔ lead.toNat < 0x80 := by
  simp only [utf8TrailingBytes, utf8Check, leadCheck_iff]
  grind

lemma utf8Check_two : utf8TrailingBytes lead = 1 ∧ utf8Check [lead, second] = true ↔
    0xC2 ≤ lead.toNat ∧ lead.toNat < 0xE0 ∧ 0x80 ≤ second.toNat ∧ second.toNat ≤ 0xBF := by
  simp only [utf8TrailingBytes, utf8Check, and_eq_true, isTail_iff, secondCheck_iff, leadCheck_iff]
  grind

lemma utf8Check_three : utf8TrailingBytes lead = 2 ∧ utf8Check [lead, second, third] = true ↔
    0xE0 ≤ lead.toNat ∧ lead.toNat < 0xF0 ∧ (lead.toNat = 0xE0 → 0xA0 ≤ second.toNat) ∧
      (lead.toNat = 0xED → second.toNat ≤ 0x9F) ∧ 0x80 ≤ second.toNat ∧ second.toNat ≤ 0xBF ∧
        0x80 ≤ third.toNat ∧ third.toNat ≤ 0xBF := by
  simp only [utf8TrailingBytes, utf8Check, and_eq_true, isTail_iff, secondCheck_iff, leadCheck_iff]
  grind

lemma utf8Check_four : utf8TrailingBytes lead = 3 ∧ utf8Check [lead, second, third, fourth] = true ↔
    0xF0 ≤ lead.toNat ∧ lead.toNat ≤ 0xF4 ∧ (lead.toNat = 0xF0 → 0x90 ≤ second.toNat) ∧
      (lead.toNat = 0xF4 → second.toNat ≤ 0x8F) ∧ 0x80 ≤ second.toNat ∧ second.toNat ≤ 0xBF ∧
        0x80 ≤ third.toNat ∧ third.toNat ≤ 0xBF ∧ 0x80 ≤ fourth.toNat ∧ fourth.toNat ≤ 0xBF := by
  simp only [utf8TrailingBytes, utf8Check, and_eq_true, isTail_iff, secondCheck_iff, leadCheck_iff]
  grind

end Bytes

/-- The bytes that are read as one character. -/
lemma utf8EncodeChar_read : ∃ lead tail, utf8EncodeChar char = lead :: tail ∧
    utf8TrailingBytes lead = tail.length ∧
    utf8Check (lead :: tail) = true ∧
    (readChar (lead :: tail) 0 + 2 ^ 32 - utf8Offsets.getD tail.length 0) % 2 ^ 32 = char.toNat := by
  have valid := toNat_valid char
  have byte : ∀ value, (UInt8.ofNat value).toNat = value % 256 := fun value => UInt8.toNat_ofNat'
  obtain ⟨small, equal⟩ | ⟨lower, upper, equal⟩ | ⟨lower, upper, equal⟩ | ⟨lower, upper, equal⟩ :=
    utf8EncodeChar_cases char
  · refine ⟨_, _, equal, and_assoc.mp ⟨(utf8Check_one _).mpr ?_, ?_⟩⟩
    all_goals simp only [byte, readChar, length_nil, utf8Offsets, getD_cons_zero]; omega
  · refine ⟨_, _, equal, and_assoc.mp ⟨(utf8Check_two _ _).mpr ?_, ?_⟩⟩
    all_goals simp only [byte, readChar, length_cons, length_nil, utf8Offsets, getD_cons_zero,
      getD_cons_succ]; omega
  · refine ⟨_, _, equal, and_assoc.mp ⟨(utf8Check_three _ _ _).mpr ?_, ?_⟩⟩
    all_goals simp only [byte, readChar, length_cons, length_nil, utf8Offsets, getD_cons_zero,
      getD_cons_succ]; omega
  · refine ⟨_, _, equal, and_assoc.mp ⟨(utf8Check_four _ _ _ _).mpr ?_, ?_⟩⟩
    all_goals simp only [byte, readChar, length_cons, length_nil, utf8Offsets, getD_cons_zero,
      getD_cons_succ]; omega

/-- Bytes that pass the check encode a character. -/
lemma utf8Check_char (lead : UInt8) (tail : List UInt8) (size : utf8TrailingBytes lead = tail.length)
    (passed : utf8Check (lead :: tail) = true) : ∃ char, utf8EncodeChar char = lead :: tail := by
  have ext : ∀ (byte : UInt8) (value : Nat), value = byte.toNat → UInt8.ofNat value = byte :=
    fun byte value equal =>
    equal ▸ UInt8.ofNat_toNat
  -- The value that the bytes give decides the length class, and the other classes are out of its range.
  match tail with
  | [] =>
    have bounds := (utf8Check_one lead).mp ⟨size, passed⟩
    obtain ⟨char, value⟩ := exists_char lead.toNat (by omega)
    obtain ⟨-, equal⟩ | ⟨lower, upper, equal⟩ | ⟨lower, upper, equal⟩ | ⟨lower, upper, equal⟩ :=
      utf8EncodeChar_cases char
    · exact ⟨char, by rw [equal, value, ext lead _ rfl]⟩
    all_goals omega
  | [second] =>
    have bounds := (utf8Check_two lead second).mp ⟨size, passed⟩
    obtain ⟨char, value⟩ := exists_char ((lead.toNat - 0xC0) * 64 + (second.toNat - 0x80)) (by omega)
    obtain ⟨upper, equal⟩ | ⟨lower, upper, equal⟩ | ⟨lower, upper, equal⟩ | ⟨lower, upper, equal⟩ :=
      utf8EncodeChar_cases char
    · omega
    · exact ⟨char, by rw [equal, ext lead _ (by omega), ext second _ (by omega)]⟩
    all_goals omega
  | [second, third] =>
    have bounds := (utf8Check_three lead second third).mp ⟨size, passed⟩
    obtain ⟨char, value⟩ := exists_char
      ((lead.toNat - 0xE0) * 4096 + (second.toNat - 0x80) * 64 + (third.toNat - 0x80)) (by omega)
    obtain ⟨upper, equal⟩ | ⟨lower, upper, equal⟩ | ⟨lower, upper, equal⟩ | ⟨lower, upper, equal⟩ :=
      utf8EncodeChar_cases char
    · omega
    · omega
    · exact ⟨char, by rw [equal, ext lead _ (by omega), ext second _ (by omega), ext third _ (by omega)]⟩
    · omega
  | [second, third, fourth] =>
    have bounds := (utf8Check_four lead second third fourth).mp ⟨size, passed⟩
    obtain ⟨char, value⟩ := exists_char
      ((lead.toNat - 0xF0) * 262144 + (second.toNat - 0x80) * 4096 + (third.toNat - 0x80) * 64 +
        (fourth.toNat - 0x80)) (by omega)
    obtain ⟨upper, equal⟩ | ⟨lower, upper, equal⟩ | ⟨lower, upper, equal⟩ | ⟨lower, upper, equal⟩ :=
      utf8EncodeChar_cases char
    · omega
    · omega
    · omega
    · exact ⟨char, by
        rw [equal, ext lead _ (by omega), ext second _ (by omega), ext third _ (by omega),
          ext fourth _ (by omega)]⟩
  | _ :: _ :: _ :: _ :: _ => exact absurd passed (by simp [utf8Check])

section Decode
variable [OfNat β 0] [OfNat β 0x3F] {store : Target β → Nat → Nat → Stored β}
  {units : Char → List β} {mode : UnicodeMode}
  {state : MbState}

/-- The decoder stores the units of each character for which there is room. -/
def Stores (store : Target β → Nat → Nat → Stored β) (units : Char → List β) : Prop :=
  ∀ char out size, out.dst + (units char).length < out.buf.length →
    store out char.toNat size = .put (out.puts (units char))

/-- The loop reads the bytes of a character. -/
lemma decodeBody_char (plain : mode.Plain) (stores : Stores store units) (char : Char)
    (rest : List UInt8) (out : Target β) (room : out.dst + (units char).length < out.buf.length) :
    decodeBody store mode state (utf8EncodeChar char ++ rest) out =
      .next rest (out.puts (units char)) := by
  obtain ⟨lead, tail, bytes, size, passed, value⟩ := utf8EncodeChar_read char
  have taken : (lead :: tail ++ rest).take (tail.length + 1) = lead :: tail := take_left' rfl
  have dropped : (lead :: tail ++ rest).drop (tail.length + 1) = rest := drop_left' rfl
  have enough : ¬(lead :: tail ++ rest).length < tail.length + 1 := by
    rw [length_append, length_cons]
    omega
  rw [bytes, cons_append, decodeBody, plain.stopOnNul, Bool.false_and]
  rw [← cons_append, size]
  rw [if_neg enough, taken, dropped, if_pos passed, gotChar, value, stores char out _ room]
  show charDone mode rest _ state = _
  rw [charDone, plain.doSingle, if_neg Bool.false_ne_true]

/-- The decoders convert the UTF-8 form of a text. -/
lemma decode_text (plain : mode.Plain) (fresh : state.count = 0) (stores : Stores store units)
    (text : List Char) (fuel : Nat)
    (enough : text.length < fuel) (buf : List β) (room : (text.flatMap units).length < buf.length) :
    decode store mode state fuel (utf8 text) buf =
      some (converted mode state buf (text.flatMap units)) := by
  rw [decode, if_neg (not_not_intro fresh)]
  exact loop_converts (fun char rest out (_ : True) => decodeBody_char plain stores char rest out)
    (fun _ => rfl) text
    (fun _ _ => trivial) fuel enough buf room

/-- The bytes start a character and end inside it. -/
def Incomplete (tail : List UInt8) : Prop :=
  ∃ lead rest, tail = lead :: rest ∧ rest.length < utf8TrailingBytes lead

/-- The bytes start with a whole character that does not pass the check. -/
def Illegal (tail : List UInt8) : Prop :=
  ∃ lead rest, tail = lead :: rest ∧ utf8TrailingBytes lead ≤ rest.length ∧
    utf8Check (tail.take (utf8TrailingBytes lead + 1)) = false

/-- The bytes are a text followed by the start of a character. -/
def Truncated (bytes : List UInt8) : Prop := ∃ text tail, bytes = utf8 text ++ tail ∧ Incomplete tail

/-- The conversion returns an error. -/
def Rejected (result : Option (Conversion α β)) : Prop :=
  ∃ conversion errno, result = some conversion ∧ conversion.reply = .error errno

/-- Bytes are a text up to their end, to an incomplete character or to an illegal one. -/
lemma utf8_split (bytes : List UInt8) :
    ∃ text tail, bytes = utf8 text ++ tail ∧ (tail = [] ∨ Incomplete tail ∨ Illegal tail) := by
  induction counted : bytes.length using Nat.strong_induction_on generalizing bytes with
  | _ count ih =>
    cases bytes with
    | nil => exact ⟨[], [], rfl, .inl rfl⟩
    | cons lead rest =>
      by_cases short : rest.length < utf8TrailingBytes lead
      · exact ⟨[], lead :: rest, rfl, .inr (.inl ⟨lead, rest, rfl, short⟩)⟩
      cases passed : utf8Check ((lead :: rest).take (utf8TrailingBytes lead + 1)) with
      | false => exact ⟨[], lead :: rest, rfl, .inr (.inr ⟨lead, rest, rfl, not_lt.mp short, passed⟩)⟩
      | true =>
        have size : utf8TrailingBytes lead = (rest.take (utf8TrailingBytes lead)).length :=
          (length_take_of_le (not_lt.mp short)).symm
        obtain ⟨char, encoded⟩ := utf8Check_char lead _ size passed
        have smaller : (rest.drop (utf8TrailingBytes lead)).length < count := by
          rw [← counted, length_drop, length_cons]
          omega
        obtain ⟨text, tail, split, ends⟩ := ih _ smaller (rest.drop (utf8TrailingBytes lead)) rfl
        refine ⟨char :: text, tail, ?_, ends⟩
        rw [utf8, flatMap_cons, encoded, append_assoc, ← utf8, ← split, cons_append, take_append_drop]

/-- Decoding reaches the bytes behind a text. -/
lemma decode_behind (plain : mode.Plain) (fresh : state.count = 0) (stores : Stores store units)
    (few : ∀ char, (units char).length ≤ (utf8EncodeChar char).length) (text : List Char)
    (tail : List UInt8) {fuel : Nat}
    (enough : (utf8 text ++ tail).length < fuel) {buf : List β}
    (room : (utf8 text ++ tail).length < buf.length) :
    ∃ more out, decode store mode state fuel (utf8 text ++ tail) buf =
      loop (decodeBody store mode state) more (decodeBody store mode state tail out) := by
  rw [length_append] at enough room
  have short : (text.flatMap units).length ≤ (utf8 text).length := flatMap_length_le few text
  have shorter := length_le text
  obtain ⟨more, rfl⟩ : ∃ more, fuel = text.length + (more + 1) := ⟨fuel - text.length - 1, by omega⟩
  refine ⟨more, puts ⟨buf, 0⟩ (text.flatMap units), ?_⟩
  rw [decode, if_neg (not_not_intro fresh)]
  exact loop_text (fun char rest out (_ : True) => decodeBody_char plain stores char rest out) text
    (fun _ _ => trivial)
    (more + 1) tail ⟨buf, 0⟩ (by dsimp only; omega)

/-- The state that a character leaves which the source cuts off. -/
def MbState.cut (state : MbState) (lead : UInt8) (rest : List UInt8) : MbState :=
  { state.setCount (utf8TrailingBytes lead - rest.length) (utf8TrailingBytes lead)
    with wch := readChar (lead :: rest) 0 }

lemma decodeBody_incomplete (plain : mode.Plain) {lead : UInt8} {rest : List UInt8}
    (short : rest.length < utf8TrailingBytes lead) (out : Target β) :
    decodeBody store mode state (lead :: rest) out =
      .stop (gotoDone mode [] out (state.cut lead rest)) := by
  rw [decodeBody, plain.stopOnNul, Bool.false_and, if_neg Bool.false_ne_true]
  rw [if_pos (by rw [length_cons]; omega), length_cons, Nat.add_sub_add_right]
  rfl

lemma decodeBody_illegal (plain : mode.Plain) {tail : List UInt8} (illegal : Illegal tail)
    (out : Target β) :
    ∃ conversion errno, decodeBody store mode state tail out = .stop conversion ∧
    conversion.reply = .error errno := by
  obtain ⟨lead, rest, rfl, whole, failed⟩ := illegal
  rw [decodeBody, plain.stopOnNul, Bool.false_and, if_neg Bool.false_ne_true]
  rw [if_neg (by rw [length_cons]; omega), failed, onError, plain.noFail]
  exact ⟨_, _, rfl, rfl⟩

/-- Of the malformed bytes, the decoders reject all but those that end inside a character. -/
lemma decode_rejected_iff (plain : mode.Plain) (fresh : state.count = 0) (stores : Stores store units)
    (few : ∀ char, (units char).length ≤ (utf8EncodeChar char).length) (bytes : List UInt8) (fuel : Nat)
    (enough : bytes.length < fuel) (buf : List β) (room : bytes.length < buf.length)
    (malformed : ¬WellFormed bytes) :
    Rejected (decode store mode state fuel bytes buf) ↔ ¬Truncated bytes := by
  constructor
  · rintro ⟨conversion, errno, returned, error⟩ ⟨text, tail, rfl, lead, rest, rfl, short⟩
    obtain ⟨more, out, run⟩ := decode_behind plain fresh stores few text _ enough room
    rw [run, decodeBody_incomplete plain short, loop] at returned
    rw [← Option.some.inj returned] at error
    cases error
  · intro whole
    obtain ⟨text, tail, rfl, none | incomplete | illegal⟩ := utf8_split bytes
    · exact absurd ⟨text, by rw [none, append_nil]⟩ malformed
    · exact absurd ⟨text, tail, rfl, incomplete⟩ whole
    · obtain ⟨more, out, run⟩ := decode_behind plain fresh stores few text tail enough room
      obtain ⟨conversion, errno, stopped, reply⟩ := decodeBody_illegal plain illegal out
      exact ⟨conversion, errno, by rw [run, stopped, loop], reply⟩

end Decode

lemma stores_store32 : Stores (fun out ch _ => store32 out ch) fun char => [char.val] := by
  intro char out size room
  have valid := toNat_valid char
  have value : UInt32.ofNat char.toNat = char.val := UInt32.ofNat_toNat
  simp only [store32]
  rw [if_neg (by omega), isSurrogate_char, value]
  rfl

lemma stores_store16 (state : MbState) : Stores (store16 mode state) utf16Char := by
  intro char out size room
  have valid := toNat_valid char
  rw [store16]
  by_cases small : char.toNat < 0x10000
  · rw [if_pos (by omega), isSurrogate_char, utf16Char, if_pos small]
    rfl
  rw [utf16Char, if_neg small] at room ⊢
  rw [if_neg (by omega), if_neg (by omega)]
  have inside : (out.put (.ofNat ((char.toNat - 0x10000) >>> 10 + 0xD800))).dst <
      (out.put (.ofNat ((char.toNat - 0x10000) >>> 10 + 0xD800))).buf.length := by
    rw [put, length_set]
    exact lt_trans (lt_succ_self _) room
  rw [if_pos inside, shiftRight_eq_div_pow]
  rfl

section Encode
variable {mode : UnicodeMode} {state : MbState}

lemma tailByte_eq (ch : Nat) : tailByte ch = .ofNat (ch % 64 + 0x80) := by
  have small : ∀ byte < 256, (byte ||| 0x80) &&& 0xBF = byte % 64 + 0x80 := by decide +kernel
  have masked : (ch ||| 0x80) &&& 0xBF = (ch % 256 ||| 0x80) &&& 0xBF := by
    calc (ch ||| 0x80) &&& 0xBF = (ch ||| 0x80) &&& (2 ^ 8 - 1) &&& 0xBF := by rw [Nat.and_assoc]; rfl
      _ = (ch ||| 0x80) % 2 ^ 8 &&& 0xBF := by rw [and_two_pow_sub_one_eq_mod]
      _ = (ch % 256 ||| 0x80) &&& 0xBF := by rw [or_mod_two_pow]
  rw [tailByte, masked, small _ (mod_lt _ (by decide)), mod_mod_of_dvd _ (by decide)]

/-- The number of bytes that the encoders compute is that of the UTF-8 form. -/
lemma dstSize_char : dstSize char.toNat = some (utf8EncodeChar char).length := by
  obtain ⟨small, equal⟩ | ⟨lower, upper, equal⟩ | ⟨lower, upper, equal⟩ | ⟨lower, upper, equal⟩ :=
    utf8EncodeChar_cases char
  · rw [equal, dstSize, if_pos small]
    rfl
  · rw [equal, dstSize, if_neg (by omega), if_pos upper]
    rfl
  · rw [equal, dstSize, if_neg (by omega), if_neg (by omega), if_pos upper]
    rfl
  · rw [equal, dstSize, if_neg (by omega), if_neg (by omega), if_neg (by omega), if_pos (by omega)]
    rfl

/-- The buffer after `libc_utf32to8` has stored a character. -/
def putChar (out : Target UInt8) : Target UInt8 :=
  putForward (utf8EncodeChar char).length (utf8EncodeChar char).length char.toNat out

/-- An iteration of `libc_utf32to8`. -/
lemma body32to8_char (plain : mode.Plain) (state : MbState) (char : Char) (rest : List UInt32)
    (out : Target UInt8) :
    body32to8 mode state ([char.val] ++ rest) out = .next rest (putChar char out) := by
  have surrogate : isSurrogate char.val.toNat = false := isSurrogate_char char
  have size : dstSize char.val.toNat = _ := dstSize_char char
  rw [singleton_append, body32to8, plain.stopOnNul, if_neg (by simp), surrogate, size]
  show charDone mode rest _ state = _
  rw [charDone, plain.doSingle]
  rfl

lemma putChar_ascii (ascii : char.toNat < 0x80) (out : Target UInt8) :
    putChar char out = out.puts (utf8EncodeChar char) := by
  obtain ⟨-, equal⟩ | ⟨lower, -⟩ | ⟨lower, -⟩ | ⟨lower, -⟩ := utf8EncodeChar_cases char
  · rw [putChar, equal]
    show out.put (leadByte 1 char.toNat) = out.put (.ofNat char.toNat)
    rw [leadByte, show uniBytemarks.getD 1 0 = 0 from rfl, or_zero]
  all_goals omega

lemma putTwice_size (out : Target UInt8) (byte : UInt8) :
    out.dst + 1 ≤ (out.putTwice byte).dst ∧
    (out.dst < out.buf.length → (out.putTwice byte).dst = out.dst + 2) := by
  rw [putTwice]
  split
  · exact ⟨le_succ _, fun _ => rfl⟩
  · next outside => exact ⟨le_refl _, fun inside => absurd inside outside⟩

/-- Each byte moves the position of `libc_utf32to8` on. -/
lemma putForward_size (size count ch : Nat) (out : Target UInt8) :
    out.dst + count ≤ (putForward size count ch out).dst := by
  induction count generalizing ch out with
  | zero => exact le_refl _
  | succ count ih =>
    cases count with
    | zero => exact le_refl _
    | succ count =>
      have step := (putTwice_size out (tailByte ch)).1
      have rest := ih (ch >>> 6) (out.putTwice (tailByte ch))
      rw [putForward]
      omega

/-- A character of two or more bytes moves the position too far. -/
lemma putForward_far (size count ch : Nat) (out : Target UInt8) (inside : out.dst < out.buf.length) :
    out.dst + (count + 2) < (putForward size (count + 2) ch out).dst := by
  have step := (putTwice_size out (tailByte ch)).2 inside
  have rest := putForward_size size (count + 1) (ch >>> 6) (out.putTwice (tailByte ch))
  rw [putForward]
  omega

/-- The units with the terminator, as the conversion counts them. -/
lemma converted_size [OfNat β 0] (buf units : List β) :
    (converted mode state buf units : Conversion α β).reply =
    .size (units.length + if mode.noZeroTerm then 0 else 1) := by
  rw [converted, terminated]
  split
  · rfl
  · rw [length_append]
    rfl

/-- `libc_utf32to8` counts at least the bytes of the UTF-8 form. -/
lemma loop32to8_size (plain : mode.Plain) (text : List Char) (fuel : Nat) (out : Target UInt8) :
    ∃ conversion size, loop (body32to8 mode state) (text.length + (fuel + 1))
      (.next (utf32 text) out) = some conversion ∧
      conversion.reply = .size (size + if mode.noZeroTerm then 0 else 1) ∧
      out.dst + (utf8 text).length ≤ size := by
  induction text generalizing out with
  | nil =>
    refine ⟨loopEnd mode [] out state, out.dst, ?_, ?_, le_refl _⟩
    · exact loop.eq_1 _ _ _
    · rw [loopEnd]
      split <;> rfl
  | cons char text ih =>
    have step := body32to8_char plain state char (utf32 text) out
    have moved : out.dst + (utf8EncodeChar char).length ≤ (putChar char out).dst :=
      putForward_size _ _ _ out
    obtain ⟨conversion, size, returned, reply, least⟩ := ih (putChar char out)
    refine ⟨conversion, size, ?_, reply, ?_⟩
    · rw [length_cons, add_right_comm, utf32, flatMap_cons, ← utf32, loop, step]
      exact returned
    · rw [utf8, flatMap_cons, ← utf8, length_append]
      omega

/-- A list of which not all elements are good has a first one that is not. -/
lemma exists_first {Good : Char → Prop} {text : List Char} (some : ¬∀ char ∈ text, Good char) :
    ∃ front char rest, text = front ++ char :: rest ∧ (∀ other ∈ front, Good other) ∧ ¬Good char := by
  induction text with
  | nil => exact absurd (fun _ mem => absurd mem (by simp)) some
  | cons char text ih =>
    by_cases good : Good char
    · have later : ¬∀ other ∈ text, Good other := fun all => some (by simpa using ⟨good, all⟩)
      obtain ⟨front, bad, rest, rfl, before, here⟩ := ih later
      exact ⟨char :: front, bad, rest, rfl, by simpa using ⟨good, before⟩, here⟩
    · exact ⟨[], char, text, rfl, by simp, good⟩

/-- `libc_utf32to8` gives the UTF-8 form of exactly the texts in ASCII. -/
lemma utf32to8_iff (plain : mode.Plain) (text : List Char) (fuel : Nat)
    (enough : text.length < fuel) (buf : List UInt8) (room : (utf8 text).length < buf.length) :
    utf32to8 fuel (utf32 text) buf state mode = some (converted mode state buf (utf8 text)) ↔
      ∀ char ∈ text, char.toNat < 0x80 := by
  have each : ∀ (char : Char) (rest : List UInt32) (out : Target UInt8), char.toNat < 0x80 →
      out.dst + (utf8EncodeChar char).length < out.buf.length →
        body32to8 mode state ([char.val] ++ rest) out = .next rest (out.puts (utf8EncodeChar char)) := by
    intro char rest out ascii _
    rw [body32to8_char plain state, putChar_ascii char ascii]
  constructor
  · intro equal
    by_contra other
    obtain ⟨front, char, rest, rfl, ascii, wide⟩ := exists_first other
    obtain ⟨more, rfl⟩ : ∃ more, fuel = front.length + (rest.length + (more + 1) + 1) := by
      rw [length_append, length_cons] at enough
      exact ⟨fuel - front.length - rest.length - 2, by omega⟩
    rw [utf8, flatMap_append, flatMap_cons, length_append, ← utf8] at room
    have run := loop_text each front ascii (rest.length + (more + 1) + 1) (utf32 (char :: rest)) ⟨buf, 0⟩
      (by rw [← utf8]; dsimp only; omega)
    obtain ⟨moved, same⟩ := puts_size ⟨buf, 0⟩ (utf8 front)
    obtain ⟨conversion, size, returned, reply, least⟩ := loop32to8_size plain rest more
      (putChar char (puts ⟨buf, 0⟩ (utf8 front)))
    have far : (utf8 front).length + (utf8EncodeChar char).length <
      (putChar char (puts ⟨buf, 0⟩ (utf8 front))).dst := by
      obtain ⟨count, long⟩ : ∃ count, (utf8EncodeChar char).length = count + 2 := by
        obtain ⟨small, -⟩ | ⟨-, -, bytes⟩ | ⟨-, -, bytes⟩ | ⟨-, -, bytes⟩ := utf8EncodeChar_cases char
        · exact absurd small wide
        all_goals exact ⟨_, by rw [bytes]; rfl⟩
      have past := putForward_far (count + 2) count char.toNat (puts ⟨buf, 0⟩ (utf8 front))
        (by rw [moved, same]; dsimp only; omega)
      rw [putChar, long]
      omega
    have reached : utf32to8 (front.length + (rest.length + (more + 1) + 1))
        (utf32 (front ++ char :: rest)) buf state mode = some conversion := by
      rw [utf32to8, utf32, flatMap_append, ← utf32, ← utf32]
      rw [← utf32] at run
      rw [run, utf32, flatMap_cons, loop, body32to8_char plain state]
      exact returned
    rw [reached] at equal
    rw [Option.some.inj equal, converted_size, utf8, flatMap_append, flatMap_cons, length_append,
      length_append, ← utf8, ← utf8] at reply
    have count := UnicodeReply.size.inj reply
    omega
  · intro ascii
    exact loop_converts each (fun _ => rfl) text ascii fuel enough buf room

lemma putBehind_eq {buf : List UInt8} {temp : Nat} (byte : UInt8) (inside : temp < buf.length) :
    putBehind buf temp byte = buf.set (temp - 1) byte :=
  if_pos inside

lemma putBehind_length (buf : List UInt8) (temp : Nat) (byte : UInt8) :
    (putBehind buf temp byte).length = buf.length := by
  rw [putBehind]
  split
  · exact length_set
  · rfl

/-- The bytes that `libc_utf16to8` stores from the last one on. -/
lemma putBackward_puts (large : 0x10000 ≤ char.toNat) (out : Target UInt8)
    (room : out.dst + (utf8EncodeChar char).length < out.buf.length) :
    (⟨putBackward 4 4 char.toNat (out.dst + 4) out.buf, out.dst + 4⟩ : Target UInt8) =
      out.puts (utf8EncodeChar char) := by
  have valid := toNat_valid char
  have mark : ∀ value < 8, value ||| 0xF0 = value + 0xF0 := by decide
  have lead : leadByte 4 (char.toNat >>> 6 >>> 6 >>> 6) = .ofNat (char.toNat / 262144 + 0xF0) := by
    rw [leadByte, show uniBytemarks.getD 4 0 = 0xF0 from rfl, ← shiftRight_add, ← shiftRight_add,
      shiftRight_eq_div_pow, mark _ (by omega)]
  have second : tailByte (char.toNat >>> 6) = .ofNat (char.toNat / 64 % 64 + 0x80) := by
    rw [tailByte_eq, shiftRight_eq_div_pow]
  have third : tailByte (char.toNat >>> 6 >>> 6) = .ofNat (char.toNat / 4096 % 64 + 0x80) := by
    rw [tailByte_eq, ← shiftRight_add, shiftRight_eq_div_pow]
  rw [utf8EncodeChar_large large] at room ⊢
  simp only [length_cons, length_nil] at room
  simp only [putBackward, tailByte_eq char.toNat, lead, second, third]
  rw [putBehind_eq _ (by simp only [putBehind_length]; omega),
    putBehind_eq _ (by simp only [putBehind_length]; omega),
    putBehind_eq _ (by simp only [putBehind_length]; omega), putBehind_eq _ (by omega)]
  -- The four positions differ, so the order of the stores does not matter.
  show (⟨_, _⟩ : Target UInt8) = ⟨_, _⟩
  congr 1
  apply ext_getElem?
  intro index
  simp only [put, List.getElem?_set, length_set]
  split_ifs <;> first | rfl | omega

/-- An iteration of `libc_utf16to8` that meets a character outside the basic plane. -/
lemma body16to8_large (plain : mode.Plain) (state : MbState) (char : Char) (rest : List UInt16)
    (out : Target UInt8)
    (large : 0x10000 ≤ char.toNat) (room : out.dst + (utf8EncodeChar char).length < out.buf.length) :
    body16to8 mode state (utf16Char char ++ rest) out = .next rest (out.puts (utf8EncodeChar char)) := by
  have valid := toNat_valid char
  have high : (UInt16.ofNat ((char.toNat - 0x10000) / 0x400 + 0xD800)).toNat =
    (char.toNat - 0x10000) / 0x400 + 0xD800 :=
    UInt16.toNat_ofNat_of_lt' (show _ < 65536 by omega)
  have low : (UInt16.ofNat ((char.toNat - 0x10000) % 0x400 + 0xDC00)).toNat =
    (char.toNat - 0x10000) % 0x400 + 0xDC00 :=
    UInt16.toNat_ofNat_of_lt' (show _ < 65536 by omega)
  have value : (((char.toNat - 0x10000) / 0x400 + 0xD800 + 2 ^ 32 - 0xD800) % 2 ^ 32 * 0x400 +
      ((char.toNat - 0x10000) % 0x400 + 0xDC00 - 0xDC00) + 0x10000) % 2 ^ 32 = char.toNat := by
    omega
  have size : dstSize char.toNat = some 4 := by
    rw [dstSize_char, utf8EncodeChar_large large]
    rfl
  rw [utf16Char, if_neg (by omega), cons_append, singleton_append, body16to8, high,
    if_neg (by omega), if_neg (by omega), secondChar, low, if_neg (by omega), value]
  dsimp only
  rw [size]
  show charDone mode rest _ state = _
  rw [charDone, plain.doSingle, if_neg Bool.false_ne_true, putBackward_puts char large out room]

/-- `libc_utf16to8` gives the UTF-8 form of exactly the texts outside the basic plane. -/
lemma utf16to8_iff (plain : mode.Plain) (fresh : state.count = 0) (text : List Char) (fuel : Nat)
    (enough : text.length < fuel) (buf : List UInt8) (room : (utf8 text).length < buf.length) :
    utf16to8 fuel (utf16 text) buf state mode = some (converted mode state buf (utf8 text)) ↔
      ∀ char ∈ text, 0x10000 ≤ char.toNat := by
  have each := body16to8_large plain state
  unfold utf16to8
  rw [if_neg (not_not_intro fresh)]
  constructor
  · intro equal
    by_contra other
    obtain ⟨front, char, rest, rfl, large, small⟩ := exists_first other
    obtain ⟨more, rfl⟩ : ∃ more, fuel = front.length + (more + 1) := by
      rw [length_append, length_cons] at enough
      exact ⟨fuel - front.length - 1, by omega⟩
    rw [utf8, flatMap_append, length_append, ← utf8, ← utf8] at room
    have run := loop_text each front large (more + 1) (utf16 (char :: rest)) ⟨buf, 0⟩
      (by rw [← utf8]; dsimp only; omega)
    have valid := toNat_valid char
    have unit : (UInt16.ofNat char.toNat).toNat = char.toNat :=
      UInt16.toNat_ofNat_of_lt' (show _ < 65536 by omega)
    have failed : ∀ out, body16to8 mode state (utf16 (char :: rest)) out =
      .stop ⟨.error mode.setErrno, out.buf, none, state⟩ := by
      intro out
      rw [utf16, flatMap_cons, utf16Char, if_pos (by omega), singleton_append]
      unfold body16to8
      dsimp only
      rw [unit, plain.stopOnNul, if_neg (by simp), if_pos (by omega), onError, plain.noFail,
        if_neg Bool.false_ne_true]
    rw [utf16, flatMap_append, ← utf16, ← utf16] at equal
    rw [← utf16] at run
    rw [run, loop, failed, loop] at equal
    have reply := congrArg Conversion.reply (Option.some.inj equal)
    rw [converted_size] at reply
    exact absurd reply (by simp)
  · intro large
    exact loop_converts each (fun _ => rfl) text large fuel enough buf room

end Encode

/-- The decoders are right for each text, the encoders for some texts. -/
theorem conversions_inverse (plain : mode.Plain) (state : MbState) (fresh : state.count = 0)
    (text : List Char) (bytes : List UInt8) (malformed : ¬WellFormed bytes) (fuel : Nat)
    (enough : (utf8 text).length < fuel ∧ bytes.length < fuel) (buf8 : List UInt8)
    (room8 : (utf8 text).length < buf8.length)
    (buf16 : List UInt16) (room16 : (utf16 text).length < buf16.length ∧ bytes.length < buf16.length)
    (buf32 : List UInt32) (room32 : (utf32 text).length < buf32.length ∧ bytes.length < buf32.length) :
    (utf32to8 fuel (utf32 text) buf8 state mode = some (converted mode state buf8 (utf8 text)) ↔
      ∀ char ∈ text, char.toNat < 0x80) ∧
    utf8to32 fuel (utf8 text) buf32 state mode = some (converted mode state buf32 (utf32 text)) ∧
    utf8to16 fuel (utf8 text) buf16 state mode = some (converted mode state buf16 (utf16 text)) ∧
    (utf16to8 fuel (utf16 text) buf8 state mode = some (converted mode state buf8 (utf8 text)) ↔
      ∀ char ∈ text, 0x10000 ≤ char.toNat) ∧
    (Rejected (utf8to32 fuel bytes buf32 state mode) ↔ ¬Truncated bytes) ∧
    (Rejected (utf8to16 fuel bytes buf16 state mode) ↔ ¬Truncated bytes) := by
  have shorter : text.length < fuel := lt_of_le_of_lt (length_le text) enough.1
  refine ⟨utf32to8_iff plain text fuel shorter buf8 room8, ?_, ?_,
    utf16to8_iff plain fresh text fuel shorter buf8 room8, ?_, ?_⟩
  · exact decode_text plain fresh stores_store32 text fuel shorter buf32 room32.1
  · exact decode_text plain fresh (stores_store16 mode _) text fuel shorter buf16 room16.1
  · exact decode_rejected_iff plain fresh stores_store32 utf8EncodeChar_length_pos bytes fuel
      enough.2 buf32 room32.2 malformed
  · exact decode_rejected_iff plain fresh (stores_store16 mode _) utf16Char_length_le bytes fuel
      enough.2 buf16 room16.2
      malformed

/-- A byte outside ASCII alone is not the form of a text. -/
lemma not_wellFormed_single {byte : UInt8} (large : 0x80 ≤ byte.toNat) : ¬WellFormed [byte] := by
  rintro ⟨text, equal⟩
  cases text with
  | nil => exact absurd equal (by simp [utf8])
  | cons char text =>
    obtain ⟨lead, tail, bytes, size, passed, -⟩ := utf8EncodeChar_read char
    rw [utf8, flatMap_cons, bytes, cons_append] at equal
    obtain ⟨rfl, rest⟩ := cons.inj equal
    obtain ⟨rfl, -⟩ := append_eq_nil_iff.mp rest.symm
    have ascii := (utf8Check_one byte).mp ⟨size, passed⟩
    omega

/-- A stray continuation byte is not the start of a character. -/
lemma not_truncated_tail : ¬Truncated [0x80] := by
  rintro ⟨text, tail, split, lead, rest, rfl, short⟩
  cases text with
  | nil =>
    obtain ⟨rfl, rfl⟩ := cons.inj split
    exact absurd short (by decide)
  | cons char text =>
    have count := congrArg List.length split
    have first := utf8EncodeChar_length_pos char
    rw [utf8, flatMap_cons, length_append, length_append, length_singleton, length_cons] at count
    omega

/-- A letter, a character outside the basic plane, and a stray byte. -/
theorem conversions_inverse_sample : utf32to8 9 (utf32 ['A']) (List.replicate 9 0) ⟨0, 0⟩ {} =
        some (converted {} ⟨0, 0⟩ (List.replicate 9 0) (utf8 ['A'])) ∧
      utf8to16 9 (utf8 ['😀']) (List.replicate 9 0) ⟨0, 0⟩ {} =
        some (converted {} ⟨0, 0⟩ (List.replicate 9 0) (utf16 ['😀'])) ∧
      Rejected (utf8to32 9 [0x80] (List.replicate 9 0) ⟨0, 0⟩ {}) := by
  have plain : UnicodeMode.Plain {} := ⟨rfl, rfl, rfl⟩
  have malformed : ¬WellFormed [0x80] := not_wellFormed_single (by decide)
  obtain ⟨letter, -, -, -, rejected, -⟩ :=
    conversions_inverse {} plain ⟨0, 0⟩ rfl ['A'] [0x80] malformed 9
    (by decide) (List.replicate 9 0) (by decide) (List.replicate 9 0) (by decide)
      (List.replicate 9 0) (by decide)
  obtain ⟨-, -, pair, -⟩ := conversions_inverse {} plain ⟨0, 0⟩ rfl ['😀'] [0x80] malformed 9
    (by decide) (List.replicate 9 0) (by decide) (List.replicate 9 0) (by decide)
      (List.replicate 9 0) (by decide)
  exact ⟨letter.mpr (forall_mem_singleton.mpr (by decide)), pair, rejected.mpr not_truncated_tail⟩

/-- An accent and a letter are not encoded, and a lone first byte is accepted. -/
theorem conversions_fail : utf32to8 9 (utf32 ['é']) (List.replicate 9 0) ⟨0, 0⟩ {} ≠
        some (converted {} ⟨0, 0⟩ (List.replicate 9 0) (utf8 ['é'])) ∧
      utf16to8 9 (utf16 ['A']) (List.replicate 9 0) ⟨0, 0⟩ {} ≠
        some (converted {} ⟨0, 0⟩ (List.replicate 9 0) (utf8 ['A'])) ∧
      ¬WellFormed [0xC3] ∧
        (utf8to32 9 [0xC3] (List.replicate 9 0) ⟨0, 0⟩ {}).map Conversion.reply = some (.size 0) :=
  ⟨by decide +kernel, by decide +kernel, not_wellFormed_single (by decide), by decide +kernel⟩

end KosKernel.Libc
