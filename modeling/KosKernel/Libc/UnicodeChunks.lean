import KosKernel.Libc.UnicodeText

namespace KosKernel.Libc
open Utf List
variable {β : Type}

/-- The mode `UNICODE_F_NOZEROTERM | UNICODE_F_UPDATESRC`. -/
def chunkMode : UnicodeMode := { noZeroTerm := true, updateSrc := true }

lemma chunkMode_plain : chunkMode.Plain := ⟨rfl, rfl, rfl⟩

/-- Each chunk has its own buffer. What a call leaves of its input comes before the next chunk. -/
def convertChunks (convert : List UInt8 → List β → MbState → Option (Conversion UInt8 β)) :
    List (List UInt8 × List β) → List UInt8 → MbState → Option (List β × List UInt8 × MbState)
  | [], left, state => some ([], left, state)
  | (chunk, buf) :: chunks, left, state => (convert (left ++ chunk) buf state).bind fun result =>
    match result.reply, result.src with
    | .size units, some left =>
      (convertChunks convert chunks left result.state).map fun (text, rest) =>
        (result.buf.take units ++ text, rest)
    | _, _ => none

/-- The chunks give the text of the whole string and leave no input and an empty state. -/
def Seamless (convert : List UInt8 → List β → MbState → Option (Conversion UInt8 β))
    (chunks : List (List UInt8 × List β)) (buf : List β) (state : MbState) : Prop :=
  ∃ whole size final, convert (chunks.map Prod.fst).flatten buf state = some whole ∧
    whole.reply = .size size ∧
    convertChunks convert chunks [] state = some (whole.buf.take size, [], final) ∧ final.count = 0

variable [OfNat β 0] [OfNat β 0x3F] {store : MbState → Target β → Nat → Nat → Stored β}
  {units : Char → List β} {fuel : Nat}
  {state : MbState}

/-- A call of a decoder. -/
def decoder (store : MbState → Target β → Nat → Nat → Stored β) (fuel : Nat)
    (bytes : List UInt8) (buf : List β) (state : MbState) : Option (Conversion UInt8 β) :=
  decode (store state) chunkMode state fuel bytes buf

section
variable (stores : ∀ state, Stores (store state) units)
  (few : ∀ char, (units char).length ≤ (String.utf8EncodeChar char).length) (fresh : state.count = 0)
include stores few fresh

/-- A call with the bytes of a text. -/
lemma decoder_text (text : List Char) (buf : List β) (enough : (utf8 text).length < fuel)
    (room : (utf8 text).length < buf.length) :
    decoder store fuel (utf8 text) buf state =
      some ⟨.size (text.flatMap units).length,
        text.flatMap units ++ buf.drop (text.flatMap units).length, some [], state⟩ :=
  decode_text chunkMode_plain fresh (stores state) text fuel ((length_le text).trans_lt enough) buf
    ((flatMap_length_le few text).trans_lt room)

variable (chunks : List (List UInt8 × List β))

/-- Chunks of whole characters give their texts one after another. -/
lemma convertChunks_text (wellFormed : ∀ chunk ∈ chunks, WellFormed chunk.1)
    (fits : ∀ chunk ∈ chunks, chunk.1.length < fuel ∧ chunk.1.length < chunk.2.length) :
    ∃ text, (chunks.map Prod.fst).flatten = utf8 text ∧
      convertChunks (decoder store fuel) chunks [] state = some (text.flatMap units, [], state) := by
  induction chunks with
  | nil => exact ⟨[], rfl, rfl⟩
  | cons chunk chunks ih =>
    obtain ⟨⟨front, bytes⟩, others⟩ := forall_mem_cons.mp wellFormed
    obtain ⟨⟨enough, room⟩, rest⟩ := forall_mem_cons.mp fits
    obtain ⟨back, joined, run⟩ := ih others rest
    rw [bytes] at enough room
    refine ⟨front ++ back, ?_, ?_⟩
    · rw [map_cons, flatten_cons, bytes, joined, utf8, utf8, utf8, flatMap_append]
    · rw [convertChunks, nil_append, bytes, decoder_text stores few fresh front chunk.2 enough room,
        Option.bind_some]
      dsimp only
      rw [run, Option.map_some, take_left, flatMap_append]

lemma seamless (buf : List β) (wellFormed : ∀ chunk ∈ chunks, WellFormed chunk.1)
    (enough : (chunks.map Prod.fst).flatten.length < fuel)
    (room : (chunks.map Prod.fst).flatten.length < buf.length)
    (rooms : ∀ chunk ∈ chunks, chunk.1.length < chunk.2.length) :
      Seamless (decoder store fuel) chunks buf state := by
  have fits : ∀ chunk ∈ chunks, chunk.1.length < fuel ∧ chunk.1.length < chunk.2.length :=
    fun chunk mem =>
    ⟨(sublist_flatten_of_mem (mem_map_of_mem mem)).length_le.trans_lt enough, rooms chunk mem⟩
  obtain ⟨text, joined, run⟩ := convertChunks_text stores few fresh chunks wellFormed fits
  rw [joined] at enough room
  refine ⟨_, _, state, joined ▸ decoder_text stores few fresh text buf enough room, rfl, ?_, fresh⟩
  rw [run, take_left]

end

/-- The value that the switches read is bounded, whatever the bytes are. -/
lemma readChar_le (byte : UInt8) (bytes : List UInt8) (ch : Nat) :
    readChar (byte :: bytes) ch ≤ (ch + 260) * 64 ^ bytes.length := by
  induction bytes generalizing byte ch with
  | nil =>
    have small := byte.toNat_lt
    have less := Nat.mod_le (ch + byte.toNat) (2 ^ 32)
    rw [readChar, length_nil]
    omega
  | cons next rest ih =>
    have small := byte.toNat_lt
    have less := Nat.mod_le ((ch + byte.toNat) % 2 ^ 32 * 64) (2 ^ 32)
    have lesser := Nat.mod_le (ch + byte.toNat) (2 ^ 32)
    change readChar (next :: rest) _ ≤ _
    rw [length_cons, pow_succ' 64, ← Nat.mul_assoc]
    exact (ih next _).trans (Nat.mul_le_mul_right _ (by omega))

/-- A character that is cut off and continued is smaller than the offset of its size. -/
lemma readChar_cut (lead : UInt8) (rest : List UInt8) (byte : UInt8) (more : List UInt8) :
    readChar (byte :: more) (readChar (lead :: rest) 0) ≤
      (lead.toNat + 265) * 64 ^ (rest.length + more.length) := by
  have saved : readChar (lead :: rest) 0 ≤ (lead.toNat + 5) * 64 ^ rest.length := by
    cases rest with
    | nil =>
      have less := Nat.mod_le (0 + lead.toNat) (2 ^ 32)
      rw [readChar, length_nil]
      omega
    | cons second rest =>
      have less := Nat.mod_le ((0 + lead.toNat) % 2 ^ 32 * 64) (2 ^ 32)
      have lesser := Nat.mod_le (0 + lead.toNat) (2 ^ 32)
      change readChar (second :: rest) _ ≤ _
      rw [length_cons, pow_succ' 64, ← Nat.mul_assoc]
      exact (readChar_le second rest _).trans (Nat.mul_le_mul_right _ (by omega))
  have positive : 0 < 64 ^ rest.length := Nat.pow_pos (by decide)
  rw [Nat.pow_add, ← Nat.mul_assoc]
  refine (readChar_le byte more _).trans (Nat.mul_le_mul_right _ ?_)
  rw [show lead.toNat + 265 = lead.toNat + 5 + 260 from rfl, Nat.add_mul]
  omega

section Cut
variable {lead : UInt8} {rest : List UInt8} (short : rest.length < utf8TrailingBytes lead)
include short

/-- The counts that a cut off character leaves. -/
lemma cut_counts (state : MbState) :
    (state.cut lead rest).missing = utf8TrailingBytes lead - rest.length ∧
    (state.cut lead rest).srcSize = utf8TrailingBytes lead ∧ (state.cut lead rest).count ≠ 0 := by
  have table : ∀ missing < 6, ∀ size < 6, (missing ||| size <<< 16) % 256 = missing ∧
      (missing ||| size <<< 16) / 2 ^ 16 % 256 = size := by decide
  have bound : utf8TrailingBytes lead < 6 := by
    unfold utf8TrailingBytes
    repeat' split
    all_goals omega
  obtain ⟨missing, size⟩ := table (utf8TrailingBytes lead - rest.length) (by omega) _ bound
  refine ⟨missing, size, fun none => ?_⟩
  change (utf8TrailingBytes lead - rest.length) ||| utf8TrailingBytes lead <<< 16 = 0 at none
  rw [none] at missing
  omega

/-- A character of at most four bytes that is cut off and continued wraps around behind the last
character. -/
lemma cut_wraps (small : utf8TrailingBytes lead ≤ 3) {bytes : List UInt8}
    (size : bytes.length = utf8TrailingBytes lead - rest.length) :
    0x10FFFF < (readChar bytes (readChar (lead :: rest) 0) + 2 ^
      32 - utf8Offsets.getD (utf8TrailingBytes lead) 0) % 2 ^ 32 := by
  cases bytes with
  | nil =>
    rw [length_nil] at size
    omega
  | cons byte more =>
    rw [length_cons] at size
    have value := readChar_cut lead rest byte more
    rw [show rest.length + more.length = utf8TrailingBytes lead - 1 by omega] at value
    have sizes : utf8TrailingBytes lead = 1 ∧ lead.toNat < 0xE0 ∨ utf8TrailingBytes lead = 2 ∧
      lead.toNat < 0xF0 ∨
        utf8TrailingBytes lead = 3 ∧ lead.toNat < 0xF8 := by
      generalize table : utf8TrailingBytes lead = count at short small
      unfold utf8TrailingBytes at table
      repeat' split at table
      all_goals omega
    have below : readChar (byte :: more) (readChar (lead :: rest) 0) <
      utf8Offsets.getD (utf8TrailingBytes lead) 0 ∧
        utf8Offsets.getD (utf8TrailingBytes lead) 0 ≤ 0x03C82080 := by
      rcases sizes with ⟨size, less⟩ | ⟨size, less⟩ | ⟨size, less⟩ <;> rw [size] at value ⊢ <;>
        exact ⟨lt_of_le_of_lt value (by simp only [utf8Offsets,
          getD_cons_succ, getD_cons_zero]; omega), by decide⟩
    rw [Nat.mod_eq_of_lt (by omega)]
    omega

end Cut

lemma utf8Check_long {bytes : List UInt8} (long : 4 < bytes.length) : utf8Check bytes = false := by
  obtain _ | ⟨_, _ | ⟨_, _ | ⟨_, _ | ⟨_, _ | ⟨_, _⟩⟩⟩⟩⟩ := bytes <;> simp_all [utf8Check]
section Resume
variable (refuses : ∀ state out ch size, 0x10FFFF < ch → store state out ch size = .illegal)

include refuses in
/-- A character of at most four bytes that is cut off is not continued. -/
lemma decoder_resumed (state : MbState) {lead : UInt8} {rest : List UInt8}
    (short : rest.length < utf8TrailingBytes lead)
    (small : utf8TrailingBytes lead ≤ 3) {bytes : List UInt8} (buf : List β)
    (enough : (state.cut lead rest).missing ≤ bytes.length) :
    Rejected (decoder store fuel bytes buf (state.cut lead rest)) := by
  obtain ⟨missing, size, some⟩ := cut_counts short state
  rw [missing] at enough
  have wraps := cut_wraps short small (length_take_of_le enough)
  rw [decoder, decode, if_pos some, missing, if_neg (Nat.not_lt.mpr enough), size]
  dsimp only
  rw [if_pos (by omega), gotChar, show (state.cut lead rest).wch = readChar (lead :: rest) 0
    from rfl, refuses _ _ _ _ wraps]
  change Rejected (loop _ fuel (onError chunkMode _ _ _))
  rw [onError, chunkMode_plain.noFail, if_neg Bool.false_ne_true, loop]
  exact ⟨_, _, rfl, rfl⟩

/-- If it is never continued with success, a character stays cut off. -/
lemma convertChunks_stuck (cut : state.count ≠ 0) (chunks : List (List UInt8 × List β))
    (left : List UInt8) (refused : state.missing ≤ (left ++ (chunks.map Prod.fst).flatten).length →
      ∀ bytes buf, state.missing ≤ bytes.length → Rejected (decoder store fuel bytes buf state))
    {text : List β} {rest : List UInt8} {final : MbState}
    (ends : convertChunks (decoder store fuel) chunks left state = some (text, rest, final)) :
      final.count ≠ 0 := by
  induction chunks generalizing left text with
  | nil =>
    cases ends
    exact cut
  | cons chunk chunks ih =>
    rw [convertChunks] at ends
    rw [map_cons, flatten_cons, ← append_assoc] at refused
    by_cases few : (left ++ chunk.1).length < state.missing
    · rw [decoder, decode, if_pos cut, if_pos few] at ends
      obtain ⟨⟨later, others⟩, ends, same⟩ := Option.map_eq_some_iff.mp ends
      cases same
      exact ih (left ++ chunk.1) refused ends
    · rw [length_append] at refused
      obtain ⟨conversion, errno, run, reply⟩ := refused (by omega) _ chunk.2 (Nat.not_lt.mp few)
      rw [run, Option.bind_some, reply] at ends
      cases ends

variable (stores : ∀ state, Stores (store state) units)
  (few : ∀ char, (units char).length ≤ (String.utf8EncodeChar char).length) (fresh : state.count = 0)
include refuses stores few fresh

/-- If no character stays cut off and the whole string is legal, each chunk is well-formed. -/
lemma wellFormed_of_ends (chunks : List (List UInt8 × List β))
    (fits : ∀ chunk ∈ chunks, chunk.1.length < fuel ∧ chunk.1.length < chunk.2.length)
    (whole : ∀ text tail, (chunks.map Prod.fst).flatten = utf8 text ++ tail → ¬Illegal tail)
    {text : List β}
    {final : MbState} (ends : convertChunks (decoder store fuel) chunks [] state =
      some (text, [], final))
    (empty : final.count = 0) : ∀ chunk ∈ chunks, WellFormed chunk.1 := by
  induction chunks generalizing text with
  | nil => exact fun chunk mem => nomatch mem
  | cons chunk chunks ih =>
    obtain ⟨bytes, buf⟩ := chunk
    obtain ⟨⟨enough, room⟩, rest⟩ := forall_mem_cons.mp fits
    rw [map_cons, flatten_cons] at whole
    rw [convertChunks, nil_append] at ends
    obtain ⟨front, tail, rfl, none | ⟨lead, part, rfl, short⟩ | illegal⟩ := utf8_split bytes
    · -- The chunk ends with a character.
      subst none
      rw [append_nil] at ends enough room whole ⊢
      rw [decoder_text stores few fresh front buf enough room, Option.bind_some] at ends
      obtain ⟨⟨later, others⟩, ends, same⟩ := Option.map_eq_some_iff.mp ends
      cases same
      refine forall_mem_cons.mpr ⟨⟨front, rfl⟩,
        ih rest (fun text tail joined => whole (front ++ text) tail ?_) ends⟩
      rw [joined, utf8, utf8, utf8, flatMap_append, append_assoc]
    · -- The chunk ends inside of a character.
      obtain ⟨more, out, run⟩ := decode_behind chunkMode_plain fresh (stores state) few front
        (lead :: part) enough room
      rw [decoder, run, decodeBody_incomplete chunkMode_plain short, loop] at ends
      obtain ⟨⟨later, others⟩, ends, same⟩ := Option.map_eq_some_iff.mp ends
      cases same
      refine absurd empty (convertChunks_stuck (cut_counts short state).2.2 chunks []
        (fun reached bytes buf many => ?_) ends)
      by_cases small : utf8TrailingBytes lead ≤ 3
      · exact decoder_resumed refuses state short small buf many
      · rw [(cut_counts short state).1, nil_append] at reached
        have illegal : Illegal (lead :: (part ++ (chunks.map Prod.fst).flatten)) := by
          refine ⟨lead, _, rfl, ?_, utf8Check_long ?_⟩
          · rw [length_append]
            omega
          · rw [length_take, length_cons, length_append]
            omega
        exact absurd illegal (whole front _ (append_assoc _ _ _))
    · obtain ⟨more, out, run⟩ := decode_behind chunkMode_plain fresh (stores state) few front
        tail enough room
      obtain ⟨conversion, errno, stopped, reply⟩ := decodeBody_illegal chunkMode_plain illegal out
      rw [decoder, run, stopped, loop, Option.bind_some, reply] at ends
      cases ends

/-- Chunks that give the text of the whole string are well-formed. -/
lemma wellFormed_of_seamless (chunks : List (List UInt8 × List β)) {buf : List β}
    (enough : (chunks.map Prod.fst).flatten.length < fuel)
    (room : (chunks.map Prod.fst).flatten.length < buf.length)
    (rooms : ∀ chunk ∈ chunks, chunk.1.length < chunk.2.length)
    (seamless : Seamless (decoder store fuel) chunks buf state) :
    ∀ chunk ∈ chunks, WellFormed chunk.1 := by
  obtain ⟨whole, size, final, converted, reply, ends, empty⟩ := seamless
  refine wellFormed_of_ends refuses stores few fresh chunks (fun chunk mem => ?_)
    (fun text tail joined illegal => ?_) ends empty
  · exact ⟨(sublist_flatten_of_mem (mem_map_of_mem mem)).length_le.trans_lt enough, rooms chunk mem⟩
  · rw [joined] at enough room converted
    obtain ⟨more, out, run⟩ := decode_behind chunkMode_plain fresh (stores state) few text
      tail enough room
    obtain ⟨conversion, errno, stopped, error⟩ := decodeBody_illegal chunkMode_plain illegal out
    rw [decoder, run, stopped, loop] at converted
    rw [Option.some.inj converted, reply] at error
    cases error

end Resume

/-- The chunks give the text of the whole string exactly if each of them is well-formed. -/
theorem chunks_invisible_iff (fuel : Nat) (state : MbState) (fresh : state.count = 0)
    (chunks32 : List (List UInt8 × List UInt32)) (buf32 : List UInt32)
    (chunks16 : List (List UInt8 × List UInt16)) (buf16 : List UInt16)
    (enough32 : (chunks32.map Prod.fst).flatten.length < fuel)
    (enough16 : (chunks16.map Prod.fst).flatten.length < fuel)
    (room32 : (chunks32.map Prod.fst).flatten.length < buf32.length ∧ ∀ chunk ∈ chunks32,
      chunk.1.length < chunk.2.length)
    (room16 : (chunks16.map Prod.fst).flatten.length < buf16.length ∧ ∀ chunk ∈ chunks16,
      chunk.1.length < chunk.2.length) :
    (Seamless (fun bytes buf state => utf8to32 fuel bytes buf state chunkMode) chunks32 buf32 state ↔
      ∀ chunk ∈ chunks32, WellFormed chunk.1) ∧
    (Seamless (fun bytes buf state => utf8to16 fuel bytes buf state chunkMode) chunks16 buf16 state ↔
      ∀ chunk ∈ chunks16, WellFormed chunk.1) := by
  have refuses32 : ∀ (_ : MbState) out ch (_ : Nat), 0x10FFFF < ch → store32 out ch = .illegal :=
    fun _ _ _ _ large => if_pos large
  have refuses16 : ∀ (state : MbState) out ch size, 0x10FFFF < ch →
      store16 chunkMode { state with count := 0 } out ch size = .illegal := by
    intro state out ch size large
    rw [store16, if_neg (by omega), if_pos large]
  exact ⟨⟨wellFormed_of_seamless refuses32 (fun _ => stores_store32) utf8EncodeChar_length_pos fresh
    chunks32 enough32 room32.1
        room32.2, fun wellFormed =>
      seamless (fun _ => stores_store32) utf8EncodeChar_length_pos fresh chunks32 buf32 wellFormed
        enough32 room32.1 room32.2⟩,
    ⟨wellFormed_of_seamless refuses16 (fun _ => stores_store16 chunkMode _) utf16Char_length_le
      fresh chunks16 enough16 room16.1
        room16.2, fun wellFormed =>
      seamless (fun _ => stores_store16 chunkMode _) utf16Char_length_le fresh chunks16 buf16
        wellFormed enough16 room16.1
        room16.2⟩⟩

/-- Chunks of whole characters, and a character in two chunks. -/
theorem chunks_invisible_two :
    Seamless (fun bytes buf state => utf8to32 9 bytes buf state chunkMode)
        [([0x41], [0, 0]), ([0xC3, 0xA9], [0, 0, 0])] [0, 0, 0, 0] ⟨0, 0⟩ ∧
      ¬Seamless (fun bytes buf state => utf8to16 9 bytes buf state chunkMode)
        [([0xC3], [0, 0]), ([0xA9, 0x41], [0, 0, 0])] [0, 0, 0, 0] ⟨0, 0⟩ := by
  have first : WellFormed [0x41] := ⟨['A'], by decide +kernel⟩
  have second : WellFormed [0xC3, 0xA9] := ⟨['é'], by decide +kernel⟩
  obtain ⟨seamless, cut⟩ := chunks_invisible_iff 9 ⟨0, 0⟩ rfl
    [([0x41], [0, 0]), ([0xC3, 0xA9], [0, 0, 0])] [0, 0, 0, 0]
    [([0xC3], [0, 0]), ([0xA9, 0x41], [0, 0, 0])] [0, 0, 0, 0]
    (by decide) (by decide) (by decide) (by decide)
  refine ⟨seamless.mpr (by simp [first, second]), cut.not.mpr fun wellFormed => ?_⟩
  exact not_wellFormed_single (by decide) (wellFormed _ mem_cons_self)

/-- The two bytes of a character in two chunks are refused. -/
theorem chunks_visible :
    convertChunks (fun bytes buf state => utf8to32 9 bytes buf state chunkMode)
      [([0xC3], [0, 0]), ([0xA9], [0, 0])] [] ⟨0, 0⟩ = none := by
  decide +kernel

end KosKernel.Libc
