import Mathlib.Data.List.Basic
import Mathlib.Tactic.Ring

namespace Utf
variable (text : List Char)

/-- The UTF-8 form of a text. -/
def utf8 : List UInt8 := text.flatMap String.utf8EncodeChar

variable (char : Char)

/-- The units of a character in UTF-16. -/
def utf16Char : List UInt16 :=
  if char.toNat < 0x10000 then [.ofNat char.toNat]
  else [.ofNat ((char.toNat - 0x10000) / 0x400 + 0xD800),
    .ofNat ((char.toNat - 0x10000) % 0x400 + 0xDC00)]

/-- The UTF-16 form of a text. -/
def utf16 : List UInt16 := text.flatMap utf16Char

/-- The UTF-32 form of a text. -/
def utf32 : List UInt32 := text.flatMap fun char => [char.val]

/-- The bytes are the UTF-8 form of a text. -/
def WellFormed (bytes : List UInt8) : Prop := ∃ text, bytes = utf8 text

lemma toNat_valid : char.toNat < 0xD800 ∨ 0xDFFF < char.toNat ∧ char.toNat < 0x110000 :=
  char.valid

/-- The bytes of a character by its length class. -/
lemma utf8EncodeChar_cases : (char.toNat < 0x80 ∧ String.utf8EncodeChar char = [.ofNat char.toNat]) ∨
    (0x80 ≤ char.toNat ∧ char.toNat < 0x800 ∧
      String.utf8EncodeChar char = [.ofNat (char.toNat / 64 + 0xC0), .ofNat (char.toNat % 64 + 0x80)]) ∨
    (0x800 ≤ char.toNat ∧ char.toNat < 0x10000 ∧
      String.utf8EncodeChar char = [.ofNat (char.toNat / 4096 + 0xE0),
        .ofNat (char.toNat / 64 % 64 + 0x80), .ofNat (char.toNat % 64 + 0x80)]) ∨
    (0x10000 ≤ char.toNat ∧ char.toNat < 0x110000 ∧
      String.utf8EncodeChar char = [.ofNat (char.toNat / 262144 + 0xF0),
        .ofNat (char.toNat / 4096 % 64 + 0x80),
        .ofNat (char.toNat / 64 % 64 + 0x80), .ofNat (char.toNat % 64 + 0x80)]) := by
  have valid := toNat_valid char
  have value : char.val.toNat = char.toNat := rfl
  simp only [String.utf8EncodeChar, value]
  by_cases one : char.toNat ≤ 127
  · exact .inl ⟨by omega, if_pos one⟩
  rw [if_neg one]
  by_cases two : char.toNat ≤ 2047
  · rw [if_pos two, Nat.mod_eq_of_lt (show char.toNat / 64 < 32 by omega)]
    exact .inr (.inl ⟨by omega, by omega, rfl⟩)
  rw [if_neg two]
  by_cases three : char.toNat ≤ 65535
  · rw [if_pos three, Nat.mod_eq_of_lt (show char.toNat / 4096 < 16 by omega)]
    exact .inr (.inr (.inl ⟨by omega, by omega, rfl⟩))
  · rw [if_neg three, Nat.mod_eq_of_lt (show char.toNat / 262144 < 8 by omega)]
    exact .inr (.inr (.inr ⟨by omega, by omega, rfl⟩))

/-- The bytes of a character outside the basic plane. -/
lemma utf8EncodeChar_large {char : Char} (large : 0x10000 ≤ char.toNat) :
    String.utf8EncodeChar char = [.ofNat (char.toNat / 262144 + 0xF0),
      .ofNat (char.toNat / 4096 % 64 + 0x80),
      .ofNat (char.toNat / 64 % 64 + 0x80), .ofNat (char.toNat % 64 + 0x80)] := by
  obtain ⟨small, -⟩ | ⟨-, small, -⟩ | ⟨-, small, -⟩ | ⟨-, -, equal⟩ := utf8EncodeChar_cases char
  · omega
  · omega
  · omega
  · exact equal

/-- The character with the given value. -/
lemma exists_char (value : Nat) (valid : value < 0xD800 ∨ 0xDFFF < value ∧ value < 0x110000) :
    ∃ char : Char, char.toNat = value :=
  ⟨Char.ofNatAux value valid, rfl⟩

lemma utf8EncodeChar_length_pos : 0 < (String.utf8EncodeChar char).length := by
  obtain ⟨-, equal⟩ | ⟨-, -, equal⟩ | ⟨-, -, equal⟩ | ⟨-, -, equal⟩ :=
    utf8EncodeChar_cases char <;> rw [equal] <;> simp

/-- The other forms have at most as many units as the UTF-8 form. -/
lemma utf16Char_length_le : (utf16Char char).length ≤ (String.utf8EncodeChar char).length := by
  obtain ⟨small, equal⟩ | ⟨-, small, equal⟩ | ⟨-, small, equal⟩ | ⟨large, -, equal⟩ :=
    utf8EncodeChar_cases char
  · rw [equal, utf16Char, if_pos (by omega)]
    simp
  · rw [equal, utf16Char, if_pos (by omega)]
    simp
  · rw [equal, utf16Char, if_pos small]
    simp
  · rw [equal, utf16Char, if_neg (by omega)]
    simp

/-- A form that needs no more units for a character needs no more for a text. -/
lemma flatMap_length_le {α β : Type} {first : Char → List α} {second : Char → List β}
    (each : ∀ char, (first char).length ≤ (second char).length) (text : List Char) :
    (text.flatMap first).length ≤ (text.flatMap second).length := by
  induction text with
  | nil => rfl
  | cons char rest ih =>
    rw [List.flatMap_cons, List.flatMap_cons, List.length_append, List.length_append]
    exact Nat.add_le_add (each char) ih

lemma utf32_length_le : (utf32 text).length ≤ (utf8 text).length := by
  apply flatMap_length_le
  intro char
  exact utf8EncodeChar_length_pos char

lemma length_le : text.length ≤ (utf8 text).length := by
  have bound := utf32_length_le text
  simpa [utf32] using bound

end Utf
