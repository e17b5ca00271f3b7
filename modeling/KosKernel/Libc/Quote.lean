/- This file embeds `libc_format_quote` from `libs/libc/format-printer.c`, for a printer that
accepts everything. -/

import Mathlib.Data.List.Basic

namespace KosKernel.Libc

/-- The flags `FORMAT_QUOTE_FLAG_*`. -/
structure QuoteFlags where
  printRaw : Bool
  forceHex : Bool
  forceOct : Bool
  noCtrl : Bool
  noAscii : Bool
  upperHex : Bool

/-- The two rows of the table `decimals`. -/
def decimals : Bool → List Char
  | false => ['0', '1', '2', '3', '4', '5', '6', '7', '8', '9', 'a', 'b', 'c', 'd', 'e', 'f', 'x']
  | true => ['0', '1', '2', '3', '4', '5', '6', '7', '8', '9', 'A', 'B', 'C', 'D', 'E', 'F', 'X']

/-- The characters that `special_control` encodes by a letter or by themselves. -/
def specialControl : List (UInt8 × Char) :=
  [(7, 'a'), (8, 'b'), (12, 'f'), (10, 'n'), (13, 'r'), (9, 't'), (11, 'v'), (27, 'e'), (92, '\\'),
    (39, '\''), (34, '"')]

def tooct (digit : UInt8) : UInt8 := 48 + digit

/-- This is `encode_oct`. -/
def encodeOct (ch : UInt8) : List UInt8 :=
  if ch ≤ 0x07 then [tooct (ch &&& 0x07)]
  else if ch ≤ 0x38 then [tooct ((ch &&& 0x38) >>> 3), tooct (ch &&& 0x07)]
  else [tooct ((ch &&& 0xC0) >>> 6), tooct ((ch &&& 0x38) >>> 3), tooct (ch &&& 0x07)]

/-- This is `encode_hex`. -/
def encodeHex (upperHex : Bool) (ch : UInt8) : List UInt8 :=
  let cHex (digit : UInt8) := ((decimals !upperHex).getD digit.toNat '0').toUInt8
  if ch ≤ 0xf then ['x'.toUInt8, cHex ch] else ['x'.toUInt8, cHex ((ch &&& 0xf0) >>> 4),
    cHex (ch &&& 0xf)]

variable (flags : QuoteFlags)

/-- The text behind the backslash for a character that needs special encoding. -/
def encodedText (ch : UInt8) : List UInt8 :=
  match if flags.noCtrl then none else specialControl.lookup ch with
  | some letter => [letter.toUInt8]
  | none =>
    if ch < 32 then if flags.forceHex then encodeHex flags.upperHex ch else encodeOct ch
    else if flags.forceOct then encodeOct ch else encodeHex flags.upperHex ch

/-- The loop of `libc_format_quote`. The text from `flush_start` on is not printed yet. -/
def quoteLoop (flags : QuoteFlags) (unflushed : List UInt8) : List UInt8 → List UInt8
  | [] => unflushed
  | ch :: text =>
    if ch < 32 ∨ 127 ≤ ch ∨ ch = 39 ∨ ch = 34 ∨ ch = 92 ∨ flags.noAscii then
      unflushed ++ (92 :: encodedText flags ch) ++ quoteLoop flags [] text
    else quoteLoop flags (unflushed ++ [ch]) text

/-- This is `libc_format_quote`. -/
def formatQuote (text : List UInt8) : List UInt8 :=
  if flags.printRaw then quoteLoop flags [] text else 34 :: (quoteLoop flags [] text ++ [34])

/-- The character of an encoded text. -/
def decodeText : List UInt8 → UInt8
  | [] => 0
  | first :: digits =>
    if first = 120 then
      digits.foldl (fun value digit => value * 16 + (digit &&& 15) + if digit ≤ 57 then 0 else 9) 0
    else if first ≤ 55 ∧ 48 ≤ first then (first :: digits).foldl
      (fun value digit => value * 8 + (digit &&& 7)) 0
    else ((specialControl.find? fun pair => pair.2.toUInt8 == first).map Prod.fst).getD 0

/-- An encoded text has no backslash behind its first character and determines the character. -/
def Encodes (ch : UInt8) (text : List UInt8) : Prop := text ≠ [] ∧ 92 ∉ text.tail ∧ decodeText text = ch

instance (ch : UInt8) (text : List UInt8) : Decidable (Encodes ch text) :=
  inferInstanceAs (Decidable (_ ∧ _))

lemma encoders_encode : ∀ ch : Fin 256, ∀ text ∈ encodeOct (.ofFin ch) :: encodeHex true (.ofFin ch) ::
    encodeHex false (.ofFin ch) :: ((specialControl.lookup (.ofFin ch)).map fun letter =>
      [letter.toUInt8]).toList,
    Encodes (.ofFin ch) text := by
  decide +kernel

lemma encodedText_encodes (ch : UInt8) : Encodes ch (encodedText flags ch) := by
  refine encoders_encode ch.toFin _ ?_
  rw [UInt8.ofFin_toFin]
  cases found : specialControl.lookup ch <;> cases upper : flags.upperHex <;>
    simp only [encodedText, found, upper] <;> split_ifs <;> simp

/-- The first text ends where the other one ends if a stop character follows. -/
lemma append_nil_of_stop {stop : UInt8} {more rest : List UInt8} (clean : stop ∉ more)
    (stops : ∀ first ∈ (more ++ rest).head?, first = stop) : more = [] := by
  cases more with
  | nil => rfl
  | cons first more => exact absurd (stops first rfl ▸ List.mem_cons_self) clean

lemma append_cancel {stop : UInt8} {one two first second : List UInt8} (clean : stop ∉ one)
    (clean' : stop ∉ two)
    (stops : ∀ char ∈ first.head?, char = stop) (stops' : ∀ char ∈ second.head?, char = stop)
    (equal : one ++ first = two ++ second) : one = two ∧ first = second := by
  obtain ⟨more, rfl, rfl⟩ | ⟨more, rfl, rfl⟩ := List.append_eq_append_iff.mp equal
  · obtain rfl := append_nil_of_stop (fun inside => clean' (List.mem_append_right one inside)) stops
    simp
  · obtain rfl := append_nil_of_stop (fun inside => clean (List.mem_append_right two inside)) stops'
    simp

section
variable {flags : QuoteFlags} (all : flags.noAscii = true)
include all

lemma quoteLoop_cons (ch : UInt8) (text : List UInt8) :
    quoteLoop flags [] (ch :: text) = 92 :: (encodedText flags ch ++ quoteLoop flags [] text) := by
  rw [quoteLoop, if_pos (by simp [all])]
  rfl

lemma quoteLoop_head (text : List UInt8) : ∀ char ∈ (quoteLoop flags [] text).head?, char = 92 := by
  cases text with
  | nil => exact fun _ none => nomatch none
  | cons ch text =>
    rw [quoteLoop_cons all]
    exact fun _ head => (Option.some.inj head).symm

/-- The texts behind the backslashes are cut apart by the next backslash. -/
lemma quoteLoop_injective : Function.Injective (quoteLoop flags []) := by
  intro text other equal
  induction text generalizing other with
  | nil =>
    cases other with
    | nil => rfl
    | cons ch other => cases equal.trans (quoteLoop_cons all ch other)
  | cons ch text ih =>
    cases other with
    | nil => cases (quoteLoop_cons all ch text).symm.trans equal
    | cons ch' other =>
      rw [quoteLoop_cons all, quoteLoop_cons all] at equal
      obtain ⟨nonempty, clean, decoded⟩ := encodedText_encodes flags ch
      obtain ⟨nonempty', clean', decoded'⟩ := encodedText_encodes flags ch'
      rw [← List.cons_head_tail nonempty, ← List.cons_head_tail nonempty'] at equal
      injection equal with _ equal
      injection equal with heads equal
      obtain ⟨tails, rests⟩ := append_cancel clean clean' (quoteLoop_head all text)
        (quoteLoop_head all other) equal
      rw [ih rests, ← decoded, ← decoded', ← List.cons_head_tail nonempty,
        ← List.cons_head_tail nonempty', heads, tails]

end

/-- A digit behind a short escape is read as a part of it. -/
lemma formatQuote_digit : ∀ raw hex oct ctrl upper : Bool,
    formatQuote ⟨raw, hex, oct, ctrl, false, upper⟩ [cond hex 1 2, 48] =
    formatQuote ⟨raw, hex, oct, ctrl, false, upper⟩ [16] := by
  decide

/-- The quoted output determines the text exactly if `FORMAT_QUOTE_FLAG_NOASCII` is set. -/
theorem formatQuote_injective_iff : Function.Injective (formatQuote flags) ↔ flags.noAscii = true := by
  constructor
  · intro injective
    obtain ⟨raw, hex, oct, ctrl, ascii, upper⟩ := flags
    cases ascii with
    | true => rfl
    | false =>
      exact absurd (injective (formatQuote_digit raw hex oct ctrl upper)) (by cases hex <;> decide)
  · intro all text other equal
    refine quoteLoop_injective all ?_
    rw [formatQuote, formatQuote] at equal
    split at equal
    · exact equal
    · exact List.append_cancel_right (List.cons.inj equal).2

theorem formatQuote_collides :
    ¬ Function.Injective (formatQuote ⟨false, false, false, false, false, false⟩) :=
  fun injective => absurd (@injective [2, 48] [16] (by decide)) (by decide)

end KosKernel.Libc
