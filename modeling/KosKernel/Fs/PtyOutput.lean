/- The output of a terminal from `kernel/fs/pty.c`, where `PTY_WRITE_BLOCKING_MODE` is `IO_BLOCKALL`. -/

import Mathlib.Data.List.TakeWhile

namespace KosKernel.Fs.PtyOutput
open List

/-- This is `iobuffer_write`, which waits until all bytes are stored or fails behind some of them. -/
def write (fails : Option Nat) (stored buf : List UInt8) : List UInt8 × Option Nat :=
  match fails with
  | none => (stored ++ buf, some buf.length)
  | some count => (stored ++ buf.take count, none)

/-- The loop of `master_s2m_write_crlf`, with the bytes from `flush_start` to `iter`. -/
def crlfLoop (sizeofSize : Nat) (fails : Nat → Option Nat) (result : Nat) (stored part : List UInt8) :
    List UInt8 → List UInt8 × Option Nat
  | [] =>
    let (stored, temp) := write (fails 0) stored part
    (stored, temp.map (result + ·))
  | ch :: rest =>
    if ch = 10 then
      match write (fails 0) stored part with
      | (stored, none) => (stored, none)
      | (stored, some temp) =>
        let result := result + temp
        if temp ≠ part.length then (stored, some result)
        else
          match write (fails 1) stored [13, 10] with
          | (stored, none) => (stored, none)
          | (stored, some temp) =>
            let result := result + temp
            if temp ≠ part.length ∨ part.length ≠ sizeofSize then (stored, some result)
            else crlfLoop sizeofSize (fun index => fails (index + 2)) result stored [] rest
    else crlfLoop sizeofSize fails result stored (part ++ [ch]) rest

/-- This is `master_s2m_write`, where `sizeof(sizeof(crlf))` is 4 or 8. -/
def masterS2mWrite (onlcr wide : Bool) (fails : Nat → Option Nat) (stored buf : List UInt8) :
    List UInt8 × Option Nat :=
  if onlcr then crlfLoop (if wide then 8 else 4) fails 0 stored [] buf else write (fails 0) stored buf

/-- Each newline is replaced by a carriage return and a newline. -/
def translated (buf : List UInt8) : List UInt8 :=
  buf.flatMap fun ch => if ch = 10 then [13, 10] else [ch]

/-- The whole input is translated and counted, or nothing is stored by a call that fails. -/
def Translates (stored buf : List UInt8) : List UInt8 × Option Nat → Prop
  | (after, some count) => after = stored ++ translated buf ∧ count = buf.length
  | (after, none) => after = stored

variable {buf line : List UInt8} (fails : Nat → Option Nat) (stored : List UInt8)

lemma crlfLoop_line (sizeofSize result : Nat) (part rest : List UInt8) (plain : 10 ∉ line) :
    crlfLoop sizeofSize fails result stored part (line ++ rest) =
      crlfLoop sizeofSize fails result stored (part ++ line) rest := by
  induction line generalizing part with
  | nil => simp
  | cons ch line ih =>
    obtain ⟨other, plain⟩ := not_or.mp (mem_cons.not.mp plain)
    rw [cons_append, crlfLoop, if_neg (Ne.symm other), ih _ plain, append_assoc, singleton_append]

lemma translated_plain (plain : 10 ∉ buf) : translated buf = buf := by
  induction buf with
  | nil => rfl
  | cons ch rest ih =>
    obtain ⟨other, plain⟩ := not_or.mp (mem_cons.not.mp plain)
    rw [translated, flatMap_cons, if_neg (Ne.symm other), ← translated, ih plain, singleton_append]

/-- The loop ends behind the first newline. -/
lemma crlfLoop_newline (wide : Bool) (rest : List UInt8) :
    crlfLoop (if wide then 8 else 4) fails 0 stored line (10 :: rest) = match fails 0, fails 1 with
      | some count, _ => (stored ++ line.take count, none)
      | none, some count => (stored ++ line ++ [13, 10].take count, none)
      | none, none => (stored ++ line ++ [13, 10], some (line.length + 2)) := by
  have ends : 2 ≠ line.length ∨ line.length ≠ if wide then 8 else 4 := by
    cases wide <;> simp only [if_true, Bool.false_eq_true, if_false] <;> omega
  rw [crlfLoop, if_pos rfl]
  cases fails 0 with
  | some count => rfl
  | none =>
    cases fails 1 with
    | some count => simp [write]
    | none => simp [write, ends]

/-- The newlines are translated exactly if there is none, or if the call fails before it stores a
byte. -/
theorem masterS2mWrite_translates_iff (wide : Bool) (fails : Nat → Option Nat)
    (stored buf : List UInt8) :
    Translates stored buf (masterS2mWrite true wide fails stored buf) ↔
      match fails 0 with
      | none => 10 ∉ buf ∨ buf.head? = some 10 ∧ fails 1 = some 0
      | some count => (buf.takeWhile (· ≠ 10)).take count = [] := by
  rw [masterS2mWrite, if_pos rfl]
  by_cases newline : 10 ∈ buf
  · obtain ⟨line, rest, rfl, plain⟩ := eq_append_cons_of_mem newline
    have before : (line ++ 10 :: rest).takeWhile (· ≠ 10) = line := by
      rw [takeWhile_append_of_pos fun ch mem => by simpa using ne_of_mem_of_not_mem mem plain]
      simp
    rw [crlfLoop_line _ _ _ _ _ _ plain, nil_append, crlfLoop_newline, before]
    cases fails 0 with
    | some count => simp [Translates]
    | none =>
      have starts : (line ++ 10 :: rest).head? = some 10 ↔ line = [] := by
        cases line with
        | nil => simp
        | cons ch line => simpa using ne_of_mem_of_not_mem mem_cons_self plain
      rw [starts, or_iff_right (not_not.mpr newline)]
      cases fails 1 with
      | some count => simp [Translates]
      | none =>
        refine iff_of_false (fun ⟨same, counted⟩ => ?_) (by simp)
        have split : translated (line ++ 10 :: rest) = line ++ ([13, 10] ++ translated rest) := by
          rw [translated, flatMap_append, ← translated, translated_plain plain]
          rfl
        rw [split, append_assoc, append_cancel_left_eq, append_cancel_left_eq,
          self_eq_append_right] at same
        cases rest with
        | nil => simp at counted
        | cons ch rest => by_cases again : ch = 10 <;> simp [translated, again] at same
  · have whole := crlfLoop_line fails stored (if wide then 8 else 4) 0 [] [] newline
    have before : buf.takeWhile (· ≠ 10) = buf :=
      takeWhile_eq_self_iff.mpr fun ch mem => by simpa using ne_of_mem_of_not_mem mem newline
    rw [append_nil, nil_append] at whole
    rw [whole, crlfLoop, before]
    cases fails 0 with
    | some count => simp [Translates, write]
    | none => simp [Translates, write, newline, translated_plain newline]

/-- One newline counts as two bytes. -/
theorem masterS2mWrite_translates_fails :
    ¬Translates [] [10] (masterS2mWrite true false (fun _ => none) [] [10]) := by
  rintro ⟨-, counted⟩
  cases counted

end KosKernel.Fs.PtyOutput
