import GradualTypes.Proofs.DecimalTexts
import GradualTypes.Proofs.Spelling
import GradualTypes.Render

/-!
# Reading quoted texts and keys

A quoted text is read from its opening quote on.  A backslash stands for the character behind
it, and the first quote that is not behind a backslash closes the text, so that what follows
is left as it is.

The text of a key starts with a quote if it is a quoted text, and otherwise with a digit or a
minus if it is an integer.  So every key is read back from its text.
-/

namespace GradualTypes
namespace Text

open Numeral (integer? integer?_toString integer?_eq_none isNumeric_toString)

/-!
# Quoted texts
-/

namespace Quoted

variable {cs rest : List Char}

/-- A text up to the quote that closes it, and what follows this quote; `escaped` tells whether
the character before was a backslash that stands for the next one. -/
def readBody (escaped : Bool) : List Char -> Option (List Char × List Char)
  | [] => none
  | c :: rest =>
      if escaped then (readBody false rest).map fun r => (c :: r.1, r.2)
      else if c == '\'' then some ([], rest)
      else if c == '\\' then readBody true rest
      else (readBody false rest).map fun r => (c :: r.1, r.2)

/-- A quoted text and what follows it. -/
def read : List Char -> Option (List Char × List Char)
  | [] => none
  | c :: rest => if c == '\'' then readBody false rest else none

theorem readBody_body (cs rest : List Char) :
    readBody false (body cs ++ '\'' :: rest) = some (cs, rest) := by
  induction cs with
  | nil => simp [body, readBody]
  | cons c cs ih =>
      rcases Render.body_cons c cs with hc | ⟨hquote, hslash, hc⟩
      · rw [hc]
        simp [readBody, ih]
      · rw [hc]
        simp [readBody, hquote, hslash, ih]

/-- Reading ends at the quote that closes the text. -/
theorem read_encode (cs rest : List Char) : read (encode cs ++ rest) = some (cs, rest) := by
  rw [encode, List.cons_append, List.append_assoc, read, if_pos (by decide)]
  exact readBody_body cs rest

theorem read_eq_none (hcs : cs.head? ≠ some '\'') : read cs = none := by
  cases cs with
  | nil => rfl
  | cons c rest =>
      have hc : c ≠ '\'' := by simpa using hcs
      simp [read, hc]

end Quoted

/-- The text that is quoted at the start of another one, and what follows it. -/
def unquote? (s : String) : Option (String × String) :=
  (Quoted.read s.toList).map fun r => (String.ofList r.1, String.ofList r.2)

theorem unquote?_quote (s t : String) : unquote? (quote s ++ t) = some (s, t) := by
  rw [unquote?, quote, String.toList_append, String.toList_ofList, Quoted.read_encode]
  simp

theorem unquote?_eq_none {s : String} (hs : s.toList.head? ≠ some '\'') : unquote? s = none := by
  rw [unquote?, Quoted.read_eq_none hs, Option.map_none]

theorem unquote?_toString (n : Int) : unquote? (toString n) = none := by
  apply unquote?_eq_none
  intro hhead
  have hquote := isNumeric_toString n _ (List.mem_of_head? hhead)
  revert hquote
  decide

/-!
# Identifiers
-/

/-- An identifier starts with a character that comes after the digits, the signs and the quote. -/
theorem head_of_isIdentifier {s : String} (hs : isIdentifier s = true) :
    ∃ c, s.toList.head? = some c ∧ 'A'.toNat ≤ c.toNat := by
  unfold isIdentifier at hs
  cases hchars : s.toList with
  | nil => simp [hchars] at hs
  | cons c rest =>
      simp only [hchars, Bool.and_eq_true, Bool.or_eq_true, beq_iff_eq] at hs
      refine ⟨c, rfl, ?_⟩
      rcases hs.1 with rfl | halpha
      · decide
      · have hle : 65 ≤ c.val ∨ 97 ≤ c.val := by
          delta Char.isAlpha Char.isUpper Char.isLower at halpha
          simp only [Bool.or_eq_true, Bool.and_eq_true, decide_eq_true_eq] at halpha
          exact halpha.imp And.left And.left
        rw [UInt32.le_iff_toNat_le, UInt32.le_iff_toNat_le] at hle
        exact hle.elim id fun hle => Nat.le_trans (by decide) hle

theorem ne_of_after {c d : Char} (hc : 'A'.toNat ≤ c.toNat) (hd : d.toNat < 'A'.toNat) : c ≠ d := by
  rintro rfl
  omega

theorem not_isDigit_of_after {c : Char} (hc : 'A'.toNat ≤ c.toNat) : c.isDigit = false := by
  have hnine : ¬ c.val ≤ 57 := by
    rw [UInt32.le_iff_toNat_le]
    exact Nat.not_le.mpr (Nat.lt_of_lt_of_le (by decide) hc)
  simp [Char.isDigit, hnine]

theorem unquote?_of_isIdentifier {s : String} (hs : isIdentifier s = true) : unquote? s = none := by
  obtain ⟨c, hhead, hc⟩ := head_of_isIdentifier hs
  apply unquote?_eq_none
  rw [hhead, ne_eq, Option.some.injEq]
  exact ne_of_after hc (by decide)

theorem integer?_of_isIdentifier {s : String} (hs : isIdentifier s = true) :
    integer? s.toList = none := by
  obtain ⟨c, hhead, hc⟩ := head_of_isIdentifier hs
  exact integer?_eq_none (List.mem_of_head? hhead) (not_isDigit_of_after hc)
    (ne_of_after hc (by decide)) (ne_of_after hc (by decide))

end Text

namespace Render

open Text (unquote? unquote?_quote unquote?_toString)
open Text.Numeral (integer? integer?_toString)

/-- The key that a text stands for. -/
def readKey (text : String) : Key :=
  match unquote? text with
  | some (s, _) => .text s
  | none =>
      match integer? text.toList with
      | some n => .int n
      | none => .text text

/-- A key is read back from its text. -/
theorem readKey_key (k : Key) : readKey (key k) = k := by
  cases k with
  | int n =>
      show readKey (toString n) = _
      rw [readKey, unquote?_toString, integer?_toString]
  | text s =>
      rw [key]
      split
      · rename_i hs
        rw [readKey, Text.unquote?_of_isIdentifier hs, Text.integer?_of_isIdentifier hs]
      · have hread := unquote?_quote s ""
        rw [String.append_empty] at hread
        rw [readKey, hread]

/-- Keys with the same text are the same, and a quoted text is read up to its closing quote,
whatever follows it. -/
theorem uniquely_readable :
    (∀ k k', key k = key k' -> k = k') ∧
      ∀ s t : String, unquote? (Text.quote s ++ t) = some (s, t) := by
  refine ⟨fun k k' hsame => ?_, unquote?_quote⟩
  rw [← readKey_key k, hsame, readKey_key]

end Render
end GradualTypes
