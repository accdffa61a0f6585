import GradualTypes.Text.Numeral

/-!
# Tokens of JSON

A text is scanned into tokens up to its end or up to the first place that is no
token.  Such a place gives a last token that tells what is wrong: the text ends
too early, or it is malformed.  A reader that stops before that token never
notices.
-/

namespace GradualTypes
namespace Config
namespace Json

/-- Why a text cannot be read as a configuration. -/
inductive Fault where
  /-- The text ends too early. -/
  | ended
  /-- The text is no JSON. -/
  | malformed
  /-- The text is JSON, but not of the expected form. -/
  | mismatch
  /-- A text that stands for no boolean where a boolean is expected. -/
  | notBoolean (text : String)
deriving DecidableEq, Repr

inductive Token where
  | openObject
  | closeObject
  | openList
  | closeList
  | comma
  | colon
  | null
  | bool (b : Bool)
  | text (s : String)
  /-- A number without sign, fraction and exponent, below `2 ^ 64`. -/
  | natural (n : Nat)
  /-- Any other number. -/
  | number
  /-- A text that is not well formed. -/
  | brokenText (fault : Fault)
  /-- Anything else that is not well formed. -/
  | broken (fault : Fault)
deriving DecidableEq, Repr

namespace Token

/-- The four blank characters of JSON. -/
def isBlank (c : Char) : Bool :=
  c == ' ' || c == '\t' || c == '\n' || c == '\r'

/-!
# Texts
-/

def hexDigit? (c : Char) : Option Nat :=
  if c.isDigit then some (c.toNat - '0'.toNat)
  else if 'a' ≤ c ∧ c ≤ 'f' then some (c.toNat - 'a'.toNat + 10)
  else if 'A' ≤ c ∧ c ≤ 'F' then some (c.toNat - 'A'.toNat + 10)
  else none

def hexUnit? (a b c d : Char) : Option Nat := do
  return 4096 * (← hexDigit? a) + 256 * (← hexDigit? b) + 16 * (← hexDigit? c) +
    (← hexDigit? d)

/-- Why four hexadecimal digits are missing: there is no room for them, counted in
bytes, or something else is there. -/
def hexFault (rest : List Char) : Fault :=
  if (String.ofList rest).utf8ByteSize < 4 then .ended else .malformed

def pairFault : List Char -> Fault
  | [] => .ended
  | ['\\'] => .ended
  | '\\' :: 'u' :: rest => hexFault rest
  | _ => .malformed

/-- The character that follows a backslash, for escapes of one letter. -/
def escape? : Char -> Option Char
  | '"' => some '"'
  | '\\' => some '\\'
  | '/' => some '/'
  | 'b' => some '\x08'
  | 'f' => some '\x0c'
  | 'n' => some '\n'
  | 'r' => some '\r'
  | 't' => some '\t'
  | _ => none

def isHighSurrogate (unit : Nat) : Bool :=
  0xD800 ≤ unit && unit < 0xDC00

def isLowSurrogate (unit : Nat) : Bool :=
  0xDC00 ≤ unit && unit < 0xE000

/-- The characters of a text after its opening quote, and what follows its closing
quote. -/
def readText : List Char -> Except Fault (List Char × List Char)
  | [] => .error .ended
  | '"' :: rest => .ok ([], rest)
  | '\\' :: 'u' :: a :: b :: c :: d :: rest =>
      match hexUnit? a b c d with
      | none => .error (hexFault (a :: b :: c :: d :: rest))
      | some unit =>
          if isLowSurrogate unit then
            .error .malformed
          else if isHighSurrogate unit then
            match rest with
            | '\\' :: 'u' :: a' :: b' :: c' :: d' :: after =>
                match hexUnit? a' b' c' d' with
                | none => .error (hexFault (a' :: b' :: c' :: d' :: after))
                | some low =>
                    if isLowSurrogate low then do
                      let (cs, rest) ← readText after
                      let point := 0x10000 + 1024 * (unit - 0xD800) + (low - 0xDC00)
                      return (Char.ofNat point :: cs, rest)
                    else
                      .error .malformed
            | _ => .error (pairFault rest)
          else do
            let (cs, rest) ← readText rest
            return (Char.ofNat unit :: cs, rest)
  | '\\' :: 'u' :: rest => .error (hexFault rest)
  | ['\\'] => .error .ended
  | '\\' :: c :: rest =>
      match escape? c with
      | none => .error .malformed
      | some e => do
          let (cs, rest) ← readText rest
          return (e :: cs, rest)
  | c :: rest =>
      if c.toNat < 0x20 then
        .error .malformed
      else do
        let (cs, rest) ← readText rest
        return (c :: cs, rest)

/-!
# Numbers
-/

def readDigits (cs : List Char) : Except Fault (List Char × List Char) :=
  let digits := cs.takeWhile Char.isDigit
  if digits.isEmpty then
    .error (if cs.isEmpty then .ended else .malformed)
  else
    .ok (digits, cs.dropWhile Char.isDigit)

def readWhole (cs : List Char) : Except Fault (List Char × List Char) := do
  let (digits, rest) ← readDigits cs
  if digits.head? = some '0' ∧ 1 < digits.length then .error .malformed
  else .ok (digits, rest)

/-- The digits after a point, none if there is no point. -/
def readFraction : List Char -> Except Fault (List Char × List Char)
  | '.' :: rest => readDigits rest
  | rest => .ok ([], rest)

def readExponent : List Char -> Except Fault (Option Int × List Char)
  | [] => .ok (none, [])
  | c :: rest =>
      if c == 'e' || c == 'E' then do
        let (negative, rest) := Text.Numeral.sign rest
        let (digits, rest) ← readDigits rest
        let n : Int := Text.Numeral.natOfDigits digits
        return (some (if negative then -n else n), rest)
      else
        .ok (none, c :: rest)

/-- The number that the leading digits form which fit a 64-bit word, given the
number before them, and how many digits are left. -/
def leadingWord (n : Nat) : List Char -> Nat × Nat
  | [] => (n, 0)
  | c :: rest =>
      let longer := Text.Numeral.snocDigit n c
      if longer < Nat.pow 2 64 then leadingWord longer rest
      else (n, rest.length + 1)

/-- Whether `significand · 10 ^ exponent` stays finite when both factors are
rounded to doubles before they are multiplied. -/
def staysFinite (significand : Nat) (exponent : Int) : Bool :=
  if significand = 0 ∨ exponent ≤ 0 then true
  else if 308 < exponent then false
  else
    decide (Double.roundNat significand * Double.roundNat (Nat.pow 10 exponent.toNat) <
      Double.overflowBound)

/-- Whether a number is within the doubles, judged by its leading digits. -/
def isWithinDoubles (whole fraction : List Char) (exponent : Option Int) : Bool :=
  let (significand, dropped) := leadingWord 0 (whole ++ fraction)
  staysFinite significand (exponent.getD 0 - fraction.length + dropped)

/-- The token of a number.  A number beyond the doubles is malformed. -/
def ofNumber (negative : Bool) (whole fraction : List Char) (exponent : Option Int) :
    Except Fault Token :=
  let n := Text.Numeral.natOfDigits whole
  if !negative && fraction.isEmpty && exponent.isNone && decide (n < Nat.pow 2 64) then
    .ok (natural n)
  else if isWithinDoubles whole fraction exponent then
    .ok number
  else
    .error .malformed

def readNumber (negative : Bool) (cs : List Char) : Except Fault (Token × List Char) := do
  let (whole, rest) ← readWhole cs
  let (fraction, rest) ← readFraction rest
  let (exponent, rest) ← readExponent rest
  let token ← ofNumber negative whole fraction exponent
  return (token, rest)

/-!
# Scanning
-/

def readWord : List Char -> List Char -> Except Fault (List Char)
  | [], cs => .ok cs
  | _ :: _, [] => .error .ended
  | e :: es, c :: cs => if c = e then readWord es cs else .error .malformed

/-- A token and what follows it; a fault ends the scan. -/
def orBroken : Except Fault (Token × List Char) -> Token × List Char
  | .ok result => result
  | .error fault => (broken fault, [])

def ofWord (word : String) (token : Token) (rest : List Char) : Token × List Char :=
  orBroken ((readWord word.toList rest).map fun rest => (token, rest))

def read (c : Char) (rest : List Char) : Token × List Char :=
  match c with
  | '\x7b' => (openObject, rest)
  | '\x7d' => (closeObject, rest)
  | '[' => (openList, rest)
  | ']' => (closeList, rest)
  | ',' => (comma, rest)
  | ':' => (colon, rest)
  | 'n' => ofWord "ull" null rest
  | 't' => ofWord "rue" (bool true) rest
  | 'f' => ofWord "alse" (bool false) rest
  | '"' =>
      match readText rest with
      | .ok (cs, rest) => (text (String.ofList cs), rest)
      | .error fault => (brokenText fault, [])
  | '-' => orBroken (readNumber true rest)
  | c =>
      if c.isDigit then orBroken (readNumber false (c :: rest))
      else (broken .malformed, [])

/-!
What is left after a token is never longer than what was left before it.
-/

theorem length_readText {cs s rest : List Char} (h : readText cs = .ok (s, rest)) :
    rest.length ≤ cs.length := by
  fun_induction readText cs generalizing s rest <;>
    simp_all [bind, Except.bind, pure, Except.pure] <;> grind

theorem length_readDigits {cs digits rest : List Char}
    (h : readDigits cs = .ok (digits, rest)) : rest.length < cs.length := by
  simp only [readDigits] at h
  split at h
  · cases h
  · rename_i some_digit
    cases h
    have whole := congrArg List.length
      (List.takeWhile_append_dropWhile (p := Char.isDigit) (l := cs))
    have pos := List.length_pos_iff.mpr (fun e => some_digit (List.isEmpty_iff.mpr e))
    rw [List.length_append] at whole
    omega

theorem length_readWhole {cs digits rest : List Char}
    (h : readWhole cs = .ok (digits, rest)) : rest.length < cs.length := by
  simp only [readWhole, bind, Except.bind] at h
  split at h
  · cases h
  · rename_i hdigits
    split at h
    · cases h
    · cases h
      exact length_readDigits hdigits

theorem length_readFraction {cs digits rest : List Char}
    (h : readFraction cs = .ok (digits, rest)) : rest.length ≤ cs.length := by
  unfold readFraction at h
  split at h
  · exact Nat.le_trans (Nat.le_of_lt (length_readDigits h)) (Nat.le_succ _)
  · cases h
    exact Nat.le_refl _

theorem length_sign (cs : List Char) : (Text.Numeral.sign cs).2.length ≤ cs.length := by
  unfold Text.Numeral.sign
  split <;> simp

theorem length_readExponent {cs rest : List Char} {exponent : Option Int}
    (h : readExponent cs = .ok (exponent, rest)) : rest.length ≤ cs.length := by
  unfold readExponent at h
  split at h
  · cases h
    exact Nat.le_refl _
  · rename_i c rest'
    split at h
    · simp only [bind, Except.bind] at h
      split at h
      · cases h
      · rename_i hdigits
        cases h
        have := length_readDigits hdigits
        have := length_sign rest'
        simp only [List.length_cons]
        omega
    · cases h
      exact Nat.le_refl _

theorem length_readNumber {negative : Bool} {cs rest : List Char} {t : Token}
    (h : readNumber negative cs = .ok (t, rest)) : rest.length < cs.length := by
  simp only [readNumber, bind, Except.bind] at h
  split at h
  · cases h
  · rename_i hwhole
    split at h
    · cases h
    · rename_i hfraction
      split at h
      · cases h
      · rename_i hexponent
        split at h
        · cases h
        · cases h
          have := length_readWhole hwhole
          have := length_readFraction hfraction
          have := length_readExponent hexponent
          omega

theorem length_readWord {word cs rest : List Char} (h : readWord word cs = .ok rest) :
    rest.length ≤ cs.length := by
  induction word generalizing cs with
  | nil =>
      cases h
      exact Nat.le_refl _
  | cons e es ih =>
      cases cs with
      | nil => cases h
      | cons c cs =>
          simp only [readWord] at h
          split at h
          · exact Nat.le_trans (ih h) (Nat.le_succ _)
          · cases h

theorem length_ofWord (word : String) (token : Token) (rest : List Char) :
    (ofWord word token rest).2.length ≤ rest.length := by
  unfold ofWord
  cases h : readWord word.toList rest with
  | error fault => exact Nat.zero_le _
  | ok after => exact length_readWord h

theorem length_read (c : Char) (rest : List Char) :
    (read c rest).2.length ≤ rest.length := by
  unfold read
  split <;> try exact Nat.le_refl _
  · exact length_ofWord _ _ _
  · exact length_ofWord _ _ _
  · exact length_ofWord _ _ _
  · split
    · rename_i h
      exact length_readText h
    · exact Nat.zero_le _
  · cases h : readNumber true rest with
    | error fault => exact Nat.zero_le _
    | ok result => exact Nat.le_of_lt (length_readNumber h)
  · split
    · cases h : readNumber false (c :: rest) with
      | error fault => exact Nat.zero_le _
      | ok result => exact Nat.le_of_lt_succ (length_readNumber h)
    · exact Nat.zero_le _

def scan (cs : List Char) : List Token :=
  match _h : cs.dropWhile isBlank with
  | [] => []
  | c :: rest =>
      (read c rest).1 :: scan (read c rest).2
termination_by cs.length
decreasing_by
  have := (List.dropWhile_suffix (l := cs) isBlank).length_le
  have := length_read c rest
  rw [_h, List.length_cons] at *
  omega

end Token
end Json
end Config
end GradualTypes
