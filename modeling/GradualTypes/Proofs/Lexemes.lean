import GradualTypes.Config.Decode
import Mathlib.Tactic.SplitIfs

/-!
# Lexemes

A text of JSON falls into lexemes: texts in quotes, words, and marks, which are all other
characters but blanks.  A word is a longest run of letters, digits, signs and points, and so it
may hold several numbers or names, or none.

What is scanned depends on the lexemes only, unless something is not well formed: then the tokens
of a text are those of its lexemes, one after the other.  So blanks between lexemes do not matter,
and a configuration is read from a text if and only if it is read from another text with the same
lexemes.
-/

namespace GradualTypes
namespace Config
namespace Json

variable {α β : Type} {c : Char} {cs o w body after rest s : List Char}

/-- What is taken and what is dropped while a test holds, if the test ends before what follows. -/
theorem takeWhile_dropWhile_append {p : Char -> Bool} (ho : ∀ c ∈ o.head?, p c = false)
    (w : List Char) : (w ++ o).takeWhile p = w.takeWhile p ∧
      (w ++ o).dropWhile p = w.dropWhile p ++ o := by
  induction w with
  | nil =>
      cases o with
      | nil => exact ⟨rfl, rfl⟩
      | cons d o => simp [ho d rfl]
  | cons c rest ih =>
      cases hc : p c with
      | false => simp [hc]
      | true => simpa [hc] using ih

/-!
# Texts in quotes
-/

/-- The contents of a text with the quote that closes it, and what follows that quote. -/
def closeText? : List Char -> Option (List Char × List Char)
  | [] => none
  | '\\' :: c :: rest => (closeText? rest).map fun r => ('\\' :: c :: r.1, r.2)
  | '"' :: rest => some (['"'], rest)
  | c :: rest => (closeText? rest).map fun r => (c :: r.1, r.2)

theorem closeText?_plain (hquote : c ≠ '"') (hescape : c ≠ '\\') :
    closeText? (c :: rest) = (closeText? rest).map fun r => (c :: r.1, r.2) := by
  rw [closeText?]
  · exact fun _ _ heq _ => hescape heq
  · exact hquote

/-- The closing quote of a text does not depend on what follows it. -/
theorem closeText?_append (hclose : closeText? cs = some (body, after)) (o : List Char) :
    cs = body ++ after ∧ closeText? (body ++ o) = some (body, o) := by
  fun_induction closeText? cs generalizing body with
  | case1 => cases hclose
  | case2 c rest ih =>
      obtain ⟨⟨body', after'⟩, hrest, heq⟩ := Option.map_eq_some_iff.mp hclose
      cases heq
      obtain ⟨rfl, hbody⟩ := ih hrest
      exact ⟨rfl, by simp [closeText?, hbody]⟩
  | case3 rest =>
      cases hclose
      exact ⟨rfl, rfl⟩
  | case4 c rest hescape hquote ih =>
      obtain ⟨⟨body', after'⟩, hrest, heq⟩ := Option.map_eq_some_iff.mp hclose
      cases heq
      obtain ⟨rfl, hbody⟩ := ih hrest
      have hescape' : c ≠ '\\' := by
        rintro rfl
        cases hcs : body' ++ after' with
        | nil => simp [hcs, closeText?] at hrest
        | cons d rest => exact hescape d rest rfl hcs
      exact ⟨rfl, by rw [List.cons_append, closeText?_plain hquote hescape', hbody]; rfl⟩

theorem length_closeText? (hclose : closeText? cs = some (body, after)) :
    after.length ≤ cs.length := by
  rw [(closeText?_append hclose []).1, List.length_append]
  exact Nat.le_add_left _ _

/-!
# The lexemes of a text
-/

def isWordChar (c : Char) : Bool :=
  c.isAlphanum || c == '+' || c == '-' || c == '.'

/-- The lexemes of a text.  A text that is not closed is a lexeme up to the end. -/
def lexemes : List Char -> List (List Char)
  | [] => []
  | c :: rest =>
      if Token.isBlank c then lexemes rest
      else if c == '"' then
        match _h : closeText? rest with
        | some (body, after) => ('"' :: body) :: lexemes after
        | none => [c :: rest]
      else if isWordChar c then
        (c :: rest.takeWhile isWordChar) :: lexemes (rest.dropWhile isWordChar)
      else [c] :: lexemes rest
termination_by cs => cs.length
decreasing_by
  · simp
  · have := length_closeText? _h
    simp only [List.length_cons]
    omega
  · have := (List.dropWhile_suffix (l := rest) isWordChar).length_le
    simp only [List.length_cons]
    omega
  · simp

/-- No word goes on at the beginning of a text. -/
def StopsWord (o : List Char) : Prop :=
  ∀ c ∈ o.head?, isWordChar c = false

def IsWord (w : List Char) : Prop :=
  ∀ c ∈ w, isWordChar c = true

instance (w : List Char) : Decidable (IsWord w) :=
  decidable_of_iff (w.all isWordChar = true) List.all_eq_true

section Equations

attribute [local simp] lexemes

theorem lexemes_nil : lexemes [] = [] := by
  simp

theorem lexemes_blank (hc : Token.isBlank c = true) : lexemes (c :: rest) = lexemes rest := by
  simp [hc]

theorem lexemes_blanks (hblank : ∀ c ∈ w, Token.isBlank c = true) (o : List Char) :
    lexemes (w ++ o) = lexemes o := by
  induction w with
  | nil => rfl
  | cons c rest ih =>
      obtain ⟨hc, hrest⟩ := List.forall_mem_cons.mp hblank
      rw [List.cons_append, lexemes_blank hc, ih hrest]

theorem lexemes_text (hclose : closeText? rest = some (body, after)) :
    lexemes ('"' :: rest) = ('"' :: body) :: lexemes after := by
  rw [lexemes, if_neg (by decide), if_pos (by decide)]
  split
  · rename_i hsome
    rw [hclose] at hsome
    cases hsome
    rfl
  · rename_i hnone
    rw [hclose] at hnone
    cases hnone

/-- A character that is no blank, no quote and no part of a word stands for itself. -/
theorem lexemes_mark (hblank : Token.isBlank c = false) (hquote : c ≠ '"')
    (hword : isWordChar c = false) : lexemes (c :: rest) = [c] :: lexemes rest := by
  rw [lexemes, if_neg (by simp [hblank]), if_neg (by simpa using hquote), if_neg (by simp [hword])]

theorem not_blank_of_isWordChar (hc : isWordChar c = true) : Token.isBlank c = false := by
  cases hblank : Token.isBlank c with
  | false => rfl
  | true =>
      simp only [Token.isBlank, Bool.or_eq_true, beq_iff_eq] at hblank
      rcases hblank with ((rfl | rfl) | rfl) | rfl <;> exact absurd hc (by decide)

theorem ne_quote_of_isWordChar (hc : isWordChar c = true) : c ≠ '"' := by
  rintro rfl
  exact absurd hc (by decide)

theorem lexemes_wordChar (hc : isWordChar c = true) :
    lexemes (c :: rest) =
      (c :: rest.takeWhile isWordChar) :: lexemes (rest.dropWhile isWordChar) := by
  rw [lexemes, if_neg (by simp [not_blank_of_isWordChar hc]),
    if_neg (by simpa using ne_quote_of_isWordChar hc), if_pos hc]

end Equations

/-- A word before something that does not go on with it. -/
theorem lexemes_word (hne : w ≠ []) (hw : IsWord w) (ho : StopsWord o) :
    lexemes (w ++ o) = w :: lexemes o := by
  cases w with
  | nil => exact absurd rfl hne
  | cons c rest =>
      obtain ⟨hc, hrest⟩ := List.forall_mem_cons.mp hw
      obtain ⟨htake, hdrop⟩ := takeWhile_dropWhile_append ho []
      rw [List.nil_append] at htake hdrop
      rw [List.cons_append, lexemes_wordChar hc, List.takeWhile_append_of_pos hrest,
        List.dropWhile_append_of_pos hrest, htake, hdrop]
      simp

/-!
# Readers
-/

/-- A reader takes something from the beginning of a text, and it takes the same where something
follows that does not go on with a word. -/
structure IsReader (r : List Char -> Except Fault (α × List Char)) : Prop where
  suffix : ∀ {w a rest}, r w = .ok (a, rest) -> rest <:+ w
  append : ∀ w {o}, StopsWord o ->
    (r (w ++ o)).toOption = (r w).toOption.map fun x => (x.1, x.2 ++ o)

namespace IsReader

theorem pure (a : α) : IsReader fun cs => (.ok (a, cs) : Except Fault (α × List Char)) where
  suffix hok := by
    cases hok
    exact List.suffix_rfl
  append w o _ := rfl

theorem fail (fault : Fault) : IsReader fun _ => (.error fault : Except Fault (α × List Char)) where
  suffix hok := by cases hok
  append w o _ := rfl

variable {r : List Char -> Except Fault (α × List Char)} {a : α} {fault : Fault}

theorem ok_append (hr : IsReader r) (hok : r w = .ok (a, rest)) (ho : StopsWord o) :
    r (w ++ o) = .ok (a, rest ++ o) := by
  have happend := hr.append w ho
  rw [hok] at happend
  cases hlonger : r (w ++ o) with
  | error fault => simp [hlonger, Except.toOption] at happend
  | ok x => simpa [hlonger, Except.toOption] using happend

theorem error_append (hr : IsReader r) (herror : r w = .error fault) (ho : StopsWord o) :
    ∃ fault', r (w ++ o) = .error fault' := by
  have happend := hr.append w ho
  rw [herror] at happend
  cases hlonger : r (w ++ o) with
  | error fault' => exact ⟨fault', rfl⟩
  | ok x => simp [hlonger, Except.toOption] at happend

theorem bind {f : α -> List Char -> Except Fault (β × List Char)} (hr : IsReader r)
    (hf : ∀ a, IsReader (f a)) : IsReader fun cs => r cs >>= fun x => f x.1 x.2 where
  suffix {w b rest} hok := by
    cases hread : r w with
    | error fault => simp [hread, Bind.bind, Except.bind] at hok
    | ok x =>
        simp only [hread, Bind.bind, Except.bind] at hok
        exact ((hf x.1).suffix hok).trans (hr.suffix hread)
  append w o ho := by
    cases hread : r w with
    | error fault =>
        obtain ⟨fault', hlonger⟩ := hr.error_append hread ho
        simp only [hlonger]
        rfl
    | ok x =>
        simp only [hr.ok_append hread ho]
        exact (hf x.1).append x.2 ho

end IsReader

theorem StopsWord.isDigit (ho : StopsWord o) : ∀ c ∈ o.head?, c.isDigit = false := by
  intro c hc
  have hstop := ho c hc
  simp only [isWordChar, Char.isAlphanum, Bool.or_eq_false_iff] at hstop
  exact hstop.1.1.1.2

theorem StopsWord.ne (ho : StopsWord (c :: o)) {d : Char} (hd : isWordChar d = true) : c ≠ d := by
  rintro rfl
  exact absurd (ho c rfl) (by simp [hd])

theorem isReader_readDigits : IsReader Token.readDigits where
  suffix {w digits rest} hok := by
    simp only [Token.readDigits] at hok
    split at hok
    · cases hok
    · cases hok
      exact List.dropWhile_suffix _
  append w o ho := by
    obtain ⟨htake, hdrop⟩ := takeWhile_dropWhile_append ho.isDigit w
    simp only [Token.readDigits, htake, hdrop]
    split <;> rfl

theorem isReader_readWhole : IsReader Token.readWhole := by
  refine isReader_readDigits.bind (f := fun digits rest =>
    if digits.head? = some '0' ∧ 1 < digits.length then .error .malformed
    else .ok (digits, rest)) fun digits => ?_
  by_cases hzero : digits.head? = some '0' ∧ 1 < digits.length
  · simpa only [if_pos hzero] using IsReader.fail .malformed
  · simpa only [if_neg hzero] using IsReader.pure digits

theorem isReader_readFraction : IsReader Token.readFraction where
  suffix {w digits rest} hok := by
    unfold Token.readFraction at hok
    split at hok
    · exact (isReader_readDigits.suffix hok).trans (List.suffix_cons _ _)
    · cases hok
      exact List.suffix_rfl
  append w o ho := by
    cases w with
    | nil =>
        cases o with
        | nil => rfl
        | cons c o =>
            have hpoint : c ≠ '.' := ho.ne (by decide)
            rw [List.nil_append, Token.readFraction]
            · rfl
            · exact fun _ heq => hpoint (List.cons.inj heq).1
    | cons c rest =>
        by_cases hpoint : c = '.'
        · subst hpoint
          exact isReader_readDigits.append rest ho
        · have hother : ∀ cs, Token.readFraction (c :: cs) = .ok ([], c :: cs) := fun cs => by
            rw [Token.readFraction]
            exact fun _ heq => hpoint (List.cons.inj heq).1
          rw [List.cons_append, hother, hother]
          rfl

theorem sign_append (ho : StopsWord o) (w : List Char) :
    Text.Numeral.sign (w ++ o) = ((Text.Numeral.sign w).1, (Text.Numeral.sign w).2 ++ o) := by
  cases w with
  | nil =>
      cases o with
      | nil => rfl
      | cons c o =>
          have hminus : c ≠ '-' := ho.ne (by decide)
          have hplus : c ≠ '+' := ho.ne (by decide)
          simp [Text.Numeral.sign, hminus, hplus]
  | cons c rest =>
      by_cases hminus : c = '-'
      · subst hminus
        rfl
      · by_cases hplus : c = '+'
        · subst hplus
          rfl
        · simp [Text.Numeral.sign, hminus, hplus]

theorem sign_suffix (cs : List Char) : (Text.Numeral.sign cs).2 <:+ cs := by
  unfold Text.Numeral.sign
  split
  · exact List.suffix_cons _ _
  · exact List.suffix_cons _ _
  · exact List.suffix_rfl

theorem isReader_afterSign {f : Bool -> List Char -> Except Fault (α × List Char)}
    (hf : ∀ negative, IsReader (f negative)) :
    IsReader fun cs => f (Text.Numeral.sign cs).1 (Text.Numeral.sign cs).2 where
  suffix {w a rest} hok := ((hf _).suffix hok).trans (sign_suffix w)
  append w o ho := by
    simp only [sign_append ho w]
    exact (hf _).append _ ho

def isExponentMark (c : Char) : Bool :=
  c == 'e' || c == 'E'

theorem isReader_power : IsReader fun cs => Token.readExponent ('e' :: cs) :=
  isReader_afterSign fun negative => isReader_readDigits.bind fun digits =>
    .pure (some (if negative then -(Text.Numeral.natOfDigits digits : Int)
      else Text.Numeral.natOfDigits digits))

theorem readExponent_mark (hc : isExponentMark c = true) (rest : List Char) :
    Token.readExponent (c :: rest) = Token.readExponent ('e' :: rest) := by
  simp only [isExponentMark] at hc
  simp [Token.readExponent, hc]

theorem readExponent_other (hc : isExponentMark c = false) (rest : List Char) :
    Token.readExponent (c :: rest) = .ok (none, c :: rest) := by
  simp only [isExponentMark] at hc
  simp [Token.readExponent, hc]

theorem isReader_readExponent : IsReader Token.readExponent where
  suffix {w exponent rest} hok := by
    cases w with
    | nil =>
        cases hok
        exact List.suffix_rfl
    | cons c w =>
        cases hc : isExponentMark c with
        | true =>
            rw [readExponent_mark hc] at hok
            exact (isReader_power.suffix hok).trans (List.suffix_cons _ _)
        | false =>
            rw [readExponent_other hc] at hok
            cases hok
            exact List.suffix_rfl
  append w o ho := by
    cases w with
    | nil =>
        cases o with
        | nil => rfl
        | cons c o =>
            have hc : isExponentMark c = false := by
              have he : c ≠ 'e' := ho.ne (by decide)
              have hE : c ≠ 'E' := ho.ne (by decide)
              simp [isExponentMark, he, hE]
            rw [List.nil_append, readExponent_other hc]
            rfl
    | cons c rest =>
        cases hc : isExponentMark c with
        | true =>
            rw [List.cons_append, readExponent_mark hc, readExponent_mark hc]
            exact isReader_power.append rest ho
        | false =>
            rw [List.cons_append, readExponent_other hc, readExponent_other hc]
            rfl

theorem isReader_always (x : Except Fault α) : IsReader fun cs => x >>= fun a => .ok (a, cs) := by
  cases x with
  | error fault => exact .fail fault
  | ok a => exact .pure a

theorem isReader_readNumber (negative : Bool) : IsReader (Token.readNumber negative) :=
  isReader_readWhole.bind fun whole => isReader_readFraction.bind fun fraction =>
    isReader_readExponent.bind fun exponent =>
      isReader_always (Token.ofNumber negative whole fraction exponent)

theorem isReader_readWord {word : List Char} (hword : IsWord word) (token : Token) :
    IsReader fun cs => (Token.readWord word cs).map fun rest => (token, rest) := by
  induction word with
  | nil => exact .pure token
  | cons e es ih =>
      obtain ⟨he, hes⟩ := List.forall_mem_cons.mp hword
      constructor
      · intro w t rest hok
        cases w with
        | nil => cases hok
        | cons c w =>
            simp only [Token.readWord] at hok
            split at hok
            · exact ((ih hes).suffix hok).trans (List.suffix_cons _ _)
            · cases hok
      · intro w o ho
        cases w with
        | nil =>
            cases o with
            | nil => rfl
            | cons c o =>
                simp only [List.nil_append, Token.readWord, if_neg (ho.ne he)]
                rfl
        | cons c w =>
            simp only [List.cons_append, Token.readWord]
            split
            · exact (ih hes).append w ho
            · rfl

/-!
# Words
-/

namespace Token

def isBroken : Token -> Bool
  | brokenText _ => true
  | broken _ => true
  | _ => false

/-- A token that is a value. -/
def isScalar : Token -> Bool
  | null => true
  | bool _ => true
  | text _ => true
  | natural _ => true
  | number => true
  | _ => false

end Token

/-- What is read of a word after its first character. -/
def readTail (c : Char) : List Char -> Except Fault (Token × List Char) :=
  if c = 'n' then fun cs => (Token.readWord "ull".toList cs).map fun rest => (.null, rest)
  else if c = 't' then fun cs => (Token.readWord "rue".toList cs).map fun rest => (.bool true, rest)
  else if c = 'f' then
    fun cs => (Token.readWord "alse".toList cs).map fun rest => (.bool false, rest)
  else if c = '-' then Token.readNumber true
  else if c.isDigit then fun cs => Token.readNumber false (c :: cs)
  else fun _ => .error .malformed

theorem read_eq_readTail (hc : isWordChar c = true) (cs : List Char) :
    Token.read c cs = Token.orBroken (readTail c cs) := by
  have hne : ∀ d, isWordChar d = false -> c ≠ d := by
    rintro d hd rfl
    simp [hd] at hc
  unfold Token.read readTail
  split
  · exact absurd rfl (hne '\x7b' (by decide))
  · exact absurd rfl (hne '\x7d' (by decide))
  · exact absurd rfl (hne '[' (by decide))
  · exact absurd rfl (hne ']' (by decide))
  · exact absurd rfl (hne ',' (by decide))
  · exact absurd rfl (hne ':' (by decide))
  · rfl
  · rfl
  · rfl
  · exact absurd rfl (hne '"' (by decide))
  · rfl
  · rename_i hn ht hf _ hminus
    rw [if_neg hn, if_neg ht, if_neg hf, if_neg hminus]
    split <;> rfl

theorem isReader_readTail (c : Char) : IsReader (readTail c) := by
  unfold readTail
  split_ifs
  · exact isReader_readWord (by decide) _
  · exact isReader_readWord (by decide) _
  · exact isReader_readWord (by decide) _
  · exact isReader_readNumber true
  · constructor
    · intro w t rest hok
      rcases List.suffix_cons_iff.mp ((isReader_readNumber false).suffix hok) with rfl | hsuffix
      · exact absurd (Token.length_readNumber hok) (Nat.lt_irrefl _)
      · exact hsuffix
    · exact fun w o ho => (isReader_readNumber false).append (_ :: w) ho
  · exact .fail _

theorem isScalar_of_map_readWord {word : List Char} {t u : Token} (hu : u.isScalar = true)
    (hok : ((Token.readWord word cs).map fun rest => (u, rest)) = .ok (t, rest)) :
    t.isScalar = true := by
  cases hword : Token.readWord word cs with
  | error fault => simp [hword, Except.map] at hok
  | ok rest' =>
      simp only [hword, Except.map, Except.ok.injEq, Prod.mk.injEq] at hok
      exact hok.1 ▸ hu

theorem isScalar_of_ofNumber {negative : Bool} {whole fraction : List Char}
    {exponent : Option Int} {t : Token}
    (hok : Token.ofNumber negative whole fraction exponent = .ok t) : t.isScalar = true := by
  simp only [Token.ofNumber] at hok
  split at hok
  · cases hok
    rfl
  · split at hok
    · cases hok
      rfl
    · cases hok

theorem isScalar_of_readNumber {negative : Bool} {t : Token}
    (hok : Token.readNumber negative cs = .ok (t, rest)) : t.isScalar = true := by
  simp only [Token.readNumber, Bind.bind, Except.bind, Pure.pure, Except.pure] at hok
  split at hok
  · cases hok
  · split at hok
    · cases hok
    · split at hok
      · cases hok
      · split at hok
        · cases hok
        · rename_i hnumber
          cases hok
          exact isScalar_of_ofNumber hnumber

/-- What is read of a word is a value. -/
theorem isScalar_of_readTail {t : Token} (hok : readTail c cs = .ok (t, rest)) :
    t.isScalar = true := by
  unfold readTail at hok
  split_ifs at hok
  · exact isScalar_of_map_readWord rfl hok
  · exact isScalar_of_map_readWord rfl hok
  · exact isScalar_of_map_readWord rfl hok
  · exact isScalar_of_readNumber hok
  · exact isScalar_of_readNumber hok

/-!
# Scans without broken tokens
-/

namespace Token

theorem not_broken_of_isScalar {t : Token} (ht : t.isScalar = true) : t.isBroken = false := by
  cases t <;> first | rfl | cases ht

theorem scan_of_ended (hcs : cs.dropWhile isBlank = []) : scan cs = [] := by
  rw [scan]
  split
  · rfl
  · rename_i hcons
    rw [hcs] at hcons
    cases hcons

theorem scan_of_dropWhile (hcs : cs.dropWhile isBlank = c :: rest) :
    scan cs = (read c rest).1 :: scan (read c rest).2 := by
  rw [scan]
  split
  · rename_i hnil
    rw [hcs] at hnil
    cases hnil
  · rename_i hcons
    rw [hcs] at hcons
    cases hcons
    rfl

theorem scan_nil : scan [] = [] :=
  scan_of_ended rfl

theorem scan_cons (hc : isBlank c = false) :
    scan (c :: rest) = (read c rest).1 :: scan (read c rest).2 :=
  scan_of_dropWhile (List.dropWhile_cons_of_neg (by simp [hc]))

theorem scan_blank (hc : isBlank c = true) : scan (c :: cs) = scan cs := by
  have hdrop : (c :: cs).dropWhile isBlank = cs.dropWhile isBlank :=
    List.dropWhile_cons_of_pos hc
  cases hcs : cs.dropWhile isBlank with
  | nil => rw [scan_of_ended hcs, scan_of_ended (hdrop.trans hcs)]
  | cons d rest => rw [scan_of_dropWhile hcs, scan_of_dropWhile (hdrop.trans hcs)]

/-- The tokens, unless one of them is broken. -/
def unbroken? (ts : List Token) : Option (List Token) :=
  bif ts.any isBroken then none else some ts

theorem unbroken?_cons (t : Token) (ts : List Token) :
    unbroken? (t :: ts) = bif t.isBroken then none else (unbroken? ts).map (t :: ·) := by
  simp only [unbroken?, List.any_cons]
  cases t.isBroken <;> cases ts.any isBroken <;> rfl

theorem unbroken?_eq_some {ts us : List Token} (hts : unbroken? ts = some us) : us = ts := by
  unfold unbroken? at hts
  cases hbroken : ts.any isBroken with
  | true => simp [hbroken] at hts
  | false => simpa [hbroken] using hts.symm

end Token

/-- The tokens of a text, unless one of them is broken. -/
def tokens? (cs : List Char) : Option (List Token) :=
  Token.unbroken? (Token.scan cs)

theorem tokens?_nil : tokens? [] = some [] := by
  rw [tokens?, Token.scan_nil]
  rfl

theorem tokens?_blank (hc : Token.isBlank c = true) : tokens? (c :: cs) = tokens? cs := by
  rw [tokens?, Token.scan_blank hc, tokens?]

/-- The tokens of a word and of what follows it. -/
theorem tokens?_word (hw : IsWord w) (ho : StopsWord o) :
    tokens? (w ++ o) = (tokens? w).bind fun ts => (tokens? o).map (ts ++ ·) := by
  induction hn : w.length using Nat.strongRecOn generalizing w with
  | ind n ih =>
    cases w with
    | nil => cases hos : tokens? o <;> simp [tokens?_nil, hos]
    | cons c cs =>
        obtain ⟨hc, hcs⟩ := List.forall_mem_cons.mp hw
        simp only [List.cons_append, tokens?, Token.scan_cons (not_blank_of_isWordChar hc),
          read_eq_readTail hc]
        cases hread : readTail c cs with
        | error fault =>
            obtain ⟨fault', hlonger⟩ := (isReader_readTail c).error_append hread ho
            simp only [hlonger]
            rfl
        | ok x =>
            obtain ⟨t, rest⟩ := x
            have hsuffix : rest <:+ cs := (isReader_readTail c).suffix hread
            have hlength : rest.length < n := hn ▸ Nat.lt_succ_of_le hsuffix.length_le
            have hrest := ih rest.length hlength (fun d hd => hcs d (hsuffix.subset hd)) rfl
            simp only [tokens?] at hrest
            simp only [(isReader_readTail c).ok_append hread ho, Token.orBroken,
              Token.unbroken?_cons, Token.not_broken_of_isScalar (isScalar_of_readTail hread),
              hrest, cond_false]
            cases Token.unbroken? (Token.scan rest) <;>
              cases Token.unbroken? (Token.scan o) <;> rfl

/-- The tokens of a word are values, and there is at least one. -/
theorem tokens?_of_word {ts : List Token} (hw : IsWord w) (hne : w ≠ [])
    (hts : tokens? w = some ts) :
    ts ≠ [] ∧ ∀ t ∈ ts, t.isScalar = true := by
  induction hn : w.length using Nat.strongRecOn generalizing w ts with
  | ind n ih =>
    cases w with
    | nil => exact absurd rfl hne
    | cons c cs =>
        obtain ⟨hc, hcs⟩ := List.forall_mem_cons.mp hw
        have hblank := not_blank_of_isWordChar hc
        simp only [tokens?, Token.scan_cons hblank, read_eq_readTail hc] at hts
        cases hread : readTail c cs with
        | error fault =>
            rw [hread] at hts
            cases hts
        | ok x =>
            obtain ⟨t, rest⟩ := x
            have ht := isScalar_of_readTail hread
            have hsuffix : rest <:+ cs := (isReader_readTail c).suffix hread
            simp only [hread, Token.orBroken, Token.unbroken?_cons,
              Token.not_broken_of_isScalar ht, cond_false] at hts
            obtain ⟨us, hus, rfl⟩ := Option.map_eq_some_iff.mp hts
            refine ⟨by simp, List.forall_mem_cons.mpr ⟨ht, ?_⟩⟩
            by_cases hrest : rest = []
            · subst hrest
              rw [Token.scan_nil] at hus
              cases hus
              simp
            · exact (ih rest.length (hn ▸ Nat.lt_succ_of_le hsuffix.length_le)
                (fun d hd => hcs d (hsuffix.subset hd)) hrest hus rfl).2

/-!
# Texts
-/

section Texts

attribute [local simp] Token.readText

variable {a b d a' b' c' d' : Char} {unit low : Nat}

theorem plain_of_hexDigit? {n : Nat} (hc : Token.hexDigit? c = some n) : c ≠ '"' ∧ c ≠ '\\' := by
  constructor <;> (rintro rfl; cases hc)

theorem closeText?_unit (hunit : Token.hexUnit? a b c d = some unit) :
    closeText? ('\\' :: 'u' :: a :: b :: c :: d :: rest) =
      (closeText? rest).map fun r => ('\\' :: 'u' :: a :: b :: c :: d :: r.1, r.2) := by
  simp only [Token.hexUnit?, bind, Option.bind_eq_some_iff] at hunit
  obtain ⟨_, ha, _, hb, _, hc, _, hd, -⟩ := hunit
  simp [closeText?, closeText?_plain (plain_of_hexDigit? ha).1 (plain_of_hexDigit? ha).2,
    closeText?_plain (plain_of_hexDigit? hb).1 (plain_of_hexDigit? hb).2,
    closeText?_plain (plain_of_hexDigit? hc).1 (plain_of_hexDigit? hc).2,
    closeText?_plain (plain_of_hexDigit? hd).1 (plain_of_hexDigit? hd).2, Function.comp_def]

theorem readText_pair (hunit : Token.hexUnit? a b c d = some unit)
    (hhigh : Token.isHighSurrogate unit = true) (hlow : Token.isLowSurrogate unit = false)
    (hunit' : Token.hexUnit? a' b' c' d' = some low) (hlow' : Token.isLowSurrogate low = true) :
    Token.readText ('\\' :: 'u' :: a :: b :: c :: d ::
        '\\' :: 'u' :: a' :: b' :: c' :: d' :: rest) =
      (Token.readText rest).map fun r =>
        (Char.ofNat (0x10000 + 1024 * (unit - 0xD800) + (low - 0xDC00)) :: r.1, r.2) := by
  simp [hunit, hhigh, hlow, hunit', hlow']
  cases Token.readText rest <;> rfl

theorem readText_unit (hunit : Token.hexUnit? a b c d = some unit)
    (hlow : Token.isLowSurrogate unit = false) (hhigh : Token.isHighSurrogate unit = false) :
    Token.readText ('\\' :: 'u' :: a :: b :: c :: d :: rest) =
      (Token.readText rest).map fun r => (Char.ofNat unit :: r.1, r.2) := by
  simp [hunit, hhigh, hlow]
  cases Token.readText rest <;> rfl

theorem readText_escape {e : Char} (he : Token.escape? c = some e) :
    Token.readText ('\\' :: c :: rest) =
      (Token.readText rest).map fun r => (e :: r.1, r.2) := by
  have hu : c ≠ 'u' := by
    rintro rfl
    cases he
  simp [hu, he]
  cases Token.readText rest <;> rfl

theorem readText_plain (hquote : c ≠ '"') (hescape : c ≠ '\\') (hcode : ¬c.toNat < 0x20) :
    Token.readText (c :: rest) = (Token.readText rest).map fun r => (c :: r.1, r.2) := by
  rw [Token.readText, if_neg hcode]
  · cases Token.readText rest <;> rfl
  · exact hquote
  all_goals
    intros
    contradiction

/-- A text is read and closed in the same place, whatever follows it. -/
def Agrees (cs : List Char) : Prop :=
  ∀ s after : List Char, Token.readText cs = .ok (s, after) ->
    ∃ body, closeText? cs = some (body, after) ∧ ∀ o, Token.readText (body ++ o) = .ok (s, o)

theorem Agrees.append {p : List Char} {e : Char} (hrest : Agrees rest)
    (hclose : ∀ rest, closeText? (p ++ rest) = (closeText? rest).map fun r => (p ++ r.1, r.2))
    (hread : ∀ rest, Token.readText (p ++ rest) =
      (Token.readText rest).map fun r => (e :: r.1, r.2)) : Agrees (p ++ rest) := by
  intro s after hok
  rw [hread] at hok
  cases hrest' : Token.readText rest with
  | error fault => simp [hrest', Except.map] at hok
  | ok r =>
      simp only [hrest', Except.map, Except.ok.injEq, Prod.mk.injEq] at hok
      obtain ⟨rfl, rfl⟩ := hok
      obtain ⟨body, hbody, hlater⟩ := hrest _ _ hrest'
      refine ⟨p ++ body, by rw [hclose, hbody]; rfl, fun o => ?_⟩
      rw [List.append_assoc, hread, hlater o]
      rfl

theorem agrees (cs : List Char) : Agrees cs := by
  fun_induction Token.readText cs
  case case2 rest =>
    intro s after hok
    cases hok
    exact ⟨['"'], rfl, fun o => rfl⟩
  case case6 a b c d unit hunit hlow hhigh a' b' c' d' rest low hunit' hlow' ih =>
    refine ih.append (p := ['\\', 'u', a, b, c, d, '\\', 'u', a', b', c', d'])
      (e := Char.ofNat (0x10000 + 1024 * (unit - 0xD800) + (low - 0xDC00))) ?_ ?_
    · intro rest
      simp [closeText?_unit hunit, closeText?_unit hunit', Function.comp_def]
    · intro rest
      exact readText_pair hunit hhigh (by simpa using hlow) hunit' hlow'
  case case9 a b c d rest unit hunit hlow hhigh ih =>
    exact ih.append (p := ['\\', 'u', a, b, c, d]) (fun rest => closeText?_unit hunit)
      fun rest => readText_unit hunit (by simpa using hlow) (by simpa using hhigh)
  case case13 c rest _ _ e he ih =>
    exact ih.append (p := ['\\', c]) (fun rest => rfl) fun rest => readText_escape he
  case case15 c rest hquote _ _ hnil hcons hcode ih =>
    have hescape : c ≠ '\\' := by
      rintro rfl
      cases rest with
      | nil => exact hnil rfl rfl
      | cons d rest => exact hcons d rest rfl rfl
    exact ih.append (p := [c]) (fun rest => closeText?_plain hquote hescape)
      fun rest => readText_plain hquote hescape hcode
  all_goals
    intro s after hok
    simp only [Token.readText, bind, Except.bind, *] at hok
    cases hok

end Texts

/-- A closed text is read in the same way whatever follows it, or it is never read. -/
theorem readText_of_closed (hclose : closeText? cs = some (body, after)) :
    (∃ s, ∀ o, Token.readText (body ++ o) = .ok (s, o)) ∨
      ∀ o, ∃ fault, Token.readText (body ++ o) = .error fault := by
  cases hcs : Token.readText body with
  | ok r =>
      obtain ⟨s, rest⟩ := r
      obtain ⟨body', hclose', hlater⟩ := agrees body s rest hcs
      have hends := (closeText?_append hclose []).2
      rw [List.append_nil, hclose'] at hends
      cases hends
      exact .inl ⟨s, hlater⟩
  | error fault =>
      refine .inr fun o => ?_
      cases hwhole : Token.readText (body ++ o) with
      | error fault' => exact ⟨fault', rfl⟩
      | ok r =>
          obtain ⟨s, rest⟩ := r
          obtain ⟨body', hclose', hlater⟩ := agrees (body ++ o) s rest hwhole
          rw [(closeText?_append hclose o).2] at hclose'
          cases hclose'
          have hok := hlater []
          rw [List.append_nil, hcs] at hok
          cases hok

/-- The tokens of a text in quotes and of what follows it. -/
theorem tokens?_text (hclose : closeText? rest = some (body, after)) :
    tokens? ('"' :: rest) =
      (tokens? ('"' :: body)).bind fun ts => (tokens? after).map (ts ++ ·) := by
  obtain ⟨rfl, -⟩ := closeText?_append hclose []
  have hscan : ∀ cs, Token.scan ('"' :: cs) =
      (Token.read '"' cs).1 :: Token.scan (Token.read '"' cs).2 := fun cs =>
    Token.scan_cons (by decide)
  simp only [tokens?, hscan, Token.read]
  rcases readText_of_closed hclose with ⟨s, hread⟩ | hfail
  · have hbody := hread []
    rw [List.append_nil] at hbody
    simp only [hread after, hbody, Token.unbroken?_cons, Token.scan_nil]
    cases Token.unbroken? (Token.scan after) <;> rfl
  · obtain ⟨fault, hbody⟩ := hfail []
    obtain ⟨fault', hwhole⟩ := hfail after
    rw [List.append_nil] at hbody
    simp only [hbody, hwhole]
    rfl

/-!
# Marks
-/

/-- The tokens of a mark and of what follows it. -/
theorem tokens?_mark (hblank : Token.isBlank c = false) (hquote : c ≠ '"')
    (hword : isWordChar c = false) :
    tokens? (c :: rest) = (tokens? [c]).bind fun ts => (tokens? rest).map (ts ++ ·) := by
  have hne : ∀ d, isWordChar d = true -> c ≠ d := by
    rintro d hd rfl
    simp [hd] at hword
  have hread : (∃ t, t.isBroken = false ∧ ∀ rest, Token.read c rest = (t, rest)) ∨
      ∀ rest, Token.read c rest = (.broken .malformed, []) := by
    by_cases hmark : c ∈ ['\x7b', '\x7d', '[', ']', ',', ':']
    · simp only [List.mem_cons, List.not_mem_nil, or_false] at hmark
      refine .inl ?_
      rcases hmark with rfl | rfl | rfl | rfl | rfl | rfl <;> exact ⟨_, by rfl, fun _ => rfl⟩
    · refine .inr fun rest => ?_
      unfold Token.read
      split <;> try first
        | (refine absurd ?_ hmark; simp; done)
        | (refine absurd rfl (hne _ ?_); decide)
        | exact absurd rfl hquote
      rw [if_neg]
      intro hdigit
      simp [isWordChar, Char.isAlphanum, hdigit] at hword
  simp only [tokens?, Token.scan_cons hblank]
  rcases hread with ⟨t, ht, hread⟩ | hread
  · simp only [hread, Token.unbroken?_cons, ht, Token.scan_nil]
    cases Token.unbroken? (Token.scan rest) <;> rfl
  · simp only [hread]
    rfl

/-!
# Lexemes and tokens
-/

/-- The tokens of some lexemes, one after the other, unless one of them is broken. -/
def tokensOfLexemes? : List (List Char) -> Option (List Token)
  | [] => some []
  | l :: ls => (tokens? l).bind fun ts => (tokensOfLexemes? ls).map (ts ++ ·)

/-- The tokens of a text are those of its lexemes. -/
theorem tokens?_eq_tokensOfLexemes? (cs : List Char) :
    tokens? cs = tokensOfLexemes? (lexemes cs) := by
  fun_induction lexemes cs with
  | case1 => exact tokens?_nil
  | case2 c rest hc ih => rw [tokens?_blank hc, ih]
  | case3 c rest hblank hquote body after hclose ih =>
      cases eq_of_beq hquote
      rw [tokens?_text hclose, ih]
      rfl
  | case4 c rest hblank hquote hopen =>
      cases hts : tokens? (c :: rest) <;> simp [tokensOfLexemes?, hts]
  | case5 c rest hblank hquote hword ih =>
      have hw : IsWord (c :: rest.takeWhile isWordChar) :=
        List.forall_mem_cons.mpr ⟨hword, List.all_eq_true.mp List.all_takeWhile⟩
      have ho : StopsWord (rest.dropWhile isWordChar) := by
        intro d hd
        have := List.head?_dropWhile_not isWordChar rest
        simp_all
      rw [tokensOfLexemes?, ← ih, ← tokens?_word hw ho, List.cons_append,
        List.takeWhile_append_dropWhile]
  | case6 c rest hblank hquote hword ih =>
      rw [tokensOfLexemes?, ← ih]
      exact tokens?_mark (by simpa using hblank) (by simpa using hquote) (by simpa using hword)

theorem tokensOfLexemes?_cons {l : List Char} {ls : List (List Char)} {ts : List Token}
    (hts : tokensOfLexemes? (l :: ls) = some ts) :
    ∃ us vs, ts = us ++ vs ∧ tokens? l = some us ∧ tokensOfLexemes? ls = some vs := by
  obtain ⟨us, hus, hrest⟩ := Option.bind_eq_some_iff.mp hts
  obtain ⟨vs, hvs, rfl⟩ := Option.map_eq_some_iff.mp hrest
  exact ⟨us, vs, rfl, hus, hvs⟩

/-- The tokens of two lexemes that stand side by side. -/
theorem tokensOfLexemes?_two {before ls : List (List Char)} {u v : List Char} {ts : List Token}
    (hts : tokensOfLexemes? (before ++ u :: v :: ls) = some ts) :
    ∃ as us vs bs, ts = as ++ (us ++ (vs ++ bs)) ∧ tokens? u = some us ∧ tokens? v = some vs := by
  induction before generalizing ts with
  | nil =>
      obtain ⟨us, rest, rfl, hus, hrest⟩ := tokensOfLexemes?_cons hts
      obtain ⟨vs, bs, rfl, hvs, -⟩ := tokensOfLexemes?_cons hrest
      exact ⟨[], us, vs, bs, rfl, hus, hvs⟩
  | cons l before ih =>
      obtain ⟨ls', rest, rfl, -, hrest⟩ := tokensOfLexemes?_cons hts
      obtain ⟨as, us, vs, bs, rfl, hus, hvs⟩ := ih hrest
      exact ⟨ls' ++ as, us, vs, bs, by simp, hus, hvs⟩

end Json
end Config
end GradualTypes
