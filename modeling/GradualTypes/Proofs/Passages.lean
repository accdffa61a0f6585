import GradualTypes.Proofs.Readings

/-!
# Comments between words

A text falls into passages: comments, texts in quotes, and single characters.  A complete comment
leaves its line breaks when it is removed, or nothing.

If a space is left in the place of each comment, a text is read as before, unless comments without
line breaks stand directly between two characters of words.  Then the word goes on where the
comments have been left out, while with a space in their place nothing is read.
-/

namespace GradualTypes
namespace Config
namespace Comments

open Json

/-!
# The passages of a text
-/

/-- The rest of a comment up to the star and the slash that end it, and what follows; `star` tells
whether the character before was a star of this comment. -/
def closeBlock? (star : Bool) : List Char -> Option (List Char × List Char)
  | [] => none
  | c :: rest =>
      if star && c == '/' then some ([c], rest)
      else (closeBlock? (c == '*') rest).map fun r => (c :: r.1, r.2)

inductive Passage where
  /-- A complete comment. -/
  | comment (cs : List Char)
  /-- A comment that is not closed. -/
  | openComment (cs : List Char)
  /-- A text in quotes. -/
  | text (cs : List Char)
  | char (c : Char)
deriving DecidableEq, Repr

variable {b star : Bool} {c d : Char} {cs rest body after w : List Char}

theorem append_of_closeBlock? (hclose : closeBlock? star cs = some (body, after)) :
    cs = body ++ after := by
  fun_induction closeBlock? star cs generalizing body with
  | case1 => cases hclose
  | case2 star c rest =>
      cases hclose
      rfl
  | case3 star c rest _ ih =>
      obtain ⟨⟨body', after'⟩, hrest, heq⟩ := Option.map_eq_some_iff.mp hclose
      cases heq
      rw [ih hrest]
      rfl

theorem length_closeBlock? (hclose : closeBlock? star cs = some (body, after)) :
    after.length ≤ cs.length := by
  rw [append_of_closeBlock? hclose, List.length_append]
  exact Nat.le_add_left _ _

def inLineComment (c : Char) : Bool :=
  c != '\n'

/-- A text taken apart.  A comment up to the end of a line does not include the line break. -/
def passages : List Char -> List Passage
  | [] => []
  | '/' :: '/' :: rest =>
      .comment ('/' :: '/' :: rest.takeWhile inLineComment) ::
        passages (rest.dropWhile inLineComment)
  | '/' :: '*' :: rest =>
      match _h : closeBlock? false rest with
      | some (body, after) => .comment ('/' :: '*' :: body) :: passages after
      | none => [.openComment ('/' :: '*' :: rest)]
  | '"' :: rest =>
      match _h : closeText? rest with
      | some (body, after) => .text ('"' :: body) :: passages after
      | none => [.text ('"' :: rest)]
  | c :: rest => .char c :: passages rest
termination_by cs => cs.length
decreasing_by
  · have := (List.dropWhile_suffix (l := rest) inLineComment).length_le
    simp only [List.length_cons]
    omega
  · have := length_closeBlock? _h
    simp only [List.length_cons]
    omega
  · have := length_closeText? _h
    simp only [List.length_cons]
    omega
  · simp

namespace Passage

def chars : Passage -> List Char
  | comment cs => cs
  | openComment cs => cs
  | text cs => cs
  | char c => [c]

/-- A passage, with a space in the place of a complete comment. -/
def spaced : Passage -> List Char
  | comment _ => [' ']
  | p => p.chars

/-- Whether a passage is a comment without line breaks. -/
def isSilent : Passage -> Bool
  | comment cs => !cs.contains '\n'
  | _ => false

end Passage

/-- A text with a space in the place of each complete comment. -/
def spaced (cs : List Char) : List Char :=
  (passages cs).flatMap Passage.spaced

/-- The passages of a text make up the text. -/
theorem flatMap_chars_passages (cs : List Char) : (passages cs).flatMap Passage.chars = cs := by
  fun_induction passages cs with
  | case1 => rfl
  | case2 rest ih => simp [Passage.chars, ih, List.takeWhile_append_dropWhile]
  | case3 rest body after hclose ih =>
      simp [Passage.chars, ih, append_of_closeBlock? hclose]
  | case4 rest hopen => simp [Passage.chars]
  | case5 rest body after hclose ih =>
      simp [Passage.chars, ih, (closeText?_append hclose []).1]
  | case6 rest hopen => simp [Passage.chars]
  | case7 c rest _ _ _ ih => simp [Passage.chars, ih]

/-- A character of a word comes next, or after comments without line breaks only. -/
inductive BeginsWord : List Passage -> Prop where
  | char {c : Char} {ps : List Passage} (hc : isWordChar c = true) : BeginsWord (.char c :: ps)
  | comment {p : Passage} {ps : List Passage} (hp : p.isSilent = true) (hps : BeginsWord ps) :
      BeginsWord (p :: ps)

/-- After at least one comment without line breaks a word comes next. -/
def GoesOn (ps : List Passage) : Prop :=
  ∃ p rest, ps = p :: rest ∧ p.isSilent = true ∧ BeginsWord rest

/-- Comments without line breaks stand directly between two characters of words.  Where they are
left out, one word goes on with the other. -/
def JoinsWords (cs : List Char) : Prop :=
  ∃ c ps, isWordChar c = true ∧ GoesOn ps ∧ .char c :: ps <:+ passages cs

/-!
# What is left of a passage
-/

section Equations

attribute [local simp] outside inLine inBlock inString passages

theorem inLine_eq (b : Bool) (cs : List Char) :
    inLine b cs = outside b (cs.dropWhile inLineComment) := by
  induction cs with
  | nil => rfl
  | cons c rest ih =>
      by_cases hc : c = '\n'
      · subst hc
        cases b <;> rfl
      · rw [List.dropWhile_cons_of_pos (by simpa [inLineComment] using hc), ← ih, inLine]
        exact hc

theorem outside_line (b : Bool) (rest : List Char) :
    outside b ('/' :: '/' :: rest) = outside b (rest.dropWhile inLineComment) := by
  simp [inLine_eq]

/-- The line breaks of a comment. -/
def breaks (cs : List Char) : List Char :=
  cs.filter (· == '\n')

theorem inBlock_eq (hclose : closeBlock? star cs = some (body, after)) (b : Bool) :
    inBlock b star cs = breaks body ++ outside b after := by
  fun_induction closeBlock? star cs generalizing body with
  | case1 => cases hclose
  | case2 star c rest hend =>
      cases hclose
      rw [inBlock, if_pos hend]
      simp only [Bool.and_eq_true, beq_iff_eq] at hend
      simp [hend.2, breaks]
  | case3 star c rest hend ih =>
      obtain ⟨⟨body', after'⟩, hrest, heq⟩ := Option.map_eq_some_iff.mp hclose
      cases heq
      rw [inBlock, if_neg hend]
      by_cases hc : c = '\n'
      · subst hc
        exact congrArg ('\n' :: ·) (ih hrest)
      · simp [breaks, hc, ih hrest]

theorem inBlock_open (hopen : closeBlock? star cs = none) (b : Bool) :
    inBlock b star cs = breaks cs ++ held b [] := by
  fun_induction closeBlock? star cs with
  | case1 => rfl
  | case2 => cases hopen
  | case3 star c rest hend ih =>
      rw [inBlock, if_neg hend]
      have hrest := ih (Option.map_eq_none_iff.mp hopen)
      by_cases hc : c = '\n'
      · subst hc
        exact congrArg ('\n' :: ·) hrest
      · simp [breaks, hc, hrest]

theorem outside_block (hclose : closeBlock? false rest = some (body, after)) (b : Bool) :
    outside b ('/' :: '*' :: rest) = breaks body ++ outside b after := by
  simp [inBlock_eq hclose]

theorem inString_eq (hclose : closeText? cs = some (body, after)) :
    inString cs = body ++ outside false after := by
  fun_induction closeText? cs generalizing body with
  | case1 => cases hclose
  | case2 c rest ih =>
      obtain ⟨⟨body', after'⟩, hrest, heq⟩ := Option.map_eq_some_iff.mp hclose
      cases heq
      rw [inString, ih hrest]
      rfl
  | case3 rest =>
      cases hclose
      rfl
  | case4 c rest hescape hquote ih =>
      obtain ⟨⟨body', after'⟩, hrest, heq⟩ := Option.map_eq_some_iff.mp hclose
      cases heq
      rw [inString, ih hrest]
      · rfl
      · exact hescape
      · exact hquote

theorem outside_text (hclose : closeText? rest = some (body, after)) (b : Bool) :
    outside b ('"' :: rest) = held b ('"' :: body ++ outside false after) := by
  simp [inString_eq hclose]

theorem inString_open (hopen : closeText? cs = none) : inString cs = cs := by
  fun_induction closeText? cs with
  | case1 => rfl
  | case2 c rest ih => rw [inString, ih (Option.map_eq_none_iff.mp hopen)]
  | case3 rest => cases hopen
  | case4 c rest hescape hquote ih =>
      rw [inString, ih (Option.map_eq_none_iff.mp hopen)]
      · exact hescape
      · exact hquote

theorem outside_openText (hopen : closeText? rest = none) (b : Bool) :
    outside b ('"' :: rest) = held b ('"' :: rest) := by
  simp [inString_open hopen]

/-- Neither a text in quotes nor a comment begins with this character. -/
structure IsPlain (c : Char) (rest : List Char) : Prop where
  quote : c ≠ '"'
  slash : c = '/' -> ∀ d ∈ rest.head?, d ≠ '/' ∧ d ≠ '*'

theorem isPlain_of_ne (hquote : c ≠ '"') (hslash : c ≠ '/') : IsPlain c rest where
  quote := hquote
  slash hc := absurd hc hslash

theorem outside_comma (b : Bool) (rest : List Char) :
    outside b (',' :: rest) = held b (outside true rest) := by
  simp

theorem outside_plain (hplain : IsPlain c rest) (hcomma : c ≠ ',') (b : Bool) :
    outside b (c :: rest) =
      if Text.isBlank c then c :: outside b rest
      else held (b && !isCloser c) (c :: outside false rest) := by
  rw [outside]
  · rintro rest' rfl rfl
    exact (hplain.slash rfl '/' rfl).1 rfl
  · rintro rest' rfl rfl
    exact (hplain.slash rfl '*' rfl).2 rfl
  · exact hcomma
  · exact hplain.quote

theorem passages_line (rest : List Char) :
    passages ('/' :: '/' :: rest) =
      .comment ('/' :: '/' :: rest.takeWhile inLineComment) ::
        passages (rest.dropWhile inLineComment) := by
  simp

theorem passages_block (hclose : closeBlock? false rest = some (body, after)) :
    passages ('/' :: '*' :: rest) = .comment ('/' :: '*' :: body) :: passages after := by
  rw [passages]
  split
  · rename_i hsome
    rw [hclose] at hsome
    cases hsome
    rfl
  · rename_i hnone
    rw [hclose] at hnone
    cases hnone

theorem passages_openBlock (hopen : closeBlock? false rest = none) :
    passages ('/' :: '*' :: rest) = [.openComment ('/' :: '*' :: rest)] := by
  rw [passages]
  split
  · rename_i hsome
    rw [hopen] at hsome
    cases hsome
  · rfl

theorem passages_text (hclose : closeText? rest = some (body, after)) :
    passages ('"' :: rest) = .text ('"' :: body) :: passages after := by
  rw [passages]
  split
  · rename_i hsome
    rw [hclose] at hsome
    cases hsome
    rfl
  · rename_i hnone
    rw [hclose] at hnone
    cases hnone

theorem passages_openText (hopen : closeText? rest = none) :
    passages ('"' :: rest) = [.text ('"' :: rest)] := by
  rw [passages]
  split
  · rename_i hsome
    rw [hopen] at hsome
    cases hsome
  · rfl

theorem passages_plain (hplain : IsPlain c rest) :
    passages (c :: rest) = .char c :: passages rest := by
  rw [passages]
  · rintro rest' rfl rfl
    exact (hplain.slash rfl '/' rfl).1 rfl
  · rintro rest' rfl rfl
    exact (hplain.slash rfl '*' rfl).2 rfl
  · exact hplain.quote

end Equations

theorem isPlain_of_passages (hline : ∀ rest', c = '/' -> rest = '/' :: rest' -> False)
    (hblock : ∀ rest', c = '/' -> rest = '*' :: rest' -> False) (hquote : c = '"' -> False) :
    IsPlain c rest where
  quote := hquote
  slash hc d hd := by
    cases rest with
    | nil => cases hd
    | cons e rest =>
        cases hd
        exact ⟨fun he => hline rest hc (he ▸ rfl), fun he => hblock rest hc (he ▸ rfl)⟩

/-!
# Spaces in the place of comments
-/

theorem spaced_line (rest : List Char) :
    spaced ('/' :: '/' :: rest) = ' ' :: spaced (rest.dropWhile inLineComment) := by
  rw [spaced, passages_line]
  rfl

theorem spaced_block (hclose : closeBlock? false rest = some (body, after)) :
    spaced ('/' :: '*' :: rest) = ' ' :: spaced after := by
  rw [spaced, passages_block hclose]
  rfl

theorem spaced_openBlock (hopen : closeBlock? false rest = none) :
    spaced ('/' :: '*' :: rest) = '/' :: '*' :: rest := by
  rw [spaced, passages_openBlock hopen]
  simp [Passage.spaced, Passage.chars]

theorem spaced_text (hclose : closeText? rest = some (body, after)) :
    spaced ('"' :: rest) = '"' :: body ++ spaced after := by
  rw [spaced, passages_text hclose]
  rfl

theorem spaced_openText (hopen : closeText? rest = none) : spaced ('"' :: rest) = '"' :: rest := by
  rw [spaced, passages_openText hopen]
  simp [Passage.spaced, Passage.chars]

theorem spaced_plain (hplain : IsPlain c rest) : spaced (c :: rest) = c :: spaced rest := by
  rw [spaced, passages_plain hplain]
  rfl

theorem head_spaced (cs : List Char) : ∀ d ∈ (spaced cs).head?, d = ' ' ∨ d ∈ cs.head? := by
  intro d hd
  induction cs using passages.induct with
  | case1 => simp [spaced, passages] at hd
  | case2 rest _ =>
      rw [spaced_line] at hd
      exact .inl (Option.some.inj hd).symm
  | case3 rest body after hclose _ =>
      rw [spaced_block hclose] at hd
      exact .inl (Option.some.inj hd).symm
  | case4 rest hopen =>
      rw [spaced_openBlock hopen] at hd
      exact .inr hd
  | case5 rest body after hclose _ =>
      rw [spaced_text hclose] at hd
      exact .inr hd
  | case6 rest hopen =>
      rw [spaced_openText hopen] at hd
      exact .inr hd
  | case7 c rest hline hblock hquote _ =>
      rw [spaced_plain (isPlain_of_passages hline hblock hquote)] at hd
      exact .inr hd

theorem IsPlain.spaced (hplain : IsPlain c rest) : IsPlain c (spaced rest) where
  quote := hplain.quote
  slash hc d hd := by
    rcases head_spaced rest d hd with rfl | hd
    · decide
    · exact hplain.slash hc d hd

/-!
# The lexemes of a passage
-/

def ofWord (w : List Char) : List (List Char) :=
  if w.isEmpty then [] else [w]

theorem lexemes_append (hw : IsWord w) {o : List Char} (ho : StopsWord o) :
    lexemes (w ++ o) = ofWord w ++ lexemes o := by
  cases w with
  | nil => rfl
  | cons c rest => exact lexemes_word (by simp) hw ho

theorem stopsWord_cons (hc : isWordChar c = false) : StopsWord (c :: rest) := by
  rintro d hd
  cases hd
  exact hc

theorem not_wordChar_of_blank (hc : Text.isBlank c = true) : isWordChar c = false := by
  simp only [Text.isBlank, Text.blankRanges, List.any_cons, List.any_nil, Bool.or_false,
    Bool.or_eq_true, Bool.and_eq_true, decide_eq_true_eq, Char.toNat] at hc
  have hplus : c ≠ '+' := by
    rintro rfl
    revert hc
    decide
  have hminus : c ≠ '-' := by
    rintro rfl
    revert hc
    decide
  have hpoint : c ≠ '.' := by
    rintro rfl
    revert hc
    decide
  have hletter : c.isAlphanum = false := by
    rw [Bool.eq_false_iff]
    intro hletter
    delta Char.isAlphanum Char.isAlpha Char.isUpper Char.isLower Char.isDigit at hletter
    simp only [Bool.or_eq_true, Bool.and_eq_true, decide_eq_true_eq, ge_iff_le,
      UInt32.le_iff_toNat_le, Char.reduceVal, UInt32.reduceToNat] at hletter
    omega
  simp [isWordChar, hletter, hplus, hminus, hpoint]

theorem blank_of_blank (hc : Token.isBlank c = true) : Text.isBlank c = true := by
  simp only [Token.isBlank, Bool.or_eq_true, beq_iff_eq] at hc
  rcases hc with ((rfl | rfl) | rfl) | rfl <;> decide

theorem lexemes_cons_blank (hc : Text.isBlank c = true) (o : List Char) :
    lexemes (c :: o) = lexemes [c] ++ lexemes o := by
  have hword := not_wordChar_of_blank hc
  have hquote : c ≠ '"' := by
    rintro rfl
    revert hc
    decide
  cases hblank : Token.isBlank c with
  | true => rw [lexemes_blank hblank, lexemes_blank hblank, lexemes_nil, List.nil_append]
  | false =>
      rw [lexemes_mark hblank hquote hword, lexemes_mark hblank hquote hword, lexemes_nil]
      rfl

/-- A comma that is held back, as a lexeme. -/
def comma (b : Bool) : List (List Char) :=
  if b then [[',']] else []

theorem lexemes_held (hw : IsWord w) {o : List Char} (b : Bool) (ho : StopsWord o) :
    lexemes (w ++ held b o) = ofWord w ++ comma b ++ lexemes o := by
  cases b with
  | false => simpa [held, comma] using lexemes_append hw ho
  | true =>
      rw [held, if_pos rfl, lexemes_append hw (stopsWord_cons (by decide)),
        lexemes_mark (by decide) (by decide) (by decide)]
      simp [comma]

theorem lexemes_heldText (hw : IsWord w) (hclose : closeText? rest = some (body, after)) (b : Bool)
    (o : List Char) : lexemes (w ++ held b ('"' :: body ++ o)) =
      ofWord w ++ comma b ++ ('"' :: body) :: lexemes o := by
  rw [List.cons_append, lexemes_held hw b (stopsWord_cons (by decide)),
    lexemes_text (closeText?_append hclose o).2]

/-- What a character adds to the lexemes before it, and the word and the comma after it. -/
theorem lexemes_char (hw : IsWord w) (b : Bool) (hquote : c ≠ '"') :
    ∃ ls w' b', IsWord w' ∧ (w' ≠ [] ∧ b' = false ↔ isWordChar c = true) ∧
      ∀ rest, IsPlain c rest ->
        lexemes (w ++ outside b (c :: rest)) = ls ++ lexemes (w' ++ outside b' rest) := by
  by_cases hcomma : c = ','
  · subst hcomma
    have hmark : isWordChar ',' = false := by decide
    cases b with
    | false =>
        refine ⟨[], w, true, hw, by simp [hmark], fun rest _ => ?_⟩
        rw [outside_comma]
        rfl
    | true =>
        refine ⟨ofWord w ++ [[',']], [], true, by decide, by simp [hmark], fun rest _ => ?_⟩
        rw [outside_comma, held, if_pos rfl, lexemes_append hw (stopsWord_cons hmark),
          lexemes_mark (by decide) (by decide) hmark]
        simp
  · cases hblank : Text.isBlank c with
    | true =>
        have hword := not_wordChar_of_blank hblank
        refine ⟨ofWord w ++ lexemes [c], [], b, by decide, by simp [hword], fun rest hplain => ?_⟩
        rw [outside_plain hplain hcomma, if_pos hblank, lexemes_append hw (stopsWord_cons hword),
          lexemes_cons_blank hblank, List.append_assoc, List.nil_append]
    | false =>
        have hplain' : Token.isBlank c = false := by
          rw [Bool.eq_false_iff]
          exact fun h => by simp [blank_of_blank h] at hblank
        cases hword : isWordChar c with
        | false =>
            refine ⟨ofWord w ++ comma (b && !isCloser c) ++ [[c]], [], false, by decide,
              by simp, fun rest hplain => ?_⟩
            rw [outside_plain hplain hcomma, if_neg (by simp [hblank]),
              lexemes_held hw _ (stopsWord_cons hword), lexemes_mark hplain' hquote hword]
            simp
        | true =>
            have hcloser : isCloser c = false := by
              rw [Bool.eq_false_iff]
              intro h
              simp only [isCloser, Bool.or_eq_true, beq_iff_eq] at h
              rcases h with rfl | rfl <;> exact absurd hword (by decide)
            cases b with
            | false =>
                refine ⟨[], w ++ [c], false, ?_, by simp, fun rest hplain => ?_⟩
                · exact List.forall_mem_append.mpr ⟨hw, by simpa using hword⟩
                · rw [outside_plain hplain hcomma, if_neg (by simp [hblank])]
                  simp [held]
            | true =>
                refine ⟨ofWord w ++ [[',']], [c], false, by simpa [IsWord] using hword, by simp,
                  fun rest hplain => ?_⟩
                rw [outside_plain hplain hcomma, if_neg (by simp [hblank]), hcloser]
                simp only [held, Bool.not_false, Bool.and_true, if_true]
                rw [lexemes_append hw (stopsWord_cons (by decide)),
                  lexemes_mark (by decide) (by decide) (by decide)]
                simp

theorem stopsWord_nil : StopsWord [] := by
  simp [StopsWord]

theorem stopsWord_held {o : List Char} (ho : StopsWord o) (b : Bool) : StopsWord (held b o) := by
  cases b with
  | false => exact ho
  | true => exact stopsWord_cons (by decide)

theorem stopsWord_breaks {o : List Char} (ho : '\n' ∉ cs -> StopsWord o) :
    StopsWord (breaks cs ++ o) := by
  cases hcs : breaks cs with
  | nil => exact ho fun hmem => List.filter_eq_nil_iff.mp hcs _ hmem rfl
  | cons c rest =>
      have hc : c ∈ breaks cs := hcs ▸ List.mem_cons_self
      refine stopsWord_cons ?_
      rw [eq_of_beq (List.mem_filter.mp hc).2]
      decide

theorem isSilent_block (hbody : '\n' ∉ body) :
    (Passage.comment ('/' :: '*' :: body)).isSilent = true := by
  simp [Passage.isSilent, hbody]

/-- Before the end of a line no word goes on. -/
theorem stopsWord_afterLine (b : Bool) (rest : List Char) :
    StopsWord (outside b (rest.dropWhile inLineComment)) := by
  cases hdrop : rest.dropWhile inLineComment with
  | nil => exact stopsWord_held stopsWord_nil b
  | cons c after =>
      have hc : inLineComment c = false := by
        have hhead := List.head?_dropWhile_not inLineComment rest
        rw [hdrop] at hhead
        simpa using hhead
      have heq : c = '\n' := by simpa [inLineComment] using hc
      subst heq
      rw [outside_plain (isPlain_of_ne (by decide) (by decide)) (by decide)]
      exact stopsWord_cons (by decide)

/-- A word does not go on in what is left of a text if a comma is held back or no word begins. -/
theorem stopsWord_outside (cs : List Char) : ∀ b, (b = false -> ¬BeginsWord (passages cs)) ->
    StopsWord (outside b cs) := by
  induction cs using passages.induct with
  | case1 => exact fun b _ => stopsWord_held stopsWord_nil b
  | case2 rest _ =>
      intro b _
      rw [outside_line]
      exact stopsWord_afterLine b rest
  | case3 rest body after hclose ih =>
      intro b hb
      rw [outside_block hclose]
      rw [passages_block hclose] at hb
      exact stopsWord_breaks fun hbody => ih b fun hfalse hbegins =>
        hb hfalse (.comment (isSilent_block hbody) hbegins)
  | case4 rest hopen =>
      intro b _
      rw [outside, inBlock_open hopen]
      exact stopsWord_breaks fun _ => stopsWord_held stopsWord_nil b
  | case5 rest body after hclose _ =>
      intro b _
      rw [outside_text hclose]
      exact stopsWord_held (stopsWord_cons (by decide)) b
  | case6 rest hopen =>
      intro b _
      rw [outside_openText hopen]
      exact stopsWord_held (stopsWord_cons (by decide)) b
  | case7 c rest hline hblock hquote ih =>
      intro b hb
      have hplain := isPlain_of_passages hline hblock hquote
      rw [passages_plain hplain] at hb
      by_cases hcomma : c = ','
      · subst hcomma
        rw [outside_comma]
        cases b with
        | false => exact ih true (by simp)
        | true => exact stopsWord_cons (by decide)
      · rw [outside_plain hplain hcomma]
        split
        · exact stopsWord_cons (not_wordChar_of_blank ‹_›)
        · cases b with
          | false =>
              refine stopsWord_cons ?_
              rw [Bool.eq_false_iff]
              exact fun hc => hb rfl (.char hc)
          | true =>
              cases hcloser : isCloser c with
              | false => exact stopsWord_cons (by decide)
              | true =>
                  simp only [isCloser, Bool.or_eq_true, beq_iff_eq] at hcloser
                  rcases hcloser with rfl | rfl <;> exact stopsWord_cons (by decide)

/-!
# Texts with spaces in the place of comments
-/

theorem not_joinsWords_of_suffix {p : Passage} {ps : List Passage} (hjoins : ¬JoinsWords cs)
    (hcs : passages cs = p :: ps) (hps : ps = passages after) : ¬JoinsWords after := by
  rintro ⟨c, qs, hc, hqs, hsuffix⟩
  refine hjoins ⟨c, qs, hc, hqs, ?_⟩
  rw [hcs, hps]
  exact hsuffix.trans (List.suffix_cons _ _)

/-- A space after a word ends it. -/
theorem lexemes_space (hw : IsWord w) (b : Bool) (rest : List Char) :
    lexemes (w ++ outside b (' ' :: rest)) = ofWord w ++ lexemes (outside b rest) := by
  rw [outside_plain (isPlain_of_ne (by decide) (by decide)) (by decide), if_pos (by decide),
    lexemes_append hw (stopsWord_cons (by decide)), lexemes_blank (by decide)]

theorem lexemes_breaks (cs o : List Char) : lexemes (breaks cs ++ o) = lexemes o := by
  refine lexemes_blanks (fun c hc => ?_) o
  rw [eq_of_beq (List.mem_filter.mp hc).2]
  decide

/-- A text has the same lexemes with spaces in the place of comments, unless comments join
words. -/
theorem lexemes_outside_spaced (cs : List Char) : ∀ w b, IsWord w -> ¬JoinsWords cs ->
    (w ≠ [] -> b = false -> ¬GoesOn (passages cs)) ->
      lexemes (w ++ outside b (spaced cs)) = lexemes (w ++ outside b cs) := by
  induction cs using passages.induct with
  | case1 =>
      intro w b _ _ _
      rw [spaced, passages]
      rfl
  | case2 rest ih =>
      intro w b hw hjoins _
      have hafter := ih [] b (by decide)
        (not_joinsWords_of_suffix hjoins (passages_line rest) rfl) (by simp)
      rw [spaced_line, lexemes_space hw, outside_line,
        lexemes_append hw (stopsWord_afterLine b rest)]
      exact congrArg (ofWord w ++ ·) hafter
  | case3 rest body after hclose ih =>
      intro w b hw hjoins hgoes
      have hafter := ih [] b (by decide)
        (not_joinsWords_of_suffix hjoins (passages_block hclose) rfl) (by simp)
      rw [spaced_block hclose, lexemes_space hw, outside_block hclose]
      cases w with
      | nil => rw [List.nil_append, lexemes_breaks]; exact hafter
      | cons c w =>
          have hstops : StopsWord (breaks body ++ outside b after) :=
            stopsWord_breaks fun hbody => stopsWord_outside after b fun hb hbegins =>
              hgoes (by simp) hb ⟨_, _, passages_block hclose, isSilent_block hbody, hbegins⟩
          rw [lexemes_append hw hstops, lexemes_breaks]
          exact congrArg (ofWord (c :: w) ++ ·) hafter
  | case4 rest hopen =>
      intro w b _ _ _
      rw [spaced_openBlock hopen]
  | case5 rest body after hclose ih =>
      intro w b hw hjoins _
      have hafter := ih [] false (by decide)
        (not_joinsWords_of_suffix hjoins (passages_text hclose) rfl) (by simp)
      rw [spaced_text hclose, List.cons_append, outside_text (closeText?_append hclose _).2,
        outside_text hclose, lexemes_heldText hw hclose, lexemes_heldText hw hclose]
      exact congrArg (ofWord w ++ comma b ++ ('"' :: body) :: ·) hafter
  | case6 rest hopen =>
      intro w b _ _ _
      rw [spaced_openText hopen]
  | case7 c rest hline hblock hquote ih =>
      intro w b hw hjoins _
      have hplain := isPlain_of_passages hline hblock hquote
      obtain ⟨ls, w', b', hword', hiff, hchar⟩ := lexemes_char hw b hplain.quote
      rw [spaced_plain hplain, hchar _ hplain.spaced, hchar _ hplain, ih w' b' hword'
        (not_joinsWords_of_suffix hjoins (passages_plain hplain) rfl)]
      intro hne hfalse hgoes
      exact hjoins ⟨c, _, hiff.mp ⟨hne, hfalse⟩, hgoes, (passages_plain hplain).symm ▸
        List.suffix_rfl⟩

/-!
# Words that comments join
-/

/-- Two words stand side by side. -/
def HasTwoWords (ls : List (List Char)) : Prop :=
  ∃ before u v rest, ls = before ++ u :: v :: rest ∧ (u ≠ [] ∧ IsWord u) ∧ v ≠ [] ∧ IsWord v

theorem HasTwoWords.append {ls : List (List Char)} (hls : HasTwoWords ls)
    (before : List (List Char)) :
    HasTwoWords (before ++ ls) := by
  obtain ⟨before', u, v, rest, rfl, hu, hv⟩ := hls
  exact ⟨before ++ before', u, v, rest, by simp, hu, hv⟩

/-- After comments without line breaks a word comes. -/
theorem word_of_beginsWord (cs : List Char) : BeginsWord (passages cs) ->
    ∃ v rest, lexemes (outside false (spaced cs)) = v :: rest ∧ v ≠ [] ∧ IsWord v := by
  induction cs using passages.induct with
  | case1 =>
      intro hbegins
      rw [passages] at hbegins
      cases hbegins
  | case2 rest ih =>
      intro hbegins
      rw [passages_line] at hbegins
      rw [spaced_line, ← List.nil_append (outside _ _), lexemes_space (by decide)]
      cases hbegins with
      | comment _ hafter => exact ih hafter
  | case3 rest body after hclose ih =>
      intro hbegins
      rw [passages_block hclose] at hbegins
      rw [spaced_block hclose, ← List.nil_append (outside _ _), lexemes_space (by decide)]
      cases hbegins with
      | comment _ hafter => exact ih hafter
  | case4 rest hopen =>
      intro hbegins
      rw [passages_openBlock hopen] at hbegins
      cases hbegins with
      | comment hp _ => cases hp
  | case5 rest body after hclose _ =>
      intro hbegins
      rw [passages_text hclose] at hbegins
      cases hbegins with
      | comment hp _ => cases hp
  | case6 rest hopen =>
      intro hbegins
      rw [passages_openText hopen] at hbegins
      cases hbegins with
      | comment hp _ => cases hp
  | case7 c rest hline hblock hquote _ =>
      intro hbegins
      have hplain := isPlain_of_passages hline hblock hquote
      rw [passages_plain hplain] at hbegins
      cases hbegins with
      | comment hp _ => cases hp
      | char hc =>
          have hblank : Text.isBlank c = false := by
            rw [Bool.eq_false_iff]
            exact fun h => by simp [not_wordChar_of_blank h] at hc
          have hcomma : c ≠ ',' := by
            rintro rfl
            exact absurd hc (by decide)
          rw [spaced_plain hplain, outside_plain hplain.spaced hcomma, if_neg (by simp [hblank]),
            held, Bool.false_and, if_neg (by simp), lexemes_wordChar hc]
          exact ⟨_, _, rfl, by simp,
            List.forall_mem_cons.mpr ⟨hc, List.all_eq_true.mp List.all_takeWhile⟩⟩

theorem hasTwoWords_of_goesOn (hw : IsWord w) (hne : w ≠ []) (hgoes : GoesOn (passages cs)) :
    HasTwoWords (lexemes (w ++ outside false (spaced cs))) := by
  have htwo : ∀ after, BeginsWord (passages after) ->
      HasTwoWords (lexemes (w ++ outside false (' ' :: spaced after))) := by
    intro after hbegins
    obtain ⟨v, rest, hv, hword⟩ := word_of_beginsWord after hbegins
    refine ⟨[], w, v, rest, ?_, ⟨hne, hw⟩, hword⟩
    rw [lexemes_space hw, hv, ofWord, if_neg (by simpa using hne)]
    rfl
  obtain ⟨p, ps, hcs, hp, hbegins⟩ := hgoes
  cases cs using passages.fun_cases with
  | case1 => simp [passages] at hcs
  | case2 rest =>
      rw [passages_line] at hcs
      cases hcs
      exact spaced_line rest ▸ htwo _ hbegins
  | case3 rest body after hclose =>
      rw [passages_block hclose] at hcs
      cases hcs
      exact spaced_block hclose ▸ htwo _ hbegins
  | case4 rest hopen =>
      rw [passages_openBlock hopen] at hcs
      cases hcs
      cases hp
  | case5 rest body after hclose =>
      rw [passages_text hclose] at hcs
      cases hcs
      cases hp
  | case6 rest hopen =>
      rw [passages_openText hopen] at hcs
      cases hcs
      cases hp
  | case7 c rest hline hblock hquote =>
      rw [passages_plain (isPlain_of_passages hline hblock hquote)] at hcs
      cases hcs
      cases hp

theorem joinsWords_cons {p : Passage} (hcs : passages cs = p :: passages after)
    (hjoins : JoinsWords cs) :
    JoinsWords after ∨ ∃ c, isWordChar c = true ∧ p = .char c ∧ GoesOn (passages after) := by
  obtain ⟨c, ps, hc, hps, hsuffix⟩ := hjoins
  rw [hcs, List.suffix_cons_iff] at hsuffix
  rcases hsuffix with heq | hsuffix
  · cases heq
    exact .inr ⟨c, hc, rfl, hps⟩
  · exact .inl ⟨c, ps, hc, hps, hsuffix⟩

theorem not_joinsWords_of_singleton {p : Passage} (hcs : passages cs = [p]) : ¬JoinsWords cs := by
  rintro ⟨c, ps, hc, ⟨q, rest, rfl, _⟩, hsuffix⟩
  rw [hcs, List.suffix_cons_iff] at hsuffix
  rcases hsuffix with heq | hsuffix
  · cases heq
  · cases List.suffix_nil.mp hsuffix

/-- With spaces in the place of comments that join words these words stand side by side. -/
theorem hasTwoWords_of_joinsWords (cs : List Char) : ∀ w b, IsWord w -> JoinsWords cs ->
    HasTwoWords (lexemes (w ++ outside b (spaced cs))) := by
  induction cs using passages.induct with
  | case1 =>
      intro w b _ hjoins
      obtain ⟨c, ps, _, _, hsuffix⟩ := hjoins
      rw [passages] at hsuffix
      cases List.suffix_nil.mp hsuffix
  | case2 rest ih =>
      intro w b hw hjoins
      rw [spaced_line, lexemes_space hw]
      rcases joinsWords_cons (passages_line rest) hjoins with hafter | ⟨c, _, heq, _⟩
      · exact (ih [] b (by decide) hafter).append _
      · cases heq
  | case3 rest body after hclose ih =>
      intro w b hw hjoins
      rw [spaced_block hclose, lexemes_space hw]
      rcases joinsWords_cons (passages_block hclose) hjoins with hafter | ⟨c, _, heq, _⟩
      · exact (ih [] b (by decide) hafter).append _
      · cases heq
  | case4 rest hopen =>
      intro w b _ hjoins
      exact absurd hjoins (not_joinsWords_of_singleton (passages_openBlock hopen))
  | case5 rest body after hclose ih =>
      intro w b hw hjoins
      rw [spaced_text hclose, List.cons_append, outside_text (closeText?_append hclose _).2,
        lexemes_heldText hw hclose]
      rcases joinsWords_cons (passages_text hclose) hjoins with hafter | ⟨c, _, heq, _⟩
      · exact ((ih [] false (by decide) hafter).append [_]).append _
      · cases heq
  | case6 rest hopen =>
      intro w b _ hjoins
      exact absurd hjoins (not_joinsWords_of_singleton (passages_openText hopen))
  | case7 c rest hline hblock hquote ih =>
      intro w b hw hjoins
      have hplain := isPlain_of_passages hline hblock hquote
      obtain ⟨ls, w', b', hword', hiff, hchar⟩ := lexemes_char hw b hplain.quote
      rw [spaced_plain hplain, hchar _ hplain.spaced]
      rcases joinsWords_cons (passages_plain hplain) hjoins with hafter | ⟨d, hd, heq, hgoes⟩
      · exact (ih w' b' hword' hafter).append ls
      · cases heq
        obtain ⟨hne, rfl⟩ := hiff.mpr hd
        exact (hasTwoWords_of_goesOn hword' hne hgoes).append ls

end Comments

/-!
# What is read
-/

open Comments Json

/-- Nothing is read of a text with two words side by side. -/
theorem not_ofTokens_of_hasTwoWords {cs : List Char} {config : Config}
    (htwo : HasTwoWords (lexemes cs)) : ofTokens (Token.scan cs) ≠ .ok config := by
  intro hok
  obtain ⟨ts, hts, hproper, -⟩ := ofTokens_scan_eq_ok_iff.mp hok
  obtain ⟨before, u, v, rest, hcs, ⟨hune, hu⟩, hvne, hv⟩ := htwo
  rw [hcs] at hts
  obtain ⟨as, us, vs, bs, rfl, hus, hvs⟩ := tokensOfLexemes?_two hts
  obtain ⟨us', t, rfl, ht⟩ : ∃ us' t, us = us' ++ [t] ∧ t.isScalar = true := by
    obtain ⟨hne, hall⟩ := tokens?_of_word hu hune hus
    exact ⟨us.dropLast, us.getLast hne, (List.dropLast_concat_getLast hne).symm,
      hall _ (List.getLast_mem hne)⟩
  obtain ⟨t', vs', rfl, ht'⟩ : ∃ t' vs', vs = t' :: vs' ∧ t'.isScalar = true := by
    obtain ⟨hne, hall⟩ := tokens?_of_word hv hvne hvs
    cases vs with
    | nil => exact absurd rfl hne
    | cons t' vs' => exact ⟨t', vs', rfl, hall _ List.mem_cons_self⟩
  have hchain := hproper.apart
  simp only [List.append_assoc, List.cons_append, List.nil_append] at hchain
  rw [← List.append_assoc, List.isChain_append_cons_cons] at hchain
  simpa [ht'] using hchain.2.1 ht

end Config
end GradualTypes
