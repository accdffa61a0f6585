import GradualTypes.Text.Quoted
import Mathlib.Data.List.Basic

/-!
# Unique reading

Texts of words, quoted texts, marks and bracketed groups are read in one way only, as long as
no word follows another one directly.  The tokens are those of the texts of types; a group is
one token with the tokens inside it, so that its marks do not count as marks of the text
around it.
-/

namespace GradualTypes
namespace Render

/-!
# Tokens
-/

inductive Bracket where
  | round
  | angle
  | curly
deriving DecidableEq

def Bracket.opening : Bracket -> Char
  | round => '('
  | angle => '<'
  | curly => '\x7b'

def Bracket.closing : Bracket -> Char
  | round => ')'
  | angle => '>'
  | curly => '\x7d'

inductive Mark where
  | comma
  | colon
  | question
  | bar
  | ampersand
deriving DecidableEq

def Mark.chars : Mark -> List Char
  | comma => [',', ' ']
  | colon => [':', ' ']
  | question => ['?']
  | bar => ['|']
  | ampersand => ['&']

inductive Token where
  | word (w : String)
  | quoted (s : String)
  | mark (m : Mark)
  | group (b : Bracket) (inner : List Token)

mutual

def Token.chars : Token -> List Char
  | .word w => w.toList
  | .quoted s => Text.Quoted.encode s.toList
  | .mark m => m.chars
  | .group b inner => b.opening :: (chars inner ++ [b.closing])

def chars : List Token -> List Char
  | [] => []
  | t :: ts => t.chars ++ chars ts

end

theorem chars_append (ts us : List Token) : chars (ts ++ us) = chars ts ++ chars us := by
  induction ts with
  | nil => rfl
  | cons t ts ih => rw [List.cons_append, chars, chars, ih, List.append_assoc]

/-!
# What a text starts with
-/

def isWordChar (c : Char) : Bool :=
  c.isAlphanum || ['_', '-', '.', '*', '$'].contains c

inductive Lead where
  | word
  | quote
  | mark
  | opening
  /-- A closing bracket, or anything else that starts no token. -/
  | closing
deriving DecidableEq

def Lead.ofChar (c : Char) : Lead :=
  if isWordChar c then word
  else if c == '\'' then quote
  else if [',', ':', '?', '|', '&'].contains c then mark
  else if ['(', '<', '\x7b'].contains c then opening
  else closing

/-- What a text starts with; the end counts as closing. -/
def Lead.ofChars : List Char -> Lead
  | [] => closing
  | c :: _ => ofChar c

def Token.lead : Token -> Lead
  | word _ => .word
  | quoted _ => .quote
  | mark _ => .mark
  | group _ _ => .opening

def Lead.ofTokens : List Token -> Lead
  | [] => closing
  | t :: _ => t.lead

/-- A list of tokens in which every word consists of the characters of words, is not empty and
is not followed by another word. -/
inductive Spelled : List Token -> Prop where
  | nil : Spelled []
  | word {w : String} {ts : List Token} : w.toList ≠ [] ->
      (∀ c ∈ w.toList, isWordChar c = true) -> Lead.ofTokens ts ≠ .word -> Spelled ts ->
      Spelled (.word w :: ts)
  | quoted {s : String} {ts : List Token} : Spelled ts -> Spelled (.quoted s :: ts)
  | mark {m : Mark} {ts : List Token} : Spelled ts -> Spelled (.mark m :: ts)
  | group {b : Bracket} {inner ts : List Token} : Spelled inner -> Spelled ts ->
      Spelled (.group b inner :: ts)

variable {ts us inner : List Token} {r r' : List Char}

theorem Spelled.append (hts : Spelled ts) (hus : Spelled us)
    (hlead : Lead.ofTokens us ≠ .word) : Spelled (ts ++ us) := by
  induction hts with
  | nil => exact hus
  | @word w ts hne hw hnext _ ih =>
      refine .word hne hw ?_ ih
      cases ts with
      | nil => exact hlead
      | cons t ts => exact hnext
  | quoted _ ih => exact .quoted ih
  | mark _ ih => exact .mark ih
  | group hinner _ _ ih => exact .group hinner ih

theorem lead_chars (hts : Spelled ts) (hr : Lead.ofChars r = .closing) :
    Lead.ofChars (chars ts ++ r) = Lead.ofTokens ts := by
  cases hts with
  | nil => exact hr
  | @word w ts hne hw hnext hts =>
      rw [chars, Token.chars]
      cases hchars : w.toList with
      | nil => exact absurd hchars hne
      | cons c cs =>
          have hc : isWordChar c = true := hw c (hchars ▸ List.mem_cons_self)
          show Lead.ofChar c = .word
          rw [Lead.ofChar, if_pos hc]
  | quoted hts => rfl
  | @mark m ts hts => cases m <;> rfl
  | @group b inner ts hinner hts => cases b <;> rfl

/-!
# Unique reading
-/

theorem word_append_inj : ∀ {v w r r' : List Char}, (∀ c ∈ v, isWordChar c = true) ->
    (∀ c ∈ w, isWordChar c = true) -> Lead.ofChars r ≠ .word -> Lead.ofChars r' ≠ .word ->
    v ++ r = w ++ r' -> v = w ∧ r = r'
  | [], [], _, _, _, _, _, _, h => ⟨rfl, h⟩
  | [], d :: ds, r, r', _, hw, hr, _, h => by
      have hd : isWordChar d = true := hw d List.mem_cons_self
      rw [List.nil_append] at h
      rw [h, List.cons_append, Lead.ofChars, Lead.ofChar, if_pos hd] at hr
      exact absurd rfl hr
  | c :: cs, [], r, r', hv, _, _, hr', h => by
      have hc : isWordChar c = true := hv c List.mem_cons_self
      rw [List.nil_append] at h
      rw [← h, List.cons_append, Lead.ofChars, Lead.ofChar, if_pos hc] at hr'
      exact absurd rfl hr'
  | c :: cs, d :: ds, r, r', hv, hw, hr, hr', h => by
      rcases List.cons.inj h with ⟨rfl, htail⟩
      rcases word_append_inj (fun e he => hv e (List.mem_cons_of_mem _ he))
        (fun e he => hw e (List.mem_cons_of_mem _ he)) hr hr' htail with ⟨rfl, hrest⟩
      exact ⟨rfl, hrest⟩

/-- A quoted character either stands behind a backslash or is itself no quote and no
backslash. -/
theorem body_cons (c : Char) (cs : List Char) :
    Text.Quoted.body (c :: cs) = '\\' :: c :: Text.Quoted.body cs ∨
      c ≠ '\'' ∧ c ≠ '\\' ∧ Text.Quoted.body (c :: cs) = c :: Text.Quoted.body cs := by
  rw [Text.Quoted.body]
  split
  · exact .inl rfl
  · rename_i hc
    rw [Bool.or_eq_true, beq_iff_eq, beq_iff_eq, not_or] at hc
    exact .inr ⟨hc.1, hc.2, rfl⟩

theorem body_append_inj : ∀ {cs ds r r' : List Char},
    Text.Quoted.body cs ++ '\'' :: r = Text.Quoted.body ds ++ '\'' :: r' -> cs = ds ∧ r = r'
  | [], [], _, _, h => ⟨rfl, (List.cons.inj h).2⟩
  | [], d :: ds, _, _, h => by
      rcases body_cons d ds with hd | ⟨hquote, -, hd⟩
      · rw [hd] at h
        exact absurd (List.cons.inj h).1 (by decide)
      · rw [hd] at h
        exact absurd (List.cons.inj h).1.symm hquote
  | c :: cs, [], _, _, h => by
      rcases body_cons c cs with hc | ⟨hquote, -, hc⟩
      · rw [hc] at h
        exact absurd (List.cons.inj h).1 (by decide)
      · rw [hc] at h
        exact absurd (List.cons.inj h).1 hquote
  | c :: cs, d :: ds, r, r', h => by
      rcases body_cons c cs with hc | ⟨-, hslash, hc⟩ <;>
        rcases body_cons d ds with hd | ⟨-, hslash', hd⟩ <;>
        rw [hc, hd] at h
      · rcases List.cons.inj (List.cons.inj h).2 with ⟨rfl, htail⟩
        rcases body_append_inj htail with ⟨rfl, hrest⟩
        exact ⟨rfl, hrest⟩
      · exact absurd (List.cons.inj h).1.symm hslash'
      · exact absurd (List.cons.inj h).1 hslash
      · rcases List.cons.inj h with ⟨rfl, htail⟩
        rcases body_append_inj htail with ⟨rfl, hrest⟩
        exact ⟨rfl, hrest⟩

theorem encode_append_inj {s s' : String}
    (h : Text.Quoted.encode s.toList ++ r = Text.Quoted.encode s'.toList ++ r') :
    s = s' ∧ r = r' := by
  simp only [Text.Quoted.encode, List.cons_append, List.append_assoc, List.nil_append,
    List.cons.injEq, true_and] at h
  rcases body_append_inj h with ⟨hchars, hrest⟩
  exact ⟨String.toList_inj.mp hchars, hrest⟩

theorem mark_append_inj {m m' : Mark} (h : m.chars ++ r = m'.chars ++ r') : m = m' ∧ r = r' := by
  cases m <;> cases m' <;> simp [Mark.chars] at h ⊢ <;> exact h

theorem opening_inj {b b' : Bracket} (h : b.opening = b'.opening) : b = b' := by
  cases b <;> cases b' <;> first | rfl | exact absurd h (by decide)

theorem lead_closing (b : Bracket) (r : List Char) : Lead.ofChars (b.closing :: r) = .closing := by
  cases b <;> rfl

theorem lead_eq (hts : Spelled ts) (hus : Spelled us) (hr : Lead.ofChars r = .closing)
    (hr' : Lead.ofChars r' = .closing) (h : chars ts ++ r = chars us ++ r') :
    Lead.ofTokens ts = Lead.ofTokens us := by
  rw [← lead_chars hts hr, h, lead_chars hus hr']

/-- Tokens in front of a closing bracket or the end of a text are read in one way. -/
theorem chars_append_inj (hts : Spelled ts) (hus : Spelled us) (hr : Lead.ofChars r = .closing)
    (hr' : Lead.ofChars r' = .closing) (h : chars ts ++ r = chars us ++ r') :
    ts = us ∧ r = r' := by
  -- the first character tells the form of the first token
  induction hts generalizing us r r' with
  | nil =>
      have hlead := lead_eq .nil hus hr hr' h
      cases hus with
      | nil => exact ⟨rfl, h⟩
      | _ => cases hlead
  | word hne hw hnext hts ih =>
      have hlead := lead_eq (.word hne hw hnext hts) hus hr hr' h
      cases hus with
      | word hne' hw' hnext' hus =>
          simp only [chars, Token.chars, List.append_assoc] at h
          rw [← lead_chars hts hr] at hnext
          rw [← lead_chars hus hr'] at hnext'
          rcases word_append_inj hw hw' hnext hnext' h with ⟨hword, htail⟩
          rcases ih hus hr hr' htail with ⟨rfl, hrest⟩
          exact ⟨by rw [String.toList_inj.mp hword], hrest⟩
      | _ => cases hlead
  | quoted hts ih =>
      have hlead := lead_eq (.quoted hts) hus hr hr' h
      cases hus with
      | quoted hus =>
          simp only [chars, Token.chars, List.append_assoc] at h
          rcases encode_append_inj h with ⟨rfl, htail⟩
          rcases ih hus hr hr' htail with ⟨rfl, hrest⟩
          exact ⟨rfl, hrest⟩
      | _ => cases hlead
  | mark hts ih =>
      have hlead := lead_eq (.mark hts) hus hr hr' h
      cases hus with
      | mark hus =>
          simp only [chars, Token.chars, List.append_assoc] at h
          rcases mark_append_inj h with ⟨rfl, htail⟩
          rcases ih hus hr hr' htail with ⟨rfl, hrest⟩
          exact ⟨rfl, hrest⟩
      | _ => cases hlead
  | group hinner hts ihinner ih =>
      have hlead := lead_eq (.group hinner hts) hus hr hr' h
      cases hus with
      | @group b' inner' us' hinner' hus =>
          simp only [chars, Token.chars, List.append_assoc, List.cons_append, List.nil_append] at h
          rcases List.cons.inj h with ⟨hopening, hafter⟩
          rcases ihinner hinner' (lead_closing _ _) (lead_closing _ _) hafter with ⟨rfl, htail⟩
          rcases ih hus hr hr' (List.cons.inj htail).2 with ⟨rfl, hrest⟩
          exact ⟨by rw [opening_inj hopening], hrest⟩
      | _ => cases hlead

theorem chars_inj (hts : Spelled ts) (hus : Spelled us) (h : chars ts = chars us) : ts = us := by
  have happend : chars ts ++ [] = chars us ++ [] := congrArg (· ++ []) h
  exact (chars_append_inj hts hus rfl rfl happend).1

/-!
# Parts between marks
-/

section Separators

variable {α : Type} {sep : α}

theorem append_sep_inj : ∀ {xs ys u v : List α}, sep ∉ xs -> sep ∉ ys ->
    xs ++ sep :: u = ys ++ sep :: v -> xs = ys ∧ u = v
  | [], [], _, _, _, _, h => ⟨rfl, (List.cons.inj h).2⟩
  | [], y :: ys, _, _, _, hys, h => by
      rw [(List.cons.inj h).1] at hys
      exact absurd List.mem_cons_self hys
  | x :: xs, [], _, _, hxs, _, h => by
      rw [← (List.cons.inj h).1] at hxs
      exact absurd List.mem_cons_self hxs
  | x :: xs, y :: ys, u, v, hxs, hys, h => by
      rcases List.cons.inj h with ⟨rfl, htail⟩
      rcases append_sep_inj (fun hmem => hxs (List.mem_cons_of_mem _ hmem))
        (fun hmem => hys (List.mem_cons_of_mem _ hmem)) htail with ⟨rfl, huv⟩
      exact ⟨rfl, huv⟩

/-- Parts without a separator in them are found again between the separators. -/
theorem intercalate_inj : ∀ {xss yss : List (List α)}, xss ≠ [] -> yss ≠ [] ->
    (∀ xs ∈ xss, sep ∉ xs) -> (∀ ys ∈ yss, sep ∉ ys) ->
    [sep].intercalate xss = [sep].intercalate yss -> xss = yss
  | [], _, hne, _, _, _, _ => absurd rfl hne
  | _ :: _, [], _, hne, _, _, _ => absurd rfl hne
  | [xs], [ys], _, _, _, _, h => by
      rw [List.intercalate_singleton, List.intercalate_singleton] at h
      rw [h]
  | [xs], ys :: zs :: yss, _, _, hxss, _, h => by
      rw [List.intercalate_singleton, List.intercalate_cons_cons] at h
      refine absurd ?_ (hxss xs List.mem_cons_self)
      rw [h]
      simp
  | xs :: zs :: xss, [ys], _, _, _, hyss, h => by
      rw [List.intercalate_singleton, List.intercalate_cons_cons] at h
      refine absurd ?_ (hyss ys List.mem_cons_self)
      rw [← h]
      simp
  | xs :: zs :: xss, ys :: ws :: yss, _, _, hxss, hyss, h => by
      rw [List.intercalate_cons_cons, List.intercalate_cons_cons, List.append_assoc,
        List.append_assoc] at h
      rcases append_sep_inj (hxss xs List.mem_cons_self) (hyss ys List.mem_cons_self) h
        with ⟨rfl, htail⟩
      rw [intercalate_inj (List.cons_ne_nil _ _) (List.cons_ne_nil _ _)
        (fun us hus => hxss us (List.mem_cons_of_mem _ hus))
        (fun us hus => hyss us (List.mem_cons_of_mem _ hus)) htail]

end Separators

/-- Some parts with a mark between each two of them. -/
def joined (m : Mark) (parts : List (List Token)) : List Token :=
  [Token.mark m].intercalate parts

theorem joined_cons_cons (m : Mark) (ts us : List Token) (parts : List (List Token)) :
    joined m (ts :: us :: parts) = ts ++ Token.mark m :: joined m (us :: parts) := by
  rw [joined, List.intercalate_cons_cons, List.append_assoc]
  rfl

theorem joined_singleton (m : Mark) (ts : List Token) : joined m [ts] = ts :=
  List.intercalate_singleton

theorem chars_joined (m : Mark) (parts : List (List Token)) :
    chars (joined m parts) = m.chars.intercalate (parts.map chars) := by
  induction parts with
  | nil => rfl
  | cons ts parts ih =>
      cases parts with
      | nil => simp [joined_singleton]
      | cons us parts =>
          rw [joined_cons_cons, chars_append, chars, ih]
          simp [Token.chars]

theorem spelled_joined (m : Mark) {parts : List (List Token)}
    (hparts : ∀ ts ∈ parts, Spelled ts) : Spelled (joined m parts) := by
  induction parts with
  | nil => exact .nil
  | cons ts parts ih =>
      rcases List.forall_mem_cons.mp hparts with ⟨hts, hrest⟩
      cases parts with
      | nil => rwa [joined_singleton]
      | cons us parts =>
          rw [joined_cons_cons]
          exact hts.append (.mark (ih hrest)) (by simp [Lead.ofTokens, Token.lead])

/-- The marks of joined parts are the mark between them and those of the parts. -/
theorem mark_mem_joined {m m' : Mark} {parts : List (List Token)}
    (hm : Token.mark m ∈ joined m' parts) :
    m = m' ∨ ∃ ts ∈ parts, Token.mark m ∈ ts := by
  induction parts with
  | nil => cases hm
  | cons ts parts ih =>
      cases parts with
      | nil => exact .inr ⟨ts, List.mem_cons_self, by rwa [joined_singleton] at hm⟩
      | cons us parts =>
          rw [joined_cons_cons, List.mem_append, List.mem_cons] at hm
          rcases hm with hm | hm | hm
          · exact .inr ⟨ts, List.mem_cons_self, hm⟩
          · exact .inl (Token.mark.inj hm)
          · rcases ih hm with heq | ⟨vs, hvs, hm⟩
            · exact .inl heq
            · exact .inr ⟨vs, List.mem_cons_of_mem _ hvs, hm⟩

theorem mark_mem_joined_self {m : Mark} {parts : List (List Token)} (hparts : 2 ≤ parts.length) :
    Token.mark m ∈ joined m parts := by
  match parts, hparts with
  | ts :: us :: parts, _ =>
      rw [joined_cons_cons]
      simp

theorem joined_ne_nil {m : Mark} {parts : List (List Token)} (hne : parts ≠ [])
    (hparts : ∀ ts ∈ parts, ts ≠ []) : joined m parts ≠ [] := by
  match parts, hne with
  | [ts], _ =>
      rw [joined_singleton]
      exact hparts ts List.mem_cons_self
  | ts :: us :: parts, _ =>
      rw [joined_cons_cons]
      simp

/-- Parts that are not empty and do not contain the mark between them are determined. -/
theorem joined_inj {m : Mark} {parts parts' : List (List Token)}
    (hmark : ∀ ts ∈ parts, Token.mark m ∉ ts) (hmark' : ∀ ts ∈ parts', Token.mark m ∉ ts)
    (hne : ∀ ts ∈ parts, ts ≠ []) (hne' : ∀ ts ∈ parts', ts ≠ [])
    (h : joined m parts = joined m parts') : parts = parts' := by
  cases parts with
  | nil =>
      by_contra hparts
      exact joined_ne_nil (fun hnil => hparts hnil.symm) hne' h.symm
  | cons ts parts =>
      cases parts' with
      | nil => exact absurd h (joined_ne_nil (List.cons_ne_nil _ _) hne)
      | cons us parts' =>
          exact intercalate_inj (List.cons_ne_nil _ _) (List.cons_ne_nil _ _) hmark hmark' h

end Render
end GradualTypes
