import GradualTypes.Proofs.SpelledTypes

/-!
# Forms of texts

The tokens of a type tell which form its outermost node has: a single word by its characters,
a word with a group by the word and the brackets, and an intersection by its marks.  Only a
plain union has no form of its own, since it is written as one of its members if all members
are written alike.
-/

namespace GradualTypes

open GradualTypes.Ty (Everywhere)

namespace Render

/-!
# Forms
-/

/-- What the tokens of a type show of its outermost node. -/
inductive Form where
  | cutOff
  | fixed
  | int
  | float
  | text
  | range
  | object
  | this
  | array
  | shape
  | property
  | offset
  | parenthesized
  | conjunction
  | other
deriving DecidableEq

def keywords : List Keyword :=
  [.mixed, .never, .void, .null, .bool, .int, .float, .string, .object, .callable, .resource]

/-- The types that are written as a word of their own. -/
def fixedTypes : List (String × Ty) :=
  keywords.map (fun k => (k.name, .keyword k)) ++
    [("*ERROR*", .error), ("true", .literal (.bool true)), ("false", .literal (.bool false)),
      ("nonEmpty", .accessory .nonEmptyArray), ("non-empty", .accessory .nonEmptyString)]

def startsNumber (w : String) : Bool :=
  match w.toList with
  | [] => false
  | c :: _ => c.isDigit || c == '-'

def wordForm (w : String) : Form :=
  if (Text.Numeral.integer? w.toList).isSome then .int
  else if w = "NaN" ∨ w = "inf" ∨ startsNumber w then .float
  else if w = "..." then .cutOff
  else if (fixedTypes.map (·.1)).contains w then .fixed
  else if w = "array" then .array
  else .object

def groupForm (w : String) : Bracket -> Form
  | .round =>
      if w = "$this" then .this
      else if w = "hasProperty" then .property
      else if w = "hasOffset" then .offset
      else .other
  | .angle =>
      if w = "int" then .range
      else if w = "array" then .array
      else .object
  | .curly => .shape

def Token.isAmpersand : Token -> Bool
  | .mark .ampersand => true
  | _ => false

def form (ts : List Token) : Form :=
  if ts.any Token.isAmpersand then .conjunction
  else
    match ts with
    | [.word w] => wordForm w
    | [.quoted _] => .text
    | [.word w, .group b _] => groupForm w b
    | [.group _ _] => .parenthesized
    | _ => .other

/-- The form of a type that is no plain union. -/
def formOf : Ty -> Form
  | .error => .fixed
  | .keyword _ => .fixed
  | .literal (.int _) => .int
  | .literal (.float _) => .float
  | .literal (.text _) => .text
  | .literal (.bool _) => .fixed
  | .range _ => .range
  | .object _ _ => .object
  | .this _ => .this
  | .array _ _ => .array
  | .shape _ => .shape
  | .union .benevolent _ => .parenthesized
  | .inter _ => .conjunction
  | .accessory .nonEmptyArray => .fixed
  | .accessory .nonEmptyString => .fixed
  | .accessory (.hasProperty _) => .property
  | .accessory (.hasOffset _) => .offset
  | _ => .other

theorem wordForm_fixed : ∀ p ∈ fixedTypes, wordForm p.1 = .fixed := by decide +kernel

theorem wordForm_toString (n : Int) : wordForm (toString n) = .int := by
  simp [wordForm, -Int.toString_eq_repr, Text.Numeral.integer?_toString]

theorem startsNumber_literal {x : Double} (hnan : x.isNaN = false) :
    x.literal = "inf" ∨ startsNumber x.literal = true := by
  rw [Double.literal_eq hnan]
  cases hsign : x.isNegative with
  | true =>
      refine .inr ?_
      rw [startsNumber, String.toList_append, Double.signText_toList, hsign]
      rfl
  | false =>
      have htext : x.signText ++ x.unsignedText = x.unsignedText := by
        rw [Double.signText, hsign, if_neg Bool.false_ne_true, String.empty_append]
      rw [htext]
      cases hx : x.isFinite with
      | false => exact .inl (Double.unsignedText_of_infinite hx)
      | true =>
          rcases (Double.denotes_unsignedText hx).lead with ⟨c, cs, hcs, hc⟩
          exact .inr (by simp [startsNumber, hcs, hc])

theorem wordForm_literal (x : Double) : wordForm x.literal = .float := by
  have hnumber : x.literal = "NaN" ∨ x.literal = "inf" ∨ startsNumber x.literal = true := by
    cases hnan : x.isNaN with
    | true => exact .inl (Double.literal_of_isNaN hnan)
    | false => exact .inr (startsNumber_literal hnan)
  simp [wordForm, Double.integer?_literal, hnumber]

theorem head_of_isIdentifier {s : String} (hs : Text.isIdentifier s = true) :
    ∃ c cs, s.toList = c :: cs ∧ (c = '_' ∨ c.isAlpha = true) := by
  unfold Text.isIdentifier at hs
  split at hs
  · cases hs
  · rename_i c cs hcs
    simp only [Bool.and_eq_true, Bool.or_eq_true, beq_iff_eq] at hs
    exact ⟨c, cs, hcs, hs.1⟩

theorem not_isDigit_of_isAlpha {c : Char} (hc : c = '_' ∨ c.isAlpha = true) :
    c.isDigit = false ∧ c ≠ '-' ∧ c ≠ '+' := by
  rcases hc with rfl | hc
  · decide
  · refine ⟨?_, ?_, ?_⟩
    · unfold Char.isAlpha Char.isUpper Char.isLower at hc
      unfold Char.isDigit
      grind
    · intro heq
      subst heq
      cases hc
    · intro heq
      subst heq
      cases hc

theorem integer?_of_isIdentifier {s : String} (hs : Text.isIdentifier s = true) :
    Text.Numeral.integer? s.toList = none := by
  rcases head_of_isIdentifier hs with ⟨c, cs, hcs, hc⟩
  rcases not_isDigit_of_isAlpha hc with ⟨hdigit, hminus, hplus⟩
  exact Text.Numeral.integer?_eq_none (hcs ▸ List.mem_cons_self) hdigit hminus hplus

theorem startsNumber_of_isIdentifier {s : String} (hs : Text.isIdentifier s = true) :
    startsNumber s = false := by
  rcases head_of_isIdentifier hs with ⟨c, cs, hcs, hc⟩
  rcases not_isDigit_of_isAlpha hc with ⟨hdigit, hminus, -⟩
  rw [startsNumber, hcs]
  simp [hdigit, hminus]

/-- The words of other types are among the words that no class may have, or no identifiers. -/
theorem typeWords_cover : ∀ w ∈ "NaN" :: "inf" :: "..." :: "array" :: "int" ::
    fixedTypes.map (·.1), typeWords.contains w = true ∨ Text.isIdentifier w = false := by
  decide +kernel

theorem wordForm_class {cls : String} (hcls : Text.isIdentifier cls = true)
    (hword : typeWords.contains cls = false) :
    wordForm cls = .object ∧ cls ≠ "int" ∧ cls ≠ "array" := by
  have hnot : ∀ w ∈ "NaN" :: "inf" :: "..." :: "array" :: "int" :: fixedTypes.map (·.1),
      cls ≠ w := by
    intro w hw heq
    subst heq
    rcases typeWords_cover cls hw with hmem | hno
    · rw [hmem] at hword
      cases hword
    · rw [hcls] at hno
      cases hno
  simp only [List.forall_mem_cons] at hnot
  rcases hnot with ⟨hnan, hinf, hcut, harray, hint, hfixed⟩
  have hfixed : cls ∉ fixedTypes.map (·.1) := fun hmem => hfixed cls hmem rfl
  refine ⟨?_, hint, harray⟩
  rw [wordForm, integer?_of_isIdentifier hcls, if_neg (by simp), if_neg, if_neg hcut, if_neg,
    if_neg harray]
  · rwa [List.contains_iff_mem]
  · simp [hnan, hinf, startsNumber_of_isIdentifier hcls]

/-!
# The forms of types
-/

/-- What the texts of types need of a type, apart from the types inside it. -/
def IsWritable : Ty -> Prop
  | .placeholder => False
  | .unknown _ => False
  | .union _ members =>
      2 ≤ members.length ∧ members.Nodup ∧ ∀ m ∈ members, m.unionMembers? = none
  | .inter members => 2 ≤ members.length ∧ ∀ m ∈ members, ∀ inner, m ≠ .inter inner
  | t => hasPlainNames typeWords t = true

theorem IsWritable.names {t : Ty} (ht : IsWritable t) : hasPlainNames typeWords t = true := by
  cases t <;> first | rfl | exact ht

theorem Everywhere.spelled {t : Ty} (ht : Everywhere IsWritable t) (levels : Nat) :
    Spelled (spell levels t) :=
  spelled_spell (ht.imp fun _ hu => hu.names) levels

theorem mark_mem_unionPart {spell : Ty -> List Token} {m : Mark} {t : Ty}
    (hm : Token.mark m ∈ unionPart spell t) :
    Token.mark m ∈ spell t ∧ ∀ members, t ≠ .inter members := by
  cases t with
  | inter members => simp [unionPart] at hm
  | _ => exact ⟨hm, by simp⟩

theorem mark_mem_interPart {spell : Ty -> List Token} {m : Mark} {t : Ty}
    (hm : Token.mark m ∈ interPart spell t) :
    Token.mark m ∈ spell t ∧ ∀ members, t ≠ .union .plain members := by
  cases t with
  | union flavor members =>
      cases flavor with
      | plain => simp [interPart] at hm
      | benevolent => exact ⟨hm, by simp⟩
  | _ => exact ⟨hm, by simp⟩

/-- The marks among the tokens of a type are those between the members of a plain union or
an intersection. -/
theorem mark_mem_spell {m : Mark} {levels : Nat} {t : Ty} (hm : Token.mark m ∈ spell levels t) :
    m = .bar ∧ (∃ members, t = .union .plain members) ∨
      m = .ampersand ∧ ∃ members, t = .inter members := by
  induction levels generalizing t with
  | zero => simp [spell] at hm
  | succ levels ih =>
      have happlied : ∀ {w : String} {parts : List (List Token)},
          Token.mark m ∉ applied w parts := by
        intro w parts hm
        rw [applied] at hm
        split at hm <;> simp at hm
      cases t with
      | literal v => cases v <;> simp [spell, literalToken] at hm
      | object cls arguments => exact absurd hm happlied
      | array k v => exact absurd hm happlied
      | union flavor members =>
          cases flavor with
          | plain =>
              refine .inl ⟨?_, members, rfl⟩
              rcases mark_mem_joined hm with hbar | ⟨ts, hts, hm⟩
              · exact hbar
              · rcases List.mem_map.mp hts with ⟨t, -, rfl⟩
                rcases mark_mem_unionPart hm with ⟨hm, hinter⟩
                rcases ih hm with ⟨hbar, -⟩ | ⟨-, inner, rfl⟩
                · exact hbar
                · exact absurd rfl (hinter inner)
          | benevolent => simp [spell] at hm
      | inter members =>
          refine .inr ⟨?_, members, rfl⟩
          rcases mark_mem_joined hm with hampersand | ⟨ts, hts, hm⟩
          · exact hampersand
          · rcases List.mem_map.mp hts with ⟨t, -, rfl⟩
            rcases mark_mem_interPart hm with ⟨hm, hunion⟩
            rcases ih hm with ⟨-, inner, rfl⟩ | ⟨hampersand, -⟩
            · exact absurd rfl (hunion inner)
            · exact hampersand
      | accessory a => cases a <;> simp [spell, accessoryTokens] at hm
      | _ => simp [spell] at hm

theorem form_word (w : String) : form [.word w] = wordForm w := rfl

theorem form_group (w : String) (b : Bracket) (inner : List Token) :
    form [.word w, .group b inner] = groupForm w b := rfl

theorem form_applied {w : String} {f : Form} (hword : wordForm w = f)
    (hgroup : groupForm w .angle = f) (parts : List (List Token)) : form (applied w parts) = f := by
  rw [applied]
  split
  · rwa [form_word]
  · rwa [form_group]

theorem form_conjunction {parts : List (List Token)} (hparts : 2 ≤ parts.length) :
    form (joined .ampersand parts) = .conjunction := by
  have hany : (joined .ampersand parts).any Token.isAmpersand = true :=
    List.any_eq_true.mpr ⟨_, mark_mem_joined_self hparts, rfl⟩
  unfold form
  rw [if_pos hany]

/-- A type that is no plain union has the form that its tokens have. -/
theorem form_spell (levels : Nat) {t : Ty} (ht : IsWritable t)
    (hplain : ∀ members, t ≠ .union .plain members) :
    form (spell (levels + 1) t) = formOf t := by
  cases t with
  | error => exact wordForm_fixed ("*ERROR*", .error) (by decide)
  | placeholder => exact ht.elim
  | unknown n => exact ht.elim
  | keyword k => exact wordForm_fixed (k.name, .keyword k) (by cases k <;> decide)
  | literal v =>
      cases v with
      | int n => exact wordForm_toString n
      | float x => exact wordForm_literal x
      | text s => rfl
      | bool b =>
          cases b with
          | true => exact wordForm_fixed ("true", .literal (.bool true)) (by decide)
          | false => exact wordForm_fixed ("false", .literal (.bool false)) (by decide)
  | range r => exact form_group "int" .angle _
  | object cls arguments =>
      have hnames := ht.names
      simp only [hasPlainNames, Bool.and_eq_true, Bool.not_eq_true'] at hnames
      rcases wordForm_class hnames.1 hnames.2 with ⟨hword, hint, harray⟩
      exact form_applied hword (by simp [groupForm, hint, harray]) _
  | this cls => exact form_group "$this" .round _
  | array k v => exact form_applied (by decide +kernel) rfl _
  | shape entries => rfl
  | union flavor members =>
      cases flavor with
      | plain => exact absurd rfl (hplain members)
      | benevolent => rfl
  | inter members => exact form_conjunction (by simpa using ht.1)
  | accessory a =>
      cases a with
      | nonEmptyArray => exact wordForm_fixed ("nonEmpty", .accessory .nonEmptyArray) (by decide)
      | nonEmptyString => exact wordForm_fixed ("non-empty", .accessory .nonEmptyString) (by decide)
      | hasProperty name => exact form_group "hasProperty" .round _
      | hasOffset k => exact form_group "hasOffset" .round _

theorem form_cutOff (t : Ty) : form (spell 0 t) = .cutOff := by
  show wordForm "..." = .cutOff
  decide +kernel

/-- What types of a form have in common. -/
def Form.Fits : Form -> Ty -> Prop
  | .cutOff, _ => False
  | .fixed, t => ∃ w, (w, t) ∈ fixedTypes ∧ ∀ levels, spell (levels + 1) t = [.word w]
  | .int, t => ∃ n, t = .literal (.int n)
  | .float, t => ∃ x, t = .literal (.float x)
  | .text, t => ∃ s, t = .literal (.text s)
  | .range, t => ∃ r, t = .range r
  | .object, t => ∃ cls arguments, t = .object cls arguments
  | .this, t => ∃ cls, t = .this cls
  | .array, t => ∃ k v, t = .array k v
  | .shape, t => ∃ entries, t = .shape entries
  | .property, t => ∃ name, t = .accessory (.hasProperty name)
  | .offset, t => ∃ k, t = .accessory (.hasOffset k)
  | .parenthesized, t => ∃ members, t = .union .benevolent members
  | .conjunction, t => ∃ members, t = .inter members
  | .other, t => t = .placeholder ∨ (∃ n, t = .unknown n) ∨ ∃ members, t = .union .plain members

theorem fits_formOf (t : Ty) : (formOf t).Fits t := by
  have hfixed : ∀ {w : String} {t : Ty}, (w, t) ∈ fixedTypes ->
      (∀ levels, spell (levels + 1) t = [.word w]) -> Form.Fits .fixed t :=
    fun hmem hspell => ⟨_, hmem, hspell⟩
  cases t with
  | error => exact hfixed (by decide) fun _ => rfl
  | keyword k => exact hfixed (w := k.name) (by cases k <;> decide) fun _ => rfl
  | literal v =>
      cases v with
      | bool b => cases b <;> exact hfixed (by decide) fun _ => rfl
      | _ => exact ⟨_, rfl⟩
  | union flavor members =>
      cases flavor with
      | plain => exact .inr (.inr ⟨_, rfl⟩)
      | benevolent => exact ⟨_, rfl⟩
  | accessory a =>
      cases a with
      | nonEmptyArray => exact hfixed (by decide) fun _ => rfl
      | nonEmptyString => exact hfixed (by decide) fun _ => rfl
      | _ => exact ⟨_, rfl⟩
  | placeholder => exact .inl rfl
  | unknown n => exact .inr (.inl ⟨_, rfl⟩)
  | object cls arguments => exact ⟨_, _, rfl⟩
  | array k v => exact ⟨_, _, rfl⟩
  | _ => exact ⟨_, rfl⟩

end Render
end GradualTypes
