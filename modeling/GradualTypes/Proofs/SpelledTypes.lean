import GradualTypes.Proofs.DecimalTexts
import GradualTypes.Proofs.Parts
import GradualTypes.Proofs.Spelling
import GradualTypes.Render
import GradualTypes.Ty.Kind

/-!
# The tokens of types

The text of a type for a cache is the text of some tokens.  The tokens are told apart by their
form and, for a single word, by the characters of the word.
-/

namespace GradualTypes
namespace Render

/-!
# The parts that are written
-/

section Kept

variable {α β : Type} [DecidableEq β] {f : α -> β} {x : α} {xs seen : List α}

/-- Add to some elements those of a list whose values are not there yet. -/
def keepOnto (f : α -> β) (seen xs : List α) : List α :=
  xs.foldl (fun seen x => if f x ∈ seen.map f then seen else seen ++ [x]) seen

/-- The first of the elements with the same value. -/
def kept (f : α -> β) (xs : List α) : List α :=
  keepOnto f [] xs

theorem keepOnto_cons (f : α -> β) (seen : List α) (x : α) (xs : List α) :
    keepOnto f seen (x :: xs) =
      keepOnto f (if f x ∈ seen.map f then seen else seen ++ [x]) xs := rfl

theorem mem_of_mem_keepOnto (hx : x ∈ keepOnto f seen xs) : x ∈ seen ∨ x ∈ xs := by
  induction xs generalizing seen with
  | nil => exact .inl hx
  | cons y xs ih =>
      rw [keepOnto_cons] at hx
      rcases ih hx with hseen | hxs
      · split at hseen
        · exact .inl hseen
        · rcases List.mem_append.mp hseen with hseen | hy
          · exact .inl hseen
          · exact .inr (List.mem_cons.mpr (.inl (List.mem_singleton.mp hy)))
      · exact .inr (List.mem_cons_of_mem _ hxs)

theorem mem_of_mem_kept (hx : x ∈ kept f xs) : x ∈ xs :=
  (mem_of_mem_keepOnto hx).resolve_left List.not_mem_nil

theorem mem_map_keepOnto {v : β} (hv : v ∈ (seen ++ xs).map f) :
    v ∈ (keepOnto f seen xs).map f := by
  induction xs generalizing seen with
  | nil => rwa [List.append_nil] at hv
  | cons y xs ih =>
      rw [keepOnto_cons]
      apply ih
      split
      · rename_i hy
        simp only [List.map_append, List.map_cons, List.mem_append, List.mem_cons] at hv ⊢
        rcases hv with hv | rfl | hv
        · exact .inl hv
        · exact .inl hy
        · exact .inr hv
      · rwa [← List.append_cons]

/-- Every value is kept. -/
theorem mem_map_kept (hx : x ∈ xs) : f x ∈ (kept f xs).map f :=
  mem_map_keepOnto (List.mem_map_of_mem hx)

theorem kept_ne_nil (hxs : xs ≠ []) : kept f xs ≠ [] := by
  intro hnil
  cases xs with
  | nil => exact hxs rfl
  | cons x xs =>
      have hmem : f x ∈ (kept f (x :: xs)).map f := mem_map_kept List.mem_cons_self
      rw [hnil] at hmem
      cases hmem

theorem keepOnto_eq_append (hnodup : ((seen ++ xs).map f).Nodup) :
    keepOnto f seen xs = seen ++ xs := by
  induction xs generalizing seen with
  | nil => exact (List.append_nil _).symm
  | cons y xs ih =>
      have hy : f y ∉ seen.map f := by
        rw [List.map_append, List.map_cons, List.nodup_append] at hnodup
        exact fun hmem => hnodup.2.2 _ hmem _ List.mem_cons_self rfl
      rw [List.append_cons] at hnodup ⊢
      rw [keepOnto_cons, if_neg hy, ih hnodup]

theorem kept_eq_self (hnodup : (xs.map f).Nodup) : kept f xs = xs :=
  keepOnto_eq_append hnodup

omit [DecidableEq β] in
theorem eq_of_map_eq {g : α -> β} : ∀ {xs ys : List α},
    (∀ x ∈ xs, ∀ y ∈ ys, f x = g y -> x = y) -> xs.map f = ys.map g -> xs = ys
  | [], [], _, _ => rfl
  | x :: xs, y :: ys, hinj, h => by
      rcases List.cons.inj h with ⟨hhead, htail⟩
      rw [hinj x List.mem_cons_self y List.mem_cons_self hhead, eq_of_map_eq
        (fun z hz w hw => hinj z (List.mem_cons_of_mem _ hz) w (List.mem_cons_of_mem _ hw)) htail]

/-- Lists of distinct elements are the same if what is kept of them has the same values and
equal values belong to equal elements. -/
theorem eq_of_kept {g : α -> β} {ys : List α} (hxs : xs.Nodup) (hys : ys.Nodup)
    (hinj : ∀ x ∈ xs, ∀ y ∈ ys, f x = g y -> x = y)
    (h : (kept f xs).map f = (kept g ys).map g) : xs = ys := by
  have hleft : ∀ x ∈ xs, x ∈ ys ∧ f x = g x := by
    intro x hx
    have hmem := mem_map_kept (f := f) hx
    rw [h] at hmem
    rcases List.mem_map.mp hmem with ⟨y, hy, heq⟩
    have hxy := hinj x hx y (mem_of_mem_kept hy) heq.symm
    exact ⟨hxy ▸ mem_of_mem_kept hy, hxy ▸ heq.symm⟩
  have hright : ∀ y ∈ ys, y ∈ xs ∧ f y = g y := by
    intro y hy
    have hmem := mem_map_kept (f := g) hy
    rw [← h] at hmem
    rcases List.mem_map.mp hmem with ⟨x, hx, heq⟩
    have hxy := hinj x (mem_of_mem_kept hx) y hy heq
    exact ⟨hxy ▸ mem_of_mem_kept hx, hxy ▸ heq⟩
  -- so equal values belong to equal elements also in each of the lists
  have hnodup : (xs.map f).Nodup := List.Nodup.map_on (fun x hx y hy heq =>
    hinj x hx y (hleft y hy).1 (heq.trans (hleft y hy).2)) hxs
  have hnodup' : (ys.map g).Nodup := List.Nodup.map_on (fun x hx y hy heq =>
    hinj x (hright x hx).1 y hy ((hright x hx).2.trans heq)) hys
  rw [kept_eq_self hnodup, kept_eq_self hnodup'] at h
  exact eq_of_map_eq hinj h

theorem kept_comp {γ : Type} [DecidableEq γ] {g : β -> γ} (hg : ∀ {x y}, g x = g y -> x = y)
    (f : α -> β) (xs : List α) : kept (fun x => g (f x)) xs = kept f xs := by
  have hmem : ∀ (x : α) (seen : List α),
      g (f x) ∈ seen.map (fun x => g (f x)) ↔ f x ∈ seen.map f := by
    intro x seen
    rw [List.mem_map, List.mem_map]
    exact exists_congr fun y => and_congr_right fun _ => ⟨fun h => hg h, congrArg g⟩
  simp only [kept, keepOnto, hmem]

theorem firstOccurrences_map (f : α -> String) (xs : List α) :
    firstOccurrences (xs.map f) = (kept f xs).map f := by
  have hstep : ∀ seen : List α,
      xs.foldl (fun texts x => if texts.contains (f x) then texts else texts ++ [f x])
        (seen.map f) = (keepOnto f seen xs).map f := by
    induction xs with
    | nil => exact fun _ => rfl
    | cons x xs ih =>
        intro seen
        rw [List.foldl_cons, keepOnto_cons, ← ih]
        by_cases hx : f x ∈ seen.map f
        · rw [if_pos hx, if_pos (List.contains_iff_mem.mpr hx)]
        · rw [if_neg hx, if_neg (mt List.contains_iff_mem.mp hx), List.map_append,
            List.map_singleton]
  rw [firstOccurrences, List.foldl_map]
  exact hstep []

end Kept

/-- The types directly inside a type that are written; a key `mixed` of an array is not, nor
is then a value `mixed`. -/
def written : Ty -> List Ty
  | .array k v => if k = .mixed then if v = .mixed then [] else [v] else [k, v]
  | t => t.children

/-- Whether a type is written in full with the given number of levels. -/
def isWhole : Nat -> Ty -> Bool
  | 0, _ => false
  | levels + 1, t => (written t).all (isWhole levels)

/-!
# Tokens
-/

def keyToken : Key -> Token
  | .int n => .word (toString n)
  | .text s => if Text.isIdentifier s then .word s else .quoted s

def offsetToken : Key -> Token
  | .int n => .word (toString n)
  | .text s => .quoted s

def literalToken : Literal -> Token
  | .int n => .word (toString n)
  | .float x => .word x.literal
  | .text s => .quoted s
  | .bool b => .word (if b then "true" else "false")

def accessoryTokens : Accessory -> List Token
  | .nonEmptyArray => [.word "nonEmpty"]
  | .nonEmptyString => [.word "non-empty"]
  | .hasProperty name => [.word "hasProperty", .group .round [.word name]]
  | .hasOffset k => [.word "hasOffset", .group .round [offsetToken k]]

/-- A word and the arguments in angle brackets after it, if there are any. -/
def applied (w : String) (arguments : List (List Token)) : List Token :=
  if arguments.isEmpty then [.word w] else [.word w, .group .angle (joined .comma arguments)]

def entryTokens (spell : Ty -> List Token) (isList : Bool) (e : Entry Ty) : List Token :=
  if isList then spell e.value
  else keyToken e.key :: ((if e.optional then [.mark .question] else []) ++
    .mark .colon :: spell e.value)

/-- A member of a union. -/
def unionPart (spell : Ty -> List Token) : Ty -> List Token
  | .inter members => [.group .round (spell (.inter members))]
  | t => spell t

/-- A member of an intersection. -/
def interPart (spell : Ty -> List Token) : Ty -> List Token
  | .union .plain members => [.group .round (spell (.union .plain members))]
  | t => spell t

def unionTokens (spell : Ty -> List Token) (members : List Ty) : List Token :=
  joined .bar ((kept (fun t => chars (unionPart spell t)) members).map (unionPart spell))

/-- The tokens of a type with the given number of levels written out. -/
def spell : Nat -> Ty -> List Token
  | 0, _ => [.word "..."]
  | levels + 1, t =>
      match t with
      | .error => [.word "*ERROR*"]
      | .placeholder => [.word "*ERROR*"]
      | .unknown n => [.word "Type", .group .round [.word (toString n)]]
      | .keyword k => [.word k.name]
      | .literal v => [literalToken v]
      | .range r => [.word "int", .group .angle
          [.word (bound "min" r.lo), .mark .comma, .word (bound "max" r.hi)]]
      | .object cls arguments => applied cls (arguments.map (spell levels))
      | .this cls => [.word "$this", .group .round [.word cls]]
      | .array k v => applied "array" ((written (.array k v)).map (spell levels))
      | .shape entries => [.word "array", .group .curly
          (joined .comma (entries.map (entryTokens (spell levels) (Shape.isList entries))))]
      | .union .plain members => unionTokens (spell levels) members
      | .union .benevolent members => [.group .round (unionTokens (spell levels) members)]
      | .inter members => joined .ampersand (members.map (interPart (spell levels)))
      | .accessory a => accessoryTokens a

/-!
# Texts and tokens
-/

theorem chars_singleton (t : Token) : chars [t] = t.chars :=
  List.append_nil _

theorem chars_word_group (w : String) (b : Bracket) (inner : List Token) :
    chars [.word w, .group b inner] = w.toList ++ b.opening :: (chars inner ++ [b.closing]) := by
  rw [chars, chars_singleton, Token.chars, Token.chars]

theorem chars_group (b : Bracket) (inner : List Token) :
    chars [.group b inner] = b.opening :: (chars inner ++ [b.closing]) := by
  rw [chars_singleton, Token.chars]

theorem toList_quote (s : String) : (Text.quote s).toList = Text.Quoted.encode s.toList := by
  rw [Text.quote, String.toList_ofList]

theorem toList_literal (v : Literal) : (literal .cache v).toList = (literalToken v).chars := by
  cases v with
  | text s => exact toList_quote s
  | _ => rfl

theorem toList_key (k : Key) : (key k).toList = (keyToken k).chars := by
  cases k with
  | int n => rfl
  | text s =>
      rw [key, keyToken]
      split
      · rfl
      · exact toList_quote s

theorem toList_offset (k : Key) : (offset k).toList = (offsetToken k).chars := by
  cases k with
  | int n => rfl
  | text s => exact toList_quote s

theorem toList_intercalate_mark {m : Mark} {text : String} (htext : text.toList = m.chars)
    {α : Type} {f : α -> String} {g : α -> List Token} (xs : List α)
    (hparts : ∀ x ∈ xs, (f x).toList = chars (g x)) :
    (String.intercalate text (xs.map f)).toList = chars (joined m (xs.map g)) := by
  rw [String.toList_intercalate, chars_joined, htext, List.map_map, List.map_map]
  congr 1
  exact List.map_congr_left hparts

theorem toList_comma : ", ".toList = Mark.chars .comma := by
  decide

theorem toList_entry {write : Ty -> String} {spell : Ty -> List Token} (isList : Bool)
    {e : Entry Ty} (hvalue : (write e.value).toList = chars (spell e.value)) :
    (entry write isList e).toList = chars (entryTokens spell isList e) := by
  unfold entry entryTokens
  cases isList with
  | true => exact hvalue
  | false =>
      cases e.optional <;>
        simp [chars, Token.chars, Mark.chars, toList_key, hvalue, String.toList_append]

theorem toList_applied {w : String} {text : String} {parts : List (List Token)}
    (htext : parts ≠ [] -> text.toList = chars (joined .comma parts)) :
    (if parts.isEmpty then w else w ++ "<" ++ text ++ ">").toList = chars (applied w parts) := by
  cases parts with
  | nil => simp [applied, chars, Token.chars]
  | cons p parts =>
      simp [applied, chars, Token.chars, htext, String.toList_append, Bracket.opening,
        Bracket.closing]

theorem toList_parenthesized (text : String) {ts : List Token} (htext : text.toList = chars ts) :
    (parenthesized text).toList = chars [.group .round ts] := by
  simp [parenthesized, chars_group, htext, Bracket.opening, Bracket.closing]

theorem toList_unionPart {write : Ty -> String} {spell : Ty -> List Token}
    (hwrite : ∀ t, (write t).toList = chars (spell t)) (t : Ty) :
    (match t with
      | .inter _ => parenthesized (write t)
      | _ => write t).toList = chars (unionPart spell t) := by
  cases t with
  | inter members => exact toList_parenthesized _ (hwrite _)
  | _ => exact hwrite _

theorem toList_interPart {write : Ty -> String} {spell : Ty -> List Token}
    (hwrite : ∀ t, (write t).toList = chars (spell t)) (t : Ty) :
    (match t with
      | .union .plain _ => parenthesized (write t)
      | _ => write t).toList = chars (interPart spell t) := by
  cases t with
  | union flavor members =>
      cases flavor with
      | plain => exact toList_parenthesized _ (hwrite _)
      | benevolent => exact hwrite _
  | _ => exact hwrite _

theorem toList_firstOccurrences {part : Ty -> String} {tokens : Ty -> List Token}
    (hpart : ∀ t, (part t).toList = chars (tokens t)) (members : List Ty) :
    (String.intercalate "|" (firstOccurrences (members.map part))).toList =
      chars (joined .bar ((kept (fun t => chars (tokens t)) members).map tokens)) := by
  have hkept := kept_comp (g := String.toList) (fun h => String.toList_inj.mp h) part members
  simp only [hpart] at hkept
  rw [firstOccurrences_map, ← hkept]
  exact toList_intercalate_mark (by simp [Mark.chars]) _ fun t _ => hpart t

theorem toList_union {write : Ty -> String} {spell : Ty -> List Token}
    (hwrite : ∀ t, (write t).toList = chars (spell t)) (members : List Ty) :
    (union write members).toList = chars (unionTokens spell members) :=
  toList_firstOccurrences (toList_unionPart hwrite) members

theorem toList_upTo (levels : Nat) (t : Ty) :
    (upTo .cache levels t).toList = chars (spell levels t) := by
  induction levels generalizing t with
  | zero => simp [upTo, spell, chars_singleton, Token.chars]
  | succ levels ih =>
      cases t with
      | error => simp [upTo, spell, chars_singleton, Token.chars]
      | placeholder => simp [upTo, spell, chars_singleton, Token.chars]
      | unknown n =>
          simp [upTo, spell, chars_word_group, chars_singleton, Token.chars, Bracket.opening,
            Bracket.closing]
      | keyword k => simp [upTo, spell, chars_singleton, Token.chars]
      | literal v => rw [upTo, spell, chars_singleton, toList_literal]
      | range r =>
          simp [upTo, spell, range, chars_word_group, chars, Token.chars, Bracket.opening,
            Bracket.closing, Mark.chars]
      | object cls arguments =>
          have hlist := toList_intercalate_mark toList_comma arguments fun t _ => ih t
          have hempty : arguments.isEmpty = (arguments.map (spell levels)).isEmpty := by simp
          rw [upTo, spell, object, hempty]
          exact toList_applied fun _ => hlist
      | this cls =>
          simp [upTo, spell, chars_word_group, chars_singleton, Token.chars, Bracket.opening,
            Bracket.closing]
      | array k v =>
          have hlist := toList_intercalate_mark toList_comma (written (.array k v)) fun t _ => ih t
          rw [upTo, spell, ← toList_applied fun _ => hlist, array]
          by_cases hk : k = .mixed <;> by_cases hv : v = .mixed <;>
            simp [written, hk, hv, String.append_assoc]
      | shape entries =>
          have hlist := toList_intercalate_mark toList_comma entries fun e _ =>
            toList_entry (Shape.isList entries) (ih e.value)
          simp only [upTo, spell, reduceCtorEq, if_false, shape]
          simp [chars_word_group, hlist, Bracket.opening, Bracket.closing]
      | union flavor members =>
          cases flavor with
          | plain => exact toList_union ih members
          | benevolent => exact toList_parenthesized _ (toList_union ih members)
      | inter members =>
          have hampersand : "&".toList = Mark.chars .ampersand := by decide
          exact toList_intercalate_mark hampersand members fun t _ => toList_interPart ih t
      | accessory a =>
          cases a <;>
            simp [upTo, spell, accessory, accessoryTokens, chars_word_group, chars_singleton,
              Token.chars, toList_offset, Bracket.opening, Bracket.closing]

/-!
# Words
-/

def IsWord (w : String) : Prop :=
  w.toList ≠ [] ∧ ∀ c ∈ w.toList, isWordChar c = true

instance (w : String) : Decidable (IsWord w) :=
  decidable_of_iff (w.toList ≠ [] ∧ w.toList.all isWordChar = true)
    (and_congr_right' List.all_eq_true)

theorem IsWord.spelled {w : String} (hw : IsWord w) : Spelled [.word w] :=
  .word hw.1 hw.2 (by simp [Lead.ofTokens]) .nil

theorem IsWord.spelled_group {w : String} (hw : IsWord w) {b : Bracket} {inner : List Token}
    (hinner : Spelled inner) : Spelled [.word w, .group b inner] :=
  .word hw.1 hw.2 (by simp [Lead.ofTokens, Token.lead]) (.group hinner .nil)

theorem isWordChar_of_isDigit {c : Char} (hc : c.isDigit = true) : isWordChar c = true := by
  simp [isWordChar, Char.isAlphanum, hc]

theorem isWord_of_isIdentifier {s : String} (hs : Text.isIdentifier s = true) : IsWord s := by
  unfold Text.isIdentifier at hs
  unfold IsWord
  generalize s.toList = cs at hs ⊢
  cases cs with
  | nil => cases hs
  | cons c rest =>
      simp only [Bool.and_eq_true, Bool.or_eq_true, beq_iff_eq, List.all_eq_true] at hs
      refine ⟨by simp, List.forall_mem_cons.mpr ⟨?_, fun d hd => ?_⟩⟩
      · rcases hs.1 with rfl | hc
        · rfl
        · simp [isWordChar, Char.isAlphanum, hc]
      · rcases hs.2 d hd with rfl | hd
        · rfl
        · simp [isWordChar, hd]

theorem isWordChar_of_isNumeric {cs : List Char} (hcs : Text.Numeral.IsNumeric cs) :
    ∀ c ∈ cs, isWordChar c = true := by
  intro c hc
  rcases hcs c hc with hdigit | hmark
  · exact isWordChar_of_isDigit hdigit
  · simp only [List.mem_cons, List.not_mem_nil, or_false] at hmark
    rcases hmark with rfl | rfl | rfl <;> rfl

theorem isWord_toString (n : Int) : IsWord (toString n) := by
  refine ⟨fun hnil => ?_, isWordChar_of_isNumeric (Text.Numeral.isNumeric_toString n)⟩
  have hread := Text.Numeral.integer?_toString n
  rw [hnil] at hread
  cases hread

theorem isWord_literal (x : Double) : IsWord x.literal := by
  cases hnan : x.isNaN with
  | true =>
      rw [Double.literal_of_isNaN hnan]
      decide
  | false =>
      rw [Double.literal_eq hnan]
      have hunsigned : ∀ c ∈ x.unsignedText.toList, isWordChar c = true := by
        cases hx : x.isFinite with
        | false =>
            rw [Double.unsignedText_of_infinite hx]
            simp [isWordChar]
        | true => exact isWordChar_of_isNumeric (Double.denotes_unsignedText hx).isNumeric
      rcases x.unsignedText_lead with ⟨c, cs, hcs, -⟩
      refine ⟨by simp [hcs], ?_⟩
      rw [String.toList_append, List.forall_mem_append, Double.signText_toList]
      refine ⟨?_, hunsigned⟩
      cases x.isNegative <;> simp [isWordChar]

theorem isWord_keyword (k : Keyword) : IsWord k.name := by
  cases k <;> decide

theorem isWord_bound {open' : String} (hopen : IsWord open') (b : Option Int) :
    IsWord (bound open' b) := by
  cases b with
  | none => exact hopen
  | some n => exact isWord_toString n

/-!
# Names
-/

/-- The keywords among the types, and the words that stand for types in annotations. -/
def typeKeywords : List String :=
  ["mixed", "never", "void", "null", "bool", "int", "float", "string", "object", "callable",
    "resource", "array", "true", "false"]

/-- The words that are written for types other than classes. -/
def typeWords : List String :=
  typeKeywords ++ ["nonEmpty", "NaN", "inf"]

/-- Whether the names in a type, apart from the types inside it, are identifiers, and that of
a class is none of some words. -/
def hasPlainNames (words : List String) : Ty -> Bool
  | .object cls _ => Text.isIdentifier cls && !words.contains cls
  | .this cls => Text.isIdentifier cls
  | .accessory (.hasProperty name) => Text.isIdentifier name
  | _ => true

/-!
# All tokens are spelled
-/

theorem spelled_keyToken (k : Key) {ts : List Token} (hlead : Lead.ofTokens ts ≠ .word)
    (hts : Spelled ts) : Spelled (keyToken k :: ts) := by
  cases k with
  | int n => exact .word (isWord_toString n).1 (isWord_toString n).2 hlead hts
  | text s =>
      rw [keyToken]
      split
      · rename_i hs
        exact .word (isWord_of_isIdentifier hs).1 (isWord_of_isIdentifier hs).2 hlead hts
      · exact .quoted hts

theorem spelled_offsetToken (k : Key) : Spelled [offsetToken k] := by
  cases k with
  | int n => exact (isWord_toString n).spelled
  | text s => exact .quoted .nil

theorem spelled_literalToken (v : Literal) : Spelled [literalToken v] := by
  cases v with
  | int n => exact (isWord_toString n).spelled
  | float x => exact (isWord_literal x).spelled
  | text s => exact .quoted .nil
  | bool b => cases b <;> exact IsWord.spelled (by decide)

theorem spelled_applied {w : String} (hw : IsWord w) {parts : List (List Token)}
    (hparts : ∀ ts ∈ parts, Spelled ts) : Spelled (applied w parts) := by
  rw [applied]
  split
  · exact hw.spelled
  · exact hw.spelled_group (spelled_joined _ hparts)

theorem spelled_entryTokens {spell : Ty -> List Token} (isList : Bool) {e : Entry Ty}
    (hvalue : Spelled (spell e.value)) : Spelled (entryTokens spell isList e) := by
  unfold entryTokens
  cases isList with
  | true => exact hvalue
  | false =>
      cases e.optional <;> refine spelled_keyToken _ (by simp [Lead.ofTokens, Token.lead]) ?_
      · exact .mark hvalue
      · exact .mark (.mark hvalue)

theorem spelled_unionPart {spell : Ty -> List Token} {t : Ty} (ht : Spelled (spell t)) :
    Spelled (unionPart spell t) := by
  cases t with
  | inter members => exact .group ht .nil
  | _ => exact ht

theorem spelled_interPart {spell : Ty -> List Token} {t : Ty} (ht : Spelled (spell t)) :
    Spelled (interPart spell t) := by
  cases t with
  | union flavor members =>
      cases flavor with
      | plain => exact .group ht .nil
      | benevolent => exact ht
  | _ => exact ht

theorem spelled_unionTokens {spell : Ty -> List Token} {members : List Ty}
    (hmembers : ∀ t ∈ members, Spelled (spell t)) : Spelled (unionTokens spell members) := by
  refine spelled_joined _ fun ts hts => ?_
  rcases List.mem_map.mp hts with ⟨t, ht, rfl⟩
  exact spelled_unionPart (hmembers t (mem_of_mem_kept ht))

theorem mem_children_of_mem_written {c t : Ty} (hc : c ∈ written t) : c ∈ t.children := by
  cases t with
  | array k v =>
      simp only [written] at hc
      split at hc
      · split at hc
        · cases hc
        · exact List.mem_cons_of_mem _ hc
      · exact hc
  | _ => exact hc

theorem spelled_spell {words : List String} {t : Ty}
    (ht : Ty.Everywhere (fun u => hasPlainNames words u = true) t) (levels : Nat) :
    Spelled (spell levels t) := by
  induction levels generalizing t with
  | zero => exact (show IsWord "..." by decide).spelled
  | succ levels ih =>
      have hinside : ∀ c ∈ t.children, Spelled (spell levels c) := fun c hc => ih (ht.inside hc)
      have hnames := ht.here
      cases t with
      | error => exact (show IsWord "*ERROR*" by decide).spelled
      | placeholder => exact (show IsWord "*ERROR*" by decide).spelled
      | unknown n =>
          exact (show IsWord "Type" by decide).spelled_group
            (isWord_toString n).spelled
      | keyword k => exact (isWord_keyword k).spelled
      | literal v => exact spelled_literalToken v
      | range r =>
          have hlo := isWord_bound (show IsWord "min" by decide) r.lo
          have hhi := isWord_bound (show IsWord "max" by decide) r.hi
          exact (show IsWord "int" by decide).spelled_group
            (.word hlo.1 hlo.2 (by simp [Lead.ofTokens, Token.lead]) (.mark hhi.spelled))
      | object cls arguments =>
          simp only [hasPlainNames, Bool.and_eq_true] at hnames
          refine spelled_applied (isWord_of_isIdentifier hnames.1) fun ts hts => ?_
          rcases List.mem_map.mp hts with ⟨c, hc, rfl⟩
          exact hinside c hc
      | this cls =>
          exact (show IsWord "$this" by decide).spelled_group
            (isWord_of_isIdentifier hnames).spelled
      | array k v =>
          refine spelled_applied (show IsWord "array" by decide) fun ts hts => ?_
          rcases List.mem_map.mp hts with ⟨c, hc, rfl⟩
          exact hinside c (mem_children_of_mem_written hc)
      | shape entries =>
          refine (show IsWord "array" by decide).spelled_group
            (spelled_joined _ fun ts hts => ?_)
          rcases List.mem_map.mp hts with ⟨e, he, rfl⟩
          exact spelled_entryTokens _ (hinside _ (Ty.mem_children_shape he))
      | union flavor members =>
          cases flavor with
          | plain => exact spelled_unionTokens hinside
          | benevolent => exact .group (spelled_unionTokens hinside) .nil
      | inter members =>
          refine spelled_joined _ fun ts hts => ?_
          rcases List.mem_map.mp hts with ⟨c, hc, rfl⟩
          exact spelled_interPart (hinside c hc)
      | accessory a =>
          cases a with
          | nonEmptyArray => exact (show IsWord "nonEmpty" by decide).spelled
          | nonEmptyString => exact (show IsWord "non-empty" by decide).spelled
          | hasProperty name =>
              exact (show IsWord "hasProperty" by decide).spelled_group
                (isWord_of_isIdentifier hnames).spelled
          | hasOffset k =>
              exact (show IsWord "hasOffset" by decide).spelled_group
                (spelled_offsetToken k)

end Render
end GradualTypes
