import GradualTypes.Proofs.Passages

/-!
# Comments and trailing commas between tokens

The tokens of a JSON value may be written with gaps between them and at both ends: blanks and
comments.  Before a closing bracket or brace that follows a value there may be one more comma.
When the comments and these commas are removed, the same tokens are left, with blanks between them,
and so it does not matter how they were written.
-/

namespace GradualTypes
namespace Config
namespace Json

variable {c : Char} {l m w body o cs rest : List Char} {ls : List (List Char)}

/-!
# The tokens of JSON
-/

/-- The characters of a text after its opening quote. -/
inductive IsTextBody : List Char -> Prop where
  | close : IsTextBody ['"']
  | plain {c : Char} {body : List Char} (hquote : c ≠ '"') (hescape : c ≠ '\\')
      (hcode : 0x20 ≤ c.toNat) (hbody : IsTextBody body) : IsTextBody (c :: body)
  | escape {c e : Char} {body : List Char} (hc : Token.escape? c = some e)
      (hbody : IsTextBody body) : IsTextBody ('\\' :: c :: body)
  | unit {a b c d : Char} {n : Nat} {body : List Char} (hunit : Token.hexUnit? a b c d = some n)
      (hbody : IsTextBody body) : IsTextBody ('\\' :: 'u' :: a :: b :: c :: d :: body)

theorem isTextBody_plain (hw : ∀ c ∈ w, c ≠ '"' ∧ c ≠ '\\' ∧ 0x20 ≤ c.toNat) :
    IsTextBody (w ++ ['"']) := by
  induction w with
  | nil => exact .close
  | cons c w ih =>
      obtain ⟨hc, hw⟩ := List.forall_mem_cons.mp hw
      exact .plain hc.1 hc.2.1 hc.2.2 (ih hw)

def IsDigits (ds : List Char) : Prop :=
  ds ≠ [] ∧ ∀ c ∈ ds, c.isDigit = true

/-- Digits without a superfluous zero in front. -/
structure IsWhole (ds : List Char) : Prop where
  digits : IsDigits ds
  zero : ds.head? = some '0' -> ds = ['0']

inductive IsFraction : List Char -> Prop where
  | none : IsFraction []
  | point {ds : List Char} (hds : IsDigits ds) : IsFraction ('.' :: ds)

inductive IsExponent : List Char -> Prop where
  | none : IsExponent []
  | power {e : Char} {sign ds : List Char} (he : isExponentMark e = true)
      (hsign : sign = [] ∨ sign = ['+'] ∨ sign = ['-']) (hds : IsDigits ds) :
      IsExponent (e :: sign ++ ds)

inductive IsNumber : List Char -> Prop where
  | positive {whole fraction exponent : List Char} (hwhole : IsWhole whole)
      (hfraction : IsFraction fraction) (hexponent : IsExponent exponent) :
      IsNumber (whole ++ (fraction ++ exponent))
  | negative {whole fraction exponent : List Char} (hwhole : IsWhole whole)
      (hfraction : IsFraction fraction) (hexponent : IsExponent exponent) :
      IsNumber ('-' :: whole ++ (fraction ++ exponent))

/-- A token that is a value. -/
inductive IsScalar : List Char -> Prop where
  | null : IsScalar "null".toList
  | true : IsScalar "true".toList
  | false : IsScalar "false".toList
  | number {w : List Char} (hw : IsNumber w) : IsScalar w
  | text {body : List Char} (hbody : IsTextBody body) : IsScalar ('"' :: body)

def marks : List Char :=
  ['\x7b', '\x7d', '[', ']', ',', ':']

inductive IsLexeme : List Char -> Prop where
  | mark {c : Char} (hc : c ∈ marks) : IsLexeme [c]
  | scalar {l : List Char} (hl : IsScalar l) : IsLexeme l

/-!
# Values
-/

mutual

/-- The tokens of a value. -/
inductive IsValue : List (List Char) -> Prop where
  | scalar {l : List Char} (hl : IsScalar l) : IsValue [l]
  | emptyList : IsValue [['['], [']']]
  | list {ls : List (List Char)} (hls : IsElements ls) : IsValue (['['] :: (ls ++ [[']']]))
  | emptyObject : IsValue [['\x7b'], ['\x7d']]
  | object {ls : List (List Char)} (hls : IsMembers ls) :
      IsValue (['\x7b'] :: (ls ++ [['\x7d']]))

/-- The tokens of one or more values with commas between them. -/
inductive IsElements : List (List Char) -> Prop where
  | last {ls : List (List Char)} (hls : IsValue ls) : IsElements ls
  | more {ls ms : List (List Char)} (hls : IsValue ls) (hms : IsElements ms) :
      IsElements (ls ++ [','] :: ms)

/-- The tokens of one or more members of an object with commas between them. -/
inductive IsMembers : List (List Char) -> Prop where
  | last {key : List Char} {ls : List (List Char)} (hkey : IsTextBody key) (hls : IsValue ls) :
      IsMembers (('"' :: key) :: [':'] :: ls)
  | more {key : List Char} {ls ms : List (List Char)} (hkey : IsTextBody key) (hls : IsValue ls)
      (hms : IsMembers ms) : IsMembers (('"' :: key) :: [':'] :: (ls ++ [','] :: ms))

end

/-- What matters about the order of tokens: two values do not stand side by side, and no comma
stands before a closing bracket or brace. -/
def MayStandBefore (l m : List Char) : Prop :=
  ¬(IsScalar l ∧ IsScalar m) ∧ ¬(l = [','] ∧ (m = [']'] ∨ m = ['\x7d']))

/-- Tokens in an order in which they may stand, between an opening and a closing bracket or
brace, too. -/
structure IsPhrase (ls : List (List Char)) : Prop where
  ne : ls ≠ []
  lexemes : ∀ l ∈ ls, IsLexeme l
  order : ls.IsChain MayStandBefore
  first : ∀ l ∈ ls.head?, l ≠ [']'] ∧ l ≠ ['\x7d']
  last : ∀ l ∈ ls.getLast?, l ≠ [',']

theorem not_mark_of_isDigit (hc : c.isDigit = true) : c ∉ marks := by
  intro hmark
  simp only [marks, List.mem_cons, List.not_mem_nil, or_false] at hmark
  rcases hmark with rfl | rfl | rfl | rfl | rfl | rfl <;> exact absurd hc (by decide)

theorem IsDigits.head {ds : List Char} (hds : IsDigits ds) :
    ∃ c rest, ds = c :: rest ∧ c.isDigit = true := by
  obtain ⟨hne, hall⟩ := hds
  cases ds with
  | nil => exact absurd rfl hne
  | cons c rest => exact ⟨c, rest, rfl, hall c List.mem_cons_self⟩

/-- A value is no mark. -/
theorem head_of_isScalar (hl : IsScalar l) : ∃ c rest, l = c :: rest ∧ c ∉ marks := by
  cases hl with
  | null => exact ⟨'n', _, rfl, by decide⟩
  | true => exact ⟨'t', _, rfl, by decide⟩
  | false => exact ⟨'f', _, rfl, by decide⟩
  | number hw =>
      cases hw with
      | positive hwhole _ _ =>
          obtain ⟨c, rest, rfl, hc⟩ := hwhole.digits.head
          exact ⟨c, _, rfl, not_mark_of_isDigit hc⟩
      | negative _ _ _ => exact ⟨'-', _, rfl, by decide⟩
  | text hbody => exact ⟨'"', _, rfl, by decide⟩

theorem not_isScalar_mark (hc : c ∈ marks) : ¬IsScalar [c] := by
  intro hscalar
  obtain ⟨d, rest, heq, hd⟩ := head_of_isScalar hscalar
  cases heq
  exact hd hc

theorem mayStandBefore_of_mark (hc : c ∈ marks) (hcomma : c ≠ ',') : MayStandBefore [c] m where
  left h := not_isScalar_mark hc h.1
  right h := hcomma (List.cons.inj h.1).1

theorem mayStandBefore_mark (hc : c ∈ marks) (hl : l ≠ [',']) : MayStandBefore l [c] where
  left h := not_isScalar_mark hc h.2
  right h := hl h.1

theorem isPhrase_scalar (hl : IsScalar l) : IsPhrase [l] := by
  obtain ⟨c, rest, rfl, hc⟩ := head_of_isScalar hl
  have hne : ∀ {d}, d ∈ marks -> c :: rest ≠ [d] := by
    rintro d hd heq
    cases heq
    exact hc hd
  refine ⟨by simp, by simpa using .scalar hl, .singleton _, ?_, ?_⟩
  · intro l hl
    cases hl
    exact ⟨hne (by decide), hne (by decide)⟩
  · intro l hl
    cases hl
    exact hne (by decide)

/-- Brackets or braces around nothing or around such tokens. -/
theorem IsPhrase.enclosed {a z : Char} (hls : ls = [] ∨ IsPhrase ls) (ha : a = '[' ∨ a = '\x7b')
    (hz : z = ']' ∨ z = '\x7d') : IsPhrase ([a] :: (ls ++ [[z]])) := by
  have hamark : a ∈ marks := by rcases ha with rfl | rfl <;> decide
  have hzmark : z ∈ marks := by rcases hz with rfl | rfl <;> decide
  have hacomma : a ≠ ',' := by rcases ha with rfl | rfl <;> decide
  have hend : ∀ l ∈ ls.getLast?, MayStandBefore l [z] := by
    rcases hls with rfl | hls
    · simp
    · exact fun l hl => mayStandBefore_mark hzmark (hls.last l hl)
  have hlexemes : ∀ l ∈ ls, IsLexeme l := by
    rcases hls with rfl | hls
    · simp
    · exact hls.lexemes
  have horder : ls.IsChain MayStandBefore := by
    rcases hls with rfl | hls
    · exact .nil
    · exact hls.order
  constructor
  · simp
  · rw [List.forall_mem_cons, List.forall_mem_append]
    exact ⟨.mark hamark, hlexemes, by simpa using .mark hzmark⟩
  · rw [List.isChain_cons, List.isChain_append]
    refine ⟨fun m _ => mayStandBefore_of_mark hamark hacomma, horder, .singleton _, ?_⟩
    intro l hl m hm
    cases hm
    exact hend l hl
  · intro l hl
    cases hl
    rcases ha with rfl | rfl <;> decide
  · intro l hl
    rw [← List.cons_append, List.getLast?_concat] at hl
    cases hl
    rcases hz with rfl | rfl <;> decide

theorem IsPhrase.joined {ms : List (List Char)} (hls : IsPhrase ls) (hms : IsPhrase ms) :
    IsPhrase (ls ++ [','] :: ms) := by
  constructor
  · simp
  · rw [List.forall_mem_append, List.forall_mem_cons]
    exact ⟨hls.lexemes, .mark (by decide), hms.lexemes⟩
  · rw [List.isChain_append, List.isChain_cons]
    refine ⟨hls.order, ⟨fun m hm => ⟨fun h => not_isScalar_mark (by decide) h.1, fun h => ?_⟩,
      hms.order⟩, ?_⟩
    · exact h.2.elim (hms.first m hm).1 (hms.first m hm).2
    · intro l hl m hm
      cases hm
      exact mayStandBefore_mark (by decide) (hls.last l hl)
  · rw [List.head?_append_of_ne_nil _ hls.ne]
    exact hls.first
  · obtain ⟨m, ms, rfl⟩ := List.exists_cons_of_ne_nil hms.ne
    rw [List.getLast?_append_cons, List.getLast?_cons_cons]
    exact hms.last

theorem IsPhrase.keyed (hls : IsPhrase ls) (hbody : IsTextBody body) :
    IsPhrase (('"' :: body) :: [':'] :: ls) := by
  constructor
  · simp
  · rw [List.forall_mem_cons, List.forall_mem_cons]
    exact ⟨.scalar (.text hbody), .mark (by decide), hls.lexemes⟩
  · rw [List.isChain_cons_cons, List.isChain_cons]
    exact ⟨mayStandBefore_mark (by decide) (by simp), fun m _ =>
      mayStandBefore_of_mark (by decide) (by decide), hls.order⟩
  · intro l hl
    cases hl
    simp
  · obtain ⟨m, ms, rfl⟩ := List.exists_cons_of_ne_nil hls.ne
    rw [List.getLast?_cons_cons, List.getLast?_cons_cons]
    exact hls.last

mutual

theorem isPhrase_of_isValue : ∀ {ls}, IsValue ls -> IsPhrase ls
  | _, .scalar hl => isPhrase_scalar hl
  | _, .emptyList => IsPhrase.enclosed (.inl rfl) (.inl rfl) (.inl rfl)
  | _, .list hls => IsPhrase.enclosed (.inr (isPhrase_of_isElements hls)) (.inl rfl) (.inl rfl)
  | _, .emptyObject => IsPhrase.enclosed (.inl rfl) (.inr rfl) (.inr rfl)
  | _, .object hls => IsPhrase.enclosed (.inr (isPhrase_of_isMembers hls)) (.inr rfl) (.inr rfl)

theorem isPhrase_of_isElements : ∀ {ls}, IsElements ls -> IsPhrase ls
  | _, .last hls => isPhrase_of_isValue hls
  | _, .more hls hms => (isPhrase_of_isValue hls).joined (isPhrase_of_isElements hms)

theorem isPhrase_of_isMembers : ∀ {ls}, IsMembers ls -> IsPhrase ls
  | _, .last hkey hls => (isPhrase_of_isValue hls).keyed hkey
  | _, .more hkey hls hms =>
      ((isPhrase_of_isValue hls).keyed hkey).joined (isPhrase_of_isMembers hms)

end

/-!
# Scanning tokens
-/

/-- What is scanned of a token and of what follows it, up to the end if the token is broken. -/
def ScansAs (l : List Char) (t : Token) : Prop :=
  ∀ o, (IsWord l -> StopsWord o) ->
    Token.scan (l ++ o) = t :: bif t.isBroken then [] else Token.scan o

theorem scansAs_mark (hc : c ∈ marks) : ∃ t, ScansAs [c] t := by
  have hblank : Token.isBlank c = false := by
    simp only [marks, List.mem_cons, List.not_mem_nil, or_false] at hc
    rcases hc with rfl | rfl | rfl | rfl | rfl | rfl <;> decide
  have hread : ∃ t, t.isBroken = false ∧ ∀ rest, Token.read c rest = (t, rest) := by
    simp only [marks, List.mem_cons, List.not_mem_nil, or_false] at hc
    rcases hc with rfl | rfl | rfl | rfl | rfl | rfl <;> exact ⟨_, by rfl, fun _ => rfl⟩
  obtain ⟨t, ht, hread⟩ := hread
  refine ⟨t, fun o _ => ?_⟩
  rw [List.singleton_append, Token.scan_cons hblank, hread, ht, cond_false]

theorem closeText?_of_isTextBody (hbody : IsTextBody body) (o : List Char) :
    closeText? (body ++ o) = some (body, o) := by
  induction hbody with
  | close => rfl
  | plain hquote hescape _ _ ih => rw [List.cons_append, closeText?_plain hquote hescape, ih]; rfl
  | escape _ _ ih => simp [closeText?, ih]
  | unit hunit _ ih =>
      simp only [List.cons_append]
      rw [closeText?_unit hunit, ih]
      rfl

/-- A text is malformed if it is not read. -/
theorem malformed_of_isTextBody {fault : Fault} (hbody : IsTextBody body)
    (hread : Token.readText (body ++ o) = .error fault) : fault = .malformed := by
  induction hn : body.length using Nat.strongRecOn generalizing body with
  | ind n ih =>
    have hmore : ∀ {rest : List Char} {e : Char}, IsTextBody rest -> rest.length < n ->
        ((Token.readText (rest ++ o)).map fun r => (e :: r.1, r.2)) = .error fault ->
          fault = .malformed := by
      intro rest e hrest hlt hmap
      cases hread' : Token.readText (rest ++ o) with
      | ok r => simp [hread', Except.map] at hmap
      | error fault' =>
          simp only [hread', Except.map, Except.error.injEq] at hmap
          exact ih _ hlt hrest (hmap ▸ hread') rfl
    cases hbody with
    | close => cases hread
    | plain hquote hescape hcode hrest =>
        rw [List.cons_append, readText_plain hquote hescape (by omega)] at hread
        exact hmore hrest (by simp [← hn]) hread
    | escape hc hrest =>
        rw [List.cons_append, List.cons_append, readText_escape hc] at hread
        exact hmore hrest (by simp only [← hn, List.length_cons]; omega) hread
    | @unit a b c d unit rest hunit hrest =>
        simp only [List.cons_append] at hread
        cases hlow : Token.isLowSurrogate unit with
        | true =>
            simp [Token.readText, hunit, hlow] at hread
            exact hread.symm
        | false =>
            cases hhigh : Token.isHighSurrogate unit with
            | false =>
                rw [readText_unit hunit hlow hhigh] at hread
                exact hmore hrest (by simp only [← hn, List.length_cons]; omega) hread
            | true =>
                -- The second half of a pair is missing or wrong, or the pair is complete.
                cases hrest with
                | close =>
                    simp [Token.readText, hunit, hlow, hhigh, Token.pairFault] at hread
                    exact hread.symm
                | plain hquote hescape _ _ =>
                    simp [Token.readText, hunit, hlow, hhigh, Token.pairFault, hescape] at hread
                    exact hread.symm
                | @escape c' e' _ hc _ =>
                    have hu : c' ≠ 'u' := by
                      rintro rfl
                      cases hc
                    simp [Token.readText, hunit, hlow, hhigh, Token.pairFault, hu] at hread
                    exact hread.symm
                | @unit a' b' c' d' low rest hunit' hrest' =>
                    simp only [List.cons_append] at hread
                    cases hlow' : Token.isLowSurrogate low with
                    | true =>
                        rw [readText_pair hunit hhigh hlow hunit' hlow'] at hread
                        exact hmore hrest' (by simp only [← hn, List.length_cons]; omega) hread
                    | false =>
                        simp [Token.readText, hunit, hlow, hhigh, hunit', hlow'] at hread
                        exact hread.symm

theorem scansAs_text (hbody : IsTextBody body) : ∃ t, ScansAs ('"' :: body) t := by
  have hscan : ∀ o, Token.scan ('"' :: body ++ o) =
      (Token.read '"' (body ++ o)).1 :: Token.scan (Token.read '"' (body ++ o)).2 := fun o =>
    Token.scan_cons (by decide)
  have hclose : closeText? body = some (body, []) := by
    simpa using closeText?_of_isTextBody hbody []
  rcases readText_of_closed hclose with ⟨s, hread⟩ | hfail
  · refine ⟨.text (String.ofList s), fun o _ => ?_⟩
    rw [hscan, Token.read, hread o]
    rfl
  · refine ⟨.brokenText .malformed, fun o _ => ?_⟩
    obtain ⟨fault, hread⟩ := hfail o
    rw [hscan, Token.read, hread, malformed_of_isTextBody hbody hread]
    exact congrArg (_ :: ·) Token.scan_nil

/-!
# Scanning numbers
-/

theorem readDigits_append {ds : List Char} (hds : IsDigits ds)
    (ho : ∀ c ∈ o.head?, c.isDigit = false) : Token.readDigits (ds ++ o) = .ok (ds, o) := by
  obtain ⟨hne, hall⟩ := hds
  obtain ⟨htake, hdrop⟩ := takeWhile_dropWhile_append ho []
  rw [List.nil_append] at htake hdrop
  have htakes : (ds ++ o).takeWhile Char.isDigit = ds := by
    rw [List.takeWhile_append_of_pos hall, htake]
    simp
  have hdrops : (ds ++ o).dropWhile Char.isDigit = o := by
    rw [List.dropWhile_append_of_pos hall, hdrop]
    simp
  simp only [Token.readDigits, htakes, hdrops]
  rw [if_neg (by simpa using hne)]

theorem readWhole_append {ds : List Char} (hds : IsWhole ds)
    (ho : ∀ c ∈ o.head?, c.isDigit = false) : Token.readWhole (ds ++ o) = .ok (ds, o) := by
  have hzero : ¬(ds.head? = some '0' ∧ 1 < ds.length) := by
    rintro ⟨hhead, hlength⟩
    simp [hds.zero hhead] at hlength
  simp only [Token.readWhole, readDigits_append hds.digits ho, bind, Except.bind]
  rw [if_neg hzero]

theorem readFraction_append {fraction : List Char} (hfraction : IsFraction fraction) :
    ∃ digits, ∀ o, (∀ c ∈ o.head?, c.isDigit = false ∧ c ≠ '.') ->
      Token.readFraction (fraction ++ o) = .ok (digits, o) := by
  cases hfraction with
  | none =>
      refine ⟨[], fun o ho => ?_⟩
      cases o with
      | nil => rfl
      | cons c o =>
          rw [List.nil_append, Token.readFraction]
          exact fun _ heq => (ho c rfl).2 (List.cons.inj heq).1
  | @point ds hds =>
      exact ⟨ds, fun o ho => readDigits_append hds fun c hc => (ho c hc).1⟩

theorem readExponent_append {exponent : List Char} (hexponent : IsExponent exponent) :
    ∃ power, ∀ o, StopsWord o -> Token.readExponent (exponent ++ o) = .ok (power, o) := by
  cases hexponent with
  | none =>
      refine ⟨none, fun o ho => ?_⟩
      cases o with
      | nil => rfl
      | cons c o =>
          have hc : isExponentMark c = false := by
            have he : c ≠ 'e' := ho.ne (by decide)
            have hE : c ≠ 'E' := ho.ne (by decide)
            simp [isExponentMark, he, hE]
          exact readExponent_other hc o
  | @power e sign ds he hsign hds =>
      have hsigned : ∃ negative, ∀ o,
          Text.Numeral.sign (sign ++ (ds ++ o)) = (negative, ds ++ o) := by
        rcases hsign with rfl | rfl | rfl
        · obtain ⟨c, rest, rfl, hc⟩ := hds.head
          have hminus : c ≠ '-' := by
            rintro rfl
            exact absurd hc (by decide)
          have hplus : c ≠ '+' := by
            rintro rfl
            exact absurd hc (by decide)
          exact ⟨_, fun o => by simp [Text.Numeral.sign, hminus, hplus]; rfl⟩
        · exact ⟨_, fun o => rfl⟩
        · exact ⟨_, fun o => rfl⟩
      obtain ⟨negative, hsigned⟩ := hsigned
      refine ⟨some (if negative then -(Text.Numeral.natOfDigits ds : Int)
        else Text.Numeral.natOfDigits ds), fun o ho => ?_⟩
      simp only [List.cons_append, List.append_assoc]
      rw [readExponent_mark he]
      simp [Token.readExponent, hsigned, readDigits_append hds ho.isDigit, bind, Except.bind, pure,
        Except.pure]

/-- A number is read in the same way whatever follows it, as long as it ends there. -/
theorem readNumber_append {whole fraction exponent : List Char} (negative : Bool)
    (hwhole : IsWhole whole) (hfraction : IsFraction fraction) (hexponent : IsExponent exponent) :
    ∃ r : Except Fault Token, ∀ o, StopsWord o ->
      Token.readNumber negative (whole ++ (fraction ++ exponent) ++ o) = r.map fun t => (t, o) := by
  obtain ⟨digits, hdigits⟩ := readFraction_append hfraction
  obtain ⟨power, hpower⟩ := readExponent_append hexponent
  refine ⟨Token.ofNumber negative whole digits power, fun o ho => ?_⟩
  have hafter : ∀ c ∈ (exponent ++ o).head?, c.isDigit = false ∧ c ≠ '.' := by
    cases hexponent with
    | none =>
        refine fun c hc => ⟨ho.isDigit c hc, ?_⟩
        rintro rfl
        exact absurd (ho '.' hc) (by decide)
    | power he _ _ =>
        intro c hc
        cases hc
        simp only [isExponentMark, Bool.or_eq_true, beq_iff_eq] at he
        rcases he with rfl | rfl <;> decide
  have hend : ∀ c ∈ (fraction ++ (exponent ++ o)).head?, c.isDigit = false := by
    cases hfraction with
    | none => exact fun c hc => (hafter c hc).1
    | point _ =>
        intro c hc
        cases hc
        decide
  simp only [List.append_assoc, Token.readNumber, readWhole_append hwhole hend, hdigits _ hafter,
    hpower o ho, bind, Except.bind]
  cases Token.ofNumber negative whole digits power <;> rfl

/-- A word that is read in the same way whatever follows it. -/
theorem scansAs_of_readTail {r : Except Fault Token} (hw : IsWord (c :: rest))
    (hread : ∀ o, StopsWord o -> readTail c (rest ++ o) = r.map fun t => (t, o)) :
    ∃ t, ScansAs (c :: rest) t := by
  have hc : isWordChar c = true := hw c List.mem_cons_self
  have hscan : ∀ o, StopsWord o -> Token.scan (c :: rest ++ o) =
      (Token.orBroken (r.map fun t => (t, o))).1 ::
        Token.scan (Token.orBroken (r.map fun t => (t, o))).2 := fun o ho => by
    rw [List.cons_append, Token.scan_cons (not_blank_of_isWordChar hc), read_eq_readTail hc,
      hread o ho]
  cases r with
  | error fault =>
      refine ⟨.broken fault, fun o ho => (hscan o (ho hw)).trans ?_⟩
      exact congrArg (_ :: ·) Token.scan_nil
  | ok t =>
      have ht : t.isBroken = false :=
        Token.not_broken_of_isScalar (isScalar_of_readTail (hread [] (by simp [StopsWord])))
      refine ⟨t, fun o ho => (hscan o (ho hw)).trans ?_⟩
      rw [ht]
      rfl

theorem isWord_of_isDigits {ds : List Char} (hds : IsDigits ds) : IsWord ds := fun c hc => by
  simp [isWordChar, Char.isAlphanum, hds.2 c hc]

theorem isWord_of_isFraction {fraction : List Char} (hfraction : IsFraction fraction) :
    IsWord fraction := by
  cases hfraction with
  | none => decide
  | point hds => exact List.forall_mem_cons.mpr ⟨by decide, isWord_of_isDigits hds⟩

theorem isWord_of_isExponent {exponent : List Char} (hexponent : IsExponent exponent) :
    IsWord exponent := by
  cases hexponent with
  | none => decide
  | @power e sign ds he hsign hds =>
      have hwords : IsWord sign := by rcases hsign with rfl | rfl | rfl <;> decide
      refine List.forall_mem_cons.mpr
        ⟨?_, List.forall_mem_append.mpr ⟨hwords, isWord_of_isDigits hds⟩⟩
      simp only [isExponentMark, Bool.or_eq_true, beq_iff_eq] at he
      rcases he with rfl | rfl <;> decide

theorem isWord_of_isNumber (hw : IsNumber w) : IsWord w := by
  have hparts : ∀ {whole fraction exponent : List Char}, IsWhole whole -> IsFraction fraction ->
      IsExponent exponent -> IsWord (whole ++ (fraction ++ exponent)) :=
    fun hwhole hfraction hexponent => List.forall_mem_append.mpr
      ⟨isWord_of_isDigits hwhole.digits, List.forall_mem_append.mpr
        ⟨isWord_of_isFraction hfraction, isWord_of_isExponent hexponent⟩⟩
  cases hw with
  | positive hwhole hfraction hexponent => exact hparts hwhole hfraction hexponent
  | negative hwhole hfraction hexponent =>
      exact List.forall_mem_cons.mpr ⟨by decide, hparts hwhole hfraction hexponent⟩

theorem readTail_digit (hc : c.isDigit = true) (cs : List Char) :
    readTail c cs = Token.readNumber false (c :: cs) := by
  have hne : ∀ d : Char, d.isDigit = false -> c ≠ d := by
    rintro d hd rfl
    simp [hc] at hd
  rw [readTail, if_neg (hne 'n' (by decide)), if_neg (hne 't' (by decide)),
    if_neg (hne 'f' (by decide)), if_neg (hne '-' (by decide)), if_pos hc]

theorem scansAs_scalar (hl : IsScalar l) : ∃ t, ScansAs l t := by
  cases hl with
  | null =>
      exact scansAs_of_readTail (r := .ok .null) (by decide) fun o _ => rfl
  | true => exact scansAs_of_readTail (r := .ok (.bool true)) (by decide) fun o _ => rfl
  | false => exact scansAs_of_readTail (r := .ok (.bool false)) (by decide) fun o _ => rfl
  | text hbody => exact scansAs_text hbody
  | number hw =>
      have hword := isWord_of_isNumber hw
      cases hw with
      | positive hwhole hfraction hexponent =>
          obtain ⟨r, hread⟩ := readNumber_append false hwhole hfraction hexponent
          obtain ⟨c, rest, rfl, hc⟩ := hwhole.digits.head
          refine scansAs_of_readTail (r := r) hword fun o ho => ?_
          rw [readTail_digit hc]
          exact hread o ho
      | negative hwhole hfraction hexponent =>
          obtain ⟨r, hread⟩ := readNumber_append true hwhole hfraction hexponent
          exact scansAs_of_readTail (r := r) hword hread

theorem scansAs_lexeme (hl : IsLexeme l) : ∃ t, ScansAs l t := by
  cases hl with
  | mark hc => exact scansAs_mark hc
  | scalar hl => exact scansAs_scalar hl

/-!
# Gaps
-/

/-- What may stand between two tokens: blanks, comments up to the end of a line, and closed
comments. -/
inductive Gap : List Char -> Prop where
  | nil : Gap []
  | blank {c : Char} {g : List Char} (hc : Token.isBlank c = true) (hg : Gap g) : Gap (c :: g)
  | line {body g : List Char} (hbody : '\n' ∉ body) (hg : Gap g) :
      Gap ('/' :: '/' :: (body ++ '\n' :: g))
  | block {body g : List Char} (hbody : ¬['*', '/'] <:+: body) (hg : Gap g) :
      Gap ('/' :: '*' :: (body ++ '*' :: '/' :: g))

/-- What may stand after the last token: the last comment may end with the text. -/
inductive EndGap : List Char -> Prop where
  | gap {g : List Char} (hg : Gap g) : EndGap g
  | line {body g : List Char} (hg : Gap g) (hbody : '\n' ∉ body) :
      EndGap (g ++ '/' :: '/' :: body)

def IsBlanks (r : List Char) : Prop :=
  ∀ c ∈ r, Token.isBlank c = true

def IsCloser (l : List Char) : Prop :=
  l = [']'] ∨ l = ['\x7d']

/-- A text that is written with some tokens, gaps between them and at both ends, and perhaps one
more comma before closing brackets and braces that follow a value. -/
inductive Decorates : List (List Char) -> List Char -> Prop where
  | done {g : List Char} (hg : EndGap g) : Decorates [] g
  | token {g l cs : List Char} {ls : List (List Char)} (hg : Gap g) (hcs : Decorates ls cs) :
      Decorates (l :: ls) (g ++ (l ++ cs))
  | comma {g l g' m cs : List Char} {ls : List (List Char)} (hg : Gap g)
      (hl : IsScalar l ∨ IsCloser l) (hg' : Gap g') (hm : IsCloser m)
      (hcs : Decorates (m :: ls) cs) : Decorates (l :: m :: ls) (g ++ (l ++ (g' ++ ',' :: cs)))

/-- A text that is written with some tokens and blanks between them. -/
inductive Spaces : List (List Char) -> List Char -> Prop where
  | done {r : List Char} (hr : IsBlanks r) : Spaces [] r
  | token {r l o : List Char} {ls : List (List Char)} (hr : IsBlanks r) (ho : Spaces ls o) :
      Spaces (l :: ls) (r ++ (l ++ o))

/-- The tokens without anything between them. -/
theorem decorates_flatten : ∀ ls : List (List Char), Decorates ls ls.flatten
  | [] => .done (.gap .nil)
  | _ :: ls => .token .nil (decorates_flatten ls)

theorem Spaces.blanks {r : List Char} (hr : IsBlanks r) (ho : Spaces ls o) :
    Spaces ls (r ++ o) := by
  cases ho with
  | done hr' => exact .done (List.forall_mem_append.mpr ⟨hr, hr'⟩)
  | token hr' ho =>
      rw [← List.append_assoc]
      exact .token (List.forall_mem_append.mpr ⟨hr, hr'⟩) ho

theorem Spaces.lexeme (ho : Spaces ls o) (l : List Char) : Spaces (l :: ls) (l ++ o) :=
  .token (r := []) (by simp [IsBlanks]) ho

open Comments

theorem outside_blank (hc : Token.isBlank c = true) (b : Bool) (rest : List Char) :
    outside b (c :: rest) = c :: outside b rest := by
  have hne : ∀ d : Char, Token.isBlank d = false -> c ≠ d := by
    rintro d hd rfl
    simp [hc] at hd
  rw [outside_plain (isPlain_of_ne (hne _ (by decide)) (hne _ (by decide))) (hne _ (by decide)),
    if_pos (blank_of_blank hc)]

theorem closeBlock?_append {star : Bool} (hstar : star = true -> body.head? ≠ some '/')
    (hbody : ¬['*', '/'] <:+: body) (rest : List Char) :
    closeBlock? star (body ++ '*' :: '/' :: rest) = some (body ++ ['*', '/'], rest) := by
  induction body generalizing star with
  | nil => cases star <;> rfl
  | cons c body ih =>
      have hend : ¬(star && c == '/') = true := by
        intro h
        simp only [Bool.and_eq_true, beq_iff_eq] at h
        exact hstar h.1 (by simp [h.2])
      have hnext : (c == '*') = true -> body.head? ≠ some '/' := by
        intro hc hhead
        refine hbody ?_
        obtain ⟨rest, rfl⟩ : ∃ rest, body = '/' :: rest := by
          cases body with
          | nil => cases hhead
          | cons d body =>
              cases hhead
              exact ⟨body, rfl⟩
        exact ⟨[], rest, by simp [eq_of_beq hc]⟩
      rw [List.cons_append, closeBlock?, if_neg hend,
        ih hnext fun h => hbody (h.trans (List.suffix_cons _ _).isInfix)]
      rfl

theorem dropWhile_line (hbody : '\n' ∉ body) (rest : List Char) :
    (body ++ rest).dropWhile inLineComment = rest.dropWhile inLineComment :=
  List.dropWhile_append_of_pos fun c hc => by
    simp only [inLineComment, bne_iff_ne]
    rintro rfl
    exact hbody hc

/-- A gap leaves blanks. -/
theorem outside_gap {g : List Char} (hg : Gap g) (b : Bool) (rest : List Char) :
    ∃ r, IsBlanks r ∧ outside b (g ++ rest) = r ++ outside b rest := by
  induction hg with
  | nil => exact ⟨[], by simp [IsBlanks], rfl⟩
  | @blank c g hc _ ih =>
      obtain ⟨r, hr, heq⟩ := ih
      refine ⟨c :: r, List.forall_mem_cons.mpr ⟨hc, hr⟩, ?_⟩
      rw [List.cons_append, outside_blank hc, heq]
      rfl
  | @line body g hbody _ ih =>
      obtain ⟨r, hr, heq⟩ := ih
      refine ⟨'\n' :: r, List.forall_mem_cons.mpr ⟨by decide, hr⟩, ?_⟩
      simp only [List.cons_append, List.append_assoc]
      rw [outside_line, dropWhile_line hbody, List.dropWhile_cons_of_neg (by decide),
        outside_blank (by decide), heq]
  | @block body g hbody _ ih =>
      obtain ⟨r, hr, heq⟩ := ih
      refine ⟨breaks (body ++ ['*', '/']) ++ r, List.forall_mem_append.mpr ⟨?_, hr⟩, ?_⟩
      · intro c hc
        rw [eq_of_beq (List.mem_filter.mp hc).2]
        decide
      · simp only [List.cons_append, List.append_assoc]
        rw [outside_block (closeBlock?_append (by simp) hbody _), heq]

theorem outside_endGap {g : List Char} (hg : EndGap g) : IsBlanks (outside false g) := by
  cases hg with
  | gap hg =>
      obtain ⟨r, hr, heq⟩ := outside_gap hg false []
      rw [List.append_nil] at heq
      rw [heq]
      exact List.forall_mem_append.mpr ⟨hr, List.forall_mem_nil _⟩
  | @line body g hg hbody =>
      obtain ⟨r, hr, heq⟩ := outside_gap hg false ('/' :: '/' :: body)
      have hend := dropWhile_line hbody []
      rw [List.append_nil] at hend
      rw [heq, outside_line, hend]
      exact List.forall_mem_append.mpr ⟨hr, List.forall_mem_nil _⟩

/-!
# Tokens that are left
-/

theorem plain_of_isWordChar (hc : isWordChar c = true) (b : Bool) (rest : List Char) :
    outside b (c :: rest) = held b (c :: outside false rest) := by
  have hne : ∀ d : Char, isWordChar d = false -> c ≠ d := by
    rintro d hd rfl
    simp [hc] at hd
  have hblank : ¬Text.isBlank c = true := fun h => by simp [not_wordChar_of_blank h] at hc
  have hcloser : isCloser c = false := by
    simp [isCloser, hne _ (by decide : isWordChar '\x7d' = false),
      hne _ (by decide : isWordChar ']' = false)]
  rw [outside_plain (isPlain_of_ne (hne _ (by decide)) (hne _ (by decide))) (hne _ (by decide)),
    if_neg hblank, hcloser, Bool.not_false, Bool.and_true]

theorem outside_word (hw : IsWord w) (rest : List Char) :
    outside false (w ++ rest) = w ++ outside false rest := by
  induction w with
  | nil => rfl
  | cons c w ih =>
      obtain ⟨hc, hw⟩ := List.forall_mem_cons.mp hw
      rw [List.cons_append, plain_of_isWordChar hc, ih hw]
      rfl

theorem word_or_text_of_isScalar (hl : IsScalar l) :
    (IsWord l ∧ l ≠ []) ∨ ∃ body, l = '"' :: body ∧ IsTextBody body := by
  cases hl with
  | null => exact .inl ⟨by decide, by decide⟩
  | true => exact .inl ⟨by decide, by decide⟩
  | false => exact .inl ⟨by decide, by decide⟩
  | number hw =>
      obtain ⟨c, rest, rfl, -⟩ := head_of_isScalar (.number hw)
      exact .inl ⟨isWord_of_isNumber hw, by simp⟩
  | text hbody => exact .inr ⟨_, rfl, hbody⟩

/-- A value is left as it is, after the comma that was held back. -/
theorem outside_scalar (hl : IsScalar l) (b : Bool) (rest : List Char) :
    outside b (l ++ rest) = held b (l ++ outside false rest) := by
  rcases word_or_text_of_isScalar hl with ⟨hw, hne⟩ | ⟨body, rfl, hbody⟩
  · obtain ⟨c, w, rfl⟩ := List.exists_cons_of_ne_nil hne
    obtain ⟨hc, hw⟩ := List.forall_mem_cons.mp hw
    rw [List.cons_append, plain_of_isWordChar hc, outside_word hw]
    rfl
  · exact outside_text (closeText?_of_isTextBody hbody rest) b

theorem outside_closer (hm : IsCloser m) (b : Bool) (rest : List Char) :
    outside b (m ++ rest) = m ++ outside false rest := by
  rcases hm with rfl | rfl <;>
    rw [List.singleton_append, outside_plain (isPlain_of_ne (by decide) (by decide)) (by decide),
      if_neg (by decide)] <;> cases b <;> rfl

theorem outside_mark (hc : c ∈ marks) (hcomma : c ≠ ',') (hcloser : ¬IsCloser [c]) (b : Bool)
    (rest : List Char) : outside b (c :: rest) = held b (c :: outside false rest) := by
  have hplain : c = '\x7b' ∨ c = '[' ∨ c = ':' := by
    simp only [marks, List.mem_cons, List.not_mem_nil, or_false] at hc
    rcases hc with rfl | rfl | rfl | rfl | rfl | rfl
    · exact .inl rfl
    · exact absurd (.inr rfl) hcloser
    · exact .inr (.inl rfl)
    · exact absurd (.inl rfl) hcloser
    · exact absurd rfl hcomma
    · exact .inr (.inr rfl)
  rcases hplain with rfl | rfl | rfl <;>
    rw [outside_plain (isPlain_of_ne (by decide) (by decide)) (by decide), if_neg (by decide)] <;>
      cases b <;> rfl

theorem outside_lexeme (hl : IsLexeme l) (hcomma : l ≠ [',']) (hcloser : ¬IsCloser l) (b : Bool)
    (rest : List Char) : outside b (l ++ rest) = held b (l ++ outside false rest) := by
  cases hl with
  | mark hc => exact outside_mark hc (fun h => hcomma (h ▸ rfl)) hcloser b rest
  | scalar hl => exact outside_scalar hl b rest

/-- What is left of a text has some tokens with blanks between them, and so it is if a comma was
held back before it. -/
structure Leaves (ls : List (List Char)) (cs : List Char) : Prop where
  tokens : Spaces ls (outside false cs)
  closer : ∀ m ms, ls = m :: ms -> IsCloser m -> Spaces ls (outside true cs)
  other : ∀ m ms, ls = m :: ms -> ¬IsCloser m -> Spaces ([','] :: ls) (outside true cs)

theorem spaces_gap {g : List Char} (hg : Gap g) (b : Bool) (hrest : Spaces ls (outside b rest)) :
    Spaces ls (outside b (g ++ rest)) := by
  obtain ⟨r, hr, heq⟩ := outside_gap hg b rest
  exact heq ▸ hrest.blanks hr

theorem leaves_token {g : List Char} (hg : Gap g) (hl : IsLexeme l) (hcomma : l ≠ [','])
    (hrest : Spaces ls (outside false rest)) : Leaves (l :: ls) (g ++ (l ++ rest)) := by
  by_cases hcloser : IsCloser l
  · have hend : ∀ b, Spaces (l :: ls) (outside b (l ++ rest)) := fun b =>
      outside_closer hcloser b rest ▸ hrest.lexeme l
    refine ⟨spaces_gap hg false (hend false), fun m ms _ _ => spaces_gap hg true (hend true), ?_⟩
    intro m ms heq hm
    cases heq
    exact absurd hcloser hm
  · have hheld := fun b => outside_lexeme hl hcomma hcloser b rest
    refine ⟨spaces_gap hg false ((hheld false) ▸ hrest.lexeme l), fun m ms heq hm => ?_,
      fun m ms _ _ => spaces_gap hg true ((hheld true) ▸ (hrest.lexeme l).lexeme [','])⟩
    cases heq
    exact absurd hm hcloser

theorem leaves_comma {g : List Char} (hg : Gap g)
    (hrest : Spaces ([','] :: ls) (outside true rest)) :
    Leaves ([','] :: ls) (g ++ ([','] ++ rest)) := by
  have hcomma := fun b => outside_comma b rest
  refine ⟨spaces_gap hg false ((hcomma false) ▸ hrest), fun m ms heq hm => ?_,
    fun m ms _ _ => spaces_gap hg true ((hcomma true) ▸ hrest.lexeme [','])⟩
  cases heq
  exact absurd hm (by simp [IsCloser])

/-- When comments and trailing commas are removed, the tokens are left. -/
theorem leaves_of_decorates (hcs : Decorates ls cs) (hlexemes : ∀ l ∈ ls, IsLexeme l)
    (horder : ls.IsChain MayStandBefore) (hlast : ∀ l ∈ ls.getLast?, l ≠ [',']) : Leaves ls cs := by
  induction hcs with
  | done hg => exact ⟨.done (outside_endGap hg), by simp, by simp⟩
  | @token g l cs ls hg hcs ih =>
      obtain ⟨hl, hmore⟩ := List.forall_mem_cons.mp hlexemes
      have hlast' : ∀ m ∈ ls.getLast?, m ≠ [','] := by
        cases ls with
        | nil => simp
        | cons m ls => simpa only [List.getLast?_cons_cons] using hlast
      have hrest := ih hmore horder.tail hlast'
      by_cases hcomma : l = [',']
      · subst hcomma
        cases ls with
        | nil => exact absurd rfl (hlast [','] rfl)
        | cons m ls =>
            have hm : ¬IsCloser m := fun hm => (List.isChain_cons_cons.mp horder).1.2 ⟨rfl, hm⟩
            exact leaves_comma hg (hrest.other m ls rfl hm)
      · exact leaves_token hg hl hcomma hrest.tokens
  | @comma g l g' m cs ls hg hl hg' hm hcs ih =>
      obtain ⟨hlexeme, hmore⟩ := List.forall_mem_cons.mp hlexemes
      have hrest := ih hmore horder.tail hlast
      have hcomma : l ≠ [','] := by
        rintro rfl
        rcases hl with hl | hl
        · exact not_isScalar_mark (by decide) hl
        · simp [IsCloser] at hl
      refine leaves_token hg hlexeme hcomma (spaces_gap hg' false ?_)
      exact outside_comma false cs ▸ hrest.closer m ls rfl hm

/-!
# Reading decorated texts
-/

theorem isWordChar_of_mark (hc : c ∈ marks) :
    Token.isBlank c = false ∧ c ≠ '"' ∧ isWordChar c = false := by
  simp only [marks, List.mem_cons, List.not_mem_nil, or_false] at hc
  rcases hc with rfl | rfl | rfl | rfl | rfl | rfl <;> decide

theorem not_isWord_of_head (hc : isWordChar c = false) : ¬IsWord (c :: rest) := fun hw => by
  simp [hw c List.mem_cons_self] at hc

theorem not_wordChar_of_isBlank (hc : Token.isBlank c = true) : isWordChar c = false :=
  not_wordChar_of_blank (blank_of_blank hc)

/-- After a word the next token does not go on with it. -/
theorem stopsWord_of_spaces (hl : IsLexeme l) (hw : IsWord l) (ho : Spaces ls o)
    (hlexemes : ∀ m ∈ ls, IsLexeme m) (horder : (l :: ls).IsChain MayStandBefore) :
    StopsWord o := by
  have hscalar : IsScalar l := by
    cases hl with
    | mark hc => exact absurd hw (not_isWord_of_head (isWordChar_of_mark hc).2.2)
    | scalar hl => exact hl
  have hblank : ∀ {r o : List Char}, IsBlanks r -> StopsWord o -> StopsWord (r ++ o) := by
    intro r o hr ho
    cases r with
    | nil => exact ho
    | cons c r => exact stopsWord_cons (not_wordChar_of_isBlank (hr c List.mem_cons_self))
  cases ho with
  | @done r hr => simpa using hblank hr stopsWord_nil
  | @token r m o ls hr ho =>
      refine hblank hr ?_
      have hm := (List.isChain_cons_cons.mp horder).1
      cases hlexemes m List.mem_cons_self with
      | mark hc => exact stopsWord_cons (isWordChar_of_mark hc).2.2
      | scalar hm' => exact absurd ⟨hscalar, hm'⟩ hm.1

theorem lexemes_of_spaces (ho : Spaces ls o) (hlexemes : ∀ l ∈ ls, IsLexeme l)
    (horder : ls.IsChain MayStandBefore) : lexemes o = ls := by
  induction ho with
  | @done r hr =>
      have hblanks := lexemes_blanks hr []
      rwa [List.append_nil, lexemes_nil] at hblanks
  | @token r l o ls hr ho ih =>
      obtain ⟨hl, hmore⟩ := List.forall_mem_cons.mp hlexemes
      have hrest := ih hmore horder.tail
      have hstops := fun hw => stopsWord_of_spaces hl hw ho hmore horder
      rw [lexemes_blanks hr]
      cases hl with
      | mark hc =>
          obtain ⟨hblank, hquote, hword⟩ := isWordChar_of_mark hc
          rw [List.singleton_append, lexemes_mark hblank hquote hword, hrest]
      | scalar hl =>
          rcases word_or_text_of_isScalar hl with ⟨hw, hne⟩ | ⟨body, rfl, hbody⟩
          · rw [lexemes_word hne hw (hstops hw), hrest]
          · rw [List.cons_append, lexemes_text (closeText?_of_isTextBody hbody o), hrest]

theorem scan_blanks (hr : IsBlanks rest) (o : List Char) :
    Token.scan (rest ++ o) = Token.scan o := by
  induction rest with
  | nil => rfl
  | cons c rest ih =>
      obtain ⟨hc, hrest⟩ := List.forall_mem_cons.mp hr
      rw [List.cons_append, Token.scan_blank hc, ih hrest]

/-- What is scanned does not depend on the blanks between the tokens. -/
theorem scan_of_spaces {o' : List Char} (ho : Spaces ls o) (ho' : Spaces ls o')
    (hlexemes : ∀ l ∈ ls, IsLexeme l) (horder : ls.IsChain MayStandBefore) :
    Token.scan o = Token.scan o' := by
  induction ho generalizing o' with
  | @done r hr =>
      cases ho' with
      | @done r' hr' =>
          have hend := (scan_blanks hr []).trans (scan_blanks hr' []).symm
          rwa [List.append_nil, List.append_nil] at hend
  | @token r l o ls hr ho ih =>
      cases ho' with
      | @token r' _ o' _ hr' ho' =>
          obtain ⟨hl, hmore⟩ := List.forall_mem_cons.mp hlexemes
          obtain ⟨t, ht⟩ := scansAs_lexeme hl
          rw [scan_blanks hr, scan_blanks hr',
            ht o fun hw => stopsWord_of_spaces hl hw ho hmore horder,
            ht o' fun hw => stopsWord_of_spaces hl hw ho' hmore horder,
            ih ho' hmore horder.tail]

end Json

open Json Comments

end Config
end GradualTypes
