import GradualTypes.Double.Text
import GradualTypes.Proofs.Codes
import GradualTypes.Proofs.ShortestDecimals
import GradualTypes.Text.Numeral

/-!
# Numbers and their texts

The text of an integer reads back as that integer, and the full text of a double as the value
of its shortest decimal.  So two doubles that are not "not a number" have different texts.
-/

namespace GradualTypes
namespace Text
namespace Numeral

/-!
# Digits
-/

def IsDigits (cs : List Char) : Prop :=
  ∀ c ∈ cs, c.isDigit = true

variable {cs ds e f w : List Char} {c : Char} {n : Nat}

theorem IsDigits.append (hw : IsDigits w) (hf : IsDigits f) : IsDigits (w ++ f) :=
  List.forall_mem_append.mpr ⟨hw, hf⟩

theorem isDigits_toString (n : Nat) : IsDigits (toString n).toList := by
  intro c hc
  rw [Nat.toString_eq_repr, Nat.toList_repr] at hc
  exact Nat.isDigit_of_mem_toDigits (by decide) (by decide) hc

theorem isDigits_zeros (k : Nat) : IsDigits (List.replicate k '0') := by
  intro c hc
  rw [List.eq_of_mem_replicate hc]
  rfl

theorem toString_ne_nil (n : Nat) : (toString n).toList ≠ [] := by
  rw [Nat.toString_eq_repr, Nat.toList_repr]
  exact Nat.toDigits_ne_nil

theorem natOfDigits_toString (n : Nat) : natOfDigits (toString n).toList = n := by
  rw [Nat.toString_eq_repr, Nat.toList_repr]
  exact Nat.ofDigitChars_ten_toDigits

theorem natOfDigits_append (cs ds : List Char) :
    natOfDigits (cs ++ ds) = 10 ^ ds.length * natOfDigits cs + natOfDigits ds :=
  (Nat.ofDigitChars_append 0).trans Nat.ofDigitChars_eq_ofDigitChars_zero

theorem natOfDigits_zeros (k : Nat) : natOfDigits (List.replicate k '0') = 0 :=
  Nat.ofDigitChars_replicate_zero

/-!
# Integers
-/

theorem sign_of_isDigit (hc : c.isDigit = true) : sign (c :: cs) = (false, c :: cs) := by
  unfold sign
  split <;> simp_all

theorem integer?_digits (hds : IsDigits ds) (hne : ds ≠ []) :
    integer? ds = some (natOfDigits ds : Int) ∧
      integer? ('-' :: ds) = some (-(natOfDigits ds : Int)) := by
  have hall : ds.all Char.isDigit = true := List.all_eq_true.mpr hds
  have hsome : ds.isEmpty = false := by simpa using hne
  constructor
  · cases ds with
    | nil => exact absurd rfl hne
    | cons c cs =>
        have hsign : sign (c :: cs) = (false, c :: cs) := sign_of_isDigit (hds c List.mem_cons_self)
        simp [integer?, hsign, hall]
  · simp [integer?, sign, hall, hsome]

theorem integer?_toString (n : Int) : integer? (toString n).toList = some n := by
  rw [Int.toString_eq_repr, Int.repr_eq_if]
  split
  · have hread := (integer?_digits (isDigits_toString n.toNat) (toString_ne_nil _)).1
    rw [natOfDigits_toString, Nat.toString_eq_repr] at hread
    rw [hread, Int.toNat_of_nonneg ‹_›]
  · have hread := (integer?_digits (isDigits_toString (-n).toNat) (toString_ne_nil _)).2
    rw [natOfDigits_toString, Nat.toString_eq_repr] at hread
    rw [String.toList_append]
    refine hread.trans (congrArg some ?_)
    omega

theorem toString_inj {m n : Int} (htext : toString m = toString n) : m = n := by
  have hread := integer?_toString m
  rw [htext, integer?_toString] at hread
  exact (Option.some.inj hread).symm

/-- A text with a character that is no digit and no sign is no integer. -/
theorem integer?_eq_none (hc : c ∈ cs) (hdigit : c.isDigit = false) (hminus : c ≠ '-')
    (hplus : c ≠ '+') : integer? cs = none := by
  have hmem : c ∈ (sign cs).2 := by
    unfold sign
    split
    · exact (List.mem_cons.mp hc).resolve_left hminus
    · exact (List.mem_cons.mp hc).resolve_left hplus
    · exact hc
  have hall : (sign cs).2.all Char.isDigit = false :=
    List.all_eq_false.mpr ⟨c, hmem, by simp [hdigit]⟩
  simp [integer?, hall]

/-!
# Decimals
-/

/-- The magnitude that a text denotes. -/
def value? (cs : List Char) : Option ℚ :=
  (magnitude? cs).map fun p => p.1 * (10 : ℚ) ^ p.2

/-- Nothing in front of which a run of digits would go on. -/
def StopsDigits (cs : List Char) : Prop :=
  ∀ c, cs.head? = some c -> c.isDigit = false

theorem takeWhile_digits (hw : IsDigits w) (he : StopsDigits e) :
    (w ++ e).takeWhile Char.isDigit = w ∧ (w ++ e).dropWhile Char.isDigit = e := by
  rw [List.takeWhile_append_of_pos hw, List.dropWhile_append_of_pos hw]
  cases e with
  | nil => simp
  | cons c cs => simp [he c rfl]

theorem sign_digits (hw : IsDigits w) (hne : w ≠ []) : (sign (w ++ e)).2 = w ++ e := by
  cases w with
  | nil => exact absurd rfl hne
  | cons c cs => rw [List.cons_append, sign_of_isDigit (hw c List.mem_cons_self)]

theorem magnitude?_point (hw : IsDigits w) (hne : w ≠ []) (hf : IsDigits f) (he : StopsDigits e) :
    magnitude? (w ++ '.' :: (f ++ e)) =
      (exponent? e).map fun x => (natOfDigits (w ++ f), x - (f.length : Int)) := by
  have hpoint : StopsDigits ('.' :: (f ++ e)) := by
    intro c hc
    cases hc
    rfl
  have hwhole := takeWhile_digits hw hpoint
  have hfraction := takeWhile_digits hf he
  have hempty : w.isEmpty = false := by simpa using hne
  simp only [magnitude?, sign_digits hw hne, hwhole, hfraction, hempty, Bool.false_and]
  cases exponent? e <;> rfl

theorem magnitude?_whole (hw : IsDigits w) (hne : w ≠ []) (he : StopsDigits e)
    (hpoint : ∀ rest, e ≠ '.' :: rest) :
    magnitude? (w ++ e) = (exponent? e).map fun x => (natOfDigits w, x) := by
  have hwhole := takeWhile_digits hw he
  have hempty : w.isEmpty = false := by simpa using hne
  simp only [magnitude?, sign_digits hw hne, hwhole, hempty]
  cases exponent? e <;> simp

theorem stopsDigits_exponent (cs : List Char) : StopsDigits ('e' :: cs) := by
  intro c hc
  cases hc
  rfl

theorem exponent?_toString (n : Int) : exponent? ('e' :: (toString n).toList) = some n :=
  integer?_toString n

/-- Digits with a fraction, a power of ten or both, and their value. -/
inductive Denotes : List Char -> ℚ -> Prop where
  | fraction {w f : List Char} : IsDigits w -> w ≠ [] -> IsDigits f ->
      Denotes (w ++ '.' :: f) (natOfDigits (w ++ f) * (10 : ℚ) ^ (-(f.length : Int)))
  | power {w : List Char} (n : Int) : IsDigits w -> w ≠ [] ->
      Denotes (w ++ 'e' :: (toString n).toList) (natOfDigits w * (10 : ℚ) ^ n)
  | both {w f : List Char} (n : Int) : IsDigits w -> w ≠ [] -> IsDigits f ->
      Denotes (w ++ '.' :: (f ++ 'e' :: (toString n).toList))
        (natOfDigits (w ++ f) * (10 : ℚ) ^ (n - (f.length : Int)))

theorem Denotes.value? {v : ℚ} (hcs : Denotes cs v) : value? cs = some v := by
  cases hcs with
  | fraction hw hne hf =>
      have hread := magnitude?_point hw hne hf (e := []) fun _ hc => nomatch hc
      rw [List.append_nil] at hread
      rw [Numeral.value?, hread]
      simp [exponent?]
  | power n hw hne =>
      rw [Numeral.value?, magnitude?_whole hw hne (stopsDigits_exponent _) (by simp),
        exponent?_toString]
      rfl
  | both n hw hne hf =>
      rw [Numeral.value?, magnitude?_point hw hne hf (stopsDigits_exponent _), exponent?_toString]
      rfl

theorem Denotes.lead {v : ℚ} (hcs : Denotes cs v) :
    ∃ c rest, cs = c :: rest ∧ c.isDigit = true := by
  have happend : ∀ {w e : List Char}, IsDigits w -> w ≠ [] ->
      ∃ c rest, w ++ e = c :: rest ∧ c.isDigit = true := by
    intro w e hw hne
    cases w with
    | nil => exact absurd rfl hne
    | cons c rest => exact ⟨c, rest ++ e, rfl, hw c List.mem_cons_self⟩
  cases hcs with
  | fraction hw hne hf => exact happend hw hne
  | power n hw hne => exact happend hw hne
  | both n hw hne hf => exact happend hw hne

theorem Denotes.mark {v : ℚ} (hcs : Denotes cs v) : '.' ∈ cs ∨ 'e' ∈ cs := by
  cases hcs <;> simp

/-- The characters of integers and decimals. -/
def IsNumeric (cs : List Char) : Prop :=
  ∀ c ∈ cs, c.isDigit = true ∨ c ∈ ['-', '.', 'e']

theorem IsDigits.isNumeric (hw : IsDigits w) : IsNumeric w :=
  fun c hc => .inl (hw c hc)

theorem isNumeric_toString (n : Int) : IsNumeric (toString n).toList := by
  rw [Int.toString_eq_repr, Int.repr_eq_if]
  split
  · exact (isDigits_toString n.toNat).isNumeric
  · rw [String.toList_append]
    refine List.forall_mem_append.mpr ⟨by simp, (isDigits_toString (-n).toNat).isNumeric⟩

theorem Denotes.isNumeric {v : ℚ} (hcs : Denotes cs v) : IsNumeric cs := by
  have happend : ∀ {w e : List Char} {c : Char}, IsDigits w -> c ∈ ['-', '.', 'e'] ->
      IsNumeric e -> IsNumeric (w ++ c :: e) := fun hw hc he =>
    List.forall_mem_append.mpr ⟨hw.isNumeric, List.forall_mem_cons.mpr ⟨.inr hc, he⟩⟩
  cases hcs with
  | fraction hw hne hf => exact happend hw (by simp) hf.isNumeric
  | power n hw hne => exact happend hw (by simp) (isNumeric_toString n)
  | both n hw hne hf =>
      exact happend hw (by simp) (happend hf (by simp) (isNumeric_toString n))

end Numeral
end Text

/-!
# Shortest decimals
-/

open Text.Numeral

namespace Decimal

theorem withPoint_of_isDigits {text : String} (htext : IsDigits text.toList) :
    withPoint text = text ++ ".0" := by
  have hpoint : text.contains '.' = false := by
    rw [String.contains_char_eq, decide_eq_false_iff_not]
    intro hmem
    cases htext _ hmem
  rw [withPoint, hpoint, if_neg Bool.false_ne_true]

theorem withPoint_of_mem {text : String} (hmem : '.' ∈ text.toList) : withPoint text = text := by
  rw [withPoint, if_pos (by rw [String.contains_char_eq, decide_eq_true hmem])]

theorem denotes_positional (d : Decimal) : Denotes (withPoint d.positional).toList d.value := by
  have hdigits := isDigits_toString d.digits
  have hnat := natOfDigits_toString d.digits
  have hne := toString_ne_nil d.digits
  simp only [positional]
  split
  · rename_i hexponent
    have htext : (toString d.digits ++
        String.ofList (List.replicate d.exponent.toNat '0')).toList =
          (toString d.digits).toList ++ List.replicate d.exponent.toNat '0' := by
      rw [String.toList_append, String.toList_ofList]
    have hwhole := hdigits.append (isDigits_zeros d.exponent.toNat)
    have hvalue : d.value = natOfDigits ((toString d.digits).toList ++
        List.replicate d.exponent.toNat '0' ++ ['0']) * (10 : ℚ) ^ (-(1 : Int)) := by
      have hzero : natOfDigits ['0'] = 0 := natOfDigits_zeros 1
      rw [natOfDigits_append, natOfDigits_append, natOfDigits_zeros, hnat, hzero, value]
      conv_lhs => rw [← Int.toNat_of_nonneg hexponent, zpow_natCast]
      simp only [List.length_replicate, List.length_singleton, zpow_neg_one]
      push_cast
      ring
    rw [withPoint_of_isDigits (htext ▸ hwhole), String.toList_append, htext, hvalue]
    exact .fraction (f := ['0']) hwhole (by simp) (isDigits_zeros 1)
  · rename_i hexponent
    generalize toString d.digits = text at *
    generalize hpadded : List.replicate ((-d.exponent).toNat + 1 - text.length) '0' ++
      text.toList = padded
    have hlength : (-d.exponent).toNat + 1 ≤ padded.length := by
      rw [← hpadded, List.length_append, List.length_replicate, String.length_toList]
      omega
    have hpadding : IsDigits padded := hpadded ▸ (isDigits_zeros _).append hdigits
    generalize hk : padded.length - (-d.exponent).toNat = k
    have hsplit : padded.take k ++ padded.drop k = padded := List.take_append_drop _ _
    have hvalue : d.value = natOfDigits (padded.take k ++ padded.drop k) *
        (10 : ℚ) ^ (-((padded.drop k).length : Int)) := by
      have hdrop : -((padded.drop k).length : Int) = d.exponent := by
        rw [List.length_drop]
        omega
      rw [hsplit, hdrop, ← hpadded, natOfDigits_append, natOfDigits_zeros, hnat, value]
      simp
    have htext : (String.ofList (padded.take k) ++ "." ++ String.ofList (padded.drop k)).toList =
        padded.take k ++ '.' :: padded.drop k := by
      simp
    rw [withPoint_of_mem (by rw [htext]; simp), htext, hvalue]
    refine .fraction (fun c hc => hpadding c (List.mem_of_mem_take hc)) ?_
      fun c hc => hpadding c (List.mem_of_mem_drop hc)
    rw [← List.length_pos_iff, List.length_take]
    omega

theorem denotes_scientific (d : Decimal) : Denotes d.scientific.toList d.value := by
  have hdigits := isDigits_toString d.digits
  have hnat := natOfDigits_toString d.digits
  have hne := toString_ne_nil d.digits
  simp only [scientific, String.toList_append, String.toList_ofList]
  generalize (toString d.digits).toList = text at *
  split
  · rename_i hone
    have hpower := Denotes.power (d.exponent + (text.length - 1 : Nat)) hdigits hne
    have hvalue : d.value = natOfDigits text *
        (10 : ℚ) ^ (d.exponent + (text.length - 1 : Nat)) := by
      rw [value, hnat, Nat.sub_eq_zero_of_le hone, Nat.cast_zero, add_zero]
    rw [List.take_of_length_le hone, String.toList_empty, List.append_nil, List.append_assoc,
      hvalue]
    exact hpower
  · rename_i hmore
    have hsplit : text.take 1 ++ text.tail = text := by
      rw [← List.drop_one, List.take_append_drop]
    have hboth := Denotes.both (w := text.take 1) (f := text.tail)
      (d.exponent + (text.length - 1 : Nat)) (fun c hc => hdigits c (List.mem_of_mem_take hc))
      (by simpa using hne) fun c hc => hdigits c (List.mem_of_mem_tail hc)
    have hvalue : d.value = natOfDigits (text.take 1 ++ text.tail) *
        (10 : ℚ) ^ (d.exponent + (text.length - 1 : Nat) - (text.tail.length : Int)) := by
      rw [hsplit, hnat, value, List.length_tail, add_sub_cancel_right]
    rw [hvalue]
    simpa using hboth

end Decimal

/-!
# Literals
-/

namespace Double

/-- The magnitude that the text of a finite double denotes. -/
def textValue (x : Double) : ℚ :=
  if x.magnitudeBits = 0 then 0 else x.shortest.value

theorem magnitudeBits_eq_of_textValue {x y : Double} (hvalue : x.textValue = y.textValue) :
    x.magnitudeBits = y.magnitudeBits := by
  unfold textValue at hvalue
  split at hvalue <;> split at hvalue
  · rename_i hx hy
    rw [hx, hy]
  · rename_i hy
    exact absurd hvalue (shortest_value_pos hy).ne
  · rename_i hx _
    exact absurd hvalue (shortest_value_pos hx).ne'
  · rename_i hx hy
    exact magnitudeBits_eq_of_shortest hx hy hvalue

/-- The text of a double that is not "not a number", without its sign. -/
def unsignedText (x : Double) : String :=
  if !x.isFinite then "inf"
  else if x.magnitudeBits = 0 then "0.0"
  else if -4 ≤ x.shortest.leadingPower ∧ x.shortest.leadingPower < 16 then
    Decimal.withPoint x.shortest.positional
  else x.shortest.scientific

theorem literal_eq {x : Double} (hx : x.isNaN = false) :
    x.literal = x.signText ++ x.unsignedText := by
  unfold literal unsignedText
  rw [hx, if_neg Bool.false_ne_true]
  split
  · rfl
  · split
    · rfl
    · simp only
      split <;> rfl

theorem unsignedText_of_infinite {x : Double} (hx : x.isFinite = false) :
    x.unsignedText = "inf" := by
  rw [unsignedText, hx, Bool.not_false, if_pos rfl]

theorem denotes_unsignedText {x : Double} (hx : x.isFinite = true) :
    Denotes x.unsignedText.toList x.textValue := by
  unfold unsignedText textValue
  rw [hx, Bool.not_true, if_neg Bool.false_ne_true]
  split
  · have hzero : ((natOfDigits (['0'] ++ ['0']) : Nat) : ℚ) * (10 : ℚ) ^ (-(1 : Int)) = 0 := by
      rw [show natOfDigits (['0'] ++ ['0']) = 0 from natOfDigits_zeros 2, Nat.cast_zero, zero_mul]
    rw [← hzero]
    exact .fraction (isDigits_zeros 1) (by simp) (isDigits_zeros 1)
  · split
    · exact x.shortest.denotes_positional
    · exact x.shortest.denotes_scientific

theorem unsignedText_lead (x : Double) :
    ∃ c rest, x.unsignedText.toList = c :: rest ∧ (c.isDigit = true ∨ c = 'i') := by
  cases hx : x.isFinite with
  | false =>
      rw [unsignedText_of_infinite hx]
      exact ⟨'i', ['n', 'f'], rfl, .inr rfl⟩
  | true =>
      rcases (denotes_unsignedText hx).lead with ⟨c, rest, htext, hc⟩
      exact ⟨c, rest, htext, .inl hc⟩

theorem signText_toList (x : Double) :
    x.signText.toList = if x.isNegative then ['-'] else [] := by
  unfold signText
  cases x.isNegative <;> rfl

/-- A minus sign can be told from the rest of a literal. -/
theorem sign_unsigned_inj {x y : Double}
    (htext : x.signText ++ x.unsignedText = y.signText ++ y.unsignedText) :
    x.isNegative = y.isNegative ∧ x.unsignedText = y.unsignedText := by
  rcases x.unsignedText_lead with ⟨c, cs, hcs, hc⟩
  rcases y.unsignedText_lead with ⟨d, ds, hds, hd⟩
  have hminus : ∀ c : Char, (c.isDigit = true ∨ c = 'i') -> c ≠ '-' := by
    intro c hc heq
    subst heq
    revert hc
    decide
  rw [← String.toList_inj, String.toList_append, String.toList_append, signText_toList,
    signText_toList, hcs, hds] at htext
  rw [← String.toList_inj, hcs, hds]
  cases hx : x.isNegative <;> cases hy : y.isNegative <;> simp [hx, hy] at htext ⊢
  · exact htext
  · exact absurd htext.1 (hminus c hc)
  · exact absurd htext.1.symm (hminus d hd)
  · exact htext

theorem magnitudeBits_of_infinite {x : Double} (hnan : x.isNaN = false)
    (hx : x.isFinite = false) : x.magnitudeBits = 2047 * 2 ^ 52 := by
  have hexponent : x.exponentBits = 2047 := by simpa [isFinite] using hx
  have hfraction : x.fractionBits = 0 := by simpa [isNaN, hexponent] using hnan
  rw [magnitudeBits_eq, hexponent, hfraction, Nat.add_zero]

theorem literal_ne_NaN {x : Double} (hx : x.isNaN = false) : x.literal ≠ "NaN" := by
  rcases x.unsignedText_lead with ⟨c, cs, hcs, hc⟩
  rw [literal_eq hx, ne_eq, ← String.toList_inj, String.toList_append, signText_toList, hcs]
  cases x.isNegative with
  | true => simp
  | false =>
      intro htext
      have : c = 'N' := (List.cons.inj htext).1
      subst this
      revert hc
      decide

theorem literal_of_isNaN {x : Double} (hx : x.isNaN = true) : x.literal = "NaN" := by
  rw [literal, if_pos hx]

theorem magnitudeBits_eq_of_unsignedText {x y : Double} (hx : x.isNaN = false)
    (hy : y.isNaN = false) (htext : x.unsignedText = y.unsignedText) :
    x.magnitudeBits = y.magnitudeBits := by
  have hnone : value? "inf".toList = none := rfl
  cases hfx : x.isFinite <;> cases hfy : y.isFinite
  · rw [magnitudeBits_of_infinite hx hfx, magnitudeBits_of_infinite hy hfy]
  · have hread := (denotes_unsignedText hfy).value?
    rw [← htext, unsignedText_of_infinite hfx, hnone] at hread
    cases hread
  · have hread := (denotes_unsignedText hfx).value?
    rw [htext, unsignedText_of_infinite hfy, hnone] at hread
    cases hread
  · have hread := (denotes_unsignedText hfx).value?
    rw [htext, (denotes_unsignedText hfy).value?] at hread
    exact magnitudeBits_eq_of_textValue (Option.some.inj hread).symm

/-- Doubles with the same text are the same, or both are "not a number". -/
theorem literal_inj {x y : Double} (htext : x.literal = y.literal) :
    x = y ∨ x.isNaN = true ∧ y.isNaN = true := by
  cases hx : x.isNaN with
  | true =>
      rw [literal_of_isNaN hx] at htext
      refine .inr ⟨rfl, ?_⟩
      by_contra hy
      exact literal_ne_NaN (by simpa using hy) htext.symm
  | false =>
      cases hy : y.isNaN with
      | true => exact absurd (htext.trans (literal_of_isNaN hy)) (literal_ne_NaN hx)
      | false =>
          rw [literal_eq hx, literal_eq hy] at htext
          rcases sign_unsigned_inj htext with ⟨hsign, hunsigned⟩
          have hmagnitude := magnitudeBits_eq_of_unsignedText hx hy hunsigned
          exact .inl (orderKey_inj (by rw [orderKey, orderKey, hsign, hmagnitude]))

/-- No literal of a double is one of an integer. -/
theorem integer?_literal (x : Double) : integer? x.literal.toList = none := by
  cases hnan : x.isNaN with
  | true =>
      rw [literal_of_isNaN hnan]
      rfl
  | false =>
      rw [literal_eq hnan, String.toList_append]
      cases hx : x.isFinite with
      | false =>
          rw [unsignedText_of_infinite hx]
          exact integer?_eq_none (c := 'n') (by simp) rfl (by decide) (by decide)
      | true =>
          rcases (denotes_unsignedText hx).mark with hmark | hmark
          · exact integer?_eq_none (List.mem_append_right _ hmark) rfl (by decide) (by decide)
          · exact integer?_eq_none (List.mem_append_right _ hmark) rfl (by decide) (by decide)

end Double
end GradualTypes
