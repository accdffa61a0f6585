import GradualTypes.Proofs.UnionNormal

/-!
# Types of integers and of booleans

A type of integers is related to other types of integers only, and a type of booleans to
other types of booleans.  So such a type is no member of an intersection, and what is
below it is again such a type.  These are the types that a union may hold although they
were not given.
-/

namespace GradualTypes

open Inquiry
open GradualTypes.Intersection (Independent)
open GradualTypes.Subtype (Certain Contained Fits contained_iff exact)

variable {h : Hierarchy} {s t u : Ty}

/-- A type of some integers or of some booleans. -/
inductive Ty.IsDiscrete : Ty -> Prop where
  | int : IsDiscrete .int
  | number (n : Int) : IsDiscrete (.literal (.int n))
  | range (r : IntRange) : IsDiscrete (.range r)
  | bool : IsDiscrete .bool
  | truth (b : Bool) : IsDiscrete (.literal (.bool b))

namespace Ty.IsDiscrete

theorem isScalar (ht : t.IsDiscrete) : t.isScalar = true := by
  cases ht <;> rfl

theorem isSimple (ht : t.IsDiscrete) : t.isSimple = true :=
  isSimple_of_isScalar ht.isScalar

theorem isOrdinary (ht : t.IsDiscrete) : t.isOrdinary = true := by
  cases ht <;> rfl

theorem of_base (hs : s.IsDiscrete) (hbase : t.base? = s.base?) : t.IsDiscrete := by
  have hkeyword : ∀ k : Keyword, some k = s.base? -> (Ty.keyword k).IsDiscrete := by
    rintro k hk
    cases hs <;> cases hk <;> constructor
  cases t with
  | keyword k => exact hkeyword k hbase
  | literal v =>
      have hbase' := hkeyword v.base hbase
      cases v with
      | int n => exact .number n
      | bool b => exact .truth b
      | _ => cases hbase'
  | range r => exact .range r
  | _ => cases hs <;> cases hbase

end Ty.IsDiscrete

namespace Subtype

/-!
# Other simple types
-/

theorem categories_of_isDiscrete (hs : s.IsDiscrete) (hbase : t.base? ≠ s.base?) :
    ∀ c ∈ s.categories, c ∉ t.categories := by
  have hkeyword : ∀ k : Keyword, some k ≠ s.base? -> ∀ c ∈ s.categories, c ∉ k.categories := by
    intro k hk
    cases hs <;> cases k <;>
      first | exact absurd rfl hk | simp [Ty.categories, Literal.base, Keyword.categories]
  cases t with
  | keyword k => exact hkeyword k hbase
  | literal v => exact hkeyword v.base hbase
  | range r => exact hkeyword .int hbase
  | accessory a =>
      cases a <;> cases hs <;> simp [Ty.categories, Literal.base, Keyword.categories]
  | _ => cases hs <;> simp [Ty.categories, Literal.base, Keyword.categories]

/-- A type of integers or booleans shares no value with simple types of another base. -/
theorem exact_of_isDiscrete (hs : s.IsDiscrete) (ht : t.isOrdinary = true)
    (hsimple : t.isSimple = true) (hbase : t.base? ≠ s.base?) :
    exact h s t = .no ∧ exact h t s = .no := by
  have hne : s ≠ t := by
    rintro rfl
    exact hbase rfl
  have hdiffer := categories_of_isDiscrete hs hbase
  have hst : (inSimple h s t).value (exact h) = .no :=
    value_inSimple_of_categories hs.isOrdinary hs.isSimple ht hdiffer
  have hts : (inSimple h t s).value (exact h) = .no :=
    value_inSimple_of_categories ht hsimple hs.isOrdinary fun c hc hc' => hdiffer c hc' hc
  exact ⟨exact_no_of_inSimple hs.isOrdinary ht hs.isSimple hsimple hne hst hts,
    exact_no_of_inSimple ht hs.isOrdinary hsimple hs.isSimple hne.symm hts hst⟩

/-!
# Types of one base
-/

theorem contained_base (hs : s.IsDiscrete) {k : Keyword} (hbase : s.base? = some k) :
    Contained h s (.keyword k) := by
  have hfits : ∀ {t : Ty}, t.isOrdinary = true -> Fits h (Contained h) s t -> Contained h s t :=
    fun ht hfits => (Certain.fits hs.isOrdinary ht hfits).contained
  cases hs with
  | number n => cases hbase; exact hfits rfl (.literal_base (.int n))
  | truth b => cases hbase; exact hfits rfl (.literal_base (.bool b))
  | range r => cases hbase; exact hfits rfl (.range_int r)
  | _ => cases hbase; exact .refl _

/-- An integer either lies in an interval or shares no value with it. -/
theorem number_in_range (n : Int) (r : IntRange) :
    Contained h (.literal (.int n)) (.range r) ∨ (exact h (.literal (.int n)) (.range r) = .no ∧
      exact h (.range r) (.literal (.int n)) = .no) := by
  by_cases hn : r.contains n = true
  · exact Or.inl (Certain.fits rfl rfl (.literal_range hn)).contained
  · rw [Bool.not_eq_true] at hn
    have hrange : inRange (.literal (.int n)) r = .no := by simp [inRange, hn, Tristate.ofBool]
    have hliteral : inLiteral (.range r) (.int n) = .no := by simp [inLiteral, hn]
    exact Or.inr ⟨exact_no_of_inSimple rfl rfl rfl rfl (by simp) hrange hliteral,
      exact_no_of_inSimple rfl rfl rfl rfl (by simp) hliteral hrange⟩

/-- Intervals with an integer in common are not found to share no value. -/
theorem exact_ranges_ne_no {n : Int} {r q : IntRange} (hr : r.contains n = true)
    (hq : q.contains n = true) : exact h (.range r) (.range q) ≠ .no := by
  have hoverlaps : r.overlaps q = true := by
    by_contra hno
    rw [Bool.not_eq_true] at hno
    exact absurd (hq.symm.trans (IntRange.contains_of_overlaps hr hno)) (by decide)
  by_cases heq : Ty.range r = .range q
  · rw [heq, exact_self]
    decide
  · rw [exact_of_ne heq, check_simple rfl rfl rfl rfl]
    show (if r.within q = true then Tristate.yes else
      if r.overlaps q = true then .maybe else .no) ≠ .no
    rw [hoverlaps]
    split <;> decide

theorem literal_in_literal (v w : Literal) : Contained h (.literal v) (.literal w) ∨
    (exact h (.literal v) (.literal w) = .no ∧ exact h (.literal w) (.literal v) = .no) := by
  by_cases heq : v = w
  · exact Or.inl (heq ▸ .refl _)
  · have hne : Ty.literal v ≠ .literal w := by simpa using heq
    exact Or.inr ⟨exact_no_of_inSimple rfl rfl rfl rfl hne rfl rfl,
      exact_no_of_inSimple rfl rfl rfl rfl hne.symm rfl rfl⟩

/-- Two types of integers or booleans are two intervals, or one contains the other, or they
share no value. -/
theorem related_of_base (hs : s.IsDiscrete) (hbase : t.base? = s.base?) :
    (s.range? ≠ none ∧ t.range? ≠ none) ∨ Contained h s t ∨ Contained h t s ∨
      (exact h s t = .no ∧ exact h t s = .no) := by
  have ht := hs.of_base hbase
  cases hs with
  | int => exact Or.inr (Or.inr (Or.inl (contained_base ht hbase)))
  | bool => exact Or.inr (Or.inr (Or.inl (contained_base ht hbase)))
  | number n =>
      cases ht with
      | int => exact Or.inr (Or.inl (contained_base (.number n) rfl))
      | number m => exact Or.inr ((literal_in_literal _ _).imp_right Or.inr)
      | range r => exact Or.inr ((number_in_range n r).imp_right Or.inr)
      | _ => cases hbase
  | range r =>
      cases ht with
      | int => exact Or.inr (Or.inl (contained_base (.range r) rfl))
      | number n => exact Or.inr (Or.inr ((number_in_range n r).imp_right And.symm))
      | range q => exact Or.inl (by simp [Ty.range?])
      | _ => cases hbase
  | truth b =>
      cases ht with
      | bool => exact Or.inr (Or.inl (contained_base (.truth b) rfl))
      | truth b' => exact Or.inr ((literal_in_literal _ _).imp_right Or.inr)
      | _ => cases hbase

/-- A type of integers or booleans is no member of an intersection. -/
theorem not_independent_of_isDiscrete (hs : s.IsDiscrete) (ht : t.isOrdinary = true)
    (hsimple : t.isSimple = true) : ¬ Independent (Session.exactly h) s t := by
  rintro ⟨hranges, r, r', hr, hr', hne, hne', hno⟩
  by_cases hbase : t.base? = s.base?
  · rcases related_of_base (h := h) hs hbase with hboth | hst | hts | ⟨hst, hts⟩
    · exact hranges.elim hboth.1 hboth.2
    · exact hne (hr.trans hst)
    · exact hne' (hr'.trans hts)
    · exact hno ⟨hr.trans hst, hr'.trans hts⟩
  · rcases exact_of_isDiscrete (h := h) hs ht hsimple hbase with ⟨hst, hts⟩
    exact hno ⟨hr.trans hst, hr'.trans hts⟩

end Subtype

/-!
# Inside an interval
-/

namespace IntRange

variable {r s q : IntRange} {n : Int}

theorem contains_meet (hr : r.contains n = true) (hs : s.contains n = true) :
    (r.meet s).contains n = true := by
  rcases r with ⟨lo, hi⟩
  rcases s with ⟨lo', hi'⟩
  rw [contains_iff] at hr hs ⊢
  cases lo <;> cases hi <;> cases lo' <;> cases hi' <;> simp [meet] at hr hs ⊢ <;> omega

theorem within_meet (hr : q.within r = true) (hs : q.within s = true) :
    q.within (r.meet s) = true := by
  rcases q with ⟨a, b⟩
  rcases r with ⟨lo, hi⟩
  rcases s with ⟨lo', hi'⟩
  rw [within_iff] at hr hs ⊢
  cases a <;> cases b <;> cases lo <;> cases hi <;> cases lo' <;> cases hi' <;>
    simp [meet] at hr hs ⊢ <;> omega

theorem isEmpty_of_contains (hn : r.contains n = true) : r.isEmpty = false := by
  rw [contains_iff] at hn
  rw [isEmpty_eq_false_iff]
  exact fun a ha b hb => Int.le_trans (hn.1 a ha) (hn.2 b hb)

theorem isEmpty_of_within (hq : q.isEmpty = false) (hwithin : q.within r = true) :
    r.isEmpty = false := by
  rw [isEmpty_eq_false_iff] at hq ⊢
  rw [within_iff] at hwithin
  intro a ha b hb
  obtain ⟨a', ha', haa'⟩ := hwithin.1 a ha
  obtain ⟨b', hb', hbb'⟩ := hwithin.2 b hb
  exact Int.le_trans haa' (Int.le_trans (hq a' ha' b' hb') hbb')

end IntRange

namespace Ty

variable {r s : IntRange}

/-- A type of one or more integers of an interval. -/
inductive IsWithin (r : IntRange) : Ty -> Prop where
  | number {n : Int} : r.contains n = true -> IsWithin r (.literal (.int n))
  | range {q : IntRange} : q.within r = true -> q.isEmpty = false -> q.lo ≠ q.hi ->
      IsWithin r (.range q)

namespace IsWithin

theorem isEmpty (ht : t.IsWithin r) : r.isEmpty = false := by
  cases ht with
  | number hn => exact IntRange.isEmpty_of_contains hn
  | range hwithin hq hne => exact IntRange.isEmpty_of_within hq hwithin

theorem meet (hr : t.IsWithin r) (hs : t.IsWithin s) : t.IsWithin (r.meet s) := by
  cases hr with
  | number hn =>
      cases hs with
      | number hn' => exact .number (IntRange.contains_meet hn hn')
  | range hwithin hq hne =>
      cases hs with
      | range hwithin' _ _ => exact .range (IntRange.within_meet hwithin hwithin') hq hne

/-- A type of integers of an interval is below what is built of the interval. -/
theorem contained (ht : t.IsWithin r) (hu : (u = .int ∧ r.lo = none ∧ r.hi = none) ∨
    (∃ n, u = .literal (.int n) ∧ r.lo = some n ∧ r.hi = some n) ∨ (u = .range r ∧ r.lo ≠ r.hi)) :
    Contained h t u := by
  rcases hu with ⟨rfl, -⟩ | ⟨n, rfl, hlo, hhi⟩ | ⟨rfl, -⟩
  · cases ht with
    | number hn => exact Subtype.contained_base (.number _) rfl
    | range hwithin hq hne => exact Subtype.contained_base (.range _) rfl
  · cases ht with
    | number hn =>
        rw [IntRange.contains_iff, hlo, hhi] at hn
        rw [Int.le_antisymm (hn.2 n rfl) (hn.1 n rfl)]
        exact .refl _
    | @range q hwithin hq hne =>
        -- an interval with one integer only is no interval type
        exfalso
        rw [IntRange.within_iff, hlo, hhi] at hwithin
        obtain ⟨a, ha, hna⟩ := hwithin.1 n rfl
        obtain ⟨b, hb, hbn⟩ := hwithin.2 n rfl
        have hab := IntRange.isEmpty_eq_false_iff.mp hq a ha b hb
        rw [Option.mem_def] at ha hb
        exact hne (by rw [ha, hb, Int.le_antisymm hab (Int.le_trans hbn hna)])
  · cases ht with
    | number hn => exact (Certain.fits rfl rfl (.literal_range hn)).contained
    | range hwithin hq hne => exact (Certain.fits rfl rfl (.range_range hwithin)).contained

end IsWithin
end Ty
end GradualTypes
