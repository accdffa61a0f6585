import GradualTypes.Proofs.Sums

/-!
# Types that are covered by others

An alternative of a union that was not given is a type of integers or of booleans, and each
of its values lies in one of the given types inside of it.  Conversely a type of integers
or of booleans lies in a union if all its values do, as long as none of them is there as a
literal only: intervals that touch are joined, but a literal is not joined with an
interval.
-/

namespace GradualTypes

namespace IntRange

variable {l : IntRange -> Prop} {q r : IntRange} {n : Int}

theorem exists_contains (hq : q.isEmpty = false) : ∃ n, q.contains n = true := by
  rw [isEmpty_eq_false_iff] at hq
  simp only [contains_iff]
  rcases q with ⟨lo | lo, hi | hi⟩
  · exact ⟨0, by simp⟩
  · exact ⟨hi, by simp⟩
  · exact ⟨lo, by simp⟩
  · exact ⟨lo, by simpa using hq⟩

/-- An interval that has an integer is known by its integers. -/
theorem within_of_contains (hn : q.contains n = true)
    (hall : ∀ m, q.contains m = true -> r.contains m = true) : q.within r = true := by
  simp only [contains_iff] at hn hall
  rw [within_iff]
  constructor
  · intro b hb
    cases hlo : q.lo with
    | none =>
        have hle := (hall (min n (b - 1)) ⟨by simp [hlo], fun hi hhi => ?_⟩).1 b hb
        · omega
        · have := hn.2 hi hhi
          omega
    | some a =>
        have han := hn.1 a hlo
        have hmem := hall a ⟨fun lo heq => ?_, fun hi hhi => Int.le_trans han (hn.2 hi hhi)⟩
        · exact ⟨a, rfl, hmem.1 b hb⟩
        · rw [hlo] at heq
          exact Int.le_of_eq (Option.some.inj heq).symm
  · intro b hb
    cases hhi : q.hi with
    | none =>
        have hle := (hall (max n (b + 1)) ⟨fun lo hlo => ?_, by simp [hhi]⟩).2 b hb
        · omega
        · have := hn.1 lo hlo
          omega
    | some a =>
        have han := hn.2 a hhi
        have hmem := hall a ⟨fun lo hlo => Int.le_trans (hn.1 lo hlo) han, fun hi heq => ?_⟩
        · exact ⟨a, rfl, hmem.2 b hb⟩
        · rw [hhi] at heq
          exact Int.le_of_eq (Option.some.inj heq)

/-- An interval holds all integers of another one if it holds one of them and, with each
integer, its neighbours in the other one. -/
theorem within_of_steps (hn : q.contains n = true) (hstart : r.contains n = true)
    (hstep : ∀ m m', m ≤ m' + 1 -> m' ≤ m + 1 -> r.contains m = true -> q.contains m' = true ->
      r.contains m' = true) : q.within r = true := by
  have hbetween : ∀ m m', q.contains m = true -> (n ≤ m' ∧ m' ≤ m ∨ m ≤ m' ∧ m' ≤ n) ->
      q.contains m' = true := by
    intro m m' hm hm'
    rw [contains_iff] at hn hm ⊢
    refine ⟨fun lo hlo => ?_, fun hi hhi => ?_⟩
    · have := hn.1 lo hlo
      have := hm.1 lo hlo
      omega
    · have := hn.2 hi hhi
      have := hm.2 hi hhi
      omega
  have hdistance : ∀ k : Nat, ∀ m, (m = n + k ∨ m = n - k) -> q.contains m = true ->
      r.contains m = true := by
    intro k
    induction k with
    | zero =>
        intro m hm _
        have heq : m = n := by omega
        rwa [heq]
    | succ k ih =>
        intro m hm hq
        rcases hm with hm | hm
        · have hprevious := ih (m - 1) (by omega) (hbetween m (m - 1) hq (by omega))
          exact hstep (m - 1) m (by omega) (by omega) hprevious hq
        · have hprevious := ih (m + 1) (by omega) (hbetween m (m + 1) hq (by omega))
          exact hstep (m + 1) m (by omega) (by omega) hprevious hq
  refine within_of_contains hn fun m hm => ?_
  exact hdistance (m - n).natAbs m (by omega) hm

/-- If the integers of an interval lie in intervals that do not touch one another, the whole
interval lies in one of these. -/
theorem exists_within (hq : q.isEmpty = false)
    (hapart : ∀ r s, l r -> l s -> r ≠ s -> r.touches s = false)
    (hcover : ∀ n, q.contains n = true -> ∃ r, l r ∧ r.contains n = true) :
    ∃ r, l r ∧ q.within r = true := by
  obtain ⟨n, hn⟩ := exists_contains hq
  obtain ⟨r, hr, hrn⟩ := hcover n hn
  refine ⟨r, hr, within_of_steps hn hrn fun m m' hle hle' hm hm' => ?_⟩
  obtain ⟨s, hs, hsm⟩ := hcover m' hm'
  by_contra hnot
  have hne : r ≠ s := by
    rintro rfl
    exact hnot hsm
  have htouches := hapart r s hr hs hne
  rw [Bool.eq_false_iff, ne_eq, touches_iff] at htouches
  rw [contains_iff] at hm hsm
  refine htouches ⟨fun a ha b hb => ?_, fun a ha b hb => ?_⟩
  · have := hm.1 a ha
    have := hsm.2 b hb
    omega
  · have := hsm.1 a ha
    have := hm.2 b hb
    omega

end IntRange

open Inquiry
open GradualTypes.Intersection (Encloses)
open GradualTypes.Subtype (Certain Contained contained_iff exact)

variable {h : Hierarchy} {options : Options} {P : Ty -> Prop} {p s t u : Ty} {v : Literal}

/-!
# Alternatives above a literal
-/

/-- Above an integer or a boolean there are intervals and keywords, apart from the literal
itself. -/
theorem Ty.IsAlternative.cases_of_literal (ht : t.IsAlternative h) (hv : (Ty.literal v).IsDiscrete)
    (hbelow : Contained h (.literal v) t) : t = .mixed ∨ t = .literal v ∨ t = .keyword v.base ∨
      ∃ n r, v = .int n ∧ t = .range r ∧ r.contains n = true := by
  by_cases hmixed : t = .mixed
  · exact Or.inl hmixed
  have hnever : t ≠ .never := by
    rintro rfl
    cases Subtype.eq_never_of_contained hbelow
  refine Or.inr ?_
  rcases Ty.union_or_inter_or_simple t with ⟨flavor, members, rfl⟩ | ⟨members, rfl⟩ | hsimple
  · cases ht.flat
  · -- all members would be types of integers or booleans, and they are independent
    exfalso
    have hall : ∀ m ∈ members, Contained h (.literal v) m := by
      rcases contained_iff.mp hbelow with heq | hcertain
      · cases heq
      · exact hcertain.all_of_inter_target rfl rfl
    have hdiscrete : ∀ m ∈ members, m.IsDiscrete := by
      intro m hm
      have hm' : Encloses h m (.literal v) :=
        ⟨ht.isOrdinary_member hm, (ht.member hm).2, hall m hm⟩
      rcases hm'.cases_of_literal hv with rfl | rfl | ⟨n, r, rfl, rfl, hn⟩
      · exact hv
      · exact hv.of_base rfl
      · exact .range r
    have htwo := ht.proper.formed.here.two
    obtain ⟨m, hm⟩ := List.exists_mem_of_length_pos (show 0 < members.length by omega)
    obtain ⟨m', hm', hindependent⟩ := ht.proper.formed.here.exists_independent hm
    exact Subtype.not_independent_of_isDiscrete (hdiscrete m hm) (ht.isOrdinary_member hm')
      (ht.member hm').2 hindependent
  · have hordinary := ht.proper.isOrdinary hmixed hnever
    exact Encloses.cases_of_literal hv ⟨hordinary, hsimple, hbelow⟩

namespace Union

/-!
# Types that are below a union by their values
-/

/-- The intervals and `int` are below a union if their integers are, and not only as
literals. -/
theorem toTy_contained (hfinal : h.LeavesClosureFinal) (ht : t.IsFactor h) {q : IntRange}
    (hq : q.isEmpty = false) (hcover : ∀ n, q.contains n = true -> ∃ p, p.IsAlternative h ∧
      p ≠ .literal (.int n) ∧ Contained h (.literal (.int n)) p ∧ Contained h p t) :
    Contained h q.toTy t := by
  have hself := Intersection.isSimple_toTy q
  have habove : ∀ a ∈ membersOf t, Contained h q.toTy a -> Contained h q.toTy t := fun a ha =>
    Intersection.contained_of_alternative hself.2 (Ty.unionMembers?_of_isSimple hself.1) ha
  have hfound : ∀ n, q.contains n = true -> ∃ a ∈ membersOf t, a = .mixed ∨ a = .int ∨
      ∃ r, a = .range r ∧ r.contains n = true := by
    intro n hn
    obtain ⟨p, hp, hne, hnp, hpt⟩ := hcover n hn
    obtain ⟨a, ha, hpa⟩ := (Subtype.contained_iff_alternative hp.proper hp.flat ht.proper).mp hpt
    have hn' := Ty.isAlternative_literal (h := h) (.int n)
    have hna := hnp.trans hfinal hn'.proper.formed.hasDistinctKeys hpa
    refine ⟨a, ha, ?_⟩
    rcases (ht.isAlternative ha).cases_of_literal (.number n) hna with
      heq | rfl | heq | ⟨m, r, hm, heq, hr⟩
    · exact Or.inl heq
    · exact absurd (Subtype.eq_of_scalar hfinal rfl hn'.proper hp.proper hp.flat hnp hpa).symm hne
    · exact Or.inr (Or.inl heq)
    · cases hm
      exact Or.inr (Or.inr ⟨r, heq, hr⟩)
  by_cases hwide : ∃ a ∈ membersOf t, a = .mixed ∨ a = .int
  · obtain ⟨a, ha, rfl | rfl⟩ := hwide
    · exact habove _ ha (Certain.mixed (by unfold IntRange.toTy; split <;> rfl)).contained
    · exact habove _ ha (Intersection.toTy_below_int q)
  · have hranges : ∀ n, q.contains n = true ->
        ∃ r, .range r ∈ membersOf t ∧ r.contains n = true := by
      intro n hn
      obtain ⟨a, ha, heq | heq | ⟨r, rfl, hr⟩⟩ := hfound n hn
      · exact absurd ⟨a, ha, Or.inl heq⟩ hwide
      · exact absurd ⟨a, ha, Or.inr heq⟩ hwide
      · exact ⟨r, ha, hr⟩
    have hapart : ∀ r s, Ty.range r ∈ membersOf t -> Ty.range s ∈ membersOf t -> r ≠ s ->
        r.touches s = false := by
      intro r s hr hs hne
      cases t with
      | union flavor members => exact ht.proper.formed.here.1.ranges r s hr hs hne
      | _ =>
          have heq := (List.mem_singleton.mp hr).trans (List.mem_singleton.mp hs).symm
          exact absurd (Ty.range.inj heq) hne
    obtain ⟨r, hr, hqr⟩ := IntRange.exists_within hq hapart hranges
    exact habove _ hr (Intersection.toTy_below_range (ht.isAlternative hr).proper.formed.here.2 hqr)

/-- A type of integers or booleans is below a union if its values are, and its integers not
only as literals. -/
theorem contained_of_literals (hfinal : h.LeavesClosureFinal) (hp : p.IsAlternative h)
    (hdiscrete : p.IsDiscrete) (ht : t.IsFactor h)
    (hall : ∀ v : Literal, (Ty.literal v).IsDiscrete -> Contained h (.literal v) p ->
      Contained h (.literal v) t)
    (hwide : ∀ n, p ≠ .literal (.int n) -> Contained h (.literal (.int n)) p ->
      ∃ q, q.IsAlternative h ∧ q ≠ .literal (.int n) ∧ Contained h (.literal (.int n)) q ∧
        Contained h q t) : Contained h p t := by
  cases hdiscrete with
  | number n => exact hall _ (.number n) (.refl _)
  | truth b => exact hall _ (.truth b) (.refl _)
  | bool =>
      have hbool : ∀ b, Contained h (.literal (.bool b)) t := fun b =>
        hall _ (.truth b) (Subtype.contained_base (.truth b) rfl)
      exact (isKept_below_proper ht.proper ht.distributed).bools (hbool true) (hbool false)
  | int =>
      have hcover := toTy_contained (q := ⟨none, none⟩) hfinal ht rfl fun n _ =>
        hwide n (by simp) (Subtype.contained_base (.number n) rfl)
      exact hcover
  | range r =>
      rcases hp.proper.formed.here with ⟨hnonempty, hne⟩
      rw [← IntRange.toTy_eq_range hne]
      refine toTy_contained hfinal ht hnonempty fun n hn => hwide n (by simp) ?_
      exact (Certain.fits rfl rfl (.literal_range hn)).contained

/-!
# Alternatives that were not given
-/

/-- Each integer or boolean of the type lies in one of the given types inside of it. -/
def IsCovered (h : Hierarchy) (P : Ty -> Prop) (t : Ty) : Prop :=
  ∀ v : Literal, (Ty.literal v).IsDiscrete -> Contained h (.literal v) t ->
    ∃ x, P x ∧ Contained h (.literal v) x ∧ Contained h x t

/-- One of the given types, or a type that is covered by them. -/
def IsMade (h : Hierarchy) (P : Ty -> Prop) (t : Ty) : Prop :=
  (P t ∨ t = .never ∨ t.IsDiscrete) ∧ IsCovered h P t

theorem isMade_of_given (ht : P t) : IsMade h P t :=
  ⟨Or.inl ht, fun _ _ hbelow => ⟨t, ht, hbelow, .refl t⟩⟩

theorem IsCovered.above (hfinal : h.LeavesClosureFinal) (hP : ∀ p, P p -> p.IsProper h)
    (hs : IsCovered h P s) (hst : Contained h s t) (hv : (Ty.literal v).IsDiscrete)
    (hbelow : Contained h (.literal v) s) :
    ∃ x, P x ∧ Contained h (.literal v) x ∧ Contained h x t := by
  obtain ⟨x, hx, hvx, hxs⟩ := hs v hv hbelow
  exact ⟨x, hx, hvx, hxs.trans hfinal (hP x hx).formed.hasDistinctKeys hst⟩

theorem isDiscrete_toTy (r : IntRange) : r.toTy.IsDiscrete := by
  unfold IntRange.toTy
  split
  · exact .int
  · exact .range r

theorem number_below_toTy {r : IntRange} {n : Int} :
    Contained h (.literal (.int n)) r.toTy ↔ r.contains n = true := by
  unfold IntRange.toTy
  split
  · rename_i hopen
    rw [IntRange.contains_iff, hopen.1, hopen.2]
    exact ⟨fun _ => by simp, fun _ => Subtype.contained_base (.number n) rfl⟩
  · constructor
    · intro hbelow
      rcases contained_iff.mp hbelow with heq | hcertain
      · cases heq
      · rcases hcertain.cases_of_simple_target rfl rfl rfl rfl with ⟨members, heq, -⟩ | hfits
        · cases heq
        · cases hfits with
          | literal_range hn => exact hn
    · exact fun hn => (Certain.fits rfl rfl (.literal_range hn)).contained

theorem toTy_mono {r s : IntRange} (hs : s.IsWide) (hwithin : r.within s = true) :
    Contained h r.toTy s.toTy := by
  by_cases heq : s.lo = s.hi
  · cases hlo : s.lo with
    | none =>
        have hint : s.toTy = .int := if_pos ⟨hlo, heq ▸ hlo⟩
        rw [hint]
        exact Intersection.toTy_below_int r
    | some n => exact absurd ⟨hlo, heq ▸ hlo⟩ (hs.notSingle n)
  · rw [IntRange.toTy_eq_range heq]
    exact Intersection.toTy_below_range heq hwithin

/-- To be made of the given types is kept when a union is made. -/
theorem isKept_isMade (hfinal : h.LeavesClosureFinal) (hP : ∀ p, P p -> p.IsProper h) :
    IsKept (IsMade h P) where
  never := by
    refine ⟨Or.inr (Or.inl rfl), fun v _ hbelow => ?_⟩
    cases Subtype.eq_never_of_contained hbelow
  bools := by
    intro htrue hfalse
    refine ⟨Or.inr (Or.inr .bool), fun v hv hbelow => ?_⟩
    have hbase := ((Ty.isAlternative_literal v).isDiscrete (by simp) .bool hbelow).2
    cases v with
    | bool b =>
        cases b with
        | true => exact htrue.2.above hfinal hP hbelow hv (.refl _)
        | false => exact hfalse.2.above hfinal hP hbelow hv (.refl _)
    | _ => cases hbase
  hull := by
    intro r s hr hs htouches hr' hs'
    refine ⟨Or.inr (Or.inr (isDiscrete_toTy _)), fun v hv hbelow => ?_⟩
    have hbase := ((Ty.isAlternative_literal v).isDiscrete (by simp) (isDiscrete_toTy _) hbelow).2
    have hint : (r.hull s).toTy.base? = some .int := by
      unfold IntRange.toTy
      split <;> rfl
    rw [hint] at hbase
    cases v with
    | int n =>
        rcases IntRange.contains_of_hull htouches (number_below_toTy.mp hbelow) with hn | hn
        · exact hr'.2.above hfinal hP (toTy_mono (hr.hull hs) (IntRange.within_hull_left r s)) hv
            (number_below_toTy.mpr hn)
        · exact hs'.2.above hfinal hP (toTy_mono (hr.hull hs) (IntRange.within_hull_right r s)) hv
            (number_below_toTy.mpr hn)
    | _ => cases hbase

end Union
end GradualTypes
