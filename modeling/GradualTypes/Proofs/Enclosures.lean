import GradualTypes.Proofs.DiscreteTypes
import GradualTypes.Proofs.NestedUnions

/-!
# Reduction above a type

The alternatives of a proper type are flat, and so are the members of those that are
intersections.  When such members are reduced, a type that was below all of them stays below
whatever takes their place, unless two of them are found to share no value.  That may happen
although the type has values: the empty shape is below any two array types.
-/

namespace GradualTypes

open Inquiry
open GradualTypes.Intersection (Independent IsDistributable)
open GradualTypes.Subtype (Certain Contained Fits contained_iff exact)
open GradualTypes.Ty (Formed)

variable {h : Hierarchy} {options : Options} {members : List Ty} {c s t u x z : Ty}

/-!
# Alternatives
-/

/-- A type that may be an alternative of a proper type, and has no unions among its
members. -/
structure Ty.IsAlternative (h : Hierarchy) (t : Ty) : Prop where
  proper : t.IsProper h
  flat : t.unionMembers? = none
  distributed : t.isDistributed = true

theorem Ty.isAlternative_keyword (k : Keyword) : (Ty.keyword k).IsAlternative h :=
  ⟨⟨formed_keyword k, isComplete_keyword k, by simp⟩, rfl, rfl⟩

theorem Ty.isAlternative_literal (v : Literal) : (Ty.literal v).IsAlternative h :=
  ⟨⟨formed_literal v, isComplete_literal v, by simp⟩, rfl, rfl⟩

theorem Ty.IsProper.isAlternative (ht : t.IsProper h) (hdistributed : Union.IsDistributed t)
    (hu : u ∈ Union.membersOf t) : u.IsAlternative h where
  proper := (ht.alternative hu).1
  flat := (ht.alternative hu).2
  distributed := hdistributed u hu

namespace Ty.IsAlternative

/-- What an alternative brings into an intersection. -/
theorem member (ht : t.IsAlternative h) (hs : s ∈ Intersection.membersOf t) :
    s.IsProper h ∧ s.isSimple = true := by
  refine ⟨?_,
    Intersection.isSimple_of_mem_membersOf ht.proper.formed.here ht.flat ht.distributed hs⟩
  cases t with
  | inter others =>
      have hmember := ht.proper.formed.here.isMember s hs
      exact ⟨ht.proper.formed.inside hs, ht.proper.complete.inside hs, hmember.1⟩
  | _ =>
      rcases List.mem_singleton.mp hs with rfl
      exact ht.proper

theorem isOrdinary_member (ht : (Ty.inter members).IsAlternative h) (hs : s ∈ members) :
    s.isOrdinary = true := by
  have hmember := ht.proper.formed.here.isMember s hs
  exact (ht.member hs).1.isOrdinary hmember.2.1 hmember.2.2.1

/-- An alternative is below another one if it is below all that this one brings into an
intersection. -/
theorem contained_iff_members (hfinal : h.LeavesClosureFinal) (hz : z.IsAlternative h)
    (hx : x.IsAlternative h) :
    Contained h z x ↔ ∀ m ∈ Intersection.membersOf x, Contained h z m := by
  cases x with
  | inter others =>
      constructor
      · intro hzx m hm
        have hm' := hx.member hm
        have hbelow : Contained h (.inter others) m :=
          (Certain.inter_left (hx.isOrdinary_member hm) hm'.2 hm (.refl m)).contained
        exact hzx.trans hfinal hz.proper.formed.hasDistinctKeys hbelow
      · exact Intersection.contained_inter hfinal hz.proper.formed hz.proper.complete
          hx.proper.formed hx.proper.complete
  | _ => exact List.forall_mem_singleton.symm

/-!
# Below types of integers and booleans
-/

theorem isDiscrete_of_fits (ht : t.IsDiscrete) (hzt : Fits h (Contained h) z t) :
    z.IsDiscrete ∧ z.base? = t.base? := by
  cases hzt with
  | same k => exact ⟨ht, rfl⟩
  | literal_base v =>
      cases v with
      | int n => exact ⟨.number n, rfl⟩
      | bool b => exact ⟨.truth b, rfl⟩
      | _ => cases ht
  | range_int r => exact ⟨.range r, rfl⟩
  | literal_range hn => exact ⟨.number _, rfl⟩
  | range_range hwithin => exact ⟨.range _, rfl⟩
  | _ => cases ht

/-- An alternative below a type of integers or booleans is such a type. -/
theorem isDiscrete (hz : z.IsAlternative h) (hne : z ≠ .never) (ht : t.IsDiscrete)
    (hzt : Contained h z t) : z.IsDiscrete ∧ z.base? = t.base? := by
  rcases contained_iff.mp hzt with rfl | hcertain
  · exact ⟨ht, rfl⟩
  have hmixed : t ≠ .mixed := by
    rintro rfl
    cases ht
  rcases hcertain.cases_of_simple_target (hcertain.isOrdinary_source hne hmixed) hz.flat
    ht.isOrdinary ht.isSimple with ⟨others, rfl, m, hm, hmt⟩ | hfits
  · -- the member is such a type, so it cannot be independent of the other members
    exfalso
    have hdiscrete : m.IsDiscrete := by
      rcases contained_iff.mp hmt with rfl | hcertain
      · exact ht
      · rcases hcertain.cases_of_simple_target (hz.isOrdinary_member hm)
          (Ty.unionMembers?_of_isSimple (hz.member hm).2) ht.isOrdinary ht.isSimple with
          ⟨others, rfl, -⟩ | hfits
        · cases (hz.member hm).2
        · exact (isDiscrete_of_fits ht hfits).1
    obtain ⟨n, hn, hindependent⟩ := hz.proper.formed.here.exists_independent hm
    exact Subtype.not_independent_of_isDiscrete hdiscrete (hz.isOrdinary_member hn)
      (hz.member hn).2 hindependent
  · exact isDiscrete_of_fits ht hfits

/-- Below an interval there are its integers and the intervals inside it. -/
theorem isWithin {r : IntRange} (hz : z.IsAlternative h) (hne : z ≠ .never)
    (hzr : Contained h z (.range r)) : z.IsWithin r := by
  have hdiscrete := (hz.isDiscrete hne (.range r) hzr).1
  have hformed := hz.proper.formed.here
  rcases contained_iff.mp hzr with rfl | hcertain
  · exact .range (IntRange.within_refl r) hformed.1 hformed.2
  · rcases hcertain.cases_of_simple_target hdiscrete.isOrdinary hz.flat rfl rfl with
      ⟨others, rfl, -⟩ | hfits
    · cases hdiscrete
    · cases hfits with
      | literal_range hn => exact .number hn
      | range_range hwithin => exact .range hwithin hformed.1 hformed.2

end Ty.IsAlternative

namespace Intersection

/-!
# The steps of a reduction
-/

/-- A type that is compared with others in a reduction, and contains a given one. -/
structure Encloses (h : Hierarchy) (t z : Ty) : Prop where
  ordinary : t.isOrdinary = true
  simple : t.isSimple = true
  above : Contained h z t

/-- Two types that contain the given one are found to share no value. -/
def IsParted (h : Hierarchy) (z : Ty) : Prop :=
  ∃ s t, Encloses h s z ∧ Encloses h t z ∧ exact h s t = .no ∧ exact h t s = .no

/-- A property of types that contain the given one.  With two intervals, what takes their place
has it as well. -/
structure IsEnclosure (h : Hierarchy) (z : Ty) (E : Ty -> Prop) : Prop where
  encloses : ∀ t, E t -> Encloses h t z
  narrows : ∀ r s u, E (.range r) -> E (.range s) -> Encloses h u z -> E u

/-- Two types with a property are found to share no value. -/
def IsPartedAmong (h : Hierarchy) (E : Ty -> Prop) : Prop :=
  ∃ s t, E s ∧ E t ∧ exact h s t = .no ∧ exact h t s = .no

theorem isEnclosure_encloses (h : Hierarchy) (z : Ty) : IsEnclosure h z (Encloses h · z) where
  encloses := fun _ => id
  narrows := fun _ _ _ _ _ => id

/-- Above a literal of an integer or a boolean there are its base and intervals. -/
theorem Encloses.cases_of_literal {v : Literal} (hv : (Ty.literal v).IsDiscrete)
    (ht : Encloses h t (.literal v)) : t = .literal v ∨ t = .keyword v.base ∨
      ∃ n r, v = .int n ∧ t = .range r ∧ r.contains n = true := by
  rcases contained_iff.mp ht.above with heq | hcertain
  · exact Or.inl heq.symm
  · rcases hcertain.cases_of_simple_target rfl rfl ht.ordinary ht.simple with
      ⟨others, heq, -⟩ | hfits
    · cases heq
    · cases hfits with
      | literal_base v => exact Or.inr (Or.inl rfl)
      | literal_range hn => exact Or.inr (Or.inr ⟨_, _, rfl, rfl, hn⟩)
      | text_nonEmpty hs => cases hv

/-- Types with an integer or a boolean in common are not found to share no value. -/
theorem not_isParted_literal {v : Literal} (hv : (Ty.literal v).IsDiscrete) :
    ¬ IsParted h (.literal v) := by
  rintro ⟨s, t, hs, ht, hst, hts⟩
  have hbelow : ∀ {a b : Ty}, exact h a b = .no -> ¬ Contained h a b := by
    intro a b hno hyes
    cases hno.symm.trans hyes
  have hbase : ∀ {u : Ty}, Encloses h u (.literal v) -> Contained h u (.keyword v.base) := by
    intro u hu
    rcases hu.cases_of_literal hv with rfl | rfl | ⟨n, r, rfl, rfl, hn⟩
    · exact Subtype.contained_base hv rfl
    · exact .refl _
    · exact Subtype.contained_base (.range r) rfl
  rcases hs.cases_of_literal hv with rfl | rfl | ⟨n, r, rfl, rfl, hn⟩
  · exact hbelow hst ht.above
  · exact hbelow hts (hbase ht)
  · rcases ht.cases_of_literal hv with rfl | rfl | ⟨n', q, heq, rfl, hn'⟩
    · exact hbelow hts hs.above
    · exact hbelow hst (hbase hs)
    · cases heq
      exact Subtype.exact_ranges_ne_no hn hn' hst

variable {earlier later : Ty} {E : Ty -> Prop}
  (hz : z.IsAlternative h) (hne : z ≠ .never) (hE : IsEnclosure h z E)
include hz hne hE

theorem meets_meetRanges_above (hearlier : E earlier) (hlater : E later) :
    (meetRanges earlier later).Meets (.free (Session.exactly h)) fun meeting =>
      meeting ≠ .disjoint ∧ ∀ u, meeting = .narrowed u -> E u := by
  unfold meetRanges
  split
  · rename_i r s
    have hwithin := (hz.isWithin hne (hE.encloses _ hearlier).above).meet
      (hz.isWithin hne (hE.encloses _ hlater).above)
    dsimp only
    rw [hwithin.isEmpty]
    apply (Build.meets_range_cases hwithin.isEmpty).free.bind
    rintro u hu
    refine ⟨by simp, ?_⟩
    rintro _ ⟨⟩
    have hscalar : u.isOrdinary = true ∧ u.isSimple = true := by
      rcases hu with ⟨rfl, -⟩ | ⟨n, rfl, -⟩ | ⟨rfl, -⟩ <;> exact ⟨rfl, rfl⟩
    exact hE.narrows r s u hearlier hlater ⟨hscalar.1, hscalar.2, hwithin.contained hu⟩
  · exact ⟨by simp, by simp⟩

theorem meets_meet_above (hearlier : E earlier) (hlater : E later) :
    (meet earlier later).Meets (.free (Session.exactly h)) fun meeting =>
      (meeting = .disjoint -> IsPartedAmong h E) ∧ ∀ u, meeting = .narrowed u -> E u := by
  apply meets_meet_of trivial trivial
  · exact fun _ => ⟨by simp, by simp⟩
  · exact fun _ => ⟨by simp, by simp⟩
  · exact fun hno hno' => ⟨fun _ => ⟨earlier, later, hearlier, hlater, hno.symm, hno'.symm⟩, by simp⟩
  · intro _ _ _ _ _ _ _
    exact (meets_meetRanges_above hz hne hE hearlier hlater).imp fun meeting hmeeting =>
      ⟨fun hdisjoint => absurd hdisjoint hmeeting.1, hmeeting.2⟩

theorem outlives_forall : Outlives (.free (Session.exactly h)) (fun ts => ∀ m ∈ ts, E m)
    (IsPartedAmong h E) where
  perm := fun hperm hts m hm => hts m (hperm.mem_iff.mpr hm)
  meet := by
    intro t u others hstart
    rw [List.forall_mem_cons, List.forall_mem_cons] at hstart
    rcases hstart with ⟨ht, hu, hothers⟩
    refine (meets_meet_above hz hne hE ht hu).imp fun meeting hmeeting => ?_
    cases meeting with
    | keep => exact List.forall_mem_cons.mpr ⟨ht, hothers⟩
    | replace => exact List.forall_mem_cons.mpr ⟨hu, hothers⟩
    | narrowed v => exact List.forall_mem_cons.mpr ⟨hmeeting.2 v rfl, hothers⟩
    | disjoint => exact hmeeting.1 rfl
    | both => trivial

/-- Types with the property are reduced to one that brings in types with the property, unless two
of them are found to share no value. -/
theorem meets_reduce_above (hall : ∀ m ∈ members, E m) :
    (reduce members).Meets (.free (Session.exactly h)) fun t =>
      (t = .never ∧ IsPartedAmong h E) ∨ ∀ m ∈ membersOf t, E m := by
  apply meets_reduce_of (outlives_forall hz hne hE) trivial hall
  · exact fun hparted => Or.inl ⟨rfl, hparted⟩
  · intro t ht
    rw [List.forall_mem_singleton] at ht
    refine Or.inr ?_
    rwa [membersOf_of_isSimple (hE.encloses _ ht).simple, List.forall_mem_singleton]
  · exact fun left hleft => ⟨trivial, Or.inr hleft⟩

end Intersection
end GradualTypes
