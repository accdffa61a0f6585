import GradualTypes.Proofs.Alternatives
import GradualTypes.Proofs.Construction

/-!
# Normal forms of unions

A type that is a union is its alternatives, and no alternative is contained in another
one.  So two types that contain one another have alternatives that contain one another in
pairs.  A scalar alternative is then the same on both sides, because no other type
contains the same values by the rules.  Of other types there may be several that contain
one another, such as references to one class in different spellings; a union keeps the
last one of them in the order of codes.
-/

namespace GradualTypes

open Inquiry
open GradualTypes.Subtype (Certain Contained Fits contained_iff)
open GradualTypes.Ty (Formed)

variable {h : Hierarchy} {r s t u x y : Ty}

/-!
# Proper types
-/

/-- A type that the constructors make of one another, apart from an error. -/
structure Ty.IsProper (h : Hierarchy) (t : Ty) : Prop where
  formed : Formed (Session.exactly h) t
  complete : Ty.IsComplete t
  noError : t ≠ .error

namespace Ty.IsProper

theorem isOrdinary (ht : t.IsProper h) (hmixed : t ≠ .mixed) (hnever : t ≠ .never) :
    t.isOrdinary = true :=
  ht.formed.isOrdinary ht.complete ht.noError hmixed hnever

/-- The alternatives of a proper type, which is its own one if it is no union. -/
theorem alternative (ht : t.IsProper h) (hu : u ∈ Union.membersOf t) :
    u.IsProper h ∧ u.unionMembers? = none := by
  cases t with
  | union flavor members =>
      rcases ht.formed.unionMember hu with ⟨hformed, hmember⟩
      exact ⟨⟨hformed, ht.complete.inside hu, hmember.1⟩, hmember.2.2.2⟩
  | _ =>
      rcases List.mem_singleton.mp hu with rfl
      exact ⟨ht, rfl⟩

theorem exists_mem_membersOf (ht : t.IsProper h) : ∃ u, u ∈ Union.membersOf t := by
  cases t with
  | union flavor members =>
      have htwo := ht.formed.here.1.two
      exact List.exists_mem_of_length_pos (by simp only [Union.membersOf]; omega)
  | _ => exact ⟨_, List.mem_cons_self⟩

end Ty.IsProper

namespace Subtype

/-- Only `never` is below `never`. -/
theorem eq_never_of_contained (ht : Contained h t .never) : t = .never := by
  rcases contained_iff.mp ht with rfl | hcertain
  · rfl
  · by_contra hne
    cases hcertain.isOrdinary_target hne (by simp)

/-- Only `mixed` is above `mixed`. -/
theorem eq_mixed_of_contained (ht : Contained h .mixed t) : t = .mixed := by
  rcases contained_iff.mp ht with rfl | hcertain
  · rfl
  · by_contra hne
    cases hcertain.isOrdinary_source (by simp) hne

/-- A type that is not taken apart is below a type if it is below an alternative. -/
theorem contained_iff_alternative (hx : x.IsProper h) (hflat : x.unionMembers? = none)
    (ht : t.IsProper h) : Contained h x t ↔ ∃ u ∈ Union.membersOf t, Contained h x u := by
  by_cases hmixed : x = .mixed
  · subst hmixed
    constructor
    · intro hbelow
      rw [eq_mixed_of_contained hbelow]
      exact ⟨.mixed, List.mem_cons_self, .refl _⟩
    · rintro ⟨u, hu, hbelow⟩
      rw [eq_mixed_of_contained hbelow] at hu
      cases t with
      | union flavor members => exact absurd rfl (ht.formed.unionMember hu).2.2.1
      | _ => exact (List.mem_singleton.mp hu) ▸ .refl _
  · by_cases hnever : x = .never
    · subst hnever
      obtain ⟨u, hu⟩ := ht.exists_mem_membersOf
      have hbelow : ∀ {v : Ty}, v.IsProper h -> Contained h .never v :=
        fun hv => (Certain.never hv.formed.isUnknown).contained
      exact ⟨fun _ => ⟨u, hu, hbelow (ht.alternative hu).1⟩, fun _ => hbelow ht⟩
    · have hordinary := hx.isOrdinary hmixed hnever
      constructor
      · exact Intersection.exists_alternative hordinary hflat
      · rintro ⟨u, hu, hbelow⟩
        exact Intersection.contained_of_alternative hordinary hflat hu hbelow

/-- A type is below another one if all its alternatives are. -/
theorem contained_of_alternatives (hr : r.IsProper h) (ht : t.IsProper h)
    (hall : ∀ a ∈ Union.membersOf r, Contained h a t) : Contained h r t := by
  cases r with
  | union flavor members =>
      have htwo := hr.formed.here.1.two
      have hne : members ≠ [] := List.ne_nil_of_length_pos (by omega)
      obtain ⟨a, ha⟩ := hr.exists_mem_membersOf
      by_cases hmixed : t = .mixed
      · subst hmixed
        exact (Certain.mixed hr.formed.isUnknown).contained
      · have hnever : t ≠ .never := by
          rintro rfl
          exact (hr.formed.unionMember ha).2.2.2.1 (eq_never_of_contained (hall a ha))
        exact (Certain.union_left (ht.isOrdinary hmixed hnever) hne hall).contained
  | _ => exact hall _ List.mem_cons_self

/-- No alternative is below another one. -/
theorem eq_of_contained_alternatives (ht : t.IsProper h) (hx : x ∈ Union.membersOf t)
    (hy : y ∈ Union.membersOf t) (hxy : Contained h x y) : x = y := by
  cases t with
  | union flavor members =>
      exact Union.IsIrredundant.eq_of_contained ht.formed.here.2 hx hy hxy
  | _ => exact (List.mem_singleton.mp hx).trans (List.mem_singleton.mp hy).symm

end Subtype

/-!
# Scalars
-/

namespace Subtype

/-- Of simple types only a scalar one itself contains what it contains. -/
theorem eq_of_fits_scalar {R : Ty -> Ty -> Prop} (hx : x.isScalar = true) (hxy : Fits h R x y)
    (hyx : Fits h R y x) : x = y := by
  cases hxy with
  | same k => rfl
  | literal_base v => cases hyx
  | range_int r => cases hyx
  | literal_range hn => cases hyx
  | range_range hwithin =>
      cases hyx with
      | range_range hwithin' => rw [IntRange.within_antisymm hwithin hwithin']
  | text_nonEmpty hs => cases hyx
  | _ => cases hx

/-- No intersection and a simple type contain one another, since the members of an
intersection are independent. -/
theorem not_contained_inter_simple (hfinal : h.LeavesClosureFinal) {members : List Ty}
    (hinter : (Ty.inter members).IsProper h) (hx : x.isOrdinary = true)
    (hsimple : x.isSimple = true) (hxy : Contained h x (.inter members)) :
    ¬ Contained h (.inter members) x := by
  intro hyx
  have hflat := Ty.unionMembers?_of_isSimple hsimple
  have hall : ∀ m ∈ members, Contained h x m := by
    rcases contained_iff.mp hxy with rfl | hcertain
    · cases hsimple
    · exact hcertain.all_of_inter_target hx hflat
  have hbelow : ∃ m ∈ members, Contained h m x := by
    rcases contained_iff.mp hyx with rfl | hcertain
    · cases hsimple
    · rcases hcertain.cases_of_simple_target isOrdinary_inter rfl hx hsimple with
        ⟨others, heq, hm⟩ | hfits
      · cases heq
        exact hm
      · cases hfits
  obtain ⟨m, hm, hmx⟩ := hbelow
  obtain ⟨n, hn, hindependent⟩ := hinter.formed.here.exists_independent hm
  exact Intersection.not_independent
    (hmx.trans hfinal (Formed.hasDistinctKeys (hinter.formed.inside hm)) (hall n hn)) hindependent

/-- A scalar type that contains the same as another type that is no union is that type. -/
theorem eq_of_scalar (hfinal : h.LeavesClosureFinal) (hscalar : x.isScalar = true)
    (hx : x.IsProper h) (hy : y.IsProper h) (hflat : y.unionMembers? = none)
    (hxy : Contained h x y) (hyx : Contained h y x) : x = y := by
  by_cases hmixed : x = .mixed
  · exact hmixed.trans (eq_mixed_of_contained (hmixed ▸ hxy)).symm
  by_cases hnever : x = .never
  · exact hnever.trans (eq_never_of_contained (hnever ▸ hyx)).symm
  by_cases hmixed' : y = .mixed
  · exact absurd (eq_mixed_of_contained (hmixed' ▸ hyx)) hmixed
  by_cases hnever' : y = .never
  · exact absurd (eq_never_of_contained (hnever' ▸ hxy)) hnever
  have hordinary := hx.isOrdinary hmixed hnever
  have hordinary' := hy.isOrdinary hmixed' hnever'
  have hsimple := Ty.isSimple_of_isScalar hscalar
  have hxflat := Ty.unionMembers?_of_isSimple hsimple
  rcases Ty.union_or_inter_or_simple y with ⟨flavor, members, rfl⟩ | ⟨members, rfl⟩ | hsimple'
  · cases hflat
  · exact absurd hyx (not_contained_inter_simple hfinal hy hordinary hsimple hxy)
  · have hfits : ∀ {a b : Ty}, a ≠ b -> a.isOrdinary = true -> b.isOrdinary = true ->
        a.isSimple = true -> b.isSimple = true -> Contained h a b -> Fits h (Contained h) a b := by
      intro a b hne ha hb hasimple hbsimple hab
      have hcertain := (contained_iff.mp hab).resolve_left hne
      rcases hcertain.cases_of_simple_target ha (Ty.unionMembers?_of_isSimple hasimple) hb
        hbsimple with ⟨members, rfl, -⟩ | hfits
      · cases hasimple
      · exact hfits
    by_contra hne
    exact hne (eq_of_fits_scalar hscalar
      (hfits hne hordinary hordinary' hsimple hsimple' hxy)
      (hfits (Ne.symm hne) hordinary' hordinary hsimple' hsimple hyx))

/-- Types that are no unions and contain the same are equal, unless neither is scalar and one
of them comes after the other. -/
theorem eq_of_codes (hfinal : h.LeavesClosureFinal) (hx : x.IsProper h)
    (hxflat : x.unionMembers? = none) (hy : y.IsProper h) (hyflat : y.unionMembers? = none)
    (hxy : Contained h x y) (hyx : Contained h y x)
    (hcodes : x.isScalar = false -> y.isScalar = false -> ¬ x.code < y.code ∧ ¬ y.code < x.code) :
    x = y := by
  cases hxscalar : x.isScalar with
  | true => exact eq_of_scalar hfinal hxscalar hx hy hyflat hxy hyx
  | false =>
      cases hyscalar : y.isScalar with
      | true => exact (eq_of_scalar hfinal hyscalar hy hx hxflat hyx hxy).symm
      | false =>
          rcases hcodes hxscalar hyscalar with ⟨hle, hle'⟩
          exact Ty.code_inj (List.le_antisymm (List.not_lt.mp hle') (List.not_lt.mp hle))

end Subtype

/-!
# Types with the same alternatives
-/

namespace Union

theorem nodup_membersOf (ht : t.IsProper h) : (membersOf t).Nodup := by
  cases t with
  | union flavor members => exact ht.formed.here.1.nodup
  | _ => exact List.nodup_singleton _

/-- An alternative of a type that is below another type is below an alternative of it. -/
theorem exists_alternative_of_contained (hfinal : h.LeavesClosureFinal) (hs : s.IsProper h)
    (ht : t.IsProper h) (hst : Contained h s t) (hx : x ∈ membersOf s) :
    ∃ y ∈ membersOf t, Contained h x y := by
  rcases hs.alternative hx with ⟨hproper, hflat⟩
  have hxs : Contained h x s :=
    (Subtype.contained_iff_alternative hproper hflat hs).mpr ⟨x, hx, .refl x⟩
  exact (Subtype.contained_iff_alternative hproper hflat ht).mp
    (hxs.trans hfinal hproper.formed.hasDistinctKeys hst)

/-- Types that are below one another have the same alternatives, if no two different
alternatives are below one another. -/
theorem perm_membersOf (hfinal : h.LeavesClosureFinal) (hs : s.IsProper h) (ht : t.IsProper h)
    (hst : Contained h s t) (hts : Contained h t s)
    (hsame : ∀ x ∈ membersOf s, ∀ y ∈ membersOf t, Contained h x y -> Contained h y x -> x = y) :
    (membersOf s).Perm (membersOf t) := by
  have hsubset : ∀ {a b : Ty}, a.IsProper h -> b.IsProper h -> Contained h a b -> Contained h b a ->
      (∀ x ∈ membersOf a, ∀ y ∈ membersOf b, Contained h x y -> Contained h y x -> x = y) ->
      ∀ x ∈ membersOf a, x ∈ membersOf b := by
    intro a b ha hb hab hba hsame x hx
    obtain ⟨y, hy, hxy⟩ := exists_alternative_of_contained hfinal ha hb hab hx
    obtain ⟨x', hx', hyx'⟩ := exists_alternative_of_contained hfinal hb ha hba hy
    have hkeys := (ha.alternative hx).1.formed.hasDistinctKeys
    have heq := Subtype.eq_of_contained_alternatives ha hx hx' (hxy.trans hfinal hkeys hyx')
    rw [hsame x hx y hy hxy (heq ▸ hyx')]
    exact hy
  rw [List.perm_ext_iff_of_nodup (nodup_membersOf hs) (nodup_membersOf ht)]
  intro x
  constructor
  · exact hsubset hs ht hst hts hsame x
  · refine hsubset ht hs hts hst (fun y hy x hx hyx hxy => ?_) x
    exact (hsame x hx y hy hxy hyx).symm

/-- Types with the same alternatives are equal, if they are of one flavor as unions. -/
theorem eq_of_perm_membersOf (hs : s.IsProper h) (ht : t.IsProper h)
    (hperm : (membersOf s).Perm (membersOf t))
    (hflavor : ∀ flavor flavor' members, s = .union flavor members -> t = .union flavor' members ->
      flavor = flavor') : s = t := by
  have hlength := hperm.length_eq
  cases s with
  | union flavor members =>
      have htidy := hs.formed.here.1
      have htwo := htidy.two
      cases t with
      | union flavor' members' =>
          have heq : members = members' :=
            Ty.eq_of_isCanonical htidy.sorted ht.formed.here.1.sorted hperm
          subst heq
          rw [hflavor _ _ _ rfl rfl]
      | _ => simp only [membersOf, List.length_singleton] at hlength; omega
  | _ =>
      cases t with
      | union flavor members =>
          have htwo := ht.formed.here.1.two
          simp only [membersOf, List.length_singleton] at hlength
          omega
      | _ => exact List.singleton_perm_singleton.mp hperm

end Union
end GradualTypes
