import GradualTypes.Proofs.ApartAnswers
import GradualTypes.Proofs.IntersectionBounds
import GradualTypes.Proofs.UnionLeast

/-!
# What the alternatives of a union contain

A union may put one type in the place of two: `bool` in the place of both boolean
literals, and a hull in the place of two intervals that touch.  A formed type that
contains the two contains the one, since its own alternatives were put together in the
same way: two of them that contain the literals, or intervals that touch, would have
been made one.

This needs each alternative to be simple.  An alternative that is an intersection with
a union inside may contain an interval next to another alternative.
-/

namespace GradualTypes
namespace Intersection

open GradualTypes.Subtype (Certain Contained contained_iff isContainment_contained)
open GradualTypes.Ty (Formed)

variable {h : Hierarchy} {s t u : Ty}

/-!
# Operands
-/

/-- A type that distribution can take apart: a member of an intersection no alternative
of which is an intersection that has kept a union. -/
structure IsOperand (h : Hierarchy) (t : Ty) : Prop where
  formed : Formed (Session.exactly h) t
  complete : Ty.IsComplete t
  isMember : IsMember t
  distributed : ∀ a ∈ Union.membersOf t, a.isDistributed = true

theorem isOrdinary_of_isMember (ht : Formed (Session.exactly h) t) (hcomplete : Ty.IsComplete t)
    (hmember : IsMember t) : t.isOrdinary = true :=
  ht.isOrdinary hcomplete hmember.1 hmember.2.1 hmember.2.2.1

theorem IsOperand.isOrdinary (ht : IsOperand h t) : t.isOrdinary = true :=
  isOrdinary_of_isMember ht.formed ht.complete ht.isMember

/-- What is below an alternative and not taken apart is below the whole. -/
theorem contained_of_alternative (hs : s.isOrdinary = true) (hunion : s.unionMembers? = none)
    (hu : u ∈ Union.membersOf t) (hsu : Contained h s u) : Contained h s t := by
  cases t with
  | union flavor members => exact (Certain.union_right hs hunion hu hsu).contained
  | _ =>
      rcases List.mem_singleton.mp hu with rfl
      exact hsu

theorem exists_alternative (hs : s.isOrdinary = true) (hunion : s.unionMembers? = none)
    (hst : Contained h s t) : ∃ u ∈ Union.membersOf t, Contained h s u := by
  cases t with
  | union flavor members =>
      rcases contained_iff.mp hst with rfl | hcertain
      · cases hunion
      · exact hcertain.mem_of_union_target hs hunion
  | _ => exact ⟨_, List.mem_cons_self, hst⟩

/-- Two types one of which contains the other are not independent constraints. -/
theorem not_independent (hst : Contained h s t) : ¬ Independent (Session.exactly h) s t := by
  rintro ⟨-, r, r', hr, -, hne, -⟩
  exact hne (hr.trans hst)

/-- If no two simple types above a type are independent constraints, then an operand
above it has a simple alternative above it. -/
theorem exists_simple_alternative {P : Ty -> Prop} (hs : s.isOrdinary = true)
    (hsimple : s.isSimple = true)
    (hP : ∀ m, m.isOrdinary = true -> m.isSimple = true -> Contained h s m -> P m)
    (hchain : ∀ m n, P m -> P n -> ¬ Independent (Session.exactly h) m n)
    (ht : IsOperand h t) (hst : Contained h s t) : ∃ u ∈ Union.membersOf t, P u := by
  have hunion := Ty.unionMembers?_of_isSimple hsimple
  rcases exists_alternative hs hunion hst with ⟨u, hu, hsu⟩
  have hmember : Formed (Session.exactly h) u ∧ Ty.IsComplete u ∧ u.isOrdinary = true ∧
      u.unionMembers? = none := by
    cases t with
    | union flavor members =>
        have hformed := ht.formed.unionMember hu
        have hcomplete := ht.complete.inside hu
        have hordinary := Union.isOrdinary_of_isMember hformed.1 hcomplete hformed.2
        exact ⟨hformed.1, hcomplete, hordinary, hformed.2.2.2.2⟩
    | _ =>
        rcases List.mem_singleton.mp hu with rfl
        exact ⟨ht.formed, ht.complete, ht.isOrdinary, rfl⟩
  rcases hmember with ⟨hformed, hcomplete, hordinary, hflat⟩
  rcases Ty.union_or_inter_or_simple u with ⟨flavor, members, rfl⟩ | ⟨members, rfl⟩ | hu'
  · cases hflat
  · -- the members of an intersection are independent, and the type is below two of them
    exfalso
    have hall : ∀ m ∈ members, Contained h s m := by
      rcases contained_iff.mp hsu with rfl | hcertain
      · cases hsimple
      · exact hcertain.all_of_inter_target hs hunion
    have hmembers : ∀ m ∈ members, P m := by
      intro m hm
      have hmember := hformed.here.isMember m hm
      have hdistributed := List.all_eq_true.mp (ht.distributed _ hu) m hm
      have hordinary := isOrdinary_of_isMember (hformed.inside hm) (hcomplete.inside hm) hmember
      refine hP m hordinary ?_ (hall m hm)
      rcases Ty.union_or_inter_or_simple m with ⟨flavor, others, rfl⟩ | ⟨others, rfl⟩ | hm'
      · cases hdistributed
      · exact absurd rfl (hmember.2.2.2 others)
      · exact hm'
    have htwo := hformed.here.two
    obtain ⟨m, hm⟩ := List.exists_mem_of_length_pos (show 0 < members.length by omega)
    obtain ⟨n, hn, hindependent⟩ := hformed.here.exists_independent hm
    exact hchain m n (hmembers m hm) (hmembers n hn) hindependent
  · exact ⟨u, hu, hP u hordinary hu' hsu⟩

/-!
# Boolean literals
-/

/-- A simple type above a boolean literal. -/
def HoldsBool (b : Bool) (t : Ty) : Prop :=
  t = .literal (.bool b) ∨ t = .bool

theorem bool_below {b : Bool} (ht : t.isOrdinary = true) (hsimple : t.isSimple = true)
    (hbelow : Contained h (.literal (.bool b)) t) : HoldsBool b t := by
  rcases contained_iff.mp hbelow with heq | hcertain
  · exact Or.inl heq.symm
  · rcases hcertain.cases_of_simple_target rfl rfl ht hsimple with ⟨members, heq, -⟩ | hfits
    · cases heq
    · cases hfits
      exact Or.inr rfl

theorem not_independent_of_bool {b : Bool} (hs : HoldsBool b s) (ht : HoldsBool b t) :
    ¬ Independent (Session.exactly h) s t := by
  have hliteral : Contained h (.literal (.bool b)) .bool :=
    (Certain.fits rfl rfl (.literal_base (.bool b))).contained
  rcases hs with rfl | rfl <;> rcases ht with rfl | rfl
  · exact not_independent (.refl _)
  · exact not_independent hliteral
  · exact fun hindependent => not_independent hliteral hindependent.symm
  · exact not_independent (.refl _)

/-- A type with an alternative for each boolean literal has one for both. -/
theorem bool_contained (ht : IsOperand h t) (htrue : Contained h (.literal (.bool true)) t)
    (hfalse : Contained h (.literal (.bool false)) t) : Contained h .bool t := by
  have hfound : ∀ b, Contained h (.literal (.bool b)) t ->
      ∃ u ∈ Union.membersOf t, HoldsBool b u :=
    fun b => exists_simple_alternative rfl rfl (fun _ => bool_below)
      (fun _ _ => not_independent_of_bool) ht
  rcases hfound true htrue with ⟨u, hu, rfl | rfl⟩
  · rcases hfound false hfalse with ⟨v, hv, rfl | rfl⟩
    · exfalso
      cases t with
      | union flavor members => exact ht.formed.here.1.bools ⟨hu, hv⟩
      | _ =>
          have heq := (List.mem_singleton.mp hu).trans (List.mem_singleton.mp hv).symm
          cases heq
    · exact contained_of_alternative rfl rfl hv (.refl _)
  · exact contained_of_alternative rfl rfl hu (.refl _)

/-!
# Intervals
-/

/-- A simple type above an interval. -/
def HoldsRange (r : IntRange) (t : Ty) : Prop :=
  t = .int ∨ ∃ s, t = .range s ∧ r.within s = true

theorem isSimple_toTy (r : IntRange) : r.toTy.isSimple = true ∧ r.toTy.isOrdinary = true := by
  unfold IntRange.toTy
  split <;> exact ⟨rfl, rfl⟩

theorem toTy_below {r : IntRange} (ht : t.isOrdinary = true) (hsimple : t.isSimple = true)
    (hbelow : Contained h r.toTy t) : HoldsRange r t := by
  unfold IntRange.toTy at hbelow
  split at hbelow
  · rcases contained_iff.mp hbelow with heq | hcertain
    · exact Or.inl heq.symm
    · rcases hcertain.cases_of_simple_target rfl rfl ht hsimple with ⟨members, heq, -⟩ | hfits
      · cases heq
      · cases hfits
        exact Or.inl rfl
  · rcases contained_iff.mp hbelow with heq | hcertain
    · exact Or.inr ⟨r, heq.symm, IntRange.within_refl r⟩
    · rcases hcertain.cases_of_simple_target rfl rfl ht hsimple with ⟨members, heq, -⟩ | hfits
      · cases heq
      · cases hfits with
        | range_int => exact Or.inl rfl
        | range_range hwithin => exact Or.inr ⟨_, rfl, hwithin⟩

theorem toTy_below_int (r : IntRange) : Contained h r.toTy .int := by
  unfold IntRange.toTy
  split
  · exact .refl _
  · exact (Certain.fits rfl rfl (.range_int r)).contained

theorem toTy_below_range {r s : IntRange} (hs : s.lo ≠ s.hi) (hwithin : r.within s = true) :
    Contained h r.toTy (.range s) := by
  rw [IntRange.toTy, if_neg]
  · exact (Certain.fits rfl rfl (.range_range hwithin)).contained
  · rintro ⟨hlo, hhi⟩
    have hopen := IntRange.open_of_within hwithin hlo hhi
    exact hs (hopen.1.trans hopen.2.symm)

theorem not_independent_of_range {r : IntRange} (hs : HoldsRange r s) (ht : HoldsRange r t) :
    ¬ Independent (Session.exactly h) s t := by
  have hint : ∀ s, Contained h (.range s) .int :=
    fun s => (Certain.fits rfl rfl (.range_int s)).contained
  rcases hs with rfl | ⟨q, rfl, -⟩ <;> rcases ht with rfl | ⟨q', rfl, -⟩
  · exact not_independent (.refl _)
  · exact fun hindependent => not_independent (hint q') hindependent.symm
  · exact not_independent (hint q)
  · rintro ⟨hranges, -⟩
    rcases hranges with hnone | hnone <;> cases hnone

/-- A type with alternatives for two intervals that touch has one for both. -/
theorem hull_contained (ht : IsOperand h t) {r s : IntRange} (htouches : r.touches s = true)
    (hr : Contained h r.toTy t) (hs : Contained h s.toTy t) :
    Contained h (r.hull s).toTy t := by
  have hfound : ∀ q : IntRange, Contained h q.toTy t -> ∃ u ∈ Union.membersOf t, HoldsRange q u :=
    fun q => exists_simple_alternative (isSimple_toTy q).2 (isSimple_toTy q).1
      (fun _ => toTy_below) (fun _ _ => not_independent_of_range) ht
  have hhull := isSimple_toTy (r.hull s)
  have habove : ∀ u ∈ Union.membersOf t, Contained h (r.hull s).toTy u ->
      Contained h (r.hull s).toTy t :=
    fun u hu => contained_of_alternative hhull.2 (Ty.unionMembers?_of_isSimple hhull.1) hu
  rcases hfound r hr with ⟨u, hu, rfl | ⟨r', rfl, hr'⟩⟩
  · exact habove _ hu (toTy_below_int _)
  · rcases hfound s hs with ⟨v, hv, rfl | ⟨s', rfl, hs'⟩⟩
    · exact habove _ hv (toTy_below_int _)
    · have hkept : r' = s' ∧ r'.lo ≠ r'.hi := by
        cases t with
        | union flavor members =>
            refine ⟨?_, (ht.formed.inside hu).here.2⟩
            by_contra hne
            have hapart := ht.formed.here.1.ranges r' s' hu hv hne
            rw [IntRange.touches_of_within hr' hs' htouches] at hapart
            cases hapart
        | range q =>
            cases List.mem_singleton.mp hu
            cases List.mem_singleton.mp hv
            exact ⟨rfl, ht.formed.here.2⟩
        | _ => cases List.mem_singleton.mp hu
      rcases hkept with ⟨rfl, hne⟩
      exact habove _ hu (toTy_below_range hne (IntRange.hull_within hr' hs'))

/-- To be below an operand is kept when a union is made. -/
theorem isKept_below (ht : IsOperand h t) : Union.IsKept fun u => Contained h u t where
  never := (Certain.never ht.formed.isUnknown).contained
  bools := bool_contained ht
  hull := fun _ _ => hull_contained ht

/-- So is being below several operands, together with what is known of shapes. -/
theorem isKept_below_all {operands : List Ty} (hoperands : ∀ t ∈ operands, IsOperand h t)
    (P : List (Entry Ty) -> Prop) : Union.IsKept fun u =>
      (∀ t ∈ operands, Contained h u t) ∧ ∀ e, u = .shape e -> P e := by
  constructor
  · constructor
    · exact fun t ht => (isKept_below (hoperands t ht)).never
    · simp
  · intro htrue hfalse
    constructor
    · exact fun t ht => (isKept_below (hoperands t ht)).bools (htrue.1 t ht) (hfalse.1 t ht)
    · simp
  · intro r s hr hs htouches hr' hs'
    constructor
    · intro t ht
      exact (isKept_below (hoperands t ht)).hull hr hs htouches (hr'.1 t ht) (hs'.1 t ht)
    · exact fun e he => absurd he (IntRange.toTy_ne_shape _ e)

end Intersection
end GradualTypes
