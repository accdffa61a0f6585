import GradualTypes.Proofs.Enclosures
import GradualTypes.Proofs.LowerBounds

/-!
# What two alternatives have in common

The intersection of two alternatives is again an alternative.  It is below both, and what is
below both is below it, unless types that contain it are found to share no value.  An
alternative that brings in all members of another one is left as it is.
-/

namespace GradualTypes
/-- Only `mixed` is above an error. -/
theorem Subtype.eq_mixed_of_error {h : Hierarchy} {t : Ty}
    (hbelow : Subtype.Contained h .error t) (herror : t ≠ .error) : t = .mixed := by
  by_contra hmixed
  rcases contained_iff.mp hbelow with heq | hcertain
  · exact herror heq.symm
  · cases hcertain.isOrdinary_source (by simp) hmixed

namespace Intersection

open Inquiry
open GradualTypes.Subtype (Certain Contained contained_iff exact)
open GradualTypes.Ty (Formed IsAlternative)

variable {h : Hierarchy} {options : Options} {members others kept : List Ty} {c s t u x z : Ty}

/-!
# The members as a set
-/

/-- Lists that bring in the same types are prepared in the same way. -/
theorem prepare_congr (hsame : ∀ t, t ∈ members.flatMap membersOf ↔ t ∈ others.flatMap membersOf) :
    prepare members = prepare others := by
  unfold prepare
  rw [Ty.distinct_congr hsame]

/-- The intersection of two and more types depends on what they bring in only. -/
theorem of_congr (hmany : 2 ≤ members.length) (hmany' : 2 ≤ others.length)
    (hsame : ∀ t, t ∈ members.flatMap membersOf ↔ t ∈ others.flatMap membersOf) :
    of options members = of options others := by
  have hprepare := prepare_congr hsame
  have hlong : ∀ {ts : List Ty}, 2 ≤ ts.length -> ts ≠ [] ∧ ∀ t, ts ≠ [t] := by
    intro ts hts
    exact ⟨List.ne_nil_of_length_pos (by omega), fun t heq => by simp [heq] at hts⟩
  rcases hlong hmany with ⟨hnil, hsingle⟩
  rcases hlong hmany' with ⟨hnil', hsingle'⟩
  cases hresult : prepare members with
  | inl t => rw [of_settled hnil hsingle hresult, of_settled hnil' hsingle' (hprepare ▸ hresult)]
  | inr kept =>
      cases hdistribute : toDistribute? options.maxIntersectionDistribution kept with
      | none =>
          rw [of_compared hnil hsingle hresult hdistribute,
            of_compared hnil' hsingle' (hprepare ▸ hresult) hdistribute]
      | some found =>
          obtain ⟨flavor, alternatives, rest⟩ := found
          rw [of_distributed hnil hsingle hresult hdistribute,
            of_distributed hnil' hsingle' (hprepare ▸ hresult) hdistribute]

/-- The intersection of two types, for the relation without limits. -/
def common (h : Hierarchy) (options : Options) (s t : Ty) : Ty :=
  (of options [s, t]).value (exact h)

theorem common_comm (s t : Ty) : common h options s t = common h options t s := by
  have hof : of options [s, t] = of options [t, s] :=
    of_congr (by simp) (by simp) fun u => by simp [or_comm]
  unfold common
  rw [hof]

/-!
# Several alternatives
-/

theorem flat_of_isSimple (ht : t.isSimple = true) :
    t.unionMembers? = none ∧ t.isDistributed = true :=
  ⟨Ty.unionMembers?_of_isSimple ht, isDistributed_of_isSimple ht⟩

theorem flat_of_reduce (hkept : ∀ t ∈ kept, t.isSimple = true) :
    ((reduce kept).value (exact h)).unionMembers? = none ∧
      ((reduce kept).value (exact h)).isDistributed = true := by
  have hfrom := (meets_reduce_from (Session.exactly h) kept).value fun _ _ _ => rfl
  rcases hfrom with (hmem | hresult) | ⟨left, heq, hleft⟩
  · exact flat_of_isSimple (hkept _ hmem)
  · exact flat_of_isSimple (Ty.isSimple_of_isScalar hresult)
  · rw [heq]
    refine ⟨rfl, List.all_eq_true.mpr fun m hm => ?_⟩
    have hm' : m.isSimple = true := (hleft m hm).elim (hkept m) Ty.isSimple_of_isScalar
    rw [Ty.unionMembers?_of_isSimple hm']
    rfl

section Several

variable {ts : List Ty} {E : Ty -> Prop} (hts : ∀ t ∈ ts, t.IsAlternative h)
include hts

theorem isSimple_flat (ht : t ∈ ts.flatMap membersOf) : t.IsProper h ∧ t.isSimple = true := by
  rcases List.mem_flatMap.mp ht with ⟨s, hs, hts'⟩
  exact (hts s hs).member hts'

variable (htwo : 2 ≤ ts.length)
include htwo

/-- Alternatives are not distributed. -/
theorem of_alternatives : of options ts =
    match prepare ts with
    | .inl t => pure t
    | .inr kept => reduce kept := by
  have hnil : ts ≠ [] := List.ne_nil_of_length_pos (by omega)
  have hsingle : ∀ t, ts ≠ [t] := by
    rintro t rfl
    simp at htwo
  split
  · rename_i t hprepare
    exact of_settled hnil hsingle hprepare
  · rename_i kept hprepare
    have hdistribute : toDistribute? options.maxIntersectionDistribution kept = none := by
      rw [Option.eq_none_iff_forall_ne_some]
      rintro ⟨flavor, alternatives, rest⟩ hsome
      have hmem := (mem_of_firstUnion? (firstUnion?_of_toDistribute? hsome)).1
      cases prepares_of_eq hprepare with
      | several htwo hnodup hopen hkept =>
          have hflat := (isSimple_flat hts ((hkept _).mp hmem).1).2
          cases hflat
    exact of_compared hnil hsingle hprepare hdistribute

theorem flat_of_alternatives : ((of options ts).value (exact h)).unionMembers? = none ∧
    ((of options ts).value (exact h)).isDistributed = true := by
  rw [of_alternatives hts htwo]
  split
  · rename_i t hprepare
    cases prepares_of_eq hprepare with
    | single ht hopen hothers => exact flat_of_isSimple (isSimple_flat hts ht).2
    | _ => exact ⟨rfl, rfl⟩
  · rename_i kept hprepare
    refine flat_of_reduce ?_
    cases prepares_of_eq hprepare with
    | several htwo hnodup hopen hmem =>
        exact fun t ht => (isSimple_flat hts ((hmem t).mp ht).1).2

/-- What is below some alternatives is below all that their intersection brings in, unless two
types that contain it, and are among those that the alternatives bring in, are found to share no
value. -/
theorem below_of_alternatives (hfinal : h.LeavesClosureFinal) (hz : z.IsAlternative h)
    (hne : z ≠ .never) (hE : IsEnclosure h z E) (hbelow : ∀ t ∈ ts, Contained h z t)
    (hall : ∀ m ∈ ts.flatMap membersOf, Encloses h m z -> E m) :
    ((of options ts).value (exact h) = .never ∧ IsPartedAmong h E) ∨
      ∀ m ∈ membersOf ((of options ts).value (exact h)), Contained h z m := by
  have hflat : ∀ t ∈ ts.flatMap membersOf, Contained h z t := by
    intro t ht
    rcases List.mem_flatMap.mp ht with ⟨s, hs, hts'⟩
    exact (hz.contained_iff_members hfinal (hts s hs)).mp (hbelow s hs) t hts'
  rw [of_alternatives hts htwo]
  split
  · rename_i t hprepare
    refine Or.inr ?_
    have hsettled : t.isSimple = true ∧ Contained h z t := by
      cases prepares_of_eq hprepare with
      | error herror => exact absurd rfl (isSimple_flat hts herror).1.noError
      | never herror hnever => exact absurd (Subtype.eq_never_of_contained (hflat _ hnever)) hne
      | mixed hmixed => exact ⟨rfl, (Certain.mixed hz.proper.formed.isUnknown).contained⟩
      | single ht hopen hothers => exact ⟨(isSimple_flat hts ht).2, hflat t ht⟩
    show ∀ m ∈ membersOf t, Contained h z m
    rw [membersOf_of_isSimple hsettled.1, List.forall_mem_singleton]
    exact hsettled.2
  · rename_i kept hprepare
    have hkept : ∀ m ∈ kept, E m := by
      cases prepares_of_eq hprepare with
      | several htwo hnodup hopen hmem =>
          intro m hm
          have hm' := ((hmem m).mp hm).1
          rcases isSimple_flat hts hm' with ⟨hproper, hsimple⟩
          rcases hopen m hm with ⟨-, hmixed, hnever⟩
          exact hall m hm' ⟨hproper.isOrdinary hmixed hnever, hsimple, hflat m hm'⟩
    have hleft := (meets_reduce_above hz hne hE hkept).value fun _ _ _ => rfl
    exact hleft.imp_right fun hleft m hm => (hE.encloses m (hleft m hm)).above

end Several

/-!
# Two alternatives
-/

section Alternatives

variable (hx : x.IsAlternative h) (hc : c.IsAlternative h)
include hx hc

theorem isAlternative_pair : ∀ t ∈ [x, c], t.IsAlternative h := by
  rw [List.forall_mem_cons, List.forall_mem_singleton]
  exact ⟨hx, hc⟩

theorem isDistributable_alternatives (hlimit : 0 < options.maxIntersectionDistribution) :
    IsDistributable h options [x, c] where
  proper := by
    rw [List.forall_mem_cons, List.forall_mem_singleton]
    exact ⟨⟨hx.proper.formed, hx.proper.complete⟩, hc.proper.formed, hc.proper.complete⟩
  noError := by
    rw [List.forall_mem_cons, List.forall_mem_singleton]
    exact ⟨hx.proper.noError, hc.proper.noError⟩
  distributed := by
    intro t ht
    have hsimple := (isSimple_flat (isAlternative_pair hx hc) ht).2
    rw [Union.membersOf_of_flat (Ty.unionMembers?_of_isSimple hsimple), List.forall_mem_singleton]
    exact isDistributed_of_isSimple hsimple
  few := by
    intro kept hprepare
    cases prepares_of_eq hprepare with
    | several htwo hnodup hopen hmem =>
        have hone : pieces kept ≤ pieces [] := by
          refine pieces_le hnodup (fun t ht => Or.inr ?_) (by simp)
          exact width_of_isSimple (isSimple_flat (isAlternative_pair hx hc) ((hmem t).mp ht).1).2
        exact Nat.le_trans hone hlimit

/-- Two alternatives are not distributed. -/
theorem common_eq : common h options x c =
    match prepare [x, c] with
    | .inl t => t
    | .inr kept => (reduce kept).value (exact h) := by
  unfold common
  rw [of_alternatives (isAlternative_pair hx hc) (Nat.le_refl 2)]
  split <;> rfl

theorem flat_common : (common h options x c).unionMembers? = none ∧
    (common h options x c).isDistributed = true :=
  flat_of_alternatives (isAlternative_pair hx hc) (Nat.le_refl 2)

/-- What two alternatives have in common is below both. -/
theorem common_below (hfinal : h.LeavesClosureFinal)
    (hlimit : 0 < options.maxIntersectionDistribution) :
    Contained h (common h options x c) x ∧ Contained h (common h options x c) c := by
  have hflat : ∀ t ∈ [x, c].flatMap membersOf, t.unionMembers? = none :=
    fun t ht => Ty.unionMembers?_of_isSimple (isSimple_flat (isAlternative_pair hx hc) ht).2
  have hlower := isLower hfinal (isDistributable_alternatives hx hc hlimit) fun e f he hf _ => by
    rw [he.eq_value hflat, ← hf.eq_value hflat]
    exact Or.inl (.refl _)
  exact ⟨hlower.below x (by simp), hlower.below c (by simp)⟩

theorem isAlternative_common (hfinal : h.LeavesClosureFinal)
    (hlimit : 0 < options.maxIntersectionDistribution) :
    (common h options x c).IsAlternative h := by
  rcases (isDistributable_alternatives hx hc hlimit).proper_value with ⟨hformed, hcomplete⟩
  refine ⟨⟨hformed, hcomplete, ?_⟩, (flat_common hx hc).1, (flat_common hx hc).2⟩
  intro herror
  -- `mixed` has itself in common with itself
  have hmixed : ∀ {t : Ty}, t ≠ .error -> Contained h (common h options x c) t -> t = .mixed :=
    fun ht hbelow => Subtype.eq_mixed_of_error (herror ▸ hbelow) ht
  rcases common_below hx hc hfinal hlimit with ⟨hbelow, hbelow'⟩
  have hprepare : prepare [x, c] = .inl .mixed := by
    rw [hmixed hx.proper.noError hbelow, hmixed hc.proper.noError hbelow']
    decide +kernel
  rw [common_eq hx hc, hprepare] at herror
  cases herror

/-- What is below two alternatives is below what they have in common, unless types that
contain it are found to share no value. -/
theorem contained_common (hfinal : h.LeavesClosureFinal)
    (hlimit : 0 < options.maxIntersectionDistribution) (hz : z.IsAlternative h)
    (hzx : Contained h z x) (hzc : Contained h z c) :
    (common h options x c = .never ∧ IsParted h z) ∨ Contained h z (common h options x c) := by
  have hcommon := isAlternative_common hx hc hfinal hlimit
  by_cases hne : z = .never
  · exact Or.inr (hne ▸ (Certain.never hcommon.proper.formed.isUnknown).contained)
  rw [hz.contained_iff_members hfinal hcommon]
  refine below_of_alternatives (isAlternative_pair hx hc) (Nat.le_refl 2) hfinal hz hne
    (isEnclosure_encloses h z) ?_ fun _ _ => id
  rw [List.forall_mem_cons, List.forall_mem_singleton]
  exact ⟨hzx, hzc⟩

/-- So is a literal of an integer or a boolean in any case. -/
theorem literal_below_common (hfinal : h.LeavesClosureFinal)
    (hlimit : 0 < options.maxIntersectionDistribution) {v : Literal}
    (hv : (Ty.literal v).IsDiscrete) (hvx : Contained h (.literal v) x)
    (hvc : Contained h (.literal v) c) : Contained h (.literal v) (common h options x c) := by
  refine (contained_common hx hc hfinal hlimit (Ty.isAlternative_literal v) hvx hvc).resolve_left ?_
  exact fun hparted => not_isParted_literal hv hparted.2

end Alternatives

/-!
# An alternative and a type that brings in nothing else
-/

theorem value_meet_of_independent (hst : Independent (Session.exactly h) s t) :
    (meet s t).value (exact h) = .both := by
  obtain ⟨hranges, r, r', rfl, rfl, hne, hne', hno⟩ := hst
  have hmeet : meetRanges s t = pure .both := by
    unfold meetRanges
    split
    · rcases hranges with hrange | hrange <;> cases hrange
    · rfl
  rw [meet, value_bind, Subtype.value_isContained, if_neg hne, value_bind,
    Subtype.value_isContained, if_neg hne', if_neg hno, hmeet, value_pure]

theorem value_narrow_of_independent {passed : List Ty}
    (hkept : ∀ k ∈ kept, Independent (Session.exactly h) k t) :
    (narrow passed t kept).value (exact h) = some (passed ++ kept ++ [t]) := by
  induction kept generalizing passed with
  | nil => simp [narrow]
  | cons k rest ih =>
      rw [List.forall_mem_cons] at hkept
      rw [narrow, value_bind, value_meet_of_independent hkept.1]
      show (narrow (passed ++ [k]) t rest).value (exact h) = _
      rw [ih hkept.2]
      simp

/-- Independent types are left as they are. -/
theorem value_narrowAll_of_independent
    (hall : (kept ++ members).Pairwise (Independent (Session.exactly h))) :
    (narrowAll kept members).value (exact h) = some (kept ++ members) := by
  induction members generalizing kept with
  | nil => simp [narrowAll]
  | cons t rest ih =>
      have hkept : ∀ k ∈ kept, Independent (Session.exactly h) k t := fun k hk =>
        (List.pairwise_append.mp hall).2.2 k hk t List.mem_cons_self
      rw [narrowAll, value_bind, value_narrow_of_independent hkept]
      show (narrowAll ([] ++ kept ++ [t]) rest).value (exact h) = _
      rw [ih (by simpa using hall)]
      simp

section Members

variable (ht : (Ty.inter others).IsProper h)
include ht

theorem nodup_of_inter : others.Nodup := by
  refine ht.formed.here.independent.imp fun {a b} hindependent heq => ?_
  exact not_independent (heq ▸ .refl a) hindependent

/-- The members of an intersection make up the intersection again, in whatever order. -/
theorem value_close_of_perm (hperm : kept.Perm others) :
    (close kept).value (exact h) = .inter others := by
  have htidy := ht.formed.here
  have htwo := htidy.two
  have hlength := hperm.length_eq
  have hsorted : Ty.sortCanonical kept = others :=
    Ty.eq_of_isCanonical (Ty.isCanonical_sortCanonical kept) htidy.sorted
      ((Ty.perm_sortCanonical kept).trans hperm)
  unfold close
  split
  · simp only [List.length_singleton] at hlength
    omega
  · rw [hsorted]
    rfl

theorem value_reduce_of_perm (hperm : kept.Perm others) :
    (reduce kept).value (exact h) = .inter others := by
  have hindependent : ([] ++ kept).Pairwise (Independent (Session.exactly h)) :=
    hperm.symm.pairwise ht.formed.here.independent fun hst => hst.symm
  rw [reduce, value_bind, value_bind, value_narrowAll_of_independent hindependent]
  exact value_close_of_perm ht hperm

end Members

/-- An alternative has itself in common with a type that brings in nothing else. -/
theorem common_of_subset (hx : x.IsAlternative h) (hc : c.IsAlternative h)
    (hsubset : ∀ m ∈ membersOf c, m = .mixed ∨ m ∈ membersOf x) : common h options x c = x := by
  have hflat : ∀ t ∈ [x, c].flatMap membersOf, t = .mixed ∨ t ∈ membersOf x := by
    intro t ht
    rcases List.mem_flatMap.mp ht with ⟨s, hs, hts⟩
    rcases List.mem_pair.mp hs with rfl | rfl
    · exact Or.inr hts
    · exact hsubset t hts
  have hmembers : ∀ t ∈ membersOf x, t ∈ [x, c].flatMap membersOf := fun t ht =>
    List.mem_flatMap.mpr ⟨x, by simp, ht⟩
  rw [common_eq hx hc]
  split
  · rename_i t hprepare
    cases prepares_of_eq hprepare with
    | error herror => exact absurd rfl (isSimple_flat (isAlternative_pair hx hc) herror).1.noError
    | never herror hnever =>
        have hmem := (hflat _ hnever).resolve_left (by simp)
        cases x with
        | inter others => exact absurd rfl (hx.proper.formed.here.isMember _ hmem).2.2.1
        | _ => exact List.mem_singleton.mp hmem
    | mixed hmixed =>
        have hall : ∀ t ∈ membersOf x, t = .mixed ∨ t = .mixed :=
          fun t ht => Or.inl (hmixed t (hmembers t ht))
        exact (or_self_iff.mp (eq_of_membersOf hx.proper.formed hall)).symm
    | single ht hopen hothers =>
        rcases eq_of_membersOf hx.proper.formed fun s hs => hothers s (hmembers s hs) with rfl | rfl
        · exact absurd (or_self_iff.mp ((hflat t ht).imp_right List.mem_singleton.mp)) hopen.2.1
        · rfl
  · rename_i kept hprepare
    cases prepares_of_eq hprepare with
    | several htwo hnodup hopen hmem =>
        have hkept : ∀ t, t ∈ kept ↔ t ∈ membersOf x ∧ t ≠ .mixed := by
          intro t
          rw [hmem]
          exact and_congr_left fun hmixed =>
            ⟨fun ht => (hflat t ht).resolve_left hmixed, hmembers t⟩
        rcases Ty.union_or_inter_or_simple x with ⟨flavor, others, rfl⟩ | ⟨others, rfl⟩ | hsimple
        · cases hx.flat
        · have hothers : others.Nodup := nodup_of_inter hx.proper
          have hmixed : ∀ t ∈ others, t ≠ .mixed := fun t ht =>
            (hx.proper.formed.here.isMember t ht).2.1
          exact value_reduce_of_perm hx.proper ((List.perm_ext_iff_of_nodup hnodup hothers).mpr
            fun t => (hkept t).trans (and_iff_left_of_imp (hmixed t)))
        · -- there is only one type to keep
          rw [membersOf_of_isSimple hsimple] at hkept
          have hsubset : kept ⊆ [x] := fun t ht => ((hkept t).mp ht).1
          have hle := (List.subperm_of_subset hnodup hsubset).length_le
          simp only [List.length_singleton] at hle
          omega

end Intersection
end GradualTypes
