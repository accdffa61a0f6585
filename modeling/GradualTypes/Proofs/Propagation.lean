import GradualTypes.Proofs.Distributivity
import GradualTypes.Traversal

/-!
# Errors, the top type and the bottom type

Three types settle a union or an intersection before any two members are compared.  An error among
the members makes the result an error, the top type makes a union the top type, and the bottom type
adds nothing to a union.

No later step makes one of the three or drops one: members that are merged become scalar types or
shapes, a shape is merged of values that are no errors, members that are absorbed leave others
behind, and the pieces of a distributed intersection are errors only if the members are.
-/

namespace GradualTypes

open Inquiry
open GradualTypes.Ty (Formed)

variable {replies : Ty -> Ty -> Tristate -> Prop} {options : Options} {members ts : List Ty}
  {limit n : Nat} {flavor : Flavor} {t u : Ty}

/-!
# Unions
-/

namespace Union

/-- The type is an error, the top type or the bottom type just if some types settle this. -/
structure IsSettledBy (ts : List Ty) (t : Ty) : Prop where
  error : t = .error ↔ .error ∈ ts
  mixed : .error ∉ ts -> (t = .mixed ↔ .mixed ∈ ts)
  never : .error ∉ ts -> (t = .never ↔ ∀ u ∈ ts, u = .never)

theorem isSettledBy_error (herror : .error ∈ ts) : IsSettledBy ts .error where
  error := iff_of_true rfl herror
  mixed := absurd herror
  never := absurd herror

theorem isSettledBy_mixed (herror : .error ∉ ts) (hmixed : .mixed ∈ ts) :
    IsSettledBy ts .mixed where
  error := iff_of_false (by simp) herror
  mixed := fun _ => iff_of_true rfl hmixed
  never := fun _ => iff_of_false (by simp) fun hall => absurd (hall _ hmixed) (by simp)

theorem isSettledBy_never (hall : ∀ u ∈ ts, u = .never) : IsSettledBy ts .never where
  error := iff_of_false (by simp) fun herror => absurd (hall _ herror) (by simp)
  mixed := fun _ => iff_of_false (by simp) fun hmixed => absurd (hall _ hmixed) (by simp)
  never := fun _ => iff_of_true rfl hall

theorem isSettledBy_open (ht : t ≠ .error ∧ t ≠ .mixed ∧ t ≠ .never) (herror : .error ∉ ts)
    (hmixed : .mixed ∉ ts) (hu : u ∈ ts) (hnever : u ≠ .never) : IsSettledBy ts t where
  error := iff_of_false ht.1 herror
  mixed := fun _ => iff_of_false ht.2.1 hmixed
  never := fun _ => iff_of_false ht.2.2 fun hall => hnever (hall u hu)

theorem isSettledBy_single (t : Ty) : IsSettledBy [t] t := by
  constructor <;> simp [eq_comm]

theorem meets_normalize_settled {combine : List Ty -> Inquiry Ty}
    (hcombine : Combines replies n combine) (hformed : ∀ m ∈ members, Formed replies m)
    (hflat : ∀ m ∈ members, m.unionMembers? = none) (hheight : ∀ m ∈ members, m.height ≤ n + 1) :
    (normalize limit combine flavor members).Meets (.building replies) (IsSettledBy members) := by
  have hnormalizes := normalizes_normalize limit combine flavor members
  generalize normalize limit combine flavor members = q at hnormalizes ⊢
  cases hnormalizes with
  | error herror => exact isSettledBy_error herror
  | mixed herror hmixed => exact isSettledBy_mixed herror hmixed
  | never hall => exact isSettledBy_never hall
  | @single t hleft =>
      have ht := (hleft.mem_iff t).mp List.mem_cons_self
      have hmember := (hleft.isReady hformed hflat).isMember t List.mem_cons_self
      exact isSettledBy_open ⟨hmember.1, hmember.2.1, hmember.2.2.1⟩ hleft.error hleft.mixed
        ht.1 ht.2
  | @several kept hleft hne =>
      obtain ⟨u, hu⟩ := List.exists_mem_of_ne_nil kept hne
      have hmem : ∀ m ∈ kept, m ∈ members ∧ m ≠ .never := fun m => (hleft.mem_iff m).mp
      refine (meets_reduce hcombine (hleft.isReady hformed hflat) hne fun m hm =>
        hheight m (hmem m hm).1).imp fun t ht => ?_
      exact isSettledBy_open ht.2.1 hleft.error hleft.mixed (hmem u hu).1 (hmem u hu).2

/-- A type that is a member of no union is among what some types bring in if it is one of them. -/
theorem mem_flatMap_iff (hformed : ∀ t ∈ ts, Formed replies t) (hflat : u.unionMembers? = none)
    (hnone : ¬ IsMember u) : u ∈ ts.flatMap membersOf ↔ u ∈ ts := by
  rw [List.mem_flatMap]
  constructor
  · rintro ⟨v, hv, hu⟩
    cases v with
    | union flavor members => exact absurd ((hformed _ hv).unionMember hu).2 hnone
    | _ => exact (List.mem_singleton.mp hu) ▸ hv
  · intro hu
    refine ⟨u, hu, ?_⟩
    cases u with
    | union flavor members => cases hflat
    | _ => exact List.mem_cons_self

/-- What settles the union of all alternatives settles that of the types themselves. -/
theorem IsSettledBy.of_flatMap (hformed : ∀ t ∈ ts, Formed replies t)
    (hu : IsSettledBy (ts.flatMap membersOf) u) : IsSettledBy ts u := by
  have herror : .error ∈ ts.flatMap membersOf ↔ .error ∈ ts :=
    mem_flatMap_iff hformed rfl (by simp [IsMember])
  have hmixed : .mixed ∈ ts.flatMap membersOf ↔ .mixed ∈ ts :=
    mem_flatMap_iff hformed rfl (by simp [IsMember])
  have hnever : (∀ m ∈ ts.flatMap membersOf, m = .never) ↔ ∀ t ∈ ts, t = .never := by
    constructor
    · intro hall t ht
      by_contra hne
      obtain ⟨m, hm, hne'⟩ := exists_mem_membersOf (hformed t ht) hne
      exact hne' (hall m (List.mem_flatMap.mpr ⟨t, ht, hm⟩))
    · intro hall m hm
      obtain ⟨t, ht, hmt⟩ := List.mem_flatMap.mp hm
      rw [hall t ht] at hmt
      exact List.mem_singleton.mp hmt
  refine ⟨hu.error.trans herror, fun hnone => ?_, fun hnone => ?_⟩
  · exact (hu.mixed (mt herror.mp hnone)).trans hmixed
  · exact (hu.never (mt herror.mp hnone)).trans hnever

theorem meets_upTo_settled (hne : ts ≠ []) (hformed : ∀ t ∈ ts, Formed replies t)
    (hheight : ∀ t ∈ ts, t.height ≤ n) :
    (upTo limit n ts).Meets (.building replies) (IsSettledBy ts) := by
  have hunites := unites_upTo limit hheight
  generalize upTo limit n ts = q at hunites ⊢
  cases hunites with
  | empty n => exact absurd rfl hne
  | single n t => exact isSettledBy_single t
  | @several n ts hmany _ =>
      have hmem := fun m (hm : m ∈ ts.flatMap membersOf) =>
        exists_of_mem_flatMap hformed hheight hm
      exact (meets_normalize_settled (combines_upTo limit n) (fun m hm => (hmem m hm).1)
        (fun m hm => (hmem m hm).2.1) fun m hm => (hmem m hm).2.2.1).imp
          fun _ hv => hv.of_flatMap hformed

theorem meets_of_settled (hne : ts ≠ []) (hformed : ∀ t ∈ ts, Formed replies t) :
    (of options ts).Meets (.building replies) (IsSettledBy ts) :=
  meets_upTo_settled hne hformed fun _ ht => Ty.height_le_heights ht

/-- A union is an error if it has no members or an error among them. -/
theorem meets_of_error (hformed : ∀ t ∈ ts, Formed replies t) :
    (of options ts).Meets (.building replies) fun t => t = .error ↔ ts = [] ∨ .error ∈ ts := by
  by_cases hnil : ts = []
  · subst hnil
    exact iff_of_true rfl (Or.inl rfl)
  · exact (meets_of_settled hnil hformed).imp fun t ht =>
      ht.error.trans ⟨Or.inr, fun hcase => hcase.resolve_left hnil⟩

theorem meets_benevolentOf_open (hne : ts ≠ []) (hformed : ∀ t ∈ ts, Formed replies t)
    (herror : .error ∉ ts) : (benevolentOf options ts).Meets (.free replies) (· ≠ .error) := by
  refine (meets_of_settled hne hformed).free.bind fun t ht => ?_
  unfold Build.markBenevolent
  split
  · exact ⟨trivial, by simp⟩
  · exact mt ht.error.mp herror

end Union

/-!
# Intersections
-/

namespace Intersection

theorem meets_reduce_open {kept : List Ty} (herror : .error ∉ kept) :
    (reduce kept).Meets (.free replies) (· ≠ .error) := by
  refine (meets_reduce_from replies kept).imp fun t ht => ?_
  rcases ht with (hmem | hscalar) | ⟨left, rfl, -⟩
  · rintro rfl
    exact herror hmem
  · rintro rfl
    cases hscalar
  · simp

theorem meets_gather_open {parts : List Ty} (hne : parts ≠ [])
    (hformed : ∀ t ∈ parts, Formed replies t) (herror : .error ∉ parts) :
    (gather options flavor parts).Meets (.free replies) (· ≠ .error) := by
  cases flavor with
  | plain =>
      exact (Union.meets_of_settled hne hformed).free.imp fun t ht => mt ht.error.mp herror
  | benevolent => exact Union.meets_benevolentOf_open hne hformed herror

/-- No member of an intersection is an error. -/
theorem error_mem_flatMap_iff (hformed : ∀ m ∈ members, Formed replies m) :
    .error ∈ members.flatMap membersOf ↔ .error ∈ members := by
  rw [List.mem_flatMap]
  constructor
  · rintro ⟨m, hm, herror⟩
    cases m with
    | inter others => exact absurd rfl ((hformed _ hm).here.isMember _ herror).1
    | _ => exact (List.mem_singleton.mp herror) ▸ hm
  · exact fun hmem => ⟨.error, hmem, List.mem_cons_self⟩

/-- Types that are settled at once are an error if there is one among them. -/
theorem eq_error_iff_of_prepares (hprepares : Prepares members (.inl t)) :
    t = .error ↔ .error ∈ members.flatMap membersOf := by
  cases hprepares with
  | error hmem => exact iff_of_true rfl hmem
  | never hnone _ => exact iff_of_false (by simp) hnone
  | mixed hall => exact iff_of_false (by simp) fun hmem => absurd (hall _ hmem) (by simp)
  | single _ hopen hothers =>
      refine iff_of_false hopen.1 fun hmem => ?_
      rcases hothers _ hmem with heq | heq
      · cases heq
      · exact hopen.1 heq.symm

/-- There is no error among types that are left to be compared. -/
theorem error_not_mem_of_prepares {kept : List Ty} (hprepares : Prepares members (.inr kept)) :
    .error ∉ members.flatMap membersOf ∧ .error ∉ kept := by
  cases hprepares with
  | several _ _ hopen hmem =>
      have hkept : .error ∉ kept := fun herror => (hopen _ herror).1 rfl
      exact ⟨fun herror => hkept ((hmem _).mpr ⟨herror, by simp⟩), hkept⟩

/-- No piece of an intersection that is distributed has an error among its members. -/
theorem error_not_mem_piece {kept alternatives rest : List Ty}
    (hkept : ∀ m ∈ kept, Formed replies m) (hnone : .error ∉ kept)
    (hdistribute : toDistribute? limit kept = some (flavor, alternatives, rest))
    (ht : t ∈ alternatives) : .error ∉ rest ++ [t] := by
  obtain ⟨hunion, hrest⟩ := mem_of_firstUnion? (firstUnion?_of_toDistribute? hdistribute)
  rw [List.mem_append, List.mem_singleton]
  rintro (hmem | heq)
  · exact hnone (hrest _ hmem)
  · exact ((hkept _ hunion).unionMember ht).2.1 heq.symm

/-- An intersection is an error if there is one among its members. -/
theorem meets_of_error (hformed : ∀ m ∈ members, Formed replies m) :
    (of options members).Meets (.free replies) fun t => t = .error ↔ .error ∈ members := by
  have hintersects := intersects_of options members
  generalize of options members = q at hintersects ⊢
  induction hintersects with
  | empty => exact iff_of_false (by simp) List.not_mem_nil
  | single t =>
      show t = .error ↔ .error ∈ [t]
      rw [List.mem_singleton, eq_comm]
  | settled hmany hprepare =>
      exact (eq_error_iff_of_prepares (prepares_of_eq hprepare)).trans
        (error_mem_flatMap_iff hformed)
  | compared hmany hprepare hdistribute =>
      obtain ⟨hnone, hkept⟩ := error_not_mem_of_prepares (prepares_of_eq hprepare)
      rw [error_mem_flatMap_iff hformed] at hnone
      exact (meets_reduce_open hkept).imp fun t ht => iff_of_false ht hnone
  | @distributed members kept alternatives rest flavor hmany hprepare hdistribute _ ih =>
      obtain ⟨hnone, hkept⟩ := error_not_mem_of_prepares (prepares_of_eq hprepare)
      rw [error_mem_flatMap_iff hformed] at hnone
      have hready := prepare_spec hformed
      rw [hprepare] at hready
      have hparts : ∀ m ∈ kept, Formed replies m := fun m hm => (hready.2 m hm).1
      obtain ⟨hunion, -⟩ := mem_of_firstUnion? (firstUnion?_of_toDistribute? hdistribute)
      have htwo := (hparts _ hunion).here.1.two
      have hpart : ∀ t ∈ alternatives, (of options (rest ++ [t])).Meets (.free replies)
          fun part => Formed replies part ∧ part ≠ .error := by
        intro t ht
        have hpiece := formed_piece hready.2 hdistribute ht
        have hopen := error_not_mem_piece hparts hkept hdistribute ht
        exact (meets_of hpiece).and_free ((ih t ht hpiece).imp fun _ hpart => mt hpart.mp hopen)
      refine ((meets_mapM hpart).and (meets_mapM_all hpart) fun _ _ _ => id).bind ?_
      rintro parts ⟨hparts, hall⟩
      have hlength := hparts.length_eq
      exact (meets_gather_open (List.ne_nil_of_length_pos (by omega)) (fun t ht => (hall t ht).1)
        fun hmem => (hall _ hmem).2 rfl).imp fun t ht => iff_of_false ht hnone

end Intersection

/-!
# Unions of results
-/

/-- Of a plain union one failure makes the whole fail, of a benevolent one the failure of all
members. -/
theorem Traversal.meets_mapUnion_error {g : Ty -> Ty} (hne : members ≠ [])
    (hformed : ∀ m ∈ members, Formed replies (g m)) :
    (mapUnion options (fun m => (pure (g m) : Inquiry Ty)) (.union flavor members)).Meets
      (.building replies) fun t => t = .error ↔
        match flavor with
        | .plain => ∃ m ∈ members, g m = .error
        | .benevolent => ∀ m ∈ members, g m = .error := by
  have hresults : ∀ t ∈ members.map g, Formed replies t := List.forall_mem_map.mpr hformed
  have hne' : members.map g ≠ [] := by simpa using hne
  rw [mapUnion_pure]
  cases flavor with
  | plain => exact (Union.meets_of_settled hne' hresults).imp fun t ht => ht.error.trans List.mem_map
  | benevolent =>
      refine (Union.meets_of_error fun t ht => hresults t (List.mem_filter.mp ht).1).imp
        fun t ht => ht.trans ?_
      simp [List.filter_eq_nil_iff]

namespace Session

variable {h : Hierarchy} {options₁ options₂ made : Options} {σ : Session} {xs : List Ty}

/-- A union is an error if it has no members or an error among them; otherwise it is the top type if
that is a member, and the bottom type if all members are.  An intersection is an error if it has one
among its members.  So what an operation makes of a plain union is an error if it fails for some
member, and of a benevolent union if it fails for every member. -/
theorem errors_propagate (hσ : Reachable h options₁ σ) (hxs : ∀ t ∈ xs, Built h options₂ t)
    (made : Options) :
    let u := (σ.perform (Union.of made xs)).1
    let i := (σ.perform (Intersection.of made xs)).1
    (u = .error ↔ xs = [] ∨ .error ∈ xs) ∧
      (u ≠ .error -> (u = .mixed ↔ .mixed ∈ xs) ∧ (u = .never ↔ ∀ t ∈ xs, t = .never)) ∧
      (i = .error ↔ .error ∈ xs) ∧
      ∀ (flavor : Flavor) (members : List Ty) (g : Ty -> Ty),
        Built h options₂ (.union flavor members) -> (∀ m ∈ members, Built h options₂ (g m)) ->
        ((σ.perform (Traversal.mapUnion made (fun m => (pure (g m) : Inquiry Ty))
            (.union flavor members))).1 = .error ↔
          match flavor with
          | .plain => ∃ m ∈ members, g m = .error
          | .benevolent => ∀ m ∈ members, g m = .error) := by
  intro u i
  have hformed : ∀ t ∈ xs, Formed (Run.soundly h) t := fun t ht => (hxs t ht).formed
  have herror : u = .error ↔ xs = [] ∨ .error ∈ xs := hσ.meets (Union.meets_of_error hformed).free
  refine ⟨herror, fun hopen => ?_, hσ.meets (Intersection.meets_of_error hformed), ?_⟩
  · rw [Ne, herror, not_or] at hopen
    have hsettled : Union.IsSettledBy xs u := hσ.meets (Union.meets_of_settled hopen.1 hformed).free
    exact ⟨hsettled.mixed hopen.2, hsettled.never hopen.2⟩
  · intro flavor members g hunion hg
    have htwo := hunion.formed.here.1.two
    exact hσ.meets (Traversal.meets_mapUnion_error (List.ne_nil_of_length_pos (by omega))
      fun m hm => (hg m hm).formed).free

/-- The bottom type, two shapes that are merged and a union that becomes an error in part. -/
theorem errors_propagate_shapes :
    let σ := new .empty .default
    let one := Ty.shape [⟨.text "a", .literal (.int 1), false⟩]
    let two := Ty.shape [⟨.text "a", .literal (.int 2), false⟩]
    let members := [.int, .string]
    let g (m : Ty) : Ty := if m = .int then .error else .never
    let mapped (flavor : Flavor) := Traversal.mapUnion .default (fun m => (pure (g m) : Inquiry Ty))
      (.union flavor members)
    ((σ.perform (Union.of .default [.never, one, two])).1 ≠ .error ∧
        (σ.perform (Union.of .default [.never, one, two])).1 ≠ .never) ∧
      (σ.perform (Intersection.of .default [.never, one, two])).1 ≠ .error ∧
      (σ.perform (mapped .plain)).1 = .error ∧ (σ.perform (mapped .benevolent)).1 ≠ .error := by
  intro σ one two members g mapped
  have hgiven : Call.results? .empty .default [] [.error, .keyword .never, .keyword .int,
      .keyword .string, .union members, .benevolent members, .int 1, .int 2,
      .shape [⟨.text "a", .literal (.int 1), false⟩],
      .shape [⟨.text "a", .literal (.int 2), false⟩]] =
        some [two, one, .literal (.int 2), .literal (.int 1), .union .benevolent members,
          .union .plain members, .string, .int, .never, .error] := by decide +kernel
  have hbuilt : ∀ t, t ∈ [two, one, .literal (.int 2), .literal (.int 1),
      .union .benevolent members, .union .plain members, .string, .int, .never, .error] ->
        Built .empty .default t := fun t ht =>
    (ConstructedWithin.of_calls (by simp) hgiven t ht).built
  have hmembers : ∀ t ∈ [.never, one, two], Built .empty .default t := by
    simp only [List.forall_mem_cons, List.not_mem_nil, false_imp_iff, implies_true, and_true]
    exact ⟨hbuilt _ (by simp), hbuilt _ (by simp), hbuilt _ (by simp)⟩
  have hg : ∀ m ∈ members, Built .empty .default (g m) := by
    simp only [members, List.forall_mem_cons, List.not_mem_nil, false_imp_iff, implies_true,
      and_true]
    exact ⟨hbuilt _ (by simp [g]), hbuilt _ (by simp [g])⟩
  obtain ⟨herror, hopen, hinter, hmapped⟩ := errors_propagate .new hmembers .default
  have hne := mt herror.mp (by simp [one, two])
  refine ⟨⟨hne, mt (hopen hne).2.mp (by simp [one])⟩, mt hinter.mp (by simp [one, two]), ?_, ?_⟩
  · exact (hmapped .plain members g (hbuilt _ (by simp)) hg).mpr ⟨.int, by simp [members], rfl⟩
  · refine mt (hmapped .benevolent members g (hbuilt _ (by simp)) hg).mp fun hall => ?_
    exact absurd (hall .string (by simp [members])) (by decide)

end Session
end GradualTypes
