import GradualTypes.Proofs.Announcements
import GradualTypes.Proofs.Distribution

/-!
# The pieces of an intersection

What the last calls of a distribution return are the pieces of the intersection.  Each
piece lies below all members, and the intersection is the union of the pieces.

That union is below the members as well, unless it loses something.  It does where
shapes with the same keys are merged, so two pieces that are such shapes have to be
comparable.
-/

namespace GradualTypes
namespace Intersection

open Inquiry
open GradualTypes.Subtype (Certain Contained contained_iff exact isContainment_contained)
open GradualTypes.Ty (Formed)

variable {h : Hierarchy} {options : Options} {members kept rest alternatives : List Ty}
  {flavor : Flavor} {r s t : Ty}

/-!
# Below the kept members and below all members
-/

/-- What is below all members of an intersection is below the intersection. -/
theorem contained_inter (hfinal : h.LeavesClosureFinal) {others : List Ty}
    (hr : Formed (Session.exactly h) r) (hrcomplete : Ty.IsComplete r)
    (ht : Formed (Session.exactly h) (.inter others)) (htcomplete : Ty.IsComplete (.inter others))
    (hbelow : ∀ m ∈ others, Contained h r m) : Contained h r (.inter others) := by
  have hR := isContainment_contained hfinal
  by_cases hnever : r = .never
  · exact hnever ▸ (Certain.never rfl).contained
  have hordinary : r.isOrdinary = true := by
    have htwo := ht.here.two
    rcases List.exists_mem_of_length_pos (show 0 < others.length by omega) with ⟨m, hm⟩
    have hm' := isOrdinary_of_isMember (ht.inside hm) (htcomplete.inside hm) (ht.here.isMember m hm)
    rcases contained_iff.mp (hbelow m hm) with rfl | hcertain
    · exact hm'
    · exact hcertain.isOrdinary_source hnever (ht.here.isMember m hm).2.1
  by_cases hunion : r.unionMembers? = none
  · exact (Certain.inter_right hordinary hunion hbelow).contained
  · cases r with
    | union flavor members =>
        have htwo := hr.here.1.two
        refine hR.union_left rfl rfl (by simp) (List.ne_nil_of_length_pos (by omega)) fun a ha => ?_
        have ha' := hr.unionMember ha
        have hordinary' := Union.isOrdinary_of_isMember ha'.1 (hrcomplete.inside ha) ha'.2
        have hflat := ha'.2.2.2.2
        refine (Certain.inter_right hordinary' hflat fun m hm => ?_).contained
        have habove : Contained h a (.union flavor members) :=
          hR.union_right hordinary' hflat ha (.refl a)
        exact habove.trans hfinal ha'.1.hasDistinctKeys (hbelow m hm)
    | _ => exact absurd rfl hunion

/-- A type all alternatives of which are below an operand is below it. -/
theorem contained_of_alternatives (hfinal : h.LeavesClosureFinal)
    (hr : Formed (Session.exactly h) r) (ht : IsOperand h t)
    (hall : ∀ a ∈ Union.membersOf r, Contained h a t) : Contained h r t := by
  cases r with
  | union flavor members =>
      have htwo := hr.here.1.two
      rcases ht.isMember with ⟨herror, -, hnever, -⟩
      have hmissing : t.isMissing = false := by
        have hplaceholder := ht.complete.here
        cases t <;> first | rfl | exact absurd rfl herror | exact absurd rfl hplaceholder
      exact (isContainment_contained hfinal).union_left ht.formed.isUnknown hmissing hnever
        (List.ne_nil_of_length_pos (by omega)) hall
  | _ => exact hall _ List.mem_cons_self

theorem IsDistributable.below (hfinal : h.LeavesClosureFinal)
    (hmembers : IsDistributable h options members) (hprepare : prepare members = .inr kept)
    (hr : Formed (Session.exactly h) r) (hcomplete : Ty.IsComplete r)
    (hbelow : ∀ k ∈ kept, Contained h r k) : ∀ m ∈ members, Contained h r m := by
  cases prepares_of_eq hprepare with
  | several htwo hnodup hopen hmem =>
      intro m hm
      have hflat : ∀ t ∈ membersOf m, t ≠ .mixed -> Contained h r t := fun t ht hmixed =>
        hbelow t ((hmem t).mpr ⟨List.mem_flatMap.mpr ⟨m, hm, ht⟩, hmixed⟩)
      rcases hmembers.proper m hm with ⟨hformed, hmcomplete⟩
      cases m with
      | inter others =>
          exact contained_inter hfinal hr hcomplete hformed hmcomplete fun t ht =>
            hflat t ht (hformed.here.isMember t ht).2.1
      | keyword k =>
          by_cases hmixed : k = .mixed
          · subst hmixed
            exact (Certain.mixed hr.isUnknown).contained
          · exact hflat _ List.mem_cons_self fun heq => hmixed (Ty.keyword.inj heq)
      | _ => exact hflat _ List.mem_cons_self (by simp)

/-- A formed type that brings in one type only, apart from `mixed`, is that type. -/
theorem eq_of_membersOf (ht : Formed (Session.exactly h) t)
    (hall : ∀ s ∈ membersOf t, s = .mixed ∨ s = r) : t = .mixed ∨ t = r := by
  cases t with
  | inter others =>
      exfalso
      have hsame : ∀ s ∈ others, s = r :=
        fun s hs => (hall s hs).resolve_left (ht.here.isMember s hs).2.1
      have htwo := ht.here.two
      obtain ⟨s, hs⟩ := List.exists_mem_of_length_pos (show 0 < others.length by omega)
      obtain ⟨s', hs', hindependent⟩ := ht.here.exists_independent hs
      rw [hsame s hs, hsame s' hs'] at hindependent
      exact not_independent (.refl r) hindependent
  | _ => exact hall _ List.mem_cons_self

/-- If nothing is left to compare, the result is below all members. -/
theorem IsDistributable.below_of_settled (hmembers : IsDistributable h options members)
    (hprepare : prepare members = .inl r) : ∀ m ∈ members, Contained h r m := by
  intro m hm
  have hformed := (hmembers.proper m hm).1
  have hflat : ∀ t ∈ membersOf m, t ∈ members.flatMap membersOf :=
    fun t ht => List.mem_flatMap.mpr ⟨m, hm, ht⟩
  cases prepares_of_eq hprepare with
  | error herror => exact absurd rfl (hmembers.flat _ herror).2.2.1
  | never herror hnever => exact (Certain.never hformed.isUnknown).contained
  | mixed hmixed =>
      have hall : ∀ t ∈ membersOf m, t = .mixed ∨ t = .mixed :=
        fun t ht => Or.inl (hmixed t (hflat t ht))
      rw [or_self_iff.mp (eq_of_membersOf hformed hall)]
      exact .refl _
  | single hr hopen hothers =>
      rcases eq_of_membersOf hformed fun t ht => hothers t (hflat t ht) with rfl | rfl
      · exact (Certain.mixed (hmembers.flat r hr).1.isUnknown).contained
      · exact .refl _

/-!
# Pieces
-/

/-- The results of the calls by which the intersection of some types is distributed, and
which are not distributed any further. -/
inductive IsPiece (h : Hierarchy) (options : Options) : List Ty -> Ty -> Prop where
  | whole {members : List Ty} :
      (∀ kept, prepare members = .inr kept ->
        toDistribute? options.maxIntersectionDistribution kept = none) ->
      IsPiece h options members ((of options members).value (exact h))
  | part {members kept alternatives rest : List Ty} {flavor : Flavor} {t piece : Ty} :
      prepare members = .inr kept ->
      toDistribute? options.maxIntersectionDistribution kept = some (flavor, alternatives, rest) ->
      t ∈ alternatives ->
      IsPiece h options (rest ++ [t]) piece ->
      IsPiece h options members piece

/-- Types that bring in no union have one piece. -/
theorem IsPiece.eq_value (ht : IsPiece h options members t)
    (hflat : ∀ s ∈ members.flatMap membersOf, s.unionMembers? = none) :
    t = (of options members).value (exact h) := by
  cases ht with
  | whole _ => rfl
  | part hprepare hdistribute hs hpiece =>
      have hmem := (mem_of_firstUnion? (firstUnion?_of_toDistribute? hdistribute)).1
      cases prepares_of_eq hprepare with
      | several htwo hnodup hopen hkept => cases hflat _ ((hkept _).mp hmem).1

/-- The pieces of a call that is distributed are those of its parts. -/
theorem IsPiece.exists_part (ht : IsPiece h options members t)
    (hprepare : prepare members = .inr kept)
    (hdistribute : toDistribute? options.maxIntersectionDistribution kept =
      some (flavor, alternatives, rest)) :
    ∃ s ∈ alternatives, IsPiece h options (rest ++ [s]) t := by
  cases ht with
  | whole hwhole =>
      rw [hwhole _ hprepare] at hdistribute
      cases hdistribute
  | part hprepare' hdistribute' hs hpiece =>
      rw [hprepare] at hprepare'
      cases hprepare'
      rw [hdistribute] at hdistribute'
      cases hdistribute'
      exact ⟨_, hs, hpiece⟩

/-- Of two pieces that are shapes with the same keys, one contains the other. -/
def HasComparablePieces (h : Hierarchy) (options : Options) (members : List Ty) : Prop :=
  ∀ e f, IsPiece h options members (.shape e) -> IsPiece h options members (.shape f) ->
    (Shape.keys e).Perm (Shape.keys f) ->
    Contained h (.shape e) (.shape f) ∨ Contained h (.shape f) (.shape e)

theorem hasComparableShapes_of_contained
    (hshapes : ∀ e f, Ty.shape e ∈ members -> Ty.shape f ∈ members ->
      (Shape.keys e).Perm (Shape.keys f) ->
      Contained h (.shape e) (.shape f) ∨ Contained h (.shape f) (.shape e)) :
    Union.HasComparableShapes (Session.exactly h) members := by
  rintro e f he hf hperm - ⟨hef, hfe⟩
  rcases hef rfl with ⟨r, hr, hne⟩
  rcases hfe rfl with ⟨r', hr', hne'⟩
  rcases hshapes e f he hf hperm with hbelow | hbelow
  · exact hne (hr.trans hbelow)
  · exact hne' (hr'.trans hbelow)

theorem meets_gather_kept {T : Ty -> Prop} {replies : Ty -> Ty -> Tristate -> Prop}
    (hT : Union.IsKept T) {parts : List Ty} (hne : parts ≠ [])
    (hformed : ∀ t ∈ parts, Formed replies t)
    (hshapes : Union.HasComparableShapes replies (parts.flatMap Union.membersOf))
    (hall : ∀ m ∈ parts.flatMap Union.membersOf, T m) :
    (gather options flavor parts).Meets (.free replies) fun t => ∀ m ∈ Union.membersOf t, T m := by
  cases flavor with
  | plain => exact Union.meets_of_kept hT hne hformed hshapes hall
  | benevolent => exact Union.meets_benevolentOf_kept hT hne hformed hshapes hall

/-- What is known of the result of an intersection: it is below all members, and the
shapes among its alternatives are pieces unless the result was settled at once. -/
structure IsLower (h : Hierarchy) (options : Options) (members : List Ty) (r : Ty) : Prop where
  below : ∀ m ∈ members, Contained h r m
  shapes : 2 ≤ members.length ->
    (∀ t, prepare members = .inl t -> t.unionMembers? = none) ->
    ∀ e, .shape e ∈ Union.membersOf r -> IsPiece h options members (.shape e)

/-- The call is not distributed: its result is the only piece. -/
theorem IsPiece.of_mem (hwhole : ∀ kept, prepare members = .inr kept ->
      toDistribute? options.maxIntersectionDistribution kept = none)
    (hr : (of options members).value (exact h) = r) (hunion : r.unionMembers? = none)
    (ht : t ∈ Union.membersOf r) : IsPiece h options members t := by
  rw [Union.membersOf_of_flat hunion] at ht
  rw [List.mem_singleton.mp ht, ← hr]
  exact .whole hwhole

theorem isLower_of_settled (hmembers : IsDistributable h options members)
    (hprepare : prepare members = .inl r) (hr : (of options members).value (exact h) = r) :
    IsLower h options members r where
  below := hmembers.below_of_settled hprepare
  shapes := fun _ hflat e he => by
    refine .of_mem (fun kept hkept => ?_) hr (hflat r hprepare) he
    rw [hprepare] at hkept
    cases hkept

/-- Members that are compared as they are. -/
theorem isLower_of_compared (hfinal : h.LeavesClosureFinal)
    (hmembers : IsDistributable h options members) (hprepare : prepare members = .inr kept)
    (hdistribute : toDistribute? options.maxIntersectionDistribution kept = none)
    (hof : of options members = reduce kept) :
    IsLower h options members ((reduce kept).value (exact h)) := by
  have hoperand := hmembers.isOperand hprepare
  have hproper : ∀ k ∈ kept, Formed (Session.exactly h) k ∧ Ty.IsComplete k :=
    fun k hk => ⟨(hoperand k hk).formed, (hoperand k hk).complete⟩
  have hsimple : ∀ k ∈ kept, k.isSimple = true := by
    intro k hk
    rcases Ty.union_or_inter_or_simple k with ⟨flavor, others, rfl⟩ | ⟨others, rfl⟩ | hk'
    · have hmany := lt_pieces_of_mem hk hdistribute
      exact absurd (hmembers.few kept hprepare) (Nat.not_le.mpr hmany)
    · exact absurd rfl ((hoperand _ hk).isMember.2.2.2 others)
    · exact hk'
  have hvalue := hmembers.proper_value
  rw [hof] at hvalue
  have hbelow := (meets_reduce_below (isContainment_contained hfinal)
    (fun s t (hr : _ = exact h s t) => hr.symm) hproper).value fun _ _ _ => rfl
  constructor
  · refine hmembers.below hfinal hprepare hvalue.1 hvalue.2 fun k hk => ?_
    exact hbelow.below k hk (hsimple k hk) (hoperand k hk).isOrdinary
  · intro _ _ e he
    refine .of_mem (fun kept' hkept' => ?_) (by rw [hof]) ?_ he
    · rw [hprepare] at hkept'
      cases hkept'
      exact hdistribute
    · have hfrom := (meets_reduce_from (Session.exactly h) kept).value fun _ _ _ => rfl
      rcases hfrom with (hmem | hmem) | ⟨left, heq, -⟩
      · exact Ty.unionMembers?_of_isSimple (hsimple _ hmem)
      · exact Ty.unionMembers?_of_isSimple (Ty.isSimple_of_isScalar hmem)
      · rw [heq]
        rfl

theorem contained_of_mem_membersOf (hr : Formed (Session.exactly h) r)
    (hcomplete : Ty.IsComplete r) (hs : s ∈ Union.membersOf r) :
    Ty.Everywhere Ty.HasDistinctKeys s ∧ Contained h s r := by
  cases r with
  | union flavor members =>
      have hs' := hr.unionMember hs
      have hordinary := Union.isOrdinary_of_isMember hs'.1 (hcomplete.inside hs) hs'.2
      refine ⟨hs'.1.hasDistinctKeys, ?_⟩
      exact (Certain.union_right hordinary hs'.2.2.2.2 hs (.refl s)).contained
  | _ =>
      rcases List.mem_singleton.mp hs with rfl
      exact ⟨hr.hasDistinctKeys, .refl _⟩

section Distributed

variable (hfinal : h.LeavesClosureFinal) (hmembers : IsDistributable h options members)
  (hprepare : prepare members = .inr kept)
include hfinal hmembers hprepare

/-- What is below an alternative and the other types is below all kept types. -/
theorem below_kept (hfirst : firstUnion? kept = some (flavor, alternatives, rest))
    (ht : t ∈ alternatives) (hr : Ty.Everywhere Ty.HasDistinctKeys r)
    (hbelow : ∀ m ∈ rest ++ [t], Contained h r m) : ∀ k ∈ kept, Contained h r k := by
  rcases hmembers.alternative hprepare hfirst ht with ⟨-, -, hordinary, hflat, -⟩
  intro k hk
  rcases List.mem_cons.mp ((perm_of_firstUnion? hfirst).mem_iff.mp hk) with rfl | hk
  · have hrt : Contained h r t := hbelow t (by simp)
    have habove : Contained h t (.union flavor alternatives) :=
      (Certain.union_right hordinary hflat ht (.refl t)).contained
    exact hrt.trans hfinal hr habove
  · exact hbelow k (List.mem_append_left _ hk)

/-- The union of parts that are below all kept types is below them, and no shape is new
in it, if shapes with the same keys among the parts are comparable. -/
theorem gather_below {P : List (Entry Ty) -> Prop} {parts : List Ty} (hne : parts ≠ [])
    (hproper : ∀ p ∈ parts, Formed (Session.exactly h) p ∧ Ty.IsComplete p)
    (hbelow : ∀ p ∈ parts, ∀ k ∈ kept, Contained h p k)
    (hshapes : ∀ p ∈ parts, ∀ e, .shape e ∈ Union.membersOf p -> P e)
    (hcomparable : ∀ e f, P e -> P f -> (Shape.keys e).Perm (Shape.keys f) ->
      Contained h (.shape e) (.shape f) ∨ Contained h (.shape f) (.shape e)) :
    (∀ k ∈ kept, Contained h ((gather options flavor parts).value (exact h)) k) ∧
      ∀ e, .shape e ∈ Union.membersOf ((gather options flavor parts).value (exact h)) -> P e := by
  have hoperand := hmembers.isOperand hprepare
  have hformed : ∀ p ∈ parts, Formed (Session.exactly h) p := fun p hp => (hproper p hp).1
  have hkept := isKept_below_all hoperand P
  have hflat : ∀ e, .shape e ∈ parts.flatMap Union.membersOf -> P e := by
    intro e he
    rcases List.mem_flatMap.mp he with ⟨p, hp, hep⟩
    exact hshapes p hp e hep
  have hall : ∀ x ∈ parts.flatMap Union.membersOf,
      (∀ k ∈ kept, Contained h x k) ∧ ∀ e, x = .shape e -> P e := by
    intro x hx
    rcases List.mem_flatMap.mp hx with ⟨p, hp, hxp⟩
    rcases contained_of_mem_membersOf (hproper p hp).1 (hproper p hp).2 hxp with ⟨hkeys, hxp'⟩
    refine ⟨fun k hk => hxp'.trans hfinal hkeys (hbelow p hp k hk), ?_⟩
    rintro e rfl
    exact hflat e hx
  have hshapes' : Union.HasComparableShapes (Session.exactly h) (parts.flatMap Union.membersOf) :=
    hasComparableShapes_of_contained fun e f he hf => hcomparable e f (hflat e he) (hflat f hf)
  have hresult : ∀ x ∈ Union.membersOf ((gather options flavor parts).value (exact h)),
      (∀ k ∈ kept, Contained h x k) ∧ ∀ e, x = .shape e -> P e :=
    (meets_gather_kept hkept hne hformed hshapes' hall).value fun _ _ _ => rfl
  have hgathered : Formed (Session.exactly h) ((gather options flavor parts).value (exact h)) :=
    (meets_gather hformed).value fun _ _ _ => rfl
  constructor
  · intro k hk
    exact contained_of_alternatives hfinal hgathered (hoperand k hk) fun x hx =>
      (hresult x hx).1 k hk
  · exact fun e he => (hresult _ he).2 e rfl

end Distributed

/-- Members that are distributed over a union, given the same for each alternative. -/
theorem isLower_of_distributed (hfinal : h.LeavesClosureFinal)
    (hmembers : IsDistributable h options members) (hprepare : prepare members = .inr kept)
    (hdistribute : toDistribute? options.maxIntersectionDistribution kept =
      some (flavor, alternatives, rest))
    (hpieces : HasComparablePieces h options members)
    (hof : of options members =
      (alternatives.mapM fun t => of options (rest ++ [t])) >>= gather options flavor)
    (hpart : ∀ t ∈ alternatives,
      IsLower h options (rest ++ [t]) ((of options (rest ++ [t])).value (exact h))) :
    IsLower h options members ((of options members).value (exact h)) := by
  have hfirst := firstUnion?_of_toDistribute? hdistribute
  have hproper : ∀ t ∈ alternatives,
      Formed (Session.exactly h) ((of options (rest ++ [t])).value (exact h)) ∧
        Ty.IsComplete ((of options (rest ++ [t])).value (exact h)) :=
    fun t ht => (hmembers.piece hprepare hfirst ht).proper_value
  have hbelow : ∀ t ∈ alternatives, ∀ k ∈ kept,
      Contained h ((of options (rest ++ [t])).value (exact h)) k := fun t ht =>
    below_kept hfinal hmembers hprepare hfirst ht (hproper t ht).1.hasDistinctKeys
      (hpart t ht).below
  have hshapes : ∀ t ∈ alternatives, ∀ e,
      .shape e ∈ Union.membersOf ((of options (rest ++ [t])).value (exact h)) ->
      IsPiece h options members (.shape e) := by
    intro t ht e he
    refine .part hprepare hdistribute ht ?_
    exact (hpart t ht).shapes (two_le_length_piece hprepare hfirst t)
      (fun u => hmembers.unionMembers?_of_settled hprepare hfirst ht) e he
  have hne : alternatives ≠ [] := by
    have hunion := hmembers.isOperand hprepare _ (mem_of_firstUnion? hfirst).1
    have htwo := hunion.formed.here.1.two
    exact List.ne_nil_of_length_pos (by omega)
  have hvalue : (of options members).value (exact h) = (gather options flavor
      (alternatives.map fun t => (of options (rest ++ [t])).value (exact h))).value (exact h) := by
    rw [hof, value_bind, value_mapM]
  have hgathered : (∀ k ∈ kept, Contained h ((of options members).value (exact h)) k) ∧
      ∀ e, .shape e ∈ Union.membersOf ((of options members).value (exact h)) ->
        IsPiece h options members (.shape e) := by
    rw [hvalue]
    exact gather_below hfinal hmembers hprepare (mt List.map_eq_nil_iff.mp hne)
      (List.forall_mem_map.mpr hproper) (List.forall_mem_map.mpr hbelow)
      (List.forall_mem_map.mpr hshapes) hpieces
  rcases hmembers.proper_value with ⟨hformed, hcomplete⟩
  constructor
  · exact hmembers.below hfinal hprepare hformed hcomplete hgathered.1
  · exact fun _ _ => hgathered.2

/-- The result of an intersection that is distributed completely is below all members,
if the pieces are comparable. -/
theorem isLower (hfinal : h.LeavesClosureFinal) (hmembers : IsDistributable h options members)
    (hpieces : HasComparablePieces h options members) :
    IsLower h options members ((of options members).value (exact h)) := by
  have hintersects := intersects_of options members
  generalize hof : of options members = q at hintersects ⊢
  induction hintersects with
  | empty => exact ⟨by simp, by simp⟩
  | single t => exact ⟨List.forall_mem_singleton.mpr (.refl t), by simp⟩
  | settled hmany hprepare =>
      exact isLower_of_settled hmembers hprepare (congrArg (·.value (exact h)) hof)
  | compared hmany hprepare hdistribute =>
      exact isLower_of_compared hfinal hmembers hprepare hdistribute hof
  | distributed hmany hprepare hdistribute _ ih =>
      have hfirst := firstUnion?_of_toDistribute? hdistribute
      rw [← hof]
      refine isLower_of_distributed hfinal hmembers hprepare hdistribute hpieces hof fun t ht => ?_
      refine ih t ht (hmembers.piece hprepare hfirst ht) (fun e f he hf => ?_) rfl
      exact hpieces e f (.part hprepare hdistribute ht he) (.part hprepare hdistribute ht hf)

end Intersection
end GradualTypes
