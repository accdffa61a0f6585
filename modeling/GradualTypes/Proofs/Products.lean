import GradualTypes.Proofs.CommonParts
import GradualTypes.Proofs.Sums

/-!
# Intersections as unions of pieces

The pieces of two types are what the alternatives of one have in common with the
alternatives of the other.  The intersection of the two types is the union of the pieces:
if one of the types is a union, it is distributed over, and so is the other one in each of
the parts.  If nothing is left to compare, the intersection is one of the types, and then
the pieces are its alternatives and types below them.
-/

namespace GradualTypes
namespace Intersection

open Inquiry
open GradualTypes.Subtype (Contained exact)
open GradualTypes.Union (ComparesShapes IsSum isSum_alternatives isSum_of)

variable {h : Hierarchy} {options : Options} {members : List Ty} {p s t u x : Ty}

/-!
# The pieces of two types
-/

/-- What an alternative of one type has in common with an alternative of another one. -/
def IsCross (h : Hierarchy) (options : Options) (s t p : Ty) : Prop :=
  ∃ x ∈ Union.membersOf s, ∃ y ∈ Union.membersOf t, p = common h options x y

theorem isCross_comm : IsCross h options s t p ↔ IsCross h options t s p := by
  have hswap : ∀ {s t : Ty}, IsCross h options s t p -> IsCross h options t s p := by
    rintro s t ⟨x, hx, y, hy, rfl⟩
    exact ⟨y, hy, x, hx, common_comm x y⟩
  exact ⟨hswap, hswap⟩

section Cross

variable (hfinal : h.LeavesClosureFinal) (hlimit : 0 < options.maxIntersectionDistribution)
  (hs : s.IsFactor h) (ht : t.IsFactor h)
include hfinal hlimit hs ht

theorem IsCross.isAlternative (hp : IsCross h options s t p) : p.IsAlternative h := by
  obtain ⟨x, hx, y, hy, rfl⟩ := hp
  exact isAlternative_common (hs.isAlternative hx) (ht.isAlternative hy) hfinal hlimit

/-- A type that stays as it is has no other pieces than its alternatives and types below
them. -/
theorem isSum_of_subset (hin : ∀ x ∈ Union.membersOf s, ∃ y ∈ Union.membersOf t,
    common h options x y = x) (hback : ∀ x ∈ Union.membersOf s, ∀ y ∈ Union.membersOf t,
    Contained h x (common h options x y) -> common h options x y = x) :
    IsSum h (IsCross h options s t) s := by
  refine isSum_alternatives hfinal hs ?_ ?_
  · intro x hx
    obtain ⟨y, hy, heq⟩ := hin x hx
    exact ⟨x, hx, y, hy, heq.symm⟩
  · rintro p ⟨x, hx, y, hy, rfl⟩
    have hx' := hs.isAlternative hx
    have hy' := ht.isAlternative hy
    exact ⟨isAlternative_common hx' hy' hfinal hlimit, x, hx,
      (common_below hx' hy' hfinal hlimit).1, hback x hx y hy⟩

/-- Two alternatives have one piece. -/
theorem isSum_common_flat (hsflat : s.unionMembers? = none) (htflat : t.unionMembers? = none) :
    IsSum h (IsCross h options s t) (common h options s t) := by
  have hsself := Union.membersOf_of_flat hsflat
  have htself := Union.membersOf_of_flat htflat
  have hcross : ∀ p, IsCross h options s t p ↔ p = common h options s t := by
    intro p
    simp [IsCross, hsself, htself]
  have hp : (common h options s t).IsAlternative h :=
    IsCross.isAlternative hfinal hlimit hs ht ((hcross _).mpr rfl)
  have hself : Union.membersOf (common h options s t) = [common h options s t] :=
    Union.membersOf_of_flat hp.flat
  refine isSum_alternatives hfinal hp.isFactor ?_ ?_
  · rw [hself, List.forall_mem_singleton]
    exact (hcross _).mpr rfl
  · intro p hcase
    rw [(hcross p).mp hcase, hself]
    exact ⟨hp, _, List.mem_cons_self, .refl _, fun _ => rfl⟩

end Cross

/-!
# Unions that are not distributed over
-/

theorem common_of_prepare {u : Ty} (hprepare : prepare [s, t] = .inl u) :
    common h options s t = u := by
  unfold common
  rw [of_settled (by simp) (by simp) hprepare]
  rfl

/-- Nothing is left to compare if there is one type besides `mixed`. -/
theorem prepare_of_single (hs : s ∈ members.flatMap membersOf) (hopen : IsOpen s)
    (hall : ∀ u ∈ members.flatMap membersOf, u = .mixed ∨ u = s) : prepare members = .inl s := by
  have hprepares := prepares_prepare members
  generalize prepare members = result at hprepares ⊢
  have heq : ∀ {u : Ty}, u ∈ members.flatMap membersOf -> u ≠ .mixed -> u = s :=
    fun hu hmixed => (hall _ hu).resolve_left hmixed
  cases hprepares with
  | error herror => exact absurd (heq herror (by simp)).symm hopen.1
  | never herror hnever => exact absurd (heq hnever (by simp)).symm hopen.2.2
  | mixed hmixed => exact absurd (hmixed s hs) hopen.2.1
  | single hu hu' hothers => rw [heq hu hu'.2.1]
  | several htwo hnodup hopen' hmem =>
      exfalso
      rename_i kept
      have hsubset : kept ⊆ [s] := fun u hu => by
        rcases (hmem u).mp hu with ⟨hu', hmixed⟩
        exact List.mem_singleton.mpr (heq hu' hmixed)
      have hle := (List.subperm_of_subset hnodup hsubset).length_le
      simp only [List.length_singleton] at hle
      omega

/-- Nothing is in common with `never`. -/
theorem common_never (hs : .error ∉ membersOf s) : common h options s .never = .never := by
  refine common_of_prepare ?_
  have herror : ¬ (Ty.distinct ([s, .never].flatMap membersOf)).contains .error = true := by
    rw [List.contains_iff_mem, Ty.mem_distinct]
    simpa [membersOf] using hs
  have hnever : (Ty.distinct ([s, .never].flatMap membersOf)).contains .never = true := by
    rw [List.contains_iff_mem, Ty.mem_distinct]
    simp [membersOf]
  unfold prepare
  dsimp only
  rw [if_neg herror, if_pos hnever]

section Kept

variable {alternatives : List Ty} (hfinal : h.LeavesClosureFinal)
  (hlimit : 0 < options.maxIntersectionDistribution)
  (hs : (Ty.union .plain alternatives).IsFactor h)
include hfinal hlimit hs

theorem isSum_common_mixed : IsSum h (IsCross h options (.union .plain alternatives) .mixed)
    (common h options (.union .plain alternatives) .mixed) := by
  have hcommon : ∀ x ∈ alternatives, common h options x .mixed = x := fun x hx =>
    common_of_subset (hs.isAlternative hx) (Ty.isAlternative_keyword .mixed) fun m hm =>
      Or.inl (List.mem_singleton.mp hm)
  have hprepare : prepare [.union .plain alternatives, .mixed] =
      .inl (.union .plain alternatives) :=
    prepare_of_single (by simp [membersOf]) (by simp [IsOpen]) (by simp [membersOf])
  rw [common_of_prepare hprepare]
  refine isSum_of_subset hfinal hlimit hs (Ty.isAlternative_keyword .mixed).isFactor ?_ ?_
  · exact fun x hx => ⟨.mixed, List.mem_cons_self, hcommon x hx⟩
  · intro x hx y hy _
    rw [List.mem_singleton.mp hy]
    exact hcommon x hx

theorem isSum_common_self : IsSum h
    (IsCross h options (.union .plain alternatives) (.union .plain alternatives))
    (common h options (.union .plain alternatives) (.union .plain alternatives)) := by
  have hcommon : ∀ x ∈ alternatives, common h options x x = x := fun x hx =>
    common_of_subset (hs.isAlternative hx) (hs.isAlternative hx) fun m hm => Or.inr hm
  have hprepare : prepare [.union .plain alternatives, .union .plain alternatives] =
      .inl (.union .plain alternatives) :=
    prepare_of_single (by simp [membersOf]) (by simp [IsOpen]) (by simp [membersOf])
  rw [common_of_prepare hprepare]
  refine isSum_of_subset hfinal hlimit hs hs (fun x hx => ⟨x, hx, hcommon x hx⟩) ?_
  intro x hx y hy hbelow
  have hx' := hs.isAlternative hx
  have hxy := hbelow.trans hfinal hx'.proper.formed.hasDistinctKeys
    (common_below hx' (hs.isAlternative hy) hfinal hlimit).2
  rw [← Subtype.eq_of_contained_alternatives hs.proper hx hy hxy]
  exact hcommon x hx

omit hlimit in
theorem isSum_common_never : IsSum h (IsCross h options (.union .plain alternatives) .never)
    (common h options (.union .plain alternatives) .never) := by
  have hcommon : ∀ x ∈ alternatives, common h options x .never = .never := fun x hx =>
    common_never fun herror => ((hs.isAlternative hx).member herror).1.noError rfl
  have hnever := Ty.isAlternative_keyword (h := h) .never
  rw [common_never (by simp [membersOf])]
  refine isSum_alternatives hfinal hnever.isFactor ?_ ?_
  · obtain ⟨x, hx⟩ := hs.proper.exists_mem_membersOf
    rw [Union.membersOf_of_flat hnever.flat, List.forall_mem_singleton]
    exact ⟨x, hx, .never, List.mem_cons_self, (hcommon x hx).symm⟩
  · rintro p ⟨x, hx, y, hy, rfl⟩
    rw [List.mem_singleton.mp hy, hcommon x hx]
    exact ⟨hnever, .never, List.mem_cons_self, .refl _, fun _ => rfl⟩

end Kept

/-!
# Unions that are distributed over
-/

theorem isDistributable_factors (hs : s.IsFactor h) (ht : t.IsFactor h)
    (hfew : HasFewPieces options [s, t]) : IsDistributable h options [s, t] where
  proper := by
    rw [List.forall_mem_cons, List.forall_mem_singleton]
    exact ⟨⟨hs.proper.formed, hs.proper.complete⟩, ht.proper.formed, ht.proper.complete⟩
  noError := by
    rw [List.forall_mem_cons, List.forall_mem_singleton]
    exact ⟨hs.proper.noError, ht.proper.noError⟩
  distributed := by
    have hfactor : ∀ {u : Ty}, u.IsFactor h -> ∀ m ∈ membersOf u, ∀ a ∈ Union.membersOf m,
        a.isDistributed = true := by
      intro u hu m hm
      by_cases hflat : u.unionMembers? = none
      · have halternative : u.IsAlternative h :=
          hu.isAlternative (by rw [Union.membersOf_of_flat hflat]; exact List.mem_cons_self)
        have hsimple := (halternative.member hm).2
        rw [Union.membersOf_of_flat (Ty.unionMembers?_of_isSimple hsimple),
          List.forall_mem_singleton]
        exact isDistributed_of_isSimple hsimple
      · cases u with
        | union flavor members =>
            rw [List.mem_singleton.mp hm]
            exact hu.distributed
        | _ => exact absurd rfl hflat
    intro m hm
    rcases List.mem_flatMap.mp hm with ⟨u, hu, hmu⟩
    rcases List.mem_pair.mp hu with rfl | rfl
    · exact hfactor hs m hmu
    · exact hfactor ht m hmu
  few := hfew

section Distributed

variable {kept alternatives rest : List Ty}
  (hmembers : IsDistributable h options [.union .plain alternatives, t])
  (hprepare : prepare [.union .plain alternatives, t] = .inr kept)
  (hdistribute : toDistribute? options.maxIntersectionDistribution kept =
    some (.plain, alternatives, rest))
  (hrest : ∀ u, u ∈ rest ↔ u ∈ membersOf t)
include hmembers hprepare hdistribute hrest

theorem mem_flat_pair : s ∈ (rest ++ [x]).flatMap membersOf ↔ s ∈ [x, t].flatMap membersOf := by
  rw [hmembers.mem_flat_piece hprepare (firstUnion?_of_toDistribute? hdistribute), hrest]
  simp [or_comm]

theorem hasFewPieces_pair (hx : x ∈ alternatives) : HasFewPieces options [x, t] := by
  have hpiece := hmembers.piece hprepare (firstUnion?_of_toDistribute? hdistribute) hx
  intro kept' hprepare'
  refine hpiece.few kept' (Eq.trans (prepare_congr fun u => ?_) hprepare')
  exact mem_flat_pair hmembers hprepare hdistribute hrest

/-- The alternatives of the first union are put together with the other type. -/
theorem common_distributed : common h options (.union .plain alternatives) t =
    (Union.of options (alternatives.map fun x => common h options x t)).value (exact h) := by
  have hpart : ∀ x, of options (rest ++ [x]) = of options [x, t] := fun x =>
    of_congr (two_le_length_piece hprepare (firstUnion?_of_toDistribute? hdistribute) x)
      (Nat.le_refl 2) fun u => mem_flat_pair hmembers hprepare hdistribute hrest
  unfold common
  rw [of_distributed (by simp) (by simp) hprepare hdistribute, value_bind, value_mapM]
  simp only [hpart]
  rfl

theorem isSum_distributed (hfinal : h.LeavesClosureFinal)
    (hs : (Ty.union .plain alternatives).IsFactor h)
    (hparts : ∀ x ∈ alternatives, IsSum h (IsCross h options x t) (common h options x t))
    (hshapes : ComparesShapes h (IsCross h options (.union .plain alternatives) t)) :
    IsSum h (IsCross h options (.union .plain alternatives) t)
      (common h options (.union .plain alternatives) t) := by
  have hcross : ∀ p, (∃ x ∈ alternatives, IsCross h options x t p) ↔
      IsCross h options (.union .plain alternatives) t p := by
    intro p
    refine exists_congr fun x => and_congr_right fun hx => ?_
    have hself : Union.membersOf x = [x] := Union.membersOf_of_flat (hs.isAlternative hx).flat
    simp [IsCross, hself]
  have htwo : 2 ≤ alternatives.length := hs.proper.formed.here.1.two
  rw [common_distributed hmembers hprepare hdistribute hrest]
  refine (isSum_of hfinal htwo hparts ?_).congr hcross
  exact fun e f he hf => hshapes e f ((hcross _).mp he) ((hcross _).mp hf)

end Distributed

/-!
# The pieces of any two types
-/

theorem mem_rest_iff {limit : Nat} {kept alternatives rest : List Ty} {flavor : Flavor}
    (hnodup : kept.Nodup)
    (hdistribute : toDistribute? limit kept = some (flavor, alternatives, rest)) :
    u ∈ rest ↔ u ∈ kept ∧ u ≠ .union flavor alternatives := by
  have hperm := perm_of_firstUnion? (firstUnion?_of_toDistribute? hdistribute)
  have hnot := (List.nodup_cons.mp (hperm.nodup_iff.mp hnodup)).1
  rw [hperm.mem_iff, List.mem_cons]
  constructor
  · exact fun hu => ⟨Or.inr hu, fun heq => hnot (heq ▸ hu)⟩
  · exact fun hu => hu.1.resolve_left hu.2

/-- Which of two types is distributed over. -/
inductive Distributes (options : Options) (s t : Ty) : Prop where
  | of_first {kept alternatives rest : List Ty} : prepare [s, t] = .inr kept ->
      s = .union .plain alternatives ->
      toDistribute? options.maxIntersectionDistribution kept = some (.plain, alternatives, rest) ->
      (∀ u, u ∈ rest ↔ u ∈ membersOf t) -> Distributes options s t

/-- A factor that does not settle an intersection brings in types that do not either, and
no union but itself. -/
theorem open_of_mem_membersOf (ht : t.IsFactor h) (hmixed : t ≠ .mixed) (hnever : t ≠ .never)
    (hu : u ∈ membersOf t) : IsOpen u ∧ (u.unionMembers? = none ∨ u = t) := by
  cases t with
  | inter members =>
      have hmember := ht.proper.formed.here.isMember u hu
      have hsimple := ((ht.isAlternative_of_flat rfl).member hu).2
      exact ⟨⟨hmember.1, hmember.2.1, hmember.2.2.1⟩, Or.inl (Ty.unionMembers?_of_isSimple hsimple)⟩
  | _ =>
      rw [List.mem_singleton.mp hu]
      exact ⟨⟨ht.proper.noError, hmixed, hnever⟩, Or.inr rfl⟩

theorem exists_mem_membersOf (ht : t.IsFactor h) : ∃ u, u ∈ membersOf t := by
  cases t with
  | inter members =>
      have htwo := ht.proper.formed.here.two
      exact List.exists_mem_of_length_pos (by simp only [membersOf]; omega)
  | _ => exact ⟨_, List.mem_cons_self⟩

section TwoFactors

variable {alternatives : List Ty} (hs : s.IsFactor h) (ht : t.IsFactor h)
  (hunion : s = .union .plain alternatives) (hmixed : t ≠ .mixed) (hnever : t ≠ .never)
  (hne : t ≠ s)
include hs ht hunion hmixed hnever hne

theorem ne_of_mem_membersOf (hu : u ∈ membersOf t) : u ≠ s := by
  rintro rfl
  rcases (open_of_mem_membersOf ht hmixed hnever hu).2 with hflat | heq
  · rw [hunion] at hflat
    cases hflat
  · exact hne heq.symm

/-- A union and another type are compared unless one of them settles the intersection. -/
theorem exists_prepare : ∃ kept, prepare [s, t] = .inr kept ∧ kept.Nodup ∧
    ∀ u, u ∈ kept ↔ u = s ∨ u ∈ membersOf t := by
  have hflat : ∀ u, u ∈ [s, t].flatMap membersOf ↔ u = s ∨ u ∈ membersOf t := by
    intro u
    rw [hunion]
    simp [membersOf]
  have hopen : ∀ u ∈ [s, t].flatMap membersOf, IsOpen u := by
    intro u hu
    rcases (hflat u).mp hu with rfl | hu
    · rw [hunion]
      simp [IsOpen]
    · exact (open_of_mem_membersOf ht hmixed hnever hu).1
  have hmem : s ∈ [s, t].flatMap membersOf := (hflat s).mpr (Or.inl rfl)
  cases hprepare : prepare [s, t] with
  | inl u =>
      exfalso
      cases prepares_of_eq hprepare with
      | error herror => exact (hopen _ herror).1 rfl
      | never herror hnever' => exact (hopen _ hnever').2.2 rfl
      | mixed hall => exact (hopen s hmem).2.1 (hall s hmem)
      | single hu hu' hothers =>
          obtain ⟨v, hv⟩ := exists_mem_membersOf ht
          have hv' := (hflat v).mpr (Or.inr hv)
          have hsame := (hothers s hmem).resolve_left (hopen s hmem).2.1
          have hsame' := (hothers v hv').resolve_left (hopen v hv').2.1
          exact ne_of_mem_membersOf hs ht hunion hmixed hnever hne hv (hsame'.trans hsame.symm)
  | inr kept =>
      cases prepares_of_eq hprepare with
      | several htwo hnodup hall hkept =>
          refine ⟨kept, rfl, hnodup, fun u => ?_⟩
          rw [hkept, and_iff_left_of_imp fun hu => (hopen u hu).2.1, hflat]

theorem distributes_of_union (hfew : HasFewPieces options [s, t]) :
    Distributes options s t ∨ Distributes options t s := by
  obtain ⟨kept, hprepare, hnodup, hkept⟩ := exists_prepare hs ht hunion hmixed hnever hne
  have hother : ∀ u ∈ membersOf t, u ≠ s :=
    fun u hu => ne_of_mem_membersOf hs ht hunion hmixed hnever hne hu
  cases hdistribute : toDistribute? options.maxIntersectionDistribution kept with
  | none =>
      have hmem : Ty.union .plain alternatives ∈ kept := (hkept _).mpr (Or.inl hunion.symm)
      exact absurd (hfew kept hprepare) (Nat.not_le.mpr (lt_pieces_of_mem hmem hdistribute))
  | some found =>
      obtain ⟨flavor, others, rest⟩ := found
      have hrest : ∀ u, u ∈ rest ↔ (u = s ∨ u ∈ membersOf t) ∧ u ≠ .union flavor others := by
        intro u
        rw [mem_rest_iff hnodup hdistribute, hkept]
      rcases (hkept _).mp (mem_of_firstUnion? (firstUnion?_of_toDistribute? hdistribute)).1 with
        heq | hmem
      · have hflavor := hs.plain flavor others heq.symm
        subst hflavor
        refine Or.inl (.of_first hprepare heq.symm hdistribute fun u => ?_)
        rw [hrest, heq]
        exact ⟨fun hu => hu.1.resolve_left hu.2, fun hu => ⟨Or.inr hu, hother u hu⟩⟩
      · have heq := (open_of_mem_membersOf ht hmixed hnever hmem).2.resolve_left
          (by simp [Ty.unionMembers?])
        have hflavor := ht.plain flavor others heq.symm
        subst hflavor
        have hswap : prepare [t, s] = prepare [s, t] := prepare_congr fun u => by simp [or_comm]
        refine Or.inr (.of_first (hswap.trans hprepare) heq.symm hdistribute fun u => ?_)
        rw [hrest, heq, hunion, ← heq]
        simp only [membersOf, List.mem_singleton]
        refine ⟨fun hu => hu.1.resolve_right hu.2, ?_⟩
        rintro rfl
        exact ⟨Or.inl rfl, fun heq' => hne (heq.symm.trans (heq'.symm.trans hunion.symm))⟩

end TwoFactors

theorem isSum_swap (hsum : IsSum h (IsCross h options t s) (common h options t s)) :
    IsSum h (IsCross h options s t) (common h options s t) := by
  rw [common_comm]
  exact hsum.congr fun p => isCross_comm

theorem hasFewPieces_swap (hfew : HasFewPieces options [s, t]) : HasFewPieces options [t, s] := by
  intro kept hprepare
  exact hfew kept (Eq.trans (prepare_congr fun u => by simp [or_comm]) hprepare)

/-- Unions are distributed over if their alternatives are. -/
theorem Distributes.isSum (hfinal : h.LeavesClosureFinal) (hs : s.IsFactor h) (ht : t.IsFactor h)
    (hfew : HasFewPieces options [s, t]) (hshapes : ComparesShapes h (IsCross h options s t))
    (hdistributes : Distributes options s t)
    (hparts : ∀ x ∈ Union.membersOf s, HasFewPieces options [x, t] ->
      ComparesShapes h (IsCross h options x t) ->
      IsSum h (IsCross h options x t) (common h options x t)) :
    IsSum h (IsCross h options s t) (common h options s t) := by
  cases hdistributes with
  | of_first hprepare hunion hdistribute hrest =>
      subst hunion
      have hmembers := isDistributable_factors hs ht hfew
      refine isSum_distributed hmembers hprepare hdistribute hrest hfinal hs
        (fun x hx => ?_) hshapes
      refine hparts x hx (hasFewPieces_pair hmembers hprepare hdistribute hrest hx) ?_
      refine hshapes.mono fun p hp => ?_
      obtain ⟨x', hx', y, hy, rfl⟩ := hp
      rw [Union.membersOf_of_flat (hs.isAlternative hx).flat] at hx'
      exact ⟨x, hx, y, hy, by rw [List.mem_singleton.mp hx']⟩

section Pieces

variable (hfinal : h.LeavesClosureFinal) (hlimit : 0 < options.maxIntersectionDistribution)
include hfinal hlimit

/-- A union and an alternative. -/
theorem isSum_common_alternative (hs : s.IsFactor h) (ht : t.IsAlternative h)
    (hfew : HasFewPieces options [s, t]) (hshapes : ComparesShapes h (IsCross h options s t)) :
    IsSum h (IsCross h options s t) (common h options s t) := by
  by_cases hflat : s.unionMembers? = none
  · exact isSum_common_flat hfinal hlimit hs ht.isFactor hflat ht.flat
  · obtain ⟨alternatives, rfl⟩ := hs.exists_union hflat
    by_cases hmixed : t = .mixed
    · exact hmixed ▸ isSum_common_mixed hfinal hlimit hs
    by_cases hnever : t = .never
    · exact hnever ▸ isSum_common_never hfinal hs
    have hne : t ≠ .union .plain alternatives := by
      rintro rfl
      cases ht.flat
    rcases distributes_of_union hs ht.isFactor rfl hmixed hnever hne hfew with hover | hover
    · refine hover.isSum hfinal hs ht.isFactor hfew hshapes fun x hx _ _ => ?_
      have hx' := hs.isAlternative hx
      exact isSum_common_flat hfinal hlimit hx'.isFactor ht.isFactor hx'.flat ht.flat
    · cases hover with
      | of_first _ hunion _ _ =>
          subst hunion
          cases ht.flat

/-- The intersection of two types is the union of their pieces. -/
theorem isSum_common (hs : s.IsFactor h) (ht : t.IsFactor h)
    (hfew : HasFewPieces options [s, t]) (hshapes : ComparesShapes h (IsCross h options s t)) :
    IsSum h (IsCross h options s t) (common h options s t) := by
  have hswap : ComparesShapes h (IsCross h options t s) :=
    hshapes.mono fun p hp => isCross_comm.mp hp
  -- an alternative of the first type and the whole of the second one
  have hparts : ∀ {s t : Ty}, s.IsFactor h -> t.IsFactor h -> ∀ x ∈ Union.membersOf s,
      HasFewPieces options [x, t] -> ComparesShapes h (IsCross h options x t) ->
        IsSum h (IsCross h options x t) (common h options x t) := by
    intro s t hs ht x hx hfew hshapes
    refine isSum_swap (isSum_common_alternative hfinal hlimit ht (hs.isAlternative hx)
      (hasFewPieces_swap hfew) ?_)
    exact hshapes.mono fun p hp => isCross_comm.mp hp
  by_cases htflat : t.unionMembers? = none
  · exact isSum_common_alternative hfinal hlimit hs (ht.isAlternative_of_flat htflat) hfew hshapes
  by_cases hsflat : s.unionMembers? = none
  · exact isSum_swap (isSum_common_alternative hfinal hlimit ht (hs.isAlternative_of_flat hsflat)
      (hasFewPieces_swap hfew) hswap)
  obtain ⟨alternatives, hunion⟩ := hs.exists_union hsflat
  by_cases hne : t = s
  · subst hne hunion
    exact isSum_common_self hfinal hlimit hs
  have hkeyword : ∀ k : Keyword, t ≠ .keyword k := by
    rintro k rfl
    exact htflat rfl
  rcases distributes_of_union hs ht hunion (hkeyword _) (hkeyword _) hne hfew with hover | hover
  · exact hover.isSum hfinal hs ht hfew hshapes (hparts hs ht)
  · exact isSum_swap (hover.isSum hfinal ht hs (hasFewPieces_swap hfew) hswap (hparts ht hs))

end Pieces

end Intersection
end GradualTypes
