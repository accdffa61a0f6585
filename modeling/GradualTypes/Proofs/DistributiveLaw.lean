import GradualTypes.Proofs.CoveredTypes
import GradualTypes.Proofs.Products

/-!
# Intersections with a union

The intersection of a union with another type is the union of the intersections with its
parts: both are unions of pieces, and the pieces of the union are those of its parts but for
`bool` and for intervals that were put together, the values of which belong to pieces of the
parts as well.

That needs some care where a piece is found to be `never`, is a single integer, or is only one
of several types with the same values.
-/

namespace GradualTypes
namespace Intersection

open Inquiry
open GradualTypes.Subtype (Contained exact)
open GradualTypes.Union (ComparesShapes IsMade IsSum isSum_of)

variable {h : Hierarchy} {options : Options} {a b c l p r u v x y : Ty}

/-- The alternatives of two types. -/
def IsPart (a b x : Ty) : Prop :=
  ∃ t ∈ [a, b], x ∈ Union.membersOf t

theorem isPart_iff : IsPart a b x ↔ x ∈ Union.membersOf a ++ Union.membersOf b := by
  simp [IsPart]

/-- What the alternatives of two types have in common with those of a third one. -/
def IsShare (h : Hierarchy) (options : Options) (a b c p : Ty) : Prop :=
  ∃ t ∈ [a, b], IsCross h options t c p

theorem IsPart.isShare (hx : IsPart a b x) (hy : y ∈ Union.membersOf c) :
    IsShare h options a b c (common h options x y) := by
  obtain ⟨t, ht, hxt⟩ := hx
  exact ⟨t, ht, x, hxt, y, hy, rfl⟩

/-- What has to hold of two types and a third one, so that the union of the first two has the
same in common with the third one as they have on their own.  In each case the union keeps
something that one of the types has lost on its own, or the other way around. -/
structure KeepsPieces (h : Hierarchy) (options : Options) (a b c u : Ty) : Prop where
  /-- Of two alternatives that are shapes with the same keys, one contains the other. -/
  alternatives : ComparesShapes h (IsPart a b)
  /-- Of two pieces that are shapes with the same keys, one contains the other. -/
  shapes : ComparesShapes h (IsShare h options a b c)
  /-- If an alternative of the union is found to share no value with one of the third type,
  the pieces of the alternatives inside of it lie in other pieces of the union. -/
  disjoint : ∀ {x v y : Ty}, IsPart a b x -> v ∈ Union.membersOf u -> y ∈ Union.membersOf c ->
    Contained h x v -> common h options v y = .never ->
    ∃ q, IsCross h options u c q ∧ Contained h (common h options x y) q
  /-- An integer that is a piece of its own is so for the union as well, or belongs to
  another piece. -/
  integers : ∀ {x v y : Ty} {n : Int}, IsPart a b x -> v ∈ Union.membersOf u ->
    y ∈ Union.membersOf c -> Contained h x v -> common h options x y = .literal (.int n) ->
    common h options v y = .literal (.int n) ∨ ∃ x', IsPart a b x' ∧
      common h options x' y ≠ .literal (.int n) ∧
      Contained h (.literal (.int n)) (common h options x' y)
  /-- Of the pieces that contain the same as a piece of the union, none has a greater code
  than all of these. -/
  spelling : ∀ {p q : Ty}, IsShare h options a b c p -> IsCross h options u c q ->
    Contained h p q -> Contained h q p -> ∃ q', IsCross h options u c q' ∧ Contained h p q' ∧
      Contained h q' p ∧ ¬ q'.code < p.code

/-!
# Tables of pieces
-/

/-- A table of what the alternatives have in common shows that no piece is lost. -/
theorem keepsPieces_of_table {meet : Ty -> Ty -> Ty} {parts : List Ty}
    (hparts : Union.membersOf a ++ Union.membersOf b = parts)
    (hmeet : ∀ x ∈ parts ++ Union.membersOf u, ∀ y ∈ Union.membersOf c,
      common h options x y = meet x y)
    (halternatives : ∀ x ∈ parts, ∀ x' ∈ parts, x.isShape = true -> x'.isShape = true -> x = x')
    (hshapes : ∀ x ∈ parts, ∀ y ∈ Union.membersOf c, ∀ x' ∈ parts, ∀ y' ∈ Union.membersOf c,
      (meet x y).isShape = true -> (meet x' y').isShape = true -> meet x y = meet x' y')
    (hdisjoint : ∀ x ∈ parts, ∀ v ∈ Union.membersOf u, ∀ y ∈ Union.membersOf c,
      exact h x v = .yes -> meet v y = .never -> meet x y = .never)
    (hintegers : ∀ x ∈ parts, ∀ y ∈ Union.membersOf c, (meet x y).isLiteral = true ->
      ∃ x' ∈ parts, meet x' y ≠ meet x y ∧ exact h (meet x y) (meet x' y) = .yes)
    (hspelling : ∀ x ∈ parts, ∀ y ∈ Union.membersOf c, ∀ v ∈ Union.membersOf u,
      ∀ y' ∈ Union.membersOf c, exact h (meet x y) (meet v y') = .yes ->
        exact h (meet v y') (meet x y) = .yes -> meet x y = meet v y') :
    KeepsPieces h options a b c u := by
  have hpart : ∀ {x}, IsPart a b x ↔ x ∈ parts := by
    intro x
    rw [isPart_iff, hparts]
  have hpiece : ∀ {x y}, IsPart a b x -> y ∈ Union.membersOf c -> common h options x y = meet x y :=
    fun hx hy => hmeet _ (List.mem_append_left _ (hpart.mp hx)) _ hy
  have hcross : ∀ {v y}, v ∈ Union.membersOf u -> y ∈ Union.membersOf c ->
      common h options v y = meet v y := fun hv hy => hmeet _ (List.mem_append_right _ hv) _ hy
  have hshare : ∀ {p}, IsShare h options a b c p ->
      ∃ x ∈ parts, ∃ y ∈ Union.membersOf c, p = meet x y := by
    rintro p ⟨t, ht, x, hx, y, hy, rfl⟩
    exact ⟨x, hpart.mp ⟨t, ht, hx⟩, y, hy, hpiece ⟨t, ht, hx⟩ hy⟩
  refine ⟨?_, ?_, ?_, ?_, ?_⟩
  · intro e f he hf _
    rw [halternatives _ (hpart.mp he) _ (hpart.mp hf) rfl rfl]
    exact Or.inl (.refl _)
  · intro e f he hf _
    obtain ⟨x, hx, y, hy, he'⟩ := hshare he
    obtain ⟨x', hx', y', hy', hf'⟩ := hshare hf
    rw [he', hf', hshapes x hx y hy x' hx' y' hy' (he' ▸ rfl) (hf' ▸ rfl)]
    exact Or.inl (.refl _)
  · intro x v y hx hv hy hxv hnever
    refine ⟨_, ⟨v, hv, y, hy, rfl⟩, ?_⟩
    rw [hcross hv hy] at hnever ⊢
    rw [hpiece hx hy, hdisjoint x (hpart.mp hx) v hv y hy hxv hnever, hnever]
    exact .refl .never
  · intro x v y n hx _ hy _ heq
    rw [hpiece hx hy] at heq
    obtain ⟨x', hx', hne, hbelow⟩ := hintegers x (hpart.mp hx) y hy (heq ▸ rfl)
    have hx' := hpart.mpr hx'
    refine Or.inr ⟨x', hx', ?_, ?_⟩
    · rw [hpiece hx' hy, ← heq]
      exact hne
    · rw [hpiece hx' hy, ← heq]
      exact hbelow
  · intro p q hp hq hpq hqp
    obtain ⟨x, hx, y, hy, rfl⟩ := hshare hp
    have hq' := hq
    obtain ⟨v, hv, y', hy', rfl⟩ := hq'
    rw [hcross hv hy'] at hq hpq hqp
    rw [← hspelling x hx y hy v hv y' hy' hpq hqp] at hq
    exact ⟨_, hq, .refl _, .refl _, List.lt_irrefl _⟩

/-!
# The law
-/

section Law

variable (hfinal : h.LeavesClosureFinal) (hlimit : 0 < options.maxIntersectionDistribution)
  (hab : ∀ t ∈ [a, b], t.IsFactor h) (hc : c.IsFactor h)
  (hkeeps : KeepsPieces h options a b c u)

include hab in
theorem IsPart.isAlternative (hx : IsPart a b x) : x.IsAlternative h := by
  obtain ⟨t, ht, hxt⟩ := hx
  exact (hab t ht).isAlternative hxt

include hfinal hab hkeeps in
/-- The union of the two types. -/
theorem isSum_union (hu : u = (Union.of options [a, b]).value (exact h)) :
    IsSum h (IsPart a b) u := by
  have hself : ∀ t ∈ [a, b], IsSum h (fun x => x ∈ Union.membersOf t) (id t) := fun t ht =>
    Union.isSum_alternatives hfinal (hab t ht) (fun x hx => hx) fun x hx =>
      ⟨(hab t ht).isAlternative hx, x, hx, .refl x, fun _ => rfl⟩
  rw [hu]
  have htwo : 2 ≤ [a, b].length := Nat.le_refl 2
  exact isSum_of hfinal htwo hself hkeeps.alternatives

include hfinal hab hkeeps in
theorem isMade_of_mem (hu : u = (Union.of options [a, b]).value (exact h)) :
    ∀ w ∈ Union.membersOf u, IsMade h (IsPart a b) w := by
  have hformed : ∀ t ∈ [a, b], Ty.Formed (Session.exactly h) t :=
    fun t ht => (hab t ht).proper.formed
  have hkept := Union.isKept_isMade hfinal fun x (hx : IsPart a b x) =>
    (hx.isAlternative hab).proper
  rw [hu]
  refine (Union.meets_of_kept hkept (by simp) hformed ?_ fun x hx => ?_).value fun _ _ _ => rfl
  · refine hasComparableShapes_of_contained fun e f he hf => hkeeps.alternatives e f ?_ ?_
    · exact List.mem_flatMap.mp he
    · exact List.mem_flatMap.mp hf
  · exact Union.isMade_of_given (List.mem_flatMap.mp hx)

section Made

variable (hv : v.IsAlternative h) (hy : y.IsAlternative h)
include hfinal hlimit hv hy

/-- What a type of integers or booleans has in common with a type. -/
theorem isDiscrete_common (hdiscrete : v = .never ∨ v.IsDiscrete) :
    common h options v y = .never ∨ (common h options v y).IsDiscrete := by
  have hbelow := (common_below hv hy hfinal hlimit).1
  rcases hdiscrete with rfl | hdiscrete
  · exact Or.inl (Subtype.eq_never_of_contained hbelow)
  · by_cases hnever : common h options v y = .never
    · exact Or.inl hnever
    · exact Or.inr ((isAlternative_common hv hy hfinal hlimit).isDiscrete hnever hdiscrete hbelow).1

theorem isPart_of_not_scalar (hmade : IsMade h (IsPart a b) v)
    (hscalar : (common h options v y).isScalar = false) : IsPart a b v := by
  refine hmade.1.resolve_right fun hdiscrete => ?_
  rcases isDiscrete_common hfinal hlimit hv hy hdiscrete with hnever | hdiscrete
  · rw [hnever] at hscalar
    cases hscalar
  · rw [hdiscrete.isScalar] at hscalar
    cases hscalar

end Made

variable (hu : u.IsFactor h) (hmade : ∀ w ∈ Union.membersOf u, IsMade h (IsPart a b) w)

include hfinal hlimit hc hu hmade in
/-- The pieces of the union that are not scalar are not new. -/
theorem IsCross.isShare (hp : IsCross h options u c p) (hscalar : p.isScalar = false) :
    IsShare h options a b c p := by
  obtain ⟨v, hv, y, hy, rfl⟩ := hp
  exact (isPart_of_not_scalar hfinal hlimit (hu.isAlternative hv) (hc.isAlternative hy) (hmade v hv)
    hscalar).isShare hy

include hfinal hlimit hab hc hkeeps hu hmade in
/-- The pieces of the union lie in the union of the pieces. -/
theorem IsCross.contained (hr : IsSum h (IsShare h options a b c) r)
    (hp : IsCross h options u c p) : Contained h p r := by
  obtain ⟨v, hv, y, hy, rfl⟩ := hp
  have hv' := hu.isAlternative hv
  have hy' := hc.isAlternative hy
  have hcommon := isAlternative_common hv' hy' hfinal hlimit
  rcases hmade v hv with ⟨hpart | hdiscrete, hcovered⟩
  · exact hr.above _ (hpart.isShare hy)
  rcases isDiscrete_common hfinal hlimit hv' hy' hdiscrete with
    hnever | hdiscrete
  · rw [hnever]
    exact (Subtype.Certain.never hr.proper.formed.isUnknown).contained
  -- the values of a new alternative that the other type has are there in some piece
  have hpiece : ∀ w : Literal, (Ty.literal w).IsDiscrete ->
      Contained h (.literal w) (common h options v y) -> ∃ x, IsPart a b x ∧ Contained h x v ∧
        Contained h (.literal w) (common h options x y) := by
    intro w hw hbelow
    have hkeys := (Ty.isAlternative_literal (h := h) w).proper.formed.hasDistinctKeys
    rcases common_below hv' hy' hfinal hlimit with ⟨hcv, hcy⟩
    obtain ⟨x, hx, hwx, hxv⟩ := hcovered w hw (hbelow.trans hfinal hkeys hcv)
    exact ⟨x, hx, hxv, literal_below_common (hx.isAlternative hab) hy' hfinal hlimit hw hwx
      (hbelow.trans hfinal hkeys hcy)⟩
  refine Union.contained_of_literals hfinal hcommon hdiscrete hr.toIsFactor ?_ ?_
  · intro w hw hbelow
    obtain ⟨x, hx, -, hwx⟩ := hpiece w hw hbelow
    have hkeys := (Ty.isAlternative_literal (h := h) w).proper.formed.hasDistinctKeys
    exact hwx.trans hfinal hkeys (hr.above _ (hx.isShare hy))
  · intro n hne hbelow
    have hfound : ∃ x, IsPart a b x ∧ common h options x y ≠ .literal (.int n) ∧
        Contained h (.literal (.int n)) (common h options x y) := by
      obtain ⟨x, hx, hxv, hnx⟩ := hpiece (.int n) (.number n) hbelow
      by_cases hlone : common h options x y = .literal (.int n)
      · exact (hkeeps.integers hx hv hy hxv hlone).resolve_left hne
      · exact ⟨x, hx, hlone, hnx⟩
    obtain ⟨x, hx, hwide, hnx⟩ := hfound
    exact ⟨_, isAlternative_common (hx.isAlternative hab) hy' hfinal hlimit, hwide, hnx,
      hr.above _ (hx.isShare hy)⟩

include hfinal hlimit hab hc hkeeps hu in
/-- The pieces of the two types lie in what the union and the third type have in common. -/
theorem IsShare.contained (hunion : IsSum h (IsPart a b) u)
    (hl : IsSum h (IsCross h options u c) l) (hp : IsShare h options a b c p) :
    Contained h p l := by
  obtain ⟨t, ht, x, hxt, y, hy, rfl⟩ := hp
  have hx : IsPart a b x := ⟨t, ht, hxt⟩
  have hx' := hx.isAlternative hab
  have hy' := hc.isAlternative hy
  have hcommon := isAlternative_common hx' hy' hfinal hlimit
  have hkeys := hcommon.proper.formed.hasDistinctKeys
  obtain ⟨v, hv, hxv⟩ :=
    (Subtype.contained_iff_alternative hx'.proper hx'.flat hu.proper).mp (hunion.above x hx)
  have hv' := hu.isAlternative hv
  rcases common_below hx' hy' hfinal hlimit with ⟨hbelow, hbelow'⟩
  rcases contained_common hv' hy' hfinal hlimit hcommon
    (hbelow.trans hfinal hkeys hxv) hbelow' with ⟨hnever, -⟩ | hcontained
  · obtain ⟨q, hq, hpq⟩ := hkeeps.disjoint hx hv hy hxv hnever
    exact hpq.trans hfinal hkeys (hl.above q hq)
  · exact hcontained.trans hfinal hkeys (hl.above _ ⟨v, hv, y, hy, rfl⟩)

include hfinal hlimit hc hkeeps hu hmade in
/-- An alternative of one result that contains the same as one of the other result is the
same, since both are the last pieces of those that contain the same. -/
theorem eq_of_contained (hl : IsSum h (IsCross h options u c) l)
    (hr : IsSum h (IsShare h options a b c) r) (hx : x ∈ Union.membersOf l)
    (hy : y ∈ Union.membersOf r) (hxy : Contained h x y) (hyx : Contained h y x) : x = y := by
  rcases hl.proper.alternative hx with ⟨hx', hxflat⟩
  rcases hr.proper.alternative hy with ⟨hy', hyflat⟩
  by_cases hxscalar : x.isScalar = true
  · exact Subtype.eq_of_scalar hfinal hxscalar hx' hy' hyflat hxy hyx
  by_cases hyscalar : y.isScalar = true
  · exact (Subtype.eq_of_scalar hfinal hyscalar hy' hx' hxflat hyx hxy).symm
  rw [Bool.not_eq_true] at hxscalar hyscalar
  rcases hl.last x hx hxscalar with ⟨hxcross, hxlast⟩
  rcases hr.last y hy hyscalar with ⟨hyshare, hylast⟩
  have hyle := hylast x (hxcross.isShare hfinal hlimit hc hu hmade hxscalar) hyx hxy
  obtain ⟨q, hq, hyq, hqy, hle⟩ := hkeeps.spelling hyshare hxcross hyx hxy
  have hqx := hxlast q hq (hxy.trans hfinal hx'.formed.hasDistinctKeys hyq)
    (hqy.trans hfinal (hl.pieces q hq).proper.formed.hasDistinctKeys hyx)
  refine Ty.code_inj (List.le_antisymm (List.not_lt.mp hyle) ?_)
  exact List.le_trans (List.not_lt.mp hle) (List.not_lt.mp hqx)

end Law

/-- A union has the same in common with another type as its parts have together. -/
theorem common_union (hfinal : h.LeavesClosureFinal)
    (hlimit : 0 < options.maxIntersectionDistribution) (hab : ∀ t ∈ [a, b], t.IsFactor h)
    (hc : c.IsFactor h) (hu : u = (Union.of options [a, b]).value (exact h))
    (hfew : ∀ t ∈ [a, b, u], HasFewPieces options [t, c]) (hkeeps : KeepsPieces h options a b c u) :
    common h options u c =
      (Union.of options [common h options a c, common h options b c]).value (exact h) := by
  have hunion := isSum_union hfinal hab hkeeps hu
  have hfactor : u.IsFactor h := hunion.toIsFactor
  have hmade := isMade_of_mem hfinal hab hkeeps hu
  have hold : ∀ {p : Ty}, IsCross h options u c p -> p.isScalar = false ->
      IsShare h options a b c p := fun hp hscalar => hp.isShare hfinal hlimit hc hfactor hmade hscalar
  have hl : IsSum h (IsCross h options u c) (common h options u c) :=
    isSum_common hfinal hlimit hfactor hc (hfew u (by simp)) fun e f he hf =>
      hkeeps.shapes e f (hold he rfl) (hold hf rfl)
  have hparts : ∀ t ∈ [a, b], IsSum h (IsCross h options t c) (common h options t c) := by
    intro t ht
    refine isSum_common hfinal hlimit (hab t ht) hc (hfew t ?_) (hkeeps.shapes.mono fun p hp => ?_)
    · exact List.mem_append_left [u] ht
    · exact ⟨t, ht, hp⟩
  have hr : IsSum h (IsShare h options a b c)
      ((Union.of options [common h options a c, common h options b c]).value (exact h)) :=
    isSum_of hfinal (by simp) hparts hkeeps.shapes
  generalize common h options u c = l at hl ⊢
  generalize (Union.of options [common h options a c, common h options b c]).value (exact h) = r
    at hr ⊢
  have hlr : Contained h l r := hl.least hr.proper hr.distributed fun p hp =>
    hp.contained hfinal hlimit hab hc hkeeps hfactor hmade hr
  have hrl : Contained h r l := hr.least hl.proper hl.distributed fun p hp =>
    hp.contained hfinal hlimit hab hc hkeeps hfactor hunion hl
  have hperm := Union.perm_membersOf hfinal hl.proper hr.proper hlr hrl fun x hx y hy =>
    eq_of_contained hfinal hlimit hc hkeeps hfactor hmade hl hr hx hy
  refine Union.eq_of_perm_membersOf hl.proper hr.proper hperm ?_
  intro flavor flavor' members hl' hr'
  rw [hl.plain _ _ hl', hr.plain _ _ hr']

/-- An error has only an error in common with another type. -/
theorem common_error (herror : .error ∈ [x, y]) : common h options x y = .error := by
  refine common_of_prepare ?_
  have hmem : (Ty.distinct ([x, y].flatMap membersOf)).contains .error = true := by
    rw [List.contains_iff_mem, Ty.mem_distinct]
    exact List.mem_flatMap.mpr ⟨.error, herror, List.mem_cons_self⟩
  unfold prepare
  dsimp only
  rw [if_pos hmem]

/-- The law holds of errors as well, since both sides are one. -/
theorem common_union_error (herror : .error ∈ [a, b, c]) :
    common h options ((Union.of options [a, b]).value (exact h)) c =
      (Union.of options [common h options a c, common h options b c]).value (exact h) := by
  have hunion : ∀ {s t : Ty}, .error ∈ [s, t] ->
      (Union.of options [s, t]).value (exact h) = .error := fun herror => Union.value_of_error (Nat.le_refl 2) herror
  rcases (List.mem_append (s := [a, b])).mp herror with hab | hc
  · have hparts : .error ∈ [common h options a c, common h options b c] := by
      rcases List.mem_pair.mp hab with rfl | rfl
      · simp [common_error (x := .error)]
      · simp [common_error (x := .error)]
    rw [hunion hab, hunion hparts, common_error (by simp)]
  · obtain rfl := List.mem_singleton.mp hc
    have hany : ∀ t, common h options t .error = .error := fun t => common_error (by simp)
    rw [hany, hany, hany, hunion (by simp)]

end Intersection
end GradualTypes
