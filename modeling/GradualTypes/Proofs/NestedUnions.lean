import GradualTypes.Proofs.LastMembers
import GradualTypes.Proofs.LowerBounds

/-!
# Unions of unions

If no two shapes are merged and no alternative is an intersection that was not
distributed, a union is the least type above the given ones.  So it does not matter
whether some of them are put together first: both results contain one another, and both
keep the last ones of the alternatives that contain the same.

The flavor has to be looked at on its own, since a union of benevolent unions may be no
union any more.
-/

namespace GradualTypes
namespace Union

open Inquiry
open GradualTypes.Intersection (IsOperand contained_inter isKept_below isSimple_toTy)
open GradualTypes.Subtype (Certain Contained contained_iff exact isContainment_contained)
open GradualTypes.Ty (Formed)

variable {h : Hierarchy} {options options₁ options₂ options₃ : Options} {ts rest : List Ty}
  {r s t u w : Ty}

/-!
# Below any type
-/

/-- No alternative of a type is an intersection that was not distributed. -/
def IsDistributed (t : Ty) : Prop :=
  ∀ a ∈ membersOf t, a.isDistributed = true

instance {t : Ty} : Decidable (IsDistributed t) :=
  inferInstanceAs (Decidable (∀ a ∈ membersOf t, a.isDistributed = true))

theorem isKept_below_inter {members : List Ty} (ht : (Ty.inter members).IsProper h)
    (hdistributed : IsDistributed (.inter members)) :
    IsKept fun u => Contained h u (.inter members) := by
  have hoperand : ∀ m ∈ members, IsOperand h m := by
    intro m hm
    have hflat : m.unionMembers? = none := by
      have hm' := List.all_eq_true.mp (hdistributed _ List.mem_cons_self) m hm
      cases m <;> first | rfl | cases hm'
    have hmember := ht.formed.here.isMember m hm
    refine ⟨ht.formed.inside hm, ht.complete.inside hm, hmember, ?_⟩
    rw [membersOf_of_flat hflat, List.forall_mem_singleton]
    cases m <;> first | rfl | exact absurd rfl (hmember.2.2.2 _)
  have hbelow : ∀ {u : Ty}, u.isOrdinary = true -> u.isSimple = true ->
      (Contained h u (.inter members) ↔ ∀ m ∈ members, Contained h u m) := by
    intro u hordinary hsimple
    have hflat := Ty.unionMembers?_of_isSimple hsimple
    constructor
    · intro hu
      rcases contained_iff.mp hu with rfl | hcertain
      · cases hsimple
      · exact hcertain.all_of_inter_target hordinary hflat
    · exact fun hall => (Certain.inter_right hordinary hflat hall).contained
  constructor
  · exact (Certain.never rfl).contained
  · intro htrue hfalse
    rw [hbelow rfl rfl] at htrue hfalse ⊢
    exact fun m hm => (isKept_below (hoperand m hm)).bools (htrue m hm) (hfalse m hm)
  · intro r s hr hs htouches hr' hs'
    rw [hbelow (isSimple_toTy _).2 (isSimple_toTy _).1] at hr' hs' ⊢
    exact fun m hm => (isKept_below (hoperand m hm)).hull hr hs htouches (hr' m hm) (hs' m hm)

/-- To be below a type is kept when a union is made. -/
theorem isKept_below_proper (ht : t.IsProper h) (hdistributed : IsDistributed t) :
    IsKept fun u => Contained h u t := by
  by_cases hmixed : t = .mixed
  · subst hmixed
    have hbelow : ∀ {u : Ty}, u.isOrdinary = true -> Contained h u .mixed := by
      intro u hu
      refine (Certain.mixed ?_).contained
      cases u <;> first | rfl | cases hu
    refine ⟨(Certain.never rfl).contained, fun _ _ => hbelow rfl, fun _ _ _ _ _ => ?_⟩
    exact hbelow (isSimple_toTy _).2
  by_cases hnever : t = .never
  · subst hnever
    constructor
    · exact .refl _
    · intro htrue
      cases Subtype.eq_never_of_contained htrue
    · intro r s _ _ _ hr
      have hordinary := (isSimple_toTy r).2
      rw [Subtype.eq_never_of_contained hr] at hordinary
      cases hordinary
  by_cases hinter : ∃ members, t = .inter members
  · obtain ⟨members, rfl⟩ := hinter
    exact isKept_below_inter ht hdistributed
  · have hmember : Intersection.IsMember t :=
      ⟨ht.noError, hmixed, hnever, fun members heq => hinter ⟨members, heq⟩⟩
    exact isKept_below ⟨ht.formed, ht.complete, hmember, hdistributed⟩

theorem isKept_isDistributed : IsKept fun t => t.isDistributed = true where
  never := rfl
  bools := fun _ _ => rfl
  hull := fun _ _ _ _ _ => Intersection.isDistributed_of_isSimple (isSimple_toTy _).1

/-!
# The least type above several types
-/

/-- Of two members that are shapes with the same keys, one contains the other. -/
def HasComparableMembers (h : Hierarchy) (members : List Ty) : Prop :=
  ∀ e f, Ty.shape e ∈ members -> Ty.shape f ∈ members -> (Shape.keys e).Perm (Shape.keys f) ->
    Contained h (.shape e) (.shape f) ∨ Contained h (.shape f) (.shape e)

/-- Types whose union merges no shapes and keeps no intersection with a union inside. -/
structure IsJoinable (h : Hierarchy) (ts : List Ty) : Prop where
  proper : ∀ t ∈ ts, t.IsProper h
  distributed : ∀ t ∈ ts, IsDistributed t
  shapes : HasComparableShapes (Session.exactly h) (ts.flatMap membersOf)

theorem IsJoinable.sublist {us : List Ty} (hts : IsJoinable h ts) (hus : us.Sublist ts) :
    IsJoinable h us where
  proper := fun t ht => hts.proper t (hus.subset ht)
  distributed := fun t ht => hts.distributed t (hus.subset ht)
  shapes := hts.shapes.subset fun _ he => (hus.flatMap membersOf).subset he

/-- The least type above some types. -/
structure IsJoin (h : Hierarchy) (ts : List Ty) (t : Ty) : Prop where
  proper : t.IsProper h
  distributed : IsDistributed t
  above : ∀ s ∈ ts, Contained h s t
  least : ∀ {w : Ty}, w.IsProper h -> IsDistributed w -> (∀ s ∈ ts, Contained h s w) ->
    Contained h t w

theorem isAbove_value (hfinal : h.LeavesClosureFinal) (hts : ∀ t ∈ ts, t.IsProper h) :
    IsAbove (Contained h) ts ((of options ts).value (exact h)) := by
  have habove : (of options ts).Meets (.free (Session.exactly h)) (IsAbove (Contained h) ts) :=
    meets_of_above (isContainment_contained hfinal) (fun s t (hr : _ = exact h s t) => hr.symm)
      (fun t ht => (hts t ht).formed) fun t ht => (hts t ht).complete
  exact habove.value fun _ _ _ => rfl

theorem isProper_of (hfinal : h.LeavesClosureFinal) (hne : ts ≠ []) (hts : ∀ t ∈ ts, t.IsProper h) :
    ((of options ts).value (exact h)).IsProper h := by
  have hmeets : (of options ts).Meets (.free (Session.exactly h)) fun t =>
      Formed (Session.exactly h) t ∧ t ≠ .error := by
    refine (meets_upTo (fun t ht => (hts t ht).formed) fun _ ht =>
      Ty.height_le_heights ht).free.imp fun t ht => ?_
    exact ⟨ht.1.formed, ht.2.1 hne fun t ht => (hts t ht).noError⟩
  have hresult : _ ∧ (of options ts).value (exact h) ≠ .error := hmeets.value fun _ _ _ => rfl
  exact ⟨hresult.1, (isAbove_value hfinal hts).complete, hresult.2⟩

theorem isJoin_of (hfinal : h.LeavesClosureFinal) (hne : ts ≠ []) (hts : IsJoinable h ts) :
    IsJoin h ts ((of options ts).value (exact h)) := by
  have hformed : ∀ t ∈ ts, Formed (Session.exactly h) t := fun t ht => (hts.proper t ht).formed
  have hproper : ((of options ts).value (exact h)).IsProper h := isProper_of hfinal hne hts.proper
  have habove : IsAbove (Contained h) ts ((of options ts).value (exact h)) :=
    isAbove_value hfinal hts.proper
  have hkept : ∀ {T : Ty -> Prop}, IsKept T -> (∀ m ∈ ts.flatMap membersOf, T m) ->
      ∀ m ∈ membersOf ((of options ts).value (exact h)), T m :=
    fun hT hall => (meets_of_kept hT hne hformed hts.shapes hall).value fun _ _ _ => rfl
  refine ⟨hproper, ?_, habove.above fun t ht => (hts.proper t ht).noError, ?_⟩
  · refine hkept isKept_isDistributed fun m hm => ?_
    rcases List.mem_flatMap.mp hm with ⟨t, ht, hmt⟩
    exact hts.distributed t ht m hmt
  · intro w hw hdistributed hall
    refine Subtype.contained_of_alternatives hproper hw ?_
    refine hkept (isKept_below_proper hw hdistributed) fun m hm => ?_
    rcases List.mem_flatMap.mp hm with ⟨t, ht, hmt⟩
    rcases (hts.proper t ht).alternative hmt with ⟨hm', hflat⟩
    have hbelow := (Subtype.contained_iff_alternative hm' hflat (hts.proper t ht)).mpr
      ⟨m, hmt, .refl m⟩
    exact hbelow.trans hfinal hm'.formed.hasDistinctKeys (hall t ht)

/-!
# Putting some of the types together first
-/

/-- That some types are all benevolent is still to be seen when some of them are put
together first, or makes no difference. -/
def KeepsFlavor (ts : List Ty) (u r : Ty) : Prop :=
  (∀ t ∈ ts, keepsBenevolence t = true) -> keepsBenevolence u = true ∨ r.unionMembers? = none

theorem flavorOf_nested {members : List Ty} (hu : HasLast h (flavorOf ts) members u)
    (hnever : u = .never -> ∀ t ∈ ts, t = .never)
    (hflavor : (∀ t ∈ ts ++ rest, keepsBenevolence t = true) -> keepsBenevolence u = true) :
    flavorOf (u :: rest) = flavorOf (ts ++ rest) := by
  have hkeeps : (u :: rest).all keepsBenevolence = (ts ++ rest).all keepsBenevolence := by
    rw [Bool.eq_iff_iff, List.all_eq_true, List.all_eq_true, List.forall_mem_cons,
      List.forall_mem_append]
    constructor
    · rintro ⟨hkept, hrest⟩
      refine ⟨?_, hrest⟩
      by_cases hu' : u = .never
      · exact fun t ht => by rw [hnever hu' t ht]; rfl
      · cases u with
        | union flavor alternatives =>
            have heq := hu.flavor flavor alternatives rfl
            cases flavor with
            | plain => cases hkept
            | benevolent =>
                unfold flavorOf at heq
                split at heq
                · rename_i hall
                  exact List.all_eq_true.mp hall
                · cases heq
        | _ => exact absurd (beq_iff_eq.mp hkept) hu'
    · rintro ⟨hts, hrest⟩
      exact ⟨hflavor (List.forall_mem_append.mpr ⟨hts, hrest⟩), hrest⟩
  unfold flavorOf
  rw [hkeeps]

section Nested

variable (hfinal : h.LeavesClosureFinal) (hts : IsJoinable h (ts ++ rest)) (hu : IsJoin h ts u)
  {flavor : Flavor} (hulast : HasLast h flavor (ts.flatMap membersOf) u)

include hts hu hulast in
theorem isJoinable_nested : IsJoinable h (u :: rest) := by
  have hrest := List.sublist_append_right ts rest
  refine ⟨List.forall_mem_cons.mpr ⟨hu.proper, fun t ht => hts.proper t (hrest.subset ht)⟩,
    List.forall_mem_cons.mpr ⟨hu.distributed, fun t ht => hts.distributed t (hrest.subset ht)⟩,
    hts.shapes.subset fun e he => ?_⟩
  rw [List.flatMap_cons, List.mem_append] at he
  rw [List.flatMap_append, List.mem_append]
  exact he.imp_left fun he => (hulast.last _ he rfl).1

variable {l : Ty} (hl : IsJoin h (u :: rest) l) (hr : IsJoin h (ts ++ rest) r)

include hfinal hts hu hl hr in
theorem contained_nested : Contained h l r ∧ Contained h r l := by
  rcases List.forall_mem_append.mp hr.above with ⟨hts', hrest⟩
  rcases List.forall_mem_cons.mp hl.above with ⟨hul, hrest'⟩
  constructor
  · refine hl.least hr.proper hr.distributed (List.forall_mem_cons.mpr ⟨?_, hrest⟩)
    exact hu.least hr.proper hr.distributed hts'
  · refine hr.least hl.proper hl.distributed (List.forall_mem_append.mpr ⟨fun t ht => ?_, hrest'⟩)
    have hkeys := (hts.proper t (List.mem_append_left _ ht)).formed.hasDistinctKeys
    exact (hu.above t ht).trans hfinal hkeys hul

/-- What the inner union has made of an alternative that it was given, if the outer one
has an alternative that contains the same. -/
theorem exists_between (hfinal : h.LeavesClosureFinal) {x y : Ty} (hts : ∀ t ∈ ts, t.IsProper h)
    (hu : IsJoin h ts u) (hl : l.IsProper h) (hul : Contained h u l) (hx : x ∈ membersOf l)
    (hy : y ∈ ts.flatMap membersOf) (hxy : Contained h x y) :
    ∃ a ∈ membersOf u, Contained h x a ∧ Contained h a x ∧ Contained h y a := by
  rcases List.mem_flatMap.mp hy with ⟨t, ht, hyt⟩
  rcases (hts t ht).alternative hyt with ⟨hyproper, hyflat⟩
  have hxkeys := (hl.alternative hx).1.formed.hasDistinctKeys
  have hyu : Contained h y u :=
    ((Subtype.contained_iff_alternative hyproper hyflat (hts t ht)).mpr ⟨y, hyt, .refl y⟩).trans
      hfinal hyproper.formed.hasDistinctKeys (hu.above t ht)
  obtain ⟨a, ha, hya⟩ := (Subtype.contained_iff_alternative hyproper hyflat hu.proper).mp hyu
  obtain ⟨x', hx', hax'⟩ := exists_alternative_of_contained hfinal hu.proper hl hul ha
  have hxa := hxy.trans hfinal hxkeys hya
  have hsame := Subtype.eq_of_contained_alternatives hl hx hx' (hxa.trans hfinal hxkeys hax')
  exact ⟨a, ha, hxa, hsame ▸ hax', hya⟩

include hfinal hts hu hulast hl hr in
/-- Of the alternatives that contain the same both ways keep the one with the greatest
code. -/
theorem eq_of_last {flavor₁ flavor₂ : Flavor}
    (hllast : HasLast h flavor₁ ((u :: rest).flatMap membersOf) l)
    (hrlast : HasLast h flavor₂ ((ts ++ rest).flatMap membersOf) r) {x y : Ty}
    (hx : x ∈ membersOf l) (hy : y ∈ membersOf r) (hxy : Contained h x y)
    (hyx : Contained h y x) : x = y := by
  rcases hl.proper.alternative hx with ⟨hxproper, hxflat⟩
  rcases hr.proper.alternative hy with ⟨hyproper, hyflat⟩
  refine Subtype.eq_of_codes hfinal hxproper hxflat hyproper hyflat hxy hyx
    fun hxscalar hyscalar => ?_
  rcases hllast.last x hx hxscalar with ⟨hxmem, hxlast⟩
  rcases hrlast.last y hy hyscalar with ⟨hymem, hylast⟩
  simp only [List.flatMap_cons, List.flatMap_append, List.mem_append] at hxmem hxlast hymem hylast
  have hxle : ¬ y.code < x.code := by
    refine hylast x ?_ hxscalar hyx hxy
    exact hxmem.imp_left fun hmem => (hulast.last x hmem hxscalar).1
  have hyle : ¬ x.code < y.code := by
    rcases hymem with hmem | hmem
    · obtain ⟨a, ha, hxa, hax, hya⟩ := exists_between hfinal
        (fun t ht => hts.proper t (List.mem_append_left _ ht)) hu hl.proper
        (List.forall_mem_cons.mp hl.above).1 hx hmem hxy
      have haproper := (hu.proper.alternative ha).1
      have hay := hax.trans hfinal haproper.formed.hasDistinctKeys hxy
      have hascalar : a.isScalar = false := by
        by_contra hscalar
        rw [Bool.not_eq_false] at hscalar
        have heq := Subtype.eq_of_scalar hfinal hscalar haproper hyproper hyflat hay hya
        rw [heq, hyscalar] at hscalar
        cases hscalar
      have hle := List.not_lt.mp ((hulast.last a ha hascalar).2 y hmem hyscalar hay hya)
      have hle' := List.not_lt.mp (hxlast a (Or.inl ha) hascalar hxa hax)
      exact List.not_lt.mpr (List.le_trans hle hle')
    · exact hxlast y (Or.inr hmem) hyscalar hxy hyx
  exact ⟨hyle, hxle⟩

end Nested

/-- An error among several types makes their union an error. -/
theorem value_of_error {relation : Ty -> Ty -> Tristate} (hmany : 2 ≤ ts.length)
    (herror : .error ∈ ts) : (of options ts).value relation = .error := by
  have hpos := Ty.height_pos .error
  have hle := Ty.height_le_heights herror
  obtain ⟨n, hheight⟩ : ∃ n, Ty.heights ts = n + 1 := ⟨Ty.heights ts - 1, by omega⟩
  unfold of
  rw [hheight]
  match ts, hmany with
  | t :: t' :: others, _ =>
      have hmem : Ty.error ∈ Ty.distinct ((t :: t' :: others).flatMap membersOf) :=
        Ty.mem_distinct.mpr (List.mem_flatMap.mpr ⟨.error, herror, List.mem_cons_self⟩)
      unfold upTo normalize
      simp only [List.contains_iff_mem.mpr hmem, if_true, value_pure]

theorem value_of_nested_error {relation : Ty -> Ty -> Tristate} (hmany : 2 ≤ ts.length)
    (hrest : rest ≠ []) (herror : .error ∈ ts ++ rest) :
    (of options ((of options ts).value relation :: rest)).value relation =
      (of options (ts ++ rest)).value relation := by
  have hpos := List.length_pos_of_ne_nil hrest
  rw [value_of_error (by simp; omega) herror]
  apply value_of_error (by simp; omega)
  rcases List.mem_append.mp herror with herror | herror
  · rw [value_of_error hmany herror]
    exact List.mem_cons_self
  · exact List.mem_cons_of_mem _ herror

theorem value_of_nested (hfinal : h.LeavesClosureFinal) (hmany : 2 ≤ ts.length) (hrest : rest ≠ [])
    (hts : IsJoinable h (ts ++ rest))
    (hflavor : KeepsFlavor (ts ++ rest) ((of options ts).value (exact h))
      ((of options (ts ++ rest)).value (exact h))) :
    (of options ((of options ts).value (exact h) :: rest)).value (exact h) =
      (of options (ts ++ rest)).value (exact h) := by
  have hne : ts ≠ [] := List.ne_nil_of_length_pos (by omega)
  have hrestpos := List.length_pos_of_ne_nil hrest
  have hlast : ∀ {us : List Ty}, 2 ≤ us.length -> IsJoinable h us ->
      HasLast h (flavorOf us) (us.flatMap membersOf) ((of options us).value (exact h)) :=
    fun hmany hus => (meets_of_last hmany (fun t ht => (hus.proper t ht).formed)
      (fun t ht => (hus.proper t ht).noError) hus.shapes).value fun _ _ _ => rfl
  have hinner : IsJoinable h ts := hts.sublist (List.sublist_append_left ts rest)
  have hulast := hlast hmany hinner
  have hjoin : ∀ {us : List Ty}, us ≠ [] -> IsJoinable h us ->
      IsJoin h us ((of options us).value (exact h)) := fun hne hus => isJoin_of hfinal hne hus
  have hu := hjoin hne hinner
  have hnever : (of options ts).value (exact h) = .never -> ∀ t ∈ ts, t = .never :=
    fun heq t ht => Subtype.eq_never_of_contained (heq ▸ hu.above t ht)
  generalize (of options ts).value (exact h) = u at hu hulast hnever hflavor ⊢
  have houter := isJoinable_nested hts hu hulast
  have hl := hjoin (by simp) houter
  have hr := hjoin (by simp [hne]) hts
  have hllast := hlast (by simp; omega) houter
  have hrlast := hlast (by simp; omega) hts
  generalize (of options (u :: rest)).value (exact h) = l at hl hllast ⊢
  generalize (of options (ts ++ rest)).value (exact h) = r at hr hrlast hflavor ⊢
  rcases contained_nested hfinal hts hu hl hr with ⟨hlr, hrl⟩
  have hperm := perm_membersOf hfinal hl.proper hr.proper hlr hrl fun x hx y hy =>
    eq_of_last hfinal hts hu hulast hl hr hllast hrlast hx hy
  refine eq_of_perm_membersOf hl.proper hr.proper hperm ?_
  rintro flavor₁ flavor₂ members hl' hr'
  rw [hllast.flavor _ _ hl', hrlast.flavor _ _ hr']
  refine flavorOf_nested hulast hnever fun hall => (hflavor hall).resolve_right ?_
  rw [hr']
  simp [Ty.unionMembers?]

end Union
end GradualTypes
