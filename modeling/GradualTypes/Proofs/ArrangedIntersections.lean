import GradualTypes.Proofs.ArrangedUnions
import GradualTypes.Proofs.CoveredTypes
import GradualTypes.Proofs.Narrowing

/-!
# Intersections that do not depend on the order of their members

When types are compared in another order, what is left of them is below all of them in either
case.  So both results contain each other, and they are equal if no two different ones of the
types do.

Only whether two of the types are found to share no value may depend on the order: one of them
may have given way to a narrower type before.  So the narrower one has to be apart from the
same types.
-/

namespace GradualTypes
namespace Intersection

open Inquiry
open GradualTypes.Subtype (Certain Contained contained_iff exact isContainment_contained)
open GradualTypes.Ty (Formed IsAlternative)

variable {h : Hierarchy} {options : Options} {members kept others : List Ty} {m s t u x y z : Ty}

/-!
# What is left of simple types
-/

/-- Types that are compared with one another, and are not taken apart any more. -/
structure AreCompared (h : Hierarchy) (kept : List Ty) : Prop where
  nonempty : kept ≠ []
  proper : ∀ t ∈ kept, t.IsProper h
  simple : ∀ t ∈ kept, t.isSimple = true
  isOpen : ∀ t ∈ kept, IsOpen t

/-- Types that are found to share no value. -/
def AreApart (h : Hierarchy) (s t : Ty) : Prop :=
  exact h s t = .no ∧ exact h t s = .no

instance : Decidable (AreApart h s t) :=
  inferInstanceAs (Decidable (exact h s t = .no ∧ exact h t s = .no))

/-- Types whose comparison does not depend on their order. -/
structure ReducesFreely (h : Hierarchy) (kept : List Ty) : Prop where
  untied : Ty.AreUntied h kept
  apart : ∀ x ∈ kept, ∀ y ∈ kept, ∀ z ∈ kept, Contained h x y -> AreApart h y z -> AreApart h x z

instance : Decidable (ReducesFreely h kept) :=
  decidable_of_iff (Ty.AreUntied h kept ∧ ∀ x ∈ kept, ∀ y ∈ kept, ∀ z ∈ kept, Contained h x y ->
      AreApart h y z -> AreApart h x z)
    ⟨fun hall => ⟨hall.1, hall.2⟩, fun hreduces => ⟨hreduces.untied, hreduces.apart⟩⟩

theorem AreApart.symm (hst : AreApart h s t) : AreApart h t s :=
  ⟨hst.2, hst.1⟩

theorem AreApart.not_contained (hst : AreApart h s t) : ¬ Contained h s t := fun hbelow => by
  cases hst.1.symm.trans hbelow

theorem AreCompared.perm (hkept : AreCompared h kept) (hperm : kept.Perm others) :
    AreCompared h others where
  nonempty := fun hnil => hkept.nonempty (hnil ▸ hperm).eq_nil
  proper := fun t ht => hkept.proper t (hperm.mem_iff.mpr ht)
  simple := fun t ht => hkept.simple t (hperm.mem_iff.mpr ht)
  isOpen := fun t ht => hkept.isOpen t (hperm.mem_iff.mpr ht)

theorem ReducesFreely.subset (hfree : ReducesFreely h kept) (hsubset : ∀ t ∈ others, t ∈ kept) :
    ReducesFreely h others where
  untied := hfree.untied.subset hsubset
  apart := fun x hx y hy z hz => hfree.apart x (hsubset x hx) y (hsubset y hy) z (hsubset z hz)

theorem ReducesFreely.perm (hfree : ReducesFreely h kept) (hperm : kept.Perm others) :
    ReducesFreely h others :=
  hfree.subset fun _ ht => hperm.mem_iff.mpr ht

theorem AreCompared.isAlternative (hkept : AreCompared h kept) (ht : t ∈ kept) :
    t.IsAlternative h where
  proper := hkept.proper t ht
  flat := Ty.unionMembers?_of_isSimple (hkept.simple t ht)
  distributed := isDistributed_of_isSimple (hkept.simple t ht)

theorem AreCompared.mem_membersOf (hkept : AreCompared h kept) (ht : t ∈ kept) :
    t ∈ membersOf t := by
  rw [membersOf_of_isSimple (hkept.simple t ht)]
  exact List.mem_cons_self

section Reduced

variable (hfinal : h.LeavesClosureFinal) (hkept : AreCompared h kept)

theorem AreCompared.isOrdinary (hkept : AreCompared h kept) (ht : t ∈ kept) :
    t.isOrdinary = true :=
  (hkept.proper t ht).isOrdinary (hkept.isOpen t ht).2.1 (hkept.isOpen t ht).2.2

include hfinal hkept

/-- What is left is below all types. -/
theorem reduce_below : ∀ t ∈ kept, Contained h ((reduce kept).value (exact h)) t := by
  have hproper : ∀ t ∈ kept, Formed (Session.exactly h) t ∧ Ty.IsComplete t := fun t ht =>
    ⟨(hkept.proper t ht).formed, (hkept.proper t ht).complete⟩
  have hbelow := (meets_reduce_below (isContainment_contained hfinal)
    (fun s t (hr : _ = exact h s t) => hr.symm) hproper).value fun _ _ _ => rfl
  exact fun t ht => hbelow.below t ht (hkept.simple t ht) (hkept.isOrdinary ht)

theorem isAlternative_reduce : ((reduce kept).value (exact h)).IsAlternative h := by
  have hproper : ∀ t ∈ kept, Formed (Session.exactly h) t ∧ Ty.IsComplete t := fun t ht =>
    ⟨(hkept.proper t ht).formed, (hkept.proper t ht).complete⟩
  have hready : AreReady (Session.exactly h) kept := fun t ht => by
    rcases hkept.isOpen t ht with ⟨herror, hmixed, hnever⟩
    refine ⟨(hkept.proper t ht).formed, herror, hmixed, hnever, ?_⟩
    rintro others rfl
    cases hkept.simple _ ht
  have hflat := flat_of_reduce (h := h) hkept.simple
  refine ⟨⟨?_, ?_, ?_⟩, hflat.1, hflat.2⟩
  · exact (meets_reduce hkept.nonempty hready).value fun _ _ _ => rfl
  · exact ((meets_reduce_below (Subtype.isContainment_true h) (fun _ _ _ => trivial)
      hproper).value fun _ _ _ => rfl : IsBelow _ _ _).complete
  · obtain ⟨t, ht⟩ := List.exists_mem_of_ne_nil kept hkept.nonempty
    intro herror
    rcases hkept.isOpen t ht with ⟨hne, hmixed, -⟩
    exact hmixed (Subtype.eq_mixed_of_error (herror ▸ reduce_below hfinal hkept t ht) hne)

/-!
# Types below all that are compared
-/

/-- A type that contains the given one, and is one of those that are compared or related to
types of integers or booleans only. -/
def EnclosesFrom (h : Hierarchy) (kept : List Ty) (z t : Ty) : Prop :=
  Encloses h t z ∧ (t ∈ kept ∨ z.IsDiscrete)

section Below

variable (hz : z.IsAlternative h) (hne : z ≠ .never) (hbelow : ∀ t ∈ kept, Contained h z t)
include hz hne

omit hfinal hkept in
theorem isEnclosure_enclosesFrom : IsEnclosure h z (EnclosesFrom h kept z) where
  encloses := fun _ ht => ht.1
  narrows := fun r _ _ hr _ hu => ⟨hu, Or.inr (hz.isDiscrete hne (.range r) hr.1.above).1⟩

include hbelow

omit hfinal in
/-- What is below all types is below what is left, unless two types that contain it are found to
share no value. -/
theorem reduce_above :
    ((reduce kept).value (exact h) = .never ∧ IsPartedAmong h (EnclosesFrom h kept z)) ∨
      ∀ m ∈ membersOf ((reduce kept).value (exact h)), EnclosesFrom h kept z m :=
  (meets_reduce_above hz hne (isEnclosure_enclosesFrom hz hne) fun t ht =>
    ⟨⟨hkept.isOrdinary ht, hkept.simple t ht, hbelow t ht⟩, Or.inl ht⟩).value fun _ _ _ => rfl

end Below

/-- What is left are some of the types, apart from integers and booleans. -/
theorem mem_of_reduce (hne : (reduce kept).value (exact h) ≠ .never)
    (hm : m ∈ membersOf ((reduce kept).value (exact h))) :
    m ∈ kept ∨ ((reduce kept).value (exact h)).IsDiscrete := by
  have habove := reduce_above hkept (isAlternative_reduce hfinal hkept) hne (reduce_below hfinal hkept)
  exact ((habove.resolve_left fun hparted => hne hparted.1) m hm).2

/-!
# The order of the types
-/

omit hfinal hkept in
theorem exists_literal (hz : z.IsProper h) (hdiscrete : z.IsDiscrete) :
    ∃ v, (Ty.literal v).IsDiscrete ∧ Contained h (.literal v) z := by
  cases hdiscrete with
  | int => exact ⟨.int 0, .number 0, Subtype.contained_base (.number 0) rfl⟩
  | number n => exact ⟨.int n, .number n, .refl _⟩
  | range r =>
      obtain ⟨n, hn⟩ := IntRange.exists_contains hz.formed.here.1
      exact ⟨.int n, .number n, (Certain.fits rfl rfl (.literal_range hn)).contained⟩
  | bool => exact ⟨.bool true, .truth true, Subtype.contained_base (.truth true) rfl⟩
  | truth b => exact ⟨.bool b, .truth b, .refl _⟩

/-- If what is left in one order is no type of integers or booleans, it is some of the types.
Then no two types that contain it are found to share no value, since those that are left do not
give way to each other. -/
theorem not_isPartedAmong (hfree : ReducesFreely h kept) (hz : z.IsAlternative h)
    (hmem : ∀ m ∈ membersOf z, m ∈ kept ∨ z.IsDiscrete) :
    ¬ IsPartedAmong h (EnclosesFrom h kept z) := by
  rintro ⟨s, t, ⟨hs, hs'⟩, ⟨ht, ht'⟩, hst⟩
  by_cases hdiscrete : z.IsDiscrete
  · obtain ⟨v, hv, hvz⟩ := exists_literal hz.proper hdiscrete
    have hformed : Formed (Session.exactly h) (.literal v) := Ty.formed_literal v
    have hkeys := hformed.hasDistinctKeys
    refine not_isParted_literal hv ⟨s, t, ?_, ?_, hst⟩
    · exact ⟨hs.ordinary, hs.simple, hvz.trans hfinal hkeys hs.above⟩
    · exact ⟨ht.ordinary, ht.simple, hvz.trans hfinal hkeys ht.above⟩
  · have hskept := hs'.resolve_right hdiscrete
    have htkept := ht'.resolve_right hdiscrete
    have hinside : ∀ t ∈ kept, Contained h z t -> ∃ m ∈ membersOf z, m ∈ kept ∧ Contained h m t := by
      intro t ht hzt
      rcases hkept.isOpen t ht with ⟨-, hmixed, hnever⟩
      obtain ⟨m, hm, hmt⟩ := exists_member_below hfinal hz (hkept.isAlternative ht) hzt
        (hkept.mem_membersOf ht) hmixed hnever
      exact ⟨m, hm, (hmem m hm).resolve_right hdiscrete, hmt⟩
    obtain ⟨m, hm, hmkept, hms⟩ := hinside s hskept hs.above
    obtain ⟨n, hn, hnkept, hnt⟩ := hinside t htkept ht.above
    have hmt : AreApart h m t := hfree.apart m hmkept s hskept t htkept hms hst
    have hnm : AreApart h n m := hfree.apart n hnkept t htkept m hmkept hnt hmt.symm
    by_cases heq : n = m
    · subst heq
      exact hnm.not_contained (.refl n)
    · obtain ⟨-, r, r', hr, hr', -, -, hno⟩ := independent_members hz hn hm heq
      exact hno ⟨hr.trans hnm.1, hr'.trans hnm.2⟩

/-- Alternatives that contain each other are equal if their members are among the types that are
compared, or if they are types of integers or booleans. -/
theorem eq_of_members (huntied : Ty.AreUntied h kept) (hx : x.IsAlternative h)
    (hy : y.IsAlternative h) (hxy : Contained h x y) (hyx : Contained h y x)
    (hxmem : ∀ m ∈ membersOf x, m ∈ kept ∨ x.IsDiscrete)
    (hymem : ∀ m ∈ membersOf y, m ∈ kept ∨ y.IsDiscrete) : x = y := by
  by_cases hxdiscrete : x.IsDiscrete
  · exact Subtype.eq_of_scalar hfinal hxdiscrete.isScalar hx.proper hy.proper hy.flat hxy hyx
  by_cases hydiscrete : y.IsDiscrete
  · exact (Subtype.eq_of_scalar hfinal hydiscrete.isScalar hy.proper hx.proper hx.flat hyx hxy).symm
  -- each member of the one is above a member of the other, which is above one of the first again
  have hsubset : ∀ {a b : Ty}, a.IsAlternative h -> b.IsAlternative h -> Contained h a b ->
      Contained h b a -> (∀ m ∈ membersOf a, m ∈ kept) -> (∀ m ∈ membersOf b, m ∈ kept) ->
      ∀ m ∈ membersOf a, m ∈ membersOf b := by
    intro a b ha hb hab hba hamem hbmem m hm
    have hopen : ∀ {n}, n ∈ kept -> n ≠ .mixed ∧ n ≠ .never := fun hn => (hkept.isOpen _ hn).2
    have hmkept := hamem m hm
    obtain ⟨n, hn, hnm⟩ :=
      exists_member_below hfinal hb ha hba hm (hopen hmkept).1 (hopen hmkept).2
    have hnkept := hbmem n hn
    obtain ⟨m', hm', hmn⟩ :=
      exists_member_below hfinal ha hb hab hn (hopen hnkept).1 (hopen hnkept).2
    have hkeys := (ha.member hm').1.formed.hasDistinctKeys
    have hsame := eq_of_contained_members ha hm' hm (hmn.trans hfinal hkeys hnm)
    rw [huntied m hmkept n hnkept (hsame ▸ hmn) hnm]
    exact hn
  have hxkept : ∀ m ∈ membersOf x, m ∈ kept := fun m hm => (hxmem m hm).resolve_right hxdiscrete
  have hykept : ∀ m ∈ membersOf y, m ∈ kept := fun m hm => (hymem m hm).resolve_right hydiscrete
  have hperm : (membersOf x).Perm (membersOf y) :=
    (List.perm_ext_iff_of_nodup (nodup_members hx) (nodup_members hy)).mpr fun m =>
      ⟨hsubset hx hy hxy hyx hxkept hykept m, hsubset hy hx hyx hxy hykept hxkept m⟩
  rw [← value_close_members hx (.refl _), value_close_members hy hperm]

/-- What is left in another order is below what is left in this one, unless it is nothing. -/
theorem reduce_contained (hfree : ReducesFreely h kept) (hperm : kept.Perm others)
    (hne : (reduce others).value (exact h) ≠ .never) :
    (reduce kept).value (exact h) ≠ .never ∧
      Contained h ((reduce others).value (exact h)) ((reduce kept).value (exact h)) := by
  have hothers := hkept.perm hperm
  have hz := isAlternative_reduce hfinal hothers
  have hbelow : ∀ t ∈ kept, Contained h ((reduce others).value (exact h)) t := fun t ht =>
    reduce_below hfinal hothers t (hperm.mem_iff.mp ht)
  have hmem : ∀ m ∈ membersOf ((reduce others).value (exact h)),
      m ∈ kept ∨ ((reduce others).value (exact h)).IsDiscrete := fun m hm =>
    (mem_of_reduce hfinal hothers hne hm).imp_left hperm.mem_iff.mpr
  have hparted := not_isPartedAmong hfinal hkept hfree hz hmem
  have habove := (reduce_above hkept hz hne hbelow).resolve_left fun hnothing => hparted hnothing.2
  have hcontained : Contained h _ _ :=
    (hz.contained_iff_members hfinal (isAlternative_reduce hfinal hkept)).mpr fun m hm =>
      (habove m hm).1.above
  exact ⟨fun hnever => hne (Subtype.eq_never_of_contained (hnever ▸ hcontained)), hcontained⟩

/-- What is left of types does not depend on the order in which they are compared. -/
theorem value_reduce_comm (hfree : ReducesFreely h kept) (hperm : kept.Perm others) :
    (reduce others).value (exact h) = (reduce kept).value (exact h) := by
  have hothers := hkept.perm hperm
  have hfree' := hfree.perm hperm
  by_cases hnever : (reduce others).value (exact h) = .never
  · by_contra hne
    refine (reduce_contained hfinal hothers hfree' hperm.symm ?_).1 hnever
    exact fun heq => hne (hnever.trans heq.symm)
  · rcases reduce_contained hfinal hkept hfree hperm hnever with ⟨hne, hcontained⟩
    rcases reduce_contained hfinal hothers hfree' hperm.symm hne with ⟨-, hcontained'⟩
    refine eq_of_members hfinal hkept hfree.untied (isAlternative_reduce hfinal hothers)
      (isAlternative_reduce hfinal hkept) hcontained hcontained' (fun m hm => ?_)
      fun m hm => mem_of_reduce hfinal hkept hne hm
    exact (mem_of_reduce hfinal hothers hnever hm).imp_left hperm.mem_iff.mpr

end Reduced

/-!
# Preparation
-/

theorem settle_of_perm (hperm : members.Perm others) :
    (∀ t, settle members = .inl t -> settle others = .inl t) ∧
      ∀ kept, settle members = .inr kept ->
        ∃ left, settle others = .inr left ∧ kept.Perm left := by
  have hcontains : ∀ t, members.contains t = others.contains t := fun t => by
    rw [Bool.eq_iff_iff, List.contains_iff_mem, List.contains_iff_mem, hperm.mem_iff]
  have hleft : (members.filter (· != .mixed)).Perm (others.filter (· != .mixed)) := hperm.filter _
  unfold settle
  rw [← hcontains, ← hcontains]
  split
  · simp
  · split
    · simp
    · generalize members.filter (· != .mixed) = left at hleft ⊢
      generalize others.filter (· != .mixed) = right at hleft ⊢
      match left, right with
      | [], right =>
          rw [hleft.symm.eq_nil]
          simp
      | [t], right =>
          rw [List.perm_singleton.mp hleft.symm]
          simp
      | t :: t' :: rest, [] => cases hleft.eq_nil
      | t :: t' :: rest, [u] => cases List.perm_singleton.mp hleft
      | t :: t' :: rest, u :: u' :: rest' =>
          refine ⟨by simp, ?_⟩
          rintro _ ⟨⟩
          exact ⟨_, rfl, hleft⟩

section Prepare

variable {a : Arrangement}
  (hsame : ∀ t, t ∈ members.flatMap membersOf ↔ t ∈ others.flatMap membersOf)
include hsame

theorem prepareBy_settled (hprepare : prepare members = .inl t) : prepareBy a others = .inl t :=
  (settle_of_perm (Arrangement.perm (a := .byCode) hsame)).1 t hprepare

theorem exists_prepareBy (hprepare : prepare members = .inr kept) :
    ∃ left, prepareBy a others = .inr left ∧ kept.Perm left :=
  (settle_of_perm (Arrangement.perm (a := .byCode) hsame)).2 kept hprepare

end Prepare

theorem areCompared_of_prepare (hmembers : ∀ t ∈ members, t.IsAlternative h)
    (hprepare : prepare members = .inr kept) : AreCompared h kept := by
  cases prepares_of_eq hprepare with
  | several htwo hnodup hopen hmem =>
      have hflat := fun t (ht : t ∈ kept) => isSimple_flat hmembers ((hmem t).mp ht).1
      exact ⟨List.ne_nil_of_length_pos (by omega), fun t ht => (hflat t ht).1,
        fun t ht => (hflat t ht).2, hopen⟩

/-- Alternatives that bring in the same types have the same intersection under every
arrangement. -/
theorem value_ofBy_alternatives (a : Arrangement) (hfinal : h.LeavesClosureFinal)
    (hmembers : ∀ t ∈ members, t.IsAlternative h) (htwo : 2 ≤ members.length)
    (htwo' : 2 ≤ others.length)
    (hsame : ∀ t, t ∈ members.flatMap membersOf ↔ t ∈ others.flatMap membersOf)
    (hfree : ∀ kept, prepare members = .inr kept -> ReducesFreely h kept) :
    (ofBy a options others).value (exact h) = (of options members).value (exact h) := by
  rw [of_alternatives hmembers htwo]
  split
  · rename_i t hprepare
    rw [ofBy_settled htwo' (prepareBy_settled hsame hprepare)]
  · rename_i kept hprepare
    have hkept := areCompared_of_prepare hmembers hprepare
    obtain ⟨left, hleft, hperm⟩ := exists_prepareBy (a := a) hsame hprepare
    have hflat : firstUnion? left = none := by
      rw [Option.eq_none_iff_forall_ne_some]
      rintro ⟨flavor, alternatives, rest⟩ hfirst
      cases hkept.simple _ (hperm.mem_iff.mpr (mem_of_firstUnion? hfirst).1)
    rw [ofBy_prepared htwo' hleft, compareBy_of_none hflat]
    exact value_reduce_comm hfinal hkept (hfree kept hprepare) hperm

end Intersection
end GradualTypes
