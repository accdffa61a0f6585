import GradualTypes.Proofs.Checkers
import GradualTypes.Proofs.Construction
import GradualTypes.Proofs.DiscreteTypes
import GradualTypes.Proofs.IntersectionMembers
import GradualTypes.Proofs.LowerBounds
import GradualTypes.Proofs.Recursion

/-!
# Generalized types stay as they are

A type in which no node is to be generalized is generalized to itself.  What a type is generalized
to is of that kind: literals, intervals and shapes have been replaced, and neither unions nor
intersections of the replaced parts bring such types back.  Unions only join intervals to wider
ones and merge shapes that may stay.  An intersection could be narrowed to a single integer, but
only if there were two intervals among its members, and these would have been narrowed before.

The answers to questions make no difference, so all this holds beyond the depth limit as well.
-/

namespace GradualTypes

open Inquiry
open GradualTypes.Intersection (IsSingle)
open GradualTypes.Ty (Formed IsNested)

variable {h : Hierarchy} {options : Options} {precision : Precision}
  {replies : Ty -> Ty -> Tristate -> Prop} {members ts : List Ty} {entries : List (Entry Ty)}
  {r s t : Ty} {n : Nat}

namespace Generalize

/-!
# Types that are not generalized
-/

/-- Generalization leaves the node as it is, apart from its children. -/
def IsGeneral (precision : Precision) : Ty -> Prop
  | .literal _ => False
  | .range q => precision ≠ .lessSpecific ∧ q.IsWide
  | .shape entries => entries = [] ∨ precision = .templateArgument
  | _ => True

theorem isCarried_isGeneral (precision : Precision) : Ty.IsCarried (IsGeneral precision) where
  error := trivial
  keyword := fun _ => trivial
  union := fun _ _ => trivial
  hull := fun hr hs => ⟨hr.1, hr.2.hull hs.2⟩
  single := fun hr => Or.inl hr.2
  shape := fun hshape hempty => hshape.imp_left hempty

end Generalize

open GradualTypes.Generalize (IsGeneral isCarried_isGeneral)

/-- Nothing is asked or built to generalize such a type. -/
theorem generalize_eq_pure (t : Ty) (ht : t.Everywhere (IsGeneral precision)) :
    generalize options precision t = pure t := by
  have hdescend : t.children.mapM (generalize options precision) >>= Traversal.update options t =
      pure t := by
    rw [mapM_congr fun c hc => generalize_eq_pure c (ht.inside hc), List.mapM_pure, pure_bind]
    exact if_pos (List.map_id' _)
  rw [generalize_eq]
  cases t with
  | literal v => exact ht.here.elim
  | range q => exact (if_neg ht.here.1).trans hdescend
  | shape entries =>
      rcases ht.here with rfl | rfl
      · rfl
      · rw [Generalize.node]
        split
        · rfl
        · exact (if_pos rfl).trans hdescend
  | _ => exact hdescend
termination_by t.size
decreasing_by exact Ty.size_lt_of_mem_children hc

/-!
# What generalization settles
-/

/-- Whether a type is an integer or an interval of integers. -/
def Ty.isInterval : Ty -> Bool
  | .literal (.int _) => true
  | .range _ => true
  | _ => false

namespace Generalize

/-- An intersection with the type has no interval from it. -/
def BringsNoInterval (t : Ty) : Prop :=
  ∀ m ∈ Intersection.membersOf t, m.range? = none

/-- A type takes the place of another one and stays as it is.  In place of a simple type it brings
simple types into an intersection, and an interval only in place of an integer or another
interval. -/
structure Settles (precision : Precision) (t r : Ty) : Prop where
  general : r.Everywhere (IsGeneral precision)
  simple : t.isSimple = true -> ∀ m ∈ Intersection.membersOf r, m.isSimple = true
  interval : t.isSimple = true -> BringsNoInterval r ∨ t.isInterval = true ∧ r.isSimple = true

theorem Settles.of_simple (hgeneral : r.Everywhere (IsGeneral precision))
    (hsimple : r.isSimple = true) (hrange : r.range? = none ∨ t.isInterval = true) :
    Settles precision t r where
  general := hgeneral
  simple := fun _ => by
    rw [Intersection.membersOf_of_isSimple hsimple, List.forall_mem_singleton]
    exact hsimple
  interval := fun _ => by
    rw [BringsNoInterval, Intersection.membersOf_of_isSimple hsimple, List.forall_mem_singleton]
    exact hrange.imp_right fun ht => ⟨ht, hsimple⟩

theorem Settles.of_leaf (hgeneral : IsGeneral precision r) (hleaf : r.children = [])
    (hsimple : r.isSimple = true) (hrange : r.range? = none ∨ t.isInterval = true) :
    Settles precision t r :=
  .of_simple (.leaf hgeneral hleaf) hsimple hrange

theorem Settles.keyword (k : Keyword) : Settles precision t (.keyword k) :=
  .of_leaf trivial rfl rfl (Or.inl rfl)

theorem Settles.error : Settles precision t .error :=
  .of_leaf trivial rfl rfl (Or.inl rfl)

/-- A type that is not to be generalized may stay if its children do. -/
theorem Settles.self (hgeneral : t.Everywhere (IsGeneral precision)) : Settles precision t t := by
  have hrange : t.range? = none ∨ t.isInterval = true := by
    cases t <;> first | exact Or.inl rfl | exact Or.inr rfl
  exact ⟨hgeneral, fun hsimple => (of_simple hgeneral hsimple hrange).simple hsimple,
    fun hsimple => (of_simple hgeneral hsimple hrange).interval hsimple⟩

/-- An intersection stays as it is if its members do. -/
theorem everywhere_iff_members : r.Everywhere (IsGeneral precision) ↔
    ∀ m ∈ Intersection.membersOf r, m.Everywhere (IsGeneral precision) := by
  cases r with
  | inter members => exact ⟨fun hr m hm => hr.inside hm, fun hmembers => .intro trivial hmembers⟩
  | _ => exact List.forall_mem_singleton.symm

/-- A simple type that is not to be generalized, with a constraint. -/
theorem meets_constrained (hs : s.Everywhere (IsGeneral precision)) (hsimple : s.isSimple = true)
    (hrange : s.range? = none) (a : Accessory) :
    (Intersection.of options [s, .accessory a]).Meets (.free replies) (Settles precision t) := by
  have hflat : ∀ m ∈ [s, .accessory a].flatMap Intersection.membersOf,
      m = s ∨ m = .accessory a := by
    rw [List.flatMap_cons, Intersection.membersOf_of_isSimple hsimple]
    simp [Intersection.membersOf]
  have hparts : ∀ m ∈ [s, .accessory a].flatMap Intersection.membersOf,
      m.Everywhere (IsGeneral precision) ∧ m.isSimple = true ∧ m.range? = none := by
    intro m hm
    rcases hflat m hm with rfl | rfl
    · exact ⟨hs, hsimple, hrange⟩
    · exact ⟨.leaf trivial rfl, rfl, rfl⟩
  refine (Intersection.meets_of_mem (fun m hm => (hparts m hm).2.1)
    fun m hm _ _ _ => Or.inl (hparts m hm).2.2).imp fun r hr => ?_
  have hmembers : ∀ m ∈ Intersection.membersOf r,
      m.Everywhere (IsGeneral precision) ∧ m.isSimple = true ∧ m.range? = none := by
    intro m hm
    rcases hr m hm with hm | rfl | rfl | rfl
    · exact hparts m hm
    all_goals exact ⟨.leaf trivial rfl, rfl, rfl⟩
  exact ⟨everywhere_iff_members.mpr fun m hm => (hmembers m hm).1,
    fun _ m hm => (hmembers m hm).2.1, fun _ => Or.inl fun m hm => (hmembers m hm).2.2⟩

/-!
# Literals and shapes
-/

theorem isWide_signRange (n : Int) : (signRange n).IsWide := by
  unfold signRange
  split
  · exact IntRange.isWide_of_ne rfl (by simp)
  · split
    · exact IntRange.isWide_of_ne rfl (by simp)
    · exact IntRange.isWide_of_ne rfl (by simp)

theorem toTy_signRange (n : Int) : (signRange n).toTy = .range (signRange n) := by
  refine IntRange.toTy_eq_range ?_
  unfold signRange
  split <;> [skip; split] <;> simp

theorem meets_literal (v : Literal) :
    (literal options precision v).Meets (.free replies) (Settles precision (.literal v)) := by
  unfold literal
  split
  · rename_i n
    refine (Union.meets_range_toTy (isWide_signRange n)).imp fun r hr => ?_
    rw [hr, toTy_signRange]
    exact .of_leaf ⟨by simp, isWide_signRange n⟩ rfl rfl (Or.inr rfl)
  · split
    · exact Settles.keyword _
    · have hstring : Ty.string.Everywhere (IsGeneral .moreSpecific) :=
        .leaf trivial rfl
      exact ⟨trivial, meets_constrained hstring rfl rfl _⟩
  · exact Settles.keyword _

theorem meets_array {key value : Ty} (hkey : key.Everywhere (IsGeneral precision))
    (hvalue : value.Everywhere (IsGeneral precision)) :
    (Build.array key value).Meets (.free replies) fun r =>
      r.Everywhere (IsGeneral precision) ∧ r.isSimple = true ∧ r.range? = none := by
  unfold Build.array
  split
  · exact ⟨.leaf trivial rfl, rfl, rfl⟩
  · refine ⟨trivial, .intro trivial ?_, rfl, rfl⟩
    rw [Ty.children, List.forall_mem_cons, List.forall_mem_singleton]
    exact ⟨hkey, hvalue⟩

/-- A shape goes over to an array of what its keys and its values go over to. -/
theorem meets_shape {P : Ty -> Prop} {go : Ty -> Inquiry Ty} (hP : Ty.IsCarried P)
    (hliteral : ∀ v, P (.literal v)) (hentries : ∀ e ∈ entries, IsNested P n e.value)
    (hgo : ∀ u, IsNested P n u -> (go u).Meets (.free replies) (Settles precision u)) :
    (shape options precision go entries).Meets (.free replies)
      (Settles precision (.shape entries)) := by
  refine (meets_keyAndValue_nested replies options hP hliteral hentries).bind ?_
  rintro ⟨key, value⟩ ⟨hkey, hvalue⟩
  refine (hgo key hkey).bind fun key' hkey' => ?_
  refine (hgo value hvalue).bind fun value' hvalue' => ?_
  refine (meets_array hkey'.general hvalue'.general).bind fun array harray => ?_
  obtain ⟨hgeneral, hsimple, hrange⟩ := harray
  split
  · exact ⟨trivial, meets_constrained hgeneral hsimple hrange _⟩
  · exact Settles.of_simple hgeneral hsimple (Or.inl hrange)

/-!
# Types with intersections of simple types
-/

/-- An intersection is one of simple types with one integer or interval at most, and there is more
than one integer in an interval. -/
def IsNarrowed : Ty -> Prop
  | .inter members => (∀ m ∈ members, m.isSimple = true) ∧
      members.Pairwise fun s t => s.isInterval = false ∨ t.isInterval = false
  | .range q => q.IsWide
  | _ => True

theorem isCarried_isNarrowed : Ty.IsCarried IsNarrowed where
  error := trivial
  keyword := fun _ => trivial
  union := fun _ _ => trivial
  hull := fun hr hs => hr.hull hs
  single := fun hr => Or.inl hr
  shape := fun _ _ => trivial

/-- What takes the place of a list has what each of the types gives. -/
theorem exists_of_forall₂ {Q : Ty -> Ty -> Prop} {us : List Ty} (hall : List.Forall₂ Q ts us) :
    ∀ u ∈ us, ∃ t ∈ ts, Q t u := by
  induction hall with
  | nil => simp
  | cons htu _ ih =>
      rw [List.forall_mem_cons]
      refine ⟨⟨_, List.mem_cons_self, htu⟩, fun u hu => ?_⟩
      obtain ⟨t, ht, hu⟩ := ih u hu
      exact ⟨t, List.mem_cons_of_mem _ ht, hu⟩

theorem pairwise_of_forall₂ {Q R S : Ty -> Ty -> Prop} {us : List Ty}
    (hall : List.Forall₂ Q ts us) (hts : ts.Pairwise R)
    (hpairs : ∀ {s t s' t'}, Q s s' -> Q t t' -> R s t -> S s' t') : us.Pairwise S := by
  induction hall with
  | nil => exact .nil
  | cons htu hrest ih =>
      rw [List.pairwise_cons] at hts ⊢
      refine ⟨fun u' hu' => ?_, ih hts.2⟩
      obtain ⟨t', ht', hu'⟩ := exists_of_forall₂ hrest u' hu'
      exact hpairs htu hu' (hts.1 t' ht')

/-!
# Nodes with children that stay as they are
-/

section Update

variable {us : List Ty}

/-- No two intervals come together if of every two types one brings none in, and no type brings
one in beside other types. -/
theorem isSingle_of_pairwise {x y : Ty}
    (hpairs : us.Pairwise fun u v => BringsNoInterval u ∨ BringsNoInterval v)
    (halone : ∀ u ∈ us, BringsNoInterval u ∨ u.isSimple = true)
    (hx : x ∈ us.flatMap Intersection.membersOf) (hy : y ∈ us.flatMap Intersection.membersOf)
    (hne : x ≠ y) : IsSingle x y := by
  have hsymm : Std.Symm fun u v => BringsNoInterval u ∨ BringsNoInterval v := ⟨fun _ _ => Or.symm⟩
  obtain ⟨u, hu, hxu⟩ := List.mem_flatMap.mp hx
  obtain ⟨v, hv, hyv⟩ := List.mem_flatMap.mp hy
  by_cases huv : u = v
  · subst huv
    rcases halone u hu with hnone | hsimple
    · exact Or.inl (hnone x hxu)
    · rw [Intersection.membersOf_of_isSimple hsimple, List.mem_singleton] at hxu hyv
      exact absurd (hxu.trans hyv.symm) hne
  · rcases hpairs.forall hu hv huv with hnone | hnone
    · exact Or.inl (hnone x hxu)
    · exact Or.inr (hnone y hyv)

/-- Only what takes the place of an integer or an interval brings an interval in. -/
theorem pairwise_bringsNoInterval (hnarrowed : IsNarrowed (.inter members))
    (hsettles : List.Forall₂ (Settles precision) members us) :
    us.Pairwise fun u v => BringsNoInterval u ∨ BringsNoInterval v := by
  obtain ⟨hsimple, hintervals⟩ := hnarrowed
  have hnone : ∀ {t u : Ty}, t.isSimple = true -> Settles precision t u -> t.isInterval = false ->
      BringsNoInterval u := by
    intro t u ht htu hno
    refine (htu.interval ht).resolve_right fun hboth => ?_
    simp [hno] at hboth
  refine pairwise_of_forall₂ hsettles (List.Pairwise.and_mem.mp hintervals) ?_
  rintro s t u v hsu htv ⟨hs, ht, hor⟩
  exact hor.imp (hnone (hsimple s hs) hsu) (hnone (hsimple t ht) htv)

theorem meets_inter (hnarrowed : IsNarrowed (.inter members))
    (hsettles : List.Forall₂ (Settles precision) members us) :
    (Intersection.of options us).Meets (.free replies) fun r =>
      r.Everywhere (IsGeneral precision) := by
  have hfrom : ∀ u ∈ us, ∃ t, t.isSimple = true ∧ Settles precision t u := fun u hu => by
    obtain ⟨t, ht, htu⟩ := exists_of_forall₂ hsettles u hu
    exact ⟨t, hnarrowed.1 t ht, htu⟩
  have hparts : ∀ m ∈ us.flatMap Intersection.membersOf,
      m.Everywhere (IsGeneral precision) ∧ m.isSimple = true :=
    Intersection.forall_flatMap fun u hu m hm => by
      obtain ⟨t, ht, htu⟩ := hfrom u hu
      exact ⟨everywhere_iff_members.mp htu.general m hm, htu.simple ht m hm⟩
  have halone : ∀ u ∈ us, BringsNoInterval u ∨ u.isSimple = true := fun u hu => by
    obtain ⟨t, ht, htu⟩ := hfrom u hu
    exact (htu.interval ht).imp_right And.right
  have hpairs := pairwise_bringsNoInterval hnarrowed hsettles
  refine (Intersection.meets_of_mem (fun m hm => (hparts m hm).2) fun x hx y hy =>
    isSingle_of_pairwise hpairs halone hx hy).imp fun r hr => ?_
  refine everywhere_iff_members.mpr fun m hm => ?_
  rcases hr m hm with hm | rfl | rfl | rfl
  · exact (hparts m hm).1
  all_goals exact .leaf trivial rfl

theorem meets_union {flavor : Flavor} (hus : ∀ u ∈ us, u.Everywhere (IsGeneral precision)) :
    (Traversal.rebuild options (.union flavor members) us).Meets (.free replies) fun r =>
      r.Everywhere (IsGeneral precision) := by
  have hnested : ∀ u ∈ us, IsNested (IsGeneral precision) (Ty.nestings us) u := fun u hu =>
    ⟨Ty.nestings_le_iff.mp (Nat.le_refl _) u hu, hus u hu⟩
  have hplain : (Union.of options us).Meets (.free replies) fun r =>
      r.Everywhere (IsGeneral precision) :=
    (Union.meets_upTo_nested (isCarried_isGeneral precision) _ _ _ us hnested).imp
      fun r hr => hr.everywhere
  cases flavor with
  | plain => exact hplain
  | benevolent =>
      refine hplain.bind fun r hr => ?_
      unfold Build.markBenevolent
      split
      · exact ⟨trivial, .intro trivial fun c hc => hr.inside hc⟩
      · exact hr

theorem meets_newShape (hgeneral : IsGeneral precision (.shape entries))
    (hus : ∀ u ∈ us, u.Everywhere (IsGeneral precision)) :
    (Build.shape (Traversal.withValues entries us)).Meets (.free replies)
      (Settles precision t) := by
  have hvalues : ∀ e ∈ Shape.ofList (Traversal.withValues entries us),
      e.value.Everywhere (IsGeneral precision) := by
    intro e he
    obtain ⟨pair, hpair, rfl⟩ := List.mem_map.mp (Shape.mem_of_mem_ofList he)
    exact hus _ (List.of_mem_zip hpair).2
  have hempty : entries = [] -> Shape.ofList (Traversal.withValues entries us) = [] := by
    rintro rfl
    rfl
  unfold Build.shape
  split
  · exact Settles.error
  · refine ⟨trivial, .of_simple (.intro ?_ (List.forall_mem_map.mpr hvalues)) rfl (Or.inl rfl)⟩
    exact (isCarried_isGeneral precision).shape hgeneral hempty

/-- A node whose children have been replaced by types that stay as they are. -/
theorem meets_update (hnarrowed : IsNarrowed t) (hgeneral : IsGeneral precision t)
    (hchildren : List.Forall₂ (Settles precision) t.children us) :
    (Traversal.update options t us).Meets (.free replies) (Settles precision t) := by
  have hus : ∀ u ∈ us, u.Everywhere (IsGeneral precision) := fun u hu => by
    obtain ⟨c, -, hcu⟩ := exists_of_forall₂ hchildren u hu
    exact hcu.general
  unfold Traversal.update
  split
  · rename_i hsame
    exact Settles.self (.intro hgeneral (hsame ▸ hus))
  · rename_i hchanged
    cases t with
    | object cls arguments => exact ⟨trivial, .of_simple (.intro trivial hus) rfl (Or.inl rfl)⟩
    | array key value =>
        cases hchildren with
        | cons hkey hrest => cases hrest with
          | cons hvalue hnil =>
              cases hnil
              exact (meets_array hkey.general hvalue.general).imp fun r hr =>
                Settles.of_simple hr.1 hr.2.1 (Or.inl hr.2.2)
    | shape entries => exact meets_newShape hgeneral hus
    | union flavor members =>
        exact (meets_union hus).imp fun r hr => ⟨hr, by rintro ⟨⟩, by rintro ⟨⟩⟩
    | inter members =>
        exact (meets_inter hnarrowed hchildren).imp fun r hr => ⟨hr, by rintro ⟨⟩, by rintro ⟨⟩⟩
    | _ =>
        cases hchildren
        exact absurd rfl hchanged

end Update

end Generalize

open GradualTypes.Generalize (IsNarrowed Settles isCarried_isNarrowed)

/-!
# All types
-/

/-- Whatever answers the questions get, a type whose intersections are narrowed goes over to one
that stays as it is. -/
theorem settles_generalize (ht : t.Everywhere IsNarrowed) :
    (generalize options precision t).Meets (.free replies) (Settles precision t) := by
  induction t using Ty.nesting_induction with
  | step t hless hchildren =>
      have hdescend : IsGeneral precision t ->
          (t.children.mapM (generalize options precision) >>= Traversal.update options t).Meets
            (.free replies) (Settles precision t) := fun hgeneral =>
        (meets_mapM fun c hc => hchildren c hc (ht.inside hc)).bind fun us hus =>
          Generalize.meets_update ht.here hgeneral hus
      rw [generalize_eq]
      cases t with
      | literal v => exact Generalize.meets_literal v
      | range q =>
          rw [Generalize.node]
          split
          · exact Settles.keyword _
          · rename_i hprecision
            exact hdescend ⟨hprecision, ht.here⟩
      | shape entries =>
          rw [Generalize.node]
          split
          · rename_i hempty
            rw [List.isEmpty_iff] at hempty
            subst hempty
            exact Settles.self (.leaf (Or.inl rfl) rfl)
          · split
            · rename_i hprecision
              exact hdescend (Or.inr hprecision)
            · obtain ⟨k, hk, hvalues⟩ := (IsNested.mk (Nat.le_refl _) ht).values
              exact Generalize.meets_shape isCarried_isNarrowed (fun _ => trivial) hvalues
                fun u hu => hless u (hk ▸ Nat.lt_succ_of_le hu.nesting) hu.everywhere
      | _ => exact hdescend trivial

/-!
# Types that have been built
-/

/-- The answers that truthful sessions give. -/
def Session.given (h : Hierarchy) (s t : Ty) (r : Tristate) : Prop :=
  ∃ σ : Session, σ.IsTruthful ∧ σ.hierarchy = h ∧ (answer relationDepth s t σ).1 = r

theorem Session.given_eq_exact {a : Tristate} (hweight : Subtype.weight s t ≤ relationDepth)
    (ha : given h s t a) : a = Subtype.exact h s t := by
  obtain ⟨σ, htruthful, rfl, rfl⟩ := ha
  exact answer_eq_exact htruthful hweight

/-- All types that a run returns are formed, even if the depth limit was met. -/
theorem Run.formed_given {allowed : Session -> Call -> Prop} {σ : Session}
    (hrun : Run h options allowed σ ts) : ∀ t ∈ ts, Formed (Session.given h) t := by
  induction hrun with
  | new => simp
  | @call σ ts c hrun harguments _ ih =>
      rcases hrun.reachable.kept with ⟨htruthful, rfl, -⟩
      refine List.forall_mem_cons.mpr ⟨?_, ih⟩
      exact Session.run_meets (Session.isReliable_answer relationDepth) htruthful
        (Call.meets_inquiry fun t ht => ih t (harguments t ht))
        fun s t τ _ hτ hhierarchy => ⟨τ, hτ, hhierarchy, rfl⟩
  | ask s t _ ih => exact ih

/-- An integer or an interval is found to be below another one, or to share no value with it, or
both are intervals. -/
theorem not_independent_of_isInterval (hs : s.isInterval = true) (ht : t.isInterval = true) :
    ¬ Intersection.Independent (Session.given h) s t := by
  have hdiscrete : ∀ {u : Ty}, u.isInterval = true -> u.IsDiscrete ∧ u.height = 1 := by
    intro u hu
    cases u with
    | literal v => cases v with
      | int n => exact ⟨.number n, rfl⟩
      | _ => cases hu
    | range q => exact ⟨.range q, rfl⟩
    | _ => cases hu
  have hlight : ∀ {u v : Ty}, u.height = 1 -> v.height = 1 ->
      Subtype.weight u v ≤ relationDepth := by
    intro u v hu hv
    exact Nat.le_trans (Subtype.weight_le u v) (by rw [hu, hv]; decide)
  obtain ⟨hsdiscrete, hsheight⟩ := hdiscrete hs
  obtain ⟨htdiscrete, htheight⟩ := hdiscrete ht
  rintro ⟨hranges, a, b, ha, hb, hrest⟩
  exact Subtype.not_independent_of_isDiscrete hsdiscrete htdiscrete.isOrdinary htdiscrete.isSimple
    ⟨hranges, a, b, Session.given_eq_exact (hlight hsheight htheight) ha,
      Session.given_eq_exact (hlight htheight hsheight) hb, hrest⟩

/-- Intersections without unions inside have been narrowed. -/
theorem isNarrowed_of_formed (hformed : t.IsFormed (Session.given h))
    (hdistributed : t.isDistributed = true) : IsNarrowed t := by
  cases t with
  | range q => exact IntRange.isWide_of_ne hformed.1 hformed.2
  | inter members =>
      refine ⟨fun m => Intersection.isSimple_of_mem_membersOf hformed rfl hdistributed, ?_⟩
      refine hformed.independent.imp fun {s t} hst => ?_
      by_contra hboth
      rw [not_or, Bool.not_eq_false, Bool.not_eq_false] at hboth
      exact not_independent_of_isInterval hboth.1 hboth.2 hst
  | _ => trivial

namespace Session

variable {options₁ made : Options} {σ : Session}

/-- A type in which no intersection has a union among its members goes over to one that is
generalized to itself, in any session.  At the lowest precision neither literals nor intervals nor
shapes other than the empty one are left inside.  Whatever the relation answers makes no
difference, so this holds beyond the depth limit as well. -/
theorem generalize_generalized (ht : Built h options t)
    (hdistributed : t.Everywhere fun u => u.isDistributed = true) (hσ : Reachable h options₁ σ) :
    let r := (σ.perform (generalize made precision t)).1
    (∀ (made' : Options) (σ' : Session), (σ'.perform (generalize made' precision r)).1 = r) ∧
      (precision = .lessSpecific -> r.Everywhere fun u => (∀ v, u ≠ .literal v) ∧
        (∀ q, u ≠ .range q) ∧ ∀ entries, u = .shape entries -> entries = []) := by
  obtain ⟨τ, ts, hrun, hmem⟩ := ht
  have hnarrowed : t.Everywhere IsNarrowed :=
    (Ty.Everywhere.and (hrun.formed_given t hmem) hdistributed).imp fun u hu =>
      isNarrowed_of_formed hu.1 hu.2
  have hsettles : (generalize made precision t).Meets (.free (Run.soundly h))
      (Settles precision t) := settles_generalize hnarrowed
  have hgeneral := (hσ.meets hsettles).general
  refine ⟨fun made' σ' => ?_, ?_⟩
  · rw [generalize_eq_pure _ hgeneral]
    rfl
  · rintro rfl
    refine hgeneral.imp fun u hu => ⟨?_, ?_, ?_⟩
    · rintro v rfl
      exact hu
    · rintro q rfl
      exact hu.1 rfl
    · rintro entries rfl
      exact hu.resolve_right (by decide)

/-- A shape with a literal, another shape and an intersection. -/
theorem generalize_generalized_shape :
    let σ := new .empty .default
    let named := Ty.inter [.object "C" [], .accessory (.hasProperty "p")]
    let inner := Ty.shape [⟨.text "c", .range ⟨some 0, some 9⟩, true⟩]
    let t := Ty.shape [⟨.text "a", .literal (.int 1), false⟩, ⟨.text "b", inner, false⟩,
      ⟨.text "d", named, true⟩]
    let r := (σ.perform (generalize .default .lessSpecific t)).1
    (σ.perform (generalize .default .lessSpecific r)).1 = r ∧
      r.Everywhere fun u => (∀ v, u ≠ .literal v) ∧ (∀ q, u ≠ .range q) ∧
        ∀ entries, u = .shape entries -> entries = [] := by
  intro σ named inner t r
  have hgiven : Call.results? .empty .default [] [.int 1, .range ⟨some 0, some 9⟩,
      .shape [⟨.text "c", .range ⟨some 0, some 9⟩, true⟩], .object "C" [], .hasProperty "p",
      .inter [.object "C" [], .accessory (.hasProperty "p")],
      .shape [⟨.text "a", .literal (.int 1), false⟩, ⟨.text "b", inner, false⟩,
        ⟨.text "d", named, true⟩]] =
      some [t, named, .accessory (.hasProperty "p"), .object "C" [], inner,
        .range ⟨some 0, some 9⟩, .literal (.int 1)] := by cbv
  have hmade := ConstructedWithin.of_calls (by simp) hgiven t List.mem_cons_self
  have hdistributed : t.Everywhere fun u => u.isDistributed = true :=
    Ty.everywhere_of_everyTo (n := 4) (by decide)
  have hnew : Reachable .empty .default σ := .new
  have hgeneralized : _ ∧ (Precision.lessSpecific = .lessSpecific -> r.Everywhere _) :=
    generalize_generalized hmade.built hdistributed hnew
  exact ⟨hgeneralized.1 .default σ, hgeneralized.2 rfl⟩

end Session
end GradualTypes
