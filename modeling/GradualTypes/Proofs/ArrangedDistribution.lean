import GradualTypes.Proofs.ArrangedIntersections

/-!
# Distribution that does not depend on the order of the members

Which of several unions an intersection is distributed over first depends on the order of the
members.  In the end each of the calls has chosen one alternative of each union, and what it
returns depends on the choice only, if the comparison of the alternatives is free of an order.

The results are put together in an order that does not matter if there is one union only.  With
several unions they are put together in several steps.  That is the same in any order if no
shapes are merged, and no two results contain each other: then the intersection is the least
type above all results.
-/

namespace GradualTypes
/-!
# Unions in which no shapes are merged
-/

namespace Union

open Inquiry
open GradualTypes.Subtype (Contained exact)

variable {h : Hierarchy} {options : Options} {members ts : List Ty} {P : Ty -> Prop} {u : Ty}
  {limit : Nat}

/-- If one of two shapes contains the other one, absorption leaves nothing to merge. -/
theorem mergeable_eq_nil (hready : IsReady (Session.exactly h) members)
    (hirredundant : IsIrredundant (Session.exactly h) members)
    (hshapes : ComparesShapes h (· ∈ members)) : mergeable members = [] := by
  rw [List.eq_nil_iff_forall_not_mem]
  intro group hgroup
  rcases mem_mergeable.mp hgroup with ⟨hgroup, htwo⟩
  rcases shapeGroups_spec hready.formed with ⟨hgrouping, -, hmem⟩
  have hnodup : group.Nodup := (List.nodup_flatten.mp
    ((perm_shapeGroups members).nodup_iff.mpr (nodup_entries hready.nodup))).1 group hgroup
  match group, htwo with
  | e :: f :: rest, _ =>
      have he : Ty.shape e ∈ members := (hmem e).mp ⟨_, hgroup, List.mem_cons_self⟩
      have hf : Ty.shape f ∈ members := (hmem f).mp ⟨_, hgroup, by simp⟩
      have hne : e ≠ f := by
        rintro rfl
        simp at hnodup
      rcases hshapes e f he hf (hgrouping.same _ hgroup e (by simp) f (by simp)) with hef | hfe
      · exact hne (Ty.shape.inj (hirredundant.eq_of_contained he hf hef))
      · exact hne (Ty.shape.inj (hirredundant.eq_of_contained hf he hfe)).symm

theorem value_exchange_of_nil {combine : List Ty -> Inquiry Ty} (hnil : mergeable members = []) :
    (exchange limit combine members).value (exact h) = members := by
  have hfew : shapeCount (mergeable members) ≤ limit := by simp [hnil, shapeCount]
  rw [mergeable] at hnil hfew
  rw [exchange, value_bind, value_mergeGroups_of_few combine hfew, hnil]
  simp [value_pure]

/-- No two different types contain each other, except that a union may have put scalar types in
their place. -/
theorem areUntied_of_added (hfinal : h.LeavesClosureFinal)
    (hready : IsReady (Session.exactly h) members) (hcomplete : ∀ m ∈ members, Ty.IsComplete m)
    (huntied : ∀ x ∈ members, ∀ y ∈ members, x.isScalar = false -> y.isScalar = false ->
      Contained h x y -> Contained h y x -> x = y) : Ty.AreUntied h members := by
  intro x hx y hy hxy hyx
  have hproper : ∀ u ∈ members, u.IsProper h ∧ u.unionMembers? = none := fun u hu => by
    rcases hready.isMember u hu with ⟨herror, -, -, hflat⟩
    exact ⟨⟨hready.formed u hu, hcomplete u hu, herror⟩, hflat⟩
  rcases hproper x hx with ⟨hx', hxflat⟩
  rcases hproper y hy with ⟨hy', hyflat⟩
  cases hxscalar : x.isScalar with
  | true => exact Subtype.eq_of_scalar hfinal hxscalar hx' hy' hyflat hxy hyx
  | false =>
      cases hyscalar : y.isScalar with
      | true => exact (Subtype.eq_of_scalar hfinal hyscalar hy' hx' hxflat hyx hxy).symm
      | false => exact huntied x hx y hy hxscalar hyscalar hxy hyx

theorem isScalar_of_added (hu : IsAdded u) : u.isScalar = true := by
  rcases hu with rfl | rfl | ⟨n, rfl⟩ | ⟨r, rfl⟩ <;> rfl

/-- Types are reduced freely if no shapes are merged and no two of them contain each other. -/
theorem reducesFreely_of_pieces {free : List Ty -> Prop} {combine : List Ty -> Inquiry Ty}
    (hfinal : h.LeavesClosureFinal) (hready : IsReady (Session.exactly h) members)
    (hne : members ≠ []) (hcomplete : ∀ m ∈ members, Ty.IsComplete m)
    (hpieces : ∀ m ∈ members, m.isScalar = false -> P m) (hshapes : ComparesShapes h P)
    (huntied : ∀ x y, P x -> P y -> Contained h x y -> Contained h y x -> x = y) :
    ReducesFreely h limit free combine members := by
  rcases value_join_ready hready hne with ⟨hready', -, hmem⟩
  have hpieces' : ∀ u ∈ (join members).value (exact h), u.isScalar = false -> P u := by
    intro u hu hscalar
    rcases hmem u hu with hu | hadded
    · exact hpieces u hu hscalar
    · rw [isScalar_of_added hadded] at hscalar
      cases hscalar
  have huntied' : Ty.AreUntied h ((join members).value (exact h)) := by
    refine areUntied_of_added hfinal hready' (fun u hu => ?_) fun x hx y hy hxscalar hyscalar => ?_
    · exact (hmem u hu).elim (hcomplete u) IsAdded.isComplete
    · exact huntied x y (hpieces' x hx hxscalar) (hpieces' y hy hyscalar)
  have hleft : IsAbsorption (Session.exactly h) ((join members).value (exact h))
      ((absorb ((join members).value (exact h))).value (exact h)) :=
    (meets_absorb _).value fun _ _ _ => rfl
  have hnil : mergeable ((absorb ((join members).value (exact h))).value (exact h)) = [] := by
    refine mergeable_eq_nil (hready'.sublist hleft.sublist) hleft.irredundant fun e f he hf => ?_
    exact hshapes e f (hpieces' _ (hleft.sublist.subset he) rfl)
      (hpieces' _ (hleft.sublist.subset hf) rfl)
  refine ⟨huntied', Or.inr ⟨?_, ?_⟩⟩
  · rw [value_bind]
    constructor <;> simp [hnil, shapeCount]
  · rw [value_bind, value_bind, value_exchange_of_nil hnil]
    exact huntied'.subset fun u hu => hleft.sublist.subset hu

theorem reducesFreely_nil {free : List Ty -> Prop} {combine : List Ty -> Inquiry Ty} :
    ReducesFreely h limit free combine [] where
  untied := fun _ hx => absurd hx List.not_mem_nil
  merges := Or.inr ⟨⟨Nat.zero_le limit, fun _ hgroup => absurd hgroup List.not_mem_nil,
    fun _ hgroup => absurd hgroup List.not_mem_nil⟩, fun _ hx => absurd hx List.not_mem_nil⟩

/-- So is the union of types whose alternatives are such. -/
theorem joinsFreely_of_pieces (hfinal : h.LeavesClosureFinal) (hfactors : ∀ t ∈ ts, t.IsFactor h)
    (hpieces : ∀ t ∈ ts, ∀ x ∈ membersOf t, x.isScalar = false -> P x)
    (hshapes : ComparesShapes h P)
    (huntied : ∀ x y, P x -> P y -> Contained h x y -> Contained h y x -> x = y) :
    JoinsFreely h options ts := by
  have hflat : ∀ u ∈ ts.flatMap membersOf, u.IsProper h ∧ u.unionMembers? = none ∧
      (u.isScalar = false -> P u) := by
    intro u hu
    rcases List.mem_flatMap.mp hu with ⟨t, ht, hut⟩
    rcases (hfactors t ht).proper.alternative hut with ⟨hproper, hnone⟩
    exact ⟨hproper, hnone, hpieces t ht u hut⟩
  unfold JoinsFreely
  match ts, Ty.heights ts with
  | [], _ => simp [IsOrderFree]
  | [t], _ => simp [IsOrderFree]
  | t :: t' :: rest, 0 => simp [IsOrderFree]
  | t :: t' :: rest, n + 1 =>
      change .error ∈ (t :: t' :: rest).flatMap membersOf ∨
        .mixed ∈ (t :: t' :: rest).flatMap membersOf ∨
          ReducesFreely h _ (IsOrderFree h _ n) (upTo _ n) (distinctMembers (t :: t' :: rest))
      generalize t :: t' :: rest = ts at hflat ⊢
      by_cases hmixed : .mixed ∈ ts.flatMap membersOf
      · exact Or.inr (Or.inl hmixed)
      · have hall : ∀ u ∈ Ty.distinct (ts.flatMap membersOf), u ∈ ts.flatMap membersOf :=
          fun u hu => Ty.mem_distinct.mp hu
        have hleft : ∀ u ∈ distinctMembers ts, u ∈ ts.flatMap membersOf := fun u hu =>
          hall u (List.mem_filter.mp hu).1
        have hready : IsReady (Session.exactly h) (distinctMembers ts) := by
          refine isReady_left (Ty.nodup_distinct _) (fun u hu => (hflat u (hall u hu)).1.formed)
            (fun u hu => (hflat u (hall u hu)).2.1) ?_ fun hmem => hmixed (hleft _ hmem)
          exact fun herror => (hflat _ (hall _ herror)).1.noError rfl
        refine Or.inr (Or.inr ?_)
        by_cases hne : distinctMembers ts = []
        · rw [hne]
          exact reducesFreely_nil
        · exact reducesFreely_of_pieces hfinal hready hne
            (fun u hu => (hflat u (hleft u hu)).1.complete)
            (fun u hu => (hflat u (hleft u hu)).2.2) hshapes huntied

end Union

namespace Intersection

open Inquiry
open GradualTypes.Subtype (Contained exact)
open GradualTypes.Ty (Formed IsAlternative)
open GradualTypes.Union (ComparesShapes IsSum JoinsFreely)

variable {h : Hierarchy} {options : Options} {a : Arrangement}
  {members others kept left rest alternatives : List Ty} {flavor : Flavor} {f g : Ty -> Ty}
  {s t u p : Ty}

/-!
# Choices
-/

/-- Different types that have been prepared, and can be distributed completely. -/
structure AreOperands (h : Hierarchy) (options : Options) (kept : List Ty) : Prop where
  two : 2 ≤ kept.length
  nodup : kept.Nodup
  operand : ∀ t ∈ kept, IsOperand h t
  few : pieces kept ≤ options.maxIntersectionDistribution

/-- A choice of one alternative of each type. -/
def IsChoice (kept : List Ty) (f : Ty -> Ty) : Prop :=
  ∀ t ∈ kept, f t ∈ Union.membersOf t

/-- The intersection of the alternatives that are chosen. -/
def chosen (h : Hierarchy) (options : Options) (kept : List Ty) (f : Ty -> Ty) : Ty :=
  (of options (kept.map f)).value (exact h)

/-- The comparison of the alternatives does not depend on their order, whichever are chosen. -/
def ChoosesFreely (h : Hierarchy) (kept : List Ty) : Prop :=
  ∀ f, IsChoice kept f -> ∀ left, prepare (kept.map f) = .inr left -> ReducesFreely h left

theorem AreOperands.perm (hkept : AreOperands h options kept) (hperm : kept.Perm left) :
    AreOperands h options left where
  two := hperm.length_eq ▸ hkept.two
  nodup := hperm.nodup_iff.mp hkept.nodup
  operand := fun t ht => hkept.operand t (hperm.mem_iff.mpr ht)
  few := pieces_perm hperm ▸ hkept.few

theorem IsOperand.isProper (ht : IsOperand h t) : t.IsProper h :=
  ⟨ht.formed, ht.complete, ht.isMember.1⟩

theorem IsOperand.membersOf_eq (ht : IsOperand h t) : membersOf t = [t] := by
  cases t with
  | inter others => exact absurd rfl (ht.isMember.2.2.2 others)
  | _ => rfl

theorem IsOperand.isAlternative (ht : IsOperand h t) (hu : u ∈ Union.membersOf t) :
    u.IsAlternative h :=
  ht.isProper.isAlternative ht.distributed hu

/-- An operand that is no union is not taken apart. -/
theorem IsOperand.isSimple (ht : IsOperand h t) (hflat : t.unionMembers? = none) :
    t.isSimple = true := by
  rcases Ty.union_or_inter_or_simple t with ⟨flavor, others, rfl⟩ | ⟨others, rfl⟩ | hsimple
  · cases hflat
  · exact absurd rfl (ht.isMember.2.2.2 others)
  · exact hsimple

theorem mem_flat_map : u ∈ (kept.map f).flatMap membersOf ↔ ∃ t ∈ kept, u ∈ membersOf (f t) := by
  rw [List.flatMap_map, List.mem_flatMap]

/-- Choices that bring in the same types have the same result. -/
theorem chosen_congr (htwo : 2 ≤ kept.length) (htwo' : 2 ≤ left.length)
    (hsame : ∀ u, (∃ t ∈ kept, u ∈ membersOf (f t)) ↔ ∃ t ∈ left, u ∈ membersOf (g t)) :
    chosen h options kept f = chosen h options left g := by
  have hof : of options (kept.map f) = of options (left.map g) :=
    of_congr (by rwa [List.length_map]) (by rwa [List.length_map]) fun u => by
      rw [mem_flat_map, mem_flat_map, hsame]
  unfold chosen
  rw [hof]

theorem chosen_perm (htwo : 2 ≤ kept.length) (hperm : kept.Perm left) :
    chosen h options kept f = chosen h options left f :=
  chosen_congr htwo (hperm.length_eq ▸ htwo) fun u => by simp only [hperm.mem_iff]

theorem ChoosesFreely.of_same (hkept : ChoosesFreely h kept)
    (hchoice : ∀ g, IsChoice left g -> ∃ f, IsChoice kept f ∧
      ∀ u, (∃ t ∈ kept, u ∈ membersOf (f t)) ↔ ∃ t ∈ left, u ∈ membersOf (g t)) :
    ChoosesFreely h left := by
  intro g hg next hprepare
  obtain ⟨f, hf, hsame⟩ := hchoice g hg
  refine hkept f hf next (Eq.trans (prepare_congr fun u => ?_) hprepare)
  rw [mem_flat_map, mem_flat_map, hsame]

theorem ChoosesFreely.perm (hkept : ChoosesFreely h kept) (hperm : kept.Perm left) :
    ChoosesFreely h left :=
  hkept.of_same fun g hg => ⟨g, fun t ht => hg t (hperm.mem_iff.mp ht), fun u => by
    simp only [hperm.mem_iff]⟩

theorem AreOperands.isAlternative (hkept : AreOperands h options kept) (hf : IsChoice kept f) :
    ∀ t ∈ kept.map f, t.IsAlternative h :=
  List.forall_mem_map.mpr fun t ht => (hkept.operand t ht).isAlternative (hf t ht)

/-!
# Types without unions
-/

theorem settle_of_open (htwo : 2 ≤ kept.length) (hopen : ∀ t ∈ kept, IsOpen t) :
    settle kept = .inr kept := by
  have herror : .error ∉ kept := fun ht => (hopen _ ht).1 rfl
  have hnever : .never ∉ kept := fun ht => (hopen _ ht).2.2 rfl
  have hleft : kept.filter (· != .mixed) = kept :=
    List.filter_eq_self.mpr fun t ht => by simpa using (hopen t ht).2.1
  unfold settle
  rw [hleft, if_neg (by rwa [List.contains_iff_mem]), if_neg (by rwa [List.contains_iff_mem])]
  match kept, htwo with
  | _ :: _ :: _, _ => rfl

section Flat

variable (hkept : AreOperands h options kept) (hfirst : firstUnion? kept = none)
include hkept hfirst

theorem AreOperands.isSimple : ∀ t ∈ kept, t.isSimple = true := by
  intro t ht
  refine (hkept.operand t ht).isSimple ?_
  cases t with
  | union flavor alternatives => exact absurd hfirst (exists_firstUnion? ht)
  | _ => rfl

/-- There is one choice only. -/
theorem AreOperands.choice_eq (hf : IsChoice kept f) : ∀ t ∈ kept, f t = t := by
  intro t ht
  have hmem := hf t ht
  rw [Union.membersOf_of_flat (Ty.unionMembers?_of_isSimple (hkept.isSimple hfirst t ht))] at hmem
  exact List.mem_singleton.mp hmem

theorem AreOperands.areCompared : AreCompared h kept where
  nonempty := List.ne_nil_of_length_pos (Nat.lt_of_lt_of_le Nat.two_pos hkept.two)
  proper := fun t ht => (hkept.operand t ht).isProper
  simple := hkept.isSimple hfirst
  isOpen := fun t ht => by
    rcases (hkept.operand t ht).isMember with ⟨herror, hmixed, hnever, -⟩
    exact ⟨herror, hmixed, hnever⟩

/-- Such types are prepared already, apart from their order. -/
theorem AreOperands.exists_prepare :
    ∃ left, prepare kept = .inr left ∧ kept.Perm left := by
  have hflat : kept.flatMap membersOf = kept := by
    rw [List.flatMap_congr fun t ht => (hkept.operand t ht).membersOf_eq, List.flatMap_singleton']
  have hperm : kept.Perm (Ty.distinct (kept.flatMap membersOf)) := by
    refine (List.perm_ext_iff_of_nodup hkept.nodup (Ty.nodup_distinct _)).mpr fun t => ?_
    rw [Ty.mem_distinct, hflat]
  have hopen := (hkept.areCompared hfirst).isOpen
  exact (settle_of_perm hperm).2 kept (settle_of_open hkept.two hopen)

/-- What is left of the types is what they have in common. -/
theorem AreOperands.value_reduce (hfinal : h.LeavesClosureFinal) (hfree : ChoosesFreely h kept) :
    (reduce kept).value (exact h) = chosen h options kept id := by
  obtain ⟨left, hprepare, hperm⟩ := hkept.exists_prepare hfirst
  have hchoice : IsChoice kept id := fun t ht => by
    rw [Union.membersOf_of_flat (Ty.unionMembers?_of_isSimple (hkept.isSimple hfirst t ht))]
    exact List.mem_cons_self
  have halternatives := hkept.isAlternative hchoice
  have hreduces := hfree id hchoice left (by rwa [List.map_id])
  rw [List.map_id] at halternatives
  rw [chosen, List.map_id, of_alternatives halternatives hkept.two, hprepare]
  exact (value_reduce_comm hfinal (hkept.areCompared hfirst) (hreduces.perm hperm.symm) hperm).symm

end Flat

/-!
# The first union
-/

section First

variable (hkept : AreOperands h options kept)
  (hfirst : firstUnion? kept = some (flavor, alternatives, rest))
include hkept hfirst

theorem mem_rest : u ∈ rest ↔ u ∈ kept ∧ u ≠ .union flavor alternatives := by
  have hperm := perm_of_firstUnion? hfirst
  have hnot := (List.nodup_cons.mp (hperm.nodup_iff.mp hkept.nodup)).1
  rw [hperm.mem_iff, List.mem_cons]
  constructor
  · exact fun hu => ⟨Or.inr hu, fun heq => hnot (heq ▸ hu)⟩
  · exact fun hu => hu.1.resolve_left hu.2

theorem AreOperands.union : IsOperand h (.union flavor alternatives) :=
  hkept.operand _ (mem_of_firstUnion? hfirst).1

/-- An alternative of the union takes its place. -/
theorem mem_flat_part : u ∈ (rest ++ [t]).flatMap membersOf ↔ u ∈ rest ∨ u ∈ membersOf t := by
  have hrest : rest.flatMap membersOf = rest := by
    have hself : ∀ k ∈ rest, membersOf k = [k] := fun k hk =>
      (hkept.operand k ((mem_rest hkept hfirst).mp hk).1).membersOf_eq
    rw [List.flatMap_congr hself, List.flatMap_singleton']
  rw [List.flatMap_append, hrest, List.mem_append, List.flatMap_singleton]

theorem two_le_length_part (t : Ty) : 2 ≤ (rest ++ [t]).length := by
  have hlength := (perm_of_firstUnion? hfirst).length_eq
  have htwo := hkept.two
  simp only [List.length_cons, List.length_append, List.length_nil] at hlength ⊢
  omega

/-- A choice in which a given alternative of the union is chosen. -/
theorem exists_update : (∃ s ∈ kept, u ∈ membersOf
      (Function.update f (.union flavor alternatives) t s)) ↔
    (∃ s ∈ rest, u ∈ membersOf (f s)) ∨ u ∈ membersOf t := by
  have hmem : ∀ s, s ∈ kept ↔ s = .union flavor alternatives ∨ s ∈ rest := fun s => by
    rw [(perm_of_firstUnion? hfirst).mem_iff, List.mem_cons]
  have hother : ∀ s ∈ rest, Function.update f (.union flavor alternatives) t s = f s := fun s hs =>
    Function.update_of_ne ((mem_rest hkept hfirst).mp hs).2 t f
  simp only [hmem, or_and_right, exists_or, exists_eq_left, Function.update_self]
  rw [or_comm]
  refine or_congr_left ⟨?_, ?_⟩
  · rintro ⟨s, hs, hu⟩
    exact ⟨s, hs, hother s hs ▸ hu⟩
  · rintro ⟨s, hs, hu⟩
    exact ⟨s, hs, (hother s hs).symm ▸ hu⟩

theorem isChoice_update (hf : ∀ s ∈ rest, f s ∈ Union.membersOf s) (ht : t ∈ alternatives) :
    IsChoice kept (Function.update f (.union flavor alternatives) t) := by
  intro s hs
  by_cases heq : s = .union flavor alternatives
  · rw [heq, Function.update_self]
    exact ht
  · rw [Function.update_of_ne heq]
    exact hf s ((mem_rest hkept hfirst).mpr ⟨hs, heq⟩)

end First

/-!
# One union
-/

/-- There is one union at most, and the results for its alternatives are put together in a way
that does not depend on an order. -/
structure HasOneUnion (h : Hierarchy) (options : Options) (kept : List Ty) : Prop where
  one : ∀ s ∈ kept, ∀ t ∈ kept, s.unionMembers? ≠ none -> t.unionMembers? ≠ none -> s = t
  parts : ∀ flavor alternatives, .union flavor alternatives ∈ kept ->
    JoinsFreely h options (alternatives.map fun t =>
      chosen h options kept (Function.update id (.union flavor alternatives) t))

theorem HasOneUnion.perm (hkept : AreOperands h options kept) (hone : HasOneUnion h options kept)
    (hperm : kept.Perm left) : HasOneUnion h options left where
  one := fun s hs t ht => hone.one s (hperm.mem_iff.mpr hs) t (hperm.mem_iff.mpr ht)
  parts := fun flavor alternatives hmem => by
    have hparts := hone.parts flavor alternatives (hperm.mem_iff.mpr hmem)
    simpa only [chosen_perm hkept.two hperm] using hparts

section One

variable (hfinal : h.LeavesClosureFinal) (hkept : AreOperands h options kept)
  (hfree : ChoosesFreely h kept)
include hfinal hkept hfree

theorem value_compareBy_none (a : Arrangement) (hfirst : firstUnion? kept = none) :
    (compareBy a options kept).value (exact h) = chosen h options kept id := by
  rw [compareBy_of_none hfirst]
  exact hkept.value_reduce hfirst hfinal hfree

variable (hone : HasOneUnion h options kept)
include hone

/-- What the alternatives of the only union bring in is not distributed any further. -/
theorem value_part (a : Arrangement)
    (hfirst : firstUnion? kept = some (flavor, alternatives, rest)) (ht : t ∈ alternatives) :
    (ofBy a options (rest ++ [t])).value (exact h) =
      chosen h options kept (Function.update id (.union flavor alternatives) t) := by
  have hflat : ∀ s ∈ rest, s ∈ Union.membersOf s := by
    intro s hs
    rcases (mem_rest hkept hfirst).mp hs with ⟨hs', hne⟩
    by_cases hsflat : s.unionMembers? = none
    · rw [Union.membersOf_of_flat hsflat]
      exact List.mem_cons_self
    · exact absurd (hone.one s hs' _ (mem_of_firstUnion? hfirst).1 hsflat (by simp [Ty.unionMembers?]))
        hne
  have hself : ∀ s ∈ rest, membersOf s = [s] := fun s hs =>
    (hkept.operand s ((mem_rest hkept hfirst).mp hs).1).membersOf_eq
  have hchoice := isChoice_update (f := id) hkept hfirst hflat ht
  refine value_ofBy_alternatives a hfinal (hkept.isAlternative hchoice)
    (by simpa using hkept.two) (two_le_length_part hkept hfirst t) (fun u => ?_) (hfree _ hchoice)
  rw [mem_flat_map, exists_update hkept hfirst, mem_flat_part hkept hfirst]
  refine or_congr_left ⟨?_, fun hu => ⟨u, hu, by simp [hself u hu]⟩⟩
  rintro ⟨s, hs, hu⟩
  rw [id, hself s hs, List.mem_singleton] at hu
  exact hu ▸ hs

theorem value_compareBy_some (a : Arrangement)
    (hfirst : firstUnion? kept = some (flavor, alternatives, rest)) :
    (compareBy a options kept).value (exact h) =
      (gather options flavor (alternatives.map fun t =>
        chosen h options kept (Function.update id (.union flavor alternatives) t))).value
          (exact h) := by
  have hparts : (alternatives.map fun t => (ofBy a options (rest ++ [t])).value (exact h)) =
      alternatives.map fun t =>
        chosen h options kept (Function.update id (.union flavor alternatives) t) :=
    List.map_congr_left fun t ht => value_part hfinal hkept hfree hone a hfirst ht
  rw [compareBy_of_some hkept.few hfirst, value_bind, value_mapM, hparts]
  refine value_gatherBy a hfinal (List.forall_mem_map.mpr fun t ht => ?_)
    (hone.parts flavor alternatives (mem_of_firstUnion? hfirst).1)
  rw [← value_part hfinal hkept hfree hone .byCode hfirst ht, ofBy_byCode]
  refine (meets_of fun m hm => ?_).value fun _ _ _ => rfl
  rcases List.mem_append.mp hm with hm | hm
  · exact (hkept.operand m ((mem_rest hkept hfirst).mp hm).1).formed
  · rw [List.mem_singleton.mp hm]
    exact (hkept.union hfirst).formed.inside ht

/-- The intersection over one union at most is the same under every arrangement. -/
theorem value_compareBy_one (a b : Arrangement) (hperm : kept.Perm left) :
    (compareBy b options left).value (exact h) = (compareBy a options kept).value (exact h) := by
  have hleft := hkept.perm hperm
  have hfree' := hfree.perm hperm
  have hone' := hone.perm hkept hperm
  have hmoved : ∀ {flavor alternatives}, .union flavor alternatives ∈ kept ↔
      .union flavor alternatives ∈ left := hperm.mem_iff
  cases hfirst : firstUnion? kept with
  | none =>
      have hnone : firstUnion? left = none := by
        rw [Option.eq_none_iff_forall_ne_some]
        rintro ⟨flavor, alternatives, rest⟩ hsome
        exact exists_firstUnion? (hmoved.mpr (mem_of_firstUnion? hsome).1) hfirst
      rw [value_compareBy_none hfinal hleft hfree' b hnone,
        value_compareBy_none hfinal hkept hfree a hfirst, chosen_perm hkept.two hperm]
  | some found =>
      obtain ⟨flavor, alternatives, rest⟩ := found
      have hmem := (mem_of_firstUnion? hfirst).1
      cases hfirst' : firstUnion? left with
      | none => exact absurd hfirst' (exists_firstUnion? (hmoved.mp hmem))
      | some found' =>
          obtain ⟨flavor', alternatives', rest'⟩ := found'
          have hmem' := hmoved.mpr (mem_of_firstUnion? hfirst').1
          have hsame := hone.one _ hmem _ hmem' (by simp [Ty.unionMembers?])
            (by simp [Ty.unionMembers?])
          obtain ⟨rfl, rfl⟩ := Ty.union.inj hsame
          rw [value_compareBy_some hfinal hleft hfree' hone' b hfirst',
            value_compareBy_some hfinal hkept hfree hone a hfirst]
          simp only [chosen_perm hkept.two hperm]

end One

/-!
# Several unions
-/

/-- The results of all choices. -/
def IsChosen (h : Hierarchy) (options : Options) (kept : List Ty) (p : Ty) : Prop :=
  ∃ f, IsChoice kept f ∧ p = chosen h options kept f

/-- The results of all choices can be put together in any order: no shapes are merged, and no two
results contain each other. -/
structure HasSum (h : Hierarchy) (options : Options) (kept : List Ty) : Prop where
  plain : ∀ flavor alternatives, .union flavor alternatives ∈ kept -> flavor = .plain
  shapes : ComparesShapes h (IsChosen h options kept)
  untied : ∀ p q, IsChosen h options kept p -> IsChosen h options kept q -> Contained h p q ->
    Contained h q p -> p = q

theorem isChosen_perm (hkept : AreOperands h options kept) (hperm : kept.Perm left) :
    IsChosen h options left p ↔ IsChosen h options kept p := by
  refine exists_congr fun f => and_congr ?_ (by rw [chosen_perm hkept.two hperm])
  exact forall_congr' fun t => by rw [hperm.mem_iff]

section Part

variable (hkept : AreOperands h options kept)
  (hfirst : firstUnion? kept = some (flavor, alternatives, rest)) (ht : t ∈ alternatives)
include hkept hfirst ht

theorem isAlternative_part : t.IsAlternative h :=
  (hkept.union hfirst).isAlternative ht

/-- What an alternative brings in is not taken apart. -/
theorem isOperand_member (hu : u ∈ membersOf t) : IsOperand h u ∧ u.isSimple = true := by
  have halternative := isAlternative_part hkept hfirst ht
  rcases halternative.member hu with ⟨hproper, hsimple⟩
  refine ⟨⟨hproper.formed, hproper.complete, ?_, ?_⟩, hsimple⟩
  · cases t with
    | inter others => exact halternative.proper.formed.here.isMember u hu
    | _ =>
        rcases (hkept.union hfirst).formed.unionMember ht with ⟨-, herror, hmixed, hnever, -⟩
        rw [List.mem_singleton.mp hu]
        exact ⟨herror, hmixed, hnever, by simp⟩
  · rw [Union.membersOf_of_flat (Ty.unionMembers?_of_isSimple hsimple), List.forall_mem_singleton]
    exact isDistributed_of_isSimple hsimple

/-- Nothing that a part brings in settles it. -/
theorem isMember_part : ∀ s ∈ (rest ++ [t]).flatMap membersOf, IsMember s := by
  intro s hs
  rcases (mem_flat_part hkept hfirst).mp hs with hrest | hmember
  · exact (hkept.operand s ((mem_rest hkept hfirst).mp hrest).1).isMember
  · exact (isOperand_member hkept hfirst ht hmember).1.isMember

variable (hleft : ∀ u, u ∈ left ↔ u ∈ rest ∨ u ∈ membersOf t)
include hleft

theorem areOperands_part (htwo : 2 ≤ left.length) (hnodup : left.Nodup) :
    AreOperands h options left where
  two := htwo
  nodup := hnodup
  operand := fun u hu => ((hleft u).mp hu).elim
    (fun hrest => hkept.operand u ((mem_rest hkept hfirst).mp hrest).1)
    fun hmember => (isOperand_member hkept hfirst ht hmember).1
  few := by
    refine Nat.le_trans (pieces_le hnodup (fun u hu => ?_) fun k hk => ?_) hkept.few
    · exact ((hleft u).mp hu).imp (fun hrest => ((mem_rest hkept hfirst).mp hrest).1)
        fun hmember => width_of_isSimple (isOperand_member hkept hfirst ht hmember).2
    · exact one_le_width (hkept.operand k hk).formed

/-- A choice for the part is one for the whole. -/
theorem exists_choice_of_part (hg : IsChoice left g) : ∃ f, IsChoice kept f ∧
    f (.union flavor alternatives) = t ∧
      ∀ u, (∃ s ∈ kept, u ∈ membersOf (f s)) ↔ ∃ s ∈ left, u ∈ membersOf (g s) := by
  have hself : ∀ s ∈ membersOf t, membersOf (g s) = [s] := by
    intro s hs
    have hsimple := (isOperand_member hkept hfirst ht hs).2
    have hmem := hg s ((hleft s).mpr (Or.inr hs))
    rw [Union.membersOf_of_flat (Ty.unionMembers?_of_isSimple hsimple)] at hmem
    rw [List.mem_singleton.mp hmem, membersOf_of_isSimple hsimple]
  refine ⟨Function.update g (.union flavor alternatives) t,
    isChoice_update hkept hfirst (fun s hs => hg s ((hleft s).mpr (Or.inl hs))) ht,
    Function.update_self _ t g, fun u => ?_⟩
  rw [exists_update hkept hfirst]
  simp only [hleft, or_and_right, exists_or]
  refine or_congr_right ⟨fun hu => ⟨u, hu, by simp [hself u hu]⟩, ?_⟩
  rintro ⟨s, hs, hu⟩
  rw [hself s hs, List.mem_singleton] at hu
  exact hu ▸ hs

/-- A choice with the alternative is one for the part. -/
theorem exists_choice_of_whole (hf : IsChoice kept f) (hft : f (.union flavor alternatives) = t) :
    ∃ g, IsChoice left g ∧
      ∀ u, (∃ s ∈ kept, u ∈ membersOf (f s)) ↔ ∃ s ∈ left, u ∈ membersOf (g s) := by
  have hrest : ∀ s ∈ rest, s ∈ kept := fun s hs => ((mem_rest hkept hfirst).mp hs).1
  have hflat : ∀ s ∈ membersOf t, Union.membersOf s = [s] ∧ membersOf s = [s] := fun s hs => by
    have hsimple := (isOperand_member hkept hfirst ht hs).2
    exact ⟨Union.membersOf_of_flat (Ty.unionMembers?_of_isSimple hsimple),
      membersOf_of_isSimple hsimple⟩
  have hself : ∀ s ∈ membersOf t, (if s ∈ rest then f s else s) = s := by
    intro s hs
    split
    · rename_i hmem
      have hchosen := hf s (hrest s hmem)
      rw [(hflat s hs).1] at hchosen
      exact List.mem_singleton.mp hchosen
    · rfl
  refine ⟨fun s => if s ∈ rest then f s else s, fun s hs => ?_, fun u => ?_⟩
  · dsimp only
    rcases (hleft s).mp hs with hmem | hmem
    · rw [if_pos hmem]
      exact hf s (hrest s hmem)
    · rw [hself s hmem, (hflat s hmem).1]
      exact List.mem_cons_self
  · have hwhole := exists_update (f := f) (u := u) (t := t) hkept hfirst
    rw [← hft, Function.update_eq_self, hft] at hwhole
    rw [hwhole]
    simp only [hleft, or_and_right, exists_or]
    refine or_congr ?_ ⟨fun hu => ⟨u, hu, ?_⟩, ?_⟩
    · refine exists_congr fun s => and_congr_right fun hs => ?_
      rw [if_pos hs]
    · rw [hself u hu, (hflat u hu).2]
      exact List.mem_cons_self
    · rintro ⟨s, hs, hu⟩
      rw [hself s hs, (hflat s hs).2, List.mem_singleton] at hu
      exact hu ▸ hs

/-- The results of the part are those of the choices with the alternative. -/
theorem isChosen_part (htwo : 2 ≤ left.length) : IsChosen h options left p ↔
    ∃ f, IsChoice kept f ∧ f (.union flavor alternatives) = t ∧ p = chosen h options kept f := by
  constructor
  · rintro ⟨g, hg, rfl⟩
    obtain ⟨f, hf, hft, hsame⟩ := exists_choice_of_part hkept hfirst ht hleft hg
    exact ⟨f, hf, hft, (chosen_congr hkept.two htwo hsame).symm⟩
  · rintro ⟨f, hf, hft, rfl⟩
    obtain ⟨g, hg, hsame⟩ := exists_choice_of_whole hkept hfirst ht hleft hf hft
    exact ⟨g, hg, chosen_congr hkept.two htwo hsame⟩

theorem choosesFreely_part (hfree : ChoosesFreely h kept) : ChoosesFreely h left :=
  hfree.of_same fun _ hg => by
    obtain ⟨f, hf, -, hsame⟩ := exists_choice_of_part hkept hfirst ht hleft hg
    exact ⟨f, hf, hsame⟩

theorem hasSum_part (htwo : 2 ≤ left.length) (hsum : HasSum h options kept) :
    HasSum h options left := by
  have hchosen : ∀ p, IsChosen h options left p -> IsChosen h options kept p := fun p hp => by
    obtain ⟨f, hf, -, heq⟩ := (isChosen_part hkept hfirst ht hleft htwo).mp hp
    exact ⟨f, hf, heq⟩
  refine ⟨fun flavor' others hmem => ?_, hsum.shapes.mono hchosen, fun p q hp hq =>
    hsum.untied p q (hchosen p hp) (hchosen q hq)⟩
  rcases (hleft _).mp hmem with hrest | hmember
  · exact hsum.plain flavor' others ((mem_rest hkept hfirst).mp hrest).1
  · cases (isOperand_member hkept hfirst ht hmember).2

end Part

theorem isSum_single (hfinal : h.LeavesClosureFinal) (hu : u.IsAlternative h) :
    IsSum h (· = u) u := by
  have hself : Union.membersOf u = [u] := Union.membersOf_of_flat hu.flat
  refine Union.isSum_alternatives hfinal hu.isFactor (by simp [hself]) ?_
  rintro p rfl
  exact ⟨hu, p, by simp [hself], .refl p, fun _ => rfl⟩

section Sum

variable (hfinal : h.LeavesClosureFinal) (hkept : AreOperands h options kept)
  (hfree : ChoosesFreely h kept)
include hfinal hkept hfree

/-- Without unions there is one result. -/
theorem isSum_flat (a : Arrangement) (hfirst : firstUnion? kept = none) :
    IsSum h (IsChosen h options kept) ((compareBy a options kept).value (exact h)) := by
  rw [value_compareBy_none hfinal hkept hfree a hfirst]
  have hreduce := hkept.value_reduce hfirst hfinal hfree
  refine (isSum_single hfinal ?_).congr fun p => ⟨?_, ?_⟩
  · rw [← hreduce]
    exact isAlternative_reduce hfinal (hkept.areCompared hfirst)
  · rintro rfl
    refine ⟨id, fun t ht => ?_, rfl⟩
    rw [Union.membersOf_of_flat (Ty.unionMembers?_of_isSimple (hkept.isSimple hfirst t ht))]
    exact List.mem_cons_self
  · rintro ⟨f, hf, rfl⟩
    unfold chosen
    rw [List.map_congr_left (hkept.choice_eq hfirst hf)]
    rfl

omit hfinal hfree in
/-- A choice that brings in one type only. -/
theorem chosen_eq (hopen : IsOpen u)
    (hsame : ∀ x, (∃ s ∈ kept, x ∈ membersOf (f s)) ↔ x = u) : chosen h options kept f = u := by
  have hlength : 2 ≤ (kept.map f).length := by
    rw [List.length_map]
    exact hkept.two
  have hprepare : prepare (kept.map f) = .inl u := by
    refine prepare_of_single ?_ hopen fun x hx => Or.inr ?_
    · rw [mem_flat_map, hsame]
    · rwa [mem_flat_map, hsame] at hx
  rw [chosen, ← ofBy_byCode, ofBy_settled hlength ((prepareBy_byCode _).trans hprepare), value_pure]

omit hfree in
/-- If an alternative settles the intersection, it is the only one of the other types. -/
theorem isSum_settled (hfirst : firstUnion? kept = some (flavor, alternatives, rest))
    (ht : t ∈ alternatives) (hprepare : prepareBy a (rest ++ [t]) = .inl u) :
    IsSum h (fun p => ∃ f, IsChoice kept f ∧ f (.union flavor alternatives) = t ∧
      p = chosen h options kept f) u := by
  have hflat : ∀ s, s ∈ (rest ++ [t]).flatMap membersOf ↔ s ∈ rest ∨ s ∈ membersOf t :=
    fun s => mem_flat_part hkept hfirst
  have hmember := isMember_part hkept hfirst ht
  obtain ⟨m, hm⟩ := exists_mem_membersOf (isAlternative_part hkept hfirst ht).isFactor
  have hmem := (hflat m).mpr (Or.inr hm)
  have hprepares := prepares_prepareBy a (rest ++ [t])
  rw [hprepare] at hprepares
  cases hprepares with
  | error herror => exact absurd rfl (hmember _ herror).1
  | never herror hnever => exact absurd rfl (hmember _ hnever).2.2.1
  | mixed hmixed => exact absurd (hmixed m hmem) (hmember m hmem).2.1
  | single hu hopen hothers =>
      have heq : ∀ s ∈ (rest ++ [t]).flatMap membersOf, s = u := fun s hs =>
        (hothers s hs).resolve_left (hmember s hs).2.1
      have hleft : ∀ s, s ∈ [u] ↔ s ∈ rest ∨ s ∈ membersOf t := fun s => by
        rw [List.mem_singleton, ← hflat]
        exact ⟨fun hs => hs ▸ hu, heq s⟩
      have hsimple : u.isSimple = true := by
        rw [← heq m hmem]
        exact (isOperand_member hkept hfirst ht hm).2
      have hself : Union.membersOf u = [u] ∧ membersOf u = [u] :=
        ⟨Union.membersOf_of_flat (Ty.unionMembers?_of_isSimple hsimple), membersOf_of_isSimple hsimple⟩
      have hoperand := (isOperand_member hkept hfirst ht hm).1
      rw [heq m hmem] at hoperand
      refine (isSum_single hfinal (hoperand.isAlternative (by simp [hself]))).congr fun p => ⟨?_, ?_⟩
      · rintro rfl
        have hid : IsChoice [p] id := fun s hs => by
          rw [List.mem_singleton.mp hs, hself.1]
          exact List.mem_cons_self
        obtain ⟨f, hf, hft, hsame⟩ := exists_choice_of_part hkept hfirst ht hleft hid
        refine ⟨f, hf, hft, (chosen_eq hkept hopen fun x => ?_).symm⟩
        rw [hsame]
        simp [hself]
      · rintro ⟨f, hf, hft, rfl⟩
        obtain ⟨g, hg, hsame⟩ := exists_choice_of_whole hkept hfirst ht hleft hf hft
        have hgu := hg u List.mem_cons_self
        rw [hself.1, List.mem_singleton] at hgu
        refine chosen_eq hkept hopen fun x => ?_
        rw [hsame]
        simp [hgu, hself]

/-- Whichever union comes first, the intersection is the union of the results of all choices. -/
theorem isSum_compareBy (a : Arrangement) (hsum : HasSum h options kept) :
    IsSum h (IsChosen h options kept) ((compareBy a options kept).value (exact h)) := by
  induction hsize : Ty.sizes kept using Nat.strong_induction_on generalizing kept with
  | h size ih =>
      cases hfirst : firstUnion? kept with
      | none => exact isSum_flat hfinal hkept hfree a hfirst
      | some found =>
          obtain ⟨flavor, alternatives, rest⟩ := found
          obtain rfl := hsum.plain flavor alternatives (mem_of_firstUnion? hfirst).1
          have hparts : ∀ t ∈ alternatives, IsSum h
              (fun p => ∃ f, IsChoice kept f ∧ f (.union .plain alternatives) = t ∧
                p = chosen h options kept f)
              ((ofBy a options (rest ++ [t])).value (exact h)) := by
            intro t ht
            have hmany := two_le_length_part hkept hfirst t
            cases hprepare : prepareBy a (rest ++ [t]) with
            | inl u =>
                rw [ofBy_settled hmany hprepare, value_pure]
                exact isSum_settled hfinal hkept hfirst ht hprepare
            | inr left =>
                have hprepares := prepares_prepareBy a (rest ++ [t])
                rw [hprepare] at hprepares
                cases hprepares with
                | several htwo hnodup hopen hmem =>
                    have hleft : ∀ u, u ∈ left ↔ u ∈ rest ∨ u ∈ membersOf t := fun u => by
                      rw [hmem, ← mem_flat_part hkept hfirst, and_iff_left_iff_imp]
                      exact fun hu => (isMember_part hkept hfirst ht u hu).2.1
                    have hless : Ty.sizes left < size := by
                      have hle := sizes_prepareBy_le hprepare
                      have hsplit := sizes_firstUnion? hfirst
                      have hmember := Ty.size_le_sizes ht
                      simp only [Ty.sizes_append, Ty.sizes] at hle
                      omega
                    rw [ofBy_prepared hmany hprepare]
                    exact (ih _ hless (areOperands_part hkept hfirst ht hleft htwo hnodup)
                      (choosesFreely_part hkept hfirst ht hleft hfree)
                      (hasSum_part hkept hfirst ht hleft htwo hsum) rfl).congr fun p =>
                        isChosen_part hkept hfirst ht hleft htwo
          have hchosen : ∀ p, (∃ t ∈ alternatives, ∃ f, IsChoice kept f ∧
              f (.union .plain alternatives) = t ∧ p = chosen h options kept f) ↔
                IsChosen h options kept p := by
            intro p
            constructor
            · rintro ⟨t, -, f, hf, -, rfl⟩
              exact ⟨f, hf, rfl⟩
            · rintro ⟨f, hf, rfl⟩
              exact ⟨_, hf _ (mem_of_firstUnion? hfirst).1, f, hf, rfl, rfl⟩
          have htwo : 2 ≤ alternatives.length := (hkept.union hfirst).formed.here.1.two
          have hshapes : ComparesShapes h fun p => ∃ t ∈ alternatives, ∃ f, IsChoice kept f ∧
              f (.union .plain alternatives) = t ∧ p = chosen h options kept f :=
            hsum.shapes.mono fun p hp => (hchosen p).mp hp
          have hjoins : JoinsFreely h options
              (alternatives.map fun t => (ofBy a options (rest ++ [t])).value (exact h)) := by
            refine Union.joinsFreely_of_pieces hfinal
              (List.forall_mem_map.mpr fun t ht => (hparts t ht).toIsFactor)
              (List.forall_mem_map.mpr fun t ht x hx hscalar => ?_) hsum.shapes hsum.untied
            exact (hchosen x).mp ⟨t, ht, ((hparts t ht).last x hx hscalar).1⟩
          rw [compareBy_of_some hkept.few hfirst, value_bind, value_mapM,
            value_gatherBy a hfinal (List.forall_mem_map.mpr fun t ht =>
              (hparts t ht).proper.formed) hjoins]
          exact (Union.isSum_of hfinal htwo hparts hshapes).congr hchosen

/-- The intersection over unions whose results can be put together in any order is the same under
every arrangement. -/
theorem value_compareBy_sum (a b : Arrangement) (hsum : HasSum h options kept)
    (hperm : kept.Perm left) :
    (compareBy b options left).value (exact h) = (compareBy a options kept).value (exact h) := by
  have hchosen : ∀ p, IsChosen h options left p ↔ IsChosen h options kept p := fun p =>
    isChosen_perm hkept hperm
  have hsum' : HasSum h options left :=
    ⟨fun flavor alternatives hmem => hsum.plain flavor alternatives (hperm.mem_iff.mpr hmem),
      hsum.shapes.mono fun p => (hchosen p).mp,
      fun p q hp hq => hsum.untied p q ((hchosen p).mp hp) ((hchosen q).mp hq)⟩
  have hleft := isSum_compareBy hfinal (hkept.perm hperm) (hfree.perm hperm) b hsum'
  exact (hleft.congr hchosen).eq hfinal (isSum_compareBy hfinal hkept hfree a hsum)

end Sum

/-!
# Any types
-/

/-- Types that have been prepared and are distributed in any order with the same result. -/
structure DistributesFreely (h : Hierarchy) (options : Options) (kept : List Ty) : Prop where
  distributed : ∀ t ∈ kept, Union.IsDistributed t
  few : pieces kept ≤ options.maxIntersectionDistribution
  choices : ChoosesFreely h kept
  joins : HasOneUnion h options kept ∨ HasSum h options kept

/-- Types whose intersection does not depend on the order in which the members come.  What settles
it before any two members are compared does so in any order. -/
def IsOrderFree (h : Hierarchy) (options : Options) (members : List Ty) : Prop :=
  2 ≤ members.length -> ∀ kept, prepare members = .inr kept -> DistributesFreely h options kept

/-- Types without unions, whose comparison does not depend on their order. -/
theorem distributesFreely_of_simple (hsimple : ∀ t ∈ kept, t.isSimple = true)
    (hreduces : ReducesFreely h kept) (hfew : pieces kept ≤ options.maxIntersectionDistribution) :
    DistributesFreely h options kept where
  distributed := fun t ht u hu => by
    rw [Union.membersOf_of_flat (Ty.unionMembers?_of_isSimple (hsimple t ht))] at hu
    rw [List.mem_singleton.mp hu]
    exact isDistributed_of_isSimple (hsimple t ht)
  few := hfew
  choices := by
    intro f hf left hprepare
    cases prepares_of_eq hprepare with
    | several htwo hnodup hopen hmem =>
        refine hreduces.subset fun u hu => ?_
        obtain ⟨t, ht, hut⟩ := mem_flat_map.mp ((hmem u).mp hu).1
        have hft := hf t ht
        rw [Union.membersOf_of_flat (Ty.unionMembers?_of_isSimple (hsimple t ht))] at hft
        rw [List.mem_singleton.mp hft, membersOf_of_isSimple (hsimple t ht)] at hut
        rwa [List.mem_singleton.mp hut]
  joins := Or.inl
    { one := fun s hs _ _ hunion =>
        absurd (Ty.unionMembers?_of_isSimple (hsimple s hs)) hunion
      parts := fun _ _ hmem => nomatch hsimple _ hmem }

section OfBy

variable (hformed : ∀ m ∈ members, Formed (Session.exactly h) m)
  (hcomplete : ∀ m ∈ members, Ty.IsComplete m)
include hformed hcomplete

theorem areOperands_of_prepare (hprepare : prepare members = .inr kept)
    (hfree : DistributesFreely h options kept) : AreOperands h options kept := by
  cases prepares_of_eq hprepare with
  | several htwo hnodup hopen hmem =>
      refine ⟨htwo, hnodup, fun t ht => ?_, hfree.few⟩
      have hflat := ((hmem t).mp ht).1
      rcases List.mem_flatMap.mp hflat with ⟨m, hm, htm⟩
      rcases mem_membersOf (hformed m hm) htm with ⟨hformed', hinter⟩
      rcases hopen t ht with ⟨herror, hmixed, hnever⟩
      exact ⟨hformed', isComplete_of_mem_membersOf (hcomplete m hm) htm,
        ⟨herror, hmixed, hnever, hinter⟩, hfree.distributed t ht⟩

/-- The intersection of such types is the same under every arrangement. -/
theorem value_ofBy (a : Arrangement) (hfinal : h.LeavesClosureFinal)
    (hfree : IsOrderFree h options members) :
    (ofBy a options members).value (exact h) = (of options members).value (exact h) := by
  rw [← ofBy_byCode]
  match members with
  | [] => unfold ofBy; rfl
  | [t] => unfold ofBy; rfl
  | t :: u :: rest =>
      have hmany : 2 ≤ (t :: u :: rest).length := by simp
      cases hprepare : prepare (t :: u :: rest) with
      | inl v =>
          have hsettled : ∀ b : Arrangement, prepareBy b (t :: u :: rest) = .inl v := fun b =>
            prepareBy_settled (fun _ => Iff.rfl) hprepare
          rw [ofBy_settled hmany (hsettled a), ofBy_settled hmany (hsettled .byCode)]
      | inr kept =>
          have hkept := hfree hmany kept hprepare
          have hoperands := areOperands_of_prepare hformed hcomplete hprepare hkept
          obtain ⟨left, hleft, hperm⟩ := exists_prepareBy (a := a) (fun _ => Iff.rfl) hprepare
          rw [ofBy_prepared hmany hleft, ofBy_prepared hmany ((prepareBy_byCode _).trans hprepare)]
          rcases hkept.joins with hone | hsum
          · exact value_compareBy_one hfinal hoperands hkept.choices hone .byCode a hperm
          · exact value_compareBy_sum hfinal hoperands hkept.choices .byCode a hsum hperm

end OfBy

end Intersection
end GradualTypes
