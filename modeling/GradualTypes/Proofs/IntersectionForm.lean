import GradualTypes.Proofs.ReductionSteps
import GradualTypes.Proofs.UnionForm

/-!
# The form of intersections

The intersection of formed types is a formed type.  Reduction keeps its members
independent of one another: a narrowed member meets all others again, and a member
that stays has met every other one.  Distribution passes to lists of a smaller
total size.
-/

namespace GradualTypes
namespace Intersection

open Inquiry
open GradualTypes.Ty (Formed)

variable {replies : Ty -> Ty -> Tristate -> Prop} {members : List Ty} {t : Ty}

/-- Types that can be closed to an intersection if they are independent. -/
def AreReady (replies : Ty -> Ty -> Tristate -> Prop) (members : List Ty) : Prop :=
  ∀ m ∈ members, Formed replies m ∧ IsMember m

/-!
# Reduction
-/

theorem meets_meetRanges {earlier later : Ty} {r r' : Tristate} (hr : replies earlier later r)
    (hr' : replies later earlier r') (hne : r ≠ .yes) (hne' : r' ≠ .yes)
    (hno : ¬ (r = .no ∧ r' = .no)) :
    (meetRanges earlier later).Meets (.building replies) fun meeting =>
      (meeting = .both -> Independent replies earlier later) ∧
        ∀ u, meeting = .narrowed u -> Formed replies u ∧ IsMember u := by
  unfold meetRanges
  split
  · rename_i s s'
    dsimp only
    split
    · exact ⟨by simp, by simp⟩
    · rename_i hcommon
      refine (Build.meets_range (by simpa using hcommon)).bind fun u hu => ⟨by simp, ?_⟩
      intro _ hcase
      cases hcase
      rcases hu with rfl | ⟨n, rfl⟩ | ⟨rfl, hbounds⟩
      · exact ⟨Ty.formed_keyword _, by simp [IsMember]⟩
      · exact ⟨Ty.formed_literal _, by simp [IsMember]⟩
      · exact ⟨Ty.formed_range (by simpa using hcommon) hbounds, by simp [IsMember]⟩
  · rename_i hranges
    refine ⟨fun _ => ⟨?_, r, r', hr, hr', hne, hne', hno⟩, by simp⟩
    cases earlier <;> first | exact Or.inl rfl | skip
    cases later <;> first | exact Or.inr rfl | exact absurd rfl (hranges _ _ rfl)

theorem meets_meet (earlier later : Ty) :
    (meet earlier later).Meets (.building replies) fun meeting =>
      (meeting = .both -> Independent replies earlier later) ∧
        ∀ u, meeting = .narrowed u -> Formed replies u ∧ IsMember u := by
  apply meets_meet_of trivial trivial
  · exact fun _ => ⟨by simp, by simp⟩
  · exact fun _ => ⟨by simp, by simp⟩
  · exact fun _ _ => ⟨by simp, by simp⟩
  · exact fun r r' hr hr' hne hne' hno => meets_meetRanges hr hr' hne hne' hno

/-- What reduction leaves: some independent types. -/
structure IsReduced (replies : Ty -> Ty -> Tristate -> Prop) (members : List Ty) : Prop where
  ready : AreReady replies members
  independent : members.Pairwise (Independent replies)

/-- The passed members are independent of the current one, and all the others are
independent of one another. -/
theorem meets_narrow {passed kept : List Ty} {current : Ty}
    (hreduced : IsReduced replies (passed ++ kept)) (hcurrent : Formed replies current)
    (hmember : IsMember current) (hpassed : ∀ p ∈ passed, Independent replies p current) :
    (narrow passed current kept).Meets (.building replies) fun result =>
      ∀ left, result = some left -> left ≠ [] ∧ IsReduced replies left := by
  induction passed, current, kept using narrow.induct with
  | case1 passed current =>
      rw [List.append_nil] at hreduced
      unfold narrow
      rintro _ ⟨⟩
      refine ⟨by simp, fun m hm => ?_, ?_⟩
      · rcases List.mem_append.mp hm with hm | hm
        · exact hreduced.ready m hm
        · rw [List.mem_singleton.mp hm]
          exact ⟨hcurrent, hmember⟩
      · refine List.pairwise_append.mpr ⟨hreduced.independent, by simp, fun p hp q hq => ?_⟩
        rw [List.mem_singleton.mp hq]
        exact hpassed p hp
  | case2 passed current t rest ihreplace ihnarrowed ihboth =>
      have hdrop : (passed ++ rest).Sublist (passed ++ t :: rest) :=
        (List.Sublist.refl passed).append (List.sublist_cons_self t rest)
      have hrest : IsReduced replies (passed ++ rest) :=
        ⟨fun m hm => hreduced.ready m (hdrop.subset hm), hreduced.independent.sublist hdrop⟩
      unfold narrow
      apply (meets_meet t current).bind
      intro meeting hmeeting
      cases meeting with
      | disjoint => exact fun left hcase => by cases hcase
      | keep =>
          rintro _ ⟨⟩
          exact ⟨by simp, hreduced⟩
      | replace => exact ihreplace hrest hcurrent hmember hpassed
      | narrowed u =>
          rcases hmeeting.2 u rfl with ⟨hu, hu'⟩
          exact ihnarrowed u hrest hu hu' (by simp)
      | both =>
          have happend : passed ++ [t] ++ rest = passed ++ t :: rest := by simp
          refine ihboth (by rwa [happend]) hcurrent hmember fun p hp => ?_
          rcases List.mem_append.mp hp with hp | hp
          · exact hpassed p hp
          · rw [List.mem_singleton.mp hp]
            exact hmeeting.1 rfl

theorem meets_narrowAll {kept incoming : List Ty} (hkept : IsReduced replies kept)
    (hincoming : AreReady replies incoming) (hne : kept ≠ [] ∨ incoming ≠ []) :
    (narrowAll kept incoming).Meets (.building replies) fun result =>
      ∀ left, result = some left -> left ≠ [] ∧ IsReduced replies left := by
  induction incoming generalizing kept with
  | nil =>
      intro left hcase
      cases hcase
      exact ⟨hne.resolve_right (by simp), hkept⟩
  | cons t rest ih =>
      rcases hincoming t List.mem_cons_self with ⟨ht, hmember⟩
      have hstart : IsReduced replies ([] ++ kept) := hkept
      apply (meets_narrow hstart ht hmember (by simp)).bind
      intro result hresult
      cases result with
      | none => exact fun left h => by cases h
      | some left =>
          rcases hresult left rfl with ⟨hsome, hreduced⟩
          exact ih hreduced (fun m hm => hincoming m (List.mem_cons_of_mem _ hm)) (Or.inl hsome)

theorem meets_close (hne : members ≠ []) (hreduced : IsReduced replies members) :
    (close members).Meets (.building replies) (Formed replies) := by
  unfold close
  split
  · rename_i t
    exact (hreduced.ready t List.mem_cons_self).1
  · rename_i hmany
    have hperm := Ty.perm_sortCanonical members
    have htwo := Union.two_le_length_of_ne hne hmany
    have hready : AreReady replies (Ty.sortCanonical members) :=
      fun m hm => hreduced.ready m (hperm.mem_iff.mp hm)
    have hformed : Formed replies (.inter (Ty.sortCanonical members)) := by
      refine .intro ⟨?_, fun m hm => (hready m hm).2, Ty.isCanonical_sortCanonical members, ?_⟩
        fun c hc => (hready c hc).1
      · rwa [hperm.length_eq]
      · exact hperm.symm.pairwise hreduced.independent fun hxy => hxy.symm
    exact ⟨hformed, hformed⟩

theorem meets_reduce (hne : members ≠ []) (hready : AreReady replies members) :
    (reduce members).Meets (.building replies) (Formed replies) := by
  refine ⟨trivial, ?_⟩
  have hempty : IsReduced replies [] := ⟨fun m hm => (by cases hm), List.Pairwise.nil⟩
  apply (meets_narrowAll hempty hready (Or.inr hne)).bind
  intro result hresult
  cases result with
  | none => exact Ty.formed_keyword _
  | some left =>
      rcases hresult left rfl with ⟨hsome, hreduced⟩
      exact meets_close hsome hreduced

theorem narrowAll_nil (t : Ty) (rest : List Ty) :
    narrowAll [] (t :: rest) = narrowAll [t] rest := by
  have hfirst : narrow [] t [] = pure (some [t]) := by rw [narrow]; rfl
  rw [narrowAll, hfirst, pure_bind]

/-- A type meets a single kept one. -/
theorem narrowAll_single (t u : Ty) (rest : List Ty) : narrowAll [t] (u :: rest) = (do
    match ← meet t u with
    | .disjoint => return none
    | .keep => narrowAll [t] rest
    | .replace => narrowAll [u] rest
    | .narrowed v => narrowAll [v] rest
    | .both => narrowAll [t, u] rest) := by
  rw [narrowAll, narrow, bind_assoc]
  congr 1
  funext meeting
  cases meeting <;> simp [narrow]

/-- The reduction of two types is their meeting. -/
theorem reduce_pair (t u : Ty) : reduce [t, u] = (do
    fresh
    match ← meet t u with
    | .disjoint => return .never
    | .keep => return t
    | .replace => return u
    | .narrowed v => return v
    | .both => close [t, u]) := by
  rw [reduce, narrowAll_nil, narrowAll_single]
  simp only [bind_assoc]
  congr 1
  funext _
  congr 1
  funext meeting
  cases meeting <;> simp [narrowAll, close]

/-!
# Preparation
-/

/-- A type that does not settle an intersection at once. -/
def IsOpen (t : Ty) : Prop :=
  t ≠ .error ∧ t ≠ .mixed ∧ t ≠ .never

theorem mem_membersOf (ht : Formed replies t) {m : Ty} (hm : m ∈ membersOf t) :
    Formed replies m ∧ ∀ members, m ≠ .inter members := by
  cases t with
  | inter members => exact ⟨ht.inside hm, (ht.here.isMember m hm).2.2.2⟩
  | _ =>
      rcases List.mem_singleton.mp hm with rfl
      exact ⟨ht, by simp⟩

/-- What becomes of some types before any two of them are compared. -/
inductive Prepares (members : List Ty) : Ty ⊕ List Ty -> Prop where
  | error : .error ∈ members.flatMap membersOf -> Prepares members (.inl .error)
  | never : .error ∉ members.flatMap membersOf -> .never ∈ members.flatMap membersOf ->
      Prepares members (.inl .never)
  | mixed : (∀ t ∈ members.flatMap membersOf, t = .mixed) -> Prepares members (.inl .mixed)
  | single {t : Ty} : t ∈ members.flatMap membersOf -> IsOpen t ->
      (∀ u ∈ members.flatMap membersOf, u = .mixed ∨ u = t) -> Prepares members (.inl t)
  | several {kept : List Ty} : 2 ≤ kept.length -> kept.Nodup -> (∀ t ∈ kept, IsOpen t) ->
      (∀ t, t ∈ kept ↔ t ∈ members.flatMap membersOf ∧ t ≠ .mixed) ->
      Prepares members (.inr kept)

/-- What becomes of types that have been put in order, each of them once. -/
def settle (members : List Ty) : Ty ⊕ List Ty :=
  if members.contains .error then .inl .error
  else if members.contains .never then .inl .never
  else
    match members.filter (· != .mixed) with
    | [] => .inl .mixed
    | [t] => .inl t
    | members => .inr members

theorem sublist_of_settle {kept : List Ty} (h : settle members = .inr kept) :
    kept.Sublist members := by
  unfold settle at h
  split at h
  · cases h
  · split at h
    · cases h
    · split at h <;> cases h
      exact List.filter_sublist

theorem prepares_settle {ts : List Ty} (hnodup : ts.Nodup)
    (hsame : ∀ t, t ∈ ts ↔ t ∈ members.flatMap membersOf) : Prepares members (settle ts) := by
  have hmem : ∀ t, t ∈ ts.filter (· != .mixed) ↔ t ∈ members.flatMap membersOf ∧ t ≠ .mixed := by
    intro t
    rw [List.mem_filter, hsame]
    simp
  unfold settle
  simp only [List.contains_iff_mem, hsame]
  split
  · rename_i herror
    exact .error herror
  · rename_i herror
    split
    · rename_i hnever
      exact .never herror hnever
    · rename_i hnever
      have hopen : ∀ t ∈ ts.filter (· != .mixed), IsOpen t := by
        intro t ht
        rcases (hmem t).mp ht with ⟨ht, hmixed⟩
        refine ⟨?_, hmixed, ?_⟩
        · exact fun heq => herror (heq ▸ ht)
        · exact fun heq => hnever (heq ▸ ht)
      split
      · rename_i hnil
        rw [hnil] at hmem
        refine .mixed fun t ht => ?_
        by_contra hmixed
        exact absurd ((hmem t).mpr ⟨ht, hmixed⟩) List.not_mem_nil
      · rename_i t hsingle
        rw [hsingle] at hmem hopen
        refine .single ((hmem t).mp List.mem_cons_self).1 (hopen t List.mem_cons_self) ?_
        intro u hu
        by_cases hmixed : u = .mixed
        · exact Or.inl hmixed
        · exact Or.inr (List.mem_singleton.mp ((hmem u).mpr ⟨hu, hmixed⟩))
      · rename_i hnil hsingle
        exact .several (Union.two_le_length_of_ne hnil hsingle) (hnodup.filter _)
          hopen hmem

theorem prepares_prepare (members : List Ty) : Prepares members (prepare members) :=
  prepares_settle (Ty.nodup_distinct _) fun _ => Ty.mem_distinct

theorem forall_flatMap {P : Ty -> Prop} (hmembers : ∀ m ∈ members, ∀ t ∈ membersOf m, P t) :
    ∀ t ∈ members.flatMap membersOf, P t := by
  intro t ht
  rcases List.mem_flatMap.mp ht with ⟨m, hm, htm⟩
  exact hmembers m hm t htm

theorem prepare_spec (hformed : ∀ m ∈ members, Formed replies m) :
    match prepare members with
    | .inl t => Formed replies t
    | .inr kept => kept ≠ [] ∧ AreReady replies kept := by
  have hflat := forall_flatMap fun m hm t ht => mem_membersOf (hformed m hm) ht
  have hprepares := prepares_prepare members
  generalize prepare members = result at hprepares
  cases hprepares with
  | error herror => exact .leaf trivial rfl
  | never herror hnever => exact Ty.formed_keyword _
  | mixed hmixed => exact Ty.formed_keyword _
  | single ht hopen hothers => exact (hflat _ ht).1
  | several htwo hnodup hopen hmem =>
      constructor
      · exact List.ne_nil_of_length_pos (by omega)
      · intro m hm
        rcases hflat m ((hmem m).mp hm).1 with ⟨hm', hinter⟩
        rcases hopen m hm with ⟨herror, hmixed, hnever⟩
        exact ⟨hm', herror, hmixed, hnever, hinter⟩

/-!
# Distribution
-/

/-- The first union and the other types are the given ones. -/
theorem perm_of_firstUnion? {flavor : Flavor} {alternatives rest : List Ty}
    (h : firstUnion? members = some (flavor, alternatives, rest)) :
    members.Perm (.union flavor alternatives :: rest) := by
  induction members generalizing rest with
  | nil => simp [firstUnion?] at h
  | cons t members ih =>
      unfold firstUnion? at h
      split at h
      · cases h
      · rename_i heq
        cases heq
        cases h
        exact .refl _
      · rename_i heq
        cases heq
        split at h
        · rename_i hrest
          cases h
          exact ((ih hrest).cons t).trans (.swap _ t _)
        · cases h

theorem mem_of_firstUnion? {flavor : Flavor} {alternatives rest : List Ty}
    (h : firstUnion? members = some (flavor, alternatives, rest)) :
    .union flavor alternatives ∈ members ∧ ∀ r ∈ rest, r ∈ members := by
  have hperm := perm_of_firstUnion? h
  constructor
  · exact hperm.mem_iff.mpr List.mem_cons_self
  · exact fun r hr => hperm.mem_iff.mpr (List.mem_cons_of_mem _ hr)

theorem exists_firstUnion? {flavor : Flavor} {alternatives : List Ty}
    (hmem : .union flavor alternatives ∈ members) : firstUnion? members ≠ none := by
  induction members with
  | nil => cases hmem
  | cons t rest ih =>
      unfold firstUnion?
      split
      · rename_i heq
        cases heq
      · simp
      · rename_i hunion heq
        cases heq
        rcases List.mem_cons.mp hmem with heq | hmem
        · exact absurd heq.symm (hunion _ _)
        · split
          · simp
          · rename_i hnone
            exact absurd hnone (ih hmem)

/-- A list with a union is compared as it is only if it has too many pieces. -/
theorem lt_pieces_of_mem {limit : Nat} {flavor : Flavor} {alternatives : List Ty}
    (hmem : .union flavor alternatives ∈ members) (hnone : toDistribute? limit members = none) :
    limit < pieces members := by
  unfold toDistribute? at hnone
  split at hnone
  · assumption
  · exact absurd hnone (exists_firstUnion? hmem)

theorem firstUnion?_of_toDistribute? {limit : Nat} {flavor : Flavor} {alternatives rest : List Ty}
    (h : toDistribute? limit members = some (flavor, alternatives, rest)) :
    firstUnion? members = some (flavor, alternatives, rest) := by
  unfold toDistribute? at h
  split at h
  · cases h
  · exact h

theorem meets_gather {options : Options} {flavor : Flavor} {parts : List Ty}
    (hparts : ∀ t ∈ parts, Formed replies t) :
    (gather options flavor parts).Meets (.building replies) (Formed replies) := by
  cases flavor with
  | plain => exact Union.meets_of hparts
  | benevolent => exact Union.meets_benevolentOf hparts

/-!
# One call
-/

section Of

variable {options : Options} (hnil : members ≠ []) (hsingle : ∀ t, members ≠ [t])
include hnil hsingle

theorem of_settled (hprepare : prepare members = .inl t) : of options members = pure t := by
  unfold of
  split
  · exact absurd rfl hnil
  · exact absurd rfl (hsingle _)
  · split
    · rename_i heq
      rw [hprepare] at heq
      cases heq
      rfl
    · rename_i heq
      rw [hprepare] at heq
      cases heq

/-- The members are compared with one another if they are not distributed over a
union. -/
theorem of_compared {kept : List Ty} (hprepare : prepare members = .inr kept)
    (hdistribute : toDistribute? options.maxIntersectionDistribution kept = none) :
    of options members = reduce kept := by
  unfold of
  split
  · exact absurd rfl hnil
  · exact absurd rfl (hsingle _)
  · split
    · rename_i heq
      rw [hprepare] at heq
      cases heq
    · rename_i heq
      rw [hprepare] at heq
      cases heq
      split
      · rfl
      · rename_i hsome
        rw [hdistribute] at hsome
        cases hsome

/-- Otherwise the alternatives of the first union take its place one by one. -/
theorem of_distributed {kept : List Ty} {flavor : Flavor} {alternatives rest : List Ty}
    (hprepare : prepare members = .inr kept)
    (hdistribute : toDistribute? options.maxIntersectionDistribution kept =
      some (flavor, alternatives, rest)) :
    of options members = (alternatives.mapM fun t => of options (rest ++ [t])) >>=
      gather options flavor := by
  rw [of.eq_def]
  split
  · exact absurd rfl hnil
  · exact absurd rfl (hsingle _)
  · split
    · rename_i heq
      rw [hprepare] at heq
      cases heq
    · rename_i heq
      rw [hprepare] at heq
      cases heq
      split
      · rename_i hnone
        rw [hdistribute] at hnone
        cases hnone
      · rename_i hsome
        rw [hdistribute] at hsome
        cases hsome
        rw [List.mapM_subtype (g := fun t => of options (rest ++ [t])) (by simp),
          List.unattach_attach]
end Of

/-- How the intersection of some types comes about, down to that of its pieces. -/
inductive Intersects (options : Options) : List Ty -> Inquiry Ty -> Prop where
  | empty : Intersects options [] (pure .mixed)
  | single (t : Ty) : Intersects options [t] (pure t)
  | settled {members : List Ty} {t : Ty} : 2 ≤ members.length -> prepare members = .inl t ->
      Intersects options members (pure t)
  | compared {members kept : List Ty} : 2 ≤ members.length -> prepare members = .inr kept ->
      toDistribute? options.maxIntersectionDistribution kept = none ->
      Intersects options members (reduce kept)
  | distributed {members kept alternatives rest : List Ty} {flavor : Flavor} :
      2 ≤ members.length -> prepare members = .inr kept ->
      toDistribute? options.maxIntersectionDistribution kept = some (flavor, alternatives, rest) ->
      (∀ t ∈ alternatives, Intersects options (rest ++ [t]) (of options (rest ++ [t]))) ->
      Intersects options members
        ((alternatives.mapM fun t => of options (rest ++ [t])) >>= gather options flavor)

theorem intersects_of (options : Options) (members : List Ty) :
    Intersects options members (of options members) := by
  induction members using of.induct options with
  | case1 =>
      unfold of
      exact .empty
  | case2 t =>
      unfold of
      exact .single t
  | case3 members hnil hsingle t hprepare =>
      rw [of_settled hnil hsingle hprepare]
      exact .settled (Union.two_le_length_of_ne hnil hsingle) hprepare
  | case4 members hnil hsingle kept hprepare hdistribute =>
      rw [of_compared hnil hsingle hprepare hdistribute]
      exact .compared (Union.two_le_length_of_ne hnil hsingle) hprepare hdistribute
  | case5 members hnil hsingle kept hprepare flavor alternatives rest hdistribute ih =>
      rw [of_distributed hnil hsingle hprepare hdistribute]
      exact .distributed (Union.two_le_length_of_ne hnil hsingle) hprepare hdistribute
        fun t ht => ih ⟨t, ht⟩

/-- The pieces of a distributed intersection are made of formed types. -/
theorem formed_piece {limit : Nat} {kept : List Ty} {flavor : Flavor} {alternatives rest : List Ty}
    (hready : AreReady replies kept)
    (hdistribute : toDistribute? limit kept = some (flavor, alternatives, rest)) {t : Ty}
    (ht : t ∈ alternatives) : ∀ m ∈ rest ++ [t], Formed replies m := by
  rcases mem_of_firstUnion? (firstUnion?_of_toDistribute? hdistribute) with ⟨hmem, hrest⟩
  intro m hm
  rcases List.mem_append.mp hm with hm | hm
  · exact (hready m (hrest m hm)).1
  · rw [List.mem_singleton.mp hm]
    exact (hready _ hmem).1.inside ht

/-- The intersection of formed types is formed. -/
theorem meets_of {options : Options} (hformed : ∀ m ∈ members, Formed replies m) :
    (of options members).Meets (.building replies) (Formed replies) := by
  have hintersects := intersects_of options members
  generalize of options members = q at hintersects ⊢
  induction hintersects with
  | empty => exact Ty.formed_keyword _
  | single t => exact hformed t List.mem_cons_self
  | settled hmany hprepare =>
      have hprepared := prepare_spec hformed
      rw [hprepare] at hprepared
      exact hprepared
  | compared hmany hprepare hdistribute =>
      have hprepared := prepare_spec hformed
      rw [hprepare] at hprepared
      exact meets_reduce hprepared.1 hprepared.2
  | distributed hmany hprepare hdistribute _ ih =>
      have hprepared := prepare_spec hformed
      rw [hprepare] at hprepared
      exact (meets_mapM_all fun t ht => ih t ht (formed_piece hprepared.2 hdistribute ht)).bind
        fun parts hall => meets_gather hall

end Intersection
end GradualTypes
