import GradualTypes.Proofs.Construction

/-!
# Announced intersections

Intersections are announced in one place: when a list of types has been reduced and is
closed.  Everything else that a constructor announces on its way, a union with its
merged shapes included, is of another form.

So it is enough to look at the terms of an inquiry.  Terms are lax here if they allow
all questions, new series, and all announcements but those of intersections.
-/

namespace GradualTypes

/-- Terms that forbid at most the announcement of intersections. -/
structure Terms.IsLax (terms : Terms) : Prop where
  asks : ∀ s t, terms.asks s t
  announces : ∀ t, (∀ members, t ≠ .inter members) -> terms.announces t
  restarts : terms.restarts

theorem isLax_free (replies : Ty -> Ty -> Tristate -> Prop) : (Terms.free replies).IsLax :=
  ⟨fun _ _ => trivial, fun _ _ => trivial, trivial⟩

namespace Inquiry

variable {α β : Type} {terms : Terms}

/-- The inquiry keeps to the terms, whatever its result. -/
def KeepsTo (terms : Terms) (q : Inquiry α) : Prop :=
  q.Meets terms fun _ => True

theorem keepsTo_pure (a : α) : (pure a : Inquiry α).KeepsTo terms := trivial

theorem KeepsTo.bind {q : Inquiry α} {f : α -> Inquiry β} (hq : q.KeepsTo terms)
    (hf : ∀ a, (f a).KeepsTo terms) : (q >>= f).KeepsTo terms :=
  Meets.bind hq fun a _ => hf a

theorem keepsTo_mapM {f : α -> Inquiry β} {items : List α}
    (hf : ∀ a ∈ items, (f a).KeepsTo terms) : (items.mapM f).KeepsTo terms :=
  (meets_mapM_all (P := fun _ => True) hf).imp fun _ _ => trivial

end Inquiry

namespace Intersection

/-- Types that were given, and scalar types. -/
def IsFrom (members left : List Ty) : Prop :=
  ∀ m ∈ left, m ∈ members ∨ m.isScalar = true

end Intersection

open Inquiry

section Lax

variable {terms : Terms} (hlax : terms.IsLax)
include hlax

theorem keepsTo_built {t : Ty} (ht : ∀ members, t ≠ .inter members) : (built t).KeepsTo terms :=
  ⟨hlax.announces t ht, trivial⟩

namespace Build

theorem meets_range_scalar (r : IntRange) :
    (range r).Meets terms fun t => t.isScalar = true := by
  unfold range int
  split
  · rfl
  · split
    · rfl
    · split
      · exact ⟨hlax.announces _ (by simp), rfl⟩
      · exact ⟨hlax.announces _ (by simp), rfl⟩
    · exact ⟨hlax.announces _ (by simp), rfl⟩

theorem keepsTo_range (r : IntRange) : (range r).KeepsTo terms :=
  (meets_range_scalar hlax r).imp fun _ _ => trivial

theorem keepsTo_shape (entries : List (Entry Ty)) : (shape entries).KeepsTo terms := by
  unfold shape
  split
  · exact keepsTo_pure _
  · exact keepsTo_built hlax (by simp)

theorem keepsTo_markBenevolent (t : Ty) : (markBenevolent t).KeepsTo terms := by
  unfold markBenevolent
  split
  · exact keepsTo_built hlax (by simp)
  · exact keepsTo_pure _

end Build

/-!
# Unions
-/

namespace Union

theorem keepsTo_mergeBools (members : List Ty) : (mergeBools members).KeepsTo terms := by
  have hbool : ∀ b, (Build.bool b).KeepsTo terms := fun b => keepsTo_built hlax (by simp)
  apply (hbool true).bind
  intro t
  apply (hbool false).bind
  intro f
  split
  · exact keepsTo_pure _
  · exact keepsTo_pure _

theorem keepsTo_appendRanges (members : List Ty) (rs : List IntRange) :
    (appendRanges members rs).KeepsTo terms := by
  induction rs generalizing members with
  | nil => exact keepsTo_pure _
  | cons r rest ih => exact (Build.keepsTo_range hlax r).bind fun t => ih _

theorem keepsTo_mergeRanges (members : List Ty) : (mergeRanges members).KeepsTo terms := by
  unfold mergeRanges
  dsimp only
  split
  · exact keepsTo_pure _
  · exact keepsTo_appendRanges hlax _ _

theorem keepsTo_isAbsorbed (t : Ty) (others : List Ty) : (isAbsorbed t others).KeepsTo terms := by
  induction others with
  | nil => exact keepsTo_pure _
  | cons u rest ih =>
      unfold isAbsorbed
      split
      · exact ih
      · refine ⟨hlax.asks t u, fun r _ => ?_⟩
        show KeepsTo terms (if r = .yes then pure true else isAbsorbed t rest)
        split
        · exact keepsTo_pure _
        · exact ih

theorem keepsTo_absorb (members : List Ty) : (absorb members).KeepsTo terms := by
  have hfrom : ∀ rest kept, (absorbFrom kept rest).KeepsTo terms := by
    intro rest
    induction rest with
    | nil => exact fun kept => keepsTo_pure _
    | cons t rest ih =>
        intro kept
        apply (keepsTo_isAbsorbed hlax t (kept ++ rest)).bind
        intro absorbed
        split
        · exact ih _
        · exact ih _
  unfold absorb
  split
  · exact keepsTo_pure _
  · exact ⟨hlax.restarts, hfrom _ _⟩

section Combine

variable {combine : List Ty -> Inquiry Ty} (hcombine : ∀ ts, (combine ts).KeepsTo terms)
include hcombine

theorem keepsTo_mergeGroup (shapes : List (List (Entry Ty))) :
    (mergeGroup combine shapes).KeepsTo terms := by
  have hentry : ∀ key, (mergeEntry combine shapes key).KeepsTo terms :=
    fun key => (hcombine _).bind fun value => keepsTo_pure _
  exact (keepsTo_mapM fun key _ => hentry key).bind fun entries => Build.keepsTo_shape hlax entries

theorem keepsTo_mergeGroups (budget : Nat) (groups : List (List (List (Entry Ty)))) :
    (mergeGroups combine budget groups).KeepsTo terms := by
  induction groups generalizing budget with
  | nil => exact keepsTo_pure _
  | cons group rest ih =>
      unfold mergeGroups
      split
      · exact ih _
      · dsimp only
        split
        · exact keepsTo_pure _
        · apply (keepsTo_mergeGroup hlax hcombine _).bind
          intro merged
          exact (ih _).bind fun result => keepsTo_pure _

theorem keepsTo_mergeShapes (limit : Nat) (members : List Ty) :
    (mergeShapes limit combine members).KeepsTo terms := by
  apply (keepsTo_mergeGroups hlax hcombine limit (shapeGroups members)).bind
  intro merged
  dsimp only
  split
  · exact keepsTo_pure _
  · exact keepsTo_absorb hlax _

theorem keepsTo_reduce (limit : Nat) (flavor : Flavor) (members : List Ty) :
    (reduce limit combine flavor members).KeepsTo terms := by
  apply (keepsTo_mergeBools hlax members).bind
  intro first
  apply (keepsTo_mergeRanges hlax first).bind
  intro second
  apply (keepsTo_absorb hlax second).bind
  intro third
  apply (keepsTo_mergeShapes hlax hcombine limit third).bind
  intro fourth
  unfold close
  split
  · exact keepsTo_pure _
  · exact keepsTo_built hlax (by simp)

theorem keepsTo_normalize (limit : Nat) (flavor : Flavor) (members : List Ty) :
    (normalize limit combine flavor members).KeepsTo terms := by
  have hnormalizes := normalizes_normalize limit combine flavor members
  generalize normalize limit combine flavor members = q at hnormalizes ⊢
  cases hnormalizes with
  | several hleft hne => exact keepsTo_reduce hlax hcombine limit flavor _
  | _ => exact keepsTo_pure _

end Combine

theorem keepsTo_upTo (limit height : Nat) (ts : List Ty) :
    (upTo limit height ts).KeepsTo terms := by
  induction height generalizing ts with
  | zero =>
      match ts with
      | [] => exact keepsTo_pure _
      | [t] => exact keepsTo_pure _
      | _ :: _ :: _ => exact keepsTo_pure _
  | succ height ih =>
      match ts with
      | [] => exact keepsTo_pure _
      | [t] => exact keepsTo_pure _
      | _ :: _ :: _ => exact keepsTo_normalize hlax ih limit _ _

theorem keepsTo_of (options : Options) (ts : List Ty) : (of options ts).KeepsTo terms :=
  keepsTo_upTo hlax _ _ ts

theorem keepsTo_benevolentOf (options : Options) (ts : List Ty) :
    (benevolentOf options ts).KeepsTo terms :=
  (keepsTo_of hlax options ts).bind fun t => Build.keepsTo_markBenevolent hlax t

end Union

/-!
# Reduction
-/

namespace Intersection

theorem meets_meet_scalar (earlier later : Ty) :
    (meet earlier later).Meets terms fun meeting =>
      ∀ u, meeting = .narrowed u -> u.isScalar = true := by
  apply meets_meet_of (hlax.asks _ _) (hlax.asks _ _)
  · simp
  · simp
  · simp
  · intro _ _ _ _ _ _ _
    unfold meetRanges
    split
    · dsimp only
      split
      · simp
      · apply (Build.meets_range_scalar hlax _).bind
        rintro t ht _ ⟨⟩
        exact ht
    · simp

theorem outlives_isFrom (members : List Ty) : Outlives terms (IsFrom members) True where
  perm := fun hperm hts m hm => hts m (hperm.mem_iff.mpr hm)
  meet := by
    intro t u others hstart
    rcases List.forall_mem_cons.mp hstart with ⟨ht, hrest⟩
    rcases List.forall_mem_cons.mp hrest with ⟨hu, hothers⟩
    refine (meets_meet_scalar hlax t u).imp fun meeting hmeeting => ?_
    cases meeting with
    | keep => exact List.forall_mem_cons.mpr ⟨ht, hothers⟩
    | replace => exact List.forall_mem_cons.mpr ⟨hu, hothers⟩
    | narrowed v => exact List.forall_mem_cons.mpr ⟨Or.inr (hmeeting v rfl), hothers⟩
    | disjoint => trivial
    | both => trivial

theorem keepsTo_narrowAll (kept incoming : List Ty) :
    (narrowAll kept incoming).KeepsTo terms :=
  (meets_narrowAll_of (outlives_isFrom hlax (kept ++ incoming)) fun _ => Or.inl).imp
    fun _ _ => trivial

theorem keepsTo_gather (options : Options) (flavor : Flavor) (parts : List Ty) :
    (gather options flavor parts).KeepsTo terms := by
  cases flavor with
  | plain => exact Union.keepsTo_of hlax options parts
  | benevolent => exact Union.keepsTo_benevolentOf hlax options parts

end Intersection

end Lax

/-- A reduced intersection is one type, given or scalar, or the intersection of such types. -/
theorem Intersection.meets_reduce_from (replies : Ty -> Ty -> Tristate -> Prop)
    (kept : List Ty) :
    (Intersection.reduce kept).Meets (.free replies) fun t =>
      (t ∈ kept ∨ t.isScalar = true) ∨ ∃ left, t = .inter left ∧ Intersection.IsFrom kept left := by
  apply meets_reduce_of (outlives_isFrom (isLax_free replies) kept) trivial fun _ => Or.inl
  · exact fun _ => Or.inl (Or.inr rfl)
  · exact fun t ht => Or.inl (ht t List.mem_cons_self)
  · exact fun left hleft => ⟨trivial, Or.inr ⟨left, rfl, hleft⟩⟩

end GradualTypes
