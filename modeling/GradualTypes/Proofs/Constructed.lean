import GradualTypes.Proofs.Construction
import GradualTypes.Proofs.IntersectionBounds

/-!
# Constructed types

The placeholder is a type that no constructor is meant to make.  The types that the
other constructors make of one another are complete: no part of them is a placeholder.

For such types the union is an upper bound in the sense of the relation itself: in
every session, each member is certainly contained in the union.
-/

namespace GradualTypes

open Inquiry
open GradualTypes.Ty (Formed)

namespace Call

variable {replies : Ty -> Ty -> Tristate -> Prop} {options : Options}

theorem meets_built_complete {t : Ty} (ht : Ty.IsComplete t) :
    (built t).Meets (.free replies) Ty.IsComplete :=
  ⟨trivial, ht⟩

/-- Every constructor but the placeholder makes complete types of complete types. -/
theorem meets_inquiry_complete (h : Hierarchy) {c : Call} (hc : c ≠ .placeholder)
    (hformed : ∀ t ∈ c.arguments, Formed replies t)
    (hcomplete : ∀ t ∈ c.arguments, Ty.IsComplete t) :
    (c.inquiry options).Meets (.free replies) Ty.IsComplete := by
  have hleaf : ∀ t : Ty, t ≠ .placeholder -> t.children = [] -> Ty.IsComplete t :=
    fun t ht hchildren => .leaf ht hchildren
  have hR := Subtype.isContainment_true h
  cases c with
  | placeholder => exact absurd rfl hc
  | error => exact hleaf .error (by simp) rfl
  | keyword k => exact Ty.isComplete_keyword k
  | int n => exact meets_built_complete (Ty.isComplete_literal _)
  | float x => exact meets_built_complete (Ty.isComplete_literal _)
  | text s => exact meets_built_complete (Ty.isComplete_literal _)
  | bool b => exact meets_built_complete (Ty.isComplete_literal _)
  | range r =>
      cases hr : r.isEmpty with
      | true =>
          simp only [inquiry, Build.range, hr, if_true]
          exact Ty.isComplete_keyword _
      | false =>
          apply (Build.meets_range hr).free.imp
          intro t hcase
          rcases hcase with rfl | ⟨n, rfl⟩ | ⟨rfl, -⟩
          · exact Ty.isComplete_keyword _
          · exact Ty.isComplete_literal _
          · exact Ty.isComplete_range _
  | object cls arguments => exact meets_built_complete (.intro (by simp) hcomplete)
  | this cls => exact meets_built_complete (hleaf _ (by simp) rfl)
  | array key value =>
      simp only [inquiry, Build.array]
      split
      · exact hleaf .error (by simp) rfl
      · exact meets_built_complete (.intro (by simp) hcomplete)
  | shape entries =>
      simp only [inquiry, Build.shape]
      split
      · exact hleaf .error (by simp) rfl
      · apply meets_built_complete
        apply Ty.isComplete_shape
        intro e he
        exact hcomplete _ (List.mem_map_of_mem (Shape.mem_of_mem_ofList he))
  | accessory a => exact meets_built_complete (hleaf _ (by simp) rfl)
  | hasProperty name => exact meets_built_complete (hleaf _ (by simp) rfl)
  | union members =>
      exact (Union.meets_of_above hR (fun _ _ _ => trivial) hformed hcomplete).imp
        fun t ht => ht.complete
  | benevolent members =>
      exact (Union.meets_benevolentOf_above hR (fun _ _ _ => trivial) hformed hcomplete).imp
        fun t ht => ht.complete
  | markBenevolent t =>
      have ht := hcomplete t List.mem_cons_self
      simp only [inquiry, Build.markBenevolent]
      split
      · exact meets_built_complete (Ty.isComplete_union.mpr (Ty.isComplete_union.mp ht))
      · exact ht
  | inter members => exact Intersection.meets_of_complete h hformed hcomplete

end Call

/-!
# Runs without the placeholder
-/

/-- What an inquiry meets if its answers `yes` are right holds of its result in every
session. -/
theorem Session.Reachable.meets {h : Hierarchy} {options : Options} {σ : Session} {α : Type}
    {q : Inquiry α} {post : α -> Prop} (hσ : Reachable h options σ)
    (hq : q.Meets (.free (Run.soundly h)) post) : post (σ.perform q).1 := by
  rcases hσ.kept with ⟨htruthful, rfl, -⟩
  exact (run_follows (P := fun _ => True) (isReliable_answer relationDepth) htruthful hq
    (fun _ _ _ hr => hr) (fun _ _ => trivial) (fun _ => trivial)).2

/-- A type that a run without the placeholder has returned. -/
def Constructed (h : Hierarchy) (options : Options) (t : Ty) : Prop :=
  ∃ σ ts, Run h options (fun _ c => c ≠ .placeholder) σ ts ∧ t ∈ ts

theorem Run.complete {h : Hierarchy} {options : Options} {σ : Session} {ts : List Ty}
    (hrun : Run h options (fun _ c => c ≠ .placeholder) σ ts) : ∀ t ∈ ts, Ty.IsComplete t := by
  induction hrun with
  | new => simp
  | call c hrun harguments hc ih =>
      refine List.forall_mem_cons.mpr ⟨hrun.reachable.meets ?_, ih⟩
      exact Call.meets_inquiry_complete h hc (fun t ht => hrun.formed t (harguments t ht))
        fun t ht => ih t (harguments t ht)
  | ask s t _ ih => exact ih

namespace Constructed

variable {h : Hierarchy} {options : Options} {t : Ty}

theorem formed (ht : Constructed h options t) : Formed (Run.soundly h) t := by
  rcases ht with ⟨σ, ts, hrun, hmem⟩
  exact hrun.formed t hmem

theorem complete (ht : Constructed h options t) : Ty.IsComplete t := by
  rcases ht with ⟨σ, ts, hrun, hmem⟩
  exact hrun.complete t hmem

end Constructed

/-!
# Unions in a session
-/

namespace Session

variable {h : Hierarchy} {options options₁ options₂ options₃ : Options} {σ σ' : Session}
  {members : List Ty} {m : Ty}

/-- In every sense that contains certain containment, a union that a session makes is
above the given types. -/
theorem Reachable.isAbove_union {R : Ty -> Ty -> Prop} (hR : Subtype.IsContainment h R)
    (hcontained : ∀ s t, Subtype.Contained h s t -> R s t) (hσ : Reachable h options₁ σ)
    (hmembers : ∀ t ∈ members, Constructed h options t) (made : Options) :
    Union.IsAbove R members (σ.perform (Union.of made members)).1 ∧
      Union.IsAbove R members (σ.perform (Union.benevolentOf made members)).1 := by
  have hyes : ∀ s t, Run.soundly h s t .yes -> R s t := fun s t hr => hcontained s t (hr rfl)
  have hformed : ∀ t ∈ members, Formed (Run.soundly h) t := fun t ht => (hmembers t ht).formed
  have hcomplete : ∀ t ∈ members, Ty.IsComplete t := fun t ht => (hmembers t ht).complete
  constructor
  · exact hσ.meets (Union.meets_of_above hR hyes hformed hcomplete)
  · exact hσ.meets (Union.meets_benevolentOf_above hR hyes hformed hcomplete)

/-- A union is an upper bound of its members for the relation itself: every session
answers `yes` for each of them, unless the question meets the depth limit.  The
union may have been made in another session, with any options, and on the way to it
the limit may have been met. -/
theorem isSubtype_union (hfinal : h.LeavesClosureFinal)
    (hmembers : ∀ t ∈ members, Constructed h options t) (herror : ∀ t ∈ members, t ≠ .error)
    (hσ : Reachable h options₁ σ) (hσ' : Reachable h options₂ σ') (hm : m ∈ members)
    (hlimit : (σ'.perform (isSubtype m (σ.perform (Union.of options₃ members)).1)).2.limited =
      false) :
    (σ'.perform (isSubtype m (σ.perform (Union.of options₃ members)).1)).1 = .yes := by
  have habove := hσ.isAbove_union (Subtype.isContainment_contained hfinal) (fun _ _ => id)
    hmembers options₃
  rw [hσ'.isSubtype_eq hlimit]
  exact habove.1.above herror m hm

/-- The union of two shapes with the same key is one shape, and the first shape is
contained in it. -/
theorem isSubtype_union_shapes :
    let σ := new .empty .default
    let one := Ty.shape [⟨.text "a", .literal (.int 1), false⟩]
    let two := Ty.shape [⟨.text "a", .literal (.int 2), false⟩]
    (σ.perform (isSubtype one (σ.perform (Union.of .default [one, two])).1)).1 = .yes := by
  intro σ one two
  have hnew : Reachable .empty .default σ := .new
  have hmade : (σ.perform (Union.of .default [one, two])).1 =
      .shape [⟨.text "a", .union .plain [.literal (.int 1), .literal (.int 2)], false⟩] := by
    have hwithin : Within (answer relationDepth) (Union.of .default [one, two]) σ :=
      within_of_asked hnew.kept.1 rfl (by decide +kernel)
    have hvalue := run_eq_value (isReliable_answer relationDepth) hnew.kept.1 hwithin
    exact hvalue.trans (by decide +kernel)
  -- each shape is made of the integer that was made just before it
  have hlast : ∀ {t : Ty} {ts : List Ty}, ∀ u ∈ [t], u ∈ t :: ts :=
    fun u hu => List.mem_cons.mpr (Or.inl (List.mem_singleton.mp hu))
  have hstart : Run .empty .default (fun _ c => c ≠ .placeholder) σ [] := .new
  have hfirst := (hstart.call (.int 1) (by simp [Call.arguments]) (by simp)).call
    (.shape [⟨.text "a", .literal (.int 1), false⟩]) hlast (by simp)
  have hsecond := (hfirst.call (.int 2) (by simp [Call.arguments]) (by simp)).call
    (.shape [⟨.text "a", .literal (.int 2), false⟩]) hlast (by simp)
  have hconstructed : ∀ t ∈ [one, two], Constructed .empty .default t := by
    rw [List.forall_mem_cons, List.forall_mem_singleton]
    constructor
    · exact ⟨_, _, hfirst, List.mem_cons_self⟩
    · exact ⟨_, _, hsecond, List.mem_cons_self⟩
  refine isSubtype_union Hierarchy.isLawful_empty.closure hconstructed (by simp [one, two]) hnew
    hnew List.mem_cons_self ?_
  rw [hmade]
  exact isSubtype_not_limited _ (by decide)

end Session

end GradualTypes
