import GradualTypes.Proofs.CertainAcceptance
import GradualTypes.Proofs.Distributivity

/-!
# Acceptance in a session

An answer `yes` on acceptance is right in every session, and one that is right is given unless a
question meets the depth limit.  So acceptance respects containment on both sides: an acceptor
may be replaced by a wider type and a value by a narrower one.

A benevolent union does not keep to that, since one of its members may be accepted and another
one not; in a session that accepts such unions the wider value has to be without them.
-/

namespace GradualTypes

open Inquiry
open GradualTypes.Subtype (Contained exact)

variable {h : Hierarchy} {options options₁ options₂ options₃ options₄ made : Options}
  {strict : Bool} {a b s t : Ty}

namespace Acceptance

/-- Acceptance asks questions on containment and does nothing else. -/
theorem keepsTo_accepts {terms : Terms} (hasks : ∀ s t, terms.asks s t) :
    (accepts h options strict a t).KeepsTo terms := by
  have hany : ∀ {question : Ty -> Inquiry Tristate} {members : List Ty},
      (∀ m ∈ members, (question m).KeepsTo terms) -> (any question members).KeepsTo terms :=
    fun hquestion => (meets_any (P := fun _ => True) fun m hm =>
      (hquestion m hm).imp fun _ _ _ => trivial).imp fun _ _ => trivial
  have hall : ∀ {question : Ty -> Inquiry Tristate} {members : List Ty},
      (∀ m ∈ members, (question m).KeepsTo terms) -> (all question members).KeepsTo terms :=
    fun hquestion => (meets_all (P := fun _ => True) fun m hm =>
      (hquestion m hm).imp fun _ _ _ => trivial).imp fun _ _ => trivial
  have hasked : ∀ s t, (isContained s t).KeepsTo terms := fun s t => ⟨hasks s t, fun _ _ => trivial⟩
  induction a, t using accepts_induction with
  | settled a t answer hsettled =>
      rw [accepts_settled hsettled]
      exact keepsTo_pure answer
  | values a flavor members hopen ih =>
      rw [accepts_union_value hopen]
      split
      · exact hany ih
      · exact hall ih
  | mixed a hopen =>
      rw [accepts_mixed_value hopen]
      exact keepsTo_pure _
  | union t flavor members hflat hmixed hopen ih =>
      rw [accepts_union hflat hmixed hopen]
      exact hany ih
  | inter t members hflat hmixed hopen ih =>
      rw [accepts_inter hflat hmixed hopen]
      exact hall ih
  | parts a members hsimple hopen ih =>
      rw [accepts_inter_value hsimple hopen]
      refine (hany ih).bind fun byMember => ?_
      split
      · exact keepsTo_pure _
      · exact (hasked _ _).bind fun r => keepsTo_pure _
  | simple a t hsimple hsimple' hmixed hopen =>
      rw [accepts_simple hsimple hsimple' hmixed hopen]
      unfold simple
      split
      · exact keepsTo_pure _
      · split
        · exact keepsTo_pure _
        · exact hasked _ _

end Acceptance

theorem Constructed.isValid (ht : Constructed h options t) (herror : t ≠ .error) : t.IsValid h :=
  ⟨ht.formed, ht.complete, herror⟩

namespace Session

variable {σ σ₁ σ₂ σ₃ σ₄ : Session}

/-- An answer that does not meet the limit is the one of the relation without limits. -/
theorem Reachable.accepts_eq (hσ : Reachable h options σ)
    (hlimited : (σ.perform (accepts h made strict a t)).2.limited = false) :
    (σ.perform (accepts h made strict a t)).1 =
      (Acceptance.accepts h made strict a t).value (exact h) := by
  have hσ' := hσ.resume false
  rcases hσ'.kept with ⟨htruthful, hhierarchy, -⟩
  have hkeeps : (Acceptance.accepts h made strict a t).KeepsTo
      ⟨fun _ _ => True, fun _ _ _ => True, fun _ => True, False⟩ :=
    Acceptance.keepsTo_accepts fun _ _ => trivial
  have hwithin := within_of_not_limited (isReliable_answer relationDepth) htruthful hkeeps
    (fun _ _ _ => trivial) id hlimited
  exact hσ'.value_of_within hwithin

theorem Reachable.receives_of_accepts (hσ : Reachable h options σ) (ha : a.IsValid h)
    (ht : t.IsValid h) (hyes : (σ.perform (accepts h made strict a t)).1 = .yes) :
    Acceptance.Receives h made strict a t := by
  have hmeets : (accepts h made strict a t).Meets (.free (Run.soundly h))
      fun r => r = .yes -> Acceptance.Receives h made strict a t :=
    ⟨trivial, Acceptance.meets_accepts (fun _ _ => trivial) (fun s t hr => hr rfl) ha ht⟩
  exact hσ.meets hmeets hyes

/-- A value that is found to be below a type is accepted by it.  A type that is found to be
above another one accepts what that one accepts, and what is found to be below an accepted
value.  In each case the question on acceptance may not meet the limit. -/
theorem accepts_of_isSubtype (hfinal : h.LeavesClosureFinal)
    (hconstructed : ∀ u ∈ [a, b, s, t], Constructed h options u)
    (herror : ∀ u ∈ [a, b, s, t], u ≠ .error) (hσ₁ : Reachable h options₁ σ₁)
    (hσ₂ : Reachable h options₂ σ₂) (hσ₃ : Reachable h options₃ σ₃) (hσ₄ : Reachable h options₄ σ₄)
    (hlimited : (σ₄.perform (accepts h made strict b s)).2.limited = false) :
    ((σ₁.perform (isSubtype s b)).1 = .yes -> (σ₄.perform (accepts h made strict b s)).1 = .yes) ∧
    ((σ₁.perform (isSubtype a b)).1 = .yes -> (σ₂.perform (isSubtype s t)).1 = .yes ->
      (made.benevolentAcceptance = false ∨ t.Everywhere fun u => u.isPlain = true) ->
      (σ₃.perform (accepts h made strict a t)).1 = .yes ->
      (σ₄.perform (accepts h made strict b s)).1 = .yes) := by
  have hvalid : ∀ u ∈ [a, b, s, t], u.IsValid h := fun u hu =>
    (hconstructed u hu).isValid (herror u hu)
  simp only [List.forall_mem_cons, List.not_mem_nil, false_implies, implies_true, and_true] at hvalid
  rcases hvalid with ⟨ha, hb, hs, ht⟩
  rw [hσ₄.accepts_eq hlimited, Acceptance.value_accepts_eq_yes_iff hfinal hb hs]
  constructor
  · exact fun hsb => .contained (hσ₁.contained hsb)
  · intro hab hst hplain haccepts
    have hneeds : Acceptance.NeedsAll made t := by
      have hall : ∀ {u : Ty}, made.benevolentAcceptance = false ∨ u.isPlain = true ->
          ∀ flavor members, u = .union flavor members ->
            Acceptance.needsOne made flavor = false := by
        rintro _ (hoff | hplain) flavor members rfl
        · simp [Acceptance.needsOne, hoff]
        · cases flavor with
          | plain => rfl
          | benevolent => cases hplain
      rcases hplain with hoff | hplain
      · exact ht.complete.imp fun u _ => hall (Or.inl hoff)
      · exact hplain.imp fun u hu => hall (Or.inr hu)
    exact (hσ₃.receives_of_accepts ha ht haccepts).of_contained hfinal ha hb hs ht hneeds
      (hσ₁.contained hab) (hσ₂.contained hst)

/-- A string takes an interval by conversion, and a type above strings takes two integers of
it. -/
theorem accepts_of_isSubtype_integers :
    let σ := new .empty .default
    let wide := Ty.union .plain [.string, .null]
    let digits := Ty.range ⟨some 0, some 9⟩
    let few := Ty.union .plain [.literal (.int 1), .literal (.int 3)]
    (σ.perform (accepts .empty .default false .string digits)).1 = .yes ∧
      (σ.perform (accepts .empty .default false wide few)).1 = .yes := by
  intro σ wide digits few
  have hgiven : Call.results? .empty .default [] [.keyword .null, .keyword .string, .int 1, .int 3,
      .range ⟨some 0, some 9⟩, .union [.string, .null], .union [.literal (.int 1), .literal (.int 3)]] =
        some [few, wide, digits, .literal (.int 3), .literal (.int 1), .string, .null] := by
    decide +kernel
  have hconstructed : ∀ u ∈ [.string, wide, few, digits], Constructed .empty .default u := by
    intro u hu
    refine (ConstructedWithin.of_calls (by simp) hgiven u ?_).constructed
    revert u
    decide
  have hab : LeadsTo .empty (isSubtype .string wide) .yes := by
    constructor <;> decide +kernel
  have hst : LeadsTo .empty (isSubtype few digits) .yes := by
    constructor <;> decide +kernel
  have hat : LeadsTo .empty (accepts .empty .default false .string digits) .yes := by
    constructor <;> cbv
  have hbs : isLight .empty (accepts .empty .default false wide few) = true := by
    cbv
  have hnew : Reachable .empty .default σ := .new
  have hlimited : (σ.perform (accepts .empty .default false wide few)).2.limited = false :=
    limited_of_within (perform_new hbs).1 rfl
  refine ⟨hat.perform .default, ?_⟩
  exact (accepts_of_isSubtype Hierarchy.isLawful_empty.closure hconstructed (by decide) hnew hnew
    hnew hnew hlimited).2 (hab.perform .default) (hst.perform .default)
    (Or.inr (Ty.everywhere_of_everyTo (n := 2) (by decide))) (hat.perform .default)

end Session
end GradualTypes
