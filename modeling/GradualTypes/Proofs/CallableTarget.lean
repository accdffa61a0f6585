import GradualTypes.Proofs.Callability

/-!
# Containment in the callable type

Whether a type can be called is computed from its form alone, and whether it is contained in the
callable type is asked of the relation, like any other question.  The relation looks at the
outermost form of a type first, splits unions and intersections and turns the question round for a
bare constraint.  On constructed types the two ways lead to one answer.
-/

namespace GradualTypes

open Inquiry

namespace Subtype

variable {h : Hierarchy} {replies : Ty -> Ty -> Tristate -> Prop} {t : Ty}

theorem isOrdinary_callable : Ty.callable.isOrdinary = true := rfl

/-- Values that can be called may meet any constraint. -/
theorem exact_callable_accessory (a : Accessory) : exact h .callable (.accessory a) = .maybe := by
  rw [exact_of_ne (by simp), check_simple rfl rfl rfl rfl]
  cases a <;> rfl

/-- The step for a type that has no members: a constraint is asked about the other way round, and
for the rest the table of callable types is read. -/
theorem exact_callable_of_simple (hordinary : t.isOrdinary = true) (hsimple : t.isSimple = true) :
    exact h t .callable = t.callability h := by
  by_cases hself : t = .callable
  · rw [hself, exact_self]
    rfl
  rw [exact_of_ne hself, check_simple hordinary isOrdinary_callable hsimple rfl]
  cases t with
  | accessory a =>
      show (constraintIn (.accessory a) .callable).value (exact h) = .maybe
      rw [constraintIn, value_bind, value_isContained, exact_callable_accessory]
      rfl
  | _ => rfl

/-- A question on a type that stands for all values or for none is settled by name. -/
theorem exact_callable_of_absent (hordinary : t.isOrdinary = false) (hknown : t.isUnknown = false)
    (hnever : t ≠ .never) : exact h t .callable = t.callability h := by
  have hcases : t = .mixed ∨ t.isMissing = true := by
    simpa [Ty.isOrdinary, hknown, hnever, imp_iff_not_or] using hordinary
  rcases hcases with rfl | hmissing
  · rw [exact_of_ne (by decide)]
    rfl
  · rw [exact_of_ne fun heq => by rw [heq] at hmissing; cases hmissing]
    cases t <;> first | rfl | cases hmissing

/-- The members of a union or an intersection are formed, and none is the type without values. -/
theorem formed_member {m : Ty} {members : List Ty}
    (ht : (∃ flavor, t = .union flavor members) ∨ t = .inter members) (hformed : t.Formed replies)
    (hm : m ∈ members) : m.Formed replies ∧ m ≠ .never := by
  rcases ht with ⟨flavor, rfl⟩ | rfl
  · exact (Ty.Formed.unionMember hformed hm).imp_right fun hmember => hmember.2.2.1
  · exact ⟨hformed.inside hm, (hformed.here.isMember m hm).2.2.1⟩

/-- Asking the relation and reading callability off the form of a type give one answer. -/
theorem exact_callable (hformed : t.Formed replies) (hnever : t ≠ .never) :
    exact h t .callable = t.callability h := by
  -- both split unions and intersections into their members, which are smaller
  induction hn : t.size using Nat.strongRecOn generalizing t with
  | ind n ih =>
    subst hn
    have hmembers : ∀ members, (∃ flavor, t = .union flavor members) ∨ t = .inter members ->
        (members.map fun m => (isContained m .callable).value (exact h)) =
          Ty.callabilities h members := by
      intro members ht
      rw [Ty.callabilities_eq_map]
      refine List.map_congr_left fun m hm => ?_
      obtain ⟨hmember, hne⟩ := formed_member ht hformed hm
      have hchild : m ∈ t.children := by
        rcases ht with ⟨flavor, rfl⟩ | rfl <;> exact hm
      exact ih m.size (Ty.size_lt_of_mem_children hchild) hmember hne rfl
    rcases t.union_or_inter_or_simple with ⟨flavor, members, rfl⟩ | ⟨members, rfl⟩ | hsimple
    · rw [exact_of_ne (by simp), check_union_left isOrdinary_callable, value_unanimous,
        hmembers members (Or.inl ⟨flavor, rfl⟩), Ty.callability]
    · rw [exact_of_ne (by simp), check_inter_left isOrdinary_callable rfl, value_decisive,
        hmembers members (Or.inr rfl), Ty.callability]
    · cases hordinary : t.isOrdinary with
      | true => exact exact_callable_of_simple hordinary hsimple
      | false =>
          refine exact_callable_of_absent hordinary ?_ hnever
          cases t <;> first | rfl | exact hformed.here.elim

end Subtype

namespace Session

variable {h : Hierarchy} {options made : Options} {σ : Session} {t : Ty}

end Session
end GradualTypes
