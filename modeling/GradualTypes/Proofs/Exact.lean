import GradualTypes.Proofs.Rules

/-!
# The relation without limits

`Subtype.exact` follows questions to a depth that depends on the two types.  The
depth is enough for every chain of questions, so the relation solves its own
equation: each answer is the answer of one step whose questions are answered by
the relation itself.  Certain containment is then closed under the rules of
certain containment, and nothing else is certainly contained.
-/

namespace GradualTypes
namespace Subtype

open Inquiry

variable {h : Hierarchy} {s t : Ty}

/-- A step asks lighter questions, announces literals and starts no new series,
whatever answers it gets. -/
theorem meets_check_free (h : Hierarchy) (s t : Ty) :
    (check h s t).Meets
      ⟨fun a b => weight a b < weight s t, fun _ _ _ => True, fun u => u.isLiteral = true, False⟩
      fun _ => True := by
  refine Meets.imp (meets_check (R := fun _ _ => True) ?_ ?_ ?_) fun _ _ => trivial
  · exact fun _ _ hlt => hlt
  · exact fun _ _ _ => trivial
  · exact fun _ => rfl

/-- Steps under relations that agree on lighter questions have one answer. -/
theorem value_check_congr {relation relation' : Ty -> Ty -> Tristate}
    (heq : ∀ a b, weight a b < weight s t -> relation a b = relation' a b) :
    (check h s t).value relation = (check h s t).value relation' :=
  (meets_check_free h s t).value_congr (fun _ _ _ => trivial) heq

theorem exactTo_stable {m n : Nat} (hm : weight s t ≤ m) (hn : weight s t ≤ n) :
    exactTo h m s t = exactTo h n s t := by
  induction m generalizing n s t with
  | zero =>
      have hpos := weight_pos s t
      omega
  | succ m ih =>
      cases n with
      | zero =>
          have hpos := weight_pos s t
          omega
      | succ n =>
          simp only [exactTo]
          split
          · rfl
          · exact value_check_congr fun a b hlt => ih (by omega) (by omega)

theorem exact_eq (h : Hierarchy) (s t : Ty) :
    exact h s t = if s = t then .yes else (check h s t).value (exact h) := by
  have hdeep : exact h s t = exactTo h (s.height + t.height + 1) s t :=
    exactTo_stable (weight_le s t) (Nat.le_succ_of_le (weight_le s t))
  rw [hdeep]
  simp only [exactTo]
  split
  · rfl
  · apply value_check_congr
    intro a b hlt
    have hle := weight_le s t
    exact exactTo_stable (by omega) (weight_le a b)

@[simp] theorem exact_self (h : Hierarchy) (t : Ty) : exact h t t = .yes := by
  rw [exact_eq, if_pos rfl]

theorem exact_of_ne (hne : s ≠ t) : exact h s t = (check h s t).value (exact h) := by
  rw [exact_eq, if_neg hne]

/-- Certain containment: the relation answers `yes`. -/
def Contained (h : Hierarchy) (s t : Ty) : Prop :=
  exact h s t = .yes

instance : Decidable (Contained h s t) :=
  inferInstanceAs (Decidable (exact h s t = .yes))

theorem Contained.refl (t : Ty) : Contained h t t :=
  exact_self h t

/-- A type is certainly contained in itself and, by the rules, in other types. -/
theorem contained_iff : Contained h s t ↔ s = t ∨ Certain h (Contained h) s t := by
  unfold Contained
  rw [exact_eq]
  split
  · simp [*]
  · rename_i hne
    rw [value_check_eq_yes_iff]
    simp [hne]

theorem Certain.contained (hcertain : Certain h (Contained h) s t) : Contained h s t :=
  contained_iff.mpr (Or.inr hcertain)

/-- Nothing is certainly contained but by the rules: what they preserve holds of it. -/
theorem Contained.induction {R : Ty -> Ty -> Prop} (hrefl : ∀ t, R t t)
    (hrules : ∀ {s t}, Certain h R s t -> R s t) (hcontained : Contained h s t) : R s t := by
  have hexact : ∀ n {s t}, exactTo h n s t = .yes -> R s t := by
    intro n
    induction n with
    | zero => exact fun hyes => nomatch hyes
    | succ n ih =>
        intro s t hyes
        simp only [exactTo] at hyes
        split at hyes
        · rename_i heq
          exact heq ▸ hrefl s
        · rw [value_check_eq_yes_iff] at hyes
          exact hrules (hyes.mono fun a b => ih)
  exact hexact _ hcontained

end Subtype
end GradualTypes
