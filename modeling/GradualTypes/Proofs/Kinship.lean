import GradualTypes.Proofs.Ancestry

/-!
# Lawful hierarchies

The declarations of a hierarchy may say anything.  A hierarchy is lawful if it
keeps to the rules of the language: a final class is not extended, what extends a
class is a class, and a class extends at most one other class.  Only then do two
unrelated classes stay disjoint for all their descendants.
-/

namespace GradualTypes
namespace Hierarchy

variable {h : Hierarchy}

structure IsLawful (h : Hierarchy) : Prop where
  closure : h.LeavesClosureFinal
  final : ∀ parent child, h.isFinal parent = true -> h.Descends child parent ->
    child.toLower = parent.toLower
  plain : ∀ parent child, h.kind parent = .plainClass -> h.Descends child parent ->
    h.kind child = .plainClass
  single : ∀ a b child, h.kind a = .plainClass -> h.kind b = .plainClass ->
    h.Descends child a -> h.Descends child b -> h.Descends a b ∨ h.Descends b a

theorem isLawful_empty : Hierarchy.empty.IsLawful where
  closure := by simp [LeavesClosureFinal, Hierarchy.empty]
  final := by simp [isFinal, of, Hierarchy.empty]
  plain := by simp [kind, of, Hierarchy.empty]
  single := by simp [kind, of, Hierarchy.empty]

theorem isFinal_congr {a b : String} (heq : a.toLower = b.toLower) : h.isFinal a = h.isFinal b := by
  simp [isFinal, heq]

theorem hasFeature_congr {a b : String} {feature : Declaration -> Bool}
    (heq : a.toLower = b.toLower) : h.hasFeature a feature = h.hasFeature b feature := by
  simp [hasFeature, isDeclared, inherits, ancestry, isFinal, heq]

theorem isInvokable_congr {a b : String} (heq : a.toLower = b.toLower) :
    h.isInvokable a = h.isInvokable b := by
  simp [isInvokable, isClosure, heq, hasFeature_congr heq]

/-!
# Disjoint classes
-/

theorem kinship_eq_disjoint_iff {a b : String} :
    h.kinship a b = .disjoint ↔
      ¬ h.Descends a b ∧ ¬ h.Descends b a ∧
        (h.isFinal a = true ∨ h.isFinal b = true ∨
          (h.kind a = .plainClass ∧ h.kind b = .plainClass)) := by
  unfold kinship
  split
  · rename_i heq
    simp [descends_of_eq heq]
  · rename_i hne
    have hab : h.isSubclassOf a b = true ↔ h.Descends a b := by
      rw [isSubclassOf_iff, and_iff_right hne]
    have hba : h.isSubclassOf b a = true ↔ h.Descends b a := by
      rw [isSubclassOf_iff, and_iff_right fun heq => hne heq.symm]
    rw [← hab, ← hba]
    split
    · simp [*]
    · split
      · simp [*]
      · cases h.isFinal a <;> cases h.isFinal b <;> simp_all

theorem kinship_disjoint_comm {a b : String} :
    h.kinship a b = .disjoint ↔ h.kinship b a = .disjoint := by
  rw [kinship_eq_disjoint_iff, kinship_eq_disjoint_iff]
  constructor
  · intro hall
    rcases hall with ⟨hab, hba, hrest⟩
    exact ⟨hba, hab, hrest.elim (fun h => Or.inr (Or.inl h)) fun hrest =>
      hrest.elim Or.inl fun h => Or.inr (Or.inr h.symm)⟩
  · intro hall
    rcases hall with ⟨hba, hab, hrest⟩
    exact ⟨hab, hba, hrest.elim (fun h => Or.inr (Or.inl h)) fun hrest =>
      hrest.elim Or.inl fun h => Or.inr (Or.inr h.symm)⟩

/-- A descendant of one of two disjoint classes is disjoint from the other one. -/
theorem IsLawful.disjoint_of_descends (hlawful : h.IsLawful) {child a b : String}
    (hdescends : h.Descends child a) (hdisjoint : h.kinship a b = .disjoint) :
    h.kinship child b = .disjoint := by
  rw [kinship_eq_disjoint_iff] at hdisjoint ⊢
  rcases hdisjoint with ⟨hab, hba, hwhy⟩
  refine ⟨fun hchild => ?_, fun hchild => hba (hchild.trans hdescends), ?_⟩
  · rcases hwhy with hfinal | hfinal | ⟨ha, hb⟩
    · have heq := hlawful.final a child hfinal hdescends
      exact hab ((descends_of_eq heq.symm).trans hchild)
    · have heq := hlawful.final b child hfinal hchild
      exact hba ((descends_of_eq heq.symm).trans hdescends)
    · exact (hlawful.single a b child ha hb hdescends hchild).elim hab hba
  · rcases hwhy with hfinal | hfinal | ⟨ha, hb⟩
    · exact Or.inl ((isFinal_congr (hlawful.final a child hfinal hdescends)).trans hfinal)
    · exact Or.inr (Or.inl hfinal)
    · exact Or.inr (Or.inr ⟨hlawful.plain a child ha hdescends, hb⟩)

/-!
# Classes without a feature
-/

theorem isFinal_of_hasFeature {cls : String} {feature : Declaration -> Bool}
    (hno : h.hasFeature cls feature = .no) : h.isFinal cls = true := by
  unfold hasFeature at hno
  split at hno
  · cases hno
  · split at hno
    · cases hno
    · split at hno
      · assumption
      · cases hno

theorem isFinal_of_isInvokable {cls : String} (hno : h.isInvokable cls = .no) :
    h.isFinal cls = true := by
  unfold isInvokable at hno
  split at hno
  · cases hno
  · exact isFinal_of_hasFeature hno

/-- A class that certainly has what a final class certainly lacks is disjoint from
it. -/
theorem IsLawful.disjoint_of_final (hlawful : h.IsLawful) {a b : String}
    (hfinal : h.isFinal b = true) (hne : ¬ h.Descends b a) : h.kinship a b = .disjoint := by
  refine kinship_eq_disjoint_iff.mpr ⟨fun hab => ?_, hne, Or.inr (Or.inl hfinal)⟩
  exact hne (descends_of_eq (hlawful.final b a hfinal hab).symm)

theorem IsLawful.disjoint_of_feature (hlawful : h.IsLawful) {a b : String}
    {feature : Declaration -> Bool} (ha : h.hasFeature a feature = .yes)
    (hb : h.hasFeature b feature = .no) : h.kinship a b = .disjoint := by
  apply hlawful.disjoint_of_final (isFinal_of_hasFeature hb)
  intro hba
  exact absurd (hb.symm.trans (hba.hasFeature ha)) (by decide)

theorem IsLawful.disjoint_of_invokable (hlawful : h.IsLawful) {a b : String}
    (ha : h.isInvokable a = .yes) (hb : h.isInvokable b = .no) : h.kinship a b = .disjoint := by
  apply hlawful.disjoint_of_final (isFinal_of_isInvokable hb)
  intro hba
  exact absurd (hb.symm.trans (hba.isInvokable hlawful.closure ha)) (by decide)

end Hierarchy
end GradualTypes
