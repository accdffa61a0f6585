import GradualTypes.Hierarchy
import Mathlib.Data.List.Nodup
import Mathlib.Tactic.SplitIfs

/-!
# Ancestry and reachability

The search for ancestors visits exactly the names that can be reached through
declared parents, also where the parents form cycles.  From this follow the laws
of classes that containment rests on: descending from a class is reflexive and
transitive, and what a class certainly has, its descendants certainly have.
-/

namespace GradualTypes
namespace Hierarchy

variable {h : Hierarchy}

/-- A name can be reached from another one through declared parents. -/
inductive Reaches (h : Hierarchy) : String -> String -> Prop where
  | refl (name : String) : Reaches h name name
  | step {name parent ancestor : String} :
      parent ∈ h.parents name ->
      Reaches h parent ancestor ->
      Reaches h name ancestor

theorem Reaches.trans {a b c : String} (hab : h.Reaches a b) (hbc : h.Reaches b c) :
    h.Reaches a c := by
  induction hab with
  | refl _ => exact hbc
  | step hparent _ ih => exact Reaches.step hparent (ih hbc)

/-!
# The search
-/

theorem mem_explore_of_mem_visited {visited stack : List String} {name : String}
    (hname : name ∈ visited) : name ∈ h.explore visited stack := by
  fun_induction explore h visited stack with
  | case1 visited => exact hname
  | case2 visited top rest seen ih => exact ih hname
  | case3 visited top rest new ih => exact ih (List.mem_cons_of_mem _ hname)

theorem reaches_of_mem_explore {visited stack : List String} {name : String}
    (hname : name ∈ h.explore visited stack) :
    name ∈ visited ∨ ∃ start ∈ stack, h.Reaches start name := by
  fun_induction explore h visited stack with
  | case1 visited => exact Or.inl hname
  | case2 visited top rest seen ih =>
      rcases ih hname with hvisited | ⟨start, hstart, hreach⟩
      · exact Or.inl hvisited
      · exact Or.inr ⟨start, List.mem_cons_of_mem _ hstart, hreach⟩
  | case3 visited top rest new ih =>
      rcases ih hname with hvisited | ⟨start, hstart, hreach⟩
      · rcases List.mem_cons.mp hvisited with rfl | hvisited
        · exact Or.inr ⟨name, List.mem_cons_self, Reaches.refl name⟩
        · exact Or.inl hvisited
      · rcases List.mem_append.mp hstart with hparent | hrest
        · exact Or.inr ⟨top, List.mem_cons_self,
            Reaches.step (List.mem_reverse.mp hparent) hreach⟩
        · exact Or.inr ⟨start, List.mem_cons_of_mem _ hrest, hreach⟩

/-- The search ends with everything on the stack visited, and with the parents of
every visited name visited, if so far they are visited or on the stack. -/
theorem explore_closed {visited stack : List String}
    (hclosed : ∀ name ∈ visited, ∀ parent ∈ h.parents name,
      parent ∈ visited ∨ parent ∈ stack) :
    (∀ start ∈ stack, start ∈ h.explore visited stack) ∧
      ∀ name ∈ h.explore visited stack, ∀ parent ∈ h.parents name,
        parent ∈ h.explore visited stack := by
  fun_induction explore h visited stack with
  | case1 visited =>
      constructor
      · simp
      · intro name hname parent hparent
        exact (hclosed name hname parent hparent).resolve_right (by simp)
  | case2 visited top rest seen ih =>
      have htop : top ∈ visited := by simpa using seen
      have hrest := ih fun name hname parent hparent => by
        rcases hclosed name hname parent hparent with hvisited | hstack
        · exact Or.inl hvisited
        · rcases List.mem_cons.mp hstack with rfl | hstack
          · exact Or.inl htop
          · exact Or.inr hstack
      constructor
      · intro start hstart
        rcases List.mem_cons.mp hstart with rfl | hstart
        · exact mem_explore_of_mem_visited htop
        · exact hrest.1 start hstart
      · exact hrest.2
  | case3 visited top rest new ih =>
      have hrest := ih fun name hname parent hparent => by
        rcases List.mem_cons.mp hname with rfl | hname
        · exact Or.inr (List.mem_append_left _ (List.mem_reverse.mpr hparent))
        · rcases hclosed name hname parent hparent with hvisited | hstack
          · exact Or.inl (List.mem_cons_of_mem _ hvisited)
          · rcases List.mem_cons.mp hstack with rfl | hstack
            · exact Or.inl List.mem_cons_self
            · exact Or.inr (List.mem_append_right _ hstack)
      constructor
      · intro start hstart
        rcases List.mem_cons.mp hstart with rfl | hstart
        · exact mem_explore_of_mem_visited List.mem_cons_self
        · exact hrest.1 start (List.mem_append_right _ hstart)
      · exact hrest.2

theorem mem_ancestry {cls name : String} :
    name ∈ h.ancestry cls ↔ h.Reaches cls.toLower name := by
  rw [ancestry, List.mem_reverse]
  constructor
  · intro hname
    rcases reaches_of_mem_explore hname with hvisited | ⟨start, hstart, hreach⟩
    · cases hvisited
    · rw [List.mem_singleton] at hstart
      exact hstart ▸ hreach
  · intro hreach
    have hnone : ∀ name ∈ ([] : List String), ∀ parent ∈ h.parents name,
        parent ∈ [] ∨ parent ∈ [cls.toLower] := by simp
    rcases h.explore_closed hnone with ⟨hvisited, hclosed⟩
    have hstart := hvisited _ List.mem_cons_self
    generalize h.explore [] [cls.toLower] = found at hclosed hstart
    generalize cls.toLower = start at hreach hstart
    induction hreach with
    | refl _ => exact hstart
    | step hparent _ ih => exact ih (hclosed _ hstart _ hparent)

/-- The search visits no name twice. -/
theorem nodup_explore {visited stack : List String} (hvisited : visited.Nodup) :
    (h.explore visited stack).Nodup := by
  fun_induction explore h visited stack with
  | case1 visited => exact hvisited
  | case2 visited top rest seen ih => exact ih hvisited
  | case3 visited top rest new ih =>
      have htop : top ∉ visited := by simpa using new
      exact ih (List.nodup_cons.mpr ⟨htop, hvisited⟩)

theorem nodup_ancestry (cls : String) : (h.ancestry cls).Nodup :=
  List.nodup_reverse.mpr (nodup_explore List.nodup_nil)

/-!
# Descent
-/

/-- A class is another one or has it among its ancestors. -/
def Descends (h : Hierarchy) (child parent : String) : Prop :=
  h.Reaches child.toLower parent.toLower

theorem Descends.trans {a b c : String} (hab : h.Descends a b) (hbc : h.Descends b c) :
    h.Descends a c :=
  Reaches.trans hab hbc

theorem descends_of_eq {a b : String} (hab : a.toLower = b.toLower) : h.Descends a b := by
  rw [Descends, hab]
  exact Reaches.refl _

theorem isSubclassOf_iff {child parent : String} :
    h.isSubclassOf child parent = true ↔
      child.toLower ≠ parent.toLower ∧ h.Descends child parent := by
  simp [isSubclassOf, mem_ancestry, Descends]

theorem kinship_eq_same_iff {source target : String} :
    h.kinship source target = .same ↔ source.toLower = target.toLower := by
  unfold kinship
  split
  · simp [*]
  · split_ifs <;> simp_all

theorem kinship_eq_subclass_iff {source target : String} :
    h.kinship source target = .subclass ↔
      source.toLower ≠ target.toLower ∧ h.Descends source target := by
  rw [← isSubclassOf_iff]
  unfold kinship
  split
  · simp_all [isSubclassOf]
  · split_ifs <;> simp_all

theorem descends_iff_kinship {source target : String} :
    h.Descends source target ↔
      h.kinship source target = .same ∨ h.kinship source target = .subclass := by
  rw [kinship_eq_same_iff, kinship_eq_subclass_iff]
  constructor
  · intro hdescends
    by_cases heq : source.toLower = target.toLower
    · exact Or.inl heq
    · exact Or.inr ⟨heq, hdescends⟩
  · intro hcase
    rcases hcase with heq | ⟨_, hdescends⟩
    · exact descends_of_eq heq
    · exact hdescends

/-!
# Inheritance
-/

theorem isDeclared_of_mem_parents {cls parent : String}
    (hparent : parent ∈ h.parents cls.toLower) : h.isDeclared cls = true := by
  simp only [parents, of, List.mem_flatMap, List.mem_filter] at hparent
  rcases hparent with ⟨d, ⟨hd, hname⟩, _⟩
  simp only [isDeclared, List.any_eq_true]
  exact ⟨d, hd, hname⟩

/-- A class with a different class above it has been declared. -/
theorem Descends.isDeclared_of_ne {child parent : String} (hdescends : h.Descends child parent)
    (hne : child.toLower ≠ parent.toLower) : h.isDeclared child = true := by
  unfold Descends at hdescends
  generalize hstart : child.toLower = start at hdescends hne
  cases hdescends with
  | refl _ => exact absurd rfl hne
  | step hstep _ => exact isDeclared_of_mem_parents (hstart ▸ hstep)

theorem Descends.isDeclared {child parent : String} (hdescends : h.Descends child parent)
    (hparent : h.isDeclared parent = true) : h.isDeclared child = true := by
  by_cases heq : child.toLower = parent.toLower
  · simpa [Hierarchy.isDeclared, heq] using hparent
  · exact hdescends.isDeclared_of_ne heq

theorem hasFeature_eq_yes_iff {cls : String} {feature : Declaration -> Bool} :
    h.hasFeature cls feature = .yes ↔
      h.isDeclared cls = true ∧ h.inherits cls feature = true := by
  unfold hasFeature
  cases h.isDeclared cls <;> cases h.inherits cls feature <;> cases h.isFinal cls <;> simp

theorem Descends.inherits {child parent : String} {feature : Declaration -> Bool}
    (hdescends : h.Descends child parent) (hparent : h.inherits parent feature = true) :
    h.inherits child feature = true := by
  simp only [Hierarchy.inherits, List.any_eq_true, mem_ancestry] at hparent ⊢
  rcases hparent with ⟨name, hname, hfeature⟩
  exact ⟨name, Reaches.trans hdescends hname, hfeature⟩

/-- A feature that instances of a class certainly have, instances of its
descendants certainly have. -/
theorem Descends.hasFeature {child parent : String} {feature : Declaration -> Bool}
    (hdescends : h.Descends child parent) (hparent : h.hasFeature parent feature = .yes) :
    h.hasFeature child feature = .yes := by
  rw [hasFeature_eq_yes_iff] at hparent ⊢
  exact ⟨hdescends.isDeclared hparent.1, hdescends.inherits hparent.2⟩

/-- A class certainly has the features that it is declared with. -/
theorem hasFeature_of_declared {cls : String} {feature : Declaration -> Bool}
    (hfeature : (h.of cls.toLower).any feature = true) : h.hasFeature cls feature = .yes := by
  rw [hasFeature_eq_yes_iff, inherits, List.any_eq_true]
  refine ⟨?_, _, mem_ancestry.mpr (.refl _), hfeature⟩
  rcases List.any_eq_true.mp hfeature with ⟨d, hd, -⟩
  exact List.any_eq_true.mpr ⟨d, (List.mem_filter.mp hd).1, (List.mem_filter.mp hd).2⟩

/-- No declaration names the class of function values as a parent. -/
def LeavesClosureFinal (h : Hierarchy) : Prop :=
  ∀ d ∈ h.declarations, "closure" ∉ d.parents

theorem Reaches.eq_closure {name ancestor : String} (hfinal : h.LeavesClosureFinal)
    (hreach : h.Reaches name ancestor) (hancestor : ancestor = "closure") :
    name = ancestor := by
  induction hreach with
  | refl _ => rfl
  | step hparent _ ih =>
      have hclosure := ih hancestor
      simp only [parents, of, List.mem_flatMap, List.mem_filter] at hparent
      rcases hparent with ⟨d, ⟨hd, _⟩, hd'⟩
      exact absurd (hancestor ▸ hclosure ▸ hd') (hfinal d hd)

theorem Descends.isInvokable {child parent : String} (hfinal : h.LeavesClosureFinal)
    (hdescends : h.Descends child parent) (hparent : h.isInvokable parent = .yes) :
    h.isInvokable child = .yes := by
  unfold Hierarchy.isInvokable at hparent ⊢
  by_cases hclosure : isClosure parent = true
  · have hname : parent.toLower = "closure" := by simpa [isClosure] using hclosure
    have hchild : isClosure child = true := by
      simp [isClosure, Reaches.eq_closure hfinal hdescends hname, hname]
    simp [hchild]
  · rw [if_neg hclosure] at hparent
    split
    · rfl
    · exact hdescends.hasFeature hparent

end Hierarchy
end GradualTypes
