import GradualTypes.Proofs.Ancestry
import Mathlib.Logic.Relation

/-!
# Inheritance

A hierarchy is declared by a sequence of headers of classes and interfaces, with names as
they are written.  What the hierarchy answers about a class can be read off the headers:
its ancestors are the names to which the headers lead from it, letters of either case being
the same, and it has the properties that its own headers or those of its ancestors declare.

So a class has the properties of every class above it.  That it can be called is inherited in
the same way if it is declared, but not from the built-in class of function values, which can
be called without a declaration.
-/

namespace GradualTypes

theorem Text.toLower_toLower (s : String) : s.toLower.toLower = s.toLower := by
  have hchar : ∀ c : Char, c.toLower.toLower = c.toLower := by
    intro c
    unfold Char.toLower
    split
    · rw [dif_neg]
      grind [UInt32.toNat_add, Char.toNat_val]
    · rfl
  have hmap : ∀ s : String, s.toLower = s.map Char.toLower := fun _ => rfl
  rw [← String.toList_inj, hmap, hmap]
  simp [String.toList_map, hchar]

/-!
# Headers
-/

/-- A class or interface as it is declared. -/
structure Header where
  name : String
  kind : ClassKind
  parents : List String
  isFinal : Bool
  isInvokable : Bool
  properties : List String

namespace Header

def declaration (w : Header) : Declaration :=
  .of w.name w.kind w.parents w.isFinal w.isInvokable w.properties

/-- The first class is declared with the second one as a parent. -/
def Extends (headers : List Header) (child parent : String) : Prop :=
  ∃ w ∈ headers, w.name.toLower = child.toLower ∧ ∃ p ∈ w.parents, p.toLower = parent.toLower

/-- The first class is the second one or leads to it through declared parents. -/
def LeadsTo (headers : List Header) (cls ancestor : String) : Prop :=
  Relation.ReflTransGen (Extends headers) cls.toLower ancestor.toLower

end Header

namespace Hierarchy

open Text (toLower_toLower)

def ofHeaders (headers : List Header) : Hierarchy :=
  ⟨headers.map Header.declaration⟩

variable {headers : List Header}

theorem mem_declarations_ofHeaders {d : Declaration} :
    d ∈ (ofHeaders headers).declarations ↔ ∃ w ∈ headers, w.declaration = d :=
  List.mem_map

theorem mem_parents_ofHeaders {cls parent : String} :
    parent ∈ (ofHeaders headers).parents cls ↔
      ∃ w ∈ headers, w.name.toLower = cls ∧ ∃ p ∈ w.parents, p.toLower = parent := by
  simp only [parents, of, List.mem_flatMap, List.mem_filter, mem_declarations_ofHeaders,
    beq_iff_eq]
  constructor
  · intro hmem
    rcases hmem with ⟨_, ⟨⟨w, hw, rfl⟩, hname⟩, hparent⟩
    exact ⟨w, hw, hname, List.mem_map.mp hparent⟩
  · intro hmem
    rcases hmem with ⟨w, hw, hname, hparent⟩
    exact ⟨w.declaration, ⟨⟨w, hw, rfl⟩, hname⟩, List.mem_map.mpr hparent⟩

theorem isDeclared_ofHeaders {cls : String} :
    (ofHeaders headers).isDeclared cls = true ↔
      ∃ w ∈ headers, w.name.toLower = cls.toLower := by
  simp [isDeclared, ofHeaders, Header.declaration, Declaration.of]

/-- What a name in lower case reaches is in lower case, and headers lead there. -/
theorem Reaches.leadsTo {cls ancestor : String}
    (hreach : (ofHeaders headers).Reaches cls ancestor) (hlower : cls.toLower = cls) :
    ancestor.toLower = ancestor ∧
      Relation.ReflTransGen (Header.Extends headers) cls ancestor := by
  induction hreach with
  | refl name => exact ⟨hlower, .refl⟩
  | @step name parent ancestor hparent _ ih =>
      rcases mem_parents_ofHeaders.mp hparent with ⟨w, hw, hname, p, hp, rfl⟩
      rcases ih (toLower_toLower p) with ⟨hancestor, hleads⟩
      have hextends : Header.Extends headers name p.toLower :=
        ⟨w, hw, hname.trans hlower.symm, p, hp, (toLower_toLower p).symm⟩
      exact ⟨hancestor, .head hextends hleads⟩

theorem reaches_of_leadsTo {cls ancestor : String}
    (hleads : Relation.ReflTransGen (Header.Extends headers) cls ancestor) :
    (ofHeaders headers).Reaches cls.toLower ancestor.toLower := by
  induction hleads using Relation.ReflTransGen.head_induction_on with
  | refl => exact .refl _
  | head hextends _ ih =>
      rcases hextends with ⟨w, hw, hname, p, hp, hparent⟩
      exact .step (mem_parents_ofHeaders.mpr ⟨w, hw, hname, p, hp, hparent⟩) ih

/-- The names that the search finds are those to which headers lead. -/
theorem mem_ancestry_ofHeaders {cls name : String} :
    name ∈ (ofHeaders headers).ancestry cls ↔
      name.toLower = name ∧ Header.LeadsTo headers cls name := by
  rw [mem_ancestry, Header.LeadsTo]
  constructor
  · intro hreach
    rcases hreach.leadsTo (toLower_toLower cls) with ⟨hlower, hleads⟩
    exact ⟨hlower, hlower.symm ▸ hleads⟩
  · intro hboth
    rcases hboth with ⟨hlower, hleads⟩
    have hreach := reaches_of_leadsTo hleads
    rwa [toLower_toLower, toLower_toLower, hlower] at hreach

theorem toLower_mem_ancestry_ofHeaders {cls name : String} :
    name.toLower ∈ (ofHeaders headers).ancestry cls ↔ Header.LeadsTo headers cls name := by
  rw [mem_ancestry_ofHeaders, Header.LeadsTo, Header.LeadsTo, toLower_toLower]
  exact and_iff_right rfl

/-!
# Answers about classes
-/

theorem hasProperty_eq_yes_iff {h : Hierarchy} {cls name : String} :
    h.hasProperty cls name = .yes ↔
      h.isDeclared cls = true ∧
        ∃ d ∈ h.declarations, d.name ∈ h.ancestry cls ∧ name ∈ d.properties := by
  rw [hasProperty, hasFeature_eq_yes_iff]
  apply and_congr_right
  intro _
  simp only [inherits, of, List.any_eq_true, List.mem_filter, beq_iff_eq,
    List.contains_iff_mem]
  constructor
  · intro hfound
    rcases hfound with ⟨_, hname, d, ⟨hd, rfl⟩, hproperty⟩
    exact ⟨d, hd, hname, hproperty⟩
  · intro hfound
    rcases hfound with ⟨d, hd, hname, hproperty⟩
    exact ⟨d.name, hname, d, ⟨hd, rfl⟩, hproperty⟩

/-- The answers about classes are those of the headers, whether or not these form cycles,
repeat a name or leave a parent undeclared.  The search lists each name to which headers lead
once; a subclass is a class that leads to another name; and a declared class certainly has the
properties that are declared for the classes to which it leads. -/
theorem answers_of_headers (headers : List Header) :
    (∀ cls, (((ofHeaders headers).ancestry cls).map String.toLower).Nodup ∧
      ∀ name, (∃ listed ∈ (ofHeaders headers).ancestry cls, listed.toLower = name.toLower) ↔
        Header.LeadsTo headers cls name) ∧
    (∀ child parent, (ofHeaders headers).isSubclassOf child parent = true ↔
      child.toLower ≠ parent.toLower ∧ Header.LeadsTo headers child parent) ∧
    ∀ cls name, (ofHeaders headers).hasProperty cls name = .yes ↔
      (∃ w ∈ headers, w.name.toLower = cls.toLower) ∧
        ∃ w ∈ headers, Header.LeadsTo headers cls w.name ∧ name ∈ w.properties := by
  have hlower : ∀ cls, ∀ listed ∈ (ofHeaders headers).ancestry cls, listed.toLower = listed :=
    fun cls listed hmem => (mem_ancestry_ofHeaders.mp hmem).1
  refine ⟨fun cls => ⟨?nodup, fun name => ?listed⟩, fun child parent => ?subclass,
    fun cls name => ?property⟩
  case nodup =>
    rw [List.map_congr_left (hlower cls), List.map_id']
    exact nodup_ancestry cls
  case listed =>
    rw [← toLower_mem_ancestry_ofHeaders]
    constructor
    · intro hfound
      rcases hfound with ⟨listed, hmem, heq⟩
      rwa [← heq, hlower cls listed hmem]
    · exact fun hmem => ⟨_, hmem, toLower_toLower name⟩
  case subclass =>
    rw [← toLower_mem_ancestry_ofHeaders, isSubclassOf_iff, Descends, mem_ancestry]
  case property =>
    rw [hasProperty_eq_yes_iff, isDeclared_ofHeaders]
    apply and_congr_right
    intro _
    simp only [mem_declarations_ofHeaders]
    constructor
    · intro hfound
      rcases hfound with ⟨_, ⟨w, hw, rfl⟩, hmem, hproperty⟩
      exact ⟨w, hw, toLower_mem_ancestry_ofHeaders.mp hmem, hproperty⟩
    · intro hfound
      rcases hfound with ⟨w, hw, hleads, hproperty⟩
      exact ⟨_, ⟨w, hw, rfl⟩, toLower_mem_ancestry_ofHeaders.mpr hleads, hproperty⟩

/-!
# Capabilities of subclasses
-/

/-- A subclass certainly has the properties that a class certainly has.  It can be called if
the class can be called, unless the class is that of function values and no class to which the
subclass leads is declared to be callable. -/
theorem capabilities_of_isSubclassOf {h : Hierarchy} {child parent : String}
    (hsubclass : h.isSubclassOf child parent = true) :
    (h.isInvokable parent = .yes ->
      (h.isInvokable child = .yes ↔
        isClosure parent = false ∨ h.inherits child (·.isInvokable) = true)) ∧
    ∀ name, h.hasProperty parent name = .yes -> h.hasProperty child name = .yes := by
  rcases isSubclassOf_iff.mp hsubclass with ⟨hne, hdescends⟩
  refine ⟨fun hparent => ?_, fun name => hdescends.hasFeature⟩
  cases hclosure : isClosure parent with
  | false =>
      rw [isInvokable, hclosure, if_neg (by decide)] at hparent
      have hchild := hdescends.hasFeature hparent
      simp [isInvokable, hchild]
  | true =>
      have hname : parent.toLower = "closure" := by simpa [isClosure] using hclosure
      have hchild : isClosure child = false := by simpa [isClosure, hname] using hne
      rw [isInvokable, hchild, if_neg (by decide), hasFeature_eq_yes_iff]
      simp [hdescends.isDeclared_of_ne hne]

/-- What is declared of an interface holds of the class that implements it. -/
theorem capabilities_of_implementation :
    let h : Hierarchy := ⟨[Declaration.of "task" .interface [] false true ["id"],
      Declaration.of "job" .plainClass ["task"] true false []]⟩
    h.isSubclassOf "job" "task" = true ∧ h.isInvokable "job" = .yes ∧
      h.hasProperty "job" "id" = .yes := by
  intro h
  have hparent : "task".toLower ∈ h.parents "job".toLower := by decide +kernel
  have hsubclass : h.isSubclassOf "job" "task" = true :=
    isSubclassOf_iff.mpr ⟨by decide +kernel, .step hparent (.refl _)⟩
  have hinvokable : h.isInvokable "task" = .yes := by
    rw [isInvokable, if_neg (by decide +kernel)]
    exact hasFeature_of_declared (by decide +kernel)
  have hproperty : h.hasProperty "task" "id" = .yes :=
    hasFeature_of_declared (by decide +kernel)
  have hboth := capabilities_of_isSubclassOf hsubclass
  exact ⟨hsubclass, (hboth.1 hinvokable).mpr (Or.inl (by decide +kernel)), hboth.2 "id" hproperty⟩

/-- Function values can be called, and a class declared below theirs cannot. -/
theorem invokable_not_inherited :
    let h : Hierarchy := ⟨[Declaration.of "leaf" .plainClass ["closure"] true false []]⟩
    h.isSubclassOf "leaf" "closure" = true ∧ h.isInvokable "closure" = .yes ∧
      h.isInvokable "leaf" = .no := by
  decide +kernel

end Hierarchy
end GradualTypes
