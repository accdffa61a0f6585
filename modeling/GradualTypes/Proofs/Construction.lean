import GradualTypes.Proofs.IntersectionForm
import GradualTypes.Proofs.Kinship
import GradualTypes.Proofs.Memory
import GradualTypes.Proofs.Transitivity

/-!
# Types made by the constructors

A run is a sequence of calls of the constructors and of questions, from a new
session on.  The arguments of a call are types that earlier calls have returned.

All types that a run returns or stores are formed.  If no question met the depth
limit, this holds for the answers of the relation without limits, and otherwise
for those answers `yes` that are right.
-/

namespace GradualTypes

open Inquiry
open GradualTypes.Ty (Formed)

/-- A call of one of the constructors of types. -/
inductive Call where
  | error
  | placeholder
  | keyword (k : Keyword)
  | int (n : Int)
  | float (x : Double)
  | text (s : String)
  | bool (b : Bool)
  | range (r : IntRange)
  | object (cls : String) (arguments : List Ty)
  | this (cls : String)
  | array (key value : Ty)
  | shape (entries : List (Entry Ty))
  | accessory (a : Accessory)
  | hasProperty (name : String)
  | union (members : List Ty)
  | benevolent (members : List Ty)
  | markBenevolent (t : Ty)
  | inter (members : List Ty)

namespace Call

def arguments : Call -> List Ty
  | object _ arguments => arguments
  | array key value => [key, value]
  | shape entries => Ty.entryValues entries
  | union members => members
  | benevolent members => members
  | markBenevolent t => [t]
  | inter members => members
  | _ => []

def inquiry (options : Options) : Call -> Inquiry Ty
  | error => pure .error
  | placeholder => pure .placeholder
  | keyword k => pure (.keyword k)
  | int n => Build.int n
  | float x => Build.float x
  | text s => Build.text s
  | bool b => Build.bool b
  | range r => Build.range r
  | object cls arguments => Build.object cls arguments
  | this cls => Build.this cls
  | array key value => Build.array key value
  | shape entries => Build.shape entries
  | accessory a => Build.accessory a
  | hasProperty name => Build.hasProperty name
  | union members => Union.of options members
  | benevolent members => Union.benevolentOf options members
  | markBenevolent t => Build.markBenevolent t
  | inter members => Intersection.of options members

variable {replies : Ty -> Ty -> Tristate -> Prop}

theorem meets_built_leaf {t : Ty} (hformed : t.IsFormed replies) (hleaf : t.children = []) :
    (built t).Meets (.building replies) (Formed replies) :=
  have ht : Formed replies t := .leaf hformed hleaf
  ⟨ht, ht⟩

/-- Every constructor makes formed types of formed types. -/
theorem meets_inquiry {options : Options} {c : Call}
    (harguments : ∀ t ∈ c.arguments, Formed replies t) :
    (c.inquiry options).Meets (.building replies) (Formed replies) := by
  cases c with
  | error => exact .leaf trivial rfl
  | placeholder => exact .leaf trivial rfl
  | keyword k => exact Ty.formed_keyword k
  | int n => exact meets_built_leaf trivial rfl
  | float x => exact meets_built_leaf trivial rfl
  | text s => exact meets_built_leaf trivial rfl
  | bool b => exact meets_built_leaf trivial rfl
  | range r =>
      cases hr : r.isEmpty with
      | true =>
          simp only [inquiry, Build.range, hr, if_true]
          exact Ty.formed_keyword _
      | false =>
          apply (Build.meets_range hr).imp
          intro t hcase
          rcases hcase with rfl | ⟨n, rfl⟩ | ⟨rfl, hbounds⟩
          · exact Ty.formed_keyword _
          · exact Ty.formed_literal _
          · exact Ty.formed_range hr hbounds
  | object cls arguments =>
      have ht : Formed replies (.object cls arguments) := .intro trivial harguments
      exact ⟨ht, ht⟩
  | this cls => exact meets_built_leaf trivial rfl
  | array key value =>
      simp only [inquiry, Build.array]
      split
      · exact .leaf trivial rfl
      · rename_i herror
        have ht : Formed replies (.array key value) :=
          .intro (by simpa [Ty.IsFormed] using herror) harguments
        exact ⟨ht, ht⟩
  | shape entries =>
      simp only [inquiry, Build.shape]
      split
      · exact .leaf trivial rfl
      · rename_i herror
        have ht : Formed replies (.shape (Shape.ofList entries)) := by
          apply Ty.formed_shape (Shape.nodup_keys_ofList entries)
          intro e he
          have he' := Shape.mem_of_mem_ofList he
          refine ⟨harguments _ (List.mem_map_of_mem he'), fun heq => herror ?_⟩
          exact List.any_eq_true.mpr ⟨e, he', by simpa using heq⟩
        exact ⟨ht, ht⟩
  | accessory a => exact meets_built_leaf trivial rfl
  | hasProperty name => exact meets_built_leaf trivial rfl
  | union members => exact Union.meets_of harguments
  | benevolent members => exact Union.meets_benevolentOf harguments
  | markBenevolent t => exact Union.meets_markBenevolent (harguments t List.mem_cons_self)
  | inter members => exact Intersection.meets_of harguments

end Call

/-!
# Runs
-/

/-- A session after a sequence of allowed calls and of questions, and the types
that the calls have returned. -/
inductive Run (h : Hierarchy) (options : Options) (allowed : Session -> Call -> Prop) :
    Session -> List Ty -> Prop where
  | new : Run h options allowed (Session.new h options) []
  | call {σ : Session} {ts : List Ty} (c : Call) :
      Run h options allowed σ ts -> (∀ t ∈ c.arguments, t ∈ ts) -> allowed σ c ->
      Run h options allowed (σ.perform (c.inquiry options)).2
        ((σ.perform (c.inquiry options)).1 :: ts)
  | ask {σ : Session} {ts : List Ty} (s t : Ty) :
      Run h options allowed σ ts -> Run h options allowed (σ.perform (isSubtype s t)).2 ts

def Built (h : Hierarchy) (options : Options) (t : Ty) : Prop :=
  ∃ σ ts, Run h options (fun _ _ => True) σ ts ∧ t ∈ ts

/-- A call none of whose questions meets the depth limit. -/
def Session.CallWithin (options : Options) (σ : Session) (c : Call) : Prop :=
  σ.Within (answer relationDepth) (c.inquiry options)

namespace Run

variable {h : Hierarchy} {options : Options} {allowed : Session -> Call -> Prop}
  {σ : Session} {ts : List Ty}

theorem reachable (hrun : Run h options allowed σ ts) : Session.Reachable h options σ := by
  induction hrun with
  | new => exact .new
  | call c _ _ _ ih => exact .perform _ ih
  | ask s t _ ih => exact .perform _ ih

/-- The answers that are right if they are `yes`. -/
def soundly (h : Hierarchy) (s t : Ty) (r : Tristate) : Prop :=
  r = .yes -> Subtype.Contained h s t

/-- All types that a run returns are formed, even if the depth limit was met. -/
theorem formed (hrun : Run h options allowed σ ts) : ∀ t ∈ ts, Formed (soundly h) t := by
  induction hrun with
  | new => simp
  | @call σ ts c hrun harguments _ ih =>
      rcases hrun.reachable.kept with ⟨htruthful, rfl, -⟩
      have hmeets : (c.inquiry options).Meets (.building (soundly σ.hierarchy))
          (Formed (soundly σ.hierarchy)) := Call.meets_inquiry fun t ht => ih t (harguments t ht)
      have hfollows := Session.run_follows (P := fun _ => True)
        (Session.isReliable_answer relationDepth) htruthful hmeets (fun _ _ _ hr => hr)
        (fun _ _ => trivial) (fun _ => trivial)
      exact List.forall_mem_cons.mpr ⟨hfollows.2, ih⟩
  | ask s t _ ih => exact ih

/-- A question brings in no types but literals. -/
theorem stored_ask {P : Ty -> Prop} (hrun : Run h options allowed σ ts)
    (hstored : ∀ u ∈ σ.types.items, P u) (hliteral : ∀ v, P (.literal v)) (s t : Ty) :
    ∀ u ∈ (σ.perform (isSubtype s t)).2.types.items, P u := by
  rcases hrun.reachable.kept with ⟨htruthful, -, -⟩
  intro u hu
  have hfollows := (Session.isReliable_answer relationDepth s t { σ with limited := false }
    htruthful).follows
  rcases hfollows.types u hu with hu' | hu'
  · exact hstored u hu'
  · cases u <;> first | exact hliteral _ | cases hu'

/-- All types that a run stores are formed, even if the depth limit was met. -/
theorem formed_stored (hrun : Run h options allowed σ ts) :
    ∀ t ∈ σ.types.items, Formed (soundly h) t := by
  induction hrun with
  | new => simp [Session.new, Numbering.empty]
  | @call σ ts c hrun harguments _ ih =>
      rcases hrun.reachable.kept with ⟨htruthful, rfl, -⟩
      have hmeets : (c.inquiry options).Meets (.building (soundly σ.hierarchy))
          (Formed (soundly σ.hierarchy)) :=
        Call.meets_inquiry fun t ht => hrun.formed t (harguments t ht)
      have hfollows := Session.run_follows (P := Formed (soundly σ.hierarchy))
        (Session.isReliable_answer relationDepth) htruthful hmeets (fun _ _ _ hr => hr)
        (fun _ ht => ht) Ty.formed_literal
      exact fun t ht => (hfollows.1.types t ht).elim (ih t) id
  | ask s t hrun ih => exact hrun.stored_ask ih Ty.formed_literal s t

/-- If no call met the depth limit, all types that a run returns or stores are
formed for the relation without limits. -/
theorem formed_of_within (hrun : Run h options (Session.CallWithin options) σ ts) :
    (∀ t ∈ ts, Formed (Session.exactly h) t) ∧
      ∀ t ∈ σ.types.items, Formed (Session.exactly h) t := by
  induction hrun with
  | new => exact ⟨by simp, by simp [Session.new, Numbering.empty]⟩
  | @call σ ts c hrun harguments hwithin ih =>
      rcases hrun.reachable.kept with ⟨htruthful, rfl, -⟩
      rcases ih with ⟨hreturned, hstored⟩
      have hmeets : (c.inquiry options).Meets (.building (Session.exactly σ.hierarchy))
          (Formed (Session.exactly σ.hierarchy)) :=
        Call.meets_inquiry fun t ht => hreturned t (harguments t ht)
      have hfollows := Session.run_follows_of_within (P := Formed (Session.exactly σ.hierarchy))
        (Session.isReliable_answer relationDepth) htruthful hwithin hmeets (fun _ _ _ hr => hr)
        (fun _ ht => ht) Ty.formed_literal
      constructor
      · exact List.forall_mem_cons.mpr ⟨hfollows.2, hreturned⟩
      · intro t ht
        exact (hfollows.1.types t ht).elim (hstored t) id
  | ask s t hrun ih => exact ⟨ih.1, hrun.stored_ask ih.2 Ty.formed_literal s t⟩

end Run

theorem Built.formed {h : Hierarchy} {options : Options} {t : Ty} (ht : Built h options t) :
    Formed (Run.soundly h) t := by
  rcases ht with ⟨σ, ts, hrun, hmem⟩
  exact hrun.formed t hmem

/-!
# Transitivity
-/

namespace Session

/-- Certain containment is transitive in every session: if two answers are `yes`,
the third one is, unless it meets the depth limit. -/
theorem isSubtype_trans {h : Hierarchy} {options options₁ options₂ options₃ : Options}
    {a b c : Ty} {σ₁ σ₂ σ₃ : Session} (hfinal : h.LeavesClosureFinal)
    (ha : Built h options a) (hσ₁ : Reachable h options₁ σ₁)
    (hσ₂ : Reachable h options₂ σ₂) (hσ₃ : Reachable h options₃ σ₃)
    (hab : (σ₁.perform (isSubtype a b)).1 = .yes)
    (hbc : (σ₂.perform (isSubtype b c)).1 = .yes)
    (hlimit : (σ₃.perform (isSubtype a c)).2.limited = false) :
    (σ₃.perform (isSubtype a c)).1 = .yes := by
  rcases ha with ⟨σ, ts, hrun, hmem⟩
  have hparts := (hrun.formed a hmem).hasDistinctKeys
  rw [hσ₃.isSubtype_eq hlimit]
  exact (hσ₁.contained hab).trans hfinal hparts (hσ₂.contained hbc)

/-- A shape of literals, a shape of built-in types and an array. -/
theorem isSubtype_trans_array :
    let σ := new .empty .default
    let source := Ty.shape [⟨.text "a", .literal (.int 1), false⟩]
    (σ.perform (isSubtype source (.array .string .int))).1 = .yes := by
  have hanswer : ∀ s t, Subtype.weight s t ≤ relationDepth ->
      ((new .empty .default).perform (isSubtype s t)).1 = Subtype.exact .empty s t :=
    fun s t hweight => Reachable.new.isSubtype_eq (isSubtype_not_limited _ hweight)
  have hint : Run .empty .default (fun _ _ => True) _ _ :=
    Run.new.call (.int 1) (by simp [Call.arguments]) trivial
  have hshape := hint.call (.shape [⟨.text "a", .literal (.int 1), false⟩]) (fun t ht => ht) trivial
  have hnew : Reachable .empty .default (new .empty .default) := .new
  refine isSubtype_trans (b := .shape [⟨.text "a", .int, false⟩]) Hierarchy.isLawful_empty.closure
    ⟨_, _, hshape, List.mem_cons_self⟩ hnew hnew hnew ?_ ?_ (isSubtype_not_limited _ (by decide))
  · rw [hanswer _ _ (by decide)]
    decide
  · rw [hanswer _ _ (by decide)]
    decide

end Session

/-!
# Stored unions
-/

namespace Union

/-- The form of the members of every union: besides being tidy, none is found by
any session to be contained in another one. -/
structure IsNormal (h : Hierarchy) (members : List Ty) : Prop extends IsTidy members where
  irredundant : ∀ x ∈ members, ∀ y ∈ members, x ≠ y -> ∀ options σ,
    Session.Reachable h options σ -> (σ.perform (isSubtype x y)).1 ≠ .yes

/-- No member is certainly contained in another one. -/
theorem IsIrredundant.eq_of_contained {h : Hierarchy} {members : List Ty}
    (hmembers : IsIrredundant (Session.exactly h) members) {x y : Ty} (hx : x ∈ members)
    (hy : y ∈ members) (hxy : Subtype.Contained h x y) : x = y := by
  by_contra hne
  by_cases hliterals : (x.isLiteral && y.isLiteral) = true
  · -- literals are not compared, but no rule puts one into another one
    cases x <;> simp [Ty.isLiteral] at hliterals
    cases y <;> simp at hliterals
    rcases Subtype.contained_iff.mp hxy with heq | hcertain
    · exact hne heq
    · cases hcertain with
      | fits hs ht hfits => cases hfits
  · obtain ⟨r, rfl, hr⟩ := hmembers x hx y hy hne (by simpa using hliterals)
    exact hr hxy

theorem isNormal_of_formed {h : Hierarchy} {flavor : Flavor} {members : List Ty}
    (hformed : Formed (Session.exactly h) (.union flavor members)) : IsNormal h members := by
  rcases hformed.here with ⟨htidy, hirredundant⟩
  constructor
  · exact htidy
  · intro x hx y hy hne options σ hσ hyes
    exact hne (hirredundant.eq_of_contained hx hy (hσ.contained hyes))

/-- A session makes the union of some formed types, by itself or on the way to
another type.  It does not meet the depth limit, and the result is a union with the
given members. -/
structure Makes (h : Hierarchy) (limit : Nat) (σ : Session) (height : Nat)
    (sources members : List Ty) : Prop where
  reachable : ∃ options, Session.Reachable h options σ
  two : 2 ≤ sources.length
  formed : ∀ t ∈ sources, Formed (Session.exactly h) t
  height_le : ∀ t ∈ sources, t.height ≤ height
  within : σ.Within (Session.answer relationDepth) (upTo limit height sources)
  result : (σ.perform (upTo limit height sources)).1.unionMembers? = some members

theorem Makes.hasOneShapePerKeys {h : Hierarchy} {limit height : Nat} {σ : Session}
    {sources members : List Ty} (hmakes : Makes h limit σ height sources members)
    (hfew : shapesSeen sources ≤ limit) : HasOneShapePerKeys members := by
  rcases hmakes.reachable with ⟨options, hσ⟩
  rcases hσ.kept with ⟨htruthful, rfl, -⟩
  have hmeets : (upTo limit height sources).Meets (.building (Session.exactly σ.hierarchy)) _ :=
    meets_upTo hmakes.formed hmakes.height_le
  have hresult := (Session.run_follows_of_within (P := fun _ => True)
    (Session.isReliable_answer relationDepth) htruthful hmakes.within hmeets
    (fun _ _ _ hr => hr) (fun _ _ => trivial) (fun _ => trivial)).2
  have hmembers := hmakes.result
  unfold Session.perform at hmembers
  generalize (Session.run (Session.answer relationDepth) (upTo limit height sources) σ).1 = t
    at hmembers hresult
  cases t <;> simp [Ty.unionMembers?] at hmembers
  exact hresult.1.keys ⟨hmakes.two, hfew⟩ _ _ (by rw [hmembers])

end Union

namespace Run

variable {h : Hierarchy} {options : Options} {σ : Session} {ts : List Ty}

end Run
end GradualTypes
