import GradualTypes.Proofs.Constructed
import GradualTypes.Proofs.DepthLimit
import GradualTypes.Proofs.FaithfulTexts

/-!
# Texts as keys of caches

Different types that constructors have made have different texts for caches, apart from a few
pairs: types that differ only below the depth at which texts are cut off, in the payload of
"not a number" or in the flavor of a union inside an intersection, and classes that are called
like the text of another type.  Each of these exceptions occurs.
-/

namespace GradualTypes

open GradualTypes.Ty (Everywhere)
open Render

/-!
# Different texts
-/

theorem Ty.Formed.isWritable {replies : Ty -> Ty -> Tristate -> Prop} {t : Ty}
    (hformed : Formed replies t) (hcomplete : IsComplete t)
    (hnames : Everywhere (fun u => hasPlainNames typeWords u = true) t) :
    Everywhere IsWritable t := by
  have hall := (Everywhere.and hformed hcomplete).and hnames
  refine hall.imp fun u hu => ?_
  rcases hu with ⟨⟨hform, hplaceholder⟩, hnames⟩
  cases u with
  | placeholder => exact hplaceholder rfl
  | unknown n => exact hform
  | union f members =>
      exact ⟨hform.1.two, hform.1.nodup, fun m hm => (hform.1.isMember m hm).2.2.2⟩
  | inter members => exact ⟨hform.two, fun m hm => (hform.isMember m hm).2.2.2⟩
  | _ => exact hnames

namespace Render

/-- Whether a type is "not a number" or an intersection with a union in it. -/
def isAmbiguous : Ty -> Bool
  | .literal (.float x) => x.isNaN
  | .inter members => members.any fun m => m.unionMembers?.isSome
  | _ => false

theorem TellsApart.of_not_isAmbiguous {s : Ty} (hs : isAmbiguous s = false) (t : Ty) :
    TellsApart s t := by
  cases s with
  | literal v =>
      cases v with
      | float x =>
          cases t with
          | literal w =>
              cases w with
              | float y => exact fun hx => absurd (hs.symm.trans hx) (by decide)
              | _ => trivial
          | _ => trivial
      | _ => trivial
  | inter as =>
      cases t with
      | inter bs =>
          intro f g members hf _
          exact absurd (List.any_eq_false.mp hs _ hf) (by simp [Ty.unionMembers?])
      | _ => trivial
  | _ => trivial

theorem TellsApart.symm {s t : Ty} (h : TellsApart s t) : TellsApart t s := by
  cases s with
  | literal v =>
      cases t with
      | literal w =>
          cases v <;> cases w <;> first | trivial | exact fun hw hv => (h hv hw).symm
      | _ => trivial
  | inter as =>
      cases t with
      | inter bs => exact fun f g members hf hg => (h g f members hg hf).symm
      | literal w => cases w <;> trivial
      | _ => trivial
  | _ =>
      cases t with
      | literal w => cases w <;> trivial
      | _ => trivial

theorem Comparable.symm {a b : Ty} (h : Comparable a b) : Comparable b a :=
  ⟨h.right, h.left, h.told.swap.imp fun _ ht => ht.imp fun _ hs => hs.symm⟩

/-- Types of which one is written in full have the same tokens only if they are the same. -/
theorem Comparable.eq_of_render {a b : Ty} (h : Comparable a b)
    (hwhole : isWhole depth a = true ∨ isWhole depth b = true)
    (htext : a.render .cache = b.render .cache) : a = b := by
  have hchars : chars (spell depth a) = chars (spell depth b) := by
    rw [← toList_upTo, ← toList_upTo]
    exact congrArg String.toList htext
  have htokens := chars_inj (Everywhere.spelled h.left _) (Everywhere.spelled h.right _) hchars
  rcases hwhole with hwhole | hwhole
  · exact faithful depth h hwhole htokens
  · exact (faithful depth h.symm hwhole htokens.symm).symm

end Render

namespace Constructed

variable {h h' : Hierarchy} {options options' : Options} {a b : Ty}

/-- Different types have different texts for caches, if one of the two is written in full, the
names in them are identifiers and no class is called like a word of another type, and they do
not differ in no more than the payload of "not a number" or the flavor of a union inside an
intersection. -/
theorem render_cache_ne (ha : Constructed h options a) (hb : Constructed h' options' b)
    (hnames : ∀ t ∈ [a, b], Everywhere (fun u => hasPlainNames typeWords u = true) t)
    (htold : Everywhere (fun s => Everywhere (TellsApart s) b) a)
    (hwhole : isWhole depth a = true ∨ isWhole depth b = true) (hne : a ≠ b) :
    a.render .cache ≠ b.render .cache := by
  intro htext
  have hleft := ha.formed.isWritable ha.complete (hnames a List.mem_cons_self)
  have hright := hb.formed.isWritable hb.complete
    (hnames b (List.mem_cons_of_mem _ List.mem_cons_self))
  exact hne (Comparable.eq_of_render ⟨hleft, hright, htold⟩ hwhole htext)

/-- Calls that can be followed within the limit make a run. -/
theorem exists_run {calls : List Call} {ts : List Ty} (hcalls : ∀ c ∈ calls, c ≠ .placeholder)
    (hresults : Call.results? h options [] calls = some ts) :
    ∃ σ, Run h options (fun _ c => c ≠ .placeholder) σ ts := by
  have hnew : Run h options (fun _ c => c ≠ .placeholder) (.new h options) [] := .new
  rcases hnew.exists_calls rfl hresults fun c hc _ _ => hcalls c hc with ⟨σ, hrun, -⟩
  exact ⟨σ, hrun⟩

/-- A benevolent union and the plain one with the same members. -/
theorem render_cache_ne_benevolent :
    (Ty.union .benevolent [.object "leaf" [], .int]).render .cache ≠
      (Ty.union .plain [.object "leaf" [], .int]).render .cache := by
  let gradual := Ty.union .benevolent [.object "leaf" [], .int]
  let strict := Ty.union .plain [.object "leaf" [], .int]
  have hgiven : Call.results? .empty .default [] [.object "leaf" [], .keyword .int,
      .union [.int, .object "leaf" []], .benevolent [.int, .object "leaf" []]] =
        some [gradual, strict, .int, .object "leaf" []] := by
    decide +kernel
  rcases exists_run (by simp) hgiven with ⟨σ, hrun⟩
  have hconstructed : ∀ t ∈ [gradual, strict], Constructed .empty .default t := by
    simp only [List.forall_mem_cons]
    exact ⟨⟨σ, _, hrun, by simp⟩, ⟨σ, _, hrun, by simp⟩, by simp⟩
  have hclear : Everywhere (fun s => isAmbiguous s = false) gradual :=
    (Ty.everywhere_of_everyTo (p := fun s => !isAmbiguous s) (n := 2) (by decide)).imp
      fun s hs => by simpa using hs
  have hnames : ∀ t ∈ [gradual, strict],
      Everywhere (fun u => hasPlainNames typeWords u = true) t := by
    simp only [List.forall_mem_cons]
    exact ⟨Ty.everywhere_of_everyTo (n := 2) (by decide +kernel),
      Ty.everywhere_of_everyTo (n := 2) (by decide +kernel), by simp⟩
  have htold : Everywhere (fun s => Everywhere (TellsApart s) strict) gradual :=
    hclear.imp fun s hs => (hnames strict (by simp)).imp fun t _ => .of_not_isAmbiguous hs t
  exact render_cache_ne (hconstructed gradual (by simp)) (hconstructed strict (by simp)) hnames
    htold (.inl (by decide)) (by decide)

end Constructed

/-!
# Texts that several types have
-/

/-- Two different types that one run has made.  Their names are identifiers and no type
keywords, but their texts for caches are the same. -/
structure WrittenAlike (options : Options) (a b : Ty) : Prop where
  made : ∃ σ ts, Run .empty options (fun _ c => c ≠ .placeholder) σ ts ∧ a ∈ ts ∧ b ∈ ts
  names : ∀ t ∈ [a, b], Everywhere (fun u => hasPlainNames typeKeywords u = true) t
  ne : a ≠ b
  text : a.render .cache = b.render .cache

namespace WrittenAlike

theorem of_calls {options : Options} {calls : List Call} {given : List Ty} {a b : Ty}
    (hcalls : ∀ c ∈ calls, c ≠ .placeholder)
    (hgiven : Call.results? .empty options [] calls = some given)
    (hmem : ∀ t ∈ [a, b], t ∈ given ∧ t.everyTo (hasPlainNames typeKeywords) 3 = true)
    (hne : a ≠ b) (htext : a.render .cache = b.render .cache) : WrittenAlike options a b := by
  rcases Constructed.exists_run hcalls hgiven with ⟨σ, hrun⟩
  exact ⟨⟨σ, given, hrun, (hmem a (by simp)).1, (hmem b (by simp)).1⟩,
    fun t ht => Ty.everywhere_of_everyTo (hmem t ht).2, hne, htext⟩

/-- With so many levels, nothing is written of what is inside so many arrays. -/
theorem upTo_nest (levels : Nat) (s t : Ty) :
    upTo .cache levels (Ty.nest levels s) = upTo .cache levels (Ty.nest levels t) := by
  induction levels with
  | zero => rfl
  | succ levels ih =>
      have hint : Ty.int ≠ .mixed := by decide
      simp only [Ty.nest, upTo, array, ih, if_neg hint]

theorem exists_run_nest (options : Options) (levels : Nat) :
    ∃ σ ts, Run .empty options (fun _ c => c ≠ .placeholder) σ ts ∧ .int ∈ ts ∧
      Ty.nest levels .int ∈ ts ∧ Ty.nest levels .string ∈ ts := by
  induction levels with
  | zero =>
      have hresults : Call.results? .empty options [] [.keyword .int, .keyword .string] =
          some [.string, .int] := rfl
      rcases Constructed.exists_run (by simp) hresults with ⟨σ, hrun⟩
      exact ⟨σ, _, hrun, by simp, by simp [Ty.nest], by simp [Ty.nest]⟩
  | succ levels ih =>
      rcases ih with ⟨σ, ts, hrun, hint, hleft, hright⟩
      have hmade : ∀ k, (Call.array .int (Ty.nest levels (.keyword k))).inquiry options =
          Inquiry.built (.array .int (Ty.nest levels (.keyword k))) := fun k =>
        if_neg (by cases levels <;> simp [Ty.nest])
      have hfirst := hrun.call (.array .int (Ty.nest levels .int))
        (by simp [Call.arguments, hint, hleft]) (by simp)
      have hsecond := hfirst.call (.array .int (Ty.nest levels .string))
        (by simp [Call.arguments, hint, hright]) (by simp)
      rw [hmade, hmade] at hsecond
      exact ⟨_, _, hsecond, by simp [hint], List.mem_cons_of_mem _ List.mem_cons_self,
        List.mem_cons_self⟩

/-- Arrays inside one another, down to where the text is cut off. -/
theorem nest (options : Options) :
    WrittenAlike options (Ty.nest depth .int) (Ty.nest depth .string) := by
  rcases exists_run_nest options depth with ⟨σ, ts, hrun, -, hint, hstring⟩
  have hnames : ∀ k, Everywhere (fun u => hasPlainNames typeKeywords u = true)
      (Ty.nest depth (.keyword k)) := fun k =>
    Ty.everywhere_nest (P := fun u => hasPlainNames typeKeywords u = true) (.leaf rfl rfl) rfl
      (fun _ => rfl) depth
  refine ⟨⟨σ, ts, hrun, hint, hstring⟩, ?_, fun heq => ?_, upTo_nest depth _ _⟩
  · simp only [List.forall_mem_cons]
    exact ⟨hnames _, hnames _, by simp⟩
  · cases Ty.nest_inj heq

/-- If intersections are not distributed, a union inside one keeps its flavor. -/
theorem flavors :
    WrittenAlike { Options.default with maxIntersectionDistribution := 1 }
      (.inter [.callable, .union .plain [.object "a" [], .object "b" []]])
      (.inter [.callable, .union .benevolent [.object "a" [], .object "b" []]]) := by
  let options : Options := { Options.default with maxIntersectionDistribution := 1 }
  let a := Ty.object "a" []
  let b := Ty.object "b" []
  let parts : List Ty :=
    [.union .benevolent [a, b], .union .plain [a, b], b, a, .callable]
  have hparts : Call.results? .empty options [] [.keyword .callable, .object "a" [],
      .object "b" [], .union [a, b], .benevolent [a, b]] = some parts := by
    decide +kernel
  have hof : ∀ f, (Call.inter [.callable, .union f [a, b]]).inquiry options =
      Intersection.reduce [.callable, .union f [a, b]] := fun f =>
    Intersection.of_compared (by simp) (by simp) (by cases f <;> decide +kernel)
      (by cases f <;> decide +kernel)
  have hinter : Call.results? .empty options parts
      [.inter [.callable, .union .plain [a, b]], .inter [.callable, .union .benevolent [a, b]]] =
        some (.inter [.callable, .union .benevolent [a, b]] ::
          .inter [.callable, .union .plain [a, b]] :: parts) := by
    simp only [Call.results?, hof, Intersection.reduce_pair]
    decide +kernel
  exact .of_calls (by simp) (Call.results?_append hparts hinter) (by decide +kernel) (by decide)
    (by decide +kernel)

end WrittenAlike

/-- Types that differ only where they are cut off, in the payload of "not a number" or in the
flavor of a union inside an intersection, and classes that are called like the text of another
type. -/
theorem writtenAlike_cases :
    let nan (payload : UInt64) : Ty := .literal (.float ⟨0x7ff8000000000000 + payload⟩)
    let infinity : Ty := .literal (.float ⟨0x7ff0000000000000⟩)
    let either (f : Flavor) : Ty := .union f [.object "a" [], .object "b" []]
    WrittenAlike .default (Ty.nest depth .int) (Ty.nest depth .string) ∧
      WrittenAlike .default (nan 0) (nan 1) ∧
      WrittenAlike { Options.default with maxIntersectionDistribution := 1 }
        (.inter [.callable, either .plain]) (.inter [.callable, either .benevolent]) ∧
      WrittenAlike .default (.object "NaN" []) (nan 0) ∧
      WrittenAlike .default (.object "inf" []) infinity ∧
      WrittenAlike .default (.object "nonEmpty" []) (.accessory .nonEmptyArray) := by
  intro nan infinity either
  have hfloats : Call.results? .empty .default [] [.float ⟨0x7ff8000000000000⟩,
      .float ⟨0x7ff8000000000001⟩, .float ⟨0x7ff0000000000000⟩, .object "NaN" [],
      .object "inf" []] =
        some [.object "inf" [], .object "NaN" [], infinity, nan 1, nan 0] := by
    decide +kernel
  have harrays : Call.results? .empty .default [] [.object "nonEmpty" [],
      .accessory .nonEmptyArray] =
        some [.accessory .nonEmptyArray, .object "nonEmpty" []] := by
    decide +kernel
  refine ⟨.nest _, ?_, .flavors, ?_, ?_, ?_⟩
  · exact .of_calls (by simp) hfloats (by decide +kernel) (by decide) (by decide +kernel)
  · exact .of_calls (by simp) hfloats (by decide +kernel) (by decide) (by decide +kernel)
  · exact .of_calls (by simp) hfloats (by decide +kernel) (by decide) (by decide +kernel)
  · exact .of_calls (by simp) harrays (by decide +kernel) (by decide) (by decide +kernel)

end GradualTypes
