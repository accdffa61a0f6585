import GradualTypes.Proofs.Distributivity

/-!
# Callability of contained types

If no value of a type can be called, the same holds for what it contains.  Callability is told
from the form of a type alone, and so the answer `no` is not always passed on to the contained
types.  `Ty.HoldsNoCall` says by rules when no value of a type can be called; it is passed on, and
this module shows when `no` means the same.
-/

namespace GradualTypes

open Inquiry

/-!
# Types without names and without calls
-/

/-- Whether a type that is neither a union nor an intersection may have a text other than the
empty one among its values. -/
def Ty.mayBeName : Ty -> Bool
  | keyword .mixed => true
  | keyword .string => true
  | keyword .callable => true
  | literal (.text s) => s != ""
  | accessory .nonEmptyString => true
  | _ => false

/-- No value of a type names a function or a method. -/
inductive Ty.HoldsNoName : Ty -> Prop where
  | simple {t : Ty} (ht : t.isSimple = true) (hname : t.mayBeName = false) : HoldsNoName t
  | union {flavor : Flavor} {members : List Ty} (hall : ∀ m ∈ members, HoldsNoName m) :
      HoldsNoName (.union flavor members)
  | inter {m : Ty} {members : List Ty} (hm : m ∈ members) (hname : HoldsNoName m) :
      HoldsNoName (.inter members)

/-- No array of a shape is a pair of a target and the name of a method: a key is missing, there is
one more, or what is under the second one is no name. -/
inductive Ty.HoldsNoPair (entries : List (Entry Ty)) : Prop where
  | target (htarget : Shape.entry? entries (.int 0) = none)
  | method (hmethod : Shape.entry? entries (.int 1) = none)
  | other {e : Entry Ty} (he : e ∈ entries) (hrequired : e.optional = false)
      (hkey : e.key ≠ .int 0 ∧ e.key ≠ .int 1)
  | name {e : Entry Ty} (he : Shape.entry? entries (.int 1) = some e)
      (hname : e.value.HoldsNoName)

/-- No value of a type can be called. -/
inductive Ty.HoldsNoCall (h : Hierarchy) : Ty -> Prop where
  | simple {t : Ty} (ht : t.isSimple = true) (hshape : t.isShape = false)
      (hno : t.callability h = .no) : HoldsNoCall h t
  | shape {entries : List (Entry Ty)} (hpair : HoldsNoPair entries) : HoldsNoCall h (.shape entries)
  | union {flavor : Flavor} {members : List Ty} (hne : members ≠ [])
      (hall : ∀ m ∈ members, HoldsNoCall h m) : HoldsNoCall h (.union flavor members)
  | inter {m : Ty} {members : List Ty} (hm : m ∈ members) (hno : HoldsNoCall h m) :
      HoldsNoCall h (.inter members)

namespace Subtype

variable {h : Hierarchy} {R : Ty -> Ty -> Prop} {s t : Ty}

/-!
# What contained types lack
-/

/-- What the second type does not have, the first one does not have either. -/
structure Lacks (h : Hierarchy) (s t : Ty) : Prop where
  names : t.HoldsNoName -> s.HoldsNoName
  calls : t.HoldsNoCall h -> s.HoldsNoCall h

theorem not_mayBeName (hname : t.HoldsNoName) (ht : t.isSimple = true) : t.mayBeName = false := by
  cases hname with
  | simple _ hname => exact hname
  | union | inter => cases ht

theorem isInvokable_empty_ne_no (cls : String) : Hierarchy.empty.isInvokable cls ≠ .no := by
  unfold Hierarchy.isInvokable
  split <;> simp [Hierarchy.hasFeature, Hierarchy.isDeclared, Hierarchy.empty]

/-- The rules between types that are neither unions nor intersections. -/
theorem holdsNoName_of_fits (hfits : Fits h R s t) (hname : t.HoldsNoName) : s.HoldsNoName := by
  have ht := not_mayBeName hname hfits.isSimple.2
  refine .simple hfits.isSimple.1 ?_
  cases hfits with
  | same => exact ht
  | literal_base v => cases v <;> first | rfl | cases ht
  | text_nonEmpty => cases ht
  | _ => rfl

theorem holdsNoPair_of_fits {source target : List (Entry Ty)}
    (hkeys : ∀ s ∈ source, ∃ t, Shape.entry? target s.key = some t)
    (hmissing : ∀ t ∈ target, Shape.entry? source t.key = none -> t.optional = true)
    (hvalues : ∀ t ∈ target, ∀ s, Shape.entry? source t.key = some s ->
      (t.value.HoldsNoName -> s.value.HoldsNoName) ∧ (s.optional = true -> t.optional = true))
    (hpair : Ty.HoldsNoPair target) : Ty.HoldsNoPair source := by
  have habsent : ∀ {key}, Shape.entry? target key = none -> Shape.entry? source key = none := by
    intro key hnone
    by_contra hsome
    obtain ⟨e, he⟩ := Option.ne_none_iff_exists'.mp hsome
    obtain ⟨hmem, rfl⟩ := Shape.mem_of_entry? he
    obtain ⟨e', he'⟩ := hkeys e hmem
    cases hnone.symm.trans he'
  cases hpair with
  | target htarget => exact .target (habsent htarget)
  | method hmethod => exact .method (habsent hmethod)
  | @other e he hrequired hkey =>
      cases hs : Shape.entry? source e.key with
      | none => cases hrequired.symm.trans (hmissing e he hs)
      | some s =>
          obtain ⟨hmem, hsame⟩ := Shape.mem_of_entry? hs
          refine .other hmem ?_ (hsame ▸ hkey)
          exact Bool.eq_false_iff.mpr fun hoptional =>
            nomatch hrequired.symm.trans ((hvalues e he s hs).2 hoptional)
  | @name e he hname =>
      obtain ⟨hmem, hkey⟩ := Shape.mem_of_entry? he
      cases hs : Shape.entry? source (.int 1) with
      | none => exact .method hs
      | some s => exact .name hs ((hvalues e hmem s (hkey ▸ hs)).1 hname)

theorem holdsNoCall_of_fits (hfits : Fits .empty (Lacks .empty) s t)
    (hcall : t.HoldsNoCall .empty) : s.HoldsNoCall .empty := by
  cases hcall with
  | union | inter => cases hfits.isSimple.2
  | shape hpair =>
      cases hfits with
      | shape_shape hkeys hmissing hvalues =>
          exact .shape (holdsNoPair_of_fits hkeys hmissing
            (fun t ht s hs => (hvalues t ht s hs).imp_left Lacks.names) hpair)
  | simple _ hshape hno =>
      cases hfits with
      | same => exact .simple rfl rfl hno
      | literal_base v => cases v <;> first | exact .simple rfl rfl rfl | cases hno
      | range_int | range_range => exact .simple rfl rfl rfl
      | literal_range => exact .simple rfl rfl rfl
      | object_bare | this_bare | object_arguments | this_this =>
          exact absurd hno (isInvokable_empty_ne_no _)
      | shape_shape => cases hshape
      | _ => cases hno

theorem lacks_of_certain (hcertain : Certain .empty (Lacks .empty) s t) : Lacks .empty s t := by
  cases hcertain with
  | mixed =>
      constructor
      · exact fun hname => nomatch not_mayBeName hname rfl
      · rintro ⟨-, -, hno⟩
        cases hno
  | never => exact ⟨fun _ => .simple rfl rfl, fun _ => .simple rfl rfl rfl⟩
  | union_left _ hne hall =>
      exact ⟨fun hname => .union fun m hm => (hall m hm).names hname,
        fun hcall => .union hne fun m hm => (hall m hm).calls hcall⟩
  | union_right _ _ hm hlacks =>
      constructor
      · rintro (⟨ht, -⟩ | hall | -)
        · cases ht
        · exact hlacks.names (hall _ hm)
      · rintro (⟨ht, -, -⟩ | - | ⟨-, hall⟩ | -)
        · cases ht
        · exact hlacks.calls (hall _ hm)
  | inter_right _ _ hall =>
      constructor
      · rintro (⟨ht, -⟩ | - | ⟨hm, hname⟩)
        · cases ht
        · exact (hall _ hm).names hname
      · rintro (⟨ht, -, -⟩ | - | - | ⟨hm, hcall⟩)
        · cases ht
        · exact (hall _ hm).calls hcall
  | inter_left _ _ hm hlacks =>
      exact ⟨fun hname => .inter hm (hlacks.names hname),
        fun hcall => .inter hm (hlacks.calls hcall)⟩
  | fits _ _ hfits => exact ⟨holdsNoName_of_fits hfits, holdsNoCall_of_fits hfits⟩

/-- If no value of a type can be called, or is the name of what can be called, the same holds for
what is certainly contained in the type. -/
theorem Contained.lacks (hcontained : Contained .empty s t) : Lacks .empty s t :=
  Contained.induction (fun _ => ⟨id, id⟩) lacks_of_certain hcontained

/-!
# What the answer `no` means
-/

/-- A type itself, or a constituent of a member if it is a union or an intersection. -/
inductive IsConstituent (c : Ty) : Ty -> Prop where
  | self : IsConstituent c c
  | union {flavor : Flavor} {m : Ty} {members : List Ty} (hm : m ∈ members)
      (hc : IsConstituent c m) : IsConstituent c (.union flavor members)
  | inter {m : Ty} {members : List Ty} (hm : m ∈ members) (hc : IsConstituent c m) :
      IsConstituent c (.inter members)

/-- A shape that is taken for a pair has an entry under the second key that may name a method. -/
theorem exists_method_of_mayBePair {entries : List (Entry Ty)} (hpair : Ty.mayBePair entries = true)
    (hno : Ty.HoldsNoPair entries) :
    ∃ e ∈ entries, e.key = .int 1 ∧ e.value.HoldsNoName := by
  unfold Ty.mayBePair at hpair
  split at hpair
  · rename_i target method
    simp only [Bool.and_eq_true, beq_iff_eq] at hpair
    obtain ⟨⟨⟨htarget, hmethod⟩, -⟩, -⟩ := hpair
    refine ⟨method, by simp, hmethod, ?_⟩
    cases hno with
    | target hnone => simp [Shape.entry?, htarget] at hnone
    | method hnone => simp [Shape.entry?, htarget, hmethod] at hnone
    | other he _ hkey =>
        rcases List.mem_pair.mp he with rfl | rfl
        · exact absurd htarget hkey.1
        · exact absurd hmethod hkey.2
    | name he hname =>
        simp only [Shape.entry?, List.find?_cons, htarget, hmethod] at he
        cases he
        exact hname
  · cases hpair

/-- The answer is `no` if no value can be called, and neither is a member of an intersection
certainly callable, nor a union or an intersection without names taken for the name of a method. -/
theorem callability_of_holdsNoCall (hcall : s.HoldsNoCall h)
    (hagree : ∀ members, IsConstituent (.inter members) s ->
      (∃ m ∈ members, m.callability h = .yes) -> ∀ m ∈ members, m.callability h ≠ .no)
    (hmethod : ∀ entries, IsConstituent (.shape entries) s -> Ty.mayBePair entries = true ->
      ∀ e ∈ entries, e.key = .int 1 -> ¬e.value.HoldsNoName) : s.callability h = .no := by
  induction hcall with
  | simple _ _ hno => exact hno
  | @shape entries hpair =>
      rw [Ty.callability]
      refine if_neg fun htaken => ?_
      obtain ⟨e, he, hkey, hname⟩ := exists_method_of_mayBePair htaken hpair
      exact hmethod entries .self htaken e he hkey hname
  | @union flavor members hne hall ih =>
      rw [Ty.callability, Ty.callabilities_eq_map, Tristate.unanimous_eq_iff (by decide),
        List.forall_mem_map]
      exact ⟨by simpa using hne, fun m hm => ih m hm
        (fun ms hms => hagree ms (.union hm hms)) fun es hes => hmethod es (.union hm hes)⟩
  | @inter m members hm _ ih =>
      have hno := ih (fun ms hms => hagree ms (.inter hm hms)) fun es hes =>
        hmethod es (.inter hm hes)
      rw [Ty.callability, Ty.callabilities_eq_map, Tristate.decisive_eq_no_iff]
      refine ⟨fun hyes => ?_, hno ▸ List.mem_map_of_mem hm⟩
      exact hagree members .self (List.mem_map.mp hyes) m hm hno

/-- No value can be called if the answer is `no`, and so for each shape that is not taken for a
pair. -/
theorem holdsNoCall_of_callability (hno : t.callability h = .no)
    (hpairs : ∀ entries, IsConstituent (.shape entries) t -> Ty.mayBePair entries = false ->
      Ty.HoldsNoPair entries) : t.HoldsNoCall h := by
  induction hn : t.size using Nat.strongRecOn generalizing t with
  | ind n ih =>
    subst hn
    have hmember : ∀ m ∈ t.children, (∀ c, IsConstituent c m -> IsConstituent c t) ->
        m.callability h = .no -> m.HoldsNoCall h := fun m hm hconstituent hno =>
      ih m.size (Ty.size_lt_of_mem_children hm) hno
        (fun es hes => hpairs es (hconstituent _ hes)) rfl
    rcases t.union_or_inter_or_simple with ⟨flavor, members, rfl⟩ | ⟨members, rfl⟩ | hsimple
    · rw [Ty.callability, Ty.callabilities_eq_map, Tristate.unanimous_eq_iff (by decide),
        List.forall_mem_map] at hno
      exact .union (by simpa using hno.1) fun m hm =>
        hmember m hm (fun c hc => .union hm hc) (hno.2 m hm)
    · rw [Ty.callability, Ty.callabilities_eq_map, Tristate.decisive_eq_no_iff] at hno
      obtain ⟨m, hm, hm'⟩ := List.mem_map.mp hno.2
      exact .inter hm (hmember m hm (fun c hc => .inter hm hc) hm')
    · cases hshape : t.isShape with
      | false => exact .simple hsimple hshape hno
      | true =>
          cases t <;> try cases hshape
          rename_i entries
          refine .shape (hpairs entries .self ?_)
          simpa [Ty.callability] using hno

end Subtype

namespace Session

open GradualTypes.Subtype (IsConstituent)

variable {options : Options} {σ : Session} {s t : Ty}

/-- Two types that are constructed within the limit, of which the second one contains the first and
cannot be called, unlike the first. -/
structure RegainsCall (options : Options) (s t : Ty) : Prop where
  source : ConstructedWithin .empty options s
  target : ConstructedWithin .empty options t
  contained : ((new .empty options).perform (isSubtype s t)).1 = .yes
  no : t.callability .empty = .no
  regained : s.callability .empty ≠ .no

theorem regainsCall_of_calls {calls : List Call} {given : List Ty}
    (hcalls : ∀ c ∈ calls, c ≠ .placeholder)
    (hgiven : Call.results? .empty options [] calls = some given) (hs : s ∈ given) (ht : t ∈ given)
    (hyes : LeadsTo .empty (isSubtype s t) .yes)
    (hcall : t.callability .empty = .no ∧ s.callability .empty ≠ .no) :
    RegainsCall options s t where
  source := ConstructedWithin.of_calls hcalls hgiven s hs
  target := ConstructedWithin.of_calls hcalls hgiven t ht
  contained := hyes.perform options
  no := hcall.1
  regained := hcall.2

/-- One member that can certainly be called settles the matter for an intersection. -/
theorem regainsCall_intersection :
    RegainsCall .default (.inter [.callable, .literal (.text "")]) (.literal (.text "")) := by
  have hgiven : Call.results? .empty .default [] [.keyword .callable, .text "",
      .inter [.callable, .literal (.text "")]] =
        some [.inter [.callable, .literal (.text "")], .literal (.text ""), .callable] := by
    cbv
  exact regainsCall_of_calls (by simp) hgiven (by simp) (by simp)
    (by constructor <;> decide +kernel) (by decide)

/-- Each plain union is taken for the name of a method, also one without texts. -/
theorem regainsCall_method :
    let foo := Ty.object "Foo" []
    let method := Ty.union .plain [.int, .null]
    RegainsCall .default (.shape [⟨.int 0, foo, false⟩, ⟨.int 1, method, false⟩])
      (.shape [⟨.int 0, foo, false⟩, ⟨.int 1, method, true⟩]) := by
  intro foo method
  have hgiven : Call.results? .empty .default [] [.object "Foo" [], .keyword .int, .keyword .null,
      .union [.int, .null], .shape [⟨.int 0, foo, false⟩, ⟨.int 1, method, false⟩],
      .shape [⟨.int 0, foo, false⟩, ⟨.int 1, method, true⟩]] =
        some [.shape [⟨.int 0, foo, false⟩, ⟨.int 1, method, true⟩],
          .shape [⟨.int 0, foo, false⟩, ⟨.int 1, method, false⟩], method, .null, .int, foo] := by
    decide +kernel
  exact regainsCall_of_calls (by simp) hgiven (by simp) (by simp)
    (by constructor <;> decide +kernel) (by decide)

/-- Shapes that may hold a pair are not taken for one: the order of their entries, an optional
method, or a benevolent union of methods is in the way. -/
theorem regainsCall_pair :
    let foo := Ty.object "Foo" []
    let run := Ty.literal (.text "run")
    let methods := Ty.union .benevolent [.literal (.text "run"), .null]
    ∀ t ∈ [Ty.shape [⟨.int 1, run, false⟩, ⟨.int 0, foo, false⟩],
        .shape [⟨.int 0, foo, false⟩, ⟨.int 1, run, true⟩],
        .shape [⟨.int 0, foo, false⟩, ⟨.int 1, methods, false⟩]],
      RegainsCall .default (.shape [⟨.int 0, foo, false⟩, ⟨.int 1, run, false⟩]) t := by
  intro foo run methods
  let pair := Ty.shape [⟨.int 0, foo, false⟩, ⟨.int 1, run, false⟩]
  let swapped := Ty.shape [⟨.int 1, run, false⟩, ⟨.int 0, foo, false⟩]
  let unsure := Ty.shape [⟨.int 0, foo, false⟩, ⟨.int 1, run, true⟩]
  let several := Ty.shape [⟨.int 0, foo, false⟩, ⟨.int 1, methods, false⟩]
  have hgiven : Call.results? .empty .default [] [.object "Foo" [], .text "run", .keyword .null,
      .benevolent [run, .null], .shape [⟨.int 0, foo, false⟩, ⟨.int 1, run, false⟩],
      .shape [⟨.int 1, run, false⟩, ⟨.int 0, foo, false⟩],
      .shape [⟨.int 0, foo, false⟩, ⟨.int 1, run, true⟩],
      .shape [⟨.int 0, foo, false⟩, ⟨.int 1, methods, false⟩]] =
        some [several, unsure, swapped, pair, methods, .null, run, foo] := by
    decide +kernel
  have hall : ∀ t ∈ [swapped, unsure, several], t ∈ [several, unsure, swapped, pair, methods, .null,
      run, foo] ∧ LeadsTo .empty (isSubtype pair t) .yes ∧ t.callability .empty = .no := by
    simp only [List.forall_mem_cons, List.not_mem_nil, false_imp_iff, implies_true, and_true]
    refine ⟨⟨?_, ⟨?_, ?_⟩, ?_⟩, ⟨?_, ⟨?_, ?_⟩, ?_⟩, ⟨?_, ⟨?_, ?_⟩, ?_⟩⟩ <;> decide +kernel
  intro t ht
  obtain ⟨hmem, hyes, hno⟩ := hall t ht
  exact regainsCall_of_calls (by simp) hgiven (by simp [pair]) hmem hyes ⟨hno, by decide⟩

theorem call_regained :
    RegainsCall .default (.inter [.callable, .literal (.text "")]) (.literal (.text "")) ∧
      RegainsCall .default
        (.shape [⟨.int 0, .object "Foo" [], false⟩,
          ⟨.int 1, .union .plain [.int, .null], false⟩])
        (.shape [⟨.int 0, .object "Foo" [], false⟩,
          ⟨.int 1, .union .plain [.int, .null], true⟩]) ∧
      ∀ t ∈ [Ty.shape [⟨.int 1, .literal (.text "run"), false⟩, ⟨.int 0, .object "Foo" [], false⟩],
          .shape [⟨.int 0, .object "Foo" [], false⟩, ⟨.int 1, .literal (.text "run"), true⟩],
          .shape [⟨.int 0, .object "Foo" [], false⟩,
            ⟨.int 1, .union .benevolent [.literal (.text "run"), .null], false⟩]],
        RegainsCall .default
          (.shape [⟨.int 0, .object "Foo" [], false⟩, ⟨.int 1, .literal (.text "run"), false⟩]) t :=
  ⟨regainsCall_intersection, regainsCall_method, regainsCall_pair⟩

/-- What is contained in a type that cannot be called cannot be called either, as long as shapes of
the type are taken for pairs if they may hold one, no intersection in the contained type has a
member that can certainly be called beside one that cannot, and no shape there is taken for a pair
with a method that no text can name. -/
theorem callability_no_of_isSubtype (hσ : Reachable .empty options σ)
    (hyes : (σ.perform (isSubtype s t)).1 = .yes) (hno : t.callability .empty = .no)
    (hpairs : ∀ entries, IsConstituent (.shape entries) t -> Ty.mayBePair entries = false ->
      Ty.HoldsNoPair entries)
    (hagree : ∀ members, IsConstituent (.inter members) s ->
      (∃ m ∈ members, m.callability .empty = .yes) ->
        ∀ m ∈ members, m.callability .empty ≠ .no)
    (hmethod : ∀ entries, IsConstituent (.shape entries) s -> Ty.mayBePair entries = true ->
      ∀ e ∈ entries, e.key = .int 1 -> ¬e.value.HoldsNoName) :
    s.callability .empty = .no := by
  have hcall := Subtype.holdsNoCall_of_callability hno hpairs
  exact Subtype.callability_of_holdsNoCall ((hσ.contained hyes).lacks.calls hcall) hagree hmethod

/-- A pair without the name of a method, in a union with another shape of this kind. -/
theorem callability_no_of_isSubtype_pair :
    let foo := Ty.object "Foo" []
    let s := Ty.shape [⟨.int 0, foo, false⟩, ⟨.int 1, .literal (.int 3), false⟩]
    let t := Ty.union .plain [.null, .shape [⟨.int 0, foo, false⟩, ⟨.int 1, .int, true⟩]]
    (((new .empty .default).perform (isSubtype s t)).1 = .yes ∧ t.callability .empty = .no) ∧
      s.callability .empty = .no := by
  intro foo s t
  have hyes : LeadsTo .empty (isSubtype s t) .yes := by constructor <;> decide +kernel
  refine ⟨⟨hyes.perform .default, by decide⟩,
    callability_no_of_isSubtype .new (hyes.perform .default) (by decide) ?_ ?_ ?_⟩
  · intro entries hc _
    simp only [t] at hc
    rcases hc with _ | ⟨hm, hc⟩
    rcases List.mem_pair.mp hm with rfl | rfl
    · cases hc
    · cases hc
      exact .name rfl (.simple rfl rfl)
  · intro members hc
    simp only [s] at hc
    cases hc
  · intro entries hc hpair
    simp only [s] at hc
    cases hc
    cases hpair

end Session
end GradualTypes
