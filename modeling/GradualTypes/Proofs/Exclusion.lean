import GradualTypes.Proofs.ApartAnswers
import GradualTypes.Proofs.Cautious
import GradualTypes.Proofs.Construction

/-!
# Types with the answer `no`

If the answer `no` does not rest on a doubtful step, then no regular type is
certainly contained in both types.  For a doubtful step this fails: two types for
which it answers `no` always have a regular type in common.
-/

namespace GradualTypes

open GradualTypes.Ty (Everywhere)

namespace Subtype

variable {h : Hierarchy} {a b c s t : Ty}

/-!
# Answers without doubt
-/

theorem not_contained_of_cautious (hlawful : h.IsLawful) (hanswer : cautious h a b = .no)
    (hc : IsRegular h c) (hca : Contained h c a) : ¬ Contained h c b := by
  intro hcb
  have hab : Apart h a b := apart_of_cautiousTo hanswer
  have hbc : Apart h b c := (Apart.of_contained hlawful hc.isPopulated hca hab).symm
  exact hc.not_apart hlawful (Apart.of_contained hlawful hc.isPopulated hcb hbc)

/-!
# Doubtful answers
-/

/-- Two different simple types of which one answer is `no` and the other `maybe`
have a regular intersection. -/
theorem isRegular_inter (hs : IsRegular h s) (ht : IsRegular h t) (hs' : s.isSimple = true)
    (ht' : t.isSimple = true) (hsmixed : s ≠ .mixed) (htmixed : t ≠ .mixed)
    (hranges : s.range? = none ∨ t.range? = none) (hst : exact h s t = .no)
    (hts : exact h t s = .maybe) : IsRegular h (.inter (Ty.sortCanonical [s, t])) := by
  have hperm := Ty.perm_sortCanonical [s, t]
  have hmem : ∀ {u}, u ∈ Ty.sortCanonical [s, t] -> u = s ∨ u = t := by
    intro u hu
    simpa using hperm.mem_iff.mp hu
  have hmember : ∀ u : Ty, IsRegular h u -> u.isSimple = true -> u ≠ .mixed ->
      Intersection.IsMember u := by
    intro u hu hu' hmixed
    refine ⟨?_, hmixed, ?_, ?_⟩
    · intro heq
      subst heq
      cases hu.here.2.1
    · intro heq
      subst heq
      cases hu.here.2.1
    · intro members heq
      subst heq
      cases hu'
  have hindependent : Intersection.Independent (Session.exactly h) s t :=
    ⟨hranges, .no, .maybe, hst.symm, hts.symm, by decide, by decide, by decide⟩
  refine .intro ⟨⟨?_, ?_, ?_, ?_⟩, rfl, ?_⟩ ?_
  · rw [hperm.length_eq]
    exact Nat.le_refl 2
  · intro u hu
    rcases hmem hu with rfl | rfl
    · exact hmember _ hs hs' hsmixed
    · exact hmember _ ht ht' htmixed
  · exact Ty.isCanonical_sortCanonical _
  · exact hperm.symm.pairwise (by simpa using hindependent) fun hxy => hxy.symm
  · apply List.all_eq_true.mpr
    intro u hu
    rcases hmem hu with rfl | rfl
    · simp [Ty.unionMembers?_of_isSimple hs']
    · simp [Ty.unionMembers?_of_isSimple ht']
  · intro u hu
    rcases hmem hu with rfl | rfl
    · exact hs
    · exact ht

/-- A doubtful pair that is not a pair of arrays does not get the answer `no` in the
other order. -/
theorem exact_ne_no_of_isDoubtful (hdoubt : isDoubtful h s t = true)
    (harray : s.isArray = false) :
    s.isSimple = true ∧ t.isSimple = true ∧ s ≠ .mixed ∧ t ≠ .mixed ∧ s.range? = none ∧
      exact h t s ≠ .no := by
  have hanswer : s.isSimple = true -> t.isSimple = true -> s.isOrdinary = true ->
      t.isOrdinary = true -> t ≠ s -> t.isAccessory = false ->
      (inSimple h t s).value (exact h) ≠ .no -> exact h t s ≠ .no := by
    intro hs' ht' hs ht hne haccessory hvalue
    rw [exact_of_ne hne, check_simple ht hs ht' hs', haccessory]
    exact hvalue
  unfold isDoubtful at hdoubt
  split at hdoubt
  · cases harray
  · refine ⟨rfl, rfl, by simp, by simp, rfl, hanswer rfl rfl rfl rfl (by simp) rfl ?_⟩
    simp [inSimple, inKeyword, Ty.callability]
  · refine ⟨rfl, rfl, by simp, by simp, rfl, hanswer rfl rfl rfl rfl (by simp) rfl ?_⟩
    simpa [inSimple, inKeyword, Ty.callability] using hdoubt
  · refine ⟨rfl, rfl, by simp, by simp, rfl, hanswer rfl rfl rfl rfl (by simp) rfl ?_⟩
    simp [inSimple, inLiteral, Literal.base]
  · refine ⟨rfl, rfl, by simp, by simp, rfl, hanswer rfl rfl rfl rfl (by simp) rfl ?_⟩
    simp [inSimple, inShape]
  · refine ⟨rfl, rfl, by simp, by simp, rfl, hanswer rfl rfl rfl rfl (by simp) rfl ?_⟩
    simp [inSimple, inObject]
  · cases hdoubt

theorem contained_inter {members : List Ty} (ht : IsRegular h t) (hsimple : t.isSimple = true)
    (hmixed : t ≠ .mixed) (hmem : t ∈ members) : Contained h (.inter members) t := by
  have hordinary := isOrdinary_of_not_absent ht.here.2.1 hmixed
  exact Certain.contained (.inter_left hordinary hsimple hmem (.refl t))

/-- Two types for which a doubtful step answers `no` have a regular type in common:
the empty shape if they are arrays, the second type if it is contained in the first
one, and their intersection otherwise. -/
theorem exists_contained_of_isDoubtful (hdoubt : isDoubtful h s t = true)
    (hs : IsRegular h s) (ht : IsRegular h t) (hno : exact h s t = .no) :
    ∃ c, IsRegular h c ∧ Contained h c s ∧ Contained h c t := by
  cases harray : s.isArray with
  | true =>
      cases s <;> simp [Ty.isArray] at harray
      cases t <;> simp [isDoubtful] at hdoubt
      have hempty : ∀ k v : Ty, Contained h (.shape []) (.array k v) :=
        fun k v => Certain.contained (.fits rfl rfl (.shape_array (by simp)))
      refine ⟨.shape [], ?_, hempty _ _, hempty _ _⟩
      exact .intro ⟨⟨List.nodup_nil, by simp⟩, rfl, rfl⟩ (by simp [Ty.children, Ty.entryValues])
  | false =>
      rcases exact_ne_no_of_isDoubtful hdoubt harray with
        ⟨hs', ht', hsmixed, htmixed, hrange, hreverse⟩
      cases hts : exact h t s with
      | no => exact absurd hts hreverse
      | yes => exact ⟨t, ht, hts, .refl t⟩
      | maybe =>
          have hperm := Ty.perm_sortCanonical [s, t]
          refine ⟨.inter (Ty.sortCanonical [s, t]), ?_, ?_, ?_⟩
          · exact isRegular_inter hs ht hs' ht' hsmixed htmixed (Or.inl hrange) hno hts
          · exact contained_inter hs hs' hsmixed (hperm.mem_iff.mpr (by simp))
          · exact contained_inter ht ht' htmixed (hperm.mem_iff.mpr (by simp))

end Subtype

/-!
# Answers of a session
-/

namespace Run

variable {h : Hierarchy} {options : Options} {σ : Session} {ts : List Ty}

/-- What a run returns is regular, apart from types without values and from
intersections that were not distributed. -/
theorem isRegular (hrun : Run h options (Session.CallWithin options) σ ts) {c : Ty} (hc : c ∈ ts)
    (hproper : Everywhere (fun u => u ≠ .never ∧ u ≠ .error ∧ u ≠ .placeholder) c)
    (hdistributed : Everywhere (fun u => u.isDistributed = true) c) : Subtype.IsRegular h c := by
  have hformed := hrun.formed_of_within.1 c hc
  apply (hformed.and (hproper.and hdistributed)).imp
  intro u hall
  rcases hall with ⟨hu, ⟨hnever, herror, hplaceholder⟩, hdistributed⟩
  refine ⟨hu, ?_, hdistributed⟩
  cases u with
  | unknown n => exact hu.elim
  | error => exact absurd rfl herror
  | placeholder => exact absurd rfl hplaceholder
  | keyword k => simpa [Ty.isAbsent, Ty.isUnknown, Ty.isMissing] using hnever
  | _ => rfl

end Run

namespace Session

open Inquiry

/-- If a session answers `no` for two types and this does not rest on a doubtful
step, then no type without parts that have no values is certainly contained in
both. -/
theorem not_shared_of_isSubtype {h : Hierarchy} {options options₁ options₂ options' : Options}
    {a b c : Ty} {σ σ₁ σ₂ σ' : Session} {ts : List Ty} (hlawful : h.IsLawful)
    (hσ : Reachable h options σ) (hno : (σ.perform (isSubtype a b)).1 = .no)
    (hlimit : (σ.perform (isSubtype a b)).2.limited = false)
    (hsure : Subtype.cautious h a b = Subtype.exact h a b)
    (hrun : Run h options' (CallWithin options') σ' ts) (hc : c ∈ ts)
    (hproper : Everywhere (fun u => u ≠ .never ∧ u ≠ .error ∧ u ≠ .placeholder) c)
    (hdistributed : Everywhere (fun u => u.isDistributed = true) c)
    (hσ₁ : Reachable h options₁ σ₁) (hσ₂ : Reachable h options₂ σ₂) :
    ¬ ((σ₁.perform (isSubtype c a)).1 = .yes ∧ (σ₂.perform (isSubtype c b)).1 = .yes) := by
  intro hall
  rcases hall with ⟨hca, hcb⟩
  have hregular := hrun.isRegular hc hproper hdistributed
  have hanswer : Subtype.cautious h a b = .no := by
    rw [hsure, ← hσ.isSubtype_eq hlimit]
    exact hno
  exact Subtype.not_contained_of_cautious hlawful hanswer hregular (hσ₁.contained hca)
    (hσ₂.contained hcb)

/-- No literal is certainly contained in both `int` and `string`. -/
theorem not_shared_int_string :
    let σ := new .empty .default
    ¬ ((σ.perform (isSubtype (.literal (.int 1)) .int)).1 = .yes ∧
      (σ.perform (isSubtype (.literal (.int 1)) .string)).1 = .yes) := by
  have hlimit := isSubtype_not_limited (s := .int) (t := .string) (new .empty .default) (by decide)
  have hno : ((new .empty .default).perform (isSubtype .int .string)).1 = .no := by
    rw [Reachable.new.isSubtype_eq hlimit]
    decide
  have hrun : Run .empty .default (CallWithin .default) _ _ :=
    Run.new.call (.int 1) (by simp [Call.arguments]) trivial
  exact not_shared_of_isSubtype Hierarchy.isLawful_empty .new hno hlimit (by decide) hrun
    List.mem_cons_self (.intro (by decide) (by simp [Ty.children]))
    (.intro rfl (by simp [Ty.children])) .new .new

/-- Instances of `Closure` are certainly callable, yet `callable` and the type of the
current instance of `Closure` get the answer `no`. -/
theorem shared_callable_closure :
    let σ := new .empty .default
    let closure := Ty.this "Closure"
    Built .empty .default .callable ∧ Built .empty .default closure ∧
      Everywhere (fun u => u ≠ .never ∧ u ≠ .error) closure ∧
      (σ.perform (isSubtype .callable closure)).1 = .no ∧
      (σ.perform (isSubtype closure .callable)).1 = .yes ∧
      (σ.perform (isSubtype closure closure)).1 = .yes := by
  intro σ closure
  have hanswer : ∀ s t, Subtype.weight s t ≤ relationDepth ->
      (σ.perform (isSubtype s t)).1 = Subtype.exact .empty s t :=
    fun s t hweight => Reachable.new.isSubtype_eq (isSubtype_not_limited σ hweight)
  have hclosure : Hierarchy.isClosure "Closure" = true := by
    have hlower : "Closure".toLower = "closure" :=
      String.toList_inj.mp (String.toList_map.trans rfl)
    unfold Hierarchy.isClosure
    rw [hlower]
    rfl
  refine ⟨?_, ?_, .intro (by decide) (by simp [closure, Ty.children]), ?_, ?_, ?_⟩
  · exact ⟨_, _, Run.new.call (.keyword .callable) (by simp [Call.arguments]) trivial,
      List.mem_cons_self⟩
  · exact ⟨_, _, Run.new.call (.this "Closure") (by simp [Call.arguments]) trivial,
      List.mem_cons_self⟩
  · rw [hanswer _ _ (by decide)]
    decide
  · rw [hanswer _ _ (by decide), Subtype.exact_of_ne (by decide),
      Subtype.check_simple rfl rfl rfl rfl]
    simp [Subtype.inSimple, Subtype.inKeyword, Ty.callability, Hierarchy.isInvokable, hclosure,
      Ty.isAccessory, closure]
  · rw [hanswer _ _ (by decide), Subtype.exact_self]

end Session
end GradualTypes
