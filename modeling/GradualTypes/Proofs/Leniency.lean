import GradualTypes.Proofs.AcceptedTypes
import GradualTypes.Proofs.Notes

/-!
# Leniency

A check of acceptance may be made more lenient in two ways: without strict types scalars are
converted, and with benevolent acceptance one member of a benevolent union is enough.  Neither
makes an answer weaker.

A conversion takes the place of the answer on containment and is not joined with it.  That is no
loss, because a type that can be converted shares no value with the one that takes it.

A check that settles earlier also finds out less on its way, and beyond the depth limit it can miss
what a more demanding check has found out.
-/

namespace GradualTypes

open Inquiry
open GradualTypes.Subtype (exact)
open GradualTypes.Ty (Formed)
open Notes (Follow blank follow_blank)

variable {h : Hierarchy} {options options₁ options₂ : Options} {strict strict₁ strict₂ : Bool}
  {members : List Ty} {flavor : Flavor} {a t : Ty}

namespace Acceptance

/-- The second one of two checks is at least as lenient: it is strict only if the first one is, and
it wants all members of a benevolent union to be accepted only if the first one does. -/
structure Relaxes (options₁ options₂ : Options) (strict₁ strict₂ : Bool) : Prop where
  strict : strict₂ = true -> strict₁ = true
  benevolent : options₁.benevolentAcceptance = true -> options₂.benevolentAcceptance = true

/-!
# Conversions
-/

theorem conversion?_lenient {answer : Tristate} (hstrict : strict₂ = true -> strict₁ = true)
    (hanswer : conversion? strict₁ a t = some answer) : conversion? strict₂ a t = some answer := by
  cases strict₁ with
  | false =>
      cases strict₂ with
      | false => exact hanswer
      | true => cases hstrict rfl
  | true =>
      obtain ⟨k, rfl, -, -⟩ := conversion?_acceptor hanswer
      -- among strict types there is only the conversion of an integer to a `float`
      cases hbase : t.base? with
      | none => cases k <;> simp [conversion?, hbase] at hanswer
      | some l => cases k <;> cases l <;> simp_all [conversion?]

/-- What can be converted to a type shares no value with it. -/
theorem exact_of_conversion? {answer : Tristate} (hanswer : conversion? strict a t = some answer) :
    exact h t a = .no := by
  obtain ⟨k, rfl, hordinary, -⟩ := conversion?_acceptor hanswer
  rcases conversion?_value hanswer with ⟨hscalar, hmixed⟩
  have hbases : t ≠ .never ∧ Subtype.inKeyword h t k = .no ∧ t.base? ≠ some k := by
    cases hbase : t.base? with
    | none => cases k <;> simp [conversion?, hbase] at hanswer
    | some l =>
        refine ⟨?_, ?_, ?_⟩
        · rintro rfl
          cases hbase
          cases k <;> cases strict <;> cases hanswer
        · cases k <;> cases l <;> simp_all [conversion?, Subtype.inKeyword, Tristate.ofBool]
        · rintro ⟨⟩
          cases k <;> simp [conversion?, hbase] at hanswer
  rcases hbases with ⟨hnever, hno, hbase⟩
  have hne : t ≠ .keyword k := by
    rintro rfl
    exact hbase rfl
  have hordinary' : t.isOrdinary = true := by
    cases t with
    | keyword l => simp_all [Ty.isOrdinary, Ty.isUnknown, Ty.isMissing]
    | literal v => rfl
    | range r => rfl
    | _ => cases hscalar
  rw [Subtype.exact_of_ne hne, Subtype.check_simple hordinary' hordinary
    (Ty.isSimple_of_isScalar hscalar) rfl, if_neg (by cases t <;> simp_all [Ty.isScalar, Ty.isAccessory])]
  exact hno

/-!
# The relation without limits
-/

/-- An intersection is accepted as far as one of its members is, or as far as it is contained. -/
theorem value_accepts_inter_value (hsimple : a.isSimple = true)
    (hopen : settled? a (.inter members) = none) :
    (accepts h options strict a (.inter members)).value (exact h) =
      (Tristate.any (members.map fun m => (accepts h options strict a m).value (exact h))).or
        (exact h (.inter members) a) := by
  rw [accepts_inter_value hsimple hopen, value_bind, value_any]
  split
  · rename_i hyes
    rw [hyes, Tristate.yes_or]
    rfl
  · rfl

theorem value_simple_le (hstrict : strict₂ = true -> strict₁ = true) :
    (simple h strict₁ a t).value (exact h) ≤ (simple h strict₂ a t).value (exact h) := by
  unfold simple
  split
  · exact Tristate.le_refl _
  · cases hanswer₁ : conversion? strict₁ a t with
    | some answer =>
        rw [conversion?_lenient hstrict hanswer₁]
        exact Tristate.le_refl _
    | none =>
        cases hanswer₂ : conversion? strict₂ a t with
        | some answer =>
            show exact h t a ≤ _
            rw [exact_of_conversion? hanswer₂]
            exact Tristate.no_le _
        | none => exact Tristate.le_refl _

/-- A more lenient check accepts no less.  The value needs to be formed, because a benevolent
union of no members would be accepted as long as all of them have to be. -/
theorem value_accepts_le {replies : Ty -> Ty -> Tristate -> Prop} (ht : Formed replies t)
    (hlenient : Relaxes options₁ options₂ strict₁ strict₂) :
    (accepts h options₁ strict₁ a t).value (exact h) ≤
      (accepts h options₂ strict₂ a t).value (exact h) := by
  induction a, t using accepts_induction with
  | settled a t answer hsettled =>
      rw [accepts_settled hsettled, accepts_settled hsettled]
      exact Tristate.le_refl _
  | values a flavor members hopen ih =>
      have hmembers := fun m hm => ih m hm (ht.inside hm)
      have hany := Tristate.any_mono hmembers
      have hall := Tristate.all_mono hmembers
      rw [accepts_union_value hopen, accepts_union_value hopen]
      cases hone₁ : needsOne options₁ flavor with
      | true =>
          have hone₂ : needsOne options₂ flavor = true := by
            simp only [needsOne, Bool.and_eq_true] at hone₁ ⊢
            exact ⟨hone₁.1, hlenient.benevolent hone₁.2⟩
          rw [if_pos rfl, if_pos hone₂, value_any, value_any]
          exact hany
      | false =>
          rw [if_neg (by decide), value_all]
          split
          · have htwo := ht.here.1.two
            rw [value_any]
            refine Tristate.le_trans (Tristate.all_le_any ?_) hany
            rw [ne_eq, List.map_eq_nil_iff]
            rintro rfl
            exact absurd htwo (by decide)
          · rw [value_all]
            exact hall
  | mixed a hopen =>
      rw [accepts_mixed_value hopen, accepts_mixed_value hopen]
      exact Tristate.le_refl _
  | union t flavor members hflat hmixed hopen ih =>
      rw [accepts_union hflat hmixed hopen, accepts_union hflat hmixed hopen, value_any, value_any]
      exact Tristate.any_mono fun m hm => ih m hm ht
  | inter t members hflat hmixed hopen ih =>
      rw [accepts_inter hflat hmixed hopen, accepts_inter hflat hmixed hopen, value_all, value_all]
      exact Tristate.all_mono fun m hm => ih m hm ht
  | parts a members hsimple hopen ih =>
      rw [value_accepts_inter_value hsimple hopen, value_accepts_inter_value hsimple hopen]
      exact Tristate.or_mono (Tristate.any_mono fun m hm => ih m hm (ht.inside hm))
        (Tristate.le_refl _)
  | simple a t hsimple hsimple' hmixed hopen =>
      rw [accepts_simple hsimple hsimple' hmixed hopen, accepts_simple hsimple hsimple' hmixed hopen]
      exact value_simple_le hlenient.strict

end Acceptance

namespace Session

variable {σ₁ σ₂ : Session}

/-- Where two sessions check whether a value is accepted and the second check is at least as
lenient as the first one, its answer is not weaker, provided that neither meets the limit. -/
theorem accepts_le_of_lenient (ht : Constructed h options t) (hσ₁ : Reachable h options₁ σ₁)
    (hσ₂ : Reachable h options₂ σ₂)
    (hlenient : Acceptance.Relaxes options₁ options₂ strict₁ strict₂)
    (hlimited₁ : (σ₁.perform (accepts h options₁ strict₁ a t)).2.limited = false)
    (hlimited₂ : (σ₂.perform (accepts h options₂ strict₂ a t)).2.limited = false) :
    (σ₁.perform (accepts h options₁ strict₁ a t)).1 ≤
      (σ₂.perform (accepts h options₂ strict₂ a t)).1 := by
  rw [hσ₁.accepts_eq hlimited₁, hσ₂.accepts_eq hlimited₂]
  exact Acceptance.value_accepts_le ht.formed hlenient

/-- What is a number or a text is an integer for a session that is content with the number, and
not for one that wants both to be integers. -/
theorem accepts_le_of_lenient_numbers :
    let demanding : Options := { Options.default with benevolentAcceptance := false }
    let either := Ty.union .benevolent [.literal (.int 1), .literal (.text "one")]
    let strict := (new .empty demanding).perform (accepts .empty demanding true .int either)
    let lenient := (new .empty .default).perform (accepts .empty .default false .int either)
    strict.1 = .no ∧ lenient.1 = .yes ∧ strict.1 ≤ lenient.1 := by
  intro demanding either strict lenient
  have hgiven : Call.results? .empty .default [] [.int 1, .text "one",
      .benevolent [.literal (.int 1), .literal (.text "one")]] =
        some [either, .literal (.text "one"), .literal (.int 1)] := by
    decide +kernel
  have hconstructed : Constructed .empty .default either :=
    (ConstructedWithin.of_calls (by simp) hgiven either (by simp)).constructed
  have hstrict : LeadsTo .empty (accepts .empty demanding true .int either) .no := by
    constructor <;> cbv
  have hlenient : LeadsTo .empty (accepts .empty .default false .int either) .yes := by
    constructor <;> cbv
  refine ⟨hstrict.perform demanding, hlenient.perform .default, ?_⟩
  exact accepts_le_of_lenient hconstructed .new .new ⟨by decide, by decide⟩
    (limited_of_within (perform_new hstrict.light).1 rfl)
    (limited_of_within (perform_new hlenient.light).1 rfl)

/-- Beyond the limit a more lenient check may know less.  The strict one looks at a second scalar
and finds out that a text is a string, where the other one is content with the first scalar, which
it converts.  That arrays of the text, higher than the limit, are arrays of strings is then known
to the strict check only. -/
theorem exceeds_without_strict_types :
    let options : Options := { Options.default with maxIntersectionDistribution := 1 }
    let text := Ty.literal (.text "a")
    let parts := Ty.union .benevolent [.literal (.int 1), text, .accessory .nonEmptyArray]
    let either := Ty.union .plain [Ty.nest 100 .string, .literal (.text "z")]
    let value := Ty.inter [Ty.nest 100 text, parts]
    let acceptor := Ty.inter [.string, either]
    ∃ σ ts, Run .empty options (fun _ _ => True) σ ts ∧ acceptor ∈ ts ∧ value ∈ ts ∧
      (σ.perform (accepts .empty options true acceptor value)).1 = .yes ∧
      (σ.perform (accepts .empty options false acceptor value)).1 = .maybe := by
  intro options text parts either value acceptor
  have hleaves : Follow .empty options blank [.accessory .nonEmptyArray, .literal (.text "z"), text,
      .literal (.int 1), .string, .int] := follow_blank .empty options
    |>.call (.keyword .int) rfl (by simp [Call.arguments]) rfl
    |>.call (.keyword .string) rfl (by simp [Call.arguments]) rfl
    |>.call (.int 1) rfl (by simp [Call.arguments]) rfl
    |>.call (.text "a") rfl (by simp [Call.arguments]) rfl
    |>.call (.text "z") rfl (by simp [Call.arguments]) rfl
    |>.call (.accessory .nonEmptyArray) rfl (by simp [Call.arguments]) rfl
  have hnests := (hleaves.nest (t := text) (by simp) (by simp) (by simp [text]) 100).nest
    (t := .string) (by simp) (by simp) (by simp) 100
  have heither := hnests.call (.union [Ty.nest 100 .string, .literal (.text "z")]) rfl
    (by simp [Call.arguments]) (t := either) (by decide +kernel)
  have hparts := heither.call (.benevolent [.literal (.int 1), text, .accessory .nonEmptyArray]) rfl
    (by simp [Call.arguments]) (t := parts) (by decide +kernel)
  have hvalue := hparts.inter (s := Ty.nest 100 text) (t := parts) (by decide +kernel) rfl (by simp)
    (by simp) (u := value) (by decide +kernel)
  have hacceptor := hvalue.inter (s := .string) (t := either) (by decide +kernel) rfl (by simp)
    (by simp) (u := acceptor) (by decide +kernel)
  obtain ⟨σ, ts, hrun, hsubset, hσ⟩ := hacceptor
  refine ⟨σ, ts, hrun, hsubset _ (by simp), hsubset _ (by simp), ?_, ?_⟩
  · exact (hσ.perform _).1.trans (by decide +kernel)
  · exact (hσ.perform _).1.trans (by decide +kernel)

/-- A session that wants all members of a benevolent union to be accepted looks at the second one
too, and so it may know more about arrays that are higher than the limit. -/
theorem exceeds_with_benevolent_acceptance (benevolent : Bool) :
    let options : Options :=
      { Options.default with maxIntersectionDistribution := 1, benevolentAcceptance := benevolent }
    let ints := Ty.array .string .int
    let ones := Ty.array .string (.literal (.int 1))
    let parts := Ty.union .benevolent [.shape [⟨.text "p", .int, true⟩], ones]
    let either := Ty.union .plain [.shape [⟨.text "z", .int, true⟩], Ty.nest 100 ints]
    let value := Ty.inter [Ty.nest 100 ones, parts]
    let acceptor := Ty.inter [ints, either]
    ∃ σ ts, Run .empty options (fun _ _ => True) σ ts ∧ acceptor ∈ ts ∧ value ∈ ts ∧
      (σ.perform (accepts .empty options true acceptor value)).1 =
        if benevolent then .maybe else .yes := by
  intro options ints ones parts either value acceptor
  cases benevolent
  all_goals
    have hleaves : Follow .empty options blank [.literal (.int 1), .string, .int] :=
      follow_blank .empty options
      |>.call (.keyword .int) rfl (by simp [Call.arguments]) rfl
      |>.call (.keyword .string) rfl (by simp [Call.arguments]) rfl
      |>.call (.int 1) rfl (by simp [Call.arguments]) rfl
    have harrays : Follow .empty options blank (.shape [⟨.text "p", .int, true⟩] ::
        .shape [⟨.text "z", .int, true⟩] :: ones :: ints :: _) := hleaves
      |>.call (.array .string .int) rfl (by simp [Call.arguments]) rfl
      |>.call (.array .string (.literal (.int 1))) rfl (by simp [Call.arguments]) rfl
      |>.call (.shape [⟨.text "z", .int, true⟩]) rfl (by simp [Call.arguments, Ty.entryValues]) rfl
      |>.call (.shape [⟨.text "p", .int, true⟩]) rfl (by simp [Call.arguments, Ty.entryValues]) rfl
    have hnests := (harrays.nest (t := ones) (by simp) (by simp) (by simp [ones]) 100).nest
      (t := ints) (by simp) (by simp) (by simp [ints]) 100
    have heither := hnests.call (.union [.shape [⟨.text "z", .int, true⟩], Ty.nest 100 ints]) rfl
      (by simp [Call.arguments]) (t := either) (by decide +kernel)
    have hparts := heither.call (.benevolent [.shape [⟨.text "p", .int, true⟩], ones]) rfl
      (by simp [Call.arguments]) (t := parts) (by decide +kernel)
    have hvalue := hparts.inter (s := Ty.nest 100 ones) (t := parts) (by decide +kernel) rfl (by simp)
      (by simp) (u := value) (by decide +kernel)
    have hacceptor := hvalue.inter (s := ints) (t := either) (by decide +kernel) rfl (by simp)
      (by simp) (u := acceptor) (by decide +kernel)
    obtain ⟨σ, ts, hrun, hsubset, hσ⟩ := hacceptor
    refine ⟨σ, ts, hrun, hsubset _ (by simp), hsubset _ (by simp), ?_⟩
    exact (hσ.perform _).1.trans (by decide +kernel)

end Session
end GradualTypes
