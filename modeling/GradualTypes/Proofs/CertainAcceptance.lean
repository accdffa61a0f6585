import GradualTypes.Proofs.AcceptanceSteps
import GradualTypes.Proofs.ApartBelow
import GradualTypes.Proofs.Constructed
import GradualTypes.Proofs.UnionNormal

/-!
# Certain acceptance

The rules by which a value is certainly accepted: it is certainly contained, it is converted, or
the parts of the two types are certainly accepted.  Acceptance answers `yes` by these rules only,
whatever right answers it gets on containment (`meets_accepts`), and if it gets all of them, it
answers `yes` wherever the rules apply (`value_accepts_eq_yes_iff`).

The rules go on to apply when the acceptor becomes wider and the value narrower
(`Receives.of_contained`).
-/

namespace GradualTypes

open Inquiry
open GradualTypes.Subtype (Certain Contained Fits contained_iff exact)
open GradualTypes.Ty (Formed)

variable {h : Hierarchy} {options : Options} {strict : Bool} {members : List Ty} {flavor : Flavor}
  {a b m s t u : Ty}

/-!
# Valid types
-/

/-- A type that the constructors make of one another in sessions of any kind, apart from an
error. -/
structure Ty.IsValid (h : Hierarchy) (t : Ty) : Prop where
  formed : Formed (Run.soundly h) t
  complete : Ty.IsComplete t
  noError : t ≠ .error

namespace Ty.IsValid

theorem isOrdinary (ht : t.IsValid h) (hmixed : t ≠ .mixed) (hnever : t ≠ .never) :
    t.isOrdinary = true :=
  ht.formed.isOrdinary ht.complete ht.noError hmixed hnever

theorem alternative (ht : (Ty.union flavor members).IsValid h) (hm : m ∈ members) :
    m.IsValid h ∧ m.isOrdinary = true ∧ m.unionMembers? = none := by
  rcases ht.formed.unionMember hm with ⟨hformed, herror, hmixed, hnever, hflat⟩
  have hm' : m.IsValid h := ⟨hformed, ht.complete.inside hm, herror⟩
  exact ⟨hm', hm'.isOrdinary hmixed hnever, hflat⟩

theorem member (ht : (Ty.inter members).IsValid h) (hm : m ∈ members) :
    m.IsValid h ∧ m.isOrdinary = true := by
  rcases ht.formed.here.isMember m hm with ⟨herror, hmixed, hnever, -⟩
  have hm' : m.IsValid h := ⟨ht.formed.inside hm, ht.complete.inside hm, herror⟩
  exact ⟨hm', hm'.isOrdinary hmixed hnever⟩

theorem exists_alternative (ht : (Ty.union flavor members).IsValid h) : ∃ m, m ∈ members := by
  have htwo := ht.formed.here.1.two
  exact List.exists_mem_of_length_pos (by omega)

theorem trans (hfinal : h.LeavesClosureFinal) (hs : s.IsValid h) (hst : Contained h s t)
    (htu : Contained h t u) : Contained h s u :=
  hst.trans hfinal hs.formed.hasDistinctKeys htu

theorem alternative_contained (ht : (Ty.union flavor members).IsValid h) (hm : m ∈ members) :
    Contained h m (.union flavor members) := by
  rcases ht.alternative hm with ⟨-, hordinary, hflat⟩
  exact Intersection.contained_of_alternative hordinary hflat hm (.refl m)

end Ty.IsValid

namespace Acceptance

/-!
# Conversions
-/

theorem conversion?_acceptor {answer : Tristate} (hanswer : conversion? strict a t = some answer) :
    ∃ k, a = .keyword k ∧ a.isOrdinary = true ∧ k ≠ .callable := by
  cases a with
  | keyword k =>
      refine ⟨k, rfl, ?_⟩
      cases hbase : t.base? with
      | some l =>
          cases k <;> first
            | (refine ⟨rfl, ?_⟩; decide)
            | (cases l <;> cases strict <;> simp [conversion?, hbase] at hanswer)
      | none => cases k <;> simp [conversion?, hbase] at hanswer
  | _ => simp [conversion?] at hanswer

theorem conversion?_value {answer : Tristate} (hanswer : conversion? strict a t = some answer) :
    t.isScalar = true ∧ t ≠ .mixed := by
  obtain ⟨k, rfl, -, -⟩ := conversion?_acceptor hanswer
  cases t with
  | keyword l =>
      refine ⟨rfl, ?_⟩
      rintro ⟨⟩
      cases k <;> cases strict <;> cases hanswer
  | literal v => exact ⟨rfl, by simp⟩
  | range r => exact ⟨rfl, by simp⟩
  | _ => simp [conversion?, Ty.base?] at hanswer

/-- A value is not converted to a type that it fits into. -/
theorem conversion?_of_fits {R : Ty -> Ty -> Prop} (hfits : Fits h R t a) :
    conversion? strict a t = none := by
  cases hfits with
  | same k => cases k <;> cases strict <;> rfl
  | literal_base v => cases v <;> cases strict <;> rfl
  | _ => cases strict <;> rfl

/-- What is certainly converted is so after it is narrowed. -/
theorem conversion?_narrow {R : Ty -> Ty -> Prop} (hfits : Fits h R s t)
    (hyes : conversion? strict a t = some .yes) : conversion? strict a s = some .yes := by
  obtain ⟨k, rfl, -, -⟩ := conversion?_acceptor hyes
  cases hfits with
  | same l => exact hyes
  | literal_base v =>
      cases k <;> cases v <;> cases strict <;> first | exact hyes | cases hyes
  | _ => cases k <;> cases strict <;> first | exact hyes | cases hyes

/-!
# The rules
-/

/-- When a value is certainly accepted. -/
inductive Receives (h : Hierarchy) (options : Options) (strict : Bool) : Ty -> Ty -> Prop where
  | contained {a t : Ty} : Contained h t a -> Receives h options strict a t
  | converted {a t : Ty} : conversion? strict a t = some .yes -> Receives h options strict a t
  | all_values {a : Ty} {flavor : Flavor} {members : List Ty} :
      (∀ m ∈ members, Receives h options strict a m) ->
      Receives h options strict a (.union flavor members)
  | some_value {a m : Ty} {flavor : Flavor} {members : List Ty} :
      needsOne options flavor = true ->
      m ∈ members ->
      Receives h options strict a m ->
      Receives h options strict a (.union flavor members)
  | union {t m : Ty} {flavor : Flavor} {members : List Ty} :
      t.unionMembers? = none ->
      t ≠ .mixed ->
      m ∈ members ->
      Receives h options strict m t ->
      Receives h options strict (.union flavor members) t
  | inter {t : Ty} {members : List Ty} :
      t.unionMembers? = none ->
      t ≠ .mixed ->
      (∀ m ∈ members, Receives h options strict m t) ->
      Receives h options strict (.inter members) t
  | value_inter {a m : Ty} {members : List Ty} :
      a.isSimple = true ->
      m ∈ members ->
      Receives h options strict a m ->
      Receives h options strict a (.inter members)

/-!
# Acceptance is certain by the rules
-/

/-- What is callable for sure is contained in `callable`. -/
theorem contained_callable (hsimple : t.isSimple = true) (hyes : t.callability h = .yes) :
    Contained h t .callable := by
  have hfits : Fits h (Contained h) t .callable :=
    Subtype.fits_of_inKeyword (k := .callable) hsimple hyes
  have hordinary : t.isOrdinary = true := by
    rcases hfits.of_callable with rfl | ⟨cls, hcls, -⟩
    · rfl
    · cases t <;> first | rfl | cases hcls
  exact (Certain.fits hordinary rfl hfits).contained

theorem callability_of_fits {R : Ty -> Ty -> Prop} (hfits : Fits h R t .callable) :
    t.callability h = .yes := by
  rcases hfits.of_callable with rfl | ⟨cls, hcls, hcall⟩
  · rfl
  · cases t with
    | object cls' arguments => cases hcls; exact hcall
    | this cls' => cases hcls; exact hcall
    | _ => cases hcls

theorem settled?_eq_yes {answer : Tristate} (ha : a.IsValid h) (ht : t.IsValid h)
    (hsettled : settled? a t = some answer) : answer = .yes ∧ Contained h t a := by
  unfold settled? at hsettled
  have hunknown := ha.formed.isUnknown
  have hunknown' := ht.formed.isUnknown
  split at hsettled
  · rename_i heq
    exact ⟨(Option.some.inj hsettled).symm, heq ▸ .refl a⟩
  · split at hsettled
    · rename_i herror
      simp [ha.noError, ht.noError] at herror
    · split at hsettled
      · rename_i hextreme
        refine ⟨(Option.some.inj hsettled).symm, ?_⟩
        rcases Bool.or_eq_true_iff.mp hextreme with hmixed | hnever
        · rw [of_decide_eq_true hmixed]
          exact (Certain.mixed hunknown').contained
        · rw [of_decide_eq_true hnever]
          exact (Certain.never hunknown).contained
      · simp [hunknown, hunknown'] at hsettled

theorem ne_of_open (hopen : settled? a t = none) : a ≠ t ∧ a ≠ .mixed ∧ t ≠ .never := by
  unfold settled? at hopen
  split at hopen
  · cases hopen
  · rename_i hne
    split at hopen
    · cases hopen
    · split at hopen
      · cases hopen
      · rename_i hextreme
        simp only [Bool.or_eq_true, decide_eq_true_eq, not_or] at hextreme
        exact ⟨hne, hextreme⟩

section Sound

variable {terms : Terms} (hasks : ∀ s t, terms.asks s t)
  (hyes : ∀ s t, terms.replies s t .yes -> Contained h s t)
include hasks hyes

theorem meets_simple (hsimple : t.isSimple = true) :
    (simple h strict a t).Meets terms fun r => r = .yes -> Receives h options strict a t := by
  unfold simple
  split
  · rename_i heq
    subst heq
    exact fun hcall => .contained (contained_callable hsimple hcall)
  · split
    · rename_i answer hanswer
      rintro rfl
      exact .converted hanswer
    · exact (Subtype.meets_isContained_yes (hasks _ _) hyes).imp
        fun r hr hr' => .contained (hr hr')

/-- If the answers `yes` on containment are right, acceptance answers `yes` by the rules
only. -/
theorem meets_accepts (ha : a.IsValid h) (ht : t.IsValid h) :
    (accepts h options strict a t).Meets terms
      fun r => r = .yes -> Receives h options strict a t := by
  induction a, t using accepts_induction with
  | settled a t answer hsettled =>
      rw [accepts_settled hsettled]
      exact fun _ => .contained (settled?_eq_yes ha ht hsettled).2
  | values a flavor members hopen ih =>
      have hmembers := fun m hm => ih m hm ha (ht.alternative hm).1
      rw [accepts_union_value hopen]
      split
      · rename_i hone
        refine (meets_any hmembers).imp fun r hr hr' => ?_
        obtain ⟨m, hm, hreceives⟩ := hr hr'
        exact .some_value hone hm hreceives
      · exact (meets_all hmembers).imp fun r hr hr' => .all_values (hr hr')
  | mixed a hopen =>
      rw [accepts_mixed_value hopen]
      simp
  | union t flavor members hflat hmixed hopen ih =>
      rw [accepts_union hflat hmixed hopen]
      refine (meets_any fun m hm => ih m hm (ha.alternative hm).1 ht).imp fun r hr hr' => ?_
      obtain ⟨m, hm, hreceives⟩ := hr hr'
      exact .union hflat hmixed hm hreceives
  | inter t members hflat hmixed hopen ih =>
      rw [accepts_inter hflat hmixed hopen]
      exact (meets_all fun m hm => ih m hm (ha.member hm).1 ht).imp
        fun r hr hr' => .inter hflat hmixed (hr hr')
  | parts a members hsimple hopen ih =>
      rw [accepts_inter_value hsimple hopen]
      refine (meets_any fun m hm => ih m hm ha (ht.member hm).1).bind fun byMember hmember => ?_
      have hpart : byMember = .yes -> Receives h options strict a (.inter members) := by
        intro hmember'
        obtain ⟨m, hm, hreceives⟩ := hmember hmember'
        exact .value_inter hsimple hm hreceives
      split
      · exact fun _ => hpart ‹_›
      · refine (Subtype.meets_isContained_yes (hasks _ _) hyes).bind fun r hr hor => ?_
        rcases Tristate.or_eq_yes_iff.mp hor with hmember' | hcontained
        · exact hpart hmember'
        · exact .contained (hr hcontained)
  | simple a t hsimple hsimple' hmixed hopen =>
      rw [accepts_simple hsimple hsimple' hmixed hopen]
      exact meets_simple hasks hyes hsimple'

end Sound

/-!
# Acceptance is certain wherever the rules apply
-/

theorem value_any_eq_yes {α : Type} {question : α -> Inquiry Tristate} {items : List α} :
    (any question items).value (exact h) = .yes ↔
      ∃ a ∈ items, (question a).value (exact h) = .yes := by
  rw [value_any, Tristate.any_eq_yes_iff, List.mem_map]

theorem value_all_eq_yes {α : Type} {question : α -> Inquiry Tristate} {items : List α} :
    (all question items).value (exact h) = .yes ↔
      ∀ a ∈ items, (question a).value (exact h) = .yes := by
  rw [value_all, Tristate.all_eq_yes_iff, List.forall_mem_map]

/-- What is contained is accepted. -/
theorem value_accepts_of_contained (hfinal : h.LeavesClosureFinal) (ha : a.IsValid h)
    (ht : t.IsValid h) (hta : Contained h t a) :
    (accepts h options strict a t).value (exact h) = .yes := by
  induction a, t using accepts_induction with
  | settled a t answer hsettled =>
      rw [accepts_settled hsettled]
      exact (settled?_eq_yes ha ht hsettled).1
  | values a flavor members hopen ih =>
      have hmembers : ∀ m ∈ members, (accepts h options strict a m).value (exact h) = .yes :=
        fun m hm => ih m hm ha (ht.alternative hm).1
          ((ht.alternative hm).1.trans hfinal (ht.alternative_contained hm) hta)
      rw [accepts_union_value hopen]
      split
      · obtain ⟨m, hm⟩ := ht.exists_alternative
        exact value_any_eq_yes.mpr ⟨m, hm, hmembers m hm⟩
      · exact value_all_eq_yes.mpr hmembers
  | mixed a hopen => exact absurd (Subtype.eq_mixed_of_contained hta) (ne_of_open hopen).2.1
  | union t flavor members hflat hmixed hopen ih =>
      have hordinary := ht.isOrdinary hmixed (ne_of_open hopen).2.2
      obtain ⟨m, hm, htm⟩ := Intersection.exists_alternative hordinary hflat hta
      rw [accepts_union hflat hmixed hopen]
      exact value_any_eq_yes.mpr ⟨m, hm, ih m hm (ha.alternative hm).1 ht htm⟩
  | inter t members hflat hmixed hopen ih =>
      have hordinary := ht.isOrdinary hmixed (ne_of_open hopen).2.2
      have hcertain := (contained_iff.mp hta).resolve_left (ne_of_open hopen).1.symm
      rw [accepts_inter hflat hmixed hopen]
      exact value_all_eq_yes.mpr fun m hm => ih m hm (ha.member hm).1 ht
        (hcertain.all_of_inter_target hordinary hflat m hm)
  | parts a members hsimple hopen ih =>
      rw [accepts_inter_value hsimple hopen, value_bind]
      split
      · rfl
      · rw [value_bind, Subtype.value_isContained, show exact h _ _ = .yes from hta]
        simp
  | simple a t hsimple hsimple' hmixed hopen =>
      rcases ne_of_open hopen with ⟨hne, hmixed', hnever⟩
      have hcertain := (contained_iff.mp hta).resolve_left hne.symm
      have hordinary := ht.isOrdinary hmixed hnever
      have hordinary' := hcertain.isOrdinary_target hnever hmixed'
      have hfits : Fits h (Contained h) t a := by
        rcases hcertain.cases_of_simple_target hordinary (Ty.unionMembers?_of_isSimple hsimple')
          hordinary' hsimple with ⟨members, rfl, -⟩ | hfits
        · cases hsimple'
        · exact hfits
      rw [accepts_simple hsimple hsimple' hmixed hopen]
      unfold simple
      split
      · rename_i heq
        exact callability_of_fits (heq ▸ hfits)
      · rw [conversion?_of_fits hfits]
        exact hta

theorem value_accepts_of_receives (hfinal : h.LeavesClosureFinal) (ha : a.IsValid h)
    (ht : t.IsValid h) (hreceives : Receives h options strict a t) :
    (accepts h options strict a t).value (exact h) = .yes := by
  induction a, t using accepts_induction with
  | settled a t answer hsettled =>
      rw [accepts_settled hsettled]
      exact (settled?_eq_yes ha ht hsettled).1
  | values a flavor members hopen ih =>
      have hmember := fun m hm => ih m hm ha (ht.alternative hm).1
      cases hreceives with
      | contained hta => exact value_accepts_of_contained hfinal ha ht hta
      | converted hanswer => cases (conversion?_value hanswer).1
      | all_values hall =>
          rw [accepts_union_value hopen]
          split
          · obtain ⟨m, hm⟩ := ht.exists_alternative
            exact value_any_eq_yes.mpr ⟨m, hm, hmember m hm (hall m hm)⟩
          · exact value_all_eq_yes.mpr fun m hm => hmember m hm (hall m hm)
      | some_value hone hm hreceives =>
          rw [accepts_union_value hopen, if_pos hone]
          exact value_any_eq_yes.mpr ⟨_, hm, hmember _ hm hreceives⟩
      | union hflat => cases hflat
      | inter hflat => cases hflat
  | mixed a hopen =>
      cases hreceives with
      | contained hta => exact value_accepts_of_contained hfinal ha ht hta
      | converted hanswer => exact absurd rfl (conversion?_value hanswer).2
      | union _ hmixed => exact absurd rfl hmixed
      | inter _ hmixed => exact absurd rfl hmixed
  | union t flavor members hflat hmixed hopen ih =>
      cases hreceives with
      | contained hta => exact value_accepts_of_contained hfinal ha ht hta
      | converted hanswer =>
          obtain ⟨k, hk, -, -⟩ := conversion?_acceptor hanswer
          cases hk
      | all_values => cases hflat
      | some_value => cases hflat
      | union _ _ hm hreceives =>
          rw [accepts_union hflat hmixed hopen]
          exact value_any_eq_yes.mpr ⟨_, hm, ih _ hm (ha.alternative hm).1 ht hreceives⟩
      | value_inter hsimple => cases hsimple
  | inter t members hflat hmixed hopen ih =>
      cases hreceives with
      | contained hta => exact value_accepts_of_contained hfinal ha ht hta
      | converted hanswer =>
          obtain ⟨k, hk, -, -⟩ := conversion?_acceptor hanswer
          cases hk
      | all_values => cases hflat
      | some_value => cases hflat
      | inter _ _ hall =>
          rw [accepts_inter hflat hmixed hopen]
          exact value_all_eq_yes.mpr fun m hm => ih m hm (ha.member hm).1 ht (hall m hm)
      | value_inter hsimple => cases hsimple
  | parts a members hsimple hopen ih =>
      cases hreceives with
      | contained hta => exact value_accepts_of_contained hfinal ha ht hta
      | converted hanswer => cases (conversion?_value hanswer).1
      | union => cases hsimple
      | inter => cases hsimple
      | value_inter _ hm hreceives =>
          have hany := value_any_eq_yes.mpr ⟨_, hm, ih _ hm ha (ht.member hm).1 hreceives⟩
          rw [accepts_inter_value hsimple hopen, value_bind, hany, if_pos rfl, value_pure]
  | simple a t hsimple hsimple' hmixed hopen =>
      cases hreceives with
      | contained hta => exact value_accepts_of_contained hfinal ha ht hta
      | converted hanswer =>
          obtain ⟨k, rfl, -, hcallable⟩ := conversion?_acceptor hanswer
          rw [accepts_simple hsimple hsimple' hmixed hopen]
          unfold simple
          rw [if_neg (fun heq => hcallable (Ty.keyword.inj heq)), hanswer, value_pure]
      | all_values => cases hsimple'
      | some_value => cases hsimple'
      | union => cases hsimple
      | inter => cases hsimple
      | value_inter => cases hsimple'

/-- Under the relation without limits acceptance answers `yes` exactly by the rules. -/
theorem value_accepts_eq_yes_iff (hfinal : h.LeavesClosureFinal) (ha : a.IsValid h)
    (ht : t.IsValid h) :
    (accepts h options strict a t).value (exact h) = .yes ↔ Receives h options strict a t := by
  refine ⟨?_, value_accepts_of_receives hfinal ha ht⟩
  have hmeets : (accepts h options strict a t).Meets (.free (Session.exactly h))
      fun r => r = .yes -> Receives h options strict a t :=
    meets_accepts (fun _ _ => trivial) (fun s t (hr : _ = exact h s t) => hr.symm) ha ht
  exact hmeets.value fun _ _ _ => rfl

/-!
# Wider acceptors and narrower values
-/

/-- A type that is not taken apart as a union is below an alternative of a union above it. -/
theorem exists_alternative_above (ha : a.IsValid h) (hmixed : a ≠ .mixed)
    (hflat : a.unionMembers? = none) (hb : (Ty.union flavor members).IsValid h)
    (hab : Contained h a (.union flavor members)) : ∃ m ∈ members, Contained h a m := by
  by_cases hnever : a = .never
  · subst hnever
    obtain ⟨m, hm⟩ := hb.exists_alternative
    exact ⟨m, hm, (Certain.never (hb.alternative hm).1.formed.isUnknown).contained⟩
  · exact Intersection.exists_alternative (ha.isOrdinary hmixed hnever) hflat hab

/-- An acceptor that is above another one accepts a value if its parts above that one do. -/
theorem receives_of_parts (ha : a.IsValid h) (hmixed : a ≠ .mixed) (hflat : a.unionMembers? = none)
    (hb : b.IsValid h) (hsflat : s.unionMembers? = none) (hsmixed : s ≠ .mixed)
    (hab : Contained h a b)
    (hparts : ∀ m ∈ b.children, m.IsValid h -> Contained h a m -> Receives h options strict m s)
    (hself : b = a -> Receives h options strict b s)
    (hsimple : b.isSimple = true -> Receives h options strict b s) :
    Receives h options strict b s := by
  rcases Ty.union_or_inter_or_simple b with ⟨flavor, members, rfl⟩ | ⟨members, rfl⟩ | hsimple'
  · obtain ⟨m, hm, ham⟩ := exists_alternative_above ha hmixed hflat hb hab
    exact .union hsflat hsmixed hm (hparts m hm (hb.alternative hm).1 ham)
  · rcases contained_iff.mp hab with heq | hcertain
    · exact hself heq.symm
    · refine .inter hsflat hsmixed fun m hm => hparts m hm (hb.member hm).1 ?_
      by_cases hnever : a = .never
      · exact hnever ▸ (Certain.never (hb.member hm).1.formed.isUnknown).contained
      · exact hcertain.all_of_inter_target (ha.isOrdinary hmixed hnever) hflat m hm
  · exact hsimple hsimple'

/-- No union in a type is accepted if only one of its members is. -/
def NeedsAll (options : Options) (t : Ty) : Prop :=
  t.Everywhere fun u => ∀ flavor members, u = .union flavor members ->
    needsOne options flavor = false

/-- Certain acceptance goes on for wider acceptors and narrower values of a smaller total size. -/
def PersistsBelow (h : Hierarchy) (options : Options) (strict : Bool) (n : Nat) : Prop :=
  ∀ a b s t : Ty, a.size + b.size + s.size + t.size < n -> a.IsValid h -> b.IsValid h ->
    s.IsValid h -> t.IsValid h -> NeedsAll options t -> Receives h options strict a t ->
    Contained h a b -> Contained h s t -> Receives h options strict b s

/-- Only `mixed` and that keyword are above a keyword and not taken apart. -/
theorem eq_of_keyword_contained {k : Keyword} (hordinary : (Ty.keyword k).isOrdinary = true)
    (hsimple : b.isSimple = true) (hmixed : b ≠ .mixed) (hab : Contained h (.keyword k) b) :
    b = .keyword k := by
  rcases contained_iff.mp hab with heq | hcertain
  · exact heq.symm
  · have hnever : Ty.keyword k ≠ .never := by
      intro heq
      rw [heq] at hordinary
      cases hordinary
    rcases hcertain.cases_of_simple_target hordinary rfl (hcertain.isOrdinary_target hnever hmixed)
      hsimple with ⟨members, heq, -⟩ | hfits
    · cases heq
    · cases hfits
      rfl

section Persists

variable (hbelow : PersistsBelow h options strict (a.size + b.size + s.size + t.size))
  (ha : a.IsValid h) (hb : b.IsValid h) (hs : s.IsValid h) (ht : t.IsValid h)
  (hneeds : NeedsAll options t) (hreceives : Receives h options strict a t)
  (hab : Contained h a b) (hst : Contained h s t)
  (hsflat : s.unionMembers? = none) (hsmixed : s ≠ .mixed) (hsnever : s ≠ .never)
include hbelow ha hb hs ht hneeds hreceives hab hst hsflat hsmixed

/-- It is enough to look at acceptors that are not taken apart, and at the first one itself. -/
theorem persists_of_simple (hmixed : a ≠ .mixed) (hflat : a.unionMembers? = none)
    (hself : b = a -> Receives h options strict b s)
    (hsimple : b.isSimple = true -> b ≠ .mixed -> Receives h options strict b s) :
    Receives h options strict b s := by
  by_cases hbmixed : b = .mixed
  · subst hbmixed
    exact .contained (Certain.mixed hs.formed.isUnknown).contained
  · refine receives_of_parts ha hmixed hflat hb hsflat hsmixed hab (fun u hu hu' hau => ?_) hself
      fun hb' => hsimple hb' hbmixed
    have hsize := Ty.size_lt_of_mem_children hu
    exact hbelow a u s t (by omega) ha hu' hs ht hneeds hreceives hau hst

theorem persists_inter (heq : a = .inter members)
    (hall : ∀ m ∈ members, Receives h options strict m t) : Receives h options strict b s := by
  subst heq
  have hlt : ∀ m ∈ members, m.size < (Ty.inter members).size := fun m hm =>
    Ty.size_lt_of_mem_children (t := .inter members) hm
  refine persists_of_simple hbelow ha hb hs ht hneeds hreceives hab hst hsflat hsmixed (by simp) rfl
    (fun hself => ?_) fun hsimple hmixed => ?_
  · subst hself
    refine .inter hsflat hsmixed fun m hm => ?_
    have hsize := hlt m hm
    have hm' := (ha.member hm).1
    exact hbelow m m s t (by omega) hm' hm' hs ht hneeds (hall m hm) (.refl m) hst
  · rcases contained_iff.mp hab with rfl | hcertain
    · cases hsimple
    · rcases hcertain.cases_of_simple_target Subtype.isOrdinary_inter rfl
        (hcertain.isOrdinary_target (by simp) hmixed) hsimple with ⟨others, heq, m, hm, hmb⟩ | hfits
      · cases heq
        have hsize := hlt m hm
        exact hbelow m b s t (by omega) (ha.member hm).1 hb hs ht hneeds (hall m hm) hmb hst
      · cases hfits

include hsnever

theorem persists_value_inter (hmixed : a ≠ .mixed) (hsimple : a.isSimple = true)
    (heq : t = .inter members) (hm : m ∈ members) (hpart : Receives h options strict a m) :
    Receives h options strict b s := by
  subst heq
  have hsize := Ty.size_lt_of_mem_children (t := .inter members) hm
  have hm' := (ht.member hm).1
  have hb' : b.isSimple = true -> Receives h options strict b s := by
    intro hbsimple
    rcases contained_iff.mp hst with rfl | hcertain
    · refine .value_inter hbsimple hm ?_
      exact hbelow a b m m (by omega) ha hb hm' hm' (hneeds.inside hm) hpart hab (.refl m)
    · have hsm := hcertain.all_of_inter_target (hs.isOrdinary hsmixed hsnever) hsflat m hm
      exact hbelow a b s m (by omega) ha hb hs hm' (hneeds.inside hm) hpart hab hsm
  refine persists_of_simple hbelow ha hb hs ht hneeds hreceives hab hst hsflat hsmixed hmixed
    (Ty.unionMembers?_of_isSimple hsimple) (fun hself => ?_) fun hbsimple _ => hb' hbsimple
  exact hb' (hself ▸ hsimple)

theorem persists_converted (hanswer : conversion? strict a t = some .yes) :
    Receives h options strict b s := by
  obtain ⟨k, rfl, hordinary, -⟩ := conversion?_acceptor hanswer
  have hmixed : Ty.keyword k ≠ .mixed := by
    intro heq
    rw [heq] at hordinary
    cases hordinary
  have htsimple := Ty.isSimple_of_isScalar (conversion?_value hanswer).1
  have hself : Receives h options strict (.keyword k) s := by
    rcases contained_iff.mp hst with rfl | hcertain
    · exact .converted hanswer
    · rcases hcertain.cases_of_simple_target (hs.isOrdinary hsmixed hsnever) hsflat
        (hcertain.isOrdinary_target hsnever (conversion?_value hanswer).2) htsimple with
        ⟨members, rfl, m, hm, hmt⟩ | hfits
      · have hsize := Ty.size_lt_of_mem_children (t := .inter members) hm
        have hbsize := b.size_pos
        have hasize : (Ty.keyword k).size = 1 := rfl
        refine .value_inter rfl hm ?_
        exact hbelow (.keyword k) (.keyword k) m t (by omega) ha ha (hs.member hm).1 ht hneeds
          (.converted hanswer) (.refl _) hmt
      · exact .converted (conversion?_narrow hfits hanswer)
  refine persists_of_simple hbelow ha hb hs ht hneeds hreceives hab hst hsflat hsmixed hmixed rfl
    (fun heq => heq ▸ hself) fun hsimple hbmixed => ?_
  rw [eq_of_keyword_contained hordinary hsimple hbmixed hab]
  exact hself

end Persists

theorem persistsBelow (hfinal : h.LeavesClosureFinal) (n : Nat) :
    PersistsBelow h options strict n := by
  induction n with
  | zero =>
      intro a b s t hsize
      exact absurd hsize (Nat.not_lt_zero _)
  | succ n ih =>
      intro a b s t hsize ha hb hs ht hneeds hreceives hab hst
      have hbelow : PersistsBelow h options strict (a.size + b.size + s.size + t.size) :=
        fun a' b' s' t' hlt => ih a' b' s' t' (by omega)
      by_cases hsflat : s.unionMembers? = none
      · by_cases hsnever : s = .never
        · subst hsnever
          exact .contained (Certain.never hb.formed.isUnknown).contained
        by_cases hta : Contained h t a
        · exact .contained (hs.trans hfinal hst (ht.trans hfinal hta hab))
        have hamixed : a ≠ .mixed := by
          rintro rfl
          exact hta (Certain.mixed ht.formed.isUnknown).contained
        have hsmixed : t ≠ .mixed -> s ≠ .mixed := by
          rintro htmixed rfl
          exact htmixed (Subtype.eq_mixed_of_contained hst)
        cases hreceives with
        | contained hcontained => exact absurd hcontained hta
        | converted hanswer =>
            exact persists_converted hbelow ha hb hs ht hneeds (.converted hanswer) hab hst hsflat
              (hsmixed (conversion?_value hanswer).2) hsnever hanswer
        | all_values hall =>
            rename_i flavor members
            obtain ⟨u, hu, hsu⟩ := exists_alternative_above hs (hsmixed (by simp)) hsflat ht hst
            have hlt := Ty.size_lt_of_mem_children (t := .union flavor members) hu
            exact hbelow a b s u (by omega) ha hb hs (ht.alternative hu).1 (hneeds.inside hu)
              (hall u hu) hab hsu
        | some_value hone => simp [hneeds.here _ _ rfl] at hone
        | union htflat htmixed hm hpart =>
            rename_i m flavor members
            have hlt := Ty.size_lt_of_mem_children (t := .union flavor members) hm
            have hm' := (ha.alternative hm).1
            exact hbelow m b s t (by omega) hm' hb hs ht hneeds hpart
              (hm'.trans hfinal (ha.alternative_contained hm) hab) hst
        | inter htflat htmixed hall =>
            exact persists_inter hbelow ha hb hs ht hneeds (.inter htflat htmixed hall) hab hst
              hsflat (hsmixed htmixed) rfl hall
        | value_inter hsimple hm hpart =>
            exact persists_value_inter hbelow ha hb hs ht hneeds (.value_inter hsimple hm hpart) hab
              hst hsflat (hsmixed (by simp)) hsnever hamixed hsimple rfl hm hpart
      · cases s with
        | union flavor members =>
            refine .all_values fun m hm => ?_
            have hlt := Ty.size_lt_of_mem_children (t := .union flavor members) hm
            have hm' := (hs.alternative hm).1
            exact hbelow a b m t (by omega) ha hb hm' ht hneeds hreceives hab
              (hm'.trans hfinal (hs.alternative_contained hm) hst)
        | _ => exact absurd rfl hsflat

/-- What is certainly accepted is so by a wider acceptor, and if the value is narrowed. -/
theorem Receives.of_contained (hfinal : h.LeavesClosureFinal) (ha : a.IsValid h) (hb : b.IsValid h)
    (hs : s.IsValid h) (ht : t.IsValid h) (hneeds : NeedsAll options t)
    (hreceives : Receives h options strict a t) (hab : Contained h a b) (hst : Contained h s t) :
    Receives h options strict b s :=
  persistsBelow hfinal _ a b s t (Nat.lt_succ_self _) ha hb hs ht hneeds hreceives hab hst

end Acceptance
end GradualTypes
