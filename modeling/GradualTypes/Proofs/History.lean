import GradualTypes.Proofs.DepthLimit
import GradualTypes.Proofs.Distributivity
import GradualTypes.Proofs.Expressions

/-!
# Constructor expressions in sessions

What has been built and asked before may change the type of an expression in two ways.  Beyond
the depth limit an answer may be left open, unless the session has met a question on the way
before.  And the order in which members are compared may be that of handles, which tell which
type came first; the result may show this order.

Within the limit, an expression has the same type in every session in which members are put in
the same order.  If it is free of an order, it has the same type in all sessions.
-/

namespace GradualTypes

open Inquiry
open GradualTypes.Subtype (exact check)

namespace Session

variable {α : Type} {h : Hierarchy} {options : Options} {σ : Session}

/-!
# Questions that were met before
-/

/-- One after another, questions get the answers of a relation, whether or not the limit has been
met on the way. -/
def Gives (relation : Ty -> Ty -> Tristate) : List (Ty × Ty) -> Session -> Prop
  | [], _ => True
  | (s, t) :: rest, σ => ∀ τ : Session, τ.answers = σ.answers ->
      (answer relationDepth s t τ).1 = relation s t ∧
        Gives relation rest (answer relationDepth s t τ).2

theorem Gives.congr {relation : Ty -> Ty -> Tristate} {asks : List (Ty × Ty)} {τ : Session}
    (hσ : Gives relation asks σ) (hsame : τ.answers = σ.answers) : Gives relation asks τ := by
  cases asks with
  | nil => trivial
  | cons ask rest => exact fun τ' hτ' => hσ τ' (hτ'.trans hsame)

/-- The answers that a session gives lead to the result of an inquiry. -/
theorem Gives.perform {relation : Ty -> Ty -> Tristate} {q : Inquiry α}
    (hσ : Gives relation (asked relation q) σ) : (σ.perform q).1 = q.value relation := by
  unfold Session.perform
  induction q generalizing σ with
  | done a => rfl
  | ask s t next ih =>
      rcases hσ σ rfl with ⟨hanswer, hrest⟩
      rw [← hanswer] at hrest
      have hnext := ih _ hrest
      rw [hanswer] at hnext
      simpa only [run, Inquiry.value, hanswer] using hnext
  | announce t next ih => exact ih () (σ := { σ with types := σ.types.enter t }) (hσ.congr rfl)
  | announceText s next ih => exact ih () (σ := { σ with texts := σ.texts.enter s }) (hσ.congr rfl)
  | restart next ih => exact ih () (σ := { σ with limited := false }) (hσ.congr rfl)

/-- Arrays of an integer, as high as the limit. -/
def narrowArray : Ty :=
  .nest relationDepth (.literal (.int 1))

/-- Arrays of integers, as high as the limit. -/
def wideArray : Ty :=
  .nest relationDepth .int

/-- An expression of arrays inside one another. -/
def nestExpr : Nat -> Expr -> Expr
  | 0, e => e
  | n + 1, e => .array (.leaf (.keyword .int) rfl (by simp)) (nestExpr n e)

/-- The union of the two array types. -/
def unionOfArrays : Expr :=
  .union [nestExpr relationDepth (.leaf (.int 1) rfl (by simp)),
    nestExpr relationDepth (.leaf (.keyword .int) rfl (by simp))]

/-- Only whether the wide type contains the narrow one is known, if anything is. -/
def knownTo (r : Tristate) (s t : Ty) : Tristate :=
  if s = narrowArray ∧ t = wideArray then r else .maybe

/-- The question that is met at the limit. -/
def AsksInteger (s t : Ty) : Prop :=
  s = .literal (.int 1) ∧ t = .int

theorem isClosed_asksInteger : IsClosed AsksInteger := by
  rintro h s t ⟨rfl, rfl⟩
  exact trivial

theorem answer_zero {s t : Ty} (hne : s ≠ t) (σ : Session) :
    (answer 0 s t σ).1 = (σ.remembered? s t).getD .maybe := by
  cases hr : σ.remembered? s t <;> simp [Session.answer, hne, hr]

/-- What the session knows of an integer and of integers decides about the arrays. -/
theorem perform_unionOfArrays {r : Tristate}
    (hasked : asked (knownTo r) (unionOfArrays.eval (Call.inquiry options)) =
      [(wideArray, narrowArray), (narrowArray, wideArray)])
    (hrecalls : Recalls AsksInteger σ)
    (hknown : (σ.remembered? (.literal (.int 1)) .int).getD .maybe = r) :
    (σ.perform (unionOfArrays.eval (Call.inquiry options))).1 =
      (unionOfArrays.eval (Call.inquiry options)).value (knownTo r) := by
  have hkept : ∀ {τ : Session}, τ.answers = σ.answers ->
      Recalls AsksInteger τ ∧ (τ.remembered? (.literal (.int 1)) .int).getD .maybe = r := by
    intro τ hτ
    have hsame : τ.remembered? = σ.remembered? := by
      funext s t
      rw [remembered?, remembered?, hτ]
    rw [Recalls, hsame]
    exact ⟨hrecalls, hknown⟩
  have hbelow : ∀ {τ : Session}, τ.answers = σ.answers ->
      (answer relationDepth narrowArray wideArray τ).1 = r := by
    intro τ hτ
    rw [← (hkept hτ).2, ← answer_zero (by decide)]
    refine answer_nest (k := 0) (n := relationDepth) (by decide) fun i => ?_
    exact (hkept hτ).1.not_remembered (by rintro ⟨⟨⟩, -⟩)
  have habove : ∀ {τ : Session}, τ.answers = σ.answers ->
      answer relationDepth wideArray narrowArray τ = (.maybe, { τ with limited := true }) := by
    intro τ hτ
    refine answer_nest_unknown (by decide) ?_ fun i => ?_
    · exact (hkept hτ).1.not_remembered (by rintro ⟨⟨⟩, -⟩)
    · exact (hkept hτ).1.not_remembered (by rintro ⟨⟨⟩, -⟩)
  have hdiffer : knownTo r wideArray narrowArray = .maybe := if_neg (by decide_cbv)
  apply Gives.perform
  rw [hasked]
  intro τ hτ
  rw [habove hτ]
  refine ⟨hdiffer.symm, fun τ' hτ' => ⟨?_, trivial⟩⟩
  rw [hbelow (hτ'.trans hτ)]
  exact (if_pos ⟨rfl, rfl⟩).symm

/-- The narrow type is absorbed in a session that has been asked about the two types in the
arrays, and not in a new one. -/
theorem unionOfArrays_differs :
    ((new .empty .default).perform (unionOfArrays.eval (Call.inquiry .default))).1 =
        .union .plain [wideArray, narrowArray] ∧
      ∃ σ ts, Run .empty .default (fun _ _ => True) σ ts ∧
        (σ.perform (unionOfArrays.eval (Call.inquiry .default))).1 = wideArray := by
  constructor
  · rw [perform_unionOfArrays (r := .maybe) (by decide +kernel)
      (by simp [Recalls, remembered?, new]) (by simp [remembered?, new])]
    decide +kernel
  · have hresults : Call.results? .empty .default [] [.keyword .int, .int 1] =
        some [.literal (.int 1), .int] := by decide_cbv
    have hasks : ∀ c ∈ [Call.keyword .int, Call.int 1],
        (c.inquiry .default).Meets (.asking AsksInteger) fun _ => True := by
      simp only [List.forall_mem_cons]
      exact ⟨trivial, ⟨trivial, trivial⟩, by simp⟩
    obtain ⟨σ, hrun, -, hrecalls⟩ := (runRecalls_new .empty .default AsksInteger).calls
      isClosed_asksInteger hasks hresults
    have hasked := hrun.reachable.asked isClosed_asksInteger (s := .literal (.int 1)) (t := .int)
      ⟨rfl, rfl⟩ (by decide) (by decide) hrecalls
    refine ⟨_, _, hrun.ask (.literal (.int 1)) .int, ?_⟩
    rw [perform_unionOfArrays (r := .yes) (by decide +kernel) hasked.1 (by rw [hasked.2]; decide)]
    decide +kernel

/-!
# Members that are compared in another order
-/

/-- A call on types that are constructed within the limit, whose result in a new session is
another one if members are put in order backwards. -/
structure FollowsOrder (h : Hierarchy) (options : Options) (c : Call) : Prop where
  constructed : ∀ t ∈ c.arguments, ConstructedWithin h options t
  differs : ((new h options).perform (c.inquiryBy .byCode options)).1 ≠
    ((new h options).perform (c.inquiryBy .backwards options)).1

theorem followsOrder_of_calls {calls : List Call} {given : List Ty} {c : Call} {r s : Ty}
    (hcalls : ∀ c ∈ calls, c ≠ .placeholder)
    (hgiven : Call.results? h options [] calls = some given)
    (hmem : ∀ t ∈ c.arguments, t ∈ given) (hr : LeadsTo h (c.inquiryBy .byCode options) r)
    (hs : LeadsTo h (c.inquiryBy .backwards options) s) (hne : r ≠ s) :
    FollowsOrder h options c where
  constructed := fun t ht => ConstructedWithin.of_calls hcalls hgiven t (hmem t ht)
  differs := by rwa [hr.perform, hs.perform]

/-- A shape with two keys in this order. -/
def pairOf (k l : String) (s t : Ty) : Ty :=
  .shape [⟨.text k, s, false⟩, ⟨.text l, t, false⟩]

/-- An array with texts as keys and one number as its values. -/
def itemsOf (n : Int) : Ty :=
  .array .string (.literal (.int n))

/-- The types of the calls below that have the default limits. -/
def operands : List Ty :=
  let one := Ty.literal (.int 1)
  let two := Ty.literal (.int 2)
  let first := pairOf "a" "b" one one
  let second := pairOf "b" "a" two two
  [.union .plain [first, itemsOf 2], .union .plain [second, itemsOf 1], itemsOf 2, itemsOf 1,
    first, second, two, one, .union .benevolent [.int, .string],
    .union .plain [.int, .string, .null], .null, .shape [], .array .string .int, .array .int .int,
    .string, pairOf "a" "b" .int .int, pairOf "b" "a" .int .int, .int]

theorem exists_operands : ∃ calls, (∀ c ∈ calls, c ≠ Call.placeholder) ∧
    Call.results? .empty .default [] calls = some operands := by
  let one := Ty.literal (.int 1)
  let two := Ty.literal (.int 2)
  let first := pairOf "a" "b" one one
  let second := pairOf "b" "a" two two
  let calls : List Call := [.keyword .int,
    .shape [⟨.text "b", .int, false⟩, ⟨.text "a", .int, false⟩],
    .shape [⟨.text "a", .int, false⟩, ⟨.text "b", .int, false⟩], .keyword .string,
    .array .int .int, .array .string .int, .shape [], .keyword .null,
    .union [.int, .string, .null], .benevolent [.int, .string], .int 1, .int 2,
    .shape [⟨.text "b", two, false⟩, ⟨.text "a", two, false⟩],
    .shape [⟨.text "a", one, false⟩, ⟨.text "b", one, false⟩], .array .string one,
    .array .string two, .union [second, itemsOf 1], .union [first, itemsOf 2]]
  have hresults : Call.results? .empty .default [] calls = some operands := by decide_cbv
  exact ⟨calls, by simp [calls], hresults⟩

/-- Two shapes with the same entries contain each other, and the keys of a merged shape come in
the order of the first one. -/
theorem followsOrder_unions :
    FollowsOrder .empty .default (.union [pairOf "a" "b" .int .int, pairOf "b" "a" .int .int]) ∧
      FollowsOrder .empty .default
        (.union [pairOf "a" "b" (.literal (.int 1)) (.literal (.int 1)),
          pairOf "b" "a" (.literal (.int 2)) (.literal (.int 2))]) := by
  rcases exists_operands with ⟨calls, hcalls, hgiven⟩
  let both := Ty.union .plain [.literal (.int 1), .literal (.int 2)]
  constructor
  · exact followsOrder_of_calls (r := pairOf "b" "a" .int .int) (s := pairOf "a" "b" .int .int)
      hcalls hgiven (by decide) ⟨by decide_cbv, by decide_cbv⟩
      ⟨by decide_cbv, by decide_cbv⟩ (by decide)
  · exact followsOrder_of_calls (r := pairOf "a" "b" both both) (s := pairOf "b" "a" both both)
      hcalls hgiven (by decide) ⟨by decide_cbv, by decide_cbv⟩
      ⟨by decide_cbv, by decide_cbv⟩ (by decide)

/-- So it is with what is shared.  Two shapes with the same entries contain each other.  Two array
types share the empty shape with no third value, so they are found to be apart, unless the empty
shape has taken the place of one of them.  The union that is distributed first gives the
intersection its flavor.  And pieces of two unions may be shapes with the same keys, whose keys
come in the order of the first one. -/
theorem followsOrder_intersections :
    let one := pairOf "a" "b" (.literal (.int 1)) (.literal (.int 1))
    let two := pairOf "b" "a" (.literal (.int 2)) (.literal (.int 2))
    FollowsOrder .empty .default (.inter [pairOf "a" "b" .int .int, pairOf "b" "a" .int .int]) ∧
      FollowsOrder .empty .default (.inter [.shape [], .array .string .int, .array .int .int]) ∧
      FollowsOrder .empty .default (.inter [.union .benevolent [.int, .string],
        .union .plain [.int, .string, .null]]) ∧
      FollowsOrder .empty .default
        (.inter [.union .plain [one, itemsOf 2], .union .plain [two, itemsOf 1]]) := by
  intro one two
  rcases exists_operands with ⟨calls, hcalls, hgiven⟩
  let both := Ty.union .plain [.literal (.int 1), .literal (.int 2)]
  refine ⟨?entries, ?apart, ?flavor, ?pieces⟩
  case entries =>
    exact followsOrder_of_calls (r := pairOf "a" "b" .int .int) (s := pairOf "b" "a" .int .int)
      hcalls hgiven (by decide) (by constructor <;> cbv) (by constructor <;> cbv) (by decide)
  case apart =>
    exact followsOrder_of_calls (r := .never) (s := .shape []) hcalls hgiven (by decide)
      (by constructor <;> cbv) (by constructor <;> cbv) (by decide)
  case flavor =>
    exact followsOrder_of_calls (r := .union .plain [.int, .string])
      (s := .union .benevolent [.int, .string]) hcalls hgiven (by decide)
      (by constructor <;> cbv) (by constructor <;> cbv) (by decide)
  case pieces =>
    exact followsOrder_of_calls (r := pairOf "a" "b" both both) (s := pairOf "b" "a" both both)
      hcalls hgiven (by decide) (by constructor <;> cbv) (by constructor <;> cbv) (by decide)

/-- Options can set narrow limits.  Only the first shapes are merged if the budget does not last.
Unions that are too many to be distributed contain each other.  And an alternative that was not
distributed can be distributed if another union was before. -/
theorem followsOrder_limits :
    let entry (n : Int) : Ty := .shape [⟨.text "x", .literal (.int n), false⟩]
    let first := Ty.union .plain [.int, .string]
    let second := Ty.union .plain [.string, .bool, .null]
    FollowsOrder .empty { Options.default with maxUnionShapeMerge := 2 }
        (.union [entry 1, entry 2, entry 3]) ∧
      FollowsOrder .empty { Options.default with maxIntersectionDistribution := 1 }
        (.inter [first, .union .benevolent [.int, .string]]) ∧
      FollowsOrder .empty { Options.default with maxIntersectionDistribution := 5 }
        (.inter [first, .union .plain [.inter [first, second], .float]]) := by
  intro entry first second
  refine ⟨?budget, ?limit, ?undistributed⟩
  case budget =>
    let options : Options := { Options.default with maxUnionShapeMerge := 2 }
    let merged (m n : Int) : Ty :=
      .shape [⟨.text "x", .union .plain [.literal (.int m), .literal (.int n)], false⟩]
    have hgiven : Call.results? .empty options [] [.int 1, .int 2, .int 3,
        .shape [⟨.text "x", .literal (.int 3), false⟩],
        .shape [⟨.text "x", .literal (.int 2), false⟩],
        .shape [⟨.text "x", .literal (.int 1), false⟩]] =
          some [entry 1, entry 2, entry 3, .literal (.int 3), .literal (.int 2),
            .literal (.int 1)] := by decide_cbv
    exact followsOrder_of_calls (r := .union .plain [entry 3, merged 1 2])
      (s := .union .plain [entry 1, merged 2 3])
        (by simp) hgiven (by decide_cbv) ⟨by decide_cbv, by decide_cbv⟩
        ⟨by decide_cbv, by decide_cbv⟩ (by decide_cbv)
  case limit =>
    let options : Options := { Options.default with maxIntersectionDistribution := 1 }
    have hgiven : Call.results? .empty options [] [.keyword .int, .keyword .string,
        .benevolent [.int, .string], .union [.int, .string]] =
          some [first, .union .benevolent [.int, .string], .string, .int] := by
      decide_cbv
    exact followsOrder_of_calls (r := first) (s := .union .benevolent [.int, .string])
      (by simp) hgiven (by decide_cbv)
      (by constructor <;> cbv) (by constructor <;> cbv) (by decide_cbv)
  case undistributed =>
    let options : Options := { Options.default with maxIntersectionDistribution := 5 }
    have hgiven : Call.results? .empty options [] [.keyword .int, .keyword .string,
        .keyword .bool, .keyword .null, .keyword .float, .union [.string, .bool, .null],
        .union [.int, .string], .inter [first, second],
        .union [.inter [first, second], .float]] =
          some [.union .plain [.inter [first, second], .float], .inter [first, second], first,
            second, .float, .null, .bool, .string, .int] := by
      cbv
    exact followsOrder_of_calls (r := .string) (s := .inter [first, second])
      (by simp) hgiven (by decide_cbv)
      (by constructor <;> cbv) (by constructor <;> cbv) (by decide_cbv)

/-- A class below the class of closures is not below `callable`, which may have taken the place
of the class of closures. -/
theorem followsOrder_closure :
    let h : Hierarchy := ⟨[Declaration.of "Sub" .plainClass ["Closure"] false false []]⟩
    FollowsOrder h .default (.union [.object "Sub" [], .object "Closure" [], .callable]) := by
  intro h
  let sub := Ty.object "Sub" []
  let closure := Ty.object "Closure" []
  have hgiven : Call.results? h .default [] [.keyword .callable, .object "Closure" [],
      .object "Sub" []] = some [sub, closure, .callable] := by decide_cbv
  exact followsOrder_of_calls (r := .union .plain [sub, .callable]) (s := .callable) (by simp)
    hgiven (by decide +kernel) ⟨by decide +kernel, by decide +kernel⟩
    ⟨by decide +kernel, by decide +kernel⟩ (by decide +kernel)

/-- The ways in which it makes a difference what a session has met before.  A comparison that was
followed to its end before the limit is met; and the order of members, if they contain each other,
list the same keys in different orders, are more shapes than are merged, are apart only in
part, are unions of different flavors, unions with pieces of the same keys, too many unions, or
have an alternative that was not distributed, or if a class extends the class of closures. -/
theorem type_depends_on_history :
    let one := Ty.literal (.int 1)
    let two := Ty.literal (.int 2)
    let entry (n : Int) : Ty := .shape [⟨.text "x", .literal (.int n), false⟩]
    let items (n : Int) : Ty := .array .string (.literal (.int n))
    let first := Ty.union .plain [.int, .string]
    let second := Ty.union .plain [.string, .bool, .null]
    let h : Hierarchy := ⟨[Declaration.of "Sub" .plainClass ["Closure"] false false []]⟩
    (∃ σ ts, Run .empty .default (fun _ _ => True) σ ts ∧
        (σ.perform (unionOfArrays.eval (Call.inquiry .default))).1 ≠
          ((new .empty .default).perform (unionOfArrays.eval (Call.inquiry .default))).1) ∧
      FollowsOrder .empty .default (.union [pairOf "a" "b" .int .int, pairOf "b" "a" .int .int]) ∧
      FollowsOrder .empty .default (.inter [pairOf "a" "b" .int .int, pairOf "b" "a" .int .int]) ∧
      FollowsOrder .empty .default (.union [pairOf "a" "b" one one, pairOf "b" "a" two two]) ∧
      FollowsOrder .empty { Options.default with maxUnionShapeMerge := 2 }
        (.union [entry 1, entry 2, entry 3]) ∧
      FollowsOrder .empty .default (.inter [.shape [], .array .string .int, .array .int .int]) ∧
      FollowsOrder .empty .default (.inter [.union .benevolent [.int, .string],
        .union .plain [.int, .string, .null]]) ∧
      FollowsOrder .empty .default (.inter [.union .plain [pairOf "a" "b" one one, items 2],
        .union .plain [pairOf "b" "a" two two, items 1]]) ∧
      FollowsOrder .empty { Options.default with maxIntersectionDistribution := 1 }
        (.inter [.union .plain [.int, .string], .union .benevolent [.int, .string]]) ∧
      FollowsOrder .empty { Options.default with maxIntersectionDistribution := 5 }
        (.inter [first, .union .plain [.inter [first, second], .float]]) ∧
      FollowsOrder h .default (.union [.object "Sub" [], .object "Closure" [], .callable]) := by
  obtain ⟨hnew, σ, ts, hrun, hwarm⟩ := unionOfArrays_differs
  obtain ⟨hentries, happart, hflavor, hpieces⟩ := followsOrder_intersections
  obtain ⟨hbudget, hlimit, hundistributed⟩ := followsOrder_limits
  refine ⟨⟨σ, ts, hrun, ?_⟩, followsOrder_unions.1, hentries, followsOrder_unions.2, hbudget,
    happart, hflavor, hpieces, hlimit, hundistributed, followsOrder_closure⟩
  rw [hnew, hwarm]
  simp [wideArray, relationDepth, Ty.nest]

/-!
# Types that do not depend on what came before
-/

variable {options₁ options₂ : Options} {σ₁ σ₂ : Session} {a b : Arrangement} {e : Expr}

/-- An expression has the same type in all sessions over a hierarchy, whatever has been built and
asked there before, unless a question meets the limit.  If they do not put members in the same
order, the expression has to be free of an order. -/
theorem type_independent_of_history (hσ₁ : Reachable h options₁ σ₁) (hσ₂ : Reachable h options₂ σ₂)
    (horder : a = b ∨ h.LeavesClosureFinal ∧ e.IsOrderFree h options)
    (hwithin₁ : σ₁.Within (answer relationDepth) (e.eval (Call.inquiryBy a options)))
    (hwithin₂ : σ₂.Within (answer relationDepth) (e.eval (Call.inquiryBy b options))) :
    (σ₁.perform (e.eval (Call.inquiryBy a options))).1 =
      (σ₂.perform (e.eval (Call.inquiryBy b options))).1 := by
  rw [hσ₁.value_of_within hwithin₁, hσ₂.value_of_within hwithin₂]
  rcases horder with rfl | ⟨hfinal, hfree⟩
  · rfl
  · rw [e.value_eval a hfinal hfree, e.value_eval b hfinal hfree]

/-- An interval that is what two others share, and shapes that are merged, in a new session and
backwards in one that has been asked about them. -/
theorem type_independent_of_history_intervals :
    let between (lo hi : Int) : Expr := .leaf (.range ⟨some lo, some hi⟩) rfl (by simp)
    let entry (n : Int) : Expr := .shape [⟨.text "x", .leaf (.int n) rfl (by simp), false⟩]
    let e : Expr := .union [.inter [between 0 4, between 2 9], between 5 6, entry 1, entry 2]
    let σ := ((new .empty .default).perform (isSubtype (.range ⟨some 2, some 4⟩)
      (.range ⟨some 0, some 4⟩))).2
    ((new .empty .default).perform (e.eval (Call.inquiryBy .byCode .default))).1 =
      (σ.perform (e.eval (Call.inquiryBy .backwards .default))).1 := by
  intro between entry e σ
  have hlight : ∀ a ∈ [Arrangement.byCode, .backwards],
      isLight .empty (e.eval (Call.inquiryBy a .default)) = true := by
    rw [List.forall_mem_cons, List.forall_mem_singleton]
    constructor <;> cbv
  have hσ : Reachable .empty .default σ ∧ σ.limited = false :=
    ⟨Reachable.new.perform _, (Reachable.new.perform_light rfl (by decide_cbv)).2.2⟩
  refine type_independent_of_history .new hσ.1 (Or.inr ⟨Hierarchy.isLawful_empty.closure, ?_⟩)
    (Reachable.new.perform_light rfl (hlight _ (by simp))).1
    (hσ.1.perform_light hσ.2 (hlight _ (by simp))).1
  have hshared : (Call.inter [.range ⟨some 0, some 4⟩, .range ⟨some 2, some 9⟩]).IsOrderFree
      .empty .default := by
    intro _ kept hprepare
    have hkept : kept = [.range ⟨some 0, some 4⟩, .range ⟨some 2, some 9⟩] := by
      refine (Sum.inr.inj (Eq.trans ?_ hprepare)).symm
      decide_cbv
    subst hkept
    exact Intersection.distributesFreely_of_simple (by decide) (by decide_cbv) (by decide)
  have htypes : [.inter [between 0 4, between 2 9], between 5 6, entry 1, entry 2].map
      (Expr.typeOf .empty .default) =
        [.range ⟨some 2, some 4⟩, .range ⟨some 5, some 6⟩,
          .shape [⟨.text "x", .literal (.int 1), false⟩],
          .shape [⟨.text "x", .literal (.int 2), false⟩]] := by cbv
  refine ⟨⟨⟨⟨trivial, trivial, trivial⟩, hshared⟩, trivial, ⟨trivial, trivial⟩, ⟨trivial, trivial⟩,
    trivial⟩, ?_⟩
  rw [htypes]
  show Union.JoinsFreely .empty .default _
  decide_cbv

end Session
end GradualTypes
