import GradualTypes.Proofs.Approximation
import GradualTypes.Proofs.Checkers
import GradualTypes.Proofs.Storage

/-!
# Sessions beyond the depth limit

In every session the answer to a question approximates the exact one, even where the limit
is met, as long as the intersections on the way agree.  Arrays inside one another show that
the condition is needed: they can be so high that of two members of an intersection only
the excluded one is known.
-/

namespace GradualTypes

open Inquiry

/-- Terms with which only certain questions are asked. -/
def Terms.asking (P : Ty -> Ty -> Prop) : Terms :=
  ⟨P, fun _ _ _ => True, fun _ => True, True⟩

namespace Session

open GradualTypes.Subtype (exact IsClear)

variable {h : Hierarchy} {options : Options} {σ : Session} {s t : Ty}

/-- With any number of steps left and in any truthful session, a clear question gets an
approximation of the exact answer. -/
theorem answer_approximates {n : Nat} (hσ : σ.IsTruthful) (hclear : IsClear σ.hierarchy s t) :
    (Session.answer n s t σ).1.Approximates (exact σ.hierarchy s t) := by
  induction n generalizing s t σ with
  | zero =>
      unfold Session.answer
      split
      · rename_i heq
        rw [heq, Subtype.exact_self]
        exact .refl _
      · split
        · rename_i r hr
          exact Or.inr (hσ s t r hr)
        · exact Or.inl rfl
  | succ n ih =>
      unfold Session.answer
      split
      · rename_i heq
        rw [heq, Subtype.exact_self]
        exact .refl _
      · rename_i hne
        split
        · rename_i r hr
          exact Or.inr (hσ s t r hr)
        · rw [Subtype.exact_of_ne hne]
          refine run_meets (isReliable_answer n) hσ
            (Subtype.isSteady_check hclear.permits hclear.agreesOn) ?_
          intro a b τ hasks hτ hhierarchy
          show Tristate.Approximates _ (exact σ.hierarchy a b)
          rw [← hhierarchy]
          exact ih hτ (by rw [hhierarchy]; exact hasks)

end Session

/-!
# Nested arrays
-/

/-- Arrays of a type inside one another. -/
def Ty.nest : Nat -> Ty -> Ty
  | 0, t => t
  | n + 1, t => .array .int (nest n t)

theorem Ty.nest_inj {n : Nat} {s t : Ty} (hnest : nest n s = nest n t) : s = t := by
  induction n with
  | zero => exact hnest
  | succ n ih => exact ih (array.inj hnest).2

theorem Ty.everywhere_nest {P : Ty -> Prop} {t : Ty} (ht : Everywhere P t) (hint : P .int)
    (harray : ∀ t, P (.array .int t)) (n : Nat) : Everywhere P (nest n t) := by
  induction n with
  | zero => exact ht
  | succ n ih =>
      apply Everywhere.intro (harray _)
      rw [children, List.forall_mem_cons, List.forall_mem_singleton]
      exact ⟨.leaf hint rfl, ih⟩

namespace Subtype

variable {h : Hierarchy} {s t : Ty}

theorem check_array_int (h : Hierarchy) (s t : Ty) :
    check h (.array .int s) (.array .int t) = inArray (.array .int s) .int t := rfl

theorem exact_nest (h : Hierarchy) (s t : Ty) (n : Nat) :
    exact h (Ty.nest n s) (Ty.nest n t) = exact h s t := by
  induction n with
  | zero => rfl
  | succ n ih =>
      show exact h (.array .int (Ty.nest n s)) (.array .int (Ty.nest n t)) = _
      rw [← ih, exact_eq]
      split
      · rename_i heq
        rw [(Ty.array.inj heq).2, exact_self]
      · rw [check_array_int]
        simp [inArray, exact_self]

end Subtype

namespace Session

open GradualTypes.Subtype (exact check Agrees)

variable {h : Hierarchy} {options : Options} {σ : Session} {s t : Ty}

/-- The step for two arrays with the same keys compares what is in them. -/
theorem run_check_array (n : Nat) (s t : Ty) (σ : Session) :
    run (Session.answer n) (check h (.array .int s) (.array .int t)) σ =
      Session.answer n s t σ := by
  have hself : Session.answer n .int .int σ = (.yes, σ) := by
    cases n <;> simp [Session.answer]
  rw [Subtype.check_array_int]
  show run (Session.answer n) (_ : Inquiry Tristate) (Session.answer n .int .int σ).2 = _
  rw [hself]
  show (Tristate.and .yes (Session.answer n s t σ).1, _) = _
  rw [Tristate.yes_and]

/-- A session that does not remember a comparison of arrays compares what is in them. -/
theorem answer_array {n : Nat} (hne : s ≠ t)
    (hnew : σ.remembered? (.array .int s) (.array .int t) = none) :
    (Session.answer (n + 1) (.array .int s) (.array .int t) σ).1 = (Session.answer n s t σ).1 := by
  simp only [Session.answer]
  rw [if_neg (by simpa using hne), hnew, run_check_array]

theorem answer_nest {k n : Nat} (hne : s ≠ t)
    (hnew : ∀ i, σ.remembered? (.array .int (Ty.nest i s)) (.array .int (Ty.nest i t)) = none) :
    (Session.answer (k + n) (Ty.nest n s) (Ty.nest n t) σ).1 = (Session.answer k s t σ).1 := by
  induction n with
  | zero => rfl
  | succ n ih =>
      rw [← ih]
      exact answer_array (mt Ty.nest_inj hne) (hnew n)

/-- Where the limit is met and the session does not remember a comparison, it is left open. -/
theorem answer_unknown (hne : s ≠ t) (hnew : σ.remembered? s t = none) :
    Session.answer 0 s t σ = (.maybe, { σ with limited := true }) := by
  simp [Session.answer, hne, hnew]

theorem answer_nest_unknown {n : Nat} (hne : s ≠ t) (hnew : σ.remembered? s t = none)
    (hnew' : ∀ i, σ.remembered? (.array .int (Ty.nest i s)) (.array .int (Ty.nest i t)) = none) :
    Session.answer n (Ty.nest n s) (Ty.nest n t) σ = (.maybe, { σ with limited := true }) := by
  induction n with
  | zero => exact answer_unknown hne hnew
  | succ n ih =>
      have hne' : Ty.array .int (Ty.nest n s) ≠ .array .int (Ty.nest n t) :=
        fun heq => hne (Ty.nest_inj (Ty.array.inj heq).2)
      show Session.answer (n + 1) (.array .int (Ty.nest n s)) (.array .int (Ty.nest n t)) σ = _
      simp only [Session.answer]
      rw [if_neg hne', hnew' n, run_check_array, ih]
      rfl

/-- Whether or not the limit is met, an answer `yes` is exact.  If the intersections in the
two types agree, the only answer that is not exact is `maybe`. -/
theorem Reachable.isSubtype_approximates (hσ : Reachable h options σ) :
    ((σ.perform (isSubtype s t)).1 = .yes -> exact h s t = .yes) ∧
      (Agrees h s t -> (σ.perform (isSubtype s t)).1.Approximates (exact h s t)) := by
  constructor
  · exact hσ.contained
  · intro hagrees
    rcases hσ.kept with ⟨htruthful, rfl, -⟩
    show (Session.answer relationDepth s t { σ with limited := false }).1.Approximates _
    exact answer_approximates (σ := { σ with limited := false }) htruthful (Or.inr hagrees)

/-- Arrays of an integer and of integers, higher than the limit. -/
theorem isSubtype_approximates_nested :
    ((new .empty .default).perform (isSubtype (Ty.nest 120 (.literal (.int 1)))
      (Ty.nest 120 .int))).1.Approximates .yes := by
  have hexact : exact .empty (Ty.nest 120 (.literal (.int 1))) (Ty.nest 120 .int) = .yes := by
    rw [Subtype.exact_nest]
    decide
  rw [← hexact]
  apply Reachable.new.isSubtype_approximates.2
  have hsimple : ∀ t : Ty, t.isSimple = true -> t.children = [] ->
      Ty.Everywhere (fun u => u.isSimple = true) (Ty.nest 120 t) := by
    intro t ht hleaf
    exact Ty.everywhere_nest (P := fun u => u.isSimple = true) (.intro ht (by simp [hleaf])) rfl
      (fun _ => rfl) 120
  exact Subtype.agrees_of_simple (hsimple _ rfl rfl) (hsimple _ rfl rfl)

/-!
# What a session can remember
-/

/-- The session remembers answers to certain questions only. -/
def Recalls (P : Ty -> Ty -> Prop) (σ : Session) : Prop :=
  ∀ s t r, σ.remembered? s t = some r -> P s t

theorem Recalls.not_remembered {P : Ty -> Ty -> Prop} (hσ : Recalls P σ) (hask : ¬ P s t) :
    σ.remembered? s t = none := by
  cases hr : σ.remembered? s t with
  | none => rfl
  | some r => exact absurd (hσ s t r hr) hask

/-- On the way from such a question only such questions are asked. -/
def IsClosed (P : Ty -> Ty -> Prop) : Prop :=
  ∀ h s t, P s t -> (check h s t).Meets (.asking P) fun _ => True

theorem perform_isSubtype (σ : Session) (s t : Ty) :
    σ.perform (isSubtype s t) = Session.answer relationDepth s t { σ with limited := false } := rfl

theorem run_bind {α β : Type} (answer : Ty -> Ty -> Session -> Tristate × Session)
    (q : Inquiry α) (f : α -> Inquiry β) (σ : Session) :
    run answer (q >>= f) σ = run answer (f (run answer q σ).1) (run answer q σ).2 := by
  show run answer (q.bind f) σ = _
  induction q generalizing σ with
  | done a => rfl
  | ask s t next ih => exact ih _ _
  | announce t next ih => exact ih () _
  | announceText s next ih => exact ih () _
  | restart next ih => exact ih () _

theorem run_isContained (answer : Ty -> Ty -> Session -> Tristate × Session) (s t : Ty)
    (σ : Session) : run answer (isContained s t) σ = answer s t σ := rfl

variable {P : Ty -> Ty -> Prop}

theorem run_recalls {answer : Ty -> Ty -> Session -> Tristate × Session}
    (hanswer : ∀ s t σ, P s t -> Recalls P σ -> Recalls P (answer s t σ).2) {α : Type}
    {q : Inquiry α} (hq : q.Meets (.asking P) fun _ => True) (hσ : Recalls P σ) :
    Recalls P (run answer q σ).2 := by
  induction q generalizing σ with
  | done a => exact hσ
  | ask s t next ih => exact ih _ (hq.2 _ trivial) (hanswer s t σ hq.1 hσ)
  | announce t next ih => exact ih () (σ := { σ with types := σ.types.enter t }) hq.2 hσ
  | announceText s next ih => exact ih () (σ := { σ with texts := σ.texts.enter s }) hq hσ
  | restart next ih => exact ih () (σ := { σ with limited := false }) hq.2 hσ

/-- If each step asks such questions only, so does a whole series. -/
theorem answer_recalls (hP : IsClosed P)
    (n : Nat) (hask : P s t) (hσ : Recalls P σ) : Recalls P (Session.answer n s t σ).2 := by
  induction n generalizing s t σ with
  | zero =>
      unfold Session.answer
      split
      · exact hσ
      · split
        · exact hσ
        · exact hσ
  | succ n ih =>
      unfold Session.answer
      split
      · exact hσ
      · split
        · exact hσ
        · have hrun := run_recalls (fun a b τ => ih) (hP σ.hierarchy s t hask) hσ
          intro a b r hr
          dsimp only at hr
          unfold Session.settle at hr
          split at hr
          · exact hrun a b r hr
          · rw [remembered?_remember] at hr
            split at hr
            · rename_i heq
              rcases Prod.mk.inj heq with ⟨rfl, rfl⟩
              exact hask
            · exact hrun a b r hr

/-- A run that has made some types, after which the session remembers answers to certain
questions only. -/
def RunRecalls (h : Hierarchy) (options : Options) (P : Ty -> Ty -> Prop) (ts : List Ty) : Prop :=
  ∃ σ, Run h options (fun _ _ => True) σ ts ∧ σ.limited = false ∧ Recalls P σ

theorem runRecalls_new (h : Hierarchy) (options : Options) (P : Ty -> Ty -> Prop) :
    RunRecalls h options P [] :=
  ⟨new h options, .new, rfl, by intro s t r hr; simp [remembered?, new] at hr⟩

theorem RunRecalls.call {ts : List Ty}
    (hP : IsClosed P)
    (hrun : RunRecalls h options P ts) (c : Call) (harguments : ∀ t ∈ c.arguments, t ∈ ts)
    (hasks : (c.inquiry options).Meets (.asking P) fun _ => True)
    (hlight : isLight h (c.inquiry options) = true) :
    RunRecalls h options P ((c.inquiry options).value (exact h) :: ts) := by
  rcases hrun with ⟨σ, hrun, hlimited, hrecalls⟩
  have hkept := hrun.reachable.kept
  rcases hkept with ⟨htruthful, rfl, -⟩
  have hwithin : Within (answer relationDepth) (c.inquiry options) σ :=
    within_of_asked htruthful hlimited (isLight_iff.mp hlight)
  have hvalue := run_eq_value (isReliable_answer relationDepth) htruthful hwithin
  refine ⟨(σ.perform (c.inquiry options)).2, ?_, limited_of_within hwithin hlimited,
    run_recalls (fun _ _ _ => answer_recalls hP relationDepth) hasks hrecalls⟩
  rw [← hvalue]
  exact hrun.call c harguments trivial

theorem RunRecalls.calls {calls : List Call} {ts results : List Ty} (hP : IsClosed P)
    (hrun : RunRecalls h options P ts)
    (hasks : ∀ c ∈ calls, (c.inquiry options).Meets (.asking P) fun _ => True)
    (hresults : Call.results? h options ts calls = some results) :
    RunRecalls h options P results := by
  induction calls generalizing ts with
  | nil =>
      cases hresults
      exact hrun
  | cons c rest ih =>
      rw [List.forall_mem_cons] at hasks
      rcases Call.results?_cons.mp hresults with ⟨harguments, hlight, hrest⟩
      exact ih (hrun.call hP c harguments hasks.1 hlight) hasks.2 hrest

theorem RunRecalls.array {ts : List Ty} {u : Ty}
    (hP : IsClosed P)
    (hrun : RunRecalls h options P ts) (hint : .int ∈ ts) (hu : u ∈ ts) (herror : u ≠ .error) :
    RunRecalls h options P (.array .int u :: ts) := by
  have hmade : (Call.array .int u).inquiry options = built (.array .int u) :=
    if_neg (by simpa using herror)
  have hcall := hrun.call hP (.array .int u)
  rw [hmade] at hcall
  exact hcall (by simp [Call.arguments, hint, hu]) ⟨trivial, trivial⟩ rfl

theorem RunRecalls.nest {ts : List Ty} {u : Ty}
    (hP : IsClosed P)
    (hrun : RunRecalls h options P ts) (hint : .int ∈ ts) (hu : u ∈ ts) (herror : u ≠ .error)
    (n : Nat) : ∃ us, (∀ t ∈ ts, t ∈ us) ∧ Ty.nest n u ∈ us ∧ RunRecalls h options P us := by
  induction n with
  | zero => exact ⟨ts, fun _ => id, hu, hrun⟩
  | succ n ih =>
      obtain ⟨us, hsubset, hmem, hrun'⟩ := ih
      have hne : Ty.nest n u ≠ .error := by
        cases n with
        | zero => exact herror
        | succ n => simp [Ty.nest]
      exact ⟨_, fun t ht => List.mem_cons_of_mem _ (hsubset t ht), List.mem_cons_self,
        hrun'.array hP (hsubset _ hint) hmem hne⟩

/-- The only questions on the way to comparing nested arrays of `callable` and a text. -/
inductive AsksText : Ty -> Ty -> Prop where
  | callable_string : AsksText .callable .string
  | callable_text (s : String) : AsksText .callable (.literal (.text s))
  | text_callable (s : String) : AsksText (.literal (.text s)) .callable

theorem isClosed_asksText : IsClosed AsksText := by
  intro h s t hask
  cases hask <;> exact trivial

/-- Whether `callable` and a text share a value is found out by such questions. -/
theorem meets_reduce_text (s : String) :
    (Intersection.reduce [.callable, .literal (.text s)]).Meets (.asking AsksText)
      fun _ => True := by
  rw [Intersection.reduce_pair, meets_bind, meets_fresh]
  refine ⟨trivial, ?_⟩
  have hmeet : (Intersection.meet .callable (.literal (.text s))).Meets (.asking AsksText)
      fun _ => True := by
    refine (Subtype.meets_isContained_any (AsksText.callable_text s)).bind fun there _ => ?_
    split
    · trivial
    · refine (Subtype.meets_isContained_any (AsksText.text_callable s)).bind fun back _ => ?_
      split
      · trivial
      · split <;> trivial
  refine Meets.bind hmeet fun meeting _ => ?_
  cases meeting <;> trivial

/-- The intersection of `callable` and a text. -/
def callableText : Ty :=
  .inter [.callable, .literal (.text "foo")]

theorem runRecalls_callableText :
    RunRecalls .empty .default AsksText
      [callableText, .literal (.text "foo"), .callable, .string, .int] := by
  let calls : List Call := [.keyword .int, .keyword .string, .keyword .callable, .text "foo"]
  let parts : List Ty := [.literal (.text "foo"), .callable, .string, .int]
  have hresults : Call.results? .empty .default [] calls = some parts := by decide +kernel
  have hprepare : Intersection.prepare [.callable, .literal (.text "foo")] =
      .inr [.callable, .literal (.text "foo")] := by decide +kernel
  have hreduce : (Call.inter [.callable, .literal (.text "foo")]).inquiry .default =
      Intersection.reduce [.callable, .literal (.text "foo")] :=
    Intersection.of_compared (by simp) (by simp) hprepare rfl
  have hinter : Call.results? .empty .default parts [.inter [.callable, .literal (.text "foo")]] =
      some (callableText :: parts) := by
    rw [Call.results?, hreduce, Intersection.reduce_pair]
    decide +kernel
  have hasks : ∀ c ∈ calls, (c.inquiry .default).Meets (.asking AsksText) fun _ => True := by
    simp only [calls, List.forall_mem_cons]
    exact ⟨trivial, trivial, trivial, ⟨trivial, trivial⟩, by simp⟩
  have hnew := (runRecalls_new .empty .default AsksText).calls isClosed_asksText hasks hresults
  refine hnew.calls isClosed_asksText ?_ hinter
  rw [List.forall_mem_singleton, hreduce]
  exact meets_reduce_text "foo"

/-- Where only the answer about `callable` is remembered and no step is left, the
intersection is excluded like `callable`. -/
theorem answer_callableText (hknown : σ.remembered? .callable .string = some .no)
    (hrecalls : Recalls AsksText σ) : (Session.answer 1 callableText .string σ).1 = .no := by
  have hinter : σ.remembered? callableText .string = none :=
    hrecalls.not_remembered (by rintro ⟨⟩)
  have htext : σ.remembered? (.literal (.text "foo")) .string = none :=
    hrecalls.not_remembered (by rintro ⟨⟩)
  have hfirst : Session.answer 0 .callable .string σ = (.no, σ) := by
    simp [Session.answer, hknown]
  have hsecond : Session.answer 0 (.literal (.text "foo")) .string σ =
      (.maybe, { σ with limited := true }) := answer_unknown (by decide) htext
  have hstep : (run (Session.answer 0) (check σ.hierarchy callableText .string) σ).1 = .no := by
    rw [callableText, Subtype.check_inter_left rfl rfl, decisive, decisiveFrom, run_bind,
      run_isContained, hfirst]
    show (run (Session.answer 0) (isContained _ _ >>= _) σ).1 = _
    rw [run_bind, run_isContained, hsecond]
    rfl
  simp only [Session.answer]
  rw [if_neg (by decide), hinter]
  exact hstep

/-- The exact answer to a light question is remembered, and nothing else that matters. -/
theorem Reachable.asked (hσ : Reachable h options σ) (hP : IsClosed P) (hask : P s t) (hne : s ≠ t)
    (hweight : Subtype.weight s t ≤ relationDepth) (hrecalls : Recalls P σ) :
    Recalls P (σ.perform (isSubtype s t)).2 ∧
      (σ.perform (isSubtype s t)).2.remembered? s t = some (exact h s t) := by
  rcases hσ.kept with ⟨htruthful, rfl, -⟩
  rw [perform_isSubtype]
  constructor
  · exact answer_recalls hP relationDepth hask (σ := { σ with limited := false }) hrecalls
  · rw [remembered?_answer hne (answer_not_limited hweight rfl),
      answer_eq_exact (σ := { σ with limited := false }) htruthful hweight]

/-- The intersection of `callable` and a text is contained in `string`, since the text is.
Among arrays at the limit only `callable` is known, which is excluded from `string`, and
then the answer is `no`. -/
theorem exceeds_nested :
    ∃ σ ts, Run .empty .default (fun _ _ => True) σ ts ∧
      Ty.nest 99 callableText ∈ ts ∧ Ty.nest 99 .string ∈ ts ∧
      (σ.perform (isSubtype (Ty.nest 99 callableText) (Ty.nest 99 .string))).1 = .no ∧
      exact .empty (Ty.nest 99 callableText) (Ty.nest 99 .string) = .yes := by
  have hP := isClosed_asksText
  obtain ⟨ts, hkept, hboth, hrun⟩ := runRecalls_callableText.nest hP (u := callableText)
    (by simp) (by simp) (by simp [callableText]) 99
  obtain ⟨us, hkept', hstring, σ, hrun, -, hrecalls⟩ := hrun.nest hP (u := .string)
    (hkept _ (by simp)) (hkept _ (by simp)) (by simp) 99
  rcases hrun.reachable.asked hP .callable_string (by decide) (by decide) hrecalls with
    ⟨hrecalls', hknown⟩
  rw [show exact .empty .callable .string = .no by decide] at hknown
  refine ⟨_, us, hrun.ask .callable .string, hkept' _ hboth, hstring, ?_, ?_⟩
  · generalize (σ.perform (isSubtype .callable .string)).2 = σ' at hrecalls' hknown
    have hdepth : relationDepth = 1 + 99 := rfl
    rw [perform_isSubtype, hdepth, answer_nest (by decide)]
    · exact answer_callableText hknown hrecalls'
    · -- no comparison of arrays is among the questions that were asked
      intro i
      apply hrecalls'.not_remembered
      rintro ⟨⟩
  · rw [Subtype.exact_nest]
    decide

end Session
end GradualTypes
