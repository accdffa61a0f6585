import GradualTypes.Proofs.Construction
import GradualTypes.Proofs.Tables

/-!
# What a session stores

A session forgets no type, and it stores each type that is announced to it.  If the
questions of an inquiry stay within the limit, these are the types announced on the
way that exact answers lead.
-/

namespace GradualTypes

namespace Session

open Inquiry
open GradualTypes.Subtype (exact)

variable {α : Type} {σ σ' : Session}

/-- A session that has added some types to those that another one stores. -/
structure Retains (σ σ' : Session) : Prop where
  consistent : σ.types.IsConsistent -> σ'.types.IsConsistent
  added : ∃ added, σ'.types.items.toList = σ.types.items.toList ++ added

theorem Retains.types (h : Retains σ σ') : ∀ t ∈ σ.types.items, t ∈ σ'.types.items := by
  rcases h.added with ⟨added, hadded⟩
  intro t ht
  rw [← Array.mem_toList_iff, hadded]
  exact List.mem_append_left _ (Array.mem_toList_iff.mpr ht)

/-- A session with the same types. -/
theorem Retains.of_eq (htypes : σ'.types = σ.types) : Retains σ σ' :=
  ⟨fun h => htypes ▸ h, [], by rw [htypes, List.append_nil]⟩

theorem Retains.refl (σ : Session) : Retains σ σ :=
  .of_eq rfl

theorem Retains.trans {σ'' : Session} (hfirst : Retains σ σ') (hsecond : Retains σ' σ'') :
    Retains σ σ'' := by
  rcases hfirst.added with ⟨added, hadded⟩
  rcases hsecond.added with ⟨added', hadded'⟩
  exact ⟨fun h => hsecond.consistent (hfirst.consistent h), added ++ added',
    by rw [hadded', hadded, List.append_assoc]⟩

theorem Retains.enter (σ : Session) (t : Ty) :
    Retains σ { σ with types := σ.types.enter t } := by
  refine ⟨fun h => h.enter t, ?_⟩
  cases hnumber : σ.types.number? t with
  | some n => exact ⟨[], by simp [Numbering.enter_eq_self hnumber]⟩
  | none => exact ⟨[t], by simp [Numbering.items_enter hnumber]⟩

theorem run_retains {answer : Ty -> Ty -> Session -> Tristate × Session}
    (hanswer : ∀ s t σ, Retains σ (answer s t σ).2) (q : Inquiry α) (σ : Session) :
    Retains σ (run answer q σ).2 := by
  induction q generalizing σ with
  | done a => exact .refl σ
  | ask s t next ih => exact (hanswer s t σ).trans (ih _ _)
  | announce t next ih => exact (Retains.enter σ t).trans (ih () _)
  | announceText s next ih =>
      have hsame : Retains σ { σ with texts := σ.texts.enter s } := .of_eq rfl
      exact hsame.trans (ih () _)
  | restart next ih =>
      have hsame : Retains σ { σ with limited := false } := .of_eq rfl
      exact hsame.trans (ih () _)

theorem answer_retains (n : Nat) (s t : Ty) (σ : Session) : Retains σ (answer n s t σ).2 := by
  induction n generalizing s t σ with
  | zero =>
      unfold answer
      split
      · exact .refl σ
      · split
        · exact .refl σ
        · exact .of_eq rfl
  | succ n ih =>
      unfold answer
      split
      · exact .refl σ
      · split
        · exact .refl σ
        · refine (run_retains ih (Subtype.check σ.hierarchy s t) σ).trans (.of_eq ?_)
          dsimp only
          unfold settle
          split <;> rfl

theorem Reachable.consistent {h : Hierarchy} {options : Options} (hσ : Reachable h options σ) :
    σ.types.IsConsistent := by
  induction hσ with
  | new => exact Numbering.isConsistent_empty
  | perform q _ ih => exact (run_retains (answer_retains relationDepth) q _).consistent ih
  | resume limited _ ih => exact ih

/-- The types that an inquiry announces if a relation answers its questions. -/
def announced (relation : Ty -> Ty -> Tristate) : Inquiry α -> List Ty
  | .done _ => []
  | .ask s t next => announced relation (next (relation s t))
  | .announce t next => t :: announced relation (next ())
  | .announceText _ next => announced relation (next ())
  | .restart next => announced relation (next ())

theorem mem_types_of_announced (hσ : σ.IsTruthful) (hconsistent : σ.types.IsConsistent) {q : Inquiry α}
    (hwithin : Within (answer relationDepth) q σ) {t : Ty}
    (ht : t ∈ announced (exact σ.hierarchy) q) : t ∈ (σ.perform q).2.types.items := by
  have hretains := run_retains (α := α) (answer_retains relationDepth)
  show t ∈ (run (answer relationDepth) q σ).2.types.items
  induction q generalizing σ with
  | done a => cases ht
  | ask s u next ih =>
      have hanswered := isReliable_answer relationDepth s u σ hσ
      apply ih _ (hanswered.follows.truthful hσ)
        ((answer_retains relationDepth s u σ).consistent hconsistent) hwithin.2
      rw [hanswered.exact hwithin.1, hanswered.follows.hierarchy]
      exact ht
  | announce u next ih =>
      rcases List.mem_cons.mp ht with rfl | ht
      · exact (hretains (next ()) _).types _ (hconsistent.mem_items_enter_self t)
      · exact ih () (σ := { σ with types := σ.types.enter u }) hσ (hconsistent.enter u) hwithin ht
  | announceText s next ih =>
      exact ih () (σ := { σ with texts := σ.texts.enter s }) hσ hconsistent hwithin ht
  | restart next ih => exact ih () (σ := { σ with limited := false }) hσ hconsistent hwithin ht

end Session

section Calls

variable {h : Hierarchy} {options : Options} {allowed : Session -> Call -> Prop} {σ : Session}
  {ts : List Ty}

/-- A run can be continued by a call of light questions, whose result and whose
announcements are those that exact answers lead to. -/
theorem Run.exists_call (hrun : Run h options allowed σ ts) (hlimited : σ.limited = false)
    (c : Call) (harguments : ∀ t ∈ c.arguments, t ∈ ts)
    (hasked : ∀ pair ∈ Session.asked (Subtype.exact h) (c.inquiry options),
      Subtype.weight pair.1 pair.2 ≤ relationDepth)
    (hallowed : Session.CallWithin options σ c -> allowed σ c) :
    ∃ σ', Run h options allowed σ' ((c.inquiry options).value (Subtype.exact h) :: ts) ∧
      σ'.limited = false ∧
      ∀ t ∈ Session.announced (Subtype.exact h) (c.inquiry options), t ∈ σ'.types.items := by
  have hconsistent := hrun.reachable.consistent
  rcases hrun.reachable.kept with ⟨htruthful, rfl, -⟩
  have hwithin := Session.within_of_asked htruthful hlimited hasked
  have hvalue := Session.run_eq_value (Session.isReliable_answer relationDepth) htruthful hwithin
  refine ⟨(σ.perform (c.inquiry options)).2, ?_, Session.limited_of_within hwithin hlimited, ?_⟩
  · rw [← hvalue]
    exact hrun.call c harguments (hallowed hwithin)
  · exact fun t ht => Session.mem_types_of_announced htruthful hconsistent hwithin ht

/-!
# Computed runs
-/

/-- Whether an inquiry asks light questions only, if exact answers lead it. -/
def Session.isLight {α : Type} (h : Hierarchy) (q : Inquiry α) : Bool :=
  (Session.asked (Subtype.exact h) q).all fun pair =>
    decide (Subtype.weight pair.1 pair.2 ≤ relationDepth)

theorem Session.isLight_iff {α : Type} {h : Hierarchy} {q : Inquiry α} :
    Session.isLight h q = true ↔
      ∀ pair ∈ Session.asked (Subtype.exact h) q, Subtype.weight pair.1 pair.2 ≤ relationDepth := by
  simp [Session.isLight]

theorem Session.isLight_bind {α β : Type} {h : Hierarchy} {q : Inquiry α} {f : α -> Inquiry β} :
    Session.isLight h (q >>= f) =
      (Session.isLight h q && Session.isLight h (f (q.value (Subtype.exact h)))) := by
  rw [Session.isLight, Session.asked_bind, List.all_append]
  rfl

/-- A new session follows light questions within the limit. -/
theorem Session.perform_new {α : Type} {q : Inquiry α} (hq : Session.isLight h q = true) :
    (Session.new h options).Within (Session.answer relationDepth) q ∧
      ((Session.new h options).perform q).1 = q.value (Subtype.exact h) := by
  have htruthful := Session.isTruthful_new h options
  have hwithin := Session.within_of_asked htruthful rfl (Session.isLight_iff.mp hq)
  exact ⟨hwithin, Session.run_eq_value (Session.isReliable_answer relationDepth) htruthful hwithin⟩

/-- The types that calls lead to, added to the given ones, if each call is of types that
are there and asks light questions only. -/
def Call.results? (h : Hierarchy) (options : Options) (given : List Ty) :
    List Call -> Option (List Ty)
  | [] => some given
  | c :: rest =>
      if c.arguments.all given.contains && Session.isLight h (c.inquiry options) then
        Call.results? h options ((c.inquiry options).value (Subtype.exact h) :: given) rest
      else
        none

theorem Call.results?_cons {c : Call} {rest : List Call} {given results : List Ty} :
    Call.results? h options given (c :: rest) = some results ↔
      (∀ t ∈ c.arguments, t ∈ given) ∧ Session.isLight h (c.inquiry options) = true ∧
        Call.results? h options ((c.inquiry options).value (Subtype.exact h) :: given) rest =
          some results := by
  rw [Call.results?]
  split
  · rename_i hcall
    rw [Bool.and_eq_true, List.all_eq_true] at hcall
    simp only [List.contains_iff_mem] at hcall
    exact ⟨fun hrest => ⟨hcall.1, hcall.2, hrest⟩, fun hall => hall.2.2⟩
  · rename_i hcall
    rw [Bool.and_eq_true, List.all_eq_true] at hcall
    simp only [List.contains_iff_mem] at hcall
    constructor
    · simp
    · exact fun hall => absurd ⟨hall.1, hall.2.1⟩ hcall

/-- What a single call that can be followed within the limit leads to. -/
theorem Call.results?_single {given : List Ty} {c : Call} {t : Ty}
    (hresults : Call.results? h options given [c] = some (t :: given)) :
    (∀ u ∈ c.arguments, u ∈ given) ∧ Session.isLight h (c.inquiry options) = true ∧
      (c.inquiry options).value (Subtype.exact h) = t := by
  rcases Call.results?_cons.mp hresults with ⟨harguments, hlight, hrest⟩
  exact ⟨harguments, hlight, List.head_eq_of_cons_eq (Option.some.inj hrest)⟩

theorem Call.results?_append {calls calls' : List Call} {given results : List Ty}
    (hresults : Call.results? h options given calls = some ts)
    (hresults' : Call.results? h options ts calls' = some results) :
    Call.results? h options given (calls ++ calls') = some results := by
  induction calls generalizing given with
  | nil =>
      cases hresults
      exact hresults'
  | cons c rest ih =>
      rcases Call.results?_cons.mp hresults with ⟨harguments, hlight, hrest⟩
      exact Call.results?_cons.mpr ⟨harguments, hlight, ih hrest⟩

/-- Such calls continue a run. -/
theorem Run.exists_calls {calls : List Call} {results : List Ty}
    (hrun : Run h options allowed σ ts) (hlimited : σ.limited = false)
    (hresults : Call.results? h options ts calls = some results)
    (hallowed : ∀ c ∈ calls, ∀ σ, Session.CallWithin options σ c -> allowed σ c) :
    ∃ σ', Run h options allowed σ' results ∧ σ'.limited = false := by
  induction calls generalizing σ ts with
  | nil =>
      cases hresults
      exact ⟨σ, hrun, hlimited⟩
  | cons c rest ih =>
      rw [List.forall_mem_cons] at hallowed
      rcases Call.results?_cons.mp hresults with ⟨harguments, hlight, hrest⟩
      rcases hrun.exists_call hlimited c harguments (Session.isLight_iff.mp hlight)
        (hallowed.1 σ) with ⟨σ', hrun', hlimited', -⟩
      exact ih hrun' hlimited' hrest hallowed.2

end Calls

end GradualTypes
