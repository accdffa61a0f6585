import GradualTypes.Proofs.Memory

/-!
# Checkers that last

The memory of a session is shared by all who ask questions.  Some of them ask more than
one series: a checker is kept between its questions, and once it has met the depth limit
it adds nothing to the memory any more.

None of this shows in the answers.  Whatever the session remembers is exact, and a
question whose types are not too high is answered exactly, from whatever memory and by
whatever checker.
-/

namespace GradualTypes

open Inquiry

namespace Subtype

variable {h : Hierarchy} {s t : Ty}

/-- A relation that gives to every question the answer of one step whose questions it
answers itself. -/
def Solves (h : Hierarchy) (relation : Ty -> Ty -> Tristate) : Prop :=
  ∀ s t, relation s t = if s = t then .yes else (check h s t).value relation

/-- There is only one such relation, because a step asks lighter questions. -/
theorem solves_iff {relation : Ty -> Ty -> Tristate} :
    Solves h relation ↔ relation = exact h := by
  constructor
  · intro hsolves
    have hlight : ∀ n s t, weight s t < n -> relation s t = exact h s t := by
      intro n
      induction n with
      | zero => intro s t hn; omega
      | succ n ih =>
          intro s t hn
          rw [hsolves s t, exact_eq]
          split
          · rfl
          · exact value_check_congr fun a b hlt => ih a b (by omega)
    exact funext fun s => funext fun t => hlight _ s t (Nat.lt_succ_self _)
  · rintro rfl
    exact exact_eq h

end Subtype

namespace Session

open GradualTypes.Subtype (exact weight)

variable {h : Hierarchy} {options : Options} {σ : Session} {flags : List Bool} {s t : Ty}

/-!
# One question
-/

/-- With enough steps left the answer is exact, even if the limit was met before. -/
theorem answer_eq_exact {n : Nat} (hσ : σ.IsTruthful) (hweight : weight s t ≤ n) :
    (Session.answer n s t σ).1 = exact σ.hierarchy s t := by
  induction n generalizing s t σ with
  | zero =>
      have hpos := Subtype.weight_pos s t
      omega
  | succ n ih =>
      unfold Session.answer
      split
      · rename_i heq
        rw [heq, Subtype.exact_self]
      · rename_i hne
        split
        · rename_i r hr
          exact hσ s t r hr
        · rw [Subtype.exact_of_ne hne]
          have hstep : (Subtype.check σ.hierarchy s t).Meets
              ⟨fun a b => weight a b < weight s t, exactly σ.hierarchy,
                fun u => u.isLiteral = true, False⟩
              fun r => r = (Subtype.check σ.hierarchy s t).value (exact σ.hierarchy) :=
            Meets.eq_value (fun _ _ _ hr => hr) ((Subtype.meets_check_free σ.hierarchy s t).weaken
              (fun _ _ => id) (fun _ _ _ _ => trivial) (fun _ => id) id)
          refine run_meets (isReliable_answer n) hσ hstep ?_
          intro a b τ hlt hτ hhierarchy
          show exactly σ.hierarchy a b _
          rw [← hhierarchy]
          exact ih hτ (Nat.le_of_lt_succ (Nat.lt_of_lt_of_le hlt hweight))

/-- An answer that was found within the limit is remembered. -/
theorem remembered?_answer {n : Nat} (hne : s ≠ t)
    (hlimited : (Session.answer n s t σ).2.limited = false) :
    (Session.answer n s t σ).2.remembered? s t = some (Session.answer n s t σ).1 := by
  cases n with
  | zero =>
      unfold Session.answer at hlimited ⊢
      rw [if_neg hne] at hlimited ⊢
      cases hr : σ.remembered? s t with
      | some r => exact hr
      | none => simp [hr] at hlimited
  | succ n =>
      unfold Session.answer at hlimited ⊢
      rw [if_neg hne] at hlimited ⊢
      cases hr : σ.remembered? s t with
      | some r => exact hr
      | none =>
          simp only [hr] at hlimited ⊢
          unfold Session.settle at hlimited ⊢
          split
          · rename_i hmet
            simp [hmet] at hlimited
          · rw [remembered?_remember, if_pos rfl]

/-!
# Checkers in a session
-/

/-- Let a checker perform an inquiry, given whether it has met the limit before. -/
def resume {α : Type} (σ : Session) (limited : Bool) (q : Inquiry α) : α × Session :=
  { σ with limited := limited }.perform q

/-- A checker with enough steps for a question that has not met the limit does not meet it,
and then the answer is remembered. -/
theorem remembered?_resume (hne : s ≠ t) (hweight : weight s t ≤ relationDepth) :
    (σ.resume false (isContained s t)).2.limited = false ∧
      (σ.resume false (isContained s t)).2.remembered? s t =
        some (σ.resume false (isContained s t)).1 := by
  have hlimited := answer_not_limited (σ := { σ with limited := false }) hweight rfl
  exact ⟨hlimited, remembered?_answer hne hlimited⟩

/-- A session after work of any kind, and the checkers that have been made.  Of a checker
only a flag lasts: whether one of its questions has met the limit. -/
inductive Worked (h : Hierarchy) (options : Options) : Session -> List Bool -> Prop where
  | new : Worked h options (Session.new h options) []
  /-- Make a type, or ask with a checker of its own. -/
  | perform {σ : Session} {flags : List Bool} {α : Type} (q : Inquiry α) :
      Worked h options σ flags -> Worked h options (σ.perform q).2 flags
  | checker {σ : Session} {flags : List Bool} :
      Worked h options σ flags -> Worked h options σ (false :: flags)
  /-- Ask with a checker that is there, about containment or acceptance. -/
  | resume {σ : Session} {before after : List Bool} {limited : Bool} {α : Type}
      (q : Inquiry α) :
      Worked h options σ (before ++ limited :: after) ->
      Worked h options (σ.resume limited q).2
        (before ++ (σ.resume limited q).2.limited :: after)

theorem Worked.reachable (hσ : Worked h options σ flags) : Reachable h options σ := by
  induction hσ with
  | new => exact .new
  | perform q _ ih => exact ih.perform q
  | checker _ ih => exact ih
  | resume q _ ih => exact (ih.resume _).perform q

/-- What a session remembers is exact, and so are its answers to questions that are not
too high, whether a new checker is asked or one that has met the limit. -/
theorem Worked.exact_answers (hσ : Worked h options σ flags) :
    (∀ s t r, σ.remembered? s t = some r -> r = exact h s t) ∧
      ∀ s t, s.height + t.height ≤ relationDepth ->
        (σ.perform (isSubtype s t)).1 = exact h s t ∧
          ∀ limited ∈ flags, (σ.resume limited (isContained s t)).1 = exact h s t := by
  rcases hσ.reachable.kept with ⟨htruthful, rfl, -⟩
  refine ⟨htruthful, fun s t hheight => ?_⟩
  have hweight := Nat.le_trans (Subtype.weight_le s t) hheight
  have hanswer : ∀ limited : Bool,
      (Session.answer relationDepth s t { σ with limited := limited }).1 =
        exact σ.hierarchy s t :=
    fun limited => answer_eq_exact (σ := { σ with limited := limited }) htruthful hweight
  exact ⟨hanswer false, fun limited _ => hanswer limited⟩

/-- After a checker has compared two arrays, the session remembers the answer and gives it
again, to a new checker as to the same one. -/
theorem exact_answers_arrays :
    let narrow := Ty.array .int (.literal (.int 1))
    let wide := Ty.array .int .int
    let σ := ((new .empty .default).resume false (isContained narrow wide)).2
    σ.remembered? narrow wide = some .yes ∧
      (σ.perform (isSubtype narrow wide)).1 = .yes ∧
      (σ.resume σ.limited (isContained narrow wide)).1 = .yes := by
  intro narrow wide σ
  have hchecker : Worked .empty .default (new .empty .default) ([] ++ false :: []) :=
    Worked.new.checker
  have hworked : Worked .empty .default σ [σ.limited] := hchecker.resume (isContained narrow wide)
  rcases hworked.exact_answers with ⟨hremembered, hanswers⟩
  have hexact : exact .empty narrow wide = .yes := by decide
  have hlast : σ.remembered? narrow wide =
      some ((new .empty .default).resume false (isContained narrow wide)).1 :=
    (remembered?_resume (by decide) (by decide)).2
  rcases hanswers narrow wide (by decide) with ⟨hfresh, hagain⟩
  refine ⟨?_, hfresh.trans hexact, (hagain _ List.mem_cons_self).trans hexact⟩
  exact hlast.trans (congrArg some ((hremembered _ _ _ hlast).trans hexact))

end Session
end GradualTypes
