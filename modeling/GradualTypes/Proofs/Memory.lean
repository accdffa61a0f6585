import GradualTypes.Proofs.Exact
import GradualTypes.Session

/-!
# What a session remembers

The answers that a session remembers are those of the relation without limits.
This is so in the middle of a series of questions too: an answer is remembered
only while the depth limit has not been met, and until then it was found from
exact answers.

Beyond the limit an answer may differ from the exact one, but an answer `yes`
never goes further than the rules of certain containment, so it is always right.
-/

namespace GradualTypes

namespace Numbering

theorem mem_items_enter {α : Type} [BEq α] [Hashable α] {numbering : Numbering α} {a b : α}
    (hb : b ∈ (numbering.enter a).items) : b ∈ numbering.items ∨ b = a := by
  unfold enter at hb
  split at hb
  · exact Or.inl hb
  · simpa using hb

end Numbering

namespace Session

open Inquiry
open GradualTypes.Subtype (Certain Contained exact weight check)

variable {α : Type} {P : Ty -> Prop} {σ σ' : Session} {s t : Ty} {r : Tristate}

/-- All remembered answers are exact. -/
def IsTruthful (σ : Session) : Prop :=
  ∀ s t r, σ.remembered? s t = some r -> r = exact σ.hierarchy s t

theorem isTruthful_new (h : Hierarchy) (options : Options) : (new h options).IsTruthful := by
  intro s t r hr
  simp [remembered?, new] at hr

theorem remembered?_remember (σ : Session) (s t a b : Ty) (r : Tristate) :
    (σ.remember s t r).remembered? a b =
      if (s, t) = (a, b) then some r else σ.remembered? a b := by
  unfold remember remembered?
  rw [Std.HashMap.getElem?_insert]
  by_cases heq : (s, t) = (a, b) <;> simp [heq]

theorem IsTruthful.settle (hσ : σ.IsTruthful)
    (hr : σ.limited = false -> r = exact σ.hierarchy s t) : (σ.settle s t r).IsTruthful := by
  unfold Session.settle
  split
  · exact hσ
  · rename_i hlimited
    intro a b r' hr'
    rw [remembered?_remember] at hr'
    split at hr'
    · rename_i heq
      rcases Prod.mk.inj heq with ⟨rfl, rfl⟩
      exact (Option.some.inj hr').symm.trans (hr (by simpa using hlimited))
    · exact hσ a b r' hr'

/-!
# What work may change in a session
-/

/-- A session that comes from another by work: it has the same hierarchy and
options and is truthful if the other is, and each new type has the property. -/
structure Follows (P : Ty -> Prop) (σ σ' : Session) : Prop where
  hierarchy : σ'.hierarchy = σ.hierarchy
  options : σ'.options = σ.options
  truthful : σ.IsTruthful -> σ'.IsTruthful
  types : ∀ t ∈ σ'.types.items, t ∈ σ.types.items ∨ P t

theorem Follows.refl (σ : Session) : Follows P σ σ :=
  ⟨rfl, rfl, id, fun _ ht => Or.inl ht⟩

theorem Follows.trans {σ'' : Session} (hfirst : Follows P σ σ') (hsecond : Follows P σ' σ'') :
    Follows P σ σ'' where
  hierarchy := hsecond.hierarchy.trans hfirst.hierarchy
  options := hsecond.options.trans hfirst.options
  truthful := fun hσ => hsecond.truthful (hfirst.truthful hσ)
  types := by
    intro t ht
    rcases hsecond.types t ht with ht' | hP
    · exact hfirst.types t ht'
    · exact Or.inr hP

theorem Follows.imp {Q : Ty -> Prop} (hfollows : Follows P σ σ') (himp : ∀ t, P t -> Q t) :
    Follows Q σ σ' :=
  ⟨hfollows.hierarchy, hfollows.options, hfollows.truthful,
    fun t ht => (hfollows.types t ht).imp_right (himp t)⟩

theorem Follows.limit (σ : Session) (limited : Bool) :
    Follows P σ { σ with limited := limited } :=
  ⟨rfl, rfl, id, fun _ ht => Or.inl ht⟩

theorem Follows.enter (ht : P t) : Follows P σ { σ with types := σ.types.enter t } where
  hierarchy := rfl
  options := rfl
  truthful := id
  types := by
    intro u hu
    rcases Numbering.mem_items_enter hu with hu' | rfl
    · exact Or.inl hu'
    · exact Or.inr ht

theorem Follows.settle (hr : σ.IsTruthful -> σ.limited = false -> r = exact σ.hierarchy s t) :
    Follows P σ (σ.settle s t r) where
  hierarchy := by unfold Session.settle; split <;> rfl
  options := by unfold Session.settle; split <;> rfl
  truthful := fun hσ => hσ.settle (hr hσ)
  types := by
    intro u hu
    apply Or.inl
    unfold Session.settle at hu
    split at hu <;> exact hu

/-!
# One question
-/

/-- What a way of answering questions guarantees about an answer and the session
after it. -/
structure Answered (s t : Ty) (σ : Session) (result : Tristate × Session) : Prop where
  follows : Follows (fun u => u.isLiteral = true) σ result.2
  sticky : σ.limited = true -> result.2.limited = true
  sound : result.1 = .yes -> Contained σ.hierarchy s t
  exact : result.2.limited = false -> result.1 = exact σ.hierarchy s t

/-- A way of answering questions that guarantees this for truthful sessions. -/
def IsReliable (answer : Ty -> Ty -> Session -> Tristate × Session) : Prop :=
  ∀ s t σ, σ.IsTruthful -> Answered s t σ (answer s t σ)

variable {answer : Ty -> Ty -> Session -> Tristate × Session}

/-- No question of the inquiry meets the depth limit. -/
def Within (answer : Ty -> Ty -> Session -> Tristate × Session) :
    Inquiry α -> Session -> Prop
  | .done _, _ => True
  | .ask s t next, σ =>
      (answer s t σ).2.limited = false ∧
        Within answer (next (answer s t σ).1) (answer s t σ).2
  | .announce t next, σ => Within answer (next ()) { σ with types := σ.types.enter t }
  | .announceText s next, σ => Within answer (next ()) { σ with texts := σ.texts.enter s }
  | .restart next, σ => Within answer (next ()) { σ with limited := false }

theorem run_eq_value (hanswer : IsReliable answer) {q : Inquiry α} (hσ : σ.IsTruthful)
    (hwithin : Within answer q σ) : (run answer q σ).1 = q.value (exact σ.hierarchy) := by
  induction q generalizing σ with
  | done a => rfl
  | ask s t next ih =>
      have hanswered := hanswer s t σ hσ
      have hfound := ih _ (hanswered.follows.truthful hσ) hwithin.2
      rw [hanswered.follows.hierarchy, hanswered.exact hwithin.1] at hfound
      simpa only [run, Inquiry.value, hanswered.exact hwithin.1] using hfound
  | announce t next ih => exact ih () (σ := { σ with types := σ.types.enter t }) hσ hwithin
  | announceText s next ih => exact ih () (σ := { σ with texts := σ.texts.enter s }) hσ hwithin
  | restart next ih => exact ih () (σ := { σ with limited := false }) hσ hwithin

/-- What the session remembers, and which types it has seen, after an inquiry.  Its
terms allow every answer that is right if it is `yes`; if the inquiry is known to
stay within the limit, they need to allow exact answers only. -/
theorem run_follows_of (hanswer : IsReliable answer) {terms : Terms} {post : α -> Prop}
    {q : Inquiry α} (within : Prop) (hσ : σ.IsTruthful) (hwithin : within -> Within answer q σ)
    (hmeets : q.Meets terms post)
    (hreplies : ∀ s t r, (r = .yes -> Contained σ.hierarchy s t) ->
      (within -> r = exact σ.hierarchy s t) -> terms.replies s t r)
    (hannounces : ∀ t, terms.announces t -> P t) (hliteral : ∀ v, P (.literal v)) :
    Follows P σ (run answer q σ).2 ∧ post (run answer q σ).1 := by
  have hasked : ∀ u : Ty, u.isLiteral = true -> P u := by
    intro u hu
    cases u <;> first | exact hliteral _ | cases hu
  induction q generalizing σ with
  | done a => exact ⟨.refl σ, hmeets⟩
  | ask s t next ih =>
      have hanswered := hanswer s t σ hσ
      have hfollows := hanswered.follows
      have hreply := hreplies s t _ hanswered.sound
        fun hknown => hanswered.exact (hwithin hknown).1
      have hrest := ih _ (hfollows.truthful hσ) (fun hknown => (hwithin hknown).2)
        (hmeets.2 _ hreply) (by rwa [hfollows.hierarchy])
      exact ⟨(hfollows.imp hasked).trans hrest.1, hrest.2⟩
  | announce t next ih =>
      have hrest := ih () (σ := { σ with types := σ.types.enter t }) hσ hwithin hmeets.2 hreplies
      exact ⟨(Follows.enter (hannounces t hmeets.1)).trans hrest.1, hrest.2⟩
  | announceText s next ih =>
      have hrest := ih () (σ := { σ with texts := σ.texts.enter s }) hσ hwithin hmeets hreplies
      exact ⟨⟨hrest.1.hierarchy, hrest.1.options, hrest.1.truthful, hrest.1.types⟩, hrest.2⟩
  | restart next ih =>
      have hrest := ih () (σ := { σ with limited := false }) hσ hwithin hmeets.2 hreplies
      exact ⟨(Follows.limit σ false).trans hrest.1, hrest.2⟩

theorem run_follows (hanswer : IsReliable answer) {terms : Terms} {post : α -> Prop}
    {q : Inquiry α} (hσ : σ.IsTruthful) (hmeets : q.Meets terms post)
    (hreplies : ∀ s t r, (r = .yes -> Contained σ.hierarchy s t) -> terms.replies s t r)
    (hannounces : ∀ t, terms.announces t -> P t) (hliteral : ∀ v, P (.literal v)) :
    Follows P σ (run answer q σ).2 ∧ post (run answer q σ).1 :=
  run_follows_of hanswer False hσ False.elim hmeets
    (fun s t r hsound _ => hreplies s t r hsound) hannounces hliteral

/-- The answers of the relation without limits. -/
def exactly (h : Hierarchy) (s t : Ty) (r : Tristate) : Prop :=
  r = exact h s t

theorem run_follows_of_within (hanswer : IsReliable answer) {terms : Terms} {post : α -> Prop}
    {q : Inquiry α} (hσ : σ.IsTruthful) (hwithin : Within answer q σ)
    (hmeets : q.Meets terms post)
    (hreplies : ∀ s t r, exactly σ.hierarchy s t r -> terms.replies s t r)
    (hannounces : ∀ t, terms.announces t -> P t) (hliteral : ∀ v, P (.literal v)) :
    Follows P σ (run answer q σ).2 ∧ post (run answer q σ).1 :=
  run_follows_of hanswer True hσ (fun _ => hwithin) hmeets
    (fun s t r _ hexact => hreplies s t r (hexact trivial)) hannounces hliteral

/-- Within a series the limit, once met, stays met. -/
theorem run_sticky (hanswer : IsReliable answer) {terms : Terms} {post : α -> Prop}
    {q : Inquiry α} (hσ : σ.IsTruthful) (hmeets : q.Meets terms post)
    (hreplies : ∀ s t r, terms.replies s t r) (hrestarts : ¬ terms.restarts)
    (hlimited : σ.limited = true) : (run answer q σ).2.limited = true := by
  induction q generalizing σ with
  | done a => exact hlimited
  | ask s t next ih =>
      have hanswered := hanswer s t σ hσ
      exact ih _ (hanswered.follows.truthful hσ) (hmeets.2 _ (hreplies _ _ _))
        (hanswered.sticky hlimited)
  | announce t next ih =>
      exact ih () (σ := { σ with types := σ.types.enter t }) hσ hmeets.2 hlimited
  | announceText s next ih =>
      exact ih () (σ := { σ with texts := σ.texts.enter s }) hσ hmeets hlimited
  | restart next ih => exact absurd hmeets.1 hrestarts

/-- A series after which the limit has not been met has not met it before. -/
theorem within_of_not_limited (hanswer : IsReliable answer) {terms : Terms} {post : α -> Prop}
    {q : Inquiry α} (hσ : σ.IsTruthful) (hmeets : q.Meets terms post)
    (hreplies : ∀ s t r, terms.replies s t r) (hrestarts : ¬ terms.restarts)
    (hlimited : (run answer q σ).2.limited = false) : Within answer q σ := by
  induction q generalizing σ with
  | done a => trivial
  | ask s t next ih =>
      have hanswered := hanswer s t σ hσ
      have htruthful := hanswered.follows.truthful hσ
      have hrest := hmeets.2 (answer s t σ).1 (hreplies _ _ _)
      constructor
      · cases hnext : (answer s t σ).2.limited with
        | false => rfl
        | true =>
            have hsticky := run_sticky hanswer htruthful hrest hreplies hrestarts hnext
            exact absurd (hlimited.symm.trans hsticky) (by decide)
      · exact ih _ htruthful hrest hlimited
  | announce t next ih =>
      exact ih () (σ := { σ with types := σ.types.enter t }) hσ hmeets.2 hlimited
  | announceText s next ih =>
      exact ih () (σ := { σ with texts := σ.texts.enter s }) hσ hmeets hlimited
  | restart next ih => exact absurd hmeets.1 hrestarts

/-!
# All questions
-/

theorem answered_of_remembered (hσ : σ.IsTruthful) (hr : σ.remembered? s t = some r) :
    Answered s t σ (r, σ) where
  follows := .refl σ
  sticky := id
  sound := fun hyes => (hσ s t r hr).symm.trans hyes
  exact := fun _ => hσ s t r hr

theorem answered_self (σ : Session) (t : Ty) : Answered t t σ (.yes, σ) where
  follows := .refl σ
  sticky := id
  sound := fun _ => .refl t
  exact := fun _ => (Subtype.exact_self _ t).symm

theorem answered_of_step (hanswer : IsReliable answer) (hσ : σ.IsTruthful) (hne : s ≠ t)
    {found : Tristate} {σ' : Session} (hrun : run answer (check σ.hierarchy s t) σ = (found, σ')) :
    Answered s t σ (found, σ'.settle s t found) := by
  have hstep : (check σ.hierarchy s t).Meets
      ⟨fun a b => weight a b < weight s t, fun a b r => r = .yes -> Contained σ.hierarchy a b,
        fun u => u.isLiteral = true, False⟩
      fun r => r = .yes -> Certain σ.hierarchy (Contained σ.hierarchy) s t :=
    Subtype.meets_check (fun _ _ hlt => hlt) (fun _ _ hyes => hyes rfl) (fun _ => rfl)
  have hfollows := run_follows (P := fun u => u.isLiteral = true) hanswer hσ hstep
    (fun _ _ _ hr => hr) (fun _ hu => hu) (fun _ => rfl)
  have hfree := Subtype.meets_check_free σ.hierarchy s t
  have hsticky := run_sticky hanswer hσ hfree (fun _ _ _ => trivial) (by simp)
  have hexact : σ'.limited = false -> found = exact σ.hierarchy s t := by
    intro hlimited
    have hwithin := within_of_not_limited hanswer hσ hfree (fun _ _ _ => trivial) (by simp)
      (by rwa [hrun])
    have hvalue := run_eq_value hanswer hσ hwithin
    rw [hrun] at hvalue
    exact hvalue.trans (Subtype.exact_of_ne hne).symm
  rw [hrun] at hfollows hsticky
  have hsettled : (σ'.settle s t found).limited = σ'.limited := by
    unfold Session.settle
    split <;> rfl
  exact {
    follows := hfollows.1.trans (.settle fun _ hlimited => by
      rw [hfollows.1.hierarchy]
      exact hexact hlimited)
    sticky := fun hlimited => hsettled.trans (hsticky hlimited)
    sound := fun hyes => (hfollows.2 hyes).contained
    exact := fun hlimited => hexact (hsettled.symm.trans hlimited) }

theorem isReliable_answer (n : Nat) : IsReliable (Session.answer n) := by
  induction n with
  | zero =>
      intro s t σ hσ
      unfold Session.answer
      split
      · rename_i heq
        exact heq ▸ answered_self σ s
      · split
        · rename_i r hr
          exact answered_of_remembered hσ hr
        · exact ⟨.limit σ true, fun _ => rfl, by simp, by simp⟩
  | succ n ih =>
      intro s t σ hσ
      unfold Session.answer
      split
      · rename_i heq
        exact heq ▸ answered_self σ s
      · rename_i hne
        split
        · rename_i r hr
          exact answered_of_remembered hσ hr
        · exact answered_of_step ih hσ hne rfl

/-- What an inquiry ends with, if the answers to its questions are admissible in every
truthful session. -/
theorem run_meets (hanswer : IsReliable answer) {terms : Terms} {post : α -> Prop}
    {q : Inquiry α} (hσ : σ.IsTruthful) (hmeets : q.Meets terms post)
    (hreplies : ∀ s t τ, terms.asks s t -> τ.IsTruthful -> τ.hierarchy = σ.hierarchy ->
      terms.replies s t (answer s t τ).1) : post (run answer q σ).1 := by
  induction q generalizing σ with
  | done a => exact hmeets
  | ask s t next ih =>
      have hfollows := (hanswer s t σ hσ).follows
      apply ih _ (hfollows.truthful hσ) (hmeets.2 _ (hreplies s t σ hmeets.1 hσ rfl))
      rwa [hfollows.hierarchy]
  | announce t next ih =>
      exact ih () (σ := { σ with types := σ.types.enter t }) hσ hmeets.2 hreplies
  | announceText s next ih =>
      exact ih () (σ := { σ with texts := σ.texts.enter s }) hσ hmeets hreplies
  | restart next ih => exact ih () (σ := { σ with limited := false }) hσ hmeets.2 hreplies

/-!
# Questions that stay within the limit
-/

theorem run_not_limited {terms : Terms} {post : α -> Prop} {q : Inquiry α}
    (hanswer : ∀ s t σ, terms.asks s t -> σ.limited = false -> (answer s t σ).2.limited = false)
    (hmeets : q.Meets terms post) (hreplies : ∀ s t r, terms.replies s t r)
    (hσ : σ.limited = false) : (run answer q σ).2.limited = false := by
  induction q generalizing σ with
  | done a => exact hσ
  | ask s t next ih =>
      exact ih _ (hmeets.2 _ (hreplies _ _ _)) (hanswer s t σ hmeets.1 hσ)
  | announce t next ih =>
      exact ih () (σ := { σ with types := σ.types.enter t }) hmeets.2 hσ
  | announceText s next ih =>
      exact ih () (σ := { σ with texts := σ.texts.enter s }) hmeets hσ
  | restart next ih => exact ih () (σ := { σ with limited := false }) hmeets.2 rfl

theorem answer_not_limited {n : Nat} (hweight : weight s t ≤ n) (hσ : σ.limited = false) :
    (Session.answer n s t σ).2.limited = false := by
  induction n generalizing s t σ with
  | zero =>
      have hpos := Subtype.weight_pos s t
      omega
  | succ n ih =>
      unfold Session.answer
      split
      · exact hσ
      · split
        · exact hσ
        · have hanswer : ∀ a b τ, Subtype.weight a b < Subtype.weight s t -> τ.limited = false ->
              (Session.answer n a b τ).2.limited = false := fun a b τ hlt hτ => ih (by omega) hτ
          have hrun := run_not_limited hanswer
            (Subtype.meets_check_free σ.hierarchy s t) (fun _ _ _ => trivial) hσ
          dsimp only
          unfold Session.settle
          split
          · exact hrun
          · exact hrun

/-- The questions that an inquiry asks if a relation answers them. -/
def asked (relation : Ty -> Ty -> Tristate) : Inquiry α -> List (Ty × Ty)
  | .done _ => []
  | .ask s t next => (s, t) :: asked relation (next (relation s t))
  | .announce _ next => asked relation (next ())
  | .announceText _ next => asked relation (next ())
  | .restart next => asked relation (next ())

theorem asked_bind {β : Type} (relation : Ty -> Ty -> Tristate) (q : Inquiry α) (f : α -> Inquiry β) :
    asked relation (q >>= f) = asked relation q ++ asked relation (f (q.value relation)) := by
  induction q with
  | done a => rfl
  | ask s t next ih => exact congrArg _ (ih _)
  | announce t next ih => exact ih ()
  | announceText s next ih => exact ih ()
  | restart next ih => exact ih ()

/-- An inquiry that asks light questions only stays within the limit. -/
theorem within_of_asked {n : Nat} {q : Inquiry α} (hσ : σ.IsTruthful)
    (hlimited : σ.limited = false)
    (hasked : ∀ pair ∈ asked (exact σ.hierarchy) q, weight pair.1 pair.2 ≤ n) :
    Within (Session.answer n) q σ := by
  induction q generalizing σ with
  | done a => trivial
  | ask s t next ih =>
      rw [asked, List.forall_mem_cons] at hasked
      have hanswered := isReliable_answer n s t σ hσ
      have hnext := answer_not_limited hasked.1 hlimited
      refine ⟨hnext, ih _ (hanswered.follows.truthful hσ) hnext ?_⟩
      rw [hanswered.follows.hierarchy, hanswered.exact hnext]
      exact hasked.2
  | announce t next ih => exact ih () (σ := { σ with types := σ.types.enter t }) hσ hlimited hasked
  | announceText s next ih =>
      exact ih () (σ := { σ with texts := σ.texts.enter s }) hσ hlimited hasked
  | restart next ih => exact ih () (σ := { σ with limited := false }) hσ rfl hasked

theorem limited_of_within {q : Inquiry α} (hwithin : Within answer q σ)
    (hlimited : σ.limited = false) : (run answer q σ).2.limited = false := by
  induction q generalizing σ with
  | done a => exact hlimited
  | ask s t next ih => exact ih _ hwithin.2 hwithin.1
  | announce t next ih => exact ih () (σ := { σ with types := σ.types.enter t }) hwithin hlimited
  | announceText s next ih =>
      exact ih () (σ := { σ with texts := σ.texts.enter s }) hwithin hlimited
  | restart next ih => exact ih () (σ := { σ with limited := false }) hwithin rfl

/-!
# Sessions that come from a new one
-/

/-- A session that comes from a new one by work of any kind.  A series may go on
that has met the limit before. -/
inductive Reachable (h : Hierarchy) (options : Options) : Session -> Prop where
  | new : Reachable h options (Session.new h options)
  | perform {σ : Session} {α : Type} (q : Inquiry α) :
      Reachable h options σ -> Reachable h options (σ.perform q).2
  | resume {σ : Session} (limited : Bool) :
      Reachable h options σ -> Reachable h options { σ with limited := limited }

/-- Any inquiry leaves a truthful session truthful, and the hierarchy and the
options as they are. -/
theorem follows_perform (hσ : σ.IsTruthful) (q : Inquiry α) :
    Follows (fun _ => True) σ (σ.perform q).2 := by
  have hmeets : q.Meets ⟨fun _ _ => True, fun _ _ _ => True, fun _ => True, True⟩
      fun _ => True := by
    induction q generalizing σ with
    | done a => trivial
    | ask s t next ih => exact ⟨trivial, fun r _ => ih r hσ⟩
    | announce t next ih => exact ⟨trivial, ih () hσ⟩
    | announceText s next ih => exact ih () hσ
    | restart next ih => exact ⟨trivial, ih () hσ⟩
  exact (run_follows (isReliable_answer relationDepth) hσ hmeets (fun _ _ _ _ => trivial)
    (fun _ _ => trivial) (fun _ => trivial)).1

theorem Reachable.kept {h : Hierarchy} {options : Options} (hσ : Reachable h options σ) :
    σ.IsTruthful ∧ σ.hierarchy = h ∧ σ.options = options := by
  induction hσ with
  | new => exact ⟨isTruthful_new h options, rfl, rfl⟩
  | perform q _ ih =>
      rcases ih with ⟨htruthful, hhierarchy, hoptions⟩
      have hfollows := follows_perform htruthful q
      exact ⟨hfollows.truthful htruthful, hfollows.hierarchy.trans hhierarchy,
        hfollows.options.trans hoptions⟩
  | resume limited _ ih => exact ih

/-!
# The relation in a session
-/

section Relation

variable {h : Hierarchy} {options : Options}

/-- An answer `yes` is right in every session, within the limit or not. -/
theorem Reachable.contained (hσ : Reachable h options σ)
    (hyes : (σ.perform (isSubtype s t)).1 = .yes) : Contained h s t := by
  rcases hσ.kept with ⟨htruthful, rfl, -⟩
  exact (isReliable_answer relationDepth s t { σ with limited := false } htruthful).sound hyes

theorem Reachable.isSubtype_eq (hσ : Reachable h options σ)
    (hlimited : (σ.perform (isSubtype s t)).2.limited = false) :
    (σ.perform (isSubtype s t)).1 = exact h s t := by
  rcases hσ.kept with ⟨htruthful, rfl, -⟩
  exact (isReliable_answer relationDepth s t { σ with limited := false } htruthful).exact hlimited

theorem isSubtype_not_limited (σ : Session) (hweight : weight s t ≤ relationDepth) :
    (σ.perform (isSubtype s t)).2.limited = false :=
  answer_not_limited (σ := { σ with limited := false }) hweight rfl

end Relation

end Session
end GradualTypes
