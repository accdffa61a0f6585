import GradualTypes.Inquiry

/-!
# Terms of an inquiry

An inquiry is a tree that branches on answers, so a statement about it has to
say which answers are to be expected.  `Terms` fixes that, together with the
questions and announcements an inquiry may make, and `Inquiry.Meets` states that
an inquiry keeps to its terms and that each of its results has a given property.

One such statement serves both readings of an inquiry: under a fixed relation
it is a statement about `Inquiry.value`, and in a session it is a statement
about `Session.run`.
-/

namespace GradualTypes

structure Terms where
  /-- The questions that may be asked. -/
  asks : Ty -> Ty -> Prop
  /-- The answers that a question may get. -/
  replies : Ty -> Ty -> Tristate -> Prop
  /-- The types that may be announced. -/
  announces : Ty -> Prop
  /-- Whether a new series of questions may be started. -/
  restarts : Prop

/-- Terms that allow everything, for given answers. -/
def Terms.free (replies : Ty -> Ty -> Tristate -> Prop) : Terms :=
  ⟨fun _ _ => True, replies, fun _ => True, True⟩

namespace Inquiry

variable {α β : Type} {terms : Terms}

/-- The inquiry keeps to the terms, and its result has the property whatever
admissible answers it gets. -/
def Meets (terms : Terms) (post : α -> Prop) : Inquiry α -> Prop
  | done a => post a
  | ask source target next =>
      terms.asks source target ∧
        ∀ r, terms.replies source target r -> (next r).Meets terms post
  | announce t next => terms.announces t ∧ (next ()).Meets terms post
  | announceText _ next => (next ()).Meets terms post
  | restart next => terms.restarts ∧ (next ()).Meets terms post

@[simp] theorem meets_pure {post : α -> Prop} {a : α} :
    (pure a : Inquiry α).Meets terms post ↔ post a := Iff.rfl

@[simp] theorem meets_bind {post : β -> Prop} {q : Inquiry α} {f : α -> Inquiry β} :
    (q >>= f).Meets terms post ↔ q.Meets terms fun a => (f a).Meets terms post := by
  show (q.bind f).Meets terms post ↔ _
  induction q with
  | done a => exact Iff.rfl
  | ask source target next ih =>
      exact and_congr_right fun _ => forall_congr' fun r => imp_congr_right fun _ => ih r
  | announce t next ih => exact and_congr_right fun _ => ih ()
  | announceText s next ih => exact ih ()
  | restart next ih => exact and_congr_right fun _ => ih ()

theorem Meets.imp {post post' : α -> Prop} {q : Inquiry α}
    (h : q.Meets terms post) (himp : ∀ a, post a -> post' a) :
    q.Meets terms post' := by
  induction q with
  | done a => exact himp a h
  | ask source target next ih => exact ⟨h.1, fun r hr => ih r (h.2 r hr)⟩
  | announce t next ih => exact ⟨h.1, ih () h.2⟩
  | announceText s next ih => exact ih () h
  | restart next ih => exact ⟨h.1, ih () h.2⟩

theorem Meets.bind {post : α -> Prop} {post' : β -> Prop} {q : Inquiry α}
    {f : α -> Inquiry β} (h : q.Meets terms post)
    (hf : ∀ a, post a -> (f a).Meets terms post') :
    (q >>= f).Meets terms post' :=
  meets_bind.mpr (h.imp hf)

/-- Two statements about one inquiry hold together under the terms of the first, if
these allow no further answers. -/
theorem Meets.and {terms' : Terms} {post post' : α -> Prop} {q : Inquiry α}
    (h : q.Meets terms post) (h' : q.Meets terms' post')
    (hreplies : ∀ s t r, terms.replies s t r -> terms'.replies s t r) :
    q.Meets terms fun a => post a ∧ post' a := by
  induction q with
  | done a => exact ⟨h, h'⟩
  | ask source target next ih =>
      exact ⟨h.1, fun r hr => ih r (h.2 r hr) (h'.2 r (hreplies _ _ _ hr))⟩
  | announce t next ih => exact ⟨h.1, ih () h.2 h'.2⟩
  | announceText s next ih => exact ih () h h'
  | restart next ih => exact ⟨h.1, ih () h.2 h'.2⟩

/-- What holds under some terms holds under terms that allow more questions and
announcements and fewer answers. -/
theorem Meets.weaken {terms' : Terms} {post : α -> Prop} {q : Inquiry α}
    (h : q.Meets terms post)
    (hasks : ∀ s t, terms.asks s t -> terms'.asks s t)
    (hreplies : ∀ s t r, terms'.replies s t r -> terms.replies s t r)
    (hannounces : ∀ t, terms.announces t -> terms'.announces t)
    (hrestarts : terms.restarts -> terms'.restarts) :
    q.Meets terms' post := by
  induction q with
  | done a => exact h
  | ask source target next ih =>
      exact ⟨hasks _ _ h.1, fun r hr => ih r (h.2 r (hreplies _ _ _ hr))⟩
  | announce t next ih => exact ⟨hannounces _ h.1, ih () h.2⟩
  | announceText s next ih => exact ih () h
  | restart next ih => exact ⟨hrestarts h.1, ih () h.2⟩

/-!
# Terms under a fixed relation
-/

/-- A relation whose answers are admissible gives the value one of the results. -/
theorem Meets.value {post : α -> Prop} {q : Inquiry α} {relation : Ty -> Ty -> Tristate}
    (h : q.Meets terms post)
    (hreplies : ∀ s t, terms.asks s t -> terms.replies s t (relation s t)) :
    post (q.value relation) := by
  induction q with
  | done a => exact h
  | ask source target next ih => exact ih _ (h.2 _ (hreplies _ _ h.1))
  | announce t next ih => exact ih () h.2
  | announceText s next ih => exact ih () h
  | restart next ih => exact ih () h.2

/-- If the terms leave one answer to each question, an inquiry has one result. -/
theorem Meets.eq_value {relation : Ty -> Ty -> Tristate} {post : α -> Prop} {q : Inquiry α}
    (hreplies : ∀ s t r, terms.replies s t r -> r = relation s t) (h : q.Meets terms post) :
    q.Meets terms fun a => a = q.value relation := by
  induction q with
  | done a => rfl
  | ask s t next ih =>
      refine ⟨h.1, fun r hr => ?_⟩
      have hnext := ih r (h.2 r hr)
      rwa [hreplies s t r hr] at hnext ⊢
  | announce t next ih => exact ⟨h.1, ih () h.2⟩
  | announceText s next ih => exact ih () h
  | restart next ih => exact ⟨h.1, ih () h.2⟩

theorem Meets.value_congr {post : α -> Prop} {q : Inquiry α}
    {relation relation' : Ty -> Ty -> Tristate} (h : q.Meets terms post)
    (hreplies : ∀ s t r, terms.replies s t r)
    (heq : ∀ s t, terms.asks s t -> relation s t = relation' s t) :
    q.value relation = q.value relation' := by
  induction q with
  | done a => rfl
  | ask source target next ih =>
      show (next _).value relation = (next _).value relation'
      rw [heq _ _ h.1]
      exact ih _ (h.2 _ (hreplies _ _ _))
  | announce t next ih => exact ih () h.2
  | announceText s next ih => exact ih () h
  | restart next ih => exact ih () h.2

/-!
# Single steps
-/

@[simp] theorem meets_isContained {post : Tristate -> Prop} {s t : Ty} :
    (isContained s t).Meets terms post ↔
      terms.asks s t ∧ ∀ r, terms.replies s t r -> post r := Iff.rfl

@[simp] theorem meets_built {post : Ty -> Prop} {t : Ty} :
    (built t).Meets terms post ↔ terms.announces t ∧ post t := Iff.rfl

@[simp] theorem meets_text {post : Unit -> Prop} {s : String} :
    (text s).Meets terms post ↔ post () := Iff.rfl

@[simp] theorem meets_fresh {post : Unit -> Prop} :
    (fresh).Meets terms post ↔ terms.restarts ∧ post () := Iff.rfl

/-!
# Summaries of a list of questions

What an answer `yes` of each of the summaries says about the members, given what
the answer `yes` says about a single one.
-/

section Summaries

variable {question : α -> Inquiry Tristate} {items : List α} {P : α -> Prop}

theorem meets_allFrom {known : Tristate}
    (h : ∀ a ∈ items, (question a).Meets terms fun r => r = .yes -> P a) :
    (allFrom known question items).Meets terms
      fun r => r = .yes -> known = .yes ∧ ∀ a ∈ items, P a := by
  induction items generalizing known with
  | nil => simp [allFrom]
  | cons a rest ih =>
      rw [List.forall_mem_cons] at h
      apply h.1.bind
      intro r hr
      dsimp only
      split
      · simp
      · apply (ih h.2).imp
        intro s hs hyes
        rcases hs hyes with ⟨hand, hrest⟩
        have hknown : known = .yes ∧ r = .yes := by
          cases known <;> cases r <;> simp_all [Tristate.and]
        exact ⟨hknown.1, List.forall_mem_cons.mpr ⟨hr hknown.2, hrest⟩⟩

theorem meets_all
    (h : ∀ a ∈ items, (question a).Meets terms fun r => r = .yes -> P a) :
    (all question items).Meets terms fun r => r = .yes -> ∀ a ∈ items, P a :=
  (meets_allFrom h).imp fun _ hr hyes => (hr hyes).2

theorem meets_anyFrom {known : Tristate}
    (h : ∀ a ∈ items, (question a).Meets terms fun r => r = .yes -> P a) :
    (anyFrom known question items).Meets terms
      fun r => r = .yes -> known = .yes ∨ ∃ a ∈ items, P a := by
  induction items generalizing known with
  | nil => simp [anyFrom]
  | cons a rest ih =>
      rw [List.forall_mem_cons] at h
      apply h.1.bind
      intro r hr
      have hor : known.or r = .yes -> known = .yes ∨ ∃ b ∈ a :: rest, P b := by
        intro hyes
        have hcases : known = .yes ∨ r = .yes := by
          cases known <;> cases r <;> simp_all [Tristate.or]
        exact hcases.imp id fun hr' => ⟨a, List.mem_cons_self, hr hr'⟩
      dsimp only
      split
      · rename_i hyes
        exact fun _ => hor hyes
      · apply (ih h.2).imp
        intro s hs hyes
        rcases hs hyes with hknown | ⟨b, hb, hP⟩
        · exact hor hknown
        · exact Or.inr ⟨b, List.mem_cons_of_mem _ hb, hP⟩

theorem meets_any
    (h : ∀ a ∈ items, (question a).Meets terms fun r => r = .yes -> P a) :
    (any question items).Meets terms fun r => r = .yes -> ∃ a ∈ items, P a :=
  (meets_anyFrom h).imp fun _ hr hyes => (hr hyes).resolve_left (by decide)

theorem meets_unanimousFrom {first : Tristate}
    (h : ∀ a ∈ items, (question a).Meets terms fun r => r = .yes -> P a) :
    (unanimousFrom first question items).Meets terms
      fun r => r = .yes -> first = .yes ∧ ∀ a ∈ items, P a := by
  induction items with
  | nil => simp [unanimousFrom]
  | cons a rest ih =>
      rw [List.forall_mem_cons] at h
      apply h.1.bind
      intro r hr
      split
      · rename_i heq
        apply (ih h.2).imp
        intro s hs hyes
        rcases hs hyes with ⟨hfirst, hrest⟩
        exact ⟨hfirst, List.forall_mem_cons.mpr ⟨hr (heq.trans hfirst), hrest⟩⟩
      · simp

theorem meets_unanimous
    (h : ∀ a ∈ items, (question a).Meets terms fun r => r = .yes -> P a) :
    (unanimous question items).Meets terms
      fun r => r = .yes -> items ≠ [] ∧ ∀ a ∈ items, P a := by
  cases items with
  | nil => simp [unanimous]
  | cons a rest =>
      rw [List.forall_mem_cons] at h
      apply h.1.bind
      intro r hr
      split
      · simp
      · apply (meets_unanimousFrom h.2).imp
        intro s hs hyes
        rcases hs hyes with ⟨hfirst, hrest⟩
        exact ⟨by simp, List.forall_mem_cons.mpr ⟨hr hfirst, hrest⟩⟩

theorem meets_decisiveFrom {known : Tristate}
    (h : ∀ a ∈ items, (question a).Meets terms fun r => r = .yes -> P a) :
    (decisiveFrom known question items).Meets terms
      fun r => r = .yes -> known = .yes ∨ ∃ a ∈ items, P a := by
  induction items generalizing known with
  | nil => simp [decisiveFrom]
  | cons a rest ih =>
      rw [List.forall_mem_cons] at h
      apply h.1.bind
      intro r hr
      have hrest : ∀ known' : Tristate, (known' = .yes -> known = .yes) ->
          (decisiveFrom known' question rest).Meets terms
            fun r => r = .yes -> known = .yes ∨ ∃ b ∈ a :: rest, P b := by
        intro known' hknown'
        apply (ih h.2).imp
        intro s hs hyes
        rcases hs hyes with hknown | ⟨b, hb, hP⟩
        · exact Or.inl (hknown' hknown)
        · exact Or.inr ⟨b, List.mem_cons_of_mem _ hb, hP⟩
      cases r with
      | yes => exact fun _ => Or.inr ⟨a, List.mem_cons_self, hr rfl⟩
      | no => exact hrest .no (by simp)
      | maybe => exact hrest known id

theorem meets_decisive
    (h : ∀ a ∈ items, (question a).Meets terms fun r => r = .yes -> P a) :
    (decisive question items).Meets terms fun r => r = .yes -> ∃ a ∈ items, P a :=
  (meets_decisiveFrom h).imp fun _ hr hyes => (hr hyes).resolve_left (by decide)

end Summaries

end Inquiry
end GradualTypes
