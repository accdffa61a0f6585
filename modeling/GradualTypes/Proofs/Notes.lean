import GradualTypes.Proofs.DepthLimit

/-!
# Computed sessions

What a session answers depends on its hash table only through what it finds there.  A function can
take the place of the table, and with such notes the answers of a session can be computed from the
start, among them those that are given beyond the depth limit.
-/

namespace GradualTypes

open Inquiry

/-- What a session knows from earlier questions. -/
structure Notes where
  known : Ty -> Ty -> Option Tristate
  limited : Bool

namespace Notes

variable {α : Type}

def blank : Notes where
  known := fun _ _ => none
  limited := false

/-- Note an answer, unless the depth limit has been met. -/
def settle (notes : Notes) (s t : Ty) (r : Tristate) : Notes :=
  if notes.limited then notes
  else { notes with known := fun a b => if (s, t) = (a, b) then some r else notes.known a b }

def run (answer : Ty -> Ty -> Notes -> Tristate × Notes) : Inquiry α -> Notes -> α × Notes
  | .done a, notes => (a, notes)
  | .ask s t next, notes =>
      let (reply, notes) := answer s t notes
      run answer (next reply) notes
  | .announce _ next, notes => run answer (next ()) notes
  | .announceText _ next, notes => run answer (next ()) notes
  | .restart next, notes => run answer (next ()) { notes with limited := false }

/-- Answer a question with the given number of steps left. -/
def answer (h : Hierarchy) : Nat -> Ty -> Ty -> Notes -> Tristate × Notes
  | 0 => fun s t notes =>
      if s = t then
        (.yes, notes)
      else
        match notes.known s t with
        | some known => (known, notes)
        | none => (.maybe, { notes with limited := true })
  | depth + 1 => fun s t notes =>
      if s = t then
        (.yes, notes)
      else
        match notes.known s t with
        | some known => (known, notes)
        | none =>
            let (found, notes) := run (answer h depth) (Subtype.check h s t) notes
            (found, notes.settle s t found)

def perform (notes : Notes) (h : Hierarchy) (q : Inquiry α) : α × Notes :=
  run (answer h relationDepth) q notes

/-!
# Notes and sessions
-/

/-- The notes say what a session knows. -/
structure Describe (h : Hierarchy) (notes : Notes) (σ : Session) : Prop where
  hierarchy : σ.hierarchy = h
  limited : σ.limited = notes.limited
  known : ∀ s t, σ.remembered? s t = notes.known s t

/-- Notes and a session give one result, and the notes describe the session after it. -/
def Agree (h : Hierarchy) (noted : α × Notes) (found : α × Session) : Prop :=
  found.1 = noted.1 ∧ Describe h noted.2 found.2

variable {h : Hierarchy} {notes : Notes} {σ : Session} {s t : Ty}

theorem Describe.settle (hσ : Describe h notes σ) (s t : Ty) (r : Tristate) :
    Describe h (notes.settle s t r) (σ.settle s t r) := by
  unfold Session.settle Notes.settle
  rw [hσ.limited]
  split
  · exact hσ
  · refine ⟨hσ.hierarchy, hσ.limited, fun a b => ?_⟩
    rw [Session.remembered?_remember, hσ.known]

theorem agree_run {answer : Ty -> Ty -> Session -> Tristate × Session}
    {note : Ty -> Ty -> Notes -> Tristate × Notes}
    (hanswer : ∀ s t σ notes, Describe h notes σ -> Agree h (note s t notes) (answer s t σ))
    (q : Inquiry α) (hσ : Describe h notes σ) :
    Agree h (run note q notes) (Session.run answer q σ) := by
  induction q generalizing σ notes with
  | done a => exact ⟨rfl, hσ⟩
  | ask s t next ih =>
      rcases hanswer s t σ notes hσ with ⟨hreply, hσ'⟩
      have hrest := ih (answer s t σ).1 hσ'
      rw [hreply] at hrest
      simpa only [run, Session.run, hreply] using hrest
  | announce t next ih => exact ih () ⟨hσ.hierarchy, hσ.limited, hσ.known⟩
  | announceText s next ih => exact ih () ⟨hσ.hierarchy, hσ.limited, hσ.known⟩
  | restart next ih => exact ih () ⟨hσ.hierarchy, rfl, hσ.known⟩

theorem agree_answer (n : Nat) (s t : Ty) (hσ : Describe h notes σ) :
    Agree h (answer h n s t notes) (Session.answer n s t σ) := by
  induction n generalizing s t σ notes with
  | zero =>
      simp only [answer, Session.answer, hσ.known]
      split
      · exact ⟨rfl, hσ⟩
      · cases notes.known s t with
        | some known => exact ⟨rfl, hσ⟩
        | none => exact ⟨rfl, hσ.hierarchy, rfl, hσ.known⟩
  | succ n ih =>
      simp only [answer, Session.answer, hσ.known]
      split
      · exact ⟨rfl, hσ⟩
      · cases notes.known s t with
        | some known => exact ⟨rfl, hσ⟩
        | none =>
            rcases agree_run (fun a b τ notes hτ => ih a b hτ) (Subtype.check h s t) hσ with
              ⟨hfound, hσ'⟩
            rw [hσ.hierarchy]
            refine ⟨hfound, ?_⟩
            rw [← hfound]
            exact hσ'.settle s t _

theorem Describe.perform (hσ : Describe h notes σ) (q : Inquiry α) :
    Agree h (notes.perform h q) (σ.perform q) :=
  agree_run (fun s t _ _ hτ => agree_answer relationDepth s t hτ) q hσ

/-!
# Computed runs
-/

/-- The notes are those of a session that has made all of the types, and maybe others. -/
def Follow (h : Hierarchy) (options : Options) (notes : Notes) (ts : List Ty) : Prop :=
  ∃ σ us, Run h options (fun _ _ => True) σ us ∧ (∀ t ∈ ts, t ∈ us) ∧ Describe h notes σ

variable {options : Options} {ts : List Ty}

theorem follow_blank (h : Hierarchy) (options : Options) : Follow h options blank [] := by
  refine ⟨Session.new h options, [], .new, by simp, rfl, rfl, fun s t => ?_⟩
  simp [Session.remembered?, Session.new, blank]

theorem Follow.imp (hnotes : Follow h options notes ts) {us : List Ty} (hsubset : ∀ t ∈ us, t ∈ ts) :
    Follow h options notes us := by
  obtain ⟨σ, vs, hrun, hsubset', hσ⟩ := hnotes
  exact ⟨σ, vs, hrun, fun t ht => hsubset' t (hsubset t ht), hσ⟩

theorem Follow.call (hnotes : Follow h options notes ts) (c : Call) {q : Inquiry Ty}
    (hinquiry : c.inquiry options = q) (harguments : ∀ t ∈ c.arguments, t ∈ ts)
    (hresult : (notes.perform h q).1 = t) : Follow h options (notes.perform h q).2 (t :: ts) := by
  obtain ⟨σ, us, hrun, hsubset, hσ⟩ := hnotes
  subst hinquiry
  rcases hσ.perform (c.inquiry options) with ⟨hfound, hσ'⟩
  refine ⟨_, _, hrun.call c (fun u hu => hsubset u (harguments u hu)) trivial, ?_, hσ'⟩
  rw [hfound, hresult, List.forall_mem_cons]
  exact ⟨List.mem_cons_self, fun u hu => List.mem_cons_of_mem _ (hsubset u hu)⟩

/-- The intersection of two types that are compared as they are. -/
def compared (s t : Ty) : Inquiry Ty := do
  fresh
  match ← Intersection.meet s t with
  | .disjoint => return .never
  | .keep => return s
  | .replace => return t
  | .narrowed u => return u
  | .both => Intersection.close [s, t]

theorem Follow.inter (hnotes : Follow h options notes ts)
    (hprepare : Intersection.prepare [s, t] = .inr [s, t])
    (hwhole : Intersection.toDistribute? options.maxIntersectionDistribution [s, t] = none)
    (hs : s ∈ ts) (ht : t ∈ ts) {u : Ty} (hresult : (notes.perform h (compared s t)).1 = u) :
    Follow h options (notes.perform h (compared s t)).2 (u :: ts) := by
  refine hnotes.call (.inter [s, t]) ?_ (by simp [Call.arguments, hs, ht]) hresult
  exact (Intersection.of_compared (by simp) (by simp) hprepare hwhole).trans
    (Intersection.reduce_pair s t)

/-- Arrays are made without questions. -/
theorem Follow.nest (hnotes : Follow h options notes ts) (hint : .int ∈ ts) (ht : t ∈ ts)
    (herror : t ≠ .error) (n : Nat) : Follow h options notes (Ty.nest n t :: ts) := by
  induction n with
  | zero => exact hnotes.imp (List.forall_mem_cons.mpr ⟨ht, fun _ => id⟩)
  | succ n ih =>
      have hne : Ty.nest n t ≠ .error := by
        cases n with
        | zero => exact herror
        | succ n => simp [Ty.nest]
      have hmade : (Call.array .int (Ty.nest n t)).inquiry options =
          built (.array .int (Ty.nest n t)) := if_neg (by simpa using hne)
      refine (ih.call _ hmade (by simp [Call.arguments, hint]) rfl).imp fun u hu => ?_
      rcases List.mem_cons.mp hu with rfl | hu
      · exact List.mem_cons_self
      · exact List.mem_cons_of_mem _ (List.mem_cons_of_mem _ hu)

end Notes
end GradualTypes
