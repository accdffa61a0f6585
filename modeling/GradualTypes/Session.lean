import GradualTypes.Options
import GradualTypes.Subtype
import GradualTypes.Text.Vocabulary

/-!
# Sessions

A session performs inquiries one after another.  It remembers the answers it has
found, and numbers the types and texts that were announced to it.

A question is followed to a depth of `relationDepth` steps.  Beyond that the
answer is `maybe`, and from there on no answer of the same series is remembered,
because it may have been found with less than full knowledge.
-/

namespace GradualTypes

structure Session where
  hierarchy : Hierarchy
  options : Options
  types : Numbering Ty
  texts : Text.Vocabulary
  /-- The remembered answers, by source and target. -/
  answers : Std.HashMap (Ty × Ty) Tristate
  /-- Whether the current series of questions has met the depth limit. -/
  limited : Bool

namespace Session

def new (hierarchy : Hierarchy) (options : Options) : Session where
  hierarchy := hierarchy
  options := options
  types := .empty
  texts := Text.Vocabulary.fresh.withCommonWords
  answers := {}
  limited := false

instance : Inhabited Session := ⟨new default default⟩

def remembered? (σ : Session) (source target : Ty) : Option Tristate :=
  σ.answers[(source, target)]?

def remember (σ : Session) (source target : Ty) (answer : Tristate) : Session :=
  { σ with answers := σ.answers.insert (source, target) answer }

/-- Remember an answer, unless the depth limit has been met. -/
def settle (σ : Session) (source target : Ty) (answer : Tristate) : Session :=
  if σ.limited then σ else σ.remember source target answer

/-- Perform an inquiry, given how questions are answered. -/
def run {α : Type} (answer : Ty -> Ty -> Session -> Tristate × Session) :
    Inquiry α -> Session -> α × Session
  | .done a, σ => (a, σ)
  | .ask source target next, σ =>
      let (reply, σ) := answer source target σ
      run answer (next reply) σ
  | .announce t next, σ => run answer (next ()) { σ with types := σ.types.enter t }
  | .announceText s next, σ =>
      run answer (next ()) { σ with texts := σ.texts.enter s }
  | .restart next, σ => run answer (next ()) { σ with limited := false }

/-- Answer a question with the given number of steps left. -/
def answer : Nat -> Ty -> Ty -> Session -> Tristate × Session
  | 0 => fun source target σ =>
      if source = target then
        (.yes, σ)
      else
        match σ.remembered? source target with
        | some known => (known, σ)
        | none => (.maybe, { σ with limited := true })
  | depth + 1 => fun source target σ =>
      if source = target then
        (.yes, σ)
      else
        match σ.remembered? source target with
        | some known => (known, σ)
        | none =>
            let (found, σ) :=
              run (answer depth) (Subtype.check σ.hierarchy source target) σ
            (found, σ.settle source target found)

def perform {α : Type} (σ : Session) (q : Inquiry α) : α × Session :=
  run (answer relationDepth) q σ

end Session
end GradualTypes
