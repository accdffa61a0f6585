import GradualTypes.Tristate
import GradualTypes.Ty.Basic

/-!
# Inquiries

An inquiry is a computation over types that may ask whether one type is
contained in another.  It says what to ask and how to go on after each answer,
but not where answers come from.  So one definition of an operation serves two
readings: `Inquiry.value` takes all answers from a fixed relation, and a session
answers from its memory, within its limits.

An inquiry also announces the types and texts that it builds, and the places
where a new series of questions starts.  A fixed relation has no use for these
announcements; a session counts the types and texts it has seen, and gives every
series of questions a fresh allowance.
-/

namespace GradualTypes

inductive Inquiry (α : Type) where
  | done (a : α)
  /-- Go on with the answer to whether the source is contained in the target. -/
  | ask (source target : Ty) (next : Tristate -> Inquiry α)
  | announce (t : Ty) (next : Unit -> Inquiry α)
  | announceText (s : String) (next : Unit -> Inquiry α)
  | restart (next : Unit -> Inquiry α)

namespace Inquiry

variable {α β : Type}

/-- The result of an inquiry all of whose questions a relation answers. -/
def value (relation : Ty -> Ty -> Tristate) : Inquiry α -> α
  | done a => a
  | ask source target next => (next (relation source target)).value relation
  | announce _ next => (next ()).value relation
  | announceText _ next => (next ()).value relation
  | restart next => (next ()).value relation

def bind : Inquiry α -> (α -> Inquiry β) -> Inquiry β
  | done a, f => f a
  | ask source target next, f => ask source target fun answer => (next answer).bind f
  | announce t next, f => announce t fun _ => (next ()).bind f
  | announceText s next, f => announceText s fun _ => (next ()).bind f
  | restart next, f => restart fun _ => (next ()).bind f

instance : Monad Inquiry where
  pure := done
  bind := bind

theorem bind_done (q : Inquiry α) : q.bind done = q := by
  induction q with
  | done a => rfl
  | ask source target next ih => exact congrArg _ (funext ih)
  | announce t next ih => exact congrArg _ (funext ih)
  | announceText s next ih => exact congrArg _ (funext ih)
  | restart next ih => exact congrArg _ (funext ih)

theorem bind_bind {γ : Type} (q : Inquiry α) (f : α -> Inquiry β)
    (g : β -> Inquiry γ) : (q.bind f).bind g = q.bind fun a => (f a).bind g := by
  induction q with
  | done a => rfl
  | ask source target next ih => exact congrArg _ (funext ih)
  | announce t next ih => exact congrArg _ (funext ih)
  | announceText s next ih => exact congrArg _ (funext ih)
  | restart next ih => exact congrArg _ (funext ih)

instance : LawfulMonad Inquiry :=
  LawfulMonad.mk' Inquiry bind_done (fun _ _ => rfl) bind_bind

@[simp] theorem value_pure (relation : Ty -> Ty -> Tristate) (a : α) :
    (pure a : Inquiry α).value relation = a := rfl

@[simp] theorem value_bind (relation : Ty -> Ty -> Tristate) (q : Inquiry α)
    (f : α -> Inquiry β) :
    (q >>= f).value relation = (f (q.value relation)).value relation := by
  show (q.bind f).value relation = _
  induction q with
  | done a => rfl
  | ask source target next ih => exact ih _
  | announce t next ih => exact ih _
  | announceText s next ih => exact ih _
  | restart next ih => exact ih _

@[simp] theorem value_map (relation : Ty -> Ty -> Tristate) (f : α -> β)
    (q : Inquiry α) : (f <$> q).value relation = f (q.value relation) := by
  rw [← bind_pure_comp, value_bind, value_pure]

theorem value_mapM (relation : Ty -> Ty -> Tristate) (f : α -> Inquiry β) (items : List α) :
    (items.mapM f).value relation = items.map fun a => (f a).value relation := by
  induction items with
  | nil => rfl
  | cons a rest ih => rw [List.mapM_cons, value_bind, value_bind, ih, value_pure, List.map_cons]

/-!
# Single steps
-/

def isContained (source target : Ty) : Inquiry Tristate :=
  ask source target pure

def built (t : Ty) : Inquiry Ty :=
  announce t fun _ => pure t

def text (s : String) : Inquiry Unit :=
  announceText s pure

def fresh : Inquiry Unit :=
  restart pure

/-!
# Questions about all members of a list

The questions are asked in order, and only until the summary is settled.
-/

def allFrom (known : Tristate) (question : α -> Inquiry Tristate) :
    List α -> Inquiry Tristate
  | [] => pure known
  | a :: rest => do
      let known := known.and (← question a)
      if known = .no then pure .no else allFrom known question rest

/-- The weakest answer. -/
def all (question : α -> Inquiry Tristate) (items : List α) : Inquiry Tristate :=
  allFrom .yes question items

def anyFrom (known : Tristate) (question : α -> Inquiry Tristate) :
    List α -> Inquiry Tristate
  | [] => pure known
  | a :: rest => do
      let known := known.or (← question a)
      if known = .yes then pure .yes else anyFrom known question rest

/-- The strongest answer. -/
def any (question : α -> Inquiry Tristate) (items : List α) : Inquiry Tristate :=
  anyFrom .no question items

def unanimousFrom (first : Tristate) (question : α -> Inquiry Tristate) :
    List α -> Inquiry Tristate
  | [] => pure first
  | a :: rest => do
      if (← question a) = first then unanimousFrom first question rest
      else pure .maybe

/-- The common answer if all agree, otherwise `maybe`. -/
def unanimous (question : α -> Inquiry Tristate) :
    List α -> Inquiry Tristate
  | [] => pure .maybe
  | a :: rest => do
      let first ← question a
      if first = .maybe then pure .maybe else unanimousFrom first question rest

def decisiveFrom (known : Tristate) (question : α -> Inquiry Tristate) :
    List α -> Inquiry Tristate
  | [] => pure known
  | a :: rest => do
      match ← question a with
      | .yes => pure .yes
      | .no => decisiveFrom .no question rest
      | .maybe => decisiveFrom known question rest

/-- `yes` if some answer is `yes`, else `no` if some answer is `no`, else
`maybe`. -/
def decisive (question : α -> Inquiry Tristate) (items : List α) :
    Inquiry Tristate :=
  decisiveFrom .maybe question items

/-!
# The summaries under a fixed relation
-/

section Value

variable (relation : Ty -> Ty -> Tristate) (question : α -> Inquiry Tristate)

theorem value_allFrom (known : Tristate) (items : List α) :
    (allFrom known question items).value relation =
      known.and (.all (items.map fun a => (question a).value relation)) := by
  induction items generalizing known with
  | nil => simp [allFrom, Tristate.all]
  | cons a rest ih =>
      simp only [allFrom, value_bind, List.map_cons, Tristate.all]
      rw [← Tristate.and_assoc]
      split
      · simp [*]
      · exact ih _

theorem value_all (items : List α) :
    (all question items).value relation =
      .all (items.map fun a => (question a).value relation) := by
  rw [all, value_allFrom, Tristate.yes_and]

theorem value_anyFrom (known : Tristate) (items : List α) :
    (anyFrom known question items).value relation =
      known.or (.any (items.map fun a => (question a).value relation)) := by
  induction items generalizing known with
  | nil => simp [anyFrom, Tristate.any]
  | cons a rest ih =>
      simp only [anyFrom, value_bind, List.map_cons, Tristate.any]
      rw [← Tristate.or_assoc]
      split
      · simp [*]
      · exact ih _

theorem value_any (items : List α) :
    (any question items).value relation =
      .any (items.map fun a => (question a).value relation) := by
  rw [any, value_anyFrom, Tristate.no_or]

theorem value_unanimousFrom (first : Tristate) (items : List α) :
    (unanimousFrom first question items).value relation =
      if (items.map fun a => (question a).value relation).all (· == first) then first
      else .maybe := by
  induction items with
  | nil => simp [unanimousFrom]
  | cons a rest ih =>
      simp only [unanimousFrom, value_bind, List.map_cons, List.all_cons]
      split <;> simp_all

theorem value_unanimous (items : List α) :
    (unanimous question items).value relation =
      .unanimous (items.map fun a => (question a).value relation) := by
  cases items with
  | nil => rfl
  | cons a rest =>
      simp only [unanimous, value_bind, List.map_cons, Tristate.unanimous]
      split <;> simp_all [value_unanimousFrom]

theorem value_decisiveFrom (known : Tristate) (h : known ≠ .yes) (items : List α) :
    (decisiveFrom known question items).value relation =
      .decisive (known :: items.map fun a => (question a).value relation) := by
  induction items generalizing known with
  | nil => cases known <;> simp_all [decisiveFrom, Tristate.decisive]
  | cons a rest ih =>
      simp only [decisiveFrom, value_bind, List.map_cons]
      cases (question a).value relation
      · rw [ih .no (by decide)]
        cases known <;> simp_all [Tristate.decisive]
      · rw [ih known h]
        cases known <;> simp_all [Tristate.decisive]
      · simp [Tristate.decisive]

theorem value_decisive (items : List α) :
    (decisive question items).value relation =
      .decisive (items.map fun a => (question a).value relation) := by
  rw [decisive, value_decisiveFrom _ _ _ (by decide)]
  simp [Tristate.decisive]

end Value

end Inquiry
end GradualTypes
