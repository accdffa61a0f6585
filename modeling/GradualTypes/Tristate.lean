/-!
# Three-valued answers

A question about types is answered `yes`, `no` or `maybe`, where `maybe` is an
ordinary answer: what is known statically does not decide the question.

The answers are ordered `no < maybe < yes`.  Conjunction is the minimum and
disjunction the maximum of that order.  Two further summaries of a list occur
in the relations: `unanimous`, for a value that may be any one of several
members, and `decisive`, for a value that is all of several members at once.
-/

namespace GradualTypes

inductive Tristate where
  | no
  | maybe
  | yes
deriving DecidableEq, Hashable, Repr, Inhabited

namespace Tristate

/-- The position of an answer in the order `no < maybe < yes`. -/
def rank : Tristate -> Nat
  | no => 0
  | maybe => 1
  | yes => 2

instance : LE Tristate where
  le a b := a.rank ≤ b.rank

instance (a b : Tristate) : Decidable (a ≤ b) :=
  inferInstanceAs (Decidable (a.rank ≤ b.rank))

def ofBool : Bool -> Tristate
  | true => yes
  | false => no

def and : Tristate -> Tristate -> Tristate
  | no, _ => no
  | _, no => no
  | maybe, _ => maybe
  | _, maybe => maybe
  | yes, yes => yes

def or : Tristate -> Tristate -> Tristate
  | yes, _ => yes
  | _, yes => yes
  | maybe, _ => maybe
  | _, maybe => maybe
  | no, no => no

def negate : Tristate -> Tristate
  | yes => no
  | no => yes
  | maybe => maybe

/-!
# Summaries of a list of answers
-/

/-- The weakest answer of a list, `yes` for none. -/
def all : List Tristate -> Tristate
  | [] => yes
  | a :: rest => a.and (all rest)

/-- The strongest answer of a list, `no` for none. -/
def any : List Tristate -> Tristate
  | [] => no
  | a :: rest => a.or (any rest)

/-- The common answer of a list whose answers all agree, otherwise `maybe`;
`maybe` for the empty list. -/
def unanimous : List Tristate -> Tristate
  | [] => maybe
  | a :: rest => if rest.all (· == a) then a else maybe

/-- `yes` if some answer is `yes`, else `no` if some answer is `no`, else
`maybe`: one definite member settles the matter. -/
def decisive (answers : List Tristate) : Tristate :=
  if answers.contains yes then yes
  else if answers.contains no then no
  else maybe

/-!
# Laws of the order
-/

theorem le_refl (a : Tristate) : a ≤ a := Nat.le_refl _

theorem le_trans {a b c : Tristate} (hab : a ≤ b) (hbc : b ≤ c) : a ≤ c :=
  Nat.le_trans hab hbc

theorem le_antisymm {a b : Tristate} (hab : a ≤ b) (hba : b ≤ a) : a = b := by
  revert hab hba
  cases a <;> cases b <;> decide

theorem no_le (a : Tristate) : no ≤ a := Nat.zero_le _

theorem le_yes (a : Tristate) : a ≤ yes := by
  cases a <;> decide

@[simp] theorem yes_and (a : Tristate) : yes.and a = a := by
  cases a <;> rfl

@[simp] theorem and_yes (a : Tristate) : a.and yes = a := by
  cases a <;> rfl

@[simp] theorem no_and (a : Tristate) : no.and a = no := by
  cases a <;> rfl

@[simp] theorem and_no (a : Tristate) : a.and no = no := by
  cases a <;> rfl

@[simp] theorem no_or (a : Tristate) : no.or a = a := by
  cases a <;> rfl

@[simp] theorem or_no (a : Tristate) : a.or no = a := by
  cases a <;> rfl

@[simp] theorem yes_or (a : Tristate) : yes.or a = yes := by
  cases a <;> rfl

@[simp] theorem or_yes (a : Tristate) : a.or yes = yes := by
  cases a <;> rfl

theorem and_assoc (a b c : Tristate) : (a.and b).and c = a.and (b.and c) := by
  cases a <;> cases b <;> cases c <;> rfl

theorem or_assoc (a b c : Tristate) : (a.or b).or c = a.or (b.or c) := by
  cases a <;> cases b <;> cases c <;> rfl

theorem le_and_iff {a b c : Tristate} : a ≤ b.and c ↔ a ≤ b ∧ a ≤ c := by
  cases a <;> cases b <;> cases c <;> decide

theorem or_le_iff {a b c : Tristate} : a.or b ≤ c ↔ a ≤ c ∧ b ≤ c := by
  cases a <;> cases b <;> cases c <;> decide

/-!
# Summaries are monotone
-/

theorem and_mono {a b c d : Tristate} (hab : a ≤ b) (hcd : c ≤ d) : a.and c ≤ b.and d := by
  revert hab hcd
  cases a <;> cases b <;> cases c <;> cases d <;> decide

theorem or_mono {a b c d : Tristate} (hab : a ≤ b) (hcd : c ≤ d) : a.or c ≤ b.or d := by
  revert hab hcd
  cases a <;> cases b <;> cases c <;> cases d <;> decide

theorem and_le_or (a b : Tristate) : a.and b ≤ a.or b := by
  cases a <;> cases b <;> decide

section Mono

variable {α : Type} {f g : α -> Tristate} {items : List α}

theorem all_mono (hfg : ∀ x ∈ items, f x ≤ g x) : all (items.map f) ≤ all (items.map g) := by
  induction items with
  | nil => exact le_refl _
  | cons x rest ih =>
      rw [List.forall_mem_cons] at hfg
      exact and_mono hfg.1 (ih hfg.2)

theorem any_mono (hfg : ∀ x ∈ items, f x ≤ g x) : any (items.map f) ≤ any (items.map g) := by
  induction items with
  | nil => exact le_refl _
  | cons x rest ih =>
      rw [List.forall_mem_cons] at hfg
      exact or_mono hfg.1 (ih hfg.2)

end Mono

/-- The weakest answer is at most the strongest one if there is an answer. -/
theorem all_le_any {answers : List Tristate} (hne : answers ≠ []) : all answers ≤ any answers := by
  induction answers with
  | nil => exact absurd rfl hne
  | cons a rest ih =>
      cases rest with
      | nil => simp [all, any, le_refl]
      | cons b rest => exact le_trans (and_le_or a _) (or_mono (le_refl a) (ih (by simp)))

/-!
# When a summary is `yes`
-/

theorem and_eq_yes_iff {a b : Tristate} : a.and b = yes ↔ a = yes ∧ b = yes := by
  cases a <;> cases b <;> decide

theorem or_eq_yes_iff {a b : Tristate} : a.or b = yes ↔ a = yes ∨ b = yes := by
  cases a <;> cases b <;> decide

theorem all_eq_yes_iff {answers : List Tristate} :
    all answers = yes ↔ ∀ a ∈ answers, a = yes := by
  induction answers with
  | nil => simp [all]
  | cons a rest ih => rw [all, and_eq_yes_iff, ih, List.forall_mem_cons]

theorem any_eq_yes_iff {answers : List Tristate} : any answers = yes ↔ yes ∈ answers := by
  induction answers with
  | nil => simp [any]
  | cons a rest ih =>
      rw [any, List.mem_cons, ← ih]
      cases a <;> cases any rest <;> decide

/-- A list is unanimous in a definite answer if it has answers and all are that
one. -/
theorem unanimous_eq_iff {answers : List Tristate} {a : Tristate} (ha : a ≠ maybe) :
    unanimous answers = a ↔ answers ≠ [] ∧ ∀ b ∈ answers, b = a := by
  cases answers with
  | nil => simpa [unanimous] using ha.symm
  | cons b rest =>
      simp only [unanimous, ne_eq, reduceCtorEq, not_false_eq_true, true_and,
        List.forall_mem_cons]
      split
      · rename_i hall
        rw [List.all_eq_true] at hall
        constructor
        · intro heq
          subst heq
          exact ⟨rfl, fun c hc => by simpa using hall c hc⟩
        · exact And.left
      · rename_i hall
        constructor
        · intro hmaybe
          exact absurd hmaybe.symm ha
        · intro hall
          rcases hall with ⟨rfl, hrest⟩
          exact absurd (List.all_eq_true.mpr fun c hc => by simp [hrest c hc]) hall

theorem decisive_eq_yes_iff {answers : List Tristate} :
    decisive answers = yes ↔ yes ∈ answers := by
  unfold decisive
  split
  · simp_all
  · split <;> simp_all

/-!
# When a summary is `no`
-/

theorem and_eq_no_iff {a b : Tristate} : a.and b = no ↔ a = no ∨ b = no := by
  cases a <;> cases b <;> decide

theorem all_eq_no_iff {answers : List Tristate} : all answers = no ↔ no ∈ answers := by
  induction answers with
  | nil => simp [all]
  | cons a rest ih => rw [all, and_eq_no_iff, ih, List.mem_cons, eq_comm (a := a)]

theorem any_eq_no_iff {answers : List Tristate} :
    any answers = no ↔ ∀ a ∈ answers, a = no := by
  induction answers with
  | nil => simp [any]
  | cons a rest ih =>
      rw [any, List.forall_mem_cons, ← ih]
      cases a <;> cases any rest <;> decide

theorem decisive_eq_no_iff {answers : List Tristate} :
    decisive answers = no ↔ yes ∉ answers ∧ no ∈ answers := by
  unfold decisive
  split
  · simp_all
  · split <;> simp_all

end Tristate
end GradualTypes
