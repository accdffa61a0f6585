import GradualTypes.Proofs.Kinship
import GradualTypes.Proofs.Parts
import GradualTypes.Proofs.Rules

/-!
# Types that share no value

`Subtype.Clash` has the rules by which two types that are neither unions nor
intersections share no value, given which of their parts do not.  Most of them are
types of different categories; the others contradict each other in a literal, an
interval, a class or an entry.  `Subtype.Apart` extends this to all types.

The rules are written for one order of the two types, but the relation has no
order.
-/

namespace GradualTypes

/-- The kinds of values of the language. -/
inductive Category where
  | null
  | void
  | bool
  | int
  | float
  | string
  | object
  | array
  | resource
deriving DecidableEq

namespace Keyword

def categories : Keyword -> List Category
  | null => [.null]
  | void => [.void]
  | bool => [.bool]
  | int => [.int]
  | float => [.float]
  | string => [.string]
  | object => [.object]
  | callable => [.string, .object, .array]
  | resource => [.resource]
  | mixed => []
  | never => []

end Keyword

namespace Ty

/-- The categories of the values of an ordinary type that is neither a union nor
an intersection. -/
def categories : Ty -> List Category
  | keyword k => k.categories
  | literal v => v.base.categories
  | range _ => [.int]
  | object _ _ => [.object]
  | this _ => [.object]
  | array _ _ => [.array]
  | shape _ => [.array]
  | accessory .nonEmptyArray => [.array]
  | accessory .nonEmptyString => [.string]
  | accessory (.hasProperty _) => [.object]
  | accessory (.hasOffset _) => [.array]
  | _ => []

/-- Whether a type stands for no value or is no type of the language. -/
def isAbsent (t : Ty) : Bool :=
  t.isUnknown || t.isMissing || t == .never

end Ty

namespace Subtype

variable {h : Hierarchy} {R R' : Ty -> Ty -> Prop} {s t : Ty}

/-!
# The rules
-/

/-- When two ordinary types share no value, neither of them a union or an
intersection, given which parts share none. -/
inductive Clash (h : Hierarchy) (R : Ty -> Ty -> Prop) : Ty -> Ty -> Prop where
  | categories {s t : Ty} :
      s.isOrdinary = true -> t.isOrdinary = true ->
      s.isSimple = true -> t.isSimple = true ->
      (∀ c ∈ s.categories, c ∉ t.categories) ->
      Clash h R s t
  | literals {v w : Literal} : v ≠ w -> Clash h R (.literal v) (.literal w)
  | literal_range {n : Int} {r : IntRange} :
      r.contains n = false -> Clash h R (.literal (.int n)) (.range r)
  | ranges {r r' : IntRange} : r.overlaps r' = false -> Clash h R (.range r) (.range r')
  | empty_text : Clash h R (.literal (.text "")) (.accessory .nonEmptyString)
  | classes {s t : Ty} {c d : String} :
      s.className? = some c -> t.className? = some d -> h.kinship c d = .disjoint ->
      Clash h R s t
  | arguments {c d : String} {source target : List Ty} {pair : Ty × Ty} :
      c.toLower = d.toLower ->
      source.length = target.length ->
      pair ∈ source.zip target ->
      R pair.1 pair.2 ->
      Clash h R (.object c source) (.object d target)
  | uncallable {c : String} : h.isInvokable c = .no -> Clash h R (.this c) .callable
  | property {s : Ty} {c name : String} :
      s.className? = some c -> h.hasProperty c name = .no ->
      Clash h R s (.accessory (.hasProperty name))
  | missing {source target : List (Entry Ty)} {e : Entry Ty} :
      e ∈ source -> e.optional = false -> Shape.entry? target e.key = none ->
      Clash h R (.shape source) (.shape target)
  | values {source target : List (Entry Ty)} {e f : Entry Ty} :
      e ∈ source -> f ∈ target -> e.key = f.key ->
      ¬ (e.optional = true ∧ f.optional = true) ->
      R e.value f.value ->
      Clash h R (.shape source) (.shape target)
  | entry_key {entries : List (Entry Ty)} {e : Entry Ty} {k v : Ty} :
      e ∈ entries -> e.optional = false -> R (Ty.ofKey e.key) k ->
      Clash h R (.shape entries) (.array k v)
  | entry_value {entries : List (Entry Ty)} {e : Entry Ty} {k v : Ty} :
      e ∈ entries -> e.optional = false -> R e.value v ->
      Clash h R (.shape entries) (.array k v)
  | empty_shape : Clash h R (.shape []) (.accessory .nonEmptyArray)
  | offset_missing {entries : List (Entry Ty)} {key : Key} :
      Shape.entry? entries key = none ->
      Clash h R (.shape entries) (.accessory (.hasOffset key))
  | offset_key {key : Key} {k v : Ty} :
      R (Ty.ofKey key) k -> Clash h R (.array k v) (.accessory (.hasOffset key))

/-- When two types share no value. -/
inductive Apart (h : Hierarchy) : Ty -> Ty -> Prop where
  | absent_left {s t : Ty} : s.isAbsent = true -> Apart h s t
  | absent_right {s t : Ty} : t.isAbsent = true -> Apart h s t
  | union_left {flavor : Flavor} {members : List Ty} {t : Ty} :
      (∀ m ∈ members, Apart h m t) -> Apart h (.union flavor members) t
  | union_right {s : Ty} {flavor : Flavor} {members : List Ty} :
      (∀ m ∈ members, Apart h s m) -> Apart h s (.union flavor members)
  | inter_left {members : List Ty} {m t : Ty} :
      m ∈ members -> Apart h m t -> Apart h (.inter members) t
  | inter_right {s m : Ty} {members : List Ty} :
      m ∈ members -> Apart h s m -> Apart h s (.inter members)
  | clash {R : Ty -> Ty -> Prop} {s t : Ty} :
      (∀ a b, R a b -> Apart h a b) -> Clash h R s t -> Apart h s t
  | clash_symm {R : Ty -> Ty -> Prop} {s t : Ty} :
      (∀ a b, R a b -> Apart h a b) -> Clash h R s t -> Apart h t s

theorem Clash.mono (hclash : Clash h R s t) (hR : ∀ a b, R a b -> R' a b) : Clash h R' s t := by
  cases hclash with
  | categories hs ht hs' ht' hdiffer => exact .categories hs ht hs' ht' hdiffer
  | literals hne => exact .literals hne
  | literal_range hn => exact .literal_range hn
  | ranges hr => exact .ranges hr
  | empty_text => exact .empty_text
  | classes hc hd hdisjoint => exact .classes hc hd hdisjoint
  | arguments hcls hlength hpair hparts => exact .arguments hcls hlength hpair (hR _ _ hparts)
  | uncallable hno => exact .uncallable hno
  | property hc hno => exact .property hc hno
  | missing he hrequired hnone => exact .missing he hrequired hnone
  | values he hf hkey hoptional hparts => exact .values he hf hkey hoptional (hR _ _ hparts)
  | entry_key he hrequired hparts => exact .entry_key he hrequired (hR _ _ hparts)
  | entry_value he hrequired hparts => exact .entry_value he hrequired (hR _ _ hparts)
  | empty_shape => exact .empty_shape
  | offset_missing hnone => exact .offset_missing hnone
  | offset_key hparts => exact .offset_key (hR _ _ hparts)

theorem className?_cases {c : String} (hc : s.className? = some c) :
    (∃ arguments, s = .object c arguments) ∨ s = .this c := by
  cases s <;> simp [Ty.className?] at hc
  · exact Or.inl ⟨_, by rw [hc]⟩
  · exact Or.inr (by rw [hc])

theorem isPlain_of_className? {c : String} (hc : s.className? = some c) :
    s.isSimple = true ∧ s.isOrdinary = true := by
  rcases className?_cases hc with ⟨arguments, rfl⟩ | rfl <;>
    simp [Ty.isSimple, Ty.isOrdinary, Ty.isUnknown, Ty.isMissing]

theorem Clash.isSimple (hclash : Clash h R s t) : s.isSimple = true ∧ t.isSimple = true := by
  cases hclash with
  | categories hs ht hs' ht' hdiffer => exact ⟨hs', ht'⟩
  | classes hc hd hdisjoint => exact ⟨(isPlain_of_className? hc).1, (isPlain_of_className? hd).1⟩
  | property hc hno => exact ⟨(isPlain_of_className? hc).1, rfl⟩
  | _ => exact ⟨rfl, rfl⟩

theorem Clash.isOrdinary (hclash : Clash h R s t) :
    s.isOrdinary = true ∧ t.isOrdinary = true := by
  cases hclash with
  | categories hs ht hs' ht' hdiffer => exact ⟨hs, ht⟩
  | classes hc hd hdisjoint => exact ⟨(isPlain_of_className? hc).2, (isPlain_of_className? hd).2⟩
  | property hc hno => exact ⟨(isPlain_of_className? hc).2, by
      simp [Ty.isOrdinary, Ty.isUnknown, Ty.isMissing]⟩
  | _ => simp [Ty.isOrdinary, Ty.isUnknown, Ty.isMissing]

/-!
# Consequences of being apart
-/

theorem Apart.symm (hapart : Apart h s t) : Apart h t s := by
  induction hapart with
  | absent_left hs => exact .absent_right hs
  | absent_right ht => exact .absent_left ht
  | union_left _ ih => exact .union_right ih
  | union_right _ ih => exact .union_left ih
  | inter_left hm _ ih => exact .inter_right hm ih
  | inter_right hm _ ih => exact .inter_left hm ih
  | clash hR hclash _ => exact .clash_symm hR hclash
  | clash_symm hR hclash _ => exact .clash hR hclash

theorem isOrdinary_of_isAbsent (ht : t.isAbsent = true) : t.isOrdinary = false := by
  cases t <;> simp_all [Ty.isAbsent, Ty.isOrdinary, Ty.isUnknown, Ty.isMissing]

theorem Apart.mem_union {flavor : Flavor} {members : List Ty}
    (hapart : Apart h (.union flavor members) t) {m : Ty} (hm : m ∈ members) : Apart h m t := by
  generalize hs : Ty.union flavor members = s at hapart
  induction hapart with
  | absent_left habsent => subst hs; cases habsent
  | absent_right habsent => exact .absent_right habsent
  | union_left hall _ => cases hs; exact hall m hm
  | union_right _ ih => exact .union_right fun u hu => ih u hu hs
  | inter_left _ _ _ => cases hs
  | inter_right hu _ ih => exact .inter_right hu (ih hs)
  | clash _ hclash _ => subst hs; cases hclash.isSimple.1
  | clash_symm _ hclash _ => subst hs; cases hclash.isSimple.2

theorem Apart.of_mixed (hapart : Apart h .mixed t) (s : Ty) : Apart h s t := by
  generalize hmixed : Ty.mixed = u at hapart
  induction hapart with
  | absent_left habsent => subst hmixed; cases habsent
  | absent_right habsent => exact .absent_right habsent
  | union_left _ _ => cases hmixed
  | union_right _ ih => exact .union_right fun m hm => ih m hm hmixed
  | inter_left _ _ _ => cases hmixed
  | inter_right hm _ ih => exact .inter_right hm (ih hmixed)
  | clash _ hclash _ => subst hmixed; cases hclash.isOrdinary.1
  | clash_symm _ hclash _ => subst hmixed; cases hclash.isOrdinary.2

/-- How another type looks that is apart from an intersection. -/
theorem Apart.inter_cases {members : List Ty} (hapart : Apart h (.inter members) t) :
    (∃ m ∈ members, Apart h m t) ∨ t.isAbsent = true ∨
      (∃ flavor ts, t = .union flavor ts ∧ ∀ u ∈ ts, Apart h (.inter members) u) ∨
      ∃ ts, t = .inter ts ∧ ∃ u ∈ ts, Apart h (.inter members) u := by
  cases hapart with
  | absent_left habsent => cases habsent
  | absent_right habsent => exact Or.inr (Or.inl habsent)
  | union_right hall => exact Or.inr (Or.inr (Or.inl ⟨_, _, rfl, hall⟩))
  | inter_left hm hmt => exact Or.inl ⟨_, hm, hmt⟩
  | inter_right hu hmu => exact Or.inr (Or.inr (Or.inr ⟨_, rfl, _, hu, hmu⟩))
  | clash _ hclash => cases hclash.isSimple.1
  | clash_symm _ hclash => cases hclash.isSimple.2

/-- How another type looks that is apart from a type that is neither a union nor
an intersection. -/
theorem Apart.simple_cases (hapart : Apart h s t) (hsimple : s.isSimple = true)
    (hordinary : s.isOrdinary = true) :
    t.isAbsent = true ∨
      (∃ flavor ts, t = .union flavor ts ∧ ∀ u ∈ ts, Apart h s u) ∨
      (∃ ts, t = .inter ts ∧ ∃ u ∈ ts, Apart h s u) ∨
      Clash h (Apart h) s t ∨ Clash h (Apart h) t s := by
  cases hapart with
  | absent_left habsent => cases hordinary.symm.trans (isOrdinary_of_isAbsent habsent)
  | absent_right habsent => exact Or.inl habsent
  | union_left _ => cases hsimple
  | union_right hall => exact Or.inr (Or.inl ⟨_, _, rfl, hall⟩)
  | inter_left _ _ => cases hsimple
  | inter_right hu hsu => exact Or.inr (Or.inr (Or.inl ⟨_, rfl, _, hu, hsu⟩))
  | clash hR hclash => exact Or.inr (Or.inr (Or.inr (Or.inl (hclash.mono hR))))
  | clash_symm hR hclash => exact Or.inr (Or.inr (Or.inr (Or.inr (hclash.mono hR))))

theorem Apart.of_clash (hclash : Clash h (Apart h) s t) : Apart h s t :=
  .clash (fun _ _ hab => hab) hclash

theorem not_apart_literal (v : Literal) : ¬ Apart h (.literal v) (.literal v) := by
  have hself : ¬ Clash h (Apart h) (.literal v) (.literal v) := by
    intro hclash
    cases hclash with
    | categories _ _ _ _ hdiffer =>
        cases v <;> simp [Ty.categories, Literal.base, Keyword.categories] at hdiffer
    | literals hne => exact hne rfl
    | classes hc hd hdisjoint => cases hc
  intro hapart
  rcases hapart.simple_cases rfl (by simp [Ty.isOrdinary, Ty.isUnknown, Ty.isMissing]) with
    habsent | ⟨_, _, heq, _⟩ | ⟨_, heq, _⟩ | hclash | hclash
  · cases habsent
  · cases heq
  · cases heq
  · exact hself hclash
  · exact hself hclash

theorem not_apart_ofKey (key : Key) : ¬ Apart h (Ty.ofKey key) (Ty.ofKey key) := by
  cases key <;> exact not_apart_literal _

end Subtype
end GradualTypes
