import GradualTypes.Ty.Order

/-!
# Codes determine types

A code can be read from left to right, so what two codes in front of further
integers agree on is the type and the rest.  Hence equal codes belong to equal
types, and a list that is kept sorted by code has each type once.

The canonical order ends in the code.  Sorting a list into that order only
permutes it.
-/

namespace GradualTypes

theorem Double.orderKey_inj {x y : Double} (hkeys : x.orderKey = y.orderKey) : x = y := by
  rcases x with ⟨a⟩
  rcases y with ⟨b⟩
  rw [Double.mk.injEq, ← UInt64.toNat_inj]
  have ha := a.toNat_lt
  have hb := b.toNat_lt
  have hword : Nat.pow 2 63 = 9223372036854775808 := rfl
  simp only [orderKey, isNegative, magnitudeBits, hword, decide_eq_true_eq] at hkeys
  split at hkeys <;> split at hkeys <;> omega

namespace Ty

/-!
# Codes of the parts
-/

section Parts

variable {rest rest' : List Int}

theorem textCode_inj {s s' : String} (hcode : textCode s rest = textCode s' rest') :
    s = s' ∧ rest = rest' := by
  unfold textCode at hcode
  rw [← String.toList_inj]
  generalize s.toList = cs at hcode ⊢
  generalize s'.toList = cs' at hcode ⊢
  induction cs generalizing cs' with
  | nil =>
      cases cs' with
      | nil => simpa using hcode
      | cons c' cs' =>
          simp only [List.foldr_nil, List.foldr_cons, List.cons.injEq] at hcode
          omega
  | cons c cs ih =>
      cases cs' with
      | nil =>
          simp only [List.foldr_nil, List.foldr_cons, List.cons.injEq] at hcode
          omega
      | cons c' cs' =>
          simp only [List.foldr_cons, List.cons.injEq] at hcode
          rcases hcode with ⟨hhead, htail⟩
          rcases ih cs' htail with ⟨rfl, hrest⟩
          have hc : c = c' := Char.toNat_inj.mp (by omega)
          exact ⟨by rw [hc], hrest⟩

theorem boundCode_inj {b b' : Option Int} (hcode : boundCode b rest = boundCode b' rest') :
    b = b' ∧ rest = rest' := by
  cases b <;> cases b' <;> simp_all [boundCode]

theorem boolCode_inj {b b' : Bool} (hcode : boolCode b rest = boolCode b' rest') :
    b = b' ∧ rest = rest' := by
  cases b <;> cases b' <;> simp_all [boolCode]

theorem keyCode_inj {k k' : Key} (hcode : keyCode k rest = keyCode k' rest') :
    k = k' ∧ rest = rest' := by
  cases k <;> cases k' <;> simp only [keyCode, List.cons.injEq] at hcode
  · exact ⟨by rw [hcode.2.1], hcode.2.2⟩
  · omega
  · omega
  · rcases textCode_inj hcode.2 with ⟨rfl, hrest⟩
    exact ⟨rfl, hrest⟩

theorem literalCode_inj {v v' : Literal} (hcode : literalCode v rest = literalCode v' rest') :
    v = v' ∧ rest = rest' := by
  cases v <;> cases v' <;> simp only [literalCode, List.cons.injEq] at hcode <;> try omega
  · exact ⟨by rw [hcode.2.1], hcode.2.2⟩
  · exact ⟨by rw [Double.orderKey_inj hcode.2.1], hcode.2.2⟩
  · rcases textCode_inj hcode.2 with ⟨rfl, hrest⟩
    exact ⟨rfl, hrest⟩
  · rcases boolCode_inj hcode.2 with ⟨rfl, hrest⟩
    exact ⟨rfl, hrest⟩

theorem accessoryCode_inj {a a' : Accessory}
    (hcode : accessoryCode a rest = accessoryCode a' rest') : a = a' ∧ rest = rest' := by
  cases a <;> cases a' <;> simp only [accessoryCode, List.cons.injEq] at hcode <;> try omega
  · exact ⟨rfl, hcode.2⟩
  · exact ⟨rfl, hcode.2⟩
  · rcases textCode_inj hcode.2 with ⟨rfl, hrest⟩
    exact ⟨rfl, hrest⟩
  · rcases keyCode_inj hcode.2 with ⟨rfl, hrest⟩
    exact ⟨rfl, hrest⟩

theorem keywordCode_inj {k k' : Keyword} (hcode : keywordCode k = keywordCode k') : k = k' := by
  cases k <;> cases k' <;> first | rfl | (simp only [keywordCode] at hcode; omega)

theorem flavorCode_inj {f f' : Flavor} (hcode : flavorCode f = flavorCode f') : f = f' := by
  cases f <;> cases f' <;> first | rfl | (simp only [flavorCode] at hcode; omega)

theorem keywordCode_bounds (k : Keyword) : 2 ≤ keywordCode k ∧ keywordCode k ≤ 12 := by
  cases k <;> decide

/-- No built-in type has the code of a type of another form. -/
theorem keywordCode_ne {k : Keyword} {n : Int} (hn : n < 2 ∨ 12 < n) : keywordCode k ≠ n := by
  have hbounds := keywordCode_bounds k
  omega

theorem ne_keywordCode {k : Keyword} {n : Int} (hn : n < 2 ∨ 12 < n) : n ≠ keywordCode k :=
  (keywordCode_ne hn).symm

end Parts

/-!
# Codes of types
-/

mutual

theorem codeOnto_inj : ∀ (t u : Ty) (rest rest' : List Int),
    codeOnto t rest = codeOnto u rest' -> t = u ∧ rest = rest'
  | placeholder, u, rest, rest', hcode => by
      cases u with
      | placeholder =>
          simpa [codeOnto] using hcode
      | _ => simp [codeOnto, ne_keywordCode] at hcode
  | error, u, rest, rest', hcode => by
      cases u with
      | error =>
          simpa [codeOnto] using hcode
      | _ => simp [codeOnto, ne_keywordCode] at hcode
  | keyword k, u, rest, rest', hcode => by
      cases u with
      | keyword k' =>
          simp only [codeOnto, List.cons.injEq] at hcode
          exact ⟨by rw [keywordCode_inj hcode.1], hcode.2⟩
      | _ => simp [codeOnto, keywordCode_ne] at hcode
  | unknown n, u, rest, rest', hcode => by
      cases u with
      | unknown n' =>
          simp only [codeOnto, List.cons.injEq] at hcode
          exact ⟨by rw [Int.ofNat_inj.mp hcode.2.1], hcode.2.2⟩
      | _ => simp [codeOnto, ne_keywordCode] at hcode
  | literal v, u, rest, rest', hcode => by
      cases u with
      | literal v' =>
          simp only [codeOnto, List.cons.injEq] at hcode
          rcases literalCode_inj hcode.2 with ⟨rfl, hrest⟩
          exact ⟨rfl, hrest⟩
      | _ => simp [codeOnto, ne_keywordCode] at hcode
  | range r, u, rest, rest', hcode => by
      cases u with
      | range r' =>
          simp only [codeOnto, List.cons.injEq] at hcode
          rcases boundCode_inj hcode.2 with ⟨hlo, hcode⟩
          rcases boundCode_inj hcode with ⟨hhi, hrest⟩
          rcases r with ⟨lo, hi⟩
          rcases r' with ⟨lo', hi'⟩
          cases hlo
          cases hhi
          exact ⟨rfl, hrest⟩
      | _ => simp [codeOnto, ne_keywordCode] at hcode
  | object cls arguments, u, rest, rest', hcode => by
      cases u with
      | object cls' arguments' =>
          simp only [codeOnto, List.cons.injEq] at hcode
          rcases textCode_inj hcode.2 with ⟨rfl, harguments⟩
          rcases codeListOnto_inj arguments arguments' _ _ harguments with ⟨rfl, hrest⟩
          exact ⟨rfl, hrest⟩
      | _ => simp [codeOnto, ne_keywordCode] at hcode
  | this cls, u, rest, rest', hcode => by
      cases u with
      | this cls' =>
          simp only [codeOnto, List.cons.injEq] at hcode
          rcases textCode_inj hcode.2 with ⟨rfl, hrest⟩
          exact ⟨rfl, hrest⟩
      | _ => simp [codeOnto, ne_keywordCode] at hcode
  | array key value, u, rest, rest', hcode => by
      cases u with
      | array key' value' =>
          simp only [codeOnto, List.cons.injEq] at hcode
          rcases codeOnto_inj key key' _ _ hcode.2 with ⟨rfl, hvalue⟩
          rcases codeOnto_inj value value' _ _ hvalue with ⟨rfl, hrest⟩
          exact ⟨rfl, hrest⟩
      | _ => simp [codeOnto, ne_keywordCode] at hcode
  | shape entries, u, rest, rest', hcode => by
      cases u with
      | shape entries' =>
          simp only [codeOnto, List.cons.injEq] at hcode
          rcases codeEntriesOnto_inj entries entries' _ _ hcode.2 with ⟨rfl, hrest⟩
          exact ⟨rfl, hrest⟩
      | _ => simp [codeOnto, ne_keywordCode] at hcode
  | union flavor members, u, rest, rest', hcode => by
      cases u with
      | union flavor' members' =>
          simp only [codeOnto, List.cons.injEq] at hcode
          rcases hcode.2 with ⟨hflavor, hcode⟩
          rcases codeListOnto_inj members members' _ _ hcode with ⟨rfl, hrest⟩
          exact ⟨by rw [flavorCode_inj hflavor], hrest⟩
      | _ => simp [codeOnto, ne_keywordCode] at hcode
  | inter members, u, rest, rest', hcode => by
      cases u with
      | inter members' =>
          simp only [codeOnto, List.cons.injEq] at hcode
          rcases codeListOnto_inj members members' _ _ hcode.2 with ⟨rfl, hrest⟩
          exact ⟨rfl, hrest⟩
      | _ => simp [codeOnto, ne_keywordCode] at hcode
  | accessory a, u, rest, rest', hcode => by
      cases u with
      | accessory a' =>
          simp only [codeOnto, List.cons.injEq] at hcode
          rcases accessoryCode_inj hcode.2 with ⟨rfl, hrest⟩
          exact ⟨rfl, hrest⟩
      | _ => simp [codeOnto, ne_keywordCode] at hcode

theorem codeListOnto_inj : ∀ (ts us : List Ty) (rest rest' : List Int),
    codeListOnto ts rest = codeListOnto us rest' -> ts = us ∧ rest = rest'
  | [], us, rest, rest', hcode => by
      cases us with
      | nil => simpa [codeListOnto] using hcode
      | cons u us => simp [codeListOnto] at hcode
  | t :: ts, us, rest, rest', hcode => by
      cases us with
      | nil => simp [codeListOnto] at hcode
      | cons u us =>
          simp only [codeListOnto, List.cons.injEq] at hcode
          rcases codeOnto_inj t u _ _ hcode.2 with ⟨rfl, htail⟩
          rcases codeListOnto_inj ts us _ _ htail with ⟨rfl, hrest⟩
          exact ⟨rfl, hrest⟩

theorem codeEntriesOnto_inj : ∀ (es fs : List (Entry Ty)) (rest rest' : List Int),
    codeEntriesOnto es rest = codeEntriesOnto fs rest' -> es = fs ∧ rest = rest'
  | [], fs, rest, rest', hcode => by
      cases fs with
      | nil => simpa [codeEntriesOnto] using hcode
      | cons f fs => simp [codeEntriesOnto] at hcode
  | ⟨key, value, optional⟩ :: es, fs, rest, rest', hcode => by
      cases fs with
      | nil => simp [codeEntriesOnto] at hcode
      | cons f fs =>
          rcases f with ⟨key', value', optional'⟩
          simp only [codeEntriesOnto, List.cons.injEq] at hcode
          rcases keyCode_inj hcode.2 with ⟨rfl, hoptional⟩
          rcases boolCode_inj hoptional with ⟨rfl, hvalue⟩
          rcases codeOnto_inj value value' _ _ hvalue with ⟨rfl, htail⟩
          rcases codeEntriesOnto_inj es fs _ _ htail with ⟨rfl, hrest⟩
          exact ⟨rfl, hrest⟩

end

theorem code_inj {t u : Ty} (hcode : t.code = u.code) : t = u :=
  (codeOnto_inj t u [] [] hcode).1

/-!
# Lists of distinct types
-/

section Lists

variable {t u : Ty} {ts : List Ty}

theorem mem_insertNew : u ∈ insertNew t ts ↔ u = t ∨ u ∈ ts := by
  unfold insertNew
  induction ts with
  | nil => simp [insertNew.go]
  | cons v rest ih =>
      simp only [insertNew.go]
      split
      · rename_i heq
        subst heq
        simp
      · split
        · rw [List.mem_cons, ih, List.mem_cons]
          exact or_left_comm
        · simp

theorem mem_distinct : t ∈ distinct ts ↔ t ∈ ts := by
  induction ts with
  | nil => simp [distinct]
  | cons u rest ih =>
      rw [List.mem_cons, ← ih]
      exact mem_insertNew

/-- A type that is not in a list sorted by code is put between types of smaller
and of greater codes. -/
theorem pairwise_insertNew (hsorted : ts.Pairwise fun a b => a.code < b.code) :
    (insertNew t ts).Pairwise fun a b => a.code < b.code := by
  induction ts with
  | nil => simp [insertNew, insertNew.go]
  | cons v rest ih =>
      rcases List.pairwise_cons.mp hsorted with ⟨hhead, hrest⟩
      show (insertNew.go t t.code (v :: rest)).Pairwise _
      simp only [insertNew.go]
      split
      · exact hsorted
      · rename_i hne
        split
        · rename_i hlt
          refine List.pairwise_cons.mpr ⟨fun w hw => ?_, ih hrest⟩
          rcases mem_insertNew.mp hw with rfl | hw
          · exact hlt
          · exact hhead w hw
        · rename_i hge
          have hlt : t.code < v.code := by
            rcases List.le_iff_lt_or_eq.mp (List.not_lt.mp hge) with hlt | heq
            · exact hlt
            · exact absurd (code_inj heq) hne
          refine List.pairwise_cons.mpr ⟨fun w hw => ?_, hsorted⟩
          rcases List.mem_cons.mp hw with rfl | hw
          · exact hlt
          · exact List.lt_trans hlt (hhead w hw)

theorem pairwise_distinct (ts : List Ty) :
    (distinct ts).Pairwise fun a b => a.code < b.code := by
  induction ts with
  | nil => exact List.Pairwise.nil
  | cons t rest ih => exact pairwise_insertNew ih

theorem nodup_distinct (ts : List Ty) : (distinct ts).Nodup := by
  refine (pairwise_distinct ts).imp fun {a b} hlt heq => ?_
  subst heq
  exact List.lt_irrefl _ hlt

/-- Lists of the same types, in whatever order and however often, give the same list. -/
theorem distinct_congr {us : List Ty} (hsame : ∀ t, t ∈ ts ↔ t ∈ us) :
    distinct ts = distinct us := by
  have hperm := (List.perm_ext_iff_of_nodup (nodup_distinct ts) (nodup_distinct us)).mpr fun t => by
    rw [mem_distinct, mem_distinct, hsame]
  refine hperm.eq_of_pairwise ?_ (pairwise_distinct _) (pairwise_distinct _)
  exact fun a b _ _ hab hba => absurd hab (List.lt_asymm hba)

/-!
# Lists in canonical order
-/

/-- The order of the members of unions and intersections. -/
def IsCanonical (ts : List Ty) : Prop :=
  ts.Pairwise fun a b => ¬ b.canonicalKey < a.canonicalKey

theorem perm_insertCanonical (t : Ty) (ts : List Ty) : (insertCanonical t ts).Perm (t :: ts) := by
  unfold insertCanonical
  induction ts with
  | nil => exact List.Perm.refl _
  | cons u rest ih =>
      simp only [insertCanonical.go]
      split
      · exact (List.Perm.cons u ih).trans (List.Perm.swap t u rest)
      · exact List.Perm.refl _

theorem perm_sortCanonical (ts : List Ty) : (sortCanonical ts).Perm ts := by
  induction ts with
  | nil => exact List.Perm.refl _
  | cons t rest ih => exact (perm_insertCanonical t _).trans (List.Perm.cons t ih)

theorem isCanonical_insertCanonical (hsorted : IsCanonical ts) :
    IsCanonical (insertCanonical t ts) := by
  induction ts with
  | nil => exact List.pairwise_singleton _ _
  | cons u rest ih =>
      rcases List.pairwise_cons.mp hsorted with ⟨hhead, hrest⟩
      show IsCanonical (insertCanonical.go t t.canonicalKey (u :: rest))
      simp only [insertCanonical.go]
      split
      · rename_i hlt
        refine List.pairwise_cons.mpr ⟨fun w hw => ?_, ih hrest⟩
        rcases List.mem_cons.mp ((perm_insertCanonical t rest).mem_iff.mp hw) with rfl | hw
        · exact List.lt_asymm hlt
        · exact hhead w hw
      · rename_i hge
        refine List.pairwise_cons.mpr ⟨fun w hw => ?_, hsorted⟩
        rcases List.mem_cons.mp hw with rfl | hw
        · exact hge
        · have hle := List.le_trans (List.not_lt.mp hge) (List.not_lt.mp (hhead w hw))
          exact List.not_lt.mpr hle

theorem isCanonical_sortCanonical (ts : List Ty) : IsCanonical (sortCanonical ts) := by
  induction ts with
  | nil => exact List.Pairwise.nil
  | cons t rest ih => exact isCanonical_insertCanonical ih

theorem canonicalKey_inj (hkeys : t.canonicalKey = u.canonicalKey) : t = u := by
  have hnumber := boundCode_inj (List.cons.inj hkeys).2
  exact code_inj (textCode_inj hnumber.2).2

/-- Lists of the same members in canonical order are equal. -/
theorem eq_of_isCanonical {us : List Ty} (hts : IsCanonical ts) (hus : IsCanonical us)
    (hperm : ts.Perm us) : ts = us := by
  refine hperm.eq_of_pairwise ?_ hts hus
  intro a b _ _ hab hba
  exact canonicalKey_inj (List.le_antisymm (List.not_lt.mp hab) (List.not_lt.mp hba))

end Lists

end Ty
end GradualTypes
