import GradualTypes.Expansion
import GradualTypes.Proofs.Constructed
import GradualTypes.Proofs.Values
import Mathlib.Algebra.Group.Nat.Defs
import Mathlib.Data.List.Nodup

/-!
# Concrete shapes

A shape with optional entries is expanded into one concrete shape for each choice of the
optional entries that are present.  If the choices are within the limit, the concrete shapes
divide the maps of the shape among them: each map belongs to exactly one of them, to that of
the optional entries that the map has.

What belongs to the type of an entry is a parameter, since the division does not depend on it.
-/

namespace GradualTypes

open Inquiry

def Entry.required {α : Type} (e : Entry α) : Entry α :=
  { e with optional := false }

namespace Shape

/-!
# Choices
-/

/-- The entries of a shape that are present under a choice of optional keys, in the order of
their declaration and each one made required. -/
def chosen (entries : List (Entry Ty)) (present : Key -> Bool) : List (Entry Ty) :=
  (entries.filter fun e => !e.optional || present e.key).map Entry.required

variable {entries kept : List (Entry Ty)} {e : Entry Ty} {present present' : Key -> Bool}

theorem mem_chosen : e ∈ chosen entries present ↔
    ∃ d ∈ entries, (d.optional = true -> present d.key = true) ∧ d.required = e := by
  simp only [chosen, List.mem_map, List.mem_filter, Bool.or_eq_true, Bool.not_eq_true', and_assoc]
  refine exists_congr fun d => and_congr_right fun _ => and_congr_left fun _ => ?_
  cases d.optional <;> simp

theorem keys_chosen : keys (chosen entries present) ⊆ keys entries := by
  intro k hk
  rcases List.mem_map.mp hk with ⟨e, he, rfl⟩
  rcases mem_chosen.mp he with ⟨d, hd, -, rfl⟩
  exact List.mem_map.mpr ⟨d, hd, rfl⟩

/-- A choice matters for optional keys only. -/
theorem chosen_congr (hsame : ∀ e ∈ entries, e.optional = true -> present e.key = present' e.key) :
    chosen entries present = chosen entries present' := by
  refine congrArg (List.map Entry.required) (List.filter_congr fun e he => ?_)
  cases hoptional : e.optional with
  | false => rfl
  | true => rw [hsame e he hoptional]

/-- An optional key is present in what is chosen if it is chosen. -/
theorem mem_keys_chosen (hkeys : (keys entries).Nodup) (he : e ∈ entries)
    (hoptional : e.optional = true) :
    e.key ∈ keys (chosen entries present) ↔ present e.key = true := by
  constructor
  · intro hmem
    rcases List.mem_map.mp hmem with ⟨_, hmem, hkey⟩
    rcases mem_chosen.mp hmem with ⟨d, hd, hpresent, rfl⟩
    have heq : d = e := List.inj_on_of_nodup_map hkeys hd he hkey
    exact heq ▸ hpresent (heq ▸ hoptional)
  · intro hpresent
    exact List.mem_map.mpr ⟨_, mem_chosen.mpr ⟨e, he, fun _ => hpresent, rfl⟩, rfl⟩

theorem nodup_keys_chosen (hkeys : (keys entries).Nodup) :
    (keys (chosen entries present)).Nodup := by
  have hsame : keys (chosen entries present) =
      keys (entries.filter fun e => !e.optional || present e.key) := by
    simp only [keys, chosen, List.map_map]
    rfl
  rw [hsame]
  exact hkeys.sublist (List.filter_sublist.map _)

theorem chosen_inj (hkeys : (keys entries).Nodup)
    (heq : chosen entries present = chosen entries present') (he : e ∈ entries)
    (hoptional : e.optional = true) : present e.key = present' e.key := by
  rw [Bool.eq_iff_iff, ← mem_keys_chosen hkeys he hoptional,
    ← mem_keys_chosen hkeys he hoptional, heq]

theorem chosen_cons : chosen (e :: entries) present =
    if !e.optional || present e.key then e.required :: chosen entries present
    else chosen entries present := by
  simp only [chosen, List.filter_cons]
  split <;> rfl

theorem choices_cons_required (hrequired : e.optional = false) :
    choices (e :: entries) = (choices entries).map (e.required :: ·) := by
  simp only [choices, hrequired, Bool.false_eq_true, if_false]
  rfl

theorem choices_cons_optional (hoptional : e.optional = true) :
    choices (e :: entries) = (choices entries).flatMap fun tail => [tail, e.required :: tail] := by
  simp only [choices, hoptional, if_true]
  rfl

/-- The listed choices are the choices of optional keys. -/
theorem mem_choices (hkeys : (keys entries).Nodup) :
    kept ∈ choices entries ↔ ∃ present, kept = chosen entries present := by
  induction entries generalizing kept with
  | nil => simp [choices, chosen]
  | cons e rest ih =>
      rw [keys_cons, List.nodup_cons] at hkeys
      rcases hkeys with ⟨hnew, hrest⟩
      cases hoptional : e.optional with
      | false =>
          simp only [choices_cons_required hoptional, List.mem_map, ih hrest, chosen_cons, hoptional]
          constructor
          · intro hmem
            rcases hmem with ⟨_, ⟨present, rfl⟩, rfl⟩
            exact ⟨present, rfl⟩
          · intro hmem
            rcases hmem with ⟨present, rfl⟩
            exact ⟨_, ⟨present, rfl⟩, rfl⟩
      | true =>
          simp only [choices_cons_optional hoptional, List.mem_flatMap, ih hrest, List.mem_cons,
            List.not_mem_nil, or_false, chosen_cons, hoptional]
          constructor
          · intro hmem
            rcases hmem with ⟨_, ⟨present, rfl⟩, hcase⟩
            -- the first key is not among the others, so whether it is present is free
            have hfree : ∀ b, chosen rest (fun k => if k = e.key then b else present k) =
                chosen rest present := by
              intro b
              apply chosen_congr
              intro d hd _
              have hne : d.key ≠ e.key := fun heq => hnew (heq ▸ List.mem_map_of_mem hd)
              exact if_neg hne
            rcases hcase with rfl | rfl
            · exact ⟨fun k => if k = e.key then false else present k, by rw [hfree]; simp⟩
            · exact ⟨fun k => if k = e.key then true else present k, by rw [hfree]; simp⟩
          · intro hmem
            rcases hmem with ⟨present, rfl⟩
            refine ⟨_, ⟨present, rfl⟩, ?_⟩
            cases present e.key with
            | false => exact Or.inl rfl
            | true => exact Or.inr rfl

theorem length_choices (entries : List (Entry Ty)) :
    (choices entries).length = 2 ^ optionalCount entries := by
  induction entries with
  | nil => rfl
  | cons e rest ih =>
      cases hoptional : e.optional with
      | false =>
          rw [choices_cons_required hoptional, List.length_map, ih, optionalCount, optionalCount,
            List.countP_cons_of_neg (by simp [hoptional])]
      | true =>
          rw [choices_cons_optional hoptional, List.length_flatMap, optionalCount,
            List.countP_cons_of_pos hoptional, Nat.pow_succ, ← optionalCount, ← ih]
          simp

/-- Leaving out and putting in front what no list has repeats no list. -/
theorem nodup_flatMap_pair {α : Type} {a : α} {lists : List (List α)} (hlists : lists.Nodup)
    (hnew : ∀ l ∈ lists, a ∉ l) : (lists.flatMap fun l => [l, a :: l]).Nodup := by
  have hne : ∀ l ∈ lists, ∀ m, l ≠ a :: m := fun l hl m heq =>
    hnew l hl (heq ▸ List.mem_cons_self)
  rw [List.nodup_flatMap]
  constructor
  · intro l hl
    simp [hne l hl]
  · apply hlists.imp_of_mem
    intro l m hl hm hdiffer
    simp [Function.onFun, hdiffer.symm, hne m hm, (hne l hl m).symm]

theorem nodup_choices (hkeys : (keys entries).Nodup) : (choices entries).Nodup := by
  induction entries with
  | nil => simp [choices]
  | cons e rest ih =>
      rw [keys_cons, List.nodup_cons] at hkeys
      rcases hkeys with ⟨hnew, hrest⟩
      cases hoptional : e.optional with
      | false =>
          rw [choices_cons_required hoptional]
          exact (ih hrest).map List.cons_injective
      | true =>
          rw [choices_cons_optional hoptional]
          refine nodup_flatMap_pair (ih hrest) fun l hl hmem => ?_
          rcases (mem_choices hrest).mp hl with ⟨present, rfl⟩
          exact hnew (keys_chosen (List.mem_map.mpr ⟨_, hmem, rfl⟩))

/-!
# Maps of a shape
-/

/-- A map, told by what it has under each key, is one of the maps of a shape: it has nothing
under other keys, something under each required key, and what it has is of the declared type. -/
def Matches {V : Type} (belongs : Ty -> V -> Prop) (entries : List (Entry Ty))
    (given : Key -> Option V) : Prop :=
  (∀ k v, given k = some v -> k ∈ keys entries) ∧
    ∀ e ∈ entries, (given e.key = none -> e.optional = true) ∧
      ∀ v, given e.key = some v -> belongs e.value v

section Matches

variable {V : Type} {belongs : Ty -> V -> Prop} {given : Key -> Option V}

/-- A map belongs to the choice of the keys that it has. -/
theorem matches_chosen :
    Matches belongs entries given ↔
      Matches belongs (chosen entries fun k => (given k).isSome) given := by
  have hchosen : ∀ e ∈ entries, ∀ v, given e.key = some v ->
      e.required ∈ chosen entries fun k => (given k).isSome :=
    fun e he v hv => mem_chosen.mpr ⟨e, he, fun _ => by simp [hv], rfl⟩
  constructor
  · intro hgiven
    rcases hgiven with ⟨hsealed, hentries⟩
    constructor
    · intro k v hv
      rcases List.mem_map.mp (hsealed k v hv) with ⟨e, he, rfl⟩
      exact List.mem_map.mpr ⟨_, hchosen e he v hv, rfl⟩
    · intro e he
      rcases mem_chosen.mp he with ⟨d, hd, hpresent, rfl⟩
      refine ⟨fun hnone => ?_, (hentries d hd).2⟩
      have hsome := hpresent ((hentries d hd).1 hnone)
      change given d.key = none at hnone
      rw [hnone] at hsome
      cases hsome
  · intro hgiven
    rcases hgiven with ⟨hsealed, hentries⟩
    constructor
    · exact fun k v hv => keys_chosen (hsealed k v hv)
    · intro e he
      constructor
      · intro hnone
        cases hoptional : e.optional with
        | true => rfl
        | false =>
            have hmem : e.required ∈ chosen entries fun k => (given k).isSome :=
              mem_chosen.mpr ⟨e, he, by simp [hoptional], rfl⟩
            exact (hentries _ hmem).1 hnone
      · intro v hv
        exact (hentries _ (hchosen e he v hv)).2 v hv

/-- A map of a choice has the optional keys of the choice. -/
theorem Matches.chosen_eq (hkeys : (keys entries).Nodup)
    (hgiven : Matches belongs (chosen entries present) given) :
    chosen entries present = chosen entries fun k => (given k).isSome := by
  apply chosen_congr
  intro e he hoptional
  rw [Bool.eq_iff_iff, ← mem_keys_chosen hkeys he hoptional, Option.isSome_iff_exists]
  constructor
  · intro hmem
    rcases List.mem_map.mp hmem with ⟨d, hd, hkey⟩
    rw [← hkey]
    cases hv : given d.key with
    | some v => exact ⟨v, rfl⟩
    | none =>
        rcases mem_chosen.mp hd with ⟨c, -, -, rfl⟩
        cases (hgiven.2 _ hd).1 hv
  · intro hsome
    rcases hsome with ⟨v, hv⟩
    exact hgiven.1 e.key v hv

end Matches

end Shape

/-- The values of a shape are the maps that match it. -/
theorem Ty.admits_shape_iff {calls : Value -> Prop} {entries : List (Entry Ty)} {v : Value} :
    (Ty.shape entries).Admits calls v ↔
      ∃ given, v = .map given ∧ Shape.Matches (Ty.Admits calls) entries (given.lookup ·) := by
  simp only [Ty.Admits, Ty.admitsEntries_iff, Shape.Matches]

/-- Each map belongs to exactly one choice. -/
theorem Shape.existsUnique_choice {entries : List (Entry Ty)} (hkeys : (keys entries).Nodup)
    {V : Type} (belongs : Ty -> V -> Prop) (given : Key -> Option V) :
    Matches belongs entries given ↔
      ∃! t, t ∈ (choices entries).map Ty.shape ∧
        ∃ kept, t = .shape kept ∧ Matches belongs kept given := by
  have hchoice : ∀ kept, Ty.shape kept ∈ (choices entries).map Ty.shape ↔
      ∃ present, kept = chosen entries present := fun kept => by
    simp [mem_choices hkeys]
  rw [matches_chosen]
  constructor
  · intro hgiven
    refine ⟨_, ⟨(hchoice _).mpr ⟨_, rfl⟩, _, rfl, hgiven⟩, fun t ht => ?_⟩
    rcases ht with ⟨ht, kept, rfl, hkept⟩
    rcases (hchoice kept).mp ht with ⟨present, rfl⟩
    rw [hkept.chosen_eq hkeys]
  · intro hgiven
    rcases hgiven with ⟨t, ⟨ht, kept, rfl, hkept⟩, -⟩
    rcases (hchoice kept).mp ht with ⟨present, rfl⟩
    rwa [← hkept.chosen_eq hkeys]

/-- So each value of the shape is a value of exactly one choice. -/
theorem Shape.admits_iff_existsUnique_choice {entries : List (Entry Ty)}
    (hkeys : (keys entries).Nodup) (calls : Value -> Prop) (v : Value) :
    (Ty.shape entries).Admits calls v ↔
      ∃! t, t ∈ (choices entries).map Ty.shape ∧ t.Admits calls v := by
  by_cases hmap : ∃ given, v = .map given
  · rcases hmap with ⟨given, rfl⟩
    have hmatches : ∀ kept, (Ty.shape kept).Admits calls (.map given) ↔
        Matches (Ty.Admits calls) kept (given.lookup ·) := fun kept => by
      simp [Ty.admits_shape_iff]
    rw [hmatches, existsUnique_choice hkeys]
    refine existsUnique_congr fun t => and_congr_right fun ht => ?_
    rcases List.mem_map.mp ht with ⟨kept, -, rfl⟩
    simp [hmatches]
  · have hnone : ∀ kept, ¬ (Ty.shape kept).Admits calls v := fun kept hv => by
      rcases Ty.admits_shape_iff.mp hv with ⟨given, heq, -⟩
      exact hmap ⟨given, heq⟩
    refine iff_of_false (hnone entries) fun hunique => ?_
    rcases hunique with ⟨t, ⟨ht, hv⟩, -⟩
    rcases List.mem_map.mp ht with ⟨kept, -, rfl⟩
    exact hnone kept hv

/-!
# Containment in the expanded shape
-/

/-- Terms that allow only the question whether a type is contained in itself. -/
def Terms.reflexive : Terms :=
  ⟨fun s t => s = t, fun _ _ r => r = .yes, fun _ => False, False⟩

theorem Inquiry.meets_allFrom_yes {α : Type} {terms : Terms} {question : α -> Inquiry Tristate}
    {items : List α} (hitems : ∀ a ∈ items, (question a).Meets terms (· = .yes)) :
    (allFrom .yes question items).Meets terms (· = .yes) := by
  induction items with
  | nil => rfl
  | cons a rest ih =>
      rw [List.forall_mem_cons] at hitems
      refine hitems.1.bind fun r hr => ?_
      subst hr
      exact ih hitems.2

namespace Subtype

variable {h : Hierarchy} {entries : List (Entry Ty)} {present : Key -> Bool}

theorem check_shapes (source target : List (Entry Ty)) :
    check h (.shape source) (.shape target) = shapeInShape source target := by
  rw [check_simple] <;> simp [Ty.isOrdinary, Ty.isUnknown, Ty.isMissing, Ty.isSimple,
    Ty.isAccessory, inSimple, inShape]

theorem entry?_chosen (hkeys : (Shape.keys entries).Nodup) {e d : Entry Ty} (he : e ∈ entries)
    (hd : Shape.entry? (Shape.chosen entries present) e.key = some d) : d = e.required := by
  rcases Shape.mem_of_entry? hd with ⟨hmem, hkey⟩
  rcases Shape.mem_chosen.mp hmem with ⟨c, hc, -, rfl⟩
  exact congrArg Entry.required (List.inj_on_of_nodup_map hkeys hc he hkey)

/-- A choice fits the shape entry by entry, with the same type under each key. -/
theorem meets_check_chosen (hkeys : (Shape.keys entries).Nodup) :
    (check h (.shape (Shape.chosen entries present)) (.shape entries)).Meets .reflexive
      (· = .yes) := by
  have hsurplus : surplusKeys (Shape.chosen entries present) entries = .yes := by
    refine surplusKeys_eq_yes_iff.mpr fun s hs => ?_
    rcases Shape.mem_chosen.mp hs with ⟨d, hd, -, rfl⟩
    exact Shape.entry?_isSome (e := d) hd
  rw [check_shapes, shapeInShape, hsurplus]
  refine Inquiry.meets_allFrom_yes fun e he => ?_
  unfold inEntry
  split
  · rename_i hnone
    have hoptional : e.optional = true := by
      cases hoptional : e.optional with
      | true => rfl
      | false =>
          have hmem : e.required ∈ Shape.chosen entries present :=
            Shape.mem_chosen.mpr ⟨e, he, by simp [hoptional], rfl⟩
          rcases Shape.entry?_isSome hmem with ⟨d, hd⟩
          cases hnone.symm.trans hd
    simp [hoptional]
  · rename_i d hd
    have heq := entry?_chosen hkeys he hd
    subst heq
    refine ⟨rfl, fun r hr => ?_⟩
    subst hr
    exact rfl

end Subtype

namespace Session

variable {h : Hierarchy} {options options' : Options} {σ σ' : Session}

theorem answer_self (n : Nat) (σ : Session) (t : Ty) : (answer n t t σ).1 = .yes := by
  cases n <;> unfold answer <;> simp

/-- What rests on the containment of types in themselves is answered within any limit. -/
theorem answer_of_reflexive {s t : Ty} (hσ : σ.IsTruthful)
    (hcheck : (Subtype.check σ.hierarchy s t).Meets .reflexive (· = .yes)) (n : Nat) :
    (answer (n + 1) s t σ).1 = .yes := by
  unfold answer
  split
  · rfl
  · rename_i hne
    split
    · rename_i known hknown
      rw [hσ s t known hknown, Subtype.exact_of_ne hne]
      exact hcheck.value fun a b hab => hab ▸ Subtype.exact_self _ a
    · refine run_meets (isReliable_answer n) hσ hcheck fun a b τ hab _ _ => ?_
      subst hab
      exact answer_self n τ a

end Session

/-!
# The expansion
-/

/-- The division of the maps of a shape among concrete shapes. -/
structure Shape.IsExpansion (entries : List (Entry Ty)) (shapes : List Ty) : Prop where
  length : shapes.length = 2 ^ optionalCount entries
  nodup : shapes.Nodup
  mem_iff : ∀ t, t ∈ shapes ↔ ∃ present, t = .shape (chosen entries present)
  required : ∀ kept, Ty.shape kept ∈ shapes -> ∀ e ∈ kept, e.optional = false
  /-- Choices that differ in an optional entry are different shapes. -/
  inj : ∀ present present', chosen entries present = chosen entries present' ->
    ∀ e ∈ entries, e.optional = true -> present e.key = present' e.key
  contained : ∀ t ∈ shapes, ∀ h options σ, Session.Reachable h options σ ->
    (σ.perform (isSubtype t (.shape entries))).1 = .yes
  maps : ∀ {V : Type} (belongs : Ty -> V -> Prop) (given : Key -> Option V),
    Matches belongs entries given ↔
      ∃! t, t ∈ shapes ∧ ∃ kept, t = .shape kept ∧ Matches belongs kept given
  values : ∀ calls v, (Ty.shape entries).Admits calls v ↔ ∃! t, t ∈ shapes ∧ t.Admits calls v

theorem Shape.isExpansion_choices {entries : List (Entry Ty)} (hkeys : (keys entries).Nodup) :
    IsExpansion entries ((choices entries).map Ty.shape) where
  length := by rw [List.length_map, length_choices]
  nodup := (nodup_choices hkeys).map fun _ _ heq => Ty.shape.inj heq
  mem_iff := by
    intro t
    simp only [List.mem_map, mem_choices hkeys]
    constructor
    · intro hmem
      rcases hmem with ⟨_, ⟨present, rfl⟩, rfl⟩
      exact ⟨present, rfl⟩
    · intro hmem
      rcases hmem with ⟨present, rfl⟩
      exact ⟨_, ⟨present, rfl⟩, rfl⟩
  required := by
    intro kept hmem e he
    rcases List.mem_map.mp hmem with ⟨_, hchoice, heq⟩
    rcases (mem_choices hkeys).mp hchoice with ⟨present, rfl⟩
    cases heq
    rcases mem_chosen.mp he with ⟨d, -, -, rfl⟩
    rfl
  inj := fun present present' heq e he hoptional => chosen_inj hkeys heq he hoptional
  contained := by
    intro t hmem h options σ hσ
    rcases List.mem_map.mp hmem with ⟨_, hchoice, rfl⟩
    rcases (mem_choices hkeys).mp hchoice with ⟨present, rfl⟩
    rcases hσ.kept with ⟨htruthful, -, -⟩
    have hnew : Session.IsTruthful { σ with limited := false } := htruthful
    exact Session.answer_of_reflexive hnew (Subtype.meets_check_chosen hkeys) 99
  maps := fun belongs given => existsUnique_choice hkeys belongs given
  values := fun calls v => admits_iff_existsUnique_choice hkeys calls v

/-- Where no two neighbours are equal, no repetition is left out. -/
theorem eraseReps_eq_self {α : Type} [BEq α] [LawfulBEq α] {items : List α}
    (hitems : items.Nodup) : items.eraseReps = items := by
  have hloop : ∀ (rest : List α) (a : α) (found : List α), (a :: rest).Nodup ->
      List.eraseRepsBy.loop (· == ·) a rest found = found.reverse ++ a :: rest := by
    intro rest
    induction rest with
    | nil => simp [List.eraseRepsBy.loop]
    | cons b rest ih =>
        intro a found hnodup
        rw [List.nodup_cons] at hnodup
        have hne : (a == b) = false := by
          rw [beq_eq_false_iff_ne]
          exact fun heq => hnodup.1 (heq ▸ List.mem_cons_self)
        simp [List.eraseRepsBy.loop, hne, ih b _ hnodup.2]
  cases items with
  | nil => rfl
  | cons a rest => exact hloop rest a [] hitems

namespace Session

variable {h : Hierarchy} {options : Options} {σ : Session} {entries : List (Entry Ty)}

/-- A shape is built from distinct keys and no errors. -/
theorem shape_of_perform {parts : List (Entry Ty)}
    (hbuilt : (σ.perform (Build.shape parts)).1 = .shape entries) :
    (Shape.keys entries).Nodup ∧ ∀ e ∈ entries, e.value ≠ .error := by
  unfold Build.shape at hbuilt
  split at hbuilt
  · cases hbuilt
  · rename_i herror
    cases hbuilt
    refine ⟨Shape.nodup_keys_ofList parts, fun e he heq => herror ?_⟩
    exact List.any_eq_true.mpr ⟨e, Shape.mem_of_mem_ofList he, by simp [heq]⟩

theorem meets_shape_free {terms : Terms} (hannounces : ∀ t, terms.announces t)
    (hkeys : (Shape.keys entries).Nodup) (hvalues : ∀ e ∈ entries, e.value ≠ .error) :
    (Build.shape entries).Meets terms (· = .shape entries) := by
  have herror : ¬ entries.any (·.value == .error) = true := by
    simpa [List.any_eq_true] using hvalues
  rw [Build.shape, if_neg herror, Shape.ofList_eq_self hkeys]
  exact ⟨hannounces _, rfl⟩

/-- The choices of a shape are built one after another. -/
theorem meets_choices (hkeys : (Shape.keys entries).Nodup)
    (hvalues : ∀ e ∈ entries, e.value ≠ .error) (replies : Ty -> Ty -> Tristate -> Prop) :
    (List.eraseReps <$> (Shape.choices entries).mapM Build.shape).Meets (.free replies)
      (· = (Shape.choices entries).map Ty.shape) := by
  have hbuild : ∀ kept ∈ Shape.choices entries,
      (Build.shape kept).Meets (.free replies) (· = .shape kept) := by
    intro kept hkept
    rcases (Shape.mem_choices hkeys).mp hkept with ⟨present, rfl⟩
    refine meets_shape_free (fun _ => trivial) (Shape.nodup_keys_chosen hkeys) fun e he => ?_
    rcases Shape.mem_chosen.mp he with ⟨d, hd, -, rfl⟩
    exact hvalues d hd
  rw [← bind_pure_comp]
  refine (meets_mapM hbuild).bind fun shapes hshapes => ?_
  have hall : shapes = (Shape.choices entries).map Ty.shape := by
    rw [← List.forall₂_eq_eq_eq, List.forall₂_map_right_iff]
    exact hshapes.flip.imp fun _ _ heq => heq
  rw [meets_pure, hall]
  exact eraseReps_eq_self (Shape.isExpansion_choices hkeys).nodup

/-- A shape that has been built and has an optional entry is expanded, if its choices are within
the limit, and the expansion divides its maps; any other shape is left as it is. -/
theorem concrete_divides (hσ : Reachable h options σ)
    (hbuilt : ∃ (σ' : Session) (parts : List (Entry Ty)),
      (σ'.perform (Build.shape parts)).1 = .shape entries) (limits : Options) :
    (1 ≤ Shape.optionalCount entries ->
      2 ^ Shape.optionalCount entries ≤ min limits.maxShapeExpansion shapeExpansionCeiling ->
        Shape.IsExpansion entries (σ.perform (Shape.concrete limits (.shape entries))).1) ∧
    (Shape.optionalCount entries = 0 ∨
        min limits.maxShapeExpansion shapeExpansionCeiling < 2 ^ Shape.optionalCount entries ->
      (σ.perform (Shape.concrete limits (.shape entries))).1 = [.shape entries]) := by
  rcases hbuilt with ⟨σ', parts, hbuilt⟩
  rcases shape_of_perform hbuilt with ⟨hkeys, hvalues⟩
  constructor
  · intro hoptional hwithin
    have hconcrete : Shape.concrete limits (.shape entries) =
        List.eraseReps <$> (Shape.choices entries).mapM Build.shape := by
      rw [Shape.concrete, if_neg (by omega)]
      exact if_neg (Nat.not_lt.mpr hwithin)
    rw [hconcrete, hσ.meets (meets_choices hkeys hvalues _)]
    exact Shape.isExpansion_choices hkeys
  · intro hcase
    have hconcrete : Shape.concrete limits (.shape entries) = pure [.shape entries] := by
      rw [Shape.concrete]
      rcases hcase with hnone | hmany
      · exact if_pos hnone
      · split
        · rfl
        · exact if_pos hmany
    rw [hconcrete]
    rfl

/-- A shape with a required and an optional entry is divided into two. -/
theorem concrete_divides_pair :
    let entries : List (Entry Ty) := [⟨.text "a", .int, false⟩, ⟨.text "b", .string, true⟩]
    let σ := new .empty .default
    (σ.perform (Build.shape entries)).1 = .shape entries ∧
      Shape.IsExpansion entries (σ.perform (Shape.concrete .default (.shape entries))).1 := by
  intro entries σ
  have hbuilt : (σ.perform (Build.shape entries)).1 = .shape entries := rfl
  exact ⟨hbuilt, (concrete_divides .new ⟨σ, entries, hbuilt⟩ .default).1 (by decide) (by decide)⟩

end Session
end GradualTypes
