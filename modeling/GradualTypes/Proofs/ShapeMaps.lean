import GradualTypes.Proofs.Founding

/-!
# Shapes are ordered maps

The constructor of shapes goes through its entries and puts each one under its key.  After every
step, the list that has been made so far is the ordered map of the entries that were read: a key
stands where it occurred first, with the entry that was given for it last.

So the entries of a shape that is stored are the ordered map of themselves, and a shape made of
them is the stored one.
-/

namespace GradualTypes

/-!
# Ordered maps
-/

namespace Shape

variable {α : Type} {entries others given : List (Entry α)} {e : Entry α} {k : Key}

/-- The ordered map that some given entries make. -/
structure IsMapOf (entries given : List (Entry α)) : Prop where
  distinct : (keys entries).Nodup
  /-- Of each key that is given, the first occurrence is kept. -/
  order : keys entries = (keys given).eraseDups
  last : ∀ k, entry? entries k = (given.filter (·.key == k)).getLast?

theorem entry?_put : entry? (put entries e) k = if e.key = k then some e else entry? entries k := by
  induction entries with
  | nil => by_cases hek : e.key = k <;> simp [put, entry?, hek]
  | cons d rest ih =>
      unfold entry? at ih ⊢
      unfold put
      by_cases hde : d.key = e.key
      · rw [if_pos hde, List.find?_cons, List.find?_cons, hde]
        by_cases hek : e.key = k
        · simp [hek]
        · simp [hek, beq_eq_false_iff_ne.mpr hek]
      · rw [if_neg hde, List.find?_cons, List.find?_cons]
        by_cases hdk : d.key = k
        · have hek : e.key ≠ k := fun hek => hde (hdk.trans hek.symm)
          simp [hdk, hek]
        · simpa [beq_eq_false_iff_ne.mpr hdk] using ih

/-- Only a new key changes the keys of a map. -/
theorem keys_put_eq (entries : List (Entry α)) (e : Entry α) : keys (put entries e) =
    if e.key ∈ keys entries then keys entries else keys entries ++ [e.key] := by
  split
  · rename_i hold
    rcases keys_put entries e with hkeys | ⟨hnew, -⟩
    · exact hkeys
    · exact absurd hold hnew
  · rename_i hnew
    rw [put_of_not_mem hnew, keys, List.map_append]
    rfl

theorem eraseDups_concat {ks : List Key} :
    (ks ++ [k]).eraseDups = if k ∈ ks then ks.eraseDups else ks.eraseDups ++ [k] := by
  rw [List.eraseDups_append]
  by_cases hk : k ∈ ks <;> simp [hk, List.removeAll, List.eraseDups_cons]

/-- The next given entry. -/
theorem IsMapOf.put (h : IsMapOf entries given) (e : Entry α) :
    IsMapOf (put entries e) (given ++ [e]) := by
  have hmem : e.key ∈ keys entries ↔ e.key ∈ keys given := by rw [h.order, List.mem_eraseDups]
  have hgiven : keys (given ++ [e]) = keys given ++ [e.key] := by rw [keys, List.map_append]; rfl
  constructor
  · rw [keys_put_eq]
    split
    · exact h.distinct
    · rename_i hnew
      exact List.concat_eq_append ▸ h.distinct.concat hnew
  · rw [keys_put_eq, hgiven, eraseDups_concat, h.order]
    simp only [← h.order, hmem]
  · intro k
    rw [entry?_put, h.last, List.filter_append]
    by_cases hk : e.key = k <;> simp [hk]

theorem isMapOf_foldl (h : IsMapOf entries given) :
    IsMapOf (others.foldl Shape.put entries) (given ++ others) := by
  induction others generalizing entries given with
  | nil => simpa using h
  | cons e rest ih => simpa using ih (h.put e)

theorem isMapOf_ofList (given : List (Entry α)) : IsMapOf (ofList given) given := by
  have hnil : IsMapOf ([] : List (Entry α)) [] := ⟨.nil, rfl, fun _ => rfl⟩
  exact isMapOf_foldl hnil

theorem filterMap_entry?_keys (hentries : (keys entries).Nodup) :
    (keys entries).filterMap (Shape.entry? entries) = entries := by
  have hfound : ∀ e ∈ entries, entry? entries e.key = some e :=
    fun e he => entry?_eq_self hentries he
  rw [keys, List.filterMap_map]
  exact (List.filterMap_congr hfound).trans List.filterMap_some

/-- There is only one ordered map of some entries. -/
theorem IsMapOf.unique (h : IsMapOf entries given) (h' : IsMapOf others given) :
    entries = others := by
  have hfound : entry? entries = entry? others := funext fun k => (h.last k).trans (h'.last k).symm
  rw [← filterMap_entry?_keys h.distinct, ← filterMap_entry?_keys h'.distinct, h.order, h'.order,
    hfound]

end Shape

/-!
# Stored shapes
-/

section Stored

variable {h : Hierarchy} {options : Options} {allowed : Session -> Call -> Prop} {σ : Session}
  {ts : List Ty}

theorem perform_shape {entries : List (Entry Ty)} (hvalues : ∀ e ∈ entries, e.value ≠ .error)
    (σ : Session) : σ.perform (Build.shape entries) =
      (.shape (Shape.ofList entries),
        { σ with types := σ.types.enter (.shape (Shape.ofList entries)) }) := by
  have hany : ¬ (entries.any (·.value == .error)) = true := by
    rw [List.any_eq_true]
    rintro ⟨e, he, herror⟩
    exact hvalues e he (eq_of_beq herror)
  rw [Build.shape, if_neg hany]
  rfl

/-- In every session that a run leads to, a shape is stored as the ordered map of its entries, and
a shape of the entries of a stored one is that one: nothing is entered, and it has the handle that
it had. -/
theorem Run.shape_isMapOf (hrun : Run h options allowed σ ts) :
    (∀ entries : List (Entry Ty), (∀ e ∈ entries, e.value ≠ .error) ->
      ∃ stored, (σ.perform (Build.shape entries)).1 = .shape stored ∧
        .shape stored ∈ (σ.perform (Build.shape entries)).2.types.items ∧
        Shape.IsMapOf stored entries) ∧
    ∀ stored : List (Entry Ty), .shape stored ∈ σ.types.items ->
      σ.perform (Build.shape stored) = (.shape stored, σ) ∧
        ∀ hash, (σ.registry hash).store.IsBelowCapacity ->
          ∃ x, (σ.registry hash).handle? (.shape stored) = some x ∧
            ((σ.perform (Build.shape stored)).2.registry hash).handle?
              (σ.perform (Build.shape stored)).1 = some x := by
  have hconsistent := hrun.reachable.consistent
  constructor
  · intro entries hvalues
    rw [perform_shape hvalues]
    exact ⟨_, rfl, hconsistent.mem_items_enter_self _, Shape.isMapOf_ofList entries⟩
  · intro stored hstored
    have hhere := (hrun.formed_stored _ hstored).here
    obtain ⟨n, hn⟩ := hconsistent.mem_items_iff.mp hstored
    have hsame : σ.perform (Build.shape stored) = (.shape stored, σ) := by
      rw [perform_shape hhere.2, Shape.ofList_eq_self hhere.1, Numbering.enter_eq_self hn]
    refine ⟨hsame, fun hash hroom => ?_⟩
    have hsound := Registry.isSound_enterAll hrun.founded.1.types hroom
    have hknown := hsound.knows_iff.mpr (.inr (Array.mem_toList_iff.mpr hstored))
    obtain ⟨x, hx⟩ := Option.isSome_iff_exists.mp hknown
    rw [hsame]
    exact ⟨x, hx, hx⟩

/-- A key that is given twice. -/
theorem Run.shape_isMapOf_repeated :
    let σ := ((Session.new .empty .default).perform (Build.shape
      [⟨.text "a", .int, false⟩, ⟨.int 0, .int, false⟩, ⟨.text "a", .string, true⟩])).2
    let stored : List (Entry Ty) := [⟨.text "a", .string, true⟩, ⟨.int 0, .int, false⟩]
    .shape stored ∈ σ.types.items ∧ σ.perform (Build.shape stored) = (.shape stored, σ) := by
  intro σ stored
  have hint : Run .empty .default (fun _ _ => True) _ _ :=
    Run.new.call (.keyword .int) (by simp [Call.arguments]) trivial
  have hstring := hint.call (.keyword .string) (by simp [Call.arguments]) trivial
  have hshape := hstring.call (.shape [⟨.text "a", .int, false⟩, ⟨.int 0, .int, false⟩,
    ⟨.text "a", .string, true⟩]) (by simp [Call.arguments, Ty.entryValues, Call.inquiry,
      Session.perform, Session.run, Pure.pure]) trivial
  have hstored : Ty.shape stored ∈ σ.types.items := by
    obtain ⟨entries, hentries, hmem, -⟩ := hstring.shape_isMapOf.1
      [⟨.text "a", .int, false⟩, ⟨.int 0, .int, false⟩, ⟨.text "a", .string, true⟩] (by simp)
    cases hentries
    exact hmem
  exact ⟨hstored, (hshape.shape_isMapOf.2 stored hstored).1⟩

end Stored

end GradualTypes
