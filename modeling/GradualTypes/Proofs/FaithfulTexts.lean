import GradualTypes.Proofs.WrittenForms

/-!
# Texts that determine types

The text of a type for a cache determines the type as long as nothing is cut off, with two
exceptions: the text of "not a number" has no payload, and a member of an intersection that is
a union stands in parentheses whether it is benevolent or not.

The induction is on the number of levels that are written.  One of the two types is written in
full; the other one may be cut off and may have been reached with another number of levels,
since a union whose members are all written alike has the text of one of its members.
-/

namespace GradualTypes

open GradualTypes.Ty (Everywhere)

namespace Render

/-!
# Tokens of the parts
-/

theorem keyToken_inj {k k' : Key} (h : keyToken k = keyToken k') : k = k' := by
  have hnumber : ∀ {n : Int} {s : String}, toString n = s -> Text.isIdentifier s = false := by
    intro n s heq
    subst heq
    cases hs : Text.isIdentifier (toString n) with
    | false => rfl
    | true =>
        have hread := integer?_of_isIdentifier hs
        rw [Text.Numeral.integer?_toString] at hread
        cases hread
  cases k with
  | int n =>
      cases k' with
      | int n' => rw [Text.Numeral.toString_inj (Token.word.inj h)]
      | text s' =>
          simp only [keyToken] at h
          split at h
          · rename_i hs'
            rw [hnumber (Token.word.inj h)] at hs'
            cases hs'
          · cases h
  | text s =>
      cases k' with
      | int n' =>
          simp only [keyToken] at h
          split at h
          · rename_i hs
            rw [hnumber (Token.word.inj h).symm] at hs
            cases hs
          · cases h
      | text s' =>
          simp only [keyToken] at h
          split at h <;> split at h
          · rw [Token.word.inj h]
          · cases h
          · cases h
          · rw [Token.quoted.inj h]

theorem offsetToken_inj {k k' : Key} (h : offsetToken k = offsetToken k') : k = k' := by
  cases k with
  | int n =>
      cases k' with
      | int n' => rw [Text.Numeral.toString_inj (Token.word.inj h)]
      | text s' => cases h
  | text s =>
      cases k' with
      | int n' => cases h
      | text s' => rw [Token.quoted.inj h]

theorem bound_inj {open' : String} (hopen : Text.Numeral.integer? open'.toList = none)
    {b b' : Option Int} (h : bound open' b = bound open' b') : b = b' := by
  have hnumber : ∀ n : Int, toString n ≠ open' := by
    intro n heq
    subst heq
    rw [Text.Numeral.integer?_toString] at hopen
    cases hopen
  cases b with
  | none =>
      cases b' with
      | none => rfl
      | some n' => exact absurd h.symm (hnumber n')
  | some n =>
      cases b' with
      | none => exact absurd h (hnumber n)
      | some n' => rw [Text.Numeral.toString_inj h]

theorem applied_inj {w w' : String} {parts parts' : List (List Token)}
    (hparts : ∀ ts ∈ parts, Token.mark .comma ∉ ts)
    (hparts' : ∀ ts ∈ parts', Token.mark .comma ∉ ts)
    (h : applied w parts = applied w' parts') : w = w' ∧ parts = parts' := by
  cases parts with
  | nil =>
      cases parts' with
      | nil => exact ⟨Token.word.inj (List.cons.inj h).1, rfl⟩
      | cons ts' parts' => cases h
  | cons ts parts =>
      cases parts' with
      | nil => cases h
      | cons ts' parts' =>
          rcases List.cons.inj h with ⟨hword, hgroup⟩
          have hjoined := (Token.group.inj (List.cons.inj hgroup).1).2
          exact ⟨Token.word.inj hword, intercalate_inj (List.cons_ne_nil _ _)
            (List.cons_ne_nil _ _) hparts hparts' hjoined⟩

theorem comma_not_mem_spell {levels : Nat} {t : Ty} : Token.mark .comma ∉ spell levels t := by
  intro hm
  rcases mark_mem_spell hm with ⟨hmark, -⟩ | ⟨hmark, -⟩ <;> cases hmark

theorem comma_not_mem_map_spell {levels : Nat} {members : List Ty} :
    ∀ ts ∈ members.map (spell levels), Token.mark .comma ∉ ts := by
  intro ts hts
  rcases List.mem_map.mp hts with ⟨t, -, rfl⟩
  exact comma_not_mem_spell

theorem written_array_inj {k v k' v' : Ty} (h : written (.array k v) = written (.array k' v')) :
    k = k' ∧ v = v' := by
  by_cases hk : k = .mixed <;> by_cases hv : v = .mixed <;> by_cases hk' : k' = .mixed <;>
    by_cases hv' : v' = .mixed <;> simp_all [written]

/-!
# Shapes
-/

theorem colon_mem_entryTokens {spell : Ty -> List Token} {e : Entry Ty} :
    Token.mark .colon ∈ entryTokens spell false e := by
  cases e with
  | mk k v optional => cases optional <;> simp [entryTokens]

theorem entryTokens_list (spell : Ty -> List Token) (e : Entry Ty) :
    entryTokens spell true e = spell e.value := rfl

theorem entryTokens_inj {spell spell' : Ty -> List Token} {e e' : Entry Ty}
    (h : entryTokens spell false e = entryTokens spell' false e') :
    e.key = e'.key ∧ e.optional = e'.optional ∧ spell e.value = spell' e'.value := by
  cases e with
  | mk k v optional =>
      cases e' with
      | mk k' v' optional' =>
          rcases List.cons.inj h with ⟨hkey, hrest⟩
          cases optional <;> cases optional' <;> simp at hrest
          · exact ⟨keyToken_inj hkey, rfl, hrest⟩
          · exact ⟨keyToken_inj hkey, rfl, hrest⟩

/-- The entries of a list are told by their values. -/
theorem isList_go_inj : ∀ {n : Nat} {entries entries' : List (Entry Ty)},
    Shape.isList.go n entries = true -> Shape.isList.go n entries' = true ->
    Ty.entryValues entries = Ty.entryValues entries' -> entries = entries'
  | _, [], [], _, _, _ => rfl
  | n, ⟨k, v, optional⟩ :: es, ⟨k', v', optional'⟩ :: es', hlist, hlist', h => by
      simp only [Shape.isList.go, Bool.and_eq_true, Bool.not_eq_true', beq_iff_eq] at hlist hlist'
      rcases List.cons.inj h with ⟨hvalue, hrest⟩
      rcases hlist with ⟨⟨hoptional, hkey⟩, hlist⟩
      rcases hlist' with ⟨⟨hoptional', hkey'⟩, hlist'⟩
      rw [isList_go_inj hlist hlist' hrest, hoptional, hoptional', hkey, hkey']
      simp only at hvalue
      rw [hvalue]

theorem unionPart_ne_nil {spell : Ty -> List Token} {t : Ty} (ht : spell t ≠ []) :
    unionPart spell t ≠ [] := by
  cases t with
  | inter members => exact List.cons_ne_nil _ _
  | _ => exact ht

theorem spell_ne_nil {levels : Nat} {t : Ty} (ht : Everywhere IsWritable t) :
    spell levels t ≠ [] := by
  induction levels generalizing t with
  | zero => exact List.cons_ne_nil _ _
  | succ levels ih =>
      by_cases hplain : ∃ members, t = .union .plain members
      · rcases hplain with ⟨members, rfl⟩
        have hmembers : members ≠ [] := by
          intro heq
          subst heq
          exact absurd ht.here.1 (by decide)
        refine joined_ne_nil (by simpa using kept_ne_nil hmembers) fun ts hts => ?_
        rcases List.mem_map.mp hts with ⟨m, hm, rfl⟩
        exact unionPart_ne_nil (ih (ht.inside (mem_of_mem_kept hm)))
      · have hform := form_spell levels ht.here fun members h => hplain ⟨members, h⟩
        intro hnil
        rw [hnil] at hform
        have hfits := fits_formOf t
        rw [← hform] at hfits
        rcases hfits with rfl | ⟨n, rfl⟩ | hmembers
        · exact ht.here
        · exact ht.here
        · exact hplain hmembers

section Entries

variable {levels levels' : Nat} {entries entries' : List (Entry Ty)}

theorem comma_not_mem_entryTokens {isList : Bool} {e : Entry Ty} :
    Token.mark .comma ∉ entryTokens (spell levels) isList e := by
  have hvalue : Token.mark .comma ∉ spell levels e.value := comma_not_mem_spell
  have hkey : Token.mark .comma ≠ keyToken e.key := by
    cases e.key with
    | int n => simp [keyToken]
    | text s =>
        rw [keyToken]
        split <;> simp
  cases isList with
  | true => exact hvalue
  | false => cases hoptional : e.optional <;> simp [entryTokens, hoptional, hkey, hvalue]

theorem entryTokens_ne_nil {isList : Bool} {e : Entry Ty} (hvalue : spell levels e.value ≠ []) :
    entryTokens (spell levels) isList e ≠ [] := by
  cases isList with
  | true => exact hvalue
  | false => exact List.cons_ne_nil _ _

/-- The entries of a list are written without keys, those of another shape with a colon. -/
theorem not_map_entryTokens_list (hne : entries ≠ []) :
    entries.map (entryTokens (spell levels) true) ≠
      entries'.map (entryTokens (spell levels') false) := by
  intro h
  match entries, entries', hne, h with
  | e :: _, e' :: _, _, h =>
      have hcolon : Token.mark .colon ∈ spell levels e.value := by
        rw [← entryTokens_list (spell levels) e, (List.cons.inj h).1]
        exact colon_mem_entryTokens
      rcases mark_mem_spell hcolon with ⟨hmark, -⟩ | ⟨hmark, -⟩ <;> cases hmark

theorem map_entryTokens_inj
    (hvalues : ∀ e ∈ entries, ∀ e' ∈ entries',
      spell levels e.value = spell levels' e'.value -> e.value = e'.value)
    (h : entries.map (entryTokens (spell levels) (Shape.isList entries)) =
      entries'.map (entryTokens (spell levels') (Shape.isList entries'))) : entries = entries' := by
  cases hlist : Shape.isList entries <;> cases hlist' : Shape.isList entries' <;>
    rw [hlist, hlist'] at h
  · refine eq_of_map_eq (fun e he e' he' heq => ?_) h
    rcases entryTokens_inj heq with ⟨hkey, hoptional, hvalue⟩
    have hvalue := hvalues e he e' he' hvalue
    cases e
    cases e'
    simp_all
  · by_cases hne : entries' = []
    · rw [hne, List.map_nil, List.map_eq_nil_iff] at h
      rw [h, hne]
    · exact absurd h.symm (not_map_entryTokens_list hne)
  · by_cases hne : entries = []
    · rw [hne, List.map_nil, eq_comm, List.map_eq_nil_iff] at h
      rw [h, hne]
    · exact absurd h (not_map_entryTokens_list hne)
  · have hmapped : (Ty.entryValues entries).map (spell levels) =
        (Ty.entryValues entries').map (spell levels') := by
      rw [Ty.entryValues, Ty.entryValues, List.map_map, List.map_map]
      exact h
    refine isList_go_inj hlist hlist' (eq_of_map_eq ?_ hmapped)
    exact List.forall_mem_map.mpr fun e he => List.forall_mem_map.mpr (hvalues e he)

/-- The tokens in the braces of a shape determine its entries if they determine the values. -/
theorem shape_inj (hne : ∀ e ∈ entries, spell levels e.value ≠ [])
    (hne' : ∀ e ∈ entries', spell levels' e.value ≠ [])
    (hvalues : ∀ e ∈ entries, ∀ e' ∈ entries',
      spell levels e.value = spell levels' e'.value -> e.value = e'.value)
    (h : joined .comma (entries.map (entryTokens (spell levels) (Shape.isList entries))) =
      joined .comma (entries'.map (entryTokens (spell levels') (Shape.isList entries')))) :
    entries = entries' := by
  refine map_entryTokens_inj hvalues (joined_inj ?_ ?_ ?_ ?_ h)
  · exact List.forall_mem_map.mpr fun e _ => comma_not_mem_entryTokens
  · exact List.forall_mem_map.mpr fun e _ => comma_not_mem_entryTokens
  · exact List.forall_mem_map.mpr fun e he => entryTokens_ne_nil (hne e he)
  · exact List.forall_mem_map.mpr fun e he => entryTokens_ne_nil (hne' e he)

end Entries

/-!
# Types that texts tell apart
-/

/-- Two types whose texts differ even so: "not a number" is written without its payload, and
a union in an intersection stands in parentheses whether it is benevolent or not. -/
def TellsApart : Ty -> Ty -> Prop
  | .literal (.float x), .literal (.float y) => x.isNaN = true -> y.isNaN = true -> x = y
  | .inter as, .inter bs =>
      ∀ f g members, .union f members ∈ as -> .union g members ∈ bs -> f = g
  | _, _ => True

/-- Two types to be compared by their texts. -/
structure Comparable (a b : Ty) : Prop where
  left : Everywhere IsWritable a
  right : Everywhere IsWritable b
  told : Everywhere (fun s => Everywhere (TellsApart s) b) a

/-- Written in full with so many levels, a type has tokens that no other type has. -/
def Faithful (levels : Nat) : Prop :=
  ∀ {levels' : Nat} {a b : Ty}, Comparable a b -> isWhole levels a = true ->
    spell levels a = spell levels' b -> a = b

namespace Comparable

variable {a b c d : Ty} {f g : Flavor} {members members' : List Ty}

theorem inside_left (h : Comparable a b) (hc : c ∈ a.children) : Comparable c b :=
  ⟨h.left.inside hc, h.right, h.told.inside hc⟩

theorem inside_right (h : Comparable a b) (hd : d ∈ b.children) : Comparable a d :=
  ⟨h.left, h.right.inside hd, h.told.imp fun _ hs => hs.inside hd⟩

theorem inside (h : Comparable a b) (hc : c ∈ a.children) (hd : d ∈ b.children) :
    Comparable c d :=
  (h.inside_left hc).inside_right hd

/-- The flavor of a union does not matter for what is inside it. -/
theorem plain_left (h : Comparable (.union f members) b) :
    Comparable (.union .plain members) b := by
  have htold : Everywhere (TellsApart (.union .plain members)) b :=
    h.right.imp fun _ _ => trivial
  exact ⟨.intro h.left.here fun c hc => h.left.inside hc, h.right,
    .intro htold fun c hc => h.told.inside hc⟩

theorem plain_right (h : Comparable a (.union g members)) :
    Comparable a (.union .plain members) := by
  have htold : ∀ s, Everywhere (TellsApart s) (.union g members) ->
      Everywhere (TellsApart s) (.union .plain members) := fun s hs => by
    refine .intro ?_ fun c hc => hs.inside hc
    cases s with
    | literal v => cases v <;> trivial
    | _ => trivial
  exact ⟨h.left, .intro h.right.here fun c hc => h.right.inside hc,
    h.told.imp fun s hs => htold s hs⟩

end Comparable

/-!
# Members
-/

section Members

variable {levels levels' : Nat} {a b : Ty} {members members' : List Ty}

/-- Not written as members with bars between them. -/
def IsSingle (levels : Nat) (t : Ty) : Prop :=
  levels = 0 ∨ ∀ members, t ≠ .union .plain members

theorem isSingle_or (levels : Nat) (t : Ty) :
    IsSingle levels t ∨
      ∃ below members, levels = below + 1 ∧ t = .union .plain members := by
  cases levels with
  | zero => exact .inl (.inl rfl)
  | succ below =>
      by_cases hplain : ∃ members, t = .union .plain members
      · rcases hplain with ⟨members, rfl⟩
        exact .inr ⟨below, members, rfl, rfl⟩
      · exact .inl (.inr fun members ht => hplain ⟨members, ht⟩)

theorem isSingle_of_unionMembers? {t : Ty} (ht : t.unionMembers? = none) : IsSingle levels t := by
  refine .inr ?_
  intro members heq
  subst heq
  cases ht

theorem IsSingle.bar_not_mem {t : Ty} (ht : IsSingle levels t) :
    Token.mark .bar ∉ spell levels t := by
  intro hbar
  rcases ht with rfl | hplain
  · simp [spell] at hbar
  · rcases mark_mem_spell hbar with ⟨-, members, rfl⟩ | ⟨hmark, -⟩
    · exact hplain members rfl
    · cases hmark

/-- Apart from plain unions, only benevolent unions are written in parentheses. -/
theorem exists_benevolent {t : Ty} {inner : List Token} (ht : IsWritable t)
    (hsingle : IsSingle levels t) (h : spell levels t = [.group .round inner]) :
    ∃ members, t = .union .benevolent members ∧ inner = spell levels (.union .plain members) := by
  cases levels with
  | zero => cases h
  | succ levels =>
      have hform := form_spell levels ht (hsingle.resolve_left (by simp))
      rw [h] at hform
      have hfits := fits_formOf t
      rw [← hform] at hfits
      rcases hfits with ⟨members, rfl⟩
      exact ⟨members, rfl, (Token.group.inj (List.cons.inj h).1).2.symm⟩

theorem unionPart_of_ne {spell : Ty -> List Token} {t : Ty} (ht : ∀ inner, t ≠ .inter inner) :
    unionPart spell t = spell t := by
  cases t with
  | inter inner => exact absurd rfl (ht inner)
  | _ => rfl

/-- The tokens of a member of a union determine it. -/
theorem unionPart_inj (ih : Faithful levels) (hab : Comparable a b)
    (hwhole : isWhole levels a = true) (ha : a.unionMembers? = none)
    (hb : b.unionMembers? = none)
    (h : unionPart (spell levels) a = unionPart (spell levels') b) : a = b := by
  have hgroup : ∀ {levels t inner}, IsWritable t -> t.unionMembers? = none ->
      spell levels t ≠ [.group .round inner] := fun ht hnone h => by
    rcases exists_benevolent ht (isSingle_of_unionMembers? hnone) h with ⟨members, rfl, -⟩
    cases hnone
  by_cases hinter : ∃ inner, a = .inter inner <;> by_cases hinter' : ∃ inner, b = .inter inner
  · rcases hinter with ⟨inner, rfl⟩
    rcases hinter' with ⟨inner', rfl⟩
    exact ih hab hwhole (Token.group.inj (List.cons.inj h).1).2
  · rcases hinter with ⟨inner, rfl⟩
    rw [unionPart_of_ne fun inner' hb => hinter' ⟨inner', hb⟩] at h
    exact absurd h.symm (hgroup hab.right.here hb)
  · rcases hinter' with ⟨inner', rfl⟩
    rw [unionPart_of_ne fun inner ha => hinter ⟨inner, ha⟩] at h
    exact absurd h (hgroup hab.left.here ha)
  · rw [unionPart_of_ne fun inner ha => hinter ⟨inner, ha⟩,
      unionPart_of_ne fun inner hb => hinter' ⟨inner, hb⟩] at h
    exact ih hab hwhole h

/-- Alternatives with bars between them are determined if the tokens of each are. -/
theorem eq_of_joined_kept {f g : Ty -> List Token} (hne : members ≠ []) (hne' : members' ≠ [])
    (hnodup : members.Nodup) (hnodup' : members'.Nodup)
    (hspelled : ∀ t ∈ members, Spelled (f t)) (hspelled' : ∀ t ∈ members', Spelled (g t))
    (hbar : ∀ t ∈ members, Token.mark .bar ∉ f t) (hbar' : ∀ t ∈ members', Token.mark .bar ∉ g t)
    (hinj : ∀ t ∈ members, ∀ u ∈ members', f t = g u -> t = u)
    (h : joined .bar ((kept (fun t => chars (f t)) members).map f) =
      joined .bar ((kept (fun t => chars (g t)) members').map g)) : members = members' := by
  have hparts := intercalate_inj (by simpa using kept_ne_nil hne)
    (by simpa using kept_ne_nil hne')
    (List.forall_mem_map.mpr fun t ht => hbar t (mem_of_mem_kept ht))
    (List.forall_mem_map.mpr fun t ht => hbar' t (mem_of_mem_kept ht)) h
  have htexts := congrArg (List.map chars) hparts
  rw [List.map_map, List.map_map] at htexts
  exact eq_of_kept hnodup hnodup' (fun t ht u hu heq =>
    hinj t ht u hu (chars_inj (hspelled t ht) (hspelled' u hu) heq)) htexts

theorem bar_not_mem_unionPart {t : Ty} (ht : t.unionMembers? = none) :
    Token.mark .bar ∉ unionPart (spell levels) t := fun hbar =>
  (isSingle_of_unionMembers? ht).bar_not_mem (mark_mem_unionPart hbar).1

variable {f g : Flavor}

theorem ne_nil_of_isWritable (h : IsWritable (.union f members)) : members ≠ [] := by
  intro heq
  subst heq
  exact absurd h.1 (by decide)

/-- The tokens of the members of two unions determine the members. -/
theorem unionTokens_inj (ih : Faithful levels)
    (hab : Comparable (.union f members) (.union g members'))
    (hwhole : ∀ m ∈ members, isWhole levels m = true)
    (h : unionTokens (spell levels) members = unionTokens (spell levels') members') :
    members = members' := by
  have hleft := hab.left.here
  have hright := hab.right.here
  refine eq_of_joined_kept (ne_nil_of_isWritable hleft) (ne_nil_of_isWritable hright) hleft.2.1
    hright.2.1 (fun t ht => spelled_unionPart (Everywhere.spelled (hab.left.inside ht) _))
    (fun t ht => spelled_unionPart (Everywhere.spelled (hab.right.inside ht) _))
    (fun t ht => bar_not_mem_unionPart (hleft.2.2 t ht))
    (fun t ht => bar_not_mem_unionPart (hright.2.2 t ht)) ?_ h
  intro t ht u hu
  exact unionPart_inj ih (hab.inside ht hu) (hwhole t ht) (hleft.2.2 t ht) (hright.2.2 u hu)

/-- The members of a union are not all written as one other type is. -/
theorem unionTokens_ne (ih : Faithful levels) (hab : Comparable (.union f members) b)
    (hwhole : ∀ m ∈ members, isWhole levels m = true) (hb : IsSingle levels' b) :
    unionTokens (spell levels) members ≠ spell levels' b := by
  intro h
  have hleft := hab.left.here
  have hone : members = [b] := by
    refine eq_of_joined_kept (g := spell levels') (ne_nil_of_isWritable hleft)
      (List.cons_ne_nil _ _) hleft.2.1 (List.nodup_singleton b)
      (fun t ht => spelled_unionPart (Everywhere.spelled (hab.left.inside ht) _))
      (List.forall_mem_singleton.mpr (Everywhere.spelled hab.right _))
      (fun t ht => bar_not_mem_unionPart (hleft.2.2 t ht))
      (List.forall_mem_singleton.mpr hb.bar_not_mem) ?_ (h.trans (joined_singleton _ _).symm)
    intro t ht
    refine List.forall_mem_singleton.mpr fun heq => ?_
    by_cases hinter : ∃ inner, t = .inter inner
    · rcases hinter with ⟨inner, rfl⟩
      rcases exists_benevolent hab.right.here hb heq.symm with ⟨members', rfl, hinner⟩
      cases ih (hab.inside_left ht).plain_right (hwhole _ ht) hinner
    · rw [unionPart_of_ne fun inner ht => hinter ⟨inner, ht⟩] at heq
      exact ih (hab.inside_left ht) (hwhole t ht) heq
  have htwo := hleft.1
  rw [hone, List.length_singleton] at htwo
  exact absurd htwo (by decide)

theorem interPart_of_ne {spell : Ty -> List Token} {t : Ty}
    (ht : ∀ members, t ≠ .union .plain members) : interPart spell t = spell t := by
  cases t with
  | union f members =>
      cases f with
      | plain => exact absurd rfl (ht members)
      | benevolent => rfl
  | _ => rfl

/-- A member of an intersection that stands in parentheses is a union. -/
theorem exists_union {t : Ty} {inner : List Token} (ht : IsWritable t)
    (h : interPart (spell levels) t = [.group .round inner]) :
    ∃ f members, t = .union f members ∧ inner = spell levels (.union .plain members) := by
  by_cases hplain : ∃ members, t = .union .plain members
  · rcases hplain with ⟨members, rfl⟩
    exact ⟨_, _, rfl, (Token.group.inj (List.cons.inj h).1).2.symm⟩
  · have hne : ∀ members, t ≠ .union .plain members := fun members ht => hplain ⟨members, ht⟩
    rw [interPart_of_ne hne] at h
    rcases exists_benevolent ht (.inr hne) h with ⟨members, rfl, hinner⟩
    exact ⟨_, _, rfl, hinner⟩

theorem interPart_union (f : Flavor) (members : List Ty) :
    interPart (spell (levels + 1)) (.union f members) =
      [.group .round (spell (levels + 1) (.union .plain members))] := by
  cases f <;> rfl

/-- The tokens of a member of an intersection determine it up to the flavor of a union. -/
theorem interPart_inj (ih : Faithful levels) (hab : Comparable a b)
    (hwhole : isWhole levels a = true)
    (hflavor : ∀ f g members, a = .union f members -> b = .union g members -> f = g)
    (h : interPart (spell levels) a = interPart (spell levels') b) : a = b := by
  by_cases hunion : ∃ f members, a = .union f members
  · rcases hunion with ⟨f, members, rfl⟩
    cases levels with
    | zero => cases hwhole
    | succ levels =>
        rw [interPart_union] at h
        rcases exists_union hab.right.here h.symm with ⟨g, members', rfl, hinner⟩
        cases ih hab.plain_left.plain_right hwhole hinner
        rw [hflavor f g members rfl rfl]
  · rw [interPart_of_ne fun members ha => hunion ⟨_, members, ha⟩] at h
    by_cases hplain : ∃ members, b = .union .plain members
    · rcases hplain with ⟨members, rfl⟩
      have hsingle : IsSingle levels a := .inr fun members ha => hunion ⟨_, members, ha⟩
      rcases exists_benevolent hab.left.here hsingle h with ⟨members', rfl, -⟩
      exact absurd ⟨_, _, rfl⟩ hunion
    · rw [interPart_of_ne fun members hb => hplain ⟨members, hb⟩] at h
      exact ih hab hwhole h

theorem ampersand_not_mem_interPart {t : Ty} (ht : ∀ inner, t ≠ .inter inner) :
    Token.mark .ampersand ∉ interPart (spell levels) t := by
  intro hampersand
  rcases mark_mem_spell (mark_mem_interPart hampersand).1 with ⟨hmark, -⟩ | ⟨-, inner, rfl⟩
  · cases hmark
  · exact ht inner rfl

/-- The tokens of the members of two intersections determine the members. -/
theorem interTokens_inj (ih : Faithful levels)
    (hab : Comparable (.inter members) (.inter members'))
    (hwhole : ∀ m ∈ members, isWhole levels m = true)
    (h : joined .ampersand (members.map (interPart (spell levels))) =
      joined .ampersand (members'.map (interPart (spell levels')))) : members = members' := by
  have hleft := hab.left.here
  have hright := hab.right.here
  have hne : ∀ {ts : List Ty} {f : Ty -> List Token}, 2 ≤ ts.length -> ts.map f ≠ [] := by
    intro ts f htwo hnil
    rw [List.map_eq_nil_iff.mp hnil] at htwo
    exact absurd htwo (by decide)
  have hparts := intercalate_inj (hne hleft.1) (hne hright.1)
    (List.forall_mem_map.mpr fun t ht => ampersand_not_mem_interPart (hleft.2 t ht))
    (List.forall_mem_map.mpr fun t ht => ampersand_not_mem_interPart (hright.2 t ht)) h
  refine eq_of_map_eq (fun t ht u hu => ?_) hparts
  refine interPart_inj ih (hab.inside ht hu) (hwhole t ht) ?_
  intro f g inner ha hb
  subst ha hb
  exact hab.told.here.here f g inner ht hu

end Members

/-!
# One level more
-/

section Step

variable {levels levels' : Nat} {a b : Ty}

theorem fixed_inj : ∀ p ∈ fixedTypes, ∀ q ∈ fixedTypes, p.1 = q.1 -> p.2 = q.2 := by
  decide +kernel

/-- A type that is no plain union is determined by its tokens if all types with one level less
are. -/
theorem eq_of_form (ih : Faithful levels) (hab : Comparable a b)
    (hwhole : isWhole (levels + 1) a = true) (ha : ∀ members, a ≠ .union .plain members)
    (hb : ∀ members, b ≠ .union .plain members)
    (h : spell (levels + 1) a = spell (levels' + 1) b) : a = b := by
  have hform : formOf a = formOf b := by
    rw [← form_spell levels hab.left.here ha, h, form_spell levels' hab.right.here hb]
  have hfits := fits_formOf a
  have hfits' := fits_formOf b
  have hwritten : ∀ c ∈ written a, isWhole levels c = true := List.all_eq_true.mp hwhole
  rw [← hform] at hfits'
  cases hcase : formOf a <;> rw [hcase] at hfits hfits'
  case cutOff => exact hfits.elim
  case fixed =>
    rcases hfits with ⟨w, hmem, hspell⟩
    rcases hfits' with ⟨w', hmem', hspell'⟩
    rw [hspell, hspell'] at h
    exact fixed_inj _ hmem _ hmem' (Token.word.inj (List.cons.inj h).1)
  case int =>
    rcases hfits with ⟨n, rfl⟩
    rcases hfits' with ⟨n', rfl⟩
    rw [Text.Numeral.toString_inj (Token.word.inj (List.cons.inj h).1)]
  case float =>
    rcases hfits with ⟨x, rfl⟩
    rcases hfits' with ⟨y, rfl⟩
    rcases Double.literal_inj (Token.word.inj (List.cons.inj h).1) with heq | ⟨hx, hy⟩
    · rw [heq]
    · rw [hab.told.here.here hx hy]
  case text =>
    rcases hfits with ⟨s, rfl⟩
    rcases hfits' with ⟨s', rfl⟩
    rw [Token.quoted.inj (List.cons.inj h).1]
  case range =>
    rcases hfits with ⟨⟨lo, hi⟩, rfl⟩
    rcases hfits' with ⟨⟨lo', hi'⟩, rfl⟩
    simp only [spell, List.cons.injEq, Token.group.injEq, Token.word.injEq, true_and,
      and_true] at h
    rw [bound_inj (by decide) h.1, bound_inj (by decide) h.2]
  case object =>
    rcases hfits with ⟨cls, arguments, rfl⟩
    rcases hfits' with ⟨cls', arguments', rfl⟩
    rcases applied_inj comma_not_mem_map_spell comma_not_mem_map_spell h with ⟨rfl, hparts⟩
    have heq : arguments = arguments' := eq_of_map_eq
      (fun t ht u hu htu => ih (hab.inside ht hu) (hwritten t ht) htu) hparts
    rw [heq]
  case this =>
    rcases hfits with ⟨cls, rfl⟩
    rcases hfits' with ⟨cls', rfl⟩
    simp only [spell, List.cons.injEq, Token.group.injEq, Token.word.injEq, true_and,
      and_true] at h
    rw [h]
  case array =>
    rcases hfits with ⟨k, v, rfl⟩
    rcases hfits' with ⟨k', v', rfl⟩
    have hparts := (applied_inj comma_not_mem_map_spell comma_not_mem_map_spell h).2
    have heq : written (.array k v) = written (.array k' v') := eq_of_map_eq
      (fun t ht u hu htu => ih (hab.inside (mem_children_of_mem_written ht)
        (mem_children_of_mem_written hu)) (hwritten t ht) htu) hparts
    rcases written_array_inj heq with ⟨rfl, rfl⟩
    rfl
  case shape =>
    rcases hfits with ⟨entries, rfl⟩
    rcases hfits' with ⟨entries', rfl⟩
    simp only [spell, List.cons.injEq, Token.group.injEq, true_and, and_true] at h
    rw [shape_inj (fun e he => spell_ne_nil (hab.left.value he))
      (fun e he => spell_ne_nil (hab.right.value he)) (fun e he e' he' heq =>
        ih (hab.inside (Ty.mem_children_shape he) (Ty.mem_children_shape he'))
          (hwritten _ (Ty.mem_children_shape he)) heq) h]
  case property =>
    rcases hfits with ⟨name, rfl⟩
    rcases hfits' with ⟨name', rfl⟩
    simp only [spell, accessoryTokens, List.cons.injEq, Token.group.injEq, Token.word.injEq,
      true_and, and_true] at h
    rw [h]
  case offset =>
    rcases hfits with ⟨k, rfl⟩
    rcases hfits' with ⟨k', rfl⟩
    simp only [spell, accessoryTokens, List.cons.injEq, Token.group.injEq, true_and,
      and_true] at h
    rw [offsetToken_inj h]
  case parenthesized =>
    rcases hfits with ⟨members, rfl⟩
    rcases hfits' with ⟨members', rfl⟩
    rw [unionTokens_inj ih hab hwritten (Token.group.inj (List.cons.inj h).1).2]
  case conjunction =>
    rcases hfits with ⟨members, rfl⟩
    rcases hfits' with ⟨members', rfl⟩
    rw [interTokens_inj ih hab hwritten h]
  case other =>
    rcases hfits with rfl | ⟨n, rfl⟩ | ⟨members, rfl⟩
    · exact hab.left.here.elim
    · exact hab.left.here.elim
    · exact absurd rfl (ha members)

theorem eq_of_isSingle (ih : Faithful levels) (hab : Comparable a b)
    (hwhole : isWhole (levels + 1) a = true) (ha : ∀ members, a ≠ .union .plain members)
    (hb : IsSingle levels' b) (h : spell (levels + 1) a = spell levels' b) : a = b := by
  cases levels' with
  | zero =>
      have hform := form_spell levels hab.left.here ha
      rw [h, form_cutOff] at hform
      have hfits := fits_formOf a
      rw [← hform] at hfits
      exact hfits.elim
  | succ levels' => exact eq_of_form ih hab hwhole ha (hb.resolve_left (by simp)) h

/-- No other type is written as the members of a union with bars between them. -/
theorem spell_ne_unionTokens (ih : Faithful levels) {f : Flavor} {members : List Ty}
    (hab : Comparable a (.union f members)) (hwhole : isWhole (levels + 1) a = true)
    (ha : ∀ inner, a ≠ .union .plain inner) :
    spell (levels + 1) a ≠ unionTokens (spell levels') members := by
  intro h
  have hright := hab.right.here
  have hone : [a] = members := by
    refine eq_of_joined_kept (f := spell (levels + 1)) (List.cons_ne_nil _ _)
      (ne_nil_of_isWritable hright) (List.nodup_singleton a) hright.2.1
      (List.forall_mem_singleton.mpr (Everywhere.spelled hab.left _))
      (fun t ht => spelled_unionPart (Everywhere.spelled (hab.right.inside ht) _))
      (List.forall_mem_singleton.mpr (IsSingle.bar_not_mem (.inr ha)))
      (fun t ht => bar_not_mem_unionPart (hright.2.2 t ht)) ?_ ((joined_singleton _ _).trans h)
    refine List.forall_mem_singleton.mpr fun t ht heq => ?_
    by_cases hinter : ∃ inner, t = .inter inner
    · rcases hinter with ⟨inner, rfl⟩
      rcases exists_benevolent hab.left.here (.inr ha) heq with ⟨members', rfl, hinner⟩
      exact absurd hinner.symm (unionTokens_ne ih (hab.inside_right ht)
        (List.all_eq_true.mp hwhole) (.inr (by simp)))
    · rw [unionPart_of_ne fun inner ht => hinter ⟨inner, ht⟩] at heq
      exact eq_of_isSingle ih (hab.inside_right ht) hwhole ha
        (isSingle_of_unionMembers? (hright.2.2 t ht)) heq
  have htwo := hright.1
  rw [← hone, List.length_singleton] at htwo
  exact absurd htwo (by decide)

end Step

/-- A type that is written in full is determined by its tokens. -/
theorem faithful (levels : Nat) : Faithful levels := by
  induction levels with
  | zero => exact fun _ hwhole => nomatch hwhole
  | succ levels ih =>
      intro levels' a b hab hwhole h
      rcases isSingle_or (levels + 1) a with ha | ⟨_, members, heq, rfl⟩ <;>
        rcases isSingle_or levels' b with hb | ⟨below', members', rfl, rfl⟩
      · exact eq_of_isSingle ih hab hwhole (ha.resolve_left (by simp)) hb h
      · exact absurd h (spell_ne_unionTokens ih hab hwhole (ha.resolve_left (by simp)))
      · exact absurd h (unionTokens_ne ih hab (List.all_eq_true.mp hwhole) hb)
      · rw [unionTokens_inj ih hab (List.all_eq_true.mp hwhole) h]

end Render

end GradualTypes
