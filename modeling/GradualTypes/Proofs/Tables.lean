import GradualTypes.Shards

/-!
# Numberings and sharded tables

In a numbering that is made by entering values one by one, numbers and values
correspond.  So do tickets and values in a sharded table: the shard of a ticket
is the shard of its value, and its place is the number of the value in the shard.
-/

namespace GradualTypes

namespace Numbering

variable {α : Type} [BEq α] [Hashable α] {numbering : Numbering α} {a b : α} {n : Nat}

/-- The numbers of the values are their positions. -/
def IsConsistent (numbering : Numbering α) : Prop :=
  ∀ a n, numbering.number? a = some n ↔ numbering.item? n = some a

theorem isConsistent_empty : (empty : Numbering α).IsConsistent := by
  intro a n
  simp [empty, number?, item?]

theorem lt_size_of_item? (ha : numbering.item? n = some a) : n < numbering.size :=
  (Array.getElem?_eq_some_iff.mp ha).1

theorem IsConsistent.number?_eq_none (h : numbering.IsConsistent) :
    numbering.number? a = none ↔ ∀ n, numbering.item? n ≠ some a := by
  rw [Option.eq_none_iff_forall_ne_some]
  exact forall_congr' fun n => not_congr (h a n)

theorem IsConsistent.mem_items_iff (h : numbering.IsConsistent) :
    a ∈ numbering.items ↔ ∃ n, numbering.number? a = some n := by
  rw [Array.mem_iff_getElem?]
  exact exists_congr fun n => (h a n).symm

variable [LawfulBEq α]

theorem enter_eq_self (ha : numbering.number? a = some n) : numbering.enter a = numbering := by
  have hcontains : numbering.index.contains a = true := by
    rw [Std.HashMap.contains_eq_isSome_getElem?]
    exact Option.isSome_of_eq_some ha
  simp [enter, hcontains]

theorem index_contains (ha : numbering.number? a = none) :
    numbering.index.contains a = false := by
  rw [Std.HashMap.contains_eq_isSome_getElem?, Option.isSome_eq_false_iff]
  exact Option.isNone_iff_eq_none.mpr ha

theorem items_enter (ha : numbering.number? a = none) :
    (numbering.enter a).items = numbering.items.push a := by
  simp [enter, index_contains ha]

theorem number?_enter (ha : numbering.number? a = none) (b : α) :
    (numbering.enter a).number? b =
      if a == b then some numbering.size else numbering.number? b := by
  simp [enter, number?, index_contains ha, Std.HashMap.getElem?_insert, size]

theorem size_enter (ha : numbering.number? a = none) :
    (numbering.enter a).size = numbering.size + 1 := by
  simp [size, items_enter ha]

theorem size_le_size_enter (numbering : Numbering α) (a : α) :
    numbering.size ≤ (numbering.enter a).size := by
  cases ha : numbering.number? a with
  | some n => simp [enter_eq_self ha]
  | none => simp [size_enter ha]

theorem size_enter_le (numbering : Numbering α) (a : α) :
    (numbering.enter a).size ≤ numbering.size + 1 := by
  cases ha : numbering.number? a with
  | some n => simp [enter_eq_self ha]
  | none => simp [size_enter ha]

theorem item?_enter_size (ha : numbering.number? a = none) :
    (numbering.enter a).item? numbering.size = some a := by
  simp [item?, size, items_enter ha]

theorem item?_enter_of_ne (hn : n ≠ numbering.size) :
    (numbering.enter a).item? n = numbering.item? n := by
  cases ha : numbering.number? a with
  | some m => rw [enter_eq_self ha]
  | none =>
      rw [item?, item?, items_enter ha, Array.getElem?_push]
      exact if_neg hn

/-- A number keeps its meaning. -/
theorem item?_enter (hb : numbering.item? n = some b) :
    (numbering.enter a).item? n = some b := by
  rw [item?_enter_of_ne (Nat.ne_of_lt (lt_size_of_item? hb)), hb]

theorem IsConsistent.enter (h : numbering.IsConsistent) (a : α) :
    (numbering.enter a).IsConsistent := by
  cases ha : numbering.number? a with
  | some n => rwa [enter_eq_self ha]
  | none =>
      intro b n
      have hnew := h.number?_eq_none.mp ha
      rw [number?_enter ha]
      by_cases hn : n = numbering.size
      · subst hn
        have hpast : numbering.item? numbering.size = none := by simp [item?, size]
        have hold : numbering.number? b ≠ some numbering.size := by
          rw [Ne, h, hpast]
          exact Option.some_ne_none b ∘ Eq.symm
        rw [item?_enter_size ha]
        by_cases hab : a = b
        · simp [hab]
        · simp [hab, hold]
      · rw [item?_enter_of_ne hn]
        by_cases hab : a = b
        · subst hab
          simp [hnew n, Ne.symm hn]
        · simp [hab, h b n]

/-- A value that is entered has a number. -/
theorem IsConsistent.exists_number?_enter (h : numbering.IsConsistent) (a : α) :
    ∃ n, (numbering.enter a).number? a = some n ∧ n < (numbering.enter a).size := by
  have hnumber : ∃ n, (numbering.enter a).number? a = some n := by
    cases ha : numbering.number? a with
    | some n => exact ⟨n, by rw [enter_eq_self ha, ha]⟩
    | none => exact ⟨numbering.size, by simp [number?_enter ha]⟩
  rcases hnumber with ⟨n, hn⟩
  exact ⟨n, hn, lt_size_of_item? ((h.enter a a n).mp hn)⟩

theorem IsConsistent.mem_items_enter_self (h : numbering.IsConsistent) (a : α) :
    a ∈ (numbering.enter a).items := by
  rcases h.exists_number?_enter a with ⟨n, hn, -⟩
  exact (h.enter a).mem_items_iff.mpr ⟨n, hn⟩

end Numbering

/-!
# Tickets
-/

namespace Shards

theorem toNat_ticket (shard : Shard) {place : Nat} (hplace : place ≤ lastPlace) :
    (ticket shard place).toNat = place * 64 + shard.val := by
  have hlast : place < 2 ^ 26 := Nat.lt_succ_of_le hplace
  have hshift : (place <<< 6) % 2 ^ 32 = place <<< 6 :=
    Nat.mod_eq_of_lt (by rw [Nat.shiftLeft_eq]; omega)
  have hshard : shard.val < 2 ^ 6 := shard.isLt
  rw [ticket, UInt32.toNat_or, UInt32.toNat_shiftLeft, UInt32.toNat_ofNat', UInt32.toNat_ofNat',
    Nat.mod_eq_of_lt (show place < 2 ^ 32 by omega),
    Nat.mod_eq_of_lt (show shard.val < 2 ^ 32 by omega)]
  show (place <<< 6) % 2 ^ 32 ||| shard.val = _
  rw [hshift, ← Nat.shiftLeft_add_eq_or_of_lt hshard, Nat.shiftLeft_eq]

theorem val_ofTicket (t : UInt32) : (Shard.ofTicket t).val = t.toNat % 64 := by
  show (t &&& 63).toNat = _
  rw [UInt32.toNat_and]
  exact Nat.and_two_pow_sub_one_eq_mod t.toNat 6

theorem placeOf_eq (t : UInt32) : placeOf t = t.toNat / 64 := by
  rw [placeOf, UInt32.toNat_shiftRight]
  exact Nat.shiftRight_eq_div_pow t.toNat 6

theorem placeOf_le (t : UInt32) : placeOf t ≤ lastPlace := by
  have hlt := t.toNat_lt
  have hlast : lastPlace = 67108863 := rfl
  rw [placeOf_eq]
  omega

@[simp] theorem ofTicket_ticket (shard : Shard) {place : Nat} (hplace : place ≤ lastPlace) :
    Shard.ofTicket (ticket shard place) = shard := by
  apply Fin.ext
  rw [val_ofTicket, toNat_ticket shard hplace]
  omega

@[simp] theorem placeOf_ticket (shard : Shard) {place : Nat} (hplace : place ≤ lastPlace) :
    placeOf (ticket shard place) = place := by
  rw [placeOf_eq, toNat_ticket shard hplace]
  omega

/-- A ticket is made of its shard and its place. -/
theorem eq_ticket (t : UInt32) : t = ticket (Shard.ofTicket t) (placeOf t) := by
  apply UInt32.toNat_inj.mp
  rw [toNat_ticket _ (placeOf_le t), val_ofTicket, placeOf_eq]
  omega

/-!
# Sharded tables
-/

variable {α : Type} [BEq α] [Hashable α] {hash : α -> UInt64} {table : Shards α} {a b : α}
  {t u : UInt32}

/-- Each shard is a numbering of values that belong there, and none has more values
than there are places. -/
structure IsConsistent (hash : α -> UInt64) (table : Shards α) : Prop where
  parts : ∀ s, (table.part s).IsConsistent
  belong : ∀ s n a, (table.part s).item? n = some a -> Shard.ofHash (hash a) = s
  size_le : ∀ s, (table.part s).size ≤ lastPlace + 1

theorem part_empty (s : Shard) : (empty : Shards α).part s = .empty := by
  simp [part, empty]

theorem isConsistent_empty : (empty : Shards α).IsConsistent hash where
  parts := fun s => by rw [part_empty]; exact Numbering.isConsistent_empty
  belong := fun s n a ha => by
    rw [part_empty] at ha
    simp [Numbering.empty, Numbering.item?] at ha
  size_le := fun s => by
    rw [part_empty]
    exact Nat.zero_le _

/-- The shard into which a value is entered. -/
abbrev home (hash : α -> UInt64) (table : Shards α) (a : α) : Numbering α :=
  table.part (Shard.ofHash (hash a))

/-- The ticket that a new value gets. -/
abbrev nextTicket (hash : α -> UInt64) (table : Shards α) (a : α) : UInt32 :=
  ticket (Shard.ofHash (hash a)) (home hash table a).size

theorem home_lt (hash : α -> UInt64) (a : α) : (Shard.ofHash (hash a)).val < 64 :=
  (Shard.ofHash (hash a)).isLt

/-- The table after a new value has been entered. -/
def insert (hash : α -> UInt64) (table : Shards α) (a : α) : Shards α where
  parts := table.parts.set (Shard.ofHash (hash a)) ((home hash table a).enter a)
    (home_lt hash a)

theorem part_insert (s : Shard) :
    (table.insert hash a).part s =
      if s = Shard.ofHash (hash a) then (home hash table a).enter a else table.part s := by
  simp only [part, insert, Fin.getElem_fin, Vector.getElem_set, Fin.ext_iff, eq_comm]

theorem item?_ticket (shard : Shard) {place : Nat} (hplace : place ≤ lastPlace) :
    table.item? (ticket shard place) = (table.part shard).item? place := by
  simp only [item?, ofTicket_ticket shard hplace, placeOf_ticket shard hplace]

/-- Equal values have equal tickets. -/
theorem IsConsistent.ticket_inj (h : table.IsConsistent hash) (ht : table.item? t = some a)
    (hu : table.item? u = some a) : t = u := by
  have hshard : Shard.ofTicket t = Shard.ofTicket u :=
    (h.belong _ _ a ht).symm.trans (h.belong _ _ a hu)
  have hplace : placeOf t = placeOf u := by
    have ht' := (h.parts _ a _).mpr ht
    have hu' := (h.parts _ a _).mpr hu
    rw [hshard] at ht'
    exact Option.some.inj (ht'.symm.trans hu')
  rw [eq_ticket t, eq_ticket u, hshard, hplace]

/-!
# Entering a value
-/

/-- What entering a value does. -/
inductive Entered (hash : α -> UInt64) (table : Shards α) (a : α) :
    Option UInt32 × Shards α -> Prop where
  | known (t : UInt32) : table.item? t = some a -> Entered hash table a (some t, table)
  | full : lastPlace < (home hash table a).size -> (∀ t, table.item? t ≠ some a) ->
      Entered hash table a (none, table)
  | new : (home hash table a).number? a = none -> (home hash table a).size ≤ lastPlace ->
      (∀ t, table.item? t ≠ some a) ->
      Entered hash table a (some (nextTicket hash table a), table.insert hash a)

theorem IsConsistent.entered (h : table.IsConsistent hash) (a : α) :
    Entered hash table a (table.enter hash a) := by
  unfold enter
  dsimp only
  split
  · rename_i place hnumber
    have hitem := (h.parts _ a place).mp hnumber
    have hplace : place ≤ lastPlace :=
      Nat.le_of_lt_succ (Nat.lt_of_lt_of_le (Numbering.lt_size_of_item? hitem) (h.size_le _))
    exact .known _ ((item?_ticket _ hplace).trans hitem)
  · rename_i hnumber
    have hnew : ∀ t, table.item? t ≠ some a := by
      intro t ht
      have hold := (h.parts _ a _).mpr ht
      rw [← h.belong _ _ a ht] at hold
      exact Option.some_ne_none _ (hold.symm.trans hnumber)
    split
    · rename_i hfull
      exact .full hfull hnew
    · rename_i hroom
      exact .new hnumber (Nat.le_of_not_lt hroom) hnew

variable [LawfulBEq α]

section New

variable (ha : (home hash table a).number? a = none) (hroom : (home hash table a).size ≤ lastPlace)
include ha hroom

theorem item?_insert_self : (table.insert hash a).item? (nextTicket hash table a) = some a := by
  rw [item?_ticket _ hroom, part_insert, if_pos rfl]
  exact Numbering.item?_enter_size ha

theorem IsConsistent.insert (h : table.IsConsistent hash) :
    (table.insert hash a).IsConsistent hash where
  parts := by
    intro s
    rw [part_insert]
    split
    · exact (h.parts _).enter a
    · exact h.parts s
  belong := by
    intro s n b hb
    rw [part_insert] at hb
    split at hb
    · rename_i hs
      by_cases hn : n = (home hash table a).size
      · rw [hn, Numbering.item?_enter_size ha] at hb
        cases hb
        exact hs.symm
      · rw [Numbering.item?_enter_of_ne hn] at hb
        rw [hs]
        exact h.belong _ n b hb
    · exact h.belong s n b hb
  size_le := by
    intro s
    rw [part_insert]
    split
    · rw [Numbering.size_enter ha]
      omega
    · exact h.size_le s

end New

theorem item?_insert_of_ne (ht : t ≠ nextTicket hash table a) :
    (table.insert hash a).item? t = table.item? t := by
  rw [item?, item?, part_insert]
  split
  · rename_i hs
    have hplace : placeOf t ≠ (home hash table a).size := by
      intro hplace
      apply ht
      rw [eq_ticket t, hs, hplace]
    rw [Numbering.item?_enter_of_ne hplace, hs]
  · rfl

theorem item?_insert (hb : table.item? t = some b) : (table.insert hash a).item? t = some b := by
  rw [item?, part_insert]
  split
  · rename_i hs
    rw [item?, hs] at hb
    exact Numbering.item?_enter hb
  · exact hb

theorem size_le_size_insert (s : Shard) :
    (table.part s).size ≤ ((table.insert hash a).part s).size := by
  rw [part_insert]
  split
  · rename_i hs
    rw [hs]
    exact Numbering.size_le_size_enter _ a
  · exact Nat.le_refl _

namespace IsConsistent

variable (h : table.IsConsistent hash) (a)
include h

protected theorem enter : (table.enter hash a).2.IsConsistent hash := by
  have hentered := h.entered a
  generalize table.enter hash a = result at hentered ⊢
  cases hentered with
  | known t ht => exact h
  | full hfull hnew => exact h
  | new ha hroom hnew => exact h.insert ha hroom

/-- A ticket keeps its meaning. -/
theorem item?_enter (hb : table.item? t = some b) : (table.enter hash a).2.item? t = some b := by
  have hentered := h.entered a
  generalize table.enter hash a = result at hentered ⊢
  cases hentered with
  | known u hu => exact hb
  | full hfull hnew => exact hb
  | new ha hroom hnew => exact item?_insert hb

theorem size_le_size_enter (s : Shard) :
    (table.part s).size ≤ ((table.enter hash a).2.part s).size := by
  have hentered := h.entered a
  generalize table.enter hash a = result at hentered ⊢
  cases hentered with
  | known u hu => exact Nat.le_refl _
  | full hfull hnew => exact Nat.le_refl _
  | new ha hroom hnew => exact size_le_size_insert s

theorem size_enter_le (s : Shard) :
    ((table.enter hash a).2.part s).size ≤ (table.part s).size + 1 := by
  have hentered := h.entered a
  generalize table.enter hash a = result at hentered ⊢
  cases hentered with
  | known u hu => exact Nat.le_succ _
  | full hfull hnew => exact Nat.le_succ _
  | new ha hroom hnew =>
      rw [part_insert]
      split
      · rename_i hs
        rw [hs]
        exact Numbering.size_enter_le _ a
      · exact Nat.le_succ _

/-- A ticket is that of the value it is given for, and any other ticket is as before. -/
theorem item?_of_enter {ticket : UInt32} {table' : Shards α}
    (henter : table.enter hash a = (some ticket, table')) :
    table'.item? ticket = some a ∧ ∀ t, t ≠ ticket -> table'.item? t = table.item? t := by
  have hentered := h.entered a
  rw [henter] at hentered
  cases hentered with
  | known _ ht => exact ⟨ht, fun _ _ => rfl⟩
  | new ha hroom hnew => exact ⟨item?_insert_self ha hroom, fun _ ht => item?_insert_of_ne ht⟩

end IsConsistent

end Shards
end GradualTypes
