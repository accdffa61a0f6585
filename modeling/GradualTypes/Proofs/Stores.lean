import Mathlib.Algebra.Group.Nat.Defs
import GradualTypes.Proofs.Tables
import GradualTypes.Store

/-!
# Stores

In a store that is made by interning nodes, lists and shapes, handles and contents
correspond: what is interned can be looked up, equal contents get equal handles,
and a handle keeps its meaning through all that is done later.

A store has room as long as the next handle of each shard is a number of 32 bits.
This fails one or two places before the shard itself is full.
-/

namespace GradualTypes

namespace Numbering

variable {α : Type} [BEq α] [LawfulBEq α] [Hashable α] {numbering numbering' : Numbering α}
  {a : α} {m n : Nat}

/-- Every number of the one has the same meaning in the other. -/
def Extends (numbering numbering' : Numbering α) : Prop :=
  ∀ n a, numbering.item? n = some a -> numbering'.item? n = some a

omit [LawfulBEq α] in
theorem IsConsistent.number_inj (h : numbering.IsConsistent) (hm : numbering.item? m = some a)
    (hn : numbering.item? n = some a) : m = n :=
  Option.some.inj (((h a m).mpr hm).symm.trans ((h a n).mpr hn))

theorem IsConsistent.item?_numberOf (h : numbering.IsConsistent) (a : α) :
    (numbering.enter a).item? (numbering.numberOf a).1 = some a := by
  rcases h.exists_number?_enter a with ⟨n, hn, -⟩
  have hnumber : (numbering.numberOf a).1 = n := by simp [numberOf, hn]
  rw [hnumber]
  exact (h.enter a a n).mp hn

theorem IsConsistent.numberOf_lt (h : numbering.IsConsistent) (hsize : numbering.size < 2 ^ 32) :
    (numbering.numberOf a).1 < 2 ^ 32 := by
  have hlt := lt_size_of_item? (h.item?_numberOf a)
  have hle := numbering.size_enter_le a
  omega

end Numbering

/-!
# Handles
-/

namespace Handle

theorem toNat_ofTicket {t : UInt32} (hfits : 100 + t.toNat < 2 ^ 32) :
    (ofTicket t).number.toNat = 100 + t.toNat := by
  rw [ofTicket, UInt32.toNat_add]
  exact Nat.mod_eq_of_lt hfits

@[simp] theorem ofTicket_sub (t : UInt32) : (ofTicket t).number - firstFree = t := by
  show firstFree + t - firstFree = t
  rw [UInt32.add_comm]
  exact UInt32.add_sub_cancel t firstFree

theorem not_ofTicket_lt {t : UInt32} (hfits : 100 + t.toNat < 2 ^ 32) :
    ¬ (ofTicket t).number < firstFree := by
  rw [UInt32.lt_iff_toNat_lt, toNat_ofTicket hfits]
  exact Nat.not_lt.mpr (Nat.le_add_right 100 _)

/-- The last place of a shard has no handle of its own: its number goes beyond 32 bits, and what
is left of it is a number that is not free. -/
theorem ofTicket_lastPlace_lt (s : Shard) :
    (ofTicket (Shards.ticket s Shards.lastPlace)).number < firstFree := by
  have hticket := Shards.toNat_ticket s (Nat.le_refl Shards.lastPlace)
  have hlast : Shards.lastPlace = 67108863 := rfl
  have hshard := s.isLt
  rw [UInt32.lt_iff_toNat_lt, ofTicket, UInt32.toNat_add, hticket]
  show (100 + (Shards.lastPlace * 64 + s.val)) % 2 ^ 32 < 100
  omega

theorem eq_ofTicket (x : Handle) : x = ofTicket (x.number - firstFree) := by
  cases x with
  | mk number =>
      show Handle.mk number = ⟨firstFree + (number - firstFree)⟩
      rw [UInt32.add_comm, UInt32.sub_add_cancel]

theorem ofNat_toNat_number (x : Handle) : x = ⟨UInt32.ofNat x.number.toNat⟩ := by
  rw [UInt32.ofNat_toNat]

/-- A fixed handle is that of its node, except that of the placeholder. -/
theorem fixedHandle?_of_fixedNode? {x : Handle} {d : Node} (hx : x.fixedNode? = some d)
    (hne : x ≠ placeholder) : d.fixedHandle? = some x := by
  rw [ofNat_toNat_number x] at hne ⊢
  unfold fixedNode? at hx
  split at hx <;> rename_i hnumber
  · exact absurd (by rw [hnumber]; rfl) hne
  all_goals first
    | cases hx
      rw [hnumber]
      rfl
    | cases hx

theorem fixedNode?_of_fixedHandle? {x : Handle} {d : Node} (hd : d.fixedHandle? = some x) :
    x.fixedNode? = some d ∧ x.number < firstFree ∧ x ≠ placeholder := by
  cases d <;> simp only [Node.fixedHandle?, Option.some.injEq, reduceCtorEq] at hd
  · rename_i k
    subst hd
    cases k <;> exact ⟨rfl, by decide, by decide⟩
  · subst hd
    exact ⟨rfl, by decide, by decide⟩

end Handle

namespace Store

variable {hash : Node -> UInt64} {st st' future : Store} {x y : Handle} {d e : Node}

structure IsSound (hash : Node -> UInt64) (st : Store) : Prop where
  nodes : st.nodes.IsConsistent hash
  /-- No node with a fixed handle is in the table. -/
  free : ∀ t d, st.nodes.item? t = some d -> d.fixedHandle? = none
  lists : st.lists.IsConsistent
  empty : st.lists.item? 0 = some []
  shapes : st.shapes.IsConsistent

theorem isSound_new : new.IsSound hash where
  nodes := Shards.isConsistent_empty
  free := fun t d ht => by
    simp [new, Shards.item?, Shards.part_empty, Numbering.empty, Numbering.item?] at ht
  lists := Numbering.isConsistent_empty.enter []
  empty := Numbering.item?_enter_size (by simp [Numbering.empty, Numbering.number?])
  shapes := Numbering.isConsistent_empty

/-- Whatever is in the one store is in the other in the same place. -/
structure Extends (st st' : Store) : Prop where
  nodes : ∀ t d, st.nodes.item? t = some d -> st'.nodes.item? t = some d
  sizes : ∀ s, (st.nodes.part s).size ≤ (st'.nodes.part s).size
  lists : st.lists.Extends st'.lists
  shapes : st.shapes.Extends st'.shapes

theorem Extends.refl (st : Store) : Extends st st :=
  ⟨fun _ _ => id, fun _ => Nat.le_refl _, fun _ _ => id, fun _ _ => id⟩

theorem Extends.trans (hfirst : Extends st st') (hsecond : Extends st' future) :
    Extends st future where
  nodes := fun t d ht => hsecond.nodes t d (hfirst.nodes t d ht)
  sizes := fun s => Nat.le_trans (hfirst.sizes s) (hsecond.sizes s)
  lists := fun n xs hn => hsecond.lists n xs (hfirst.lists n xs hn)
  shapes := fun n entries hn => hsecond.shapes n entries (hfirst.shapes n entries hn)

/-!
# Operations
-/

/-- A store after any sequence of operations on another one. -/
inductive Later (hash : Node -> UInt64) (st : Store) : Store -> Prop where
  | refl : Later hash st st
  | intern {st' : Store} (d : Node) : Later hash st st' -> Later hash st (st'.intern hash d).2
  | internList {st' : Store} (xs : List Handle) :
      Later hash st st' -> Later hash st (st'.internList xs).2
  | internShape {st' : Store} (entries : List (Entry Handle)) :
      Later hash st st' -> Later hash st (st'.internShape entries).2

theorem Later.trans (hfirst : Later hash st st') (hsecond : Later hash st' future) :
    Later hash st future := by
  induction hsecond with
  | refl => exact hfirst
  | intern d _ ih => exact ih.intern d
  | internList xs _ ih => exact ih.internList xs
  | internShape entries _ ih => exact ih.internShape entries

theorem intern_of_fixed (hd : d.fixedHandle? = some x) : st.intern hash d = (x, st) := by
  simp [intern, hd]

/-- What interning a node without a fixed handle does. -/
theorem intern_of_free (hd : d.fixedHandle? = none) :
    st.intern hash d =
      (((st.nodes.enter hash d).1.map Handle.ofTicket).getD .error,
        { st with nodes := (st.nodes.enter hash d).2 }) := by
  unfold intern
  rw [hd]
  dsimp only
  split <;> simp_all

namespace IsSound

variable (h : st.IsSound hash)
include h

theorem intern_step (d : Node) :
    (st.intern hash d).2.IsSound hash ∧ Extends st (st.intern hash d).2 := by
  cases hd : d.fixedHandle? with
  | some x =>
      rw [intern_of_fixed hd]
      exact ⟨h, .refl st⟩
  | none =>
      rw [intern_of_free hd]
      refine ⟨⟨h.nodes.enter d, fun t e ht => ?_, h.lists, h.empty, h.shapes⟩,
        ⟨fun t e ht => h.nodes.item?_enter d ht, h.nodes.size_le_size_enter d, fun _ _ => id,
          fun _ _ => id⟩⟩
      have hentered := h.nodes.entered d
      dsimp only at ht
      generalize st.nodes.enter hash d = result at hentered ht
      cases hentered with
      | known u hu => exact h.free t e ht
      | full hfull hnew => exact h.free t e ht
      | new hnumber hroom hnew =>
          by_cases hticket : t = st.nodes.nextTicket hash d
          · rw [hticket, Shards.item?_insert_self hnumber hroom] at ht
            exact Option.some.inj ht ▸ hd
          · rw [Shards.item?_insert_of_ne hticket] at ht
            exact h.free t e ht

theorem internList_step (xs : List Handle) :
    (st.internList xs).2.IsSound hash ∧ Extends st (st.internList xs).2 := by
  unfold internList
  split
  · exact ⟨h, .refl st⟩
  · exact ⟨⟨h.nodes, h.free, h.lists.enter xs, Numbering.item?_enter h.empty, h.shapes⟩,
      ⟨fun _ _ => id, fun _ => Nat.le_refl _, fun _ _ => Numbering.item?_enter, fun _ _ => id⟩⟩

theorem internShape_step (entries : List (Entry Handle)) :
    (st.internShape entries).2.IsSound hash ∧ Extends st (st.internShape entries).2 :=
  ⟨⟨h.nodes, h.free, h.lists, h.empty, h.shapes.enter entries⟩,
    ⟨fun _ _ => id, fun _ => Nat.le_refl _, fun _ _ => id, fun _ _ => Numbering.item?_enter⟩⟩

theorem later (hlater : Later hash st st') : st'.IsSound hash ∧ Extends st st' := by
  induction hlater with
  | refl => exact ⟨h, .refl st⟩
  | intern d _ ih => exact ⟨(ih.1.intern_step d).1, ih.2.trans (ih.1.intern_step d).2⟩
  | internList xs _ ih =>
      exact ⟨(ih.1.internList_step xs).1, ih.2.trans (ih.1.internList_step xs).2⟩
  | internShape entries _ ih =>
      exact ⟨(ih.1.internShape_step entries).1, ih.2.trans (ih.1.internShape_step entries).2⟩

end IsSound

/-!
# Nodes
-/

/-- The next handle of each shard is a number of 32 bits. -/
def IsBelowCapacity (st : Store) : Prop :=
  ∀ s : Shard, 100 + ((st.nodes.part s).size * 64 + s.val) < 2 ^ 32

theorem IsBelowCapacity.anti (h : st'.IsBelowCapacity) (hextends : Extends st st') :
    st.IsBelowCapacity := by
  intro s
  have hsize := hextends.sizes s
  have hnext := h s
  omega

namespace IsBelowCapacity

variable (h : st.IsBelowCapacity)
include h

theorem le_lastPlace (s : Shard) : (st.nodes.part s).size ≤ Shards.lastPlace := by
  have hnext := h s
  have hlast : Shards.lastPlace = 67108863 := rfl
  omega

theorem fits_nextTicket (d : Node) : 100 + (st.nodes.nextTicket hash d).toNat < 2 ^ 32 := by
  rw [Shards.toNat_ticket _ (h.le_lastPlace _)]
  exact h _

theorem fits_of_item? {t : UInt32} (ht : st.nodes.item? t = some d) : 100 + t.toNat < 2 ^ 32 := by
  have hplace := Numbering.lt_size_of_item? ht
  have hnext := h (Shard.ofTicket t)
  rw [Shards.placeOf_eq] at hplace
  rw [Shards.val_ofTicket] at hnext
  omega

end IsBelowCapacity

theorem lookup_ofTicket {t : UInt32} (hfits : 100 + t.toNat < 2 ^ 32) :
    st.lookup (.ofTicket t) = st.nodes.item? t := by
  rw [lookup, if_neg (Handle.not_ofTicket_lt hfits), Handle.ofTicket_sub]

theorem lookup_of_fixed (hd : d.fixedHandle? = some x) : st.lookup x = some d := by
  rcases Handle.fixedNode?_of_fixedHandle? hd with ⟨hnode, hlt, -⟩
  rw [lookup, if_pos hlt, hnode]

theorem lookup_congr (hnodes : st'.nodes = st.nodes) : st'.lookup x = st.lookup x := by
  rw [lookup, lookup, hnodes]

/-- A handle keeps its node. -/
theorem Extends.lookup (hextends : Extends st st') (hx : st.lookup x = some d) :
    st'.lookup x = some d := by
  unfold Store.lookup at hx ⊢
  split
  · rwa [if_pos ‹_›] at hx
  · rw [if_neg ‹_›] at hx
    exact hextends.nodes _ _ hx

/-- The ticket of a node is that of its handle, and the node is looked up there. -/
theorem IsSound.intern_eq (h : st.IsSound hash) (hroom : st.IsBelowCapacity)
    (hd : d.fixedHandle? = none) :
    ∃ t, (st.intern hash d).1 = .ofTicket t ∧ 100 + t.toNat < 2 ^ 32 ∧
      (st.intern hash d).2.nodes.item? t = some d := by
  rw [intern_of_free hd]
  have hentered := h.nodes.entered d
  dsimp only
  generalize st.nodes.enter hash d = result at hentered ⊢
  cases hentered with
  | known t ht => exact ⟨t, rfl, hroom.fits_of_item? ht, ht⟩
  | full hfull hnew => exact absurd (hroom.le_lastPlace _) (Nat.not_le.mpr hfull)
  | new hnumber hplace hnew =>
      exact ⟨_, rfl, hroom.fits_nextTicket d, Shards.item?_insert_self hnumber hplace⟩

/-- An interned node can be looked up. -/
theorem IsSound.lookup_intern (h : st.IsSound hash) (hroom : st.IsBelowCapacity) (d : Node) :
    (st.intern hash d).2.lookup (st.intern hash d).1 = some d := by
  cases hd : d.fixedHandle? with
  | some x =>
      rw [intern_of_fixed hd]
      exact lookup_of_fixed hd
  | none =>
      rcases h.intern_eq hroom hd with ⟨t, hhandle, hfits, ht⟩
      rw [hhandle, lookup_ofTicket hfits, ht]

theorem intern_parts (st : Store) (d : Node) :
    (st.intern hash d).2.lists = st.lists ∧ (st.intern hash d).2.shapes = st.shapes := by
  cases hd : d.fixedHandle? with
  | some x =>
      rw [intern_of_fixed hd]
      exact ⟨rfl, rfl⟩
  | none =>
      rw [intern_of_free hd]
      exact ⟨rfl, rfl⟩

theorem IsSound.size_intern_le (h : st.IsSound hash) (d : Node) (s : Shard) :
    ((st.intern hash d).2.nodes.part s).size ≤ (st.nodes.part s).size + 1 := by
  cases hd : d.fixedHandle? with
  | some x =>
      rw [intern_of_fixed hd]
      exact Nat.le_succ _
  | none =>
      rw [intern_of_free hd]
      exact h.nodes.size_enter_le d s

/-- Interning a node has no effect on other handles. -/
theorem IsSound.lookup_intern_of_ne (h : st.IsSound hash) (hy : y ≠ (st.intern hash d).1) :
    (st.intern hash d).2.lookup y = st.lookup y := by
  cases hd : d.fixedHandle? with
  | some x => rw [intern_of_fixed hd]
  | none =>
      rw [intern_of_free hd] at hy ⊢
      cases henter : st.nodes.enter hash d with
      | mk ticket? nodes =>
          cases ticket? with
          | none =>
              have hentered := h.nodes.entered d
              rw [henter] at hentered
              cases hentered
              rfl
          | some t =>
              have hticket : y.number - Handle.firstFree ≠ t := by
                rintro rfl
                rw [henter] at hy
                exact hy (Handle.eq_ofTicket y)
              unfold lookup
              rw [(h.nodes.item?_of_enter d henter).2 _ hticket]

theorem IsSound.intern_ne_placeholder (h : st.IsSound hash) (hroom : st.IsBelowCapacity)
    (d : Node) : (st.intern hash d).1 ≠ .placeholder := by
  cases hd : d.fixedHandle? with
  | some x =>
      rw [intern_of_fixed hd]
      exact (Handle.fixedNode?_of_fixedHandle? hd).2.2
  | none =>
      rcases h.intern_eq hroom hd with ⟨t, hhandle, hfits, -⟩
      intro heq
      apply Handle.not_ofTicket_lt hfits
      rw [← hhandle, heq]
      decide

/-- A node has one handle. -/
theorem IsSound.eq_of_lookup (h : st.IsSound hash) (hx : st.lookup x = some d)
    (hy : st.lookup y = some d) (hx0 : x ≠ .placeholder) (hy0 : y ≠ .placeholder) : x = y := by
  unfold lookup at hx hy
  split at hx <;> split at hy
  · have hxd := Handle.fixedHandle?_of_fixedNode? hx hx0
    exact Option.some.inj (hxd.symm.trans (Handle.fixedHandle?_of_fixedNode? hy hy0))
  · exact absurd (h.free _ _ hy) (by simp [Handle.fixedHandle?_of_fixedNode? hx hx0])
  · exact absurd (h.free _ _ hx) (by simp [Handle.fixedHandle?_of_fixedNode? hy hy0])
  · rw [Handle.eq_ofTicket x, Handle.eq_ofTicket y, h.nodes.ticket_inj hx hy]

/-- Handles of nodes that are interned one after the other are equal exactly if the
nodes are. -/
theorem IsSound.intern_eq_iff (h : st.IsSound hash) (hroom : st.IsBelowCapacity)
    (hlater : Later hash (st.intern hash d).2 future) (hroom' : future.IsBelowCapacity) :
    (future.intern hash e).1 = (st.intern hash d).1 ↔ e = d := by
  have hnow := (h.intern_step d).1.later hlater
  have hlast := hnow.1.intern_step e
  have hd : (future.intern hash e).2.lookup (st.intern hash d).1 = some d :=
    hlast.2.lookup (hnow.2.lookup (h.lookup_intern hroom d))
  have he : (future.intern hash e).2.lookup (future.intern hash e).1 = some e :=
    hnow.1.lookup_intern hroom' e
  constructor
  · intro heq
    rw [heq] at he
    exact Option.some.inj (he.symm.trans hd)
  · rintro rfl
    exact hlast.1.eq_of_lookup he hd (hnow.1.intern_ne_placeholder hroom' e)
      (h.intern_ne_placeholder hroom e)

/-!
# Lists and shapes
-/

/-- The next list and the next shape get numbers of 32 bits. -/
structure HasRoomForParts (st : Store) : Prop where
  lists : st.lists.size < 2 ^ 32
  shapes : st.shapes.size < 2 ^ 32

variable {xs ys : List Handle} {entries entries' : List (Entry Handle)}

theorem IsSound.item?_internList (h : st.IsSound hash) (hroom : st.HasRoomForParts)
    (xs : List Handle) :
    (st.internList xs).2.lists.item? (st.internList xs).1.number.toNat = some xs := by
  unfold internList
  split
  · rename_i hempty
    rw [List.isEmpty_iff.mp hempty]
    exact h.empty
  · show (st.lists.enter xs).item? (UInt32.ofNat (st.lists.numberOf xs).1).toNat = some xs
    rw [UInt32.toNat_ofNat', Nat.mod_eq_of_lt (h.lists.numberOf_lt hroom.lists)]
    exact h.lists.item?_numberOf xs

theorem IsSound.item?_internShape (h : st.IsSound hash) (hroom : st.HasRoomForParts)
    (entries : List (Entry Handle)) :
    (st.internShape entries).2.shapes.item? (st.internShape entries).1.number.toNat =
      some entries := by
  show (st.shapes.enter entries).item? (UInt32.ofNat (st.shapes.numberOf entries).1).toNat = _
  rw [UInt32.toNat_ofNat', Nat.mod_eq_of_lt (h.shapes.numberOf_lt hroom.shapes)]
  exact h.shapes.item?_numberOf entries

theorem list_of_item? {l : ListHandle} (hl : st.lists.item? l.number.toNat = some xs) :
    st.list l = xs := by
  simp [list, hl]

theorem shape_of_item? {s : ShapeHandle} (hs : st.shapes.item? s.number.toNat = some entries) :
    st.shape s = entries := by
  simp [shape, hs]

/-- An interned list can be read from then on. -/
theorem IsSound.list_internList (h : st.IsSound hash) (hroom : st.HasRoomForParts)
    (hlater : Later hash (st.internList xs).2 future) :
    future.list (st.internList xs).1 = xs :=
  list_of_item? (((h.internList_step xs).1.later hlater).2.lists _ _
    (h.item?_internList hroom xs))

theorem IsSound.shape_internShape (h : st.IsSound hash) (hroom : st.HasRoomForParts)
    (hlater : Later hash (st.internShape entries).2 future) :
    future.shape (st.internShape entries).1 = entries :=
  shape_of_item? (((h.internShape_step entries).1.later hlater).2.shapes _ _
    (h.item?_internShape hroom entries))

theorem IsSound.internList_eq_iff (h : st.IsSound hash) (hroom : st.HasRoomForParts)
    (hlater : Later hash (st.internList xs).2 future) (hroom' : future.HasRoomForParts) :
    (future.internList ys).1 = (st.internList xs).1 ↔ ys = xs := by
  have hnow := (h.internList_step xs).1.later hlater
  have hlast := hnow.1.internList_step ys
  have hxs := hlast.2.lists _ _ (hnow.2.lists _ _ (h.item?_internList hroom xs))
  have hys := hnow.1.item?_internList hroom' ys
  constructor
  · intro heq
    rw [heq] at hys
    exact Option.some.inj (hys.symm.trans hxs)
  · rintro rfl
    have hnumber := UInt32.toNat_inj.mp (hlast.1.lists.number_inj hys hxs)
    exact congrArg ListHandle.mk hnumber

theorem IsSound.internShape_eq_iff (h : st.IsSound hash) (hroom : st.HasRoomForParts)
    (hlater : Later hash (st.internShape entries).2 future) (hroom' : future.HasRoomForParts) :
    (future.internShape entries').1 = (st.internShape entries).1 ↔ entries' = entries := by
  have hnow := (h.internShape_step entries).1.later hlater
  have hlast := hnow.1.internShape_step entries'
  have hold := hlast.2.shapes _ _ (hnow.2.shapes _ _ (h.item?_internShape hroom entries))
  have hnew := hnow.1.item?_internShape hroom' entries'
  constructor
  · intro heq
    rw [heq] at hnew
    exact Option.some.inj (hnew.symm.trans hold)
  · rintro rfl
    have hnumber := UInt32.toNat_inj.mp (hlast.1.shapes.number_inj hnew hold)
    exact congrArg ShapeHandle.mk hnumber

end Store
end GradualTypes
