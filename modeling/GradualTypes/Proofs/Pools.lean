import Mathlib.Algebra.BigOperators.Fin
import Mathlib.Algebra.Order.BigOperators.Group.Finset
import GradualTypes.Proofs.Tables
import GradualTypes.Text.Pool

/-!
# Pools of texts

As long as no shard is full, the atoms that a pool gives out and the texts it is given
correspond, and its size is the number of the texts.

The empty text has its place in the first shard whatever its hash.  So the table of a pool
is consistent for the hash that sends the empty text there, and agrees with the given hash
on every other text.
-/

namespace GradualTypes

/-!
# Counting values
-/

namespace Numbering

variable {α : Type} [BEq α] [Hashable α] {numbering : Numbering α} {a b : α}

/-- A consistent numbering has as many numbers as values. -/
theorem IsConsistent.size_eq_card (h : numbering.IsConsistent) {values : Finset α}
    (hvalues : ∀ a, a ∈ values ↔ ∃ n, numbering.item? n = some a) :
    numbering.size = values.card := by
  symm
  refine Finset.card_eq_of_bijective
    (fun n (hn : n < numbering.items.size) => numbering.items[n]) ?_ ?_ ?_
  · intro a ha
    rcases (hvalues a).mp ha with ⟨n, hn⟩
    exact ⟨n, lt_size_of_item? hn, (Array.getElem?_eq_some_iff.mp hn).2⟩
  · intro n hn
    exact (hvalues _).mpr ⟨n, Array.getElem?_eq_getElem hn⟩
  · intro m n hm hn hmn
    have hfirst := (h _ m).mpr (Array.getElem?_eq_getElem hm)
    have hsecond := (h _ n).mpr (Array.getElem?_eq_getElem hn)
    rw [hmn] at hfirst
    exact Option.some.inj (hfirst.symm.trans hsecond)

variable [LawfulBEq α]

theorem IsConsistent.exists_item?_enter (h : numbering.IsConsistent) :
    (∃ n, (numbering.enter a).item? n = some b) ↔ b = a ∨ ∃ n, numbering.item? n = some b := by
  cases ha : numbering.number? a with
  | some n =>
      rw [enter_eq_self ha, or_iff_right_of_imp]
      rintro rfl
      exact ⟨n, (h b n).mp ha⟩
  | none =>
      constructor
      · rintro ⟨n, hn⟩
        by_cases hlast : n = numbering.size
        · rw [hlast, item?_enter_size ha] at hn
          exact .inl (Option.some.inj hn).symm
        · rw [item?_enter_of_ne hlast] at hn
          exact .inr ⟨n, hn⟩
      · rintro (rfl | ⟨n, hn⟩)
        · exact ⟨_, item?_enter_size ha⟩
        · exact ⟨n, item?_enter hn⟩

/-- What is in a numbering after some values are entered: these and the earlier ones. -/
theorem IsConsistent.enterAll [DecidableEq α] (added : List α) {numbering : Numbering α}
    {values : Finset α} (h : numbering.IsConsistent)
    (hvalues : ∀ a, a ∈ values ↔ ∃ n, numbering.item? n = some a) :
    (numbering.enterAll added).IsConsistent ∧
      ∀ a, a ∈ values ∪ added.toFinset ↔ ∃ n, (numbering.enterAll added).item? n = some a := by
  induction added generalizing numbering values with
  | nil =>
      rw [List.toFinset_nil, Finset.union_empty]
      exact ⟨h, hvalues⟩
  | cons a added ih =>
      rw [List.toFinset_cons, Finset.union_insert, ← Finset.insert_union]
      refine ih (h.enter a) fun b => ?_
      rw [Finset.mem_insert, hvalues, h.exists_item?_enter]

end Numbering

namespace Shards

variable {α : Type} [BEq α] [Hashable α] {hash hash' : α -> UInt64} {table : Shards α} {a b : α}
  {t : UInt32}

theorem item?_empty (t : UInt32) : (empty : Shards α).item? t = none := by
  rw [item?, part_empty]
  simp [Numbering.item?, Numbering.empty]

/-- Only the hash of the entered value matters. -/
theorem enter_congr (ha : hash a = hash' a) : table.enter hash a = table.enter hash' a := by
  simp only [enter, ha]

theorem exists_item?_insert [LawfulBEq α] (ha : (home hash table a).number? a = none)
    (hroom : (home hash table a).size ≤ lastPlace) :
    (∃ t, (table.insert hash a).item? t = some b) ↔ b = a ∨ ∃ t, table.item? t = some b := by
  constructor
  · rintro ⟨t, ht⟩
    by_cases hnext : t = nextTicket hash table a
    · rw [hnext, item?_insert_self ha hroom] at ht
      exact .inl (Option.some.inj ht).symm
    · rw [item?_insert_of_ne hnext] at ht
      exact .inr ⟨t, ht⟩
  · rintro (rfl | ⟨t, ht⟩)
    · exact ⟨_, item?_insert_self ha hroom⟩
    · exact ⟨t, item?_insert ht⟩

/-- The values of a shard are those that belong there. -/
theorem IsConsistent.size_part (h : table.IsConsistent hash) {values : Finset α}
    (hvalues : ∀ a, a ∈ values ↔ ∃ t, table.item? t = some a) (s : Shard) :
    (table.part s).size = (values.filter fun a => Shard.ofHash (hash a) = s).card := by
  refine (h.parts s).size_eq_card fun a => ?_
  rw [Finset.mem_filter, hvalues]
  constructor
  · rintro ⟨⟨t, ht⟩, hs⟩
    rw [← hs, h.belong _ _ a ht]
    exact ⟨placeOf t, ht⟩
  · rintro ⟨place, hplace⟩
    have hlast : place ≤ lastPlace :=
      Nat.le_of_lt_succ (Nat.lt_of_lt_of_le (Numbering.lt_size_of_item? hplace) (h.size_le s))
    exact ⟨⟨ticket s place, (item?_ticket s hlast).trans hplace⟩, h.belong s place a hplace⟩

end Shards

namespace Text
namespace Pool

/-!
# The texts of a pool
-/

/-- The hash of a text, except that the empty text is sent to the first shard. -/
def emptyFirst (hash : String -> UInt64) (s : String) : UInt64 :=
  if s.isEmpty then 0 else hash s

/-- There is room for the texts: no shard gets more of them than it has places. -/
def Fits (hash : String -> UInt64) (texts : Finset String) : Prop :=
  ∀ shard, (texts.filter fun s => Shard.ofHash (emptyFirst hash s) = shard).card ≤
    Shards.lastPlace + 1

structure Holds (hash : String -> UInt64) (texts : Finset String) (pool : Pool) : Prop where
  table : pool.table.IsConsistent (emptyFirst hash)
  mem_iff : ∀ s, s ∈ texts ↔ ∃ t, pool.table.item? t = some s
  empty : pool.text? .empty = some ""

/-- Every atom of the one pool has the same text in the other. -/
def Extends (pool pool' : Pool) : Prop :=
  ∀ a s, pool.text? a = some s -> pool'.text? a = some s

variable {hash : String -> UInt64} {texts texts' : Finset String} {pool pool' future : Pool}
  {s t : String} {a b : Atom}

theorem Fits.mono (h : Fits hash texts') (hsub : texts ⊆ texts') : Fits hash texts :=
  fun shard => (Finset.card_le_card (Finset.filter_subset_filter _ hsub)).trans (h shard)

theorem Fits.of_card_le (h : texts.card ≤ Shards.lastPlace + 1) : Fits hash texts :=
  fun _ => (Finset.card_filter_le _ _).trans h

theorem Extends.refl (pool : Pool) : Extends pool pool :=
  fun _ _ => id

theorem Extends.trans (hfirst : Extends pool pool') (hsecond : Extends pool' future) :
    Extends pool future :=
  fun a s ha => hsecond a s (hfirst a s ha)

theorem emptyFirst_of_ne (hs : s ≠ "") : hash s = emptyFirst hash s := by
  simp [emptyFirst, hs]

theorem fresh_table (hash : String -> UInt64) :
    fresh.table = Shards.empty.insert (emptyFirst hash) "" := by
  rw [Shards.insert, Shards.home, Shards.part_empty]
  rfl

/-- The empty atom is the first ticket of the first shard. -/
theorem nextTicket_empty (hash : String -> UInt64) :
    Shards.nextTicket (emptyFirst hash) .empty "" = Atom.empty.number := by
  rw [Shards.nextTicket, Shards.home, Shards.part_empty, emptyFirst, if_pos (by decide)]
  rfl

theorem holds_fresh (hash : String -> UInt64) : fresh.Holds hash {""} := by
  have hnew : (Shards.home (emptyFirst hash) .empty "").number? "" = none := by
    rw [Shards.home, Shards.part_empty]
    simp [Numbering.number?, Numbering.empty]
  have hroom : (Shards.home (emptyFirst hash) .empty "").size ≤ Shards.lastPlace := by
    rw [Shards.home, Shards.part_empty]
    exact Nat.zero_le _
  constructor
  · rw [fresh_table hash]
    exact Shards.isConsistent_empty.insert hnew hroom
  · intro s
    rw [fresh_table hash, Shards.exists_item?_insert hnew hroom]
    simp [Shards.item?_empty]
  · rw [text?, fresh_table hash, ← nextTicket_empty hash]
    exact Shards.item?_insert_self hnew hroom

namespace Holds

section

variable (h : pool.Holds hash texts)
include h

theorem atom_eq_iff (ha : pool.text? a = some s) (hb : pool.text? b = some t) :
    a = b ↔ s = t := by
  constructor
  · rintro rfl
    exact Option.some.inj (ha.symm.trans hb)
  · rintro rfl
    have hnumber : a.number = b.number := h.table.ticket_inj ha hb
    cases a
    cases b
    exact congrArg Atom.mk hnumber

theorem size_part (shard : Shard) :
    (pool.table.part shard).size =
      (texts.filter fun s => Shard.ofHash (emptyFirst hash s) = shard).card :=
  h.table.size_part h.mem_iff shard

theorem size_eq : pool.size = texts.card := by
  have hsum : pool.size = ((List.finRange 64).map fun k => (pool.table.part k).size).sum := by
    rw [size, List.sum_eq_foldl, List.foldl_map]
  rw [hsum, ← Fin.sum_univ_def]
  simp only [h.size_part]
  exact (Finset.card_eq_sum_card_fiberwise fun _ _ => Finset.mem_coe.mpr (Finset.mem_univ _)).symm

/-- A text that is not in the pool finds room, if there is room for it and those in the pool. -/
theorem room (hs : s ∉ texts) (hfits : Fits hash (insert s texts)) :
    (Shards.home (emptyFirst hash) pool.table s).size ≤ Shards.lastPlace := by
  have hcard := hfits (Shard.ofHash (emptyFirst hash s))
  rw [Finset.filter_insert, if_pos rfl, Finset.card_insert_of_notMem (by simp [hs]),
    ← h.size_part] at hcard
  exact Nat.le_of_succ_le_succ hcard

theorem insert_new (hnew : (Shards.home (emptyFirst hash) pool.table s).number? s = none)
    (hroom : (Shards.home (emptyFirst hash) pool.table s).size ≤ Shards.lastPlace) :
    Holds hash (insert s texts) ⟨pool.table.insert (emptyFirst hash) s⟩ where
  table := h.table.insert hnew hroom
  mem_iff := fun u => by
    rw [Finset.mem_insert, Shards.exists_item?_insert hnew hroom, h.mem_iff]
  empty := Shards.item?_insert h.empty

/-!
# Interning
-/

/-- The atom that interning gives has the text, and all atoms keep theirs. -/
theorem intern (s : String) (hfits : Fits hash (insert s texts)) :
    (pool.intern hash s).2.Holds hash (insert s texts) ∧
      (pool.intern hash s).2.text? (pool.intern hash s).1 = some s ∧
        pool.Extends (pool.intern hash s).2 := by
  by_cases hs : s = ""
  · subst hs
    have hmem : "" ∈ texts := (h.mem_iff "").mpr ⟨_, h.empty⟩
    rw [Finset.insert_eq_of_mem hmem]
    exact ⟨h, h.empty, .refl pool⟩
  · have hentered := h.table.entered s
    rw [Pool.intern, if_neg (by simpa using hs), Shards.enter_congr (emptyFirst_of_ne hs)]
    generalize pool.table.enter (emptyFirst hash) s = result at hentered ⊢
    cases hentered with
    | known ticket hticket =>
        rw [Finset.insert_eq_of_mem ((h.mem_iff s).mpr ⟨ticket, hticket⟩)]
        exact ⟨h, hticket, .refl pool⟩
    | full hfull hnew =>
        have hmem : s ∉ texts := fun hmem => ((h.mem_iff s).mp hmem).elim hnew
        exact absurd (h.room hmem hfits) (Nat.not_le.mpr hfull)
    | new hnumber hroom hnew =>
        exact ⟨h.insert_new hnumber hroom, Shards.item?_insert_self hnumber hroom,
          fun _ _ => Shards.item?_insert⟩

end

theorem internAll (added : List String) {texts : Finset String} {pool : Pool}
    (h : pool.Holds hash texts) (hfits : Fits hash (texts ∪ added.toFinset)) :
    (pool.internAll hash added).Holds hash (texts ∪ added.toFinset) ∧
      pool.Extends (pool.internAll hash added) := by
  induction added generalizing texts pool with
  | nil =>
      rw [List.toFinset_nil, Finset.union_empty]
      exact ⟨h, .refl pool⟩
  | cons s added ih =>
      have hsame : texts ∪ (s :: added).toFinset = insert s texts ∪ added.toFinset := by
        rw [List.toFinset_cons, Finset.union_insert, Finset.insert_union]
      rw [hsame] at hfits ⊢
      rcases h.intern s (hfits.mono Finset.subset_union_left) with ⟨hstep, -, hkept⟩
      rcases ih hstep hfits with ⟨hrest, hkept'⟩
      exact ⟨hrest, hkept.trans hkept'⟩

end Holds

/-!
# Requests
-/

inductive Request where
  | intern (s : String)
  | internCommonWords

def Request.interned : Request -> List String
  | intern s => [s]
  | internCommonWords => Vocabulary.commonWords

def serve (hash : String -> UInt64) (pool : Pool) : Request -> Pool
  | .intern s => (pool.intern hash s).2
  | .internCommonWords => pool.internCommonWords hash

/-- A pool that is fresh at first, after some requests. -/
def after (hash : String -> UInt64) (requests : List Request) : Pool :=
  requests.foldl (serve hash) fresh

/-- One of the requests is to intern the text, and the atom is what it returns. -/
def Gives (hash : String -> UInt64) (requests : List Request) (s : String) (a : Atom) : Prop :=
  ∃ before later, requests = before ++ .intern s :: later ∧
    a = ((after hash before).intern hash s).1

/-- The texts that are interned by the requests. -/
def textsOf (requests : List Request) : Finset String :=
  (requests.flatMap Request.interned).toFinset

theorem serve_eq (hash : String -> UInt64) (pool : Pool) (request : Request) :
    serve hash pool request = pool.internAll hash request.interned := by
  cases request <;> rfl

theorem foldl_serve (hash : String -> UInt64) (pool : Pool) (requests : List Request) :
    requests.foldl (serve hash) pool =
      pool.internAll hash (requests.flatMap Request.interned) := by
  rw [internAll, List.foldl_flatMap]
  exact congrArg (fun step => requests.foldl step pool) (funext₂ (serve_eq hash))

theorem textsOf_append_cons (before later : List Request) (request : Request) :
    textsOf (before ++ request :: later) =
      textsOf before ∪ (request.interned.toFinset ∪ textsOf later) := by
  simp only [textsOf, List.flatMap_append, List.flatMap_cons, List.toFinset_append]

theorem holds_after {requests : List Request} (hfits : Fits hash ({""} ∪ textsOf requests)) :
    (after hash requests).Holds hash ({""} ∪ textsOf requests) := by
  rw [after, foldl_serve]
  exact ((holds_fresh hash).internAll _ hfits).1

/-- An atom that is given for a text has this text from then on. -/
theorem Gives.text? {requests : List Request} (h : Gives hash requests s a)
    (hfits : Fits hash ({""} ∪ textsOf requests)) : (after hash requests).text? a = some s := by
  rcases h with ⟨before, later, rfl, rfl⟩
  rw [textsOf_append_cons, ← Finset.union_assoc, ← Finset.union_assoc] at hfits
  have htexts : {""} ∪ textsOf before ∪ (Request.intern s).interned.toFinset =
      insert s ({""} ∪ textsOf before) := by
    rw [Request.interned, List.toFinset_cons, List.toFinset_nil, Finset.union_insert,
      Finset.union_empty]
  rw [htexts] at hfits
  have hsmall := hfits.mono Finset.subset_union_left
  have hbefore : (after hash before).Holds hash ({""} ∪ textsOf before) :=
    holds_after (hsmall.mono (Finset.subset_insert _ _))
  rcases hbefore.intern s hsmall with ⟨hstep, htext, -⟩
  have hlater : after hash (before ++ .intern s :: later) =
      ((after hash before).intern hash s).2.internAll hash (later.flatMap Request.interned) := by
    rw [after, List.foldl_append, List.foldl_cons, foldl_serve]
    rfl
  rw [hlater]
  exact (hstep.internAll _ hfits).2 _ _ htext

/-- A vocabulary counts the same texts.  So a session, which only counts its texts, has no need
of atoms. -/
theorem size_after_eq_vocabulary {requests : List Request}
    (hfits : Fits hash ({""} ∪ textsOf requests)) :
    (after hash requests).size =
      (Vocabulary.fresh.enterAll (requests.flatMap Request.interned)).size := by
  have hfresh : ∀ s, s ∈ ({""} : Finset String) ↔ ∃ n, Vocabulary.fresh.item? n = some s := by
    intro s
    rw [Vocabulary.fresh, Numbering.isConsistent_empty.exists_item?_enter]
    simp [Numbering.item?, Numbering.empty]
  rcases (Numbering.isConsistent_empty.enter "").enterAll _ hfresh with ⟨hconsistent, hvalues⟩
  exact (holds_after hfits).size_eq.trans (hconsistent.size_eq_card hvalues).symm

/-- As long as there is room for the interned texts, an atom that was given at any time has its
text, atoms are equal if their texts are, only the empty text has the empty atom, and the
texts are counted once each. -/
theorem atoms_correspond {requests : List Request}
    (hfits : Fits hash ({""} ∪ textsOf requests)) :
    let pool := after hash requests
    (∀ s a, Gives hash requests s a ->
      pool.text? a = some s ∧ pool.text a = s ∧ (a = .empty ↔ s = "")) ∧
    (∀ s t a b, Gives hash requests s a -> Gives hash requests t b -> (a = b ↔ s = t)) ∧
    pool.size = ((textsOf requests).erase "").card + 1 := by
  intro pool
  have hpool : pool.Holds hash ({""} ∪ textsOf requests) := holds_after hfits
  refine ⟨?_, ?_, ?_⟩
  · intro s a ha
    have htext : pool.text? a = some s := ha.text? hfits
    exact ⟨htext, by rw [text, htext, Option.getD_some], hpool.atom_eq_iff htext hpool.empty⟩
  · intro s t a b ha hb
    exact hpool.atom_eq_iff (ha.text? hfits) (hb.text? hfits)
  · rw [hpool.size_eq, ← Finset.insert_eq, ← Finset.erase_insert_eq_erase,
      Finset.card_erase_add_one (Finset.mem_insert_self _ _)]

/-- All texts in one shard. -/
theorem atoms_correspond_words :
    let hash : String -> UInt64 := fun _ => 0
    let requests : List Request := [.intern "a", .internCommonWords, .intern "b", .intern ""]
    let a := (fresh.intern hash "a").1
    let b := ((after hash [.intern "a", .internCommonWords]).intern hash "b").1
    (after hash requests).text a = "a" ∧ a ≠ b ∧ a ≠ .empty ∧ (after hash requests).size = 45 := by
  intro hash requests a b
  have hfits : Fits hash ({""} ∪ textsOf requests) := .of_card_le (by decide +kernel)
  have ha : Gives hash requests "a" a := ⟨[], _, rfl, rfl⟩
  have hb : Gives hash requests "b" b := ⟨[.intern "a", .internCommonWords], _, rfl, rfl⟩
  rcases atoms_correspond hfits with ⟨htext, hinj, hsize⟩
  rcases htext "a" a ha with ⟨-, hsame, hempty⟩
  refine ⟨hsame, ?_, ?_, hsize.trans (by decide +kernel)⟩
  · exact fun hab => absurd ((hinj _ _ _ _ ha hb).mp hab) (by decide)
  · exact fun hnone => absurd (hempty.mp hnone) (by decide)

end Pool
end Text
end GradualTypes
