import GradualTypes.Proofs.Memory
import GradualTypes.Proofs.Parts
import GradualTypes.Proofs.Ranges

/-!
# Values of types

A type stands for a set of values.  Here values are data: scalars and finite
maps.  There are no objects among them, so the types of objects have no values
here; which of them can be called is left open.

What is certainly contained in a type has only values of that type.  One step of
the relation preserves this, and it holds for `yes` at every depth and in every
session, since `yes` is never answered without the rules.
-/

namespace GradualTypes

/-- A value without objects.  In a map the first entry of a key counts. -/
inductive Value where
  | null
  | void
  | resource
  | bool (b : Bool)
  | int (n : Int)
  | float (x : Double)
  | text (s : String)
  | map (entries : List (Key × Value))

def Literal.value : Literal -> Value
  | int n => .int n
  | float x => .float x
  | text s => .text s
  | bool b => .bool b

def Key.value : Key -> Value
  | int n => .int n
  | text s => .text s

/-- The values of the built-in types, given which values can be called. -/
def Keyword.Admits (calls : Value -> Prop) : Keyword -> Value -> Prop
  | mixed, _ => True
  | void, v => v = .void
  | null, v => v = .null
  | bool, v => ∃ b, v = .bool b
  | int, v => ∃ n, v = .int n
  | float, v => ∃ x, v = .float x
  | string, v => ∃ s, v = .text s
  | resource, v => v = .resource
  | callable, v => calls v
  | never, _ => False
  | object, _ => False

def Accessory.Admits : Accessory -> Value -> Prop
  | nonEmptyArray, v => ∃ given key w, v = .map given ∧ given.lookup key = some w
  | nonEmptyString, v => ∃ s, v = .text s ∧ s ≠ ""
  | hasOffset key, v => ∃ given w, v = .map given ∧ given.lookup key = some w
  | hasProperty _, _ => False

namespace Ty

section Admits

variable (calls : Value -> Prop)

mutual

/-- The values of a type. -/
def Admits : Ty -> Value -> Prop
  | keyword k, v => k.Admits calls v
  | literal w, v => v = w.value
  | range r, v => ∃ n, v = .int n ∧ r.contains n = true
  | array key value, v =>
      ∃ given, v = .map given ∧
        ∀ k w, given.lookup k = some w -> Admits key k.value ∧ Admits value w
  | shape entries, v =>
      ∃ given, v = .map given ∧
        (∀ k w, given.lookup k = some w -> k ∈ Shape.keys entries) ∧
        AdmitsEntries entries given
  | union _ members, v => AdmitsSome members v
  | inter members, v => AdmitsAll members v
  | accessory a, v => a.Admits v
  | _, _ => False

def AdmitsSome : List Ty -> Value -> Prop
  | [], _ => False
  | t :: rest, v => Admits t v ∨ AdmitsSome rest v

def AdmitsAll : List Ty -> Value -> Prop
  | [], _ => True
  | t :: rest, v => Admits t v ∧ AdmitsAll rest v

/-- Each required key is given, and what is given has the declared type. -/
def AdmitsEntries : List (Entry Ty) -> List (Key × Value) -> Prop
  | [], _ => True
  | ⟨key, value, optional⟩ :: rest, given =>
      (match given.lookup key with
        | none => optional = true
        | some w => Admits value w) ∧
      AdmitsEntries rest given

end

end Admits

variable {calls : Value -> Prop} {v : Value}

section Members

attribute [local simp] Admits AdmitsSome AdmitsAll AdmitsEntries

@[simp] theorem admits_union {flavor : Flavor} {members : List Ty} :
    (union flavor members).Admits calls v ↔ ∃ m ∈ members, m.Admits calls v := by
  rw [Admits]
  induction members with
  | nil => simp
  | cons m rest ih => simp [ih]

@[simp] theorem admits_inter {members : List Ty} :
    (inter members).Admits calls v ↔ ∀ m ∈ members, m.Admits calls v := by
  rw [Admits]
  induction members with
  | nil => simp
  | cons m rest ih => simp [ih]

theorem admitsEntries_iff {entries : List (Entry Ty)} {given : List (Key × Value)} :
    AdmitsEntries calls entries given ↔
      ∀ e ∈ entries,
        (given.lookup e.key = none -> e.optional = true) ∧
          ∀ w, given.lookup e.key = some w -> e.value.Admits calls w := by
  induction entries with
  | nil => simp
  | cons e rest ih =>
      rw [AdmitsEntries, ih, List.forall_mem_cons]
      cases given.lookup e.key <;> simp

end Members

/-- What a value of a shape has under a key is a value of the entry of that key. -/
theorem value_of_admits_shape {entries : List (Entry Ty)} {given : List (Key × Value)}
    (hv : (shape entries).Admits calls (.map given)) {key : Key} {w : Value}
    (hw : given.lookup key = some w) :
    ∃ e ∈ entries, Shape.entry? entries key = some e ∧ e.key = key ∧
      e.value.Admits calls w := by
  rcases hv with ⟨given', heq, hkeys, hentries⟩
  cases heq
  rcases List.mem_map.mp (hkeys key w hw) with ⟨d, hd, rfl⟩
  rcases Shape.entry?_isSome hd with ⟨e, he⟩
  rcases Shape.mem_of_entry? he with ⟨hmem, hkey⟩
  exact ⟨e, hmem, he, hkey, (admitsEntries_iff.mp hentries e hmem).2 w (hkey ▸ hw)⟩

theorem required_of_admits_shape {entries : List (Entry Ty)} {given : List (Key × Value)}
    (hv : (shape entries).Admits calls (.map given)) {e : Entry Ty} (he : e ∈ entries)
    (hrequired : e.optional = false) : ∃ w, given.lookup e.key = some w := by
  rcases hv with ⟨given', heq, -, hentries⟩
  cases heq
  cases hw : given.lookup e.key with
  | none => simp [(admitsEntries_iff.mp hentries e he).1 hw] at hrequired
  | some w => exact ⟨w, rfl⟩

theorem admits_ofKey {key : Key} : (ofKey key).Admits calls key.value := by
  cases key <;> rfl

end Ty

namespace Subtype

variable {calls : Value -> Prop} {h : Hierarchy} {R : Ty -> Ty -> Prop} {s t : Ty}

/-- Every value of the first type is a value of the second one. -/
def Includes (calls : Value -> Prop) (s t : Ty) : Prop :=
  ∀ v, s.Admits calls v -> t.Admits calls v

/-!
# The rules
-/

theorem Fits.includes (hfits : Fits h (Includes calls) s t) : Includes calls s t := by
  intro v hv
  cases hfits with
  | same k => exact hv
  | literal_base w => cases w <;> exact ⟨_, hv⟩
  | range_int r =>
      rcases hv with ⟨n, rfl, -⟩
      exact ⟨n, rfl⟩
  | object_object cls arguments => exact hv
  | this_object cls => exact hv
  | object_callable hcall => exact hv.elim
  | this_callable hcall => exact hv.elim
  | literal_range hn => exact ⟨_, hv, hn⟩
  | range_range hwithin =>
      rcases hv with ⟨n, rfl, hn⟩
      exact ⟨n, rfl, IntRange.contains_of_within hn hwithin⟩
  | object_bare hdescends => exact hv
  | object_arguments hcls hlength hpairs => exact hv
  | this_bare hdescends => exact hv
  | this_this hdescends => exact hv
  | array_array hk hv' =>
      rcases hv with ⟨given, rfl, hgiven⟩
      refine ⟨given, rfl, fun k w hw => ?_⟩
      rcases hgiven k w hw with ⟨hkey, hvalue⟩
      exact ⟨hk _ hkey, hv' _ hvalue⟩
  | shape_array hentries =>
      rcases id hv with ⟨given, rfl, -⟩
      refine ⟨given, rfl, fun k w hw => ?_⟩
      rcases Ty.value_of_admits_shape hv hw with ⟨e, he, -, rfl, hvalue⟩
      exact ⟨(hentries e he).1 _ Ty.admits_ofKey, (hentries e he).2 _ hvalue⟩
  | @shape_shape source target hkeys hmissing hvalues =>
      rcases id hv with ⟨given, rfl, -⟩
      refine ⟨given, rfl, ?_, Ty.admitsEntries_iff.mpr fun t ht => ⟨?_, ?_⟩⟩
      · intro k w hw
        rcases Ty.value_of_admits_shape hv hw with ⟨e, he, -, rfl, -⟩
        rcases hkeys e he with ⟨t, ht⟩
        rcases Shape.mem_of_entry? ht with ⟨hmem, hkey⟩
        exact List.mem_map.mpr ⟨t, hmem, hkey⟩
      · intro hnone
        cases hs : Shape.entry? source t.key with
        | none => exact hmissing t ht hs
        | some s =>
            rcases Shape.mem_of_entry? hs with ⟨hmem, hkey⟩
            apply (hvalues t ht s hs).2
            cases hrequired : s.optional with
            | true => rfl
            | false =>
                rcases Ty.required_of_admits_shape hv hmem hrequired with ⟨w, hw⟩
                rw [hkey, hnone] at hw
                cases hw
      · intro w hw
        rcases Ty.value_of_admits_shape hv hw with ⟨s, -, hs, -, hvalue⟩
        exact (hvalues t ht s hs).1 w hvalue
  | shape_nonEmpty hrequired =>
      rcases id hv with ⟨given, rfl, -⟩
      rcases Shape.hasRequired_iff.mp hrequired with ⟨e, he, hrequired⟩
      rcases Ty.required_of_admits_shape hv he hrequired with ⟨w, hw⟩
      exact ⟨given, e.key, w, rfl, hw⟩
  | hasOffset_nonEmpty key =>
      rcases hv with ⟨given, w, rfl, hw⟩
      exact ⟨given, key, w, rfl, hw⟩
  | text_nonEmpty hs => exact ⟨_, hv, hs⟩
  | object_hasProperty hname => exact hv
  | this_hasProperty hname => exact hv
  | shape_hasOffset he hrequired =>
      rcases id hv with ⟨given, rfl, -⟩
      rcases Shape.mem_of_entry? he with ⟨hmem, rfl⟩
      rcases Ty.required_of_admits_shape hv hmem hrequired with ⟨w, hw⟩
      exact ⟨given, w, rfl, hw⟩

theorem Certain.includes (hcertain : Certain h (Includes calls) s t) : Includes calls s t := by
  intro v hv
  cases hcertain with
  | mixed hs => exact trivial
  | never ht => exact hv.elim
  | union_left ht hne hall =>
      rcases Ty.admits_union.mp hv with ⟨m, hm, hvm⟩
      exact hall m hm v hvm
  | union_right hs hunion hm hR => exact Ty.admits_union.mpr ⟨_, hm, hR v hv⟩
  | inter_right hs hunion hall => exact Ty.admits_inter.mpr fun m hm => hall m hm v hv
  | inter_left ht hsimple hm hR => exact hR v (Ty.admits_inter.mp hv _ hm)
  | fits hs ht hfits => exact hfits.includes v hv

/-!
# Every depth and every session
-/

theorem Contained.includes (hcontained : Contained h s t) : Includes calls s t :=
  Contained.induction (fun _ _ => id) Certain.includes hcontained

end Subtype

namespace Session

/-- An answer `yes` is sound for values, whatever the session remembers and
whether or not the depth limit is met: every value of the source is a value of
the target. -/
theorem admits_of_isSubtype {h : Hierarchy} {options : Options} {σ : Session}
    {calls : Value -> Prop} {s t : Ty} {v : Value} (hσ : Reachable h options σ)
    (hyes : (σ.perform (isSubtype s t)).1 = .yes) (hv : s.Admits calls v) :
    t.Admits calls v :=
  (hσ.contained hyes).includes v hv

/-- A map with an integer under a text is a value of the arrays from texts to
integers. -/
theorem admits_of_isSubtype_shape :
    (Ty.array .string .int).Admits (fun _ => False) (.map [(.text "a", .int 1)]) := by
  have hlimit := isSubtype_not_limited (s := .shape [⟨.text "a", .literal (.int 1), false⟩])
    (t := .array .string .int) (new .empty .default) (by decide)
  have hyes : ((new .empty .default).perform (isSubtype
      (.shape [⟨.text "a", .literal (.int 1), false⟩]) (.array .string .int))).1 = .yes := by
    rw [Reachable.new.isSubtype_eq hlimit]
    decide
  apply admits_of_isSubtype .new hyes
  refine ⟨[(.text "a", .int 1)], rfl, ?_, ?_⟩
  · intro k w hk
    rw [List.lookup_cons] at hk
    split at hk
    · rename_i heq
      simp [Shape.keys, eq_of_beq heq]
    · cases hk
  · simp [Ty.AdmitsEntries, Ty.Admits, Literal.value]

end Session

end GradualTypes
