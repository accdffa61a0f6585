import GradualTypes.Ty.Basic

/-!
# Children and measures of a type

The children of a type are the types directly inside it, in the order in which
they are written.  Size counts the nodes of the tree; height is one for a leaf
and one more than the greatest height of a child otherwise.  Both are smaller
for a child than for its parent, which is what recursions over types need.
-/

namespace GradualTypes
namespace Ty

def entryValues (entries : List (Entry Ty)) : List Ty :=
  entries.map (·.value)

def children : Ty -> List Ty
  | object _ arguments => arguments
  | array key value => [key, value]
  | shape entries => entryValues entries
  | union _ members => members
  | inter members => members
  | _ => []

mutual

def size : Ty -> Nat
  | object _ arguments => 1 + sizes arguments
  | array key value => 1 + (size key + size value)
  | shape entries => 1 + entrySizes entries
  | union _ members => 1 + sizes members
  | inter members => 1 + sizes members
  | _ => 1

def sizes : List Ty -> Nat
  | [] => 0
  | t :: rest => size t + sizes rest

def entrySizes : List (Entry Ty) -> Nat
  | [] => 0
  | ⟨_, value, _⟩ :: rest => size value + entrySizes rest

end

mutual

def height : Ty -> Nat
  | object _ arguments => 1 + heights arguments
  | array key value => 1 + max (height key) (height value)
  | shape entries => 1 + entryHeights entries
  | union _ members => 1 + heights members
  | inter members => 1 + heights members
  | _ => 1

def heights : List Ty -> Nat
  | [] => 0
  | t :: rest => max (height t) (heights rest)

def entryHeights : List (Entry Ty) -> Nat
  | [] => 0
  | ⟨_, value, _⟩ :: rest => max (height value) (entryHeights rest)

end

/-!
# Size
-/

theorem size_pos (t : Ty) : 0 < t.size := by
  cases t <;> simp only [size] <;> omega

theorem sizes_append (ts us : List Ty) : sizes (ts ++ us) = sizes ts + sizes us := by
  induction ts with
  | nil => simp [sizes]
  | cons t rest ih => simp [sizes, ih, Nat.add_assoc]

theorem size_le_sizes {t : Ty} {ts : List Ty} (h : t ∈ ts) : t.size ≤ sizes ts := by
  induction ts with
  | nil => simp at h
  | cons u rest ih =>
      rcases List.mem_cons.mp h with rfl | h
      · exact Nat.le_add_right _ _
      · exact Nat.le_trans (ih h) (Nat.le_add_left _ _)

theorem size_add_size_le_sizes {t u : Ty} {ts : List Ty} (ht : t ∈ ts) (hu : u ∈ ts)
    (hne : t ≠ u) : t.size + u.size ≤ sizes ts := by
  induction ts with
  | nil => cases ht
  | cons v rest ih =>
      rw [List.mem_cons] at ht hu
      simp only [sizes]
      rcases ht with rfl | ht <;> rcases hu with rfl | hu
      · exact absurd rfl hne
      · exact Nat.add_le_add_left (size_le_sizes hu) _
      · rw [Nat.add_comm]
        exact Nat.add_le_add_left (size_le_sizes ht) _
      · exact Nat.le_trans (ih ht hu) (Nat.le_add_left _ _)

theorem sizes_le_of_sublist {ts us : List Ty} (h : List.Sublist ts us) :
    sizes ts ≤ sizes us := by
  induction h with
  | slnil => exact Nat.le_refl _
  | cons u _ ih => exact Nat.le_trans ih (Nat.le_add_left _ _)
  | cons_cons u _ ih => exact Nat.add_le_add_left ih _

theorem entrySizes_eq (entries : List (Entry Ty)) :
    entrySizes entries = sizes (entryValues entries) := by
  induction entries with
  | nil => rfl
  | cons e rest ih =>
      simpa [entrySizes, entryValues, sizes] using ih

/-- A type is one node and its children. -/
theorem size_eq (t : Ty) : t.size = 1 + sizes t.children := by
  cases t <;> simp [size, children, sizes, entrySizes_eq]

theorem mem_children_key (key value : Ty) : key ∈ (array key value).children :=
  List.mem_cons_self

theorem mem_children_value (key value : Ty) : value ∈ (array key value).children :=
  List.mem_cons_of_mem _ List.mem_cons_self

theorem size_lt_of_mem_children {t u : Ty} (h : u ∈ t.children) :
    u.size < t.size := by
  have := size_le_sizes h
  rw [size_eq t]
  omega

/-!
# Height
-/

theorem height_pos (t : Ty) : 0 < t.height := by
  cases t <;> simp only [height] <;> omega

theorem height_le_heights {t : Ty} {ts : List Ty} (h : t ∈ ts) :
    t.height ≤ heights ts := by
  induction ts with
  | nil => simp at h
  | cons u rest ih =>
      rcases List.mem_cons.mp h with rfl | h
      · exact Nat.le_max_left _ _
      · exact Nat.le_trans (ih h) (Nat.le_max_right _ _)

theorem heights_le_iff {ts : List Ty} {n : Nat} :
    heights ts ≤ n ↔ ∀ t ∈ ts, t.height ≤ n := by
  induction ts with
  | nil => simp [heights]
  | cons t rest ih => rw [heights, Nat.max_le, ih, List.forall_mem_cons]

theorem entryHeights_eq (entries : List (Entry Ty)) :
    entryHeights entries = heights (entryValues entries) := by
  induction entries with
  | nil => rfl
  | cons e rest ih =>
      simpa [entryHeights, entryValues, heights] using congrArg (max _) ih

/-- A type is one level above its highest child. -/
theorem height_eq (t : Ty) : t.height = 1 + heights t.children := by
  cases t <;> simp [height, children, heights, entryHeights_eq]

theorem height_lt_of_mem_children {t u : Ty} (h : u ∈ t.children) :
    u.height < t.height := by
  have := height_le_heights h
  rw [height_eq t]
  omega

end Ty
end GradualTypes
