import GradualTypes.Ty.Kind
import GradualTypes.Ty.Measure

/-!
# The weight of a question

Answering whether one type is contained in another leads to further questions.
The weight of a question goes down along every such chain and is at most the sum
of the two heights.

The sum itself would not do: a constraint is compared with a type of values by
asking the reverse question, which has the same sum.  A constraint on the right
is therefore not counted, and neither is a literal on the left, which takes the
place of a constraint when a key is compared with the keys of an array.
-/

namespace GradualTypes

/-- The type of a single key. -/
def Ty.ofKey : Key -> Ty
  | .int n => .literal (.int n)
  | .text s => .literal (.text s)

theorem Ty.size_ofKey (key : Key) : (Ty.ofKey key).size = 1 := by
  cases key <;> rfl

namespace Subtype

def weight (source target : Ty) : Nat :=
  if target.isAccessory then source.height
  else if source.isLiteral then target.height
  else source.height + target.height

variable {s t : Ty}

theorem weight_le (s t : Ty) : weight s t ≤ s.height + t.height := by
  unfold weight
  split
  · omega
  · split <;> omega

theorem weight_pos (s t : Ty) : 0 < weight s t := by
  have hs := s.height_pos
  have ht := t.height_pos
  unfold weight
  split
  · exact hs
  · split <;> omega

theorem weight_eq (hs : s.isLiteral = false) (ht : t.isAccessory = false) :
    weight s t = s.height + t.height := by
  simp [weight, hs, ht]

/-- A question about lower types is lighter. -/
theorem weight_lt_of_height {a b : Ty} (hs : s.isLiteral = false)
    (ht : t.isAccessory = false) (h : a.height + b.height < s.height + t.height) :
    weight a b < weight s t := by
  rw [weight_eq hs ht]
  exact Nat.lt_of_le_of_lt (weight_le a b) h

theorem isLiteral_of_mem_children {m : Ty} (hm : m ∈ s.children) : s.isLiteral = false := by
  cases s <;> first | rfl | simp [Ty.children] at hm

theorem isAccessory_of_mem_children {m : Ty} (hm : m ∈ t.children) :
    t.isAccessory = false := by
  cases t <;> first | rfl | simp [Ty.children] at hm

theorem height_of_isLiteral (hs : s.isLiteral = true) : s.height = 1 := by
  cases s <;> first | rfl | simp [Ty.isLiteral] at hs

theorem height_of_isAccessory (ht : t.isAccessory = true) : t.height = 1 := by
  cases t <;> first | rfl | simp [Ty.isAccessory] at ht

theorem weight_lt_left {m : Ty} (hm : m ∈ s.children) : weight m t < weight s t := by
  have hheight := Ty.height_lt_of_mem_children hm
  by_cases ht : t.isAccessory = true
  · simpa [weight, ht] using hheight
  · exact weight_lt_of_height (isLiteral_of_mem_children hm) (by simpa using ht) (by omega)

theorem weight_lt_right {m : Ty} (hm : m ∈ t.children) : weight s m < weight s t := by
  have hheight := Ty.height_lt_of_mem_children hm
  have hpos := m.height_pos
  have ht := isAccessory_of_mem_children hm
  by_cases hs : s.isLiteral = true
  · have hsource := height_of_isLiteral hs
    simp only [weight, hs, ht, if_true, Bool.false_eq_true, if_false]
    split <;> omega
  · exact weight_lt_of_height (by simpa using hs) ht (by omega)

theorem weight_swap (hs : s.isAccessory = true) (ht : t.isAccessory = false) :
    weight t s < weight s t := by
  have hheight := height_of_isAccessory hs
  have hliteral : s.isLiteral = false := by
    cases s <;> first | rfl | simp [Ty.isAccessory] at hs
  rw [weight_eq hliteral ht]
  simp only [weight, hs, if_true]
  omega

theorem weight_ofKey_le (key : Key) (t : Ty) : weight (Ty.ofKey key) t ≤ t.height := by
  have hpos := t.height_pos
  have hliteral : (Ty.ofKey key).isLiteral = true := by
    cases key <;> rfl
  have hheight := height_of_isLiteral hliteral
  simp only [weight, hliteral, if_true]
  split <;> omega

theorem weight_ofKey_lt_left {m : Ty} (key : Key) (hm : m ∈ s.children) :
    weight (Ty.ofKey key) m < weight s t := by
  have hheight := Ty.height_lt_of_mem_children hm
  have hkey := weight_ofKey_le key m
  have hs := isLiteral_of_mem_children hm
  have hle : s.height ≤ weight s t := by
    simp only [weight, hs]
    split <;> simp
  omega

theorem weight_ofKey_lt_right {m : Ty} (key : Key) (hm : m ∈ t.children) :
    weight (Ty.ofKey key) m < weight s t := by
  have hheight := Ty.height_lt_of_mem_children hm
  have hkey := weight_ofKey_le key m
  have ht := isAccessory_of_mem_children hm
  have hle : t.height ≤ weight s t := by
    simp only [weight, ht, Bool.false_eq_true, if_false]
    split <;> simp
  omega

/-- A question about a child of each type is lighter, either way round. -/
theorem weight_lt_of_mem_children {a b : Ty} (ha : a ∈ s.children) (hb : b ∈ t.children) :
    weight a b < weight s t ∧ weight b a < weight s t := by
  have hs := Ty.height_lt_of_mem_children ha
  have ht := Ty.height_lt_of_mem_children hb
  have hliteral := isLiteral_of_mem_children ha
  have haccessory := isAccessory_of_mem_children hb
  exact ⟨weight_lt_of_height hliteral haccessory (by omega),
    weight_lt_of_height hliteral haccessory (by omega)⟩

end Subtype
end GradualTypes
