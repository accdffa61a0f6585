import GradualTypes.Double.Shortest
import Mathlib.Algebra.Order.Field.Power
import Mathlib.Algebra.Order.Ring.Rat
import Mathlib.Data.Nat.Digits.Defs
import Mathlib.Tactic.FieldSimp
import Mathlib.Tactic.Linarith
import Mathlib.Tactic.NormNum
import Mathlib.Tactic.Positivity
import Mathlib.Tactic.Ring

/-!
# Shortest decimals are exact

The reals that round to a finite double other than zero form an interval, and the intervals of
doubles with different magnitudes have no point in common.  The shortest decimal of a double
lies in its interval: seventeen digits always suffice, since their grid is finer than the
interval is wide.  So the shortest decimal determines the magnitude.
-/

namespace GradualTypes

def Decimal.value (d : Decimal) : ℚ :=
  d.digits * (10 : ℚ) ^ d.exponent

namespace Double

/-- A power with an integer exponent as a quotient of powers of naturals. -/
theorem zpow_mul_pow_toNat {b : ℚ} (hb : b ≠ 0) (e : Int) :
    b ^ e * b ^ (-e).toNat = b ^ e.toNat := by
  rw [← zpow_natCast, ← zpow_natCast, ← zpow_add₀ hb]
  congr 1
  omega

/-!
# Rounding intervals
-/

namespace Rounding

/-- The number lies in the interval. -/
def Covers (r : Rounding) (q : ℚ) : Prop :=
  if r.closed then (r.lower : ℚ) ≤ q * r.denominator ∧ q * r.denominator ≤ r.upper
  else (r.lower : ℚ) < q * r.denominator ∧ q * r.denominator < r.upper

section Grids

variable {r : Rounding} {e : Int} {n a : Nat}

theorem scaled_eq (r : Rounding) (e : Int) (n : Nat) :
    n * (10 : ℚ) ^ e * r.denominator * (10 : ℚ) ^ (-e).toNat =
      ((n * (r.inUnitsOf e).denominator : Nat) : ℚ) := by
  simp only [inUnitsOf, Nat.pow_eq]
  push_cast
  rw [← zpow_mul_pow_toNat (by norm_num : (10 : ℚ) ≠ 0) e]
  ring

theorem le_grid_iff : (a : ℚ) ≤ n * (10 : ℚ) ^ e * r.denominator ↔
    a * Nat.pow 10 (-e).toNat ≤ n * (r.inUnitsOf e).denominator := by
  have hpos : (0 : ℚ) < (10 : ℚ) ^ (-e).toNat := by positivity
  rw [← mul_le_mul_iff_of_pos_right hpos, scaled_eq, Nat.pow_eq]
  exact_mod_cast Iff.rfl

theorem grid_le_iff : n * (10 : ℚ) ^ e * r.denominator ≤ (a : ℚ) ↔
    n * (r.inUnitsOf e).denominator ≤ a * Nat.pow 10 (-e).toNat := by
  have hpos : (0 : ℚ) < (10 : ℚ) ^ (-e).toNat := by positivity
  rw [← mul_le_mul_iff_of_pos_right hpos, scaled_eq, Nat.pow_eq]
  exact_mod_cast Iff.rfl

theorem contains_inUnitsOf :
    (r.inUnitsOf e).contains n = true ↔ r.Covers (n * (10 : ℚ) ^ e) := by
  have hclosed : (r.inUnitsOf e).closed = r.closed := rfl
  unfold Covers contains
  rw [hclosed]
  cases r.closed with
  | true =>
      simp only [if_true, Bool.and_eq_true, decide_eq_true_eq]
      exact and_congr le_grid_iff.symm grid_le_iff.symm
  | false =>
      simp only [Bool.false_eq_true, if_false, Bool.and_eq_true, decide_eq_true_eq, ← not_le]
      exact and_congr (not_congr grid_le_iff.symm) (not_congr le_grid_iff.symm)

/-- What is nearest lies in the interval. -/
theorem contains_of_nearest? (hn : r.nearest? = some n) :
    r.contains n = true := by
  simp only [nearest?] at hn
  split at hn
  · rename_i hbelow habove
    split at hn
    · exact Option.some.inj hn ▸ habove
    · exact Option.some.inj hn ▸ hbelow
  · rename_i hbelow _
    exact Option.some.inj hn ▸ hbelow
  · rename_i _ habove
    exact Option.some.inj hn ▸ habove
  · cases hn

/-- A neighbour of the value that lies in the interval is found. -/
theorem nearest?_isSome
    (hnear : r.contains (r.value / r.denominator) = true ∨
      r.contains (r.value / r.denominator + 1) = true) : ∃ n, r.nearest? = some n := by
  simp only [nearest?]
  split
  · split <;> exact ⟨_, rfl⟩
  · exact ⟨_, rfl⟩
  · exact ⟨_, rfl⟩
  · rename_i hbelow habove
    simp [hbelow, habove] at hnear

end Grids

end Rounding

/-!
# Mantissa and scale
-/

section Bits

variable {x y : Double}

theorem magnitudeBits_eq (x : Double) :
    x.magnitudeBits = x.exponentBits * 2 ^ 52 + x.fractionBits := by
  simp only [exponentBits, fractionBits, magnitudeBits, Nat.pow_eq]
  omega

theorem fractionBits_lt (x : Double) : x.fractionBits < 2 ^ 52 :=
  Nat.mod_lt _ (by decide)

/-- The unit of the ends of the interval, a quarter of the unit in the last place. -/
def unit (x : Double) : ℚ :=
  (2 : ℚ) ^ (x.scale - 2)

theorem unit_pos (x : Double) : 0 < x.unit := by
  unfold unit
  positivity

/-- The distance from the value down to the end of the interval. -/
def gap (x : Double) : Nat :=
  if x.mantissa = Nat.pow 2 52 then 1 else 2

theorem mantissa_pos (hx : x.magnitudeBits ≠ 0) : 0 < x.mantissa := by
  have hbits := x.magnitudeBits_eq
  unfold mantissa
  split
  · rename_i hsubnormal
    rw [hsubnormal] at hbits
    omega
  · exact Nat.add_pos_left (by decide) _

theorem mantissa_lt (x : Double) : x.mantissa < 2 ^ 53 := by
  have hfraction := x.fractionBits_lt
  simp only [mantissa, Nat.pow_eq]
  split <;> omega

theorem mul_unit_eq (x : Double) (n : Nat) :
    (n : ℚ) * x.unit * x.rounding.denominator = (n * Nat.pow 2 (x.scale - 2).toNat : Nat) := by
  have hsplit := zpow_mul_pow_toNat (by norm_num : (2 : ℚ) ≠ 0) (x.scale - 2)
  have hneg : -(x.scale - 2) = 2 - x.scale := by omega
  rw [hneg] at hsplit
  simp only [unit, rounding, Nat.pow_eq]
  push_cast
  rw [mul_assoc, hsplit]

/-- The interval in terms of mantissa and scale.  Its ends belong to it if the mantissa is
even. -/
theorem covers_rounding {v : ℚ} : x.rounding.Covers v ↔
    if x.mantissa % 2 = 0 then
      ((4 * x.mantissa - x.gap : Nat) : ℚ) * x.unit ≤ v ∧
        v ≤ ((4 * x.mantissa + 2 : Nat) : ℚ) * x.unit
    else
      ((4 * x.mantissa - x.gap : Nat) : ℚ) * x.unit < v ∧
        v < ((4 * x.mantissa + 2 : Nat) : ℚ) * x.unit := by
  have hden : (0 : ℚ) < x.rounding.denominator := by
    simp only [rounding, Nat.pow_eq]
    positivity
  have hlower : (x.rounding.lower : ℚ) =
      ((4 * x.mantissa - x.gap : Nat) : ℚ) * x.unit * x.rounding.denominator :=
    (x.mul_unit_eq _).symm
  have hupper : (x.rounding.upper : ℚ) =
      ((4 * x.mantissa + 2 : Nat) : ℚ) * x.unit * x.rounding.denominator :=
    (x.mul_unit_eq _).symm
  have hclosed : x.rounding.closed = decide (x.mantissa % 2 = 0) := rfl
  simp only [Rounding.Covers, hlower, hupper, hclosed, decide_eq_true_eq,
    mul_le_mul_iff_of_pos_right hden, mul_lt_mul_iff_of_pos_right hden]

/-!
# Intervals of different magnitudes
-/

/-- A greater magnitude has a greater mantissa at the same scale or a greater scale, and then
its mantissa is a full one. -/
theorem scale_mantissa_of_lt (hbits : x.magnitudeBits < y.magnitudeBits) :
    x.scale = y.scale ∧ x.mantissa < y.mantissa ∨
      x.scale < y.scale ∧ 2 ^ 52 ≤ y.mantissa := by
  have hx := x.magnitudeBits_eq
  have hy := y.magnitudeBits_eq
  have hxlt := x.fractionBits_lt
  have hylt := y.fractionBits_lt
  simp only [scale, mantissa, Nat.pow_eq]
  split <;> split <;> omega

theorem gap_eq (x : Double) : x.gap = 1 ∧ x.mantissa = 2 ^ 52 ∨ x.gap = 2 ∧ x.mantissa ≠ 2 ^ 52 := by
  unfold gap
  split
  · exact .inl ⟨rfl, ‹_›⟩
  · exact .inr ⟨rfl, ‹_›⟩

/-- The interval of a smaller magnitude ends where that of a greater one begins or before,
and if they meet, the common end does not belong to both. -/
theorem upper_le_lower (hbits : x.magnitudeBits < y.magnitudeBits) :
    ((4 * x.mantissa + 2 : Nat) : ℚ) * x.unit ≤ ((4 * y.mantissa - y.gap : Nat) : ℚ) * y.unit ∧
      (((4 * x.mantissa + 2 : Nat) : ℚ) * x.unit =
          ((4 * y.mantissa - y.gap : Nat) : ℚ) * y.unit ->
        ¬ (x.mantissa % 2 = 0 ∧ y.mantissa % 2 = 0)) := by
  have hgap := y.gap_eq
  have hunit := x.unit_pos
  rcases scale_mantissa_of_lt hbits with ⟨hscale, hmantissa⟩ | ⟨hscale, hfull⟩
  · have hle : 4 * x.mantissa + 2 ≤ 4 * y.mantissa - y.gap := by omega
    rw [show y.unit = x.unit by rw [unit, unit, hscale], mul_le_mul_iff_of_pos_right hunit,
      mul_left_inj' hunit.ne']
    refine ⟨by exact_mod_cast hle, fun heq => ?_⟩
    have heq : 4 * x.mantissa + 2 = 4 * y.mantissa - y.gap := by exact_mod_cast heq
    omega
  · -- the unit at least doubles, and the mantissa below is at most `2 ^ 53 - 1`
    have hxlt := x.mantissa_lt
    have hdouble : 2 * x.unit ≤ y.unit := by
      rw [unit, unit, ← zpow_one_add₀ (by norm_num : (2 : ℚ) ≠ 0)]
      exact zpow_le_zpow_right₀ (by norm_num) (by omega)
    have hbelow : 4 * x.mantissa + 2 ≤ (2 ^ 54 - 1) * 2 := by omega
    have habove : 2 ^ 54 - 1 ≤ 4 * y.mantissa - y.gap := by omega
    have hright : ((2 ^ 54 - 1 : Nat) : ℚ) * (2 * x.unit) ≤
        ((4 * y.mantissa - y.gap : Nat) : ℚ) * y.unit :=
      mul_le_mul (by exact_mod_cast habove) hdouble (by positivity) (by positivity)
    have hmiddle : ((2 ^ 54 - 1 : Nat) : ℚ) * (2 * x.unit) =
        (((2 ^ 54 - 1) * 2 : Nat) : ℚ) * x.unit := by
      push_cast
      ring
    rw [hmiddle] at hright
    refine ⟨le_trans ((mul_le_mul_iff_of_pos_right hunit).mpr (by exact_mod_cast hbelow)) hright,
      fun heq => ?_⟩
    have hfilled : (2 ^ 54 - 1) * 2 ≤ 4 * x.mantissa + 2 := by
      exact_mod_cast (mul_le_mul_iff_of_pos_right hunit).mp (heq ▸ hright)
    omega

/-- No number lies in the intervals of two magnitudes. -/
theorem magnitudeBits_eq_of_covers {v : ℚ} (hx : x.rounding.Covers v) (hy : y.rounding.Covers v) :
    x.magnitudeBits = y.magnitudeBits := by
  have hdisjoint : ∀ {x y : Double}, x.rounding.Covers v -> y.rounding.Covers v ->
      ¬ x.magnitudeBits < y.magnitudeBits := by
    intro x y hx hy hlt
    rcases upper_le_lower hlt with ⟨hle, hmeet⟩
    rw [covers_rounding] at hx hy
    split at hx <;> split at hy
    · rename_i hxeven hyeven
      exact hmeet (le_antisymm hle (hy.1.trans hx.2)) ⟨hxeven, hyeven⟩
    all_goals linarith [hx.2, hy.1]
  exact Nat.le_antisymm (Nat.le_of_not_lt (hdisjoint hy hx)) (Nat.le_of_not_lt (hdisjoint hx hy))

/-!
# Seventeen digits
-/

theorem value_eq (x : Double) :
    ((4 * x.mantissa : Nat) : ℚ) * x.unit * x.rounding.denominator = x.rounding.value :=
  x.mul_unit_eq _

theorem denominator_le (hx : x.magnitudeBits ≠ 0) {k p : Nat} (hk : 1076 ≤ k)
    (hp : 2 ^ k ≤ 4 * p) : x.rounding.denominator ≤ x.rounding.value * p := by
  have hscale : (2 - x.scale).toNat ≤ k := by
    simp only [scale]
    omega
  have hvalue : 4 ≤ x.rounding.value := by
    show 4 ≤ 4 * x.mantissa * 2 ^ (x.scale - 2).toNat
    have := mantissa_pos hx
    have := Nat.pow_pos (n := (x.scale - 2).toNat) (show 0 < 2 by decide)
    nlinarith
  calc x.rounding.denominator
      = 2 ^ (2 - x.scale).toNat := rfl
    _ ≤ 2 ^ k := Nat.pow_le_pow_right (by decide) hscale
    _ ≤ 4 * p := hp
    _ ≤ x.rounding.value * p := Nat.mul_le_mul_right _ hvalue

theorem pow_length_le {n : Nat} (hn : 0 < n) : 10 ^ ((Nat.toDigits 10 n).length - 1) ≤ n := by
  rcases Nat.eq_zero_or_pos ((Nat.toDigits 10 n).length - 1) with hone | hmore
  · rw [hone]
    exact hn
  · refine Nat.le_of_not_lt fun hlt => ?_
    have := (Nat.length_toDigits_le_iff (by decide) hmore).mpr hlt
    omega

/-- The leading power of ten is at most the value. -/
theorem zpow_magnitude_le (hx : x.magnitudeBits ≠ 0) :
    (10 : ℚ) ^ (x.rounding.magnitude - 1) ≤ ((4 * x.mantissa : Nat) : ℚ) * x.unit := by
  have hscale : ∃ p : Nat, 2 ^ 1076 ≤ 4 * p ∧ (p : ℚ) = (10 : ℚ) ^ (330 : Int) ∧
      x.rounding.magnitude =
        (Nat.toDigits 10 (x.rounding.value * p / x.rounding.denominator)).length - (330 : Int) := by
    refine ⟨Nat.pow 10 330, by decide +kernel, ?_, rfl⟩
    rw [Nat.pow_eq, Nat.cast_pow, Nat.cast_ofNat, ← zpow_natCast, Nat.cast_ofNat]
  rcases hscale with ⟨p, hlarge, hcast, hmagnitude⟩
  have hden : 0 < x.rounding.denominator := Nat.pow_pos (by decide)
  have hlength := Nat.length_toDigits_pos (b := 10)
    (n := x.rounding.value * p / x.rounding.denominator)
  rw [hmagnitude]
  have hwhole : 0 < x.rounding.value * p / x.rounding.denominator :=
    Nat.div_pos (denominator_le hx (Nat.le_refl 1076) hlarge) hden
  have hpow := pow_length_le hwhole
  generalize (Nat.toDigits 10 (x.rounding.value * p / x.rounding.denominator)).length = l at *
  have hscaled : 10 ^ (l - 1) * x.rounding.denominator ≤ x.rounding.value * p :=
    le_trans (Nat.mul_le_mul_right _ hpow) (Nat.div_mul_le_self _ _)
  have hcasted : (10 : ℚ) ^ (l - 1) * x.rounding.denominator ≤
      ((4 * x.mantissa : Nat) : ℚ) * x.unit * x.rounding.denominator * p := by
    rw [value_eq]
    exact_mod_cast hscaled
  have hpos : (0 : ℚ) < x.rounding.denominator * p := by
    rw [hcast]
    have : (0 : ℚ) < x.rounding.denominator := by exact_mod_cast hden
    positivity
  rw [← mul_le_mul_iff_of_pos_right hpos]
  calc (10 : ℚ) ^ ((l : Int) - 330 - 1) * (x.rounding.denominator * p)
      = (10 : ℚ) ^ ((l - 1 : Nat) : Int) * x.rounding.denominator := by
        rw [hcast, show ((l - 1 : Nat) : Int) = (l : Int) - 330 - 1 + 330 by omega,
          zpow_add₀ (by norm_num)]
        ring
    _ = (10 : ℚ) ^ (l - 1) * x.rounding.denominator := by rw [zpow_natCast]
    _ ≤ ((4 * x.mantissa : Nat) : ℚ) * x.unit * (x.rounding.denominator * p) := by
        rw [← mul_assoc]
        exact hcasted

theorem covers_of_between {v : ℚ} (hlower : ((4 * x.mantissa - x.gap : Nat) : ℚ) * x.unit < v)
    (hupper : v < ((4 * x.mantissa + 2 : Nat) : ℚ) * x.unit) : x.rounding.Covers v := by
  rw [covers_rounding]
  split
  · exact ⟨hlower.le, hupper.le⟩
  · exact ⟨hlower, hupper⟩

/-- Of the two neighbours on a grid that is finer than the interval is wide, one lies in the
interval. -/
theorem exists_nearest? (hx : x.magnitudeBits ≠ 0) {e : Int}
    (hfine : (10 : ℚ) ^ e < ((2 + x.gap : Nat) : ℚ) * x.unit) :
    ∃ n, (x.rounding.inUnitsOf e).nearest? = some n := by
  apply Rounding.nearest?_isSome
  have hunit := x.unit_pos
  have hden : (0 : ℚ) < x.rounding.denominator := by
    exact_mod_cast (Nat.pow_pos (by decide) : 0 < x.rounding.denominator)
  have hdenominator : 0 < (x.rounding.inUnitsOf e).denominator :=
    Nat.mul_pos (Nat.pow_pos (by decide)) (Nat.pow_pos (by decide))
  generalize hn : (x.rounding.inUnitsOf e).value / (x.rounding.inUnitsOf e).denominator = n
  have hbelow : n * (10 : ℚ) ^ e ≤ ((4 * x.mantissa : Nat) : ℚ) * x.unit := by
    rw [← mul_le_mul_iff_of_pos_right hden, value_eq, Rounding.grid_le_iff, ← hn]
    exact Nat.div_mul_le_self _ _
  have habove : ((4 * x.mantissa : Nat) : ℚ) * x.unit < ((n + 1 : Nat) : ℚ) * (10 : ℚ) ^ e := by
    rw [← mul_lt_mul_iff_of_pos_right hden, value_eq, ← not_le, Rounding.grid_le_iff, not_le, ← hn,
      Nat.add_one_mul]
    exact Nat.lt_div_mul_add hdenominator
  have hlow : ((4 * x.mantissa - x.gap : Nat) : ℚ) * x.unit =
      ((4 * x.mantissa : Nat) : ℚ) * x.unit - x.gap * x.unit := by
    rw [Nat.cast_sub (by have := mantissa_pos hx; have := x.gap_eq; omega), sub_mul]
  have hgap : (0 : ℚ) < x.gap * x.unit := by
    have : 0 < x.gap := by have := x.gap_eq; omega
    positivity
  push_cast at hlow hbelow habove hfine
  simp only [Rounding.contains_inUnitsOf]
  by_contra hout
  rw [not_or] at hout
  -- if both neighbours lie outside, then the whole interval lies between them
  have hdown : (n : ℚ) * 10 ^ e ≤ 4 * x.mantissa * x.unit - x.gap * x.unit := by
    by_contra hlt
    refine hout.1 (covers_of_between ?_ ?_)
    · rw [hlow]
      linarith
    · push_cast
      linarith
  have hup : (4 * x.mantissa + 2) * x.unit ≤ (n + 1 : ℚ) * 10 ^ e := by
    by_contra hlt
    refine hout.2 (covers_of_between ?_ ?_)
    · rw [hlow]
      push_cast
      linarith
    · push_cast
      linarith
  linarith

/-- Seventeen digits are a grid that is finer than the interval is wide. -/
theorem zpow_seventeen_lt (hx : x.magnitudeBits ≠ 0) :
    (10 : ℚ) ^ (x.rounding.magnitude - (17 : Nat)) < ((2 + x.gap : Nat) : ℚ) * x.unit := by
  have hunit := x.unit_pos
  have hmantissa : 4 * x.mantissa < (2 + x.gap) * 10 ^ 16 := by
    have := x.mantissa_lt
    have := x.gap_eq
    omega
  have hcast : ((4 * x.mantissa : Nat) : ℚ) * x.unit <
      ((2 + x.gap : Nat) : ℚ) * x.unit * 10 ^ 16 := by
    have : ((4 * x.mantissa : Nat) : ℚ) < ((2 + x.gap : Nat) : ℚ) * 10 ^ 16 := by
      exact_mod_cast hmantissa
    nlinarith
  have hsplit : (10 : ℚ) ^ (x.rounding.magnitude - 1) =
      (10 : ℚ) ^ (x.rounding.magnitude - (17 : Nat)) * 10 ^ 16 := by
    rw [← zpow_natCast, ← zpow_add₀ (by norm_num)]
    congr 1
    omega
  have hle := zpow_magnitude_le hx
  rw [hsplit] at hle
  exact lt_of_mul_lt_mul_right (lt_of_le_of_lt hle hcast) (by norm_num)

/-- A search whose last grid is fine enough finds a decimal that rounds to the magnitude. -/
theorem exists_onGrid? (hx : x.magnitudeBits ≠ 0) {top : Int}
    (hfine : (10 : ℚ) ^ (top - (17 : Nat)) < ((2 + x.gap : Nat) : ℚ) * x.unit) :
    ∃ d, ((List.range 17).findSome? fun i => x.rounding.onGrid? top (i + 1)) = some d ∧
      x.rounding.Covers d.value := by
  have hsome : ((List.range 17).findSome? fun i => x.rounding.onGrid? top (i + 1)).isSome := by
    rw [List.findSome?_isSome_iff]
    rcases exists_nearest? hx hfine with ⟨n, hn⟩
    refine ⟨16, by simp, ?_⟩
    rw [Rounding.onGrid?, hn]
    rfl
  rcases Option.isSome_iff_exists.mp hsome with ⟨d, hd⟩
  refine ⟨d, hd, ?_⟩
  rcases List.exists_of_findSome?_eq_some hd with ⟨i, -, hi⟩
  rcases Option.map_eq_some_iff.mp hi with ⟨n, hn, rfl⟩
  exact Rounding.contains_inUnitsOf.mp (Rounding.contains_of_nearest? hn)

/-- The shortest decimal rounds to the magnitude. -/
theorem covers_shortest (hx : x.magnitudeBits ≠ 0) : x.rounding.Covers x.shortest.value := by
  rcases exists_onGrid? hx (zpow_seventeen_lt hx) with ⟨d, hd, hcovers⟩
  simp only [shortest, hd, Option.getD_some]
  split
  · rename_i hten
    have hvalue : (⟨1, d.exponent + 1⟩ : Decimal).value = d.value := by
      simp only [Decimal.value, hten, zpow_add_one₀ (by norm_num : (10 : ℚ) ≠ 0)]
      push_cast
      ring
    rwa [hvalue]
  · exact hcovers

theorem shortest_value_pos (hx : x.magnitudeBits ≠ 0) : 0 < x.shortest.value := by
  have hlower : (0 : ℚ) < ((4 * x.mantissa - x.gap : Nat) : ℚ) * x.unit := by
    have : 0 < 4 * x.mantissa - x.gap := by
      have := mantissa_pos hx
      have := x.gap_eq
      omega
    have := x.unit_pos
    positivity
  have hcovers := covers_rounding.mp (covers_shortest hx)
  split at hcovers
  · exact lt_of_lt_of_le hlower hcovers.1
  · exact lt_trans hlower hcovers.1

/-- The shortest decimal determines the magnitude. -/
theorem magnitudeBits_eq_of_shortest (hx : x.magnitudeBits ≠ 0) (hy : y.magnitudeBits ≠ 0)
    (hvalue : x.shortest.value = y.shortest.value) : x.magnitudeBits = y.magnitudeBits := by
  have hcovers := covers_shortest hy
  rw [← hvalue] at hcovers
  exact magnitudeBits_eq_of_covers (covers_shortest hx) hcovers

end Bits

end Double
end GradualTypes
