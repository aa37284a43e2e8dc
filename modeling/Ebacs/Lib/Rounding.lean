import Mathlib.Algebra.Order.Floor.Ring
import Mathlib.Data.Rat.Floor
import Mathlib.Tactic.FieldSimp
import Mathlib.Tactic.Linarith

/-! # Truncation, equally spaced points, half-open cells and interpolation

Exact rational readings of `int`, of `np.linspace`, of a search through cells
of equal width, each of which contains its left end only, and of the value
between two neighbouring ranks.
-/
namespace Ebacs.Lib
set_option autoImplicit false

/-- Rounding towards zero. -/
def truncate (q : ℚ) : Int := if 0 ≤ q then ⌊q⌋ else ⌈q⌉

theorem truncate_of_nonneg {q : ℚ} (h : 0 ≤ q) : truncate q = ⌊q⌋ := if_pos h

@[simp] theorem truncate_intCast (n : Int) : truncate n = n := by
  rw [truncate, Int.floor_intCast, Int.ceil_intCast, ite_self]

def linspace (start stop : ℚ) (num : Nat) : List ℚ :=
  (List.range num).map (fun i : Nat => start + i * ((stop - start) / ((num : ℚ) - 1)))

@[simp] theorem length_linspace (start stop : ℚ) (num : Nat) :
    (linspace start stop num).length = num := by
  rw [linspace, List.length_map, List.length_range]

theorem getElem?_linspace {start stop : ℚ} {num i : Nat} (h : i < num) :
    (linspace start stop num)[i]? = some (start + i * ((stop - start) / ((num : ℚ) - 1))) := by
  rw [linspace, List.getElem?_map, List.getElem?_range h, Option.map_some]

/-- A point lies in the cell whose number is its distance from the start, in widths. -/
theorem mem_cell_iff {start width w : ℚ} (hWidth : 0 < width) (i : Nat) :
    start + i * width ≤ w ∧ w < start + i * width + width ↔ ⌊(w - start) / width⌋ = i := by
  rw [Int.floor_eq_iff, le_div_iff₀ hWidth, div_lt_iff₀ hWidth, add_mul, one_mul]
  push_cast
  constructor
  · rintro ⟨hLow, hHigh⟩
    exact ⟨by linarith, by linarith⟩
  · rintro ⟨hLow, hHigh⟩
    exact ⟨by linarith, by linarith⟩

/-- Linear between the values at the two nearest natural numbers. -/
def interpolate (a : Nat → ℚ) (t : ℚ) : ℚ :=
  a ⌊t⌋₊ + (t - ⌊t⌋₊) * (a (⌊t⌋₊ + 1) - a ⌊t⌋₊)

@[simp] theorem interpolate_natCast (a : Nat → ℚ) (n : Nat) : interpolate a n = a n := by
  rw [interpolate, Nat.floor_natCast, sub_self, zero_mul, add_zero]

section Monotone

variable {a : Nat → ℚ}

theorem le_interpolate (ha : Monotone a) {t : ℚ} (ht : 0 ≤ t) : a ⌊t⌋₊ ≤ interpolate a t := by
  have hWeight : (0 : ℚ) ≤ t - ⌊t⌋₊ := sub_nonneg.mpr (Nat.floor_le ht)
  have hStep : 0 ≤ a (⌊t⌋₊ + 1) - a ⌊t⌋₊ := sub_nonneg.mpr (ha (Nat.le_succ _))
  exact le_add_of_nonneg_right (mul_nonneg hWeight hStep)

theorem interpolate_le (ha : Monotone a) (t : ℚ) : interpolate a t ≤ a (⌊t⌋₊ + 1) := by
  have hWeight : t - ⌊t⌋₊ ≤ 1 := by linarith [Nat.lt_floor_add_one t]
  have hStep : 0 ≤ a (⌊t⌋₊ + 1) - a ⌊t⌋₊ := sub_nonneg.mpr (ha (Nat.le_succ _))
  have hPart := mul_le_of_le_one_left hStep hWeight
  rw [interpolate]
  linarith

theorem interpolate_mono (ha : Monotone a) {s t : ℚ} (hs : 0 ≤ s) (hst : s ≤ t) :
    interpolate a s ≤ interpolate a t := by
  rcases (Nat.floor_le_floor hst).eq_or_lt with hEq | hLt
  · have hStep : 0 ≤ a (⌊t⌋₊ + 1) - a ⌊t⌋₊ := sub_nonneg.mpr (ha (Nat.le_succ _))
    rw [interpolate, interpolate, hEq]
    gcongr
  · calc
      interpolate a s ≤ a (⌊s⌋₊ + 1) := interpolate_le ha s
      _ ≤ a ⌊t⌋₊ := ha hLt
      _ ≤ interpolate a t := le_interpolate ha (hs.trans hst)

end Monotone

end Ebacs.Lib
