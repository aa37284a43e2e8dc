import Mathlib.Data.Int.Log
import Ebacs.Lib.Rounding

/-! # Binary floating-point numbers

The finite numbers of a format are the rationals that have few enough binary digits.
An operation is the exact one, rounded to the nearest of them and to the even one of
two that are equally near. Rounding keeps the order, and it keeps what already is a
number of the format. A zero has no sign here.
-/
namespace Ebacs.Lib
set_option autoImplicit false

/-- The nearest integer, and the even one of two. -/
def roundEven (q : ℚ) : Int :=
  if q - ⌊q⌋ < 1 / 2 then ⌊q⌋
  else if 1 / 2 < q - ⌊q⌋ then ⌊q⌋ + 1
  else if Even ⌊q⌋ then ⌊q⌋ else ⌊q⌋ + 1

theorem floor_le_roundEven (q : ℚ) : ⌊q⌋ ≤ roundEven q := by
  rw [roundEven]
  split_ifs <;> omega

theorem roundEven_le_floor_add_one (q : ℚ) : roundEven q ≤ ⌊q⌋ + 1 := by
  rw [roundEven]
  split_ifs <;> omega

@[simp] theorem roundEven_intCast (n : Int) : roundEven n = n := by
  rw [roundEven, Int.floor_intCast, sub_self, if_pos (by norm_num)]

theorem roundEven_mono {q r : ℚ} (h : q ≤ r) : roundEven q ≤ roundEven r := by
  obtain hSame | hLt := (Int.floor_le_floor h).eq_or_lt
  · rw [roundEven, roundEven, hSame]
    split_ifs
    all_goals first | omega | linarith
  · calc
      roundEven q ≤ ⌊q⌋ + 1 := roundEven_le_floor_add_one q
      _ ≤ ⌊r⌋ := hLt
      _ ≤ roundEven r := floor_le_roundEven r

theorem abs_roundEven_le {q : ℚ} {n : Int} (h : |q| ≤ n) : |roundEven q| ≤ n := by
  obtain ⟨hLow, hHigh⟩ := abs_le.mp h
  rw [abs_le]
  constructor
  · rw [← roundEven_intCast (-n)]
    exact roundEven_mono (by push_cast; exact hLow)
  · rw [← roundEven_intCast n]
    exact roundEven_mono hHigh

/-- `digits` significant binary digits, of which the last one counts for at least `2 ^ least`.
Numbers from `2 ^ top` on are infinite. -/
structure BinaryFormat where
  digits : Nat
  digits_pos : 0 < digits
  least : Int
  top : Int

namespace BinaryFormat

/-- What the last digit of a number near `q` counts for, as an exponent of two. -/
def scale (F : BinaryFormat) (q : ℚ) : Int := max (Int.log 2 |q| - (F.digits - 1)) F.least

def round (F : BinaryFormat) (q : ℚ) : ℚ := roundEven (q / 2 ^ F.scale q) * 2 ^ F.scale q

section Rounding

variable {F : BinaryFormat} {q r : ℚ}

theorem two_zpow_pos (e : Int) : (0 : ℚ) < 2 ^ e := zpow_pos (by norm_num) e

theorem two_zpow_le_iff {e e' : Int} : (2 : ℚ) ^ e ≤ 2 ^ e' ↔ e ≤ e' :=
  zpow_le_zpow_iff_right₀ (by norm_num)

theorem two_zpow_add (e e' : Int) : (2 : ℚ) ^ (e + e') = 2 ^ e * 2 ^ e' :=
  zpow_add₀ (by norm_num) e e'

/-- The digits suffice for every number. -/
theorem abs_lt_of_scale (q : ℚ) : |q| < 2 ^ (F.digits + F.scale q) := by
  have hLog : |q| < (2 : Nat) ^ (Int.log 2 |q| + 1) := Int.lt_zpow_succ_log_self (by decide) |q|
  have hScale : Int.log 2 |q| - (F.digits - 1) ≤ F.scale q := le_max_left _ _
  calc
    |q| < 2 ^ (Int.log 2 |q| + 1) := by exact_mod_cast hLog
    _ ≤ 2 ^ (F.digits + F.scale q) := two_zpow_le_iff.mpr (by omega)

/-- All digits are in use, except near zero. -/
theorem le_abs_of_scale (hq : q ≠ 0) (h : F.least < F.scale q) :
    2 ^ (F.digits - 1 + F.scale q) ≤ |q| := by
  have hScale : Int.log 2 |q| = F.digits - 1 + F.scale q := by
    rw [scale] at h ⊢
    omega
  have hLog : (2 : Nat) ^ Int.log 2 |q| ≤ |q| :=
    Int.zpow_log_le_self (by decide) (abs_pos.mpr hq)
  rw [← hScale]
  exact_mod_cast hLog

@[simp] theorem round_zero : F.round 0 = 0 := by
  have hZero : roundEven 0 = 0 := roundEven_intCast 0
  rw [round, zero_div, hZero, Int.cast_zero, zero_mul]

theorem round_eq_of_multiple {m : Int} (h : q = m * 2 ^ F.scale q) : F.round q = q := by
  have hQuotient : q / 2 ^ F.scale q = m :=
    (div_eq_iff (two_zpow_pos _).ne').mpr h
  rw [round, hQuotient, roundEven_intCast, ← h]

/-- What has few enough digits is a number of the format. -/
theorem round_intCast_mul {m e : Int} (hm : |m| ≤ 2 ^ F.digits) (he : F.least ≤ e) :
    F.round (m * 2 ^ e) = m * 2 ^ e := by
  obtain rfl | hNonzero := eq_or_ne m 0
  · rw [Int.cast_zero, zero_mul, round_zero]
  have hq : (m * 2 ^ e : ℚ) ≠ 0 :=
    mul_ne_zero (Int.cast_ne_zero.mpr hNonzero) (two_zpow_pos e).ne'
  obtain hFine | hCoarse := le_or_gt (F.scale (m * 2 ^ e)) e
  · obtain ⟨k, hk⟩ := Int.eq_ofNat_of_zero_le (sub_nonneg.mpr hFine)
    refine round_eq_of_multiple (m := m * 2 ^ k) ?_
    have hSplit : (2 : ℚ) ^ e = 2 ^ k * 2 ^ F.scale (m * 2 ^ e) := by
      rw [← zpow_natCast, ← two_zpow_add, ← hk, sub_add_cancel]
    push_cast
    rw [mul_assoc, ← hSplit]
  · -- only with the largest number of digits, and then the last digit is zero
    have hUsed := le_abs_of_scale hq (he.trans_lt hCoarse)
    have hAbs : |(m * 2 ^ e : ℚ)| = |m| * 2 ^ e := by
      rw [abs_mul, abs_of_pos (two_zpow_pos e), Int.cast_abs]
    have hMost : ((|m| : Int) : ℚ) ≤ 2 ^ (F.digits : Int) := by
      rw [zpow_natCast]
      exact_mod_cast hm
    have hLe : (2 : ℚ) ^ ((F.digits : Int) - 1 + F.scale (m * 2 ^ e)) ≤ 2 ^ (F.digits + e) := by
      calc
        _ ≤ |(m * 2 ^ e : ℚ)| := hUsed
        _ = |m| * 2 ^ e := hAbs
        _ ≤ 2 ^ (F.digits : Int) * 2 ^ e := mul_le_mul_of_nonneg_right hMost (two_zpow_pos e).le
        _ = 2 ^ (F.digits + e) := (two_zpow_add _ _).symm
    have hScale : F.scale (m * 2 ^ e) = e + 1 := by
      have hExponents := two_zpow_le_iff.mp hLe
      omega
    have hFull : |m| = 2 ^ F.digits := by
      apply le_antisymm hm
      have hTop : (F.digits : Int) - 1 + (e + 1) = F.digits + e := by ring
      rw [hScale, hAbs, hTop, two_zpow_add] at hUsed
      have hDigits := le_of_mul_le_mul_right hUsed (two_zpow_pos e)
      rw [zpow_natCast] at hDigits
      exact_mod_cast hDigits
    have hEven : (2 : Int) ∣ m := by
      rw [← dvd_abs, hFull]
      exact dvd_pow_self 2 F.digits_pos.ne'
    obtain ⟨k, rfl⟩ := hEven
    refine round_eq_of_multiple (m := k) ?_
    rw [hScale, two_zpow_add]
    push_cast
    ring

theorem abs_roundEven_scaled_le (q : ℚ) : |roundEven (q / 2 ^ F.scale q)| ≤ 2 ^ F.digits := by
  apply abs_roundEven_le
  rw [abs_div, abs_of_pos (two_zpow_pos _), div_le_iff₀ (two_zpow_pos _)]
  push_cast
  rw [← zpow_natCast, ← two_zpow_add]
  exact (abs_lt_of_scale q).le

theorem round_round (q : ℚ) : F.round (F.round q) = F.round q :=
  round_intCast_mul (abs_roundEven_scaled_le q) (le_max_right _ _)

theorem scale_mono (hPos : 0 < q) (h : q ≤ r) : F.scale q ≤ F.scale r := by
  rw [scale, scale, abs_of_pos hPos, abs_of_pos (hPos.trans_le h)]
  exact max_le_max_right _ (sub_le_sub_right (Int.log_mono_right hPos h) _)

/-- Where the larger number has coarser digits, a power of two lies between the two. -/
theorem round_le_of_scale_lt (hPos : 0 < q) (h : q ≤ r) (hScale : F.scale q < F.scale r) :
    F.round q ≤ F.round r := by
  have hr := hPos.trans_le h
  have hUsed := le_abs_of_scale hr.ne' (lt_of_le_of_lt (le_max_right _ _) hScale)
  have hDigits : (F.digits : Int) - 1 = (F.digits - 1 : Nat) := by
    have := F.digits_pos
    omega
  rw [abs_of_pos hr, two_zpow_add, ← le_div_iff₀ (two_zpow_pos _), hDigits, zpow_natCast] at hUsed
  have hUpper : ((2 ^ (F.digits - 1) : Int) : ℚ) ≤ roundEven (r / 2 ^ F.scale r) := by
    have hMono := roundEven_mono (q := ((2 ^ (F.digits - 1) : Int) : ℚ)) (by exact_mod_cast hUsed)
    rw [roundEven_intCast] at hMono
    exact_mod_cast hMono
  have hLower : (roundEven (q / 2 ^ F.scale q) : ℚ) ≤ 2 ^ (F.digits : Int) := by
    rw [zpow_natCast]
    exact_mod_cast (abs_le.mp (abs_roundEven_scaled_le q)).2
  calc
    F.round q ≤ 2 ^ (F.digits : Int) * 2 ^ F.scale q :=
      mul_le_mul_of_nonneg_right hLower (two_zpow_pos _).le
    _ = 2 ^ (F.digits + F.scale q) := (two_zpow_add _ _).symm
    _ ≤ 2 ^ ((F.digits - 1 : Nat) + F.scale r) := two_zpow_le_iff.mpr (by omega)
    _ = (2 ^ (F.digits - 1) : Int) * 2 ^ F.scale r := by
      rw [two_zpow_add, zpow_natCast]
      push_cast
      rfl
    _ ≤ F.round r := mul_le_mul_of_nonneg_right hUpper (two_zpow_pos _).le

theorem round_mono (hNonneg : 0 ≤ q) (h : q ≤ r) : F.round q ≤ F.round r := by
  obtain rfl | hPos := hNonneg.eq_or_lt
  · have hLeast : 0 ≤ roundEven (r / 2 ^ F.scale r) := by
      rw [← roundEven_intCast 0]
      exact roundEven_mono (by rw [Int.cast_zero]; exact div_nonneg h (two_zpow_pos _).le)
    rw [round_zero]
    exact mul_nonneg (by exact_mod_cast hLeast) (two_zpow_pos _).le
  · obtain hSame | hLt := (scale_mono (F := F) hPos h).eq_or_lt
    · rw [round, round, hSame]
      have hMono : roundEven (q / 2 ^ F.scale r) ≤ roundEven (r / 2 ^ F.scale r) :=
        roundEven_mono (div_le_div_of_nonneg_right h (two_zpow_pos _).le)
      exact mul_le_mul_of_nonneg_right (by exact_mod_cast hMono) (two_zpow_pos _).le
    · exact round_le_of_scale_lt hPos h hLt

/-- A number between two of the format stays between them. -/
theorem round_between {a b : ℚ} (ha : F.round a = a) (hb : F.round b = b) (hNonneg : 0 ≤ a)
    (hLow : a ≤ q) (hHigh : q ≤ b) : a ≤ F.round q ∧ F.round q ≤ b := by
  constructor
  · rw [← ha]
    exact round_mono hNonneg hLow
  · rw [← hb]
    exact round_mono (hNonneg.trans hLow) hHigh

end Rounding

structure Finite (F : BinaryFormat) where
  value : ℚ
  exact : F.round value = value
  small : |value| < 2 ^ F.top

inductive Number (F : BinaryFormat) where
  | finite (x : F.Finite)
  | infinite (negative : Bool)
  | nan

namespace Number

variable {F : BinaryFormat}

/-- The number that stands for the exact result of an operation. -/
def ofRat (q : ℚ) : F.Number :=
  if h : |F.round q| < 2 ^ F.top then .finite ⟨F.round q, round_round q, h⟩
  else .infinite (decide (q < 0))

theorem ofRat_of_small {q : ℚ} (h : |F.round q| < 2 ^ F.top) :
    ofRat q = .finite ⟨F.round q, round_round q, h⟩ := dif_pos h

def mul : F.Number → F.Number → F.Number
  | .nan, _ => .nan
  | _, .nan => .nan
  | .finite x, .finite y => ofRat (x.value * y.value)
  | .finite x, .infinite s | .infinite s, .finite x =>
    if x.value = 0 then .nan else .infinite (s ^^ decide (x.value < 0))
  | .infinite s, .infinite t => .infinite (s ^^ t)

def div : F.Number → F.Number → F.Number
  | .nan, _ => .nan
  | _, .nan => .nan
  | .finite x, .finite y =>
    if y.value = 0 then if x.value = 0 then .nan else .infinite (decide (x.value < 0))
    else ofRat (x.value / y.value)
  | .finite _, .infinite _ => ofRat 0
  | .infinite s, .finite y => .infinite (s ^^ decide (y.value < 0))
  | .infinite _, .infinite _ => .nan

def add : F.Number → F.Number → F.Number
  | .nan, _ => .nan
  | _, .nan => .nan
  | .finite x, .finite y => ofRat (x.value + y.value)
  | .finite _, .infinite s | .infinite s, .finite _ => .infinite s
  | .infinite s, .infinite t => if s = t then .infinite s else .nan

def neg : F.Number → F.Number
  | .nan => .nan
  | .finite x => ofRat (-x.value)
  | .infinite s => .infinite (!s)

/-- No comparison with NaN holds. -/
def lt : F.Number → F.Number → Bool
  | .nan, _ => false
  | _, .nan => false
  | .finite x, .finite y => x.value < y.value
  | .finite _, .infinite s => !s
  | .infinite s, .finite _ => s
  | .infinite s, .infinite t => s && !t

instance : Mul F.Number := ⟨mul⟩
instance : Div F.Number := ⟨div⟩
instance : Add F.Number := ⟨add⟩
instance : Sub F.Number := ⟨fun x y => add x (neg y)⟩
instance : LT F.Number := ⟨fun x y => lt x y = true⟩

instance : DecidableLT F.Number := fun x y => inferInstanceAs (Decidable (lt x y = true))

def finite? : F.Number → Option F.Number
  | .finite x => some (.finite x)
  | _ => none

/-- Rounding towards zero, which is refused for what is not finite. -/
def toInt? : F.Number → Option Int
  | .finite x => some (truncate x.value)
  | _ => none

/-- The rounding of an exact result does not lead to the next integer, when a number of the format
is in between. -/
theorem toInt?_ofRat {q b : ℚ} {n : Nat} (hn : F.round n = n) (hb : F.round b = b)
    (hLow : n ≤ q) (hHigh : q ≤ b) (hNext : b < n + 1) (hTop : b < 2 ^ F.top) :
    (ofRat q : F.Number).toInt? = some (n : Int) := by
  have hNonneg : (0 : ℚ) ≤ n := Nat.cast_nonneg n
  obtain ⟨hFloor, hCeil⟩ := round_between hn hb hNonneg hLow hHigh
  have hSmall : |F.round q| < 2 ^ F.top := by
    rw [abs_of_nonneg (hNonneg.trans hFloor)]
    exact hCeil.trans_lt hTop
  have hTruncate : truncate (F.round q) = n := by
    rw [truncate_of_nonneg (hNonneg.trans hFloor), Int.floor_eq_iff]
    exact ⟨by exact_mod_cast hFloor, by exact_mod_cast hCeil.trans_lt hNext⟩
  rw [ofRat_of_small hSmall]
  exact congrArg some hTruncate

end Number

end BinaryFormat

def binary64 : BinaryFormat where
  digits := 53
  digits_pos := by decide
  least := -1074
  top := 1024

abbrev Double := binary64.Number

end Ebacs.Lib
