import WorkloadReplay.Double.Basic
import Mathlib.Algebra.Order.Field.Power
import Mathlib.Data.Int.Log
import Mathlib.Data.Rat.Floor
import Mathlib.Tactic.FieldSimp
import Mathlib.Tactic.Linarith
import Mathlib.Tactic.Positivity
import Mathlib.Tactic.Ring

/-!
# Rounding leaves double precision numbers as they are

The order that rounding starts from is the binary logarithm of the ratio, so a ratio with the value
`significand * 2 ^ scale` of a finite number is rounded to the magnitude of that number, in whatever
terms the ratio is given.
-/

namespace WorkloadReplay.Double

theorem power_snd_pos {b : Nat} (hb : 0 < b) (i : Int) : 0 < (power b i).2 := by
  simpa [power] using Nat.pow_pos hb

theorem power_fst_pos {b : Nat} (hb : 0 < b) (i : Int) : 0 < (power b i).1 := by
  simpa [power] using Nat.pow_pos hb

theorem power_ratio {b : Nat} (hb : 0 < b) (i : Int) :
    ((power b i).1 : ℚ) / (power b i).2 = (b : ℚ) ^ i := by
  have hb' : (b : ℚ) ≠ 0 := by positivity
  cases i with
  | ofNat n => simp [power, Int.toNat_neg_natCast]
  | negSucc n =>
    have h₁ : (Int.negSucc n).toNat = 0 := rfl
    simp [power, h₁, zpow_negSucc]

theorem zpow_log2_le_div {num den : Nat} (hn : num ≠ 0) (hd : den ≠ 0) :
    (2 : ℚ) ^ ((Nat.log2 num : ℤ) - Nat.log2 den - 1) ≤ num / den := by
  have hd' : (0 : ℚ) < den := by positivity
  have hnum : (2 : ℚ) ^ Nat.log2 num ≤ num := by exact_mod_cast Nat.log2_self_le hn
  have hden : (den : ℚ) < 2 ^ (Nat.log2 den + 1) := by exact_mod_cast Nat.lt_log2_self
  rw [le_div_iff₀ hd']
  calc (2 : ℚ) ^ ((Nat.log2 num : ℤ) - Nat.log2 den - 1) * den
      ≤ 2 ^ ((Nat.log2 num : ℤ) - Nat.log2 den - 1) * 2 ^ (Nat.log2 den + 1) := by gcongr
    _ = 2 ^ Nat.log2 num := by
      rw [← zpow_natCast, ← zpow_natCast, ← zpow_add₀ (by norm_num)]
      congr 1
      push_cast
      ring
    _ ≤ num := hnum

theorem div_lt_zpow_log2 {num den : Nat} (hd : den ≠ 0) :
    (num : ℚ) / den < 2 ^ ((Nat.log2 num : ℤ) - Nat.log2 den + 1) := by
  have hd' : (0 : ℚ) < den := by positivity
  have hnum : (num : ℚ) < 2 ^ (Nat.log2 num + 1) := by exact_mod_cast Nat.lt_log2_self
  have hden : (2 : ℚ) ^ Nat.log2 den ≤ den := by exact_mod_cast Nat.log2_self_le hd
  rw [div_lt_iff₀ hd']
  calc (num : ℚ) < 2 ^ (Nat.log2 num + 1) := hnum
    _ = 2 ^ ((Nat.log2 num : ℤ) - Nat.log2 den + 1) * 2 ^ Nat.log2 den := by
      rw [← zpow_natCast, ← zpow_natCast, ← zpow_add₀ (by norm_num)]
      congr 1
      push_cast
      ring
    _ ≤ 2 ^ ((Nat.log2 num : ℤ) - Nat.log2 den + 1) * den := by gcongr

/-- Rounding starts from the binary logarithm. -/
theorem binaryOrder_eq_log {num den : Nat} (hn : num ≠ 0) (hd : den ≠ 0) :
    binaryOrder num den = Int.log 2 ((num : ℚ) / den) := by
  have hd' : (0 : ℚ) < den := by positivity
  have hx : (0 : ℚ) < num / den := by positivity
  have hlow := zpow_log2_le_div hn hd
  have hhigh : (num : ℚ) / den < _ := div_lt_zpow_log2 hd
  set a := Nat.log2 num
  set b := Nat.log2 den
  have hp : (0 : ℚ) < (power 2 ((a : ℤ) - b)).2 := by exact_mod_cast power_snd_pos (by norm_num) _
  have hguess : (num * (power 2 ((a : ℤ) - b)).2 < den * (power 2 ((a : ℤ) - b)).1) ↔
      (num : ℚ) / den < 2 ^ ((a : ℤ) - b) := by
    have hr := power_ratio (b := 2) (by norm_num) ((a : ℤ) - b)
    push_cast at hr
    rw [← hr, div_lt_div_iff₀ hd' hp, mul_comm ((power 2 ((a : ℤ) - b)).1 : ℚ)]
    exact_mod_cast Iff.rfl
  have hone : (1 : ℕ) < 2 := by norm_num
  have low := (Int.zpow_le_iff_le_log hone hx (x := (a : ℤ) - b - 1)).mp (by exact_mod_cast hlow)
  have high := (Int.lt_zpow_iff_log_lt hone hx (x := (a : ℤ) - b + 1)).mp (by exact_mod_cast hhigh)
  have mid := Int.lt_zpow_iff_log_lt hone hx (x := (a : ℤ) - b)
  push_cast at mid
  change (if num * (power 2 ((a : ℤ) - b)).2 < den * (power 2 ((a : ℤ) - b)).1
    then (a : ℤ) - b - 1 else (a : ℤ) - b) = _
  split
  · rename_i h
    have := mid.mp (hguess.mp h)
    omega
  · rename_i h
    have : ¬ Int.log 2 ((num : ℚ) / den) < (a : ℤ) - b := fun hl => h (hguess.mpr (mid.mpr hl))
    omega

theorem roundEven_mul (n : Nat) {den : Nat} (hd : 0 < den) : roundEven (n * den) den = n := by
  simp [roundEven, Nat.mul_div_cancel _ hd, Nat.ne_of_lt hd]

/-- A value with at most 53 binary digits, on the grid of its order, is rounded to itself. -/
theorem nearest_of_exact {num den significand : Nat} {scale : Int} (hd : 0 < den)
    (hs : significand ≠ 0) (hvalue : (num : ℚ) / den = significand * 2 ^ scale)
    (hleast : -1074 ≤ scale) (hsmall : significand < 2 ^ 53)
    (hnormal : 2 ^ 52 ≤ significand ∨ scale = -1074) :
    nearest num den =
      min infiniteMagnitude ((scale + 1074).toNat * exponentWeight + significand) := by
  have hd' : (0 : ℚ) < den := by positivity
  have hs' : (0 : ℚ) < significand := by positivity
  have hx : (0 : ℚ) < num / den := by rw [hvalue]; positivity
  have hn : num ≠ 0 := by
    rintro rfl
    simp at hx
  have hone : (1 : ℕ) < 2 := by norm_num
  have horder := binaryOrder_eq_log hn hd.ne'
  have hhigh : binaryOrder num den < 53 + scale := by
    rw [horder, ← Int.lt_zpow_iff_log_lt hone hx, hvalue, zpow_add₀ (by norm_num)]
    push_cast
    gcongr
    exact_mod_cast hsmall
  have hunit : max (binaryOrder num den - 52) (-1074) = scale := by
    rcases hnormal with hbig | rfl
    · have hlow : 52 + scale ≤ binaryOrder num den := by
        rw [horder, ← Int.zpow_le_iff_le_log hone hx, hvalue, zpow_add₀ (by norm_num)]
        push_cast
        gcongr
        exact_mod_cast hbig
      omega
    · omega
  have hp : (0 : ℚ) < (power 2 scale).2 := by exact_mod_cast power_snd_pos (by norm_num) _
  have hscaled : num * (power 2 scale).2 = significand * (den * (power 2 scale).1) := by
    have hr := power_ratio (b := 2) (by norm_num) scale
    push_cast at hr
    rw [← hr, div_eq_iff hd'.ne'] at hvalue
    have : (num : ℚ) * (power 2 scale).2 = significand * (den * (power 2 scale).1) := by
      rw [hvalue]
      field_simp
    exact_mod_cast this
  have hden : 0 < den * (power 2 scale).1 := Nat.mul_pos hd (power_fst_pos (by norm_num) _)
  simp only [nearest, hn, if_false, hunit, hscaled, roundEven_mul _ hden]

theorem fraction_lt (x : Double) : x.fraction < exponentWeight := Nat.mod_lt _ (by decide)

theorem magnitude_fields (x : Double) :
    x.magnitude = exponentWeight * x.exponentField + x.fraction :=
  (Nat.div_add_mod x.magnitude exponentWeight).symm

theorem significand_lt (x : Double) : x.significand < 2 ^ 53 := by
  have hf : x.fraction < 2 ^ 52 := x.fraction_lt
  by_cases h : x.exponentField = 0
  · simp only [significand, h, if_true]
    omega
  · simp only [significand, h, if_false, exponentWeight]
    omega

theorem significand_ne_zero {x : Double} (h₀ : x.magnitude ≠ 0) : x.significand ≠ 0 := by
  by_cases h : x.exponentField = 0
  · simpa [significand, h, magnitude_fields x] using h₀
  · simp [significand, h, exponentWeight]

/-- The magnitude of a number, from its scale and its significand. -/
theorem magnitude_eq (x : Double) :
    (x.scale + 1074).toNat * exponentWeight + x.significand = x.magnitude := by
  have he : (x.scale + 1074).toNat = max 1 x.exponentField - 1 := by
    simp only [scale]
    omega
  rw [he, magnitude_fields x]
  by_cases h : x.exponentField = 0
  · simp [significand, h]
  · simp only [significand, h, if_false, exponentWeight]
    omega

/-- Rounding a ratio with the value of a finite number gives the magnitude of that number. -/
theorem nearest_of_value {x : Double} (hx : x.isFinite = true) (h₀ : x.magnitude ≠ 0)
    {num den : Nat} (hd : 0 < den) (hvalue : (num : ℚ) / den = x.significand * 2 ^ x.scale) :
    nearest num den = x.magnitude := by
  have hscale : -1074 ≤ x.scale := by
    simp only [scale]
    omega
  have hnormal : 2 ^ 52 ≤ x.significand ∨ x.scale = -1074 := by
    unfold significand scale
    split
    · right
      simp [*]
    · left
      simp only [exponentWeight]
      omega
  rw [nearest_of_exact hd (significand_ne_zero h₀) hvalue hscale x.significand_lt hnormal,
    magnitude_eq]
  simp only [isFinite, decide_eq_true_eq] at hx
  omega

/-- A decimal number with the value of a finite number is read as its magnitude. -/
theorem ofDecimal_of_value {x : Double} (hx : x.isFinite = true) (h₀ : x.magnitude ≠ 0)
    {digits : Nat} {exponent : Int}
    (hvalue : (digits : ℚ) * 10 ^ exponent = x.significand * 2 ^ x.scale) :
    ofDecimal digits exponent = x.magnitude := by
  apply nearest_of_value hx h₀ (power_snd_pos (by norm_num) _)
  have hr := power_ratio (b := 10) (by norm_num) exponent
  push_cast at hr
  rw [← hvalue, ← hr]
  push_cast
  exact mul_div_assoc _ _ _

end WorkloadReplay.Double
