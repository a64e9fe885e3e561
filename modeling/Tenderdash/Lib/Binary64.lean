import Mathlib.Algebra.Order.Round
import Mathlib.Data.Int.Log
import Mathlib.Data.Rat.Floor

/-!
# Rounding to `binary64`

IEEE 754 double precision holds a nonzero number as a 53-bit significand times a power of
two, and rounds the exact result of each operation to the nearest such number, ties to the
one whose significand is even.  Over the rationals, away from overflow and from the
subnormal range, that rounding is `Binary64.nearest`: scale the number so that its leading
bit has weight `2 ^ 52`, round to an integer, ties to even, and scale back.

`nearest` keeps zero, is monotone on the nonnegative numbers and fixes the integers below
`2 ^ 53`; these are the facts the uses of `float64` here rely on.  `goRound` is the
rounding of Go's `math.Round`: to the nearest integer, ties away from zero.
-/

namespace Binary64

/-- The nearest integer, ties to the even one. -/
def roundEven (x : ℚ) : ℤ :=
  if x - ⌊x⌋ < 1 / 2 then ⌊x⌋
  else if 1 / 2 < x - ⌊x⌋ then ⌊x⌋ + 1
  else if ⌊x⌋ % 2 = 0 then ⌊x⌋ else ⌊x⌋ + 1

/-- The exponent of the leading bit of a nonzero number: `2 ^ e ≤ |x| < 2 ^ (e + 1)`. -/
def exponent (x : ℚ) : ℤ := Int.log 2 |x|

/-- `x` rounded to 53 significant bits, ties to even. -/
def nearest (x : ℚ) : ℚ :=
  if x = 0 then 0
  else roundEven (x * 2 ^ (52 - exponent x)) * 2 ^ (exponent x - 52)

/-- `math.Round`: the nearest integer, ties away from zero. -/
def goRound (x : ℚ) : ℤ := if x < 0 then -⌊-x + 1 / 2⌋ else ⌊x + 1 / 2⌋

/-! ## Rounding to an integer -/

theorem roundEven_le (x : ℚ) : (roundEven x : ℚ) ≤ x + 1 / 2 := by
  have hlo := Int.floor_le x
  unfold roundEven
  split_ifs <;> push_cast <;> linarith

theorem le_roundEven (x : ℚ) : x - 1 / 2 ≤ roundEven x := by
  have hhi := Int.lt_floor_add_one x
  unfold roundEven
  split_ifs <;> push_cast <;> linarith

@[simp] theorem roundEven_intCast (k : ℤ) : roundEven k = k := by
  simp [roundEven]

/-- Rounding to an integer is monotone: two roundings a step apart would put the two numbers
at distance one, with each at the half between them. -/
theorem roundEven_mono {x y : ℚ} (h : x ≤ y) : roundEven x ≤ roundEven y := by
  by_contra hlt
  have hstep : (roundEven y : ℚ) + 1 ≤ roundEven x := by
    exact_mod_cast (show roundEven y + 1 ≤ roundEven x by omega)
  have hx := roundEven_le x
  have hy := le_roundEven y
  have hxy : x = y := by linarith
  subst hxy
  exact hlt le_rfl

/-! ## Rounding to 53 bits -/

@[simp] theorem nearest_zero : nearest 0 = 0 := by simp [nearest]

theorem exponent_spec {x : ℚ} (hx : 0 < x) :
    (2 : ℚ) ^ exponent x ≤ x ∧ x < 2 ^ (exponent x + 1) := by
  unfold exponent
  rw [abs_of_pos hx]
  exact ⟨Int.zpow_log_le_self (by norm_num) hx, Int.lt_zpow_succ_log_self (by norm_num) x⟩

/-- The significand of a positive number, scaled to `[2 ^ 52, 2 ^ 53)`. -/
theorem significand_mem {x : ℚ} (hx : 0 < x) :
    (2 : ℚ) ^ 52 ≤ x * 2 ^ (52 - exponent x) ∧ x * 2 ^ (52 - exponent x) < 2 ^ 53 := by
  obtain ⟨hlo, hhi⟩ := exponent_spec hx
  have hpos : (0 : ℚ) < 2 ^ (52 - exponent x) := zpow_pos (by norm_num) _
  have h52 : (2 : ℚ) ^ 52 = 2 ^ exponent x * 2 ^ (52 - exponent x) := by
    rw [← zpow_add₀ two_ne_zero, add_sub_cancel, zpow_ofNat]
  have h53 : (2 : ℚ) ^ 53 = 2 ^ (exponent x + 1) * 2 ^ (52 - exponent x) := by
    rw [← zpow_add₀ two_ne_zero, show exponent x + 1 + (52 - exponent x) = 53 by ring, zpow_ofNat]
  rw [h52, h53]
  exact ⟨mul_le_mul_of_nonneg_right hlo hpos.le, mul_lt_mul_of_pos_right hhi hpos⟩

/-- A positive number rounds to a number of its binade or to the next power of two. -/
theorem nearest_mem {x : ℚ} (hx : 0 < x) :
    (2 : ℚ) ^ exponent x ≤ nearest x ∧ nearest x ≤ 2 ^ (exponent x + 1) := by
  obtain ⟨hlo, hhi⟩ := significand_mem hx
  have hr₁ : (2 : ℚ) ^ 52 ≤ roundEven (x * 2 ^ (52 - exponent x)) := by
    have := roundEven_mono hlo
    rw [show (2 : ℚ) ^ 52 = ((2 ^ 52 : ℤ) : ℚ) by norm_num, roundEven_intCast] at this
    exact_mod_cast this
  have hr₂ : (roundEven (x * 2 ^ (52 - exponent x)) : ℚ) ≤ 2 ^ 53 := by
    have := roundEven_mono hhi.le
    rw [show (2 : ℚ) ^ 53 = ((2 ^ 53 : ℤ) : ℚ) by norm_num, roundEven_intCast] at this
    exact_mod_cast this
  have hpos : (0 : ℚ) < 2 ^ (exponent x - 52) := zpow_pos (by norm_num) _
  have h₁ : (2 : ℚ) ^ exponent x = 2 ^ 52 * 2 ^ (exponent x - 52) := by
    rw [← zpow_ofNat, ← zpow_add₀ two_ne_zero, show (52 : ℤ) + (exponent x - 52) = exponent x by
      ring]
  have h₂ : (2 : ℚ) ^ (exponent x + 1) = 2 ^ 53 * 2 ^ (exponent x - 52) := by
    rw [← zpow_ofNat, ← zpow_add₀ two_ne_zero, show (53 : ℤ) + (exponent x - 52) = exponent x + 1
      by ring]
  unfold nearest
  rw [if_neg hx.ne', h₁, h₂]
  exact ⟨mul_le_mul_of_nonneg_right hr₁ hpos.le, mul_le_mul_of_nonneg_right hr₂ hpos.le⟩

theorem nearest_nonneg {x : ℚ} (hx : 0 ≤ x) : 0 ≤ nearest x := by
  rcases hx.eq_or_lt with rfl | hx
  · simp
  · exact le_trans (zpow_pos (by norm_num) _).le (nearest_mem hx).1

/-- Rounding is monotone on the nonnegative numbers: within a binade it rounds scaled
numbers alike, and across binades the lower rounds to at most the power of two that the
upper is at least. -/
theorem nearest_mono {x y : ℚ} (hx : 0 ≤ x) (h : x ≤ y) : nearest x ≤ nearest y := by
  rcases hx.eq_or_lt with rfl | hx
  · exact nearest_zero ▸ nearest_nonneg h
  have hy := hx.trans_le h
  have he : exponent x ≤ exponent y := Int.log_mono_right (abs_pos.mpr hx.ne') (by
    rwa [abs_of_pos hx, abs_of_pos hy])
  rcases he.eq_or_lt with he | he
  · unfold nearest
    rw [if_neg hx.ne', if_neg hy.ne', he]
    have hs : x * 2 ^ (52 - exponent y) ≤ y * 2 ^ (52 - exponent y) :=
      mul_le_mul_of_nonneg_right h (zpow_pos (by norm_num) _).le
    exact mul_le_mul_of_nonneg_right (by exact_mod_cast roundEven_mono hs)
      (zpow_pos (by norm_num) _).le
  · calc nearest x ≤ 2 ^ (exponent x + 1) := (nearest_mem hx).2
      _ ≤ 2 ^ exponent y := zpow_le_zpow_right₀ (by norm_num) he
      _ ≤ nearest y := (nearest_mem hy).1

/-- An integer below `2 ^ 53` is a `float64`: its scaled significand is an integer. -/
theorem nearest_intCast {k : ℤ} (h0 : 0 ≤ k) (hk : k < 2 ^ 53) : nearest k = k := by
  rcases h0.eq_or_lt with rfl | hpos
  · simp
  have hkq : (0 : ℚ) < k := by exact_mod_cast hpos
  obtain ⟨hlo, hhi⟩ := exponent_spec hkq
  have hexp : 0 ≤ exponent k := by
    by_contra hneg
    have : (2 : ℚ) ^ (exponent k + 1) ≤ 1 := zpow_le_one_of_nonpos₀ (by norm_num) (by omega)
    have : (1 : ℚ) ≤ k := by exact_mod_cast hpos
    linarith
  have hexp' : exponent k ≤ 52 := by
    by_contra hbig
    have h53 : (2 : ℚ) ^ (53 : ℤ) ≤ 2 ^ exponent k := zpow_le_zpow_right₀ (by norm_num) (by omega)
    have : (k : ℚ) < 2 ^ (53 : ℤ) := by exact_mod_cast hk
    linarith
  obtain ⟨d, hd⟩ : ∃ d : ℕ, 52 - exponent k = d := ⟨(52 - exponent k).toNat, by omega⟩
  have hsig : (k : ℚ) * 2 ^ (52 - exponent k) = ((k * 2 ^ d : ℤ) : ℚ) := by
    rw [hd]
    push_cast
    rfl
  unfold nearest
  rw [if_neg hkq.ne', hsig, roundEven_intCast]
  push_cast
  rw [mul_assoc, ← zpow_natCast, ← zpow_add₀ (by norm_num), ← hd]
  simp

/-! ## Go's `math.Round` -/

theorem goRound_nonneg {x : ℚ} (hx : 0 ≤ x) : 0 ≤ goRound x := by
  unfold goRound
  rw [if_neg (not_lt.mpr hx)]
  exact Int.floor_nonneg.mpr (by linarith)

theorem goRound_le_intCast {x : ℚ} {n : ℤ} (hx : 0 ≤ x) (h : x ≤ n) : goRound x ≤ n := by
  unfold goRound
  rw [if_neg (not_lt.mpr hx)]
  exact Int.floor_le_iff.mpr (by linarith)

end Binary64
