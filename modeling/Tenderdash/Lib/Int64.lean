import Mathlib.Data.Int.Init
import Mathlib.Algebra.Order.Ring.Int

/-!
# Go's `int64` on the integers

An `int64` is an integer in `[minValue, maxValue]`.  Go's arithmetic on it wraps
around in two's complement where the exact result leaves the range (`wrap`), and its
`/` truncates towards zero, which is `Int.tdiv`.  Code that guards against overflow
(saturating additions, ranges kept far below the limits) is proved safe by showing
that the exact result stays in range, where `wrap` is the identity.

The second half is about truncating division by a positive divisor: it is monotone
and never grows a value, and it shrinks the distance between two values to at most
the rounded-up quotient of their distance.  Rescaling a set of values by a common
divisor rests on these.
-/

namespace I64

/-- `math.MinInt64`. -/
def minValue : ℤ := -9223372036854775808

/-- `math.MaxInt64`. -/
def maxValue : ℤ := 9223372036854775807

/-- The integer is an `int64`. -/
def InRange (x : ℤ) : Prop := minValue ≤ x ∧ x ≤ maxValue

instance : DecidablePred InRange := fun x ↦
  inferInstanceAs (Decidable (minValue ≤ x ∧ x ≤ maxValue))

/-- Two's-complement wrap-around of an exact result onto `int64`. -/
def wrap (x : ℤ) : ℤ := (x + 9223372036854775808) % 18446744073709551616 - 9223372036854775808

@[simp] theorem wrap_of_inRange {x : ℤ} (h : InRange x) : wrap x = x := by
  unfold InRange minValue maxValue at h
  unfold wrap
  omega

/-! ## Truncating division by a positive divisor -/

section tdiv

variable {a b r : ℤ}

/-- The quotient of a non-negative value, times the divisor, does not exceed it. -/
theorem tdiv_mul_le_of_nonneg (hr : 0 < r) (ha : 0 ≤ a) : a.tdiv r * r ≤ a := by
  have h := Int.tdiv_mul_le a (Int.ne_of_gt hr)
  simpa [ha] using h

/-- The quotient of a non-positive value, times the divisor, is not below it. -/
theorem le_tdiv_mul_of_nonpos (hr : 0 < r) (ha : a ≤ 0) : a ≤ a.tdiv r * r := by
  have h := tdiv_mul_le_of_nonneg hr (Int.neg_nonneg_of_nonpos ha)
  rw [Int.neg_tdiv, Int.neg_mul] at h
  omega

/-- The quotient of a negative value, times the divisor, is below it plus the divisor. -/
theorem tdiv_mul_lt_of_neg (hr : 0 < r) (ha : a < 0) : a.tdiv r * r < a + r := by
  have h := Int.tdiv_mul_le a (Int.ne_of_gt hr)
  have hnot : ¬ 0 ≤ a := Int.not_le.mpr ha
  simp only [hnot, if_false] at h
  omega

/-- The quotient of any value, times the divisor, is above it minus the divisor. -/
theorem sub_lt_tdiv_mul (hr : 0 < r) (a : ℤ) : a - r < a.tdiv r * r := by
  have h := Int.lt_tdiv_add_one_mul_self a hr
  rw [Int.add_mul, Int.one_mul] at h
  omega

/-- Truncating division never grows a value's magnitude. -/
theorem natAbs_tdiv_le (a r : ℤ) : (a.tdiv r).natAbs ≤ a.natAbs := Int.natAbs_tdiv_le_natAbs a r

/-- Division keeps a value inside any range around zero. -/
theorem tdiv_mem_of_mem {B : ℤ} (hr : 0 < r) (h₁ : -B ≤ a) (h₂ : a ≤ B) :
    -B ≤ a.tdiv r ∧ a.tdiv r ≤ B := by
  have h := natAbs_tdiv_le a r
  have hr' := hr
  omega

/-- Distances shrink under division: values at most `d * r` apart have quotients at
most `d` apart. -/
theorem tdiv_sub_tdiv_le {d : ℤ} (hr : 0 < r) (hd : 0 ≤ d) (h : a - b ≤ d * r) :
    a.tdiv r - b.tdiv r ≤ d := by
  rcases Int.le_total a b with hab | hba
  · have := Int.tdiv_le_tdiv hr hab
    omega
  · have key : (a.tdiv r - b.tdiv r) * r < (d + 1) * r := by
      rw [Int.sub_mul, Int.add_mul, Int.one_mul]
      rcases Int.lt_or_le b 0 with hb | hb
      · have h₂ := le_tdiv_mul_of_nonpos hr (Int.le_of_lt hb)
        rcases Int.lt_or_le a 0 with ha | ha
        · have h₁ := tdiv_mul_lt_of_neg hr ha
          omega
        · have h₁ := tdiv_mul_le_of_nonneg hr ha
          omega
      · have h₁ := tdiv_mul_le_of_nonneg hr (le_trans hb hba)
        have h₂ := sub_lt_tdiv_mul hr b
        omega
    have := Int.lt_of_mul_lt_mul_right key (Int.le_of_lt hr)
    omega

end tdiv

end I64
