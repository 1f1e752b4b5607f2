import Mathlib
import FiniteRings.Evaluation.Ring

/-!
# Truncated division of integers

The integer ring of an evaluator divides with truncation toward zero. `truncQuot a b` divides the
magnitudes and negates the quotient when the signs differ; the remainder is what that quotient
leaves, `a - b * truncQuot a b`. The quotient is `Int.tdiv` (`truncQuot_eq_tdiv`) and the
remainder `Int.tmod`, so the remainder is smaller than the divisor in magnitude and is zero or
has the sign of the dividend.

Any quotient whose remainder has these two properties is the rational `a / b` rounded toward
zero: its floor when `a / b ≥ 0` and its ceiling otherwise (`eq_round_toward_zero`). Together,
for every dividend and every nonzero divisor the ring's quotient is `a / b` rounded toward zero
and its remainder `a - b * q` is bounded and signed as above; for the divisor zero both fail
with a division by zero (`int_div_rem_truncate`).
-/

namespace FiniteRings.NumericRing

/-- The magnitudes divided and the sign put back is `Int.tdiv`. -/
theorem truncQuot_eq_tdiv (a b : Int) : truncQuot a b = a.tdiv b := by
  cases a <;> cases b <;> simp [truncQuot, Int.tdiv, Int.negSucc_lt_zero, (Int.natCast_nonneg _).not_gt]

theorem sub_mul_truncQuot (a b : Int) : a - b * truncQuot a b = a.tmod b := by
  rw [truncQuot_eq_tdiv, Int.tmod_def]

/-- The remainder is smaller than the divisor in magnitude. -/
theorem natAbs_tmod_lt (a : Int) {b : Int} (hb : b ≠ 0) : (a.tmod b).natAbs < b.natAbs := by
  rw [Int.natAbs_tmod]
  exact Nat.mod_lt _ (Int.natAbs_pos.2 hb)

/-- The remainder is zero or has the sign of the dividend. -/
theorem tmod_eq_zero_or_sign_eq (a b : Int) : a.tmod b = 0 ∨ (a.tmod b).sign = a.sign := by
  rcases lt_trichotomy a 0 with ha | rfl | ha
  · -- a negative dividend leaves the negated remainder of its magnitude
    have h := Int.tmod_nonneg b (Int.neg_nonneg.2 ha.le)
    rw [Int.neg_tmod] at h
    rcases (Int.neg_nonneg.1 h).lt_or_eq with hr | hr
    · exact .inr (by rw [Int.sign_eq_neg_one_of_neg hr, Int.sign_eq_neg_one_of_neg ha])
    · exact .inl hr
  · exact .inl (Int.zero_tmod b)
  · rcases (Int.tmod_nonneg b ha.le).lt_or_eq with hr | hr
    · exact .inr (by rw [Int.sign_eq_one_of_pos hr, Int.sign_eq_one_of_pos ha])
    · exact .inl hr.symm

/-- An integer that differs from `x` by a fraction of magnitude below one, zero or of the sign
of `x`, is `x` rounded toward zero. -/
theorem eq_round_of_frac {x f : ℚ} {q : Int} (hx : x = q + f) (hf : |f| < 1)
    (hs : f = 0 ∨ 0 < f * x) : q = if 0 ≤ x then ⌊x⌋ else ⌈x⌉ := by
  obtain ⟨hf₁, hf₂⟩ := abs_lt.1 hf
  rcases hs with rfl | hfx
  · rw [add_zero] at hx
    split_ifs <;> simp [hx]
  split_ifs with hx0
  · have hfpos : 0 < f := pos_of_mul_pos_left hfx hx0
    rw [eq_comm, Int.floor_eq_iff, hx]
    constructor <;> linarith
  · have hfneg : f < 0 := neg_of_mul_pos_left hfx (le_of_not_ge hx0)
    rw [eq_comm, Int.ceil_eq_iff, hx]
    constructor <;> linarith

/-- A quotient whose remainder is smaller than the divisor in magnitude and is zero or of the
sign of the dividend is `a / b` rounded toward zero. -/
theorem eq_round_toward_zero {a b q r : Int} (hb : b ≠ 0) (hq : a = b * q + r)
    (hr : r.natAbs < b.natAbs) (hs : r = 0 ∨ r.sign = a.sign) :
    q = if 0 ≤ (a : ℚ) / b then ⌊(a : ℚ) / b⌋ else ⌈(a : ℚ) / b⌉ := by
  have hbq : (b : ℚ) ≠ 0 := Int.cast_ne_zero.2 hb
  -- `a / b` is `q` plus the fraction `r / b`
  refine eq_round_of_frac (f := (r : ℚ) / b) ?_ ?_ ?_
  · rw [hq]
    push_cast
    field_simp
  · have : |r| < |b| := by
      rw [Int.abs_eq_natAbs, Int.abs_eq_natAbs]
      exact_mod_cast hr
    rw [abs_div, div_lt_one (abs_pos.2 hbq)]
    exact_mod_cast this
  · -- a nonzero remainder has the sign of `a`, so the fraction has the sign of `a / b`
    by_cases hr0 : r = 0
    · simp [hr0]
    right
    have hra : 0 < r * a := by
      rw [← Int.sign_eq_one_iff_pos, Int.sign_mul, ← hs.resolve_left hr0, ← Int.sign_mul,
        Int.sign_eq_one_iff_pos]
      exact mul_self_pos.2 hr0
    rw [div_mul_div_comm]
    exact div_pos (by exact_mod_cast hra) (mul_self_pos.2 hbq)

/-- The integer ring divides with truncation toward zero: for a nonzero divisor the quotient is
`a / b` rounded toward zero, and the remainder `r = a - b * q` is smaller than the divisor in
magnitude and is zero or has the sign of the dividend; for the divisor zero the quotient and the
remainder both fail with a division by zero. -/
theorem int_div_rem_truncate (a b : Int) :
    (b ≠ 0 → ∃ q r : Int, int.div a b = .ok q ∧ int.rem a b = .ok r ∧
      q = (if 0 ≤ (a : ℚ) / b then ⌊(a : ℚ) / b⌋ else ⌈(a : ℚ) / b⌉) ∧
      r = a - b * q ∧ |r| < |b| ∧ (r = 0 ∨ r.sign = a.sign)) ∧
    (b = 0 → int.div a b = .error .zeroDivisionInRing ∧ int.rem a b = .error .remainderByZero ∧
      Error.kind .zeroDivisionInRing = .zeroDivision ∧ Error.kind .remainderByZero = .zeroDivision) := by
  constructor
  · intro hb
    have hr := natAbs_tmod_lt a hb
    have hs := tmod_eq_zero_or_sign_eq a b
    rw [← sub_mul_truncQuot] at hr hs
    refine ⟨truncQuot a b, a - b * truncQuot a b, by simp [div, hb], by simp [rem, hb],
      eq_round_toward_zero hb (by ring) hr hs, rfl, ?_, hs⟩
    simp only [Int.abs_eq_natAbs]
    exact_mod_cast hr
  · rintro rfl
    exact ⟨by simp [div], by simp [rem], rfl, rfl⟩

/-- Minus seven by two: the quotient rounds toward zero to `-3` and leaves `-1`, of the sign of
the dividend; and five by zero fails. -/
theorem int_div_rem_truncate_seven_two :
    ((2 : Int) ≠ 0 ∧ ∃ q r : Int, int.div (-7) 2 = .ok q ∧ int.rem (-7) 2 = .ok r ∧
      q = (if 0 ≤ ((-7 : Int) : ℚ) / (2 : Int) then ⌊((-7 : Int) : ℚ) / (2 : Int)⌋
        else ⌈((-7 : Int) : ℚ) / (2 : Int)⌉) ∧
      r = -7 - 2 * q ∧ |r| < |2| ∧ (r = 0 ∨ r.sign = (-7 : Int).sign)) ∧
    ((0 : Int) = 0 ∧ int.div 5 0 = .error .zeroDivisionInRing ∧
      int.rem 5 0 = .error .remainderByZero ∧
      Error.kind .zeroDivisionInRing = .zeroDivision ∧ Error.kind .remainderByZero = .zeroDivision) :=
  ⟨⟨by decide, (int_div_rem_truncate (-7) 2).1 (by decide)⟩,
    ⟨rfl, (int_div_rem_truncate 5 0).2 rfl⟩⟩

end FiniteRings.NumericRing
