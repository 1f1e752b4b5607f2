import Mathlib
import FiniteRings.Arith.Euclid

/-!
# Euclid's algorithm on integers

Remainders are floor remainders: they take the sign of their divisor, so on negative arguments
the pairs of Euclid's loop may stay negative throughout. A step replaces `(a, b)` by
`(b, a - b * q)`, which keeps the greatest common divisor, and the loop answers the absolute
value of its last divisor: the greatest common divisor, whenever neither argument is zero
(`gcdLoop_eq`). With a zero argument `gcd` hands back the other one as it is, sign included.

Blankinship's loop keeps two rows `(c, m₁, n₁)` and `(d, m, n)` with `a * m₁ + b * n₁ = c` and
`a * m + b * n = d`, started from the unit rows. A step keeps both equations
(`extGcdLoop_spec`), and each new divisor is a nonzero remainder by the last one, of the same sign
(`sign_fmod`). So the divisor it returns has the sign of `b` and the absolute value `gcd a b`.

The least common multiple floor-divides the product by `gcd a b`, which divides it: the division
is exact, and its quotient is the least common multiple with the sign of the product.
-/

namespace FiniteRings.Arith

/-! ### The greatest common divisor -/

/-- Euclid's loop computes the greatest common divisor. -/
theorem gcdLoop_eq (a b : Int) (hb : b ≠ 0) : gcdLoop a b hb = (Int.gcd a b : Int) := by
  induction a, b, hb using gcdLoop.induct with
  | case1 a b hb hr =>
    rw [gcdLoop, dif_pos hr, Int.gcd_eq_natAbs_right (Int.dvd_of_fmod_eq_zero hr)]
  | case2 a b hb hr _ ih =>
    rw [gcdLoop, dif_neg hr, ih, Int.fmod_def, Int.gcd_sub_mul_left_right, Int.gcd_comm]

theorem gcd_of_ne_zero {a b : Int} (ha : a ≠ 0) (hb : b ≠ 0) : gcd a b = (Int.gcd a b : Int) := by
  rw [gcd, if_neg ha, dif_neg hb, gcdLoop_eq]

/-- On nonnegative arguments `gcd` is the greatest common divisor. -/
theorem gcd_eq_gcd {a b : Int} (ha : 0 ≤ a) (hb : 0 ≤ b) : gcd a b = (Int.gcd a b : Int) := by
  unfold gcd
  split
  · next h => rw [h, Int.gcd_zero_left, Int.natAbs_of_nonneg hb]
  · split
    · next h0 h => rw [h, Int.gcd_zero_right, Int.natAbs_of_nonneg ha]
    · next h0 h => exact gcdLoop_eq a b h

/-- Against a positive second argument `gcd` is the greatest common divisor, whatever the sign of
the first. -/
theorem gcd_of_pos_right (a : Int) {b : Int} (hb : 0 < b) : gcd a b = (Int.gcd a b : Int) := by
  by_cases ha : a = 0
  · rw [ha, gcd, if_pos rfl, Int.gcd_zero_left, Int.natAbs_of_nonneg hb.le]
  · exact gcd_of_ne_zero ha (by omega)

/-! ### Floor remainders and Blankinship's rows -/

/-- Modulo a negative `m` a floor remainder lies in `(m, 0]`. -/
theorem fmod_mem_of_neg (a : Int) {m : Int} (hm : m < 0) : m < a.fmod m ∧ a.fmod m ≤ 0 := by
  -- dividing by `m < 0` is dividing `-a` by `-m > 0` and negating
  have hflip : a.fmod m = -((-a).fmod (-m)) := by rw [← Int.neg_fmod_neg, Int.neg_neg, Int.neg_neg]
  have h0 : 0 ≤ (-a).fmod (-m) := Int.fmod_nonneg_of_pos _ (by omega)
  have h1 : (-a).fmod (-m) < -m := Int.fmod_lt_of_pos _ (by omega)
  omega

/-- A nonzero floor remainder has the sign of its divisor. -/
theorem sign_fmod {c d : Int} (hd : d ≠ 0) (hr : c.fmod d ≠ 0) : (c.fmod d).sign = d.sign := by
  rcases Int.lt_or_gt_of_ne hd with hneg | hpos
  · have h0 := (fmod_mem_of_neg c hneg).2
    rw [Int.sign_eq_neg_one_of_neg hneg, Int.sign_eq_neg_one_of_neg (by omega)]
  · have h0 : 0 ≤ c.fmod d := Int.fmod_nonneg_of_pos _ hpos
    rw [Int.sign_eq_one_of_pos hpos, Int.sign_eq_one_of_pos (by omega)]

/-- Blankinship's loop keeps the equations of both rows and the greatest common divisor of
their first entries, so it ends with a greatest common divisor up to sign and its
coefficients. -/
theorem extGcdLoop_spec (a b : Int) (c d m₁ m n₁ n : Int) (hd : d ≠ 0)
    (h₁ : a * m₁ + b * n₁ = c) (h₂ : a * m + b * n = d) :
    a * (extGcdLoop c d m₁ m n₁ n hd).2.1 + b * (extGcdLoop c d m₁ m n₁ n hd).2.2 =
        (extGcdLoop c d m₁ m n₁ n hd).1 ∧
      (extGcdLoop c d m₁ m n₁ n hd).1.natAbs = Int.gcd c d := by
  induction c, d, m₁, m, n₁, n, hd using extGcdLoop.induct with
  | case1 c d m₁ m n₁ n hd hr =>
    rw [extGcdLoop, dif_pos hr]
    exact ⟨h₂, (Int.gcd_eq_natAbs_right (Int.dvd_of_fmod_eq_zero hr)).symm⟩
  | case2 c d m₁ m n₁ n hd hr q _ ih =>
    -- the new second row is the first minus `q` times the second
    have hrow : a * (m₁ - c.fdiv d * m) + b * (n₁ - c.fdiv d * n) = c.fmod d := by
      rw [Int.fmod_def]
      linear_combination h₁ - c.fdiv d * h₂
    rw [extGcdLoop, dif_neg hr]
    obtain ⟨hbez, hgcd⟩ := ih h₂ hrow
    exact ⟨hbez, by rw [hgcd, Int.fmod_def, Int.gcd_sub_mul_left_right, Int.gcd_comm]⟩

/-- Every divisor of Blankinship's loop has the sign of the first one. -/
theorem extGcdLoop_sign (c d m₁ m n₁ n : Int) (hd : d ≠ 0) :
    (extGcdLoop c d m₁ m n₁ n hd).1.sign = d.sign := by
  induction c, d, m₁, m, n₁, n, hd using extGcdLoop.induct with
  | case1 c d m₁ m n₁ n hd hr => rw [extGcdLoop, dif_pos hr]
  | case2 c d m₁ m n₁ n hd hr q _ ih => rw [extGcdLoop, dif_neg hr, ih, sign_fmod hd hr]

/-- **The extended algorithm.**  For a nonzero `b`, `extGcd a b` returns `(d, s, t)` with
`a * s + b * t = d` and `|d| = gcd a b`. -/
theorem extGcd_eq_ok (a b : Int) (hb : b ≠ 0) :
    ∃ d s t, extGcd a b = .ok (d, s, t) ∧ a * s + b * t = d ∧ d.natAbs = Int.gcd a b := by
  obtain ⟨hbez, hgcd⟩ := extGcdLoop_spec a b a b 1 0 0 1 hb (by ring) (by ring)
  exact ⟨_, _, _, by rw [extGcd, dif_neg hb], hbez, hgcd⟩

/-- The divisor that the extended algorithm returns is `gcd a b` with the sign of `b`. -/
theorem extGcd_eq_ok_sign (a b : Int) (hb : b ≠ 0) :
    ∃ d s t, extGcd a b = .ok (d, s, t) ∧ a * s + b * t = d ∧ d = b.sign * Int.gcd a b := by
  obtain ⟨hbez, hgcd⟩ := extGcdLoop_spec a b a b 1 0 0 1 hb (by ring) (by ring)
  have hsign := extGcdLoop_sign a b 1 0 0 1 hb
  refine ⟨_, _, _, by rw [extGcd, dif_neg hb], hbez, ?_⟩
  rw [← hsign, ← hgcd, Int.sign_mul_natAbs]

/-! ### The least common multiple -/

/-- For nonzero `a` and `b` the product is `gcd a b` times the least common multiple, with the
sign of the product. -/
theorem mul_eq_gcd_mul_lcm (a b : Int) :
    a * b = (Int.gcd a b : Int) * ((a * b).sign * Int.lcm a b) := by
  have habs : ((Int.gcd a b * Int.lcm a b : Nat) : Int) = ((a * b).natAbs : Int) := by
    rw [Int.gcd_mul_lcm, Int.natAbs_mul]
  calc a * b = (a * b).sign * ((a * b).natAbs : Int) := (Int.sign_mul_natAbs _).symm
    _ = (Int.gcd a b : Int) * ((a * b).sign * Int.lcm a b) := by
      rw [← habs, Nat.cast_mul]
      ring

/-- For nonzero `a` and `b` the floor division of `lcm` is exact, and its quotient is the least
common multiple with the sign of the product. -/
theorem lcm_of_ne_zero {a b : Int} (ha : a ≠ 0) (hb : b ≠ 0) :
    lcm a b = .ok ((a * b).sign * Int.lcm a b) := by
  have hpos : 0 < Int.gcd a b := Int.gcd_pos_of_ne_zero_left b ha
  rw [lcm, gcd_of_ne_zero ha hb, if_neg (by omega), Int.fdiv_eq_ediv_of_nonneg _ (by omega)]
  conv_lhs => rw [mul_eq_gcd_mul_lcm a b]
  rw [Int.mul_ediv_cancel_left _ (by omega)]

/-- **Euclid's algorithms on integers.**  `gcd a b` is the greatest common divisor when neither
argument is zero, and otherwise the other argument as it is. For a nonzero `b`, `extGcd a b`
returns `(d, s, t)` with `a * s + b * t = d` and `d` the greatest common divisor with the sign
of `b`. For nonzero `a` and `b`, `lcm a b` floor-divides `a * b` by `gcd a b` exactly, and the
quotient is the least common multiple with the sign of `a * b`. -/
theorem euclid_gcd_extGcd_lcm (a b : Int) :
    (a ≠ 0 → b ≠ 0 → gcd a b = (Int.gcd a b : Int)) ∧ gcd 0 b = b ∧ gcd a 0 = a ∧
      (b ≠ 0 → ∃ d s t, extGcd a b = .ok (d, s, t) ∧ a * s + b * t = d ∧
        d = b.sign * Int.gcd a b) ∧
      (a ≠ 0 → b ≠ 0 → ∃ l, lcm a b = .ok l ∧ l * gcd a b = a * b ∧
        l = (a * b).sign * Int.lcm a b) := by
  refine ⟨gcd_of_ne_zero, by rw [gcd, if_pos rfl], ?_, extGcd_eq_ok_sign a b, fun ha hb => ?_⟩
  · unfold gcd
    split
    · next h => exact h.symm
    · rw [dif_pos rfl]
  · refine ⟨_, lcm_of_ne_zero ha hb, ?_, rfl⟩
    rw [gcd_of_ne_zero ha hb, mul_comm]
    exact (mul_eq_gcd_mul_lcm a b).symm

/-- With a negative first argument: the extended algorithm and the least common multiple of
`-12` and `18`. -/
theorem euclid_neg_twelve_eighteen :
    (-12 : Int) ≠ 0 ∧ (18 : Int) ≠ 0 ∧
      (∃ d s t, extGcd (-12) 18 = .ok (d, s, t) ∧ -12 * s + 18 * t = d ∧
        d = Int.sign 18 * Int.gcd (-12) 18) ∧
      (∃ l, lcm (-12) 18 = .ok l ∧ l * gcd (-12) 18 = -12 * 18 ∧
        l = Int.sign (-12 * 18) * Int.lcm (-12) 18) :=
  ⟨by decide, by decide, (euclid_gcd_extGcd_lcm (-12) 18).2.2.2.1 (by decide),
    (euclid_gcd_extGcd_lcm (-12) 18).2.2.2.2 (by decide) (by decide)⟩

end FiniteRings.Arith
