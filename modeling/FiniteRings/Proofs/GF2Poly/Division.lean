import Mathlib
import FiniteRings.Proofs.GF2Poly.Ring

/-!
# Long division and Euclid's algorithm are those of `GF(2)[X]`

Every nonzero polynomial over `GF(2)` is monic, so division with remainder is `/ₘ` and `%ₘ`.
Long division keeps `q * b + r` equal to the dividend: a step adds `x ^ k` to the quotient and
`x ^ k * b` to the remainder, and the two additions cancel in characteristic 2. A step also
clears the highest one of the remainder, so after the last step its degree is below that of
`b`; this is the bound under which quotient and remainder are unique.

Euclid's loop keeps the common divisors of its two rows, and the extended loop keeps both rows
combinations `s * a + t * b` of the inputs. Hence `gcd` is the monic greatest common divisor,
and `extGcd` returns it with its Bezout coefficients (`extGcd_eq_gcd_bezout`). The test `r < b`
that stands for a termination proof in both loops never fails: every remainder lies below its
divisor (`modBy_lt_self`).
-/

namespace FiniteRings.GF2Poly

open Polynomial

/-! ### Long division -/

theorem toPoly_or_two_pow {q k : Nat} (hq : q.testBit k = false) :
    (⟨q ||| 1 <<< k⟩ : GF2Poly).toPoly = toPoly ⟨q⟩ + Polynomial.X ^ k := by
  have hxor : q ||| 1 <<< k = q ^^^ 1 <<< k := by
    apply Nat.eq_of_testBit_eq
    intro i
    rw [Nat.one_shiftLeft, Nat.testBit_or, Nat.testBit_xor, Nat.testBit_two_pow]
    by_cases hi : k = i
    · subst hi
      simp [hq]
    · simp [hi]
  rw [hxor, toPoly_xor, Nat.one_shiftLeft, toPoly_two_pow]

/-- **The division invariant.**  Over the positions `n + k - 1` down to `n`, long division keeps
`q * b + r`, provided the quotient has no ones yet below `k`. -/
theorem reduceFrom_spec {b n : Nat} (k q r : Nat) (hq : ∀ i < k, q.testBit i = false) :
    toPoly ⟨(reduceFrom b n k q r).1⟩ * toPoly ⟨b⟩ + toPoly ⟨(reduceFrom b n k q r).2⟩ =
      toPoly ⟨q⟩ * toPoly ⟨b⟩ + toPoly ⟨r⟩ := by
  induction k, q, r using reduceFrom.induct b n with
  | case1 q r => rfl
  | case2 k q r hbit ih =>
    have hq' : ∀ i < k, (q ||| 1 <<< k).testBit i = false := by
      intro i hi
      rw [Nat.testBit_or, hq i (by omega), Nat.one_shiftLeft, Nat.testBit_two_pow]
      simp [show k ≠ i by omega]
    rw [reduceFrom, if_pos hbit, ih hq', toPoly_or_two_pow (hq k (by omega)), toPoly_xor,
      toPoly_shiftLeft]
    -- the two copies of `x ^ k * b` cancel in characteristic 2
    linear_combination (Polynomial.X ^ k * toPoly ⟨b⟩) * CharTwo.two_eq_zero (R := (ZMod 2)[X])
  | case3 k q r hbit ih =>
    rw [reduceFrom, if_neg hbit]
    exact ih fun i hi => hq i (by omega)

/-- Quotient and remainder of bit patterns by a nonzero divisor. -/
theorem divModBits_spec (a : Nat) {b : Nat} (hb : b ≠ 0) :
    toPoly ⟨(divModBits a b).1⟩ * toPoly ⟨b⟩ + toPoly ⟨(divModBits a b).2⟩ = toPoly ⟨a⟩ ∧
      (divModBits a b).2 < 2 ^ b.log2 := by
  refine ⟨?_, divModBits_lt a hb⟩
  unfold divModBits
  simp only [degree_eq_log2]
  split
  · next ha =>
    subst ha
    simp
  · split
    · simp
    · rw [reduceFrom_spec _ 0 a fun i _ => Nat.zero_testBit i, toPoly_zero, zero_mul, zero_add]

/-- A remainder below `2 ^ log2 b` has lower degree than `b`. -/
theorem degree_toPoly_lt {r b : Nat} (hb : b ≠ 0) (hr : r < 2 ^ b.log2) :
    (toPoly ⟨r⟩).degree < (toPoly ⟨b⟩).degree := by
  by_cases hr0 : r = 0
  · subst hr0
    rw [toPoly_zero, degree_zero, bot_lt_iff_ne_bot, Ne, degree_eq_bot, toPoly_eq_zero]
    exact hb
  · apply degree_lt_degree
    rw [natDegree_toPoly, natDegree_toPoly, degree_eq_log2, degree_eq_log2]
    exact (Nat.log2_lt hr0).2 hr

theorem divModBits_eq (a : Nat) {b : Nat} (hb : b ≠ 0) :
    toPoly ⟨(divModBits a b).1⟩ = toPoly ⟨a⟩ /ₘ toPoly ⟨b⟩ ∧
      toPoly ⟨(divModBits a b).2⟩ = toPoly ⟨a⟩ %ₘ toPoly ⟨b⟩ := by
  obtain ⟨heq, hlt⟩ := divModBits_spec a hb
  have h : toPoly ⟨a⟩ /ₘ toPoly ⟨b⟩ = toPoly ⟨(divModBits a b).1⟩ ∧
      toPoly ⟨a⟩ %ₘ toPoly ⟨b⟩ = toPoly ⟨(divModBits a b).2⟩ :=
    div_modByMonic_unique _ _ (toPoly_monic hb) ⟨by rw [← heq]; ring, degree_toPoly_lt hb hlt⟩
  exact ⟨h.1.symm, h.2.symm⟩

/-- **The remainder.**  `modBy a b` is `a %ₘ b`. -/
theorem toPoly_modBy (a : GF2Poly) {b : GF2Poly} (hb : b.bits ≠ 0) :
    (modBy a b).toPoly = a.toPoly %ₘ b.toPoly :=
  (divModBits_eq a.bits hb).2

/-- **The quotient.**  `divBy a b` is `a /ₘ b`. -/
theorem toPoly_divBy (a : GF2Poly) {b : GF2Poly} (hb : b.bits ≠ 0) :
    (divBy a b).toPoly = a.toPoly /ₘ b.toPoly :=
  (divModBits_eq a.bits hb).1

/-- The remainder by `b` lies below `2 ^ degree b`. -/
theorem divMod_eq_ok (a : GF2Poly) {b : GF2Poly} (hb : b.bits ≠ 0) :
    divMod a b = .ok (divBy a b, modBy a b) := by
  simp [divMod, hb, divBy, modBy]

theorem modBy_lt_self (a : GF2Poly) {b : GF2Poly} (hb : b.bits ≠ 0) :
    (divModBits a.bits b.bits).2 < b.bits :=
  Nat.lt_of_lt_of_le (divModBits_spec a.bits hb).2 (Nat.log2_self_le hb)

/-- Quotient and remainder give the dividend back, with the operations of `GF2Poly`. -/
theorem divBy_mul_add_modBy (a : GF2Poly) {b : GF2Poly} (hb : b.bits ≠ 0) :
    divBy a b * b + modBy a b = a := by
  apply toPoly_injective
  rw [toPoly_add, toPoly_mul]
  exact (divModBits_spec a.bits hb).1

/-- **Uniqueness.**  A quotient and a remainder below `2 ^ degree b` that give `a` back are those
of long division. -/
theorem eq_divBy_modBy {a b q r : GF2Poly} (hb : b.bits ≠ 0) (h : a = q * b + r)
    (hr : r.bits < 2 ^ b.degree) : q = divBy a b ∧ r = modBy a b := by
  have hunique : a.toPoly /ₘ b.toPoly = q.toPoly ∧ a.toPoly %ₘ b.toPoly = r.toPoly :=
    div_modByMonic_unique _ _ (toPoly_monic hb) ⟨by rw [h, toPoly_add, toPoly_mul]; ring,
      degree_toPoly_lt (r := r.bits) hb (by rwa [← degree_eq_log2])⟩
  exact ⟨toPoly_injective (by rw [toPoly_divBy a hb, hunique.1]),
    toPoly_injective (by rw [toPoly_modBy a hb, hunique.2])⟩

/-- A bit pattern below `2 ^ degree b` is zero or of lower degree than `b`. -/
theorem eq_zero_or_degree_lt {r b : GF2Poly} (hr : r.bits < 2 ^ b.degree) :
    r.bits = 0 ∨ r.degree < b.degree := by
  rw [or_iff_not_imp_left, degree_eq_log2]
  exact fun hr0 => (Nat.log2_lt hr0).2 hr

/-- **Division with remainder.**  Dividing by the zero polynomial is a division by zero. By any
other `b`, `divMod` returns the quotient and the remainder of `a`: they give `a` back, the
remainder lies below `2 ^ degree b` (it is zero, or of lower degree than `b`, and it is zero
when `b` is `1`), they are the only such pair, and they are `a /ₘ b` and `a %ₘ b` in
`GF(2)[X]`. -/
theorem divMod_quotient_remainder (a b : GF2Poly) :
    (b.bits = 0 → ∃ e, divMod a b = .error e ∧ e.kind = .zeroDivision) ∧
    (b.bits ≠ 0 → ∃ q r, divMod a b = .ok (q, r) ∧
      a = q * b + r ∧ r.bits < 2 ^ b.degree ∧ (r.bits = 0 ∨ r.degree < b.degree) ∧
      (b.bits = 1 → r.bits = 0) ∧
      (∀ q' r' : GF2Poly, a = q' * b + r' → r'.bits < 2 ^ b.degree → q' = q ∧ r' = r) ∧
      q.toPoly = a.toPoly /ₘ b.toPoly ∧ r.toPoly = a.toPoly %ₘ b.toPoly) := by
  refine ⟨fun hb => ⟨.polyDivisionByZero, by simp [divMod, hb], rfl⟩, fun hb => ?_⟩
  have hlt : (modBy a b).bits < 2 ^ b.degree := modBy_lt a hb
  refine ⟨divBy a b, modBy a b, divMod_eq_ok a hb, (divBy_mul_add_modBy a hb).symm, hlt,
    eq_zero_or_degree_lt hlt, fun hb1 => ?_, fun q' r' h hr => eq_divBy_modBy hb h hr,
    toPoly_divBy a hb, toPoly_modBy a hb⟩
  -- the constant `1` has degree `0`, so the remainder lies below `2 ^ 0`
  have hdeg : b.degree = 0 := by rw [degree_eq_log2, hb1]; rfl
  rw [hdeg] at hlt
  omega

/-! ### Euclid's algorithm -/

/-- A division step keeps the common divisors: those of `a` and `b` are those of `b` and the
remainder. -/
theorem dvd_and_dvd_iff_mod (a : Nat) {b : Nat} (hb : b ≠ 0) (d : (ZMod 2)[X]) :
    d ∣ toPoly ⟨a⟩ ∧ d ∣ toPoly ⟨b⟩ ↔ d ∣ toPoly ⟨b⟩ ∧ d ∣ toPoly ⟨(divModBits a b).2⟩ := by
  rw [← (divModBits_spec a hb).1]
  constructor
  · rintro ⟨ha, hb⟩
    exact ⟨hb, (dvd_add_right (dvd_mul_of_dvd_right hb _)).1 ha⟩
  · rintro ⟨hb, hr⟩
    exact ⟨dvd_add (dvd_mul_of_dvd_right hb _) hr, hb⟩

/-- **Euclid's invariant.**  The loop ends on a polynomial whose divisors are the common
divisors of its two rows. -/
theorem dvd_gcdLoop_iff (a b : Nat) (hb : b ≠ 0) (d : (ZMod 2)[X]) :
    d ∣ toPoly ⟨gcdLoop a b⟩ ↔ d ∣ toPoly ⟨a⟩ ∧ d ∣ toPoly ⟨b⟩ := by
  -- each remainder is nonzero when the loop goes on, so `hb` holds again for the next call
  induction a, b using gcdLoop.induct with
  | case1 a b r hr =>
    rw [gcdLoop, if_pos hr, dvd_and_dvd_iff_mod a hb, show (divModBits a b).2 = 0 from hr,
      toPoly_zero]
    simp
  | case2 a b r hr hlt ih =>
    rw [gcdLoop, if_neg hr, if_pos hlt, ih hr, dvd_and_dvd_iff_mod a hb]
  | case3 a b r hr hlt =>
    exact absurd (modBy_lt_self ⟨a⟩ hb) hlt

theorem dvd_toPoly_gcd_iff (a b : GF2Poly) (d : (ZMod 2)[X]) :
    d ∣ (gcd a b).toPoly ↔ d ∣ a.toPoly ∧ d ∣ b.toPoly := by
  unfold gcd
  split
  · next ha =>
    rw [toPoly_eq_zero.2 ha]
    simp
  · split
    · next hb =>
      rw [toPoly_eq_zero.2 hb]
      simp
    · next hb => exact dvd_gcdLoop_iff a.bits b.bits hb d

/-- **The greatest common divisor.**  `gcd a b` is the monic greatest common divisor of the
polynomials, `0` when both are zero. -/
theorem toPoly_gcd (a b : GF2Poly) : (gcd a b).toPoly = GCDMonoid.gcd a.toPoly b.toPoly := by
  have hnorm : normalize (gcd a b).toPoly = (gcd a b).toPoly := by
    by_cases h : (gcd a b).bits = 0
    · rw [toPoly_eq_zero.2 h, normalize_zero]
    · exact (toPoly_monic h).normalize_eq_self
  have hdvd := (dvd_toPoly_gcd_iff a b (gcd a b).toPoly).1 dvd_rfl
  rw [← hnorm]
  refine (gcd_eq_normalize ?_ (dvd_gcd hdvd.1 hdvd.2)).symm
  exact (dvd_toPoly_gcd_iff a b _).2 ⟨gcd_dvd_left _ _, gcd_dvd_right _ _⟩

/-- The units of `GF(2)[X]` are the constant `1`. -/
theorem isUnit_toPoly_iff {p : GF2Poly} : IsUnit p.toPoly ↔ p.bits = 1 := by
  by_cases h : p.bits = 0
  · rw [toPoly_eq_zero.2 h, h]
    simp
  · rw [isUnit_iff_degree_eq_zero, degree_eq_natDegree (toPoly_eq_zero.not.2 h),
      natDegree_toPoly, degree_eq_log2, Nat.cast_eq_zero]
    constructor
    · intro hl
      have := (Nat.log2_lt h).1 (by omega : p.bits.log2 < 1)
      omega
    · intro h1
      rw [h1]
      rfl

/-- The greatest common divisor is `1` exactly for coprime polynomials. -/
theorem gcd_bits_eq_one_iff (a b : GF2Poly) :
    (gcd a b).bits = 1 ↔ IsCoprime a.toPoly b.toPoly := by
  rw [← isUnit_toPoly_iff, toPoly_gcd, gcd_isUnit_iff]

/-! ### The extended algorithm -/

/-- **Bezout's invariant.**  Both rows of the extended loop stay combinations `s * A + t * B`,
and the loop ends on the row that Euclid's loop ends on. -/
theorem extGcdLoop_spec (A B : (ZMod 2)[X]) (a b s₁ s t₁ t : Nat) (hb : b ≠ 0)
    (ha : toPoly ⟨a⟩ = toPoly ⟨s₁⟩ * A + toPoly ⟨t₁⟩ * B)
    (hb' : toPoly ⟨b⟩ = toPoly ⟨s⟩ * A + toPoly ⟨t⟩ * B) :
    (extGcdLoop a b s₁ s t₁ t).1 = gcdLoop a b ∧
      toPoly ⟨(extGcdLoop a b s₁ s t₁ t).1⟩ = toPoly ⟨(extGcdLoop a b s₁ s t₁ t).2.1⟩ * A +
        toPoly ⟨(extGcdLoop a b s₁ s t₁ t).2.2⟩ * B := by
  induction a, b, s₁, s, t₁, t using extGcdLoop.induct with
  | case1 a b s₁ s t₁ t q hqr =>
    have hr : (divModBits a b).2 = 0 := by rw [hqr]
    rw [extGcdLoop, gcdLoop, if_pos hr]
    simp only [hqr, ite_true, true_and]
    exact hb'
  | case2 a b s₁ s t₁ t q r hqr hr hlt ih =>
    have heq := (divModBits_spec a hb).1
    rw [hqr] at heq
    obtain ⟨hg, hbez⟩ := ih hr hb' (by
      rw [toPoly_xor, toPoly_xor, toPoly_mulAcc, toPoly_mulAcc, toPoly_zero, zero_add, zero_add]
      -- the new row is `a - q * b`, and subtraction is addition
      linear_combination heq + ha + toPoly ⟨q⟩ * hb' -
        (toPoly ⟨q⟩ * toPoly ⟨b⟩) * CharTwo.two_eq_zero (R := (ZMod 2)[X]))
    rw [extGcdLoop, gcdLoop]
    simp only [hqr, if_neg hr, if_pos hlt]
    exact ⟨hg, hbez⟩
  | case3 a b s₁ s t₁ t q r hqr hr hlt =>
    have hr' : (divModBits a b).2 = r := by rw [hqr]
    exact absurd (hr' ▸ modBy_lt_self ⟨a⟩ hb) hlt

/-- **The extended algorithm.**  `extGcd a b` returns `gcd a b` with coefficients `s`, `t`
such that `s * a + t * b = gcd a b`. -/
theorem extGcd_spec (a b : GF2Poly) :
    (extGcd a b).1 = gcd a b ∧
      (extGcd a b).2.1.toPoly * a.toPoly + (extGcd a b).2.2.toPoly * b.toPoly =
        (gcd a b).toPoly := by
  unfold extGcd gcd
  split
  · next ha =>
    rw [toPoly_eq_zero.2 ha]
    exact ⟨rfl, by simp [zero, one]⟩
  · split
    · next hb =>
      rw [toPoly_eq_zero.2 hb]
      exact ⟨rfl, by simp [zero, one]⟩
    · next ha hb =>
      obtain ⟨hg, hbez⟩ := extGcdLoop_spec a.toPoly b.toPoly a.bits b.bits 1 0 0 1 hb
        (by simp) (by simp)
      exact ⟨congrArg GF2Poly.mk hg, by rw [← hg]; exact hbez.symm⟩

/-- The greatest common divisor is zero only when both polynomials are. -/
theorem gcd_bits_eq_zero_iff (a b : GF2Poly) :
    (gcd a b).bits = 0 ↔ a.bits = 0 ∧ b.bits = 0 := by
  rw [← toPoly_eq_zero, toPoly_gcd, gcd_eq_zero_iff, toPoly_eq_zero, toPoly_eq_zero]

/-- Bezout's identity with the operations of `GF2Poly`. -/
theorem extGcd_bezout (a b : GF2Poly) :
    (extGcd a b).2.1 * a + (extGcd a b).2.2 * b = (extGcd a b).1 := by
  obtain ⟨hg, hbez⟩ := extGcd_spec a b
  apply toPoly_injective
  rw [toPoly_add, toPoly_mul, toPoly_mul, hbez, hg]

/-- **Greatest common divisors.**  `extGcd a b` returns `gcd a b` with cofactors `s` and `t`
such that `s * a + t * b` is it. It is the monic greatest common divisor of the polynomials: it
divides both, every common divisor divides it, and it is zero only when both are. Every division
step of the two loops leaves a remainder below its divisor, so the loops, which go on with the
remainder as divisor, stop on every input. -/
theorem extGcd_eq_gcd_bezout (a b : GF2Poly) :
    (extGcd a b).1 = gcd a b ∧
    (extGcd a b).2.1 * a + (extGcd a b).2.2 * b = (extGcd a b).1 ∧
    (gcd a b).toPoly = GCDMonoid.gcd a.toPoly b.toPoly ∧
    (gcd a b).toPoly ∣ a.toPoly ∧ (gcd a b).toPoly ∣ b.toPoly ∧
    (∀ d : (ZMod 2)[X], d ∣ a.toPoly → d ∣ b.toPoly → d ∣ (gcd a b).toPoly) ∧
    ((gcd a b).bits = 0 ↔ a.bits = 0 ∧ b.bits = 0) ∧
    (∀ x y : GF2Poly, y.bits ≠ 0 → (modBy x y).bits < y.bits) := by
  have hdvd := (dvd_toPoly_gcd_iff a b (gcd a b).toPoly).1 dvd_rfl
  exact ⟨(extGcd_spec a b).1, extGcd_bezout a b, toPoly_gcd a b, hdvd.1, hdvd.2,
    fun d hda hdb => (dvd_toPoly_gcd_iff a b d).2 ⟨hda, hdb⟩, gcd_bits_eq_zero_iff a b,
    fun x _ hy => modBy_lt_self x hy⟩

end FiniteRings.GF2Poly
