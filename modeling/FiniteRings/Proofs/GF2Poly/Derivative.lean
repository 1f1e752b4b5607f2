import Mathlib
import FiniteRings.GF2Poly.Derivative
import FiniteRings.Proofs.GF2Poly.Division

/-!
# The derivative, square roots and square-free polynomials

In characteristic 2 the derivative of `x ^ (j + 1)` is `x ^ j` for even `j` and zero for odd `j`.
`deriv` keeps the bits at odd positions, moved down by one, with a mask of even positions that
`derivMask` grows a 64-bit word at a time. The mask it stops at is `evenMask (32 * j)` for some
`j`, and it is at least the polynomial, so it covers every coefficient
(`derivMask_eq_evenMask`). Hence `deriv` is the formal derivative of `(ZMod 2)[X]` for
polynomials of every size (`toPoly_deriv`), and obeys the product rule (`deriv_mul`).

Squaring is additive in characteristic 2, so `(Σ cⱼ xʲ) ^ 2 = Σ cⱼ x ^ (2 * j)`. `sqrtBits` reads
the even positions of a pattern without ones at odd positions, two bits at a time, and what it
returns squares back to the pattern (`sqrtBits_sq`). A polynomial whose derivative is zero has no
odd coefficient, so it has a square root (`sqrtBits_spec`); a square has derivative zero, so
`squareRoot` fails exactly on the polynomials that are not squares (`formal_deriv_squareRoot`).

The derivative also tells the square-free polynomials: over a perfect field such as `GF(2)` a
polynomial is square-free exactly when it is prime to its derivative (`gcd_deriv_eq_one_iff`).
-/

namespace FiniteRings.GF2Poly

open Polynomial

/-! ### The derivative -/

/-- Ones at the even positions `0, 2, …, 2 * k - 2`. -/
def evenMask (k : Nat) : Nat := (Nat.pow 4 k - 1) / 3

theorem evenMask_succ (k : Nat) : evenMask (k + 1) = 4 * evenMask k + 1 := by
  have hdvd : 3 ∣ 4 ^ k - 1 := by
    simpa only [one_pow] using Nat.sub_dvd_pow_sub_pow 4 1 k
  obtain ⟨e, he⟩ := hdvd
  have hpos : 1 ≤ 4 ^ k := Nat.one_le_pow _ _ (by decide)
  simp only [evenMask, Nat.pow_eq, Nat.pow_succ]
  omega

/-- `evenMask k` has its ones at the even positions below `2 * k`. -/
theorem testBit_evenMask (k j : Nat) :
    (evenMask k).testBit j = (decide (j < 2 * k) && decide (j % 2 = 0)) := by
  induction k generalizing j with
  | zero => simp [evenMask]
  | succ k ih =>
    rw [evenMask_succ, show 4 * evenMask k + 1 = 2 ^ 2 * evenMask k + 1 by rfl,
      Nat.testBit_two_pow_mul_add _ (by decide)]
    split
    · next hj =>
      interval_cases j
      · simp
      · simp
        rfl
    · next hj =>
      rw [ih]
      have h2 : (j - 2) % 2 = j % 2 := by omega
      rw [h2]
      congr 1
      exact decide_eq_decide.2 (by omega)

/-- `evenMask (m + n)` is `evenMask m` moved up by `2 * n` positions, with `evenMask n` below. -/
theorem evenMask_add (m n : Nat) : evenMask (m + n) = 4 ^ n * evenMask m + evenMask n := by
  induction n with
  | zero => simp [evenMask]
  | succ n ih =>
    rw [← Nat.add_assoc, evenMask_succ, ih, evenMask_succ, pow_succ]
    ring

theorem evenMask_lt (k : Nat) : evenMask k < 2 ^ (2 * k) := by
  have hpos : 0 < 4 ^ k := Nat.pow_pos (by decide)
  have h4 : 2 ^ (2 * k) = 4 ^ k := by
    rw [pow_mul]
    norm_num
  rw [h4]
  simp only [evenMask, Nat.pow_eq]
  omega

/-- A round of `derivMask` adds a word of 32 even positions below the mask. -/
theorem widen_evenMask (k : Nat) :
    evenMask (32 * k) <<< 64 ||| 0x5555555555555555 = evenMask (32 * (k + 1)) := by
  have hword : (0x5555555555555555 : Nat) = evenMask 32 := by decide
  rw [hword, ← Nat.shiftLeft_add_eq_or_of_lt (evenMask_lt 32), Nat.shiftLeft_eq,
    Nat.mul_add, Nat.mul_one, evenMask_add]
  ring

/-- **The mask loop.**  Grown from a mask of `32 * k` even positions, the mask of the derivative
is one of `32 * j` even positions that is at least `a`. -/
theorem derivMask_eq_evenMask (a : Nat) : ∀ mask k, mask = evenMask (32 * k) →
    ∃ j, derivMask a mask = evenMask (32 * j) ∧ a ≤ evenMask (32 * j) := by
  intro mask
  fun_induction derivMask a mask with
  | case1 mask hlt ih =>
    intro k hk
    exact ih (k + 1) (by rw [hk, widen_evenMask])
  | case2 mask hge =>
    intro k hk
    exact ⟨k, hk, by omega⟩

/-- Coefficient `j` of the derivative is coefficient `j + 1` at an even `j`, and zero at an odd
one. -/
theorem coeff_deriv (p : GF2Poly) (j : Nat) :
    p.deriv.coeff j = (p.coeff (j + 1) && decide (j % 2 = 0)) := by
  obtain ⟨J, hJ, hle⟩ := derivMask_eq_evenMask p.bits 0x5555555555555555 1 (by decide)
  simp only [coeff, deriv, hJ, Nat.testBit_and, Nat.testBit_shiftRight, testBit_evenMask]
  rw [Nat.add_comm 1 j]
  by_cases hj : j < 2 * (32 * J)
  · rw [decide_eq_true hj, Bool.true_and]
  · -- the mask is at least `p`, so `p` has no coefficient beyond it
    have hbit : p.bits.testBit (j + 1) = false := Nat.testBit_lt_two_pow
      (Nat.lt_of_lt_of_le (Nat.lt_of_le_of_lt hle (evenMask_lt _))
        (Nat.pow_le_pow_right (by decide) (by omega)))
    rw [decide_eq_false hj, Bool.false_and, Bool.and_false, hbit, Bool.false_and]

theorem ofBit_and (a b : Bool) : ofBit (a && b) = ofBit a * ofBit b := by
  cases a <;> cases b <;> rfl

/-- **The derivative** of `p` is the formal derivative of its polynomial. -/
theorem toPoly_deriv (p : GF2Poly) : p.deriv.toPoly = derivative p.toPoly := by
  ext j
  rw [coeff_toPoly, coeff_deriv, coeff_derivative, coeff_toPoly, ofBit_and]
  congr 1
  -- `j + 1` is `1` in `ZMod 2` exactly when `j` is even
  rcases Nat.mod_two_eq_zero_or_one j with h | h
  · rw [decide_eq_true h, ofBit_true]
    have : (j : ZMod 2) = 0 := by
      rw [← ZMod.natCast_mod, h, Nat.cast_zero]
    rw [this, zero_add]
  · rw [decide_eq_false (by omega), ofBit_false]
    have : (j : ZMod 2) = 1 := by
      rw [← ZMod.natCast_mod, h, Nat.cast_one]
    rw [this]
    rfl

/-! ### Square roots -/

/-- The pattern `2 ^ k * q + b`, with `b < 2 ^ k`, is `b` plus `x ^ k` times `q`. -/
theorem toPoly_two_pow_mul_add (k q : Nat) {b : Nat} (hb : b < 2 ^ k) :
    (⟨2 ^ k * q + b⟩ : GF2Poly).toPoly = toPoly ⟨b⟩ + Polynomial.X ^ k * toPoly ⟨q⟩ := by
  ext j
  simp only [Polynomial.coeff_add, coeff_X_pow_mul', coeff_toPoly, coeff]
  rw [Nat.testBit_two_pow_mul_add _ hb]
  split
  · next hj => rw [if_neg (by omega), add_zero]
  · next hj =>
    rw [if_pos (by omega), Nat.testBit_lt_two_pow (Nat.lt_of_lt_of_le hb
      (Nat.pow_le_pow_right (by decide) (not_lt.1 hj))), ofBit_false, zero_add]

/-- One step of `sqrtBits`: with no one at position 1, a square root `r` of `a / 4` gives the
square root `2 * r + a % 2` of `a`. -/
theorem sq_two_mul_add_mod {a r : Nat} (h1 : a.testBit 1 = false)
    (hsq : (toPoly ⟨r⟩) ^ 2 = toPoly ⟨a / 4⟩) : (toPoly ⟨2 * r + a % 2⟩) ^ 2 = toPoly ⟨a⟩ := by
  -- the pattern is `4 * (a / 4) + a % 2`: its bit 1 is zero
  have hlow : a % 4 = a % 2 := by
    rw [Nat.testBit, Nat.shiftRight_eq_div_pow] at h1
    simp at h1
    omega
  have hsplit : (⟨a⟩ : GF2Poly) = ⟨2 ^ 2 * (a / 4) + a % 2⟩ := by
    congr 1
    omega
  have hroot : (⟨2 * r + a % 2⟩ : GF2Poly).toPoly =
      toPoly ⟨a % 2⟩ + Polynomial.X ^ 1 * toPoly ⟨r⟩ :=
    toPoly_two_pow_mul_add 1 r (Nat.mod_lt _ (by decide))
  -- squaring is additive in characteristic 2, and the bit `a % 2` is its own square
  have hbit : (toPoly ⟨a % 2⟩) ^ 2 = toPoly ⟨a % 2⟩ := by
    rcases Nat.mod_two_eq_zero_or_one a with h | h <;> rw [h]
    · rw [toPoly_zero]; ring
    · rw [toPoly_one]; ring
  rw [hsplit, toPoly_two_pow_mul_add 2 _ (by omega), hroot, add_sq, hbit, mul_pow, ← hsq,
    show (2 : (ZMod 2)[X]) = 0 from CharTwo.two_eq_zero, zero_mul, zero_mul, add_zero, pow_one]

/-- **Square roots.**  A pattern without ones at odd positions has a square root, which squares
back to it. -/
theorem sqrtBits_spec (a : Nat) (hodd : ∀ i, a.testBit (2 * i + 1) = false) :
    ∃ r, sqrtBits a = some r ∧ (toPoly ⟨r⟩) ^ 2 = toPoly ⟨a⟩ := by
  induction a using Nat.strong_induction_on with
  | _ a ih =>
  rw [sqrtBits]
  split
  · next h => exact ⟨0, rfl, by simp [h]⟩
  · next h0 =>
    rw [if_neg (by simpa using hodd 0)]
    have hq : a / 4 < a := Nat.div_lt_self (Nat.pos_of_ne_zero h0) (by decide)
    obtain ⟨r, hr, hsq⟩ := ih (a / 4) hq fun i => by
      rw [show a / 4 = a >>> 2 by rw [Nat.shiftRight_eq_div_pow], Nat.testBit_shiftRight,
        show 2 + (2 * i + 1) = 2 * (i + 1) + 1 by ring]
      exact hodd (i + 1)
    exact ⟨2 * r + a % 2, by rw [hr]; rfl, sq_two_mul_add_mod (hodd 0) hsq⟩

/-- What `sqrtBits` returns squares back to the pattern. -/
theorem sqrtBits_sq {a r : Nat} (h : sqrtBits a = some r) : (toPoly ⟨r⟩) ^ 2 = toPoly ⟨a⟩ := by
  induction a using Nat.strong_induction_on generalizing r with
  | _ a ih =>
  rw [sqrtBits] at h
  split at h
  · next h0 =>
    cases h
    simp [h0]
  · next h0 =>
    split at h
    · cases h
    · next h1 =>
      obtain ⟨r', hr', rfl⟩ := Option.map_eq_some_iff.1 h
      exact sq_two_mul_add_mod (by simpa using h1)
        (ih (a / 4) (Nat.div_lt_self (Nat.pos_of_ne_zero h0) (by decide)) hr')

/-- The derivative is zero exactly when the pattern has no one at an odd position. -/
theorem deriv_eq_zero_iff (p : GF2Poly) :
    p.deriv.bits = 0 ↔ ∀ i, p.bits.testBit (2 * i + 1) = false := by
  constructor
  · intro h i
    have := coeff_deriv p (2 * i)
    rw [coeff, h, Nat.zero_testBit, decide_eq_true (by omega), Bool.and_true] at this
    exact this.symm
  · intro h
    apply Nat.eq_of_testBit_eq
    intro j
    rw [Nat.zero_testBit, show p.deriv.bits.testBit j = p.deriv.coeff j from rfl, coeff_deriv]
    rcases Nat.mod_two_eq_zero_or_one j with hj | hj
    · rw [coeff, show j + 1 = 2 * (j / 2) + 1 by omega, h, Bool.false_and]
    · rw [decide_eq_false (by omega), Bool.and_false]

/-- A polynomial with derivative zero is the square of its square root. -/
theorem squareRoot_spec {p : GF2Poly} (h : p.deriv.bits = 0) :
    ∃ r, p.squareRoot = some r ∧ r.toPoly ^ 2 = p.toPoly := by
  obtain ⟨r, hr, hsq⟩ := sqrtBits_spec p.bits ((deriv_eq_zero_iff p).1 h)
  exact ⟨⟨r⟩, by rw [squareRoot, hr]; rfl, hsq⟩

/-- The product rule, with the operations of `GF2Poly`. -/
theorem deriv_mul (a b : GF2Poly) : (a * b).deriv = a.deriv * b + a * b.deriv := by
  apply toPoly_injective
  simp only [toPoly_deriv, toPoly_mul, toPoly_add, derivative_mul]

/-- A square has derivative zero: the two terms of the product rule cancel. -/
theorem deriv_mul_self (s : GF2Poly) : (s * s).deriv.bits = 0 := by
  rw [← toPoly_eq_zero, toPoly_deriv, toPoly_mul, derivative_mul,
    mul_comm s.toPoly (derivative s.toPoly), CharTwo.add_self_eq_zero]

/-- What `squareRoot` returns squares back to the polynomial. -/
theorem squareRoot_mul_self {p r : GF2Poly} (h : p.squareRoot = some r) : r * r = p := by
  obtain ⟨r', hr', rfl⟩ := Option.map_eq_some_iff.1 h
  apply toPoly_injective
  rw [toPoly_mul, ← sq]
  exact sqrtBits_sq hr'

/-- A polynomial is a square exactly when its derivative is zero. -/
theorem exists_mul_self_iff (a : GF2Poly) : (∃ s, s * s = a) ↔ a.deriv.bits = 0 := by
  constructor
  · rintro ⟨s, rfl⟩
    exact deriv_mul_self s
  · intro h
    obtain ⟨r, hr, -⟩ := squareRoot_spec h
    exact ⟨r, squareRoot_mul_self hr⟩

/-- `squareRoot` fails exactly on the polynomials that are not squares. -/
theorem squareRoot_eq_none_iff (a : GF2Poly) : a.squareRoot = none ↔ ¬∃ s, s * s = a := by
  rw [exists_mul_self_iff]
  constructor
  · intro hnone hd
    obtain ⟨r, hr, -⟩ := squareRoot_spec hd
    rw [hnone] at hr
    cases hr
  · intro hd
    cases hr : a.squareRoot with
    | none => rfl
    | some r => exact absurd (squareRoot_mul_self hr ▸ deriv_mul_self r) hd

/-- **Derivatives and square roots.**  The derivative is the formal derivative, for polynomials
of every degree, so it obeys the product rule. `squareRoot` returns only roots that square back
to the polynomial, and fails exactly on the polynomials that are not squares; the squares are
the polynomials with derivative zero. -/
theorem formal_deriv_squareRoot (a b : GF2Poly) :
    a.deriv.toPoly = derivative a.toPoly ∧
    (a * b).deriv = a.deriv * b + a * b.deriv ∧
    (∀ r, a.squareRoot = some r → r * r = a) ∧
    (a.squareRoot = none ↔ ¬∃ s, s * s = a) ∧
    ((∃ s, s * s = a) ↔ a.deriv.bits = 0) :=
  ⟨toPoly_deriv a, deriv_mul a b, fun _ => squareRoot_mul_self, squareRoot_eq_none_iff a,
    exists_mul_self_iff a⟩

/-! ### Square-free polynomials -/

/-- **Square-free polynomials** are those prime to their derivative. -/
theorem gcd_deriv_eq_one_iff (p : GF2Poly) :
    (gcd p p.deriv).bits = 1 ↔ Squarefree p.toPoly := by
  rw [gcd_bits_eq_one_iff, toPoly_deriv, ← separable_def, PerfectField.separable_iff_squarefree]

end FiniteRings.GF2Poly
