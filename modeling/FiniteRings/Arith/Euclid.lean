import FiniteRings.Error

/-!
# Euclid's algorithm on integers

Remainders round the quotient toward negative infinity (`Int.fdiv`, `Int.fmod`), so a remainder
has the sign of its divisor. Each step of Euclid's loop replaces `(a, b)` by `(b, a fmod b)`,
and `natAbs_fmod_lt` makes the divisor smaller in absolute value, which ends the loop.

* `gcd a b` returns the other argument unchanged when one of them is zero, and otherwise the
  absolute value of the last nonzero remainder.
* `extGcd a b` is Blankinship's form of the extended algorithm: it keeps two rows
  `(c, m₁, n₁)` and `(d, m, n)` with `a * m₁ + b * n₁ = c` and `a * m + b * n = d`, and returns
  the last nonzero remainder `d` (with the sign it happens to have) and its coefficients.
-/

namespace FiniteRings.Arith

/-- A floor remainder is smaller than its nonzero divisor in absolute value. -/
theorem natAbs_fmod_lt (a : Int) {b : Int} (hb : b ≠ 0) : (a.fmod b).natAbs < b.natAbs := by
  rw [Int.fmod_eq_emod]
  have h0 := Int.emod_nonneg a hb
  have h1 := Int.emod_lt a hb
  split
  · next h =>
    rw [Int.add_zero]
    omega
  · next h =>
    have hne : a % b ≠ 0 := fun h' => h (Or.inr (Int.dvd_of_emod_eq_zero h'))
    omega

/-- Euclid's loop from a nonzero divisor `b`. -/
def gcdLoop (a b : Int) (hb : b ≠ 0) : Int :=
  if hr : a.fmod b = 0 then (b.natAbs : Int)
  else
    have : (a.fmod b).natAbs < b.natAbs := natAbs_fmod_lt a hb
    gcdLoop b (a.fmod b) hr
termination_by b.natAbs

/-- The greatest common divisor, nonnegative unless an argument is zero, in which case the other
argument is returned as it is. -/
def gcd (a b : Int) : Int :=
  if a = 0 then b else if hb : b = 0 then a else gcdLoop a b hb

/-- Blankinship's loop on the rows `(c, m₁, n₁)` and `(d, m, n)`. -/
def extGcdLoop (c d m₁ m n₁ n : Int) (hd : d ≠ 0) : Int × Int × Int :=
  if hr : c.fmod d = 0 then (d, m, n)
  else
    let q := c.fdiv d
    have : (c.fmod d).natAbs < d.natAbs := natAbs_fmod_lt c hd
    extGcdLoop d (c.fmod d) m (m₁ - q * m) n (n₁ - q * n) hr
termination_by d.natAbs

/-- The extended algorithm: `(d, m, n)` with `a * m + b * n = d`, where `d` is a greatest common
divisor of `a` and `b` up to sign. The divisor `b` must be nonzero. -/
def extGcd (a b : Int) : Outcome (Int × Int × Int) :=
  if hb : b = 0 then .error .divisionByZero else .ok (extGcdLoop a b 1 0 0 1 hb)

/-- The least common multiple `a * b` floor-divided by `gcd a b`; both zero is a division by
zero. -/
def lcm (a b : Int) : Outcome Int :=
  let g := gcd a b
  if g = 0 then .error .divisionByZero else .ok ((a * b).fdiv g)

end FiniteRings.Arith
