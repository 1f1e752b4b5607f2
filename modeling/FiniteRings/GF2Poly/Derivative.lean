import FiniteRings.GF2Poly.Basic

/-!
# Derivative and square root

In characteristic 2 the derivative of `x ^ j` is `x ^ (j - 1)` for odd `j` and zero for even
`j`, so the derivative keeps the coefficients at odd positions, each moved down by one. The
mask of even positions that selects them is grown one 64-bit word at a time until it is at least
the polynomial, so that it reaches every position.

Squaring is additive in characteristic 2, so the square of `Σ cⱼ x ^ j` is `Σ cⱼ x ^ (2 * j)`.
A polynomial is therefore a square exactly when it has no coefficient at an odd position, and
its square root then takes the coefficient of `x ^ (2 * j)` to `x ^ j`.
-/

namespace FiniteRings.GF2Poly

/-- The mask of the derivative of `a`: starting from `mask`, the mask is moved up by a 64-bit
word and that word is filled with ones at its even positions, until the mask is at least `a`. -/
def derivMask (a mask : Nat) : Nat :=
  if mask < a then derivMask a (mask <<< 64 ||| 0x5555555555555555) else mask
termination_by a - mask
decreasing_by
  have : mask <<< 64 ≤ mask <<< 64 ||| 0x5555555555555555 := Nat.left_le_or
  have : 0x5555555555555555 ≤ mask <<< 64 ||| 0x5555555555555555 := Nat.right_le_or
  have : mask <<< 64 = mask * 18446744073709551616 := Nat.shiftLeft_eq mask 64
  omega

/-- The formal derivative: the coefficients moved down by one position, masked to the even
positions by a mask grown from one 64-bit word. -/
def deriv (p : GF2Poly) : GF2Poly := ⟨(p.bits >>> 1) &&& derivMask p.bits 0x5555555555555555⟩

/-- The square root of a bit pattern without ones at odd positions. -/
def sqrtBits (a : Nat) : Option Nat :=
  if a = 0 then some 0
  else if a.testBit 1 then none
  else (sqrtBits (a / 4)).map fun r => 2 * r + a % 2
termination_by a
decreasing_by omega

/-- The square root, if `p` is a square. -/
def squareRoot (p : GF2Poly) : Option GF2Poly := (sqrtBits p.bits).map GF2Poly.mk

end FiniteRings.GF2Poly
