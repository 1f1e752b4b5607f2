import FiniteRings.Binary64.Parts

/-!
# Rounding exact values to binary64

A float is the exact value rounded once: to the nearest float, a tie going to the even
significand. `roundBits` does this for a nonnegative value `(n + δ) · 2 ^ e`, where the flag
`inexact` says whether a fraction `0 < δ < 1` was cut off below `n`: then the value lies strictly
between two candidates of `n`, so it is a tie only when nothing was cut off.

The significand keeps 53 bits, or fewer below the least normal exponent, where the last bit is
always worth `2 ^ -1074`. With `q` the significand and `k` the exponent of its last bit, the bits
of the float are `(k + 1074) · 2 ^ 52 + q`, both for normal values (`2 ^ 52 ≤ q`) and subnormal
ones (`k = -1074`). A value that rounds to `2 ^ 1024` or more is infinite.

An integer rounds this way in `ofInt?`, which refuses the infinite result.
-/

namespace FiniteRings.Binary64

/-- The number of bits of `n`: the least `k` with `n < 2 ^ k`. -/
def bitLength (n : Nat) : Nat := if n = 0 then 0 else n.log2 + 1

/-- The bits of the float nearest to `(n + δ) · 2 ^ e`, where `δ` is zero when `inexact` is
false and strictly between zero and one when it is true. An inexact `n` must keep two bits
below the last bit of the result. -/
def roundBits (n : Nat) (e : Int) (inexact : Bool) : Nat :=
  if n = 0 then 0
  else
    let lead : Int := (bitLength n : Int) - 1 + e
    let last : Int := max (lead - 52) (-1074)
    let shift : Int := last - e
    let q : Nat :=
      if shift ≤ 0 then n * Nat.pow 2 (-shift).toNat
      else
        let d := Nat.pow 2 shift.toNat
        let low := n % d
        let q₀ := n / d
        if d / 2 < low || (low == d / 2 && (inexact || q₀ % 2 == 1)) then q₀ + 1 else q₀
    let (q, last) := if q = Nat.pow 2 53 then (Nat.pow 2 52, last + 1) else (q, last)
    if 972 ≤ last then 2047 * Nat.pow 2 52
    else (last + 1074).toNat * Nat.pow 2 52 + q

/-- The float nearest to `±(n + δ) · 2 ^ e`, as `roundBits` rounds it. -/
def round (negative : Bool) (n : Nat) (e : Int) (inexact : Bool) : Float :=
  Float.ofBits (UInt64.ofNat (roundBits n e inexact + if negative then Nat.pow 2 63 else 0))

/-- The float nearest to the integer `n`, unless that is infinite. Zero is the positive zero. -/
def ofInt? (n : Int) : Option Float :=
  let x := round (decide (n < 0)) n.natAbs 0 false
  if x.isInf then none else some x

example : roundBits 1 0 false = 0x3FF0000000000000 := by decide
example : roundBits (Nat.pow 2 53 + 1) 0 false = 0x4340000000000000 := by decide
example : roundBits (Nat.pow 2 53 + 3) 0 false = 0x4340000000000002 := by decide
example : roundBits 1 (-1074) false = 1 := by decide

end FiniteRings.Binary64
