import FiniteRings.Binary64.Parts

/-!
# The length of a vector

`hypot x y` is `√(x² + y²)` computed in floats, without overflow or underflow on the way. With
`a ≥ b ≥ 0` the magnitudes of the two operands, it takes `h = √(a² + b²)` rounded, and then
corrects `h` by one step, `h - (h² - a² - b²) / 2h`, where the error `h² - a² - b²` is
computed in pieces that are exact or nearly so:

* when `h ≤ 2b`, with `δ = h - b`, it is `a (2δ - a) + (δ - 2 (a - b)) δ`;
* otherwise, with `δ = h - a`, it is `2δ (a - 2b) + (4δ - b) b + δ²`.

Operands above `2 ^ 511` are scaled down by `2 ^ -600` first, and those with the smaller below
`2 ^ -511` scaled up by `2 ^ 600`; the result is scaled back. When the smaller operand is
negligible (at most `2 ^ -54` of the larger), the length is their sum. An infinite operand
gives infinity, even beside NaN, and otherwise a NaN operand gives NaN.
-/

namespace FiniteRings.Binary64

/-- The float `2 ^ k`, for `-1022 ≤ k ≤ 1023`. -/
def twoPow (k : Int) : Float :=
  Float.ofBits (UInt64.ofNat ((k + 1023).toNat * Nat.pow 2 fractionWidth))

/-- The corrected length for `a ≥ b ≥ 0` whose squares are in range. -/
def hypotKernel (a b : Float) : Float :=
  let h := Float.sqrt (a * a + b * b)
  let (t₁, t₂) :=
    if h ≤ 2.0 * b then
      let δ := h - b
      (a * (2.0 * δ - a), (δ - 2.0 * (a - b)) * δ)
    else
      let δ := h - a
      (2.0 * δ * (a - 2.0 * b), (4.0 * δ - b) * b + δ * δ)
  h - (t₁ + t₂) / (2.0 * h)

/-- The length `√(x² + y²)`. -/
def hypot (x y : Float) : Float :=
  if x.isInf || y.isInf then Float.ofBits 0x7FF0000000000000
  else if x.isNaN || y.isNaN then x + y
  else
    let x := x.abs
    let y := y.abs
    let a := if x < y then y else x
    let b := if x < y then x else y
    let negligible := twoPow (-54)
    if twoPow 511 < a then
      if b ≤ a * negligible then a + b
      else hypotKernel (a * twoPow (-600)) (b * twoPow (-600)) / twoPow (-600)
    else if b < twoPow (-511) then
      if b / negligible ≤ a then a + b
      else hypotKernel (a / twoPow (-600)) (b / twoPow (-600)) * twoPow (-600)
    else if b ≤ a * negligible then a + b
    else hypotKernel a b

example : (twoPow 0).toBits = 0x3FF0000000000000 := by decide +kernel
example : (twoPow (-600)).toBits = 0x1A70000000000000 := by decide +kernel

end FiniteRings.Binary64
