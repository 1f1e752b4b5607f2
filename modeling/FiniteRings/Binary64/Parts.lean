/-!
# Binary64 floats by their parts

A finite binary64 float is `±m · 2 ^ q`. Its 64 bits hold a sign bit, an 11-bit biased exponent
`E` and a 52-bit fraction `f`: for `0 < E < 2047` the value is normal, with `m = 2 ^ 52 + f` and
`q = E - 1075`; for `E = 0` it is subnormal, with `m = f` and `q = -1074`; `E = 2047` holds the
infinities and NaN. `Parts.ofFloat` reads the parts of a finite float.

The gaps to the neighbouring floats are `2 ^ q` on both sides, except at a power of two above the
least normal exponent, where the float below is only half as far away (`narrowBelow`).

From the parts come the integer that a float is, if it is one (`integral?`), and whether that
integer is odd: both are exact, with no rounding anywhere.
-/

namespace FiniteRings.Binary64

/-- A finite float `±significand · 2 ^ exponent`, with the narrow gap below a power of two. -/
structure Parts where
  negative : Bool
  significand : Nat
  exponent : Int
  narrowBelow : Bool
  deriving DecidableEq, Repr

/-- The number of fraction bits. -/
def fractionWidth : Nat := 52

/-- The sign, exponent and fraction of the bits `b`, read as a finite float. -/
def Parts.ofBits (b : Nat) : Parts :=
  let biased := (b / Nat.pow 2 fractionWidth) % 2048
  let fraction := b % Nat.pow 2 fractionWidth
  let negative := decide (Nat.pow 2 63 ≤ b)
  if biased = 0 then ⟨negative, fraction, -1074, false⟩
  else ⟨negative, Nat.pow 2 fractionWidth + fraction, (biased : Int) - 1075,
    fraction == 0 && decide (1 < biased)⟩

/-- The parts of a finite float. -/
def Parts.ofFloat (x : Float) : Parts := Parts.ofBits x.toBits.toNat

/-- The integer that a finite float is, if it is one. -/
def integral? (x : Float) : Option Int :=
  if !x.isFinite then none
  else
    let p := Parts.ofFloat x
    let magnitude : Option Nat :=
      if 0 ≤ p.exponent then some (p.significand * Nat.pow 2 p.exponent.toNat)
      else
        let d := Nat.pow 2 (-p.exponent).toNat
        if p.significand % d = 0 then some (p.significand / d) else none
    magnitude.map fun n => if p.negative then -(n : Int) else n

/-- Whether `x` is an odd integer. -/
def isOddInteger (x : Float) : Bool :=
  match integral? x with
  | some n => n % 2 == 1
  | none => false

example : Parts.ofBits 0x3FF0000000000000 = ⟨false, Nat.pow 2 52, -52, true⟩ := by decide
example : Parts.ofBits 0x0010000000000000 = ⟨false, Nat.pow 2 52, -1074, false⟩ := by decide
example : Parts.ofBits 1 = ⟨false, 1, -1074, false⟩ := by decide

end FiniteRings.Binary64
