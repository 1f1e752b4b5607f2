import FiniteRings.Arg
import FiniteRings.GF2Poly.Division
import FiniteRings.GF2Poly.Text

/-!
# Operands of polynomial operations

The right operand of an operation on polynomials is a polynomial, or an integer word used as it
is. On a word the operations work on its two's complement bits: a sum is the exclusive or of the
words, a product takes the word's bits up to `wordDegree` as its coefficients, and a division
runs the long division on the words themselves. A result that comes out negative is no
polynomial, and `GF2Poly.ofInt` refuses it.

For a polynomial operand every operation is the one of `GF2Poly`.
-/

namespace FiniteRings.GF2Poly

/-- The polynomial that an argument of unchecked kind stands for: an integer gives its bits, a
text is read as a hexadecimal literal, and any other kind is refused. -/
def ofArg : Arg → Outcome GF2Poly
  | .int n => ofInt n
  | .text s => ofHex s
  | .other k _ => .error (.notAnInteger k)

/-- The right operand of a polynomial operation. -/
inductive Operand where
  | poly (p : GF2Poly)
  | word (w : Int)
  deriving Repr, DecidableEq

namespace Operand

/-- The integer that the operand stands for. -/
def toInt : Operand → Int
  | poly p => p.bits
  | word w => w

/-- The operand as a polynomial, refusing a negative word. -/
def toPoly : Operand → Outcome GF2Poly
  | poly p => .ok p
  | word w => ofInt w

end Operand

/-- `a + b`, which is also `a - b`, `b + a` and `b - a`. -/
def addOperand (a : GF2Poly) : Operand → Outcome GF2Poly
  | .poly b => .ok (a + b)
  | .word w => ofInt (Signed.xor a.bits w)

/-- `a * b`, which is also `b * a`. -/
def mulOperand (a : GF2Poly) : Operand → GF2Poly
  | .poly b => a * b
  | .word w => a * ofWord w

/-- Quotient and remainder of `a` by `b`. -/
def divModOperand (a : GF2Poly) : Operand → Outcome (Outcome GF2Poly × Outcome GF2Poly)
  | .poly b => (fun (q, r) => (.ok q, .ok r)) <$> divMod a b
  | .word w => (fun (q, r) => (ofInt q, ofInt r)) <$> divModWords a.bits w

/-- Quotient and remainder of `b` by `a`. -/
def divModReflected (a : GF2Poly) : Operand → Outcome (Outcome GF2Poly × Outcome GF2Poly)
  | .poly b => (fun (q, r) => (.ok q, .ok r)) <$> divMod b a
  | .word w => (fun (q, r) => (ofInt q, ofInt r)) <$> divModWords w a.bits

/-- Both parts of a division, each of which must be a polynomial. -/
def bothParts (d : Outcome (Outcome GF2Poly × Outcome GF2Poly)) : Outcome (GF2Poly × GF2Poly) := do
  let (q, r) ← d
  return (← q, ← r)

/-- The six comparisons `<`, `≤`, `>`, `≥`, `=`, `≠` of `a` with `b`, by integer value. -/
def compareOperand (a : GF2Poly) (b : Operand) : List Bool :=
  let x : Int := a.bits
  let y := b.toInt
  [decide (x < y), decide (x ≤ y), decide (x > y), decide (x ≥ y), decide (x = y), decide (x ≠ y)]

end FiniteRings.GF2Poly
