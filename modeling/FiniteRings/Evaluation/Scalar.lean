import FiniteRings.Binary64.Power
import FiniteRings.IntResidue
import FiniteRings.PolyResidue

/-!
# The values of an evaluation

An evaluation over the residues or the polynomials holds values of several kinds at once: the
elements of its ring, the integers that serve as exponents, and what operations on these give.
A `Scalar` is one of them: an integer, a float, a complex number, an integer residue, a
polynomial over GF(2) or a polynomial residue. An operation decides by the kinds of its two
operands what it means, and fails when it has no meaning for them:

* integers, floats and complex numbers form a tower: two integers give an integer (or, for a
  negative power, a float), and otherwise both operands go to the higher of the two kinds;
* an integer residue combines with a residue of the same modulus or with an integer on either
  side, a polynomial with a polynomial or an integer word, and a polynomial residue with a
  residue of the same modulus, a polynomial or an integer word;
* a residue or a polynomial is raised to integer powers only.

The quotients of the rings divide by a `Divisor`: a value with a test for zero, which integers,
floats and complex numbers lack.
-/

namespace FiniteRings

/-- A value of an evaluation. -/
inductive Scalar where
  | int (n : Int)
  | float (x : Float)
  | complex (z : Binary64.Complex)
  | residue (x : IntResidue)
  | poly (p : GF2Poly)
  | polyResidue (x : PolyResidue)

namespace Scalar

/-- The name of the kind of a value. -/
def kindName : Scalar → String
  | int _ => "int"
  | float _ => "float"
  | complex _ => "complex"
  | residue _ => "IntMod"
  | poly _ => "F2Poly"
  | polyResidue _ => "F2PolyMod"

/-- Floats are written positionally when their leading digit has an exponent from `-4` to `15`,
integral values with a `.0`, and exponents with at least two digits. -/
def floatNotation : Decimal.Notation := ⟨-4, 16, true, 2, false⟩

/-- The written value: integers and residues in decimal, polynomials and their residues in
hexadecimal. -/
def text : Scalar → String
  | int n => toString n
  | float x => Decimal.render floatNotation x
  | complex z => z.text
  | residue x => x.text
  | poly p => p.toHex
  | polyResidue x => x.text

/-- The failure of the operator `op` on operands of kinds it does not combine. -/
def unsupported (op : String) (a b : Scalar) : Error :=
  .operandKind (op ++ ": " ++ Text.quoted a.kindName ++ " and " ++ Text.quoted b.kindName)

/-- The float of an integer, which must be below `2 ^ 1024` in magnitude after rounding. -/
def toFloat (n : Int) : Outcome Float :=
  match Binary64.ofInt? n with
  | some x => .ok x
  | none => .error .intTooLarge

/-- An integer or a float, as a float. -/
def real? : Scalar → Option (Outcome Float)
  | int n => some (toFloat n)
  | float x => some (.ok x)
  | _ => none

/-- An integer, a float or a complex number, as a complex number. -/
def complex? : Scalar → Option (Outcome Binary64.Complex)
  | int n => some (Binary64.Complex.ofReal <$> toFloat n)
  | float x => some (.ok (Binary64.Complex.ofReal x))
  | complex z => some (.ok z)
  | _ => none

/-- An operation on the tower of numbers: `onInt` for two integers, `onComplex` when either
operand is complex, and `onFloat` otherwise; none when either operand is not a number. The left
operand is converted first. -/
def arith (onInt : Int → Int → Outcome Scalar) (onFloat : Float → Float → Outcome Scalar)
    (onComplex : Binary64.Complex → Binary64.Complex → Outcome Scalar) (a b : Scalar) :
    Option (Outcome Scalar) :=
  match a, b with
  | int m, int n => some (onInt m n)
  | complex _, _ | _, complex _ => do
    let x ← a.complex?
    let y ← b.complex?
    return do onComplex (← x) (← y)
  | _, _ => do
    let x ← a.real?
    let y ← b.real?
    return do onFloat (← x) (← y)

/-- The sum of two polynomial values, which is also their difference; none when either is not
one, or neither is a polynomial or a polynomial residue. -/
def addPolys? (a b : Scalar) : Option (Outcome Scalar) :=
  match a, b with
  | poly p, poly q => some (.ok (poly (p + q)))
  | poly p, int n | int n, poly p => some (poly <$> GF2Poly.addOperand p (.word n))
  | polyResidue x, polyResidue y => some (polyResidue <$> x.add (.residue y))
  | polyResidue x, poly p | poly p, polyResidue x => some (polyResidue <$> x.add (.plain (.poly p)))
  | polyResidue x, int n | int n, polyResidue x => some (polyResidue <$> x.add (.plain (.word n)))
  | _, _ => none

/-- `a + b`. -/
def add (a b : Scalar) : Outcome Scalar :=
  match arith (fun m n => .ok (int (m + n))) (fun x y => .ok (float (x + y)))
      (fun z w => .ok (complex (z.add w))) a b with
  | some r => r
  | none =>
    match addPolys? a b with
    | some r => r
    | none =>
      match a, b with
      | residue x, residue y => residue <$> x.add (.residue y)
      | residue x, int n | int n, residue x => residue <$> x.add (.int n)
      | _, _ => .error (unsupported "+" a b)

/-- `a - b`. -/
def sub (a b : Scalar) : Outcome Scalar :=
  match arith (fun m n => .ok (int (m - n))) (fun x y => .ok (float (x - y)))
      (fun z w => .ok (complex (z.sub w))) a b with
  | some r => r
  | none =>
    match addPolys? a b with
    | some r => r
    | none =>
      match a, b with
      | residue x, residue y => residue <$> x.sub (.residue y)
      | residue x, int n => residue <$> x.sub (.int n)
      | int n, residue x => .ok (residue (IntResidue.subFrom n x))
      | _, _ => .error (unsupported "-" a b)

/-- `a * b`. -/
def mul (a b : Scalar) : Outcome Scalar :=
  match arith (fun m n => .ok (int (m * n))) (fun x y => .ok (float (x * y)))
      (fun z w => .ok (complex (z.mul w))) a b with
  | some r => r
  | none =>
    match a, b with
    | residue x, residue y => residue <$> x.mul (.residue y)
    | residue x, int n | int n, residue x => residue <$> x.mul (.int n)
    | poly p, poly q => .ok (poly (p * q))
    | poly p, int n | int n, poly p => .ok (poly (GF2Poly.mulOperand p (.word n)))
    | polyResidue x, polyResidue y => polyResidue <$> x.mul (.residue y)
    | polyResidue x, poly p | poly p, polyResidue x => polyResidue <$> x.mul (.plain (.poly p))
    | polyResidue x, int n | int n, polyResidue x => polyResidue <$> x.mul (.plain (.word n))
    | _, _ => .error (unsupported "*" a b)

/-- The value of a real or complex number. -/
def ofNumber : Binary64.Number → Scalar
  | .real x => float x
  | .complex z => complex z

/-- `a ^ b`: integer powers of integers, residues and polynomials, with a negative power of an
integer taken in floats, and powers of floats and complex numbers. -/
def pow (a b : Scalar) : Outcome Scalar :=
  match a, b with
  | int m, int n =>
    if 0 ≤ n then .ok (int (Arith.powAcc 1 m n.toNat))
    else do ofNumber <$> Binary64.powReal (← toFloat m) (← toFloat n)
  | residue x, int n => residue <$> x.pow n
  | poly p, int n => poly <$> p.pow n
  | polyResidue x, int n => polyResidue <$> x.pow n
  | _, _ =>
    match arith (fun _ _ => .error (unsupported "** or pow()" a b))
        (fun x y => ofNumber <$> Binary64.powReal x y) (fun z w => complex <$> z.pow w) a b with
    | some r => r
    | none => .error (unsupported "** or pow()" a b)

/-- `-a`; polynomials and their residues are their own negatives. -/
def neg : Scalar → Scalar
  | int n => int (-n)
  | float x => float (-x)
  | complex z => complex z.neg
  | residue x => residue x.neg
  | poly p => poly p
  | polyResidue x => polyResidue x

/-- A value with a test for zero, by which the ring quotients divide. -/
inductive Divisor where
  | residue (y : IntResidue)
  | poly (p : GF2Poly)
  | polyResidue (y : PolyResidue)

/-- The divisor as a value. -/
def Divisor.scalar : Divisor → Scalar
  | .residue y => .residue y
  | .poly p => .poly p
  | .polyResidue y => .polyResidue y

/-- Whether the divisor is zero. -/
def Divisor.isZero : Divisor → Bool
  | .residue y => y.isZero
  | .poly p => p.isZero
  | .polyResidue y => y.isZero

/-- Whether the divisor is a unit of its ring; plain polynomials have no such test. -/
def Divisor.isUnit : Divisor → Outcome Bool
  | .residue y => .ok y.isUnit
  | .poly _ => .error (.noAttribute "F2Poly" "is_unit")
  | .polyResidue y => .ok y.isUnit

/-- `b` as a divisor; numbers have no test for zero. -/
def divisor : Scalar → Outcome Divisor
  | residue y => .ok (.residue y)
  | poly p => .ok (.poly p)
  | polyResidue y => .ok (.polyResidue y)
  | b => .error (.noAttribute b.kindName "is_zero")

/-- `a / d` in the residue rings: a residue times the inverse of the divisor, or the inverse of
the divisor times a plain operand on the left. -/
def trueDiv (a : Scalar) (d : Divisor) : Outcome Scalar :=
  match d, a with
  | .residue y, residue x => residue <$> x.div (.residue y)
  | .residue y, int n => residue <$> y.divInto n
  | .poly p, polyResidue x => polyResidue <$> x.div (.plain (.poly p))
  | .polyResidue y, polyResidue x => polyResidue <$> x.div (.residue y)
  | .polyResidue y, int n => polyResidue <$> y.divInto (.word n)
  | .polyResidue y, poly p => polyResidue <$> y.divInto (.poly p)
  | _, _ => .error (unsupported "/" a d.scalar)

/-- `a // d`: the quotient of long division of polynomials, with an integer word on the left. -/
def floorDiv (a : Scalar) (d : Divisor) : Outcome Scalar :=
  match d, a with
  | .poly p, poly q => do
    let (quo, _) ← GF2Poly.divModOperand q (.poly p)
    poly <$> quo
  | .poly p, int n => do
    let (quo, _) ← GF2Poly.divModReflected p (.word n)
    poly <$> quo
  | _, _ => .error (unsupported "//" a d.scalar)

/-- `a % d`: the remainder of long division of polynomials, with an integer word on the left. -/
def modulo (a : Scalar) (d : Divisor) : Outcome Scalar :=
  match d, a with
  | .poly p, poly q => do
    let (_, rem) ← GF2Poly.divModOperand q (.poly p)
    poly <$> rem
  | .poly p, int n => do
    let (_, rem) ← GF2Poly.divModReflected p (.word n)
    poly <$> rem
  | _, _ => .error (unsupported "%" a d.scalar)

/-- The residue of a residue value, as an integer. -/
def residueValue : Scalar → Outcome Int
  | residue x => .ok x.residue
  | polyResidue x => .ok x.residue.bits
  | a => .error (.noAttribute a.kindName "residue")

/-- The bits of a polynomial value. -/
def polyValue : Scalar → Outcome Nat
  | poly p => .ok p.bits
  | a => .error (.noAttribute a.kindName "value")

end Scalar

end FiniteRings
