import FiniteRings.Text.Literal
import FiniteRings.Evaluation.Scalar

/-!
# The rings of an expression evaluator

An evaluator reads literals, combines values with the ring operations, and raises values to
exponents, which are integers in every ring. `NumericRing` names the five rings:

* `int`: the integers. Quotients and remainders are truncated toward zero, and powers take
  nonnegative exponents. A value serves as an exponent when it fits a signed 64-bit word.
* `mod n`: the integers modulo `n` as plain integers in `[0, n)`. The inverse of `a` comes from
  the extended algorithm of Euclid on `a mod n` and `n`; a remainder `a mod b` is taken of the
  plain integers and then reduced. Exponents and values are the same integers.
* `residues n`: the integers modulo `n` as `IntResidue`s; there is no remainder.
* `poly`: the polynomials over GF(2), written as hexadecimal words, with the quotient and the
  remainder of long division.
* `polyResidues m`: the polynomials modulo `m` as `PolyResidue`s; there is no remainder.

In the first two rings every value is an integer. In the other three, exponents stay integers
beside the ring elements, and an operation may meet both, so values there are `Scalar`s and each
operation means what it means for the kinds of its operands. A quotient (and a remainder of
polynomials) first asks its divisor whether it is zero, and a quotient of integer residues also
whether it is a unit.

In the polynomial rings exponents are small: literals are decimal numerals up to `2 ^ 31 - 1`,
and a value serves as an exponent when its bits are at most that.

`forMode` picks a ring by the name of its mode and an optional modulus.
-/

namespace FiniteRings

open Text

/-- The rings of an evaluator. -/
inductive NumericRing where
  | int
  | mod (n : Int) (h : 0 < n)
  | residues (n : Int) (h : 0 < n)
  | poly
  | polyResidues (m : GF2Poly) (h : 0 < m.bits)

namespace NumericRing

/-- The values of a ring: integers in the integer rings, and `Scalar`s in the others. -/
abbrev Value : NumericRing → Type
  | int => Int
  | mod _ _ => Int
  | residues _ _ => Scalar
  | poly => Scalar
  | polyResidues _ _ => Scalar

/-- The names of the modes, in the order that messages list them. -/
def modeNames : List String := ["int", "mod", "intmod", "f2poly", "f2polymod"]

/-- The ring of a mode with a modulus, if one is given: `mod` and `intmod` take a positive
integer, `f2polymod` a nonzero polynomial (an integer or a hexadecimal text), and `int` and
`f2poly` ignore it. -/
def ofMode (mode : String) (modulus : Option Arg) : Outcome NumericRing :=
  if mode = "int" then .ok int
  else if mode = "f2poly" then .ok poly
  else match modulus with
    | none => .error (.missingModulus mode)
    | some m =>
      if mode = "f2polymod" then do
        let p ← GF2Poly.ofArg m
        if h : 0 < p.bits then return polyResidues p h else throw .zeroModulus
      else match m with
        | .int n =>
          if h : 0 < n then .ok (if mode = "mod" then NumericRing.mod n h else residues n h)
          else .error (.modulusNotPositive (toString n))
        | a => .error (.modulusNotPositive a.shown)

/-- The ring of the mode that `mode` names, which must be one of `modeNames`. -/
def forMode (mode : Arg) (modulus : Option Arg) : Outcome NumericRing :=
  match mode with
  | .text name => if modeNames.contains name then ofMode name modulus
      else .error (.unknownMode (quoted name))
  | a => .error (.unknownMode a.shown)

/-- Reads a literal of a value. -/
def ofLiteral : (R : NumericRing) → String → Outcome R.Value
  | int, s => readInteger s
  | mod n _, s => (· % n) <$> readInteger s
  | residues n h, s => (fun r => .residue (IntResidue.reduce r n h)) <$> readInteger s
  | poly, s => (fun w => .poly (GF2Poly.mk w)) <$> readHexWord s
  | polyResidues m h, s => (fun w => .polyResidue (PolyResidue.reduce ⟨w⟩ m h)) <$> readHexWord s

/-- Reads a literal of an exponent. -/
def exponentOfLiteral : NumericRing → String → Outcome Int
  | int, s | mod _ _, s | residues _ _, s => readInteger s
  | poly, s | polyResidues _ _, s => Int.ofNat <$> readSmallExponent s

/-- The value that an exponent is when an operation takes it as an operand. -/
def ofExponent : (R : NumericRing) → Int → R.Value
  | int, e => e
  | mod _ _, e => e
  | residues _ _, e => .int e
  | poly, e => .int e
  | polyResidues _ _, e => .int e

/-- The written value. -/
def text : (R : NumericRing) → R.Value → String
  | int, a => toString a
  | mod _ _, a => toString a
  | residues _ _, x => x.text
  | poly, x => x.text
  | polyResidues _ _, x => x.text

/-- The inverse of `a` modulo `n`, from the extended algorithm of Euclid. -/
def modInverse (a n : Int) : Outcome Int := do
  let (g, s, _) ← Arith.extGcd (a % n) n
  if g.natAbs ≠ 1 then throw (.noModularInverse (toString a) n)
  return (s * g) % n

/-- The sum. -/
def add : (R : NumericRing) → R.Value → R.Value → Outcome R.Value
  | int, a, b => .ok (a + b)
  | mod n _, a, b => .ok ((a + b) % n)
  | residues _ _, x, y => x.add y
  | poly, x, y => x.add y
  | polyResidues _ _, x, y => x.add y

/-- The difference. -/
def sub : (R : NumericRing) → R.Value → R.Value → Outcome R.Value
  | int, a, b => .ok (a - b)
  | mod n _, a, b => .ok ((a - b) % n)
  | residues _ _, x, y => x.sub y
  | poly, x, y => x.sub y
  | polyResidues _ _, x, y => x.sub y

/-- The product. -/
def mul : (R : NumericRing) → R.Value → R.Value → Outcome R.Value
  | int, a, b => .ok (a * b)
  | mod n _, a, b => .ok ((a * b) % n)
  | residues _ _, x, y => x.mul y
  | poly, x, y => x.mul y
  | polyResidues _ _, x, y => x.mul y

/-- The quotient of integers truncated toward zero: the quotient of the magnitudes, negated when
the signs differ. -/
def truncQuot (a b : Int) : Int :=
  let q : Int := (a.natAbs / b.natAbs : Nat)
  if (a < 0 ↔ b < 0) then q else -q

/-- The quotient: truncated for integers, the product with the inverse in the residue rings, and
the quotient of long division for polynomials. The divisor must be nonzero, and in the integer
residues a unit. -/
def div : (R : NumericRing) → R.Value → R.Value → Outcome R.Value
  | int, a, b => if b = 0 then .error .zeroDivisionInRing else .ok (truncQuot a b)
  | mod n _, a, b => (fun i => (a * i) % n) <$> modInverse b n
  | residues n _, x, y => do
    let d ← y.divisor
    if d.isZero then throw .zeroDivisionInRing
    if !(← d.isUnit) then throw (.noModularInverse d.scalar.text n)
    x.trueDiv d
  | poly, x, y => do
    let d ← y.divisor
    if d.isZero then throw .zeroDivisionInRing
    x.floorDiv d
  | polyResidues _ _, x, y => do
    let d ← y.divisor
    if d.isZero then throw .zeroDivisionInRing
    x.trueDiv d

/-- The remainder: what the truncated quotient leaves of an integer, of the plain integers and
then reduced modulo `n`, and of long division for polynomials; the residue rings have none. -/
def rem : (R : NumericRing) → R.Value → R.Value → Outcome R.Value
  | int, a, b => if b = 0 then .error .remainderByZero else .ok (a - b * truncQuot a b)
  | mod n _, a, b => if b = 0 then .error .remainderByZero else .ok (a.fmod b % n)
  | residues _ _, _, _ => .error .remainderOfResidues
  | poly, x, y => do
    let d ← y.divisor
    if d.isZero then throw .remainderByZero
    x.modulo d
  | polyResidues _ _, _, _ => .error .remainderOfPolyResidues

/-- The power `a ^ e`; a negative exponent inverts first where the ring allows it. -/
def pow : (R : NumericRing) → R.Value → R.Value → Outcome R.Value
  | int, a, e => if e < 0 then .error .negativePower else .ok (Arith.powAcc 1 a e.toNat)
  | mod n _, a, e => do
    let b ← if e < 0 then modInverse a n else pure a
    Arith.modPow b e.natAbs n
  | residues _ _, x, e => x.pow e
  | poly, x, e => x.pow e
  | polyResidues _ _, x, e => x.pow e

/-- The negation; polynomials are their own negatives. -/
def neg : (R : NumericRing) → R.Value → R.Value
  | int, a => -a
  | mod n _, a => (-a) % n
  | residues _ _, x => x.neg
  | poly, x => x.neg
  | polyResidues _ _, x => x.neg

/-- A value as an exponent: an integer in the signed 64-bit range, a residue, or a polynomial
whose bits are a small exponent. -/
def toExponent : (R : NumericRing) → R.Value → Outcome Int
  | int, a => if fitsWord a then .ok a else .error (.exponentRange a)
  | mod _ _, a => .ok a
  | residues _ _, x => x.residueValue
  | poly, x => do
    let v ← x.polyValue
    if v ≤ smallExponentMax then return (v : Int) else throw .exponentNotSmall
  | polyResidues _ _, x => do
    let v ← x.residueValue
    if v ≤ smallExponentMax then return v else throw .exponentNotSmall

end NumericRing

end FiniteRings
