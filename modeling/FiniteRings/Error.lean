import FiniteRings.Text.Digits

/-!
# Errors

Every failure of the library is a value of `Error`, named for its cause. `Error.message` holds
all of the wording, and `Error.kind` sorts the causes into the families that a caller can tell
apart: a bad value, a division by zero, a bad kind of argument, an index out of range, a broken
internal invariant, a computation that would recurse without end, a step of an evaluation that
uses a step which failed, a value without the attribute asked of it, and a number beyond the
range of floats.
-/

namespace FiniteRings

open Text

/-- The families of failures that a caller can tell apart. -/
inductive ErrorKind where
  | value
  | zeroDivision
  | type
  | index
  | invariant
  | recursion
  | stepFailed
  | attribute
  | overflow
  deriving DecidableEq, Repr

/-- The causes of failure. A payload of type `String` is a value already written the way its
ring writes values. -/
inductive Error where
  /-- A bit vector must have 1 to 64 bits. -/
  | widthOutOfRange (n : Int)
  /-- An argument that must be an integer is of another kind. -/
  | notAnInteger (kind : String)
  /-- A residue and its modulus must both be integers. -/
  | residueNotInteger
  /-- A residue argument is of another kind. -/
  | notAResidue (kind : String)
  /-- A modulus argument is neither an integer nor a polynomial. -/
  | notAModulus (kind : String)
  /-- A bit index outside `0 .. width - 1`. -/
  | bitIndex (j : Int) (width : Nat)
  /-- A format specification that bit vectors do not know. -/
  | bitFormat (spec : String)
  /-- A matrix needs at least one row and one column. -/
  | matrixShape (rows cols : Int)
  /-- A position outside a list. -/
  | listIndex
  /-- A remainder modulo zero. -/
  | moduloByZero
  /-- A quotient, or quotient and remainder, by zero. -/
  | divisionByZero
  /-- Integer powers take nonnegative exponents. -/
  | negativeExponent
  /-- `x` has no inverse modulo `m`. -/
  | noInverse (x m : Int)
  /-- Factorials take nonnegative arguments. -/
  | negativeFactorial
  /-- An inverse modulo a modulus whose totient is zero asks for itself again and again. -/
  | recursionLimit
  /-- A divisor query on a factorization that holds nothing. -/
  | noFactors (query : String)
  /-- Zero to the power zero. -/
  | zeroToTheZero
  /-- Zero to a negative power, or a ring division by zero. -/
  | zeroDivisionInRing
  /-- A remainder by zero in a ring of values. -/
  | remainderByZero
  /-- A modulus must be positive. -/
  | modulusNotPositive (shown : String)
  /-- Two residues of different moduli meet. -/
  | modulusMismatch (a b : String)
  /-- A polynomial modulus must be nonzero. -/
  | zeroModulus
  /-- A residue is drawn from an empty range. -/
  | emptyRange
  /-- The polynomial residue `r` has no inverse modulo `m`. -/
  | notInvertible (r m : Nat)
  /-- A polynomial division by the zero polynomial. -/
  | polyDivisionByZero
  /-- The bits of a polynomial form a nonnegative integer. -/
  | negativeBits
  /-- Polynomial powers take nonnegative exponents. -/
  | negativePolyExponent
  /-- A text that is not a hexadecimal polynomial. -/
  | invalidHex (s : String)
  /-- A coefficient index outside `0 .. degree`. -/
  | coefficientIndex (j : Int) (degree : Nat)
  /-- A format specification that polynomials do not know. -/
  | polyFormat (spec : String)
  /-- A shift by a negative count. -/
  | negativeShift
  /-- A degree that must be positive is not. -/
  | degreeNotPositive (d : Int)
  /-- An order asked of zero or of a zero divisor. -/
  | zeroDivisor (a m : String)
  /-- A modulus for generators must be at least 2. -/
  | modulusTooSmall (m : Int)
  /-- A polynomial modulus for generators must have positive degree. -/
  | modulusDegree
  /-- An arithmetic mode that does not exist, as the source text of the value given. -/
  | unknownMode (shown : String)
  /-- A mode with a modulus was given none. -/
  | missingModulus (mode : String)
  /-- A text that is not an integer literal. -/
  | invalidInteger (s : String)
  /-- An integer literal outside the signed 64-bit range. -/
  | integerRange (s : String)
  /-- A hexadecimal literal above `2 ^ 64 - 1`. -/
  | hexRange (s : String)
  /-- A text that is not a polynomial exponent. -/
  | invalidExponent (s : String)
  /-- A polynomial exponent above `2 ^ 31 - 1`. -/
  | exponentTooLarge (s : String)
  /-- Integer values take nonnegative exponents. -/
  | negativePower
  /-- An integer exponent outside the signed 64-bit range. -/
  | exponentRange (a : Int)
  /-- The value written `a` has no inverse modulo `n`. -/
  | noModularInverse (a : String) (n : Int)
  /-- Residues of integers have no remainder operation. -/
  | remainderOfResidues
  /-- Residues of polynomials have no remainder operation. -/
  | remainderOfPolyResidues
  /-- A polynomial value used as an exponent must be at most `2 ^ 31 - 1`. -/
  | exponentNotSmall
  /-- An operand of a kind the operation does not take. -/
  | operandKind (op : String)
  /-- A step of an evaluation uses step `i`, which failed. -/
  | stepFailed (i : Int)
  /-- A value of kind `kind` has no attribute `attr`. -/
  | noAttribute (kind attr : String)
  /-- An integer at or beyond `2 ^ 1024` in magnitude has no float. -/
  | intTooLarge
  /-- A float power whose value is beyond the largest float. -/
  | floatPowerRange
  /-- The float zero to a negative power. -/
  | zeroToNegativePower
  /-- The complex zero to a negative or complex power. -/
  | complexZeroPower
  /-- A complex power with an infinite part. -/
  | complexPowerRange
  /-- An internal invariant failed. -/
  | invariant (what : String)
  deriving DecidableEq, Repr

namespace Error

/-- The family of each cause. -/
def kind : Error → ErrorKind
  | notAnInteger _ | residueNotInteger | notAResidue _ | notAModulus _ | operandKind _ => .type
  | bitIndex _ _ | listIndex | coefficientIndex _ _ => .index
  | moduloByZero | divisionByZero | noInverse _ _ | zeroDivisionInRing | remainderByZero
  | notInvertible _ _ | polyDivisionByZero | noModularInverse _ _ => .zeroDivision
  | recursionLimit => .recursion
  | stepFailed _ => .stepFailed
  | noAttribute _ _ => .attribute
  | intTooLarge | floatPowerRange | complexPowerRange => .overflow
  | zeroToNegativePower | complexZeroPower => .zeroDivision
  | invariant _ => .invariant
  | _ => .value

/-- The wording of each cause. -/
def message : Error → String
  | widthOutOfRange n => s!"bit vector size must be in 1..64, got {n}"
  | notAnInteger k => s!"int required, got {k}"
  | residueNotInteger => "int residue and modulus required"
  | notAResidue k => s!"IntMod or F2PolyMod required, got {k}"
  | notAModulus k => s!"int or F2Poly modulus required, got {k}"
  | bitIndex j w => "index " ++ toString j ++ " out of bounds 0.." ++ toString ((w : Int) - 1)
  | bitFormat spec => s!"invalid format spec {quoted spec} for bit vector"
  | matrixShape r c => s!"matrix dimensions must be positive, got {r} x {c}"
  | listIndex => "list index out of range"
  | moduloByZero => "integer modulo by zero"
  | divisionByZero => "integer division or modulo by zero"
  | negativeExponent => "negative exponent disallowed"
  | noInverse x m => s!"impossible inverse of {x} mod {m}"
  | negativeFactorial => "factorial of negative number disallowed"
  | recursionLimit => "maximum recursion depth exceeded"
  | noFactors q => s!"{q}: no factors have been inserted"
  | zeroToTheZero => "0**0 undefined"
  | zeroDivisionInRing => "division by zero"
  | remainderByZero => "modulo by zero"
  | modulusNotPositive m => s!"modulus must be positive, got {m}"
  | modulusMismatch a b => s!"modulus mismatch: {a} vs {b}"
  | zeroModulus => "modulus polynomial must be nonzero"
  | emptyRange => "empty range for randrange()"
  | notInvertible r m => s!"{hex r} not invertible mod {hex m}"
  | polyDivisionByZero => "division by zero polynomial"
  | negativeBits => "polynomial bits must be nonnegative"
  | negativePolyExponent => "negative exponent"
  | invalidHex s => s!"invalid hex polynomial literal {quoted s}"
  | coefficientIndex j d => s!"coefficient index {j} out of range 0..{d}"
  | polyFormat spec => s!"invalid format spec {quoted spec} for polynomial"
  | negativeShift => "negative shift count"
  | degreeNotPositive d => s!"degree must be positive, got {d}"
  | zeroDivisor a m => s!"zero or zero divisor {a} mod {m}"
  | modulusTooSmall m => s!"modulus must be at least 2, got {m}"
  | modulusDegree => "modulus degree must be positive"
  | unknownMode m => s!"mode must be one of int, mod, intmod, f2poly, f2polymod, got {m}"
  | missingModulus m => s!"mode {m} requires a modulus"
  | invalidInteger s => s!"invalid integer literal {quoted s}"
  | integerRange s => s!"integer literal {quoted s} out of range"
  | hexRange s => s!"hex polynomial literal {quoted s} out of range"
  | invalidExponent s => s!"invalid exponent {quoted s}"
  | exponentTooLarge s => s!"exponent {s} too large"
  | negativePower => "negative exponent for integer power"
  | exponentRange a => s!"exponent {a} out of range"
  | noModularInverse a n => s!"no modular inverse for {a} mod {n}"
  | remainderOfResidues => "modulo not defined for Z/nZ (use int mode for %)"
  | remainderOfPolyResidues => "modulo not defined for F2[x]/m(x) (use f2poly mode for %)"
  | exponentNotSmall => "exponent too large (use small nonnegative integer)"
  | operandKind op => s!"unsupported operand type(s) for {op}"
  | stepFailed i => s!"step {i} failed"
  | noAttribute k a => "'" ++ k ++ "' object has no attribute '" ++ a ++ "'"
  | intTooLarge => "int too large to convert to float"
  | floatPowerRange => "(34, 'Numerical result out of range')"
  | zeroToNegativePower => "0.0 cannot be raised to a negative power"
  | complexZeroPower => "0.0 to a negative or complex power"
  | complexPowerRange => "complex exponentiation"
  | invariant what => what

end Error

/-- A computation of the library: a value, or the cause of its failure. -/
abbrev Outcome (α : Type) := Except Error α

end FiniteRings
