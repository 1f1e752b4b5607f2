import FiniteRings.Text.Printable
import FiniteRings.Text.Digits
import FiniteRings.Error
import FiniteRings.Bits.Signed
import FiniteRings.Bits.Word
import FiniteRings.Arith.Euclid
import FiniteRings.Arith.Power
import FiniteRings.Text.Blank
import FiniteRings.Text.DecimalDigit
import FiniteRings.Text.Radix
import FiniteRings.Text.Literal
import FiniteRings.GF2Poly.Basic
import FiniteRings.GF2Poly.Division
import FiniteRings.GF2Poly.Text
import FiniteRings.GF2Poly.Derivative
import FiniteRings.Arg
import FiniteRings.GF2Poly.Operand
import FiniteRings.Bits.Row
import FiniteRings.Bits.Matrix
import FiniteRings.Bits.Echelon
import FiniteRings.Bits.Steps
import FiniteRings.Factorization
import FiniteRings.Arith.Factor
import FiniteRings.GF2Poly.Factor
import FiniteRings.IntResidue
import FiniteRings.PolyResidue
import FiniteRings.Order
import FiniteRings.Binary64.Parts
import FiniteRings.Binary64.Round
import FiniteRings.Binary64.Hypot
import FiniteRings.Decimal.Shortest
import FiniteRings.Decimal.Notation
import FiniteRings.Binary64.Complex
import FiniteRings.Binary64.Power
import FiniteRings.Evaluation.Scalar
import FiniteRings.Evaluation.Ring
import FiniteRings.Evaluation.Tape
import FiniteRings.Proofs.Bits.Signed
import FiniteRings.Proofs.Bits.Word
import FiniteRings.Proofs.GF2Poly.Ring
import FiniteRings.Proofs.GF2Poly.Division
import FiniteRings.Proofs.PolyResidue
import FiniteRings.Proofs.Bits.Echelon
import FiniteRings.Proofs.Bits.Kernel
import FiniteRings.Proofs.Bits.Span
import FiniteRings.Proofs.Bits.Basis
import FiniteRings.Proofs.Bits.HighBits
import FiniteRings.Proofs.GF2Poly.Derivative
import FiniteRings.Proofs.GF2Poly.Factors
import FiniteRings.Proofs.GF2Poly.Berlekamp
import FiniteRings.Proofs.GF2Poly.SplitStep
import FiniteRings.Proofs.GF2Poly.Factor
import FiniteRings.Proofs.GF2Poly.SquareFree
import FiniteRings.Proofs.GF2Poly.BerlekampKernel
import FiniteRings.Proofs.GF2Poly.Search
import FiniteRings.Proofs.Arith.Euclid
import FiniteRings.Proofs.Arith.CallDepth
import FiniteRings.Proofs.Arith.Power
import FiniteRings.Proofs.Arith.Factor
import FiniteRings.Proofs.Arith.Divisors
import FiniteRings.Proofs.PolyResidue.Units
import FiniteRings.Proofs.Order.Basic
import FiniteRings.Proofs.Order.Residues
import FiniteRings.Proofs.Order.Primitive
import FiniteRings.Proofs.Order.Generator
import FiniteRings.Proofs.Arith.PrimeFactorization
import FiniteRings.Proofs.Arith.Totient
import FiniteRings.Proofs.Arith.Inverse
import FiniteRings.Proofs.Evaluation.ModRing
import FiniteRings.Proofs.Factorization
import FiniteRings.Proofs.Divisors
import FiniteRings.Proofs.Bits.Count
import FiniteRings.Proofs.Order.Classes
import FiniteRings.Proofs.Order.PowerLaws
import FiniteRings.Proofs.Order.Orbit
import FiniteRings.Proofs.Order.Exponent
import FiniteRings.Proofs.Text.Numeral
import FiniteRings.Proofs.Text.IntegerLiteral
import FiniteRings.Proofs.Text.Radix
import FiniteRings.Proofs.Text.PolyLiteral
import FiniteRings.Proofs.Evaluation.Literals
import FiniteRings.Proofs.Evaluation.TruncatedDivision
