import FiniteRings.Error
import FiniteRings.Bits.Word

/-!
# Polynomials over GF(2)

A polynomial over the field with two elements is stored as a natural number whose bit `j` is
the coefficient of `x ^ j`, so `x ^ 4 + x + 1` is `19`. `coeff` is the view through which every
operation is described: addition is the exclusive or of the bits, and multiplication shifts and
adds one copy of the left factor for every one of the right factor.

The degree of the zero polynomial is taken to be `0`, as for the constant `1`. Polynomials are
ordered as the numbers that store them, so the zero polynomial is the smallest.
-/

namespace FiniteRings

/-- A polynomial over GF(2); bit `j` of `bits` is the coefficient of `x ^ j`. -/
structure GF2Poly where
  bits : Nat
  deriving DecidableEq, Repr, Inhabited

namespace GF2Poly

/-- The zero polynomial. -/
def zero : GF2Poly := ⟨0⟩

/-- The constant polynomial `1`. -/
def one : GF2Poly := ⟨1⟩

/-- The polynomial `x`. -/
def X : GF2Poly := ⟨2⟩

/-- The coefficient of `x ^ j`. -/
def coeff (p : GF2Poly) (j : Nat) : Bool := p.bits.testBit j

/-- The highest power with a nonzero coefficient, located by `Word.msbPos`, and `0` for the
zero polynomial. -/
def degree (p : GF2Poly) : Nat := (Word.msbPos p.bits).toNat

/-- Whether `p` is the zero polynomial. -/
def isZero (p : GF2Poly) : Bool := p.bits == 0

/-- Whether `p` is the constant `1`. -/
def isOne (p : GF2Poly) : Bool := p.bits == 1

/-- The sum, which is also the difference: coefficients add modulo 2. -/
def add (p q : GF2Poly) : GF2Poly := ⟨p.bits ^^^ q.bits⟩

instance : Add GF2Poly := ⟨add⟩

/-- `c + a * b` on bit patterns, adding one shifted copy of `a` for each one of `b`, from the
lowest bit of `b` upwards. -/
def mulAcc (c a b : Nat) : Nat :=
  if b = 0 then c
  else mulAcc (if b % 2 = 1 then c ^^^ a else c) (a <<< 1) (b / 2)
termination_by b
decreasing_by omega

/-- The product. -/
def mul (p q : GF2Poly) : GF2Poly := ⟨mulAcc 0 p.bits q.bits⟩

instance : Mul GF2Poly := ⟨mul⟩

/-- `c * p ^ e` by square-and-multiply. -/
def powAcc (c p : GF2Poly) (e : Nat) : GF2Poly :=
  if e = 0 then c
  else
    let c := if e % 2 = 1 then c * p else c
    if e / 2 = 0 then c else powAcc c (p * p) (e / 2)
termination_by e
decreasing_by omega

/-- `p ^ e` for an integer exponent: zero to the power zero is undefined, zero to a negative
power is a division by zero, and a nonzero polynomial takes no negative exponent. -/
def pow (p : GF2Poly) (e : Int) : Outcome GF2Poly :=
  if p.bits = 0 then
    if e = 0 then .error .zeroToTheZero
    else if e < 0 then .error .zeroDivisionInRing
    else .ok zero
  else if e < 0 then .error .negativePolyExponent
  else .ok (powAcc one p e.toNat)

instance : LT GF2Poly := ⟨fun p q => p.bits < q.bits⟩
instance : LE GF2Poly := ⟨fun p q => p.bits ≤ q.bits⟩
instance (p q : GF2Poly) : Decidable (p < q) := inferInstanceAs (Decidable (p.bits < q.bits))
instance (p q : GF2Poly) : Decidable (p ≤ q) := inferInstanceAs (Decidable (p.bits ≤ q.bits))

/-- The polynomial with the given bits, which must form a nonnegative integer. -/
def ofInt (n : Int) : Outcome GF2Poly :=
  if n < 0 then .error .negativeBits else .ok ⟨n.toNat⟩

/-- The degree of an integer word read as a polynomial: the position of its highest one, where
a negative word is measured in its low 64 bits, and `0` for a word without ones there. -/
def wordDegree (w : Int) : Nat := (Word.msbPos w).toNat

/-- The polynomial that an integer word stands for as a factor: its coefficients are the bits
of the word up to `wordDegree`. For a nonnegative word these are all of its bits. -/
def ofWord (w : Int) : GF2Poly := ⟨(w.fmod (Int.pow 2 (wordDegree w + 1))).toNat⟩

/-- The coefficients from `x ^ 0` up to `x ^ degree`. -/
def coeffs (p : GF2Poly) : List Bool := (List.range (p.degree + 1)).map p.coeff

/-- The coefficient of `x ^ j` for `0 ≤ j ≤ degree`. -/
def coeffAt (p : GF2Poly) (j : Int) : Outcome Bool :=
  if 0 ≤ j ∧ j ≤ p.degree then .ok (p.coeff j.toNat) else .error (.coefficientIndex j p.degree)

/-- A polynomial of degree exactly `d`: `x ^ d` with the low `d` bits of `low` as its lower
coefficients for `d ≥ 1`, and the constant `1` for `d = 0`. A negative degree asks for a shift
by a negative count. -/
def withDegree (d : Int) (low : Nat) : Outcome GF2Poly :=
  if d < 0 then .error .negativeShift
  else if d = 0 then .ok one
  else .ok ⟨Nat.pow 2 d.toNat ||| low % Nat.pow 2 d.toNat⟩

theorem coeff_add (p q : GF2Poly) (j : Nat) : (p + q).coeff j = (p.coeff j ^^ q.coeff j) := by
  show (p.bits ^^^ q.bits).testBit j = _
  simp [coeff, Nat.testBit_xor]

end GF2Poly

end FiniteRings
