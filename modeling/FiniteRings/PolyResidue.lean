import FiniteRings.GF2Poly.Operand

/-!
# Residues modulo a polynomial over GF(2)

A `PolyResidue` is a class of polynomials modulo a nonzero polynomial `m`, held by its remainder
by `m`, so that its degree is below that of `m`: every residue carries that bound, which `reduce`
proves when it makes the class (`GF2Poly.modBy_lt`). The ring is a field when `m` is irreducible;
otherwise only the classes prime to `m` are invertible.

The second operand of a ring operation is a residue of the same modulus (otherwise the operation
fails and names both moduli in hexadecimal) or a plain operand of polynomial operations: a
polynomial, or an integer word used with the rules of `GF2Poly.Operand`. Subtraction is
addition, and negation is the identity. A quotient `x / y` inverts the class of `y`, and with a
plain operand on the left, `b / x` is `x⁻¹ * b`.

The inverse comes from the extended algorithm of Euclid: `s * r + t * m = g`, and `s` is the
inverse of `r` when `g = 1`.
-/

namespace FiniteRings

/-- A residue class modulo a nonzero polynomial, held by its remainder. -/
structure PolyResidue where
  modulus : GF2Poly
  residue : GF2Poly
  modulus_pos : 0 < modulus.bits
  /-- The remainder has lower degree than the modulus. -/
  residue_lt : residue.bits < Nat.pow 2 modulus.degree
  deriving DecidableEq

namespace PolyResidue

open GF2Poly

/-- The class of `r` modulo a nonzero `m`. -/
def reduce (r m : GF2Poly) (h : 0 < m.bits) : PolyResidue :=
  ⟨m, modBy r m, h, modBy_lt r (Nat.pos_iff_ne_zero.1 h)⟩

/-- The class of `r` modulo `m`; the modulus must be nonzero. -/
def make (r m : GF2Poly) : Outcome PolyResidue :=
  if h : 0 < m.bits then .ok (reduce r m h) else .error .zeroModulus

/-- The class of `r` modulo `m` for arguments of unchecked kind: the modulus is read and checked
first, then the residue. -/
def ofArgs (r m : Arg) : Outcome PolyResidue := do
  let m ← GF2Poly.ofArg m
  if h : 0 < m.bits then return reduce (← GF2Poly.ofArg r) m h
  else throw .zeroModulus

/-- The class of `p` with the modulus of `x`. -/
def withValue (x : PolyResidue) (p : GF2Poly) : PolyResidue := reduce p x.modulus x.modulus_pos

/-- The second operand of a ring operation: a residue or a plain polynomial operand. -/
inductive Operand where
  | residue (y : PolyResidue)
  | plain (b : GF2Poly.Operand)
  deriving DecidableEq

/-- The plain operand that `b` stands for next to `x`; a residue must share the modulus of
`x`. -/
def value (x : PolyResidue) : Operand → Outcome GF2Poly.Operand
  | .residue y =>
    if y.modulus = x.modulus then .ok (.poly y.residue)
    else .error (.modulusMismatch x.modulus.toHex y.modulus.toHex)
  | .plain b => .ok b

/-- `x + b`, which is also `x - b`, `b + x` and `b - x`. -/
def add (x : PolyResidue) (b : Operand) : Outcome PolyResidue := do
  return x.withValue (← addOperand x.residue (← x.value b))

/-- `x * b`, which is also `b * x`. -/
def mul (x : PolyResidue) (b : Operand) : Outcome PolyResidue := do
  return x.withValue (mulOperand x.residue (← x.value b))

/-- The inverse of `x`; it fails for the classes that share a factor with the modulus. -/
def recip (x : PolyResidue) : Outcome PolyResidue :=
  let (g, s, _) := extGcd x.residue x.modulus
  if g.isOne then .ok (x.withValue s) else .error (.notInvertible x.residue.bits x.modulus.bits)

/-- `x / b`, the product of `x` with the inverse of the class of `b`. -/
def div (x : PolyResidue) (b : Operand) : Outcome PolyResidue := do
  let y ← (x.withValue (← (← x.value b).toPoly)).recip
  return x.withValue (x.residue * y.residue)

/-- `b / x` for a plain operand `b`: the inverse of `x` times `b`. -/
def divInto (b : GF2Poly.Operand) (x : PolyResidue) : Outcome PolyResidue := do
  let y ← x.recip
  return x.withValue (mulOperand y.residue b)

/-- `c * x ^ e` modulo `m` by square-and-multiply, reducing after every product. -/
def powAcc (m c x : GF2Poly) (e : Nat) : GF2Poly :=
  if e = 0 then c
  else powAcc m (if e % 2 = 1 then modBy (c * x) m else c) (modBy (x * x) m) (e / 2)
termination_by e
decreasing_by omega

/-- `x ^ e`; a negative exponent raises the inverse to `-e`, and the zero class has neither
`0 ^ 0` nor negative powers. -/
def pow (x : PolyResidue) (e : Int) : Outcome PolyResidue := do
  if x.residue.isZero then
    if e = 0 then throw .zeroToTheZero
    if e < 0 then throw .zeroDivisionInRing
    return x.withValue zero
  let base ← if e < 0 then recip x else pure x
  return x.withValue (powAcc x.modulus (modBy one x.modulus) base.residue e.natAbs)

/-- Whether `x` is the zero class. -/
def isZero (x : PolyResidue) : Bool := x.residue.isZero

/-- Whether the residue of `x` is the polynomial one (never so modulo one). -/
def isOne (x : PolyResidue) : Bool := x.residue.isOne

/-- Whether `x` is invertible: prime to the modulus. -/
def isUnit (x : PolyResidue) : Bool := (gcd x.residue x.modulus).isOne

/-- Whether `x` equals `b`: a residue by both residue and modulus, a plain operand by its
class, which must be a polynomial. -/
def equals (x : PolyResidue) : Operand → Outcome Bool
  | .residue y => .ok (x.residue == y.residue && x.modulus == y.modulus)
  | .plain b => (fun p => x.residue == modBy p x.modulus) <$> b.toPoly

/-- The classes of the polynomials of degree below that of `m`, in increasing order. The zero
modulus has degree `0` and so one element, the class of zero, which it refuses. -/
def elements (m : GF2Poly) : Outcome (List PolyResidue) :=
  (List.range (Nat.pow 2 m.degree)).mapM fun a => make ⟨a⟩ m

/-- The classes among `elements m` other than zero that are prime to `m`, in increasing order;
for the zero modulus there are none. -/
def units (m : GF2Poly) : Outcome (List PolyResidue) :=
  ((List.range' 1 (Nat.pow 2 m.degree - 1)).filter fun a => (gcd m ⟨a⟩).isOne).mapM fun a => make ⟨a⟩ m

/-- A residue modulo `m` chosen by `seed` among the polynomials of degree below that of `m`;
it stands for a uniformly drawn residue. -/
def pick (m : GF2Poly) (seed : Nat) : Outcome PolyResidue :=
  make ⟨seed % Nat.pow 2 m.degree⟩ m

/-- The residue in hexadecimal. -/
def text (x : PolyResidue) : String := x.residue.toHex

/-- The residue in the layout that `spec` names, as for polynomials. -/
def format (x : PolyResidue) (spec : String) : Outcome String := x.residue.format spec

/-- The residue and the modulus as source text. -/
def repr (x : PolyResidue) : String :=
  "F2PolyMod(0x" ++ x.residue.toHex ++ ", 0x" ++ x.modulus.toHex ++ ")"

end PolyResidue

end FiniteRings
