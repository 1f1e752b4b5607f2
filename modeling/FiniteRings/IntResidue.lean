import FiniteRings.Arg
import FiniteRings.Arith.Power

/-!
# Residues modulo a positive integer

An `IntResidue` is a class of integers modulo a positive modulus `m`, held by its least
nonnegative member, so that `0 ≤ residue < m` is part of the type. Every operation reduces its
result with the floor remainder, which for a positive modulus is the least nonnegative one.

The second operand of a ring operation is a residue or a plain integer. A residue must have the
same modulus (otherwise the operation fails and names both moduli); an integer is used as it
is, and only the result is reduced. With the integer on the left the operation is reflected:
`n - x` is the class of `n - x.residue`, and `n / x` is `x⁻¹ * n`.

The inverse is `Arith.modInverse`, `x ^ (φ(m) - 1)`; a quotient `x / y` inverts the class of
`y` and so names the reduced `y` when it fails. Powers with a negative exponent invert first;
the zero class has no power of exponent zero and no negative power.
-/

namespace FiniteRings

/-- A residue class modulo a positive integer, held by its least nonnegative member. -/
structure IntResidue where
  modulus : Int
  residue : Int
  modulus_pos : 0 < modulus
  residue_nonneg : 0 ≤ residue
  residue_lt : residue < modulus
  deriving DecidableEq

namespace IntResidue

/-- The class of `r` modulo a positive `m`. -/
def reduce (r m : Int) (h : 0 < m) : IntResidue :=
  ⟨m, r % m, h, Int.emod_nonneg r (by omega), Int.emod_lt_of_pos r h⟩

/-- The class of `r` modulo `m`; the modulus must be positive. -/
def make (r m : Int) : Outcome IntResidue :=
  if h : 0 < m then .ok (reduce r m h) else .error (.modulusNotPositive (toString m))

/-- The class of `r` modulo `m` for arguments whose kind is checked here: both must be
integers. -/
def ofArgs : Arg → Arg → Outcome IntResidue
  | .int r, .int m => make r m
  | _, _ => .error .residueNotInteger

/-- The class of `r` with the modulus of `x`. -/
def withValue (x : IntResidue) (r : Int) : IntResidue := reduce r x.modulus x.modulus_pos

/-- The second operand of a ring operation: a residue or a plain integer. -/
inductive Operand where
  | residue (y : IntResidue)
  | int (n : Int)
  deriving DecidableEq

/-- The integer that `b` stands for next to `x`; a residue must share the modulus of `x`. -/
def value (x : IntResidue) : Operand → Outcome Int
  | .residue y =>
    if y.modulus = x.modulus then .ok y.residue
    else .error (.modulusMismatch (toString x.modulus) (toString y.modulus))
  | .int n => .ok n

/-- `x + b`, which is also `b + x`. -/
def add (x : IntResidue) (b : Operand) : Outcome IntResidue := do
  return x.withValue (x.residue + (← x.value b))

/-- `x - b`. -/
def sub (x : IntResidue) (b : Operand) : Outcome IntResidue := do
  return x.withValue (x.residue - (← x.value b))

/-- `n - x` for a plain integer `n`. -/
def subFrom (n : Int) (x : IntResidue) : IntResidue := x.withValue (n - x.residue)

/-- `x * b`, which is also `b * x`. -/
def mul (x : IntResidue) (b : Operand) : Outcome IntResidue := do
  return x.withValue (x.residue * (← x.value b))

/-- `-x`. -/
def neg (x : IntResidue) : IntResidue := x.withValue (-x.residue)

/-- The inverse of `x`; it fails for the classes that share a factor with the modulus. -/
def recip (x : IntResidue) : Outcome IntResidue :=
  x.withValue <$> Arith.modInverse x.residue x.modulus

/-- `x / b`, the product of `x` with the inverse of the class of `b`. -/
def div (x : IntResidue) (b : Operand) : Outcome IntResidue := do
  let y ← (x.withValue (← x.value b)).recip
  return x.withValue (x.residue * y.residue)

/-- `n / x` for a plain integer `n`: the inverse of `x` times `n`. -/
def divInto (n : Int) (x : IntResidue) : Outcome IntResidue := do
  let y ← x.recip
  return x.withValue (y.residue * n)

/-- `x ^ e`; a negative exponent raises the inverse to `-e`, and the zero class has neither
`0 ^ 0` nor negative powers. -/
def pow (x : IntResidue) (e : Int) : Outcome IntResidue := do
  if x.residue = 0 then
    if e = 0 then throw .zeroToTheZero
    if e < 0 then throw .zeroDivisionInRing
    return x.withValue 0
  let base ← if e < 0 then recip x else pure x
  return x.withValue (Arith.modPowAcc (1 % x.modulus) base.residue e.natAbs x.modulus)

/-- Whether `x` is the zero class. -/
def isZero (x : IntResidue) : Bool := x.residue == 0

/-- Whether `x` is the class of one (which is zero modulo one). -/
def isOne (x : IntResidue) : Bool := x.residue == 1 % x.modulus

/-- Whether `x` is invertible: prime to the modulus. -/
def isUnit (x : IntResidue) : Bool := Arith.gcd x.residue x.modulus == 1

/-- Whether `x` equals `b`: a residue by both residue and modulus, an integer by its class. -/
def equals (x : IntResidue) : Operand → Bool
  | .residue y => x.residue == y.residue && x.modulus == y.modulus
  | .int n => x.residue == n % x.modulus

/-- The classes of `0, 1, …, m - 1` as values modulo `m`; none for `m ≤ 0`. -/
def elements (m : Int) : List IntResidue :=
  if h : 0 < m then (List.range m.toNat).map fun (a : Nat) => reduce a m h else []

/-- The classes among `elements m` that are prime to `m`, in increasing order. -/
def units (m : Int) : List IntResidue :=
  (elements m).filter isUnit

/-- A residue modulo `m` chosen by `seed`; it stands for a uniformly drawn residue, and the
range to draw from must not be empty. -/
def pick (m : Int) (seed : Nat) : Outcome IntResidue :=
  if h : 0 < m then .ok (reduce seed m h) else .error .emptyRange

/-- The residue in decimal. -/
def text (x : IntResidue) : String := toString x.residue

end IntResidue

end FiniteRings
