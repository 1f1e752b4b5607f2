import FiniteRings.Arith.Factor
import FiniteRings.GF2Poly.Factor
import FiniteRings.IntResidue
import FiniteRings.PolyResidue

/-!
# Multiplicative orders

The order of a unit `a` of a finite ring is the least `d ≥ 1` with `a ^ d = 1`. By Lagrange's
theorem it divides the number `φ` of units, so it is the first divisor `d` of `φ`, in increasing
order, with `a ^ d = 1`. The orbit of `a` lists its powers `a, a ^ 2, …` up to the first that is
one, each multiplied by a second residue when one is given.

Both residue rings provide what this needs through `UnitRing`. A modulus is an integer or a
polynomial (`Modulus`); from it come the largest order of a unit and the least generator of the
unit group, the unit whose order is `φ`, if there is one.

The polynomial `x` is primitive modulo `m` when it generates all units: `x ^ φ = 1` while no
`x ^ (φ / p)` for a prime `p` dividing `φ` is one.

Factoring an integer (`Arith.factorWith`) takes a primality test, and so does everything here
that factors: the number of units modulo an integer, the divisors of `φ`, and with them orders,
generators and primitivity. The test is a parameter `isPrime`, passed on unchanged; the answers
do not depend on it as long as it calls no composite prime.
-/

namespace FiniteRings

/-- What orders need of the residues of a ring: the tests for zero, units and one, products
and powers, the written residue and modulus, the number of units and the number of elements.
The number of units is found with a given primality test, where it factors an integer. -/
class UnitRing (α : Type) where
  isZero : α → Bool
  isUnit : α → Bool
  isOne : α → Bool
  mul : α → α → Outcome α
  pow : α → Int → Outcome α
  text : α → String
  modulusText : α → String
  unitCount : (Nat → Bool) → α → Outcome Int
  size : α → Nat

/-- Integer residues: the number of units is Euler's totient of the modulus. -/
instance : UnitRing IntResidue where
  isZero := IntResidue.isZero
  isUnit := IntResidue.isUnit
  isOne := IntResidue.isOne
  mul x y := x.mul (.residue y)
  pow := IntResidue.pow
  text := IntResidue.text
  modulusText x := toString x.modulus
  unitCount isPrime x := .ok (Arith.totientWith isPrime x.modulus)
  size x := x.modulus.toNat

/-- Polynomial residues: the number of units comes from the factorization of the modulus. -/
instance : UnitRing PolyResidue where
  isZero := PolyResidue.isZero
  isUnit := PolyResidue.isUnit
  isOne := PolyResidue.isOne
  mul x y := x.mul (.residue y)
  pow := PolyResidue.pow
  text := PolyResidue.text
  modulusText x := x.modulus.toHex
  unitCount _ x := (fun (n : Nat) => (n : Int)) <$> GF2Poly.totient x.modulus
  size x := Nat.pow 2 x.modulus.degree

namespace UnitRing

variable {α : Type} [UnitRing α] (isPrime : Nat → Bool)

/-- Fails for zero and for the residues that are not units. -/
def requireUnit (a : α) : Outcome Unit :=
  if isZero a || !isUnit a then .error (.zeroDivisor (text a) (modulusText a)) else .ok ()

/-- The first `d` among `ds` with `a ^ d = 1`. -/
def firstAnnihilating (a : α) : List Int → Outcome (Option Int)
  | [] => .ok none
  | d :: ds => do if isOne (← pow a d) then return some d else firstAnnihilating a ds

/-- The multiplicative order of the unit `a`. -/
def order (a : α) : Outcome Int := do
  requireUnit a
  let φ ← unitCount isPrime a
  match ← firstAnnihilating a (← (Arith.factorWith isPrime φ).allDivisors) with
  | some d => return d
  | none =>
    throw (.invariant ("mod_order: no divisor of phi=" ++ toString φ ++ " annihilates " ++ text a))

/-- The powers from `c` on, up to the first that is one, each multiplied by `b` if given;
`fuel` bounds their number. -/
def powersFrom (a : α) (b : Option α) : Nat → α → Outcome (List α)
  | 0, _ => .error (.invariant "orbit: no power of a unit is one")
  | fuel + 1, c => do
    let v ← match b with
      | none => pure c
      | some b => mul c b
    if isOne c then return [v]
    return v :: (← powersFrom a b fuel (← mul c a))

/-- The orbit `a, a ^ 2, …, 1` of the unit `a`, each power multiplied by `b` if given. Its
length is the order of `a`, which is at most the number of elements. -/
def orbit (a : α) (b : Option α) : Outcome (List α) := do
  requireUnit a
  powersFrom a b (size a) a

/-- The largest order of a nonzero residue among `units`, or `0` when there is none. -/
def maxOrder (units : List α) : Outcome Int :=
  (units.filter fun u => !isZero u).foldlM (fun best u => max best <$> order isPrime u) 0

/-- The first residue of order `φ` among the residues `make a`, for the numbers `a` that pass
`candidate` among the `count` numbers from the given start on. -/
def firstOfOrder (φ : Int) (candidate : Nat → Bool) (make : Nat → Outcome α) :
    Nat → Nat → Outcome (Option α)
  | 0, _ => .ok none
  | count + 1, a => do
    if candidate a then
      let g ← make a
      if (← order isPrime g) = φ then return some g
    firstOfOrder φ candidate make count (a + 1)

end UnitRing

/-- A modulus: an integer, or a polynomial over GF(2). -/
inductive Modulus where
  | int (m : Int)
  | poly (m : GF2Poly)
  deriving DecidableEq

/-- The residues of a ring, of either kind. -/
inductive Residue where
  | int (x : IntResidue)
  | poly (x : PolyResidue)
  deriving DecidableEq

namespace Modulus

open UnitRing

variable (isPrime : Nat → Bool)

/-- The modulus that an argument stands for: a polynomial when `poly` is set, and otherwise an
integer, which the argument must be. -/
def ofArg (poly : Bool) (m : Arg) : Outcome Modulus :=
  if poly then Modulus.poly <$> GF2Poly.ofArg m
  else match m with
    | .int n => .ok (.int n)
    | a => .error (.notAModulus a.kindName)

/-- The largest order of a unit modulo `m`, or `0` when there is none. -/
def maxOrder : Modulus → Outcome Int
  | .int m => UnitRing.maxOrder isPrime (IntResidue.units m)
  | .poly m => PolyResidue.units m >>= UnitRing.maxOrder isPrime

/-- The least unit modulo `m` whose order is the number of units, if the unit group is
cyclic. An integer modulus must be at least 2, a polynomial one of positive degree. -/
def generator : Modulus → Outcome (Option Residue)
  | .int m =>
    if m < 2 then .error (.modulusTooSmall m)
    else
      (·.map .int) <$> firstOfOrder isPrime (Arith.totientWith isPrime m)
        (fun a => Arith.gcd a m = 1) (fun a => IntResidue.make a m) (m.toNat - 1) 1
  | .poly m =>
    if m.degree < 1 then .error .modulusDegree
    else do
      let φ ← GF2Poly.totient m
      (·.map .poly) <$> firstOfOrder isPrime (φ : Int) (fun a => (GF2Poly.gcd m ⟨a⟩).isOne)
        (fun a => PolyResidue.make ⟨a⟩ m) (Nat.pow 2 m.degree - 1) 1

end Modulus

namespace Residue

/-- The residue of `r` modulo `m`, a polynomial residue when `poly` is set. -/
def ofArgs (poly : Bool) (r m : Arg) : Outcome Residue :=
  if poly then Residue.poly <$> PolyResidue.ofArgs r m else Residue.int <$> IntResidue.ofArgs r m

/-- The name of the kind of residue. -/
def kindName : Residue → String
  | .int _ => "IntMod"
  | .poly _ => "F2PolyMod"

/-- The multiplicative order of a unit. -/
def order (isPrime : Nat → Bool) : Residue → Outcome Int
  | .int x => UnitRing.order isPrime x
  | .poly x => UnitRing.order isPrime x

/-- The orbit of a unit `a`, each power multiplied by `b` if given; residues of two kinds have
no product. -/
def orbit : Residue → Option Residue → Outcome (List Residue)
  | .int x, none => (·.map .int) <$> UnitRing.orbit x none
  | .int x, some (.int y) => (·.map .int) <$> UnitRing.orbit x (some y)
  | .poly x, none => (·.map .poly) <$> UnitRing.orbit x none
  | .poly x, some (.poly y) => (·.map .poly) <$> UnitRing.orbit x (some y)
  | .int x, some b => do
    UnitRing.requireUnit x
    throw (.operandKind ("*: " ++ Text.quoted "IntMod" ++ " and " ++ Text.quoted b.kindName))
  | .poly x, some b => do
    UnitRing.requireUnit x
    throw (.operandKind ("*: " ++ Text.quoted "F2PolyMod" ++ " and " ++ Text.quoted b.kindName))

end Residue

namespace GF2Poly

open UnitRing

variable (isPrime : Nat → Bool)

/-- The order of `x` modulo `m`, or `0` when `m` has degree `0` or `x` is not a unit. -/
def period (m : GF2Poly) : Outcome Int :=
  if m.degree < 1 || !(gcd X m).isOne then .ok 0
  else PolyResidue.make X m >>= order isPrime

/-- Whether `x` generates all units modulo `m`. -/
def primitive (m : GF2Poly) : Outcome Bool := do
  if !(gcd m X).isOne then return false
  let x ← PolyResidue.make X m
  let φ : Int := ← totient m
  for d in ← (Arith.factorWith isPrime φ).maximalProperDivisors do
    if (← x.pow d).isOne then return false
  return (← x.pow φ).isOne

end GF2Poly

end FiniteRings
