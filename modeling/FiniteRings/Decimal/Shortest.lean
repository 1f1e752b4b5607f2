import FiniteRings.Binary64.Round

/-!
# The shortest decimal that reads back

The reals that round to a finite positive float `m · 2 ^ q` form an interval around it: from
halfway to the float below to halfway to the float above, both ends included exactly when `m` is
even, since a tie goes to the even significand. A decimal *reads back* when it lies in that
interval (`readsBack`); all comparisons are between natural numbers, by cross-multiplying the
powers of two and ten.

`shortest` selects, among the decimals that read back, one with the fewest significant digits,
and of those the nearest to the float; of two equally near, the one with the even last digit.
It tries the grids `10 ^ (k - n)` for `n = 1, 2, …, 17` digits, where `10 ^ (k - 1) ≤ m · 2 ^ q <
10 ^ k`: a decimal of `n` digits in the interval exists exactly when one of the two neighbours of
the value on that grid lies in it. Seventeen digits always suffice; should they not, the exact
value is returned.
-/

namespace FiniteRings.Decimal

open Binary64

/-- The decimal `digits · 10 ^ exponent`. -/
structure Dec where
  digits : Nat
  exponent : Int
  deriving DecidableEq, Repr

/-- Compares `a · 10 ^ i` with `n · 2 ^ j`, exactly. -/
def cmpScaled (a : Nat) (i : Int) (n : Nat) (j : Int) : Ordering :=
  compare (a * Nat.pow 10 i.toNat * Nat.pow 2 (-j).toNat) (n * Nat.pow 2 j.toNat * Nat.pow 10 (-i).toNat)

/-- Whether `d` lies among the reals that round to the positive float `x`. -/
def readsBack (x : Parts) (d : Dec) : Bool :=
  let lo := if x.narrowBelow then 4 * x.significand - 1 else 4 * x.significand - 2
  let hi := 4 * x.significand + 2
  let closed := x.significand % 2 == 0
  let cl := cmpScaled d.digits d.exponent lo (x.exponent - 2)
  let ch := cmpScaled d.digits d.exponent hi (x.exponent - 2)
  (cl == .gt || (closed && cl == .eq)) && (ch == .lt || (closed && ch == .eq))

/-- The least `k` with `m · 2 ^ q < 10 ^ k`, for `m > 0`: near `(bits - 1) · log₁₀ 2` for the
exponent `bits - 1` of the leading bit, and found among its neighbours by exact comparison. -/
def scale (x : Parts) : Int :=
  let lead : Int := (bitLength x.significand : Int) - 1 + x.exponent
  let guess := lead * 30103 / 100000
  let below (k : Int) : Bool := cmpScaled 1 k x.significand x.exponent == .gt
  ([guess - 1, guess, guess + 1, guess + 2, guess + 3].find? below).getD (guess + 4)

/-- `d` with its trailing zeros moved into the exponent; `fuel` bounds their number. -/
def stripZeros : Nat → Dec → Dec
  | 0, d => d
  | fuel + 1, d =>
    if d.digits ≠ 0 && d.digits % 10 == 0 then stripZeros fuel ⟨d.digits / 10, d.exponent + 1⟩
    else d

/-- The decimal of `n` digits on the grid `10 ^ g` that reads back and is nearest to `x`, if
there is one. -/
def onGrid (x : Parts) (g : Int) : Option Dec :=
  let m := x.significand
  let q := x.exponent
  let lower := m * Nat.pow 2 q.toNat * Nat.pow 10 (-g).toNat / (Nat.pow 2 (-q).toNat * Nat.pow 10 g.toNat)
  let a : Dec := ⟨lower, g⟩
  let b : Dec := ⟨lower + 1, g⟩
  match readsBack x a, readsBack x b with
  | true, true =>
    match cmpScaled (2 * lower + 1) g (2 * m) q with
    | .lt => some b
    | .gt => some a
    | .eq => some (if lower % 2 == 0 then a else b)
  | true, false => some a
  | false, true => some b
  | false, false => none

/-- The exact decimal value of `m · 2 ^ q`. -/
def exact (x : Parts) : Dec :=
  if 0 ≤ x.exponent then ⟨x.significand * Nat.pow 2 x.exponent.toNat, 0⟩
  else ⟨x.significand * Nat.pow 5 (-x.exponent).toNat, x.exponent⟩

/-- The shortest decimal that reads back as the positive float `x`, nearest to it, without
trailing zeros. -/
def shortest (x : Parts) : Dec :=
  let k := scale x
  let found := (List.range' 1 17).findSome? fun (n : Nat) => onGrid x (k - n)
  stripZeros 400 (found.getD (exact x))

example : shortest ⟨false, Nat.pow 2 52, -52, true⟩ = ⟨1, 0⟩ := by decide
example : shortest ⟨false, 1, -1074, false⟩ = ⟨5, -324⟩ := by decide +kernel

end FiniteRings.Decimal
