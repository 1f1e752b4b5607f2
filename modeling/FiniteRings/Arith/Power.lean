import FiniteRings.Arith.Euclid

/-!
# Powers, inverses and totients of integers

Powers are computed by square-and-multiply over the binary digits of the exponent, from the
lowest digit up: `powAcc c x e = c * x ^ e`. Modular powers reduce after every product with the
floor remainder, so their value has the sign of the modulus.

The inverse of `x` modulo `m` is `x ^ (φ(m) - 1) mod m`, where `φ(m)` counts the residues prime
to `m`, and a negative power inverts `x` first: the two call each other. Each call takes one level
of the call stack, which holds `callDepth` levels; a call with no level left fails with
`Error.recursionLimit`. For a modulus whose count `φ(m)` is zero (any `m ≤ 0` prime to `x`) the
exponent is `-1`, which asks for the same inverse again, so those calls use up the whole stack.
-/

namespace FiniteRings.Arith

/-- `c * x ^ e` by square-and-multiply. -/
def powAcc (c x : Int) (e : Nat) : Int :=
  if e = 0 then c
  else powAcc (if e % 2 = 1 then c * x else c) (x * x) (e / 2)
termination_by e
decreasing_by omega

/-- `x ^ e` for a nonnegative exponent. -/
def power (x e : Int) : Outcome Int :=
  if e < 0 then .error .negativeExponent else .ok (powAcc 1 x e.toNat)

/-- `c * x ^ e` reduced modulo `m` after every product. -/
def modPowAcc (c x : Int) (e : Nat) (m : Int) : Int :=
  if e = 0 then c
  else modPowAcc (if e % 2 = 1 then (c * x).fmod m else c) ((x * x).fmod m) (e / 2) m
termination_by e
decreasing_by omega

/-- `x ^ e mod m` for a nonnegative exponent; the modulus must be nonzero. -/
def modPow (x : Int) (e : Nat) (m : Int) : Outcome Int :=
  if m = 0 then .error .moduloByZero else .ok (modPowAcc (Int.fmod 1 m) (x.fmod m) e m)

/-- The count of `1 ≤ i < n` with `gcd n i = 1`; it is `0` for `n ≤ 1`. -/
def totientCount (n : Int) : Nat :=
  if n ≤ 1 then 0
  else ((List.range' 1 (n.toNat - 1)).filter fun (i : Nat) => gcd n i = 1).length

mutual

/-- The inverse of `x` modulo `m`, as `x ^ (φ(m) - 1) mod m`, with `depth` levels of the call stack
left. -/
def modInverseWithin : Nat → Int → Int → Outcome Int
  | 0, _, _ => .error .recursionLimit
  | depth + 1, x, m =>
    if gcd x m ≠ 1 then .error (.noInverse x m)
    else if m = 1 then .ok 0
    else modPowerWithin depth x ((totientCount m : Int) - 1) m

/-- `x ^ e mod m`, where a negative exponent raises the inverse of `x` to `-e`, with `depth` levels
of the call stack left. -/
def modPowerWithin : Nat → Int → Int → Int → Outcome Int
  | 0, _, _, _ => .error .recursionLimit
  | depth + 1, x, e, m =>
    if e < 0 then do
      let y ← modInverseWithin depth x m
      modPow y e.natAbs m
    else modPow x e.toNat m

end

/-- The levels of the call stack: the default recursion limit. -/
def callDepth : Nat := 1000

/-- The inverse of `x` modulo `m`, on a fresh call stack. -/
def modInverse (x m : Int) : Outcome Int := modInverseWithin callDepth x m

/-- `x ^ e mod m`, on a fresh call stack. -/
def modPower (x e m : Int) : Outcome Int := modPowerWithin callDepth x e m

/-- The product `1 * 2 * ... * n`. -/
def factorial (n : Int) : Outcome Int :=
  if n < 0 then .error .negativeFactorial
  else .ok ((List.range' 2 (n.toNat - 1)).foldl (fun (c : Int) (k : Nat) => c * k) 1)

end FiniteRings.Arith
