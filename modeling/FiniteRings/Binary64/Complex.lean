import FiniteRings.Binary64.Round
import FiniteRings.Binary64.Hypot
import FiniteRings.Decimal.Notation
import FiniteRings.Error

/-!
# Complex numbers with float parts

A `Complex` is a pair of floats. Sums, differences and negation work part by part; the product
is `(a.re · b.re - a.im · b.im, a.re · b.im + a.im · b.re)`, each operation rounded on its own.
The quotient divides numerator and denominator by the part of the divisor with the larger
magnitude first, which keeps the intermediate values in range; a zero divisor has none.

Powers take two routes. An exponent that is an integer of magnitude at most `100` is handled by
squaring and multiplying, with the reciprocal of the positive power for a negative one. Any
other exponent `b` goes by polar form: the length `|a| ^ b.re` and the angle `arg a · b.re`, with
the imaginary part of `b` dividing the length by `exp (arg a · b.im)` and adding
`b.im · ln |a|` to the angle. Zero has no power with a negative real part or a nonzero imaginary
part, an infinite angle has no cosine and fails the same way, and otherwise a power with an
infinite part fails.

A complex number is written as its real part and its signed imaginary part followed by `j`, in
parentheses; when the real part is the positive zero, only the imaginary part is written.
Integral parts have no `.0`.
-/

namespace FiniteRings.Binary64

/-- A complex number with float parts. -/
structure Complex where
  re : Float
  im : Float

namespace Complex

/-- The float zero. -/
def zeroPart : Float := 0.0

/-- The NaN that a quotient with a NaN part in its divisor gives. -/
def nanPart : Float := Float.ofBits 0x7FF8000000000000

/-- The complex number with real part `x` and imaginary part zero. -/
def ofReal (x : Float) : Complex := ⟨x, zeroPart⟩

/-- One. -/
def one : Complex := ofReal 1.0

/-- The sum. -/
def add (a b : Complex) : Complex := ⟨a.re + b.re, a.im + b.im⟩

/-- The difference. -/
def sub (a b : Complex) : Complex := ⟨a.re - b.re, a.im - b.im⟩

/-- The negation. -/
def neg (a : Complex) : Complex := ⟨-a.re, -a.im⟩

/-- The product. -/
def mul (a b : Complex) : Complex :=
  ⟨a.re * b.re - a.im * b.im, a.re * b.im + a.im * b.re⟩

/-- The quotient `a / b`, dividing through by the larger part of `b` first; none when `b` is
zero. -/
def quot (a b : Complex) : Option Complex :=
  let absRe := b.re.abs
  let absIm := b.im.abs
  if absIm ≤ absRe then
    if absRe == 0 then none
    else
      let ratio := b.im / b.re
      let denom := b.re + b.im * ratio
      some ⟨(a.re + a.im * ratio) / denom, (a.im - a.re * ratio) / denom⟩
  else if absRe ≤ absIm then
    let ratio := b.re / b.im
    let denom := b.re * ratio + b.im
    some ⟨(a.re * ratio + a.im) / denom, (a.im * ratio - a.re) / denom⟩
  else some ⟨nanPart, nanPart⟩

/-- `r · p ^ n` by squaring and multiplying, from the lowest bit of `n` up. -/
def powAcc (r p : Complex) (n : Nat) : Complex :=
  if n = 0 then r
  else powAcc (if n % 2 = 1 then r.mul p else r) (p.mul p) (n / 2)
termination_by n
decreasing_by omega

/-- `a ^ n` for an integer `n`: the reciprocal of `a ^ (-n)` when `n` is not positive; none
when that reciprocal is of zero. -/
def powInt (a : Complex) (n : Int) : Option Complex :=
  if 0 < n then some (powAcc one a n.toNat) else quot one (powAcc one a n.natAbs)

/-- `a ^ b` by polar form; none for zero to a power with a negative real part or a nonzero
imaginary part, and for an infinite angle, which has no cosine. -/
def powPolar (a b : Complex) : Option Complex :=
  if b.re == 0 && b.im == 0 then some one
  else if a.re == 0 && a.im == 0 then
    if b.im != 0 || b.re < 0 then none else some (ofReal zeroPart)
  else
    let length := hypot a.re a.im
    let angle := Float.atan2 a.im a.re
    let (size, phase) :=
      if b.im != 0 then
        (Float.pow length b.re / Float.exp (angle * b.im), angle * b.re + b.im * Float.log length)
      else (Float.pow length b.re, angle * b.re)
    if phase.isInf then none else some ⟨size * Float.cos phase, size * Float.sin phase⟩

/-- The integer that `b` is, when it is one of magnitude at most `100`. -/
def smallIntegral? (b : Complex) : Option Int :=
  if b.im == 0 then
    match integral? b.re with
    | some n => if n.natAbs ≤ 100 then some n else none
    | none => none
  else none

/-- `a ^ b`. -/
def pow (a b : Complex) : Outcome Complex :=
  let r := match smallIntegral? b with
    | some n => powInt a n
    | none => powPolar a b
  match r with
  | none => .error .complexZeroPower
  | some z => if z.re.isInf || z.im.isInf then .error .complexPowerRange else .ok z

/-- The layout of the real part. -/
def realNotation : Decimal.Notation := ⟨-4, 16, false, 2, false⟩

/-- The layout of the imaginary part after a real part: always signed. -/
def imagNotation : Decimal.Notation := { realNotation with plusSign := true }

/-- The written complex number. -/
def text (z : Complex) : String :=
  if z.re == 0 && !(Parts.ofFloat z.re).negative then Decimal.render realNotation z.im ++ "j"
  else "(" ++ Decimal.render realNotation z.re ++ Decimal.render imagNotation z.im ++ "j)"

end Complex

end FiniteRings.Binary64
