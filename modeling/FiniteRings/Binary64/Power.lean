import FiniteRings.Binary64.Complex

/-!
# Powers of floats

`powReal v w` is `v ^ w` for floats, settling the special values before the power function of
the platform is asked:

* `v ^ 0` is one, even for NaN; otherwise a NaN base gives NaN, and a NaN exponent gives NaN
  except that one to any power is one;
* an infinite exponent gives zero, one or infinity as `|v|` is below, at or above one (the other
  way round for `-∞`);
* an infinite base gives infinity for a positive exponent and zero for a negative one, signed
  like the base when the exponent is an odd integer;
* zero to a negative power fails; to a positive power it is zero, keeping the sign of the base
  when the exponent is an odd integer;
* a negative base to a power that is not an integer has a complex value, from the polar form;
* a negative base to an integral power is the power of its magnitude, negated when the exponent
  is odd, and `±1` to any integral power is `±1`;
* every other power is the platform's, and fails when it is infinite.
-/

namespace FiniteRings.Binary64

/-- A real or a complex number. -/
inductive Number where
  | real (x : Float)
  | complex (z : Complex)

/-- The float zero with the sign of `x`. -/
def zeroLike (x : Float) : Float := if (Parts.ofFloat x).negative then -Complex.zeroPart else Complex.zeroPart

/-- `v ^ w` for floats. -/
def powReal (v w : Float) : Outcome Number :=
  if w == 0 then .ok (.real 1.0)
  else if v.isNaN then .ok (.real v)
  else if w.isNaN then .ok (.real (if v == 1.0 then 1.0 else w))
  else if w.isInf then
    let size := v.abs
    if size == 1.0 then .ok (.real 1.0)
    else if decide (0 < w) == decide (1.0 < size) then .ok (.real w.abs)
    else .ok (.real Complex.zeroPart)
  else if v.isInf then
    if 0 < w then .ok (.real (if isOddInteger w then v else v.abs))
    else .ok (.real (if isOddInteger w then zeroLike v else Complex.zeroPart))
  else if v == 0 then
    if w < 0 then .error .zeroToNegativePower
    else .ok (.real (if isOddInteger w then v else Complex.zeroPart))
  else if decide (v < 0) && (integral? w).isNone then
    .complex <$> (Complex.ofReal v).pow (Complex.ofReal w)
  else
    let negate := decide (v < 0) && isOddInteger w
    let size := v.abs
    if size == 1.0 then .ok (.real (if negate then -1.0 else 1.0))
    else
      let r := Float.pow size w
      if r.isInf then .error .floatPowerRange
      else .ok (.real (if negate then -r else r))

end FiniteRings.Binary64
