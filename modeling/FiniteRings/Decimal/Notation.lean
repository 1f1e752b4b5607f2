import FiniteRings.Decimal.Shortest
import FiniteRings.Text.Digits

/-!
# Writing floats in decimal

A float is written with the digits of its shortest decimal (`shortest`). A `Notation` holds the
decisions of the layout: the exponents of the leading digit for which the decimal is written
positionally, whether an integral value in positional form keeps a `.0`, the least number of
digits of an exponent, and whether a value that is not negative carries a `+`. Otherwise the
decimal is written in scientific form: the first digit, the others after a point, then `e`, the
sign of the exponent and its digits.

Zero is written as the digit `0`, with its sign; the infinities as `inf`, and NaN as `nan`,
which never carries a `-`.
-/

namespace FiniteRings.Decimal

open Binary64 Text

/-- The decisions of a layout of decimals. -/
structure Notation where
  /-- The least exponent of the leading digit that is written positionally. -/
  plainFrom : Int
  /-- The exponents of the leading digit from this one on are written in scientific form. -/
  plainBelow : Int
  /-- An integral value in positional form ends in `.0`. -/
  pointZero : Bool
  /-- The least number of digits of an exponent. -/
  expWidth : Nat
  /-- A value that is not negative starts with `+`. -/
  plusSign : Bool
  deriving DecidableEq, Repr

/-- The text of `n` zeros. -/
def zeros (n : Nat) : String := String.ofList (List.replicate n '0')

/-- The nonzero decimal `d` laid out by `nt`. -/
def layout (nt : Notation) (d : Dec) : String :=
  let ds := toString d.digits
  let lead : Int := (ds.length : Int) - 1 + d.exponent
  if nt.plainFrom ≤ lead && lead < nt.plainBelow then
    if 0 ≤ d.exponent then ds ++ zeros d.exponent.toNat ++ (if nt.pointZero then ".0" else "")
    else if 0 ≤ lead then
      String.ofList (ds.toList.take (lead + 1).toNat) ++ "." ++
        String.ofList (ds.toList.drop (lead + 1).toNat)
    else "0." ++ zeros (-lead - 1).toNat ++ ds
  else
    let rest := ds.toList.drop 1
    String.ofList (ds.toList.take 1) ++ (if rest.isEmpty then "" else "." ++ String.ofList rest) ++
      "e" ++ (if lead < 0 then "-" else "+") ++ padLeft nt.expWidth '0' (toString lead.natAbs)

/-- `x` written in the notation `nt`. -/
def render (nt : Notation) (x : Float) : String :=
  let plus := if nt.plusSign then "+" else ""
  if x.isNaN then plus ++ "nan"
  else
    let p := Parts.ofFloat x
    let sign := if p.negative then "-" else plus
    if x.isInf then sign ++ "inf"
    else if p.significand = 0 then sign ++ "0" ++ (if nt.pointZero then ".0" else "")
    else sign ++ layout nt (shortest p)

example : layout ⟨-4, 16, true, 2, false⟩ ⟨1, 16⟩ = "1e+16" := by decide
example : layout ⟨-4, 16, true, 2, false⟩ ⟨1, 15⟩ = "1000000000000000.0" := by decide
example : layout ⟨-4, 16, true, 2, false⟩ ⟨1, -5⟩ = "1e-05" := by decide
example : layout ⟨-4, 16, true, 2, false⟩ ⟨1, -4⟩ = "0.0001" := by decide
example : layout ⟨-4, 16, true, 2, false⟩ ⟨125, -1⟩ = "12.5" := by decide

end FiniteRings.Decimal
