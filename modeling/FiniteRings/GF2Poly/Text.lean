import FiniteRings.GF2Poly.Basic
import FiniteRings.Text.Digits
import FiniteRings.Text.Radix

/-!
# Writing and reading polynomials

A polynomial is written as the hexadecimal digits of its bits, lowercase and without a prefix
(`13` is `x ^ 4 + x + 1`), or in binary, or as a sum of powers of a variable from the highest
down (`x^4+x+1`, where `x ^ 1` is written `x` and `x ^ 0` is written `1`).

A hexadecimal literal is trimmed of blanks and of one `0x` or `0X` prefix. What remains must be
nonempty and must not start with a sign or an underscore; it is then read by `readRadix 16`,
which still admits blanks, a sign or a second prefix after the first one, underscores between
digits, and decimal digits of any script.
-/

namespace FiniteRings.GF2Poly

open Text

/-- The hexadecimal digits of the bits. -/
def toHex (p : GF2Poly) : String := hex p.bits

/-- The terms `x^i`, `x` and `1` with nonzero coefficient, from the highest power down, each
followed by a `+`, for the powers `i` below `k`. -/
def termsBelow (p : GF2Poly) (v : String) : Nat → List String
  | 0 => []
  | i + 1 =>
    let rest := termsBelow p v i
    if p.coeff i then
      (if i = 0 then "1" else if i = 1 then v else v ++ "^" ++ toString i) :: rest
    else rest

/-- The polynomial as a sum of powers of the variable `v`; the zero polynomial is `0`. -/
def toTerms (p : GF2Poly) (v : String) : String :=
  if p.bits = 0 then "0" else "+".intercalate (termsBelow p v (p.degree + 1))

/-- The polynomial in the layout that `spec` names: hexadecimal for an empty spec or `x`,
binary for `b`, and terms for `t`. -/
def format (p : GF2Poly) (spec : String) : Outcome String :=
  if spec = "" ∨ spec = "x" then .ok (hex p.bits)
  else if spec = "b" then .ok (binary p.bits)
  else if spec = "t" then .ok (toTerms p "x")
  else .error (.polyFormat spec)

/-- The polynomial as source text: `F2Poly(0x` and the hexadecimal digits and `)`. -/
def repr (p : GF2Poly) : String := "F2Poly(0x" ++ hex p.bits ++ ")"

/-- The integer written by a hexadecimal literal, as the module comment describes. -/
def readHex (s : String) : Outcome Int :=
  let t := trimBlank s
  let t := if t.startsWith "0x" ∨ t.startsWith "0X" then String.ofList (t.toList.drop 2) else t
  match t.toList with
  | [] => .error (.invalidHex t)
  | c :: _ =>
    if c = '+' ∨ c = '-' ∨ c = '_' then .error (.invalidHex t)
    else match readRadix 16 t with
      | some v => .ok v
      | none => .error (.invalidHex t)

/-- The polynomial written by a hexadecimal literal. -/
def ofHex (s : String) : Outcome GF2Poly := readHex s >>= ofInt

end FiniteRings.GF2Poly
