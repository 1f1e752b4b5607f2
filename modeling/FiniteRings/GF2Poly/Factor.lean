import FiniteRings.Bits.Echelon
import FiniteRings.Factorization
import FiniteRings.GF2Poly.Derivative
import FiniteRings.GF2Poly.Division
import FiniteRings.GF2Poly.Text

/-!
# Factoring polynomials over GF(2)

Factoring has two layers.

* **Square-free splitting** (`splitSquares`). With `d` the derivative of `f` and `g = gcd f d`:
  if `g` is zero then `f = 0` is kept as it is, and a nonzero `f` is reported as a broken
  invariant, which never happens since `gcd f d = 0` only when `f = 0`; if `g = 1` then `f` is
  square-free and goes to Berlekamp's step; if `d = 0` then `f` is a square (characteristic 2), and the
  factorization of its square root is taken twice; otherwise `g` and `f / g` are split in turn.
* **Berlekamp's step** (`berlekamp`). For a square-free `f` of degree `n ≥ 2`, the polynomials
  `h` of degree below `n` with `h ^ 2 = h` modulo `f` form a space whose dimension is the number
  of irreducible factors of `f`. It is the kernel of the `n × n` matrix `Q - I`, where column
  `j` of `Q` holds the coefficients of `x ^ (2 * j)` modulo `f`. A kernel of dimension one means
  that `f` is irreducible. Otherwise the first basis vector `h` with `gcd f h ≠ 1` and
  `gcd f (h + 1) ≠ 1` splits `f` into those two coprime factors, which are kept as they are when
  the kernel has dimension two or when a single split is asked for, and factored further
  otherwise.

`squareFreeStep` is the choice the first layer makes, with the polynomials it hands on. Every
polynomial that either layer hands on has lower degree than the one it was given, which the
recursion checks before each call; the checks never fail. Bit rows hold at most 64 entries, so a
square-free part of degree above 64 fails with the width error of `BitRow.make`.
-/

namespace FiniteRings

/-- Polynomials as bases of factorizations, ordered as their bit patterns and written in
hexadecimal. -/
instance : FactorBase GF2Poly where
  one := GF2Poly.one
  mul a b := a * b
  pow a e := a.pow e
  quot a b := (·.1) <$> a.divMod b
  lt a b := decide (a.bits < b.bits)
  text a := a.toHex

namespace GF2Poly

/-- A factorization of a polynomial. -/
abbrev Factors := Factorization GF2Poly

/-- The powers `x ^ (2 * j)` modulo `f` for `j < n`, from `c` on, where `s = x ^ 2 mod f`. -/
def squarePowers (f s c : GF2Poly) : Nat → List GF2Poly
  | 0 => []
  | n + 1 => c :: squarePowers f s (modBy (c * s) f) n

/-- The matrix `Q - I` of the map `h ↦ h ^ 2 - h` on the polynomials modulo `f`: bit `j` of row
`i` is the coefficient of `x ^ i` in `x ^ (2 * j) mod f`, with the diagonal flipped. -/
def berlekampMatrix (f : GF2Poly) : Outcome BitMatrix := do
  if f.bits = 0 then throw .polyDivisionByZero
  let n := f.degree
  let _ ← BitMatrix.zeros n n
  let powers := squarePowers f (modBy ⟨4⟩ f) one n
  let row (i : Nat) : Int :=
    Signed.xor ((powers.zipIdx.map fun (p, j) => if p.coeff i then Nat.pow 2 j else 0).foldl (· + ·) 0 : Nat)
      (Int.pow 2 i)
  BitMatrix.ofRows n ((List.range n).map row)

/-- What the kernel of the Berlekamp matrix says about a square-free polynomial. -/
inductive Split where
  /-- The kernel has dimension one: the polynomial is irreducible. -/
  | irreducible
  /-- Two coprime proper factors, and the dimension of the kernel. -/
  | halves (f₁ f₂ : GF2Poly) (dim : Nat)

/-- The first kernel vector that splits `f`, as the module comment describes. -/
def firstSplit (f : GF2Poly) (dim : Nat) : List BitRow → Outcome Split
  | [] => .error (.invariant ("berlekamp: no nullspace vector splits " ++ f.toHex))
  | v :: vs =>
    let h : GF2Poly := ⟨v.masked⟩
    let hc := h + one
    if modBy (h * h) f ≠ h ∨ modBy (hc * hc) f ≠ hc then
      .error (.invariant "berlekamp: nullspace vector h with h^2 != h mod f")
    else
      let f₁ := gcd f h
      let f₂ := gcd f hc
      if f₁.bits = 1 ∨ f₂.bits = 1 then firstSplit f dim vs else .ok (.halves f₁ f₂ dim)

/-- Berlekamp's analysis of a polynomial of degree at least 2. -/
def berlekampSplit (f : GF2Poly) : Outcome Split := do
  let n := f.degree
  let m := (← berlekampMatrix f).echelon
  let dim := n - m.leadingNonzero
  if dim = 1 then return .irreducible
  match ← m.kernelBasis with
  | some b =>
    if b.numRows = dim then firstSplit f dim b.bitRows
    else throw (.invariant "berlekamp: nullspace basis has wrong dimension")
  | none => throw (.invariant "berlekamp: nullspace basis has wrong dimension")

/-- The branch that square-free splitting takes on `f`, with `d` the derivative of `f` and
`g = gcd f d`. -/
inductive SquareFreeStep where
  /-- `g = 0` and `f = 0`, which is kept as it is. -/
  | keep
  /-- `g = 0` for a nonzero `f`, a broken invariant. -/
  | zeroGcd
  /-- `g = 1`: `f` is square-free and goes to Berlekamp's step. -/
  | squareFree
  /-- `d = 0`, and `f` is the square of `r`. -/
  | square (r : GF2Poly)
  /-- `d = 0`, but `f` has no square root. -/
  | noSquareRoot
  /-- `g` and the quotient `q = f / g`, split in turn. -/
  | cofactors (g q : GF2Poly)

/-- The branch that square-free splitting takes on `f`. -/
def squareFreeStep (f : GF2Poly) : SquareFreeStep :=
  let d := f.deriv
  let g := gcd f d
  if g.bits = 0 then (if f.bits = 0 then .keep else .zeroGcd)
  else if g.bits = 1 then .squareFree
  else if d.bits = 0 then
    match f.squareRoot with
    | none => .noSquareRoot
    | some r => .square r
  else .cofactors g (divBy f g)

/-- The message of a recursion check that failed. -/
def shrinkFailure : Error := .invariant "factoring: a part is not smaller than the whole"

mutual

/-- Square-free splitting of `f`, inserting the factors found into `acc`; with `deep` unset,
Berlekamp's step splits only once. -/
def splitSquares (deep : Bool) (f : GF2Poly) (acc : Factors) : Outcome Factors :=
  match squareFreeStep f with
  | .keep => .ok (acc.insertFactor f 1)
  | .zeroGcd => .error (.invariant "pre_berlekamp: gcd(f, f') = 0 for nonzero f")
  | .squareFree => berlekamp deep f acc
  | .noSquareRoot => .error (.invariant "pre_berlekamp: f' = 0 but f is not a square")
  | .square r =>
    if _ : r.degree < f.degree then do
      let s ← splitSquares deep r Factorization.empty
      let s ← s.expAll 2
      return acc.merge s
    else .error shrinkFailure
  | .cofactors g q =>
    if _ : g.degree < f.degree ∧ q.degree < f.degree then do
      let acc ← splitSquares deep g acc
      splitSquares deep q acc
    else .error shrinkFailure
termination_by (f.degree, 1)
decreasing_by
  all_goals first
    | exact Prod.Lex.right _ (by decide)
    | exact Prod.Lex.left _ _ (by omega)

/-- Berlekamp's step on a square-free `f`, inserting the factors found into `acc`. -/
def berlekamp (deep : Bool) (f : GF2Poly) (acc : Factors) : Outcome Factors :=
  if f.degree < 2 then .ok (acc.insertFactor f 1)
  else
    match berlekampSplit f with
    | .error e => .error e
    | .ok .irreducible => .ok (acc.insertFactor f 1)
    | .ok (.halves f₁ f₂ dim) =>
      if dim = 2 ∨ !deep then .ok ((acc.insertFactor f₁ 1).insertFactor f₂ 1)
      else if _ : f₁.degree < f.degree ∧ f₂.degree < f.degree then do
        let acc ← splitSquares deep f₁ acc
        splitSquares deep f₂ acc
      else .error shrinkFailure
termination_by (f.degree, 0)
decreasing_by
  all_goals exact Prod.Lex.left _ _ (by omega)

end

/-- The factorization into irreducible polynomials; a polynomial of degree 0 is its own trivial
factor. -/
def factor (f : GF2Poly) : Outcome Factors :=
  if f.degree = 0 then .ok (Factorization.empty.insertTrivial (some f))
  else splitSquares true f Factorization.empty

/-- Whether `f` is irreducible: degree 1, or degree at least 2 and a single factor after one
split. -/
def irreducible (f : GF2Poly) : Outcome Bool :=
  if f.degree = 0 then .ok false
  else if f.degree = 1 then .ok true
  else (fun s => s.numFactors = 1) <$> splitSquares false f Factorization.empty

/-- The first irreducible among `a, a + 2, …`, trying `count` candidates. -/
def firstIrreducible (d : Nat) : Nat → Nat → Outcome GF2Poly
  | 0, _ => .error (.invariant ("lowest_irr: no irreducible polynomial of degree " ++ toString d))
  | count + 1, a => do
    if ← irreducible ⟨a⟩ then return ⟨a⟩ else firstIrreducible d count (a + 2)

/-- The smallest irreducible polynomial of degree `d` with constant term 1. -/
def lowestIrreducible (d : Int) : Outcome GF2Poly :=
  if d < 1 then .error (.degreeNotPositive d)
  else firstIrreducible d.toNat (Nat.pow 2 (d.toNat - 1)) (Nat.pow 2 d.toNat + 1)

/-- The candidate that a draw `low` of random bits gives: the polynomial of degree `d` with the
low bits of the draw below `x ^ d`, and its constant term set. -/
def randomCandidate (d : Int) (low : Nat) : Outcome GF2Poly := do
  let p ← withDegree d low
  return ⟨p.bits ||| 1⟩

/-- The first candidate of the draws that the irreducibility test accepts; `none` when the draws
run out first. -/
def searchIrreducible (d : Int) : List Nat → Outcome (Option GF2Poly)
  | [] => .ok none
  | low :: draws => do
    let a ← randomCandidate d low
    if ← irreducible a then return some a else searchIrreducible d draws

/-- A random irreducible polynomial of degree `d ≥ 1` with constant term 1, searched among the
candidates of successive draws of random bits. Each test needs a Berlekamp matrix of the
square-free parts of the candidate, so beyond degree 64 the search fails with the width error. -/
def randomIrreducible (d : Int) (draws : List Nat) : Outcome (Option GF2Poly) :=
  if d < 1 then .error (.degreeNotPositive d)
  else searchIrreducible d draws

/-- The number of units modulo `f`: `∏ 2 ^ (deg p * (e - 1)) * (2 ^ deg p - 1)` over the factors
`p ^ e` of `f`. -/
def totient (f : GF2Poly) : Outcome Nat := do
  let fs ← factor f
  return (fs.factors.map fun (p, e) => Nat.pow 2 (p.degree * (e - 1)) * (Nat.pow 2 p.degree - 1)).foldl (· * ·) 1

end GF2Poly

end FiniteRings
