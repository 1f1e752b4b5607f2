import FiniteRings.Arith.Power

/-!
# Factorizations

A factorization holds an optional trivial factor (a unit such as `-1`, or the value itself when
it cannot be factored) and a list of factors with their multiplicities, kept in increasing
order of the factors with every factor at most once. The value it stands for is

  `(trivial, or one when there is none) * ∏ p ^ e`.

The bases are integers or polynomials over GF(2); `FactorBase` names what a factorization needs
of them. Inserting a factor that is already present adds the multiplicities, and inserting a
multiplicity of zero or less changes nothing.

Divisors are enumerated in mixed radix: the `k`-th divisor takes `p ^ i` for the digit `i` of
`k` in base `e + 1` at the place of the factor `p ^ e`, the lowest place first.
-/

namespace FiniteRings

/-- What factorizations need of their bases: the identity, products, powers and exact
quotients, an order that keeps factors sorted, and a written form. Powers and quotients may
fail, as zero to the power zero and division by zero do for polynomials. -/
class FactorBase (α : Type) where
  one : α
  mul : α → α → α
  pow : α → Nat → Outcome α
  quot : α → α → Outcome α
  lt : α → α → Bool
  text : α → String

/-- A trivial factor and the list of factors with multiplicities. -/
structure Factorization (α : Type) where
  trivial : Option α
  factors : List (α × Nat)
  deriving DecidableEq, Repr

namespace Factorization

variable {α : Type} [DecidableEq α] [FactorBase α]

open FactorBase

/-- The factorization that holds nothing. -/
def empty : Factorization α := ⟨none, []⟩

/-- Multiplies `u` into the trivial factor; `none` changes nothing. -/
def insertTrivial (f : Factorization α) : Option α → Factorization α
  | none => f
  | some u => { f with trivial := some (match f.trivial with | none => u | some t => mul t u) }

/-- Inserts `p ^ e` into a sorted list of factors. -/
def insertSorted (p : α) (e : Nat) : List (α × Nat) → List (α × Nat)
  | [] => [(p, e)]
  | (q, d) :: rest =>
    if q = p then (q, d + e) :: rest
    else if lt p q then (p, e) :: (q, d) :: rest
    else (q, d) :: insertSorted p e rest

/-- Inserts the factor `p` with multiplicity `e`; a multiplicity of zero or less changes
nothing. -/
def insertFactor (f : Factorization α) (p : α) (e : Int) : Factorization α :=
  if e ≤ 0 then f else { f with factors := insertSorted p e.toNat f.factors }

/-- The factorization built by inserting a trivial factor and then each factor in turn. -/
def build (trivial : Option α) (factors : List (α × Int)) : Factorization α :=
  factors.foldl (fun f (p, e) => f.insertFactor p e) (empty.insertTrivial trivial)

/-- Inserts the trivial factor and then every factor of `g`. -/
def merge (f g : Factorization α) : Factorization α :=
  g.factors.foldl (fun f (p, e) => f.insertFactor p e) (f.insertTrivial g.trivial)

/-- Raises the value to the power `e`: the trivial factor is raised and every multiplicity is
multiplied. -/
def expAll (f : Factorization α) (e : Nat) : Outcome (Factorization α) := do
  let t ← match f.trivial with
    | none => pure none
    | some t => some <$> pow t e
  return ⟨t, f.factors.map fun (p, d) => (p, d * e)⟩

/-- The number of distinct factors. -/
def numDistinct (f : Factorization α) : Nat := f.factors.length

/-- The number of factors counted with multiplicity. -/
def numFactors (f : Factorization α) : Nat := (f.factors.map (·.2)).foldl (· + ·) 0

/-- Fails, naming the query, when nothing has been inserted. -/
def requireNonempty (f : Factorization α) (query : String) : Outcome Unit :=
  if f.factors.isEmpty ∧ f.trivial.isNone then .error (.noFactors query) else .ok ()

/-- The number of divisors, `∏ (e + 1)`. -/
def countDivisors (f : Factorization α) : Nat := (f.factors.map fun (_, e) => e + 1).foldl (· * ·) 1

/-- The number of divisors, for a factorization that holds something. -/
def numDivisors (f : Factorization α) : Outcome Nat := do
  f.requireNonempty "num_divisors"
  return f.countDivisors

/-- The divisor with number `k` in mixed radix, from the accumulated divisor `d`. -/
def divisorFrom (d : α) (k : Int) : List (α × Nat) → Outcome α
  | [] => .ok d
  | (p, e) :: rest => do
    let i := k.fmod (e + 1)
    let d ← if i = 0 then pure d else mul d <$> pow p i.toNat
    divisorFrom d (k.fdiv (e + 1)) rest

/-- The divisor with number `k`. -/
def kthDivisor (f : Factorization α) (k : Int) : Outcome α := do
  f.requireNonempty "kth_divisor"
  divisorFrom one k f.factors

/-- Sorts by the order of the bases. -/
def sortBases (xs : List α) : List α := xs.mergeSort fun a b => !lt b a

/-- All divisors in increasing order. -/
def allDivisors (f : Factorization α) : Outcome (List α) := do
  let n ← f.numDivisors
  let ds ← (List.range n).mapM fun (k : Nat) => divisorFrom one k f.factors
  return sortBases ds

/-- The value `(trivial or one) * ∏ p ^ e`. -/
def value (f : Factorization α) : Outcome α :=
  f.factors.foldlM (fun n (p, e) => mul n <$> pow p e) (f.trivial.getD one)

/-- The value, for a factorization that holds something. -/
def unfactor (f : Factorization α) : Outcome α := do
  f.requireNonempty "unfactor"
  f.value

/-- The divisors `n / p` of the value `n` for the distinct factors `p`, in increasing order. -/
def maximalProperDivisors (f : Factorization α) : Outcome (List α) := do
  f.requireNonempty "maximal_proper_divisors"
  let n ← f.value
  let ds ← f.factors.mapM fun (p, _) => quot n p
  return sortBases ds

/-- The factorization written as its terms, the trivial factor first, then `p` or `p^e`. -/
def text (f : Factorization α) : String :=
  let terms := f.factors.map fun (p, e) =>
    if e = 1 then FactorBase.text p else FactorBase.text p ++ "^" ++ toString e
  " ".intercalate ((f.trivial.map FactorBase.text).toList ++ terms)

/-- The pair at list index `i`, counted from the end when `i` is negative. -/
def pairAt (f : Factorization α) (i : Int) : Outcome (α × Nat) :=
  let n := f.factors.length
  let k : Option Nat :=
    if 0 ≤ i ∧ i < n then some i.toNat else if i < 0 ∧ -i ≤ n then some (n - i.natAbs) else none
  match k.bind fun k => f.factors[k]? with
  | some pe => .ok pe
  | none => .error .listIndex

end Factorization

/-- Integers as bases: floor quotients, and a quotient by zero is an error. -/
instance : FactorBase Int where
  one := 1
  mul a b := a * b
  pow a e := .ok (Arith.powAcc 1 a e)
  quot a b := if b = 0 then .error .divisionByZero else .ok (a.fdiv b)
  lt a b := decide (a < b)
  text a := toString a

end FiniteRings
