import FiniteRings.Evaluation.Ring

/-!
# Evaluations step by step

An evaluation is a list of steps over one ring. Each step reads a literal or applies an
operation to the entries of earlier steps, and its own entry is a value, an exponent, or the
failure it met. A step names an earlier entry by its position: counted from `0` at the first
entry, or, when negative, from `-1` at the latest one. A position outside the entries so far is
an error of its own; a step that names a failed step fails in turn, naming that step as it was
named. Operands are looked up in order: the left one before the right one or the exponent.

An exponent entry serves as an operand like a value: it is the integer that it holds.
-/

namespace FiniteRings

/-- An entry of an evaluation over the ring `R`. -/
inductive Entry (R : NumericRing) where
  | value (v : R.Value)
  | exponent (e : Int)

/-- The entry as an operand. -/
def Entry.operand {R : NumericRing} : Entry R → R.Value
  | .value v => v
  | .exponent e => R.ofExponent e

/-- A step of an evaluation. -/
inductive Step where
  | literal (s : String)
  | exponentLiteral (s : String)
  | add (a b : Int)
  | sub (a b : Int)
  | mul (a b : Int)
  | div (a b : Int)
  | rem (a b : Int)
  | neg (a : Int)
  | pow (a e : Int)
  | toExponent (a : Int)

namespace Evaluation

variable {R : NumericRing}

/-- The index among `n` entries that the position `i` names, if any. -/
def resolve (n : Nat) (i : Int) : Option Nat :=
  let j := if i < 0 then i + n else i
  if 0 ≤ j ∧ j < n then some j.toNat else none

/-- The entry at position `i` among the entries `done` so far. -/
def entryAt (done : List (Outcome (Entry R))) (i : Int) : Outcome (Entry R) :=
  match (resolve done.length i).bind (done[·]?) with
  | some (.ok e) => .ok e
  | some (.error _) => .error (.stepFailed i)
  | none => .error .listIndex

/-- Applies a binary operation to the entries at positions `a` and `b`. -/
def binary (done : List (Outcome (Entry R))) (op : R.Value → R.Value → Outcome R.Value)
    (a b : Int) : Outcome (Entry R) := do
  let x ← entryAt done a
  let y ← entryAt done b
  return .value (← op x.operand y.operand)

/-- The entry of one step. -/
def step (done : List (Outcome (Entry R))) : Step → Outcome (Entry R)
  | .literal s => .value <$> R.ofLiteral s
  | .exponentLiteral s => .exponent <$> R.exponentOfLiteral s
  | .add a b => binary done R.add a b
  | .sub a b => binary done R.sub a b
  | .mul a b => binary done R.mul a b
  | .div a b => binary done R.div a b
  | .rem a b => binary done R.rem a b
  | .neg a => do return .value (R.neg (← entryAt done a).operand)
  | .pow a e => binary done R.pow a e
  | .toExponent a => do return .exponent (← R.toExponent (← entryAt done a).operand)

/-- The entries of `steps` after the entries `done`. -/
def runFrom (done : List (Outcome (Entry R))) : List Step → List (Outcome (Entry R))
  | [] => done
  | s :: rest => runFrom (done ++ [step done s]) rest

/-- The entries of all steps, in order. -/
def run (R : NumericRing) (steps : List Step) : List (Outcome (Entry R)) := runFrom [] steps

example : resolve 3 (-1) = some 2 := by decide
example : resolve 3 (-4) = none := by decide
example : resolve 3 3 = none := by decide

end Evaluation

end FiniteRings
