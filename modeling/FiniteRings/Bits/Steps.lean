import FiniteRings.Bits.Echelon

/-!
# Bit vectors and matrices as objects

A bit vector and a bit matrix are mutable objects: each method call is a step that answers
and may change the object. A step that fails answers its error and leaves the object as it
was, since no method changes its object before its arguments have passed their checks.
`stepAnswers` makes the calls of a list in order and records each answer with the object
after it.

`row_echelon_form` is the only method of a matrix that changes it besides `set`; `rank` and
`kernel_basis` reduce a copy.
-/

namespace FiniteRings

/-- The answer of a method: nothing (a mutator), a bit, a truth value, an integer, a text, a
bit vector, or a matrix that may be absent. -/
inductive Reply where
  | none
  | bit (b : Bool)
  | bool (b : Bool)
  | int (n : Int)
  | text (s : String)
  | row (r : BitRow)
  | matrix (m : Option BitMatrix)

/-- The answers of the steps `ts` made from the object `s`, each with the object after it. -/
def stepAnswers {σ τ : Type} (apply : σ → τ → Outcome Reply × σ) :
    σ → List τ → List (Outcome Reply × σ)
  | _, [] => []
  | s, t :: ts => apply s t :: stepAnswers apply (apply s t).2 ts

/-- The answer of a mutator: nothing and the changed object, or the error and the object as it
was. -/
def mutation {σ : Type} (s : σ) : Outcome σ → Outcome Reply × σ
  | .ok s' => (.ok .none, s')
  | .error e => (.error e, s)

namespace BitRow

/-- The methods of a bit vector. -/
inductive Step where
  | get (j : Int)
  | set (j v : Int)
  | toggle (j : Int)
  | findLeaderPos
  | masked
  | isZero
  | len
  | format (spec : String)
  | str
  | repr
  | eq (n : Arg) (bits : Int)

/-- One method call on the bit vector `r`. -/
def apply (r : BitRow) : Step → Outcome Reply × BitRow
  | .get j => (Reply.bit <$> r.get j, r)
  | .set j v => mutation r (r.set j v)
  | .toggle j => mutation r (r.toggle j)
  | .findLeaderPos => (.ok (.int r.leaderPos), r)
  | .masked => (.ok (.int r.masked), r)
  | .isZero => (.ok (.bool r.isZero), r)
  | .len => (.ok (.int r.width), r)
  | .format spec => (Reply.text <$> r.format spec, r)
  | .str => (.ok (.text r.toBinary), r)
  | .repr => (.ok (.text r.repr), r)
  | .eq n bits => ((fun o => Reply.bool (r.sameVector o)) <$> ofArg n bits, r)

end BitRow

namespace BitMatrix

/-- The methods of a bit matrix. -/
inductive Step where
  | get (i j : Int)
  | set (i j v : Int)
  | mul (v : Int)
  | mulVec (n : Arg) (bits : Int)
  | rowEchelonForm
  | rank
  | rankRR
  | kernelBasis
  | format (spec : String)
  | str
  | repr
  | len
  | eq (cols : Int) (rows : List Int)

/-- One method call on the matrix `m`. -/
def apply (m : BitMatrix) : Step → Outcome Reply × BitMatrix
  | .get i j => (Reply.bit <$> m.get i j, m)
  | .set i j v => mutation m (m.set i j v)
  | .mul v => (Reply.row <$> m.mulBits v, m)
  | .mulVec n bits => (Reply.row <$> (BitRow.ofArg n bits >>= m.mulRow), m)
  | .rowEchelonForm => (.ok .none, m.echelon)
  | .rank => (.ok (.int m.rank), m)
  | .rankRR => (.ok (.int m.leadingNonzero), m)
  | .kernelBasis => (Reply.matrix <$> m.kernelBasis, m)
  | .format spec => (Reply.text <$> m.format spec, m)
  | .str => (.ok (.text m.toBinary), m)
  | .repr => (.ok (.text m.repr), m)
  | .len => (.ok (.int m.numRows), m)
  | .eq cols rows => ((fun o => Reply.bool (m.sameMatrix o)) <$> ofRows cols rows, m)

end BitMatrix

end FiniteRings
