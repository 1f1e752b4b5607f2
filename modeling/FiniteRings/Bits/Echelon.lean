import FiniteRings.Bits.Matrix

/-!
# Row reduction over GF(2)

Reduction pivots from the lowest column upwards and works in two passes.

* `eliminate` runs over the columns in increasing order. In each column it looks for the first
  remaining row with a one there; if there is one, that row is swapped to the top of the
  remaining rows, added to every remaining row below it that has a one in the column, and then
  left alone. The pivot rows are added with all of their raw bits.
* `backSubstitute` then clears, in every row, the leading columns of the rows below it: it runs
  through the rows below in order, stops at the first row whose entries are all zero, and adds
  a row whenever the current row has a one at that row's leading column. Each row is cleared
  with the rows below it as the first pass left them.

After both passes the nonzero rows come first, with strictly increasing leading columns, and each
leading column is zero in every other row. The rank is the number of leading nonzero rows, and
the kernel has one basis vector for each column that leads no row.
-/

namespace FiniteRings.BitMatrix

/-- The first pass, over the columns `cs`: returns the rows with the pivot rows at the top. -/
def eliminate : List Nat → List Int → List Int
  | [], rows => rows
  | _, [] => []
  | c :: cs, r₀ :: rest =>
    match (r₀ :: rest).findIdx? (Signed.testBit · c) with
    | none => eliminate cs (r₀ :: rest)
    | some k =>
      let pivot := (r₀ :: rest).getD k 0
      let below := if k = 0 then rest else rest.set (k - 1) r₀
      pivot :: eliminate cs (below.map fun r => if Signed.testBit r c then Signed.xor r pivot else r)

/-- The position of the lowest one among the first `w` bits of `r`, or `-1`. -/
def leaderOf (w : Nat) (r : Int) : Int := Word.lsbPos (r % Int.pow 2 w)

/-- Clears the leading columns of the rows `below` from the row `r`, stopping at the first row
without entries. -/
def clearLeaders (w : Nat) (r : Int) : List Int → Int
  | [] => r
  | s :: rest =>
    let p := leaderOf w s
    if p < 0 then r
    else clearLeaders w (if Signed.testBit r p.toNat then Signed.xor r s else r) rest

/-- The second pass. -/
def backSubstitute (w : Nat) : List Int → List Int
  | [] => []
  | r :: rest => clearLeaders w r rest :: backSubstitute w rest

theorem length_eliminate : ∀ (cs : List Nat) (rows : List Int),
    (eliminate cs rows).length = rows.length
  | [], rows => rfl
  | _ :: _, [] => rfl
  | c :: cs, r₀ :: rest => by
    unfold eliminate
    split
    · exact length_eliminate cs _
    · next k _ =>
      simp only [List.length_cons, length_eliminate, List.length_map]
      split <;> simp

theorem length_backSubstitute (w : Nat) : ∀ rows : List Int,
    (backSubstitute w rows).length = rows.length
  | [] => rfl
  | _ :: rest => by simp [backSubstitute, length_backSubstitute w rest]

/-- The matrix with new rows of the same number. -/
def withRows (m : BitMatrix) (rows : List Int) (h : rows.length = m.rows.length) : BitMatrix where
  cols := m.cols
  rows := rows
  cols_pos := m.cols_pos
  cols_le := m.cols_le
  rows_ne := by
    intro hr
    apply m.rows_ne
    rw [← List.length_eq_zero_iff, ← h, hr]
    rfl

/-- The first pass over all columns. -/
def reduceBelow (m : BitMatrix) : BitMatrix :=
  m.withRows (eliminate (List.range m.cols) m.rows) (length_eliminate _ _)

/-- The reduced row echelon form: both passes. -/
def echelon (m : BitMatrix) : BitMatrix :=
  let r := m.reduceBelow
  r.withRows (backSubstitute m.cols r.rows) (length_backSubstitute _ _)

/-- The number of leading rows with a nonzero entry. -/
def leadingNonzero (m : BitMatrix) : Nat :=
  (m.bitRows.takeWhile fun r => !r.isZero).length

/-- The rank: the leading nonzero rows after the first pass. -/
def rank (m : BitMatrix) : Nat := m.reduceBelow.leadingNonzero

/-- A basis of the kernel `{v | m * v = 0}`, as the rows of a matrix, or `none` when the kernel
is trivial. The basis vector of a column `f` that leads no row has a one at `f` and at the
leading column of every row with a one at `f`. -/
def kernelBasis (m : BitMatrix) : Outcome (Option BitMatrix) := do
  let e := m.echelon
  let rank := e.leadingNonzero
  if m.cols - rank = 0 then return none
  let pivots := (e.bitRows.take rank).map fun r => (r, r.leaderPos.toNat)
  let leaders := pivots.map (·.2)
  let free := (List.range m.cols).filter fun j => !leaders.contains j
  if free.length ≠ m.cols - rank then
    throw (.invariant "kernel basis: free column count does not match nullity")
  let vector (f : Nat) : Int :=
    pivots.foldl (fun v (r, l) => if r.entry f then Signed.or v (Int.pow 2 l) else v) (Int.pow 2 f)
  some <$> ofRows m.cols (free.map vector)

end FiniteRings.BitMatrix
