import FiniteRings.Bits.Row

/-!
# Matrices over GF(2)

A `BitMatrix` is a nonempty list of rows of one width `cols` (1 to 64); column `j` of a row is
bit `j` of its raw integer. As for rows, the raw integers are kept as given, and the entries are
their bits below `cols`.

The product with a vector `v` has as bit `i` the parity of the entries that row `i` shares with
`v`; it is a row of as many bits as the matrix has rows, so it exists only for matrices of at
most 64 rows.
-/

namespace FiniteRings

/-- A matrix over GF(2) of at least one row of `cols` bits, stored as raw row integers. -/
structure BitMatrix where
  cols : Nat
  rows : List Int
  cols_pos : 0 < cols
  cols_le : cols ≤ 64
  rows_ne : rows ≠ []

namespace BitMatrix

/-- The matrix with the given raw rows; it needs a row and a column, and at most 64 columns. -/
def ofRows (cols : Int) (rows : List Int) : Outcome BitMatrix :=
  if h : rows.length ≤ 0 ∨ cols ≤ 0 then .error (.matrixShape rows.length cols)
  else if h' : cols ≤ 64 then
    .ok ⟨cols.toNat, rows, by omega, by omega, by
      intro hr; simp [hr] at h⟩
  else .error (.widthOutOfRange cols)

/-- The zero matrix of the given shape. -/
def zeros (numRows cols : Int) : Outcome BitMatrix :=
  if numRows ≤ 0 ∨ cols ≤ 0 then .error (.matrixShape numRows cols)
  else ofRows cols (List.replicate numRows.toNat 0)

/-- The identity matrix of size `n`. -/
def identity (n : Int) : Outcome BitMatrix :=
  ofRows n ((List.range n.toNat).map fun i => Int.pow 2 i)

/-- The number of rows. -/
def numRows (m : BitMatrix) : Nat := m.rows.length

/-- Row `i` as a bit row. -/
def rowAt (m : BitMatrix) (bits : Int) : BitRow := ⟨m.cols, bits, m.cols_pos, m.cols_le⟩

/-- The rows as bit rows. -/
def bitRows (m : BitMatrix) : List BitRow := m.rows.map m.rowAt

/-- The entries of each row. -/
def maskedRows (m : BitMatrix) : List Nat := m.bitRows.map BitRow.masked

/-- The position that a list index names, counting from the end when it is negative. -/
def listPos (len : Nat) (i : Int) : Option Nat :=
  if 0 ≤ i ∧ i < len then some i.toNat
  else if i < 0 ∧ -i ≤ len then some (len - i.natAbs)
  else none

/-- The row at index `i`, counted from the end when `i` is negative. -/
def row (m : BitMatrix) (i : Int) : Outcome BitRow :=
  match listPos m.numRows i with
  | some k => .ok (m.rowAt (m.rows.getD k 0))
  | none => .error .listIndex

/-- Entry `(i, j)`. -/
def get (m : BitMatrix) (i j : Int) : Outcome Bool := do (← m.row i).get j

/-- Entry `(i, j)` set to the parity of `v`. -/
def set (m : BitMatrix) (i j v : Int) : Outcome BitMatrix :=
  match listPos m.numRows i with
  | some k => do
    let r ← (m.rowAt (m.rows.getD k 0)).set j v
    return { m with rows := m.rows.set k r.bits, rows_ne := by simpa using m.rows_ne }
  | none => .error .listIndex

/-- The parity of the number of ones of `n`. -/
def parity (n : Nat) : Bool :=
  if n = 0 then false else (n % 2 == 1) ^^ parity (n / 2)
termination_by n
decreasing_by omega

/-- The product `m * v` for the vector with the entries of `v`. -/
def mulBits (m : BitMatrix) (v : Int) : Outcome BitRow :=
  let bits := (m.maskedRows.zipIdx.map fun (r, i) =>
    if parity (Signed.and r v).toNat then Nat.pow 2 i else 0).foldl (· + ·) (0 : Nat)
  BitRow.make m.numRows bits

/-- The product `m * v` for a bit row `v`. -/
def mulRow (m : BitMatrix) (v : BitRow) : Outcome BitRow := m.mulBits v.masked

/-- The rows in the layout that `spec` names, one per line. -/
def format (m : BitMatrix) (spec : String) : Outcome String := do
  let lines ← m.bitRows.mapM (·.format spec)
  return "\n".intercalate lines

/-- The matrix in binary, one row per line. -/
def toBinary (m : BitMatrix) : String := "\n".intercalate (m.bitRows.map BitRow.toBinary)

/-- The matrix as source text, with the entries of each row. -/
def repr (m : BitMatrix) : String :=
  "BitMatrix.from_rows(" ++ toString m.cols ++ ", [" ++
    ", ".intercalate (m.maskedRows.map toString) ++ "])"

/-- Matrices are equal when their widths agree and their rows agree as vectors. -/
def sameMatrix (m n : BitMatrix) : Bool :=
  m.cols == n.cols && m.maskedRows == n.maskedRows

end BitMatrix

end FiniteRings
