import FiniteRings.Arg
import FiniteRings.Bits.Word
import FiniteRings.Error
import FiniteRings.Text.Digits

/-!
# Rows of bits

A `BitRow` is a vector over GF(2) of 1 to 64 entries, entry `j` being bit `j` of an integer.
The integer is kept as it was given: bits at and above the width, and the sign of a negative
integer, are carried along but never read. `masked` is the view that the vector stands for,
`bits mod 2 ^ width`, and everything except `bits` itself depends on the row only through it.

A row is written in binary, zero-padded to its width, or in hexadecimal, zero-padded to a
quarter of its width rounded up.
-/

namespace FiniteRings

/-- A vector of `width` bits over GF(2), stored with the raw integer it was given. -/
structure BitRow where
  width : Nat
  bits : Int
  width_pos : 0 < width
  width_le : width ≤ 64
  deriving DecidableEq

namespace BitRow

open Text

/-- The largest width of a row. -/
def maxWidth : Nat := 64

/-- A row of width `n` with the raw bits `bits`; the width must lie in `1 .. 64`. -/
def make (n : Int) (bits : Int) : Outcome BitRow :=
  if h : 0 < n ∧ n ≤ 64 then .ok ⟨n.toNat, bits, by omega, by omega⟩
  else .error (.widthOutOfRange n)

/-- A row whose width is given as an argument of unchecked kind. -/
def ofArg (n : Arg) (bits : Int) : Outcome BitRow :=
  match n with
  | .int n => make n bits
  | a => .error (.notAnInteger a.kindName)

/-- A row of width `n` holding the low `n` bits of `bits`. -/
def ofLowBits (n : Arg) (bits : Int) : Outcome BitRow :=
  match n with
  | .int n =>
    if n < 0 then .error .negativeShift else make n (bits % Int.pow 2 n.toNat)
  | a => .error (.operandKind ("<<: 'int' and " ++ quoted a.kindName))

/-- The entries of the row as a natural number: the raw bits modulo `2 ^ width`. -/
def masked (r : BitRow) : Nat := (r.bits % Int.pow 2 r.width).toNat

/-- Entry `j` of the row, read from the raw bits. -/
def entry (r : BitRow) (j : Nat) : Bool := Signed.testBit r.bits j

/-- Whether `j` is a position of the row. -/
def inRange (r : BitRow) (j : Int) : Bool := 0 ≤ j ∧ j < r.width

/-- Entry `j`, which must be a position of the row. -/
def get (r : BitRow) (j : Int) : Outcome Bool :=
  if r.inRange j then .ok (r.entry j.toNat) else .error (.bitIndex j r.width)

/-- Entry `j` set to the parity of `v`. -/
def set (r : BitRow) (j v : Int) : Outcome BitRow :=
  if r.inRange j then
    let b : Int := Int.pow 2 j.toNat
    .ok { r with bits := if v % 2 = 1 then Signed.or r.bits b else Signed.and r.bits (~~~b) }
  else .error (.bitIndex j r.width)

/-- Entry `j` flipped. -/
def toggle (r : BitRow) (j : Int) : Outcome BitRow :=
  if r.inRange j then .ok { r with bits := Signed.xor r.bits (Int.pow 2 j.toNat) }
  else .error (.bitIndex j r.width)

/-- The position of the lowest one of the row, or `-1` for the zero row. -/
def leaderPos (r : BitRow) : Int := Word.lsbPos r.masked

/-- Whether every entry is zero. -/
def isZero (r : BitRow) : Bool := r.masked == 0

/-- The row in the layout that `spec` names: binary for an empty spec or `b`, hexadecimal for
`x`. -/
def format (r : BitRow) (spec : String) : Outcome String :=
  if spec = "" ∨ spec = "b" then .ok (padLeft r.width '0' (binary r.masked))
  else if spec = "x" then .ok (padLeft ((r.width + 3) / 4) '0' (hex r.masked))
  else .error (.bitFormat spec)

/-- The row in binary. -/
def toBinary (r : BitRow) : String := padLeft r.width '0' (binary r.masked)

/-- The row as source text. -/
def repr (r : BitRow) : String := "BitVector(" ++ toString r.width ++ ", 0b" ++ r.toBinary ++ ")"

/-- Rows are equal as vectors when their widths and entries agree. -/
def sameVector (r s : BitRow) : Bool := r.width == s.width && r.masked == s.masked

end BitRow

end FiniteRings
