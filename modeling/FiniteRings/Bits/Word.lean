import FiniteRings.Bits.Signed

/-!
# Bit tricks on 64-bit words

The highest and lowest set bits of a word are found without a loop over positions: `fill`
smears the highest one into every lower position, `lsb` isolates the lowest one, and `ones`
counts the ones of the low 64 bits by sideways addition of ever wider fields. Positions of set
bits are `-1` for the zero word.

Inputs are integers of any size and sign. A negative input is a two's complement word, whose
low 64 bits are what the tricks see; an input above `2 ^ 64 - 1` is measured by its bit length
instead, so `msbPos` and `lsbPos` are right for every nonnegative integer.
-/

namespace FiniteRings.Word

/-- Ones in the 64 low positions. -/
def mask : Nat := Nat.pow 2 64 - 1

/-- `x` with its highest one copied into every lower position of the low word. -/
def fill (x : Int) : Int :=
  let x := Signed.or x (x.shiftRight 1)
  let x := Signed.or x (x.shiftRight 2)
  let x := Signed.or x (x.shiftRight 4)
  let x := Signed.or x (x.shiftRight 8)
  let x := Signed.or x (x.shiftRight 16)
  Signed.or x (x.shiftRight 32)

/-- The highest set bit of `x`, as a word (0 for 0). -/
def msb (x : Int) : Int :=
  let f := fill x
  Signed.and f (~~~(f.shiftRight 1))

/-- The lowest set bit of `x`, as a word of the low 64 bits (0 for 0). -/
def lsb (x : Int) : Int :=
  Signed.and (Signed.and x (~~~x + 1)) mask

/-- Adds neighbouring fields of width `w`, where `m` selects the lower field of each pair. -/
def foldFields (x m w : Nat) : Nat :=
  (x &&& m) + ((x >>> w) &&& m)

/-- The number of ones among the low 64 bits of `x`. -/
def ones (x : Int) : Nat :=
  let x := (Signed.and x mask).toNat
  let x := foldFields x 0x5555555555555555 1
  let x := foldFields x 0x3333333333333333 2
  let x := foldFields x 0x0F0F0F0F0F0F0F0F 4
  let x := foldFields x 0x00FF00FF00FF00FF 8
  let x := foldFields x 0x0000FFFF0000FFFF 16
  foldFields x 0x00000000FFFFFFFF 32

/-- `⌊log₂ x⌋` for a word `x > 0`, and `-1` for `0`. -/
def floorLog2 (x : Int) : Int :=
  (ones (fill x) : Int) - 1

/-- The number of binary digits of `n` (0 for 0). -/
def bitLength (n : Nat) : Nat :=
  if n = 0 then 0 else n.log2 + 1

/-- The position of the highest set bit of `x`, or `-1` for `0`. -/
def msbPos (x : Int) : Int :=
  if x = 0 then -1
  else if x > mask then (bitLength x.toNat : Int) - 1
  else floorLog2 x

/-- The position of the lowest set bit of `x`, or `-1` for `0`. -/
def lsbPos (x : Int) : Int :=
  if x = 0 then -1
  else if x > mask then (bitLength (Signed.and x (-x)).toNat : Int) - 1
  else floorLog2 (lsb x)

end FiniteRings.Word
