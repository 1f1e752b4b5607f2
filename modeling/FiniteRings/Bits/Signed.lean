/-!
# Integers as two's complement words

An integer is read as an infinite two's complement word: a nonnegative integer has finitely
many ones, and `-[n+1]` is the complement of `n`, with finitely many zeros. The operations
below are Mathlib's `Int.testBit`, `Int.land`, `Int.lor` and `Int.xor`, written over core alone
so that the executable part of the library needs nothing beyond core; where one operand is
negative they clear bits with `m ^^^ (m &&& n)`, which core computes, instead of `Nat.ldiff`.
`FiniteRings.Proofs.Bits.Signed` proves each equal to the library's operation, and the bit
lemmas are the library's.

Shifts and the complement are those of core: `Int.shiftRight x k` rounds toward negative
infinity, and `~~~x = -x - 1`. Shifts and powers are written by their names (`Int.shiftRight`,
`Int.pow`, `Nat.pow`) so that they mean the same functions wherever the library is used.
-/

namespace FiniteRings.Signed

/-- Bit `i` of the two's complement word of `x`. -/
def testBit : Int → Nat → Bool
  | .ofNat n, i => n.testBit i
  | .negSucc n, i => !n.testBit i

/-- Bitwise conjunction of two's complement words. -/
def and : Int → Int → Int
  | .ofNat m, .ofNat n => .ofNat (m &&& n)
  | .ofNat m, .negSucc n => .ofNat (m ^^^ (m &&& n))
  | .negSucc m, .ofNat n => .ofNat (n ^^^ (n &&& m))
  | .negSucc m, .negSucc n => .negSucc (m ||| n)

/-- Bitwise disjunction of two's complement words. -/
def or : Int → Int → Int
  | .ofNat m, .ofNat n => .ofNat (m ||| n)
  | .ofNat m, .negSucc n => .negSucc (n ^^^ (n &&& m))
  | .negSucc m, .ofNat n => .negSucc (m ^^^ (m &&& n))
  | .negSucc m, .negSucc n => .negSucc (m &&& n)

/-- Bitwise exclusive disjunction of two's complement words. -/
def xor : Int → Int → Int
  | .ofNat m, .ofNat n => .ofNat (m ^^^ n)
  | .ofNat m, .negSucc n => .negSucc (m ^^^ n)
  | .negSucc m, .ofNat n => .negSucc (m ^^^ n)
  | .negSucc m, .negSucc n => .ofNat (m ^^^ n)

end FiniteRings.Signed
