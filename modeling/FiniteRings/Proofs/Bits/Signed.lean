import Mathlib.Data.Int.Bitwise
import FiniteRings.Bits.Signed

/-!
# The word operations are the library's

Each operation of `FiniteRings.Bits.Signed` is the operation of the same name on `ℤ` in
Mathlib and Batteries. The only difference is how a negative operand clears bits: the library
writes `Nat.ldiff m n`, the word operations `m ^^^ (m &&& n)`, and `xor_and_eq_ldiff` says the
two agree. From these equalities the bit lemmas are those of `Mathlib.Data.Int.Bitwise`.
-/

namespace FiniteRings.Signed

theorem testBit_eq_int_testBit : testBit = Int.testBit := by
  funext x i
  cases x <;> rfl

/-- Clearing from `m` the ones of `n`, as core computes it. -/
theorem xor_and_eq_ldiff (m n : Nat) : m ^^^ (m &&& n) = Nat.ldiff m n := by
  apply Nat.eq_of_testBit_eq
  intro i
  rw [Nat.testBit_xor, Nat.testBit_and, Nat.testBit_ldiff]
  cases m.testBit i <;> cases n.testBit i <;> rfl

theorem and_eq_land : and = Int.land := by
  funext x y
  rcases x with m | m <;> rcases y with n | n
  · rfl
  · exact congrArg Int.ofNat (xor_and_eq_ldiff m n)
  · exact congrArg Int.ofNat (xor_and_eq_ldiff n m)
  · rfl

theorem or_eq_lor : or = Int.lor := by
  funext x y
  rcases x with m | m <;> rcases y with n | n
  · rfl
  · exact congrArg Int.negSucc (xor_and_eq_ldiff n m)
  · exact congrArg Int.negSucc (xor_and_eq_ldiff m n)
  · rfl

theorem xor_eq_int_xor : xor = Int.xor := by
  funext x y
  rcases x with m | m <;> rcases y with n | n <;> rfl

theorem testBit_and (x y : Int) (i : Nat) :
    testBit (and x y) i = (testBit x i && testBit y i) := by
  rw [and_eq_land, testBit_eq_int_testBit]
  exact Int.testBit_land x y i

theorem testBit_or (x y : Int) (i : Nat) :
    testBit (or x y) i = (testBit x i || testBit y i) := by
  rw [or_eq_lor, testBit_eq_int_testBit]
  exact Int.testBit_lor x y i

theorem testBit_xor (x y : Int) (i : Nat) :
    testBit (xor x y) i = (testBit x i ^^ testBit y i) := by
  rw [xor_eq_int_xor, testBit_eq_int_testBit]
  exact Int.testBit_lxor x y i

/-- On nonnegative words exclusive disjunction is that of `Nat`. -/
theorem xor_ofNat (m n : Nat) : xor m n = ((m ^^^ n : Nat) : Int) := rfl

end FiniteRings.Signed
