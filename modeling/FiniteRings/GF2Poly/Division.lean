import FiniteRings.Bits.HighestOne
import FiniteRings.GF2Poly.Basic

/-!
# Division with remainder, greatest common divisors

Long division runs over the positions of the dividend from its degree down to the degree `n` of
the divisor: where the running remainder has a one at position `n + k`, the divisor shifted by
`k` is added to it and `x ^ k` to the quotient. What is left has degree below `n`.

Euclid's algorithm replaces `(a, b)` by `(b, a mod b)` until the remainder vanishes. The
remainder is smaller than the divisor as a number, since its degree is lower; the loops test
that before they go on, so they are total, and the test never fails.

The extended algorithm keeps the cofactors `s` and `t` of both rows, so that the polynomial
returned as greatest common divisor is `s * a + t * b`.
-/

namespace FiniteRings.GF2Poly

/-- Long division over the positions `n + k - 1` down to `n` of the remainder `r`, where `b`
has degree `n`; returns quotient and remainder. -/
def reduceFrom (b n : Nat) : Nat → Nat → Nat → Nat × Nat
  | 0, q, r => (q, r)
  | k + 1, q, r =>
    if r.testBit (n + k) then reduceFrom b n k (q ||| (1 <<< k)) (r ^^^ (b <<< k))
    else reduceFrom b n k q r

/-- Quotient and remainder of the bit patterns `a` by `b ≠ 0`. -/
def divModBits (a b : Nat) : Nat × Nat :=
  if a = 0 then (0, 0)
  else
    let m := degree ⟨a⟩
    let n := degree ⟨b⟩
    if m < n then (0, a) else reduceFrom b n (m - n + 1) 0 a

/-- Quotient and remainder by a divisor that must be nonzero. -/
def divMod (a b : GF2Poly) : Outcome (GF2Poly × GF2Poly) :=
  if b.bits = 0 then .error .polyDivisionByZero
  else
    let (q, r) := divModBits a.bits b.bits
    .ok (⟨q⟩, ⟨r⟩)

/-- The remainder of `a` by `b`, for callers that know `b` to be nonzero. -/
def modBy (a b : GF2Poly) : GF2Poly := ⟨(divModBits a.bits b.bits).2⟩

/-- The quotient of `a` by `b`, for callers that know `b` to be nonzero. -/
def divBy (a b : GF2Poly) : GF2Poly := ⟨(divModBits a.bits b.bits).1⟩

/-! ### Remainders have lower degree

Long division clears the ones of the remainder from the top down to the degree of the divisor, so
a remainder has lower degree than its divisor (`modBy_lt`). A residue modulo a polynomial is
reduced because of this bound. -/

/-- The degree is `Nat.log2` of the bit pattern. -/
theorem degree_eq_log2 (p : GF2Poly) : p.degree = p.bits.log2 := Word.msbPos_toNat p.bits

theorem testBit_eq_false_of_log2_lt {b i : Nat} (hi : b.log2 < i) : b.testBit i = false :=
  Nat.testBit_lt_two_pow (Nat.lt_of_lt_of_le Nat.lt_log2_self (Nat.pow_le_pow_right (by decide) hi))

/-- One step of long division clears the leading one of the remainder. -/
theorem xor_shiftLeft_lt {b n k r : Nat} (hb : b ≠ 0) (hn : b.log2 = n)
    (hr : r < Nat.pow 2 (n + k + 1)) (hbit : r.testBit (n + k)) :
    r ^^^ b <<< k < Nat.pow 2 (n + k) := by
  apply Nat.lt_pow_two_of_testBit
  intro i hi
  rw [Nat.testBit_xor, Nat.testBit_shiftLeft]
  rcases Nat.eq_or_lt_of_le hi with rfl | hi
  · rw [hbit, show n + k - k = n by omega, ← hn, Nat.testBit_log2 hb]
    simp
  · rw [Nat.testBit_lt_two_pow (Nat.lt_of_lt_of_le hr (Nat.pow_le_pow_right (by decide) hi)),
      testBit_eq_false_of_log2_lt (by omega : b.log2 < i - k)]
    simp

theorem lt_of_testBit_eq_false {r m : Nat} (hr : r < Nat.pow 2 (m + 1))
    (hbit : r.testBit m = false) : r < Nat.pow 2 m := by
  apply Nat.lt_pow_two_of_testBit
  intro i hi
  rcases Nat.eq_or_lt_of_le hi with rfl | hi
  · exact hbit
  · exact Nat.testBit_lt_two_pow (Nat.lt_of_lt_of_le hr (Nat.pow_le_pow_right (by decide) hi))

/-- Over the positions `n + k - 1` down to `n`, long division by `b` of degree `n` leaves a
remainder below `2 ^ n`, from a remainder without ones at `n + k` or above. -/
theorem reduceFrom_lt {b n : Nat} (hb : b ≠ 0) (hn : b.log2 = n) (k q r : Nat)
    (hr : r < Nat.pow 2 (n + k)) : (reduceFrom b n k q r).2 < Nat.pow 2 n := by
  induction k, q, r using reduceFrom.induct b n with
  | case1 q r => exact hr
  | case2 k q r hbit ih =>
    rw [reduceFrom, if_pos hbit]
    exact ih (xor_shiftLeft_lt hb hn hr hbit)
  | case3 k q r hbit ih =>
    rw [Bool.not_eq_true] at hbit
    rw [reduceFrom, if_neg (by simp [hbit])]
    exact ih (lt_of_testBit_eq_false hr hbit)

/-- The remainder by a nonzero `b` is below `2 ^ log2 b`. -/
theorem divModBits_lt (a : Nat) {b : Nat} (hb : b ≠ 0) :
    (divModBits a b).2 < Nat.pow 2 b.log2 := by
  unfold divModBits
  simp only [degree_eq_log2]
  split
  · exact Nat.two_pow_pos _
  · split
    · next hmn => exact Nat.lt_of_lt_of_le Nat.lt_log2_self (Nat.pow_le_pow_right (by decide) hmn)
    · next hmn =>
      exact reduceFrom_lt hb rfl _ 0 a
        (Nat.lt_of_lt_of_le Nat.lt_log2_self (Nat.pow_le_pow_right (by decide) (by omega)))

/-- **Remainders are reduced.**  The remainder by a nonzero polynomial has lower degree. -/
theorem modBy_lt (a : GF2Poly) {b : GF2Poly} (hb : b.bits ≠ 0) :
    (modBy a b).bits < Nat.pow 2 b.degree := by
  rw [degree_eq_log2]
  exact divModBits_lt a.bits hb

/-- Euclid's loop, entered with a nonzero divisor `b`. Each remainder is below its divisor, which
the loop checks rather than assumes. -/
def gcdLoop (a b : Nat) : Nat :=
  let r := (divModBits a b).2
  if r = 0 then b
  else if r < b then gcdLoop b r
  else b
termination_by b

/-- The greatest common divisor; either argument is returned as it is when the other is zero. -/
def gcd (a b : GF2Poly) : GF2Poly :=
  if a.bits = 0 then b
  else if b.bits = 0 then a
  else ⟨gcdLoop a.bits b.bits⟩

/-- The extended loop on the rows `(a, s₁, t₁)` and `(b, s, t)`. -/
def extGcdLoop (a b s₁ s t₁ t : Nat) : Nat × Nat × Nat :=
  let (q, r) := divModBits a b
  if r = 0 then (b, s, t)
  else if r < b then
    extGcdLoop b r s (s₁ ^^^ mulAcc 0 q s) t (t₁ ^^^ mulAcc 0 q t)
  else (b, s, t)
termination_by b

/-- `(g, s, t)` with `g = gcd a b = s * a + t * b`. -/
def extGcd (a b : GF2Poly) : GF2Poly × GF2Poly × GF2Poly :=
  if a.bits = 0 then (b, zero, one)
  else if b.bits = 0 then (a, one, zero)
  else
    let (g, s, t) := extGcdLoop a.bits b.bits 1 0 0 1
    (⟨g⟩, ⟨s⟩, ⟨t⟩)

/-- The least common multiple `a * b / gcd a b`; both zero is a division by zero. -/
def lcm (a b : GF2Poly) : Outcome GF2Poly := do
  let (q, _) ← divMod (a * b) (gcd a b)
  return q

/-! ## Integer words as operands

An integer word may stand where a polynomial is expected. Its bits are then those of its two's
complement form, and its degree is `wordDegree`; a negative word keeps a sign that no
polynomial has, which `GF2Poly.ofInt` refuses when the result is formed.
-/

/-- Long division of integer words over the positions `n + k - 1` down to `n`, where the
divisor `b` is already shifted to the top position. -/
def reduceWordFrom (n : Nat) : Nat → Int → Int → Int → Int × Int
  | 0, q, r, _ => (q, r)
  | k + 1, q, r, b =>
    if Signed.testBit r (n + k) then
      reduceWordFrom n k (Signed.or q (Int.pow 2 k)) (Signed.xor r b) (b.shiftRight 1)
    else reduceWordFrom n k q r (b.shiftRight 1)

/-- Quotient and remainder of integer words, the divisor nonzero. -/
def divModWords (a b : Int) : Outcome (Int × Int) :=
  if b = 0 then .error .polyDivisionByZero
  else if a = 0 then .ok (0, 0)
  else
    let m := wordDegree a
    let n := wordDegree b
    if m < n then .ok (0, a)
    else .ok (reduceWordFrom n (m - n + 1) 0 a (b * Int.pow 2 (m - n)))

end FiniteRings.GF2Poly
