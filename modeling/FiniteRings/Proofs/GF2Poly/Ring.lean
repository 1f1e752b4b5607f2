import Mathlib
import FiniteRings.GF2Poly.Operand
import FiniteRings.Proofs.Bits.Word

/-!
# Bit patterns are the polynomials over GF(2)

`toPoly p` is the polynomial of `(ZMod 2)[X]` whose coefficient of `X ^ j` is bit `j` of
`p.bits`. It is a bijection, and it carries every operation of `GF2Poly` to the one of the
polynomial ring:

* the exclusive or of bit patterns is the sum, which in characteristic 2 is also the difference;
* `mulAcc c a b` adds `a * b` to `c`, one shifted copy of `a` for each one of `b`, so the
  product of polynomials is the product in `(ZMod 2)[X]`;
* square-and-multiply computes powers;
* the degree found by `Word.msbPos` is the natural degree.

All later statements about division, greatest common divisors and factoring are made through
`toPoly`, so that the algebra of `(ZMod 2)[X]` is available for them.
-/

namespace FiniteRings.GF2Poly

open Polynomial

/-- A coefficient as an element of the field with two elements. -/
def ofBit (b : Bool) : ZMod 2 := if b then 1 else 0

@[simp] theorem ofBit_true : ofBit true = 1 := rfl

@[simp] theorem ofBit_false : ofBit false = 0 := rfl

theorem ofBit_xor (a b : Bool) : ofBit (a ^^ b) = ofBit a + ofBit b := by
  cases a <;> cases b <;> decide

theorem ofBit_injective : Function.Injective ofBit := by decide

theorem ofBit_eq_zero {b : Bool} : ofBit b = 0 ↔ b = false := by
  cases b <;> decide

/-- Every one of `n` stands below position `n`. -/
theorem mem_range_of_testBit (n j : Nat) (h : ofBit (n.testBit j) ≠ 0) :
    j ∈ Finset.range n := by
  rw [Finset.mem_range]
  by_contra hj
  apply h
  rw [ofBit_eq_zero]
  exact Nat.testBit_lt_two_pow (Nat.lt_of_lt_of_le Nat.lt_two_pow_self
    (Nat.pow_le_pow_right (by decide) (Nat.le_of_not_gt hj)))

/-- The polynomial over `ZMod 2` that `p` stands for. -/
noncomputable def toPoly (p : GF2Poly) : (ZMod 2)[X] :=
  .ofFinsupp (.ofCoeff (Finsupp.onFinset (Finset.range p.bits) (fun j => ofBit (p.bits.testBit j))
    (mem_range_of_testBit p.bits)))

@[simp] theorem coeff_toPoly (p : GF2Poly) (j : Nat) : p.toPoly.coeff j = ofBit (p.coeff j) :=
  rfl

/-- Two bit patterns with the same polynomial are equal. -/
theorem toPoly_injective : Function.Injective toPoly := by
  intro p q h
  obtain ⟨p⟩ := p
  obtain ⟨q⟩ := q
  congr
  apply Nat.eq_of_testBit_eq
  intro j
  apply ofBit_injective
  simpa [coeff] using congrArg (·.coeff j) h

theorem toPoly_inj {p q : GF2Poly} : p.toPoly = q.toPoly ↔ p = q :=
  toPoly_injective.eq_iff

@[simp] theorem toPoly_zero : (⟨0⟩ : GF2Poly).toPoly = 0 := by
  ext j
  simp [coeff]

@[simp] theorem toPoly_one : (⟨1⟩ : GF2Poly).toPoly = 1 := by
  ext j
  cases j with
  | zero => simp [coeff]
  | succ j =>
    simp [coeff, Polynomial.coeff_one, Nat.testBit_lt_two_pow (Nat.one_lt_two_pow (Nat.succ_ne_zero j))]

@[simp] theorem toPoly_add (p q : GF2Poly) : (p + q).toPoly = p.toPoly + q.toPoly := by
  ext j
  rw [coeff_toPoly, coeff_add, Polynomial.coeff_add, coeff_toPoly, coeff_toPoly, ofBit_xor]

theorem toPoly_xor (a b : Nat) : (⟨a ^^^ b⟩ : GF2Poly).toPoly = toPoly ⟨a⟩ + toPoly ⟨b⟩ :=
  toPoly_add ⟨a⟩ ⟨b⟩

theorem toPoly_eq_zero {p : GF2Poly} : p.toPoly = 0 ↔ p.bits = 0 := by
  rw [← toPoly_zero, toPoly_inj]
  constructor
  · rintro rfl
    rfl
  · intro h
    cases p
    simp_all

/-- Moving the bits up by `k` positions multiplies by `X ^ k`. -/
theorem toPoly_shiftLeft (a k : Nat) :
    (⟨a <<< k⟩ : GF2Poly).toPoly = Polynomial.X ^ k * toPoly ⟨a⟩ := by
  ext j
  rw [coeff_toPoly, coeff_X_pow_mul']
  by_cases h : k ≤ j
  · simp [coeff, Nat.testBit_shiftLeft, h]
  · simp [coeff, Nat.testBit_shiftLeft, h]

/-- The lowest bit is the constant coefficient, and the others are those of `b / 2` times
`X`. -/
theorem toPoly_eq_lowest (b : Nat) :
    (⟨b⟩ : GF2Poly).toPoly = C (ofBit (b % 2 = 1)) + Polynomial.X * toPoly ⟨b / 2⟩ := by
  ext j
  cases j with
  | zero => simp [coeff, coeff_C]
  | succ j => simp [coeff, coeff_X_mul, Nat.testBit_div_two]

/-- **The shift-and-add product.**  `mulAcc c a b` is `c + a * b`. -/
theorem toPoly_mulAcc (c a b : Nat) :
    (⟨mulAcc c a b⟩ : GF2Poly).toPoly = toPoly ⟨c⟩ + toPoly ⟨a⟩ * toPoly ⟨b⟩ := by
  induction c, a, b using mulAcc.induct with
  | case1 c a =>
    rw [mulAcc, if_pos rfl, toPoly_zero, mul_zero, add_zero]
  | case2 c a b hb ih =>
    rw [dite_eq_ite] at ih
    rw [mulAcc, if_neg hb, ih, toPoly_shiftLeft, pow_one, toPoly_eq_lowest b]
    -- the copy of `a` added in this step is the constant coefficient of `b`
    have hc : (⟨if b % 2 = 1 then c ^^^ a else c⟩ : GF2Poly).toPoly =
        toPoly ⟨c⟩ + C (ofBit (b % 2 = 1)) * toPoly ⟨a⟩ := by
      split
      · next h => simp [toPoly_xor, h]
      · next h => simp [h]
    rw [hc]
    ring

@[simp] theorem toPoly_mul (p q : GF2Poly) : (p * q).toPoly = p.toPoly * q.toPoly := by
  show (⟨mulAcc 0 p.bits q.bits⟩ : GF2Poly).toPoly = _
  rw [toPoly_mulAcc, toPoly_zero, zero_add]

/-- **Square-and-multiply.**  `powAcc c p e` is `c * p ^ e`; the squaring after the last bit of
`e` is skipped, which changes nothing. -/
theorem toPoly_powAcc (c p : GF2Poly) (e : Nat) :
    (powAcc c p e).toPoly = c.toPoly * p.toPoly ^ e := by
  induction c, p, e using powAcc.induct with
  | case1 c p => rw [powAcc, if_pos rfl, pow_zero, mul_one]
  | case2 c p e he hhalf =>
    obtain rfl : e = 1 := by omega
    simp [powAcc]
  | case3 c p e he c' hhalf ih =>
    have hc' : c' = if e % 2 = 1 then c * p else c := dite_eq_ite
    rw [powAcc, if_neg he]
    simp only [if_neg hhalf]
    rw [← hc', ih, hc', toPoly_mul, ← pow_two, ← pow_mul]
    -- `e` is twice its half plus its lowest bit
    have hsplit : e = 2 * (e / 2) + e % 2 := (Nat.div_add_mod e 2).symm
    split
    · next h =>
      rw [toPoly_mul, mul_assoc, ← pow_succ', hsplit, h]
      congr 2
      omega
    · next h =>
      rw [show e % 2 = 0 by omega, add_zero] at hsplit
      rw [← hsplit]

/-- Powers with an integer exponent: zero to the power zero and to a negative power fail, as
does a negative power of any other polynomial. -/
theorem pow_eq_ok {p : GF2Poly} {e : Int} (he : 0 ≤ e) (h : p.bits ≠ 0 ∨ e ≠ 0) :
    ∃ c, p.pow e = .ok c ∧ c.toPoly = p.toPoly ^ e.toNat := by
  unfold pow
  by_cases hp : p.bits = 0
  · have he0 : e ≠ 0 := h.resolve_left (not_not.2 hp)
    refine ⟨zero, by simp [hp, he0, show ¬e < 0 by omega], ?_⟩
    rw [toPoly_eq_zero.2 hp, zero_pow (by omega)]
    exact toPoly_zero
  · refine ⟨powAcc one p e.toNat, by simp [hp, show ¬e < 0 by omega], ?_⟩
    rw [toPoly_powAcc, one, toPoly_one, one_mul]

/-! ### Degree -/

/-- **The degree.**  The highest one found by the bit tricks is the natural degree, with `0`
for the zero polynomial on both sides. -/
theorem natDegree_toPoly (p : GF2Poly) : p.toPoly.natDegree = p.degree := by
  rw [degree_eq_log2]
  by_cases h : p.bits = 0
  · rw [toPoly_eq_zero.2 h, h, natDegree_zero]
    rfl
  · apply natDegree_eq_of_le_of_coeff_ne_zero
    · rw [natDegree_le_iff_coeff_eq_zero]
      intro N hN
      rw [coeff_toPoly, ofBit_eq_zero]
      exact Nat.testBit_lt_two_pow
        (Nat.lt_of_lt_of_le Nat.lt_log2_self (Nat.pow_le_pow_right (by decide) hN))
    · simp [coeff, Nat.testBit_log2 h]

/-- Over `GF(2)` every nonzero polynomial is monic. -/
theorem toPoly_monic {p : GF2Poly} (h : p.bits ≠ 0) : p.toPoly.Monic := by
  rw [Monic, leadingCoeff, natDegree_toPoly, degree_eq_log2]
  simp [coeff, Nat.testBit_log2 h]

/-! ### Every polynomial has a bit pattern -/

theorem toPoly_two_pow (n : Nat) : (⟨2 ^ n⟩ : GF2Poly).toPoly = Polynomial.X ^ n := by
  ext j
  rw [coeff_toPoly, coeff_X_pow]
  by_cases h : j = n
  · simp [coeff, h]
  · simp [coeff, h, Ne.symm h]

theorem toPoly_surjective : Function.Surjective toPoly := by
  intro q
  induction q using Polynomial.induction_on' with
  | add p q hp hq =>
    obtain ⟨a, rfl⟩ := hp
    obtain ⟨b, rfl⟩ := hq
    exact ⟨a + b, toPoly_add a b⟩
  | monomial n a =>
    rcases (show ∀ a : ZMod 2, a = 0 ∨ a = 1 by decide) a with rfl | rfl
    · exact ⟨⟨0⟩, by simp⟩
    · exact ⟨⟨2 ^ n⟩, by rw [toPoly_two_pow, ← C_mul_X_pow_eq_monomial, C_1, one_mul]⟩

theorem toPoly_bijective : Function.Bijective toPoly :=
  ⟨toPoly_injective, toPoly_surjective⟩

/-! ### Words as right operands -/

theorem addOperand_natCast (a : GF2Poly) (n : Nat) : addOperand a (.word n) = .ok (a + ⟨n⟩) := by
  simp [addOperand, ofInt, Signed.xor_ofNat]
  rfl

theorem ofWord_natCast (n : Nat) : ofWord n = ⟨n⟩ := by
  unfold ofWord wordDegree
  rw [Word.msbPos_toNat, Int.pow_eq, Int.fmod_eq_emod_of_nonneg _ (by positivity),
    Int.emod_eq_of_lt (by omega) (by exact_mod_cast Nat.lt_log2_self)]
  rfl

theorem mulOperand_natCast (a : GF2Poly) (n : Nat) : mulOperand a (.word n) = a * ⟨n⟩ := by
  rw [mulOperand, ofWord_natCast]

/-! ### The arithmetic of bit patterns -/

/-- **Bit patterns are `GF(2)[X]`.**  `toPoly` is a bijection onto the polynomials over `GF(2)`.
A sum, which is also a difference, and a product are those of the polynomials, whether the
right operand is a polynomial or its word; the degree is the natural degree; and `a ^ e` is the
polynomial power for every `e ≥ 0` unless `a` and `e` are both zero. Zero to the power zero,
zero to a negative power and a negative power of another polynomial fail. -/
theorem toPoly_arith (a b : GF2Poly) (e : Int) :
    Function.Bijective toPoly ∧
    (∀ o ∈ [Operand.poly b, .word b.bits],
      (∃ c, addOperand a o = .ok c ∧
        c.toPoly = a.toPoly + b.toPoly ∧ c.toPoly = a.toPoly - b.toPoly) ∧
      (mulOperand a o).toPoly = a.toPoly * b.toPoly) ∧
    a.degree = a.toPoly.natDegree ∧
    (0 ≤ e → (a.bits ≠ 0 ∨ e ≠ 0) → ∃ c, a.pow e = .ok c ∧ c.toPoly = a.toPoly ^ e.toNat) ∧
    (a.bits = 0 → e = 0 → a.pow e = .error .zeroToTheZero) ∧
    (a.bits = 0 → e < 0 → a.pow e = .error .zeroDivisionInRing) ∧
    (a.bits ≠ 0 → e < 0 → a.pow e = .error .negativePolyExponent) := by
  refine ⟨toPoly_bijective, ?_, (natDegree_toPoly a).symm, pow_eq_ok, ?_, ?_, ?_⟩
  · intro o ho
    -- in characteristic two the difference is the sum
    have hsub : a.toPoly - b.toPoly = a.toPoly + b.toPoly := CharTwo.sub_eq_add _ _
    simp only [List.mem_cons, List.not_mem_nil, or_false] at ho
    rcases ho with rfl | rfl
    · exact ⟨⟨a + b, rfl, toPoly_add a b, by rw [hsub, toPoly_add]⟩, toPoly_mul a b⟩
    · refine ⟨⟨a + b, addOperand_natCast a b.bits, toPoly_add a b, by rw [hsub, toPoly_add]⟩, ?_⟩
      rw [mulOperand_natCast]
      exact toPoly_mul a b
  · intro ha he
    simp [pow, ha, he]
  · intro ha he
    simp [pow, ha, he, show e ≠ 0 by omega]
  · intro ha he
    simp [pow, ha, he]

end FiniteRings.GF2Poly
