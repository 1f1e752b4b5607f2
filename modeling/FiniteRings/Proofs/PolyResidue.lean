import Mathlib
import FiniteRings.PolyResidue
import FiniteRings.Proofs.GF2Poly.Division

/-!
# Residues modulo a polynomial form the ring `GF(2)[X] / (m)`

Every residue is held by its remainder, whose bits lie below `2 ^ deg m` (the field
`residue_lt`, proved by `reduce`); two such remainders with the same class in `AdjoinRoot m` are
equal, since their difference is a multiple of `m` of lower degree. Every operation builds its
result by `reduce`, and it is the class the operation asks for:

* sums and products are the sums and products of the classes;
* the inverse is the Bezout coefficient `s` of `s * r + t * m = gcd r m`, a true inverse when
  the greatest common divisor is `1`, and unique among the reduced residues;
* a quotient multiplies by that inverse, so multiplying it back gives the dividend;
* a residue of another modulus is refused with both moduli named.
-/

namespace FiniteRings.PolyResidue

open GF2Poly Polynomial

/-- A residue held by its remainder: its bits lie below `2 ^ deg m`. -/
def Reduced (x : PolyResidue) : Prop := x.residue.bits < 2 ^ x.modulus.degree

/-- Every residue is reduced: the structure carries the bound. -/
theorem reduced (x : PolyResidue) : x.Reduced := x.residue_lt

section Classes

variable {m : GF2Poly} (hm : 0 < m.bits)
include hm

/-- Reducing does not change the class. -/
theorem mk_modBy (r : GF2Poly) :
    AdjoinRoot.mk m.toPoly (modBy r m).toPoly = AdjoinRoot.mk m.toPoly r.toPoly := by
  rw [toPoly_modBy r hm.ne', AdjoinRoot.mk_eq_mk]
  exact dvd_modByMonic_sub _ _

/-- Two remainders below `2 ^ deg m` with the same class are equal. -/
theorem eq_of_mk_eq {p q : GF2Poly} (hp : p.bits < 2 ^ m.degree) (hq : q.bits < 2 ^ m.degree)
    (h : AdjoinRoot.mk m.toPoly p.toPoly = AdjoinRoot.mk m.toPoly q.toPoly) : p = q := by
  have hmonic := toPoly_monic hm.ne'
  have hself : ∀ {r : GF2Poly}, r.bits < 2 ^ m.degree → r.toPoly %ₘ m.toPoly = r.toPoly := by
    intro r hr
    rw [modByMonic_eq_self_iff hmonic]
    exact degree_toPoly_lt hm.ne' (by rwa [← degree_eq_log2])
  have := congrArg (AdjoinRoot.modByMonicHom hmonic) h
  rw [AdjoinRoot.modByMonicHom_mk, AdjoinRoot.modByMonicHom_mk, hself hp, hself hq] at this
  exact toPoly_injective this

/-- A residue is the class of its own residue again. -/
theorem reduce_residue {x : PolyResidue} (hxm : x.modulus = m) : reduce x.residue m hm = x := by
  obtain ⟨m', r, h, hr⟩ := x
  subst hxm
  simp only [reduce, PolyResidue.mk.injEq, true_and]
  exact eq_of_mk_eq hm (modBy_lt r hm.ne') hr (mk_modBy hm r)

/-- Residues of one modulus are equal when their classes are. -/
theorem reduce_eq_reduce {p q : GF2Poly}
    (h : AdjoinRoot.mk m.toPoly p.toPoly = AdjoinRoot.mk m.toPoly q.toPoly) :
    reduce p m hm = reduce q m hm := by
  simp only [reduce, PolyResidue.mk.injEq, true_and]
  exact eq_of_mk_eq hm (modBy_lt p hm.ne') (modBy_lt q hm.ne')
    (by rw [mk_modBy hm, mk_modBy hm, h])

end Classes

/-! ### The operations, one lemma each -/

theorem value_of_eq {x y : PolyResidue} (h : y.modulus = x.modulus) :
    x.value (.residue y) = .ok (.poly y.residue) := by
  simp [value, h]

theorem value_of_ne {x y : PolyResidue} (h : y.modulus ≠ x.modulus) :
    x.value (.residue y) = .error (.modulusMismatch x.modulus.toHex y.modulus.toHex) := by
  simp [value, h]

theorem add_of_eq {x y : PolyResidue} (h : y.modulus = x.modulus) :
    x.add (.residue y) = .ok (x.withValue (x.residue + y.residue)) := by
  simp [add, value_of_eq h, addOperand]
  rfl

theorem mul_of_eq {x y : PolyResidue} (h : y.modulus = x.modulus) :
    x.mul (.residue y) = .ok (x.withValue (x.residue * y.residue)) := by
  simp [mul, value_of_eq h, mulOperand]

/-- The inverse is the Bezout coefficient of the residue when it is prime to the modulus. -/
theorem recip_eq (x : PolyResidue) :
    x.recip = if (gcd x.residue x.modulus).bits = 1
      then .ok (x.withValue (extGcd x.residue x.modulus).2.1)
      else .error (.notInvertible x.residue.bits x.modulus.bits) := by
  rw [recip, ← (extGcd_spec x.residue x.modulus).1]
  simp [GF2Poly.isOne]

theorem recip_eq_error_iff (x : PolyResidue) :
    x.recip = .error (.notInvertible x.residue.bits x.modulus.bits) ↔
      (GF2Poly.gcd x.residue x.modulus).bits ≠ 1 := by
  rw [recip_eq]
  split
  · next hg => simp [hg]
  · next hg => simp [hg]

theorem isUnit_eq_true_iff (x : PolyResidue) :
    x.isUnit = true ↔ (GF2Poly.gcd x.residue x.modulus).bits = 1 := by
  simp [PolyResidue.isUnit, GF2Poly.isOne]

theorem div_of_eq {x y : PolyResidue} (h : y.modulus = x.modulus) :
    x.div (.residue y) = (fun c => x.withValue (x.residue * c.residue)) <$>
      (x.withValue y.residue).recip := by
  simp only [div, value_of_eq h, Operand.toPoly]
  rfl

theorem add_of_ne {x y : PolyResidue} (h : y.modulus ≠ x.modulus) :
    x.add (.residue y) = .error (.modulusMismatch x.modulus.toHex y.modulus.toHex) := by
  simp [add, value_of_ne h]
  rfl

theorem mul_of_ne {x y : PolyResidue} (h : y.modulus ≠ x.modulus) :
    x.mul (.residue y) = .error (.modulusMismatch x.modulus.toHex y.modulus.toHex) := by
  simp [mul, value_of_ne h]

theorem div_of_ne {x y : PolyResidue} (h : y.modulus ≠ x.modulus) :
    x.div (.residue y) = .error (.modulusMismatch x.modulus.toHex y.modulus.toHex) := by
  simp [div, value_of_ne h]
  rfl

/-! ### Inverses -/

/-- **Bezout gives the inverse.**  When the residue is prime to the modulus, its Bezout
coefficient times the residue is `1` in `GF(2)[X] / (m)`. -/
theorem mk_extGcd_mul {r m : GF2Poly} (hg : (gcd r m).bits = 1) :
    AdjoinRoot.mk m.toPoly (extGcd r m).2.1.toPoly * AdjoinRoot.mk m.toPoly r.toPoly = 1 := by
  obtain ⟨-, hbez⟩ := extGcd_spec r m
  have hone : (gcd r m).toPoly = 1 := by
    rw [show gcd r m = ⟨1⟩ from congrArg GF2Poly.mk hg, toPoly_one]
  rw [hone] at hbez
  have := congrArg (AdjoinRoot.mk m.toPoly) hbez
  rwa [map_add, map_mul, map_mul, AdjoinRoot.mk_self, mul_zero, add_zero, map_one] at this

section Residues

variable {m : GF2Poly} (hm : 0 < m.bits)
include hm

/-- A residue with an inverse class has exactly one reduced inverse. -/
theorem reduce_eq_of_mul_eq_one {r s t : GF2Poly}
    (hs : AdjoinRoot.mk m.toPoly s.toPoly * AdjoinRoot.mk m.toPoly r.toPoly = 1)
    (ht : AdjoinRoot.mk m.toPoly r.toPoly * AdjoinRoot.mk m.toPoly t.toPoly = 1) :
    reduce t m hm = reduce s m hm := by
  apply reduce_eq_reduce hm
  calc AdjoinRoot.mk m.toPoly t.toPoly
      = (AdjoinRoot.mk m.toPoly s.toPoly * AdjoinRoot.mk m.toPoly r.toPoly) *
          AdjoinRoot.mk m.toPoly t.toPoly := by rw [hs, one_mul]
    _ = AdjoinRoot.mk m.toPoly s.toPoly := by rw [mul_assoc, ht, mul_one]

theorem mk_residue_reduce (p : GF2Poly) :
    AdjoinRoot.mk m.toPoly (reduce p m hm).residue.toPoly = AdjoinRoot.mk m.toPoly p.toPoly :=
  mk_modBy hm p

/-- Equal residues of one modulus have equal classes. -/
theorem mk_eq_of_reduce_eq {p q : GF2Poly} (h : reduce p m hm = reduce q m hm) :
    AdjoinRoot.mk m.toPoly p.toPoly = AdjoinRoot.mk m.toPoly q.toPoly := by
  rw [← mk_residue_reduce hm p, ← mk_residue_reduce hm q, h]

/-- **The inverse.**  A residue prime to `m` has an inverse: the reduced Bezout coefficient,
whose product with the residue is `1`, and no other reduced residue has that product. -/
theorem recip_reduce (r : GF2Poly) (hg : (GF2Poly.gcd (reduce r m hm).residue m).bits = 1) :
    ∃ c, (reduce r m hm).recip = .ok c ∧ c.modulus = m ∧ c.Reduced ∧
      (reduce r m hm).mul (.residue c) = .ok (reduce GF2Poly.one m hm) ∧
      ∀ t : GF2Poly, (reduce r m hm).mul (.residue (reduce t m hm)) =
        .ok (reduce GF2Poly.one m hm) → reduce t m hm = c := by
  set a := reduce r m hm
  have hinv := mk_extGcd_mul hg
  set s := (extGcd a.residue m).2.1
  refine ⟨reduce s m hm, ?_, rfl, reduced _, ?_, ?_⟩
  · rw [recip_eq]
    exact if_pos hg
  · rw [mul_of_eq (x := a) (y := reduce s m hm) rfl]
    congr 1
    apply reduce_eq_reduce hm
    rw [toPoly_mul, map_mul, mk_residue_reduce hm s, mul_comm, hinv, one, toPoly_one, map_one]
  · intro t ht
    rw [mul_of_eq (x := a) (y := reduce t m hm) rfl, Except.ok.injEq] at ht
    have hmk := mk_eq_of_reduce_eq hm ht
    rw [toPoly_mul, map_mul, mk_residue_reduce hm t, one, toPoly_one, map_one] at hmk
    exact reduce_eq_of_mul_eq_one hm hinv hmk

/-- Two residues of `m` are added without any check failing. -/
theorem add_reduce (r s : GF2Poly) :
    (reduce r m hm).add (.residue (reduce s m hm)) =
      .ok (reduce ((reduce r m hm).residue + (reduce s m hm).residue) m hm) :=
  add_of_eq rfl

theorem mul_reduce (r s : GF2Poly) :
    (reduce r m hm).mul (.residue (reduce s m hm)) =
      .ok (reduce ((reduce r m hm).residue * (reduce s m hm).residue) m hm) :=
  mul_of_eq rfl

/-- A quotient by a residue of `m` fails exactly when the divisor is no unit. -/
theorem div_reduce_eq_error_iff (r s : GF2Poly) :
    (reduce r m hm).div (.residue (reduce s m hm)) =
        .error (.notInvertible (reduce s m hm).residue.bits m.bits) ↔
      (reduce s m hm).isUnit = false := by
  -- the divisor is turned into a residue of `m` again, which leaves it as it is
  have hwith : (reduce r m hm).withValue (reduce s m hm).residue = reduce s m hm :=
    reduce_residue hm rfl
  rw [div_of_eq (x := reduce r m hm) (y := reduce s m hm) rfl, hwith, Bool.eq_false_iff, Ne, isUnit_eq_true_iff, ← Ne,
    ← recip_eq_error_iff (reduce s m hm)]
  cases (reduce s m hm).recip <;> simp [Functor.map, Except.map, reduce]

/-- **Division.**  A quotient by a unit, multiplied back by the divisor, gives the dividend. -/
theorem div_reduce (r s : GF2Poly) (hb : (GF2Poly.gcd (reduce s m hm).residue m).bits = 1) :
    ∃ c, (reduce r m hm).div (.residue (reduce s m hm)) = .ok c ∧ c.modulus = m ∧ c.Reduced ∧
      c.mul (.residue (reduce s m hm)) = .ok (reduce r m hm) := by
  obtain ⟨y, hy, hym, -, hyb, -⟩ := recip_reduce hm s hb
  have hwith : (reduce r m hm).withValue (reduce s m hm).residue = reduce s m hm :=
    reduce_residue hm rfl
  -- `y` is inverse to the divisor in `GF(2)[X] / (m)`
  have hinv : AdjoinRoot.mk m.toPoly (reduce s m hm).residue.toPoly *
      AdjoinRoot.mk m.toPoly y.residue.toPoly = 1 := by
    rw [mul_of_eq hym, Except.ok.injEq] at hyb
    have := mk_eq_of_reduce_eq hm hyb
    rwa [toPoly_mul, map_mul, one, toPoly_one, map_one] at this
  refine ⟨reduce ((reduce r m hm).residue * y.residue) m hm, ?_, rfl, reduced _, ?_⟩
  · rw [div_of_eq (x := reduce r m hm) (y := reduce s m hm) rfl, hwith, hy]
    rfl
  · rw [mul_of_eq (x := reduce ((reduce r m hm).residue * y.residue) m hm) (y := reduce s m hm) rfl]
    congr 1
    refine Eq.trans (reduce_eq_reduce hm ?_) (reduce_residue hm rfl)
    rw [toPoly_mul, map_mul, mk_residue_reduce hm, toPoly_mul, map_mul, mul_assoc,
      mul_comm (AdjoinRoot.mk m.toPoly y.residue.toPoly), hinv, mul_one]

end Residues

/-! ### The ring `GF(2)[X] / (m)` -/

/-- **Residues modulo `m` are the ring `GF(2)[X] / (m)`.**  For the residues `a` and `b` of `r`
and `s` modulo a nonzero `m`: every result is reduced; a sum, which is also a difference, and a
product are the classes of the sum and the product; the inverse fails exactly when the residue
is not prime to `m` and is otherwise the one reduced residue whose product with `a` is `1`; a
quotient fails exactly when the divisor is no unit and otherwise gives the dividend back when
multiplied by the divisor; and a residue of another modulus is refused, naming both moduli. -/
theorem residue_ops_quotient (m : GF2Poly) (hm : 0 < m.bits) (r s : GF2Poly) :
    (reduce r m hm).Reduced ∧
    (∃ c, (reduce r m hm).add (.residue (reduce s m hm)) = .ok c ∧ c.modulus = m ∧ c.Reduced ∧
      AdjoinRoot.mk m.toPoly c.residue.toPoly =
        AdjoinRoot.mk m.toPoly ((reduce r m hm).residue.toPoly + (reduce s m hm).residue.toPoly) ∧
      AdjoinRoot.mk m.toPoly c.residue.toPoly =
        AdjoinRoot.mk m.toPoly ((reduce r m hm).residue.toPoly - (reduce s m hm).residue.toPoly)) ∧
    (∃ c, (reduce r m hm).mul (.residue (reduce s m hm)) = .ok c ∧ c.modulus = m ∧ c.Reduced ∧
      AdjoinRoot.mk m.toPoly c.residue.toPoly =
        AdjoinRoot.mk m.toPoly ((reduce r m hm).residue.toPoly * (reduce s m hm).residue.toPoly)) ∧
    ((reduce r m hm).recip = .error (.notInvertible (reduce r m hm).residue.bits m.bits) ↔
      (GF2Poly.gcd (reduce r m hm).residue m).bits ≠ 1) ∧
    ((GF2Poly.gcd (reduce r m hm).residue m).bits = 1 →
      ∃ c, (reduce r m hm).recip = .ok c ∧ c.modulus = m ∧ c.Reduced ∧
        (reduce r m hm).mul (.residue c) = .ok (reduce GF2Poly.one m hm) ∧
        ∀ t : GF2Poly, (reduce r m hm).mul (.residue (reduce t m hm)) =
          .ok (reduce GF2Poly.one m hm) → reduce t m hm = c) ∧
    ((reduce r m hm).div (.residue (reduce s m hm)) =
        .error (.notInvertible (reduce s m hm).residue.bits m.bits) ↔
      (reduce s m hm).isUnit = false) ∧
    ((reduce s m hm).isUnit = true →
      ∃ c, (reduce r m hm).div (.residue (reduce s m hm)) = .ok c ∧ c.modulus = m ∧ c.Reduced ∧
        c.mul (.residue (reduce s m hm)) = .ok (reduce r m hm)) ∧
    (∀ y : PolyResidue, y.modulus ≠ m →
      (reduce r m hm).add (.residue y) = .error (.modulusMismatch m.toHex y.modulus.toHex) ∧
      (reduce r m hm).mul (.residue y) = .error (.modulusMismatch m.toHex y.modulus.toHex) ∧
      (reduce r m hm).div (.residue y) = .error (.modulusMismatch m.toHex y.modulus.toHex)) := by
  have hsub := CharTwo.sub_eq_add (reduce r m hm).residue.toPoly (reduce s m hm).residue.toPoly
  refine ⟨reduced _,
    ⟨_, add_reduce hm r s, rfl, reduced _, ?_, ?_⟩,
    ⟨_, mul_reduce hm r s, rfl, reduced _, ?_⟩,
    recip_eq_error_iff _, recip_reduce hm r, div_reduce_eq_error_iff hm r s,
    fun hunit => div_reduce hm r s ((isUnit_eq_true_iff _).1 hunit),
    fun y hy => ⟨add_of_ne hy, mul_of_ne hy, div_of_ne hy⟩⟩
  · rw [mk_residue_reduce hm, toPoly_add]
  · rw [mk_residue_reduce hm, toPoly_add, hsub]
  · rw [mk_residue_reduce hm, toPoly_mul]

/-- Modulo `x⁴ + x + 1`, dividing `x³ + 1` by `x² + x` and multiplying back by `x² + x` gives
`x³ + 1`. -/
theorem div_mul_mod_nineteen :
    0 < (⟨19⟩ : GF2Poly).bits ∧
      ∃ c, (reduce ⟨9⟩ ⟨19⟩ (by decide)).div (.residue (reduce ⟨6⟩ ⟨19⟩ (by decide))) = .ok c ∧
        c.mul (.residue (reduce ⟨6⟩ ⟨19⟩ (by decide))) = .ok (reduce ⟨9⟩ ⟨19⟩ (by decide)) := by
  obtain ⟨-, -, -, -, -, -, hdiv, -⟩ := residue_ops_quotient ⟨19⟩ (by decide) ⟨9⟩ ⟨6⟩
  -- `x² + x` is prime to `x⁴ + x + 1`, which the kernel checks by running the gcd loop
  obtain ⟨c, hc, -, -, hmul⟩ := hdiv (by decide +kernel)
  exact ⟨by decide, c, hc, hmul⟩

end FiniteRings.PolyResidue
