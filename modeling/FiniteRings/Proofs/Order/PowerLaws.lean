import Mathlib
import FiniteRings.Proofs.Order.Classes

/-!
# Powers of residues

`pow` treats zero apart: zero has no power of exponent zero and no negative power, and is its own
positive powers. Any other residue is raised by square-and-multiply, after inverting it for a
negative exponent, and that inverse fails exactly for the residues that are no units. What comes
out is the product of `|e|` factors, the residue or its inverse, and for a unit the exponents add
and multiply whatever their signs. `PowerRules` states these rules once for any ring of residues;
both kinds of residue obey them (`IntResidue.powerRules`, `PolyResidue.powerRules`), the
polynomial ones once reduced, as every residue that the library builds is.
-/

namespace FiniteRings

namespace UnitRing

variable {α : Type} [UnitRing α]

/-- How `pow` treats a residue `x`, given the residue `one` of the class one, the inverse `recip`
of `x`, and the failure `noInverse` of that inverse. -/
structure PowerRules (x one : α) (recip : Outcome α) (noInverse : Error) : Prop where
  /-- Zero has no power of exponent zero, -/
  zero_zero : isZero x = true → pow x 0 = .error .zeroToTheZero
  /-- no negative power, -/
  zero_neg : isZero x = true → ∀ e < 0, pow x e = .error .zeroDivisionInRing
  /-- and is its own positive powers. -/
  zero_pos : isZero x = true → ∀ e > 0, pow x e = .ok x
  /-- A negative power of another residue fails exactly when it is no unit, -/
  neg_fails : isZero x = false → ∀ e < 0, (pow x e = .error noInverse ↔ isUnit x = false)
  /-- and otherwise is the product of `|e|` factors: `x`, or its inverse for `e < 0`. -/
  product : isZero x = false → ∀ e : Int, 0 ≤ e ∨ isUnit x = true →
    pow x e = (if e < 0 then recip else .ok x) >>= fun b => productOf one b e.natAbs
  /-- The exponents of a unit add and multiply, whatever their signs. -/
  laws : isZero x = false → isUnit x = true → ∀ e f : Int,
    pow x (e + f) = (do let p ← pow x e; let q ← pow x f; mul p q) ∧
      pow x (e * f) = (pow x e >>= fun p => pow p f)

variable {R : Type} [CommMonoidWithZero R] {S : α → Prop} {cls : α → R}

/-- The rules for zero follow from what `pow` does with it: `0 ^ 0` is refused, its negative
powers are divisions by zero, and its positive powers give it back. -/
theorem PowerRules.of_zero {x one : α} {recip : Outcome α} {noInverse : Error}
    (hz : isZero x = true)
    (hpow : ∀ e, pow x e = if e = 0 then .error .zeroToTheZero
      else if e < 0 then .error .zeroDivisionInRing else .ok x) :
    PowerRules x one recip noInverse where
  zero_zero _ := by rw [hpow, if_pos rfl]
  zero_neg _ e he := by rw [hpow, if_neg he.ne, if_pos he]
  zero_pos _ e he := by rw [hpow, if_neg he.ne', if_neg (not_lt.2 he.le)]
  neg_fails h := absurd (hz.symm.trans h) (by decide)
  product h := absurd (hz.symm.trans h) (by decide)
  laws h := absurd (hz.symm.trans h) (by decide)

/-- The rules for a residue other than zero follow from the classes of its modulus, given its
powers `n ≥ 0`, its negative powers, which raise its inverse, and that a unit has an inverse. -/
theorem PowerRules.of_classes {x one : α} {recip : Outcome α} {noInverse : Error}
    (hC : Classes S cls) (hZ : ZPowers S cls) (hx : S x) (hone : S one) (h1 : cls one = 1)
    (hnz : isZero x = false)
    (hnat : ∀ n : Nat, ∃ y, pow x n = .ok y ∧ S y ∧ cls y = cls x ^ n)
    (hneg : ∀ b, recip = .ok b → ∀ e < 0, ∃ y, pow x e = .ok y ∧ S y ∧ cls y = cls b ^ e.natAbs)
    (hrecip : isUnit x = true → ∃ b, recip = .ok b ∧ S b)
    (hfail : ∀ e < 0, (pow x e = .error noInverse ↔ isUnit x = false)) :
    PowerRules x one recip noInverse where
  zero_zero h := absurd (h.symm.trans hnz) (by decide)
  zero_neg h := absurd (h.symm.trans hnz) (by decide)
  zero_pos h := absurd (h.symm.trans hnz) (by decide)
  neg_fails _ := hfail
  product _ e he := by
    split
    · next hlt =>
      obtain ⟨b, hb, hSb⟩ := hrecip (he.resolve_left (not_le.2 hlt))
      obtain ⟨y, hy, hSy, hcy⟩ := hneg b hb e hlt
      rw [hb]
      exact eq_productOf hC hone h1 hSb hy hSy hcy
    · next hge =>
      lift e to Nat using not_lt.1 hge
      obtain ⟨y, hy, hSy, hcy⟩ := hnat e
      exact eq_productOf hC hone h1 hx hy hSy hcy
  laws _ hu e f := by
    obtain ⟨u, hu'⟩ := (hC.isUnit hx).1 hu
    exact ⟨pow_add hC hZ hx hu'.symm e f, pow_mul hC hZ hx hu'.symm e f⟩

end UnitRing

open UnitRing

namespace IntResidue

/-- **Powers of integer residues** follow the rules, modulo every positive integer. -/
theorem powerRules (x : IntResidue) :
    PowerRules x (x.withValue 1) x.recip (.noInverse x.residue x.modulus) := by
  by_cases h0 : x.residue = 0
  · -- zero to a positive power is zero again: the residue itself
    have hself : x.withValue 0 = x := ((eq_withValue_iff x x 0).2 ⟨rfl, by rw [h0]⟩).symm
    refine PowerRules.of_zero (by simp [IntResidue.isZero, h0]) fun e => ?_
    rw [unitRing_pow, pow_of_residue_eq_zero h0, hself]
  · -- a residue other than zero lies below a modulus `N ≥ 2`
    have hxN := modulus_eq_toNat x
    have hN := two_le_modulus_of_ne_zero h0
    have hnz : UnitRing.isZero x = false := by simp [IntResidue.isZero, h0]
    refine PowerRules.of_classes (classes _) (zpowers _ hN) hxN hxN
      (one_emod_cast_of_modulus _ hxN) hnz (pow_natCast_cast _ hxN h0)
      (fun b hb e he => pow_neg_cast _ hxN h0 he hb) (fun hu => ?_) (fun e he => ?_)
    · obtain ⟨b, hb, hbN, -⟩ := recip_cast _ hxN hu
      exact ⟨b, hb, hbN⟩
    · rw [unitRing_pow, unitRing_isUnit, pow_of_residue_ne_zero h0, if_pos he]
      by_cases hcop : Int.gcd x.residue x.modulus = 1
      · obtain ⟨b, hb, -⟩ := recip_of_gcd_eq_one hcop
        rw [hb, (isUnit_iff_gcd x).2 hcop]
        exact iff_of_false (fun h => by cases h) (by decide)
      · rw [recip_of_gcd_ne_one hcop, Bool.eq_false_iff, Ne, isUnit_iff_gcd]
        exact iff_of_true rfl hcop

end IntResidue

namespace PolyResidue

open GF2Poly

/-- A residue of zero has no power of exponent zero and no negative power. -/
theorem pow_of_bits_eq_zero {x : PolyResidue} (h : x.residue.bits = 0) (e : Int) :
    x.pow e = if e = 0 then .error .zeroToTheZero
      else if e < 0 then .error .zeroDivisionInRing else .ok (x.withValue zero) := by
  simp only [PolyResidue.pow, GF2Poly.isZero, h, beq_self_eq_true, ↓reduceIte]
  by_cases h0 : e = 0
  · simp only [h0, ↓reduceIte]
    rfl
  · by_cases hneg : e < 0
    · simp only [h0, hneg, ↓reduceIte]
      rfl
    · simp only [h0, hneg, ↓reduceIte]
      rfl

/-- **Powers of polynomial residues** follow the rules, for the residues modulo every nonzero
polynomial. -/
theorem powerRules (x : PolyResidue) :
    PowerRules x (x.withValue one) x.recip (.notInvertible x.residue.bits x.modulus.bits) := by
  by_cases h0 : x.residue.bits = 0
  · -- zero to a positive power is zero again: the residue itself
    have hself : x.withValue zero = x := by
      rw [← reduce_residue x.modulus_pos rfl, show x.residue = zero from congrArg GF2Poly.mk h0]
      rfl
    refine PowerRules.of_zero (by simp [PolyResidue.isZero, GF2Poly.isZero, h0]) fun e => ?_
    rw [unitRing_pow, pow_of_bits_eq_zero h0, hself]
  · -- a residue other than zero leaves a modulus of positive degree
    have hdeg := degree_pos_of_residue_ne_zero h0
    have hnz : UnitRing.isZero x = false := by simp [PolyResidue.isZero, GF2Poly.isZero, h0]
    refine PowerRules.of_classes (classes hdeg) (zpowers hdeg) rfl rfl
      (mk_withValue_one hdeg rfl) hnz
      (pow_natCast_mk hdeg rfl h0) (fun b hb e he => pow_neg_mk hdeg rfl h0 he hb)
      (fun hu => ?_) (fun e he => ?_)
    · obtain ⟨b, hb, hSb, -⟩ := recip_mk rfl hu
      exact ⟨b, hb, hSb⟩
    · rw [unitRing_pow, unitRing_isUnit, pow_of_bits_ne_zero h0, if_pos he, recip_eq,
        Bool.eq_false_iff, Ne, isUnit_eq_true_iff]
      split
      · next hg => exact iff_of_false (fun h => by cases h) (not_not.2 hg)
      · next hg => exact iff_of_true rfl hg

end PolyResidue

/-- **Powers of residues.**  Modulo every positive integer and modulo every nonzero polynomial,
`pow` refuses `0 ^ 0` as a bad value and the negative powers of zero as
a division by zero, and raises zero to itself for a positive exponent. A negative power of
another residue is a division by zero exactly when the residue is no unit; every other power is
the product of `|e|` factors, the residue or its inverse, from one. For a unit the exponents add
and multiply, whatever their signs. -/
theorem residue_power_rules :
    (∀ x : IntResidue, PowerRules x (x.withValue 1) x.recip (.noInverse x.residue x.modulus)) ∧
    (∀ x : PolyResidue, PowerRules x (x.withValue GF2Poly.one) x.recip
      (.notInvertible x.residue.bits x.modulus.bits)) ∧
    Error.zeroToTheZero.kind = .value ∧ Error.zeroDivisionInRing.kind = .zeroDivision ∧
    (∀ a m, (Error.noInverse a m).kind = .zeroDivision) ∧
    (∀ r m, (Error.notInvertible r m).kind = .zeroDivision) :=
  ⟨IntResidue.powerRules, PolyResidue.powerRules, rfl, rfl, fun _ _ => rfl, fun _ _ => rfl⟩

/-- The rules at the residue `x² + x` modulo `x⁴ + x + 1`. -/
theorem residue_power_rules_nineteen :
    (PolyResidue.reduce ⟨6⟩ ⟨19⟩ (by decide)).Reduced ∧
      PowerRules (PolyResidue.reduce ⟨6⟩ ⟨19⟩ (by decide))
        ((PolyResidue.reduce ⟨6⟩ ⟨19⟩ (by decide)).withValue GF2Poly.one)
        (PolyResidue.reduce ⟨6⟩ ⟨19⟩ (by decide)).recip
        (.notInvertible (PolyResidue.reduce ⟨6⟩ ⟨19⟩ (by decide)).residue.bits 19) :=
  ⟨PolyResidue.reduced _, residue_power_rules.2.1 _⟩

end FiniteRings
