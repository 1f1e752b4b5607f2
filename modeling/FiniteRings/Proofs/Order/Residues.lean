import Mathlib
import FiniteRings.Proofs.Order.Basic
import FiniteRings.Proofs.PolyResidue.Units

/-!
# Orders of integer and polynomial residues

An integer residue modulo `m` stands for its class in `ZMod m`, a polynomial residue modulo `m`
for its class in `GF(2)[X] / (m)`. The ring's tests read off the class: a residue is a unit, or
is one, exactly when its class is, and the powers computed by square-and-multiply, reducing after
every product, are the residues of the powers of the class (`Arith.modPowAcc_cast`,
`PolyResidue.mk_powAcc`). So the powers of a unit are one exactly at the multiples of the order
of its class (`IntResidue.hasOrder`, `PolyResidue.hasOrder`), and that order divides the number of
units, which is `φ(m)` for integers and `totient m` for polynomials. The search of
`UnitRing.order` then returns it (`order_least_power`).

The period of a polynomial `m` is the order of `x` modulo `m`: the least `k ≥ 1` with
`m ∣ x ^ k + 1` when `x` is a unit, which is when `m` has degree at least one and constant term
one, and `0` otherwise.
-/

namespace FiniteRings

open Polynomial UnitRing

variable {isPrime : Nat → Bool}

/-! ### Integer residues as `ZMod m` -/

namespace IntResidue

open Arith

/-- A residue is a unit exactly when its class is. -/
theorem isUnit_eq_true_iff_zmod (x : IntResidue) :
    x.isUnit = true ↔ IsUnit ((x.residue : Int) : ZMod x.modulus.toNat) := by
  obtain ⟨m, r, hm, hr0, hrm⟩ := x
  lift m to Nat using hm.le
  lift r to Nat using hr0
  simp only [IntResidue.isUnit, beq_iff_eq,
    gcd_eq_gcd (Int.natCast_nonneg r) (Int.natCast_nonneg m), Int.gcd_natCast_natCast, Int.toNat_natCast, Int.cast_natCast, ZMod.isUnit_iff_coprime]
  exact ⟨fun h => by exact_mod_cast h, fun h => by exact_mod_cast h⟩

/-- A residue is one exactly when its class is. -/
theorem isOne_eq_true_iff_zmod (x : IntResidue) :
    x.isOne = true ↔ ((x.residue : Int) : ZMod x.modulus.toNat) = 1 := by
  obtain ⟨m, r, hm, hr0, hrm⟩ := x
  lift m to Nat using hm.le
  simp only [IntResidue.isOne, beq_iff_eq]
  show r = 1 % (m : Int) ↔ ((r : Int) : ZMod m) = 1
  rw [show (1 : ZMod m) = ((1 : Int) : ZMod m) from Int.cast_one.symm,
    ZMod.intCast_eq_intCast_iff', Int.emod_eq_of_lt hr0 hrm]

/-- The residue made with the modulus of `x` has the class of its value. -/
theorem withValue_cast (x : IntResidue) (v : Int) :
    (((x.withValue v).residue : Int) : ZMod x.modulus.toNat) = (v : ZMod x.modulus.toNat) := by
  obtain ⟨m, r, hm, hr0, hrm⟩ := x
  lift m to Nat using hm.le
  exact ZMod.intCast_mod v m

/-- Square-and-multiply modulo the modulus of `x` computes in its classes. -/
theorem modPowAcc_cast_modulus (x : IntResidue) (c y : Int) (d : Nat) :
    ((modPowAcc c y d x.modulus : Int) : ZMod x.modulus.toNat) =
      (c : ZMod x.modulus.toNat) * (y : ZMod x.modulus.toNat) ^ d := by
  obtain ⟨m, r, hm, hr0, hrm⟩ := x
  lift m to Nat using hm.le
  exact modPowAcc_cast m c y d

theorem one_emod_cast (x : IntResidue) : ((1 % x.modulus : Int) : ZMod x.modulus.toNat) = 1 := by
  obtain ⟨m, r, hm, hr0, hrm⟩ := x
  lift m to Nat using hm.le
  show ((1 % (m : Int) : Int) : ZMod m) = 1
  rw [ZMod.intCast_mod, Int.cast_one]

/-- A nonzero residue raised to `d ≥ 0` by square-and-multiply. -/
theorem pow_natCast {x : IntResidue} (hx : x.residue ≠ 0) (d : Nat) :
    x.pow d = .ok (x.withValue (modPowAcc (1 % x.modulus) x.residue d x.modulus)) := by
  simp [IntResidue.pow, hx, bind, Except.bind, pure, Except.pure]

@[simp] theorem unitRing_isZero (x : IntResidue) : UnitRing.isZero x = x.isZero := rfl
@[simp] theorem unitRing_isUnit (x : IntResidue) : UnitRing.isUnit x = x.isUnit := rfl
@[simp] theorem unitRing_isOne (x : IntResidue) : UnitRing.isOne x = x.isOne := rfl
@[simp] theorem unitRing_pow (x : IntResidue) (e : Int) : UnitRing.pow x e = x.pow e := rfl

/-- The number of units is Euler's totient of the modulus, for a test sound up to the modulus. -/
theorem unitCount_eq (x : IntResidue) (hP : SoundUpTo isPrime x.modulus.toNat) :
    UnitRing.unitCount isPrime x = .ok (x.modulus.toNat.totient : Int) := by
  obtain ⟨m, r, hm, hr0, hrm⟩ := x
  lift m to Nat using hm.le
  have hP' : SoundUpTo isPrime m := hP
  show Except.ok (totientWith isPrime m) = Except.ok (m.totient : Int)
  rw [totientWith_eq (by exact_mod_cast hm) hP']

/-- **Powers of a unit.**  The powers of a unit are one exactly at the multiples of the order of
its class. -/
theorem hasOrder {x : IntResidue} (hu : (isZero x || !isUnit x) = false) :
    HasOrder x (orderOf ((x.residue : Int) : ZMod x.modulus.toNat)) := by
  simp only [Bool.or_eq_false_iff, Bool.not_eq_false'] at hu
  obtain ⟨hz, hunit⟩ := hu
  have hx : x.residue ≠ 0 := by simpa [IntResidue.isZero] using hz
  have hN : NeZero x.modulus.toNat := ⟨by have := x.modulus_pos; omega⟩
  have hU := (isUnit_eq_true_iff_zmod x).1 hunit
  refine ⟨orderOf_pos_of_isUnit hU, fun d hd => ?_⟩
  refine ⟨_, pow_natCast hx d, ?_⟩
  rw [unitRing_isOne, isOne_eq_true_iff_zmod, orderOf_dvd_iff_pow_eq_one]
  show (((x.withValue _).residue : Int) : ZMod x.modulus.toNat) = 1 ↔ _
  rw [withValue_cast, modPowAcc_cast_modulus, one_emod_cast, one_mul]

/-- **Orders of integer residues.**  With a primality test sound up to the modulus, `order`
refuses zero and the residues that are no units, and gives a unit the least `d ≥ 1` with
`x ^ d = 1`. -/
theorem orderAnswer (x : IntResidue) (hP : SoundUpTo isPrime x.modulus.toNat) :
    OrderAnswer x (UnitRing.order isPrime x) := by
  have hN : NeZero x.modulus.toNat := ⟨by have := x.modulus_pos; omega⟩
  refine orderAnswer_of_hasOrder (hP.mono (Nat.totient_le _)) fun hu =>
    ⟨unitCount_eq x hP, Nat.totient_pos.2 (Nat.pos_of_ne_zero hN.out), _, hasOrder hu, ?_⟩
  -- Lagrange's theorem in the units of `ZMod m`
  simp only [Bool.or_eq_false_iff, Bool.not_eq_false', unitRing_isUnit] at hu
  rw [← ZMod.card_units_eq_totient, ← Nat.card_eq_fintype_card]
  exact orderOf_dvd_card_units ((isUnit_eq_true_iff_zmod x).1 hu.2)

end IntResidue

/-! ### Polynomial residues as `GF(2)[X] / (m)` -/

namespace PolyResidue

open GF2Poly Arith

@[simp] theorem unitRing_isZero (x : PolyResidue) : UnitRing.isZero x = x.isZero := rfl
@[simp] theorem unitRing_isUnit (x : PolyResidue) : UnitRing.isUnit x = x.isUnit := rfl
@[simp] theorem unitRing_isOne (x : PolyResidue) : UnitRing.isOne x = x.isOne := rfl
@[simp] theorem unitRing_pow (x : PolyResidue) (e : Int) : UnitRing.pow x e = x.pow e := rfl

/-- Square-and-multiply, reducing after every product, computes in the classes modulo `m`. -/
theorem mk_powAcc {m : GF2Poly} (hm : 0 < m.bits) (c x : GF2Poly) (e : Nat) :
    AdjoinRoot.mk m.toPoly (powAcc m c x e).toPoly =
      AdjoinRoot.mk m.toPoly c.toPoly * AdjoinRoot.mk m.toPoly x.toPoly ^ e := by
  induction c, x, e using powAcc.induct m with
  | case1 c x => rw [powAcc, if_pos rfl, pow_zero, mul_one]
  | case2 c x e he ih =>
    rw [dite_eq_ite] at ih
    rw [powAcc, if_neg he, ih, mk_modBy hm, toPoly_mul, map_mul, ← sq, ← pow_mul]
    split
    · next h =>
      rw [mk_modBy hm, toPoly_mul, map_mul, mul_assoc, ← pow_succ']
      congr 2
      omega
    · next h =>
      congr 2
      omega

/-- A nonzero residue raised to `d ≥ 0` by square-and-multiply. -/
theorem pow_natCast {x : PolyResidue} (hx : x.residue.bits ≠ 0) (d : Nat) :
    x.pow d = .ok (x.withValue (powAcc x.modulus (modBy one x.modulus) x.residue d)) := by
  simp [PolyResidue.pow, GF2Poly.isZero, hx, bind, Except.bind, pure, Except.pure]

/-- A residue other than zero leaves a modulus of positive degree. -/
theorem degree_pos_of_residue_ne_zero {x : PolyResidue} (h0 : x.residue.bits ≠ 0) :
    0 < x.modulus.degree := by
  by_contra h
  have hx := x.reduced
  have : x.residue.bits < 2 ^ 0 := by rwa [Reduced, show x.modulus.degree = 0 by omega] at hx
  omega

/-- A residue is one exactly when its class is, for a modulus of positive degree. -/
theorem isOne_eq_true_iff_mk {x : PolyResidue} (hdeg : 0 < x.modulus.degree) :
    x.isOne = true ↔ AdjoinRoot.mk x.modulus.toPoly x.residue.toPoly = 1 := by
  have hone : (⟨1⟩ : GF2Poly).bits < 2 ^ x.modulus.degree := Nat.one_lt_two_pow hdeg.ne'
  rw [← map_one (AdjoinRoot.mk x.modulus.toPoly), ← toPoly_one]
  constructor
  · intro h
    have h1 : x.residue.bits = 1 := by simpa [PolyResidue.isOne, GF2Poly.isOne] using h
    rw [show x.residue = ⟨1⟩ from congrArg GF2Poly.mk h1]
  · intro h
    rw [PolyResidue.isOne, eq_of_mk_eq x.modulus_pos x.reduced hone h]
    rfl

/-- A unit modulo `m` of positive degree is not zero. -/
theorem isZero_eq_false {x : PolyResidue} (hdeg : 0 < x.modulus.degree) (hu : x.isUnit = true) :
    x.isZero = false := by
  have : Nontrivial (AdjoinRoot x.modulus.toPoly) := AdjoinRoot.nontrivial _ (by
    rw [degree_eq_natDegree (toPoly_eq_zero.not.2 x.modulus_pos.ne'), natDegree_toPoly]
    exact_mod_cast hdeg.ne')
  have hU := (isUnit_eq_true_iff_mk x).1 hu
  rw [PolyResidue.isZero, GF2Poly.isZero, beq_eq_false_iff_ne]
  intro h0
  rw [show x.residue = ⟨0⟩ from congrArg GF2Poly.mk h0, toPoly_zero, map_zero] at hU
  exact not_isUnit_zero hU

/-- **Powers of a unit.**  The powers of a unit are one exactly at the multiples of the order of
its class. -/
theorem hasOrder {x : PolyResidue} (hu : (isZero x || !isUnit x) = false) :
    HasOrder x (orderOf (AdjoinRoot.mk x.modulus.toPoly x.residue.toPoly)) := by
  simp only [Bool.or_eq_false_iff, Bool.not_eq_false'] at hu
  obtain ⟨hz, hunit⟩ := hu
  have h0 : x.residue.bits ≠ 0 := by simpa [PolyResidue.isZero, GF2Poly.isZero] using hz
  have hdeg := degree_pos_of_residue_ne_zero h0
  have := finite_adjoinRoot x.modulus_pos.ne'
  have hU := (isUnit_eq_true_iff_mk x).1 hunit
  refine ⟨orderOf_pos_of_isUnit hU, fun d hd => ?_⟩
  refine ⟨_, pow_natCast h0 d, ?_⟩
  rw [unitRing_isOne, isOne_eq_true_iff_mk (x := x.withValue _) hdeg, orderOf_dvd_iff_pow_eq_one]
  show AdjoinRoot.mk x.modulus.toPoly (modBy (powAcc _ _ _ _) x.modulus).toPoly = 1 ↔ _
  rw [mk_modBy x.modulus_pos, mk_powAcc x.modulus_pos, mk_modBy x.modulus_pos, GF2Poly.one,
    toPoly_one, map_one, one_mul]

/-- The number of units is the totient of the modulus, for a modulus of degree at most 64. -/
theorem unitCount_eq (x : PolyResidue) (hle : x.modulus.degree ≤ 64) :
    UnitRing.unitCount isPrime x = .ok (Nat.card (AdjoinRoot x.modulus.toPoly)ˣ : Int) := by
  show (fun n : Nat => (n : Int)) <$> totient x.modulus = _
  rw [totient_eq_card_units x.modulus_pos.ne' hle]
  rfl

theorem card_units_le {m : GF2Poly} (hm : m.bits ≠ 0) :
    Nat.card (AdjoinRoot m.toPoly)ˣ ≤ 2 ^ m.degree := by
  rw [card_units_eq_card_filter hm]
  exact (Finset.card_filter_le _ _).trans (Finset.card_range _).le

/-- **Orders of polynomial residues.**  Modulo `m` of degree at most 64, with a primality test
sound up to `2 ^ deg m`, `order` refuses zero and the residues that are no units, and gives a
unit the least `d ≥ 1` with `x ^ d = 1`. -/
theorem orderAnswer (x : PolyResidue) (hle : x.modulus.degree ≤ 64)
    (hP : SoundUpTo isPrime (2 ^ x.modulus.degree)) :
    OrderAnswer x (UnitRing.order isPrime x) := by
  have := finite_adjoinRoot x.modulus_pos.ne'
  refine orderAnswer_of_hasOrder (hP.mono (card_units_le x.modulus_pos.ne')) fun hu =>
    ⟨unitCount_eq x hle, Nat.card_pos, _, hasOrder hu, ?_⟩
  -- Lagrange's theorem in the units of `GF(2)[X] / (m)`
  simp only [Bool.or_eq_false_iff, Bool.not_eq_false', unitRing_isUnit] at hu
  exact orderOf_dvd_card_units ((isUnit_eq_true_iff_mk x).1 hu.2)

section Reduce

variable {m : GF2Poly} (hm : 0 < m.bits) (hdeg : 0 < m.degree) {r : GF2Poly}
  (hr : IsUnit (AdjoinRoot.mk m.toPoly r.toPoly))
include hm hdeg hr

/-- The residue of a unit class is neither zero nor refused as a zero divisor. -/
theorem isZero_or_not_isUnit_reduce :
    (UnitRing.isZero (reduce r m hm) || !UnitRing.isUnit (reduce r m hm)) = false := by
  have hunit : (reduce r m hm).isUnit = true := (isUnit_reduce_iff hm r).2 hr
  simp [hunit, isZero_eq_false (show 0 < (reduce r m hm).modulus.degree from hdeg) hunit]

/-- The powers of the residue of a unit class are one exactly at the multiples of its order. -/
theorem hasOrder_reduce : HasOrder (reduce r m hm) (orderOf (AdjoinRoot.mk m.toPoly r.toPoly)) := by
  have h := hasOrder (isZero_or_not_isUnit_reduce hm hdeg hr)
  have hmk : AdjoinRoot.mk (reduce r m hm).modulus.toPoly (reduce r m hm).residue.toPoly =
      AdjoinRoot.mk (reduce r m hm).modulus.toPoly r.toPoly := mk_modBy hm r
  rw [hmk] at h
  exact h

/-- **The order of a residue.**  Modulo `m` of degree 1 to 64, with a primality test sound up to
`2 ^ deg m`, `order` gives the residue of a unit class the order of the class. -/
theorem order_reduce (hle : m.degree ≤ 64) (hP : SoundUpTo isPrime (2 ^ m.degree)) :
    UnitRing.order isPrime (reduce r m hm) = .ok (orderOf (AdjoinRoot.mk m.toPoly r.toPoly)) := by
  have := finite_adjoinRoot hm.ne'
  exact order_eq_ok (isZero_or_not_isUnit_reduce hm hdeg hr) (unitCount_eq (reduce r m hm) hle)
    (Nat.card_pos : 0 < Nat.card (AdjoinRoot m.toPoly)ˣ) (hP.mono (card_units_le hm.ne'))
    (hasOrder_reduce hm hdeg hr) (orderOf_dvd_card_units hr)

end Reduce

end PolyResidue

/-! ### The period of a polynomial -/

namespace GF2Poly

open Arith PolyResidue

theorem toPoly_X : X.toPoly = Polynomial.X := by
  rw [show X = ⟨2 ^ 1⟩ from rfl, toPoly_two_pow, pow_one]

/-- `x` is prime to `m` exactly when `m` has constant term one. -/
theorem isCoprime_X_iff (m : GF2Poly) : IsCoprime Polynomial.X m.toPoly ↔ m.coeff 0 = true := by
  rw [irreducible_X.coprime_iff_not_dvd, X_dvd_iff, coeff_toPoly, ofBit_eq_zero]
  simp

/-- A power `x ^ j` is one modulo `m` exactly when `m` divides `x ^ j + 1`. -/
theorem mk_X_pow_eq_one_iff (m : GF2Poly) (j : Nat) :
    AdjoinRoot.mk m.toPoly (Polynomial.X ^ j) = 1 ↔ m.toPoly ∣ Polynomial.X ^ j + 1 := by
  rw [← map_one (AdjoinRoot.mk m.toPoly), AdjoinRoot.mk_eq_mk, CharTwo.sub_eq_add]

/-- `x` is prime to `m`, by the test of `period`, exactly when `m` has constant term one. -/
theorem gcd_X_isOne_iff (m : GF2Poly) : (gcd X m).isOne = true ↔ m.coeff 0 = true := by
  rw [← isCoprime_X_iff, ← toPoly_X, ← gcd_bits_eq_one_iff]
  simp [GF2Poly.isOne]

/-- The class of `x` is the root of `m`, a unit exactly when `m` has constant term one. -/
theorem isUnit_root_iff (m : GF2Poly) : IsUnit (AdjoinRoot.root m.toPoly) ↔ m.coeff 0 = true := by
  rw [← AdjoinRoot.mk_X, isUnit_mk_iff, isCoprime_comm, isCoprime_X_iff]

/-- Without constant term, no power of the root is one. -/
theorem orderOf_root_eq_zero {m : GF2Poly} (hc : m.coeff 0 ≠ true) :
    orderOf (AdjoinRoot.root m.toPoly) = 0 :=
  orderOf_eq_zero_iff'.2 fun _ hn h => hc ((isUnit_root_iff m).1 (IsUnit.of_pow_eq_one h hn.ne'))

/-- **The period is the order of the root.**  For `m` of degree 1 to 64, and a primality test sound
up to `2 ^ deg m`, the period of `m` is the order of `x` in `GF(2)[X] / (m)`, which is `0` when `x`
is no unit. -/
theorem period_eq_orderOf_root {m : GF2Poly} (hdeg : 0 < m.degree) (hle : m.degree ≤ 64)
    (hP : SoundUpTo isPrime (2 ^ m.degree)) :
    m.period isPrime = .ok (orderOf (AdjoinRoot.root m.toPoly)) := by
  have hm : 0 < m.bits := Nat.pos_of_ne_zero (bits_ne_zero_of_degree_pos hdeg)
  by_cases hc0 : m.coeff 0 = true
  · -- the residue of `x` is a unit, the root of `m`
    have hroot : AdjoinRoot.mk m.toPoly X.toPoly = AdjoinRoot.root m.toPoly := by
      rw [toPoly_X, AdjoinRoot.mk_X]
    have hord := order_reduce hm hdeg (hroot ▸ (isUnit_root_iff m).2 hc0) hle hP
    rw [hroot] at hord
    rw [period, if_neg (by simp [(gcd_X_isOne_iff m).2 hc0]; omega), PolyResidue.make, dif_pos hm]
    exact hord
  · have hgcd : (gcd X m).isOne = false :=
      Bool.eq_false_iff.2 fun h => hc0 ((gcd_X_isOne_iff m).1 h)
    rw [orderOf_root_eq_zero hc0, period, if_pos (by simp [hgcd])]
    rfl

/-- **The period.**  For `m` of degree at most 64, and a primality test sound up to `2 ^ deg m`,
the period of `m` is the least `k ≥ 1` with `m ∣ x ^ k + 1` when `m` has positive degree and
constant term one, and `0` otherwise. -/
theorem period_eq {m : GF2Poly} (hle : m.degree ≤ 64) (hP : SoundUpTo isPrime (2 ^ m.degree)) :
    ∃ k : Nat, m.period isPrime = .ok k ∧
      if 0 < m.degree ∧ m.coeff 0 = true then
        IsLeast {j : Nat | 0 < j ∧ m.toPoly ∣ Polynomial.X ^ j + 1} k
      else k = 0 := by
  by_cases hdeg : 0 < m.degree
  · refine ⟨_, period_eq_orderOf_root hdeg hle hP, ?_⟩
    split
    · next hc =>
      have := finite_adjoinRoot (bits_ne_zero_of_degree_pos hdeg)
      refine isLeast_of_mem_iff (orderOf_pos_of_isUnit ((isUnit_root_iff m).2 hc.2)) fun j => ?_
      rw [Set.mem_ofPred_eq, orderOf_dvd_iff_pow_eq_one, ← AdjoinRoot.mk_X, ← map_pow,
        mk_X_pow_eq_one_iff]
    · next hc => exact orderOf_root_eq_zero fun hc0 => hc ⟨hdeg, hc0⟩
  · refine ⟨0, ?_, by rw [if_neg fun h => hdeg h.1]⟩
    rw [period, if_pos (by simp [show m.degree < 1 by omega])]
    rfl

end GF2Poly

/-- **Orders.**  With any primality test sound up to the size of the ring, `order` refuses zero
and the residues that are no units as zero divisors, and gives every other residue, an integer
one or a polynomial one modulo `m` of degree at most 64, the least `d ≥ 1` with `a ^ d = 1`; it
fails in no other way. So the period of `m` of degree at most 64 is the least `k ≥ 1` with
`m ∣ x ^ k + 1` when `m` has positive degree and constant term one, and `0` otherwise. -/
theorem order_least_power (isPrime : Nat → Bool) :
    (∀ x : IntResidue, Arith.SoundUpTo isPrime x.modulus.toNat →
      OrderAnswer x (UnitRing.order isPrime x)) ∧
    (∀ x : PolyResidue, x.modulus.degree ≤ 64 →
      Arith.SoundUpTo isPrime (2 ^ x.modulus.degree) → OrderAnswer x (UnitRing.order isPrime x)) ∧
    (∀ m : GF2Poly, m.degree ≤ 64 → Arith.SoundUpTo isPrime (2 ^ m.degree) →
      ∃ k : Nat, m.period isPrime = .ok k ∧
        if 0 < m.degree ∧ m.coeff 0 = true then
          IsLeast {j : Nat | 0 < j ∧ m.toPoly ∣ Polynomial.X ^ j + 1} k
        else k = 0) :=
  ⟨IntResidue.orderAnswer, PolyResidue.orderAnswer, fun _ => GF2Poly.period_eq⟩

/-- Three modulo seven, `x` modulo `x² + x + 1`, and the period of `x⁴ + x + 1`, with the exact
primality test. -/
theorem order_least_power_small :
    OrderAnswer (IntResidue.reduce 3 7 (by decide))
        (UnitRing.order Arith.decidePrime (IntResidue.reduce 3 7 (by decide))) ∧
      OrderAnswer (PolyResidue.reduce GF2Poly.X ⟨7⟩ (by decide))
        (UnitRing.order Arith.decidePrime (PolyResidue.reduce GF2Poly.X ⟨7⟩ (by decide))) ∧
      ∃ k : Nat, GF2Poly.period Arith.decidePrime ⟨19⟩ = .ok k ∧
        IsLeast {j : Nat | 0 < j ∧ GF2Poly.toPoly ⟨19⟩ ∣ Polynomial.X ^ j + 1} k := by
  obtain ⟨hint, hpoly, hperiod⟩ := order_least_power Arith.decidePrime
  obtain ⟨k, hk, hleast⟩ := hperiod ⟨19⟩ (by decide) (Arith.soundUpTo_decidePrime _)
  refine ⟨hint _ (Arith.soundUpTo_decidePrime _),
    hpoly _ (by decide) (Arith.soundUpTo_decidePrime _), k, hk, ?_⟩
  rwa [if_pos (by decide)] at hleast

end FiniteRings
