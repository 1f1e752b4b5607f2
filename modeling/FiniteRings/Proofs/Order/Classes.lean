import Mathlib
import FiniteRings.Proofs.Order.Residues
import FiniteRings.Proofs.Evaluation.ModRing

/-!
# Residues of one modulus as the elements of a finite ring

The residues of one modulus stand for the elements of a finite commutative ring: the integer
residues modulo `N` for `ZMod N`, the polynomial residues modulo `m` for `GF(2)[X] / (m)`.
`Classes S cls` says so of the residues with `S`, through the class map `cls`: two residues of one
class are equal, products are computed and have the product class, and the tests for zero, one
and units read the class. `ZPowers S cls` adds that `pow` raises a residue whose class is a unit
`u` to every integer power `u ^ e`, negative ones included.

The laws of the ring then hold of the computed operations, since both sides of each law are
residues of one class: exponents add and multiply (`pow_add`, `pow_mul`), a power is the product
of as many factors (`eq_productOf`), and the powers of a unit are one exactly at the multiples of
its order (`hasOrder_of_classes`), which `order` returns (`order_eq_orderOf`).

Both kinds of residue are instances (`IntResidue.classes`, `PolyResidue.classes` and their
`zpowers`), for the moduli whose ring has a unit other than zero.
-/

namespace FiniteRings

namespace UnitRing

variable {α : Type} [UnitRing α] {R : Type} [CommMonoidWithZero R]

/-- The residues `x` with `S x` stand for elements of `R` through `cls`. -/
structure Classes (S : α → Prop) (cls : α → R) : Prop where
  /-- Two residues of one class are equal. -/
  inj : ∀ {x y}, S x → S y → cls x = cls y → x = y
  /-- Products are computed, and have the product class. -/
  mul : ∀ {x y}, S x → S y → ∃ z, UnitRing.mul x y = .ok z ∧ S z ∧ cls z = cls x * cls y
  isZero : ∀ {x}, S x → (isZero x = true ↔ cls x = 0)
  isOne : ∀ {x}, S x → (isOne x = true ↔ cls x = 1)
  isUnit : ∀ {x}, S x → (isUnit x = true ↔ IsUnit (cls x))

/-- `pow` raises every residue whose class is a unit `u` to every integer power of `u`. -/
def ZPowers (S : α → Prop) (cls : α → R) : Prop :=
  ∀ ⦃x : α⦄ (u : Rˣ), S x → cls x = u → ∀ e : Int, ∃ y, pow x e = .ok y ∧ S y ∧ cls y = ↑(u ^ e)

variable {S : α → Prop} {cls : α → R}

/-- Two computations that answer residues of one class answer the same residue. -/
theorem Classes.ok_eq_ok (hC : Classes S cls) {r s : Outcome α} {y z : α} (hr : r = .ok y)
    (hs : s = .ok z) (hy : S y) (hz : S z) (h : cls y = cls z) : r = s := by
  rw [hr, hs, hC.inj hy hz h]

/-! ### Exponent laws -/

section Laws

variable (hC : Classes S cls) (hZ : ZPowers S cls) {a : α} {u : Rˣ} (ha : S a) (hu : cls a = u)
include hC hZ ha hu

/-- **Exponents add**, whatever their signs. -/
theorem pow_add (e f : Int) :
    pow a (e + f) = (do let p ← pow a e; let q ← pow a f; mul p q) := by
  obtain ⟨p, hp, hSp, hcp⟩ := hZ u ha hu e
  obtain ⟨q, hq, hSq, hcq⟩ := hZ u ha hu f
  obtain ⟨r, hr, hSr, hcr⟩ := hZ u ha hu (e + f)
  obtain ⟨z, hz, hSz, hcz⟩ := hC.mul hSp hSq
  rw [hp, hq]
  exact hC.ok_eq_ok hr hz hSr hSz (by rw [hcr, hcz, hcp, hcq, zpow_add, Units.val_mul])

/-- **Exponents multiply**: `a ^ (e * f)` is `(a ^ e) ^ f`, whatever their signs. -/
theorem pow_mul (e f : Int) : pow a (e * f) = (pow a e >>= fun p => pow p f) := by
  obtain ⟨p, hp, hSp, hcp⟩ := hZ u ha hu e
  obtain ⟨q, hq, hSq, hcq⟩ := hZ (u ^ e) hSp hcp f
  obtain ⟨r, hr, hSr, hcr⟩ := hZ u ha hu (e * f)
  rw [hp]
  exact hC.ok_eq_ok hr hq hSr hSq (by rw [hcr, hcq, zpow_mul])

end Laws

/-! ### Powers as repeated products -/

/-- The product `one * b * ⋯ * b` of `n` factors `b`, multiplied from the left. -/
def productOf (one b : α) : Nat → Outcome α
  | 0 => .ok one
  | n + 1 => productOf one b n >>= fun c => mul c b

theorem productOf_spec (hC : Classes S cls) {one b : α} (hone : S one) (hb : S b) :
    ∀ n, ∃ z, productOf one b n = .ok z ∧ S z ∧ cls z = cls one * cls b ^ n
  | 0 => ⟨one, rfl, hone, by rw [pow_zero, mul_one]⟩
  | n + 1 => by
    obtain ⟨c, hc, hSc, hcc⟩ := productOf_spec hC hone hb n
    obtain ⟨z, hz, hSz, hcz⟩ := hC.mul hSc hb
    refine ⟨z, ?_, hSz, by rw [hcz, hcc, pow_succ, mul_assoc]⟩
    rw [productOf, hc]
    exact hz

/-- A computation that answers a residue of the class `cls b ^ n` is the product of `n` factors
`b`, from a residue of the class one. -/
theorem eq_productOf (hC : Classes S cls) {one b y : α} {r : Outcome α} {n : Nat} (hone : S one)
    (h1 : cls one = 1) (hb : S b) (hr : r = .ok y) (hy : S y) (hcy : cls y = cls b ^ n) :
    r = productOf one b n := by
  obtain ⟨z, hz, hSz, hcz⟩ := productOf_spec hC hone hb n
  exact hC.ok_eq_ok hr hz hy hSz (by rw [hcy, hcz, h1, one_mul])

/-- `ZPowers` from the powers `n ≥ 0` and the negative powers of the residues of unit classes:
a negative power is the residue whose class inverts `cls x ^ |e|`. -/
theorem zpowers_of_pow
    (hnat : ∀ {x}, S x → IsUnit (cls x) → ∀ n : Nat, ∃ y, pow x n = .ok y ∧ S y ∧ cls y = cls x ^ n)
    (hneg : ∀ {x}, S x → IsUnit (cls x) → ∀ e : Int, e < 0 →
      ∃ y, pow x e = .ok y ∧ S y ∧ cls y * cls x ^ e.natAbs = 1) :
    ZPowers S cls := by
  intro x u hx hu e
  have hunit : IsUnit (cls x) := hu ▸ u.isUnit
  by_cases he : 0 ≤ e
  · lift e to Nat using he
    obtain ⟨y, hy, hSy, hcy⟩ := hnat hx hunit e
    exact ⟨y, hy, hSy, by rw [hcy, hu, zpow_natCast, Units.val_pow_eq_pow_val]⟩
  · obtain ⟨y, hy, hSy, hcy⟩ := hneg hx hunit e (not_le.1 he)
    refine ⟨y, hy, hSy, ?_⟩
    rw [hu, ← Units.val_pow_eq_pow_val] at hcy
    rw [← Units.inv_eq_of_mul_eq_one_left hcy, ← zpow_natCast, ← zpow_neg]
    congr 2
    omega

/-! ### Orders -/

section Order

variable (hC : Classes S cls) {a : α} {u : Rˣ} (ha : S a) (hu : cls a = u)
include hC ha hu

/-- In a nontrivial ring a residue of a unit class passes the unit test of `order` and `orbit`. -/
theorem unitTest_eq_false [Nontrivial R] : (isZero a || !isUnit a) = false := by
  have h0 : isZero a = false := by
    rw [Bool.eq_false_iff, Ne, hC.isZero ha, hu]
    exact u.ne_zero
  have h1 : isUnit a = true := (hC.isUnit ha).2 (hu ▸ u.isUnit)
  rw [h0, h1]
  rfl

/-- The powers of a residue of a unit class are one exactly at the multiples of the order of
the unit. -/
theorem hasOrder_of_classes [Finite Rˣ] (hZ : ZPowers S cls) : HasOrder a (orderOf u) := by
  refine ⟨orderOf_pos u, fun d _ => ?_⟩
  obtain ⟨y, hy, hSy, hcy⟩ := hZ u ha hu d
  refine ⟨y, hy, ?_⟩
  rw [hC.isOne hSy, hcy, zpow_natCast, Units.val_eq_one, orderOf_dvd_iff_pow_eq_one]

/-- With the units of `R` counted and a primality test sound up to their number, `order`
returns the order of the unit class. -/
theorem order_eq_orderOf [Finite Rˣ] [Nontrivial R] {isPrime : Nat → Bool} (hZ : ZPowers S cls)
    (hcount : unitCount isPrime a = .ok (Nat.card Rˣ : Int))
    (hP : Arith.SoundUpTo isPrime (Nat.card Rˣ)) : order isPrime a = .ok (orderOf u) :=
  order_eq_ok (unitTest_eq_false hC ha hu) hcount Nat.card_pos hP (hasOrder_of_classes hC ha hu hZ)
    (orderOf_dvd_natCard u)

end Order

end UnitRing

open UnitRing

/-! ### Integer residues are the elements of `ZMod N` -/

namespace IntResidue

variable (N : Nat)

/-- Residues modulo `N` are the elements of `ZMod N`. -/
theorem classes : Classes (fun x : IntResidue => x.modulus = N) (fun x => (x.residue : ZMod N)) where
  inj := by
    rintro ⟨m, r, hm, h0, hlt⟩ ⟨m', r', hm', h0', hlt'⟩ (hmN : m = N) (hmN' : m' = N) h
    subst hmN hmN'
    have hr : r = r' := Arith.eq_of_modEq_of_mem ((ZMod.intCast_eq_intCast_iff _ _ N).1 h)
      ⟨h0, hlt⟩ ⟨h0', hlt'⟩
    subst hr
    rfl
  mul := by
    intro x y hx hy
    refine ⟨_, mul_residue (hy.trans hx.symm), hx, ?_⟩
    show (((x.residue * y.residue) % x.modulus : Int) : ZMod N) = _
    rw [hx, ZMod.intCast_mod, Int.cast_mul]
  isZero := by
    intro x hx
    rw [unitRing_isZero, IntResidue.isZero, beq_iff_eq, ZMod.intCast_zmod_eq_zero_iff_dvd, ← hx]
    exact ⟨fun h => h ▸ dvd_zero _,
      Int.eq_zero_of_dvd_of_nonneg_of_lt x.residue_nonneg x.residue_lt⟩
  isOne := by
    rintro ⟨m, r, hm, h0, hlt⟩ (hmN : m = N)
    subst hmN
    exact isOne_eq_true_iff_zmod _
  isUnit := by
    rintro ⟨m, r, hm, h0, hlt⟩ (hmN : m = N)
    subst hmN
    exact isUnit_eq_true_iff_zmod _

theorem modulus_eq_toNat (x : IntResidue) : x.modulus = (x.modulus.toNat : Int) :=
  (Int.toNat_of_nonneg x.modulus_pos.le).symm

theorem two_le_modulus_of_ne_zero {x : IntResidue} (h0 : x.residue ≠ 0) : 2 ≤ x.modulus.toNat := by
  have := x.residue_nonneg
  have := x.residue_lt
  omega

/-- Square-and-multiply modulo `N` computes in `ZMod N`. -/
theorem withValue_modPowAcc {x : IntResidue} (hx : x.modulus = N) (c y : Int) (d : Nat) :
    ((x.withValue (Arith.modPowAcc c y d x.modulus)).residue : ZMod N) =
      (c : ZMod N) * (y : ZMod N) ^ d := by
  obtain ⟨m, r, hm, hr0, hlt⟩ := x
  simp only at hx
  subst hx
  exact (withValue_cast _ _).trans (modPowAcc_cast_modulus _ _ _ _)

theorem one_emod_cast_of_modulus {x : IntResidue} (hx : x.modulus = N) :
    ((1 % x.modulus : Int) : ZMod N) = 1 := by
  rw [hx, ZMod.intCast_mod, Int.cast_one]

theorem pow_natCast_cast {x : IntResidue} (hx : x.modulus = N) (h0 : x.residue ≠ 0) (n : Nat) :
    ∃ y, x.pow n = .ok y ∧ y.modulus = N ∧ (y.residue : ZMod N) = (x.residue : ZMod N) ^ n :=
  ⟨_, pow_natCast h0 n, hx, by rw [withValue_modPowAcc N hx, one_emod_cast_of_modulus N hx, one_mul]⟩

theorem recip_cast {x : IntResidue} (hx : x.modulus = N) (hunit : x.isUnit = true) :
    ∃ b, x.recip = .ok b ∧ b.modulus = N ∧ (b.residue : ZMod N) * (x.residue : ZMod N) = 1 := by
  obtain ⟨b, hb, hbm, hinv⟩ := recip_of_gcd_eq_one ((isUnit_iff_gcd x).1 hunit)
  refine ⟨b, hb, hbm.trans hx, ?_⟩
  rw [hx] at hinv
  rw [← Int.cast_mul, mul_comm, ← Int.cast_one, ZMod.intCast_eq_intCast_iff]
  exact_mod_cast hinv

theorem pow_neg_cast {x b : IntResidue} (hx : x.modulus = N) (h0 : x.residue ≠ 0) {e : Int}
    (he : e < 0) (hb : x.recip = .ok b) :
    ∃ y, x.pow e = .ok y ∧ y.modulus = N ∧
      (y.residue : ZMod N) = (b.residue : ZMod N) ^ e.natAbs :=
  ⟨x.withValue (Arith.modPowAcc (1 % x.modulus) b.residue e.natAbs x.modulus),
    by rw [pow_of_residue_ne_zero h0, if_pos he, hb]; rfl, hx,
    by rw [withValue_modPowAcc N hx, one_emod_cast_of_modulus N hx, one_mul]⟩

/-- Modulo `N ≥ 2`, `pow` raises a residue whose class is a unit to every integer power. -/
theorem zpowers (hN : 2 ≤ N) :
    ZPowers (fun x : IntResidue => x.modulus = N) (fun x => (x.residue : ZMod N)) := by
  have : Fact (1 < N) := ⟨hN⟩
  -- a residue of a unit class is not zero, since `ZMod N` is not the zero ring
  have h0 : ∀ {x : IntResidue}, IsUnit (x.residue : ZMod N) → x.residue ≠ 0 := fun hu h =>
    not_isUnit_zero (by rwa [h, Int.cast_zero] at hu)
  refine zpowers_of_pow (fun hx hu n => pow_natCast_cast N hx (h0 hu) n) fun {x} hx hu e he => ?_
  obtain ⟨b, hb, -, hbx⟩ := recip_cast N hx (((classes N).isUnit hx).2 hu)
  obtain ⟨y, hy, hyN, hcy⟩ := pow_neg_cast N hx (h0 hu) he hb
  exact ⟨y, hy, hyN, by rw [hcy, ← mul_pow, hbx, one_pow]⟩

end IntResidue

/-! ### Polynomial residues are the elements of `GF(2)[X] / (m)` -/

namespace PolyResidue

open GF2Poly

/-- A nonzero residue is raised by square-and-multiply, after inverting for a negative
exponent. -/
theorem pow_of_bits_ne_zero {x : PolyResidue} (h : x.residue.bits ≠ 0) (e : Int) :
    x.pow e = (fun b : PolyResidue =>
        x.withValue (powAcc x.modulus (modBy one x.modulus) b.residue e.natAbs)) <$>
      (if e < 0 then x.recip else .ok x) := by
  simp only [PolyResidue.pow, GF2Poly.isZero, beq_iff_eq, h, ↓reduceIte]
  split <;> rfl

variable {m : GF2Poly} (hdeg : 0 < m.degree)
include hdeg

theorem bits_pos : 0 < m.bits := Nat.pos_of_ne_zero (bits_ne_zero_of_degree_pos hdeg)

theorem nontrivial_adjoinRoot : Nontrivial (AdjoinRoot m.toPoly) :=
  AdjoinRoot.nontrivial _ (by
    rw [Polynomial.degree_eq_natDegree (toPoly_eq_zero.not.2 (bits_pos hdeg).ne'), natDegree_toPoly]
    exact_mod_cast hdeg.ne')

/-- Residues modulo `m` of positive degree are the elements of `GF(2)[X] / (m)`. -/
theorem classes : Classes (fun x : PolyResidue => x.modulus = m)
    (fun x => AdjoinRoot.mk m.toPoly x.residue.toPoly) where
  inj := by
    rintro ⟨m1, r1, h1, hr1⟩ ⟨m2, r2, h2, hr2⟩ (hm1 : m1 = m) (hm2 : m2 = m) h
    subst hm1 hm2
    have hr : r1 = r2 := eq_of_mk_eq h1 hr1 hr2 h
    subst hr
    rfl
  mul := by
    rintro x y hx hy
    refine ⟨_, mul_of_eq (hy.trans hx.symm), hx, ?_⟩
    show AdjoinRoot.mk m.toPoly (modBy (x.residue * y.residue) x.modulus).toPoly = _
    rw [hx, mk_modBy (bits_pos hdeg), toPoly_mul, map_mul]
  isZero := by
    rintro x hx
    rw [unitRing_isZero, PolyResidue.isZero, GF2Poly.isZero, beq_iff_eq]
    constructor
    · intro h0
      rw [show x.residue = ⟨0⟩ from congrArg GF2Poly.mk h0, toPoly_zero, map_zero]
    · intro h0
      have hzero : (⟨0⟩ : GF2Poly).bits < 2 ^ m.degree := Nat.two_pow_pos _
      rw [← map_zero (AdjoinRoot.mk m.toPoly), ← toPoly_zero] at h0
      exact congrArg GF2Poly.bits (eq_of_mk_eq (bits_pos hdeg) (hx ▸ x.reduced) hzero h0)
  isOne := by
    rintro x hx
    rw [unitRing_isOne, isOne_eq_true_iff_mk (hx ▸ hdeg), hx]
  isUnit := by
    rintro x hx
    rw [unitRing_isUnit, isUnit_eq_true_iff_mk, hx]

/-- Square-and-multiply modulo `m`, reducing after every product, computes in the classes. -/
theorem mk_withValue_powAcc {x : PolyResidue} (hx : x.modulus = m) (c y : GF2Poly) (d : Nat) :
    AdjoinRoot.mk m.toPoly (x.withValue (powAcc x.modulus (modBy c x.modulus) y d)).residue.toPoly =
      AdjoinRoot.mk m.toPoly c.toPoly * AdjoinRoot.mk m.toPoly y.toPoly ^ d := by
  show AdjoinRoot.mk m.toPoly (modBy (powAcc x.modulus (modBy c x.modulus) y d) x.modulus).toPoly = _
  rw [hx, mk_modBy (bits_pos hdeg), mk_powAcc (bits_pos hdeg), mk_modBy (bits_pos hdeg)]

theorem mk_withValue_one {x : PolyResidue} (hx : x.modulus = m) :
    AdjoinRoot.mk m.toPoly (x.withValue one).residue.toPoly = 1 := by
  show AdjoinRoot.mk m.toPoly (modBy one x.modulus).toPoly = 1
  rw [hx, mk_modBy (bits_pos hdeg), one, toPoly_one, map_one]

theorem pow_natCast_mk {x : PolyResidue} (hx : x.modulus = m) (h0 : x.residue.bits ≠ 0)
    (n : Nat) : ∃ y, x.pow n = .ok y ∧ y.modulus = m ∧
      AdjoinRoot.mk m.toPoly y.residue.toPoly = AdjoinRoot.mk m.toPoly x.residue.toPoly ^ n := by
  refine ⟨_, pow_of_bits_ne_zero h0 n, hx, ?_⟩
  rw [mk_withValue_powAcc hdeg hx, one, toPoly_one, map_one, one_mul, Int.natAbs_natCast]

omit hdeg in
/-- A unit has an inverse, the reduced Bezout coefficient, whose class inverts its class. -/
theorem recip_mk {x : PolyResidue} (hx : x.modulus = m) (hunit : x.isUnit = true) :
    ∃ b, x.recip = .ok b ∧ b.modulus = m ∧
      AdjoinRoot.mk m.toPoly b.residue.toPoly * AdjoinRoot.mk m.toPoly x.residue.toPoly = 1 := by
  have hg : (gcd x.residue x.modulus).bits = 1 := (isUnit_eq_true_iff x).1 hunit
  refine ⟨x.withValue (extGcd x.residue x.modulus).2.1, by rw [recip_eq, if_pos hg], hx, ?_⟩
  show AdjoinRoot.mk m.toPoly (modBy (extGcd x.residue x.modulus).2.1 x.modulus).toPoly * _ = 1
  rw [← hx, mk_modBy x.modulus_pos]
  exact mk_extGcd_mul hg

theorem pow_neg_mk {x b : PolyResidue} (hx : x.modulus = m) (h0 : x.residue.bits ≠ 0) {e : Int}
    (he : e < 0) (hb : x.recip = .ok b) :
    ∃ y, x.pow e = .ok y ∧ y.modulus = m ∧
      AdjoinRoot.mk m.toPoly y.residue.toPoly = AdjoinRoot.mk m.toPoly b.residue.toPoly ^ e.natAbs :=
  ⟨x.withValue (powAcc x.modulus (modBy one x.modulus) b.residue e.natAbs),
    by rw [pow_of_bits_ne_zero h0, if_pos he, hb]; rfl, hx,
    by rw [mk_withValue_powAcc hdeg hx, one, toPoly_one, map_one, one_mul]⟩

/-- Modulo `m` of positive degree, `pow` raises a residue whose class is a unit to every integer
power. -/
theorem zpowers : ZPowers (fun x : PolyResidue => x.modulus = m)
    (fun x => AdjoinRoot.mk m.toPoly x.residue.toPoly) := by
  have := nontrivial_adjoinRoot hdeg
  -- a residue of a unit class is not zero, since `GF(2)[X] / (m)` is not the zero ring
  have h0 : ∀ {x : PolyResidue}, IsUnit (AdjoinRoot.mk m.toPoly x.residue.toPoly) →
      x.residue.bits ≠ 0 := fun {x} hu h => not_isUnit_zero (by
    rwa [show x.residue = ⟨0⟩ from congrArg GF2Poly.mk h, toPoly_zero, map_zero] at hu)
  refine zpowers_of_pow (fun hx hu n => pow_natCast_mk hdeg hx (h0 hu) n)
    fun {x} hx hu e he => ?_
  obtain ⟨b, hb, -, hbx⟩ := recip_mk hx (((classes hdeg).isUnit hx).2 hu)
  obtain ⟨y, hy, hSy, hcy⟩ := pow_neg_mk hdeg hx (h0 hu) he hb
  exact ⟨y, hy, hSy, by rw [hcy, ← mul_pow, hbx, one_pow]⟩

end PolyResidue

end FiniteRings
