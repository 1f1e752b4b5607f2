import Mathlib
import FiniteRings.Proofs.Order.Primitive

/-!
# The least generator

`generator m` tries the residues `1, 2, …` below the size of the ring in turn and returns the first
that is a unit of order `φ`, the number of units (`firstOfOrder_isLeast`): the least generator of
the units modulo `m`. It returns nothing exactly when the units form no cyclic group:

* modulo an integer `m ≥ 2`, exactly unless `m` is `2`, `4`, `p ^ k` or `2 p ^ k` for an odd prime
  `p` (`exists_orderOf_eq_totient_iff`, from Mathlib's `ZMod.isCyclic_units_iff`);
* modulo a polynomial, never when it is irreducible: the residues form a field, whose finitely many
  units are cyclic.
-/

namespace FiniteRings

open Arith

variable {isPrime : Nat → Bool}

/-! ### The scan -/

namespace UnitRing

variable {α : Type} [UnitRing α]

/-- A residue that `order` keeps its promise for, and whose powers have the period `o`, has order
`o`. -/
theorem order_eq_of_hasOrder {a : α} {o : Nat} (hA : OrderAnswer a (order isPrime a))
    (hu : (isZero a || !isUnit a) = false) (h : HasOrder a o) : order isPrime a = .ok o := by
  rw [OrderAnswer, if_neg (by simp [hu])] at hA
  obtain ⟨d, hd, hleast⟩ := hA
  rw [hd, hleast.unique h.isLeast]

/-- The first number of a range that passes a test is the least one of the range that passes. -/
theorem find?_range'_eq_some_iff {p : Nat → Bool} {s n g : Nat} :
    (List.range' s n).find? p = some g ↔ IsLeast {a | s ≤ a ∧ a < s + n ∧ p a = true} g := by
  rw [List.find?_range'_eq_some, List.mem_range'_1]
  constructor
  · rintro ⟨hp, hmem, hmin⟩
    refine ⟨⟨hmem.1, hmem.2, hp⟩, fun a ⟨has, _, hpa⟩ => ?_⟩
    by_contra hlt
    simpa [hpa] using hmin a has (by omega)
  · rintro ⟨⟨hs, hlt, hp⟩, hleast⟩
    refine ⟨hp, ⟨hs, hlt⟩, fun j hj hjg => ?_⟩
    by_contra hpj
    have := hleast ⟨hj, by omega, by simpa using hpj⟩
    omega

/-- An answer that is the least element of a set of numbers whenever there is one is nothing
exactly when the set is empty. -/
theorem eq_none_iff_eq_empty {r : Option Nat} {S : Set Nat} (h : ∀ g, r = some g ↔ IsLeast S g) :
    r = none ↔ S = ∅ := by
  constructor
  · rintro rfl
    refine Set.eq_empty_iff_forall_notMem.2 fun a ha => ?_
    exact nomatch (h (sInf S)).2 ⟨Nat.sInf_mem ⟨a, ha⟩, fun b hb => Nat.sInf_le hb⟩
  · intro hS
    cases hr : r with
    | none => rfl
    | some g =>
      have hg := ((h g).1 hr).1
      rw [hS] at hg
      exact absurd hg (Set.notMem_empty g)

/-- **The scan for a generator.**  When every candidate gives a residue with an order, the scan
returns the residue of the least candidate of its range whose order is `φ`. -/
theorem firstOfOrder_isLeast (φ : Int) (candidate : Nat → Bool) (make : Nat → Outcome α)
    (res : Nat → α) (ord : Nat → Int)
    (hmake : ∀ a, candidate a = true →
      make a = .ok (res a) ∧ order isPrime (res a) = .ok (ord a))
    (count start : Nat) :
    ∃ r : Option Nat, firstOfOrder isPrime φ candidate make count start = .ok (r.map res) ∧
      ∀ g, r = some g ↔
        IsLeast {a | start ≤ a ∧ a < start + count ∧ candidate a = true ∧ ord a = φ} g := by
  refine ⟨_, firstOfOrder_eq φ candidate make res ord hmake count start, fun g => ?_⟩
  rw [find?_range'_eq_some_iff]
  simp only [Bool.and_eq_true, beq_iff_eq]

end UnitRing

/-! ### Integers -/

namespace IntResidue

/-- The residues `1 ≤ g < m` prime to `m` whose class has order `φ m`: the generators of the
units modulo `m`. -/
def Generators (m : Nat) : Set Nat :=
  {g | 1 ≤ g ∧ g < m ∧ g.Coprime m ∧ orderOf (g : ZMod m) = m.totient}

theorem gcd_natCast_eq_one_iff (a m : Nat) : Arith.gcd a m = 1 ↔ a.Coprime m := by
  rw [gcd_eq_gcd (Int.natCast_nonneg a) (Int.natCast_nonneg m), Int.gcd_natCast_natCast,
    Nat.cast_eq_one]

/-- A unit modulo `m ≥ 2` is not zero. -/
theorem isZero_eq_false {x : IntResidue} (h1 : 1 < x.modulus) (hu : x.isUnit = true) :
    x.isZero = false := by
  rw [IntResidue.isZero, beq_eq_false_iff_ne]
  intro h0
  rw [IntResidue.isUnit, h0, beq_iff_eq, Arith.gcd, if_pos rfl] at hu
  omega

/-- The class of a number prime to `m ≥ 2` has the order of its class in `ZMod m`. -/
theorem order_reduce {m a : Nat} (hm : 2 ≤ m) (hP : SoundUpTo isPrime m) (hcop : a.Coprime m) :
    UnitRing.order isPrime (reduce a m (by omega)) = .ok (orderOf (a : ZMod m)) := by
  set x := reduce a m (by omega)
  have hcast : ((x.residue : Int) : ZMod x.modulus.toNat) = (a : ZMod m) := by
    show (((a : Int) % (m : Int) : Int) : ZMod m) = _
    rw [ZMod.intCast_mod, Int.cast_natCast]
  have hunit : x.isUnit = true := by
    rw [isUnit_eq_true_iff_zmod, hcast]
    exact (ZMod.isUnit_iff_coprime a m).2 hcop
  have hu : (UnitRing.isZero x || !UnitRing.isUnit x) = false := by
    simp [hunit, isZero_eq_false (show 1 < x.modulus by show 1 < (m : Int); omega) hunit]
  have h := hasOrder hu
  rw [hcast] at h
  exact UnitRing.order_eq_of_hasOrder (orderAnswer x hP) hu h

/-- The generators among the residues `1 ≤ g < m` are the classes of the units of order `φ m`. -/
theorem generators_nonempty_iff {m : Nat} (hm : 2 ≤ m) :
    (Generators m).Nonempty ↔ ∃ u : (ZMod m)ˣ, orderOf u = m.totient := by
  have : NeZero m := ⟨by omega⟩
  constructor
  · rintro ⟨g, -, -, hcop, hord⟩
    exact ⟨ZMod.unitOfCoprime g hcop, by rw [← orderOf_units, ZMod.coe_unitOfCoprime, hord]⟩
  · rintro ⟨u, hu⟩
    have hcop := ZMod.val_coe_unit_coprime u
    refine ⟨(u : ZMod m).val, Nat.pos_of_ne_zero fun h0 => ?_, ZMod.val_lt _, hcop, ?_⟩
    · rw [h0, Nat.coprime_zero_left] at hcop
      omega
    · rw [ZMod.natCast_zmod_val, orderOf_units, hu]

/-- **Primitive roots.**  The units modulo `m ≥ 2` have an element of order `φ m` exactly for
`m = 2, 4, p ^ k, 2 p ^ k` with `p` an odd prime and `k ≥ 1`. -/
theorem exists_orderOf_eq_totient_iff {m : Nat} (hm : 2 ≤ m) :
    (∃ u : (ZMod m)ˣ, orderOf u = m.totient) ↔
      m = 2 ∨ m = 4 ∨ ∃ p k : Nat, p.Prime ∧ Odd p ∧ 1 ≤ k ∧ (m = p ^ k ∨ m = 2 * p ^ k) := by
  have : NeZero m := ⟨by omega⟩
  rw [← ZMod.card_units_eq_totient, ← Nat.card_eq_fintype_card,
    ← isCyclic_iff_exists_orderOf_eq_natCard, ZMod.isCyclic_units_iff]
  constructor
  · rintro (h0 | h1 | h)
    · omega
    · omega
    · exact h
  · exact fun h => Or.inr (Or.inr h)

/-- **The least generator modulo an integer.**  For `m ≥ 2` and a primality test sound up to
`m`, `totient m` is Euler's `φ m`, and `generator m` returns the class of the least `1 ≤ g < m`
prime to `m` whose order is `φ m`, and nothing exactly when no unit has order `φ m`, that is,
unless `m` is `2`, `4`, `p ^ k` or `2 p ^ k` for an odd prime `p`. -/
theorem generator_eq {m : Nat} (hm : 2 ≤ m) (hP : SoundUpTo isPrime m) :
    ∃ r : Option Nat,
      Modulus.generator isPrime (.int m) = .ok (r.map fun g => .int (reduce g m (by omega))) ∧
      totientWith isPrime m = m.totient ∧ (∀ g, r = some g ↔ IsLeast (Generators m) g) ∧
      (r = none ↔ ¬∃ u : (ZMod m)ˣ, orderOf u = m.totient) ∧
      (r = none ↔ ¬(m = 2 ∨ m = 4 ∨
        ∃ p k : Nat, p.Prime ∧ Odd p ∧ 1 ≤ k ∧ (m = p ^ k ∨ m = 2 * p ^ k))) := by
  have hm0 : (0 : Int) < m := by omega
  have hφ : totientWith isPrime m = (m.totient : Int) := totientWith_eq (by omega) hP
  have hmake : ∀ a : Nat, decide (Arith.gcd a m = 1) = true →
      IntResidue.make a m = .ok (reduce a m hm0) ∧
        UnitRing.order isPrime (reduce a m hm0) = .ok (orderOf (a : ZMod m) : Int) := fun a ha =>
    ⟨dif_pos hm0, order_reduce hm hP ((gcd_natCast_eq_one_iff a m).1 (of_decide_eq_true ha))⟩
  obtain ⟨r, hr, hleast⟩ := UnitRing.firstOfOrder_isLeast (totientWith isPrime m)
    (fun a => decide (Arith.gcd a m = 1)) (fun a => IntResidue.make a m)
    (fun a => reduce a m hm0) (fun a => (orderOf (a : ZMod m) : Int)) hmake ((m : Int).toNat - 1) 1
  -- the scanned range `1 ≤ g < m` and the tests of the scan are those of a generator
  have hS : {a | 1 ≤ a ∧ a < 1 + ((m : Int).toNat - 1) ∧ decide (Arith.gcd a m = 1) = true ∧
      (orderOf (a : ZMod m) : Int) = totientWith isPrime m} = Generators m := by
    ext a
    simp only [Set.mem_ofPred_eq, Generators, decide_eq_true_eq, gcd_natCast_eq_one_iff, hφ,
      Nat.cast_inj, Int.toNat_natCast]
    constructor
    · rintro ⟨h1, h2, h3, h4⟩
      exact ⟨h1, by omega, h3, h4⟩
    · rintro ⟨h1, h2, h3, h4⟩
      exact ⟨h1, by omega, h3, h4⟩
  rw [hS] at hleast
  have hnone : r = none ↔ ¬∃ u : (ZMod m)ˣ, orderOf u = m.totient := by
    rw [UnitRing.eq_none_iff_eq_empty hleast, ← generators_nonempty_iff hm,
      Set.not_nonempty_iff_eq_empty]
  refine ⟨r, ?_, hφ, hleast, hnone, by rw [hnone, exists_orderOf_eq_totient_iff hm]⟩
  rw [Modulus.generator, if_neg (by omega), hr]
  cases r <;> rfl

end IntResidue

/-! ### Polynomials -/

namespace PolyResidue

open GF2Poly

/-- The residues `a < 2 ^ deg m` that are units modulo `m` of order the number of units: the
generators of the units modulo `m`. -/
def Generators (m : GF2Poly) : Set Nat :=
  {a | a < 2 ^ m.degree ∧ IsUnit (AdjoinRoot.mk m.toPoly (toPoly ⟨a⟩)) ∧
    orderOf (AdjoinRoot.mk m.toPoly (toPoly ⟨a⟩)) = Nat.card (AdjoinRoot m.toPoly)ˣ}

/-- The generators among the residues `a < 2 ^ deg m` are the classes of the units of order the
number of units. -/
theorem generators_nonempty_iff {m : GF2Poly} (hm : m.bits ≠ 0) :
    (Generators m).Nonempty ↔
      ∃ u : (AdjoinRoot m.toPoly)ˣ, orderOf u = Nat.card (AdjoinRoot m.toPoly)ˣ := by
  constructor
  · rintro ⟨a, -, hunit, hord⟩
    exact ⟨hunit.unit, by rw [← orderOf_units, hunit.unit_spec, hord]⟩
  · rintro ⟨u, hu⟩
    obtain ⟨a, ha, hmk⟩ := exists_mk_eq hm (u : AdjoinRoot m.toPoly)
    exact ⟨a, ha, hmk ▸ u.isUnit, by rw [hmk, orderOf_units, hu]⟩

/-- Modulo an irreducible polynomial the units, those of a finite field, are cyclic. -/
theorem exists_orderOf_eq_card_of_irreducible {m : GF2Poly} (hirr : Irreducible m.toPoly) :
    ∃ u : (AdjoinRoot m.toPoly)ˣ, orderOf u = Nat.card (AdjoinRoot m.toPoly)ˣ := by
  have := finite_adjoinRoot (bits_ne_zero_of_degree_pos (degree_pos_of_irreducible_toPoly hirr))
  have : Fact (Irreducible m.toPoly) := ⟨hirr⟩
  exact isCyclic_iff_exists_orderOf_eq_natCard.1 inferInstance

/-- **The least generator modulo a polynomial.**  For `m` of degree 1 to 64 and a primality test
sound up to `2 ^ deg m`, `totient m` counts the units and `generator m` returns the least residue
`a < 2 ^ deg m` that is a unit of that order, and nothing exactly when no unit has that order,
which never happens for an irreducible `m`. -/
theorem generator_eq {m : GF2Poly} (hdeg : 0 < m.degree) (hle : m.degree ≤ 64)
    (hP : SoundUpTo isPrime (2 ^ m.degree)) :
    ∃ r : Option Nat,
      Modulus.generator isPrime (.poly m) = .ok (r.map fun a =>
        .poly (reduce ⟨a⟩ m (Nat.pos_of_ne_zero (bits_ne_zero_of_degree_pos hdeg)))) ∧
      totient m = .ok (Nat.card (AdjoinRoot m.toPoly)ˣ) ∧
      (∀ a, r = some a ↔ IsLeast (Generators m) a) ∧
      (r = none ↔ ¬∃ u : (AdjoinRoot m.toPoly)ˣ, orderOf u = Nat.card (AdjoinRoot m.toPoly)ˣ) ∧
      (Irreducible m.toPoly → r ≠ none) := by
  have hm : 0 < m.bits := Nat.pos_of_ne_zero (bits_ne_zero_of_degree_pos hdeg)
  have hφ := totient_eq_card_units hm.ne' hle
  have hmake : ∀ a : Nat, (gcd m ⟨a⟩).isOne = true →
      PolyResidue.make ⟨a⟩ m = .ok (reduce ⟨a⟩ m hm) ∧ UnitRing.order isPrime (reduce ⟨a⟩ m hm) =
        .ok (orderOf (AdjoinRoot.mk m.toPoly (toPoly ⟨a⟩)) : Int) := fun a ha =>
    ⟨dif_pos hm, order_reduce hm hdeg
      ((isUnit_reduce_iff hm _).1 (by rw [← gcd_isOne_eq_isUnit hm a, ha])) hle hP⟩
  obtain ⟨r, hr, hleast⟩ := UnitRing.firstOfOrder_isLeast
    (Nat.card (AdjoinRoot m.toPoly)ˣ : Int) (fun a => (gcd m ⟨a⟩).isOne)
    (fun a => PolyResidue.make ⟨a⟩ m) (fun a => reduce ⟨a⟩ m hm)
    (fun a => (orderOf (AdjoinRoot.mk m.toPoly (toPoly ⟨a⟩)) : Int)) hmake
    (Nat.pow 2 m.degree - 1) 1
  -- the class of zero is no unit, so the scan from one misses no generator
  have hS : {a | 1 ≤ a ∧ a < 1 + (Nat.pow 2 m.degree - 1) ∧ (gcd m ⟨a⟩).isOne = true ∧
      (orderOf (AdjoinRoot.mk m.toPoly (toPoly ⟨a⟩)) : Int) =
        (Nat.card (AdjoinRoot m.toPoly)ˣ : Int)} = Generators m := by
    ext a
    simp only [Set.mem_ofPred_eq, Generators, gcd_isOne_eq_isUnit hm, isUnit_reduce_iff hm,
      Nat.cast_inj, Nat.pow_eq]
    have hpow : 0 < 2 ^ m.degree := Nat.two_pow_pos _
    constructor
    · rintro ⟨-, h2, h3, h4⟩
      exact ⟨by omega, h3, h4⟩
    · rintro ⟨h2, h3, h4⟩
      refine ⟨Nat.pos_of_ne_zero fun h0 => ?_, by omega, h3, h4⟩
      rw [h0, toPoly_zero, isUnit_mk_iff, isCoprime_zero_right] at h3
      exact not_isUnit_of_degree_pos hdeg h3
  rw [hS] at hleast
  have hnone : r = none ↔
      ¬∃ u : (AdjoinRoot m.toPoly)ˣ, orderOf u = Nat.card (AdjoinRoot m.toPoly)ˣ := by
    rw [UnitRing.eq_none_iff_eq_empty hleast, ← generators_nonempty_iff hm.ne',
      Set.not_nonempty_iff_eq_empty]
  refine ⟨r, ?_, hφ, hleast, hnone,
    fun hirr h => hnone.1 h (exists_orderOf_eq_card_of_irreducible hirr)⟩
  rw [Modulus.generator, if_neg (by omega), hφ]
  simp only [bind, Except.bind]
  rw [hr]
  cases r <;> rfl

end PolyResidue

/-- **The least generator.**  Modulo an integer `m ≥ 2`, with any primality test sound up to `m`,
`generator` returns the class of the least `1 ≤ g < m` prime to `m` of order `φ m`, and nothing
exactly when no unit has that order, which is when `m` is none of `2`, `4`, `p ^ k`, `2 p ^ k` for
an odd prime `p`. Modulo a polynomial `m` of degree 1 to 64, with a test sound up to `2 ^ deg m`,
it returns the least residue that is a unit of order the number of units, and nothing exactly
when there is none, which never happens for an irreducible `m`. -/
theorem generator_least_full_order (isPrime : Nat → Bool) :
    (∀ m : Nat, (hm : 2 ≤ m) → SoundUpTo isPrime m →
      ∃ r : Option Nat,
        Modulus.generator isPrime (.int m) =
          .ok (r.map fun g => .int (IntResidue.reduce g m (by omega))) ∧
        totientWith isPrime m = m.totient ∧ (∀ g, r = some g ↔ IsLeast (IntResidue.Generators m) g) ∧
        (r = none ↔ ¬∃ u : (ZMod m)ˣ, orderOf u = m.totient) ∧
        (r = none ↔ ¬(m = 2 ∨ m = 4 ∨
          ∃ p k : Nat, p.Prime ∧ Odd p ∧ 1 ≤ k ∧ (m = p ^ k ∨ m = 2 * p ^ k)))) ∧
    (∀ m : GF2Poly, (hdeg : 0 < m.degree) → m.degree ≤ 64 → SoundUpTo isPrime (2 ^ m.degree) →
      ∃ r : Option Nat,
        Modulus.generator isPrime (.poly m) = .ok (r.map fun a => .poly (PolyResidue.reduce ⟨a⟩ m
          (Nat.pos_of_ne_zero (GF2Poly.bits_ne_zero_of_degree_pos hdeg)))) ∧
        GF2Poly.totient m = .ok (Nat.card (AdjoinRoot m.toPoly)ˣ) ∧
        (∀ a, r = some a ↔ IsLeast (PolyResidue.Generators m) a) ∧
        (r = none ↔
          ¬∃ u : (AdjoinRoot m.toPoly)ˣ, orderOf u = Nat.card (AdjoinRoot m.toPoly)ˣ) ∧
        (Irreducible m.toPoly → r ≠ none)) :=
  ⟨fun _ => IntResidue.generator_eq, fun _ => PolyResidue.generator_eq⟩

/-- The least generators modulo `7` and modulo `x ^ 4 + x + 1`, with the exact primality test. -/
theorem generator_seven_nineteen :
    (∃ g : Nat, Modulus.generator decidePrime (.int 7) =
        .ok (some (.int (IntResidue.reduce g 7 (by decide)))) ∧
      IsLeast (IntResidue.Generators 7) g) ∧
    ∃ a, Modulus.generator decidePrime (.poly ⟨19⟩) =
        .ok (some (.poly (PolyResidue.reduce ⟨a⟩ ⟨19⟩ (by decide)))) ∧
      IsLeast (PolyResidue.Generators ⟨19⟩) a := by
  obtain ⟨hint, hpoly⟩ := generator_least_full_order decidePrime
  obtain ⟨r, hr, -, hleast, -, hcyc⟩ := hint 7 (by decide) (soundUpTo_decidePrime _)
  obtain ⟨s, hs, -, hleast', -, hirr⟩ :=
    hpoly ⟨19⟩ (by decide) (by decide) (soundUpTo_decidePrime _)
  -- `7` is an odd prime, and `x ^ 4 + x + 1` is irreducible
  obtain ⟨g, rfl⟩ := Option.ne_none_iff_exists'.1 fun h =>
    hcyc.1 h (Or.inr (Or.inr ⟨7, 1, by norm_num, by decide, le_rfl, Or.inl rfl⟩))
  obtain ⟨a, rfl⟩ := Option.ne_none_iff_exists'.1 (hirr GF2Poly.irreducible_toPoly_nineteen)
  exact ⟨⟨g, hr, (hleast g).1 rfl⟩, a, hs, (hleast' a).1 rfl⟩

end FiniteRings
