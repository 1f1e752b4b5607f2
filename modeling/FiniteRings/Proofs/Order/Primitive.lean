import Mathlib
import FiniteRings.Proofs.Order.Residues

/-!
# The primitivity test

`primitive m` decides whether `x` generates the units modulo `m` without computing its order. With
`φ = totient m`, it checks that no `x ^ (φ / p)` is one, for `p` a prime dividing `φ` (the maximal
proper divisors of `φ`), and then that `x ^ φ = 1`. For a unit `x`, whose order `o` divides `φ`,
the first check fails exactly when `o ≠ φ` (`eq_iff_not_dvd_div_prime`) and the second always
holds. So the test agrees with comparing the period of `m`, the order of `x`, with `φ`
(`primitive_eq_period_eq_totient`), also on the moduli where `x` is no unit, where both say no:

* `m = 0` or `x ∣ m`: `x` is not prime to `m`, the test answers at once, and the period is `0`;
* `m = 1`: `x` is the zero class, `φ = 1`, and `x ^ 1 = 0` is not one.

For an irreducible `m` of degree `n` there are `2 ^ n - 1` units, and the test says whether `x` has
that order.
-/

namespace FiniteRings.GF2Poly

open Arith PolyResidue UnitRing

variable {isPrime : Nat → Bool}

/-- A divisor `o ≥ 1` of `n` is `n` exactly when it divides no `n / p` for a prime `p` of `n`. -/
theorem eq_iff_not_dvd_div_prime {o n : Nat} (ho : 0 < o) (h : o ∣ n) :
    o = n ↔ ∀ p, p.Prime → p ∣ n → ¬o ∣ n / p := by
  constructor
  · rintro rfl p hp hpn hdvd
    have hpos : 0 < o / p := Nat.div_pos (Nat.le_of_dvd ho hpn) hp.pos
    exact absurd (Nat.le_of_dvd hpos hdvd) (not_le.2 (Nat.div_lt_self ho hp.one_lt))
  · intro hall
    obtain ⟨k, rfl⟩ := h
    by_contra hne
    have hk : k ≠ 1 := fun h1 => hne (by rw [h1, mul_one])
    -- a prime `p` of the cofactor leaves `o ∣ o * k / p`
    apply hall k.minFac (Nat.minFac_prime hk) (dvd_mul_of_dvd_right (Nat.minFac_dvd k) o)
    rw [Nat.mul_div_assoc o (Nat.minFac_dvd k)]
    exact dvd_mul_right o _

/-- A divisor `o ≥ 1` of `n` divides one of the maximal proper divisors `n / p` of `n` exactly
when it is not `n`. -/
theorem exists_dvd_maximal_iff {o n : Nat} {L : List Int} (ho : 0 < o) (h : o ∣ n)
    (hL : ∀ d : Int, d ∈ L ↔ ∃ p : Nat, p.Prime ∧ p ∣ n ∧ d = (n / p : Nat)) :
    (∃ d ∈ L, o ∣ d.toNat) ↔ ¬o = n := by
  rw [eq_iff_not_dvd_div_prime ho h]
  constructor
  · rintro ⟨d, hd, hod⟩ hall
    obtain ⟨p, hp, hpn, rfl⟩ := (hL d).1 hd
    exact hall p hp hpn (by rwa [Int.toNat_natCast] at hod)
  · intro hnot
    push Not at hnot
    obtain ⟨p, hp, hpn, hod⟩ := hnot
    exact ⟨_, (hL _).2 ⟨p, hp, hpn, rfl⟩, by rwa [Int.toNat_natCast]⟩

/-- The loop of the test stops with `false` at the first exponent whose power is one. -/
theorem forIn_pow_isOne {x : PolyResidue} {Q : Int → Prop} [DecidablePred Q] :
    ∀ L : List Int, (∀ d ∈ L, ∃ b, x.pow d = .ok b ∧ (b.isOne = true ↔ Q d)) →
      forIn L ((none : Option Bool), ()) (fun d (_ : Option Bool × Unit) => do
          let b ← x.pow d
          if b.isOne = true then pure (ForInStep.done (some false, ()))
          else pure (ForInStep.yield (none, ()))) =
        .ok (if ∃ d ∈ L, Q d then (some false, ()) else (none, ()))
  | [], _ => by simp [pure, Except.pure]
  | d :: ds, h => by
    obtain ⟨b, hb, hq⟩ := h d List.mem_cons_self
    rw [List.forIn_cons]
    by_cases hd : Q d
    · simp [hb, hq.2 hd, hd, bind, Except.bind, pure, Except.pure]
    · have hrest := forIn_pow_isOne ds fun d' h' => h d' (List.mem_cons_of_mem _ h')
      have hb1 : b.isOne = false := Bool.eq_false_iff.2 (mt hq.1 hd)
      simp only [bind, Except.bind, pure, Except.pure] at hrest
      simp [hb, hb1, hd, hrest, bind, Except.bind, pure, Except.pure]

/-- `x` is prime to `m` whichever way round the test asks. -/
theorem gcd_X_isOne_comm (m : GF2Poly) : (gcd m X).isOne = (gcd X m).isOne := by
  rw [Bool.eq_iff_iff]
  simp only [GF2Poly.isOne, beq_iff_eq, gcd_bits_eq_one_iff, isCoprime_comm]

/-- Modulo a polynomial of degree at most 64 there is at least one unit, and `totient` counts
them. -/
theorem totient_eq_ok_pos {m : GF2Poly} (hle : m.degree ≤ 64) :
    ∃ φ, totient m = .ok φ ∧ 0 < φ := by
  by_cases hm : m.bits = 0
  · obtain rfl : m = ⟨0⟩ := congrArg GF2Poly.mk hm
    exact ⟨1, rfl, Nat.one_pos⟩
  · have := finite_adjoinRoot hm
    exact ⟨_, totient_eq_card_units hm hle, Nat.card_pos⟩

/-- When `x` is not prime to `m`, the test says no at once. -/
theorem primitive_of_gcd {m : GF2Poly} (h : (gcd m X).isOne = false) :
    m.primitive isPrime = .ok false := by
  rw [primitive, if_pos (by simp [h])]
  rfl

/-- The test for a modulus of positive degree prime to `x`: it says whether the order of `x` is
the number of units. -/
theorem primitive_eq_of_unit {m : GF2Poly} (hdeg : 0 < m.degree) (hle : m.degree ≤ 64)
    (hc0 : m.coeff 0 = true) (hP : SoundUpTo isPrime (2 ^ m.degree)) :
    m.primitive isPrime = .ok (decide (orderOf (AdjoinRoot.root m.toPoly) =
      Nat.card (AdjoinRoot m.toPoly)ˣ)) := by
  have hm : 0 < m.bits := Nat.pos_of_ne_zero (bits_ne_zero_of_degree_pos hdeg)
  have := finite_adjoinRoot hm.ne'
  set φ := Nat.card (AdjoinRoot m.toPoly)ˣ with hφ
  have hφpos : 0 < φ := Nat.card_pos
  -- the residue of `x` is a unit whose powers have the period `o` of the root
  have hroot : AdjoinRoot.mk m.toPoly X.toPoly = AdjoinRoot.root m.toPoly := by
    rw [toPoly_X, AdjoinRoot.mk_X]
  set o := orderOf (AdjoinRoot.root m.toPoly) with ho_def
  have ho : HasOrder (reduce X m hm) o := by
    have h := hasOrder_reduce hm hdeg (hroot ▸ (isUnit_root_iff m).2 hc0)
    rw [hroot] at h
    exact h
  have hodvd : o ∣ φ := orderOf_dvd_card_units ((isUnit_root_iff m).2 hc0)
  -- the maximal proper divisors of `φ` are the `φ / p`, all positive
  obtain ⟨L, hL, hmem⟩ := maximalProperDivisors_factorWith hφpos (hP.mono (card_units_le hm.ne'))
  have hpow : ∀ d ∈ L, ∃ b, (reduce X m hm).pow d = .ok b ∧ (b.isOne = true ↔ o ∣ d.toNat) := by
    intro d hd
    obtain ⟨p, hp, hpφ, rfl⟩ := (hmem d).1 hd
    rw [Int.toNat_natCast]
    exact ho.pow_isOne _ (Nat.div_pos (Nat.le_of_dvd hφpos hpφ) hp.pos)
  have hloop := forIn_pow_isOne L hpow
  obtain ⟨bφ, hbφ, hoφ⟩ := ho.pow_isOne φ hφpos
  -- the test finds a power equal to one exactly when the order is a proper divisor
  have hfound := exists_dvd_maximal_iff ho.pos hodvd hmem
  rw [primitive, if_neg (by simp [gcd_X_isOne_comm, (gcd_X_isOne_iff m).2 hc0]), PolyResidue.make,
    dif_pos hm, totient_eq_card_units hm.ne' hle, ← hφ]
  simp only [bind, Except.bind, pure, Except.pure] at hloop ⊢
  simp only [hL, hloop]
  by_cases hne : o = φ
  · have hnone : ¬∃ d ∈ L, o ∣ d.toNat := fun h => hfound.1 h hne
    rw [if_neg hnone]
    rw [unitRing_pow] at hbφ
    rw [unitRing_isOne] at hoφ
    simp [hbφ, hoφ.2 hodvd, hne]
  · rw [if_pos (hfound.2 hne)]
    simp [hne]

/-- The test for a modulus of positive degree: it says whether the order of `x` is the number of
units, also when `x ∣ m` and the order is `0`. -/
theorem primitive_eq_decide {m : GF2Poly} (hdeg : 0 < m.degree) (hle : m.degree ≤ 64)
    (hP : SoundUpTo isPrime (2 ^ m.degree)) :
    m.primitive isPrime = .ok (decide (orderOf (AdjoinRoot.root m.toPoly) =
      Nat.card (AdjoinRoot m.toPoly)ˣ)) := by
  by_cases hc0 : m.coeff 0 = true
  · exact primitive_eq_of_unit hdeg hle hc0 hP
  · have := finite_adjoinRoot (bits_ne_zero_of_degree_pos hdeg)
    have hne : orderOf (AdjoinRoot.root m.toPoly) ≠ Nat.card (AdjoinRoot m.toPoly)ˣ := by
      rw [orderOf_root_eq_zero hc0]
      exact Nat.card_pos.ne
    rw [decide_eq_false hne]
    apply primitive_of_gcd
    rw [gcd_X_isOne_comm]
    exact Bool.eq_false_iff.2 (mt (gcd_X_isOne_iff m).1 hc0)

/-- Modulo an irreducible polynomial of degree `n`, a field, the `2 ^ n - 1` nonzero classes are
the units. -/
theorem card_units_of_irreducible {m : GF2Poly} (hirr : Irreducible m.toPoly) :
    Nat.card (AdjoinRoot m.toPoly)ˣ = 2 ^ m.degree - 1 := by
  have h := card_units_pow hirr one_pos
  rw [pow_one, Nat.sub_self, mul_zero, pow_zero, one_mul] at h
  exact h

/-- Modulo `1` the test finds `x` prime to the modulus and one unit, and then `x ^ 1`, the class
of zero, is not one. Factoring `φ = 1` asks the primality test nothing. -/
theorem primitive_one : (⟨1⟩ : GF2Poly).primitive isPrime = .ok false := by
  have hφ : totient ⟨1⟩ = .ok 1 := by decide +kernel
  simp only [primitive, hφ, bind, Except.bind, Nat.cast_one, factorWith_one]
  decide +kernel

/-- **The primitivity test.**  For `m` of degree at most 64 and any primality test sound up to
`2 ^ deg m`, `primitive m` is the comparison of the period of `m` with the number of units. For an
irreducible `m` of degree `n` it says whether `x` has order `2 ^ n - 1` modulo `m`. -/
theorem primitive_eq_period_eq_totient {m : GF2Poly} (hle : m.degree ≤ 64)
    (hP : SoundUpTo isPrime (2 ^ m.degree)) :
    (∃ k φ : Nat, m.period isPrime = .ok k ∧ totient m = .ok φ ∧
        m.primitive isPrime = .ok (decide (k = φ))) ∧
      (Irreducible m.toPoly →
        (m.primitive isPrime = .ok true ↔ orderOf (AdjoinRoot.root m.toPoly) = 2 ^ m.degree - 1)) := by
  by_cases hdeg : 0 < m.degree
  · refine ⟨⟨_, _, period_eq_orderOf_root hdeg hle hP,
      totient_eq_card_units (bits_ne_zero_of_degree_pos hdeg) hle, primitive_eq_decide hdeg hle hP⟩,
      fun hirr => ?_⟩
    rw [primitive_eq_decide hdeg hle hP, card_units_of_irreducible hirr]
    simp
  · -- the moduli of degree zero, `0` and `1`, where `x` is no unit or the class of zero
    refine ⟨?_, fun hirr => absurd (degree_pos_of_irreducible_toPoly hirr) hdeg⟩
    by_cases hm : m.bits = 0
    · obtain rfl : m = ⟨0⟩ := congrArg GF2Poly.mk hm
      exact ⟨0, 1, rfl, rfl, rfl⟩
    · obtain rfl := eq_one_of_degree_eq_zero hm (by omega)
      exact ⟨0, 1, rfl, rfl, primitive_one⟩

/-- `x ^ 4 + x + 1` is irreducible: no polynomial of degree 1 to 3 leaves remainder zero. -/
theorem irreducible_toPoly_nineteen : Irreducible (toPoly ⟨19⟩) := by
  refine (irreducible_iff_modBy _).2 ⟨by decide, fun p hp hlt => ?_⟩
  have hb : p.bits < 16 := bits_lt_two_pow_iff.2 (Or.inr hlt)
  obtain ⟨b⟩ := p
  have hdiv : ∀ b < 16, 0 < (⟨b⟩ : GF2Poly).degree → modBy ⟨19⟩ ⟨b⟩ ≠ ⟨0⟩ := by decide
  exact hdiv b hb hp

theorem primitive_iff_nineteen :
    (⟨19⟩ : GF2Poly).primitive decidePrime = .ok true ↔
      orderOf (AdjoinRoot.root (toPoly ⟨19⟩)) = 15 :=
  (primitive_eq_period_eq_totient (by decide) (soundUpTo_decidePrime _)).2
    irreducible_toPoly_nineteen

end FiniteRings.GF2Poly
