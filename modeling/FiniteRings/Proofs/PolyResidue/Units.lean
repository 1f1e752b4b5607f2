import Mathlib
import FiniteRings.Proofs.GF2Poly.Factor
import FiniteRings.Proofs.Arith.Divisors

/-!
# The units of `GF(2)[X] / (m)` and the totient of polynomials

The residues modulo a nonzero `m` are the patterns `a < 2 ^ deg m`, one for each class of
`AdjoinRoot m` (`exists_mk_eq` and `PolyResidue.eq_of_mk_eq`), and a class is a unit exactly
when its pattern is prime to `m` (`isUnit_mk_iff`). So the patterns prime to `m` count the units
(`card_units_eq_card_filter`).

That count is multiplicative, by the Chinese remainder theorem for coprime moduli
(`card_units_mul`). For a power `p ^ e` of an irreducible `p` of degree `d` it leaves out, of the
`2 ^ (d e)` patterns, the `2 ^ (d (e - 1))` multiples of `p` (`card_multiples`). Over the sorted
irreducible factors of `m` this is the product that `totient` computes
(`totient_eq_card_units`).

`units m` lists the classes of the patterns from `1` up that are prime to `m`. For `m` of
positive degree the class of zero is no unit, so these are all the units, in increasing order,
and there are `totient m` of them (`units_eq_filter_isUnit`). Modulo `1` the class of zero is the
only class and a unit, and `units` misses it (`units_one_misses_zero`).
-/

namespace FiniteRings.GF2Poly

open Polynomial

/-! ### Classes and units -/

/-- A class is a unit exactly when its representative is prime to the modulus. -/
theorem isUnit_mk_iff {F G : (ZMod 2)[X]} : IsUnit (AdjoinRoot.mk F G) ↔ IsCoprime F G := by
  refine ⟨fun h => ?_, isUnit_mk_of_isCoprime⟩
  obtain ⟨u, hu⟩ := isUnit_iff_exists_inv.1 h
  obtain ⟨v, rfl⟩ := AdjoinRoot.mk_surjective u
  rw [← map_mul, ← map_one (AdjoinRoot.mk F), AdjoinRoot.mk_eq_mk] at hu
  obtain ⟨w, hw⟩ := hu
  exact ⟨-w, v, by linear_combination hw⟩

theorem bits_lt_two_pow_iff {p : GF2Poly} {k : Nat} :
    p.bits < 2 ^ k ↔ p.bits = 0 ∨ p.degree < k := by
  by_cases h : p.bits = 0
  · simp [h]
  · rw [degree_eq_log2, Nat.log2_lt h]
    simp [h]

/-- Multiplying by a nonzero `p` adds its degree, so a product lies below `2 ^ (k + deg p)`
exactly when the cofactor lies below `2 ^ k`. -/
theorem mul_bits_lt_iff {g p : GF2Poly} (hp : p.bits ≠ 0) (k : Nat) :
    (g * p).bits < 2 ^ (k + p.degree) ↔ g.bits < 2 ^ k := by
  by_cases hg : g.bits = 0
  · have hgp : (g * p).bits = 0 := by
      rw [← toPoly_eq_zero, toPoly_mul, toPoly_eq_zero.2 hg, zero_mul]
    simp [hg, hgp]
  · have hgp : (g * p).bits ≠ 0 := fun h0 =>
      mul_ne_zero (toPoly_eq_zero.not.2 hg) (toPoly_eq_zero.not.2 hp)
        (by rw [← toPoly_mul]; exact toPoly_eq_zero.2 h0)
    have hdeg := degree_eq_add_of_mul (toPoly_mul g p).symm hg hp
    rw [bits_lt_two_pow_iff, bits_lt_two_pow_iff, hdeg]
    simp only [hg, hgp, false_or]
    omega

section Patterns

variable {m : GF2Poly} (hm : m.bits ≠ 0)
include hm

/-- Every class modulo `m` is that of a pattern below `2 ^ deg m`. -/
theorem exists_mk_eq (x : AdjoinRoot m.toPoly) :
    ∃ a < 2 ^ m.degree, AdjoinRoot.mk m.toPoly (toPoly ⟨a⟩) = x := by
  obtain ⟨F, rfl⟩ := AdjoinRoot.mk_surjective x
  obtain ⟨p, rfl⟩ := toPoly_surjective F
  exact ⟨(modBy p m).bits, modBy_lt p hm, PolyResidue.mk_modBy (Nat.pos_of_ne_zero hm) p⟩

/-- The ring `GF(2)[X] / (m)` is finite. -/
theorem finite_adjoinRoot : Finite (AdjoinRoot m.toPoly) := by
  refine Finite.of_surjective (fun a : Fin (2 ^ m.degree) => AdjoinRoot.mk m.toPoly (toPoly ⟨a⟩))
    fun x => ?_
  obtain ⟨a, ha, hax⟩ := exists_mk_eq hm x
  exact ⟨⟨a, ha⟩, hax⟩

/-- **Units by patterns.**  The units modulo `m` are counted by the patterns below `2 ^ deg m`
that are prime to `m`. -/
theorem card_units_eq_card_filter :
    Nat.card (AdjoinRoot m.toPoly)ˣ =
      ((Finset.range (2 ^ m.degree)).filter fun a => (gcd m ⟨a⟩).bits = 1).card := by
  have hunit : ∀ a, (gcd m ⟨a⟩).bits = 1 ↔ IsUnit (AdjoinRoot.mk m.toPoly (toPoly ⟨a⟩)) :=
    fun a => by rw [gcd_bits_eq_one_iff, isUnit_mk_iff]
  rw [← Nat.card_eq_finsetCard]
  symm
  refine Nat.card_eq_of_bijective
    (fun a => ((hunit a).1 (Finset.mem_filter.1 a.2).2).unit) ⟨fun a b hab => ?_, fun u => ?_⟩
  · -- two patterns with one class are equal
    have ha := Finset.mem_range.1 (Finset.mem_filter.1 a.2).1
    have hb := Finset.mem_range.1 (Finset.mem_filter.1 b.2).1
    have hmk := congrArg (fun u : (AdjoinRoot m.toPoly)ˣ => (u : AdjoinRoot m.toPoly)) hab
    simp only [IsUnit.unit_spec] at hmk
    exact Subtype.ext (congrArg GF2Poly.bits
      (PolyResidue.eq_of_mk_eq (Nat.pos_of_ne_zero hm) ha hb hmk))
  · obtain ⟨a, ha, hau⟩ := exists_mk_eq hm (u : AdjoinRoot m.toPoly)
    refine ⟨⟨a, Finset.mem_filter.2 ⟨Finset.mem_range.2 ha, (hunit a).2 (hau ▸ u.isUnit)⟩⟩, ?_⟩
    exact Units.ext hau

end Patterns

/-! ### Counting the units -/

/-- The zero ring has one unit. -/
theorem card_units_one : Nat.card (AdjoinRoot (1 : (ZMod 2)[X]))ˣ = 1 := by
  have : Subsingleton (AdjoinRoot (1 : (ZMod 2)[X])) := by
    refine ⟨fun x y => ?_⟩
    obtain ⟨F, rfl⟩ := AdjoinRoot.mk_surjective x
    obtain ⟨G, rfl⟩ := AdjoinRoot.mk_surjective y
    exact AdjoinRoot.mk_eq_mk.2 (one_dvd _)
  exact Nat.card_unique

/-- **Chinese remainders.**  Modulo a product of coprime polynomials, a unit is a pair of units
modulo each. -/
theorem card_units_mul {F G : (ZMod 2)[X]} (h : IsCoprime F G) :
    Nat.card (AdjoinRoot (F * G))ˣ = Nat.card (AdjoinRoot F)ˣ * Nat.card (AdjoinRoot G)ˣ := by
  let e : AdjoinRoot (F * G) ≃+* AdjoinRoot F × AdjoinRoot G :=
    (Ideal.quotEquivOfEq (Ideal.span_singleton_mul_span_singleton F G).symm).trans
      (Ideal.quotientMulEquivQuotientProd _ _ ((Ideal.isCoprime_span_singleton_iff F G).2 h))
  rw [← Nat.card_prod]
  exact Nat.card_congr ((Units.mapEquiv e.toMulEquiv).trans MulEquiv.prodUnits).toEquiv

/-- Among the patterns below `2 ^ (k + deg p)`, the multiples of `p` are the products `b * p`
with `b < 2 ^ k`. -/
theorem card_multiples {p : GF2Poly} (hp : p.bits ≠ 0) (k : Nat)
    [DecidablePred fun a : Nat => p.toPoly ∣ toPoly ⟨a⟩] :
    ((Finset.range (2 ^ (k + p.degree))).filter fun a => p.toPoly ∣ toPoly ⟨a⟩).card = 2 ^ k := by
  have himage : ((Finset.range (2 ^ (k + p.degree))).filter fun a => p.toPoly ∣ toPoly ⟨a⟩) =
      (Finset.range (2 ^ k)).image fun b => ((⟨b⟩ : GF2Poly) * p).bits := by
    ext a
    simp only [Finset.mem_filter, Finset.mem_range, Finset.mem_image]
    constructor
    · rintro ⟨ha, Q, hQ⟩
      obtain ⟨g, rfl⟩ := toPoly_surjective Q
      have hag : (⟨a⟩ : GF2Poly) = g * p := toPoly_injective (by rw [toPoly_mul, hQ, mul_comm])
      have ha' : (g * p).bits < 2 ^ (k + p.degree) := by rwa [← hag]
      exact ⟨g.bits, (mul_bits_lt_iff hp k).1 ha', by rw [← hag]⟩
    · rintro ⟨b, hb, rfl⟩
      exact ⟨(mul_bits_lt_iff hp k).2 hb, toPoly ⟨b⟩, by rw [toPoly_mul, mul_comm]⟩
  -- multiplying by a nonzero polynomial is injective
  have hinj : Function.Injective fun b : Nat => ((⟨b⟩ : GF2Poly) * p).bits := by
    intro b c h
    have hpoly : toPoly ⟨b⟩ * p.toPoly = toPoly ⟨c⟩ * p.toPoly := by
      rw [← toPoly_mul, ← toPoly_mul]
      exact congrArg toPoly (congrArg GF2Poly.mk h)
    exact congrArg GF2Poly.bits
      (toPoly_injective (mul_right_cancel₀ (toPoly_eq_zero.not.2 hp) hpoly))
  rw [himage, Finset.card_image_of_injective _ hinj, Finset.card_range]

/-- **Prime powers.**  Modulo the `e`-th power of an irreducible `p` of degree `d`, the units are
the `2 ^ (d e)` classes less the `2 ^ (d (e - 1))` multiples of `p`. -/
theorem card_units_pow {p : GF2Poly} (hp : Irreducible p.toPoly) {e : Nat} (he : 0 < e) :
    Nat.card (AdjoinRoot (p.toPoly ^ e))ˣ = 2 ^ (p.degree * (e - 1)) * (2 ^ p.degree - 1) := by
  classical
  have hp0 : p.bits ≠ 0 := bits_ne_zero_of_degree_pos (degree_pos_of_irreducible_toPoly hp)
  obtain ⟨q, hq⟩ := toPoly_surjective (p.toPoly ^ e)
  have hq0 : q.bits ≠ 0 := fun h0 =>
    pow_ne_zero e (toPoly_eq_zero.not.2 hp0) (by rw [← hq]; exact toPoly_eq_zero.2 h0)
  have hdeg : q.degree = p.degree * (e - 1) + p.degree := by
    rw [← natDegree_toPoly, hq, natDegree_pow, natDegree_toPoly]
    obtain ⟨k, rfl⟩ : ∃ k, e = k + 1 := ⟨e - 1, by omega⟩
    rw [Nat.add_sub_cancel]
    ring
  -- prime to `p ^ e` is prime to `p`, which for an irreducible `p` is not being a multiple
  have hcop : ∀ a ∈ Finset.range (2 ^ q.degree),
      (gcd q ⟨a⟩).bits = 1 ↔ ¬p.toPoly ∣ toPoly ⟨a⟩ := fun a _ => by
    rw [gcd_bits_eq_one_iff, hq, IsCoprime.pow_left_iff he, hp.coprime_iff_not_dvd]
  have hsplit := @Finset.card_filter_add_card_filter_not _ (Finset.range (2 ^ q.degree))
    (fun a => p.toPoly ∣ toPoly ⟨a⟩) _ _
  rw [hdeg, card_multiples hp0, Finset.card_range] at hsplit
  rw [← hq, card_units_eq_card_filter hq0, Finset.filter_congr hcop, hdeg,
    Nat.mul_sub_one (2 ^ (p.degree * (e - 1))) (2 ^ p.degree), ← pow_add]
  omega

/-- **Sorted irreducible factors.**  The units modulo a product of powers of distinct
irreducibles are counted by the product of the counts for each power. -/
theorem card_units_polyProd : ∀ {fs : List (GF2Poly × Nat)}, SortedFactors fs →
    (∀ pe ∈ fs, Irreducible pe.1.toPoly) →
    Nat.card (AdjoinRoot (polyProd fs))ˣ =
      (fs.map fun pe => 2 ^ (pe.1.degree * (pe.2 - 1)) * (2 ^ pe.1.degree - 1)).prod
  | [], _, _ => card_units_one
  | (p, e) :: fs, hs, hirr => by
    have hp := hirr (p, e) List.mem_cons_self
    have he : 0 < e := hs.pos (p, e) List.mem_cons_self
    -- the first base divides none of the later factors, so its power is prime to them
    have hcop : IsCoprime (p.toPoly ^ e) (polyProd fs) :=
      (IsCoprime.pow_left_iff he).2 (hp.coprime_iff_not_dvd.2 (not_dvd_polyProd_tail hs hirr))
    rw [polyProd_cons, card_units_mul hcop, card_units_pow hp he,
      card_units_polyProd hs.tail fun pe h => hirr pe (List.mem_cons_of_mem _ h),
      List.map_cons, List.prod_cons]

/-- A nonzero polynomial of degree zero is `1`. -/
theorem eq_one_of_degree_eq_zero {m : GF2Poly} (hm : m.bits ≠ 0) (hd : m.degree = 0) : m = ⟨1⟩ := by
  rw [degree_eq_log2] at hd
  have hlt : m.bits < 2 ^ 1 := (Nat.log2_lt hm).1 (by omega)
  obtain ⟨b⟩ := m
  simp only at hm hlt ⊢
  congr
  omega

/-- **The totient counts the units.**  For a nonzero `m` of degree at most 64, `totient m` is the
number of units modulo `m`. -/
theorem totient_eq_card_units {m : GF2Poly} (hm : m.bits ≠ 0) (hle : m.degree ≤ 64) :
    totient m = .ok (Nat.card (AdjoinRoot m.toPoly)ˣ) := by
  obtain ⟨F, hF, h0, hpos⟩ := factor_eq_ok m hle
  rcases Nat.eq_zero_or_pos m.degree with hd | hd
  · -- degree zero: `m = 1`, the zero ring with its one unit
    have hm1 := eq_one_of_degree_eq_zero hm hd
    rw [totient, hF, h0 hd, hm1, toPoly_one, card_units_one]
    rfl
  · obtain ⟨-, hs, hirr, hprod, -⟩ := hpos hd
    rw [totient, hF, ← hprod, card_units_polyProd hs fun pe h => (hirr pe h).1,
      List.prod_eq_foldl_nat]
    simp only [bind, Except.bind, pure, Except.pure, Nat.pow_eq]

end FiniteRings.GF2Poly

namespace FiniteRings.PolyResidue

open GF2Poly Polynomial

/-- A residue is a unit exactly when its class is. -/
theorem isUnit_eq_true_iff_mk (x : PolyResidue) :
    x.isUnit = true ↔ IsUnit (AdjoinRoot.mk x.modulus.toPoly x.residue.toPoly) := by
  rw [isUnit_eq_true_iff, gcd_bits_eq_one_iff, isCoprime_comm, ← isUnit_mk_iff]

section Units

variable {m : GF2Poly} (hm : 0 < m.bits)
include hm

theorem isUnit_reduce_iff (r : GF2Poly) :
    (reduce r m hm).isUnit = true ↔ IsUnit (AdjoinRoot.mk m.toPoly r.toPoly) := by
  rw [isUnit_eq_true_iff_mk]
  exact iff_of_eq (congrArg IsUnit (mk_modBy hm r))

/-- The test that `units` applies, the modulus prime to the pattern, is the unit test of the
pattern's residue. -/
theorem gcd_isOne_eq_isUnit (a : Nat) : (gcd m ⟨a⟩).isOne = (reduce ⟨a⟩ m hm).isUnit := by
  rw [Bool.eq_iff_iff, isUnit_reduce_iff hm, isUnit_mk_iff, ← gcd_bits_eq_one_iff]
  simp [GF2Poly.isOne]

/-- A residue is a unit exactly when it has an inverse. -/
theorem isUnit_iff_recip_ok (r : GF2Poly) :
    (reduce r m hm).isUnit = true ↔ ∃ y, (reduce r m hm).recip = .ok y := by
  rw [isUnit_eq_true_iff, recip_eq]
  split
  · next hg => exact iff_of_true hg ⟨_, rfl⟩
  · next hg => exact iff_of_false hg fun ⟨_, h⟩ => nomatch h

/-- **The units.**  Modulo `m` of degree 1 to 64, `units m` lists the residues `r < 2 ^ deg m`
that are units, in increasing order, and there are `totient m` of them; a residue is a unit
exactly when it has an inverse. -/
theorem units_eq_filter_isUnit (hdeg : 0 < m.degree) (hle : m.degree ≤ 64) :
    units m = .ok (((List.range (2 ^ m.degree)).filter fun r => (reduce ⟨r⟩ m hm).isUnit).map
        fun r => reduce ⟨r⟩ m hm) ∧
      totient m = .ok ((List.range (2 ^ m.degree)).filter fun r => (reduce ⟨r⟩ m hm).isUnit).length ∧
      ∀ r : GF2Poly, (reduce r m hm).isUnit = true ↔ ∃ y, (reduce r m hm).recip = .ok y := by
  -- the class of zero is no unit, since `gcd m 0 = m` is not one
  have hzero : (gcd m ⟨0⟩).isOne = false := by
    have h1 : m.bits ≠ 1 := fun h => by
      rw [degree_eq_log2, h] at hdeg
      exact absurd hdeg (by decide)
    simp [GF2Poly.gcd, GF2Poly.isOne, hm.ne', h1]
  have hfilter : ((List.range (2 ^ m.degree)).filter fun r => (reduce ⟨r⟩ m hm).isUnit) =
      (List.range' 1 (Nat.pow 2 m.degree - 1)).filter fun a => (gcd m ⟨a⟩).isOne := by
    obtain ⟨n, hn⟩ : ∃ n, 2 ^ m.degree = n + 1 :=
      ⟨2 ^ m.degree - 1, (Nat.sub_add_cancel Nat.one_le_two_pow).symm⟩
    rw [Nat.pow_eq, hn, Nat.add_sub_cancel, List.range_eq_range', List.range'_succ,
      List.filter_cons_of_neg (by rw [← gcd_isOne_eq_isUnit hm, hzero]; decide)]
    exact List.filter_congr fun a _ => (gcd_isOne_eq_isUnit hm a).symm
  refine ⟨?_, ?_, isUnit_iff_recip_ok hm⟩
  · rw [hfilter, units]
    exact Arith.mapM_eq_ok _ _ _ fun a _ => dif_pos hm
  · rw [totient_eq_card_units hm.ne' hle, card_units_eq_card_filter hm.ne']
    congr 1
    have hunit : ∀ a, (GF2Poly.gcd m ⟨a⟩).bits = 1 ↔ (reduce ⟨a⟩ m hm).isUnit = true := fun a => by
      rw [← gcd_isOne_eq_isUnit hm]
      simp [GF2Poly.isOne]
    rw [Finset.filter_congr fun a _ => hunit a]
    -- a filtered range counts as the filtered list
    show Multiset.card (Multiset.filter _ (Multiset.range _)) = _
    rw [Multiset.range, Multiset.filter_coe, Multiset.coe_card]
    simp

end Units

/-- Modulo `x² + x + 1` the units are listed, as many as `totient` counts. -/
theorem units_seven :
    0 < (⟨7⟩ : GF2Poly).bits ∧ 0 < (⟨7⟩ : GF2Poly).degree ∧ (⟨7⟩ : GF2Poly).degree ≤ 64 ∧
      ∃ L, units ⟨7⟩ = .ok L ∧ totient ⟨7⟩ = .ok L.length := by
  obtain ⟨hunits, htot, -⟩ :=
    units_eq_filter_isUnit (by decide : 0 < (⟨7⟩ : GF2Poly).bits) (by decide) (by decide)
  exact ⟨by decide, by decide, by decide, _, hunits, by rw [htot, List.length_map]⟩

/-- Modulo `1` the class of zero is the only class and a unit, and `totient 1 = 1`, but
`units 1` is empty. -/
theorem units_one_misses_zero :
    units ⟨1⟩ = .ok [] ∧ (reduce ⟨0⟩ ⟨1⟩ (by decide)).isUnit = true ∧ totient ⟨1⟩ = .ok 1 :=
  ⟨rfl, rfl, rfl⟩

end FiniteRings.PolyResidue
