import Mathlib
import FiniteRings.Proofs.Bits.Basis
import FiniteRings.Proofs.GF2Poly.Factor

/-!
# The dimension of Berlekamp's kernel

The kernel of `berlekampMatrix f` is the set of reduced idempotents modulo `f`
(`berlekampMatrix_spec`). Here they are counted.

* A nullspace over GF(2) of dimension `d` has `2 ^ d` vectors, one for each bit pattern of the
  kernel, so its dimension is `cols - rank` (`finrank_nullspace`).
* Reducing modulo coprime factors `a` and `b` of `f` sends the idempotents modulo `f` one to one
  onto the pairs of idempotents modulo `a` and modulo `b` (Chinese remainders): onto by
  `card_mul_le_card_idempotents`, and one to one because what both factors divide, their product
  divides (`card_idempotents_mul`).
* A square-free polynomial is `1`, or irreducible with the two idempotents `0` and `1`, or a
  product of two coprime factors of lower degree. So by induction on the degree it has `2 ^ k`
  idempotents, `k` the number of its distinct irreducible factors
  (`card_idempotents_of_squarefree`), and that `k` is the dimension of Berlekamp's kernel
  (`berlekamp_kernel_dimension`).
-/

namespace FiniteRings

namespace BitMatrix

/-- The nullspace holds the vectors of the kernel's bit patterns, one for each. -/
theorem natCard_nullspace (m : BitMatrix) : Nat.card (nullspace m.cols m.rows) = m.kernel.card := by
  have himage : (nullspace m.cols m.rows : Set (Fin m.cols → ZMod 2)) =
      (fun v : Nat => vec m.cols v) '' (m.kernel : Set Nat) := by
    ext x
    constructor
    · intro hx
      refine ⟨toBits x, ?_, vec_toBits x⟩
      rw [Finset.mem_coe, mem_kernel]
      exact ⟨toBits_lt x, mem_nullspace_iff_annihilates.1 hx⟩
    · rintro ⟨v, hv, rfl⟩
      exact vec_mem_nullspace_iff.2 (mem_kernel.1 hv).2
  have hinj : Set.InjOn (fun v : Nat => vec m.cols v) (m.kernel : Set Nat) := by
    intro u hu v hv huv
    have h := congrArg toBits huv
    simp only [toBits_vec] at h
    rwa [toNat_emod_two_pow_of_lt (mem_kernel.1 hu).1, toNat_emod_two_pow_of_lt (mem_kernel.1 hv).1]
      at h
  rw [← SetLike.coe_sort_coe, Nat.card_coe_set_eq, himage, hinj.ncard_image,
    Set.ncard_coe_finset]

/-- **Rank and nullity.**  The nullspace has dimension `cols` less the number of nonzero rows of
the echelon form. -/
theorem finrank_nullspace (m : BitMatrix) :
    Module.finrank (ZMod 2) (nullspace m.cols m.rows) = m.cols - m.echelon.leadingNonzero := by
  have h := Module.natCard_eq_pow_finrank (K := ZMod 2) (V := nullspace m.cols m.rows)
  rw [natCard_nullspace, card_kernel, Nat.card_zmod] at h
  exact (Nat.pow_right_injective (le_refl 2) h).symm

end BitMatrix

namespace GF2Poly

open Polynomial UniqueFactorizationMonoid

/-! ### Idempotents modulo a product -/

section Product

variable {f a b : GF2Poly} (hf : f.bits ≠ 0)
include hf

/-- Reducing an idempotent modulo a factor gives an idempotent. -/
theorem modBy_mem_idempotents (ha : a.bits ≠ 0) (hdvd : a.toPoly ∣ f.toPoly) {v : Nat}
    (hv : v ∈ idempotents f) : (modBy ⟨v⟩ a).bits ∈ idempotents a := by
  rw [mem_idempotents ha]
  refine ⟨modBy_lt _ ha, ?_⟩
  rw [show (⟨(modBy ⟨v⟩ a).bits⟩ : GF2Poly) = modBy ⟨v⟩ a from rfl,
    PolyResidue.mk_modBy (Nat.pos_of_ne_zero ha), isIdempotentElem_mk_iff]
  exact hdvd.trans (isIdempotentElem_mk_iff.1 ((mem_idempotents hf).1 hv).2)

/-- Reduced polynomials modulo `f = a * b`, for coprime `a` and `b`, with the same remainders
modulo `a` and modulo `b` are equal. -/
theorem eq_of_modBy_eq (hab : IsCoprime a.toPoly b.toPoly) (hfab : f.toPoly = a.toPoly * b.toPoly)
    {u v : Nat} (hu : u < 2 ^ f.degree) (hv : v < 2 ^ f.degree)
    (hua : (modBy ⟨u⟩ a).bits = (modBy ⟨v⟩ a).bits)
    (hub : (modBy ⟨u⟩ b).bits = (modBy ⟨v⟩ b).bits) : u = v := by
  obtain ⟨ha, hb⟩ := bits_ne_zero_of_mul hfab.symm hf
  -- `u - v` is divisible by `a` and by `b`, hence by `f`
  have hda : a.toPoly ∣ toPoly ⟨u⟩ - toPoly ⟨v⟩ := by
    rw [← AdjoinRoot.mk_eq_mk, ← PolyResidue.mk_modBy (Nat.pos_of_ne_zero ha),
      show modBy ⟨u⟩ a = modBy ⟨v⟩ a from congrArg GF2Poly.mk hua,
      PolyResidue.mk_modBy (Nat.pos_of_ne_zero ha)]
  have hdb : b.toPoly ∣ toPoly ⟨u⟩ - toPoly ⟨v⟩ := by
    rw [← AdjoinRoot.mk_eq_mk, ← PolyResidue.mk_modBy (Nat.pos_of_ne_zero hb),
      show modBy ⟨u⟩ b = modBy ⟨v⟩ b from congrArg GF2Poly.mk hub,
      PolyResidue.mk_modBy (Nat.pos_of_ne_zero hb)]
  have hdf : f.toPoly ∣ toPoly ⟨u⟩ - toPoly ⟨v⟩ := hfab ▸ hab.mul_dvd hda hdb
  exact GF2Poly.mk.inj (PolyResidue.eq_of_mk_eq (Nat.pos_of_ne_zero hf) hu hv
    (AdjoinRoot.mk_eq_mk.2 hdf))

omit hf in
/-- **Chinese remainders for idempotents.**  Modulo a product of coprime `a` and `b`, the
idempotents are the pairs of idempotents modulo `a` and modulo `b`. -/
theorem card_idempotents_mul (ha : a.bits ≠ 0) (hb : b.bits ≠ 0)
    (hab : IsCoprime a.toPoly b.toPoly) (hfab : f.toPoly = a.toPoly * b.toPoly) :
    (idempotents f).card = (idempotents a).card * (idempotents b).card := by
  have hf : f.bits ≠ 0 := fun h0 => mul_ne_zero (toPoly_eq_zero.not.2 ha)
    (toPoly_eq_zero.not.2 hb) (by rw [← hfab, toPoly_eq_zero.2 h0])
  refine le_antisymm ?_ (card_mul_le_card_idempotents ha hb hab hfab)
  rw [← Finset.card_product]
  refine Finset.card_le_card_of_injOn (fun v => ((modBy ⟨v⟩ a).bits, (modBy ⟨v⟩ b).bits))
    (fun v hv => ?_) (fun u hu v hv huv => ?_)
  · exact Finset.mem_product.2 ⟨modBy_mem_idempotents hf ha ⟨b.toPoly, hfab⟩ hv,
      modBy_mem_idempotents hf hb ⟨a.toPoly, hfab.trans (mul_comm _ _)⟩ hv⟩
  · obtain ⟨hua, hub⟩ := Prod.mk.inj huv
    exact eq_of_modBy_eq hf hab hfab (Finset.mem_range.1 (Finset.mem_filter.1 hu).1)
      (Finset.mem_range.1 (Finset.mem_filter.1 hv).1) hua hub

end Product

/-! ### Counting the idempotents -/

/-- Modulo `1` only `0` is reduced. -/
theorem card_idempotents_one : (idempotents one).card = 1 := by
  refine Finset.card_eq_one.2 ⟨0, Finset.eq_singleton_iff_unique_mem.2
    ⟨zero_mem_idempotents (by decide), fun v hv => ?_⟩⟩
  have hv := Finset.mem_range.1 (Finset.mem_filter.1 hv).1
  rw [show one.degree = 0 by decide] at hv
  omega

/-- **The number of idempotents.**  Modulo a square-free polynomial there are `2 ^ k`
idempotents, `k` being the number of its distinct irreducible factors. -/
theorem card_idempotents_of_squarefree {f : GF2Poly} (hsq : Squarefree f.toPoly) :
    (idempotents f).card = 2 ^ (primeFactors f.toPoly).card := by
  induction hn : f.degree using Nat.strong_induction_on generalizing f with
  | _ n ih =>
    have hf : f.bits ≠ 0 := fun h0 => not_squarefree_zero (toPoly_eq_zero.2 h0 ▸ hsq)
    by_cases hdeg : f.degree = 0
    · -- the polynomial `1`
      have h1 : f = one := by
        by_contra hne
        exact absurd hdeg (degree_pos_of_ne hf fun h => hne (congrArg GF2Poly.mk h)).ne'
      rw [h1, card_idempotents_one, one, toPoly_one, primeFactors_one, Finset.card_empty, pow_zero]
    by_cases hirr : Irreducible f.toPoly
    · rw [idempotents_of_irreducible hirr, Finset.card_pair (by decide),
        ← toFinset_normalizedFactors, normalizedFactors_irreducible hirr,
        Multiset.toFinset_singleton, Finset.card_singleton, pow_one]
    -- two coprime factors of lower degree
    obtain ⟨a, b, ha, hb, hab, hfab⟩ := exists_coprime_split (Nat.pos_of_ne_zero hdeg) hsq hirr
    have ha0 := bits_ne_zero_of_degree_pos ha
    have hb0 := bits_ne_zero_of_degree_pos hb
    have hdegs := degree_eq_add_of_mul hfab.symm ha0 hb0
    have hsq' : Squarefree (a.toPoly * b.toPoly) := hfab ▸ hsq
    rw [card_idempotents_mul ha0 hb0 hab hfab,
      ih a.degree (by omega) (Squarefree.of_mul_left hsq') rfl,
      ih b.degree (by omega) (Squarefree.of_mul_right hsq') rfl, ← pow_add, hfab,
      primeFactors_mul_eq_disjUnion hab.isRelPrime, Finset.card_disjUnion]

/-! ### The kernel of Berlekamp's matrix -/

/-- The polynomial whose coefficients are the bits of `v` below `n`. -/
theorem toPoly_eq_sum {v n : Nat} (hv : v < 2 ^ n) (hn : 0 < n) :
    toPoly ⟨v⟩ = ∑ j ∈ Finset.range n, C (ofBit (v.testBit j)) * Polynomial.X ^ j :=
  as_sum_range_C_mul_X_pow' _ (natDegree_toPoly_lt hv hn)

/-- **Berlekamp's kernel.**  For `f` of degree `n` from 1 to 64 the matrix has `n` columns. A bit
vector `v` of `n` bits has an even number of ones in common with every masked row exactly when
`h = ∑ v_j X ^ j` satisfies `h * h ≡ h` modulo `f`. When `gcd f f' = 1` the nullspace has as its
dimension the number of distinct irreducible factors of `f`, and so has the `n - rank` that
Berlekamp's step computes from the echelon form. -/
theorem berlekamp_kernel_dimension {f : GF2Poly} (hdeg : 0 < f.degree) (hle : f.degree ≤ 64) :
    ∃ M, berlekampMatrix f = .ok M ∧ M.cols = f.degree ∧
      (∀ v < 2 ^ f.degree,
        let h := ∑ j ∈ Finset.range f.degree, C (ofBit (v.testBit j)) * Polynomial.X ^ j
        (∀ r ∈ M.maskedRows, BitMatrix.parity (r &&& v) = false) ↔ f.toPoly ∣ h * h - h) ∧
      ((gcd f f.deriv).bits = 1 →
        Module.finrank (ZMod 2) (BitMatrix.nullspace M.cols M.rows) =
          (primeFactors f.toPoly).card ∧
        f.degree - M.echelon.leadingNonzero = (primeFactors f.toPoly).card) := by
  obtain ⟨M, hM, hcols, hker⟩ := berlekampMatrix_spec hdeg hle
  have hf := bits_ne_zero_of_degree_pos hdeg
  refine ⟨M, hM, hcols, fun v hv => ?_, fun hg => ?_⟩
  · -- an even overlap with every row is membership in the kernel, the idempotents
    dsimp only
    have hmem : v ∈ M.kernel ↔ v ∈ idempotents f := by rw [hker]
    rw [BitMatrix.mem_kernel, mem_idempotents hf, hcols] at hmem
    rw [← BitMatrix.vec_mem_nullspace_iff_parity, BitMatrix.vec_mem_nullspace_iff, hcols,
      ← toPoly_eq_sum hv hdeg, ← isIdempotentElem_mk_iff]
    exact ⟨fun h => (hmem.1 ⟨hv, hcols ▸ h⟩).2, fun h => hcols ▸ (hmem.2 ⟨hv, h⟩).2⟩
  · -- the kernel has `2 ^ (n - rank)` vectors, and `2 ^ k` idempotents
    have hcount : 2 ^ (M.cols - M.echelon.leadingNonzero) = 2 ^ (primeFactors f.toPoly).card := by
      rw [← BitMatrix.card_kernel, hker,
        card_idempotents_of_squarefree ((gcd_deriv_eq_one_iff f).1 hg)]
    have hdim := Nat.pow_right_injective (le_refl 2) hcount
    exact ⟨by rw [BitMatrix.finrank_nullspace, hdim], by rw [← hcols, hdim]⟩

/-- `x ^ 5 + x ^ 4 + 1`, the product of `x ^ 2 + x + 1` and `x ^ 3 + x + 1`, is prime to its
derivative, so its kernel has the dimension of its distinct factors. -/
theorem berlekamp_kernel_forty_nine :
    0 < (⟨49⟩ : GF2Poly).degree ∧ (⟨49⟩ : GF2Poly).degree ≤ 64 ∧
    (gcd ⟨49⟩ (⟨49⟩ : GF2Poly).deriv).bits = 1 ∧
    ∃ M, berlekampMatrix ⟨49⟩ = .ok M ∧ M.cols = 5 ∧
      Module.finrank (ZMod 2) (BitMatrix.nullspace M.cols M.rows) =
        (primeFactors (⟨49⟩ : GF2Poly).toPoly).card := by
  have hg : (gcd ⟨49⟩ (⟨49⟩ : GF2Poly).deriv).bits = 1 := by decide +kernel
  obtain ⟨M, hM, hcols, -, hdim⟩ := berlekamp_kernel_dimension (f := ⟨49⟩) (by decide) (by decide)
  exact ⟨by decide, by decide, hg, M, hM, hcols.trans (by decide), (hdim hg).1⟩

end GF2Poly

end FiniteRings
