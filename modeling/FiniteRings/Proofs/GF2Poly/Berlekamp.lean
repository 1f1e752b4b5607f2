import Mathlib
import FiniteRings.GF2Poly.Factor
import FiniteRings.Proofs.Bits.Kernel
import FiniteRings.Proofs.PolyResidue

/-!
# Berlekamp's step

A square-free polynomial `f` over GF(2) is split by the idempotents of `GF(2)[X] / (f)`, the
classes `h` with `h ^ 2 = h`; `idempotents f` holds their reduced representatives.

* The kernel of `berlekampMatrix f` is `idempotents f` (`berlekampMatrix_spec`): against `h`, row
  `i` gives coefficient `i` of `h ^ 2 mod f - h`, since the rows hold the remainders of
  `x ^ (2 * j)` and squaring is additive in characteristic 2 (`coeff_sq_modByMonic`).
* Modulo an irreducible `f` the residues form a field, whose only idempotents are `0` and `1`.
  A square-free `f` that is not irreducible is a product `a * b` of coprime factors, and by
  Chinese remainders every pair of idempotents modulo `a` and modulo `b` comes from one modulo
  `f` (`card_mul_le_card_idempotents`), so there are at least four
  (`irreducible_iff_card_idempotents`). For the same reason, with exactly four idempotents both
  factors of such a product are irreducible (`irreducible_of_card_four`).
* An idempotent `h` other than `0` and `1` splits `f` into `gcd f h` and `gcd f (h + 1)`, of
  positive degree and with product `f` (`gcd_mul_gcd_add_one`).

Hence `berlekampSplit` reports an irreducible `f` as such (`berlekampSplit_of_irreducible`), and
splits any other square-free `f` by the first row of the kernel basis whose polynomial splits it
(`berlekampSplit_first`) into two such factors, both irreducible when the kernel has dimension
two (`berlekampSplit_spec`).
-/

namespace FiniteRings.GF2Poly

open Polynomial

/-! ### Degrees and classes modulo a polynomial -/

theorem bits_ne_zero_of_degree_pos {f : GF2Poly} (h : 0 < f.degree) : f.bits ≠ 0 := by
  intro h0
  rw [degree_eq_log2, h0] at h
  exact absurd h (by decide)

theorem degree_pos_of_ne {f : GF2Poly} (h0 : f.bits ≠ 0) (h1 : f.bits ≠ 1) : 0 < f.degree := by
  rw [degree_eq_log2, Nat.pos_iff_ne_zero]
  intro h
  have := (Nat.log2_lt h0).1 (by omega : f.bits.log2 < 1)
  omega

theorem not_isUnit_of_degree_pos {f : GF2Poly} (h : 0 < f.degree) : ¬IsUnit f.toPoly := by
  rw [isUnit_toPoly_iff]
  intro h1
  rw [degree_eq_log2, h1] at h
  exact absurd h (by decide)

theorem degree_pos_of_irreducible_toPoly {f : GF2Poly} (h : Irreducible f.toPoly) :
    0 < f.degree := by
  rw [← natDegree_toPoly]
  exact natDegree_pos_iff_degree_pos.2 (degree_pos_of_irreducible h)

/-- The factors of a nonzero product are nonzero. -/
theorem bits_ne_zero_of_mul {a b f : GF2Poly} (h : a.toPoly * b.toPoly = f.toPoly)
    (hf : f.bits ≠ 0) : a.bits ≠ 0 ∧ b.bits ≠ 0 := by
  have hne := toPoly_eq_zero.not.2 hf
  rw [← h] at hne
  exact ⟨toPoly_eq_zero.not.1 (left_ne_zero_of_mul hne),
    toPoly_eq_zero.not.1 (right_ne_zero_of_mul hne)⟩

theorem gcd_bits_ne_zero {f : GF2Poly} (hf : f.bits ≠ 0) (q : GF2Poly) : (gcd f q).bits ≠ 0 := by
  intro h
  rw [← toPoly_eq_zero, toPoly_gcd, gcd_eq_zero_iff] at h
  exact hf (toPoly_eq_zero.1 h.1)

theorem isIdempotentElem_mk_iff {F H : (ZMod 2)[X]} :
    IsIdempotentElem (AdjoinRoot.mk F H) ↔ F ∣ H * H - H := by
  rw [IsIdempotentElem, ← map_mul, AdjoinRoot.mk_eq_mk]

theorem isUnit_mk_of_isCoprime {F H : (ZMod 2)[X]} (h : IsCoprime F H) :
    IsUnit (AdjoinRoot.mk F H) := by
  obtain ⟨u, v, huv⟩ := h
  refine isUnit_iff_exists_inv.2 ⟨AdjoinRoot.mk F v, ?_⟩
  rw [← map_mul, ← map_one (AdjoinRoot.mk F), AdjoinRoot.mk_eq_mk]
  exact ⟨-u, by linear_combination huv⟩

section Classes

variable {f : GF2Poly} (hf : f.bits ≠ 0)
include hf

/-- The remainder of `p` is the reduced polynomial of its class. -/
theorem modBy_eq_iff {p q : GF2Poly} (hq : q.bits < 2 ^ f.degree) :
    modBy p f = q ↔ AdjoinRoot.mk f.toPoly p.toPoly = AdjoinRoot.mk f.toPoly q.toPoly := by
  have hpos := Nat.pos_of_ne_zero hf
  constructor
  · rintro rfl
    exact (PolyResidue.mk_modBy hpos p).symm
  · intro h
    exact PolyResidue.eq_of_mk_eq hpos (modBy_lt p hf) hq (by rw [PolyResidue.mk_modBy hpos, h])

/-- Classes modulo `f` are classes modulo each divisor of `f`. -/
theorem mk_modBy_of_dvd {A : (ZMod 2)[X]} (hA : A ∣ f.toPoly) (p : GF2Poly) :
    AdjoinRoot.mk A (modBy p f).toPoly = AdjoinRoot.mk A p.toPoly := by
  have h := PolyResidue.mk_modBy (Nat.pos_of_ne_zero hf) p
  rw [AdjoinRoot.mk_eq_mk] at h ⊢
  exact dvd_trans hA h

/-- A reduced polynomial is the remainder of everything in its class. -/
theorem toPoly_eq_modByMonic {p : GF2Poly} (hp : p.bits < 2 ^ f.degree)
    {P : (ZMod 2)[X]} (h : AdjoinRoot.mk f.toPoly p.toPoly = AdjoinRoot.mk f.toPoly P) :
    p.toPoly = P %ₘ f.toPoly := by
  have hmonic := toPoly_monic hf
  have := congrArg (AdjoinRoot.modByMonicHom hmonic) h
  rwa [AdjoinRoot.modByMonicHom_mk, AdjoinRoot.modByMonicHom_mk,
    (modByMonic_eq_self_iff hmonic).2 (degree_toPoly_lt hf (by rwa [← degree_eq_log2]))] at this

end Classes

/-! ### Idempotents -/

/-- The bit patterns of the reduced polynomials modulo `f` whose class is idempotent. -/
def idempotents (f : GF2Poly) : Finset Nat :=
  (Finset.range (2 ^ f.degree)).filter fun v => modBy (⟨v⟩ * ⟨v⟩) f = ⟨v⟩

theorem mem_idempotents {f : GF2Poly} (hf : f.bits ≠ 0) {v : Nat} :
    v ∈ idempotents f ↔
      v < 2 ^ f.degree ∧ IsIdempotentElem (AdjoinRoot.mk f.toPoly (toPoly ⟨v⟩)) := by
  rw [idempotents, Finset.mem_filter, Finset.mem_range]
  refine and_congr_right fun hv => ?_
  rw [modBy_eq_iff hf hv, toPoly_mul, map_mul]
  rfl

theorem zero_mem_idempotents {f : GF2Poly} (hf : f.bits ≠ 0) : 0 ∈ idempotents f := by
  rw [mem_idempotents hf, toPoly_zero, map_zero]
  exact ⟨Nat.two_pow_pos _, IsIdempotentElem.zero⟩

theorem one_mem_idempotents {f : GF2Poly} (hdeg : 0 < f.degree) : 1 ∈ idempotents f := by
  rw [mem_idempotents (bits_ne_zero_of_degree_pos hdeg), toPoly_one, map_one]
  exact ⟨Nat.one_lt_two_pow hdeg.ne', IsIdempotentElem.one⟩

theorem pair_subset_idempotents {f : GF2Poly} (hdeg : 0 < f.degree) :
    ({0, 1} : Finset Nat) ⊆ idempotents f := by
  intro v hv
  rcases Finset.mem_insert.1 hv with rfl | hv
  · exact zero_mem_idempotents (bits_ne_zero_of_degree_pos hdeg)
  · rw [Finset.mem_singleton.1 hv]
    exact one_mem_idempotents hdeg

theorem two_le_card_idempotents {f : GF2Poly} (hdeg : 0 < f.degree) :
    2 ≤ (idempotents f).card :=
  Finset.card_pair (by decide : (0 : Nat) ≠ 1) ▸ Finset.card_le_card (pair_subset_idempotents hdeg)

/-- Modulo an irreducible polynomial the residues form a field, whose only idempotents are `0`
and `1`. -/
theorem idempotents_of_irreducible {f : GF2Poly} (hirr : Irreducible f.toPoly) :
    idempotents f = {0, 1} := by
  have hdeg := degree_pos_of_irreducible_toPoly hirr
  have hf := bits_ne_zero_of_degree_pos hdeg
  have hpos := Nat.pos_of_ne_zero hf
  have := Fact.mk hirr
  refine Finset.Subset.antisymm (fun v hv => ?_) (pair_subset_idempotents hdeg)
  · obtain ⟨hlt, hid⟩ := (mem_idempotents hf).1 hv
    rcases IsIdempotentElem.iff_eq_zero_or_one.1 hid with h | h
    · have h0 : (⟨v⟩ : GF2Poly) = ⟨0⟩ := PolyResidue.eq_of_mk_eq hpos hlt (Nat.two_pow_pos _)
        (by rw [h, toPoly_zero, map_zero])
      simp [GF2Poly.mk.inj h0]
    · have h1 : (⟨v⟩ : GF2Poly) = ⟨1⟩ := PolyResidue.eq_of_mk_eq hpos hlt
        (Nat.one_lt_two_pow hdeg.ne') (by rw [h, toPoly_one, map_one])
      simp [GF2Poly.mk.inj h1]

/-! ### Splitting by an idempotent -/

section Split

variable {f h : GF2Poly} (hdeg : 0 < f.degree) (hh : h.bits < 2 ^ f.degree)
  (hid : IsIdempotentElem (AdjoinRoot.mk f.toPoly h.toPoly))
include hdeg hh hid

/-- An idempotent prime to `f` is a unit, hence `1`. -/
theorem eq_one_of_isCoprime (hcop : IsCoprime f.toPoly h.toPoly) : h = one := by
  have hone := (IsIdempotentElem.iff_eq_one_of_isUnit (isUnit_mk_of_isCoprime hcop)).1 hid
  exact PolyResidue.eq_of_mk_eq (Nat.pos_of_ne_zero (bits_ne_zero_of_degree_pos hdeg)) hh
    (Nat.one_lt_two_pow hdeg.ne') (by rw [hone, one, toPoly_one, map_one])

/-- With `h`, `h + 1` is a reduced idempotent. -/
theorem add_one_idempotent :
    (h + one).bits < 2 ^ f.degree ∧ IsIdempotentElem (AdjoinRoot.mk f.toPoly (h + one).toPoly) := by
  refine ⟨Nat.xor_lt_two_pow hh (Nat.one_lt_two_pow hdeg.ne'), ?_⟩
  rw [toPoly_add, one, toPoly_one, isIdempotentElem_mk_iff]
  rw [isIdempotentElem_mk_iff] at hid
  -- `(h + 1) ^ 2 - (h + 1) = h ^ 2 - h + 2 * h`, and `2 = 0`
  have h2 : (2 : (ZMod 2)[X]) = 0 := CharTwo.two_eq_zero
  obtain ⟨q, hq⟩ := hid
  exact ⟨q, by linear_combination hq + h.toPoly * h2⟩

theorem eq_zero_of_isCoprime_add_one (hcop : IsCoprime f.toPoly (h + one).toPoly) :
    h = ⟨0⟩ := by
  obtain ⟨hlt, hid'⟩ := add_one_idempotent hdeg hh hid
  -- `h + 1 = 1`, so `h = 0`
  have h1 := congrArg toPoly (eq_one_of_isCoprime hdeg hlt hid' hcop)
  rw [toPoly_add, one, toPoly_one, add_eq_right] at h1
  exact toPoly_injective (h1.trans toPoly_zero.symm)

omit hdeg hh hid in
/-- `h` and `h + 1` are coprime, and so are their greatest common divisors with `f`. -/
theorem isCoprime_gcd_gcd_add_one : IsCoprime (gcd f h).toPoly (gcd f (h + one)).toPoly := by
  rw [toPoly_gcd, toPoly_gcd, toPoly_add, one, toPoly_one]
  exact (IsCoprime.of_isCoprime_of_dvd_left (⟨-1, 1, by ring⟩ : IsCoprime h.toPoly (h.toPoly + 1))
    (gcd_dvd_right _ _)).of_isCoprime_of_dvd_right (gcd_dvd_right _ _)

omit hh in
/-- `f` splits into its greatest common divisors with `h` and with `h + 1`. -/
theorem gcd_mul_gcd_add_one :
    (gcd f h).toPoly * (gcd f (h + one)).toPoly = f.toPoly := by
  have hf := bits_ne_zero_of_degree_pos hdeg
  have hcop := isCoprime_gcd_gcd_add_one (f := f) (h := h)
  rw [toPoly_gcd, toPoly_gcd, toPoly_add, one, toPoly_one] at hcop ⊢
  set F := f.toPoly
  set H := h.toPoly
  have hnorm : normalize F = F := (toPoly_monic hf).normalize_eq_self
  -- `f` divides `h * (h + 1) = h ^ 2 - h`, while `h` and `h + 1` are coprime
  have hdvd : F ∣ H * (H + 1) := by
    obtain ⟨q, hq⟩ := isIdempotentElem_mk_iff.1 hid
    have h2 : (2 : (ZMod 2)[X]) = 0 := CharTwo.two_eq_zero
    exact ⟨q, by linear_combination hq + H * h2⟩
  refine dvd_antisymm_of_normalize_eq ?_ hnorm ?_ ?_
  · rw [normalize_mul, normalize_gcd, normalize_gcd]
  · exact hcop.mul_dvd (gcd_dvd_left F H) (gcd_dvd_left F (H + 1))
  · have h := gcd_mul_dvd_mul_gcd F H (H + 1)
    rwa [(gcd_eq_left_iff F _ hnorm).2 hdvd] at h

end Split

theorem add_one_mem_idempotents {f : GF2Poly} (hdeg : 0 < f.degree) {v : Nat}
    (hv : v ∈ idempotents f) : (⟨v⟩ + one : GF2Poly).bits ∈ idempotents f := by
  have hf := bits_ne_zero_of_degree_pos hdeg
  obtain ⟨hlt, hid⟩ := (mem_idempotents hf).1 hv
  exact (mem_idempotents hf).2 (add_one_idempotent hdeg hlt hid)

/-- The greatest common divisor of `f` with an idempotent `h` is `1` only for `h = 1`. -/
theorem gcd_idempotent_eq_one_iff {f : GF2Poly} (hdeg : 0 < f.degree) {v : Nat}
    (hv : v ∈ idempotents f) : (gcd f ⟨v⟩).bits = 1 ↔ v = 1 := by
  obtain ⟨hlt, hid⟩ := (mem_idempotents (bits_ne_zero_of_degree_pos hdeg)).1 hv
  rw [gcd_bits_eq_one_iff]
  refine ⟨fun h => GF2Poly.mk.inj (eq_one_of_isCoprime hdeg hlt hid h), ?_⟩
  rintro rfl
  rw [toPoly_one]
  exact isCoprime_one_right

/-- The greatest common divisor of `f` with `h + 1`, for an idempotent `h`, is `1` only for
`h = 0`. -/
theorem gcd_idempotent_add_one_eq_one_iff {f : GF2Poly} (hdeg : 0 < f.degree) {v : Nat}
    (hv : v ∈ idempotents f) : (gcd f (⟨v⟩ + one)).bits = 1 ↔ v = 0 := by
  obtain ⟨hlt, hid⟩ := (mem_idempotents (bits_ne_zero_of_degree_pos hdeg)).1 hv
  rw [gcd_bits_eq_one_iff]
  refine ⟨fun h => GF2Poly.mk.inj (eq_zero_of_isCoprime_add_one hdeg hlt hid h), ?_⟩
  rintro rfl
  rw [show (⟨0⟩ + one : GF2Poly).toPoly = 1 from toPoly_one]
  exact isCoprime_one_right

/-! ### Counting idempotents -/

/-- The idempotents modulo coprime `a` and `b` combine to idempotents modulo `a * b`, one for
each pair (Chinese remainders). -/
theorem card_mul_le_card_idempotents {f a b : GF2Poly} (ha : a.bits ≠ 0) (hb : b.bits ≠ 0)
    (hab : IsCoprime a.toPoly b.toPoly) (hf : f.toPoly = a.toPoly * b.toPoly) :
    (idempotents a).card * (idempotents b).card ≤ (idempotents f).card := by
  have hf0 : f.bits ≠ 0 := by
    intro h0
    have h := toPoly_eq_zero.2 h0
    rw [hf] at h
    exact mul_ne_zero (toPoly_eq_zero.not.2 ha) (toPoly_eq_zero.not.2 hb) h
  rw [← Finset.card_product]
  apply Finset.card_le_card_of_surjOn fun v => ((modBy ⟨v⟩ a).bits, (modBy ⟨v⟩ b).bits)
  rintro ⟨x, y⟩ hxy
  rw [Finset.coe_product, Set.mem_prod, Finset.mem_coe, Finset.mem_coe, mem_idempotents ha,
    mem_idempotents hb] at hxy
  obtain ⟨⟨hx, hxid⟩, ⟨hy, hyid⟩⟩ := hxy
  obtain ⟨u, w, huw⟩ := hab
  set A := a.toPoly
  set B := b.toPoly
  set X := toPoly ⟨x⟩
  set Y := toPoly ⟨y⟩
  -- the remainder modulo `f` of `x * w * b + y * u * a` is `x` modulo `a` and `y` modulo `b`
  obtain ⟨p, hp⟩ := toPoly_surjective (X * (w * B) + Y * (u * A))
  have hpa : AdjoinRoot.mk A (modBy p f).toPoly = AdjoinRoot.mk A X := by
    rw [mk_modBy_of_dvd hf0 ⟨B, hf⟩, hp, AdjoinRoot.mk_eq_mk]
    exact ⟨u * (Y - X), by linear_combination X * huw⟩
  have hpb : AdjoinRoot.mk B (modBy p f).toPoly = AdjoinRoot.mk B Y := by
    rw [mk_modBy_of_dvd hf0 ⟨A, hf.trans (mul_comm A B)⟩, hp, AdjoinRoot.mk_eq_mk]
    exact ⟨w * (X - Y), by linear_combination Y * huw⟩
  have hida : A ∣ (modBy p f).toPoly * (modBy p f).toPoly - (modBy p f).toPoly := by
    rw [← isIdempotentElem_mk_iff, IsIdempotentElem, hpa]
    exact hxid
  have hidb : B ∣ (modBy p f).toPoly * (modBy p f).toPoly - (modBy p f).toPoly := by
    rw [← isIdempotentElem_mk_iff, IsIdempotentElem, hpb]
    exact hyid
  refine ⟨(modBy p f).bits, ?_, ?_⟩
  · rw [Finset.mem_coe, mem_idempotents hf0]
    refine ⟨modBy_lt p hf0, ?_⟩
    rw [isIdempotentElem_mk_iff, hf]
    exact (show IsCoprime A B from ⟨u, w, huw⟩).mul_dvd hida hidb
  · show ((modBy (modBy p f) a).bits, (modBy (modBy p f) b).bits) = (x, y)
    rw [(modBy_eq_iff ha hx).2 hpa, (modBy_eq_iff hb hy).2 hpb]

/-- A polynomial of positive degree that is not irreducible is the product of two polynomials of
positive degree. -/
theorem exists_split {f : GF2Poly} (hdeg : 0 < f.degree) (hirr : ¬Irreducible f.toPoly) :
    ∃ a b : GF2Poly, 0 < a.degree ∧ 0 < b.degree ∧ f.toPoly = a.toPoly * b.toPoly := by
  rw [irreducible_iff] at hirr
  push Not at hirr
  obtain ⟨A, B, hAB, hA, hB⟩ := hirr (not_isUnit_of_degree_pos hdeg)
  obtain ⟨a, rfl⟩ := toPoly_surjective A
  obtain ⟨b, rfl⟩ := toPoly_surjective B
  obtain ⟨ha0, hb0⟩ := bits_ne_zero_of_mul hAB.symm (bits_ne_zero_of_degree_pos hdeg)
  exact ⟨a, b, degree_pos_of_ne ha0 (mt isUnit_toPoly_iff.2 hA),
    degree_pos_of_ne hb0 (mt isUnit_toPoly_iff.2 hB), hAB⟩

/-- In a square-free polynomial the two factors of such a product are coprime. -/
theorem exists_coprime_split {f : GF2Poly} (hdeg : 0 < f.degree) (hsq : Squarefree f.toPoly)
    (hirr : ¬Irreducible f.toPoly) : ∃ a b : GF2Poly, 0 < a.degree ∧ 0 < b.degree ∧
      IsCoprime a.toPoly b.toPoly ∧ f.toPoly = a.toPoly * b.toPoly := by
  obtain ⟨a, b, ha, hb, hab⟩ := exists_split hdeg hirr
  exact ⟨a, b, ha, hb, (squarefree_mul_iff.1 (hab ▸ hsq)).1.isCoprime, hab⟩

theorem four_le_card_idempotents {f : GF2Poly} (hdeg : 0 < f.degree) (hsq : Squarefree f.toPoly)
    (hirr : ¬Irreducible f.toPoly) : 4 ≤ (idempotents f).card := by
  obtain ⟨a, b, ha, hb, hab, hf⟩ := exists_coprime_split hdeg hsq hirr
  calc 4 = 2 * 2 := rfl
    _ ≤ (idempotents a).card * (idempotents b).card :=
      Nat.mul_le_mul (two_le_card_idempotents ha) (two_le_card_idempotents hb)
    _ ≤ (idempotents f).card := card_mul_le_card_idempotents (bits_ne_zero_of_degree_pos ha)
      (bits_ne_zero_of_degree_pos hb) hab hf

/-- **Berlekamp's criterion.**  A square-free polynomial of positive degree is irreducible
exactly when its only idempotents are `0` and `1`. -/
theorem irreducible_iff_card_idempotents {f : GF2Poly} (hdeg : 0 < f.degree)
    (hsq : Squarefree f.toPoly) : Irreducible f.toPoly ↔ (idempotents f).card = 2 := by
  constructor
  · intro hirr
    rw [idempotents_of_irreducible hirr]
    exact Finset.card_pair (by decide)
  · intro hcard
    by_contra hirr
    have := four_le_card_idempotents hdeg hsq hirr
    omega

/-- With four idempotents, a square-free polynomial is a product of two irreducibles: a factor
that splits further would give at least eight. -/
theorem irreducible_of_card_four {f a b : GF2Poly} (hsq : Squarefree f.toPoly)
    (hcard : (idempotents f).card = 4) (ha : 0 < a.degree) (hb : 0 < b.degree)
    (hf : f.toPoly = a.toPoly * b.toPoly) : Irreducible a.toPoly := by
  by_contra hirr
  have hsq' : Squarefree (a.toPoly * b.toPoly) := hf ▸ hsq
  have h4 := four_le_card_idempotents ha (Squarefree.of_mul_left hsq') hirr
  have hle := card_mul_le_card_idempotents (bits_ne_zero_of_degree_pos ha)
    (bits_ne_zero_of_degree_pos hb) (squarefree_mul_iff.1 hsq').1.isCoprime hf
  have : 4 * 2 ≤ (idempotents a).card * (idempotents b).card :=
    Nat.mul_le_mul h4 (two_le_card_idempotents hb)
  omega

/-! ### The Berlekamp matrix -/

section Matrix

open BitMatrix

/-- `squarePowers` lists reduced polynomials in the classes of `c * s ^ j`. -/
theorem squarePowers_spec {f s : GF2Poly} (hf : f.bits ≠ 0) : ∀ (n : Nat) (c : GF2Poly),
    c.bits < 2 ^ f.degree → (squarePowers f s c n).length = n ∧ ∀ j < n,
      ((squarePowers f s c n).getD j ⟨0⟩).bits < 2 ^ f.degree ∧
      AdjoinRoot.mk f.toPoly ((squarePowers f s c n).getD j ⟨0⟩).toPoly =
        AdjoinRoot.mk f.toPoly (c.toPoly * s.toPoly ^ j)
  | 0, _, _ => ⟨rfl, fun j hj => absurd hj (Nat.not_lt_zero j)⟩
  | n + 1, c, hc => by
    obtain ⟨hlen, hget⟩ := squarePowers_spec hf n (modBy (c * s) f) (modBy_lt _ hf)
    refine ⟨by rw [squarePowers, List.length_cons, hlen], fun j hj => ?_⟩
    rw [squarePowers]
    cases j with
    | zero =>
      rw [List.getD_cons_zero, pow_zero, mul_one]
      exact ⟨hc, rfl⟩
    | succ j =>
      rw [List.getD_cons_succ]
      obtain ⟨hlt, hmk⟩ := hget j (by omega)
      refine ⟨hlt, ?_⟩
      rw [hmk, map_mul, PolyResidue.mk_modBy (Nat.pos_of_ne_zero hf), toPoly_mul, map_mul,
        map_mul, map_pow, map_pow, pow_succ, mul_assoc, mul_comm (AdjoinRoot.mk _ s.toPoly)]

/-- The powers of the Berlekamp matrix are the remainders of `x ^ (2 * j)`. -/
theorem squarePowers_toPoly {f : GF2Poly} (hdeg : 0 < f.degree) {j : Nat} (hj : j < f.degree) :
    ((squarePowers f (modBy ⟨4⟩ f) one f.degree).getD j ⟨0⟩).toPoly =
      Polynomial.X ^ (j * 2) %ₘ f.toPoly := by
  have hf := bits_ne_zero_of_degree_pos hdeg
  obtain ⟨-, hget⟩ := squarePowers_spec (s := modBy ⟨4⟩ f) hf f.degree one
    (Nat.one_lt_two_pow hdeg.ne')
  obtain ⟨hlt, hmk⟩ := hget j hj
  refine toPoly_eq_modByMonic hf hlt ?_
  rw [hmk, map_mul, map_pow, PolyResidue.mk_modBy (Nat.pos_of_ne_zero hf),
    one, toPoly_one, show (⟨4⟩ : GF2Poly) = ⟨2 ^ 2⟩ from rfl, toPoly_two_pow,
    map_one, one_mul, ← map_pow, ← pow_mul, mul_comm]

/-- Bits `j` of the row sum are picked by `b` from the `j`-th polynomial. -/
theorem sum_zipIdx (b : GF2Poly → Bool) (g : GF2Poly × Nat → Nat)
    (hg : ∀ p j, g (p, j) = if b p then Nat.pow 2 j else 0) :
    ∀ (L : List GF2Poly) (k : Nat), ((L.zipIdx k).map g).sum =
      ∑ j ∈ Finset.range L.length, if b (L.getD j ⟨0⟩) then 2 ^ (k + j) else 0
  | [], _ => rfl
  | a :: L, k => by
    rw [List.zipIdx_cons, List.map_cons, List.sum_cons, sum_zipIdx b g hg L (k + 1),
      List.length_cons, Finset.sum_range_succ', hg, List.getD_cons_zero, Nat.add_zero,
      Nat.add_comm]
    refine congrArg₂ _ (Finset.sum_congr rfl fun j _ => ?_) rfl
    rw [List.getD_cons_succ, Nat.add_right_comm, Nat.add_assoc]

theorem dot_ofBits (n : Nat) (c : Nat → Bool) (v : Nat) :
    dot n (ofBits n c : Int) v = ∑ j ∈ Finset.range n, ofBit (c j) * ofBit (v.testBit j) := by
  refine Finset.sum_congr rfl fun j hj => ?_
  rw [show Signed.testBit ((ofBits n c : Nat) : Int) j = (ofBits n c).testBit j from rfl,
    testBit_ofBits, decide_eq_true (Finset.mem_range.1 hj), Bool.true_and]

theorem dot_two_pow {n i : Nat} (hi : i < n) (v : Nat) :
    dot n (Int.pow 2 i) v = ofBit (v.testBit i) := by
  rw [dot, show Int.pow 2 i = ((2 ^ i : Nat) : Int) by push_cast; rfl]
  simp only [show ∀ j, Signed.testBit ((2 ^ i : Nat) : Int) j = decide (i = j) from
    fun j => Nat.testBit_two_pow]
  calc ∑ j ∈ Finset.range n, ofBit (decide (i = j)) * ofBit (v.testBit j)
      = ∑ j ∈ Finset.range n, if i = j then ofBit (v.testBit j) else 0 :=
        Finset.sum_congr rfl fun j _ => by by_cases hij : i = j <;> simp [hij]
    _ = ofBit (v.testBit i) := by rw [Finset.sum_ite_eq, if_pos (Finset.mem_range.2 hi)]

/-- Squaring is additive in characteristic 2, so the remainder of `h ^ 2` is the sum of the
remainders of `x ^ (2 * j)` over the coefficients of `h`. -/
theorem coeff_sq_modByMonic {F H : (ZMod 2)[X]} {n : Nat} (hn : H.natDegree < n)
    (i : Nat) : (H ^ 2 %ₘ F).coeff i =
      ∑ j ∈ Finset.range n, H.coeff j * (Polynomial.X ^ (j * 2) %ₘ F).coeff i := by
  have hsq : H ^ 2 = ∑ j ∈ Finset.range n, H.coeff j • Polynomial.X ^ (j * 2) := by
    rw [← ZMod.expand_card]
    conv_lhs => rw [as_sum_range' H n hn]
    rw [map_sum]
    exact Finset.sum_congr rfl fun j _ => by rw [expand_monomial, smul_X_eq_monomial]
  rw [hsq, ← modByMonicHom_apply, map_sum, finsetSum_coeff]
  exact Finset.sum_congr rfl fun j _ => by
    rw [map_smul, modByMonicHom_apply, coeff_smul, smul_eq_mul]

theorem natDegree_toPoly_lt {v n : Nat} (hv : v < 2 ^ n) (hn : 0 < n) :
    (toPoly ⟨v⟩).natDegree < n := by
  rw [natDegree_toPoly, degree_eq_log2]
  by_cases h0 : v = 0
  · rw [h0]
    exact hn
  · exact (Nat.log2_lt h0).2 hv

/-- **The rows of the Berlekamp matrix.**  Row `i` against `v` gives coefficient `i` of
`h ^ 2 mod f - h`, `h` being the polynomial of `v`. -/
theorem dot_row {f : GF2Poly} (hdeg : 0 < f.degree) (g : Nat → GF2Poly × Nat → Nat)
    (hg : ∀ i p j, g i (p, j) = if p.coeff i then Nat.pow 2 j else 0) {i v : Nat}
    (hi : i < f.degree) (hv : v < 2 ^ f.degree) :
    dot f.degree (Signed.xor ((((squarePowers f (modBy ⟨4⟩ f) one f.degree).zipIdx.map (g i)).foldl
      (· + ·) 0 : Nat) : Int) (Int.pow 2 i)) v =
      ((toPoly ⟨v⟩) ^ 2 %ₘ f.toPoly).coeff i + (toPoly ⟨v⟩).coeff i := by
  have hf := bits_ne_zero_of_degree_pos hdeg
  set L := squarePowers f (modBy ⟨4⟩ f) one f.degree
  have hlen : L.length = f.degree :=
    (squarePowers_spec hf f.degree one (Nat.one_lt_two_pow hdeg.ne')).1
  have hsum : (L.zipIdx.map (g i)).foldl (· + ·) 0 =
      ofBits f.degree fun j => (L.getD j ⟨0⟩).coeff i := by
    rw [← List.sum_eq_foldl_nat, sum_zipIdx _ (g i) (hg i), hlen]
    simp only [Nat.zero_add]
    rfl
  rw [dot_xor, dot_two_pow hi, hsum, dot_ofBits,
    coeff_sq_modByMonic (natDegree_toPoly_lt hv hdeg), coeff_toPoly]
  congr 1
  refine Finset.sum_congr rfl fun j hj => ?_
  rw [← squarePowers_toPoly hdeg (Finset.mem_range.1 hj), coeff_toPoly, coeff_toPoly, mul_comm]
  rfl

/-- A reduced `h` is idempotent exactly when `h ^ 2 mod f - h` has no coefficient below the
degree of `f`. -/
theorem sq_modByMonic_eq_iff {f : GF2Poly} (hdeg : 0 < f.degree) {v : Nat}
    (hv : v < 2 ^ f.degree) : modBy (⟨v⟩ * ⟨v⟩) f = ⟨v⟩ ↔
      ∀ i < f.degree, ((toPoly ⟨v⟩) ^ 2 %ₘ f.toPoly).coeff i + (toPoly ⟨v⟩).coeff i = 0 := by
  have hf := bits_ne_zero_of_degree_pos hdeg
  rw [← toPoly_inj, toPoly_modBy _ hf, toPoly_mul, ← sq]
  constructor
  · intro h i _
    rw [h]
    exact CharTwo.add_self_eq_zero _
  · intro h
    ext i
    by_cases hi : i < f.degree
    · exact sub_eq_zero.1 (by rw [CharTwo.sub_eq_add]; exact h i hi)
    · -- beyond the degree of `f` both have no coefficient
      have hF : (f.toPoly).degree = f.degree := by
        rw [degree_eq_natDegree (toPoly_eq_zero.not.2 hf), natDegree_toPoly]
      have hH : (toPoly ⟨v⟩).coeff i = 0 :=
        coeff_eq_zero_of_natDegree_lt (by have := natDegree_toPoly_lt hv hdeg; omega)
      have hsq : ((toPoly ⟨v⟩) ^ 2 %ₘ f.toPoly).coeff i = 0 :=
        coeff_eq_zero_of_degree_lt (lt_of_lt_of_le (degree_modByMonic_lt _ (toPoly_monic hf))
          (by rw [hF]; exact_mod_cast not_lt.1 hi))
      rw [hH, hsq]

/-- The matrix whose row `i` gives coefficient `i` of `h ^ 2 mod f - h` has the idempotents as
its kernel. -/
theorem kernel_ofRows {f : GF2Poly} (hdeg : 0 < f.degree) (hle : f.degree ≤ 64)
    (row : Nat → Int) (hrow : ∀ i < f.degree, ∀ v < 2 ^ f.degree,
      dot f.degree (row i) v = ((toPoly ⟨v⟩) ^ 2 %ₘ f.toPoly).coeff i + (toPoly ⟨v⟩).coeff i) :
    ∃ M, ofRows f.degree ((List.range f.degree).map row) = .ok M ∧ M.cols = f.degree ∧
      M.kernel = idempotents f := by
  obtain ⟨M, hM, hcols, hrows⟩ := @ofRows_eq_ok f.degree ((List.range f.degree).map row)
    (by simp only [ne_eq, List.map_eq_nil_iff, List.range_eq_nil]; omega) (by omega) (by omega)
  rw [Int.toNat_natCast] at hcols
  refine ⟨M, hM, hcols, ?_⟩
  ext v
  rw [mem_kernel, idempotents, Finset.mem_filter, Finset.mem_range, hcols]
  refine and_congr_right fun hv => ?_
  rw [Annihilates, hrows, List.forall_mem_map, sq_modByMonic_eq_iff hdeg hv]
  exact forall_congr' fun i => by
    rw [List.mem_range]
    exact imp_congr_right fun hi => by rw [hrow i hi v hv]

/-- **Berlekamp's matrix.**  For `f` of degree from 1 to 64 the matrix is built, with one column
for each coefficient below the degree, and its kernel is the set of idempotents modulo `f`. -/
theorem berlekampMatrix_spec {f : GF2Poly} (hdeg : 0 < f.degree) (hle : f.degree ≤ 64) :
    ∃ M, berlekampMatrix f = .ok M ∧ M.cols = f.degree ∧ M.kernel = idempotents f := by
  have hf := bits_ne_zero_of_degree_pos hdeg
  obtain ⟨z, hz, -, -⟩ := @ofRows_eq_ok f.degree (List.replicate f.degree 0)
    (by simp only [ne_eq, List.replicate_eq_nil_iff]; omega) (by omega) (by omega)
  have hzeros : zeros f.degree f.degree = .ok z := by
    rw [zeros, if_neg (by omega), Int.toNat_natCast]
    exact hz
  rw [berlekampMatrix, if_neg hf]
  simp only [hzeros, bind, Except.bind]
  refine kernel_ofRows hdeg hle _ fun i hi v hv => ?_
  exact dot_row hdeg (fun i x => if x.1.coeff i = true then Nat.pow 2 x.2 else 0)
    (fun _ _ _ => rfl) hi hv

end Matrix

/-! ### The split -/

/-- What a split says of `f`: it is irreducible, or it is the product of the two halves, both of
positive degree, and the halves are irreducible when the kernel has dimension two. -/
def Split.Correct (f : GF2Poly) : Split → Prop
  | .irreducible => Irreducible f.toPoly
  | .halves f₁ f₂ dim => f₁.toPoly * f₂.toPoly = f.toPoly ∧ 0 < f₁.degree ∧ 0 < f₂.degree ∧
      (dim = 2 → Irreducible f₁.toPoly ∧ Irreducible f₂.toPoly)

/-- `h` splits `f`: the greatest common divisors of `f` with `h` and with `h + 1` both differ
from `1`. -/
def Splits (f h : GF2Poly) : Prop := (gcd f h).bits ≠ 1 ∧ (gcd f (h + one)).bits ≠ 1

/-- `v` is the first row of `vs` whose polynomial splits `f`. -/
def FirstSplitting (f : GF2Poly) (vs : List BitRow) (v : BitRow) : Prop :=
  ∃ pre post, vs = pre ++ v :: post ∧ (∀ u ∈ pre, ¬Splits f ⟨u.masked⟩) ∧ Splits f ⟨v.masked⟩

theorem FirstSplitting.mem {f : GF2Poly} {vs : List BitRow} {v : BitRow}
    (h : FirstSplitting f vs v) : v ∈ vs := by
  obtain ⟨pre, post, rfl, -, -⟩ := h
  simp

theorem FirstSplitting.splits {f : GF2Poly} {vs : List BitRow} {v : BitRow}
    (h : FirstSplitting f vs v) : Splits f ⟨v.masked⟩ := by
  obtain ⟨-, -, -, -, hs⟩ := h
  exact hs

/-- An idempotent splits `f` exactly when it is neither `0` nor `1`. -/
theorem splits_iff {f : GF2Poly} (hdeg : 0 < f.degree) {v : Nat} (hv : v ∈ idempotents f) :
    Splits f ⟨v⟩ ↔ v ≠ 0 ∧ v ≠ 1 := by
  rw [Splits, Ne, Ne, gcd_idempotent_eq_one_iff hdeg hv,
    gcd_idempotent_add_one_eq_one_iff hdeg hv, and_comm]

/-- The halves split by an idempotent other than `0` and `1`. -/
theorem gcd_degree_pos {f : GF2Poly} (hdeg : 0 < f.degree) {v : Nat} (hv : v ∈ idempotents f)
    (h0 : v ≠ 0) (h1 : v ≠ 1) : 0 < (gcd f ⟨v⟩).degree ∧ 0 < (gcd f (⟨v⟩ + one)).degree := by
  have hne := gcd_bits_ne_zero (bits_ne_zero_of_degree_pos hdeg)
  exact ⟨degree_pos_of_ne (hne _) (mt (gcd_idempotent_eq_one_iff hdeg hv).1 h1),
    degree_pos_of_ne (hne _) (mt (gcd_idempotent_add_one_eq_one_iff hdeg hv).1 h0)⟩

/-- Over rows whose polynomials are idempotents, `firstSplit` passes the invariant check of each
row and stops at the first row that splits `f`, with the halves it gives. -/
theorem firstSplit_first {f : GF2Poly} (hdeg : 0 < f.degree) (dim : Nat) :
    ∀ vs : List BitRow, (∀ v ∈ vs, v.masked ∈ idempotents f) →
      (∃ v ∈ vs, Splits f ⟨v.masked⟩) → ∃ v, FirstSplitting f vs v ∧
        firstSplit f dim vs = .ok (.halves (gcd f ⟨v.masked⟩) (gcd f (⟨v.masked⟩ + one)) dim)
  | [], _, ⟨_, hv, _⟩ => absurd hv List.not_mem_nil
  | v :: vs, hall, ⟨w, hw, hw'⟩ => by
    have hv := hall v List.mem_cons_self
    have hsq := (Finset.mem_filter.1 hv).2
    have hsq' := (Finset.mem_filter.1 (add_one_mem_idempotents hdeg hv)).2
    rw [firstSplit, if_neg (by rw [not_or, not_not, not_not]; exact ⟨hsq, hsq'⟩)]
    by_cases hsplit : Splits f ⟨v.masked⟩
    · rw [if_neg (by rw [not_or]; exact hsplit)]
      exact ⟨v, ⟨[], vs, rfl, fun u hu => absurd hu List.not_mem_nil, hsplit⟩, rfl⟩
    · -- `v` does not split `f`, so the row sought is further on
      rw [if_pos (by rw [Splits, not_and_or, not_not, not_not] at hsplit; exact hsplit)]
      have hwvs : w ∈ vs := by
        rcases List.mem_cons.1 hw with rfl | hw
        · exact absurd hw' hsplit
        · exact hw
      obtain ⟨u, ⟨pre, post, hvs, hpre, hu⟩, heq⟩ := firstSplit_first hdeg dim vs
        (fun u hu => hall u (List.mem_cons_of_mem _ hu)) ⟨w, hwvs, hw'⟩
      refine ⟨u, ⟨v :: pre, post, by rw [hvs]; rfl, fun x hx => ?_, hu⟩, heq⟩
      rcases List.mem_cons.1 hx with rfl | hx
      · exact hsplit
      · exact hpre x hx

/-- A list without repetition of nonzero numbers, with two entries or more, has one other than
`1`. -/
theorem exists_ne_one {l : List Nat} (hnd : l.Nodup) (hlen : 2 ≤ l.length) (hne : ∀ v ∈ l, v ≠ 0) :
    ∃ v ∈ l, v ≠ 0 ∧ v ≠ 1 := by
  by_contra hall
  push Not at hall
  have hrep : l = List.replicate l.length 1 :=
    List.eq_replicate_iff.2 ⟨rfl, fun v hv => hall v hv (hne v hv)⟩
  rw [hrep, List.nodup_replicate] at hnd
  omega

section Step

variable {f : GF2Poly} (hdeg : 0 < f.degree) (hle : f.degree ≤ 64) (hsq : Squarefree f.toPoly)
include hdeg hle hsq

/-- An irreducible `f` has a kernel of dimension one, so Berlekamp's step reports it as such. -/
theorem berlekampSplit_of_irreducible (hirr : Irreducible f.toPoly) :
    berlekampSplit f = .ok .irreducible := by
  obtain ⟨M, hM, hcols, hker⟩ := berlekampMatrix_spec hdeg hle
  have hcard : (idempotents f).card = 2 ^ (f.degree - M.echelon.leadingNonzero) := by
    rw [← hker, BitMatrix.card_kernel, hcols]
  have h1 : f.degree - M.echelon.leadingNonzero = 1 := by
    rw [(irreducible_iff_card_idempotents hdeg hsq).1 hirr] at hcard
    exact Nat.pow_right_injective (le_refl 2) (show 2 ^ _ = 2 ^ 1 from hcard.symm)
  rw [berlekampSplit, hM]
  simp only [bind, Except.bind, pure, Except.pure, if_pos h1]

/-- **Berlekamp's split.**  For a square-free `f` that is not irreducible, the kernel basis has
`dim` rows, `dim` being the dimension of the kernel, whose polynomials are idempotents; at least
four idempotents exist, and the halves come from the first row that splits `f`. -/
theorem berlekampSplit_first (hirr : ¬Irreducible f.toPoly) :
    ∃ M b v, berlekampMatrix f = .ok M ∧ M.echelon.kernelBasis = .ok (some b) ∧
      (idempotents f).card = 2 ^ (f.degree - M.echelon.leadingNonzero) ∧
      (∀ u ∈ b.bitRows, u.masked ∈ idempotents f) ∧ FirstSplitting f b.bitRows v ∧
      berlekampSplit f = .ok (.halves (gcd f ⟨v.masked⟩) (gcd f (⟨v.masked⟩ + one))
        (f.degree - M.echelon.leadingNonzero)) := by
  obtain ⟨M, hM, hcols, hker⟩ := berlekampMatrix_spec hdeg hle
  have hcard : (idempotents f).card = 2 ^ (f.degree - M.echelon.leadingNonzero) := by
    rw [← hker, BitMatrix.card_kernel, hcols]
  generalize hd : f.degree - M.echelon.leadingNonzero = dim at hcard
  -- at least four idempotents, so the kernel has dimension two or more
  have h4 := four_le_card_idempotents hdeg hsq hirr
  have hdim : 2 ≤ dim := by
    by_contra hlt
    have : 2 ^ dim ≤ 2 ^ 1 := Nat.pow_le_pow_right (by decide) (by omega)
    omega
  obtain ⟨res, hres, hspec⟩ := BitMatrix.kernelBasis_spec M.echelon
  rw [BitMatrix.kernel_echelon, hker] at hspec
  cases res with
  | none => omega
  | some b =>
    obtain ⟨-, hbcard, hnd, hmem⟩ := hspec
    have hrows : b.numRows = dim := by
      rw [hcard] at hbcard
      exact (Nat.pow_right_injective (le_refl 2) hbcard).symm
    have hmasked : b.maskedRows = b.bitRows.map BitRow.masked := rfl
    have hidem : ∀ u ∈ b.bitRows, u.masked ∈ idempotents f :=
      fun u hu => (hmem u.masked (hmasked ▸ List.mem_map_of_mem hu)).1
    obtain ⟨w, hw, hw0, hw1⟩ := exists_ne_one hnd
      (by rw [hmasked, List.length_map, BitMatrix.bitRows, List.length_map,
        ← BitMatrix.numRows, hrows]; exact hdim)
      fun v hv => (hmem v hv).2
    obtain ⟨v, hv, rfl⟩ := List.mem_map.1 (hmasked ▸ hw)
    obtain ⟨u, hfirst, heq⟩ := firstSplit_first hdeg dim b.bitRows hidem
      ⟨v, hv, (splits_iff hdeg (hidem v hv)).2 ⟨hw0, hw1⟩⟩
    refine ⟨M, b, u, hM, hres, by rw [hd]; exact hcard, hidem, hfirst, ?_⟩
    rw [berlekampSplit, hM]
    simp only [bind, Except.bind, pure, Except.pure, hd, if_neg (show dim ≠ 1 by omega), hres,
      if_pos hrows]
    exact heq

/-- **Berlekamp's step.**  For a square-free `f` of degree from 1 to 64, the split is computed
and is correct. -/
theorem berlekampSplit_spec : ∃ s, berlekampSplit f = .ok s ∧ s.Correct f := by
  by_cases hirr : Irreducible f.toPoly
  · exact ⟨_, berlekampSplit_of_irreducible hdeg hle hsq hirr, hirr⟩
  obtain ⟨M, b, v, -, -, hcard, hidem, hfirst, heq⟩ := berlekampSplit_first hdeg hle hsq hirr
  have hv := hidem v hfirst.mem
  obtain ⟨h0, h1⟩ := (splits_iff hdeg hv).1 hfirst.splits
  obtain ⟨hpos₁, hpos₂⟩ := gcd_degree_pos hdeg hv h0 h1
  have hprod := gcd_mul_gcd_add_one hdeg ((mem_idempotents (bits_ne_zero_of_degree_pos hdeg)).1 hv).2
  refine ⟨_, heq, hprod, hpos₁, hpos₂, fun h2 => ?_⟩
  -- a kernel of dimension two has four idempotents
  have hcard4 : (idempotents f).card = 4 := by rw [hcard, h2]; rfl
  exact ⟨irreducible_of_card_four hsq hcard4 hpos₁ hpos₂ hprod.symm,
    irreducible_of_card_four hsq hcard4 hpos₂ hpos₁ (by rw [← hprod, mul_comm])⟩

end Step

end FiniteRings.GF2Poly
