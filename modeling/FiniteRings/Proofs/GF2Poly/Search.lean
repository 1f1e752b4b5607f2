import Mathlib
import FiniteRings.Proofs.GF2Poly.Factor

/-!
# Searching for an irreducible polynomial of a degree

`lowestIrreducible d` runs the irreducibility test on `x ^ d + 1, x ^ d + x + 1, …`: the
`2 ^ (d - 1)` odd bit patterns from `2 ^ d + 1` on. These are exactly the polynomials of degree `d`
with constant term one, in increasing order (`degree_candidate`, `eq_candidate`). The loop
`firstIrreducible` answers the first candidate that the test accepts, as soon as some candidate
is irreducible (`firstIrreducible_first`); up to degree 64 the test decides irreducibility.

Some candidate always is irreducible. The field with `2 ^ d` elements is `GF(2)` with one
primitive element adjoined, and the minimal polynomial of that element is irreducible of degree
`d` (`exists_irreducible_natDegree`). An irreducible polynomial of degree at least two is prime to
`x`, so its constant term is one (`coeff_zero_of_irreducible`); in degree one, `x + 1` is
irreducible. So the search answers the numerically least irreducible polynomial of degree `d`
with constant term one, and its failure is never reached (`lowestIrreducible_least`).

`randomIrreducible d draws` tries instead the candidates that successive draws of random bits
give: `x ^ d` over the low bits of the draw, with the constant term set. Each is one of the
candidates above (`randomCandidate_of_pos`) and each candidate is the candidate of some draw
(`randomCandidate_self`), so some draw below `2 ^ d` gives an irreducible one
(`exists_draw_irreducible`). Up to degree 64 the search answers the candidate of the first draw
whose candidate is irreducible, and nothing only when no draw gives one
(`randomIrreducible_spec`).
-/

namespace FiniteRings.GF2Poly

open Polynomial

/-! ### Irreducible polynomials of every degree -/

/-- Over `GF(2)` there is an irreducible polynomial of every positive degree `d`: the minimal
polynomial of a primitive element of the field with `2 ^ d` elements. -/
theorem exists_irreducible_natDegree {d : Nat} (hd : d ≠ 0) :
    ∃ P : (ZMod 2)[X], Irreducible P ∧ P.natDegree = d := by
  obtain ⟨α, hα⟩ := Field.exists_primitive_element_of_finite_bot (ZMod 2) (GaloisField 2 d)
  have hint : IsIntegral (ZMod 2) α := .of_finite (ZMod 2) α
  refine ⟨minpoly (ZMod 2) α, minpoly.irreducible hint, ?_⟩
  rw [(Field.primitive_element_iff_minpoly_natDegree_eq (ZMod 2) α).1 hα, GaloisField.finrank 2 hd]

/-- An irreducible polynomial of degree at least two over `GF(2)` has constant term one: `x` does
not divide it. -/
theorem coeff_zero_of_irreducible {P : (ZMod 2)[X]} (hP : Irreducible P) (hd : 2 ≤ P.natDegree) :
    P.coeff 0 = 1 := by
  have hX : ¬Polynomial.X ∣ P := by
    rintro ⟨Q, rfl⟩
    rcases hP.isUnit_or_isUnit rfl with hu | hu
    · exact not_isUnit_X hu
    · rw [natDegree_mul X_ne_zero hu.ne_zero, natDegree_X, natDegree_eq_zero_of_isUnit hu] at hd
      omega
  rw [X_dvd_iff] at hX
  -- the only nonzero element of `GF(2)` is one
  revert hX
  generalize P.coeff 0 = c
  revert c
  decide

/-! ### The candidates -/

/-- The bit patterns of the irreducible polynomials of degree `d` with constant term one. -/
def irreduciblesOfDegree (d : Nat) : Set Nat :=
  {b | (toPoly ⟨b⟩).natDegree = d ∧ (toPoly ⟨b⟩).coeff 0 = 1 ∧ Irreducible (toPoly ⟨b⟩)}

theorem coeff_zero_eq_one_iff (b : Nat) : (toPoly ⟨b⟩).coeff 0 = 1 ↔ b % 2 = 1 := by
  rw [coeff_toPoly, coeff, Nat.testBit_zero]
  by_cases h : b % 2 = 1 <;> simp [h]

/-- The `i`-th candidate of degree `d` has degree `d`. -/
theorem degree_candidate {d i : Nat} (hd : 1 ≤ d) (hi : i < 2 ^ (d - 1)) :
    (⟨2 ^ d + 1 + 2 * i⟩ : GF2Poly).degree = d := by
  have h2 := Nat.two_pow_pred_add_two_pow_pred hd
  rw [degree_eq_log2]
  dsimp only
  rw [Nat.log2_eq_iff (by omega), pow_succ]
  omega

/-- A polynomial of degree `d ≥ 1` with constant term one is a candidate. -/
theorem eq_candidate {b d : Nat} (hd : 1 ≤ d) (hdeg : (toPoly ⟨b⟩).natDegree = d)
    (hodd : b % 2 = 1) : ∃ i < 2 ^ (d - 1), b = 2 ^ d + 1 + 2 * i := by
  have h2 := Nat.two_pow_pred_add_two_pow_pred hd
  rw [natDegree_toPoly, degree_eq_log2] at hdeg
  dsimp only at hdeg
  rw [Nat.log2_eq_iff (by omega), pow_succ] at hdeg
  exact ⟨(b - 2 ^ d - 1) / 2, by omega, by omega⟩

theorem candidate_mem {d i : Nat} (hd : 1 ≤ d) (hi : i < 2 ^ (d - 1))
    (hirr : Irreducible (toPoly ⟨2 ^ d + 1 + 2 * i⟩)) :
    2 ^ d + 1 + 2 * i ∈ irreduciblesOfDegree d := by
  have h2 := Nat.two_pow_pred_add_two_pow_pred hd
  refine ⟨by rw [natDegree_toPoly, degree_candidate hd hi], ?_, hirr⟩
  rw [coeff_zero_eq_one_iff]
  omega

/-- Every positive degree has an irreducible polynomial with constant term one. -/
theorem irreduciblesOfDegree_nonempty {d : Nat} (hd : 1 ≤ d) :
    (irreduciblesOfDegree d).Nonempty := by
  by_cases h1 : d = 1
  · -- `x + 1`
    subst h1
    have hdeg : (⟨3⟩ : GF2Poly).degree = 1 := by decide
    exact ⟨3, by rw [natDegree_toPoly, hdeg], by rw [coeff_zero_eq_one_iff],
      irreducible_of_degree_one hdeg⟩
  obtain ⟨P, hP, hPdeg⟩ := exists_irreducible_natDegree (show d ≠ 0 by omega)
  obtain ⟨⟨b⟩, rfl⟩ := toPoly_surjective P
  exact ⟨b, hPdeg, coeff_zero_of_irreducible hP (by omega), hP⟩

/-! ### The search -/

/-- The search loop answers the first candidate that is irreducible, once some candidate is and
the test applies to all of them. -/
theorem firstIrreducible_first (n count : Nat) : ∀ a i,
    (∀ k < count, (⟨a + 2 * k⟩ : GF2Poly).degree ≤ 64) → i < count →
    Irreducible (toPoly ⟨a + 2 * i⟩) →
    ∃ j ≤ i, firstIrreducible n count a = .ok ⟨a + 2 * j⟩ ∧ Irreducible (toPoly ⟨a + 2 * j⟩) ∧
      ∀ k < j, ¬Irreducible (toPoly ⟨a + 2 * k⟩) := by
  induction count with
  | zero => intro a i _ hi; omega
  | succ count ih =>
    intro a i hdeg hi hirr
    obtain ⟨b, hb, hiff⟩ := irreducible_spec ⟨a⟩ (hdeg 0 (by omega))
    have hstep : firstIrreducible n (count + 1) a =
        if b then .ok ⟨a⟩ else firstIrreducible n count (a + 2) := by
      rw [firstIrreducible, hb]
      cases b <;> rfl
    cases b with
    | true => exact ⟨0, by omega, hstep, hiff.1 rfl, fun k hk => absurd hk (by omega)⟩
    | false =>
      -- the first candidate fails, so the irreducible one comes later
      have ha : ¬Irreducible (toPoly ⟨a⟩) := fun h => absurd (hiff.2 h) (by decide)
      have hshift : ∀ k, a + 2 + 2 * k = a + 2 * (k + 1) := fun k => by omega
      have hi0 : i ≠ 0 := by
        rintro rfl
        exact ha hirr
      obtain ⟨i, rfl⟩ : ∃ i', i = i' + 1 := ⟨i - 1, by omega⟩
      obtain ⟨j, hj, hrun, hirrj, hfirst⟩ := ih (a + 2) i
        (fun k hk => hshift k ▸ hdeg (k + 1) (by omega)) (by omega) (hshift i ▸ hirr)
      refine ⟨j + 1, by omega, by rw [hstep, if_neg (by decide), hrun, hshift],
        hshift j ▸ hirrj, ?_⟩
      intro k hk
      cases k with
      | zero => exact ha
      | succ k => exact hshift k ▸ hfirst k (by omega)

/-- **The least irreducible polynomial of a degree.**  For `1 ≤ d ≤ 64`, `lowestIrreducible d`
answers the numerically least irreducible polynomial of degree `d` with constant term one; for
`d < 1` it refuses the degree. -/
theorem lowestIrreducible_least (d : Int) :
    (d < 1 → lowestIrreducible d = .error (.degreeNotPositive d)) ∧
      (1 ≤ d → d ≤ 64 →
        ∃ p, lowestIrreducible d = .ok p ∧ IsLeast (irreduciblesOfDegree d.toNat) p.bits) := by
  refine ⟨fun hd => by rw [lowestIrreducible, if_pos hd], fun h1 h64 => ?_⟩
  lift d to Nat using (by omega)
  rw [Int.toNat_natCast]
  have hd : 1 ≤ d := by omega
  have hrun : lowestIrreducible d = firstIrreducible d (2 ^ (d - 1)) (2 ^ d + 1) := by
    rw [lowestIrreducible, if_neg (by omega), Int.toNat_natCast]
    rfl
  have hdeg : ∀ k < 2 ^ (d - 1), (⟨2 ^ d + 1 + 2 * k⟩ : GF2Poly).degree ≤ 64 := fun k hk => by
    rw [degree_candidate hd hk]
    omega
  -- some candidate is irreducible, so the search stops at the first one
  obtain ⟨b, hb⟩ := irreduciblesOfDegree_nonempty hd
  obtain ⟨i, hi, rfl⟩ := eq_candidate hd hb.1 ((coeff_zero_eq_one_iff b).1 hb.2.1)
  obtain ⟨j, hji, hres, hirr, hfirst⟩ := firstIrreducible_first d _ _ i hdeg hi hb.2.2
  refine ⟨_, hrun.trans hres, candidate_mem hd (by omega) hirr, fun c hc => ?_⟩
  -- a smaller member would be an earlier candidate, which the search found reducible
  obtain ⟨k, hk, rfl⟩ := eq_candidate hd hc.1 ((coeff_zero_eq_one_iff c).1 hc.2.1)
  by_contra hlt
  exact hfirst k (by simp only at hlt; omega) hc.2.2

/-- In degree eight the search answers the least irreducible polynomial with constant term one. -/
theorem lowestIrreducible_eight :
    (1 : Int) ≤ 8 ∧ (8 : Int) ≤ 64 ∧
      ∃ p, lowestIrreducible 8 = .ok p ∧ IsLeast (irreduciblesOfDegree 8) p.bits :=
  ⟨by decide, by decide, (lowestIrreducible_least 8).2 (by decide) (by decide)⟩

/-! ### The random search -/

/-- The bit pattern of the candidate that a draw `low` gives in degree `d`: the candidate of index
`low % 2 ^ d / 2` in the order of the search above. -/
def drawnBits (d low : Nat) : Nat := 2 ^ d + 1 + 2 * (low % 2 ^ d / 2)

theorem or_one_eq (y : Nat) : y ||| 1 = 2 * (y / 2) + 1 := by
  apply Nat.eq_of_testBit_eq
  intro i
  cases i with
  | zero => simp
  | succ i =>
    rw [Nat.testBit_or, Nat.testBit_succ, Nat.testBit_succ, Nat.testBit_succ,
      show (2 * (y / 2) + 1) / 2 = y / 2 by omega, show 1 / 2 = 0 from rfl, Nat.zero_testBit,
      Bool.or_false]

theorem drawnIndex_lt {d : Nat} (hd : 1 ≤ d) (low : Nat) : low % 2 ^ d / 2 < 2 ^ (d - 1) := by
  have h2 := Nat.two_pow_pred_add_two_pow_pred hd
  have hlt := Nat.mod_lt low (Nat.two_pow_pos d)
  omega

/-- For a positive degree every draw gives a candidate: `x ^ d` over the low bits of the draw,
with the constant term set. -/
theorem randomCandidate_of_pos {d : Nat} (hd : 1 ≤ d) (low : Nat) :
    randomCandidate d low = .ok ⟨drawnBits d low⟩ := by
  have h2 := Nat.two_pow_pred_add_two_pow_pred hd
  have hlt := Nat.mod_lt low (Nat.two_pow_pos d)
  have hbits : 2 ^ d ||| low % 2 ^ d ||| 1 = drawnBits d low := by
    rw [Nat.or_assoc, or_one_eq, Nat.or_comm, Nat.or_two_pow_eq_add_of_lt (by omega), drawnBits]
    omega
  rw [randomCandidate, withDegree, if_neg (by omega), if_neg (by omega), Int.toNat_natCast,
    Nat.pow_eq, ← hbits]
  rfl

/-- Every polynomial of degree `d` with constant term one is the candidate of a draw: of its own
bit pattern. -/
theorem randomCandidate_self {d b : Nat} (hd : 1 ≤ d) (hdeg : (toPoly ⟨b⟩).natDegree = d)
    (hodd : b % 2 = 1) : randomCandidate d b = .ok ⟨b⟩ := by
  obtain ⟨i, hi, rfl⟩ := eq_candidate hd hdeg hodd
  have h2 := Nat.two_pow_pred_add_two_pow_pred hd
  have hmod : (2 ^ d + 1 + 2 * i) % 2 ^ d = 1 + 2 * i := by
    rw [Nat.add_assoc, Nat.add_mod_left, Nat.mod_eq_of_lt (by omega)]
  rw [randomCandidate_of_pos hd, drawnBits, hmod]
  congr 2
  omega

/-- Some draw below `2 ^ d` gives an irreducible candidate, so a search over every value of the
draws stops. -/
theorem exists_draw_irreducible {d : Nat} (hd : 1 ≤ d) :
    ∃ low < 2 ^ d, Irreducible (toPoly ⟨drawnBits d low⟩) := by
  obtain ⟨b, hdeg, hodd, hirr⟩ := irreduciblesOfDegree_nonempty hd
  have hodd := (coeff_zero_eq_one_iff b).1 hodd
  obtain ⟨i, hi, rfl⟩ := eq_candidate hd hdeg hodd
  have h2 := Nat.two_pow_pred_add_two_pow_pred hd
  refine ⟨2 * i, by omega, ?_⟩
  rw [drawnBits, Nat.mod_eq_of_lt (by omega), Nat.mul_div_cancel_left _ (by decide)]
  exact hirr

/-- The search answers the candidate of the first draw whose candidate is irreducible, and
nothing when none is; up to degree 64 the test decides irreducibility. -/
theorem searchIrreducible_spec {d : Nat} (hd : 1 ≤ d) (h64 : d ≤ 64) (draws : List Nat) :
    ∃ r, searchIrreducible d draws = .ok r ∧
      (∀ p, r = some p → ∃ pre low post, draws = pre ++ low :: post ∧
        p = ⟨drawnBits d low⟩ ∧ Irreducible p.toPoly ∧
        ∀ l ∈ pre, ¬Irreducible (toPoly ⟨drawnBits d l⟩)) ∧
      (r = none ↔ ∀ low ∈ draws, ¬Irreducible (toPoly ⟨drawnBits d low⟩)) := by
  induction draws with
  | nil =>
    refine ⟨none, rfl, fun p hp => ?_, iff_of_true rfl fun low hlow => ?_⟩
    · cases hp
    · cases hlow
  | cons low draws ih =>
    obtain ⟨b, hb, hiff⟩ := irreducible_spec ⟨drawnBits d low⟩
      (by rw [drawnBits, degree_candidate hd (drawnIndex_lt hd low)]; exact h64)
    have hstep : searchIrreducible d (low :: draws) =
        if b then .ok (some ⟨drawnBits d low⟩) else searchIrreducible d draws := by
      rw [searchIrreducible, randomCandidate_of_pos hd]
      simp only [bind, Except.bind, hb]
      cases b <;> rfl
    cases b with
    | true =>
      refine ⟨_, hstep, fun p hp => ?_, iff_of_false (by simp) fun h => ?_⟩
      · cases hp
        exact ⟨[], low, draws, rfl, rfl, hiff.1 rfl, by simp⟩
      · exact h low List.mem_cons_self (hiff.1 rfl)
    | false =>
      -- the first candidate fails, so the answer comes from the later draws
      have hlow : ¬Irreducible (toPoly ⟨drawnBits d low⟩) := fun h => absurd (hiff.2 h) (by decide)
      obtain ⟨r, hr, hsome, hnone⟩ := ih
      refine ⟨r, hstep.trans hr, fun p hp => ?_, ?_⟩
      · obtain ⟨pre, l, post, rfl, hp, hirr, hpre⟩ := hsome p hp
        refine ⟨low :: pre, l, post, rfl, hp, hirr, fun l' hl' => ?_⟩
        rcases List.mem_cons.1 hl' with rfl | hl'
        · exact hlow
        · exact hpre l' hl'
      · rw [hnone, List.forall_mem_cons]
        exact ⟨fun h => ⟨hlow, h⟩, fun h => h.2⟩

/-- **The random irreducible polynomial.**  For `1 ≤ d ≤ 64`, `randomIrreducible d draws` answers
an irreducible polynomial of degree `d` with constant term one, the candidate of the first draw
whose candidate is irreducible, and answers nothing only when no draw gives one; for `d < 1` it
refuses the degree. -/
theorem randomIrreducible_spec (d : Int) (draws : List Nat) :
    (d < 1 → randomIrreducible d draws = .error (.degreeNotPositive d)) ∧
      (1 ≤ d → d ≤ 64 → ∃ r, randomIrreducible d draws = .ok r ∧
        (∀ p, r = some p → p.bits ∈ irreduciblesOfDegree d.toNat ∧
          ∃ pre low post, draws = pre ++ low :: post ∧ p.bits = drawnBits d.toNat low ∧
            ∀ l ∈ pre, ¬Irreducible (toPoly ⟨drawnBits d.toNat l⟩)) ∧
        (r = none ↔ ∀ low ∈ draws, ¬Irreducible (toPoly ⟨drawnBits d.toNat low⟩))) := by
  refine ⟨fun hd => by rw [randomIrreducible, if_pos hd], fun h1 h64 => ?_⟩
  lift d to Nat using (by omega)
  rw [Int.toNat_natCast]
  have hd : 1 ≤ d := by omega
  obtain ⟨r, hr, hsome, hnone⟩ := searchIrreducible_spec hd (by omega) draws
  refine ⟨r, by rw [randomIrreducible, if_neg (by omega), hr], fun p hp => ?_, hnone⟩
  obtain ⟨pre, low, post, hdraws, rfl, hirr, hpre⟩ := hsome p hp
  exact ⟨candidate_mem hd (drawnIndex_lt hd low) hirr, pre, low, post, hdraws, rfl, hpre⟩

end FiniteRings.GF2Poly
