import Mathlib
import FiniteRings.Proofs.GF2Poly.Factor

/-!
# Berlekamp's step on square-free polynomials

`berlekamp deep f acc` is called on square-free polynomials, those prime to their derivative,
and inserts what it finds into any factorization `acc`. For `f` of degree from 2 to 64 it never
fails, and:

* in a full run (`deep` set) it inserts every irreducible factor of `f` once, with multiplicity
  one (`berlekamp_deep`). The halves of a split are coprime and square-free, so the recursion
  hands each of them straight back to Berlekamp's step (`splitSquares_of_squarefree`), and the
  irreducible factors of `f` are those of the first half followed by those of the second
  (`ListsIrreducibleFactors.append`). With a kernel of dimension two the halves are irreducible
  and are inserted as they are.
* in a single split (`deep` unset) it inserts `f` alone exactly when `f` is irreducible;
  otherwise it inserts `gcd f h` and `gcd f (h + 1)` for the polynomial `h` of the first row of
  the kernel basis that splits `f`. These halves are coprime, of positive degree, and multiply
  to `f` (`halves_of_splits`).
-/

namespace FiniteRings.GF2Poly

open Polynomial Factorization

/-! ### Lists of irreducible factors -/

/-- `ps` lists every irreducible factor of `f` exactly once. -/
structure ListsIrreducibleFactors (f : GF2Poly) (ps : List GF2Poly) : Prop where
  nodup : ps.Nodup
  mem_iff : ∀ p, p ∈ ps ↔ Irreducible p.toPoly ∧ p.toPoly ∣ f.toPoly

/-- An irreducible polynomial is its only irreducible factor. -/
theorem listsIrreducibleFactors_single {f : GF2Poly} (hf : Irreducible f.toPoly) :
    ListsIrreducibleFactors f [f] where
  nodup := List.nodup_singleton f
  mem_iff p := by
    rw [List.mem_singleton]
    constructor
    · rintro rfl
      exact ⟨hf, dvd_rfl⟩
    · rintro ⟨hp, hdvd⟩
      exact eq_of_dvd_pow hp hf (d := 1) (by rwa [pow_one])

/-- The irreducible factors of a product of coprime polynomials are those of the first and then
those of the second, and no factor is in both. -/
theorem ListsIrreducibleFactors.append {f f₁ f₂ : GF2Poly} {ps₁ ps₂ : List GF2Poly}
    (h₁ : ListsIrreducibleFactors f₁ ps₁) (h₂ : ListsIrreducibleFactors f₂ ps₂)
    (hcop : IsCoprime f₁.toPoly f₂.toPoly) (hf : f₁.toPoly * f₂.toPoly = f.toPoly) :
    ListsIrreducibleFactors f (ps₁ ++ ps₂) where
  nodup := by
    refine List.nodup_append.2 ⟨h₁.nodup, h₂.nodup, fun p hp q hq hpq => ?_⟩
    subst hpq
    obtain ⟨hirr, hd₁⟩ := (h₁.mem_iff p).1 hp
    obtain ⟨-, hd₂⟩ := (h₂.mem_iff p).1 hq
    -- a common factor of coprime polynomials is a unit
    exact hirr.not_isUnit (hcop.isUnit_of_dvd' hd₁ hd₂)
  mem_iff p := by
    rw [List.mem_append, h₁.mem_iff, h₂.mem_iff, ← hf]
    constructor
    · rintro (⟨hp, hd⟩ | ⟨hp, hd⟩)
      · exact ⟨hp, dvd_mul_of_dvd_left hd _⟩
      · exact ⟨hp, dvd_mul_of_dvd_right hd _⟩
    · rintro ⟨hp, hd⟩
      rcases hp.prime.dvd_or_dvd hd with hd | hd
      · exact Or.inl ⟨hp, hd⟩
      · exact Or.inr ⟨hp, hd⟩

/-- Inserts each of `ps` once, in order. -/
def insertAll (acc : Factors) (ps : List GF2Poly) : Factors :=
  ps.foldl (fun a p => a.insertFactor p 1) acc

theorem insertAll_append (acc : Factors) (ps₁ ps₂ : List GF2Poly) :
    insertAll acc (ps₁ ++ ps₂) = insertAll (insertAll acc ps₁) ps₂ :=
  List.foldl_append

/-- Inserting a factor once adds one to the count of factors with multiplicity. -/
theorem sum_insertFactor_one (F : Factors) (p : GF2Poly) :
    ((F.insertFactor p 1).factors.map (·.2)).sum = (F.factors.map (·.2)).sum + 1 := by
  rw [show F.insertFactor p 1 = F.insertFactor p ((1 : Nat) : Int) from rfl,
    insertFactor_natCast F p Nat.one_pos, insertSorted_sum]

/-! ### A full run -/

/-- A nonzero square-free polynomial goes straight to Berlekamp's step. -/
theorem splitSquares_of_squarefree {f : GF2Poly} (hsq : Squarefree f.toPoly)
    (deep : Bool) (acc : Factors) : splitSquares deep f acc = berlekamp deep f acc :=
  splitSquares_of_squareFree (squareFreeStep_eq_squareFree_iff_squarefree.2 hsq)

/-- **A full run.**  On a square-free `f` of degree from 1 to 64, Berlekamp's step succeeds and
inserts every irreducible factor of `f` once, by strong induction on the bit pattern. -/
theorem berlekamp_deep {f : GF2Poly} (hdeg : 0 < f.degree) (hle : f.degree ≤ 64)
    (hsq : Squarefree f.toPoly) (acc : Factors) :
    ∃ ps, ListsIrreducibleFactors f ps ∧ berlekamp true f acc = .ok (insertAll acc ps) := by
  induction hn : f.bits using Nat.strong_induction_on generalizing f acc with
  | _ n ih =>
  by_cases h2 : f.degree < 2
  · rw [berlekamp, if_pos h2]
    exact ⟨[f], listsIrreducibleFactors_single (irreducible_of_degree_one (by omega)), rfl⟩
  obtain ⟨s, hs, hcorrect⟩ := berlekampSplit_spec hdeg hle hsq
  cases s with
  | irreducible =>
    rw [berlekamp, if_neg h2, hs]
    exact ⟨[f], listsIrreducibleFactors_single hcorrect, rfl⟩
  | halves f₁ f₂ dim =>
    obtain ⟨hprod, hpos₁, hpos₂, hirr⟩ := hcorrect
    -- the halves of a square-free polynomial are coprime and square-free
    obtain ⟨hrel, hsq₁, hsq₂⟩ := squarefree_mul_iff.1 (hprod ▸ hsq)
    have hcop := hrel.isCoprime
    by_cases hdim : dim = 2
    · -- a kernel of dimension two: both halves are irreducible and inserted as they are
      rw [berlekamp_of_stop h2 hs (Or.inl hdim)]
      obtain ⟨hirr₁, hirr₂⟩ := hirr hdim
      exact ⟨[f₁, f₂], (listsIrreducibleFactors_single hirr₁).append
        (listsIrreducibleFactors_single hirr₂) hcop hprod, rfl⟩
    · rw [berlekamp_of_halves h2 hs (by simp [hdim])]
      obtain ⟨-, hlt₁, -, hlt₂⟩ := halves_degree hs
      obtain ⟨ps₁, hps₁, hrun₁⟩ :=
        ih _ (hn ▸ bits_lt_of_degree_lt hlt₁) hpos₁ (by omega) hsq₁ acc rfl
      obtain ⟨ps₂, hps₂, hrun₂⟩ :=
        ih _ (hn ▸ bits_lt_of_degree_lt hlt₂) hpos₂ (by omega) hsq₂ (insertAll acc ps₁) rfl
      refine ⟨ps₁ ++ ps₂, hps₁.append hps₂ hcop hprod, ?_⟩
      rw [splitSquares_of_squarefree hsq₁, hrun₁, insertAll_append]
      exact (splitSquares_of_squarefree hsq₂ true _).trans hrun₂

/-! ### A single split -/

/-- The halves of `f` given by an idempotent that splits it are coprime, of positive degree,
and multiply to `f`. -/
theorem halves_of_splits {f : GF2Poly} (hdeg : 0 < f.degree) {v : Nat} (hv : v ∈ idempotents f)
    (hs : Splits f ⟨v⟩) :
    IsCoprime (gcd f ⟨v⟩).toPoly (gcd f (⟨v⟩ + one)).toPoly ∧ 0 < (gcd f ⟨v⟩).degree ∧
      0 < (gcd f (⟨v⟩ + one)).degree ∧ gcd f ⟨v⟩ * gcd f (⟨v⟩ + one) = f := by
  obtain ⟨h0, h1⟩ := (splits_iff hdeg hv).1 hs
  obtain ⟨hpos₁, hpos₂⟩ := gcd_degree_pos hdeg hv h0 h1
  have hprod := gcd_mul_gcd_add_one hdeg ((mem_idempotents (bits_ne_zero_of_degree_pos hdeg)).1 hv).2
  exact ⟨isCoprime_gcd_gcd_add_one, hpos₁, hpos₂, toPoly_injective (by rw [toPoly_mul, hprod])⟩

section Once

variable {f : GF2Poly} (hdeg : 0 < f.degree) (hle : f.degree ≤ 64) (hsq : Squarefree f.toPoly)
include hdeg hle hsq

/-- A single split of an irreducible `f` inserts `f` alone. -/
theorem berlekamp_once_of_irreducible (hirr : Irreducible f.toPoly) (acc : Factors) :
    berlekamp false f acc = .ok (acc.insertFactor f 1) := by
  rw [berlekamp]
  by_cases h2 : f.degree < 2
  · rw [if_pos h2]
  · rw [if_neg h2, berlekampSplit_of_irreducible hdeg hle hsq hirr]

/-- A single split of a square-free `f` that is not irreducible inserts the halves given by the
first row of the kernel basis that splits `f`. -/
theorem berlekamp_once_of_not_irreducible (hirr : ¬Irreducible f.toPoly) (acc : Factors) :
    ∃ M b v, berlekampMatrix f = .ok M ∧ M.echelon.kernelBasis = .ok (some b) ∧
      v.masked ∈ idempotents f ∧ FirstSplitting f b.bitRows v ∧
      berlekamp false f acc = .ok ((acc.insertFactor (gcd f ⟨v.masked⟩) 1).insertFactor
        (gcd f (⟨v.masked⟩ + one)) 1) := by
  obtain ⟨M, b, v, hM, hb, -, hidem, hfirst, heq⟩ := berlekampSplit_first hdeg hle hsq hirr
  refine ⟨M, b, v, hM, hb, hidem v hfirst.mem, hfirst, ?_⟩
  have h2 : ¬f.degree < 2 := fun h => hirr (irreducible_of_degree_one (by omega))
  rw [berlekamp, if_neg h2, heq]
  simp

end Once

/-- **Berlekamp's step on a square-free polynomial.**  For `f` of degree from 2 to 64 prime to
its derivative, and any factorization `acc`, Berlekamp's step never fails. A full run inserts
every irreducible factor of `f` once. A single split inserts `f` alone exactly when `f` is
irreducible; otherwise it inserts `gcd f h` and `gcd f (h + 1)`, where `h` is the polynomial of
the first row of the kernel basis that splits `f`: two coprime polynomials of positive degree
whose product is `f`. -/
theorem berlekamp_inserts_factors {f : GF2Poly} (h2 : 2 ≤ f.degree) (hle : f.degree ≤ 64)
    (hsq : (gcd f f.deriv).bits = 1) (acc : Factors) :
    (∃ ps, ListsIrreducibleFactors f ps ∧ berlekamp true f acc = .ok (insertAll acc ps)) ∧
    (berlekamp false f acc = .ok (acc.insertFactor f 1) ↔ Irreducible f.toPoly) ∧
    (¬Irreducible f.toPoly → ∃ M b v, berlekampMatrix f = .ok M ∧
      M.echelon.kernelBasis = .ok (some b) ∧ FirstSplitting f b.bitRows v ∧
      berlekamp false f acc = .ok ((acc.insertFactor (gcd f ⟨v.masked⟩) 1).insertFactor
        (gcd f (⟨v.masked⟩ + one)) 1) ∧
      IsCoprime (gcd f ⟨v.masked⟩).toPoly (gcd f (⟨v.masked⟩ + one)).toPoly ∧
      0 < (gcd f ⟨v.masked⟩).degree ∧ 0 < (gcd f (⟨v.masked⟩ + one)).degree ∧
      gcd f ⟨v.masked⟩ * gcd f (⟨v.masked⟩ + one) = f) := by
  have hdeg : 0 < f.degree := by omega
  have hsq' := (gcd_deriv_eq_one_iff f).1 hsq
  refine ⟨berlekamp_deep hdeg hle hsq' acc, ⟨fun hone => ?_,
    fun hirr => berlekamp_once_of_irreducible hdeg hle hsq' hirr acc⟩, fun hirr => ?_⟩
  · -- two halves count two factors, where `f` alone counts one
    by_contra hirr
    obtain ⟨M, b, v, -, -, -, -, htwo⟩ := berlekamp_once_of_not_irreducible hdeg hle hsq' hirr acc
    rw [hone] at htwo
    have hsum := congrArg (fun F : Factors => (F.factors.map (·.2)).sum) (Except.ok.inj htwo)
    simp only [sum_insertFactor_one] at hsum
    omega
  · obtain ⟨M, b, v, hM, hb, hv, hfirst, hrun⟩ :=
      berlekamp_once_of_not_irreducible hdeg hle hsq' hirr acc
    exact ⟨M, b, v, hM, hb, hfirst, hrun, halves_of_splits hdeg hv hfirst.splits⟩

/-- `x ^ 5 + x ^ 4 + 1`, the product of `x ^ 2 + x + 1` and `x ^ 3 + x + 1`, is square-free. -/
theorem berlekamp_forty_nine :
    2 ≤ (⟨49⟩ : GF2Poly).degree ∧ (⟨49⟩ : GF2Poly).degree ≤ 64 ∧
    (gcd ⟨49⟩ (⟨49⟩ : GF2Poly).deriv).bits = 1 ∧
    (∃ ps, ListsIrreducibleFactors ⟨49⟩ ps ∧
      berlekamp true ⟨49⟩ empty = .ok (insertAll empty ps)) ∧
    (berlekamp false ⟨49⟩ empty = .ok (empty.insertFactor ⟨49⟩ 1) ↔
      Irreducible (⟨49⟩ : GF2Poly).toPoly) ∧
    (¬Irreducible (⟨49⟩ : GF2Poly).toPoly → ∃ M b v, berlekampMatrix ⟨49⟩ = .ok M ∧
      M.echelon.kernelBasis = .ok (some b) ∧ FirstSplitting ⟨49⟩ b.bitRows v ∧
      berlekamp false ⟨49⟩ empty = .ok ((empty.insertFactor (gcd ⟨49⟩ ⟨v.masked⟩) 1).insertFactor
        (gcd ⟨49⟩ (⟨v.masked⟩ + one)) 1) ∧
      IsCoprime (gcd ⟨49⟩ ⟨v.masked⟩).toPoly (gcd ⟨49⟩ (⟨v.masked⟩ + one)).toPoly ∧
      0 < (gcd ⟨49⟩ ⟨v.masked⟩).degree ∧ 0 < (gcd ⟨49⟩ (⟨v.masked⟩ + one)).degree ∧
      gcd ⟨49⟩ ⟨v.masked⟩ * gcd ⟨49⟩ (⟨v.masked⟩ + one) = ⟨49⟩) :=
  ⟨by decide, by decide, by decide +kernel,
    berlekamp_inserts_factors (by decide) (by decide) (by decide +kernel) empty⟩

end FiniteRings.GF2Poly
