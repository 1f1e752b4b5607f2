import Mathlib
import FiniteRings.GF2Poly.Factor
import FiniteRings.Proofs.GF2Poly.Ring
import FiniteRings.Proofs.Factorization

/-!
# Factorizations of polynomials

A factorization of polynomials keeps its factors in increasing order of their bit patterns, each
once and with a positive multiplicity (`SortedFactors`), and stands for the product of `p ^ e`
over them (`polyProd`). Inserting a factor multiplies that product by the factor: it is either
added to the multiplicity of an equal factor or put in its place in the order
(`insertSorted_polyProd`, `insertSorted_sorted`). Merging inserts every factor of the second
factorization, and raising to a power multiplies every multiplicity, so both act on the product
as multiplication and powers do. Evaluating a factorization with nonzero bases computes the
product (`unfactor_eq_ok`).

The first facts are the laws of factorizations over any base, read here for polynomials ordered
by their bit patterns; counting the factors and evaluating with bases that are only known to be
nonzero are particular to this file.
-/

namespace FiniteRings.GF2Poly

open Polynomial Factorization

/-- The product of `p ^ e` over the factors. -/
noncomputable def polyProd (fs : List (GF2Poly × Nat)) : (ZMod 2)[X] :=
  (fs.map fun pe => pe.1.toPoly ^ pe.2).prod

/-- Factors in strictly increasing order of their patterns, each with a positive
multiplicity. -/
structure SortedFactors (fs : List (GF2Poly × Nat)) : Prop where
  increasing : fs.Pairwise fun a b => a.1.bits < b.1.bits
  pos : ∀ pe ∈ fs, 0 < pe.2

@[simp] theorem polyProd_nil : polyProd [] = 1 := rfl

@[simp] theorem polyProd_cons (p : GF2Poly) (e : Nat) (fs : List (GF2Poly × Nat)) :
    polyProd ((p, e) :: fs) = p.toPoly ^ e * polyProd fs := rfl

/-! ### Inserting a factor -/

section Insert

variable (p : GF2Poly) (e : Nat)

/-- Inserting `p ^ e` multiplies the product by it. -/
theorem insertSorted_polyProd (fs : List (GF2Poly × Nat)) :
    polyProd (insertSorted p e fs) = p.toPoly ^ e * polyProd fs :=
  prodIn_insertSorted p e fs

/-- Inserting a factor with a positive multiplicity keeps the factors sorted. -/
theorem insertSorted_sorted (he : 0 < e) {fs : List (GF2Poly × Nat)} (h : SortedFactors fs) :
    SortedFactors (insertSorted p e fs) :=
  have hs := Factorization.insertSorted_sorted keyOrder_bits p he ⟨h.increasing, h.pos⟩
  ⟨hs.increasing, hs.pos⟩

/-- Inserting `p ^ e` adds `e` to the number of factors counted with multiplicity. -/
theorem insertSorted_sum : ∀ fs : List (GF2Poly × Nat),
    ((insertSorted p e fs).map (·.2)).sum = (fs.map (·.2)).sum + e
  | [] => by simp [insertSorted]
  | (q, d) :: rest => by
    rw [insertSorted]
    split
    · simp only [List.map_cons, List.sum_cons]
      omega
    · split
      · simp only [List.map_cons, List.sum_cons]
        omega
      · simp only [List.map_cons, List.sum_cons, insertSorted_sum rest]
        omega

end Insert

/-! ### Operations on factorizations -/

/-- The number of factors counted with multiplicity is the sum of the multiplicities. -/
theorem numFactors_eq_sum (F : Factors) : F.numFactors = (F.factors.map (·.2)).sum := by
  rw [numFactors, List.sum_eq_foldl_nat]

theorem insertFactor_natCast (F : Factors) (p : GF2Poly) {e : Nat} (he : 0 < e) :
    F.insertFactor p e = { F with factors := insertSorted p e F.factors } := by
  rw [insertFactor, if_neg (by omega), Int.toNat_natCast]

/-- Inserting factors one by one, as `merge` does, multiplies the product by theirs and adds
their count. -/
theorem foldl_insertFactor (step : Factors → GF2Poly × Nat → Factors)
    (hstep : ∀ F p e, step F (p, e) = F.insertFactor p e) :
    ∀ (gs : List (GF2Poly × Nat)) (F : Factors), (∀ pe ∈ gs, 0 < pe.2) →
      (gs.foldl step F).trivial = F.trivial ∧
      polyProd (gs.foldl step F).factors = polyProd F.factors * polyProd gs ∧
      ((gs.foldl step F).factors.map (·.2)).sum = (F.factors.map (·.2)).sum + (gs.map (·.2)).sum ∧
      (SortedFactors F.factors → SortedFactors (gs.foldl step F).factors) ∧
      ∀ x ∈ (gs.foldl step F).factors, (∃ d, (x.1, d) ∈ F.factors) ∨ ∃ d, (x.1, d) ∈ gs
  | [], F, _ => ⟨rfl, by simp, by simp, id, fun x hx => Or.inl ⟨x.2, hx⟩⟩
  | (p, e) :: gs, F, hpos => by
    have he : 0 < e := hpos (p, e) List.mem_cons_self
    have hins : step F (p, e) = { F with factors := insertSorted p e F.factors } := by
      rw [hstep, insertFactor_natCast F p he]
    obtain ⟨htriv, hprod, hsum, hsorted, hbases⟩ :=
      foldl_insertFactor step hstep gs _ fun pe hpe => hpos pe (List.mem_cons_of_mem _ hpe)
    rw [List.foldl_cons, hins]
    refine ⟨htriv, ?_, ?_, fun h => hsorted (insertSorted_sorted p e he h), fun x hx => ?_⟩
    · rw [hprod, insertSorted_polyProd, polyProd_cons]
      ring
    · rw [hsum, insertSorted_sum, List.map_cons, List.sum_cons]
      omega
    · rcases hbases x hx with ⟨d, hd⟩ | ⟨d, hd⟩
      · rcases mem_insertSorted p e hd with h | ⟨d', hd'⟩
        · exact Or.inr ⟨e, by rw [h]; exact List.mem_cons_self⟩
        · exact Or.inl ⟨d', hd'⟩
      · exact Or.inr ⟨d, List.mem_cons_of_mem _ hd⟩

theorem polyProd_map_mul (gs : List (GF2Poly × Nat)) (e : Nat) :
    polyProd (gs.map fun pd => (pd.1, pd.2 * e)) = polyProd gs ^ e :=
  prodIn_map_mul e gs

/-! ### The value -/

/-- Evaluating factors with nonzero bases from an accumulator multiplies it by their
product. -/
theorem foldlM_value : ∀ (gs : List (GF2Poly × Nat)) (c : GF2Poly), (∀ pe ∈ gs, pe.1.bits ≠ 0) →
    ∃ v : GF2Poly, gs.foldlM (fun n (pe : GF2Poly × Nat) => FactorBase.mul n <$>
      FactorBase.pow pe.1 pe.2) c = .ok v ∧ v.toPoly = c.toPoly * polyProd gs :=
  fun gs c hne => Factorization.foldlM_value meaning_toPoly gs c fun pe hpe =>
    (pow_poly_eq_ok (Or.inl (hne pe hpe))).imp fun _ => And.left

/-- **The value of a factorization.**  Without a trivial factor and with nonzero bases, a
factorization evaluates to the pattern of its product, and `unfactor` gives it when there is a
factor. -/
theorem unfactor_eq_ok {F : Factors} {f : GF2Poly} (htriv : F.trivial = none)
    (hne : ∀ pe ∈ F.factors, pe.1.bits ≠ 0) (hprod : polyProd F.factors = f.toPoly)
    (hnil : F.factors ≠ []) : F.value = .ok f ∧ F.unfactor = .ok f := by
  obtain ⟨v, hv, hvpoly⟩ := foldlM_value F.factors one hne
  have hvf : v = f := by
    apply toPoly_injective
    rw [hvpoly, ← hprod, show one.toPoly = 1 from toPoly_one, one_mul]
  have hvalue : F.value = .ok f := by
    rw [value, htriv, ← hvf]
    exact hv
  refine ⟨hvalue, ?_⟩
  rw [unfactor, requireNonempty, if_neg (by simp [hnil])]
  exact hvalue

end FiniteRings.GF2Poly
