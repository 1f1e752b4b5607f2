import Mathlib
import FiniteRings.Proofs.Bits.Span
import FiniteRings.Bits.Steps

/-!
# The kernel basis is a basis of the nullspace

The nullspace of a matrix is the subspace of `GF(2) ^ cols` of the vectors orthogonal to every
row; the product of a row with a vector is the parity of the ones they share, as `mulBits`
computes it (`vec_mem_nullspace_iff_parity`). Row reduction keeps the nullspace.

On a reduced echelon form a vector of the nullspace is fixed by its entries at the free columns,
the columns that lead no row (`Reduced.eq_of_entryAt_free`). The rows that `kernelBasis`
returns, one for each free column, have a one at their own free column and zeros at the others.
So they are independent, and every vector of the nullspace is the sum of those whose free column
it has a one at (`kernelBasis_basis`).
-/

namespace FiniteRings.BitMatrix

open GF2Poly (ofBit)

/-- The nullspace of rows of width `w`: the vectors of `GF(2) ^ w` orthogonal to every row. -/
def nullspace (w : Nat) (rows : List Int) : Submodule (ZMod 2) (Fin w → ZMod 2) where
  carrier := {x | ∀ r ∈ rows, vec w r ⬝ᵥ x = 0}
  add_mem' {x y} hx hy r hr := by rw [dotProduct_add, hx r hr, hy r hr, add_zero]
  zero_mem' r _ := dotProduct_zero _
  smul_mem' c x hx r hr := by rw [dotProduct_smul, hx r hr, smul_zero]

section Nullspace

variable {w : Nat} {rows : List Int}

theorem mem_nullspace {x : Fin w → ZMod 2} :
    x ∈ nullspace w rows ↔ ∀ r ∈ rows, vec w r ⬝ᵥ x = 0 := Iff.rfl

theorem dot_eq_dotProduct (w : Nat) (r : Int) (v : Nat) : dot w r v = vec w r ⬝ᵥ vec w v := by
  rw [dot, dotProduct, ← Fin.sum_univ_eq_sum_range]
  rfl

theorem vec_mem_nullspace_iff {v : Nat} : vec w v ∈ nullspace w rows ↔ Annihilates w rows v := by
  simp only [mem_nullspace, Annihilates, dot_eq_dotProduct]

theorem mem_nullspace_iff_annihilates {x : Fin w → ZMod 2} :
    x ∈ nullspace w rows ↔ Annihilates w rows (toBits x) := by
  rw [← vec_mem_nullspace_iff, vec_toBits]

end Nullspace

/-- The parity of a number below `2 ^ k` is the sum of its bits below `k`. -/
theorem ofBit_parity : ∀ {k n : Nat}, n < 2 ^ k →
    ofBit (parity n) = ∑ j ∈ Finset.range k, ofBit (n.testBit j)
  | 0, n, hn => by
    obtain rfl : n = 0 := by simpa using hn
    simp [parity]
  | k + 1, n, hn => by
    rw [Finset.sum_range_succ']
    simp only [Nat.testBit_add_one]
    rw [← ofBit_parity (n := n / 2) (by rw [Nat.pow_succ] at hn; omega), Nat.testBit_zero, parity]
    split
    · next h0 => simp [h0, parity]
    · rw [GF2Poly.ofBit_xor, add_comm]
      congr 2

/-- The product of a row with a vector is the parity of the ones they share below the width. -/
theorem dot_eq_ofBit_parity (w : Nat) (r : Int) (v : Nat) :
    dot w r v = ofBit (parity ((r % Int.pow 2 w).toNat &&& v)) := by
  have hlt : (r % Int.pow 2 w).toNat &&& v < 2 ^ w := by
    rw [Nat.and_comm]
    exact Nat.and_lt_two_pow v (toBits_vec w r ▸ toBits_lt (vec w r))
  rw [ofBit_parity hlt, dot]
  refine Finset.sum_congr rfl fun j hj => ?_
  rw [Nat.testBit_and, testBit_emod_two_pow, decide_eq_true (Finset.mem_range.1 hj), Bool.true_and]
  cases Signed.testBit r j <;> cases v.testBit j <;> simp

/-- **The nullspace in the matrix's own terms.**  A vector is in the nullspace exactly when, for
every masked row, the ones it shares with the vector are even in number, which is when the
product `m * v` is zero. -/
theorem vec_mem_nullspace_iff_parity (m : BitMatrix) (v : Nat) :
    vec m.cols v ∈ nullspace m.cols m.rows ↔ ∀ r ∈ m.maskedRows, parity (r &&& v) = false := by
  rw [vec_mem_nullspace_iff, Annihilates, maskedRows, bitRows, List.map_map, List.forall_mem_map]
  refine forall₂_congr fun r _ => ?_
  rw [dot_eq_ofBit_parity, GF2Poly.ofBit_eq_zero]
  rfl

/-- Row reduction keeps the nullspace. -/
theorem nullspace_echelon (m : BitMatrix) :
    nullspace m.cols m.echelon.rows = nullspace m.cols m.rows := by
  ext x
  rw [mem_nullspace_iff_annihilates, mem_nullspace_iff_annihilates]
  exact annihilates_echelon m _

/-! ### The rows of the kernel basis -/

section Reduced

variable {w : Nat} {pivots : List (Int × Nat)} {zeros : List Int}

/-- Vectors of the nullspace of a reduced echelon form with the same free entries are equal. -/
theorem Reduced.eq_of_entryAt_free (h : Reduced w pivots zeros) {x y : Fin w → ZMod 2}
    (hx : x ∈ nullspace w (pivots.map Prod.fst ++ zeros))
    (hy : y ∈ nullspace w (pivots.map Prod.fst ++ zeros))
    (hfree : ∀ f ∈ freeCols w pivots, entryAt w f x = entryAt w f y) : x = y := by
  rw [← vec_toBits x, ← vec_toBits y, h.eq_of_free (toBits_lt x) (toBits_lt y)
    (mem_nullspace_iff_annihilates.1 hx) (mem_nullspace_iff_annihilates.1 hy) fun f hf => ?_]
  have hfw : f < w := Finset.mem_range.1 (Finset.mem_filter.1 hf).1
  rw [testBit_toBits x hfw, testBit_toBits y hfw, hfree f hf]

theorem Reduced.vec_kernelRows_mem (h : Reduced w pivots zeros) {r : Int}
    (hr : r ∈ kernelRows w pivots) : vec w r ∈ nullspace w (pivots.map Prod.fst ++ zeros) := by
  obtain ⟨f, hf, rfl⟩ := List.mem_map.1 hr
  exact vec_mem_nullspace_iff.2 (h.solution_mem (Finset.singleton_subset_iff.2 (mem_freeList.1 hf)))

theorem length_kernelRows (w : Nat) (pivots : List (Int × Nat)) :
    (kernelRows w pivots).length = (freeList w pivots).length := List.length_map _

/-- Row `l` of the kernel basis has a one at the free column `k` when `k = l`, and a zero
otherwise. -/
theorem entryAt_kernelRows {k l : Nat}
    (hk : k < (freeList w pivots).length) (hl : l < (kernelRows w pivots).length) :
    entryAt w (freeList w pivots)[k] (vec w (kernelRows w pivots)[l]) =
      if k = l then 1 else 0 := by
  have hfree : (freeList w pivots)[k] ∈ freeCols w pivots := mem_freeList.1 (List.getElem_mem hk)
  have hkw : (freeList w pivots)[k] < w := Finset.mem_range.1 (Finset.mem_filter.1 hfree).1
  have hl' : l < (freeList w pivots).length := length_kernelRows w pivots ▸ hl
  have hrow : (kernelRows w pivots)[l] = (solution w pivots {(freeList w pivots)[l]} : Int) := by
    simp only [kernelRows, List.getElem_map]
  rw [entryAt_vec hkw, hrow, Word.testBit_natCast, testBit_solution_free hfree]
  by_cases hkl : k = l
  · simp [hkl]
  · have hne : (freeList w pivots)[k] ≠ (freeList w pivots)[l] :=
      fun e => hkl ((nodup_freeList w pivots).getElem_inj_iff.1 e)
    simp [hkl, hne]

/-- The rows of the kernel basis are linearly independent: each is alone in having a one at its
free column. -/
theorem linearIndependent_kernelRows :
    LinearIndependent (ZMod 2)
      fun i : Fin (kernelRows w pivots).length => vec w (kernelRows w pivots)[i] := by
  refine linearIndependent_of_entryAt (fun i => (freeList w pivots).getD i 0) fun i j => ?_
  have hi : (i : Nat) < (freeList w pivots).length := length_kernelRows w pivots ▸ i.2
  rw [List.getD_eq_getElem _ _ hi, Fin.getElem_fin, entryAt_kernelRows hi j.2]
  exact if_congr Fin.ext_iff.symm rfl rfl

/-- **The kernel basis spans the nullspace.**  A vector of the nullspace is the sum of the rows
at whose free columns it has a one. -/
theorem Reduced.exists_sum_kernelRows (h : Reduced w pivots zeros) {x : Fin w → ZMod 2}
    (hx : x ∈ nullspace w (pivots.map Prod.fst ++ zeros)) :
    ∃ s : Finset (Fin (kernelRows w pivots).length),
      x = ∑ i ∈ s, vec w (kernelRows w pivots)[i] := by
  set s := Finset.univ.filter fun i : Fin (kernelRows w pivots).length =>
    entryAt w ((freeList w pivots).getD i 0) x = 1
  refine ⟨s, h.eq_of_entryAt_free hx
    (sum_mem fun i _ => h.vec_kernelRows_mem (List.getElem_mem _)) fun f hf => ?_⟩
  obtain ⟨k, hk, rfl⟩ := List.getElem_of_mem (mem_freeList.2 hf)
  set k' : Fin (kernelRows w pivots).length := ⟨k, length_kernelRows w pivots ▸ hk⟩
  -- the sum has a one at the free column `k` exactly when row `k` is one of its terms
  have hsum : entryAt w (freeList w pivots)[k] (∑ i ∈ s, vec w (kernelRows w pivots)[i]) =
      if k' ∈ s then 1 else 0 := by
    rw [map_sum, ← Finset.sum_ite_eq s k' fun _ => (1 : ZMod 2)]
    refine Finset.sum_congr rfl fun i _ => ?_
    rw [Fin.getElem_fin, entryAt_kernelRows hk i.2]
    exact if_congr (by rw [Fin.ext_iff]) rfl rfl
  have hmem : k' ∈ s ↔ entryAt w (freeList w pivots)[k] x = 1 := by
    rw [Finset.mem_filter, List.getD_eq_getElem _ _ hk]
    exact and_iff_right (Finset.mem_univ _)
  rw [hsum]
  by_cases hx1 : entryAt w (freeList w pivots)[k] x = 1
  · rw [if_pos (hmem.2 hx1), hx1]
  · rw [if_neg (mt hmem.1 hx1)]
    -- an entry of `GF(2)` that is not one is zero
    revert hx1
    generalize entryAt w (freeList w pivots)[k] x = a
    revert a
    decide

end Reduced

/-- **The kernel basis.**  The nullspace holds the vectors that share an even number of ones
with every masked row. `kernelBasis` returns nothing exactly when the rank is the number of
columns. Otherwise it returns a matrix of the same width with `cols - rank` rows, which lie in
the nullspace, are linearly independent, and give every vector of the nullspace as the sum of
some of them. The rank is the dimension of the span of the masked rows, and neither `rank` nor
`kernel_basis` changes the matrix. -/
theorem kernelBasis_basis (m : BitMatrix) :
    (∀ v : Nat, vec m.cols v ∈ nullspace m.cols m.rows ↔
      ∀ r ∈ m.maskedRows, parity (r &&& v) = false) ∧
    ∃ res, m.kernelBasis = .ok res ∧
    (res = none ↔ m.rank = m.cols) ∧
    (∀ b, res = some b → b.cols = m.cols ∧ b.numRows = m.cols - m.rank ∧
      (∀ r ∈ b.rows, vec m.cols r ∈ nullspace m.cols m.rows) ∧
      LinearIndependent (ZMod 2) (fun i : Fin b.rows.length => vec m.cols b.rows[i]) ∧
      ∀ x ∈ nullspace m.cols m.rows, ∃ s : Finset (Fin b.rows.length),
        x = ∑ i ∈ s, vec m.cols b.rows[i]) ∧
    m.rank =
      Module.finrank (ZMod 2) (rowSpan m.cols (m.maskedRows.map fun n : Nat => (n : Int))) ∧
    (m.apply .rank).2 = m ∧ (m.apply .kernelBasis).2 = m := by
  refine ⟨vec_mem_nullspace_iff_parity m, ?_⟩
  obtain ⟨pivots, zeros, heq, hred⟩ := echelon_reduced m
  have hrank : m.rank = pivots.length := by
    rw [rank_eq_leadingNonzero_echelon, leadingNonzero_eq heq hred.toStaircase]
  have hle := rank_le_cols m
  have hnull : nullspace m.cols m.rows = nullspace m.cols (pivots.map Prod.fst ++ zeros) := by
    rw [← heq, nullspace_echelon]
  have hdim : m.rank =
      Module.finrank (ZMod 2) (rowSpan m.cols (m.maskedRows.map fun n : Nat => (n : Int))) := by
    rw [rowSpan_maskedRows, rank_eq_finrank]
  rw [kernelBasis_eq heq hred]
  by_cases h0 : m.cols - pivots.length = 0
  · refine ⟨none, if_pos h0, ⟨fun _ => by omega, fun _ => rfl⟩, ?_, hdim, rfl, rfl⟩
    intro b hb
    cases hb
  · rw [if_neg h0]
    obtain ⟨b, hb, hbcols, hbrows⟩ := @ofRows_eq_ok m.cols (kernelRows m.cols pivots)
      (hred.kernelRows_ne_nil h0) (by exact_mod_cast m.cols_pos) (by exact_mod_cast m.cols_le)
    rw [hb]
    refine ⟨some b, rfl, ⟨fun hnone => ?_, fun hfull => absurd (by omega) h0⟩, ?_, hdim, rfl, rfl⟩
    · cases hnone
    intro b' hb'
    obtain rfl := Option.some.inj hb'
    rw [hnull]
    -- the rows of `b` are the kernel rows
    obtain ⟨bc, brows, hbpos, hble, hbne⟩ := b
    subst hbrows
    refine ⟨by simpa using hbcols, ?_, fun r hr => hred.vec_kernelRows_mem hr,
      linearIndependent_kernelRows, fun x hx => hred.exists_sum_kernelRows hx⟩
    rw [numRows, length_kernelRows, hred.length_freeList, hrank]

end FiniteRings.BitMatrix
