import Mathlib
import FiniteRings.Proofs.Arith.PrimeFactorization
import FiniteRings.Proofs.Order.Generator

/-!
# Euler's totient, counted four ways

The library counts the residues prime to `n` in four places:

* `totientWith` starts from `n` and, for each prime `p` of the factorization, divides by `p` and
  multiplies by `p - 1`;
* `IntResidue.units n` lists the residues `0, …, n - 1` prime to `n`;
* `slowTotient` and `totientCount` count the `1 ≤ a < n` prime to `n`, with the greatest common
  divisor taken in either order.

All four are Euler's `φ(n)` from `n = 2` on (`totientWith_eq_card_units`). At `n = 1` the two
counts that start at `1` give `0`: they leave out the residue `0`, which is prime to `1`, while the
list of units holds it and the product gives `φ(1) = 1`.

The product divides before it multiplies, and each division is exact: before the step for the
`k`-th prime `p`, the running value is `n` with the first `k` prime powers `q ^ e` replaced by
`q ^ (e - 1) * (q - 1)`, and the power of `p` itself is still whole (`foldl_take_dvd`).
-/

namespace FiniteRings.Arith

/-- Euler's totient counts the `1 ≤ a < n` prime to `n`, for `n ≥ 2`: the residue `0` is prime
to no such `n`. -/
theorem totient_eq_count_from_one {n : Nat} (h : 2 ≤ n) :
    n.totient = ((List.range' 1 (n - 1)).filter fun a => n.Coprime a).length := by
  have hrange : List.range n = 0 :: List.range' 1 (n - 1) := by
    obtain ⟨k, rfl⟩ : ∃ k, n = k + 1 := ⟨n - 1, by omega⟩
    simp [List.range_eq_range', List.range'_succ]
  have hzero : ¬n.Coprime 0 := by
    rw [Nat.coprime_zero_right]
    omega
  rw [Nat.totient_eq_card_coprime]
  show ((List.range n).filter fun a => n.Coprime a).length = _
  rw [hrange, List.filter_cons, if_neg (by simpa using hzero)]

/-- The count of `1 ≤ a < n` with `gcd a n = 1` is Euler's totient, for `n ≥ 2`. -/
theorem slowTotient_eq {n : Nat} (h : 2 ≤ n) : slowTotient n = n.totient := by
  rw [totient_eq_count_from_one h, slowTotient, Int.toNat_natCast]
  congr 1
  refine List.filter_congr fun a _ => ?_
  rw [decide_eq_decide, IntResidue.gcd_natCast_eq_one_iff, Nat.coprime_comm]

/-- The count of `1 ≤ i < n` with `gcd n i = 1` is Euler's totient, for `n ≥ 2`. -/
theorem totientCount_eq {n : Nat} (h : 2 ≤ n) : totientCount n = n.totient := by
  rw [totient_eq_count_from_one h, totientCount, if_neg (by omega), Int.toNat_natCast]
  congr 1
  refine List.filter_congr fun a _ => ?_
  rw [decide_eq_decide, IntResidue.gcd_natCast_eq_one_iff]

/-- The units among the residues modulo `n` are as many as Euler's totient says. -/
theorem units_length (n : Nat) : (IntResidue.units n).length = n.totient := by
  rcases Nat.eq_zero_or_pos n with rfl | hn
  · rfl
  have hpos : (0 : Int) < n := by exact_mod_cast hn
  rw [IntResidue.units, IntResidue.elements, dif_pos hpos, List.filter_map, List.length_map,
    Int.toNat_natCast, Nat.totient_eq_card_coprime]
  show _ = ((List.range n).filter fun a => n.Coprime a).length
  congr 1
  refine List.filter_congr fun a ha => ?_
  have ha : a < n := List.mem_range.1 ha
  -- the residue of `a < n` is `a` itself
  have hres : (IntResidue.reduce a n hpos).residue = a := Int.emod_eq_of_lt (by omega) (by omega)
  simp only [Function.comp, IntResidue.isUnit, hres]
  show (Arith.gcd a n == 1) = decide (n.Coprime a)
  rw [Bool.eq_iff_iff, beq_iff_eq, decide_eq_true_iff, IntResidue.gcd_natCast_eq_one_iff,
    Nat.coprime_comm]

/-- Before the step for the `k`-th prime, the running value of the product is still a multiple of
that prime: the first `k` steps have divided out one power of each earlier prime only. -/
theorem foldl_take_dvd {n : Nat} {fs : List (Nat × Nat)} (hfs : PrimeFactors n fs) {k : Nat}
    (hk : k < fs.length) :
    ((fs[k].1 : Nat) : Int) ∣
      ((castFactors fs).take k).foldl (fun t pe => t.fdiv pe.1 * (pe.1 - 1)) (n : Int) := by
  have hpos : ∀ pe ∈ fs.take k, 0 < pe.1 ∧ 0 < pe.2 := fun pe hpe =>
    ⟨(hfs.prime pe (List.mem_of_mem_take hpe)).pos, hfs.pos pe (List.mem_of_mem_take hpe)⟩
  -- `n` is the product of the later prime powers times the earlier ones
  have hsplit : (n : Int) = (((fs.drop k).map fun pe => pe.1 ^ pe.2).prod : Nat) *
      (((fs.take k).map fun pe => pe.1 ^ pe.2).prod : Nat) := by
    rw [← Nat.cast_mul, Nat.mul_comm, List.map_drop, List.map_take, List.prod_take_mul_prod_drop,
      hfs.prod]
  rw [castFactors, ← List.map_take, ← castFactors, hsplit, foldl_fdiv_mul _ _ hpos]
  apply Dvd.dvd.mul_right
  rw [List.drop_eq_getElem_cons hk, List.map_cons, List.prod_cons, Nat.cast_mul]
  apply Dvd.dvd.mul_right
  exact_mod_cast dvd_pow_self _ (hfs.pos _ (List.getElem_mem hk)).ne'

/-- **Euler's totient.**  For `n ≥ 1` and a primality test that calls no composite number up to
`n` prime, the totient computed from the factorization is the number of units modulo `n`, which is
the number of `0 ≤ a < n` with `gcd a n = 1`; each floor division of its product loop is exact;
and from `n = 2` on it agrees with both counts of the `1 ≤ a < n` prime to `n`. -/
theorem totientWith_eq_card_units {isPrime : Nat → Bool} {n : Nat} (hn : 0 < n)
    (hP : SoundUpTo isPrime n) :
    totientWith isPrime n = (IntResidue.units n).length ∧
      (IntResidue.units n).length = ((Finset.range n).filter fun a => Nat.gcd a n = 1).card ∧
      (∀ k (hk : k < (factorWith isPrime n).factors.length),
        (factorWith isPrime n).factors[k].1 ∣
          ((factorWith isPrime n).factors.take k).foldl
            (fun t pe => t.fdiv pe.1 * (pe.1 - 1)) (n : Int)) ∧
      (2 ≤ n → totientWith isPrime n = slowTotient n ∧ totientWith isPrime n = totientCount n) := by
  have htot := totientWith_eq hn hP
  obtain ⟨fs, hfs, hF, -⟩ := factorWith_of_pos hn hP
  -- the factors in the loop are those of the prime factorization `fs`
  have hexact : ∀ xs : List (Int × Nat), xs = castFactors fs → ∀ k (hk : k < xs.length),
      xs[k].1 ∣ (xs.take k).foldl (fun t pe => t.fdiv pe.1 * (pe.1 - 1)) (n : Int) := by
    rintro xs rfl k hk
    have hk' : k < fs.length := by simpa [castFactors] using hk
    simpa [castFactors] using foldl_take_dvd hfs hk'
  refine ⟨by rw [htot, units_length], ?_, hexact _ hF, fun h2 => ?_⟩
  · rw [units_length, Nat.totient_eq_card_coprime]
    congr 1
    ext a
    simp only [Finset.mem_filter, Nat.Coprime, Nat.gcd_comm]
  · rw [htot, slowTotient_eq h2, totientCount_eq h2]
    exact ⟨rfl, rfl⟩

/-- Twelve with the exact primality test: `φ(12) = 4`, counted every way. -/
theorem totientWith_twelve :
    totientWith decidePrime 12 = (IntResidue.units 12).length ∧
      (IntResidue.units 12).length = ((Finset.range 12).filter fun a => Nat.gcd a 12 = 1).card ∧
      (∀ k (hk : k < (factorWith decidePrime 12).factors.length),
        (factorWith decidePrime 12).factors[k].1 ∣
          ((factorWith decidePrime 12).factors.take k).foldl
            (fun t pe => t.fdiv pe.1 * (pe.1 - 1)) 12) ∧
      (2 ≤ 12 → totientWith decidePrime 12 = slowTotient 12 ∧
        totientWith decidePrime 12 = totientCount 12) :=
  totientWith_eq_card_units (n := 12) (by decide) (soundUpTo_decidePrime _)

end FiniteRings.Arith
