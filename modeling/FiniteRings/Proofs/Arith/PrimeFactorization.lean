import Mathlib
import FiniteRings.Proofs.Arith.Divisors

/-!
# The factorization of an integer is its prime factorization

A prime factorization of `n` (`PrimeFactors`) is unique: its primes are those that divide `n`, in
increasing order, and each comes with its multiplicity `n.factorization p`
(`PrimeFactors.eq_primeFactorPairs`). The multiplicities are read off the product one prime at a
time, since the first prime of the list divides none of the later factors.

Trial division finds a prime factorization of every `|n| ≥ 2` as long as its primality test calls
no composite number prime (`factorWith_spec`). What it returns is therefore fixed by `n` alone: the
answers of the test only decide when the loop stops, never what it has found by then
(`factorWith_eq_primeFactorPairs`).
-/

namespace FiniteRings.Arith

open Factorization

/-- The primes dividing `n` in increasing order, each with its multiplicity in `n`. -/
def primeFactorPairs (n : Nat) : List (Nat × Nat) :=
  (n.primeFactors.sort (· ≤ ·)).map fun p => (p, n.factorization p)

theorem primeFactorPairs_of_le_one {n : Nat} (h : n ≤ 1) : primeFactorPairs n = [] := by
  rcases Nat.le_one_iff_eq_zero_or_eq_one.1 h with rfl | rfl <;> simp [primeFactorPairs]

/-! ### Uniqueness of prime factorizations -/

theorem PrimeFactors.ne_zero {n : Nat} {fs : List (Nat × Nat)} (h : PrimeFactors n fs) : n ≠ 0 := by
  rw [← h.prod]
  refine List.prod_ne_zero fun h0 => ?_
  obtain ⟨pe, hpe, hzero⟩ := List.mem_map.1 h0
  exact pow_ne_zero _ (h.prime pe hpe).ne_zero hzero

/-- Each prime of a prime factorization comes with its multiplicity in the number. -/
theorem PrimeFactors.factorization_eq : ∀ {n : Nat} {fs : List (Nat × Nat)}, PrimeFactors n fs →
    ∀ pe ∈ fs, n.factorization pe.1 = pe.2
  | _, [], _ => by simp
  | n, (p, e) :: fs, h => by
    have hp : p.Prime := h.prime (p, e) List.mem_cons_self
    have he : 0 < e := h.pos (p, e) List.mem_cons_self
    have hfac : n.factorization =
        Finsupp.single p e + (fs.map fun pe : Nat × Nat => pe.1 ^ pe.2).prod.factorization := by
      rw [← h.prod, List.map_cons, List.prod_cons,
        Nat.factorization_mul (pow_ne_zero _ hp.ne_zero) h.tail.ne_zero, hp.factorization_pow]
    intro pe hpe
    rcases List.mem_cons.1 hpe with rfl | hpe
    · -- the first prime divides none of the later factors
      have hndvd : ¬p ∣ (fs.map fun pe : Nat × Nat => pe.1 ^ pe.2).prod :=
        (Nat.Prime.coprime_iff_not_dvd hp).1
          (Nat.Coprime.coprime_dvd_left (dvd_pow_self p he.ne') h.coprime_head)
      simp [hfac, Nat.factorization_eq_zero_of_not_dvd hndvd]
    · have hlt : p < pe.1 := (List.pairwise_cons.1 h.increasing).1 pe hpe
      rw [hfac, Finsupp.add_apply, Finsupp.single_eq_of_ne (by omega), zero_add]
      exact h.tail.factorization_eq pe hpe

/-- The primes of a prime factorization are the primes dividing the number. -/
theorem PrimeFactors.toFinset_eq {n : Nat} {fs : List (Nat × Nat)} (h : PrimeFactors n fs) :
    (fs.map Prod.fst).toFinset = n.primeFactors := by
  ext q
  simp only [List.mem_toFinset, List.mem_map, Nat.mem_primeFactors]
  constructor
  · rintro ⟨⟨q, e⟩, hqe, rfl⟩
    have hq := h.prime _ hqe
    exact ⟨hq, (h.dvd_iff hq).2 ⟨e, hqe⟩, h.ne_zero⟩
  · rintro ⟨hq, hdvd, -⟩
    obtain ⟨e, he⟩ := (h.dvd_iff hq).1 hdvd
    exact ⟨(q, e), he, rfl⟩

/-- **Uniqueness.**  A prime factorization of `n` is the list of the primes dividing `n` in
increasing order with their multiplicities. -/
theorem PrimeFactors.eq_primeFactorPairs {n : Nat} {fs : List (Nat × Nat)} (h : PrimeFactors n fs) :
    fs = primeFactorPairs n := by
  have hinc : (fs.map Prod.fst).Pairwise (· < ·) := List.pairwise_map.2 h.increasing
  have hsort : n.primeFactors.sort (· ≤ ·) = fs.map Prod.fst := by
    rw [← h.toFinset_eq]
    exact (List.toFinset_sort (· ≤ ·) hinc.nodup).2 (hinc.imp le_of_lt)
  rw [primeFactorPairs, hsort, List.map_map]
  conv_lhs => rw [← List.map_id fs]
  refine List.map_congr_left fun pe hpe => ?_
  simp [h.factorization_eq pe hpe]

/-! ### What trial division returns -/

/-- **Factoring integers.**  For every integer `n` and every primality test that calls no
composite number up to `|n|` prime, the factorization of `n` has the trivial factor `n` for
`n ∈ {-1, 0, 1}`, and otherwise `-1` for negative `n` and none for positive `n`; its factors are
the primes dividing `|n|`, strictly increasing, each with its multiplicity; and it multiplies out
to `n`. The right-hand side does not mention the test, so every such test gives the same
factorization. -/
theorem factorWith_eq_primeFactorPairs {isPrime : Nat → Bool} (n : Int)
    (hP : SoundUpTo isPrime n.natAbs) :
    factorWith isPrime n =
        ⟨if -1 ≤ n ∧ n ≤ 1 then some n else if n < 0 then some (-1) else none,
          castFactors (primeFactorPairs n.natAbs)⟩ ∧
      (factorWith isPrime n).factors.Pairwise (fun a b => a.1 < b.1) ∧
      (factorWith isPrime n).unfactor = .ok n := by
  by_cases hsmall : -1 ≤ n ∧ n ≤ 1
  · have hF : factorWith isPrime n = ⟨some n, []⟩ := by
      rw [factorWith, if_pos hsmall]
      rfl
    refine ⟨?_, by simp [hF], by rw [hF]; rfl⟩
    rw [hF, if_pos hsmall, primeFactorPairs_of_le_one (by omega)]
    rfl
  · obtain ⟨fs, hF, hfs⟩ := factorWith_spec (n := n) (by omega) hP
    -- `|n| ≥ 2` has a prime factor, so the factorization holds something
    have hne : fs ≠ [] := by
      rintro rfl
      have := hfs.prod
      simp at this
      omega
    refine ⟨by rw [hF, if_neg hsmall, ← hfs.eq_primeFactorPairs], ?_, ?_⟩
    · rw [hF, castFactors, List.pairwise_map]
      exact hfs.increasing.imp fun h => Int.ofNat_lt.2 h
    · rw [hF, unfactor, requireNonempty, if_neg (by simp [castFactors, hne])]
      show Factorization.value ⟨_, castFactors fs⟩ = _
      rw [value_castFactors_mul _ hfs]
      congr 1
      split <;> simp only [Option.getD_some, Option.getD_none] <;> omega

/-- Minus sixty with the exact primality test: `-1 · 2² · 3 · 5`. -/
theorem factorWith_neg_sixty :
    factorWith decidePrime (-60) = ⟨some (-1), castFactors (primeFactorPairs 60)⟩ ∧
      (factorWith decidePrime (-60)).factors.Pairwise (fun a b => a.1 < b.1) ∧
      (factorWith decidePrime (-60)).unfactor = .ok (-60) := by
  obtain ⟨hF, hinc, hval⟩ := factorWith_eq_primeFactorPairs (-60) (soundUpTo_decidePrime _)
  exact ⟨by simpa using hF, hinc, hval⟩

end FiniteRings.Arith
