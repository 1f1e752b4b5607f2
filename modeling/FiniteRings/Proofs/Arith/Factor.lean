import Mathlib
import FiniteRings.Arith.Factor

/-!
# Trial division finds the prime factorization

`factorWith isPrime n` divides out the candidates `2, 3, 5, 7, 9, …` in turn. Its primality test
only stops the loop early, so the factorization it returns is that of `n` as long as the test
calls no composite cofactor prime (`SoundUpTo`). A run keeps three facts:

* the factors found so far are below the current candidate, in increasing order;
* no prime below the candidate divides the cofactor, so a candidate that divides it is prime
  (`prime_of_dvd_of_min`): a composite candidate such as `9` never divides, since its prime
  factors are gone already;
* the cofactor times the factors found is the input.

A cofactor below the square of the candidate has no divisor left to find, so it is prime
(`prime_of_lt_mul_self`). Hence `factorWith` lists the primes of `n` in increasing order with
their multiplicities (`factorWith_spec`), and the totient computed from that list, dividing before
it multiplies, is Euler's (`totientWith_eq`).
-/

namespace FiniteRings.Arith

open Factorization

/-- The primality test calls no composite number up to `N` prime. -/
def SoundUpTo (isPrime : Nat → Bool) (N : Nat) : Prop :=
  ∀ n, n ≤ N → isPrime n = true → n.Prime

theorem SoundUpTo.mono {isPrime : Nat → Bool} {M N : Nat} (h : SoundUpTo isPrime N)
    (hMN : M ≤ N) : SoundUpTo isPrime M :=
  fun n hn => h n (le_trans hn hMN)

/-- The exact primality test, deciding `Nat.Prime`. -/
def decidePrime (n : Nat) : Bool := decide n.Prime

theorem soundUpTo_decidePrime (N : Nat) : SoundUpTo decidePrime N :=
  fun _ _ h => of_decide_eq_true h

/-- The factors as an integer factorization holds them. -/
def castFactors (fs : List (Nat × Nat)) : List (Int × Nat) := fs.map fun pe => ((pe.1 : Int), pe.2)

/-- `fs` lists primes in increasing order, each with a positive multiplicity, and their product
is `n`. -/
structure PrimeFactors (n : Nat) (fs : List (Nat × Nat)) : Prop where
  increasing : fs.Pairwise fun a b => a.1 < b.1
  prime : ∀ pe ∈ fs, pe.1.Prime
  pos : ∀ pe ∈ fs, 0 < pe.2
  prod : (fs.map fun pe => pe.1 ^ pe.2).prod = n

theorem primeFactors_one : PrimeFactors 1 [] :=
  ⟨List.Pairwise.nil, by simp, by simp, by simp⟩

/-! ### Dividing out one candidate -/

/-- `divideOut n p` splits a positive `n` into `m * p ^ e` with `p` not dividing `m`. -/
theorem divideOut_spec (n p : Nat) (hp : 2 ≤ p) (hn : 0 < n) :
    n = (divideOut n p hp).1 * p ^ (divideOut n p hp).2 ∧ ¬p ∣ (divideOut n p hp).1 := by
  induction n using divideOut.induct p hp with
  | case1 n h ih =>
    have hdvd : p ∣ n := Nat.dvd_of_mod_eq_zero h.2
    obtain ⟨heq, hndvd⟩ := ih (Nat.div_pos (Nat.le_of_dvd h.1 hdvd) (by omega))
    rw [divideOut, dif_pos h]
    refine ⟨?_, hndvd⟩
    show n = (divideOut (n / p) p hp).1 * p ^ ((divideOut (n / p) p hp).2 + 1)
    calc n = p * (n / p) := (Nat.mul_div_cancel' hdvd).symm
      _ = p * ((divideOut (n / p) p hp).1 * p ^ (divideOut (n / p) p hp).2) := by rw [← heq]
      _ = _ := by ring
  | case2 n h =>
    rw [divideOut, dif_neg h]
    exact ⟨by rw [pow_zero, Nat.mul_one], fun hdvd => h ⟨hn, Nat.mod_eq_zero_of_dvd hdvd⟩⟩

/-- A number above one with no prime factor below `p` and less than `p * p` is prime. -/
theorem prime_of_lt_mul_self {n p : Nat} (h1 : 1 < n) (hlt : n < p * p)
    (hmin : ∀ q, q.Prime → q ∣ n → p ≤ q) : n.Prime := by
  by_contra hnp
  have hsq := Nat.minFac_sq_le_self (by omega) hnp
  have hle := hmin _ (Nat.minFac_prime (by omega)) (Nat.minFac_dvd n)
  have : p * p ≤ n := le_trans (Nat.mul_le_mul hle hle) (by rw [← pow_two]; exact hsq)
  omega

/-- A candidate that divides a number with no prime factor below it is prime. -/
theorem prime_of_dvd_of_min {n p : Nat} (hp : 2 ≤ p) (hdvd : p ∣ n)
    (hmin : ∀ q, q.Prime → q ∣ n → p ≤ q) : p.Prime := by
  have hq := Nat.minFac_prime (show p ≠ 1 by omega)
  have hle := hmin _ hq (dvd_trans (Nat.minFac_dvd p) hdvd)
  rw [Nat.prime_def_minFac]
  exact ⟨hp, le_antisymm (Nat.minFac_le (by omega)) hle⟩

/-- Candidates are 2 and then odd. -/
def IsCandidate (p : Nat) : Prop := p = 2 ∨ p % 2 = 1

theorem isCandidate_nextCandidate {p : Nat} (h : IsCandidate p) : IsCandidate (nextCandidate p) := by
  unfold IsCandidate nextCandidate at *
  split <;> omega

/-- No prime lies strictly between a candidate and the next one. -/
theorem nextCandidate_le {p q : Nat} (hp : 2 ≤ p) (hc : IsCandidate p) (hq : q.Prime)
    (hlt : p < q) : nextCandidate p ≤ q := by
  unfold nextCandidate
  split
  · omega
  · -- `p + 1` is even and above 2
    by_contra hle
    have hq1 : q = p + 1 := by omega
    have heven : 2 ∣ q := Nat.dvd_of_mod_eq_zero (by unfold IsCandidate at hc; omega)
    have := (Nat.prime_dvd_prime_iff_eq Nat.prime_two hq).1 heven
    omega

/-! ### Inserting factors above all others -/

theorem insertSorted_of_lt (p : Int) (e : Nat) :
    ∀ fs : List (Int × Nat), (∀ pe ∈ fs, pe.1 < p) → insertSorted p e fs = fs ++ [(p, e)]
  | [], _ => rfl
  | (q, d) :: rest, h => by
    have hq : q < p := h (q, d) List.mem_cons_self
    rw [insertSorted, if_neg (by omega), if_neg (by simp [FactorBase.lt]; omega),
      insertSorted_of_lt p e rest fun pe hpe => h pe (List.mem_cons_of_mem _ hpe)]
    rfl

/-- A factor above all factors present goes to the end. -/
theorem insertFactor_of_lt (acc : Factorization Int) (p : Nat) {e : Nat} (he : 0 < e)
    (h : ∀ pe ∈ acc.factors, pe.1 < p) :
    acc.insertFactor p e = { acc with factors := acc.factors ++ castFactors [(p, e)] } := by
  rw [insertFactor, if_neg (by omega), Int.toNat_natCast, insertSorted_of_lt _ _ _ h]
  rfl

/-! ### The run -/

/-- **The trial-division invariant.**  From a candidate `p` with no prime below it dividing the
cofactor `n`, and factors below `p` found so far, the run appends the prime factors of `n` in
increasing order, all at least `p`. -/
theorem trialDivide_spec {isPrime : Nat → Bool} {N : Nat} (hP : SoundUpTo isPrime N)
    (n p : Nat) (hp : 2 ≤ p) (changed : Bool) (acc : Factorization Int)
    (hn : 0 < n) (hN : n ≤ N) (hc : IsCandidate p)
    (hmin : ∀ q, q.Prime → q ∣ n → p ≤ q) (hacc : ∀ pe ∈ acc.factors, pe.1 < p) :
    ∃ fs, trialDivide isPrime n p hp changed acc =
        { acc with factors := acc.factors ++ castFactors fs } ∧
      PrimeFactors n fs ∧ ∀ pe ∈ fs, p ≤ pe.1 := by
  induction n, p, hp, changed, acc using trialDivide.induct isPrime with
  | case1 n p hp changed acc h1 =>
    obtain rfl : n = 1 := by omega
    refine ⟨[], ?_, primeFactors_one, by simp⟩
    rw [trialDivide, if_pos h1]
    simp [castFactors]
  | case2 n p hp changed acc h1 hstop =>
    have hprime : n.Prime := by
      rcases hstop with hlt | ⟨-, htest⟩
      · exact prime_of_lt_mul_self (by omega) hlt hmin
      · exact hP n hN htest
    have hpn : p ≤ n := hmin n hprime dvd_rfl
    refine ⟨[(n, 1)], ?_, ⟨List.pairwise_singleton _ _, by simpa, by simp, by simp⟩,
      by simpa using hpn⟩
    rw [trialDivide, if_neg h1, dif_pos hstop]
    exact insertFactor_of_lt acc n Nat.one_pos fun pe hpe => by
      have := hacc pe hpe
      omega
  | case3 n p hp changed acc h1 hstop r acc' ih =>
    have hr : divideOut n p hp = r := rfl
    obtain ⟨hnr, hndvd⟩ := divideOut_spec n p hp hn
    rw [hr] at hnr hndvd
    have hr1 : 0 < r.1 := Nat.pos_of_ne_zero fun h0 => by rw [h0, Nat.zero_mul] at hnr; omega
    have hr1N : r.1 ≤ N := le_trans (hr ▸ divideOut_fst_le n p hp) hN
    -- the primes left in the cofactor are above `p`, hence at least the next candidate
    have hmin' : ∀ q, q.Prime → q ∣ r.1 → nextCandidate p ≤ q := by
      intro q hq hqd
      have hle := hmin q hq (dvd_trans hqd ⟨_, hnr⟩)
      refine nextCandidate_le hp hc hq (lt_of_le_of_ne hle ?_)
      rintro rfl
      exact hndvd hqd
    have hnext : p < nextCandidate p := by unfold nextCandidate; split <;> omega
    have hcand := isCandidate_nextCandidate hc
    by_cases he : 0 < r.2
    · have hpp : p.Prime := prime_of_dvd_of_min hp
        (by rw [hnr]; exact dvd_mul_of_dvd_right (dvd_pow_self p (by omega)) _) hmin
      have hins := insertFactor_of_lt acc p he hacc
      have hacc' : acc' = { acc with factors := acc.factors ++ castFactors [(p, r.2)] } :=
        (dif_pos he).trans hins
      obtain ⟨fs, hrun, hfs, hge⟩ := ih hr1 hr1N hcand hmin' (by
        simp only [hacc', castFactors, List.map_cons, List.map_nil, List.mem_append,
          List.mem_singleton]
        rintro pe (hpe | rfl)
        · have := hacc pe hpe
          omega
        · show (p : Int) < nextCandidate p
          exact_mod_cast hnext)
      refine ⟨(p, r.2) :: fs, ?_, ⟨?_, ?_, ?_, ?_⟩, ?_⟩
      · rw [hacc'] at hrun
        rw [trialDivide, if_neg h1, dif_neg hstop]
        simp only [hr, if_pos he, hins]
        refine hrun.trans ?_
        simp only [castFactors, List.map_cons, List.map_nil, List.append_assoc,
          List.singleton_append]
      · exact List.Pairwise.cons (fun b hb => by have := hge b hb; omega) hfs.increasing
      · simpa [hpp] using hfs.prime
      · simpa [he] using hfs.pos
      · rw [List.map_cons, List.prod_cons, hfs.prod, hnr, Nat.mul_comm]
      · simp only [List.mem_cons, forall_eq_or_imp, le_refl, true_and]
        exact fun pe hpe => le_trans (Nat.le_of_lt hnext) (hge pe hpe)
    · have hr1n : r.1 = n := hr ▸ divideOut_fst_eq n p hp (hr ▸ Nat.eq_zero_of_not_pos he)
      have hacc' : acc' = acc := dif_neg he
      obtain ⟨fs, hrun, hfs, hge⟩ := ih hr1 hr1N hcand hmin' (by
        rw [hacc']
        intro pe hpe
        have := hacc pe hpe
        omega)
      rw [hacc'] at hrun
      refine ⟨fs, ?_, hr1n ▸ hfs, fun pe hpe => le_trans (Nat.le_of_lt hnext) (hge pe hpe)⟩
      rw [trialDivide, if_neg h1, dif_neg hstop]
      simp only [hr, if_neg he]
      exact hrun

/-- **Factoring.**  For `|n| ≥ 2`, and a test that calls no composite number up to `|n|` prime,
the factorization holds the sign as trivial factor and the primes of `|n|` in increasing order,
each with its multiplicity. -/
theorem factorWith_spec {isPrime : Nat → Bool} {n : Int} (h2 : 2 ≤ n.natAbs)
    (hP : SoundUpTo isPrime n.natAbs) :
    ∃ fs, factorWith isPrime n = ⟨if n < 0 then some (-1) else none, castFactors fs⟩ ∧
      PrimeFactors n.natAbs fs := by
  have hstart : ∀ acc : Factorization Int, acc.factors = [] → ∃ fs,
      trialDivide isPrime n.natAbs 2 (Nat.le_refl 2) true acc =
        { acc with factors := castFactors fs } ∧ PrimeFactors n.natAbs fs := by
    intro acc hacc
    obtain ⟨fs, hrun, hfs, -⟩ := trialDivide_spec hP n.natAbs 2 (Nat.le_refl 2) true acc
      (by omega) le_rfl (Or.inl rfl) (fun q hq _ => hq.two_le) (by simp [hacc])
    exact ⟨fs, by rw [hrun, hacc, List.nil_append], hfs⟩
  rw [factorWith, if_neg (by omega)]
  by_cases hneg : n < 0
  · obtain ⟨fs, hrun, hfs⟩ := hstart (empty.insertTrivial (some (-1))) rfl
    exact ⟨fs, by simp only [if_pos hneg, hrun]; rfl, hfs⟩
  · obtain ⟨fs, hrun, hfs⟩ := hstart empty rfl
    exact ⟨fs, by simp only [if_neg hneg, hrun]; rfl, hfs⟩

theorem factorWith_one (isPrime : Nat → Bool) : factorWith isPrime 1 = ⟨some 1, []⟩ := rfl

/-! ### The totient -/

/-- A prime of the list divides none of the later factors. -/
theorem PrimeFactors.coprime_head {n p e : Nat} {fs : List (Nat × Nat)}
    (h : PrimeFactors n ((p, e) :: fs)) :
    Nat.Coprime (p ^ e) (fs.map fun pe => pe.1 ^ pe.2).prod := by
  have hp : p.Prime := h.prime (p, e) List.mem_cons_self
  apply Nat.Coprime.pow_left
  rw [Nat.Prime.coprime_iff_not_dvd hp, Prime.dvd_prod_iff hp.prime]
  rintro ⟨_, hmem, hdvd⟩
  obtain ⟨⟨q, d⟩, hqd, rfl⟩ := List.mem_map.1 hmem
  have hq : q.Prime := h.prime (q, d) (List.mem_cons_of_mem _ hqd)
  have hpq : p = q := (Nat.prime_dvd_prime_iff_eq hp hq).1 (hp.dvd_of_dvd_pow hdvd)
  have hlt := (List.pairwise_cons.1 h.increasing).1 (q, d) hqd
  simp only at hlt
  omega

theorem PrimeFactors.tail {n p e : Nat} {fs : List (Nat × Nat)}
    (h : PrimeFactors n ((p, e) :: fs)) : PrimeFactors (fs.map fun pe => pe.1 ^ pe.2).prod fs :=
  ⟨(List.pairwise_cons.1 h.increasing).2, fun pe hpe => h.prime pe (List.mem_cons_of_mem _ hpe),
    fun pe hpe => h.pos pe (List.mem_cons_of_mem _ hpe), rfl⟩

/-- Euler's totient is multiplicative over the prime powers of the factorization. -/
theorem PrimeFactors.totient_eq : ∀ {n : Nat} {fs : List (Nat × Nat)}, PrimeFactors n fs →
    n.totient = (fs.map fun pe => pe.1 ^ (pe.2 - 1) * (pe.1 - 1)).prod
  | n, [], h => by rw [← h.prod]; simp
  | n, (p, e) :: fs, h => by
    have hp : p.Prime := h.prime (p, e) List.mem_cons_self
    have he : 0 < e := h.pos (p, e) List.mem_cons_self
    rw [← h.prod, List.map_cons, List.prod_cons, Nat.totient_mul h.coprime_head,
      Nat.totient_prime_pow hp he, h.tail.totient_eq, List.map_cons, List.prod_cons]

/-- Dividing by each prime before multiplying by one less is exact along the list. -/
theorem foldl_fdiv_mul (c : Int) : ∀ fs : List (Nat × Nat), (∀ pe ∈ fs, 0 < pe.1 ∧ 0 < pe.2) →
    (castFactors fs).foldl (fun t pe => t.fdiv pe.1 * (pe.1 - 1))
        (c * ((fs.map fun pe => pe.1 ^ pe.2).prod : Nat)) =
      c * ((fs.map fun pe => pe.1 ^ (pe.2 - 1) * (pe.1 - 1)).prod : Nat)
  | [], _ => by simp [castFactors]
  | (p, e) :: fs, h => by
    obtain ⟨hp, he⟩ := h (p, e) List.mem_cons_self
    simp only at hp he
    have hpe : p ^ e = p ^ (e - 1) * p := by rw [← pow_succ]; congr 1; omega
    -- the first step divides out one `p` exactly
    have hstep : ∀ R : Nat, (c * ((p ^ e * R : Nat) : Int)).fdiv p * (p - 1) =
        (c * ((p ^ (e - 1) * (p - 1) : Nat) : Int)) * (R : Int) := by
      intro R
      rw [hpe]
      push_cast [Nat.one_le_iff_ne_zero.2 hp.ne']
      rw [show c * ((p : Int) ^ (e - 1) * p * R) = c * (p : Int) ^ (e - 1) * R * p by ring,
        Int.mul_fdiv_cancel _ (by exact_mod_cast hp.ne')]
      ring
    simp only [castFactors, List.map_cons, List.foldl_cons, List.prod_cons]
    rw [hstep, ← castFactors, foldl_fdiv_mul _ fs fun pe hpe => h pe (List.mem_cons_of_mem _ hpe)]
    push_cast
    ring

/-- **Euler's totient.**  For `n ≥ 1`, and a test that calls no composite number up to `n`
prime, the totient computed from the factorization is Euler's. -/
theorem totientWith_eq {isPrime : Nat → Bool} {n : Nat} (hn : 0 < n) (hP : SoundUpTo isPrime n) :
    totientWith isPrime n = n.totient := by
  rcases Nat.lt_or_ge n 2 with h1 | h2
  · obtain rfl : n = 1 := by omega
    rfl
  obtain ⟨fs, hF, hfs⟩ := @factorWith_spec isPrime n (by simpa using h2) (by simpa using hP)
  have hpos : ∀ pe ∈ fs, 0 < pe.1 ∧ 0 < pe.2 :=
    fun pe hpe => ⟨(hfs.prime pe hpe).pos, hfs.pos pe hpe⟩
  have hprod : (fs.map fun pe => pe.1 ^ pe.2).prod = n := by simpa using hfs.prod
  have hfold := foldl_fdiv_mul 1 fs hpos
  rw [one_mul, one_mul, hprod] at hfold
  rw [totientWith, hF]
  simp only [Int.natAbs_natCast] at hfs
  rw [hfs.totient_eq]
  exact hfold

end FiniteRings.Arith
