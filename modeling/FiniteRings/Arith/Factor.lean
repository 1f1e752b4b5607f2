import FiniteRings.Factorization

/-!
# Factoring integers by trial division

An integer is factored by dividing out the candidates 2, 3, 5, 7, 9, … in turn. The loop stops
when the square of the candidate exceeds the cofactor, which is then prime, or earlier when a
primality test calls the cofactor prime; the test is asked only after the cofactor has
changed. The test is a parameter: whatever it answers, as long as it never calls a composite
prime, the factorization is the same.

The sign is the trivial factor `-1` of a negative integer, and `-1`, `0` and `1` are their own
trivial factors.
-/

namespace FiniteRings.Arith

/-- `n = m * p ^ e` with `p` not dividing `m`, for `n > 0`; `(n, 0)` for `n = 0`. -/
def divideOut (n p : Nat) (hp : 2 ≤ p) : Nat × Nat :=
  if h : 0 < n ∧ n % p = 0 then
    let r := divideOut (n / p) p hp
    (r.1, r.2 + 1)
  else (n, 0)
termination_by n
decreasing_by exact Nat.div_lt_self h.1 (by omega)

theorem divideOut_fst_le (n p : Nat) (hp : 2 ≤ p) : (divideOut n p hp).1 ≤ n := by
  induction n using Nat.strongRecOn with
  | _ n ih =>
    rw [divideOut]
    split
    · next h =>
      have := ih (n / p) (Nat.div_lt_self h.1 (by omega))
      have := Nat.div_le_self n p
      simp only
      omega
    · exact Nat.le_refl n

theorem divideOut_fst_lt (n p : Nat) (hp : 2 ≤ p) (he : 0 < (divideOut n p hp).2) :
    (divideOut n p hp).1 < n := by
  by_cases h : 0 < n ∧ n % p = 0
  · rw [divideOut, dif_pos h]
    have := divideOut_fst_le (n / p) p hp
    have := Nat.div_lt_self h.1 (by omega : 1 < p)
    simp only
    omega
  · rw [divideOut, dif_neg h] at he
    simp at he

theorem divideOut_fst_eq (n p : Nat) (hp : 2 ≤ p) (he : (divideOut n p hp).2 = 0) :
    (divideOut n p hp).1 = n := by
  by_cases h : 0 < n ∧ n % p = 0
  · rw [divideOut, dif_pos h] at he
    simp at he
  · rw [divideOut, dif_neg h]

/-- The next candidate after `p`: 3 after 2, and then the odd numbers. -/
def nextCandidate (p : Nat) : Nat := if p = 2 then 3 else p + 2

/-- Trial division of the cofactor `n` from the candidate `p` on; `changed` says whether the
cofactor changed since the primality test was last asked. -/
def trialDivide (isPrime : Nat → Bool) (n p : Nat) (hp : 2 ≤ p) (changed : Bool)
    (acc : Factorization Int) : Factorization Int :=
  if n ≤ 1 then acc
  else if h : n < p * p ∨ (changed ∧ isPrime n) then acc.insertFactor n 1
  else
    let r := divideOut n p hp
    let acc := if 0 < r.2 then acc.insertFactor p r.2 else acc
    trialDivide isPrime r.1 (nextCandidate p) (by unfold nextCandidate; split <;> omega)
      (0 < r.2) acc
termination_by 2 * n - p
decreasing_by
  have hpp : p ≤ p * p := Nat.le_mul_self p
  have hnext : p < nextCandidate p := by unfold nextCandidate; split <;> omega
  by_cases he : 0 < (divideOut n p hp).2
  · have := divideOut_fst_lt n p hp he
    omega
  · have := divideOut_fst_eq n p hp (by omega)
    omega

/-- The factorization of `n`, with `isPrime` as the primality test. -/
def factorWith (isPrime : Nat → Bool) (n : Int) : Factorization Int :=
  if -1 ≤ n ∧ n ≤ 1 then Factorization.empty.insertTrivial (some n)
  else
    let acc : Factorization Int :=
      if n < 0 then Factorization.empty.insertTrivial (some (-1)) else Factorization.empty
    trialDivide isPrime n.natAbs 2 (Nat.le_refl 2) true acc

/-- `n * ∏ (1 - 1 / p)` over the distinct factors `p` of `n`, dividing before multiplying. -/
def totientWith (isPrime : Nat → Bool) (n : Int) : Int :=
  (factorWith isPrime n).factors.foldl (fun t (p, _) => t.fdiv p * (p - 1)) n

/-- The count of `1 ≤ a < n` with `gcd a n = 1`. -/
def slowTotient (n : Int) : Nat :=
  ((List.range' 1 (n.toNat - 1)).filter fun (a : Nat) => gcd a n = 1).length

end FiniteRings.Arith
