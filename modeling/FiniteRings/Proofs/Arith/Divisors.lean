import Mathlib
import FiniteRings.Proofs.Arith.Factor
import FiniteRings.Proofs.Arith.Power

/-!
# Divisors of a factored integer

The divisors of `n = ∏ pᵢ ^ eᵢ` are the products `∏ pᵢ ^ kᵢ` with `kᵢ ≤ eᵢ`. A factorization
numbers them in mixed radix: divisor `k` takes for `pᵢ` the digit of `k` in base `eᵢ + 1` at
place `i`, the lowest place first (`mixedDivisor`). Below `∏ (eᵢ + 1)` every divisor of `n` has a
number, made of its exponents as digits (`exists_mixedDivisor_eq`), and every number gives a
divisor, since no digit exceeds its exponent (`mixedDivisor_dvd`). Sorted, they are all positive
divisors of `n` in increasing order (`allDivisors_factorWith`).

The maximal proper divisors of `n ≠ 0` are the quotients `n / p` by the primes `p` of `n`
(`maximalProperDivisors_of_ne_zero`).
-/

namespace FiniteRings.Arith

open Factorization

/-- A `mapM` whose every step succeeds is the `map` of the results. -/
theorem mapM_eq_ok {α β : Type} (f : α → Outcome β) (g : α → β) :
    ∀ xs : List α, (∀ x ∈ xs, f x = .ok (g x)) → xs.mapM f = .ok (xs.map g)
  | [], _ => rfl
  | x :: xs, h => by
    rw [List.mapM_cons, h x List.mem_cons_self,
      mapM_eq_ok f g xs fun y hy => h y (List.mem_cons_of_mem _ hy)]
    rfl

/-! ### Numbering the divisors -/

/-- Divisor number `k`: for each factor `p ^ e`, the power of `p` given by the digit of `k` in
base `e + 1`, the lowest place first. -/
def mixedDivisor (k : Int) : List (Int × Nat) → Int
  | [] => 1
  | (p, e) :: rest => p ^ (k.fmod (e + 1)).toNat * mixedDivisor (k.fdiv (e + 1)) rest

theorem divisorFrom_eq (c k : Int) (fs : List (Int × Nat)) :
    divisorFrom c k fs = .ok (c * mixedDivisor k fs) := by
  induction fs generalizing c k with
  | nil => simp [divisorFrom, mixedDivisor]
  | cons pe rest ih =>
    obtain ⟨p, e⟩ := pe
    -- the digit zero multiplies by nothing, which is `p ^ 0`
    by_cases h : k.fmod (e + 1) = 0
    · simp [divisorFrom, mixedDivisor, h, ih, pure, Except.pure, bind, Except.bind]
    · simp [divisorFrom, mixedDivisor, h, ih, FactorBase.mul, FactorBase.pow, powAcc_eq,
        Functor.map, Except.map, bind, Except.bind, mul_assoc]

/-- A digit in base `b` is below `b`. -/
theorem fmod_toNat_lt (k : Int) {b : Nat} (hb : 0 < b) : (k.fmod b).toNat < b := by
  have h0 := Int.fmod_nonneg_of_pos k (show (0 : Int) < b by exact_mod_cast hb)
  have h1 := Int.fmod_lt_of_pos k (show (0 : Int) < b by exact_mod_cast hb)
  omega

/-- Every numbered divisor is a positive divisor of the product. -/
theorem mixedDivisor_dvd (k : Int) : ∀ fs : List (Nat × Nat), (∀ pe ∈ fs, 0 < pe.1) →
    0 < mixedDivisor k (castFactors fs) ∧
      mixedDivisor k (castFactors fs) ∣ ((fs.map fun pe => pe.1 ^ pe.2).prod : Nat)
  | [], _ => by simp [castFactors, mixedDivisor]
  | (p, e) :: fs, h => by
    have hp : 0 < p := h (p, e) List.mem_cons_self
    obtain ⟨hpos, hdvd⟩ := mixedDivisor_dvd (k.fdiv (e + 1)) fs
      fun pe hpe => h pe (List.mem_cons_of_mem _ hpe)
    have hdigit : (k.fmod ((e : Int) + 1)).toNat ≤ e := by
      have := fmod_toNat_lt k (show 0 < e + 1 by omega)
      push_cast at this
      omega
    simp only [castFactors, List.map_cons, mixedDivisor, List.prod_cons] at hpos hdvd ⊢
    refine ⟨mul_pos (pow_pos (by exact_mod_cast hp) _) hpos, ?_⟩
    rw [Nat.cast_mul, Nat.cast_pow]
    exact mul_dvd_mul (pow_dvd_pow _ hdigit) hdvd

/-- The digit `j < b` followed by the number `k` reads back as `j` and `k`. -/
theorem fmod_fdiv_digit {j b : Nat} (k : Nat) (hj : j < b) :
    ((j + b * k : Nat) : Int).fmod b = j ∧ ((j + b * k : Nat) : Int).fdiv b = k := by
  have hb : (0 : Int) ≤ b := Int.natCast_nonneg b
  rw [Int.fmod_eq_emod_of_nonneg _ hb, Int.fdiv_eq_ediv_of_nonneg _ hb]
  push_cast
  rw [Int.add_mul_emod_self_left, Int.emod_eq_of_lt (Int.natCast_nonneg j) (by exact_mod_cast hj),
    Int.add_mul_ediv_left _ _ (by exact_mod_cast (show b ≠ 0 by omega)),
    Int.ediv_eq_zero_of_lt (Int.natCast_nonneg j) (by exact_mod_cast hj), zero_add]
  exact ⟨rfl, rfl⟩

/-- **Every divisor has a number.**  A divisor `∏ pᵢ ^ kᵢ` of the product of a prime factorization
is numbered by its exponents read as mixed-radix digits. -/
theorem exists_mixedDivisor_eq : ∀ {n : Nat} {fs : List (Nat × Nat)}, PrimeFactors n fs →
    ∀ d : Nat, d ∣ n → ∃ k : Nat, k < (fs.map fun pe => pe.2 + 1).prod ∧
      mixedDivisor k (castFactors fs) = d
  | n, [], h, d, hd => by
    have hn : n = 1 := by simpa using h.prod.symm
    rw [hn, Nat.dvd_one] at hd
    exact ⟨0, by simp, by simp [hd, castFactors, mixedDivisor]⟩
  | n, (p, e) :: fs, h, d, hd => by
    have hp : p.Prime := h.prime (p, e) List.mem_cons_self
    rw [← h.prod, List.map_cons, List.prod_cons] at hd
    -- split the divisor into its power of `p` and a divisor of the rest
    obtain ⟨d₁, d₂, h₁, h₂, rfl⟩ := Nat.dvd_mul.1 hd
    obtain ⟨j, hj, rfl⟩ := (Nat.dvd_prime_pow hp).1 h₁
    obtain ⟨k, hk, hmix⟩ := exists_mixedDivisor_eq h.tail d₂ h₂
    obtain ⟨hmod, hdiv⟩ := fmod_fdiv_digit k (show j < e + 1 by omega)
    refine ⟨j + (e + 1) * k, ?_, ?_⟩
    · rw [List.map_cons, List.prod_cons]
      nlinarith
    · simp only [castFactors, List.map_cons, mixedDivisor]
      push_cast at hmod hdiv ⊢
      rw [hmod, hdiv, ← castFactors, hmix, Int.toNat_natCast]

/-! ### The sorted divisors -/

/-- `sortBases` on integers sorts in increasing order. -/
theorem sortBases_sorted (xs : List Int) : (sortBases xs).Pairwise (· ≤ ·) := by
  have h := @List.pairwise_mergeSort Int (fun a b => !FactorBase.lt b a)
    (fun a b c hab hbc => by simp [FactorBase.lt] at *; omega)
    (fun a b => by simp [FactorBase.lt]; omega) xs
  exact h.imp fun hab => by simpa [FactorBase.lt] using hab

@[simp] theorem mem_sortBases {x : Int} {xs : List Int} : x ∈ sortBases xs ↔ x ∈ xs :=
  List.mem_mergeSort

/-- The factorization of a nonzero `n` by a sound test: a trivial factor `t` and the primes of
`|n|`, with `t * |n| = n`, holding something. -/
theorem factorWith_of_ne_zero {isPrime : Nat → Bool} {n : Int} (hn : n ≠ 0)
    (hP : SoundUpTo isPrime n.natAbs) :
    ∃ t fs, factorWith isPrime n = ⟨t, castFactors fs⟩ ∧ PrimeFactors n.natAbs fs ∧
      t.getD 1 * n.natAbs = n ∧ ∀ query, (factorWith isPrime n).requireNonempty query = .ok () := by
  by_cases h2 : 2 ≤ n.natAbs
  · obtain ⟨fs, hF, hfs⟩ := factorWith_spec h2 hP
    -- a number above one has a prime factor
    have hne : fs ≠ [] := by
      rintro rfl
      have := hfs.prod
      simp at this
      omega
    refine ⟨_, fs, hF, hfs, ?_, fun query => ?_⟩
    · rw [Int.natCast_natAbs]
      split_ifs with hneg
      · rw [Option.getD_some, abs_of_neg hneg]
        ring
      · rw [Option.getD_none, one_mul, abs_of_nonneg (not_lt.1 hneg)]
    · rw [hF, requireNonempty, if_neg]
      simp [castFactors, hne]
  · -- `n` is `1` or `-1`, its own trivial factor
    have h1 : n.natAbs = 1 := by omega
    have hF : factorWith isPrime n = ⟨some n, []⟩ := by
      rw [factorWith, if_pos (by omega)]
      rfl
    refine ⟨some n, [], hF, h1 ▸ primeFactors_one, ?_, fun query => by rw [hF]; rfl⟩
    rw [Option.getD_some, h1, Nat.cast_one, mul_one]

/-- The factorization of a positive `n` by a sound test: its factors are those of a prime
factorization of `n`, its value starts from one, and it holds something. -/
theorem factorWith_of_pos {isPrime : Nat → Bool} {n : Nat} (hn : 0 < n) (hP : SoundUpTo isPrime n) :
    ∃ fs, PrimeFactors n fs ∧ (factorWith isPrime n).factors = castFactors fs ∧
      (factorWith isPrime n).trivial.getD 1 = 1 ∧
      ∀ query, (factorWith isPrime n).requireNonempty query = .ok () := by
  obtain ⟨t, fs, hF, hfs, ht, hne⟩ :=
    factorWith_of_ne_zero (n := n) (by omega) (by rwa [Int.natAbs_natCast])
  rw [Int.natAbs_natCast] at hfs ht
  -- the trivial factor times `n` is `n`, so it is one
  have ht1 : t.getD 1 = 1 :=
    mul_right_cancel₀ (by exact_mod_cast hn.ne') (ht.trans (one_mul _).symm)
  exact ⟨fs, hfs, by rw [hF], by rw [hF]; exact ht1, hne⟩

/-- **All divisors.**  For `n ≥ 1` and a test that calls no composite number up to `n` prime, the
divisors of the factorization of `n` are its positive divisors, in increasing order. -/
theorem allDivisors_factorWith {isPrime : Nat → Bool} {n : Nat} (hn : 0 < n)
    (hP : SoundUpTo isPrime n) :
    ∃ L, (factorWith isPrime n).allDivisors = .ok L ∧ L.Pairwise (· ≤ ·) ∧
      ∀ d : Int, d ∈ L ↔ 0 < d ∧ d ∣ n := by
  obtain ⟨fs, hfs, hF, -, hne⟩ := factorWith_of_pos hn hP
  have hpos : ∀ pe ∈ fs, 0 < pe.1 := fun pe hpe => (hfs.prime pe hpe).pos
  have hcount : (factorWith isPrime n).countDivisors = (fs.map fun pe => pe.2 + 1).prod := by
    rw [countDivisors, hF, castFactors, List.map_map, ← List.prod_eq_foldl_nat]
    rfl
  refine ⟨sortBases ((List.range (fs.map fun pe => pe.2 + 1).prod).map
    fun k : Nat => mixedDivisor k (castFactors fs)), ?_, sortBases_sorted _, fun d => ?_⟩
  · simp only [allDivisors, numDivisors, hne, hcount, bind, Except.bind, pure, Except.pure]
    rw [mapM_eq_ok _ (fun k : Nat => mixedDivisor k (castFactors fs)) _ (fun k _ => by
      rw [hF, divisorFrom_eq]
      simp [FactorBase.one])]
  · rw [mem_sortBases, List.mem_map]
    constructor
    · rintro ⟨k, -, rfl⟩
      obtain ⟨hpos', hdvd⟩ := mixedDivisor_dvd k fs hpos
      exact ⟨hpos', by rw [← hfs.prod]; exact hdvd⟩
    · rintro ⟨hd, hdvd⟩
      lift d to Nat using hd.le
      obtain ⟨k, hk, hmix⟩ := exists_mixedDivisor_eq hfs d (by exact_mod_cast hdvd)
      exact ⟨k, List.mem_range.2 hk, hmix⟩

/-! ### Maximal proper divisors -/

/-- The primes of a prime factorization are the primes dividing the number. -/
theorem PrimeFactors.dvd_iff {n : Nat} {fs : List (Nat × Nat)} (h : PrimeFactors n fs) {p : Nat}
    (hp : p.Prime) : p ∣ n ↔ ∃ e, (p, e) ∈ fs := by
  rw [← h.prod]
  constructor
  · intro hdvd
    obtain ⟨_, hmem, hpq⟩ := (Prime.dvd_prod_iff hp.prime).1 hdvd
    obtain ⟨⟨q, e⟩, hqe, rfl⟩ := List.mem_map.1 hmem
    have hq : q.Prime := h.prime (q, e) hqe
    rw [(Nat.prime_dvd_prime_iff_eq hp hq).1 (hp.dvd_of_dvd_pow hpq)]
    exact ⟨e, hqe⟩
  · rintro ⟨e, he⟩
    exact dvd_trans (dvd_pow_self p (h.pos (p, e) he).ne')
      (List.dvd_prod (List.mem_map.2 ⟨(p, e), he, rfl⟩))

/-- Evaluating prime powers from an accumulator multiplies it by their product. -/
theorem foldlM_castFactors (step : Int → Int × Nat → Outcome Int)
    (hstep : ∀ (c : Int) (p e : Nat), step c (p, e) = .ok (c * (p : Int) ^ e)) :
    ∀ (fs : List (Nat × Nat)) (c : Int),
      (castFactors fs).foldlM step c = .ok (c * ((fs.map fun pe => pe.1 ^ pe.2).prod : Nat))
  | [], c => by simp [castFactors, pure, Except.pure]
  | (p, e) :: fs, c => by
    rw [castFactors, List.map_cons, List.foldlM_cons, hstep]
    show (castFactors fs).foldlM step (c * (p : Int) ^ e) = _
    rw [foldlM_castFactors step hstep fs, List.map_cons, List.prod_cons, Nat.cast_mul,
      Nat.cast_pow, mul_assoc]

/-- A prime factorization of `n` with trivial factor `t` has the value `t * n`. -/
theorem value_castFactors_mul (t : Option Int) {n : Nat} {fs : List (Nat × Nat)}
    (hfs : PrimeFactors n fs) : Factorization.value ⟨t, castFactors fs⟩ = .ok (t.getD 1 * n) := by
  rw [value]
  show (castFactors fs).foldlM _ (t.getD 1) = _
  rw [foldlM_castFactors _ (fun c p e => by
    simp [FactorBase.mul, FactorBase.pow, powAcc_eq, Functor.map, Except.map]), hfs.prod]

/-- Distinct divisors of a nonzero `n` give distinct quotients. -/
theorem eq_of_ediv_eq {n p q : Int} (hn : n ≠ 0) (hp : p ∣ n) (hq : q ∣ n) (h : n / p = n / q) :
    p = q := by
  have hp' := Int.ediv_mul_cancel hp
  have hq' := Int.ediv_mul_cancel hq
  have h0 : n / p ≠ 0 := fun h0 => hn (by rw [← hp', h0, zero_mul])
  rw [h] at hp' h0
  exact mul_left_cancel₀ h0 (hp'.trans hq'.symm)

/-- **Maximal proper divisors.**  For `n ≠ 0` and a test that calls no composite number up to
`|n|` prime, the maximal proper divisors are the quotients `n / p` by the primes `p` dividing
`n`, each once, sorted. -/
theorem maximalProperDivisors_of_ne_zero {isPrime : Nat → Bool} {n : Int} (hn : n ≠ 0)
    (hP : SoundUpTo isPrime n.natAbs) :
    ∃ xs : List Int, (factorWith isPrime n).maximalProperDivisors = .ok (sortBases xs) ∧
      xs.Nodup ∧ ∀ d : Int, d ∈ xs ↔ ∃ p : Nat, p.Prime ∧ (p : Int) ∣ n ∧ d = n / p := by
  obtain ⟨t, fs, hF, hfs, ht, hne⟩ := factorWith_of_ne_zero hn hP
  have hval : (factorWith isPrime n).value = .ok n := by
    rw [hF, value_castFactors_mul t hfs, ht]
  have hdvd : ∀ pe ∈ fs, (pe.1 : Int) ∣ n := fun pe hpe =>
    Int.natCast_dvd.2 ((hfs.dvd_iff (hfs.prime pe hpe)).2 ⟨pe.2, hpe⟩)
  refine ⟨fs.map fun pe => n / (pe.1 : Int), ?_, ?_, fun d => ?_⟩
  · simp only [maximalProperDivisors, hne, hval, bind, Except.bind, pure, Except.pure]
    rw [hF, mapM_eq_ok _ (fun pe : Int × Nat => n / pe.1) _ (fun pe hpe => ?_)]
    · simp only [castFactors, List.map_map]
      rfl
    · obtain ⟨q, hq, rfl⟩ := List.mem_map.1 hpe
      simp [FactorBase.quot, (hfs.prime q hq).ne_zero, Int.fdiv_eq_ediv_of_dvd (hdvd q hq)]
  · -- the primes are distinct, and so are the quotients by them
    have hbases : (fs.map fun pe => (pe.1 : Int)).Nodup :=
      List.pairwise_map.2 (hfs.increasing.imp fun hlt => by exact_mod_cast hlt.ne)
    have hcomp : (fs.map fun pe => n / (pe.1 : Int)) =
        (fs.map fun pe => (pe.1 : Int)).map (n / ·) := by
      rw [List.map_map]
      rfl
    rw [hcomp]
    refine hbases.map_on fun p hp q hq hpq => ?_
    obtain ⟨a, ha, rfl⟩ := List.mem_map.1 hp
    obtain ⟨b, hb, rfl⟩ := List.mem_map.1 hq
    exact eq_of_ediv_eq hn (hdvd a ha) (hdvd b hb) hpq
  · rw [List.mem_map]
    constructor
    · rintro ⟨⟨p, e⟩, hpe, rfl⟩
      exact ⟨p, hfs.prime _ hpe, hdvd _ hpe, rfl⟩
    · rintro ⟨p, hp, hpn, rfl⟩
      obtain ⟨e, he⟩ := (hfs.dvd_iff hp).1 (Int.natCast_dvd.1 hpn)
      exact ⟨(p, e), he, rfl⟩

/-- For `n ≥ 1` the maximal proper divisors are the quotients `n / p` in the naturals. -/
theorem maximalProperDivisors_factorWith {isPrime : Nat → Bool} {n : Nat} (hn : 0 < n)
    (hP : SoundUpTo isPrime n) :
    ∃ L, (factorWith isPrime n).maximalProperDivisors = .ok L ∧
      ∀ d : Int, d ∈ L ↔ ∃ p : Nat, p.Prime ∧ p ∣ n ∧ d = (n / p : Nat) := by
  obtain ⟨xs, hL, -, hmem⟩ :=
    maximalProperDivisors_of_ne_zero (n := n) (by omega) (by rwa [Int.natAbs_natCast])
  refine ⟨_, hL, fun d => ?_⟩
  rw [mem_sortBases, hmem]
  simp only [Int.natCast_dvd_natCast, Int.natCast_div]

end FiniteRings.Arith
