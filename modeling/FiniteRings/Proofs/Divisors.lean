import Mathlib
import FiniteRings.Proofs.Factorization
import FiniteRings.Proofs.GF2Poly.Factor
import FiniteRings.Proofs.PolyResidue.Units

/-!
# Numbering the divisors

A factorization numbers the divisors of its value in mixed radix: divisor `k` takes, for the
factor `p ^ e` at place `i`, the power `p ^ j` with `j` the digit of `k` in base `e + 1` at that
place, the lowest place first (`digitProd`). Nothing in the enumeration checks that a divisor
comes once; that follows from unique factorization. Read in a monoid with unique factorization,
over bases that are normalized primes, no two equal (`PrimeBases`):

* every number below `∏ (e + 1)` gives a normalized divisor of `∏ p ^ e`
  (`digitProd_dvd_prodIn`, `normalize_digitProd`);
* two numbers with associated divisors are equal, since the power of the first base is read off
  a product whose other factors it does not divide (`pow_mul_associated`,
  `digitProd_injective`);
* every divisor is associated with a numbered one (`exists_digitProd`).

So the numbering is a bijection onto the normalized divisors (`digitProd_bijOn`). Integers read
as themselves have the nonnegative numbers as their normalized ones, and polynomials over GF(2)
read in `(ZMod 2)[X]` are all normalized; `divisors_enumerated` states what this gives for both.
-/

namespace FiniteRings.Factorization

open FactorBase

/-! ### Mixed-radix numbers -/

section Numbering

variable {α M : Type} [CommMonoid M] (φ : α → M)

/-- Divisor number `k` read in `M`: for each factor `p ^ e`, `φ p` to the digit of `k` in base
`e + 1`, the lowest place first. -/
def digitProd (k : Nat) : List (α × Nat) → M
  | [] => 1
  | (p, e) :: rest => φ p ^ (k % (e + 1)) * digitProd (k / (e + 1)) rest

/-- The number of divisors `∏ (e + 1)`. -/
def divisorCount (fs : List (α × Nat)) : Nat := (fs.map fun pe => pe.2 + 1).prod

variable {φ}

@[simp] theorem digitProd_nil (k : Nat) : digitProd φ k [] = 1 := rfl

@[simp] theorem digitProd_cons (k : Nat) (p : α) (e : Nat) (fs : List (α × Nat)) :
    digitProd φ k ((p, e) :: fs) = φ p ^ (k % (e + 1)) * digitProd φ (k / (e + 1)) fs := rfl

@[simp] theorem divisorCount_nil : divisorCount ([] : List (α × Nat)) = 1 := rfl

@[simp] theorem divisorCount_cons (p : α) (e : Nat) (fs : List (α × Nat)) :
    divisorCount ((p, e) :: fs) = (e + 1) * divisorCount fs := rfl

/-- Every numbered product divides the product of the factors: no digit exceeds its exponent. -/
theorem digitProd_dvd_prodIn (k : Nat) : ∀ fs : List (α × Nat), digitProd φ k fs ∣ prodIn φ fs
  | [] => dvd_rfl
  | (p, e) :: fs => by
    rw [digitProd_cons, prodIn_cons]
    exact mul_dvd_mul (pow_dvd_pow _ (Nat.lt_succ_iff.1 (Nat.mod_lt _ (Nat.succ_pos e))))
      (digitProd_dvd_prodIn _ fs)

/-- The digit `j ≤ e` followed by the number `k` reads back as `j` and `k`. -/
theorem mod_div_digit {j e : Nat} (k : Nat) (hj : j ≤ e) :
    (j + (e + 1) * k) % (e + 1) = j ∧ (j + (e + 1) * k) / (e + 1) = k := by
  rw [Nat.add_mul_mod_self_left, Nat.mod_eq_of_lt (by omega),
    Nat.add_mul_div_left _ _ (Nat.succ_pos e), Nat.div_eq_of_lt (by omega), Nat.zero_add]
  exact ⟨rfl, rfl⟩

/-- A number below `(e + 1) * c` leaves a rest below `c`. -/
theorem div_lt_divisorCount {k e c : Nat} (hk : k < (e + 1) * c) : k / (e + 1) < c :=
  (Nat.div_lt_iff_lt_mul (Nat.succ_pos e)).2 (by rwa [Nat.mul_comm])

end Numbering

/-! ### What the enumeration computes -/

section Model

variable {α M : Type} [FactorBase α] [CommMonoid M] {φ : α → M}

/-- The digit of a natural number in base `e + 1`, as `divisorFrom` takes it. -/
theorem natCast_fmod_succ (k e : Nat) :
    (k : Int).fmod ((e : Int) + 1) = ((k % (e + 1) : Nat) : Int) := by
  rw [Int.fmod_eq_emod_of_nonneg _ (by omega), Int.natCast_mod]
  rfl

theorem natCast_fdiv_succ (k e : Nat) :
    (k : Int).fdiv ((e : Int) + 1) = ((k / (e + 1) : Nat) : Int) := by
  rw [Int.fdiv_eq_ediv_of_nonneg _ (by omega), Int.natCast_div]
  rfl

/-- `divisorFrom c k` multiplies `c` by divisor number `k`: a zero digit skips its factor, and
every other power succeeds. -/
theorem divisorFrom_natCast (hφ : Meaning φ) : ∀ (fs : List (α × Nat)) (c : α) (k : Nat),
    ∃ d, divisorFrom c k fs = .ok d ∧ φ d = φ c * digitProd φ k fs
  | [], c, k => ⟨c, rfl, by rw [digitProd_nil, mul_one]⟩
  | (p, e) :: fs, c, k => by
    simp only [divisorFrom, natCast_fmod_succ, natCast_fdiv_succ, Int.toNat_natCast]
    by_cases h0 : k % (e + 1) = 0
    · -- a zero digit multiplies by nothing, which is `p ^ 0`
      rw [if_pos (by rw [h0]; rfl)]
      obtain ⟨d, hd, hφd⟩ := divisorFrom_natCast hφ fs c (k / (e + 1))
      exact ⟨d, hd, by rw [hφd, digitProd_cons, h0, pow_zero, one_mul]⟩
    · obtain ⟨b, hb⟩ := hφ.pow_pos p _ (Nat.pos_of_ne_zero h0)
      obtain ⟨d, hd, hφd⟩ := divisorFrom_natCast hφ fs (mul c b) (k / (e + 1))
      rw [if_neg (by exact_mod_cast h0), hb]
      exact ⟨d, hd, by rw [hφd, hφ.map_mul, hφ.map_pow p _ b hb, digitProd_cons, mul_assoc]⟩

/-- Divisor number `k` as `divisorFrom` computes it from one (and one should it fail, which it
does not). -/
def divisorAt (fs : List (α × Nat)) (k : Nat) : α := ((divisorFrom one k fs).toOption).getD one

theorem divisorAt_spec (hφ : Meaning φ) (fs : List (α × Nat)) (k : Nat) :
    divisorFrom one k fs = .ok (divisorAt fs k) ∧ φ (divisorAt fs k) = digitProd φ k fs := by
  obtain ⟨d, hd, hφd⟩ := divisorFrom_natCast hφ fs one k
  have hget : ((divisorFrom one k fs).toOption).getD one = d := by
    rw [hd]
    rfl
  rw [divisorAt, hget, hd]
  exact ⟨rfl, by rw [hφd, hφ.map_one, one_mul]⟩

omit [FactorBase α] in
theorem countDivisors_eq (f : Factorization α) : f.countDivisors = divisorCount f.factors := by
  rw [countDivisors, divisorCount, List.prod_eq_foldl_nat]

/-- **The enumeration.**  For a factorization that holds something, the number of divisors is
`∏ (e + 1)`, `kthDivisor` gives divisor number `k`, and `allDivisors` sorts them all. -/
theorem allDivisors_eq_ok (hφ : Meaning φ) {f : Factorization α}
    (hne : ∀ query, f.requireNonempty query = .ok ()) :
    f.numDivisors = .ok (divisorCount f.factors) ∧
      f.allDivisors = .ok (sortBases ((List.range (divisorCount f.factors)).map
        (divisorAt f.factors))) ∧
      ∀ k : Nat, f.kthDivisor k = .ok (divisorAt f.factors k) := by
  have hnum : f.numDivisors = .ok (divisorCount f.factors) := by
    rw [numDivisors, hne, countDivisors_eq]
    rfl
  refine ⟨hnum, ?_, fun k => ?_⟩
  · rw [allDivisors, hnum]
    simp only [bind, Except.bind]
    rw [Arith.mapM_eq_ok _ (fun k : Nat => divisorAt f.factors k) _
      (fun k _ => (divisorAt_spec hφ f.factors k).1)]
    rfl
  · rw [kthDivisor, hne]
    exact (divisorAt_spec hφ f.factors k).1

/-- `sortBases` only reorders. -/
theorem sortBases_perm (xs : List α) : (sortBases xs).Perm xs :=
  List.mergeSort_perm xs _

/-- Bases compared by an injective key come out of `sortBases` with strictly increasing keys when
no base is repeated. -/
theorem sortBases_increasing {κ : Type} [LinearOrder κ] {key : α → κ} (hk : KeyOrder key)
    {xs : List α} (hnd : xs.Nodup) : (sortBases xs).Pairwise fun a b => key a < key b := by
  have hle : (sortBases xs).Pairwise fun a b => key a ≤ key b := by
    refine (List.pairwise_mergeSort (fun a b c hab hbc => ?_) (fun a b => ?_) xs).imp ?_
    · simp only [Bool.not_eq_true', Bool.eq_false_iff, ne_eq, hk.lt_iff, not_lt] at hab hbc ⊢
      exact le_trans hab hbc
    · simp only [Bool.or_eq_true, Bool.not_eq_true', Bool.eq_false_iff, ne_eq, hk.lt_iff, not_lt]
      exact le_total _ _
    · intro a b hab
      simpa only [Bool.not_eq_true', Bool.eq_false_iff, ne_eq, hk.lt_iff, not_lt] using hab
  have hne := (sortBases_perm xs).nodup_iff.2 hnd
  exact (hle.and (List.nodup_iff_pairwise_ne.1 hne)).imp fun h =>
    lt_of_le_of_ne h.1 fun heq => h.2 (hk.injective heq)

end Model

/-! ### Unique factorization -/

section Unique

variable {α M : Type} [CommMonoidWithZero M] [IsCancelMulZero M] [StrongNormalizationMonoid M]
  {φ : α → M}

/-- The bases read in `M` are normalized primes, no two equal. -/
structure PrimeBases (φ : α → M) (fs : List (α × Nat)) : Prop where
  prime : ∀ pe ∈ fs, Prime (φ pe.1)
  normalized : ∀ pe ∈ fs, normalize (φ pe.1) = φ pe.1
  distinct : fs.Pairwise fun a b => φ a.1 ≠ φ b.1

omit [IsCancelMulZero M] in
theorem PrimeBases.tail {pe : α × Nat} {fs : List (α × Nat)} (h : PrimeBases φ (pe :: fs)) :
    PrimeBases φ fs :=
  ⟨fun x hx => h.prime x (List.mem_cons_of_mem _ hx),
    fun x hx => h.normalized x (List.mem_cons_of_mem _ hx), (List.pairwise_cons.1 h.distinct).2⟩

omit [StrongNormalizationMonoid M] in
/-- A prime associated with none of the prime bases divides none of their products. -/
theorem not_dvd_prodIn {P : M} (hP : Prime P) : ∀ fs : List (α × Nat),
    (∀ pe ∈ fs, Prime (φ pe.1) ∧ ¬Associated P (φ pe.1)) → ¬P ∣ prodIn φ fs
  | [], _, h => hP.not_dvd_one h
  | (q, d) :: fs, hfs, h => by
    rw [prodIn_cons] at h
    obtain ⟨hq, hPq⟩ := hfs (q, d) List.mem_cons_self
    rcases hP.dvd_or_dvd h with h | h
    · exact hPq (hP.associated_of_dvd hq (hP.dvd_of_dvd_pow h))
    · exact not_dvd_prodIn hP fs (fun pe hpe => hfs pe (List.mem_cons_of_mem _ hpe)) h

/-- The first base divides none of the later factors. -/
theorem PrimeBases.not_dvd_tail {p : α} {e : Nat} {fs : List (α × Nat)}
    (h : PrimeBases φ ((p, e) :: fs)) : ¬φ p ∣ prodIn φ fs := by
  refine not_dvd_prodIn (h.prime _ List.mem_cons_self) fs fun pe hpe =>
    ⟨h.tail.prime pe hpe, fun hassoc => ?_⟩
  -- associated normalized elements are equal, and the bases are distinct
  exact (List.pairwise_cons.1 h.distinct).1 pe hpe (hassoc.eq_of_normalized
    (h.normalized _ List.mem_cons_self) (h.tail.normalized pe hpe))

omit [StrongNormalizationMonoid M] in
/-- The power of a prime is read off a product whose other factor it does not divide. -/
theorem pow_mul_associated {P A B : M} (hP : Prime P) (hA : ¬P ∣ A) (hB : ¬P ∣ B) {i j : Nat}
    (h : Associated (P ^ i * A) (P ^ j * B)) : i = j ∧ Associated A B := by
  wlog hij : i ≤ j generalizing i j A B
  · obtain ⟨hji, hBA⟩ := this hB hA h.symm (by omega)
    exact ⟨hji.symm, hBA.symm⟩
  obtain ⟨t, rfl⟩ := Nat.exists_eq_add_of_le hij
  rw [pow_add, mul_assoc] at h
  have hAB := h.of_mul_left (Associated.refl _) (pow_ne_zero _ hP.ne_zero)
  cases t with
  | zero => exact ⟨rfl, by rwa [pow_zero, one_mul] at hAB⟩
  | succ t =>
    -- a positive power of `P` would divide `A`
    exact absurd ((dvd_mul_of_dvd_left (dvd_pow_self P t.succ_ne_zero) B).trans hAB.symm.dvd) hA

omit [IsCancelMulZero M] in
/-- Numbered products are normalized. -/
theorem normalize_digitProd (k : Nat) : ∀ {fs : List (α × Nat)}, PrimeBases φ fs →
    normalize (digitProd φ k fs) = digitProd φ k fs
  | [], _ => normalize_one
  | (p, e) :: fs, h => by
    rw [digitProd_cons, ← coe_normalizeHom, map_mul, map_pow, coe_normalizeHom,
      h.normalized _ List.mem_cons_self, normalize_digitProd _ h.tail]

/-- **No divisor twice.**  Two numbers below `∏ (e + 1)` whose products are associated are
equal. -/
theorem digitProd_injective : ∀ {fs : List (α × Nat)}, PrimeBases φ fs → ∀ {k k' : Nat},
    k < divisorCount fs → k' < divisorCount fs →
    Associated (digitProd φ k fs) (digitProd φ k' fs) → k = k'
  | [], _, k, k', hk, hk', _ => by
    rw [divisorCount_nil] at hk hk'
    omega
  | (p, e) :: fs, h, k, k', hk, hk', hassoc => by
    rw [divisorCount_cons] at hk hk'
    rw [digitProd_cons, digitProd_cons] at hassoc
    have hnd : ∀ j, ¬φ p ∣ digitProd φ j fs := fun j hdvd =>
      h.not_dvd_tail (hdvd.trans (digitProd_dvd_prodIn j fs))
    obtain ⟨hdigit, hrest⟩ := pow_mul_associated (h.prime _ List.mem_cons_self) (hnd _) (hnd _)
      hassoc
    have hhigh := digitProd_injective h.tail (div_lt_divisorCount hk) (div_lt_divisorCount hk')
      hrest
    -- the digit and the rest give the number back
    rw [← Nat.div_add_mod k (e + 1), ← Nat.div_add_mod k' (e + 1), hdigit, hhigh]

/-- **Every divisor has a number.**  A divisor of `∏ p ^ e` is associated with the product
numbered by its exponents read as digits. -/
theorem exists_digitProd [DecompositionMonoid M] : ∀ {fs : List (α × Nat)}, PrimeBases φ fs →
    ∀ {d : M}, d ∣ prodIn φ fs → ∃ k < divisorCount fs, Associated d (digitProd φ k fs)
  | [], _, d, hd => ⟨0, Nat.one_pos, associated_one_iff_isUnit.2 (isUnit_of_dvd_one hd)⟩
  | (p, e) :: fs, h, d, hd => by
    rw [prodIn_cons] at hd
    -- split the divisor into its power of `p` and a divisor of the rest
    obtain ⟨d₁, d₂, h₁, h₂, rfl⟩ := exists_dvd_and_dvd_of_dvd_mul hd
    obtain ⟨j, hj, hd₁⟩ := (dvd_prime_pow (h.prime _ List.mem_cons_self) e).1 h₁
    obtain ⟨k, hk, hd₂⟩ := exists_digitProd h.tail h₂
    obtain ⟨hmod, hdiv⟩ := mod_div_digit k hj
    refine ⟨j + (e + 1) * k, ?_, ?_⟩
    · rw [divisorCount_cons]
      nlinarith
    · rw [digitProd_cons, hmod, hdiv]
      exact hd₁.mul_mul hd₂

/-- **The numbering of divisors.**  Over normalized prime bases, no two equal, the numbers below
`∏ (e + 1)` number the normalized divisors of `∏ p ^ e`, each exactly once. -/
theorem digitProd_bijOn [DecompositionMonoid M] {fs : List (α × Nat)} (h : PrimeBases φ fs) :
    Set.BijOn (fun k => digitProd φ k fs) (Set.Iio (divisorCount fs))
      {d | normalize d = d ∧ d ∣ prodIn φ fs} := by
  refine ⟨fun k _ => ⟨normalize_digitProd k h, digitProd_dvd_prodIn k fs⟩,
    fun k hk k' hk' heq => digitProd_injective h hk hk' (Associated.of_eq heq), ?_⟩
  rintro d ⟨hnorm, hd⟩
  obtain ⟨k, hk, hassoc⟩ := exists_digitProd h hd
  exact ⟨k, hk, (hassoc.eq_of_normalized hnorm (normalize_digitProd k h)).symm⟩

end Unique

/-! ### The divisors a factorization lists -/

section Listing

variable {α M κ : Type} [FactorBase α] [CommMonoidWithZero M] [IsCancelMulZero M]
  [StrongNormalizationMonoid M] [DecompositionMonoid M] [LinearOrder κ] {φ : α → M} {key : α → κ}

/-- Read through an injective meaning, `divisorAt` numbers the elements whose images are the
normalized divisors of the product. -/
theorem divisorAt_bijOn (hφ : Meaning φ) (hinj : Function.Injective φ) {fs : List (α × Nat)}
    (h : PrimeBases φ fs) :
    Set.BijOn (divisorAt fs) (Set.Iio (divisorCount fs))
      {d | normalize (φ d) = φ d ∧ φ d ∣ prodIn φ fs} := by
  have hbij := digitProd_bijOn h
  have hφk : ∀ k, φ (divisorAt fs k) = digitProd φ k fs := fun k => (divisorAt_spec hφ fs k).2
  refine ⟨fun k hk => ?_, fun k hk k' hk' heq => ?_, fun d hd => ?_⟩
  · show normalize (φ (divisorAt fs k)) = _ ∧ _
    rw [hφk]
    exact hbij.mapsTo hk
  · apply hbij.injOn hk hk'
    show digitProd φ k fs = digitProd φ k' fs
    rw [← hφk, ← hφk, heq]
  · obtain ⟨k, hk, hkd⟩ := hbij.surjOn hd
    exact ⟨k, hk, hinj (by rw [hφk]; exact hkd)⟩

/-- **The divisors of a factorization.**  Over prime bases read by an injective meaning, there are
`∏ (e + 1)` divisors, `kthDivisor` numbers them one to one from `0`, and `allDivisors` lists each
once, in increasing order of the key. -/
theorem allDivisors_spec (hφ : Meaning φ) (hinj : Function.Injective φ) (hk : KeyOrder key)
    {f : Factorization α} (hne : ∀ query, f.requireNonempty query = .ok ())
    (h : PrimeBases φ f.factors) :
    ∃ L, f.numDivisors = .ok (divisorCount f.factors) ∧ f.allDivisors = .ok L ∧
      L.Pairwise (fun a b => key a < key b) ∧
      (∀ d, d ∈ L ↔ normalize (φ d) = φ d ∧ φ d ∣ prodIn φ f.factors) ∧
      (∀ k : Nat, f.kthDivisor k = .ok (divisorAt f.factors k)) ∧
      Set.BijOn (divisorAt f.factors) (Set.Iio (divisorCount f.factors)) {d | d ∈ L} := by
  obtain ⟨hnum, hall, hkth⟩ := allDivisors_eq_ok hφ hne
  have hbij := divisorAt_bijOn hφ hinj h
  -- the listed divisors are the image of the numbers below the count
  have hmem : ∀ d, d ∈ sortBases ((List.range (divisorCount f.factors)).map (divisorAt f.factors))
      ↔ normalize (φ d) = φ d ∧ φ d ∣ prodIn φ f.factors := fun d => by
    rw [(sortBases_perm _).mem_iff, List.mem_map]
    constructor
    · rintro ⟨k, hk, rfl⟩
      exact hbij.mapsTo (List.mem_range.1 hk)
    · intro hd
      obtain ⟨k, hk, rfl⟩ := hbij.surjOn hd
      exact ⟨k, List.mem_range.2 hk, rfl⟩
  have hnodup : ((List.range (divisorCount f.factors)).map (divisorAt f.factors)).Nodup :=
    List.nodup_range.map_on fun k hk k' hk' heq =>
      hbij.injOn (List.mem_range.1 hk) (List.mem_range.1 hk') heq
  refine ⟨_, hnum, hall, sortBases_increasing hk hnodup, hmem, hkth, ?_⟩
  rw [show {d | d ∈ sortBases ((List.range (divisorCount f.factors)).map (divisorAt f.factors))}
    = {d | normalize (φ d) = φ d ∧ φ d ∣ prodIn φ f.factors} from Set.ext hmem]
  exact hbij

end Listing

end FiniteRings.Factorization

/-! ### Integers -/

namespace FiniteRings.Arith

open Factorization

/-- The primes of a prime factorization, read as integers, are normalized primes, no two
equal. -/
theorem PrimeFactors.primeBases {n : Nat} {fs : List (Nat × Nat)} (h : PrimeFactors n fs) :
    PrimeBases (id : Int → Int) (castFactors fs) := by
  refine ⟨fun pe hpe => ?_, fun pe hpe => ?_, ?_⟩
  · obtain ⟨q, hq, rfl⟩ := List.mem_map.1 hpe
    exact Nat.prime_iff_prime_int.1 (h.prime q hq)
  · obtain ⟨q, hq, rfl⟩ := List.mem_map.1 hpe
    exact Int.normalize_coe_nat q.1
  · rw [castFactors, List.pairwise_map]
    exact h.increasing.imp fun hlt heq => hlt.ne (Int.natCast_inj.1 heq)

theorem PrimeFactors.prodIn_castFactors {n : Nat} {fs : List (Nat × Nat)} (h : PrimeFactors n fs) :
    prodIn (id : Int → Int) (castFactors fs) = n := by
  rw [← h.prod, prodIn, castFactors, List.map_map, Nat.cast_list_prod, List.map_map]
  rfl

section Nonzero

variable {isPrime : Nat → Bool} {n : Int}

/-- **Divisors of an integer.**  For `n ≠ 0` and a test that calls no composite number up to
`|n|` prime, `allDivisors` lists the positive divisors of `n` in strictly increasing order, and
`kthDivisor` numbers them one to one from `0` below their count. -/
theorem allDivisors_of_ne_zero (hn : n ≠ 0) (hP : SoundUpTo isPrime n.natAbs) :
    ∃ c L, (factorWith isPrime n).numDivisors = .ok c ∧
      (factorWith isPrime n).allDivisors = .ok L ∧ L.Pairwise (· < ·) ∧
      (∀ d : Int, d ∈ L ↔ 0 < d ∧ d ∣ n) ∧
      ∃ g : Nat → Int, (∀ k : Nat, (factorWith isPrime n).kthDivisor k = .ok (g k)) ∧
        Set.BijOn g (Set.Iio c) {d | d ∈ L} := by
  obtain ⟨t, fs, hF, hfs, -, hne⟩ := factorWith_of_ne_zero hn hP
  obtain ⟨L, hnum, hall, hinc, hmem, hkth, hbij⟩ := allDivisors_spec meaning_int
    Function.injective_id keyOrder_int hne (by rw [hF]; exact hfs.primeBases)
  refine ⟨_, L, hnum, hall, hinc, fun d => ?_, _, hkth, hbij⟩
  rw [hmem, hF]
  show normalize d = d ∧ d ∣ prodIn id (castFactors fs) ↔ _
  rw [hfs.prodIn_castFactors, Int.nonneg_iff_normalize_eq_self, Int.dvd_natAbs]
  constructor
  · rintro ⟨hd0, hd⟩
    refine ⟨lt_of_le_of_ne hd0 ?_, hd⟩
    rintro rfl
    exact hn (zero_dvd_iff.1 hd)
  · rintro ⟨hd0, hd⟩
    exact ⟨hd0.le, hd⟩

/-- **Maximal proper divisors of an integer**, in strictly increasing order. -/
theorem maximalProperDivisors_increasing (hn : n ≠ 0) (hP : SoundUpTo isPrime n.natAbs) :
    ∃ M, (factorWith isPrime n).maximalProperDivisors = .ok M ∧ M.Pairwise (· < ·) ∧
      ∀ d : Int, d ∈ M ↔ ∃ p : Nat, p.Prime ∧ (p : Int) ∣ n ∧ d = n / p := by
  obtain ⟨xs, hM, hnd, hmem⟩ := maximalProperDivisors_of_ne_zero hn hP
  exact ⟨_, hM, sortBases_increasing keyOrder_int hnd, fun d => by
    rw [(sortBases_perm xs).mem_iff, hmem]⟩

end Nonzero

end FiniteRings.Arith

/-! ### Polynomials over GF(2) -/

namespace FiniteRings.GF2Poly

open Polynomial Factorization

/-- Every polynomial over GF(2) is normalized: it is zero or monic. -/
theorem normalize_toPoly (p : GF2Poly) : normalize p.toPoly = p.toPoly := by
  by_cases h : p.bits = 0
  · rw [toPoly_eq_zero.2 h, normalize_zero]
  · exact (toPoly_monic h).normalize_eq_self

/-- Sorted irreducible factors are prime bases. -/
theorem SortedFactors.primeBases {fs : List (GF2Poly × Nat)} (hs : SortedFactors fs)
    (hirr : ∀ pe ∈ fs, Irreducible pe.1.toPoly) : PrimeBases toPoly fs :=
  ⟨fun pe hpe => (hirr pe hpe).prime, fun pe _ => normalize_toPoly pe.1,
    hs.increasing.imp fun hlt heq => hlt.ne (congrArg bits (toPoly_injective heq))⟩

/-- The factorization of a nonzero `f` of degree at most 64 holds something, over prime bases
whose product is `f`. -/
theorem factor_of_ne_zero {f : GF2Poly} (hf : f.bits ≠ 0) (hle : f.degree ≤ 64) :
    ∃ F, factor f = .ok F ∧ (∀ query, F.requireNonempty query = .ok ()) ∧
      PrimeBases toPoly F.factors ∧ prodIn toPoly F.factors = f.toPoly := by
  by_cases h0 : f.degree = 0
  · -- a constant is one, its own trivial factor
    obtain rfl := eq_one_of_degree_eq_zero hf h0
    exact ⟨⟨some ⟨1⟩, []⟩, rfl, fun _ => rfl, ⟨nofun, nofun, List.Pairwise.nil⟩, toPoly_one.symm⟩
  obtain ⟨F, hF, hext⟩ := factor_extends (Nat.pos_of_ne_zero h0) hle
  obtain ⟨htriv, hsorted, hprod, hbases, -⟩ := hext.of_empty
  -- a polynomial of positive degree has a factor
  have hnil : F.factors ≠ [] := by
    intro hnil
    rw [hnil, polyProd_nil, ← toPoly_one, toPoly_inj] at hprod
    rw [← hprod] at h0
    exact h0 rfl
  refine ⟨F, hF, fun query => ?_, hsorted.primeBases fun pe hpe => (hbases pe hpe).2 rfl, hprod⟩
  rw [requireNonempty, if_neg (by simp [hnil])]

/-- **Divisors of a polynomial.**  For `f ≠ 0` of degree at most 64, `allDivisors` lists the
divisors of `f` in strictly increasing order of their patterns. -/
theorem allDivisors_of_ne_zero {f : GF2Poly} (hf : f.bits ≠ 0) (hle : f.degree ≤ 64) :
    ∃ F L, factor f = .ok F ∧ F.allDivisors = .ok L ∧ L.Pairwise (fun a b => a.bits < b.bits) ∧
      ∀ d : GF2Poly, d ∈ L ↔ d.toPoly ∣ f.toPoly := by
  obtain ⟨F, hF, hne, hbases, hprod⟩ := factor_of_ne_zero hf hle
  obtain ⟨L, -, hall, hinc, hmem, -⟩ := allDivisors_spec meaning_toPoly toPoly_injective
    keyOrder_bits hne hbases
  refine ⟨F, L, hF, hall, hinc, fun d => ?_⟩
  rw [hmem, hprod]
  exact and_iff_right (normalize_toPoly d)

end FiniteRings.GF2Poly

namespace FiniteRings

/-- **Listing divisors.**  For a nonzero integer `n` and a test that calls no composite number up
to `|n|` prime, the factorization of `n` lists the positive divisors of `n` in strictly increasing
order, `kthDivisor` numbers them one to one from `0` below their count, and the maximal proper
divisors are the quotients of `n` by the primes dividing it, in strictly increasing order. For a
nonzero polynomial of degree at most 64 the factorization lists all its divisors in strictly
increasing order of their patterns. -/
theorem divisors_enumerated :
    (∀ (isPrime : Nat → Bool) (n : Int), n ≠ 0 → Arith.SoundUpTo isPrime n.natAbs →
      (∃ c L, (Arith.factorWith isPrime n).numDivisors = .ok c ∧
        (Arith.factorWith isPrime n).allDivisors = .ok L ∧ L.Pairwise (· < ·) ∧
        (∀ d : Int, d ∈ L ↔ 0 < d ∧ d ∣ n) ∧
        ∃ g : Nat → Int, (∀ k : Nat, (Arith.factorWith isPrime n).kthDivisor k = .ok (g k)) ∧
          Set.BijOn g (Set.Iio c) {d | d ∈ L}) ∧
      ∃ M, (Arith.factorWith isPrime n).maximalProperDivisors = .ok M ∧ M.Pairwise (· < ·) ∧
        ∀ d : Int, d ∈ M ↔ ∃ p : Nat, p.Prime ∧ (p : Int) ∣ n ∧ d = n / p) ∧
    ∀ f : GF2Poly, f.bits ≠ 0 → f.degree ≤ 64 →
      ∃ F L, GF2Poly.factor f = .ok F ∧ F.allDivisors = .ok L ∧
        L.Pairwise (fun a b => a.bits < b.bits) ∧ ∀ d : GF2Poly, d ∈ L ↔ d.toPoly ∣ f.toPoly :=
  ⟨fun _ _ hn hP => ⟨Arith.allDivisors_of_ne_zero hn hP, Arith.maximalProperDivisors_increasing hn hP⟩,
    fun _ hf hle => GF2Poly.allDivisors_of_ne_zero hf hle⟩

theorem divisors_enumerated_twelve :
    (∃ L, (Arith.factorWith Arith.decidePrime (-12)).allDivisors = .ok L ∧
        ∀ d : Int, d ∈ L ↔ 0 < d ∧ d ∣ -12) ∧
      ∃ F L, GF2Poly.factor ⟨12⟩ = .ok F ∧ F.allDivisors = .ok L ∧
        ∀ d : GF2Poly, d ∈ L ↔ d.toPoly ∣ GF2Poly.toPoly ⟨12⟩ := by
  obtain ⟨hint, hpoly⟩ := divisors_enumerated
  obtain ⟨⟨_, L, -, hall, -, hmem, -⟩, -⟩ :=
    hint Arith.decidePrime (-12) (by decide) (Arith.soundUpTo_decidePrime _)
  obtain ⟨F, L', hF, hall', -, hmem'⟩ := hpoly ⟨12⟩ (by decide) (by decide)
  exact ⟨⟨L, hall, hmem⟩, F, L', hF, hall', hmem'⟩

end FiniteRings
