import Mathlib
import FiniteRings.Proofs.GF2Poly.Berlekamp
import FiniteRings.Proofs.GF2Poly.Derivative

/-!
# What one call of the factoring recursion hands on

Square-free splitting of `f` takes the branch `squareFreeStep f`, and Berlekamp's step the split
`berlekampSplit f`. Each polynomial that either hands on to further splitting has positive degree
below that of `f`:

* the square root `r` of a square `f ≠ 1`, since `deg f = 2 * deg r` (`square_degree`);
* the common divisor `g` of `f` and a nonzero derivative, of degree at most that of the
  derivative, hence below `deg f`, and positive since `g ≠ 1`; and the quotient `f / g`, whose
  degree is `deg f - deg g` (`cofactors_degree`);
* the halves `gcd f h` and `gcd f (h + 1)`, for a kernel row `h` of degree below `deg f`: neither
  is `1`, so neither `h` nor `h + 1` is `0`, and each half divides one of them
  (`halves_degree`).

The branch `squareFree` is taken exactly for the square-free polynomials
(`squareFreeStep_eq_squareFree_iff`). The two branches that report a broken invariant never are:
`zeroGcd`, since only `0` has a zero common divisor with its derivative
(`squareFreeStep_ne_zeroGcd`), and `noSquareRoot`, since a polynomial with derivative zero is a
square. So each guard of the recursion holds, and
`splitSquares` and `berlekamp` unfold to their recursive calls
(`splitSquares_of_square`, `splitSquares_of_cofactors`, `berlekamp_of_stop`,
`berlekamp_of_halves`).
-/

namespace FiniteRings.GF2Poly

open Polynomial

/-! ### Degrees of divisors -/

theorem degree_eq_add_of_mul {a b f : GF2Poly} (h : a.toPoly * b.toPoly = f.toPoly)
    (ha : a.bits ≠ 0) (hb : b.bits ≠ 0) : f.degree = a.degree + b.degree := by
  rw [← natDegree_toPoly, ← natDegree_toPoly, ← natDegree_toPoly, ← h,
    natDegree_mul (toPoly_eq_zero.not.2 ha) (toPoly_eq_zero.not.2 hb)]

/-- A divisor of a nonzero polynomial has at most its degree. -/
theorem degree_le_of_dvd {p q : GF2Poly} (h : p.toPoly ∣ q.toPoly) (hq : q.bits ≠ 0) :
    p.degree ≤ q.degree := by
  rw [← natDegree_toPoly, ← natDegree_toPoly]
  exact natDegree_le_of_dvd h (toPoly_eq_zero.not.2 hq)

/-- A nonzero bit pattern below `2 ^ n` has degree below `n`. -/
theorem degree_lt_of_lt_two_pow {p : GF2Poly} {n : Nat} (h0 : p.bits ≠ 0) (h : p.bits < 2 ^ n) :
    p.degree < n := by
  rw [degree_eq_log2]
  exact (Nat.log2_lt h0).2 h

/-- A common divisor with a nonzero `h` has at most the degree of `h`. -/
theorem degree_gcd_le {f h : GF2Poly} (hh : h.bits ≠ 0) : (gcd f h).degree ≤ h.degree :=
  degree_le_of_dvd (by rw [toPoly_gcd]; exact gcd_dvd_right _ _) hh

theorem gcd_one_right (f : GF2Poly) : (gcd f one).bits = 1 := by
  rw [gcd_bits_eq_one_iff, one, toPoly_one]
  exact isCoprime_one_right

/-- The greatest common divisor of `f` and its derivative divides `f` exactly. -/
theorem gcd_mul_divBy {f : GF2Poly} (hg0 : (gcd f f.deriv).bits ≠ 0) :
    (gcd f f.deriv).toPoly * (divBy f (gcd f f.deriv)).toPoly = f.toPoly := by
  have hdvd : (gcd f f.deriv).toPoly ∣ f.toPoly := by
    rw [toPoly_gcd]
    exact gcd_dvd_left _ _
  have h := modByMonic_add_div f.toPoly (gcd f f.deriv).toPoly
  rwa [(modByMonic_eq_zero_iff_dvd (toPoly_monic hg0)).2 hdvd, zero_add, ← toPoly_divBy _ hg0]
    at h

/-- A common divisor with a nonzero derivative has lower degree. -/
theorem degree_gcd_deriv_lt {f : GF2Poly} (hdeg : 0 < f.degree) (hd : f.deriv.bits ≠ 0) :
    (gcd f f.deriv).degree < f.degree := by
  have hD0 : derivative f.toPoly ≠ 0 := by
    rw [← toPoly_deriv]
    exact toPoly_eq_zero.not.2 hd
  calc (gcd f f.deriv).degree ≤ f.deriv.degree := degree_gcd_le hd
    _ = (derivative f.toPoly).natDegree := by rw [← natDegree_toPoly, toPoly_deriv]
    _ < f.toPoly.natDegree := natDegree_derivative_lt (by rw [natDegree_toPoly]; omega)
    _ = f.degree := natDegree_toPoly f

/-! ### The square-free step -/

section SquareFree

variable {f : GF2Poly}

theorem squareFreeStep_eq_squareFree_iff :
    squareFreeStep f = .squareFree ↔ (gcd f f.deriv).bits = 1 := by
  rw [squareFreeStep]
  by_cases h0 : (gcd f f.deriv).bits = 0
  · rw [if_pos h0, h0]
    exact iff_of_false (by split <;> exact fun h => by cases h) (by decide)
  rw [if_neg h0]
  by_cases h1 : (gcd f f.deriv).bits = 1
  · rw [if_pos h1]
    exact iff_of_true rfl h1
  rw [if_neg h1]
  refine iff_of_false (fun h => ?_) h1
  split at h
  · split at h <;> cases h
  · cases h

/-- **Entering Berlekamp's step.**  Square-free splitting hands `f` to Berlekamp's step exactly
when `f` is prime to its derivative, which is when `f` is square-free. -/
theorem squareFreeStep_eq_squareFree_iff_squarefree :
    squareFreeStep f = .squareFree ↔ Squarefree f.toPoly :=
  squareFreeStep_eq_squareFree_iff.trans (gcd_deriv_eq_one_iff f)

/-- Only `0` is kept as it is: a nonzero `f` has a nonzero common divisor with its derivative. -/
theorem squareFreeStep_ne_keep (hf : f.bits ≠ 0) : squareFreeStep f ≠ .keep := by
  rw [squareFreeStep, if_neg (gcd_bits_ne_zero hf _)]
  split
  · exact fun h => by cases h
  split
  · split <;> exact fun h => by cases h
  · exact fun h => by cases h

/-- **The invariant of square-free splitting.**  A polynomial has a zero common divisor with its
derivative only when it is zero itself, so the branch that reports a broken invariant is never
taken. -/
theorem squareFreeStep_ne_zeroGcd : squareFreeStep f ≠ .zeroGcd := by
  rw [squareFreeStep]
  split
  · next hg =>
    rw [if_pos ((gcd_bits_eq_zero_iff f f.deriv).1 hg).1]
    exact fun h => by cases h
  split
  · exact fun h => by cases h
  split
  · split <;> exact fun h => by cases h
  · exact fun h => by cases h

/-- A polynomial with derivative zero always has its square root. -/
theorem squareFreeStep_ne_noSquareRoot : squareFreeStep f ≠ .noSquareRoot := by
  rw [squareFreeStep]
  split
  · split <;> exact fun h => by cases h
  split
  · exact fun h => by cases h
  split
  · next hd =>
    obtain ⟨r, hr, -⟩ := squareRoot_spec hd
    rw [hr]
    exact fun h => by cases h
  · exact fun h => by cases h

/-- The square branch: `f ≠ 0, 1` has derivative zero and is the square of `r`. -/
theorem squareFreeStep_eq_square {r : GF2Poly} (h : squareFreeStep f = .square r) :
    f.bits ≠ 0 ∧ f.bits ≠ 1 ∧ r.toPoly ^ 2 = f.toPoly := by
  rw [squareFreeStep] at h
  split at h
  · split at h <;> cases h
  · next hg0 =>
    split at h
    · cases h
    · next hg1 =>
      split at h
      · next hd =>
        obtain ⟨r', hr', hsq⟩ := squareRoot_spec hd
        rw [hr'] at h
        cases h
        -- with a zero derivative, `gcd f 0 = f`
        have hgf : gcd f f.deriv = f := by
          rw [← toPoly_inj, toPoly_gcd, toPoly_eq_zero.2 hd, gcd_zero_right,
            (toPoly_monic fun h0 => hg0 (by rw [← toPoly_eq_zero, toPoly_gcd, toPoly_eq_zero.2 hd,
              gcd_zero_right, toPoly_eq_zero.2 h0, normalize_zero])).normalize_eq_self]
        rw [hgf] at hg0 hg1
        exact ⟨hg0, hg1, hsq⟩
      · cases h

/-- The cofactor branch: `g = gcd f f'` is neither `0` nor `1`, the derivative is nonzero, and
`q = f / g`. -/
theorem squareFreeStep_eq_cofactors {g q : GF2Poly} (h : squareFreeStep f = .cofactors g q) :
    g = gcd f f.deriv ∧ q = divBy f g ∧ g.bits ≠ 0 ∧ g.bits ≠ 1 ∧ f.deriv.bits ≠ 0 := by
  rw [squareFreeStep] at h
  split at h
  · split at h <;> cases h
  · next hg0 =>
    split at h
    · cases h
    · next hg1 =>
      split at h
      · split at h <;> cases h
      · next hd =>
        cases h
        exact ⟨rfl, rfl, hg0, hg1, hd⟩

/-- **The square root descends.**  It has positive degree, half that of `f`. -/
theorem square_degree {r : GF2Poly} (h : squareFreeStep f = .square r) :
    0 < r.degree ∧ r.degree < f.degree := by
  obtain ⟨hf0, hf1, hsq⟩ := squareFreeStep_eq_square h
  have hr0 := (bits_ne_zero_of_mul (by rw [← sq]; exact hsq) hf0).1
  have hdeg : f.degree = 2 * r.degree := by
    rw [← natDegree_toPoly, ← natDegree_toPoly, ← hsq, natDegree_pow]
  have hfpos := degree_pos_of_ne hf0 hf1
  omega

/-- **The cofactors descend.**  The common divisor with the derivative and the quotient by it
both have positive degree below that of `f`, and multiply to `f`. -/
theorem cofactors_degree {g q : GF2Poly} (h : squareFreeStep f = .cofactors g q) :
    0 < g.degree ∧ g.degree < f.degree ∧ 0 < q.degree ∧ q.degree < f.degree ∧
      g.toPoly * q.toPoly = f.toPoly := by
  obtain ⟨rfl, rfl, hg0, hg1, hd⟩ := squareFreeStep_eq_cofactors h
  have hgf := gcd_mul_divBy hg0
  -- a nonzero derivative means positive degree
  have hdeg : 0 < f.degree := by
    refine Nat.pos_of_ne_zero fun h0 => hd ?_
    rw [← toPoly_eq_zero, toPoly_deriv]
    exact derivative_of_natDegree_zero (by rw [natDegree_toPoly, h0])
  have hf0 := bits_ne_zero_of_degree_pos hdeg
  have hq0 := (bits_ne_zero_of_mul hgf hf0).2
  have hlt := degree_gcd_deriv_lt hdeg hd
  have hgpos := degree_pos_of_ne hg0 hg1
  have hdegs := degree_eq_add_of_mul hgf hg0 hq0
  exact ⟨hgpos, hlt, by omega, by omega, hgf⟩

end SquareFree

/-! ### Berlekamp's halves -/

/-- `firstSplit` answers halves only from a row `v` of its list: the greatest common divisors of
`f` with the polynomial of `v` and with it plus one, both other than `1`. -/
theorem firstSplit_eq_halves {f : GF2Poly} {dim : Nat} :
    ∀ {vs : List BitRow} {f₁ f₂ : GF2Poly} {d : Nat},
      firstSplit f dim vs = .ok (.halves f₁ f₂ d) → ∃ v ∈ vs,
        f₁ = gcd f ⟨v.masked⟩ ∧ f₂ = gcd f (⟨v.masked⟩ + one) ∧ f₁.bits ≠ 1 ∧ f₂.bits ≠ 1
  | [], _, _, _, h => by cases h
  | v :: vs, f₁, f₂, d, h => by
    rw [firstSplit] at h
    split at h
    · cases h
    dsimp only at h
    split at h
    · obtain ⟨u, hu, hrest⟩ := firstSplit_eq_halves h
      exact ⟨u, List.mem_cons_of_mem _ hu, hrest⟩
    · next hs =>
      cases h
      exact ⟨v, List.mem_cons_self, rfl, rfl, (not_or.1 hs).1, (not_or.1 hs).2⟩

/-- A matrix is built only for `f` of degree from 1 to 64, with one column per coefficient. -/
theorem berlekampMatrix_eq_ok {f : GF2Poly} {M : BitMatrix} (h : berlekampMatrix f = .ok M) :
    0 < f.degree ∧ f.degree ≤ 64 ∧ M.cols = f.degree := by
  have hbounds : 0 < f.degree ∧ f.degree ≤ 64 := by
    by_contra hout
    -- the zero matrix of that shape already fails
    have hz : ∃ e, BitMatrix.zeros f.degree f.degree = .error e := by
      rw [BitMatrix.zeros]
      split
      · exact ⟨_, rfl⟩
      · rw [BitMatrix.ofRows, dif_neg (by simp only [List.length_replicate]; omega),
          dif_neg (by omega)]
        exact ⟨_, rfl⟩
    obtain ⟨e, he⟩ := hz
    rw [berlekampMatrix] at h
    split at h
    · cases h
    · simp only [he, bind, Except.bind] at h
      cases h
  obtain ⟨M', hM', hcols, -⟩ := berlekampMatrix_spec hbounds.1 hbounds.2
  rw [hM', Except.ok.injEq] at h
  exact ⟨hbounds.1, hbounds.2, h ▸ hcols⟩

/-- Berlekamp's step answers halves only through `firstSplit`, on the rows of a kernel basis of
its matrix. -/
theorem berlekampSplit_eq_halves {f f₁ f₂ : GF2Poly} {dim : Nat}
    (h : berlekampSplit f = .ok (.halves f₁ f₂ dim)) :
    ∃ M, berlekampMatrix f = .ok M ∧ ∃ b, M.echelon.kernelBasis = .ok (some b) ∧
      firstSplit f (f.degree - M.echelon.leadingNonzero) b.bitRows = .ok (.halves f₁ f₂ dim) := by
  rw [berlekampSplit] at h
  cases hM : berlekampMatrix f with
  | error e =>
    simp only [hM, bind, Except.bind] at h
    cases h
  | ok M =>
    simp only [hM, bind, Except.bind, pure, Except.pure] at h
    split at h
    · cases h
    cases hb : M.echelon.kernelBasis with
    | error e =>
      rw [hb] at h
      cases h
    | ok res =>
      rw [hb] at h
      cases res with
      | none => cases h
      | some b =>
        simp only at h
        split at h
        · exact ⟨M, rfl, b, hb, h⟩
        · cases h

/-- The rows of a kernel basis are vectors of the width of the matrix. -/
theorem masked_lt_of_kernelBasis {m b : BitMatrix} (hb : m.kernelBasis = .ok (some b))
    {v : BitRow} (hv : v ∈ b.bitRows) : v.masked < 2 ^ m.cols := by
  obtain ⟨res, hres, hspec⟩ := BitMatrix.kernelBasis_spec m
  rw [hb, Except.ok.injEq] at hres
  subst hres
  obtain ⟨-, -, -, hmem⟩ := hspec
  exact (BitMatrix.mem_kernel.1 (hmem v.masked (List.mem_map_of_mem hv)).1).1

/-- Only a polynomial other than `1` has a common divisor other than `1` with `f`. -/
theorem bits_ne_one_of_gcd {f p : GF2Poly} (h : (gcd f p).bits ≠ 1) : p.bits ≠ 1 := fun h1 =>
  h (by rw [show p = one from congrArg GF2Poly.mk h1]; exact gcd_one_right f)

/-- **The halves descend.**  Each half that Berlekamp's step finds has positive degree below
that of `f`. -/
theorem halves_degree {f f₁ f₂ : GF2Poly} {dim : Nat}
    (h : berlekampSplit f = .ok (.halves f₁ f₂ dim)) :
    0 < f₁.degree ∧ f₁.degree < f.degree ∧ 0 < f₂.degree ∧ f₂.degree < f.degree := by
  obtain ⟨M, hM, b, hb, hfirst⟩ := berlekampSplit_eq_halves h
  obtain ⟨hdeg, -, hcols⟩ := berlekampMatrix_eq_ok hM
  have hf := bits_ne_zero_of_degree_pos hdeg
  obtain ⟨v, hv, rfl, rfl, h₁, h₂⟩ := firstSplit_eq_halves hfirst
  -- the row is a kernel vector, so its polynomial `h` has degree below `deg f`
  have hlt : v.masked < 2 ^ f.degree := by
    rw [← hcols]
    exact masked_lt_of_kernelBasis hb hv
  -- neither `h` nor `h + 1` is zero: the other would be `1`, and its half `gcd f 1 = 1`
  have hh0 : v.masked ≠ 0 := fun h0 =>
    bits_ne_one_of_gcd h₂ (by show v.masked ^^^ 1 = 1; rw [h0]; rfl)
  have hh1 : (⟨v.masked⟩ + one : GF2Poly).bits ≠ 0 := fun h0 =>
    bits_ne_one_of_gcd h₁ (Nat.eq_of_xor_eq_zero h0)
  have hlt' : (⟨v.masked⟩ + one : GF2Poly).bits < 2 ^ f.degree :=
    Nat.xor_lt_two_pow hlt (Nat.one_lt_two_pow hdeg.ne')
  have hdeg₁ := degree_gcd_le (f := f) (h := ⟨v.masked⟩) hh0
  have hdeg₂ := degree_gcd_le (f := f) hh1
  have hv₁ := degree_lt_of_lt_two_pow (p := ⟨v.masked⟩) hh0 hlt
  have hv₂ := degree_lt_of_lt_two_pow hh1 hlt'
  exact ⟨degree_pos_of_ne (gcd_bits_ne_zero hf _) h₁, by omega,
    degree_pos_of_ne (gcd_bits_ne_zero hf _) h₂, by omega⟩

/-! ### The recursive calls -/

section Calls

variable {deep : Bool} {f : GF2Poly} {acc : Factors}

theorem splitSquares_of_squareFree (h : squareFreeStep f = .squareFree) :
    splitSquares deep f acc = berlekamp deep f acc := by
  rw [splitSquares, h]

/-- A constant, `0` or `1`, is inserted as it is. -/
theorem splitSquares_of_degree_eq_zero (h0 : f.degree = 0) :
    splitSquares deep f acc = .ok (acc.insertFactor f 1) := by
  cases hstep : squareFreeStep f with
  | keep => rw [splitSquares, hstep]
  | zeroGcd => exact absurd hstep squareFreeStep_ne_zeroGcd
  | squareFree => rw [splitSquares_of_squareFree hstep, berlekamp, if_pos (by omega)]
  | noSquareRoot => exact absurd hstep squareFreeStep_ne_noSquareRoot
  | square r => exact absurd (square_degree hstep).2 (by omega)
  | cofactors g q => exact absurd (cofactors_degree hstep).2.1 (by omega)

/-- A square is split through its square root, whose factors come back squared. -/
theorem splitSquares_of_square {r : GF2Poly} (h : squareFreeStep f = .square r) :
    splitSquares deep f acc = (do
      let s ← splitSquares deep r Factorization.empty
      let s ← s.expAll 2
      return acc.merge s) := by
  rw [splitSquares, h]
  exact dif_pos (square_degree h).2

/-- Otherwise the common divisor with the derivative is split, and then the quotient by it. -/
theorem splitSquares_of_cofactors {g q : GF2Poly} (h : squareFreeStep f = .cofactors g q) :
    splitSquares deep f acc = splitSquares deep g acc >>= splitSquares deep q := by
  obtain ⟨-, hg, -, hq, -⟩ := cofactors_degree h
  rw [splitSquares, h]
  exact dif_pos ⟨hg, hq⟩

/-- Berlekamp's step inserts both halves as they are when the kernel has dimension two or the
run splits only once. -/
theorem berlekamp_of_stop {f₁ f₂ : GF2Poly} {dim : Nat} (h2 : ¬f.degree < 2)
    (h : berlekampSplit f = .ok (.halves f₁ f₂ dim)) (hstop : dim = 2 ∨ !deep) :
    berlekamp deep f acc = .ok ((acc.insertFactor f₁ 1).insertFactor f₂ 1) := by
  rw [berlekamp, if_neg h2, h]
  simp only
  rw [if_pos hstop]

/-- Berlekamp's step splits the halves further when the kernel has dimension above two and the
run is a full one. -/
theorem berlekamp_of_halves {f₁ f₂ : GF2Poly} {dim : Nat} (h2 : ¬f.degree < 2)
    (h : berlekampSplit f = .ok (.halves f₁ f₂ dim)) (hdeep : ¬(dim = 2 ∨ !deep)) :
    berlekamp deep f acc = splitSquares deep f₁ acc >>= splitSquares deep f₂ := by
  obtain ⟨-, h₁, -, h₂⟩ := halves_degree h
  rw [berlekamp, if_neg h2, h]
  simp only
  rw [if_neg hdeep]
  exact dif_pos ⟨h₁, h₂⟩

end Calls

end FiniteRings.GF2Poly
