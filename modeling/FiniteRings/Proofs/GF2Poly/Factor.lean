import Mathlib
import FiniteRings.Proofs.GF2Poly.SplitStep
import FiniteRings.Proofs.GF2Poly.Factors

/-!
# Factoring over GF(2)

`factor` fills a factorization by a recursion whose every call is on a smaller polynomial. What
one call on `f` does to the factorization it fills is `Adds`: it keeps the trivial factor and the
order, multiplies the product by `f`, counts the factors it inserts, and inserts only bases of
positive degree, irreducible in a full run. `Extends` adds that the call counts one factor
exactly when `f` is irreducible.

* A square-free `f` goes to Berlekamp's step (`berlekamp_extends`), whose split is right by
  `berlekampSplit_spec`; a square goes through its square root, whose factors come back with
  doubled multiplicities (`adds_merge_sq`); any other `f` is the product of its greatest common
  divisor with the derivative and the quotient by it, both of lower degree
  (`cofactors_degree`).
* By strong induction on the bit pattern the splitting succeeds on every polynomial of degree
  from 1 to 64 (`splitOk`).
* Sorted irreducible factors are determined by their product (`eq_of_polyProd_eq`), so `factor`
  returns the factorization of `f` into irreducibles (`factor_eq_ok`), and the single split that
  `irreducible` runs counts one factor exactly for irreducible polynomials
  (`irreducible_eq_ok`), the polynomials that trial division finds no divisor of
  (`irreducible_iff_modBy`).
-/

namespace FiniteRings.GF2Poly

open Polynomial Factorization

/-! ### Degrees of factors -/

theorem bits_lt_of_degree_lt {p q : GF2Poly} (h : p.degree < q.degree) : p.bits < q.bits := by
  rw [degree_eq_log2, degree_eq_log2] at h
  have hq : q.bits ≠ 0 := by
    intro h0
    rw [h0] at h
    exact absurd h (Nat.not_lt_zero _)
  calc p.bits < 2 ^ (p.bits.log2 + 1) := Nat.lt_log2_self
    _ ≤ 2 ^ q.bits.log2 := Nat.pow_le_pow_right (by decide) h
    _ ≤ q.bits := Nat.log2_self_le hq

/-- A product of two factors of positive degree is not irreducible. -/
theorem not_irreducible_of_mul {a b f : GF2Poly} (h : a.toPoly * b.toPoly = f.toPoly)
    (ha : 0 < a.degree) (hb : 0 < b.degree) : ¬Irreducible f.toPoly := by
  intro hirr
  rcases hirr.isUnit_or_isUnit h.symm with hu | hu
  · exact not_isUnit_of_degree_pos ha hu
  · exact not_isUnit_of_degree_pos hb hu

theorem irreducible_of_degree_one {f : GF2Poly} (h : f.degree = 1) : Irreducible f.toPoly := by
  apply irreducible_of_degree_eq_one
  rw [degree_eq_natDegree (toPoly_eq_zero.not.2 (bits_ne_zero_of_degree_pos (by omega))),
    natDegree_toPoly, h, Nat.cast_one]

/-- **Trial division.**  `f` is irreducible exactly when it has positive degree and no
polynomial of smaller positive degree divides it. -/
theorem irreducible_iff_modBy (f : GF2Poly) : Irreducible f.toPoly ↔
    0 < f.degree ∧ ∀ p : GF2Poly, 0 < p.degree → p.degree < f.degree → modBy f p ≠ ⟨0⟩ := by
  have hdvd : ∀ {p : GF2Poly}, 0 < p.degree → (modBy f p = ⟨0⟩ ↔ p.toPoly ∣ f.toPoly) :=
    fun hp => by
      have hp0 := bits_ne_zero_of_degree_pos hp
      rw [← toPoly_inj, toPoly_modBy _ hp0, toPoly_zero,
        modByMonic_eq_zero_iff_dvd (toPoly_monic hp0)]
  constructor
  · intro hirr
    refine ⟨degree_pos_of_irreducible_toPoly hirr, fun p hp hlt hmod => ?_⟩
    obtain ⟨Q, hQ⟩ := (hdvd hp).1 hmod
    obtain ⟨q, rfl⟩ := toPoly_surjective Q
    have hq0 := (bits_ne_zero_of_mul hQ.symm (bits_ne_zero_of_degree_pos (lt_trans hp hlt))).2
    have hdegs := degree_eq_add_of_mul hQ.symm (bits_ne_zero_of_degree_pos hp) hq0
    exact not_irreducible_of_mul hQ.symm hp (by omega) hirr
  · rintro ⟨hdeg, hno⟩
    by_contra hirr
    obtain ⟨a, b, ha, hb, hab⟩ := exists_split hdeg hirr
    have hdegs := degree_eq_add_of_mul hab.symm (bits_ne_zero_of_degree_pos ha)
      (bits_ne_zero_of_degree_pos hb)
    exact hno a ha (by omega) ((hdvd ha).2 ⟨b.toPoly, hab⟩)

/-! ### What a run adds -/

theorem sortedFactors_nil : SortedFactors [] :=
  ⟨List.Pairwise.nil, fun _ h => absurd h List.not_mem_nil⟩

theorem SortedFactors.tail {pe : GF2Poly × Nat} {fs : List (GF2Poly × Nat)}
    (h : SortedFactors (pe :: fs)) : SortedFactors fs :=
  ⟨(List.pairwise_cons.1 h.increasing).2, (List.forall_mem_cons.1 h.pos).2⟩

/-- Sorted factors whose multiplicities add up to one are a single factor. -/
theorem eq_single_of_sum_eq_one {fs : List (GF2Poly × Nat)} (hs : SortedFactors fs)
    (h1 : (fs.map (·.2)).sum = 1) : ∃ p, fs = [(p, 1)] := by
  match fs, hs, h1 with
  | [], _, h1 => exact absurd h1 (by simp)
  | (p, e) :: rest, hs, h1 =>
    have he := hs.pos (p, e) List.mem_cons_self
    rw [List.map_cons, List.sum_cons] at h1
    have hrest : rest = [] := by
      cases rest with
      | nil => rfl
      | cons pe rest =>
        have := hs.pos pe (List.mem_cons_of_mem _ List.mem_cons_self)
        rw [List.map_cons, List.sum_cons] at h1
        omega
    have he1 : e = 1 := by
      rw [hrest] at h1
      simpa using h1
    exact ⟨p, by rw [hrest, he1]⟩

/-- `R` is `acc` with the factors of `f` inserted, `k` of them counted with multiplicity: the
trivial factor is kept, the product is multiplied by `f`, the order is kept, and every new base
has positive degree and, in a full run, is irreducible. -/
structure Adds (deep : Bool) (f : GF2Poly) (acc R : Factors) (k : Nat) : Prop where
  trivial : R.trivial = acc.trivial
  prod : polyProd R.factors = polyProd acc.factors * f.toPoly
  sorted : SortedFactors acc.factors → SortedFactors R.factors
  count : (R.factors.map (·.2)).sum = (acc.factors.map (·.2)).sum + k
  bases : ∀ x ∈ R.factors, (∃ d, (x.1, d) ∈ acc.factors) ∨
    (0 < x.1.degree ∧ (deep = true → Irreducible x.1.toPoly))

/-- A run on `f` extends `acc`: it adds at least one factor, and exactly one when `f` is
irreducible. -/
def Extends (deep : Bool) (f : GF2Poly) (acc R : Factors) : Prop :=
  ∃ k, Adds deep f acc R k ∧ 0 < k ∧ (k = 1 ↔ Irreducible f.toPoly)

variable {deep : Bool}

theorem adds_insertFactor (acc : Factors) {p : GF2Poly} (hp : 0 < p.degree)
    (hirr : deep = true → Irreducible p.toPoly) : Adds deep p acc (acc.insertFactor p 1) 1 := by
  rw [show acc.insertFactor p 1 = acc.insertFactor p ((1 : Nat) : Int) from rfl,
    insertFactor_natCast acc p Nat.one_pos]
  refine ⟨rfl, ?_, insertSorted_sorted p 1 Nat.one_pos, insertSorted_sum p 1 _, fun x hx => ?_⟩
  · rw [insertSorted_polyProd, pow_one, mul_comm]
  · rcases mem_insertSorted p 1 hx with h | h
    · exact Or.inr (h ▸ ⟨hp, hirr⟩)
    · exact Or.inl h

/-- Runs on `g` and then on `q` add the factors of `g * q`. -/
theorem Adds.trans {g q f : GF2Poly} {acc A R : Factors} {k₁ k₂ : Nat}
    (h₁ : Adds deep g acc A k₁) (h₂ : Adds deep q A R k₂) (hf : g.toPoly * q.toPoly = f.toPoly) :
    Adds deep f acc R (k₁ + k₂) where
  trivial := h₂.trivial.trans h₁.trivial
  prod := by rw [h₂.prod, h₁.prod, ← hf, mul_assoc]
  sorted := fun h => h₂.sorted (h₁.sorted h)
  count := by rw [h₂.count, h₁.count, Nat.add_assoc]
  bases := fun x hx => by
    rcases h₂.bases x hx with ⟨d, hd⟩ | hnew
    · rcases h₁.bases (x.1, d) hd with hold | hnew
      · exact Or.inl hold
      · exact Or.inr hnew
    · exact Or.inr hnew

/-- Merging the factorization of `r`, squared, adds the factors of `r ^ 2`. -/
theorem adds_merge_sq {r f : GF2Poly} {S : Factors} {k : Nat} (acc : Factors)
    (hS : Adds deep r empty S k) (hf : r.toPoly ^ 2 = f.toPoly) :
    Adds deep f acc (acc.merge ⟨none, S.factors.map fun pd => (pd.1, pd.2 * 2)⟩) (2 * k) := by
  have hsorted : SortedFactors S.factors := hS.sorted sortedFactors_nil
  have hpos : ∀ pe ∈ S.factors.map fun pd => (pd.1, pd.2 * 2), 0 < pe.2 := by
    intro pe hpe
    obtain ⟨pd, hpd, rfl⟩ := List.mem_map.1 hpe
    exact Nat.mul_pos (hsorted.pos pd hpd) (by decide)
  have hmerge : acc.merge ⟨none, S.factors.map fun pd => (pd.1, pd.2 * 2)⟩ =
      (S.factors.map fun pd => (pd.1, pd.2 * 2)).foldl
        (fun (F : Factors) (pe : GF2Poly × Nat) => F.insertFactor pe.1 pe.2) acc := rfl
  obtain ⟨htriv, hprod, hsum, hsort, hbases⟩ := foldl_insertFactor
    (fun F pe => F.insertFactor pe.1 pe.2) (fun _ _ _ => rfl) _ acc hpos
  rw [hmerge]
  refine ⟨htriv, ?_, hsort, ?_, fun x hx => ?_⟩
  · rw [hprod, polyProd_map_mul, hS.prod, ← hf]
    simp [empty]
  · have hk : (S.factors.map (·.2)).sum = k := by simpa [empty] using hS.count
    have hmap : ((S.factors.map fun pd => (pd.1, pd.2 * 2)).map (·.2)).sum = 2 * k := by
      rw [List.map_map, ← hk, Nat.mul_comm, ← List.sum_map_mul_right]
      rfl
    rw [hsum, hmap]
  · rcases hbases x hx with hold | ⟨d, hd⟩
    · exact Or.inl hold
    · obtain ⟨pd, hpd, hpe⟩ := List.mem_map.1 hd
      rcases hS.bases pd hpd with ⟨d', hd'⟩ | hnew
      · exact absurd hd' List.not_mem_nil
      · rw [Prod.mk.injEq] at hpe
        exact Or.inr (hpe.1 ▸ hnew)

theorem extends_insertFactor (acc : Factors) {f : GF2Poly} (hirr : Irreducible f.toPoly) :
    Extends deep f acc (acc.insertFactor f 1) :=
  ⟨1, adds_insertFactor acc (degree_pos_of_irreducible_toPoly hirr) fun _ => hirr, Nat.one_pos,
    iff_of_true rfl hirr⟩

/-- Two runs adding the factors of two polynomials of positive degree extend by their
product, which is not irreducible. -/
theorem extends_of_mul {g q f : GF2Poly} {acc A R : Factors} {k₁ k₂ : Nat}
    (h₁ : Adds deep g acc A k₁) (h₂ : Adds deep q A R k₂) (hk₁ : 0 < k₁) (hk₂ : 0 < k₂)
    (hf : g.toPoly * q.toPoly = f.toPoly) (hg : 0 < g.degree) (hq : 0 < q.degree) :
    Extends deep f acc R :=
  ⟨k₁ + k₂, h₁.trans h₂ hf, by omega, iff_of_false (by omega) (not_irreducible_of_mul hf hg hq)⟩

/-! ### The two layers -/

/-- Square-free splitting of `f` succeeds and extends every accumulator, for `f` of degree from
1 to 64. -/
def SplitOk (deep : Bool) (f : GF2Poly) : Prop :=
  ∀ acc, 0 < f.degree → f.degree ≤ 64 → ∃ R, splitSquares deep f acc = .ok R ∧ Extends deep f acc R

/-- Berlekamp's step on a square-free `f` extends every accumulator, given that the splitting
succeeds on every smaller polynomial. -/
theorem berlekamp_extends {f : GF2Poly} (ih : ∀ g : GF2Poly, g.bits < f.bits → SplitOk deep g)
    (hdeg : 0 < f.degree) (hle : f.degree ≤ 64) (hsq : Squarefree f.toPoly) (acc : Factors) :
    ∃ R, berlekamp deep f acc = .ok R ∧ Extends deep f acc R := by
  by_cases h2 : f.degree < 2
  · -- degree one: irreducible
    rw [berlekamp, if_pos h2]
    exact ⟨_, rfl, extends_insertFactor acc (irreducible_of_degree_one (by omega))⟩
  obtain ⟨s, hs, hcorrect⟩ := berlekampSplit_spec hdeg hle hsq
  cases s with
  | irreducible =>
    rw [berlekamp, if_neg h2, hs]
    exact ⟨_, rfl, extends_insertFactor acc hcorrect⟩
  | halves f₁ f₂ dim =>
    obtain ⟨hprod, hpos₁, hpos₂, hirr⟩ := hcorrect
    by_cases hstop : dim = 2 ∨ (!deep) = true
    · -- both halves are inserted: irreducible when the run is full, since then `dim = 2`
      rw [berlekamp_of_stop h2 hs hstop]
      have hfull : deep = true → dim = 2 := fun hd => by
        rw [hd] at hstop
        simpa using hstop
      exact ⟨_, rfl, extends_of_mul
        (adds_insertFactor acc hpos₁ fun hd => (hirr (hfull hd)).1)
        (adds_insertFactor _ hpos₂ fun hd => (hirr (hfull hd)).2)
        Nat.one_pos Nat.one_pos hprod hpos₁ hpos₂⟩
    · rw [berlekamp_of_halves h2 hs hstop]
      obtain ⟨-, hlt₁, -, hlt₂⟩ := halves_degree hs
      obtain ⟨A, hA, k₁, hA', hk₁, -⟩ := ih f₁ (bits_lt_of_degree_lt hlt₁) acc hpos₁ (by omega)
      obtain ⟨R, hR, k₂, hR', hk₂, -⟩ := ih f₂ (bits_lt_of_degree_lt hlt₂) A hpos₂ (by omega)
      exact ⟨R, by rw [hA]; exact hR, extends_of_mul hA' hR' hk₁ hk₂ hprod hpos₁ hpos₂⟩

/-- **The splitting step.**  Square-free splitting succeeds on `f` once it succeeds on every
smaller polynomial: each branch hands on polynomials of lower degree. -/
theorem splitOk_of_lt {f : GF2Poly} (ih : ∀ g : GF2Poly, g.bits < f.bits → SplitOk deep g) :
    SplitOk deep f := by
  intro acc hdeg hle
  cases hstep : squareFreeStep f with
  | keep => exact absurd hstep (squareFreeStep_ne_keep (bits_ne_zero_of_degree_pos hdeg))
  | zeroGcd => exact absurd hstep squareFreeStep_ne_zeroGcd
  | noSquareRoot => exact absurd hstep squareFreeStep_ne_noSquareRoot
  | squareFree =>
    rw [splitSquares_of_squareFree hstep]
    exact berlekamp_extends ih hdeg hle (squareFreeStep_eq_squareFree_iff_squarefree.1 hstep) acc
  | square r =>
    -- the factors of the square root, twice
    obtain ⟨-, -, hsq⟩ := squareFreeStep_eq_square hstep
    obtain ⟨hrpos, hrlt⟩ := square_degree hstep
    rw [splitSquares_of_square hstep]
    obtain ⟨S, hS, k, hadds, hk, -⟩ := ih r (bits_lt_of_degree_lt hrlt) empty hrpos (by omega)
    have hexp := expAll_of_none hadds.trivial 2
    refine ⟨_, by simp only [hS, bind, Except.bind, hexp]; rfl, 2 * k, adds_merge_sq acc hadds hsq,
      by omega, iff_of_false (by omega) (not_irreducible_of_mul (by rw [← sq]; exact hsq)
        hrpos hrpos)⟩
  | cofactors g q =>
    -- the common divisor with the derivative, then the quotient by it
    obtain ⟨hgpos, hglt, hqpos, hqlt, hgq⟩ := cofactors_degree hstep
    rw [splitSquares_of_cofactors hstep]
    obtain ⟨A, hA, k₁, hA', hk₁, -⟩ := ih g (bits_lt_of_degree_lt hglt) acc hgpos (by omega)
    obtain ⟨R, hR, k₂, hR', hk₂, -⟩ := ih q (bits_lt_of_degree_lt hqlt) A hqpos (by omega)
    exact ⟨R, by rw [hA]; exact hR, extends_of_mul hA' hR' hk₁ hk₂ hgq hgpos hqpos⟩

/-- **Square-free splitting succeeds** on every polynomial of degree from 1 to 64, by strong
induction on its bit pattern. -/
theorem splitOk (deep : Bool) (f : GF2Poly) : SplitOk deep f := by
  induction hn : f.bits using Nat.strong_induction_on generalizing f with
  | _ n ih => exact splitOk_of_lt fun g hg => ih g.bits (hn ▸ hg) g rfl

/-! ### Unique factorization -/

section Unique

/-- An irreducible polynomial dividing a power of another is that other one. -/
theorem eq_of_dvd_pow {p q : GF2Poly} (hp : Irreducible p.toPoly) (hq : Irreducible q.toPoly)
    {d : Nat} (h : p.toPoly ∣ q.toPoly ^ d) : p = q :=
  toPoly_injective (eq_of_monic_of_associated
    (toPoly_monic (bits_ne_zero_of_degree_pos (degree_pos_of_irreducible_toPoly hp)))
    (toPoly_monic (bits_ne_zero_of_degree_pos (degree_pos_of_irreducible_toPoly hq)))
    (hp.associated_of_dvd hq (hp.prime.dvd_of_dvd_pow h)))

/-- An irreducible divisor of a product of irreducible factors is one of them. -/
theorem mem_of_dvd_polyProd {p : GF2Poly} (hp : Irreducible p.toPoly) :
    ∀ {gs : List (GF2Poly × Nat)}, (∀ pe ∈ gs, Irreducible pe.1.toPoly) →
      p.toPoly ∣ polyProd gs → ∃ d, (p, d) ∈ gs
  | [], _, h => absurd (isUnit_of_dvd_one h) hp.not_isUnit
  | (q, d) :: gs, hirr, h => by
    rw [polyProd_cons] at h
    rcases hp.prime.dvd_or_dvd h with h | h
    · rw [eq_of_dvd_pow hp (hirr _ List.mem_cons_self) h]
      exact ⟨d, List.mem_cons_self⟩
    · obtain ⟨d', hd'⟩ := mem_of_dvd_polyProd hp (List.forall_mem_cons.1 hirr).2 h
      exact ⟨d', List.mem_cons_of_mem _ hd'⟩

variable {p : GF2Poly} {e : Nat} {fs : List (GF2Poly × Nat)}
  (hs : SortedFactors ((p, e) :: fs)) (hirr : ∀ pe ∈ (p, e) :: fs, Irreducible pe.1.toPoly)
include hs hirr

omit hirr in
theorem dvd_polyProd_cons : p.toPoly ∣ polyProd ((p, e) :: fs) := by
  rw [polyProd_cons]
  exact dvd_mul_of_dvd_left (dvd_pow_self _ (hs.pos _ List.mem_cons_self).ne') _

/-- The first base of sorted irreducible factors divides no later factor. -/
theorem not_dvd_polyProd_tail : ¬p.toPoly ∣ polyProd fs := fun h => by
  obtain ⟨d, hd⟩ := mem_of_dvd_polyProd (hirr _ List.mem_cons_self)
    (List.forall_mem_cons.1 hirr).2 h
  exact lt_irrefl _ ((List.pairwise_cons.1 hs.increasing).1 (p, d) hd)

/-- The first base of sorted irreducible factors is the smallest irreducible divisor of their
product. -/
theorem bits_le_of_dvd_polyProd {q : GF2Poly} (hq : Irreducible q.toPoly)
    (h : q.toPoly ∣ polyProd ((p, e) :: fs)) : p.bits ≤ q.bits := by
  obtain ⟨d, hd⟩ := mem_of_dvd_polyProd hq hirr h
  rcases List.mem_cons.1 hd with h | h
  · rw [(Prod.mk.inj h).1]
  · exact le_of_lt ((List.pairwise_cons.1 hs.increasing).1 _ h)

end Unique

/-- Equal powers times factors not divisible by the base: the exponents and the factors agree. -/
theorem pow_mul_eq_pow_mul {P A B : (ZMod 2)[X]} (hP : P ≠ 0) (hA : ¬P ∣ A) (hB : ¬P ∣ B)
    {e d : Nat} (h : P ^ e * A = P ^ d * B) : e = d ∧ A = B := by
  rcases lt_trichotomy e d with hlt | rfl | hlt
  · rw [show d = e + (d - e) by omega, pow_add, mul_assoc] at h
    exact absurd (mul_left_cancel₀ (pow_ne_zero _ hP) h ▸
      dvd_mul_of_dvd_left (dvd_pow_self P (by omega)) B) hA
  · exact ⟨rfl, mul_left_cancel₀ (pow_ne_zero _ hP) h⟩
  · rw [show e = d + (e - d) by omega, pow_add, mul_assoc] at h
    exact absurd ((mul_left_cancel₀ (pow_ne_zero _ hP) h).symm ▸
      dvd_mul_of_dvd_left (dvd_pow_self P (by omega)) A) hB

/-- **Unique factorization.**  Two lists of sorted irreducible factors with the same product are
equal. -/
theorem eq_of_polyProd_eq : ∀ {fs gs : List (GF2Poly × Nat)}, SortedFactors fs → SortedFactors gs →
    (∀ pe ∈ fs, Irreducible pe.1.toPoly) → (∀ pe ∈ gs, Irreducible pe.1.toPoly) →
    polyProd fs = polyProd gs → fs = gs
  | [], [], _, _, _, _, _ => rfl
  | [], (q, d) :: gs, _, hgs, _, hirr, h => by
    have hdvd := dvd_polyProd_cons hgs
    rw [← h, polyProd_nil] at hdvd
    exact absurd (isUnit_of_dvd_one hdvd) (hirr _ List.mem_cons_self).not_isUnit
  | (p, e) :: fs, [], hfs, _, hirr, _, h => by
    have hdvd := dvd_polyProd_cons hfs
    rw [h, polyProd_nil] at hdvd
    exact absurd (isUnit_of_dvd_one hdvd) (hirr _ List.mem_cons_self).not_isUnit
  | (p, e) :: fs, (q, d) :: gs, hfs, hgs, hirrf, hirrg, h => by
    have hp : Irreducible p.toPoly := hirrf (p, e) List.mem_cons_self
    have hq : Irreducible q.toPoly := hirrg (q, d) List.mem_cons_self
    -- the first bases are both the smallest irreducible divisor
    have hpq : p = q := by
      have h₁ : q.bits ≤ p.bits :=
        bits_le_of_dvd_polyProd hgs hirrg hp (h ▸ dvd_polyProd_cons hfs)
      have h₂ : p.bits ≤ q.bits :=
        bits_le_of_dvd_polyProd hfs hirrf hq (h.symm ▸ dvd_polyProd_cons hgs)
      cases p
      cases q
      simp only [GF2Poly.mk.injEq] at h₁ h₂ ⊢
      omega
    subst hpq
    rw [polyProd_cons, polyProd_cons] at h
    obtain ⟨rfl, hrest⟩ := pow_mul_eq_pow_mul (hp.ne_zero) (not_dvd_polyProd_tail hfs hirrf)
      (not_dvd_polyProd_tail hgs hirrg) h
    rw [eq_of_polyProd_eq hfs.tail hgs.tail (List.forall_mem_cons.1 hirrf).2
      (List.forall_mem_cons.1 hirrg).2 hrest]

/-! ### Factoring and the irreducibility test -/

/-- A full run from the empty factorization on `f` of degree from 1 to 64 gives its
factorization: no trivial factor, sorted irreducible bases, and product `f`. -/
theorem factor_extends {f : GF2Poly} (hdeg : 0 < f.degree) (hle : f.degree ≤ 64) :
    ∃ F, factor f = .ok F ∧ Extends true f empty F := by
  rw [factor, if_neg (by omega)]
  exact splitOk true f empty hdeg hle

/-- What extending the empty factorization by `f` leaves. -/
theorem Extends.of_empty {F : Factors} {f : GF2Poly} (h : Extends deep f empty F) :
    F.trivial = none ∧ SortedFactors F.factors ∧ polyProd F.factors = f.toPoly ∧
      (∀ pe ∈ F.factors, 0 < pe.1.degree ∧ (deep = true → Irreducible pe.1.toPoly)) ∧
      ((F.factors.map (·.2)).sum = 1 ↔ Irreducible f.toPoly) := by
  obtain ⟨k, hadds, hk, hk1⟩ := h
  have hsum : (F.factors.map (·.2)).sum = k := by simpa [empty] using hadds.count
  refine ⟨hadds.trivial, hadds.sorted sortedFactors_nil, by simpa [empty] using hadds.prod,
    fun pe hpe => ?_, by rw [hsum, hk1]⟩
  rcases hadds.bases pe hpe with ⟨d, hd⟩ | hnew
  · exact absurd hd List.not_mem_nil
  · exact hnew

/-- **Factoring.**  For `f` of degree at most 64, `factor` succeeds. A polynomial of degree 0 is
its own trivial factor. Otherwise there is no trivial factor, the bases are irreducible, of
positive degree and in strictly increasing order, the multiplicities are positive, and the
product of the factors, as the library computes it too, is `f`; so the factors are the unique
factorization of `f` into irreducibles. -/
theorem factor_eq_ok (f : GF2Poly) (hle : f.degree ≤ 64) :
    ∃ F, factor f = .ok F ∧ (f.degree = 0 → F = ⟨some f, []⟩) ∧
      (0 < f.degree → F.trivial = none ∧ SortedFactors F.factors ∧
        (∀ pe ∈ F.factors, Irreducible pe.1.toPoly ∧ 0 < pe.1.degree) ∧
        polyProd F.factors = f.toPoly ∧ F.value = .ok f ∧ F.unfactor = .ok f ∧
        ∀ gs, SortedFactors gs → (∀ pe ∈ gs, Irreducible pe.1.toPoly) →
          polyProd gs = f.toPoly → gs = F.factors) := by
  by_cases h0 : f.degree = 0
  · exact ⟨_, by rw [factor, if_pos h0]; rfl, fun _ => rfl, fun h => absurd h0 (by omega)⟩
  obtain ⟨F, hF, hext⟩ := factor_extends (Nat.pos_of_ne_zero h0) hle
  obtain ⟨htriv, hsorted, hprod, hbases, -⟩ := hext.of_empty
  have hirr : ∀ pe ∈ F.factors, Irreducible pe.1.toPoly ∧ 0 < pe.1.degree :=
    fun pe hpe => ⟨(hbases pe hpe).2 rfl, (hbases pe hpe).1⟩
  -- a polynomial of positive degree has a factor
  have hnil : F.factors ≠ [] := by
    intro hnil
    rw [hnil, polyProd_nil, ← toPoly_one, toPoly_inj] at hprod
    rw [← hprod] at h0
    exact h0 rfl
  obtain ⟨hval, hunf⟩ := unfactor_eq_ok htriv
    (fun pe hpe => bits_ne_zero_of_degree_pos (hirr pe hpe).2) hprod hnil
  refine ⟨F, hF, fun h => absurd h h0, fun _ => ⟨htriv, hsorted, hirr, hprod, hval, hunf, ?_⟩⟩
  intro gs hgs hgirr hgprod
  exact eq_of_polyProd_eq hgs hsorted hgirr (fun pe hpe => (hirr pe hpe).1)
    (hgprod.trans hprod.symm)

theorem factor_sixty_three : (⟨63⟩ : GF2Poly).degree ≤ 64 ∧ ∃ F, factor ⟨63⟩ = .ok F ∧
    (∀ pe ∈ F.factors, Irreducible pe.1.toPoly) ∧ polyProd F.factors = toPoly ⟨63⟩ := by
  obtain ⟨F, hF, -, hpos⟩ := factor_eq_ok ⟨63⟩ (by decide)
  obtain ⟨-, -, hirr, hprod, -⟩ := hpos (by decide)
  exact ⟨by decide, F, hF, fun pe hpe => (hirr pe hpe).1, hprod⟩

/-- For `f` of degree at most 64 the irreducibility test succeeds and says whether `f` is
irreducible. -/
theorem irreducible_spec (f : GF2Poly) (hle : f.degree ≤ 64) :
    ∃ b, irreducible f = .ok b ∧ (b = true ↔ Irreducible f.toPoly) := by
  by_cases h0 : f.degree = 0
  · refine ⟨false, by rw [irreducible, if_pos h0], iff_of_false (by decide) fun hirr => ?_⟩
    have := degree_pos_of_irreducible_toPoly hirr
    omega
  by_cases h1 : f.degree = 1
  · exact ⟨true, by rw [irreducible, if_neg h0, if_pos h1], iff_of_true rfl
      (irreducible_of_degree_one h1)⟩
  obtain ⟨S, hS, hSext⟩ := splitOk false f empty (Nat.pos_of_ne_zero h0) hle
  obtain ⟨-, -, -, -, hS1⟩ := hSext.of_empty
  refine ⟨decide (S.numFactors = 1), by rw [irreducible, if_neg h0, if_neg h1, hS]; rfl, ?_⟩
  rw [decide_eq_true_iff, numFactors_eq_sum, hS1]

/-- **The irreducibility test.**  For `f` of degree at most 64, `irreducible f` succeeds and
says whether `f` is irreducible, that is, of positive degree with no divisor of smaller positive
degree. For `f` of positive degree, the single split it runs counts one factor exactly when the
full factorization is `f` itself, once. -/
theorem irreducible_eq_ok (f : GF2Poly) (hle : f.degree ≤ 64) :
    ∃ b, irreducible f = .ok b ∧ (b = true ↔ Irreducible f.toPoly) ∧
      (b = true ↔ 0 < f.degree ∧ ∀ p : GF2Poly, 0 < p.degree → p.degree < f.degree →
        modBy f p ≠ ⟨0⟩) ∧
      (0 < f.degree → ∃ S F, splitSquares false f empty = .ok S ∧ factor f = .ok F ∧
        (S.numFactors = 1 ↔ F = ⟨none, [(f, 1)]⟩)) := by
  -- the answer, then the trial-division form of irreducibility
  suffices h : ∃ b, irreducible f = .ok b ∧ (b = true ↔ Irreducible f.toPoly) by
    obtain ⟨b, hb, hirr⟩ := h
    refine ⟨b, hb, hirr, hirr.trans (irreducible_iff_modBy f), fun hdeg => ?_⟩
    obtain ⟨S, hS, hSext⟩ := splitOk false f empty hdeg hle
    obtain ⟨F, hF, hFext⟩ := factor_extends hdeg hle
    obtain ⟨-, -, -, -, hS1⟩ := hSext.of_empty
    obtain ⟨hFt, hFs, hFp, -, hF1⟩ := hFext.of_empty
    refine ⟨S, F, hS, hF, ?_⟩
    rw [numFactors_eq_sum, hS1]
    constructor
    · -- an irreducible `f` is its own single factor
      intro hirr
      obtain ⟨p, hp⟩ := eq_single_of_sum_eq_one hFs (hF1.2 hirr)
      rw [hp, polyProd_cons, polyProd_nil, pow_one, mul_one, toPoly_inj] at hFp
      obtain ⟨t, fs⟩ := F
      simp only at hFt hp
      rw [hFt, hp, hFp]
    · intro hFeq
      apply hF1.1
      rw [hFeq]
      rfl
  exact irreducible_spec f hle

theorem irreducible_nineteen : (⟨19⟩ : GF2Poly).degree ≤ 64 ∧
    ∃ b, irreducible ⟨19⟩ = .ok b ∧ (b = true ↔ Irreducible (toPoly ⟨19⟩)) := by
  obtain ⟨b, hb, hirr, -⟩ := irreducible_eq_ok ⟨19⟩ (by decide)
  exact ⟨by decide, b, hb, hirr⟩

/-! ### The recursion descends -/

/-- **Square-free splitting ends.**  The polynomials that one call hands on to further splitting
(the square root of a square, the common divisor with the derivative and the quotient by it, and
the two halves that Berlekamp's step splits further) have positive degree below that of `f`, so
the degree falls at every call. Berlekamp's step is entered only for `f` prime to its derivative,
which is to say square-free. For `f` of degree at most 64 the run succeeds, and when `f` has
positive degree every factor it inserts has positive degree too: `1` is never inserted. -/
theorem splitSquares_descends (deep : Bool) {f : GF2Poly} (hle : f.degree ≤ 64) (acc : Factors) :
    (∀ r, squareFreeStep f = .square r → 0 < r.degree ∧ r.degree < f.degree) ∧
    (∀ g q, squareFreeStep f = .cofactors g q →
      0 < g.degree ∧ g.degree < f.degree ∧ 0 < q.degree ∧ q.degree < f.degree) ∧
    (∀ f₁ f₂ dim, berlekampSplit f = .ok (.halves f₁ f₂ dim) →
      0 < f₁.degree ∧ f₁.degree < f.degree ∧ 0 < f₂.degree ∧ f₂.degree < f.degree) ∧
    (squareFreeStep f = .squareFree → (gcd f f.deriv).bits = 1 ∧ Squarefree f.toPoly) ∧
    ∃ R, splitSquares deep f acc = .ok R ∧
      (0 < f.degree → ∀ p ∈ R.factors, (∃ e, (p.1, e) ∈ acc.factors) ∨ 0 < p.1.degree) := by
  refine ⟨fun r h => square_degree h, fun g q h => (cofactors_degree h).imp_right fun h' =>
    ⟨h'.1, h'.2.1, h'.2.2.1⟩, fun f₁ f₂ dim h => halves_degree h, fun h =>
    ⟨squareFreeStep_eq_squareFree_iff.1 h, squareFreeStep_eq_squareFree_iff_squarefree.1 h⟩, ?_⟩
  by_cases hdeg : 0 < f.degree
  · -- a run on a polynomial of positive degree adds bases of positive degree
    obtain ⟨R, hR, k, hadds, -⟩ := splitOk deep f acc hdeg hle
    exact ⟨R, hR, fun _ p hp => (hadds.bases p hp).imp_right And.left⟩
  · exact ⟨_, splitSquares_of_degree_eq_zero (by omega), fun h => absurd h hdeg⟩

/-- `x ^ 2 + 1 = (x + 1) ^ 2` is split through its square root `x + 1`. -/
theorem splitSquares_descends_five : (⟨5⟩ : GF2Poly).degree ≤ 64 ∧
    (∀ r, squareFreeStep ⟨5⟩ = .square r → 0 < r.degree ∧ r.degree < 2) ∧
    ∃ R, splitSquares true ⟨5⟩ empty = .ok R ∧ ∀ p ∈ R.factors, 0 < p.1.degree := by
  obtain ⟨hsq, -, -, -, R, hR, hnew⟩ := splitSquares_descends true (f := ⟨5⟩) (by decide) empty
  refine ⟨by decide, hsq, R, hR, fun p hp => ?_⟩
  rcases hnew (by decide) p hp with ⟨e, he⟩ | hpos
  · exact absurd he List.not_mem_nil
  · exact hpos

end FiniteRings.GF2Poly
