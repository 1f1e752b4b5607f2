import Mathlib
import FiniteRings.Proofs.Arith.Divisors
import FiniteRings.Proofs.GF2Poly.Ring
import FiniteRings.GF2Poly.Factor

/-!
# The laws of factorizations

A factorization is built from the empty one by steps: a trivial factor is multiplied in, a factor
is inserted with a multiplicity, another factorization built the same way is merged in, or all is
raised to a positive power (`Reachable`). Whatever the order of the steps, and whatever the bases
and multiplicities:

* the factors stay strictly increasing, so no base occurs twice, and every multiplicity is
  positive (`Reachable.sorted`);
* the value `(trivial, or one) * ∏ p ^ e`, read in a commutative monoid through a map `φ` that
  the bases' product and powers respect, moves as a homomorphism: inserting `p ^ e` multiplies it
  by `φ p ^ e` (by one when `e ≤ 0`), a trivial factor `u` by `φ u`, merging `g` by the value of
  `g`, and raising to the power `e` raises it (`eval_insertFactor`, `eval_insertTrivial`,
  `eval_merge`, `expAll_eq_ok`);
* `unfactor` computes that value for any factorization that holds something (`unfactor_eq_ok`).

The order needs only that the bases compare through an injective key (`KeyOrder`), the values
only that `φ` respects one, products and powers, and that positive powers succeed (`Meaning`).
Integers, read as themselves and ordered as numbers, and polynomials over GF(2), read in
`(ZMod 2)[X]` and ordered by their bit patterns, are both such bases (`factorization_laws`).
Raising to the power zero is the one step that may fail: zero to the power zero is undefined for
polynomials, and a failing step builds no new factorization.
-/

namespace FiniteRings.Factorization

open FactorBase

/-! ### The value -/

section Value

variable {α M : Type} [CommMonoid M]

/-- The product of `φ p ^ e` over the factors. -/
def prodIn (φ : α → M) (fs : List (α × Nat)) : M := (fs.map fun pe => φ pe.1 ^ pe.2).prod

/-- The value `(trivial, or one) * ∏ p ^ e`, read in `M` through `φ`. -/
def eval (φ : α → M) (f : Factorization α) : M := (f.trivial.map φ).getD 1 * prodIn φ f.factors

variable {φ : α → M}

@[simp] theorem prodIn_nil : prodIn φ [] = 1 := rfl

@[simp] theorem prodIn_cons (p : α) (e : Nat) (fs : List (α × Nat)) :
    prodIn φ ((p, e) :: fs) = φ p ^ e * prodIn φ fs := rfl

theorem prodIn_map_mul (e : Nat) (fs : List (α × Nat)) :
    prodIn φ (fs.map fun pd => (pd.1, pd.2 * e)) = prodIn φ fs ^ e := by
  induction fs with
  | nil => simp
  | cons pd fs ih => rw [List.map_cons, prodIn_cons, prodIn_cons, ih, mul_pow, ← pow_mul]

end Value

variable {α : Type} [FactorBase α]

/-! ### What is asked of the bases -/

section Bases

variable {κ M : Type} [LinearOrder κ] [CommMonoid M]

/-- The bases compare as their keys do, and different bases have different keys. -/
structure KeyOrder (key : α → κ) : Prop where
  lt_iff : ∀ a b, lt a b = true ↔ key a < key b
  injective : Function.Injective key

/-- Factors strictly increasing in their keys, so that no base occurs twice, each with a
positive multiplicity. -/
structure Sorted (key : α → κ) (fs : List (α × Nat)) : Prop where
  increasing : fs.Pairwise fun a b => key a.1 < key b.1
  pos : ∀ pe ∈ fs, 0 < pe.2

/-- The base operations read in `M` through `φ`: one, products and powers are respected, and a
positive power always succeeds. -/
structure Meaning (φ : α → M) : Prop where
  map_one : φ one = 1
  map_mul : ∀ a b, φ (mul a b) = φ a * φ b
  map_pow : ∀ (a : α) (e : Nat) (b : α), pow a e = .ok b → φ b = φ a ^ e
  pow_pos : ∀ (a : α) (e : Nat), 0 < e → ∃ b, pow a e = .ok b

end Bases

section Steps

variable {κ M : Type} [LinearOrder κ] [CommMonoid M] {key : α → κ} {φ : α → M}

/-! ### The trivial factor -/

/-- Multiplying in a trivial factor `u` multiplies the value by `φ u`. -/
theorem eval_insertTrivial (hφ : Meaning φ) (f : Factorization α) (u : Option α) :
    eval φ (f.insertTrivial u) = eval φ f * (u.map φ).getD 1 := by
  cases u with
  | none => rw [insertTrivial, Option.map_none, Option.getD_none, mul_one]
  | some u =>
    rw [insertTrivial, eval, eval]
    cases f.trivial with
    | none => simp only [Option.map_some, Option.getD_some, Option.map_none, Option.getD_none,
        one_mul, mul_comm]
    | some t => simp only [Option.map_some, Option.getD_some, hφ.map_mul, mul_right_comm]

/-! ### Powers -/

theorem expAll_of_none {f : Factorization α} (ht : f.trivial = none) (e : Nat) :
    f.expAll e = .ok ⟨none, f.factors.map fun pd => (pd.1, pd.2 * e)⟩ := by
  simp only [expAll, ht]
  rfl

/-- With a trivial factor `t`, raising to a power raises `t` too, and fails where that fails. -/
theorem expAll_of_some {f : Factorization α} {t : α} (ht : f.trivial = some t) (e : Nat) :
    f.expAll e = (fun b => ⟨some b, f.factors.map fun pd => (pd.1, pd.2 * e)⟩) <$> pow t e := by
  simp only [expAll, ht]
  cases pow t e <;> rfl

theorem factors_of_expAll_eq_ok {f f' : Factorization α} {e : Nat} (h : f.expAll e = .ok f') :
    f'.factors = f.factors.map fun pd => (pd.1, pd.2 * e) := by
  cases ht : f.trivial with
  | none =>
    rw [expAll_of_none ht] at h
    cases h
    rfl
  | some t =>
    rw [expAll_of_some ht] at h
    cases hp : pow t e with
    | error err =>
      rw [hp] at h
      cases h
    | ok b =>
      rw [hp] at h
      cases h
      rfl

theorem sorted_expAll {f f' : Factorization α} (hf : Sorted key f.factors) {e : Nat} (he : 0 < e)
    (h : f.expAll e = .ok f') : Sorted key f'.factors := by
  rw [factors_of_expAll_eq_ok h]
  refine ⟨List.pairwise_map.2 hf.increasing, fun pe hpe => ?_⟩
  obtain ⟨pd, hpd, rfl⟩ := List.mem_map.1 hpe
  exact Nat.mul_pos (hf.pos pd hpd) he

/-- Raising to the power `e` succeeds when the trivial factor has an `e`-th power, and raises the
value to the power `e`. -/
theorem expAll_eq_ok (hφ : Meaning φ) {f : Factorization α} {e : Nat}
    (hpow : ∀ t, f.trivial = some t → ∃ b, pow t e = .ok b) :
    ∃ f', f.expAll e = .ok f' ∧ eval φ f' = eval φ f ^ e := by
  cases ht : f.trivial with
  | none =>
    refine ⟨_, expAll_of_none ht e, ?_⟩
    rw [eval, eval, ht, prodIn_map_mul]
    simp
  | some t =>
    obtain ⟨b, hb⟩ := hpow t ht
    refine ⟨⟨some b, f.factors.map fun pd => (pd.1, pd.2 * e)⟩, ?_, ?_⟩
    · rw [expAll_of_some ht, hb]
      rfl
    · rw [eval, eval, ht, prodIn_map_mul]
      simp [hφ.map_pow t e b hb, mul_pow]

/-! ### Unfactoring -/

/-- Evaluating factors whose powers all succeed, from an accumulator `c`, multiplies it by their
product. -/
theorem foldlM_value (hφ : Meaning φ) : ∀ (fs : List (α × Nat)) (c : α),
    (∀ pe ∈ fs, ∃ b, pow pe.1 pe.2 = .ok b) →
    ∃ v, fs.foldlM (fun n (pe : α × Nat) => mul n <$> pow pe.1 pe.2) c = .ok v ∧
      φ v = φ c * prodIn φ fs
  | [], c, _ => ⟨c, rfl, by simp⟩
  | (p, e) :: fs, c, hpow => by
    obtain ⟨d, hd⟩ := hpow (p, e) List.mem_cons_self
    obtain ⟨v, hv, hφv⟩ := foldlM_value hφ fs (mul c d) fun pe hpe =>
      hpow pe (List.mem_cons_of_mem _ hpe)
    refine ⟨v, ?_, ?_⟩
    · rw [List.foldlM_cons, hd]
      exact hv
    · rw [hφv, hφ.map_mul, hφ.map_pow p e d hd, prodIn_cons, mul_assoc]

/-- **Unfactoring.**  A factorization that holds something, with positive multiplicities,
multiplies out to a base whose reading is its value. -/
theorem unfactor_eq_ok (hφ : Meaning φ) {f : Factorization α} (hpos : ∀ pe ∈ f.factors, 0 < pe.2)
    (hne : f.trivial.isSome ∨ f.factors ≠ []) :
    ∃ v, f.unfactor = .ok v ∧ φ v = eval φ f := by
  obtain ⟨v, hv, hφv⟩ := foldlM_value hφ f.factors (f.trivial.getD one) fun pe hpe =>
    hφ.pow_pos pe.1 pe.2 (hpos pe hpe)
  refine ⟨v, ?_, ?_⟩
  · rw [unfactor, requireNonempty, if_neg]
    · exact hv
    · rintro ⟨hnil, hnone⟩
      rcases hne with h | h
      · simp_all
      · exact h (List.isEmpty_iff.1 hnil)
  · rw [hφv, eval]
    cases f.trivial <;> simp [hφ.map_one]

/-! ### Inserting factors and merging -/

variable [DecidableEq α]

theorem mem_insertSorted (p : α) (e : Nat) {x : α × Nat} : ∀ {fs : List (α × Nat)},
    x ∈ insertSorted p e fs → x.1 = p ∨ ∃ d, (x.1, d) ∈ fs
  | [], h => by
    rw [insertSorted, List.mem_singleton] at h
    exact Or.inl (by rw [h])
  | (q, d) :: rest, h => by
    rw [insertSorted] at h
    split at h
    · rcases List.mem_cons.1 h with rfl | h
      · exact Or.inr ⟨d, List.mem_cons_self⟩
      · exact Or.inr ⟨x.2, List.mem_cons_of_mem _ h⟩
    · split at h
      · rcases List.mem_cons.1 h with rfl | h
        · exact Or.inl rfl
        · exact Or.inr ⟨x.2, h⟩
      · rcases List.mem_cons.1 h with rfl | h
        · exact Or.inr ⟨d, List.mem_cons_self⟩
        · rcases mem_insertSorted p e h with h | ⟨d', hd'⟩
          · exact Or.inl h
          · exact Or.inr ⟨d', List.mem_cons_of_mem _ hd'⟩

/-- Inserting a factor with a positive multiplicity keeps the factors sorted: it merges into an
equal base, goes before the first larger one, or goes last. -/
theorem insertSorted_sorted (hk : KeyOrder key) (p : α) {e : Nat} (he : 0 < e) :
    ∀ {fs : List (α × Nat)}, Sorted key fs → Sorted key (insertSorted p e fs)
  | [], _ => ⟨List.pairwise_singleton _ _, by simpa [insertSorted] using he⟩
  | (q, d) :: rest, h => by
    have hinc := List.pairwise_cons.1 h.increasing
    have hrest : Sorted key rest :=
      ⟨hinc.2, fun pe hpe => h.pos pe (List.mem_cons_of_mem _ hpe)⟩
    rw [insertSorted]
    split
    · -- the multiplicity of the equal base grows
      refine ⟨List.Pairwise.cons (fun b hb => hinc.1 b hb) hinc.2, fun pe hpe => ?_⟩
      rcases List.mem_cons.1 hpe with rfl | hpe
      · exact Nat.add_pos_left (h.pos _ List.mem_cons_self) e
      · exact hrest.pos pe hpe
    · split
      · -- `p` comes first
        next hlt =>
        rw [hk.lt_iff] at hlt
        refine ⟨List.Pairwise.cons (fun b hb => ?_) h.increasing, fun pe hpe => ?_⟩
        · rcases List.mem_cons.1 hb with rfl | hb
          · exact hlt
          · exact lt_trans hlt (hinc.1 b hb)
        · rcases List.mem_cons.1 hpe with rfl | hpe
          · exact he
          · exact h.pos pe hpe
      · -- `p` goes after `q`, whose key is smaller since the two differ
        next hqp hlt =>
        rw [hk.lt_iff, not_lt] at hlt
        have hqp' : key q < key p := lt_of_le_of_ne hlt fun h => hqp (hk.injective h)
        have ih := insertSorted_sorted hk p he hrest
        refine ⟨List.Pairwise.cons (fun b hb => ?_) ih.increasing, fun pe hpe => ?_⟩
        · rcases mem_insertSorted p e hb with hb | ⟨d', hd'⟩
          · exact hb ▸ hqp'
          · exact hinc.1 (b.1, d') hd'
        · rcases List.mem_cons.1 hpe with rfl | hpe
          · exact h.pos _ List.mem_cons_self
          · exact ih.pos pe hpe

theorem sorted_insertFactor (hk : KeyOrder key) {f : Factorization α} (hf : Sorted key f.factors)
    (p : α) (e : Int) : Sorted key (f.insertFactor p e).factors := by
  rw [insertFactor]
  split
  · exact hf
  · exact insertSorted_sorted hk p (by omega) hf

theorem sorted_foldl_insertFactor (hk : KeyOrder key) :
    ∀ (gs : List (α × Nat)) {f : Factorization α}, Sorted key f.factors →
      Sorted key (gs.foldl (fun f (pe : α × Nat) => f.insertFactor pe.1 pe.2) f).factors
  | [], _, hf => hf
  | (p, e) :: gs, _, hf => sorted_foldl_insertFactor hk gs (sorted_insertFactor hk hf p e)

theorem sorted_merge (hk : KeyOrder key) {f : Factorization α} (hf : Sorted key f.factors)
    (g : Factorization α) : Sorted key (f.merge g).factors := by
  rw [merge]
  refine sorted_foldl_insertFactor hk g.factors ?_
  cases g.trivial <;> exact hf

/-- Inserting `p ^ e` multiplies the product by `φ p ^ e`. -/
theorem prodIn_insertSorted (p : α) (e : Nat) : ∀ fs : List (α × Nat),
    prodIn φ (insertSorted p e fs) = φ p ^ e * prodIn φ fs
  | [] => by simp [insertSorted]
  | (q, d) :: rest => by
    rw [insertSorted]
    split
    · next h => rw [prodIn_cons, prodIn_cons, h, pow_add, mul_assoc, mul_left_comm]
    · split
      · rfl
      · rw [prodIn_cons, prodIn_cons, prodIn_insertSorted p e rest, mul_left_comm]

/-- Inserting `p` with multiplicity `e` multiplies the value by `φ p ^ e`, and by one when
`e ≤ 0`. -/
theorem eval_insertFactor (f : Factorization α) (p : α) (e : Int) :
    eval φ (f.insertFactor p e) = eval φ f * φ p ^ e.toNat := by
  rw [insertFactor]
  split
  · rw [Int.toNat_of_nonpos (by omega), pow_zero, mul_one]
  · rw [eval, eval, prodIn_insertSorted, mul_left_comm, mul_comm (φ p ^ _)]

theorem eval_foldl_insertFactor : ∀ (gs : List (α × Nat)) (f : Factorization α),
    eval φ (gs.foldl (fun f (pe : α × Nat) => f.insertFactor pe.1 pe.2) f) = eval φ f * prodIn φ gs
  | [], f => by rw [List.foldl_nil, prodIn_nil, mul_one]
  | (p, e) :: gs, f => by
    rw [List.foldl_cons, eval_foldl_insertFactor gs, eval_insertFactor, Int.toNat_natCast,
      prodIn_cons, mul_assoc]

/-- Merging `g` multiplies the value by the value of `g`. -/
theorem eval_merge (hφ : Meaning φ) (f g : Factorization α) :
    eval φ (f.merge g) = eval φ f * eval φ g := by
  rw [merge, eval_foldl_insertFactor, eval_insertTrivial hφ, mul_assoc]
  rfl

end Steps

/-! ### Runs of steps -/

variable [DecidableEq α]

/-- The factorizations that a run of steps builds from the empty one. A step that fails builds
nothing new. -/
inductive Reachable : Factorization α → Prop
  | empty : Reachable empty
  | insertTrivial {f : Factorization α} (u : Option α) : Reachable f →
      Reachable (f.insertTrivial u)
  | insertFactor {f : Factorization α} (p : α) (e : Int) : Reachable f →
      Reachable (f.insertFactor p e)
  | merge {f g : Factorization α} : Reachable f → Reachable g → Reachable (f.merge g)
  | expAll {f f' : Factorization α} {e : Nat} : 0 < e → Reachable f → f.expAll e = .ok f' →
      Reachable f'

/-- **The order invariant.**  Every factorization that a run of steps builds keeps its factors
strictly increasing, each with a positive multiplicity. -/
theorem Reachable.sorted {κ : Type} [LinearOrder κ] {key : α → κ} (hk : KeyOrder key)
    {f : Factorization α} (h : Reachable f) : Sorted key f.factors := by
  induction h with
  | empty => exact ⟨List.Pairwise.nil, fun _ h => absurd h List.not_mem_nil⟩
  | insertTrivial u _ ih => cases u <;> exact ih
  | insertFactor p e _ ih => exact sorted_insertFactor hk ih p e
  | merge _ _ ihf _ => exact sorted_merge hk ihf _
  | expAll he _ hexp ih => exact sorted_expAll ih he hexp

/-- The laws of factorizations over a base read through `φ` and ordered by `key`: what a run of
steps keeps, and how each step moves the value. -/
structure Laws {M κ : Type} [CommMonoid M] [LinearOrder κ] (φ : α → M) (key : α → κ) :
    Prop where
  sorted : ∀ f : Factorization α, Reachable f → Sorted key f.factors
  insertTrivial : ∀ (f : Factorization α) (u : Option α),
    eval φ (f.insertTrivial u) = eval φ f * (u.map φ).getD 1
  insertFactor : ∀ (f : Factorization α) (p : α) (e : Int),
    eval φ (f.insertFactor p e) = eval φ f * φ p ^ e.toNat
  merge : ∀ f g : Factorization α, eval φ (f.merge g) = eval φ f * eval φ g
  expAll : ∀ (f : Factorization α) (e : Nat), 0 < e →
    ∃ f', f.expAll e = .ok f' ∧ eval φ f' = eval φ f ^ e
  unfactor : ∀ f : Factorization α, Reachable f → (f.trivial.isSome ∨ f.factors ≠ []) →
    ∃ v, f.unfactor = .ok v ∧ φ v = eval φ f

/-- Every base with a key order and a meaning obeys the laws. -/
theorem Laws.of_meaning {M κ : Type} [CommMonoid M] [LinearOrder κ] {φ : α → M} {key : α → κ}
    (hk : KeyOrder key) (hφ : Meaning φ) : Laws φ key where
  sorted _ h := h.sorted hk
  insertTrivial := eval_insertTrivial hφ
  insertFactor := eval_insertFactor
  merge := eval_merge hφ
  expAll _ e he := expAll_eq_ok hφ fun t _ => hφ.pow_pos t e he
  unfactor _ h hne := unfactor_eq_ok hφ (h.sorted hk).pos hne

/-! ### Integers and polynomials over GF(2) -/

/-- Integers are ordered as numbers. -/
theorem keyOrder_int : KeyOrder (id : Int → Int) :=
  ⟨fun _ _ => decide_eq_true_iff, Function.injective_id⟩

/-- Integers read as themselves: square-and-multiply computes powers, and never fails. -/
theorem meaning_int : Meaning (id : Int → Int) where
  map_one := rfl
  map_mul _ _ := rfl
  map_pow a e b h := by
    obtain rfl : Arith.powAcc 1 a e = b := Except.ok.inj h
    rw [id, id, Arith.powAcc_eq, one_mul]
  pow_pos _ _ _ := ⟨_, rfl⟩

/-- Polynomials are ordered as their bit patterns, which tell them apart. -/
theorem keyOrder_bits : KeyOrder GF2Poly.bits where
  lt_iff _ _ := decide_eq_true_iff
  injective p q h := by
    cases p
    cases q
    cases h
    rfl

/-- A power of a polynomial to a natural exponent succeeds unless it is zero to the power zero,
and is the power in `(ZMod 2)[X]`. -/
theorem pow_poly_eq_ok {a : GF2Poly} {e : Nat} (h : a.bits ≠ 0 ∨ e ≠ 0) :
    ∃ b, pow a e = .ok b ∧ b.toPoly = a.toPoly ^ e := by
  obtain ⟨b, hb, hpoly⟩ := GF2Poly.pow_eq_ok (e := (e : Int)) (Int.natCast_nonneg e)
    (h.imp_right fun h => by exact_mod_cast h)
  exact ⟨b, hb, by rw [hpoly, Int.toNat_natCast]⟩

/-- Polynomials read in `(ZMod 2)[X]`. -/
theorem meaning_toPoly : Meaning GF2Poly.toPoly where
  map_one := GF2Poly.toPoly_one
  map_mul := GF2Poly.toPoly_mul
  map_pow a e b h := by
    by_cases hz : a.bits = 0 ∧ e = 0
    · -- zero to the power zero fails, so no `b` comes out of it
      obtain ⟨ha, rfl⟩ := hz
      have herr : pow a 0 = .error .zeroToTheZero := by
        show a.pow 0 = _
        rw [GF2Poly.pow, if_pos ha, if_pos rfl]
      rw [herr] at h
      cases h
    · obtain ⟨b', hb', hpoly⟩ := pow_poly_eq_ok (a := a) (e := e) (by omega)
      rw [hb'] at h
      cases h
      exact hpoly
  pow_pos a e he := (pow_poly_eq_ok (a := a) (Or.inr he.ne')).imp fun _ => And.left

/-- **Factorizations of integers and of polynomials over GF(2).**  Both obey the laws: a run of
insertions of trivial factors and of factors with any multiplicities, of merges with other such
runs, and of positive powers keeps the factors strictly increasing with positive multiplicities;
each step moves the value as a homomorphism; and `unfactor` returns the value of a factorization
that holds something. Raising to the power zero gives the value one, except on polynomials with
the trivial factor zero, where zero to the power zero is undefined and the step fails without
building a new factorization. -/
theorem factorization_laws :
    Laws (id : Int → Int) (id : Int → Int) ∧ Laws GF2Poly.toPoly GF2Poly.bits ∧
      (∀ f : Factorization Int, ∃ f', f.expAll 0 = .ok f' ∧ eval id f' = 1) ∧
      (∀ f : Factorization GF2Poly, f.trivial ≠ some GF2Poly.zero →
        ∃ f', f.expAll 0 = .ok f' ∧ eval GF2Poly.toPoly f' = 1) ∧
      (∀ f : Factorization GF2Poly, f.trivial = some GF2Poly.zero →
        f.expAll 0 = .error .zeroToTheZero) := by
  refine ⟨Laws.of_meaning keyOrder_int meaning_int, Laws.of_meaning keyOrder_bits meaning_toPoly,
    fun f => ?_, fun f hf => ?_, fun f hf => ?_⟩
  · obtain ⟨f', hexp, hval⟩ := expAll_eq_ok meaning_int (f := f) (e := 0) fun _ _ => ⟨_, rfl⟩
    exact ⟨f', hexp, by rw [hval, pow_zero]⟩
  · -- the trivial factor, if any, is a nonzero polynomial, whose power zero is one
    have hpow : ∀ t, f.trivial = some t → ∃ b, pow t 0 = .ok b := by
      intro t ht
      have htz : t.bits ≠ 0 := fun h => hf (by rw [ht]; cases t; cases h; rfl)
      exact (pow_poly_eq_ok (Or.inl htz)).imp fun _ => And.left
    obtain ⟨f', hexp, hval⟩ := expAll_eq_ok meaning_toPoly hpow
    exact ⟨f', hexp, by rw [hval, pow_zero]⟩
  · rw [expAll_of_some hf]
    rfl

end FiniteRings.Factorization
