import Mathlib
import FiniteRings.Proofs.Order.Orbit
import FiniteRings.Proofs.Arith.Totient

/-!
# The largest order is the exponent

`maxOrder` takes the order of every residue of a list other than zero and keeps the largest. Run
over a list that holds a residue of every unit class, the largest order is the exponent of the
group of units: the order of some unit, and a multiple of the order of each, since in a finite
commutative group an element of largest order has an order that every other order divides
(`Monoid.exists_orderOf_eq_exponent`). Both lists of units are such lists, so modulo an integer
`m ≥ 2` the largest order is Carmichael's `λ(m)`, and modulo a polynomial of degree 1 to 64 the
exponent of the units of `GF(2)[X] / (m)`. Modulo one the ring has no residue other than zero,
and the largest order is `0`.
-/

namespace FiniteRings

namespace UnitRing

variable {α : Type} [UnitRing α] {isPrime : Nat → Bool}

/-- A fold whose every step succeeds is the pure fold of the results. -/
theorem foldlM_eq_ok {β γ : Type} (f : β → γ → Outcome β) (g : β → γ → β) :
    ∀ (l : List γ) (init : β), (∀ x ∈ l, ∀ b, f b x = .ok (g b x)) →
      l.foldlM f init = .ok (l.foldl g init)
  | [], _, _ => rfl
  | x :: l, init, h => by
    rw [List.foldlM_cons, h x List.mem_cons_self, List.foldl_cons]
    exact foldlM_eq_ok f g l _ fun y hy => h y (List.mem_cons_of_mem _ hy)

theorem foldl_max_eq {l : List Int} {e : Int} (he : e ∈ l) (hle : ∀ b ∈ l, b ≤ e) (h0 : 0 ≤ e) :
    l.foldl max 0 = e := by
  have hne : l ≠ [] := List.ne_nil_of_mem he
  rw [List.foldl_max_eq_max hne, (List.max_eq_iff hne).2 ⟨he, hle⟩, max_eq_right h0]

/-- With no residue other than zero in the list, the largest order is `0`. -/
theorem maxOrder_eq_zero {us : List α} (h : ∀ x ∈ us, isZero x = true) :
    maxOrder isPrime us = .ok 0 := by
  rw [maxOrder, List.filter_eq_nil_iff.2 fun x hx => by simp [h x hx]]
  rfl

/-- `e` is the exponent of the units of a ring whose residues satisfy `Same`: the order of one
of them, and a multiple of the order of each unit, as `order` finds them with the test
`isPrime`. -/
structure IsUnitExponent (isPrime : Nat → Bool) (Same : α → Prop) (e : Nat) : Prop where
  attained : ∃ x, Same x ∧ order isPrime x = .ok e
  dvd : ∀ x, Same x → isZero x = false → isUnit x = true →
    ∃ d : Nat, order isPrime x = .ok d ∧ d ∣ e

theorem orderOf_dvd_exponent_units {M : Type} [Monoid M] {x : M} (h : IsUnit x) :
    orderOf x ∣ Monoid.exponent Mˣ := by
  rw [← h.unit_spec, orderOf_units]
  exact Monoid.order_dvd_exponent _

variable {R : Type} [CommMonoidWithZero R] {S : α → Prop} {cls : α → R}

section Exponent

variable [Finite Rˣ] [Nontrivial R] (hC : Classes S cls) (hZ : ZPowers S cls)
  (hcount : ∀ x, S x → unitCount isPrime x = .ok (Nat.card Rˣ : Int))
  (hP : Arith.SoundUpTo isPrime (Nat.card Rˣ))
include hC hZ hcount hP

theorem order_eq_orderOf_cls {x : α} (hx : S x) (hU : IsUnit (cls x)) :
    order isPrime x = .ok (orderOf (cls x) : Int) := by
  obtain ⟨u, hu⟩ := hU
  rw [← hu, orderOf_units]
  exact order_eq_orderOf hC hx hu.symm hZ (hcount x hx) hP

/-- **The largest order.**  Over a list of residues of one ring, in which every residue other
than zero is a unit and every unit class has a residue, the largest order is the exponent of the
units, which is the order of one of them and a multiple of the order of each. -/
theorem maxOrder_eq_exponent {us : List α} (hS : ∀ x ∈ us, S x)
    (hunits : ∀ x ∈ us, isZero x = false → isUnit x = true)
    (hcover : ∀ U : Rˣ, ∃ x ∈ us, cls x = U) :
    maxOrder isPrime us = .ok (Monoid.exponent Rˣ : Int) ∧
      IsUnitExponent isPrime S (Monoid.exponent Rˣ) := by
  have hexp : Monoid.ExponentExists Rˣ := Monoid.ExponentExists.of_finite
  -- the residues of `us` other than zero are units, whose orders `order` finds
  have hord : ∀ x ∈ us.filter (fun u => !isZero u),
      order isPrime x = .ok (orderOf (cls x) : Int) ∧ orderOf (cls x) ∣ Monoid.exponent Rˣ := by
    intro x hx
    obtain ⟨hxus, hz⟩ := List.mem_filter.1 hx
    have hU := (hC.isUnit (hS x hxus)).1 (hunits x hxus (by simpa using hz))
    exact ⟨order_eq_orderOf_cls hC hZ hcount hP (hS x hxus) hU, orderOf_dvd_exponent_units hU⟩
  -- a unit of largest order has a residue in the list
  obtain ⟨U, hU⟩ := Monoid.exists_orderOf_eq_exponent hexp
  obtain ⟨x₀, hx₀, hcx₀⟩ := hcover U
  have hz₀ : isZero x₀ = false := by
    rw [Bool.eq_false_iff, Ne, hC.isZero (hS x₀ hx₀), hcx₀]
    exact U.ne_zero
  have hmem : x₀ ∈ us.filter (fun u => !isZero u) := List.mem_filter.2 ⟨hx₀, by simp [hz₀]⟩
  have horder₀ : orderOf (cls x₀) = Monoid.exponent Rˣ := by rw [hcx₀, orderOf_units, hU]
  refine ⟨?_, ⟨⟨x₀, hS x₀ hx₀, by rw [(hord x₀ hmem).1, horder₀]⟩, fun x hx hz hunit => ?_⟩⟩
  · rw [maxOrder, foldlM_eq_ok _ (fun b x => max b (orderOf (cls x) : Int)) _ _
      fun x hx b => by rw [(hord x hx).1]; rfl, ← List.foldl_map (g := max)]
    refine congrArg Except.ok (foldl_max_eq ?_ ?_ (Int.natCast_nonneg _))
    · exact List.mem_map.2 ⟨x₀, hmem, by rw [horder₀]⟩
    · intro b hb
      obtain ⟨x, hx, rfl⟩ := List.mem_map.1 hb
      exact Int.ofNat_le.2 (Nat.le_of_dvd (Monoid.exponent_pos.2 hexp) (hord x hx).2)
  · have hU := (hC.isUnit hx).1 hunit
    exact ⟨_, order_eq_orderOf_cls hC hZ hcount hP hx hU, orderOf_dvd_exponent_units hU⟩

end Exponent

end UnitRing

open UnitRing Arith

variable {isPrime : Nat → Bool}

namespace IntResidue

theorem modulus_of_mem_units {m : Int} {x : IntResidue} (hx : x ∈ units m) : x.modulus = m := by
  obtain ⟨hx, -⟩ := List.mem_filter.1 hx
  rw [elements] at hx
  split at hx
  · obtain ⟨a, -, rfl⟩ := List.mem_map.1 hx
    rfl
  · exact absurd hx List.not_mem_nil

theorem isZero_of_modulus_one {x : IntResidue} (h : x.modulus = 1) : UnitRing.isZero x = true := by
  have h0 := x.residue_nonneg
  have hlt := x.residue_lt
  rw [unitRing_isZero, IntResidue.isZero, beq_iff_eq]
  omega

/-- Every unit class modulo `N` has a residue among `units N`. -/
theorem exists_mem_units {N : Nat} (hN : 0 < N) (U : (ZMod N)ˣ) :
    ∃ x ∈ units N, (x.residue : ZMod N) = U := by
  have hpos : (0 : Int) < N := by exact_mod_cast hN
  have : NeZero N := ⟨hN.ne'⟩
  -- the residue of the least natural number of the class
  have hcast : ((reduce ((U : ZMod N).val : Int) N hpos).residue : ZMod N) = U := by
    show ((((U : ZMod N).val : Int) % (N : Int) : Int) : ZMod N) = U
    rw [ZMod.intCast_mod, Int.cast_natCast, ZMod.natCast_zmod_val]
  refine ⟨reduce ((U : ZMod N).val : Int) N hpos, List.mem_filter.2 ⟨?_, ?_⟩, hcast⟩
  · rw [elements, dif_pos hpos, Int.toNat_natCast]
    exact List.mem_map.2 ⟨_, List.mem_range.2 (ZMod.val_lt _), rfl⟩
  · refine ((classes N).isUnit rfl).2 ?_
    rw [hcast]
    exact U.isUnit

/-- **The largest order modulo `N ≥ 2`** is Carmichael's `λ(N)`, the exponent of the units. -/
theorem maxOrder_eq_carmichael {N : Nat} (hN : 2 ≤ N) (hP : SoundUpTo isPrime N) :
    Modulus.maxOrder isPrime (.int N) = .ok (ArithmeticFunction.carmichael N : Int) ∧
      IsUnitExponent isPrime (fun x : IntResidue => x.modulus = N)
        (ArithmeticFunction.carmichael N) := by
  have : Fact (1 < N) := ⟨hN⟩
  have hcard : Nat.card (ZMod N)ˣ = N.totient := by
    rw [Nat.card_eq_fintype_card, ZMod.card_units_eq_totient]
  rw [ArithmeticFunction.carmichael_eq_exponent (by omega)]
  refine maxOrder_eq_exponent (classes N) (zpowers N hN) (fun x hx => ?_)
    (hcard ▸ hP.mono (Nat.totient_le N)) (fun x hx => modulus_of_mem_units hx)
    (fun x hx _ => (List.mem_filter.1 hx).2) (exists_mem_units (by omega))
  have hxN : x.modulus.toNat = N := by rw [hx, Int.toNat_natCast]
  rw [unitCount_eq x (hxN ▸ hP), hxN, hcard]

end IntResidue

namespace PolyResidue

open GF2Poly

theorem isZero_of_degree_eq_zero {x : PolyResidue} (h : x.modulus.degree = 0) :
    UnitRing.isZero x = true := by
  have hlt : x.residue.bits < 2 ^ x.modulus.degree := x.reduced
  rw [h] at hlt
  simp [PolyResidue.isZero, GF2Poly.isZero]
  omega

/-- Every unit class modulo `m` has a residue among the listed units. -/
theorem exists_mem_filter_isUnit {m : GF2Poly} (hm : 0 < m.bits) (U : (AdjoinRoot m.toPoly)ˣ) :
    ∃ x ∈ ((List.range (2 ^ m.degree)).filter fun r => (reduce ⟨r⟩ m hm).isUnit).map
        (fun r => reduce ⟨r⟩ m hm),
      AdjoinRoot.mk m.toPoly x.residue.toPoly = U := by
  obtain ⟨a, ha, hau⟩ := exists_mk_eq hm.ne' (U : AdjoinRoot m.toPoly)
  refine ⟨reduce ⟨a⟩ m hm, List.mem_map.2 ⟨a, List.mem_filter.2 ⟨List.mem_range.2 ha, ?_⟩, rfl⟩, ?_⟩
  · exact (isUnit_reduce_iff hm _).2 (hau ▸ U.isUnit)
  · rw [← hau]
    exact mk_modBy hm _

/-- **The largest order modulo `m` of degree 1 to 64** is the exponent of the units of
`GF(2)[X] / (m)`. -/
theorem maxOrder_eq_exponent {m : GF2Poly} (hdeg : 0 < m.degree) (hle : m.degree ≤ 64)
    (hP : SoundUpTo isPrime (2 ^ m.degree)) :
    Modulus.maxOrder isPrime (.poly m) = .ok (Monoid.exponent (AdjoinRoot m.toPoly)ˣ : Int) ∧
      IsUnitExponent isPrime (fun x : PolyResidue => x.modulus = m)
        (Monoid.exponent (AdjoinRoot m.toPoly)ˣ) := by
  have hm := bits_pos hdeg
  have := finite_adjoinRoot hm.ne'
  have := nontrivial_adjoinRoot hdeg
  have hcount : ∀ x : PolyResidue, x.modulus = m →
      UnitRing.unitCount isPrime x = .ok (Nat.card (AdjoinRoot m.toPoly)ˣ : Int) := by
    rintro x rfl
    exact unitCount_eq x hle
  have h := UnitRing.maxOrder_eq_exponent (classes hdeg) (zpowers hdeg) hcount
    (hP.mono (card_units_le hm.ne')) (fun x hx => ?_) (fun x hx _ => ?_)
    (exists_mem_filter_isUnit hm)
  · refine ⟨?_, h.2⟩
    rw [Modulus.maxOrder, (units_eq_filter_isUnit hm hdeg hle).1]
    exact h.1
  · obtain ⟨r, -, rfl⟩ := List.mem_map.1 hx
    rfl
  · obtain ⟨r, hr, rfl⟩ := List.mem_map.1 hx
    exact (List.mem_filter.1 hr).2

/-- Modulo a nonzero polynomial of degree `0` there are no units listed, and the largest order
is `0`. -/
theorem maxOrder_of_degree_eq_zero {m : GF2Poly} (h : m.degree = 0) :
    Modulus.maxOrder isPrime (.poly m) = .ok 0 := by
  rw [Modulus.maxOrder, PolyResidue.units, h]
  rfl

end PolyResidue

/-- **The largest order of a unit.**  Modulo an integer `m ≥ 2`, with any primality test sound up
to `m`, the largest order of a unit is Carmichael's `λ(m)`, the exponent of the units of
`ZMod m`: the order of one unit, and a multiple of the order of every unit. Modulo a polynomial
of degree 1 to 64, with the test sound up to `2 ^ deg m`, it is the exponent of the units of
`GF(2)[X] / (m)`. Modulo one and modulo a polynomial of degree `0`, where every residue is zero,
it is `0`. -/
theorem max_order_is_unit_exponent (isPrime : Nat → Bool) :
    (∀ m : Int, 2 ≤ m → SoundUpTo isPrime m.toNat →
      Modulus.maxOrder isPrime (.int m) = .ok (ArithmeticFunction.carmichael m.toNat : Int) ∧
      ArithmeticFunction.carmichael m.toNat = Monoid.exponent (ZMod m.toNat)ˣ ∧
      IsUnitExponent isPrime (fun x : IntResidue => x.modulus = m)
        (ArithmeticFunction.carmichael m.toNat)) ∧
    ((∀ x : IntResidue, x.modulus = 1 → UnitRing.isZero x = true) ∧
      Modulus.maxOrder isPrime (.int 1) = .ok 0) ∧
    (∀ m : GF2Poly, 0 < m.degree → m.degree ≤ 64 → SoundUpTo isPrime (2 ^ m.degree) →
      Modulus.maxOrder isPrime (.poly m) = .ok (Monoid.exponent (AdjoinRoot m.toPoly)ˣ : Int) ∧
      IsUnitExponent isPrime (fun x : PolyResidue => x.modulus = m)
        (Monoid.exponent (AdjoinRoot m.toPoly)ˣ)) ∧
    (∀ m : GF2Poly, m.degree = 0 →
      (∀ x : PolyResidue, x.modulus = m → UnitRing.isZero x = true) ∧
      Modulus.maxOrder isPrime (.poly m) = .ok 0) := by
  refine ⟨fun m hm hP => ?_, ⟨fun x => IntResidue.isZero_of_modulus_one, ?_⟩,
    fun m => PolyResidue.maxOrder_eq_exponent,
    fun m h => ⟨fun x hx => PolyResidue.isZero_of_degree_eq_zero (hx ▸ h),
      PolyResidue.maxOrder_of_degree_eq_zero h⟩⟩
  · lift m to Nat using (by omega)
    rw [Int.toNat_natCast] at hP ⊢
    obtain ⟨hmax, hexp⟩ := IntResidue.maxOrder_eq_carmichael (by omega) hP
    exact ⟨hmax, ArithmeticFunction.carmichael_eq_exponent (by omega), hexp⟩
  · exact maxOrder_eq_zero fun x hx =>
      IntResidue.isZero_of_modulus_one (IntResidue.modulus_of_mem_units hx)

/-- The largest orders modulo seven, modulo `x² + x + 1` and modulo the polynomial one, with the
exact primality test. -/
theorem max_order_small :
    Modulus.maxOrder decidePrime (.int 7) = .ok (ArithmeticFunction.carmichael 7 : Int) ∧
      Modulus.maxOrder decidePrime (.poly ⟨7⟩) =
        .ok (Monoid.exponent (AdjoinRoot (GF2Poly.toPoly ⟨7⟩))ˣ : Int) ∧
      Modulus.maxOrder decidePrime (.poly ⟨1⟩) = .ok 0 := by
  obtain ⟨hint, -, hpoly, hdeg0⟩ := max_order_is_unit_exponent decidePrime
  exact ⟨(hint 7 (by decide) (soundUpTo_decidePrime _)).1,
    (hpoly ⟨7⟩ (by decide) (by decide) (soundUpTo_decidePrime _)).1, (hdeg0 ⟨1⟩ (by decide)).2⟩

end FiniteRings
