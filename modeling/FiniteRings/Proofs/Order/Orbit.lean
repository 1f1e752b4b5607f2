import Mathlib
import FiniteRings.Proofs.Order.Classes

/-!
# Orbits of units

`orbit a b` multiplies `a` into a running power until the power is one, and lists the powers it
meets, each multiplied by `b` if one is given. The loop has no bound of its own: it is cut off
after `size a` rounds, the number of elements of the ring. For a unit of a finite ring the powers
come back to one after `k` rounds, `k` the order of its class, which is at most the number of
units, so the cut-off is never reached (`powersFrom_eq`). The orbit is then the list of the
powers `a ^ j`, `1 ≤ j ≤ k`, as `pow` computes them one at a time (`OrbitOf`), and they are
pairwise distinct, since the powers of a unit repeat only with period `k`. Zero and the residues
that are no units are refused before the loop, as `order` refuses them.
-/

namespace FiniteRings

namespace UnitRing

variable {α : Type} [UnitRing α]

/-- `b` multiplies a power of the orbit, or nothing does when no `b` is given. -/
def scaleBy : Option α → α → Outcome α
  | none, c => .ok c
  | some b, c => mul c b

/-- One round of the orbit: the power `c` is listed, scaled, and the loop stops at one. -/
theorem powersFrom_succ (a : α) (b : Option α) (fuel : Nat) (c : α) :
    powersFrom a b (fuel + 1) c = scaleBy b c >>= fun v =>
      if isOne c = true then .ok [v]
      else mul c a >>= fun c' => powersFrom a b fuel c' >>= fun vs => .ok (v :: vs) := by
  cases b <;> rfl

/-- Zero and the residues that are no units have no orbit. -/
theorem orbit_of_not_unit {a : α} (h : (isZero a || !isUnit a) = true) (b : Option α) :
    orbit a b = .error (.zeroDivisor (text a) (modulusText a)) := by
  simp [orbit, requireUnit, h, bind, Except.bind]

/-- A `mapM` whose every step succeeds has a result, which a map `h` sends to the values `g`
that `h` takes at the steps. -/
theorem mapM_ok_map {β γ δ : Type} (f : β → Outcome γ) (h : γ → δ) (g : β → δ) :
    ∀ js : List β, (∀ j ∈ js, ∃ y, f j = .ok y ∧ h y = g j) →
      ∃ L, js.mapM f = .ok L ∧ L.map h = js.map g
  | [], _ => ⟨[], rfl, rfl⟩
  | j :: js, hjs => by
    obtain ⟨y, hy, hhy⟩ := hjs j List.mem_cons_self
    obtain ⟨L, hL, hmap⟩ := mapM_ok_map f h g js fun j' hj' => hjs j' (List.mem_cons_of_mem _ hj')
    refine ⟨y :: L, ?_, by rw [List.map_cons, List.map_cons, hhy, hmap]⟩
    rw [List.mapM_cons, hy, hL]
    rfl

/-- What `orbit` does with a unit `a` whose order is `k`; `Same` holds of the residues of the
ring of `a`. -/
structure OrbitOf (a : α) (k : Nat) (Same : α → Prop) : Prop where
  /-- `k` is the least `d ≥ 1` with `a ^ d = 1`; -/
  least : IsLeast (OnePowers a) k
  /-- the orbit lists `a, a ^ 2, …, a ^ k`, -/
  powers : orbit a none = (List.range' 1 k).mapM fun j : Nat => pow a j
  /-- which are pairwise distinct, -/
  nodup : ∃ L, orbit a none = .ok L ∧ L.Nodup
  /-- each multiplied by `b` when `b` is given, -/
  scaled : ∀ b, orbit a (some b) = (List.range' 1 k).mapM fun j : Nat => pow a j >>= fun p => mul p b
  /-- and for `b` of the same ring it lists `k` products. -/
  scaled_ok : ∀ b, Same b → ∃ L, orbit a (some b) = .ok L ∧ L.length = k

/-- Where `order` answers, a unit's order is the least exponent of a power one. -/
theorem order_eq_of_isLeast {isPrime : Nat → Bool} {a : α} {k : Nat}
    (hu : (isZero a || !isUnit a) = false) (hans : OrderAnswer a (order isPrime a))
    (hk : IsLeast (OnePowers a) k) : order isPrime a = .ok k := by
  rw [OrderAnswer, if_neg (by rw [hu]; decide)] at hans
  obtain ⟨d, hd, hleast⟩ := hans
  rw [hd, hleast.unique hk]

theorem orderOf_le_card_units {M : Type} [Monoid M] [Finite Mˣ] {x : M} (h : IsUnit x) :
    orderOf x ≤ Nat.card Mˣ := by
  rw [← h.unit_spec, orderOf_units]
  exact orderOf_le_card

variable {R : Type} [CommMonoidWithZero R] {S : α → Prop} {cls : α → R}

section Loop

variable (hC : Classes S cls) (hZ : ZPowers S cls) {a : α} {u : Rˣ} (ha : S a) (hu : cls a = u)
include hC hZ ha hu

theorem pow_eq_ok_of_cls {c : α} {j : Nat} (hc : S c) (hcj : cls c = ↑(u ^ j)) :
    pow a j = .ok c := by
  obtain ⟨y, hy, hSy, hcy⟩ := hZ u ha hu j
  rw [hy, hC.inj hSy hc (by rw [hcy, hcj, zpow_natCast])]

/-- **The loop of the orbit.**  From the power `c = a ^ i`, `1 ≤ i ≤ k` with `k` the order of
`u`, and with fuel for the `k + 1 - i` rounds left, the loop lists `a ^ i, …, a ^ k`. -/
theorem powersFrom_eq [Finite Rˣ] (b : Option α) :
    ∀ (fuel i : Nat) (c : α), S c → cls c = ↑(u ^ i) → 0 < i → i ≤ orderOf u →
      orderOf u < fuel + i →
      powersFrom a b fuel c =
        (List.range' i (orderOf u + 1 - i)).mapM fun j : Nat => pow a j >>= scaleBy b
  | 0, i, c, _, _, _, hik, hfuel => absurd hfuel (by omega)
  | fuel + 1, i, c, hc, hci, hi, hik, hfuel => by
    have hpow : pow a i = pure c := pow_eq_ok_of_cls hC hZ ha hu hc hci
    rw [powersFrom_succ]
    rcases hik.eq_or_lt with rfl | hlt
    · -- `c = a ^ k` is one, the last power listed
      have h1 : isOne c = true := by
        rw [hC.isOne hc, hci, pow_orderOf_eq_one, Units.val_one]
      simp only [h1, ↓reduceIte, Nat.add_sub_cancel_left, List.range'_one, List.mapM_cons,
        List.mapM_nil, hpow, pure_bind]
      rfl
    · -- below the order the power is not one, and the loop goes on from `c * a = a ^ (i + 1)`
      have h1 : isOne c = false := by
        rw [Bool.eq_false_iff, Ne, hC.isOne hc, hci, Units.val_eq_one]
        exact pow_ne_one_of_lt_orderOf hi.ne' hlt
      obtain ⟨c', hc', hSc', hcc'⟩ := hC.mul hc ha
      have hnext : mul c a = pure c' := hc'
      have hrest := powersFrom_eq b fuel (i + 1) c' hSc'
        (by rw [hcc', hci, hu, pow_succ, Units.val_mul]) (Nat.succ_pos i) hlt (by omega)
      rw [show orderOf u + 1 - i = orderOf u + 1 - (i + 1) + 1 by omega, List.range'_succ]
      simp only [h1, Bool.false_eq_true, ↓reduceIte, List.mapM_cons, hpow, hnext, pure_bind,
        hrest]
      rfl

end Loop

/-- The powers `u, u ^ 2, …, u ^ k` of an element of order `k` are pairwise distinct. -/
theorem nodup_map_pow_range' {G : Type} [Group G] (u : G) :
    ((List.range' 1 (orderOf u)).map (u ^ ·)).Nodup := by
  refine List.Nodup.map_on (fun x hx y hy hxy => ?_) List.nodup_range'
  rw [List.mem_range'_1] at hx hy
  -- shifted down by one, the exponents lie below the order, where powers are distinct
  obtain ⟨x, rfl⟩ : ∃ x', x = x' + 1 := ⟨x - 1, by omega⟩
  obtain ⟨y, rfl⟩ : ∃ y', y = y' + 1 := ⟨y - 1, by omega⟩
  rw [pow_succ, pow_succ, mul_left_inj] at hxy
  rw [pow_injOn_Iio_orderOf (Set.mem_Iio.2 (by omega)) (Set.mem_Iio.2 (by omega)) hxy]

/-- **Orbits of units.**  In a finite nontrivial ring, a residue of a unit class lists its orbit
up to its order, when the ring's cut-off `size a` is at least that order. -/
theorem orbitOf_of_classes [Finite Rˣ] [Nontrivial R] (hC : Classes S cls) (hZ : ZPowers S cls)
    {a : α} (ha : S a) (hU : IsUnit (cls a)) (hsize : orderOf (cls a) ≤ size a) :
    OrbitOf a (orderOf (cls a)) S := by
  obtain ⟨u, hu⟩ := hU
  rw [← hu, orderOf_units] at hsize ⊢
  -- every orbit runs the loop from `a` itself, the power `a ^ 1`
  have horbit : ∀ b, orbit a b = (List.range' 1 (orderOf u)).mapM fun j : Nat =>
      pow a j >>= scaleBy b := by
    intro b
    have hreq : requireUnit a = .ok () := by simp [requireUnit, unitTest_eq_false hC ha hu.symm]
    rw [orbit, hreq, ← Nat.add_sub_cancel (orderOf u) 1]
    exact powersFrom_eq hC hZ ha hu.symm b (size a) 1 a ha (by rw [pow_one, hu]) Nat.one_pos
      (orderOf_pos u) (by omega)
  -- each power `a ^ j` is computed, with the class `u ^ j`
  have hpow : ∀ j ∈ List.range' 1 (orderOf u),
      ∃ y, pow a j = .ok y ∧ S y ∧ cls y = ↑(u ^ j) := fun j _ => by
    obtain ⟨y, hy, hSy, hcy⟩ := hZ u ha hu.symm j
    exact ⟨y, hy, hSy, by rw [hcy, zpow_natCast]⟩
  have hpowers : orbit a none = (List.range' 1 (orderOf u)).mapM fun j : Nat => pow a j := by
    rw [horbit]
    congr 1
    funext j
    exact bind_pure (pow a j)
  refine ⟨(hasOrder_of_classes hC ha hu.symm hZ).isLeast, hpowers, ?_,
    fun b => horbit (some b), ?_⟩
  · -- the classes of the powers are the distinct `u ^ j`
    obtain ⟨L, hL, hmap⟩ := mapM_ok_map (fun j : Nat => pow a j) cls (fun j => ((u ^ j : Rˣ) : R))
      _ fun j hj => by
        obtain ⟨y, hy, -, hcy⟩ := hpow j hj
        exact ⟨y, hy, hcy⟩
    have hnodup := (nodup_map_pow_range' u).map Units.val_injective
    simp only [List.map_map, Function.comp_def] at hnodup
    rw [← hmap] at hnodup
    exact ⟨L, hpowers.trans hL, hnodup.of_map cls⟩
  · intro b hb
    obtain ⟨L, hL, hmap⟩ := mapM_ok_map (fun j : Nat => pow a j >>= fun p => mul p b) cls
      (fun j => ((u ^ j : Rˣ) : R) * cls b) _ fun j hj => by
        obtain ⟨y, hy, hSy, hcy⟩ := hpow j hj
        obtain ⟨z, hz, -, hcz⟩ := hC.mul hSy hb
        exact ⟨z, by rw [hy]; exact hz, by rw [hcz, hcy]⟩
    refine ⟨L, (horbit (some b)).trans hL, ?_⟩
    simpa using congrArg List.length hmap

end UnitRing

open UnitRing

namespace IntResidue

/-- **Orbits of integer units.**  A unit other than zero lists the powers up to its order, the
order of its class in `ZMod m`. -/
theorem orbitOf {a : IntResidue} (hz : UnitRing.isZero a = false)
    (hunit : UnitRing.isUnit a = true) :
    OrbitOf a (orderOf (a.residue : ZMod a.modulus.toNat)) fun b => b.modulus = a.modulus := by
  have h0 : a.residue ≠ 0 := by simpa [IntResidue.isZero] using hz
  have hxN := modulus_eq_toNat a
  have hN := two_le_modulus_of_ne_zero h0
  have : Fact (1 < a.modulus.toNat) := ⟨hN⟩
  have hU : IsUnit (a.residue : ZMod a.modulus.toNat) := (isUnit_eq_true_iff_zmod a).1 hunit
  -- the loop is cut off at the modulus, which is at least the number `φ` of units
  have hsize : orderOf (a.residue : ZMod a.modulus.toNat) ≤ UnitRing.size a :=
    calc orderOf (a.residue : ZMod a.modulus.toNat)
        ≤ Nat.card (ZMod a.modulus.toNat)ˣ := orderOf_le_card_units hU
      _ = a.modulus.toNat.totient := by
        rw [Nat.card_eq_fintype_card, ZMod.card_units_eq_totient]
      _ ≤ a.modulus.toNat := Nat.totient_le _
  have h := orbitOf_of_classes (classes _) (zpowers _ hN) hxN hU hsize
  exact { h with scaled_ok := fun b hb => h.scaled_ok b (hb.trans hxN) }

end IntResidue

namespace PolyResidue

/-- **Orbits of polynomial units.**  A unit other than zero lists the powers up to its order, the
order of its class in `GF(2)[X] / (m)`. -/
theorem orbitOf {a : PolyResidue} (hz : UnitRing.isZero a = false)
    (hunit : UnitRing.isUnit a = true) :
    OrbitOf a (orderOf (AdjoinRoot.mk a.modulus.toPoly a.residue.toPoly))
      fun b => b.modulus = a.modulus := by
  have h0 : a.residue.bits ≠ 0 := by simpa [PolyResidue.isZero, GF2Poly.isZero] using hz
  have hdeg := degree_pos_of_residue_ne_zero h0
  have := GF2Poly.finite_adjoinRoot a.modulus_pos.ne'
  have := nontrivial_adjoinRoot hdeg
  have hU := (isUnit_eq_true_iff_mk a).1 hunit
  -- the loop is cut off at `2 ^ deg m`, which is at least the number of units
  have hsize : orderOf (AdjoinRoot.mk a.modulus.toPoly a.residue.toPoly) ≤ UnitRing.size a :=
    (orderOf_le_card_units hU).trans (card_units_le a.modulus_pos.ne')
  exact orbitOf_of_classes (classes hdeg) (zpowers hdeg) rfl hU hsize

end PolyResidue

/-- **Orbits.**  For a unit `a` other than zero, an integer residue or a polynomial one,
`orbit a` ends and lists `a, a ^ 2, …, a ^ k`, each multiplied by `b` when `b` is given, and
succeeds for every `b` of the ring of `a`; `k` is the order of the class of `a`, the least
`d ≥ 1` with `a ^ d = 1`, and `order` finds it too with any primality test sound up to the size
of the ring. These
powers are pairwise distinct. Zero and the residues that are no units have no orbit: they are
refused as zero divisors, a bad value. -/
theorem orbit_lists_powers_to_order (isPrime : Nat → Bool) :
    (∀ a : IntResidue, UnitRing.isZero a = false → UnitRing.isUnit a = true →
      OrbitOf a (orderOf (a.residue : ZMod a.modulus.toNat)) (fun b => b.modulus = a.modulus) ∧
      (Arith.SoundUpTo isPrime a.modulus.toNat →
        order isPrime a = .ok (orderOf (a.residue : ZMod a.modulus.toNat) : Int))) ∧
    (∀ a : PolyResidue, UnitRing.isZero a = false → UnitRing.isUnit a = true →
      OrbitOf a (orderOf (AdjoinRoot.mk a.modulus.toPoly a.residue.toPoly))
        (fun b => b.modulus = a.modulus) ∧
      (a.modulus.degree ≤ 64 → Arith.SoundUpTo isPrime (2 ^ a.modulus.degree) →
        order isPrime a = .ok (orderOf (AdjoinRoot.mk a.modulus.toPoly a.residue.toPoly) : Int))) ∧
    (∀ {α : Type} [UnitRing α] (a : α) (b : Option α), isZero a = true ∨ isUnit a = false →
      orbit a b = .error (.zeroDivisor (text a) (modulusText a))) ∧
    ∀ s t, (Error.zeroDivisor s t).kind = .value := by
  refine ⟨fun a hz hunit => ?_, fun a hz hunit => ?_, fun a b h => ?_, fun _ _ => rfl⟩
  · have hu : (UnitRing.isZero a || !UnitRing.isUnit a) = false := by rw [hz, hunit]; rfl
    exact ⟨IntResidue.orbitOf hz hunit, fun hP =>
      order_eq_of_isLeast hu (IntResidue.orderAnswer a hP) (IntResidue.orbitOf hz hunit).least⟩
  · have hu : (UnitRing.isZero a || !UnitRing.isUnit a) = false := by rw [hz, hunit]; rfl
    exact ⟨PolyResidue.orbitOf hz hunit, fun hle hP => order_eq_of_isLeast hu
      (PolyResidue.orderAnswer a hle hP) (PolyResidue.orbitOf hz hunit).least⟩
  · apply orbit_of_not_unit
    rcases h with h | h <;> simp [h]

/-- Three modulo seven and `x` modulo `x² + x + 1` list their orbits, and zero modulo seven has
none. -/
theorem orbit_lists_powers_small :
    OrbitOf (IntResidue.reduce 3 7 (by decide)) (orderOf ((3 : Int) : ZMod 7))
        (fun b => b.modulus = 7) ∧
      OrbitOf (PolyResidue.reduce GF2Poly.X ⟨7⟩ (by decide))
        (orderOf (AdjoinRoot.mk (GF2Poly.toPoly ⟨7⟩)
          (PolyResidue.reduce GF2Poly.X ⟨7⟩ (by decide)).residue.toPoly))
        (fun b => b.modulus = ⟨7⟩) ∧
      orbit (IntResidue.reduce 0 7 (by decide)) none =
        .error (.zeroDivisor (text (IntResidue.reduce 0 7 (by decide))) "7") := by
  have hroot : (PolyResidue.reduce GF2Poly.X ⟨7⟩ (by decide)).isUnit = true :=
    (PolyResidue.isUnit_reduce_iff (by decide) _).2 (by
      rw [GF2Poly.toPoly_X, AdjoinRoot.mk_X]
      exact (GF2Poly.isUnit_root_iff _).2 (by decide))
  obtain ⟨hint, hpoly, hnot, -⟩ := orbit_lists_powers_to_order Arith.decidePrime
  refine ⟨(hint _ (by decide) ((IntResidue.isUnit_iff_gcd _).2 (by decide))).1,
    (hpoly _ (PolyResidue.isZero_eq_false (by decide) hroot) hroot).1,
    hnot _ none (.inl (by decide))⟩

end FiniteRings
