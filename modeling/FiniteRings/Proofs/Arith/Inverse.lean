import Mathlib
import FiniteRings.Proofs.Arith.Totient

/-!
# Inverses modulo an integer

`modInverse x m` inverts `x` modulo `m` as `x ^ (φ(m) - 1)`, by square-and-multiply. It first
asks whether `gcd x m = 1` and fails with `noInverse x m` otherwise. Modulo `1` it answers `0`,
the only residue. From `m = 2` on the totient is counted as `totientCount m = φ(m) ≥ 1`, and by
Euler's theorem `x * x ^ (φ(m) - 1) = x ^ φ(m) ≡ 1` (`pow_totient_modEq_one`), for `x` of either
sign. The power is a floor remainder, so it lies in `[0, m)`, where an inverse is unique
(`eq_of_mul_modEq_one`). So for every positive modulus the answer is exactly the inverse
(`modInverse_eq_ok_iff`).

Everything else inverts through it. A negative exponent inverts `x` and raises the inverse, which
inverts the power. The inverse of a residue is the class of `modInverse` of its residue; `x / b`
multiplies by the inverse of the class of `b`, and `n / x` multiplies `n` by the inverse of `x`.
Each succeeds exactly when the divisor is prime to the modulus, and then gives the inverse or the
quotient: the class that times the divisor gives back the dividend.
-/

namespace FiniteRings

/-- A computation that, under a condition `c`, answers a value satisfying `P`, and fails
otherwise, answers exactly the value satisfying `P` when there is at most one such value and
every such value forces `c`. -/
theorem ok_iff_of_unique {α : Type} {r : Outcome α} {P : α → Prop} {c : Prop}
    (hunique : ∀ a b, P a → P b → a = b) (hok : c → ∃ b, r = .ok b ∧ P b)
    (herr : ¬c → ∃ e, r = .error e) (hc : ∀ a, P a → c) (a : α) : r = .ok a ↔ P a := by
  constructor
  · intro h
    by_cases h' : c
    · obtain ⟨b, hb, hPb⟩ := hok h'
      rw [hb, Except.ok.injEq] at h
      exact h ▸ hPb
    · obtain ⟨e, he⟩ := herr h'
      rw [he] at h
      cases h
  · intro ha
    obtain ⟨b, hb, hPb⟩ := hok (hc a ha)
    rw [hb, hunique b a hPb ha]

namespace Arith

/-! ### Inverses of integers -/

/-- Congruent integers in `[0, m)` are equal. -/
theorem eq_of_modEq_of_mem {a b m : Int} (h : a ≡ b [ZMOD m]) (ha : 0 ≤ a ∧ a < m)
    (hb : 0 ≤ b ∧ b < m) : a = b := by
  rwa [Int.ModEq, Int.emod_eq_of_lt ha.1 ha.2, Int.emod_eq_of_lt hb.1 hb.2] at h

/-- An integer with an inverse modulo `m` is prime to `m`. -/
theorem gcd_eq_one_of_mul_modEq_one {x y m : Int} (h : x * y ≡ 1 [ZMOD m]) :
    Int.gcd x m = 1 := by
  obtain ⟨t, ht⟩ := Int.modEq_iff_dvd.1 h.symm
  exact Int.isCoprime_iff_gcd_eq_one.1 ⟨y, -t, by linear_combination ht⟩

/-- An inverse modulo `m` in `[0, m)` is unique. -/
theorem eq_of_mul_modEq_one {x y z m : Int} (hy : 0 ≤ y ∧ y < m ∧ x * y ≡ 1 [ZMOD m])
    (hz : 0 ≤ z ∧ z < m ∧ x * z ≡ 1 [ZMOD m]) : y = z := by
  refine eq_of_modEq_of_mem ?_ ⟨hy.1, hy.2.1⟩ ⟨hz.1, hz.2.1⟩
  calc y = y * 1 := (mul_one y).symm
    _ ≡ y * (x * z) [ZMOD m] := hz.2.2.symm.mul_left y
    _ = x * y * z := by ring
    _ ≡ 1 * z [ZMOD m] := hy.2.2.mul_right z
    _ = z := one_mul z

/-- Multiplying by an inverse of `v` is dividing by `v`. -/
theorem modEq_mul_inverse_iff {a b v w m : Int} (hvw : v * w ≡ 1 [ZMOD m]) :
    a ≡ b * w [ZMOD m] ↔ a * v ≡ b [ZMOD m] := by
  constructor
  · intro h
    calc a * v ≡ b * w * v [ZMOD m] := h.mul_right v
      _ = b * (v * w) := by ring
      _ ≡ b * 1 [ZMOD m] := hvw.mul_left b
      _ = b := mul_one b
  · intro h
    calc a = a * 1 := (mul_one a).symm
      _ ≡ a * (v * w) [ZMOD m] := hvw.symm.mul_left a
      _ = a * v * w := by ring
      _ ≡ b * w [ZMOD m] := h.mul_right w

/-- **Euler's theorem** for an integer of either sign prime to `N`. -/
theorem pow_totient_modEq_one {N : Nat} {x : Int} (hcop : Int.gcd x N = 1) :
    x ^ N.totient ≡ 1 [ZMOD N] := by
  obtain ⟨u, v, huv⟩ := Int.isCoprime_iff_gcd_eq_one.2 hcop
  -- the class of `x` is a unit: the class of `u` inverts it
  have hunit : IsUnit (x : ZMod N) := by
    refine IsUnit.of_mul_eq_one (u : ZMod N) ?_
    have h := congrArg (Int.cast : Int → ZMod N) huv
    rw [Int.cast_add, Int.cast_mul, Int.cast_mul, Int.cast_natCast, ZMod.natCast_self, mul_zero,
      add_zero, Int.cast_one] at h
    rw [mul_comm, h]
  rw [← ZMod.intCast_eq_intCast_iff, Int.cast_pow, Int.cast_one, ← hunit.unit_spec,
    ← Units.val_pow_eq_pow_val, ZMod.pow_totient, Units.val_one]

/-! ### The inverse by Euler's theorem -/

section Modulus

variable {m : Int} (hm : 0 < m)
include hm

theorem modInverse_of_gcd_ne_one {x : Int} (hcop : Int.gcd x m ≠ 1) :
    modInverse x m = .error (.noInverse x m) := by
  rw [modInverse_eq, if_pos]
  rw [gcd_of_pos_right x hm]
  exact_mod_cast hcop

/-- For `x` prime to `m`, `x ^ (φ(m) - 1) mod m` is an inverse of `x` in `[0, m)`. -/
theorem modInverse_of_gcd_eq_one {x : Int} (hcop : Int.gcd x m = 1) :
    ∃ y, modInverse x m = .ok y ∧ 0 ≤ y ∧ y < m ∧ x * y ≡ 1 [ZMOD m] := by
  have hg : gcd x m = 1 := by rw [gcd_of_pos_right x hm, hcop]; rfl
  by_cases h1 : m = 1
  · subst h1
    refine ⟨0, ?_, le_refl 0, Int.one_pos, Int.modEq_one⟩
    rw [modInverse_eq, if_neg (not_not.2 hg), if_pos rfl]
  lift m to Nat using hm.le
  have h2 : 2 ≤ m := by omega
  obtain ⟨k, hk⟩ : ∃ k, m.totient = k + 1 :=
    ⟨m.totient - 1, by have := Nat.totient_pos.2 (show 0 < m by omega); omega⟩
  obtain ⟨h0, hlt⟩ := (fmod_mem (x ^ k)).1 hm
  refine ⟨(x ^ k).fmod m, ?_, h0, hlt, ?_⟩
  · rw [modInverse_eq, if_neg (not_not.2 hg), if_neg h1, totientCount_eq h2, hk]
    exact modPow_eq_fmod x k (by omega)
  · calc x * (x ^ k).fmod m ≡ x * x ^ k [ZMOD m] := (fmod_modEq _ _).mul_left x
      _ = x ^ m.totient := by rw [hk, pow_succ']
      _ ≡ 1 [ZMOD m] := pow_totient_modEq_one hcop

/-- Modulo a positive `m`, `modInverse x m` answers exactly the inverse of `x` in `[0, m)`. -/
theorem modInverse_eq_ok_iff (x y : Int) :
    modInverse x m = .ok y ↔ 0 ≤ y ∧ y < m ∧ x * y ≡ 1 [ZMOD m] :=
  ok_iff_of_unique (fun _ _ => eq_of_mul_modEq_one) (modInverse_of_gcd_eq_one hm)
    (fun h => ⟨_, modInverse_of_gcd_ne_one hm h⟩) (fun _ ha => gcd_eq_one_of_mul_modEq_one ha.2.2) y

/-! ### Negative exponents -/

theorem modPower_neg_of_gcd_ne_one {x e : Int} (he : e < 0) (hcop : Int.gcd x m ≠ 1) :
    modPower x e m = .error (.noInverse x m) := by
  rw [modPower_eq, if_pos he, modInverse_of_gcd_ne_one hm hcop]
  rfl

/-- A negative power of `x` prime to `m` is the inverse of `x ^ |e|` in `[0, m)`. -/
theorem modPower_neg_of_gcd_eq_one {x e : Int} (he : e < 0) (hcop : Int.gcd x m = 1) :
    ∃ z, modPower x e m = .ok z ∧ 0 ≤ z ∧ z < m ∧ x ^ e.natAbs * z ≡ 1 [ZMOD m] := by
  obtain ⟨y, hy, -, -, hxy⟩ := modInverse_of_gcd_eq_one hm hcop
  obtain ⟨h0, hlt⟩ := (fmod_mem (y ^ e.natAbs)).1 hm
  refine ⟨(y ^ e.natAbs).fmod m, ?_, h0, hlt, ?_⟩
  · rw [modPower_eq, if_pos he, hy]
    exact modPow_eq_fmod _ _ (by omega)
  · calc x ^ e.natAbs * (y ^ e.natAbs).fmod m ≡ x ^ e.natAbs * y ^ e.natAbs [ZMOD m] :=
          (fmod_modEq _ _).mul_left _
      _ = (x * y) ^ e.natAbs := (mul_pow x y _).symm
      _ ≡ 1 ^ e.natAbs [ZMOD m] := hxy.pow _
      _ = 1 := one_pow _

/-- Modulo a positive `m`, a negative power answers exactly the inverse of `x ^ |e|` in
`[0, m)`. -/
theorem modPower_neg_eq_ok_iff {x e : Int} (he : e < 0) (z : Int) :
    modPower x e m = .ok z ↔ 0 ≤ z ∧ z < m ∧ x ^ e.natAbs * z ≡ 1 [ZMOD m] := by
  refine ok_iff_of_unique (fun _ _ => eq_of_mul_modEq_one) (modPower_neg_of_gcd_eq_one hm he)
    (fun h => ⟨_, modPower_neg_of_gcd_ne_one hm he h⟩) (fun a ha => ?_) z
  -- `x` times `x ^ (|e| - 1) * a` is one, so `x` is prime to `m`
  refine gcd_eq_one_of_mul_modEq_one (y := x ^ (e.natAbs - 1) * a) ?_
  rw [← mul_assoc, ← pow_succ', show e.natAbs - 1 + 1 = e.natAbs by omega]
  exact ha.2.2

end Modulus

/-- Modulo `m ≥ 2`, an `x` prime to `m` has the inverse `x ^ (φ(m) - 1)` in `ZMod m`. -/
theorem modInverse_eq_ok {N : Nat} (hN : 2 ≤ N) {x : Int} (hcop : Int.gcd x N = 1) :
    ∃ j, modInverse x N = .ok j ∧ (x : ZMod N) * (j : ZMod N) = 1 := by
  obtain ⟨j, hj, -, -, hinv⟩ := modInverse_of_gcd_eq_one (show (0 : Int) < N by omega) hcop
  refine ⟨j, hj, ?_⟩
  rw [← Int.cast_mul, ← Int.cast_one, ZMod.intCast_eq_intCast_iff]
  exact_mod_cast hinv

/-- Modulo any `m`, the inverse fails for the `x ≥ 0` that share a factor with `m`. -/
theorem modInverse_eq_error {N : Nat} {x : Int} (hx : 0 ≤ x) (hcop : Int.gcd x N ≠ 1) :
    modInverse x N = .error (.noInverse x N) := by
  rw [modInverse_eq, if_pos]
  rw [gcd_eq_gcd hx (Int.natCast_nonneg N)]
  exact_mod_cast hcop

end Arith

/-! ### Inverses and quotients of residues -/

namespace IntResidue

open Arith

/-- A residue is a unit exactly when it is prime to its modulus. -/
theorem isUnit_iff_gcd (y : IntResidue) : y.isUnit = true ↔ Int.gcd y.residue y.modulus = 1 := by
  rw [isUnit, beq_iff_eq, Arith.gcd_eq_gcd y.residue_nonneg y.modulus_pos.le]
  exact_mod_cast Iff.rfl

/-- A residue is the class of `a` exactly when it has the modulus and the class of `a`. -/
theorem eq_withValue_iff (x q : IntResidue) (a : Int) :
    q = x.withValue a ↔ q.modulus = x.modulus ∧ q.residue ≡ a [ZMOD x.modulus] := by
  constructor
  · rintro rfl
    exact ⟨rfl, Int.mod_modEq a _⟩
  · rintro ⟨hmod, ha⟩
    obtain ⟨m, r, hm, hr0, hrm⟩ := q
    simp only at hmod ha
    subst hmod
    -- the residue is the least nonnegative member of the class of `a`
    have hr : r = a % x.modulus := by rwa [Int.ModEq, Int.emod_eq_of_lt hr0 hrm] at ha
    subst hr
    rfl

theorem recip_of_gcd_ne_one {x : IntResidue} (hcop : Int.gcd x.residue x.modulus ≠ 1) :
    x.recip = .error (.noInverse x.residue x.modulus) := by
  rw [recip, modInverse_of_gcd_ne_one x.modulus_pos hcop]
  rfl

theorem recip_of_gcd_eq_one {x : IntResidue} (hcop : Int.gcd x.residue x.modulus = 1) :
    ∃ y, x.recip = .ok y ∧ y.modulus = x.modulus ∧
      x.residue * y.residue ≡ 1 [ZMOD x.modulus] := by
  obtain ⟨j, hj, -, -, hinv⟩ := modInverse_of_gcd_eq_one x.modulus_pos hcop
  refine ⟨x.withValue j, by rw [recip, hj]; rfl, rfl, ?_⟩
  exact ((Int.mod_modEq j _).mul_left _).trans hinv

/-- The inverse of a residue is given exactly for the class that times it gives one. -/
theorem recip_eq_ok_iff (x y : IntResidue) :
    x.recip = .ok y ↔ y.modulus = x.modulus ∧ x.residue * y.residue ≡ 1 [ZMOD x.modulus] := by
  refine ok_iff_of_unique (fun a b ha hb => ?_) recip_of_gcd_eq_one
    (fun h => ⟨_, recip_of_gcd_ne_one h⟩) (fun _ ha => gcd_eq_one_of_mul_modEq_one ha.2) y
  -- two inverses of one class have the same residue
  have hres := eq_of_mul_modEq_one ⟨a.residue_nonneg, ha.1 ▸ a.residue_lt, ha.2⟩
    ⟨b.residue_nonneg, hb.1 ▸ b.residue_lt, hb.2⟩
  rw [(eq_withValue_iff a b a.residue).2 ⟨hb.1.trans ha.1.symm, by rw [hres, ha.1]⟩]
  exact (eq_withValue_iff a a a.residue).2 ⟨rfl, Int.ModEq.refl _⟩

/-- A residue has an inverse exactly when it is a unit. -/
theorem isUnit_iff_recip_ok (x : IntResidue) : x.isUnit = true ↔ ∃ y, x.recip = .ok y := by
  rw [isUnit_iff_gcd]
  constructor
  · intro hcop
    obtain ⟨y, hy, -⟩ := recip_of_gcd_eq_one hcop
    exact ⟨y, hy⟩
  · rintro ⟨y, hy⟩
    exact gcd_eq_one_of_mul_modEq_one ((recip_eq_ok_iff x y).1 hy).2

/-- A quotient `x / b` is given exactly when the divisor `b` is prime to the modulus, and it is
then the class that times `b` gives `x`. -/
theorem div_eq_ok_iff (x : IntResidue) (b : Operand) (q : IntResidue) :
    x.div b = .ok q ↔ ∃ v, x.value b = .ok v ∧ Int.gcd v x.modulus = 1 ∧
      q.modulus = x.modulus ∧ q.residue * v ≡ x.residue [ZMOD x.modulus] := by
  rcases hv : x.value b with err | v
  · rw [div, hv]
    exact iff_of_false (fun h => by cases h) fun ⟨_, h, _⟩ => by cases h
  have hdiv : x.div b =
      (x.withValue v).recip >>= fun y => .ok (x.withValue (x.residue * y.residue)) := by
    rw [div, hv]
    rfl
  -- the class of `v` is prime to the modulus exactly when `v` is
  have hgcd : Int.gcd (x.withValue v).residue (x.withValue v).modulus = Int.gcd v x.modulus :=
    Int.gcd_emod v x.modulus
  rw [hdiv]
  by_cases hcop : Int.gcd v x.modulus = 1
  · obtain ⟨y, hy, hym, hinv⟩ := recip_of_gcd_eq_one (hgcd.trans hcop)
    -- `y` inverts `v` itself, not only its residue
    have hvy : v * y.residue ≡ 1 [ZMOD x.modulus] :=
      ((Int.mod_modEq v _).symm.mul_right _).trans hinv
    rw [hy]
    show Except.ok (x.withValue (x.residue * y.residue)) = .ok q ↔ _
    rw [Except.ok.injEq, eq_comm, eq_withValue_iff, modEq_mul_inverse_iff hvy]
    exact ⟨fun ⟨hq, h⟩ => ⟨v, rfl, hcop, hq, h⟩, fun ⟨_, hv', _, hq, h⟩ => by
      cases hv'
      exact ⟨hq, h⟩⟩
  · rw [recip_of_gcd_ne_one (hgcd.trans_ne hcop)]
    exact iff_of_false (fun h => by cases h) fun ⟨_, hv', h, _⟩ => by
      cases hv'
      exact hcop h

/-- A quotient `n / x` is given exactly when `x` is prime to the modulus, and it is then the
class that times `x` gives `n`. -/
theorem divInto_eq_ok_iff (n : Int) (x q : IntResidue) :
    divInto n x = .ok q ↔ Int.gcd x.residue x.modulus = 1 ∧ q.modulus = x.modulus ∧
      q.residue * x.residue ≡ n [ZMOD x.modulus] := by
  by_cases hcop : Int.gcd x.residue x.modulus = 1
  · obtain ⟨y, hy, hym, hinv⟩ := recip_of_gcd_eq_one hcop
    have hq : divInto n x = .ok (x.withValue (y.residue * n)) := by rw [divInto, hy]; rfl
    rw [hq, Except.ok.injEq, eq_comm, eq_withValue_iff, mul_comm y.residue n,
      modEq_mul_inverse_iff hinv]
    exact ⟨fun h => ⟨hcop, h⟩, fun h => h.2⟩
  · have hq : divInto n x = .error (.noInverse x.residue x.modulus) := by
      rw [divInto, recip_of_gcd_ne_one hcop]
      rfl
    rw [hq]
    exact iff_of_false (fun h => by cases h) fun h => hcop h.1

end IntResidue

/-- **Inverses modulo a positive integer.**  Modulo `m > 0`, `modInverse x m` fails with
`noInverse` exactly when `x` is not prime to `m`, and otherwise answers the one `y` in `[0, m)`
with `x * y ≡ 1`. A negative power answers the inverse of `x ^ |e|` in `[0, m)`. The inverse of a
residue modulo `m` is given exactly when the residue is a unit, and is then its inverse; the
quotients `r / b` and `n / r` are given exactly when the divisor is prime to `m`, and are then
the classes that times the divisor give the dividend. -/
theorem modInverse_unique_inverse (x m : Int) (hm : 0 < m) :
    (Arith.modInverse x m = .error (.noInverse x m) ↔ Int.gcd x m ≠ 1) ∧
      (∀ y, Arith.modInverse x m = .ok y ↔ 0 ≤ y ∧ y < m ∧ x * y ≡ 1 [ZMOD m]) ∧
      (∀ e z, e < 0 →
        (Arith.modPower x e m = .ok z ↔ 0 ≤ z ∧ z < m ∧ x ^ e.natAbs * z ≡ 1 [ZMOD m])) ∧
      (∀ r : IntResidue, r.modulus = m → (r.isUnit = true ↔ ∃ s, r.recip = .ok s) ∧
        ∀ s, r.recip = .ok s ↔ s.modulus = m ∧ r.residue * s.residue ≡ 1 [ZMOD m]) ∧
      (∀ (r : IntResidue) (b : IntResidue.Operand) (q : IntResidue), r.modulus = m →
        (r.div b = .ok q ↔ ∃ v, r.value b = .ok v ∧ Int.gcd v m = 1 ∧ q.modulus = m ∧
          q.residue * v ≡ r.residue [ZMOD m])) ∧
      (∀ (n : Int) (r q : IntResidue), r.modulus = m →
        (IntResidue.divInto n r = .ok q ↔ Int.gcd r.residue m = 1 ∧ q.modulus = m ∧
          q.residue * r.residue ≡ n [ZMOD m])) := by
  refine ⟨⟨fun h hcop => ?_, Arith.modInverse_of_gcd_ne_one hm⟩, Arith.modInverse_eq_ok_iff hm x,
    fun e z he => Arith.modPower_neg_eq_ok_iff hm he z, ?_, ?_, ?_⟩
  · obtain ⟨y, hy, -⟩ := Arith.modInverse_of_gcd_eq_one hm hcop
    rw [hy] at h
    cases h
  · rintro r rfl
    exact ⟨r.isUnit_iff_recip_ok, r.recip_eq_ok_iff⟩
  · rintro r b q rfl
    exact r.div_eq_ok_iff b q
  · rintro n r q rfl
    exact IntResidue.divInto_eq_ok_iff n r q

/-- Modulo seven, the answers of `modInverse 3 7` are exactly the inverses of three in `[0, 7)`. -/
theorem modInverse_three_mod_seven :
    (0 : Int) < 7 ∧ (∀ y, Arith.modInverse 3 7 = .ok y ↔ 0 ≤ y ∧ y < 7 ∧ 3 * y ≡ 1 [ZMOD 7]) :=
  ⟨by decide, (modInverse_unique_inverse 3 7 (by decide)).2.1⟩

end FiniteRings
