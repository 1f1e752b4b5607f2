import Mathlib
import FiniteRings.Arith.Power
import FiniteRings.Proofs.Arith.CallDepth
import FiniteRings.Proofs.Arith.Euclid

/-!
# Powers of integers, plain and modular

Square-and-multiply reads the binary digits of the exponent from the lowest up: at a digit one it
multiplies the accumulator by the running square, and at every digit it squares. So `powAcc c x e`
keeps `c * x ^ e` (`powAcc_eq`).

The modular loop does the same and reduces every product with the floor remainder, which has the
sign of the modulus. What a step keeps is a congruence, for every modulus, negative ones
included: `modPowAcc c x e m ≡ c * x ^ e [ZMOD m]` (`modPowAcc_modEq`). From a reduced
accumulator every value the loop can return is reduced too (`fmod_modPowAcc`), and a floor
remainder depends only on the class of what it reduces (`fmod_congr`). So the loop returns the
floor remainder of the power itself (`modPowAcc_eq`), even modulo `1` and `-1`, where the
accumulator `1 fmod m` is already `0`.
-/

namespace FiniteRings.Arith

/-! ### Plain powers -/

/-- Square-and-multiply computes `c * x ^ e`. -/
theorem powAcc_eq (c x : Int) (e : Nat) : powAcc c x e = c * x ^ e := by
  induction c, x, e using powAcc.induct with
  | case1 c x => rw [powAcc, if_pos rfl, pow_zero, mul_one]
  | case2 c x e he ih =>
    rw [dite_eq_ite] at ih
    rw [powAcc, if_neg he, ih, ← sq, ← pow_mul]
    split
    · next h =>
      rw [mul_assoc, ← pow_succ']
      congr 2
      omega
    · next h =>
      congr 2
      omega

theorem power_of_nonneg (x : Int) {e : Int} (he : 0 ≤ e) : power x e = .ok (x ^ e.toNat) := by
  rw [power, if_neg (by omega), powAcc_eq, one_mul]

/-! ### Floor remainders by their classes -/

theorem fmod_modEq (a m : Int) : a.fmod m ≡ a [ZMOD m] :=
  Int.modEq_iff_dvd.2 Int.dvd_self_sub_fmod

/-- Congruent integers have the same floor remainder. -/
theorem fmod_congr {a b m : Int} (h : a ≡ b [ZMOD m]) : a.fmod m = b.fmod m :=
  Int.fmod_eq_fmod_iff_fmod_sub_eq_zero.2 (Int.fmod_eq_zero_of_dvd (Int.modEq_iff_dvd.1 h.symm))

theorem intCast_fmod (y : Int) (N : Nat) : ((y.fmod N : Int) : ZMod N) = (y : ZMod N) := by
  rw [Int.fmod_eq_emod_of_nonneg _ (Int.natCast_nonneg N), ZMod.intCast_mod]

/-- A floor remainder modulo a nonzero `m` lies between `0` and `m`: in `[0, m)` for a positive
modulus, in `(m, 0]` for a negative one, and it is `0` modulo `1` and `-1`. -/
theorem fmod_mem (a : Int) {m : Int} :
    (0 < m → 0 ≤ a.fmod m ∧ a.fmod m < m) ∧ (m < 0 → m < a.fmod m ∧ a.fmod m ≤ 0) ∧
      (m.natAbs = 1 → a.fmod m = 0) := by
  have hpos : 0 < m → 0 ≤ a.fmod m ∧ a.fmod m < m := fun hm =>
    ⟨Int.fmod_nonneg_of_pos _ hm, Int.fmod_lt_of_pos _ hm⟩
  refine ⟨hpos, fmod_mem_of_neg a, fun h1 => ?_⟩
  rcases Int.natAbs_eq_iff.1 h1 with h | h
  · have := hpos (by omega)
    omega
  · have := fmod_mem_of_neg a (show m < 0 by omega)
    omega

/-! ### Modular powers -/

/-- Square-and-multiply modulo `m` keeps the class of `c * x ^ e`, whatever the sign of `m`. -/
theorem modPowAcc_modEq (c x : Int) (e : Nat) (m : Int) :
    modPowAcc c x e m ≡ c * x ^ e [ZMOD m] := by
  induction c, x, e using modPowAcc.induct m with
  | case1 c x => rw [modPowAcc, if_pos rfl, pow_zero, mul_one]
  | case2 c x e he ih =>
    rw [dite_eq_ite] at ih
    rw [modPowAcc, if_neg he]
    refine ih.trans ?_
    -- the reduced square to the half exponent is `x` to the even part of `e`
    have hsq : ((x * x).fmod m) ^ (e / 2) ≡ x ^ (2 * (e / 2)) [ZMOD m] := by
      rw [pow_mul, sq]
      exact (fmod_modEq _ _).pow _
    split
    · next h =>
      calc (c * x).fmod m * ((x * x).fmod m) ^ (e / 2)
          ≡ c * x * x ^ (2 * (e / 2)) [ZMOD m] := (fmod_modEq _ _).mul hsq
        _ = c * x ^ e := by
          rw [mul_assoc, ← pow_succ']
          congr 2
          omega
    · next h =>
      calc c * ((x * x).fmod m) ^ (e / 2) ≡ c * x ^ (2 * (e / 2)) [ZMOD m] := hsq.mul_left c
        _ = c * x ^ e := by
          congr 2
          omega

/-- From a reduced accumulator, square-and-multiply returns a reduced value. -/
theorem fmod_modPowAcc {c : Int} (x : Int) (e : Nat) (m : Int) (hc : c.fmod m = c) :
    (modPowAcc c x e m).fmod m = modPowAcc c x e m := by
  induction c, x, e using modPowAcc.induct m with
  | case1 c x => rw [modPowAcc, if_pos rfl]; exact hc
  | case2 c x e he ih =>
    rw [dite_eq_ite] at ih
    rw [modPowAcc, if_neg he]
    apply ih
    split
    · exact Int.fmod_fmod _ _
    · exact hc

/-- From a reduced accumulator, square-and-multiply modulo `m` computes the floor remainder of
`c * x ^ e`. -/
theorem modPowAcc_eq {c : Int} (x : Int) (e : Nat) (m : Int) (hc : c.fmod m = c) :
    modPowAcc c x e m = (c * x ^ e).fmod m := by
  rw [← fmod_modPowAcc x e m hc, fmod_congr (modPowAcc_modEq c x e m)]

/-- Reducing after every product keeps the class modulo `N`. -/
theorem modPowAcc_cast (N : Nat) (c x : Int) (e : Nat) :
    ((modPowAcc c x e N : Int) : ZMod N) = (c : ZMod N) * (x : ZMod N) ^ e := by
  rw [← Int.cast_pow, ← Int.cast_mul, ZMod.intCast_eq_intCast_iff]
  exact modPowAcc_modEq c x e N

/-- Square-and-multiply modulo a positive `m` from an accumulator in `[0, m)` stays in
`[0, m)`. -/
theorem modPowAcc_mem {m : Int} (hm : 0 < m) (c x : Int) (e : Nat) (hc : 0 ≤ c ∧ c < m) :
    0 ≤ modPowAcc c x e m ∧ modPowAcc c x e m < m := by
  rw [modPowAcc_eq x e m (Int.fmod_eq_of_lt hc.1 hc.2)]
  exact (fmod_mem _).1 hm

theorem modPow_of_ne_zero {m : Int} (hm : m ≠ 0) (x : Int) (e : Nat) :
    modPow x e m = .ok (modPowAcc (Int.fmod 1 m) (x.fmod m) e m) := by
  rw [modPow, if_neg hm]

/-- Modulo a nonzero `m`, `modPow x e m` is the floor remainder of `x ^ e`. -/
theorem modPow_eq_fmod (x : Int) (e : Nat) {m : Int} (hm : m ≠ 0) :
    modPow x e m = .ok ((x ^ e).fmod m) := by
  rw [modPow_of_ne_zero hm, modPowAcc_eq _ _ _ (Int.fmod_fmod 1 m)]
  congr 1
  apply fmod_congr
  calc Int.fmod 1 m * (x.fmod m) ^ e ≡ 1 * x ^ e [ZMOD m] :=
        (fmod_modEq 1 m).mul ((fmod_modEq x m).pow e)
    _ = x ^ e := one_mul _

/-- **Integer powers.**  For `e ≥ 0`, `power x e` is `x ^ e`, and a negative exponent is refused.
Modulo a nonzero `m`, `modPower x e m` for `e ≥ 0` is the floor remainder of `x ^ e`: congruent
to it, in `[0, m)` for a positive modulus, in `(m, 0]` for a negative one, and `0` modulo `1` and
`-1`. Modulo `0` it is a division by zero. -/
theorem power_modPower_floor (x e m : Int) :
    (0 ≤ e → power x e = .ok (x ^ e.toNat)) ∧ (e < 0 → power x e = .error .negativeExponent) ∧
      (0 ≤ e → m ≠ 0 → ∃ r, modPower x e m = .ok r ∧ r = (x ^ e.toNat).fmod m ∧
        r ≡ x ^ e.toNat [ZMOD m] ∧ (0 < m → 0 ≤ r ∧ r < m) ∧ (m < 0 → m < r ∧ r ≤ 0) ∧
        (m.natAbs = 1 → r = 0)) ∧
      (0 ≤ e → modPower x e 0 = .error .moduloByZero) := by
  refine ⟨power_of_nonneg x, fun he => by rw [power, if_pos he], fun he hm => ?_, fun he => ?_⟩
  · refine ⟨_, ?_, rfl, fmod_modEq _ _, fmod_mem _⟩
    rw [modPower_eq, if_neg (by omega), modPow_eq_fmod _ _ hm]
  · rw [modPower_eq, if_neg (by omega), modPow, if_pos rfl]

/-- A negative base modulo a negative modulus: `(-3) ^ 5 mod -7` lies in `(-7, 0]`. -/
theorem modPower_neg_three_mod_neg_seven :
    (0 : Int) ≤ 5 ∧ (-7 : Int) ≠ 0 ∧
      ∃ r, modPower (-3) 5 (-7) = .ok r ∧ r ≡ (-3) ^ 5 [ZMOD -7] ∧ -7 < r ∧ r ≤ 0 := by
  obtain ⟨r, hr, -, hmod, -, hneg, -⟩ := (power_modPower_floor (-3) 5 (-7)).2.2.1 (by decide)
    (by decide)
  exact ⟨by decide, by decide, r, hr, hmod, hneg (by decide)⟩

end FiniteRings.Arith
