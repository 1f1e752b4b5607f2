import Mathlib
import FiniteRings.Arith.Power
import FiniteRings.Proofs.Arith.Euclid

/-!
# Inverses and negative powers call each other

The inverse of `x` modulo `m` is the power `x ^ (φ(m) - 1)`, and a negative power first inverts
`x`, so `modInverseWithin` and `modPowerWithin` call each other, one level of the call stack per
call.

* From `m = 2` on, `1` is prime to `m`, so `φ(m) ≥ 1` (`totientCount_eq_zero_iff`) and the
  inverse asks for a power with a nonnegative exponent, which calls nothing back. Two levels
  settle an inverse and three a power, and every deeper stack gives the same answer
  (`modInverseWithin_of_two_le`, `modPowerWithin_of_three_le`). Modulo `1` the inverse is `0`
  at once.
* For `m ≤ 0` the count `φ(m)` is zero. An `x` that shares a factor with `m` is refused at once,
  but for an `x` prime to `m` the exponent is `-1`, which asks for the same inverse again: those
  calls use up every stack (`exhausts_of_regress`).

So the two end, with a value or a division by zero, exactly off that last case
(`inverse_power_calls_end`), which also gives the one-level readings `modInverse_eq` and
`modPower_eq` that the rest of the development works with.
-/

namespace FiniteRings.Arith

/-- A call that ends: with a value, or failing with a division by zero. -/
def Ends (r : Outcome Int) : Prop :=
  (∃ v, r = .ok v) ∨ ∃ err, r = .error err ∧ err.kind = .zeroDivision

theorem ends_ok (v : Int) : Ends (.ok v) := .inl ⟨v, rfl⟩

theorem ends_error {err : Error} (h : err.kind = .zeroDivision) : Ends (.error err) :=
  .inr ⟨err, rfl, h⟩

/-- A modular power with a nonnegative exponent ends: modulo `0` it is a division by zero. -/
theorem ends_modPow (x : Int) (e : Nat) (m : Int) : Ends (modPow x e m) := by
  rw [modPow]
  split
  · exact ends_error rfl
  · exact ends_ok _

/-! ### One level of the call stack -/

section Levels

variable {d : Nat} {x e m : Int}

@[simp] theorem modInverseWithin_zero : modInverseWithin 0 x m = .error .recursionLimit := by
  rw [modInverseWithin]

@[simp] theorem modPowerWithin_zero : modPowerWithin 0 x e m = .error .recursionLimit := by
  rw [modPowerWithin]

theorem modInverseWithin_succ : modInverseWithin (d + 1) x m =
    if gcd x m ≠ 1 then .error (.noInverse x m)
    else if m = 1 then .ok 0
    else modPowerWithin d x ((totientCount m : Int) - 1) m := by
  rw [modInverseWithin]

theorem modPowerWithin_succ : modPowerWithin (d + 1) x e m =
    if e < 0 then modInverseWithin d x m >>= fun y => modPow y e.natAbs m
    else modPow x e.toNat m := by
  rw [modPowerWithin]

end Levels

/-! ### The count of residues prime to the modulus -/

/-- The count is zero exactly for the moduli up to `1`: from `2` on it counts `1`. -/
theorem totientCount_eq_zero_iff (m : Int) : totientCount m = 0 ↔ m ≤ 1 := by
  rw [totientCount]
  split
  · next h => exact iff_of_true rfl h
  · next h =>
    refine iff_of_false (fun h0 => ?_) h
    have hone : 1 ∈ (List.range' 1 (m.toNat - 1)).filter fun (i : Nat) => gcd m i = 1 := by
      refine List.mem_filter.2 ⟨List.mem_range'.2 ⟨0, by omega, rfl⟩, ?_⟩
      rw [decide_eq_true_eq, Nat.cast_one, gcd_of_pos_right m Int.one_pos, Int.gcd_one_right]
      rfl
    exact absurd (List.length_pos_of_mem hone) (by rw [h0]; decide)

/-! ### Calls that never end -/

/-- An inverse that asks for itself: `x` is prime to `m`, `m` is not `1`, and `φ(m) = 0`. With
any number of levels, the inverse and every negative power use them all up, the one calling the
other in turn. -/
theorem exhausts_of_totientCount_eq_zero {x m : Int} (hg : gcd x m = 1) (h1 : m ≠ 1)
    (h0 : totientCount m = 0) : ∀ d, modInverseWithin d x m = .error .recursionLimit ∧
      ∀ e < 0, modPowerWithin d x e m = .error .recursionLimit
  | 0 => ⟨modInverseWithin_zero, fun _ _ => modPowerWithin_zero⟩
  | d + 1 => by
    obtain ⟨hinv, hpow⟩ := exhausts_of_totientCount_eq_zero hg h1 h0 d
    refine ⟨?_, fun e he => ?_⟩
    · rw [modInverseWithin_succ, if_neg (not_not.2 hg), if_neg h1, h0]
      exact hpow _ (by decide)
    · rw [modPowerWithin_succ, if_pos he, hinv]
      rfl

/-- For `m ≤ 0` and `x` prime to `m`, the inverse and the negative powers never end. -/
theorem exhausts_of_regress {x m : Int} (hm : m ≤ 0) (hg : gcd x m = 1) (d : Nat) :
    modInverseWithin d x m = .error .recursionLimit ∧
      ∀ e < 0, modPowerWithin d x e m = .error .recursionLimit :=
  exhausts_of_totientCount_eq_zero hg (by omega) ((totientCount_eq_zero_iff m).2 (by omega)) d

/-! ### Calls that end -/

section Settle

variable {d : Nat} {x m : Int}

/-- **The inverse on two levels or more.**  It is refused for `x` not prime to `m`, is `0` modulo
`1`, uses up the stack when `φ(m) = 0`, and is otherwise the power `x ^ (φ(m) - 1)`, which takes
one level and calls nothing back. -/
theorem modInverseWithin_of_two_le (hd : 2 ≤ d) : modInverseWithin d x m =
    if gcd x m ≠ 1 then .error (.noInverse x m)
    else if m = 1 then .ok 0
    else
      match totientCount m with
      | 0 => .error .recursionLimit
      | k + 1 => modPow x k m := by
  obtain ⟨d, rfl⟩ : ∃ d', d = d' + 1 + 1 := ⟨d - 2, by omega⟩
  rw [modInverseWithin_succ]
  by_cases hg : gcd x m ≠ 1
  · rw [if_pos hg, if_pos hg]
  rw [if_neg hg, if_neg hg]
  by_cases h1 : m = 1
  · rw [if_pos h1, if_pos h1]
  rw [if_neg h1, if_neg h1]
  cases hk : totientCount m with
  | zero => exact (exhausts_of_totientCount_eq_zero (not_not.1 hg) h1 hk (d + 1)).2 _ (by decide)
  | succ k =>
    rw [modPowerWithin_succ, if_neg (by omega)]
    congr 1
    omega

/-- Every stack of two levels or more gives the inverse the same answer. -/
theorem modInverseWithin_eq_modInverse (hd : 2 ≤ d) :
    modInverseWithin d x m = modInverse x m := by
  rw [modInverse, modInverseWithin_of_two_le hd, modInverseWithin_of_two_le (by decide)]

/-- The inverse as one reading of its body, its own call of the power done. -/
theorem modInverse_eq : modInverse x m =
    if gcd x m ≠ 1 then .error (.noInverse x m)
    else if m = 1 then .ok 0
    else
      match totientCount m with
      | 0 => .error .recursionLimit
      | k + 1 => modPow x k m :=
  modInverseWithin_of_two_le (by decide)

variable {e : Int}

/-- **The power on three levels or more.**  A negative exponent inverts `x` on two levels. -/
theorem modPowerWithin_of_three_le (hd : 3 ≤ d) : modPowerWithin d x e m =
    if e < 0 then modInverse x m >>= fun y => modPow y e.natAbs m
    else modPow x e.toNat m := by
  obtain ⟨d, rfl⟩ : ∃ d', d = d' + 1 := ⟨d - 1, by omega⟩
  rw [modPowerWithin_succ, modInverseWithin_eq_modInverse (by omega)]

theorem modPowerWithin_eq_modPower (hd : 3 ≤ d) : modPowerWithin d x e m = modPower x e m := by
  rw [modPower, modPowerWithin_of_three_le hd, modPowerWithin_of_three_le (by decide)]

/-- The power as one reading of its body, the inverse it calls done. -/
theorem modPower_eq : modPower x e m =
    if e < 0 then modInverse x m >>= fun y => modPow y e.natAbs m
    else modPow x e.toNat m :=
  modPowerWithin_of_three_le (by decide)

/-- Off `m ≤ 0` with `x` prime to `m`, the inverse ends. -/
theorem ends_modInverse (h : ¬(m ≤ 0 ∧ gcd x m = 1)) : Ends (modInverse x m) := by
  rw [modInverse_eq]
  split
  · exact ends_error rfl
  · next hg =>
    split
    · exact ends_ok 0
    · next h1 =>
      -- here `m ≥ 2`, where `φ(m) ≥ 1`
      have hk : totientCount m ≠ 0 := fun h0 =>
        h ⟨by have := (totientCount_eq_zero_iff m).1 h0; omega, not_not.1 hg⟩
      split
      · next h0 => exact absurd h0 hk
      · exact ends_modPow _ _ _

/-- Off a negative exponent with `m ≤ 0` and `x` prime to `m`, the power ends. -/
theorem ends_modPower (h : ¬(e < 0 ∧ m ≤ 0 ∧ gcd x m = 1)) : Ends (modPower x e m) := by
  rw [modPower_eq]
  split
  · next he =>
    rcases ends_modInverse (fun hr => h ⟨he, hr⟩) with ⟨y, hy⟩ | ⟨err, herr, hkind⟩
    · rw [hy]
      exact ends_modPow _ _ _
    · rw [herr]
      exact ends_error hkind
  · exact ends_modPow _ _ _

end Settle

/-- **When the mutual recursion ends.**  For `m ≤ 0` and `x` prime to `m` (by `gcd`, which returns
the other argument when one is zero, so that `gcd 1 0 = 1`), the inverse and every negative power
use up every call stack. For all other arguments they end, with a value or a division by
zero, and give that answer on every stack of two levels (the inverse) or three (the power). -/
theorem inverse_power_calls_end (x e m : Int) :
    (m ≤ 0 ∧ gcd x m = 1 → ∀ d, modInverseWithin d x m = .error .recursionLimit) ∧
    (¬(m ≤ 0 ∧ gcd x m = 1) →
      Ends (modInverse x m) ∧ ∀ d ≥ 2, modInverseWithin d x m = modInverse x m) ∧
    (e < 0 ∧ m ≤ 0 ∧ gcd x m = 1 →
      ∀ d, modPowerWithin d x e m = .error .recursionLimit) ∧
    (¬(e < 0 ∧ m ≤ 0 ∧ gcd x m = 1) →
      Ends (modPower x e m) ∧ ∀ d ≥ 3, modPowerWithin d x e m = modPower x e m) :=
  ⟨fun ⟨hm, hg⟩ d => (exhausts_of_regress hm hg d).1,
    fun h => ⟨ends_modInverse h, fun _ hd => modInverseWithin_eq_modInverse hd⟩,
    fun ⟨he, hm, hg⟩ d => (exhausts_of_regress hm hg d).2 e he,
    fun h => ⟨ends_modPower h, fun _ hd => modPowerWithin_eq_modPower hd⟩⟩

/-- The inverse of `1` modulo `0`, and `1 ^ -1` modulo `0`, never end. -/
theorem inverse_power_one_mod_zero :
    ((0 : Int) ≤ 0 ∧ gcd 1 0 = 1) ∧
      (∀ d, modInverseWithin d 1 0 = .error .recursionLimit) ∧
      ∀ d, modPowerWithin d 1 (-1) 0 = .error .recursionLimit :=
  have hr : (0 : Int) ≤ 0 ∧ gcd 1 0 = 1 := ⟨le_refl 0, by decide⟩
  ⟨hr, (inverse_power_calls_end 1 (-1) 0).1 hr,
    (inverse_power_calls_end 1 (-1) 0).2.2.1 ⟨by decide, hr⟩⟩

/-- Modulo `0` the inverse of `1` neither answers nor fails with a division by zero: the calls run
out of stack. -/
theorem inverse_one_mod_zero_never_ends :
    ¬Ends (modInverse 1 0) ∧ modInverse 1 0 = .error .recursionLimit := by
  have h : modInverse 1 0 = .error .recursionLimit :=
    (exhausts_of_regress (le_refl 0) (by decide) callDepth).1
  refine ⟨?_, h⟩
  rintro (⟨v, hv⟩ | ⟨err, herr, hkind⟩)
  · rw [h] at hv
    cases hv
  · rw [h, Except.error.injEq] at herr
    rw [← herr] at hkind
    cases hkind

end FiniteRings.Arith
