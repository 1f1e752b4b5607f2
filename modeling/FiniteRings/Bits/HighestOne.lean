import FiniteRings.Bits.Word

/-!
# The highest one of a natural number

On naturals every step of `fill` is an operation of `Nat`: the word or'ed with itself moved down
by `s` positions. Six such steps copy each one into the 63 positions below it, so on a word below
`2 ^ 64` the filled word is `2 ^ bitLength n - 1` (`fill_natCast`), and counting its ones gives the
bit length back. So `msbPos n` is `Nat.log2 n` for every natural `n`, on both of its paths
(`msbPos_toNat`). The degree of a polynomial, and with it the bound on remainders of polynomial
division, rests on this.
-/

namespace FiniteRings.Word

/-- Doubling a window of positions: if `Q` holds at `i` when `P` holds at `i` or at `i + s`, and
`P` holds at `i` when `R` holds somewhere in the `s` positions from `i`, then `Q` holds at `i`
when `R` holds somewhere in the `2 * s` positions from `i`. -/
theorem window_double {P Q R : Nat → Prop} {s : Nat} (hQ : ∀ i, Q i ↔ P i ∨ P (i + s))
    (hP : ∀ i, P i ↔ ∃ d < s, R (i + d)) (i : Nat) : Q i ↔ ∃ d < 2 * s, R (i + d) := by
  rw [hQ, hP, hP]
  constructor
  · rintro (⟨d, hd, h⟩ | ⟨d, hd, h⟩)
    · exact ⟨d, by omega, h⟩
    · exact ⟨s + d, by omega, by rwa [← Nat.add_assoc]⟩
  · rintro ⟨d, hd, h⟩
    by_cases hds : d < s
    · exact Or.inl ⟨d, hds, h⟩
    · refine Or.inr ⟨d - s, by omega, ?_⟩
      rwa [Nat.add_assoc, Nat.add_sub_cancel' (by omega)]

/-- One step of `fill` on naturals. -/
def smear (a s : Nat) : Nat := a ||| a >>> s

theorem fill_natCast_eq (n : Nat) :
    fill n = ((smear (smear (smear (smear (smear (smear n 1) 2) 4) 8) 16) 32 : Nat) : Int) := rfl

theorem testBit_smear {a n s : Nat} (ha : ∀ i, a.testBit i ↔ ∃ d < s, n.testBit (i + d))
    (i : Nat) : (smear a s).testBit i ↔ ∃ d < 2 * s, n.testBit (i + d) := by
  refine window_double (P := fun j => a.testBit j) (Q := fun j => (smear a s).testBit j)
    (R := fun j => n.testBit j) (fun j => ?_) ha i
  show (a ||| a >>> s).testBit j = true ↔ a.testBit j = true ∨ a.testBit (j + s) = true
  rw [Nat.testBit_or, Nat.testBit_shiftRight, Bool.or_eq_true, Nat.add_comm s j]

/-- Bit `i` of the filled word is set exactly when one of the 64 positions from `i` upwards is. -/
theorem testBit_fill_natCast (n i : Nat) :
    (smear (smear (smear (smear (smear (smear n 1) 2) 4) 8) 16) 32).testBit i ↔
      ∃ d < 64, n.testBit (i + d) := by
  have h1 : ∀ j, n.testBit j ↔ ∃ d < 1, n.testBit (j + d) := fun j =>
    ⟨fun h => ⟨0, Nat.one_pos, h⟩, fun ⟨d, hd, h⟩ => by rwa [show d = 0 by omega] at h⟩
  exact testBit_smear (testBit_smear (testBit_smear (testBit_smear (testBit_smear
    (testBit_smear h1))))) i

/-- The ones of a number below `2 ^ 64` lie below its bit length, and one lies just below it. -/
theorem exists_testBit_iff_lt_bitLength {n : Nat} (hn : n < Nat.pow 2 64) (i : Nat) :
    (∃ d < 64, n.testBit (i + d)) ↔ i < bitLength n := by
  unfold bitLength
  split
  · next h0 =>
    subst h0
    simp
  · next h0 =>
    have hlog : n.log2 < 64 := (Nat.log2_lt h0).2 hn
    constructor
    · rintro ⟨d, -, hd⟩
      refine Nat.lt_of_not_le fun hi => ?_
      -- a one at `i + d` beyond the highest one contradicts `n < 2 ^ (log2 n + 1)`
      have hlt : n < Nat.pow 2 (i + d) :=
        Nat.lt_of_lt_of_le Nat.lt_log2_self (Nat.pow_le_pow_right (by decide) (by omega))
      rw [Nat.testBit_lt_two_pow hlt] at hd
      exact Bool.false_ne_true hd
    · intro hi
      refine ⟨n.log2 - i, by omega, ?_⟩
      rw [Nat.add_sub_cancel' (by omega)]
      exact Nat.testBit_log2 h0

/-- On a word below `2 ^ 64`, `fill` leaves ones at every position up to the highest one. -/
theorem fill_natCast {n : Nat} (hn : n < Nat.pow 2 64) :
    fill n = ((Nat.pow 2 (bitLength n) - 1 : Nat) : Int) := by
  rw [fill_natCast_eq, Int.ofNat_inj]
  apply Nat.eq_of_testBit_eq
  intro i
  rw [Nat.pow_eq, Nat.testBit_two_pow_sub_one, Bool.eq_iff_iff, testBit_fill_natCast,
    exists_testBit_iff_lt_bitLength hn, decide_eq_true_iff]

/-- Sideways addition counts the ones of `2 ^ k - 1`, for every width up to 64. -/
theorem ones_two_pow_sub_one : ∀ k, k ≤ 64 → ones ((Nat.pow 2 k - 1 : Nat) : Int) = k := by
  decide

theorem bitLength_le {n : Nat} (hn : n < Nat.pow 2 64) : bitLength n ≤ 64 := by
  unfold bitLength
  split
  · omega
  · next h0 => exact (Nat.log2_lt h0).2 hn

/-- `floorLog2` is the bit length less one on the words below `2 ^ 64`. -/
theorem floorLog2_natCast {n : Nat} (hn : n < Nat.pow 2 64) :
    floorLog2 n = (bitLength n : Int) - 1 := by
  rw [floorLog2, fill_natCast hn, ones_two_pow_sub_one _ (bitLength_le hn)]

theorem natCast_le_mask {n : Nat} : (n : Int) ≤ mask ↔ n < Nat.pow 2 64 := by
  simp only [mask, Nat.pow_eq]
  omega

/-- **The highest one.**  `msbPos` is the bit length less one for every nonnegative word, on
both of its paths. -/
theorem msbPos_natCast (n : Nat) : msbPos n = (bitLength n : Int) - 1 := by
  unfold msbPos
  split
  · next h => simp [show n = 0 by omega, bitLength]
  · split
    · rfl
    · next h0 h => exact floorLog2_natCast (natCast_le_mask.1 (Int.not_lt.1 h))

theorem msbPos_toNat (n : Nat) : (msbPos n).toNat = n.log2 := by
  rw [msbPos_natCast]
  unfold bitLength
  split <;> simp_all

end FiniteRings.Word
