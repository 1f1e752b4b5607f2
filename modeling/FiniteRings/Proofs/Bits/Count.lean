import Mathlib
import FiniteRings.Proofs.Bits.Word

/-!
# Sideways addition counts the ones; bit positions of words of either sign

`ones` adds neighbouring fields of the low word six times, each time into fields twice as wide:
first the 32 pairs of bits, last the two halves. A number is read here as the little-endian sum
`fieldSum w n f = f 0 + 2 ^ w * f 1 + …` of `n` fields of width `w`. One step of sideways
addition takes `2 * n` fields of width `w` to `n` fields of width `2 * w` holding the sums of
neighbouring pairs (`foldFields_fieldSum`): the mask picks the even fields, and after a shift by
`w` the odd ones, and no sum overflows, since two values below `2 ^ w` add to less than
`2 ^ (2 * w)`. The bits of the low word are its fields of width one, and every step keeps "field
`j` holds the number of ones in its positions" (`blockOnes_double`), so the last, single field is
the number of ones of `x mod 2 ^ 64` (`ones_eq_length_bitIndices`).

A negative word of at least `-2 ^ 63` has ones from position 63 up: `fill` then sets all 64 low
positions, and `msbPos` is `63`. Its lowest one is found as for a positive word, because
`x &&& -x` isolates the lowest one of every nonzero integer (`and_neg_eq_two_pow`).
-/

namespace FiniteRings.Word

/-! ### Numbers as sums of fields -/

/-- The number whose `n` fields of width `w` are `f 0, …, f (n - 1)`, lowest first. -/
def fieldSum (w : Nat) : Nat → (Nat → Nat) → Nat
  | 0, _ => 0
  | n + 1, f => f 0 + 2 ^ w * fieldSum w n (fun j => f (j + 1))

theorem fieldSum_congr {w n : Nat} {f g : Nat → Nat} (h : ∀ j < n, f j = g j) :
    fieldSum w n f = fieldSum w n g := by
  induction n generalizing f g with
  | zero => rfl
  | succ n ih => rw [fieldSum, fieldSum, h 0 n.succ_pos, ih fun j hj => h (j + 1) (by omega)]

theorem fieldSum_succ_top (w n : Nat) (f : Nat → Nat) :
    fieldSum w (n + 1) f = fieldSum w n f + 2 ^ (w * n) * f n := by
  induction n generalizing f with
  | zero => simp [fieldSum]
  | succ n ih =>
    rw [fieldSum, ih (fun j => f (j + 1)), fieldSum, Nat.mul_succ, Nat.pow_add]
    ring

theorem fieldSum_add (w n : Nat) (f g : Nat → Nat) :
    fieldSum w n f + fieldSum w n g = fieldSum w n (fun j => f j + g j) := by
  induction n generalizing f g with
  | zero => rfl
  | succ n ih =>
    rw [fieldSum, fieldSum, fieldSum, ← ih]
    ring

/-- Bit `i` of `a + 2 ^ w * b` is that of `a` below `w`, and that of `b` above. -/
theorem testBit_field {a b w : Nat} (ha : a < 2 ^ w) (i : Nat) :
    (a + 2 ^ w * b).testBit i = if i < w then a.testBit i else b.testBit (i - w) := by
  rw [Nat.add_comm, Nat.testBit_two_pow_mul_add _ ha]

theorem fieldSum_and {w n : Nat} {f g : Nat → Nat} (hf : ∀ j < n, f j < 2 ^ w)
    (hg : ∀ j < n, g j < 2 ^ w) :
    fieldSum w n f &&& fieldSum w n g = fieldSum w n (fun j => f j &&& g j) := by
  induction n generalizing f g with
  | zero => simp [fieldSum]
  | succ n ih =>
    have hf0 := hf 0 n.succ_pos
    have hg0 := hg 0 n.succ_pos
    rw [fieldSum, fieldSum, fieldSum,
      ← ih (fun j hj => hf (j + 1) (by omega)) (fun j hj => hg (j + 1) (by omega))]
    apply Nat.eq_of_testBit_eq
    intro i
    rw [Nat.testBit_and, testBit_field hf0, testBit_field hg0,
      testBit_field (Nat.and_lt_two_pow _ hg0), Nat.testBit_and, Nat.testBit_and]
    split <;> rfl

/-- Two neighbouring fields of width `w` make one field of width `2 * w`. -/
theorem fieldSum_pairs (w n : Nat) (f : Nat → Nat) :
    fieldSum w (2 * n) f = fieldSum (2 * w) n (fun j => f (2 * j) + 2 ^ w * f (2 * j + 1)) := by
  induction n generalizing f with
  | zero => rfl
  | succ n ih =>
    have hrest := ih (fun j => f (j + 2))
    calc fieldSum w (2 * (n + 1)) f
        = f 0 + 2 ^ w * (f 1 + 2 ^ w * fieldSum w (2 * n) (fun j => f (j + 2))) := rfl
      _ = (f 0 + 2 ^ w * f 1) + 2 ^ (2 * w) *
            fieldSum (2 * w) n (fun j => f (2 * j + 2) + 2 ^ w * f (2 * j + 3)) := by
          rw [hrest, Nat.two_mul w, Nat.pow_add]
          ring
      _ = fieldSum (2 * w) (n + 1) (fun j => f (2 * j) + 2 ^ w * f (2 * j + 1)) := rfl

/-- Dropping the lowest field divides by `2 ^ w`; a zero top field keeps the count of fields. -/
theorem fieldSum_div_two_pow {w n : Nat} {f : Nat → Nat} (h0 : f 0 < 2 ^ w) (htop : f n = 0) :
    fieldSum w n f / 2 ^ w = fieldSum w n (fun j => f (j + 1)) := by
  cases n with
  | zero => simp [fieldSum]
  | succ n =>
    rw [fieldSum, Nat.add_mul_div_left _ _ (Nat.two_pow_pos w), Nat.div_eq_of_lt h0,
      Nat.zero_add, fieldSum_succ_top, htop, Nat.mul_zero, Nat.add_zero]

/-- **One step of sideways addition.**  Masking the even fields, and after a shift the odd ones,
and adding, turns `2 * n` fields of width `w` into `n` fields of width `2 * w` that hold the
sums of neighbouring pairs. -/
theorem foldFields_fieldSum {w n : Nat} {f : Nat → Nat} (hf : ∀ j, f j < 2 ^ w)
    (htop : f (2 * n) = 0) :
    foldFields (fieldSum w (2 * n) f) (fieldSum (2 * w) n fun _ => 2 ^ w - 1) w =
      fieldSum (2 * w) n (fun j => f (2 * j) + f (2 * j + 1)) := by
  -- a pair of fields below `2 ^ w` is a field below `2 ^ (2 * w)`, and so is the mask
  have hwide : ∀ a b, a < 2 ^ w → b < 2 ^ w → a + 2 ^ w * b < 2 ^ (2 * w) := by
    intro a b ha hb
    calc a + 2 ^ w * b < 2 ^ w * (b + 1) := by rw [Nat.mul_succ]; omega
      _ ≤ 2 ^ w * 2 ^ w := Nat.mul_le_mul_left _ hb
      _ = 2 ^ (2 * w) := by rw [Nat.two_mul, Nat.pow_add]
  have hmask : 2 ^ w - 1 < 2 ^ (2 * w) :=
    lt_of_lt_of_le (Nat.sub_lt (Nat.two_pow_pos w) Nat.one_pos)
      (Nat.pow_le_pow_right (by decide) (by omega))
  have hlow : ∀ a b, a < 2 ^ w → (a + 2 ^ w * b) &&& (2 ^ w - 1) = a := fun a b ha => by
    rw [Nat.and_two_pow_sub_one_eq_mod, Nat.add_mul_mod_self_left, Nat.mod_eq_of_lt ha]
  have heven : fieldSum w (2 * n) f &&& (fieldSum (2 * w) n fun _ => 2 ^ w - 1) =
      fieldSum (2 * w) n (fun j => f (2 * j)) := by
    rw [fieldSum_pairs, fieldSum_and (fun j _ => hwide _ _ (hf _) (hf _)) (fun _ _ => hmask)]
    exact fieldSum_congr fun j _ => hlow _ _ (hf _)
  have hodd : (fieldSum w (2 * n) f >>> w) &&& (fieldSum (2 * w) n fun _ => 2 ^ w - 1) =
      fieldSum (2 * w) n (fun j => f (2 * j + 1)) := by
    rw [Nat.shiftRight_eq_div_pow, fieldSum_div_two_pow (hf 0) htop, fieldSum_pairs,
      fieldSum_and (fun j _ => hwide _ _ (hf _) (hf _)) (fun _ _ => hmask)]
    exact fieldSum_congr fun j _ => hlow _ _ (hf _)
  rw [foldFields, heven, hodd, fieldSum_add]

/-! ### Counting ones field by field -/

/-- The number of ones of `x` among the `w` positions of its field `j`. -/
def blockOnes (x w j : Nat) : Nat := Nat.count (fun i => x.testBit (w * j + i)) w

theorem blockOnes_lt (x w j : Nat) : blockOnes x w j < 2 ^ w :=
  (Nat.count_le _).trans_lt Nat.lt_two_pow_self

/-- A field of width `2 * w` holds the ones of its two halves. -/
theorem blockOnes_double (x w j : Nat) :
    blockOnes x (2 * w) j = blockOnes x w (2 * j) + blockOnes x w (2 * j + 1) := by
  have hlo : ∀ i, 2 * w * j + i = w * (2 * j) + i := fun i => by ring
  have hhi : ∀ i, 2 * w * j + (w + i) = w * (2 * j + 1) + i := fun i => by ring
  unfold blockOnes
  conv_lhs => rw [show 2 * w = w + w from Nat.two_mul w]
  rw [Nat.count_add, ← Nat.two_mul]
  -- the upper half first, since its positions also have the shape of the lower half's
  simp only [hhi]
  simp only [hlo]

/-- Fields above the low word of a word below `2 ^ 64` hold no ones. -/
theorem blockOnes_eq_zero {x : Nat} (hx : x < 2 ^ 64) {w j : Nat} (hj : 64 ≤ w * j) :
    blockOnes x w j = 0 :=
  Nat.count_of_forall_not fun i _ => by
    rw [Nat.testBit_lt_two_pow (lt_of_lt_of_le hx (Nat.pow_le_pow_right (by decide) (by omega)))]
    exact Bool.false_ne_true

/-- Fields of width one are the bits. -/
theorem fieldSum_blockOnes_one : ∀ {n x : Nat}, x < 2 ^ n → fieldSum 1 n (blockOnes x 1) = x
  | 0, x, hx => by simp_all [fieldSum]
  | n + 1, x, hx => by
    have hhalf : x / 2 < 2 ^ n := by rw [Nat.pow_succ] at hx; omega
    have hbit : blockOnes x 1 0 = x % 2 := by
      rw [blockOnes, Nat.count_succ, Nat.count_zero, Nat.testBit_zero]
      rcases Nat.mod_two_eq_zero_or_one x with h | h <;> simp [h]
    have hrest : (fun j => blockOnes x 1 (j + 1)) = blockOnes (x / 2) 1 := by
      funext j
      unfold blockOnes
      simp only [← Nat.testBit_add_one]
      congr 1
      funext i
      congr 2
      omega
    rw [fieldSum, hbit, hrest, fieldSum_blockOnes_one hhalf, pow_one, Nat.mod_add_div]

/-- One step of sideways addition applied to the counts of the fields of width `w`. -/
theorem foldFields_blockOnes {x : Nat} (hx : x < 2 ^ 64) {w n M : Nat}
    (hwn : w * (2 * n) = 64) (hM : M = fieldSum (2 * w) n fun _ => 2 ^ w - 1) :
    foldFields (fieldSum w (2 * n) (blockOnes x w)) M w =
      fieldSum (2 * w) n (blockOnes x (2 * w)) := by
  rw [hM, foldFields_fieldSum (blockOnes_lt x w) (blockOnes_eq_zero hx hwn.ge)]
  exact fieldSum_congr fun j _ => (blockOnes_double x w j).symm

/-- The six steps of `ones` on a word below `2 ^ 64` leave the number of its ones. -/
theorem foldFields_six {y : Nat} (hy : y < 2 ^ 64) :
    foldFields (foldFields (foldFields (foldFields (foldFields (foldFields y
      0x5555555555555555 1) 0x3333333333333333 2) 0x0F0F0F0F0F0F0F0F 4) 0x00FF00FF00FF00FF 8)
      0x0000FFFF0000FFFF 16) 0x00000000FFFFFFFF 32 = blockOnes y 64 0 := by
  have h1 : foldFields (fieldSum 1 64 (blockOnes y 1)) 0x5555555555555555 1 =
      fieldSum 2 32 (blockOnes y 2) := foldFields_blockOnes hy (n := 32) rfl (by decide)
  have h2 : foldFields (fieldSum 2 32 (blockOnes y 2)) 0x3333333333333333 2 =
      fieldSum 4 16 (blockOnes y 4) := foldFields_blockOnes hy (n := 16) rfl (by decide)
  have h3 : foldFields (fieldSum 4 16 (blockOnes y 4)) 0x0F0F0F0F0F0F0F0F 4 =
      fieldSum 8 8 (blockOnes y 8) := foldFields_blockOnes hy (n := 8) rfl (by decide)
  have h4 : foldFields (fieldSum 8 8 (blockOnes y 8)) 0x00FF00FF00FF00FF 8 =
      fieldSum 16 4 (blockOnes y 16) := foldFields_blockOnes hy (n := 4) rfl (by decide)
  have h5 : foldFields (fieldSum 16 4 (blockOnes y 16)) 0x0000FFFF0000FFFF 16 =
      fieldSum 32 2 (blockOnes y 32) := foldFields_blockOnes hy (n := 2) rfl (by decide)
  have h6 : foldFields (fieldSum 32 2 (blockOnes y 32)) 0x00000000FFFFFFFF 32 =
      fieldSum 64 1 (blockOnes y 64) := foldFields_blockOnes hy (n := 1) rfl (by decide)
  conv_lhs => rw [← fieldSum_blockOnes_one hy, h1, h2, h3, h4, h5, h6]
  simp [fieldSum]

/-! ### `ones` counts the ones of the low word -/

/-- The mask keeps the low word: `x mod 2 ^ 64`, for either sign. -/
theorem and_mask_eq_emod (z : Int) : Signed.and z mask = z % 2 ^ 64 := by
  have hmask : mask = 2 ^ 64 - 1 := by rw [mask, Nat.pow_eq]
  cases z with
  | ofNat n =>
    show ((n &&& mask : Nat) : Int) = (n : Int) % 2 ^ 64
    rw [hmask, Nat.and_two_pow_sub_one_eq_mod, Int.natCast_mod]
    rfl
  | negSucc n =>
    show ((mask ^^^ (mask &&& n) : Nat) : Int) = Int.negSucc n % 2 ^ 64
    have hlt := Nat.mod_lt n (Nat.two_pow_pos 64)
    -- within the low word, `-[n+1]` is the complement of `n`
    have hcompl : mask ^^^ (mask &&& n) = 2 ^ 64 - (n % 2 ^ 64 + 1) := by
      apply Nat.eq_of_testBit_eq
      intro i
      rw [Nat.testBit_xor, Nat.testBit_and, Nat.testBit_two_pow_sub_succ hlt,
        Nat.testBit_mod_two_pow, hmask, Nat.testBit_two_pow_sub_one]
      cases decide (i < 64) <;> cases n.testBit i <;> rfl
    rw [hcompl, Int.negSucc_emod n (by positivity), Nat.cast_sub (by omega)]
    push_cast
    ring

theorem lowWord_lt (z : Int) : (z % 2 ^ 64).toNat < 2 ^ 64 := by
  have h0 : 0 ≤ z % 2 ^ 64 := Int.emod_nonneg _ (by positivity)
  have h1 : z % 2 ^ 64 < 2 ^ 64 := Int.emod_lt_of_pos _ (by positivity)
  omega

/-- Bit `i` of `x mod 2 ^ 64` is bit `i` of `x` below position 64, and zero above. -/
theorem testBit_lowWord (z : Int) (i : Nat) :
    (z % 2 ^ 64).toNat.testBit i = (Signed.testBit z i && decide (i < 64)) := by
  have h0 : 0 ≤ z % 2 ^ 64 := Int.emod_nonneg _ (by positivity)
  rw [← testBit_natCast, Int.toNat_of_nonneg h0, ← and_mask_eq_emod, Signed.testBit_and,
    testBit_natCast, mask, Nat.pow_eq, Nat.testBit_two_pow_sub_one]

/-- **Sideways addition.**  `ones x` is the number of ones among the 64 low positions of `x`. -/
theorem ones_eq_count (x : Int) : ones x = Nat.count (fun i => Signed.testBit x i) 64 := by
  have hones : ones x = blockOnes (x % 2 ^ 64).toNat 64 0 := by
    rw [← foldFields_six (lowWord_lt x), ← and_mask_eq_emod]
    rfl
  rw [hones, blockOnes, Nat.count_eq_card_filter_range, Nat.count_eq_card_filter_range]
  congr 1
  apply Finset.filter_congr
  intro i hi
  rw [Nat.mul_zero, Nat.zero_add, testBit_lowWord, decide_eq_true (Finset.mem_range.1 hi),
    Bool.and_true]

/-- `ones x` is the number of set bits of `x mod 2 ^ 64`. -/
theorem ones_eq_length_bitIndices (x : Int) : ones x = (x % 2 ^ 64).toNat.bitIndices.length := by
  rw [ones_eq_count, ← List.toFinset_card_of_nodup Nat.bitIndices_nodup,
    Nat.count_eq_card_filter_range]
  congr 1
  ext i
  simp only [Finset.mem_filter, Finset.mem_range, List.mem_toFinset, Nat.mem_bitIndices,
    testBit_lowWord, Bool.and_eq_true, decide_eq_true_eq]
  tauto

/-! ### The highest and the lowest one of a word -/

theorem bitLength_eq_size (n : Nat) : bitLength n = n.size := by
  unfold bitLength
  split
  · next h => rw [h, Nat.size_zero]
  · next h => exact le_antisymm (Nat.lt_size.2 (Nat.log2_self_le h)) (Nat.size_le.2 Nat.lt_log2_self)

/-- On a word below `2 ^ 64`, `msb` is its highest one as a word, and `0` for `0`. -/
theorem msb_natCast {n : Nat} (hn : n < 2 ^ 64) :
    msb n = ((if n = 0 then 0 else 2 ^ (n.size - 1) : Nat) : Int) := by
  have hF := fill_natCast hn
  rw [bitLength_eq_size] at hF
  -- `msb` keeps the ones of the filled word `F = 2 ^ size - 1` that `F >>> 1` lacks
  have hmsb : msb n = (((2 ^ n.size - 1) ^^^ ((2 ^ n.size - 1) &&& ((2 ^ n.size - 1) >>> 1)) :
      Nat) : Int) := by
    rw [msb, hF]
    rfl
  rw [hmsb, Int.natCast_inj]
  apply Nat.eq_of_testBit_eq
  intro i
  rw [Nat.testBit_xor, Nat.testBit_and, Nat.testBit_shiftRight, Nat.testBit_two_pow_sub_one,
    Nat.testBit_two_pow_sub_one]
  split
  · next h0 => simp [h0]
  · next h0 =>
    have hpos := Nat.size_pos.2 (Nat.pos_of_ne_zero h0)
    rw [Nat.testBit_two_pow]
    by_cases h1 : i < n.size <;> by_cases h2 : 1 + i < n.size <;> simp [h1, h2] <;> omega

theorem exists_lowestOne {n : Nat} (hn : n ≠ 0) :
    ∃ t, n.testBit t = true ∧ ∀ i < t, n.testBit i = false := by
  have h := Nat.exists_testBit_of_ne_zero hn
  exact ⟨Nat.find h, Nat.find_spec h, fun i hi => by simpa using Nat.find_min h hi⟩

/-- On a word below `2 ^ 64`, `lsb x` is `x &&& -x`. -/
theorem lsb_eq_and_neg {n : Nat} (hn : n < 2 ^ 64) : lsb n = Signed.and n (-n) := by
  rcases Nat.eq_zero_or_pos n with rfl | hpos
  · decide
  · obtain ⟨t, ht, hlow⟩ := exists_lowestOne hpos.ne'
    rw [lsb_natCast ht hlow hn, and_neg_natCast ht hlow]

/-- `t` is the position of the lowest one of the two's complement word of `x`. -/
def LowestOne (x : Int) (t : Nat) : Prop :=
  Signed.testBit x t = true ∧ ∀ i < t, Signed.testBit x i = false

/-- Adding one to `n` clears its ones below its lowest zero `t` and sets `t`. -/
theorem lowestOne_succ {n t : Nat} (ht : n.testBit t = false)
    (hlow : ∀ i < t, n.testBit i = true) :
    (n + 1).testBit t = true ∧ ∀ i < t, (n + 1).testBit i = false := by
  obtain ⟨s, hs, hslow⟩ := exists_lowestOne (Nat.add_one_ne_zero n)
  -- below the lowest one `s` of `n + 1` the bits of `n` are ones and at `s` a zero: `s` is `t`
  have hbits := testBit_pred hs hslow
  rw [Nat.add_sub_cancel] at hbits
  have hst : s = t := by
    rcases Nat.lt_trichotomy s t with h | h | h
    · have := hlow s h
      simp [hbits s] at this
    · exact h
    · have := hbits t
      simp [ht, h] at this
  subst hst
  exact ⟨hs, hslow⟩

/-- **`x &&& -x` isolates the lowest one** of every integer that has one. -/
theorem and_neg_eq_two_pow {x : Int} {t : Nat} (h : LowestOne x t) :
    Signed.and x (-x) = ((2 ^ t : Nat) : Int) := by
  obtain ⟨ht, hlow⟩ := h
  cases x with
  | ofNat n => exact and_neg_natCast ht hlow
  | negSucc n =>
    -- `-x` is `n + 1`, whose lowest one is the lowest zero of `n`: the lowest one of `x`
    have hn : n.testBit t = false := by simpa [Signed.testBit] using ht
    have hnlow : ∀ i < t, n.testBit i = true := fun i hi => by
      simpa [Signed.testBit] using hlow i hi
    obtain ⟨ht', hlow'⟩ := lowestOne_succ hn hnlow
    exact and_neg_natCast (n := n + 1) ht' hlow'

/-- `lsb` isolates the lowest one of any word whose lowest one lies in the low word. -/
theorem lsb_eq_two_pow {x : Int} {t : Nat} (h : LowestOne x t) (ht : t < 64) :
    lsb x = ((2 ^ t : Nat) : Int) := by
  rw [lsb, not_add_one, and_neg_eq_two_pow h]
  show ((2 ^ t &&& mask : Nat) : Int) = _
  rw [mask, Nat.pow_eq, Nat.and_two_pow_sub_one_eq_mod,
    Nat.mod_eq_of_lt (Nat.pow_lt_pow_right (by decide) ht)]

/-! ### Negative words -/

section Negative

variable {x : Int} (hlo : -2 ^ 63 ≤ x) (hneg : x < 0)
include hlo hneg

theorem testBit_sixtyThree : Signed.testBit x 63 = true := by
  obtain ⟨n, rfl⟩ := Int.eq_negSucc_of_lt_zero hneg
  have hn : n < 2 ^ 63 := by
    rw [Int.negSucc_eq] at hlo
    omega
  show (!n.testBit 63) = true
  rw [Nat.testBit_lt_two_pow hn]
  rfl

omit hlo in
theorem not_gt_mask : ¬x > mask := by
  have : (0 : Int) ≤ mask := Int.natCast_nonneg _
  omega

/-- **The highest one of a negative word** is at 63: `fill` sets all 64 low positions. -/
theorem msbPos_of_neg : msbPos x = 63 := by
  have hall : ∀ i < 64, Signed.testBit (fill x) i = true := fun i hi =>
    (testBit_fill x i).2 ⟨63 - i, by omega, by
      rw [Nat.add_sub_cancel' (by omega)]
      exact testBit_sixtyThree hlo hneg⟩
  have hcount : ones (fill x) = 64 := by
    rw [ones_eq_count, Nat.count_eq_card_filter_range,
      Finset.filter_true_of_mem fun i hi => hall i (Finset.mem_range.1 hi), Finset.card_range]
  rw [msbPos, if_neg hneg.ne, if_neg (not_gt_mask hneg), floorLog2, hcount]
  rfl

/-- **The lowest one of a negative word** is found by `lsb`, as for a positive one. -/
theorem lsbPos_of_neg {t : Nat} (h : LowestOne x t) : lsbPos x = t := by
  -- the one at position 63 bounds the lowest one
  have ht : t < 64 := by
    by_contra hge
    have h63 := h.2 63 (by omega)
    simp [testBit_sixtyThree hlo hneg] at h63
  rw [lsbPos, if_neg hneg.ne, if_neg (not_gt_mask hneg), lsb_eq_two_pow h ht,
    floorLog2_natCast (Nat.pow_lt_pow_right (by decide) ht), bitLength_two_pow]
  push_cast
  ring

end Negative

/-- **The bit positions of every word.**  For every nonnegative integer, `msbPos` is its size
less one, on both sides of `2 ^ 64`, and `lsbPos` is the position of its lowest one (`-1` for
zero). Below `2 ^ 64`, `msb` is the highest one as a word, `lsb` is `x &&& -x`, and `floorLog2` is
the size less one. For every integer, `ones` counts the set bits of `x mod 2 ^ 64`. A negative
word from `-2 ^ 63` on has its highest one at 63 and its lowest one where its two's complement
has it. -/
theorem bit_positions_words :
    (∀ n : Nat, msbPos n = (n.size : Int) - 1) ∧
    (∀ n t : Nat, LowestOne n t → lsbPos n = t) ∧ lsbPos 0 = -1 ∧
    (∀ n : Nat, n < 2 ^ 64 →
      msb n = ((if n = 0 then 0 else 2 ^ (n.size - 1) : Nat) : Int) ∧
      lsb n = Signed.and n (-n) ∧ floorLog2 n = (n.size : Int) - 1) ∧
    (∀ x : Int, ones x = (x % 2 ^ 64).toNat.bitIndices.length) ∧
    (∀ x : Int, -2 ^ 63 ≤ x → x < 0 → msbPos x = 63 ∧ ∀ t, LowestOne x t → lsbPos x = t) := by
  refine ⟨fun n => ?_, fun n t h => lsbPos_natCast h.1 h.2, rfl,
    fun n hn => ⟨msb_natCast hn, lsb_eq_and_neg hn, ?_⟩, ones_eq_length_bitIndices,
    fun x hlo hneg => ⟨msbPos_of_neg hlo hneg, fun t h => lsbPos_of_neg hlo hneg h⟩⟩
  · rw [msbPos_natCast, bitLength_eq_size]
  · rw [floorLog2_natCast hn, bitLength_eq_size]

/-- At the edges: `2 ^ 64` takes the bit-length path, `2 ^ 64 - 1` is the largest word, and
`-2 ^ 63` the least negative word the tricks take. -/
theorem bit_positions_at_edges :
    LowestOne (2 ^ 64 : Nat) 64 ∧ lsbPos (2 ^ 64 : Nat) = 64 ∧
    (2 ^ 64 - 1 : Nat) < 2 ^ 64 ∧ lsb (2 ^ 64 - 1 : Nat) = Signed.and (2 ^ 64 - 1 : Nat) (-(2 ^ 64 - 1 : Nat)) ∧
    LowestOne (-2 ^ 63) 63 ∧ msbPos (-2 ^ 63) = 63 ∧ lsbPos (-2 ^ 63) = 63 := by
  obtain ⟨-, hlsb, -, hword, -, hneg⟩ := bit_positions_words
  have hlow : LowestOne (-2 ^ 63) 63 := ⟨by decide, by decide⟩
  have hedge : LowestOne (2 ^ 64 : Nat) 64 := ⟨by decide, by decide⟩
  obtain ⟨hmsb, hlsbneg⟩ := hneg (-2 ^ 63) le_rfl (by decide)
  exact ⟨hedge, hlsb _ 64 hedge, by decide, (hword _ (by decide)).2.1, hlow, hmsb,
    hlsbneg 63 hlow⟩

end FiniteRings.Word
