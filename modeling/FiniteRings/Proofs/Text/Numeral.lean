import Mathlib.Data.Nat.Digits.Defs
import Mathlib.Data.List.Forall2
import FiniteRings.Text.Literal

/-!
# Numerals

A numeral is a nonempty string of digits of one base, the most significant digit first. It
denotes `Nat.ofDigits` of its digit values, read from the least significant end. The readers of
the library take one of two kinds of digits:

* `DigitOf base`: the ASCII digits of a base up to sixteen, `0` to `9` and then the letters `a` to
  `f` in either case, which `plainDigits` reads;
* `IsDecimal`: the decimal digits of every script, which `decimalDigits` reads.

Both readers accept exactly the numerals of their digits (`plainDigits_eq_some_iff`,
`decimalDigits_eq_some_iff`), and the digits that `Nat.toDigits` writes form a numeral of the
number written (`numeral_toDigits`), so that reading what was written gives the number back.
-/

namespace FiniteRings.Text

/-- `c` is the digit of value `v` in base `base`: `Nat.digitChar v`, or its capital. -/
def DigitOf (base : Nat) (c : Char) (v : Nat) : Prop :=
  v < base ∧ (c = Nat.digitChar v ∨ c = (Nat.digitChar v).toUpper)

/-- `c` is a decimal digit of value `v` in some script. -/
def IsDecimal (c : Char) (v : Nat) : Prop := decimalValue? c = some v

/-- `ds` is a numeral of base `base` in the digits `digit`, and denotes `n`. -/
def Numeral (digit : Char → Nat → Prop) (base : Nat) (ds : List Char) (n : Nat) : Prop :=
  ∃ vs : List Nat, List.Forall₂ digit ds vs ∧ ds ≠ [] ∧ n = Nat.ofDigits base vs.reverse

/-! ### Reading digit by digit -/

/-- The value of the digits `vs` read after `acc`: each digit shifts what was read one place. -/
theorem ofDigits_reverse_cons (base acc d : Nat) (vs : List Nat) :
    acc * base ^ (d :: vs).length + Nat.ofDigits base (d :: vs).reverse =
      (acc * base + d) * base ^ vs.length + Nat.ofDigits base vs.reverse := by
  rw [List.reverse_cons, Nat.ofDigits_append, List.length_cons, List.length_reverse,
    Nat.ofDigits_singleton, pow_succ]
  ring

/-- The leading digit `d` of a numeral counts `base ^ k` for the `k` digits after it. -/
theorem ofDigits_reverse_cons_lead (base d : Nat) (vs : List Nat) :
    Nat.ofDigits base (d :: vs).reverse = d * base ^ vs.length + Nat.ofDigits base vs.reverse := by
  simpa using ofDigits_reverse_cons base 0 d vs

/-- Reading digits from the most significant one multiplies what was read by the base and adds
the next digit; the digits `vs` shift the start `acc` up by their number of places. -/
theorem foldlM_digits_eq_some_iff (read : Char → Option Nat) (base : Nat) (ds : List Char)
    (acc n : Nat) :
    ds.foldlM (fun acc c => (acc * base + ·) <$> read c) acc = some n ↔
      ∃ vs : List Nat, List.Forall₂ (fun c v => read c = some v) ds vs ∧
        n = acc * base ^ vs.length + Nat.ofDigits base vs.reverse := by
  induction ds generalizing acc with
  | nil => simp [List.forall₂_nil_left_iff, eq_comm]
  | cons c ds ih =>
    simp only [List.foldlM_cons, List.forall₂_cons_left_iff]
    cases hc : read c with
    | none => simp
    | some d =>
      change ds.foldlM _ (acc * base + d) = some n ↔ _
      rw [ih]
      constructor
      · rintro ⟨vs, hvs, rfl⟩
        exact ⟨d :: vs, ⟨d, vs, rfl, hvs, rfl⟩, (ofDigits_reverse_cons base acc d vs).symm⟩
      · rintro ⟨_, ⟨d', vs, hd, hvs, rfl⟩, rfl⟩
        cases hd
        exact ⟨vs, hvs, ofDigits_reverse_cons base acc d vs⟩

theorem numeral_iff_foldlM (read : Char → Option Nat) (base : Nat) (ds : List Char) (n : Nat) :
    Numeral (fun c v => read c = some v) base ds n ↔
      ds ≠ [] ∧ ds.foldlM (fun acc c => (acc * base + ·) <$> read c) 0 = some n := by
  rw [foldlM_digits_eq_some_iff]
  simp only [Numeral, zero_mul, zero_add]
  constructor
  · rintro ⟨vs, hvs, hne, rfl⟩
    exact ⟨hne, vs, hvs, rfl⟩
  · rintro ⟨hne, vs, hvs, rfl⟩
    exact ⟨vs, hvs, hne, rfl⟩

theorem Numeral.ne_nil {digit : Char → Nat → Prop} {base : Nat} {ds : List Char} {n : Nat}
    (h : Numeral digit base ds n) : ds ≠ [] := by
  obtain ⟨-, -, hne, -⟩ := h
  exact hne

/-- Every character of a numeral is a digit. -/
theorem Numeral.digit_of_mem {digit : Char → Nat → Prop} {base : Nat} {ds : List Char} {n : Nat}
    (h : Numeral digit base ds n) {c : Char} (hc : c ∈ ds) : ∃ v, digit c v := by
  obtain ⟨vs, hvs, -, -⟩ := h
  induction hvs with
  | nil => simp at hc
  | cons hd _ ih =>
    rcases List.mem_cons.1 hc with rfl | hc
    · exact ⟨_, hd⟩
    · exact ih hc

/-- The first character of a numeral is a digit. -/
theorem Numeral.head {digit : Char → Nat → Prop} {base : Nat} {c : Char} {ds : List Char}
    {n : Nat} (h : Numeral digit base (c :: ds) n) : ∃ v, digit c v :=
  h.digit_of_mem List.mem_cons_self

theorem Numeral.imp {digit digit' : Char → Nat → Prop} (h : ∀ c v, digit c v → digit' c v)
    {base : Nat} {ds : List Char} {n : Nat} : Numeral digit base ds n → Numeral digit' base ds n :=
  fun ⟨vs, hvs, hne, hn⟩ => ⟨vs, hvs.imp fun {_ _} => h _ _, hne, hn⟩

theorem numeral_congr {digit digit' : Char → Nat → Prop} (h : ∀ c v, digit c v ↔ digit' c v)
    {base : Nat} {ds : List Char} {n : Nat} : Numeral digit base ds n ↔ Numeral digit' base ds n :=
  ⟨Numeral.imp fun c v => (h c v).1, Numeral.imp fun c v => (h c v).2⟩

/-! ### The digits of each reader -/

theorem char_le_iff {c d : Char} : c ≤ d ↔ c.toNat ≤ d.toNat := by
  rw [Char.le_def, UInt32.le_iff_toNat_le]
  rfl

theorem digitValue?_digitChar : ∀ v, v < 16 → digitValue? (Nat.digitChar v) = some v := by
  decide

theorem digitValue?_toUpper_digitChar :
    ∀ v, v < 16 → digitValue? (Nat.digitChar v).toUpper = some v := by
  decide

theorem toNat_digitChar_of_ten_le : ∀ v, 10 ≤ v → v < 16 → (Nat.digitChar v).toNat = 87 + v := by
  decide

theorem toNat_toUpper_digitChar :
    ∀ v, 10 ≤ v → v < 16 → (Nat.digitChar v).toUpper.toNat = 55 + v := by
  decide

/-- A character that reads as a digit below sixteen is that digit's character, in lower or
upper case. -/
theorem eq_digitChar_of_digitValue? {c : Char} {v : Nat} (h : digitValue? c = some v)
    (hv : v < 16) : c = Nat.digitChar v ∨ c = (Nat.digitChar v).toUpper := by
  unfold digitValue? at h
  simp only [char_le_iff, Char.reduceToNat] at h
  -- the three ranges `0`–`9`, `a`–`z` and `A`–`Z`; each fixes the code point of `c`
  split_ifs at h with h09 haz hAZ <;> simp only [Option.some.injEq] at h
  · left
    rw [← Char.toNat_inj, Nat.toNat_digitChar_of_lt_ten (by omega)]
    omega
  · left
    rw [← Char.toNat_inj, toNat_digitChar_of_ten_le v (by omega) hv]
    omega
  · right
    rw [← Char.toNat_inj, toNat_toUpper_digitChar v (by omega) hv]
    omega

/-- `digitIn base` reads exactly the digits of `base`. -/
theorem digitIn_eq_some_iff {base : Nat} (hb : base ≤ 16) {c : Char} {v : Nat} :
    digitIn base c = some v ↔ DigitOf base c v := by
  unfold digitIn
  constructor
  · intro h
    cases hc : digitValue? c with
    | none => simp [hc] at h
    | some d =>
      simp only [hc, Option.ite_none_right_eq_some, Option.some.injEq] at h
      obtain ⟨hd, rfl⟩ := h
      exact ⟨hd, eq_digitChar_of_digitValue? hc (by omega)⟩
  · rintro ⟨hv, rfl | rfl⟩
    · simp [digitValue?_digitChar v (by omega), hv]
    · simp [digitValue?_toUpper_digitChar v (by omega), hv]

theorem decimalValue?_digitChar :
    ∀ v, v < 10 → decimalValue? (Nat.digitChar v) = some v ∧
      decimalValue? (Nat.digitChar v).toUpper = some v := by
  decide

/-- An ASCII decimal digit is a decimal digit. -/
theorem DigitOf.isDecimal {c : Char} {v : Nat} (h : DigitOf 10 c v) : IsDecimal c v := by
  obtain ⟨hv, rfl | rfl⟩ := h
  · exact (decimalValue?_digitChar v hv).1
  · exact (decimalValue?_digitChar v hv).2

/-! ### The readers -/

/-- `plainDigits base` reads exactly the numerals of the ASCII digits of `base`. -/
theorem plainDigits_eq_some_iff {base : Nat} (hb : base ≤ 16) {ds : List Char} {n : Nat} :
    plainDigits base ds = some n ↔ Numeral (DigitOf base) base ds n := by
  rw [← numeral_congr fun c v => digitIn_eq_some_iff hb, numeral_iff_foldlM, plainDigits]
  cases ds with
  | nil => simp
  | cons c ds => simp

/-- `decimalDigits` reads exactly the numerals of the decimal digits of every script. -/
theorem decimalDigits_eq_some_iff {ds : List Char} {n : Nat} :
    decimalDigits ds = some n ↔ Numeral IsDecimal 10 ds n := by
  change _ ↔ Numeral (fun c v => decimalValue? c = some v) 10 ds n
  rw [numeral_iff_foldlM, decimalDigits]
  cases ds with
  | nil => simp
  | cons c ds => simp

/-! ### Written numbers -/

/-- The digits that `Nat.toDigits` writes form a numeral of the number written. -/
theorem numeral_toDigits {base : Nat} (hb : 1 < base) (n : Nat) :
    Numeral (DigitOf base) base (Nat.toDigits base n) n := by
  induction n using Nat.base_induction base hb with
  | single m hm =>
    rw [Nat.toDigits_of_lt_base hm]
    exact ⟨[m], .cons ⟨hm, .inl rfl⟩ .nil, by simp, by simp⟩
  | digit m k hk hm ih =>
    -- `b * m + k` is written as the digits of `m` followed by the digit `k`
    obtain ⟨vs, hvs, hne, rfl⟩ := ih
    rw [← Nat.toDigits_append_toDigits hb hm hk, Nat.toDigits_of_lt_base hk]
    refine ⟨vs ++ [k], List.rel_append hvs (.cons ⟨hk, .inl rfl⟩ .nil), by simp, ?_⟩
    rw [List.reverse_append, List.reverse_singleton, List.singleton_append, Nat.ofDigits_cons]
    ring

/-- The digits that `Nat.toDigits` writes for a positive number do not start with `0`. -/
theorem toDigits_head_ne_zero {base : Nat} (hb : 1 < base) {n : Nat} (hn : 0 < n) :
    ∃ d ds, Nat.toDigits base n = d :: ds ∧ d ≠ '0' := by
  induction n using Nat.base_induction base hb with
  | single m hm =>
    rw [Nat.toDigits_of_lt_base hm]
    exact ⟨_, [], rfl, by simpa using hn.ne'⟩
  | digit m k hk hm ih =>
    obtain ⟨d, ds, hds, hd⟩ := ih hm
    rw [← Nat.toDigits_append_toDigits hb hm hk, hds]
    exact ⟨d, _, rfl, hd⟩

end FiniteRings.Text
