import Mathlib.Data.Int.Basic
import FiniteRings.Proofs.Text.Radix

/-!
# Integer literals

The integer literals of the evaluator rings follow a small grammar: an optional sign, then `0`,
a decimal numeral that does not start with `0`, a `0` followed by an octal numeral (so `010` is
eight), or a `0`, the mark of a radix (`x`, `o` or `b`, in either case) and a numeral of that
radix. `UnsignedLiteral` and `IntegerLiteral` state this grammar with the number each literal
denotes.

`readInteger` does not follow this grammar branch by branch: it splits off a sign, refuses
anything but ASCII letters and digits, puts `0o` in place of a `0` that a digit follows, and
hands the result to `readPrefixed`, which reads integers as source code does. The grammar comes
out of these steps (`readInteger_eq_ok_iff`, `readInteger_literal_grammar`):

* letters, digits and signs are their own ASCII twins and no blanks, so `readPrefixed` reads
  them as they stand (`readNumber_of_plain`), and without underscores its grouped numerals are
  plain numerals;
* after a `0`, a digit leads an octal numeral once `0o` is put before it, a mark leads a numeral
  of its radix, and any other letter is refused, since no decimal number goes on with it
  (`readPrefixedUnsigned_legacyOctal`);
* a decimal number has at most `decimalDigitLimit` digits, a bound that no value of a signed
  64-bit word reaches, since a numeral led by a digit other than `0` is at least `10 ^ k` for
  the `k` digits after the first (`Numeral.pow_le`).

Every integer of such a word is written by `toString` as one of its literals
(`readInteger_toString`).
-/

namespace FiniteRings.Text

/-- The marks of a radix after a leading `0`: `x` for sixteen, `o` for eight and `b` for two, in
either case. -/
def RadixMark (x : Char) (base : Nat) : Prop :=
  base = 16 ∧ (x = 'x' ∨ x = 'X') ∨ base = 8 ∧ (x = 'o' ∨ x = 'O') ∨
    base = 2 ∧ (x = 'b' ∨ x = 'B')

/-- The unsigned integer literals and the numbers they denote. -/
inductive UnsignedLiteral : List Char → Nat → Prop
  /-- The literal `0`. -/
  | zero : UnsignedLiteral ['0'] 0
  /-- A decimal numeral that does not start with `0`. -/
  | decimal {d : Char} {ds : List Char} {n : Nat} (hd : d ≠ '0')
      (h : Numeral (DigitOf 10) 10 (d :: ds) n) : UnsignedLiteral (d :: ds) n
  /-- A `0` followed by an octal numeral. -/
  | octal {ds : List Char} {n : Nat} (h : Numeral (DigitOf 8) 8 ds n) :
      UnsignedLiteral ('0' :: ds) n
  /-- A `0`, the mark of a radix and a numeral of that radix. -/
  | marked {x : Char} {base : Nat} {ds : List Char} {n : Nat} (hx : RadixMark x base)
      (h : Numeral (DigitOf base) base ds n) : UnsignedLiteral ('0' :: x :: ds) n

/-- The integer literals: an unsigned literal, alone or after a sign. -/
inductive IntegerLiteral : List Char → Int → Prop
  | unsigned {ds : List Char} {n : Nat} (h : UnsignedLiteral ds n) : IntegerLiteral ds n
  | plus {ds : List Char} {n : Nat} (h : UnsignedLiteral ds n) : IntegerLiteral ('+' :: ds) n
  | minus {ds : List Char} {n : Nat} (h : UnsignedLiteral ds n) : IntegerLiteral ('-' :: ds) (-n)

/-! ### Inversion of the grammar -/

theorem digitChar_toUpper_of_lt_ten : ∀ v, v < 10 → (Nat.digitChar v).toUpper = Nat.digitChar v := by
  decide

/-- A digit of a base up to ten is an ASCII decimal digit. -/
theorem DigitOf.eq_digitChar {base : Nat} (hb : base ≤ 10) {c : Char} {v : Nat}
    (h : DigitOf base c v) : c = Nat.digitChar v := by
  obtain ⟨hv, rfl | rfl⟩ := h
  · rfl
  · exact digitChar_toUpper_of_lt_ten v (by omega)

theorem DigitOf.isDigit {base : Nat} (hb : base ≤ 10) {c : Char} {v : Nat}
    (h : DigitOf base c v) : c.isDigit := by
  rw [h.eq_digitChar hb, Nat.isDigit_digitChar, decide_eq_true_eq]
  exact Nat.lt_of_lt_of_le h.1 hb

/-- A mark of a radix is a letter. -/
theorem RadixMark.not_isDigit {x : Char} {base : Nat} (h : RadixMark x base) : ¬x.isDigit := by
  rcases h with ⟨-, rfl | rfl⟩ | ⟨-, rfl | rfl⟩ | ⟨-, rfl | rfl⟩ <;> decide

theorem RadixMark.unique {x : Char} {b b' : Nat} (h : RadixMark x b) (h' : RadixMark x b') :
    b = b' := by
  rcases h with ⟨rfl, rfl | rfl⟩ | ⟨rfl, rfl | rfl⟩ | ⟨rfl, rfl | rfl⟩ <;>
    rcases h' with ⟨rfl, hx⟩ | ⟨rfl, hx⟩ | ⟨rfl, hx⟩ <;> simp_all

/-- Every unsigned literal starts with a decimal digit. -/
theorem UnsignedLiteral.head_isDigit {c : Char} {ds : List Char} {n : Nat}
    (h : UnsignedLiteral (c :: ds) n) : c.isDigit := by
  cases h with
  | zero => decide
  | decimal _ h =>
    obtain ⟨v, hv⟩ := h.head
    exact hv.isDigit le_rfl
  | octal => decide
  | marked => decide

theorem unsignedLiteral_zero_iff {n : Nat} : UnsignedLiteral ['0'] n ↔ n = 0 := by
  constructor
  · intro h
    cases h with
    | zero => rfl
    | decimal hd => exact absurd rfl hd
    | octal h => exact absurd rfl h.ne_nil
  · rintro rfl
    exact .zero

/-- After `0` and the mark of a radix comes a numeral of that radix. -/
theorem unsignedLiteral_marked_iff {x : Char} {base : Nat} (hx : RadixMark x base)
    {ds : List Char} {n : Nat} :
    UnsignedLiteral ('0' :: x :: ds) n ↔ Numeral (DigitOf base) base ds n := by
  constructor
  · intro h
    cases h with
    | decimal hd => exact absurd rfl hd
    | octal h =>
      obtain ⟨v, hv⟩ := h.head
      exact absurd (hv.isDigit (by decide)) hx.not_isDigit
    | marked hx' h => rwa [hx.unique hx']
  · exact .marked hx

/-- After `0` and a decimal digit comes an octal numeral. -/
theorem unsignedLiteral_octal_iff {c : Char} (hc : c.isDigit) {ds : List Char} {n : Nat} :
    UnsignedLiteral ('0' :: c :: ds) n ↔ Numeral (DigitOf 8) 8 (c :: ds) n := by
  constructor
  · intro h
    cases h with
    | decimal hd => exact absurd rfl hd
    | octal h => exact h
    | marked hx => exact absurd hc hx.not_isDigit
  · exact .octal

/-- After `0` no character but a decimal digit or the mark of a radix can follow. -/
theorem not_unsignedLiteral_other {c : Char} (hc : ¬c.isDigit) (hx : ∀ b, ¬RadixMark c b)
    {ds : List Char} {n : Nat} : ¬UnsignedLiteral ('0' :: c :: ds) n := by
  intro h
  cases h with
  | decimal hd => exact hd rfl
  | octal h =>
    obtain ⟨v, hv⟩ := h.head
    exact hc (hv.isDigit (by decide))
  | marked hm => exact hx _ hm

/-- A literal that does not start with `0` is a decimal numeral. -/
theorem unsignedLiteral_decimal_iff {cs : List Char} (hcs : ∀ ds, cs ≠ '0' :: ds) {n : Nat} :
    UnsignedLiteral cs n ↔ Numeral (DigitOf 10) 10 cs n := by
  constructor
  · intro h
    cases h with
    | zero => exact absurd rfl (hcs [])
    | decimal _ h => exact h
    | octal => exact absurd rfl (hcs _)
    | marked => exact absurd rfl (hcs _)
  · intro h
    match cs, h.ne_nil with
    | d :: ds, _ => exact .decimal (fun hd => hcs ds (by rw [hd])) h

/-! ### Signs -/

theorem integerLiteral_plus_iff {cs : List Char} {v : Int} :
    IntegerLiteral ('+' :: cs) v ↔ ∃ n : Nat, UnsignedLiteral cs n ∧ v = n := by
  constructor
  · intro h
    cases h with
    | unsigned h => exact absurd h.head_isDigit (by decide)
    | plus h => exact ⟨_, h, rfl⟩
  · rintro ⟨n, h, rfl⟩
    exact .plus h

theorem integerLiteral_minus_iff {cs : List Char} {v : Int} :
    IntegerLiteral ('-' :: cs) v ↔ ∃ n : Nat, UnsignedLiteral cs n ∧ v = -n := by
  constructor
  · intro h
    cases h with
    | unsigned h => exact absurd h.head_isDigit (by decide)
    | minus h => exact ⟨_, h, rfl⟩
  · rintro ⟨n, h, rfl⟩
    exact .minus h

theorem integerLiteral_unsigned_iff {cs : List Char} (hp : ∀ ds, cs ≠ '+' :: ds)
    (hm : ∀ ds, cs ≠ '-' :: ds) {v : Int} :
    IntegerLiteral cs v ↔ ∃ n : Nat, UnsignedLiteral cs n ∧ v = n := by
  constructor
  · intro h
    cases h with
    | unsigned h => exact ⟨_, h, rfl⟩
    | plus => exact absurd rfl (hp _)
    | minus => exact absurd rfl (hm _)
  · rintro ⟨n, h, rfl⟩
    exact .unsigned h

/-! ### The characters of a literal -/

theorem isAlphanum_digitChar :
    ∀ v, v < 16 → (Nat.digitChar v).isAlphanum ∧ (Nat.digitChar v).toUpper.isAlphanum := by
  decide

/-- Digits are ASCII letters or digits. -/
theorem DigitOf.isAlphanum {base : Nat} (hb : base ≤ 16) {c : Char} {v : Nat}
    (h : DigitOf base c v) : c.isAlphanum := by
  obtain ⟨hv, rfl | rfl⟩ := h
  · exact (isAlphanum_digitChar v (by omega)).1
  · exact (isAlphanum_digitChar v (by omega)).2

theorem RadixMark.isAlphanum {x : Char} {base : Nat} (h : RadixMark x base) : x.isAlphanum := by
  rcases h with ⟨-, rfl | rfl⟩ | ⟨-, rfl | rfl⟩ | ⟨-, rfl | rfl⟩ <;> decide

theorem RadixMark.le_sixteen {x : Char} {base : Nat} (h : RadixMark x base) : base ≤ 16 := by
  rcases h with ⟨rfl, -⟩ | ⟨rfl, -⟩ | ⟨rfl, -⟩ <;> decide

theorem Numeral.isAlphanum {base : Nat} (hb : base ≤ 16) {ds : List Char} {n : Nat}
    (h : Numeral (DigitOf base) base ds n) : ∀ c ∈ ds, c.isAlphanum := fun _ hc =>
  let ⟨_, hv⟩ := h.digit_of_mem hc
  hv.isAlphanum hb

/-- An unsigned literal is made of ASCII letters and digits. -/
theorem UnsignedLiteral.isAlphanum {cs : List Char} {n : Nat} (h : UnsignedLiteral cs n) :
    ∀ c ∈ cs, c.isAlphanum := by
  cases h with
  | zero =>
    intro c hc
    rw [List.mem_singleton.1 hc]
    decide
  | decimal _ h => exact h.isAlphanum (by decide)
  | octal h =>
    intro c hc
    rcases List.mem_cons.1 hc with rfl | hc
    · decide
    · exact h.isAlphanum (by decide) c hc
  | marked hx h =>
    intro c hc
    rcases List.mem_cons.1 hc with rfl | hc
    · decide
    rcases List.mem_cons.1 hc with rfl | hc
    · exact hx.isAlphanum
    · exact h.isAlphanum hx.le_sixteen c hc

theorem UnsignedLiteral.ne_nil {cs : List Char} {n : Nat} (h : UnsignedLiteral cs n) :
    cs ≠ [] := by
  cases h <;> simp

/-- ASCII letters and digits are no underscores, signs or blanks. -/
theorem isAlphanum_plain :
    ∀ c : Char, c.isAlphanum → c.toNat < 127 ∧ c ≠ '_' ∧ c ≠ '+' ∧ c ≠ '-' ∧
      isNumberBlank c = false := by
  intro c hc
  delta Char.isAlphanum Char.isAlpha Char.isUpper Char.isLower Char.isDigit at hc
  simp only [Bool.or_eq_true, Bool.and_eq_true, decide_eq_true_eq, ge_iff_le,
    UInt32.le_iff_toNat_le, Char.toNat_val] at hc
  simp only [isNumberBlank, ne_eq, ← Char.toNat_inj, Bool.or_eq_false_iff, decide_eq_false_iff_not]
  simp only [Char.reduceToNat] at hc ⊢
  omega

/-! ### The marks of a radix -/

theorem RadixMark.markedBase_eq {x : Char} {base : Nat} (h : RadixMark x base) :
    markedBase x = some base := by
  rcases h with ⟨rfl, rfl | rfl⟩ | ⟨rfl, rfl | rfl⟩ | ⟨rfl, rfl | rfl⟩ <;> decide

theorem markedBase_eq_some_iff {x : Char} {base : Nat} :
    markedBase x = some base ↔ RadixMark x base := by
  refine ⟨fun h => ?_, RadixMark.markedBase_eq⟩
  unfold markedBase at h
  split_ifs at h with hx ho hb <;> cases h
  · exact .inl ⟨rfl, hx⟩
  · exact .inr (.inl ⟨rfl, ho⟩)
  · exact .inr (.inr ⟨rfl, hb⟩)

/-! ### Decimal numbers and the cap on their digits -/

/-- A numeral led by a digit other than `0` is at least `base ^ k` for the `k` digits after the
first. -/
theorem Numeral.pow_le {base : Nat} {d : Char} {ds : List Char} {n : Nat}
    (h : Numeral (DigitOf base) base (d :: ds) n) (hd : d ≠ '0') : base ^ ds.length ≤ n := by
  obtain ⟨_, hvs, -, rfl⟩ := h
  obtain ⟨v, vs, hv, htail, rfl⟩ := List.forall₂_cons_left_iff.1 hvs
  have hv0 : v ≠ 0 := by
    rintro rfl
    obtain ⟨-, rfl | rfl⟩ := hv <;> exact hd rfl
  rw [ofDigits_reverse_cons_lead, htail.length_eq]
  calc base ^ vs.length ≤ v * base ^ vs.length := Nat.le_mul_of_pos_left _ (Nat.pos_of_ne_zero hv0)
    _ ≤ _ := Nat.le_add_right _ _

/-- No value of a signed 64-bit word has as many decimal digits as the cap. -/
theorem two_pow_lt_decimalDigitLimit : 2 ^ 63 < 10 ^ decimalDigitLimit := by
  calc 2 ^ 63 < 10 ^ 63 := Nat.pow_lt_pow_left (by decide) (by decide)
    _ ≤ 10 ^ decimalDigitLimit := Nat.pow_le_pow_right (by decide) (by decide)

/-- Below the cap, `readDecimal` reads exactly the decimal numerals without leading zero. -/
theorem readDecimal_eq_some_iff {cs : List Char} (hu : '_' ∉ cs) (hlead : ∀ ds, cs ≠ '0' :: ds)
    {n : Nat} (hn : n < 10 ^ decimalDigitLimit) :
    readDecimal cs = some n ↔ Numeral (DigitOf 10) 10 cs n := by
  rw [← readGrouped_eq_some_iff_numeral (by decide) hu]
  have hfilter : cs.filter (· ≠ '_') = cs :=
    List.filter_eq_self.2 fun c hc => by
      simp only [ne_eq, decide_eq_true_eq]
      rintro rfl
      exact hu hc
  unfold readDecimal
  rw [hfilter]
  split
  · -- more digits than the cap: then the value is too large for `n`
    next hlong =>
    refine iff_of_false (by simp) fun hr => ?_
    obtain ⟨d, ds, rfl⟩ := List.exists_cons_of_ne_nil
      ((readGrouped_eq_some_iff_numeral (by decide) hu).1 hr).ne_nil
    have hle := ((readGrouped_eq_some_iff_numeral (by decide) hu).1 hr).pow_le
      fun hd => hlead ds (by rw [hd])
    have hpow : 10 ^ decimalDigitLimit ≤ 10 ^ ds.length :=
      Nat.pow_le_pow_right (by decide) (by simp only [List.length_cons] at hlong; omega)
    omega
  · rfl

/-- A decimal number goes on after a leading `0` only with a decimal digit. -/
theorem readDecimal_zero_cons {x : Char} {rest : List Char} (hx : ¬x.isDigit) (hxu : x ≠ '_') :
    readDecimal ('0' :: x :: rest) = none := by
  unfold readDecimal
  split
  · rfl
  · cases hr : readGrouped 10 ('0' :: x :: rest) with
    | none => rfl
    | some n =>
      obtain ⟨c, rest', v, vs, he, -, hvs, -⟩ := (readGrouped_eq_some_iff (by decide) _ _).1 hr
      obtain ⟨-, rfl⟩ := List.cons.inj he
      cases hvs with
      | digit hc => exact absurd (hc.isDigit (by decide)) hx
      | underscore => exact absurd rfl hxu

/-! ### The unsigned part -/

/-- **The unsigned part.**  On ASCII letters and digits, the prefixed reader after the octal
rewrite reads exactly the unsigned literals, for every value below the cap on decimal digits. -/
theorem readPrefixedUnsigned_legacyOctal {cs : List Char} (hcs : ∀ c ∈ cs, c.isAlphanum) {n : Nat}
    (hn : n < 10 ^ decimalDigitLimit) :
    readPrefixedUnsigned (legacyOctal cs) = some n ↔ UnsignedLiteral cs n := by
  have hu : ∀ {l : List Char}, (∀ c ∈ l, c ∈ cs) → '_' ∉ l := fun hl h =>
    (isAlphanum_plain _ (hcs _ (hl _ h))).2.1 rfl
  rcases cs with _ | ⟨c, rest⟩
  · have hnil : readPrefixedUnsigned (legacyOctal []) = none := rfl
    exact iff_of_false (by simp [hnil]) fun h => h.ne_nil rfl
  by_cases hc : c = '0'
  swap
  · -- a first character other than `0`: a decimal numeral
    have hlead : ∀ ds, c :: rest ≠ '0' :: ds := fun ds h => hc (List.cons.inj h).1
    have hrw : legacyOctal (c :: rest) = c :: rest := by
      cases rest <;> simp [legacyOctal, hc]
    have hread : readPrefixedUnsigned (c :: rest) = readDecimal (c :: rest) := by
      cases rest <;> simp [readPrefixedUnsigned, hc]
    rw [hrw, hread, readDecimal_eq_some_iff (hu fun _ h => h) hlead hn,
      unsignedLiteral_decimal_iff hlead]
  subst hc
  rcases rest with _ | ⟨x, rest⟩
  · rw [unsignedLiteral_zero_iff]
    exact ⟨fun h => (Option.some_injective _ h).symm, fun h => by rw [h]; rfl⟩
  have hx := isAlphanum_plain x (hcs x (by simp))
  by_cases hd : x.isDigit
  · -- `0` and a digit: an octal numeral once `0o` stands before it
    have hrw : legacyOctal ('0' :: x :: rest) = '0' :: 'o' :: x :: rest := by
      simp [legacyOctal, hd]
    have hread : readPrefixedUnsigned ('0' :: 'o' :: x :: rest) = readGrouped 8 (x :: rest) := by
      simp [readPrefixedUnsigned, markedBase, hx.2.1]
    rw [hrw, hread, unsignedLiteral_octal_iff hd,
      readGrouped_eq_some_iff_numeral (by decide) (hu fun c hc => by simp_all)]
  have hrw : legacyOctal ('0' :: x :: rest) = '0' :: x :: rest := by simp [legacyOctal, hd]
  rw [hrw]
  cases hm : markedBase x with
  | some base =>
    -- `0` and a mark: a numeral of the radix it names
    have hmark := markedBase_eq_some_iff.1 hm
    have hrest : ∀ r, rest ≠ '_' :: r := by
      rintro r rfl
      exact hu (l := ['_']) (fun c hc => by simp_all) (by simp)
    have hread : readPrefixedUnsigned ('0' :: x :: rest) = readGrouped base rest := by
      simp only [readPrefixedUnsigned, if_true, hm]
    rw [hread, unsignedLiteral_marked_iff hmark,
      readGrouped_eq_some_iff_numeral hmark.le_sixteen (hu fun c hc => by simp_all)]
  | none =>
    -- `0` and another letter: no literal, and no decimal number either
    have hread : readPrefixedUnsigned ('0' :: x :: rest) = none := by
      simp only [readPrefixedUnsigned, if_true, hm, readDecimal_zero_cons hd hx.2.1,
        Option.filter_none]
    rw [hread]
    refine iff_of_false (by simp) (not_unsignedLiteral_other hd fun b hb => ?_)
    rw [← markedBase_eq_some_iff, hm] at hb
    cases hb

/-! ### Signs and the rewrite of leading zeros -/

/-- `splitSign` splits off a leading `+` or `-`, and nothing else. -/
theorem splitSign_spec (cs : List Char) :
    (splitSign cs).1 ++ (splitSign cs).2 = cs ∧
      ((splitSign cs).1 = [] ∧ (∀ r, (splitSign cs).2 ≠ '+' :: r ∧ (splitSign cs).2 ≠ '-' :: r) ∨
        (splitSign cs).1 = ['+'] ∨ (splitSign cs).1 = ['-']) := by
  rcases cs with _ | ⟨c, rest⟩
  · simp [splitSign]
  by_cases hc : c = '+' ∨ c = '-'
  · simp only [splitSign, if_pos hc]
    rcases hc with rfl | rfl <;> simp
  · rw [splitSign, if_neg hc]
    refine ⟨rfl, .inl ⟨rfl, fun r => ⟨?_, ?_⟩⟩⟩ <;> intro h <;> cases h <;> simp at hc

/-- The value a sign gives the number after it. -/
def signed (sign : List Char) (n : Nat) : Int := if sign = ['-'] then -(n : Int) else n

theorem natAbs_signed (sign : List Char) (n : Nat) : (signed sign n).natAbs = n := by
  unfold signed
  split <;> simp

/-- The integer literals after a sign that `splitSign` splits off. -/
theorem integerLiteral_sign_iff {sign digits : List Char}
    (hsign : sign = [] ∧ (∀ r, digits ≠ '+' :: r ∧ digits ≠ '-' :: r) ∨ sign = ['+'] ∨
      sign = ['-']) {v : Int} :
    IntegerLiteral (sign ++ digits) v ↔ ∃ n : Nat, UnsignedLiteral digits n ∧ v = signed sign n := by
  rcases hsign with ⟨rfl, hd⟩ | rfl | rfl
  · exact integerLiteral_unsigned_iff (fun r => (hd r).1) (fun r => (hd r).2)
  · exact integerLiteral_plus_iff
  · exact integerLiteral_minus_iff

/-- The rewrite of a leading `0` adds only the letter `o`. -/
theorem isAlphanum_legacyOctal {cs : List Char} (h : ∀ c ∈ cs, c.isAlphanum) :
    ∀ c ∈ legacyOctal cs, c.isAlphanum := by
  rcases cs with _ | ⟨c, _ | ⟨d, rest⟩⟩
  · exact h
  · exact h
  rw [legacyOctal]
  split_ifs
  · intro x hx
    rcases List.mem_cons.1 hx with rfl | hx
    · decide
    rcases List.mem_cons.1 hx with rfl | hx
    · decide
    · exact h x (List.mem_cons_of_mem _ hx)
  · exact h

theorem signed_nil : signed [] = Int.ofNat := rfl

theorem signed_plus : signed ['+'] = Int.ofNat := rfl

theorem signed_minus : signed ['-'] = fun (n : Nat) => -(n : Int) := by
  funext n
  simp [signed]

/-- The prefixed reader reads a sign and ASCII letters and digits as they stand. -/
theorem readPrefixed_sign {sign digits : List Char}
    (hsign : sign = [] ∨ sign = ['+'] ∨ sign = ['-']) (hd : ∀ c ∈ digits, c.isAlphanum) :
    readPrefixed (sign ++ legacyOctal digits) =
      (readPrefixedUnsigned (legacyOctal digits)).map (signed sign) := by
  have hl := isAlphanum_legacyOctal hd
  have hplain : ∀ c ∈ sign ++ legacyOctal digits, c.toNat < 127 ∧ isNumberBlank c = false := by
    intro c hc
    rcases List.mem_append.1 hc with hc | hc
    · rcases hsign with rfl | rfl | rfl <;> simp_all <;> decide
    · exact ⟨(isAlphanum_plain c (hl c hc)).1, (isAlphanum_plain c (hl c hc)).2.2.2.2⟩
  rw [readPrefixed, readNumber_of_plain _ hplain]
  rcases hsign with rfl | rfl | rfl
  · -- no sign: the digits start with a letter or a digit
    rw [List.nil_append, readSigned_of_unsigned, signed_nil]
    all_goals
      intro r hr
      have := isAlphanum_plain _ (hl _ (hr ▸ List.mem_cons_self))
      simp_all
  · rw [signed_plus]
    rfl
  · rw [signed_minus, List.singleton_append, readSigned]
    cases readPrefixedUnsigned (legacyOctal digits) <;> rfl

/-! ### Reading integer literals -/

theorem fitsWord_iff {v : Int} : fitsWord v = true ↔ wordMin ≤ v ∧ v ≤ wordMax := by
  simp [fitsWord]

/-- The word range reaches one further down than up. -/
theorem wordMin_eq : wordMin = -wordMax - 1 := by
  decide

theorem wordMax_nonneg : 0 ≤ wordMax := by
  decide

/-- A value of a signed 64-bit word has fewer decimal digits than the cap. -/
theorem natAbs_lt_decimalDigitLimit {v : Int} (h : wordMin ≤ v ∧ v ≤ wordMax) :
    v.natAbs < 10 ^ decimalDigitLimit := by
  have hmin : wordMin = -((2 ^ 63 : Nat) : Int) := by decide
  have hmax : wordMax = ((2 ^ 63 : Nat) : Int) - 1 := by decide
  have hle : v.natAbs ≤ 2 ^ 63 := by
    rw [hmin, hmax] at h
    omega
  exact lt_of_le_of_lt hle two_pow_lt_decimalDigitLimit

/-- After the sign, the digits of a literal whose value fits a signed 64-bit word are read as
that literal. -/
theorem readPrefixedUnsigned_of_word {sign digits : List Char} (hd : ∀ c ∈ digits, c.isAlphanum)
    {n : Nat} (hw : wordMin ≤ signed sign n ∧ signed sign n ≤ wordMax) :
    readPrefixedUnsigned (legacyOctal digits) = some n ↔ UnsignedLiteral digits n := by
  have hcap := natAbs_lt_decimalDigitLimit hw
  rw [natAbs_signed] at hcap
  exact readPrefixedUnsigned_legacyOctal hd hcap

/-- The characters after the sign of a literal pass the reader's first test. -/
theorem UnsignedLiteral.plain {digits : List Char} {n : Nat} (h : UnsignedLiteral digits n) :
    (!digits.isEmpty && digits.all fun c => c.toNat < 128 && c.isAlphanum) = true := by
  simp only [Bool.and_eq_true, Bool.not_eq_true', List.isEmpty_eq_false_iff, List.all_eq_true]
  refine ⟨h.ne_nil, fun c hc => ?_⟩
  have halnum := h.isAlphanum c hc
  have hlt := (isAlphanum_plain c halnum).1
  simp only [decide_eq_true_eq]
  exact ⟨by omega, halnum⟩

/-- **Reading.**  `readInteger` accepts exactly the integer literals whose value fits a signed
64-bit word. -/
theorem readInteger_eq_ok_iff {s : String} {v : Int} :
    readInteger s = .ok v ↔ IntegerLiteral s.toList v ∧ wordMin ≤ v ∧ v ≤ wordMax := by
  obtain ⟨hsplit, hsign⟩ := splitSign_spec s.toList
  unfold readInteger
  generalize splitSign s.toList = p at hsplit hsign
  obtain ⟨sign, digits⟩ := p
  dsimp only at hsplit hsign ⊢
  rw [← hsplit, integerLiteral_sign_iff hsign]
  by_cases hplain : (!digits.isEmpty && digits.all fun c => c.toNat < 128 && c.isAlphanum) = true
  swap
  · rw [if_neg hplain]
    refine iff_of_false (by simp) ?_
    rintro ⟨⟨n, hn, -⟩, -⟩
    exact hplain hn.plain
  rw [if_pos hplain]
  have hd : ∀ c ∈ digits, c.isAlphanum := fun c hc => by
    simp only [Bool.and_eq_true, List.all_eq_true] at hplain
    exact (hplain.2 c hc).2
  -- a literal whose value fits the word is what the reader finds
  have hread : ∀ m, UnsignedLiteral digits m →
      wordMin ≤ signed sign m ∧ signed sign m ≤ wordMax →
      readPrefixedUnsigned (legacyOctal digits) = some m :=
    fun m hm hw => (readPrefixedUnsigned_of_word hd hw).2 hm
  rw [readPrefixed_sign (hsign.imp_left And.left) hd]
  cases hr : readPrefixedUnsigned (legacyOctal digits) with
  | none =>
    refine iff_of_false (by simp) ?_
    rintro ⟨⟨m, hm, rfl⟩, hw⟩
    simp [hread m hm hw] at hr
  | some n =>
    simp only [Option.map_some]
    by_cases hv : fitsWord (signed sign n) = true
    · rw [if_pos hv, Except.ok.injEq]
      constructor
      · rintro rfl
        have hw := fitsWord_iff.1 hv
        exact ⟨⟨n, (readPrefixedUnsigned_of_word hd hw).1 hr, rfl⟩, hw⟩
      · rintro ⟨⟨m, hm, rfl⟩, hw⟩
        rw [Option.some.inj (hr.symm.trans (hread m hm hw))]
    · rw [if_neg hv]
      refine iff_of_false (by simp) ?_
      rintro ⟨⟨m, hm, rfl⟩, hw⟩
      rw [Option.some.inj (hr.symm.trans (hread m hm hw))] at hv
      exact hv (fitsWord_iff.2 hw)

/-- `readInteger` fails only with its two messages, both citing the text read. -/
theorem readInteger_eq_error {s : String} {e : Error} (h : readInteger s = .error e) :
    e = .invalidInteger s ∨ e = .integerRange s := by
  unfold readInteger at h
  generalize splitSign s.toList = p at h
  obtain ⟨sign, digits⟩ := p
  dsimp only at h
  split_ifs at h
  cases hr : readPrefixed (sign ++ legacyOctal digits) with
  | none =>
    simp only [hr] at h
    exact .inl (Except.error.inj h).symm
  | some w =>
    simp only [hr] at h
    split_ifs at h
    exact .inr (Except.error.inj h).symm
  all_goals exact .inl (Except.error.inj h).symm

/-- The integer literals of the evaluator rings (read by the literal readers of `int`, of `mod n`
before the reduction, and of `residues n`, and by the exponent readers of these three rings):
a text is read as `v` exactly when it is an integer literal denoting `v` and `v` fits a signed
64-bit word, and every other text fails with a bad value. The grammar is not written into the
reader: it follows from the steps the reader takes, the split of the sign, the test for ASCII
letters and digits, the rewrite of a leading `0` and the reading by prefix. -/
theorem readInteger_literal_grammar (s : String) :
    (∀ v, readInteger s = .ok v ↔ IntegerLiteral s.toList v ∧ wordMin ≤ v ∧ v ≤ wordMax) ∧
    ∀ e, readInteger s = .error e → e.kind = .value := by
  refine ⟨fun _ => readInteger_eq_ok_iff, fun e h => ?_⟩
  rcases readInteger_eq_error h with rfl | rfl <;> rfl

/-- A leading zero makes an octal literal, so `09` is no literal and fails with a bad value. -/
theorem readInteger_legacy_octal_nine :
    readInteger "09" = .error (.invalidInteger "09") ∧ (Error.invalidInteger "09").kind = .value := by
  have h : readInteger "09" = .error (.invalidInteger "09") := by decide
  exact ⟨h, (readInteger_literal_grammar "09").2 _ h⟩

/-! ### Written integers -/

/-- `Nat.toDigits` writes every number as an unsigned literal. -/
theorem unsignedLiteral_toDigits (n : Nat) : UnsignedLiteral (Nat.toDigits 10 n) n := by
  rcases Nat.eq_zero_or_pos n with rfl | hn
  · rw [Nat.toDigits_zero]
    exact .zero
  · obtain ⟨d, ds, hds, hd⟩ := toDigits_head_ne_zero (by decide : 1 < 10) hn
    have h := numeral_toDigits (by decide : 1 < 10) n
    rw [hds] at h ⊢
    exact .decimal hd h

/-- `toString` writes every integer as an integer literal of its value. -/
theorem integerLiteral_toString (v : Int) : IntegerLiteral (toString v).toList v := by
  rw [Int.toString_eq_repr, Int.repr_eq_if]
  split_ifs with hv
  · rw [Nat.toList_repr]
    simpa [Int.toNat_of_nonneg hv] using IntegerLiteral.unsigned (unsignedLiteral_toDigits v.toNat)
  · rw [String.toList_append, Nat.toList_repr]
    simpa [Int.toNat_of_nonneg (by omega : 0 ≤ -v)] using
      IntegerLiteral.minus (unsignedLiteral_toDigits (-v).toNat)

/-- Reading back a written integer of a signed 64-bit word gives the integer. -/
theorem readInteger_toString {v : Int} (h : wordMin ≤ v ∧ v ≤ wordMax) :
    readInteger (toString v) = .ok v :=
  readInteger_eq_ok_iff.2 ⟨integerLiteral_toString v, h⟩

end FiniteRings.Text
