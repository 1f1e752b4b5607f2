import FiniteRings.Error
import FiniteRings.Text.Radix

/-!
# Literals of the evaluator rings

Three readers, all on the list of characters of a literal.

* **Integer literals**: an optional sign `+` or `-` is split off, and what follows must be one or
  more ASCII letters and digits, so no blanks and no underscores. A `0` followed by a digit is
  rewritten to `0o` and the digit, so that `010` is eight; the signed text is then read by
  `readPrefixed`, as source code reads an integer literal. The value must fit a signed 64-bit
  word.
* **Hexadecimal words**: one or more ASCII hexadecimal digits and nothing else, with a value
  of at most `2 ^ 64 - 1`.
* **Small exponents**: one or more decimal digits of any script, with a value of at most
  `2 ^ 31 - 1`.

A text that a reader refuses fails with its own message, quoting the text; a value out of
range fails with a second one.
-/

namespace FiniteRings.Text

/-- The value of `cs` as digits of base `base`: at least one, each an ASCII digit of that
base. -/
def plainDigits (base : Nat) (cs : List Char) : Option Nat :=
  if cs.isEmpty then none else cs.foldlM (fun acc c => (acc * base + ·) <$> digitIn base c) 0

/-- The least value of a signed 64-bit word. -/
def wordMin : Int := -Int.pow 2 63

/-- The greatest value of a signed 64-bit word. -/
def wordMax : Int := Int.pow 2 63 - 1

/-- Whether `v` fits a signed 64-bit word. -/
def fitsWord (v : Int) : Bool := wordMin ≤ v && v ≤ wordMax

/-- The sign that may lead an integer literal, and the characters after it. -/
def splitSign : List Char → List Char × List Char
  | c :: rest => if c = '+' ∨ c = '-' then ([c], rest) else ([], c :: rest)
  | [] => ([], [])

/-- A leading `0` followed by a digit marks an octal number: `0o` takes the place of the `0`. -/
def legacyOctal : List Char → List Char
  | c :: d :: rest => if c = '0' ∧ d.isDigit then '0' :: 'o' :: d :: rest else c :: d :: rest
  | cs => cs

/-- Reads an integer literal, as the module comment describes. -/
def readInteger (s : String) : Outcome Int :=
  let (sign, digits) := splitSign s.toList
  if !digits.isEmpty && digits.all (fun c => c.toNat < 128 && c.isAlphanum) then
    match readPrefixed (sign ++ legacyOctal digits) with
    | some v => if fitsWord v then .ok v else .error (.integerRange s)
    | none => .error (.invalidInteger s)
  else .error (.invalidInteger s)

/-- The greatest hexadecimal word. -/
def hexWordMax : Nat := Nat.pow 2 64 - 1

/-- Reads a hexadecimal word. -/
def readHexWord (s : String) : Outcome Nat :=
  match plainDigits 16 s.toList with
  | none => .error (.invalidHex s)
  | some v => if v ≤ hexWordMax then .ok v else .error (.hexRange s)

/-- The greatest small exponent. -/
def smallExponentMax : Nat := Nat.pow 2 31 - 1

/-- The value of `cs` as decimal digits of any script: at least one, each a decimal digit. -/
def decimalDigits (cs : List Char) : Option Nat :=
  if cs.isEmpty then none else cs.foldlM (fun acc c => (acc * 10 + ·) <$> decimalValue? c) 0

/-- Reads a small exponent. -/
def readSmallExponent (s : String) : Outcome Nat :=
  match decimalDigits s.toList with
  | none => .error (.invalidExponent s)
  | some e => if e ≤ smallExponentMax then .ok e else .error (.exponentTooLarge s)

example : readInteger "-017" = .ok (-15) := rfl
example : readInteger "09" = .error (.invalidInteger "09") := rfl
example : readInteger "1_0" = .error (.invalidInteger "1_0") := rfl
example : plainDigits 16 ['a', 'B'] = some 171 := by decide

end FiniteRings.Text
