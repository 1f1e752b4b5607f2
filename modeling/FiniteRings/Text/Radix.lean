import FiniteRings.Text.Blank
import FiniteRings.Text.DecimalDigit

/-!
# Integers written in a radix

`readRadix base s` reads an integer written in base `base` (2 to 36) with this grammar:

* blanks may stand before and after the number;
* then an optional sign `+` or `-`;
* in base 16 an optional prefix `0x` or `0X`, which one underscore may follow;
* then one or more digits, any two of which may be separated by a single underscore.

The letters `a` to `z`, in either case, are the digits ten and up. Before the text is read, a
decimal digit of any script is replaced by its ASCII twin and a blank beyond ASCII by a space;
any other character beyond ASCII makes the text unreadable. The blanks around the number are
the ASCII space, tab, line feed, vertical tab, form feed and carriage return, and the blanks
beyond ASCII.

`readPrefixed` reads an integer as the literals of source code are written, the same way
except for the number itself: a prefix `0x`, `0o` or `0b` (either case), which one underscore
may follow, names the base sixteen, eight or two; without one the number is decimal, and a
decimal number of more than one digit may start with `0` only if it is zero. A decimal number
has at most `decimalDigitLimit` digits; numbers in the bases with a prefix have no such limit.
-/

namespace FiniteRings.Text

/-- The character that stands for `c` when a number is read, if any. -/
def asciiTwin (c : Char) : Option Char :=
  if c.toNat < 127 then some c
  else if isBlank c then some ' '
  else (decimalValue? c).map fun d => Char.ofNat ('0'.toNat + d)

/-- The blanks around an ASCII number. -/
def isNumberBlank (c : Char) : Bool :=
  c = ' ' || c = '\t' || c = '\n' || c = '\r' || c.toNat = 11 || c.toNat = 12

/-- The value of an ASCII digit in bases up to 36. -/
def digitValue? (c : Char) : Option Nat :=
  if '0' ≤ c ∧ c ≤ '9' then some (c.toNat - '0'.toNat)
  else if 'a' ≤ c ∧ c ≤ 'z' then some (c.toNat - 'a'.toNat + 10)
  else if 'A' ≤ c ∧ c ≤ 'Z' then some (c.toNat - 'A'.toNat + 10)
  else none

/-- A digit of base `base`. -/
def digitIn (base : Nat) (c : Char) : Option Nat :=
  match digitValue? c with
  | some d => if d < base then some d else none
  | none => none

/-- Reads the rest of a digit group after its first digit: each further digit may follow one
underscore. `acc` is the value read so far. -/
def readGroupedRest (base acc : Nat) : List Char → Option Nat
  | [] => some acc
  | '_' :: c :: rest =>
    match digitIn base c with
    | some d => readGroupedRest base (acc * base + d) rest
    | none => none
  | c :: rest =>
    match digitIn base c with
    | some d => readGroupedRest base (acc * base + d) rest
    | none => none

/-- Reads digits separated by single underscores, starting with a digit. -/
def readGrouped (base : Nat) : List Char → Option Nat
  | c :: rest =>
    match digitIn base c with
    | some d => readGroupedRest base d rest
    | none => none
  | [] => none

/-- Reads an optional prefix of base 16 and then the digits. -/
def readUnsigned (base : Nat) : List Char → Option Nat
  | '0' :: x :: rest =>
    if base = 16 ∧ (x = 'x' ∨ x = 'X') then
      match rest with
      | '_' :: rest => readGrouped base rest
      | rest => readGrouped base rest
    else readGrouped base ('0' :: x :: rest)
  | cs => readGrouped base cs

/-- Reads an optional sign and then an unsigned number with `unsigned`. -/
def readSigned (unsigned : List Char → Option Nat) : List Char → Option Int
  | '+' :: rest => (unsigned rest).map Int.ofNat
  | '-' :: rest => (unsigned rest).map fun n => -(n : Int)
  | cs => (unsigned cs).map Int.ofNat

/-- Reads a signed number with `unsigned` from the characters `cs`, each first replaced by its
ASCII twin; blanks may stand before and after the number. -/
def readNumber (unsigned : List Char → Option Nat) (cs : List Char) : Option Int := do
  let cs ← cs.mapM asciiTwin
  let core := ((cs.dropWhile isNumberBlank).reverse.dropWhile isNumberBlank).reverse
  readSigned unsigned core

/-- Reads an integer written in base `base`, as the module comment describes. -/
def readRadix (base : Nat) (s : String) : Option Int := readNumber (readUnsigned base) s.toList

/-- The base that a mark after a leading `0` names: `x` sixteen, `o` eight and `b` two, in
either case. -/
def markedBase (x : Char) : Option Nat :=
  if x = 'x' ∨ x = 'X' then some 16
  else if x = 'o' ∨ x = 'O' then some 8
  else if x = 'b' ∨ x = 'B' then some 2
  else none

/-- The most digits that a decimal number may have. -/
def decimalDigitLimit : Nat := 4300

/-- Reads a decimal number of at most `decimalDigitLimit` digits, grouped by underscores. -/
def readDecimal (cs : List Char) : Option Nat :=
  if decimalDigitLimit < (cs.filter (· ≠ '_')).length then none else readGrouped 10 cs

/-- Reads an unsigned number whose prefix names its base; without a prefix it is decimal, and
then a leading `0` is allowed only in a number that is zero. -/
def readPrefixedUnsigned : List Char → Option Nat
  | c :: x :: rest =>
    if c = '0' then
      match markedBase x, rest with
      | some base, '_' :: rest => readGrouped base rest
      | some base, rest => readGrouped base rest
      | none, rest => (readDecimal (c :: x :: rest)).filter (· == 0)
    else readDecimal (c :: x :: rest)
  | cs => readDecimal cs

/-- Reads the integer written by the characters `cs` as the literals of source code are, as the
module comment describes. -/
def readPrefixed (cs : List Char) : Option Int := readNumber readPrefixedUnsigned cs

example : readRadix 16 " ff " = some 255 := by decide
example : readRadix 16 "0x_1_f" = some 31 := by decide
example : readRadix 16 "1__f" = none := by decide
example : readRadix 16 "1 2" = none := by decide
example : readPrefixed [' ', '-', '0', 'b', '_', '1', '0'] = some (-2) := by decide
example : readPrefixed ['0', '0', '_', '0'] = some 0 := by decide
example : readPrefixed ['0', '1', '0'] = none := by decide
example : readPrefixed ['0', 'x'] = none := by decide

end FiniteRings.Text
