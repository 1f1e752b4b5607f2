import FiniteRings.Text.Printable

/-!
# Digits and quoted text

Numbers are written in a base without a prefix and, where a width is asked for, padded on the
left with zeros. A text that a message cites is put between single quotes; a text that holds a
single quote and no double quote takes double quotes instead. Backslashes, the chosen quote and
the characters that are not printable are escaped: tab, line feed and carriage return by their
letters, and the others by their code point in two, four or eight hexadecimal digits, the
fewest of these that hold it.
-/

namespace FiniteRings.Text

/-- The digits of `n` in base `base` (2 to 16), lowercase and without a prefix; zero is `0`. -/
def digits (base n : Nat) : String :=
  String.ofList (Nat.toDigits base n)

/-- Lowercase hexadecimal digits of `n`. -/
def hex (n : Nat) : String := digits 16 n

/-- Binary digits of `n`. -/
def binary (n : Nat) : String := digits 2 n

/-- `s` padded on the left with `c` up to `width` characters; a longer `s` is kept whole. -/
def padLeft (width : Nat) (c : Char) (s : String) : String :=
  String.ofList (List.replicate (width - s.length) c) ++ s

/-- The single quote character. -/
def singleQuote : Char := Char.ofNat 39

/-- How one character is written inside a text quoted with `q`. -/
def escapeChar (q c : Char) : String :=
  if c = '\\' then "\\\\"
  else if c = q then "\\" ++ c.toString
  else if c = '\n' then "\\n"
  else if c = '\r' then "\\r"
  else if c = '\t' then "\\t"
  else if isPrintable c then c.toString
  else if c.toNat ≤ 0xFF then "\\x" ++ padLeft 2 '0' (hex c.toNat)
  else if c.toNat ≤ 0xFFFF then "\\u" ++ padLeft 4 '0' (hex c.toNat)
  else "\\U" ++ padLeft 8 '0' (hex c.toNat)

/-- `s` between quotes, as messages cite a text. -/
def quoted (s : String) : String :=
  let q := if s.contains singleQuote && !s.contains '"' then '"' else singleQuote
  q.toString ++ String.join (s.toList.map (escapeChar q)) ++ q.toString

end FiniteRings.Text
