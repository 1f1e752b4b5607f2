/-!
# Blank characters

The blank characters are those of Unicode's white space property together with the four
information separators `0x1C` to `0x1F`: tab, line feed and the other ASCII controls of layout,
the space, the line and paragraph separators, and the spaces of other widths. Texts are trimmed
of them at both ends before they are read as numbers.
-/

namespace FiniteRings.Text

/-- The code points of the blank characters. -/
def blankCodes : List Nat := [
  0x9, 0xA, 0xB, 0xC, 0xD, 0x1C, 0x1D, 0x1E, 0x1F, 0x20,
  0x85, 0xA0, 0x1680, 0x2000, 0x2001, 0x2002, 0x2003, 0x2004, 0x2005, 0x2006,
  0x2007, 0x2008, 0x2009, 0x200A, 0x2028, 0x2029, 0x202F, 0x205F, 0x3000]

/-- Whether `c` is blank. -/
def isBlank (c : Char) : Bool := blankCodes.contains c.toNat

/-- `s` without blank characters at either end. -/
def trimBlank (s : String) : String :=
  String.ofList ((s.toList.dropWhile isBlank).reverse.dropWhile isBlank).reverse

example : isBlank ' ' = true ∧ isBlank (Char.ofNat 0xA0) = true ∧ isBlank 'a' = false := by decide
example : blankCodes.length = 29 := by decide

end FiniteRings.Text
