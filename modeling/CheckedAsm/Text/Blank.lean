import CheckedAsm.Text.Runs
/-! # Blanks around a numeral

The characters that may stand before and after the digits of a numeral without changing its value:
the space, the five ASCII format effectors from tab to carriage return, and the spaces of other
scripts. -/

namespace CheckedAsm.Text

/-- The blanks beyond ASCII. -/
def blankRuns : Runs :=
  [(0x85, 0x85), (0xa0, 0xa0), (0x1680, 0x1680), (0x2000, 0x200a), (0x2028, 0x2029),
    (0x202f, 0x202f), (0x205f, 0x205f), (0x3000, 0x3000)]

/-- Whether the character is ignored around a numeral. -/
def isBlank (c : Char) : Bool :=
  if c.toNat < 128 then c == ' ' || (9 ≤ c.toNat && c.toNat ≤ 13) else blankRuns.has c.toNat

/-- The text without the blanks at its two ends. -/
def trimBlanks (s : List Char) : List Char :=
  ((s.dropWhile isBlank).reverse.dropWhile isBlank).reverse

end CheckedAsm.Text
