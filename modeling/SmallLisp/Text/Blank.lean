/-! Blank characters. They separate tokens in source text and are trimmed from the ends of a setting.
The class is Unicode white space together with the four information separators U+001C to U+001F; line
breaks other than the line feed belong to it as well, but only the line feed ends a comment. -/

namespace SmallLisp.Text

/-- Whether a character only separates what stands on its two sides. -/
def isBlank (c : Char) : Bool :=
  let n := c.toNat
  (0x09 ≤ n && n ≤ 0x0d) || (0x1c ≤ n && n ≤ 0x20) || n == 0x85 || n == 0xa0 || n == 0x1680 ||
    (0x2000 ≤ n && n ≤ 0x200a) || n == 0x2028 || n == 0x2029 || n == 0x202f || n == 0x205f || n == 0x3000

/-- The text without the blanks at its two ends. -/
def trim (s : String) : String :=
  String.ofList ((s.toList.dropWhile isBlank).reverse.dropWhile isBlank).reverse

end SmallLisp.Text
