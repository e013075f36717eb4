import HtmlHighlight.Text.Basic

/-!
# Blank characters

The characters with the Unicode property `White_Space`, and the texts made of them.
-/

namespace HtmlHighlight

/-- First and last code points of the ranges of `White_Space`. -/
def blankRanges : List (Nat × Nat) :=
  [(0x0009, 0x000D), (0x0020, 0x0020), (0x0085, 0x0085), (0x00A0, 0x00A0), (0x1680, 0x1680),
   (0x2000, 0x200A), (0x2028, 0x2029), (0x202F, 0x202F), (0x205F, 0x205F), (0x3000, 0x3000)]

/-- Whether a character has the property `White_Space`. -/
def isBlank (c : Char) : Bool :=
  blankRanges.any fun (first, last) => first ≤ c.toNat && c.toNat ≤ last

namespace Text

/-- Whether a text has no character but blank ones. -/
def allBlank (s : Text) : Bool :=
  s.all isBlank

/-- A text without the blank characters at its end. -/
def trimEnd (s : Text) : Text :=
  (s.reverse.dropWhile isBlank).reverse

end Text

end HtmlHighlight
