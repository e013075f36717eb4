import HtmlHighlight.Text.Basic

/-!
# Control sequences for terminals

The sequences that set colour, weight and slant of the text after them, and text enclosed by them. A
colour is closed by the default foreground, any other rendition by a reset.
-/

namespace HtmlHighlight.Ansi

/-- The control sequence that sets the given renditions. -/
def sgr (renditions : List Nat) : Text :=
  '\x1b' :: '[' :: [';'].intercalate (renditions.map Text.ofNat) ++ ['m']

/-- A text with one control sequence before it and one after it. -/
def enclose (start stop : List Nat) (s : Text) : Text :=
  sgr start ++ s ++ sgr stop

/-- Foreground colours. -/
inductive Colour where
  | rgb (red green blue : UInt8)
  | brightRed
  | brightWhite
  deriving DecidableEq, Repr

/-- The renditions that set a colour. -/
def Colour.renditions : Colour → List Nat
  | rgb red green blue => [38, 2, red.toNat, green.toNat, blue.toNat]
  | brightRed => [91]
  | brightWhite => [97]

/-- A text in the given colour. -/
def colour (c : Colour) : Text → Text :=
  enclose c.renditions [39]

/-- A text in bold. -/
def bold : Text → Text :=
  enclose [1] [0]

/-- A text with less intensity. -/
def dim : Text → Text :=
  enclose [2] [0]

/-- A text in italics. -/
def italic : Text → Text :=
  enclose [3] [0]

/-- A text in blue, closed by a reset. -/
def blue : Text → Text :=
  enclose [34] [0]

end HtmlHighlight.Ansi
