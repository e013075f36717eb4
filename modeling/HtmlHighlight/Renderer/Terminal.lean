import HtmlHighlight.Ansi
import HtmlHighlight.Renderer
import HtmlHighlight.Text.Entity

/-!
# Highlighting for terminals

Each kind of token has a colour, names of tags are bold besides and comments italic. Entities for angle
brackets are read back at the end, so that a terminal shows the source as it was written.
-/

namespace HtmlHighlight.Renderer

/-- The colour of a kind of token in a terminal. -/
def terminalColour : Kind → Ansi.Colour
  | .tag => .rgb 0x99 0x99 0x99
  | .tagName => .rgb 0x34 0x65 0xa4
  | .attributeName => .rgb 0x8f 0x59 0x02
  | .attributeValue => .rgb 0x4e 0x9a 0x06
  | .comment => .rgb 0x88 0x8a 0x85
  | .equalSign => .rgb 0xcc 0x00 0x00
  | .text => .brightWhite

/-- The weight or slant of a kind of token in a terminal, put around its colour. -/
def terminalEmphasis : Kind → Text → Text
  | .tagName => Ansi.bold
  | .comment => Ansi.italic
  | _ => id

/-- The renderer for terminals. -/
def terminal : Renderer where
  style k s := terminalEmphasis k (Ansi.colour (terminalColour k) s)
  finish := Entity.decode

end HtmlHighlight.Renderer
