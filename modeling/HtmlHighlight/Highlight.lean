import HtmlHighlight.Markup.Tag
import HtmlHighlight.Markup.TextRun
import HtmlHighlight.Renderer.Html
import HtmlHighlight.Text.Indent

/-!
# Highlighting

HTML source is freed of its indentation and its brackets are written as entities; then comments, text and
tags are marked in that order, each pass reading what the one before it wrote. Nothing is refused: what no
pattern recognizes stays as it is.
-/

namespace HtmlHighlight

/-- A source as the passes read it: without its indentation, and with entities for its brackets. -/
def prepare (source : Text) : Text :=
  Entity.encode source.unindent

namespace Renderer

variable (r : Renderer)

/-- A prepared text as the search for tags reads it, with its comments and runs of text marked. -/
def markBeforeTags (s : Text) : Text :=
  r.markText (r.markComments s)

/-- Marks comments, text and tags of a prepared text. -/
def mark (s : Text) : Text :=
  r.markTags (r.markBeforeTags s)

/-- Highlights HTML source. -/
def highlight (source : Text) : Text :=
  r.finish (r.mark (prepare source))

/-- The number of tags that highlighting a source marks. -/
def tagCount (source : Text) : Nat :=
  Tag.count (r.markBeforeTags (prepare source))

end Renderer

/-- Highlights HTML source for web pages. -/
def highlightHtml (source : Text) : Text :=
  Renderer.html.highlight source

/-- The source as it reads without highlighting: prepared, with its entities for brackets read back. -/
def plainPreview (source : Text) : Text :=
  Entity.decode (Renderer.plain.highlight source)

end HtmlHighlight
