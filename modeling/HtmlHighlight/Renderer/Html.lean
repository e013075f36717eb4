import HtmlHighlight.Renderer

/-!
# Highlighting for web pages

Each token stands in a `span` element with the class of its kind, and a default stylesheet gives those
classes their colours.
-/

namespace HtmlHighlight.Renderer

/-- The start tag of the element around a token. -/
def spanStart (k : Kind) : Text :=
  "<span class=\"".toList ++ k.cssClass.toList ++ "\">".toList

/-- The end tag of the element around a token. -/
def spanEnd : Text :=
  "</span>".toList

/-- The renderer for web pages. -/
def html : Renderer where
  style k s := spanStart k ++ s ++ spanEnd

end HtmlHighlight.Renderer
