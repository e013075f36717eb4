import HtmlHighlight.Token

/-!
# Renderers

A renderer says how a styled piece of text is written and what is done with the text once all of it has
been marked. `Renderer.plain` marks nothing, so it writes tokens as their characters
(`Renderer.render_plain`).
-/

namespace HtmlHighlight

/-- A way of writing styled text. -/
structure Renderer where
  /-- How a piece of the given kind is written. -/
  style : Kind → Text → Text
  /-- The last step, taken once on the whole text while its angle brackets are still entities. -/
  finish : Text → Text := id

namespace Renderer

/-- The renderer that marks nothing. -/
def plain : Renderer where
  style _ s := s

variable (r : Renderer)

/-- A token as the renderer writes it. -/
def renderToken : Token → Text
  | .plain s => s
  | .styled k s => r.style k s

/-- Tokens as the renderer writes them. -/
def render (ts : List Token) : Text :=
  ts.flatMap r.renderToken

@[simp] theorem render_nil : r.render [] = [] := rfl

@[simp] theorem render_cons (t : Token) (ts : List Token) :
    r.render (t :: ts) = r.renderToken t ++ r.render ts := rfl

@[simp] theorem render_append (ts us : List Token) : r.render (ts ++ us) = r.render ts ++ r.render us :=
  List.flatMap_append

@[simp] theorem render_plain (ts : List Token) : plain.render ts = Token.contents ts := by
  induction ts with
  | nil => rfl
  | cons t ts ih =>
    rw [render_cons, Token.contents_cons, ih]
    cases t <;> rfl

end Renderer

end HtmlHighlight
