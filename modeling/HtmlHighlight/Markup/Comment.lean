import HtmlHighlight.Renderer
import HtmlHighlight.Text.Entity

/-!
# Comments

A comment runs from `<!--` through the first `-->` after it; in the texts searched here the brackets are
entities. The dashes of the opening are no part of the closing. `Comment.contents_tokenize` says that
marking comments leaves the characters as they are.
-/

namespace HtmlHighlight

/-- A comment, known by what stands between its delimiters. -/
structure Comment where
  body : Text
  deriving DecidableEq, Repr

namespace Comment

/-- What a comment begins with. -/
def opening : Text :=
  Entity.lt ++ ['!', '-', '-']

theorem opening_eq : opening = '&' :: "lt;!--".toList := rfl

/-- What a comment ends with. -/
def closing : Text :=
  ['-', '-'] ++ Entity.gt

/-- The characters of a comment, delimiters included. -/
def source (c : Comment) : Text :=
  opening ++ c.body ++ closing

/-- The comment that a text starts with and the text after it. -/
def front? (s : Text) : Option (Comment × Text) :=
  match Text.after? opening s with
  | none => none
  | some s => (Text.cutAt? closing s).map fun (body, rest) => (⟨body⟩, rest)

theorem eq_append_of_front? {s : Text} {c : Comment} {rest : Text} (h : front? s = some (c, rest)) :
    s = c.source ++ rest := by
  unfold front? at h
  split at h
  next => cases h
  next t ht =>
    obtain ⟨⟨body, r⟩, hb, he⟩ := Option.map_eq_some_iff.1 h
    cases he
    simp [source, Text.after?_eq_some_iff.1 ht, Text.eq_append_of_cutAt? hb]

/-- Comments as a pattern. -/
def pattern : Pattern Comment where
  front? := front?
  source := source
  source_ne_nil c := by simp [source, opening, Entity.lt]
  eq_append := eq_append_of_front?

/-- The token of a comment. -/
def tokens (c : Comment) : List Token :=
  [.styled .comment c.source]

/-- A text with its comments as tokens. -/
def tokenize (s : Text) : List Token :=
  pattern.tokenize tokens s

@[simp] theorem contents_tokenize (s : Text) : Token.contents (tokenize s) = s :=
  pattern.contents_tokenize (fun c => by simp [tokens, Token.content, pattern]) s

end Comment

/-- Marks the comments of a text. -/
def Renderer.markComments (r : Renderer) (s : Text) : Text :=
  r.render (Comment.tokenize s)

end HtmlHighlight
