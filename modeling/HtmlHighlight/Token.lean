import HtmlHighlight.Pattern

/-!
# Tokens

A token is a piece of text with a say in how it is shown: as it is, or styled as one of seven kinds.
`Pattern.contents_tokenize` says that a tokenization made from a pattern neither drops nor adds a
character as long as the tokens of each match hold the characters of that match.
-/

namespace HtmlHighlight

/-- What a styled piece of HTML source is. -/
inductive Kind where
  /-- Brackets, with the slash of an end tag or of a self-closing tag. -/
  | tag
  | tagName
  | attributeName
  | attributeValue
  | comment
  | equalSign
  | text
  deriving DecidableEq, Repr

namespace Kind

/-- All kinds, in the order of their rules in the default stylesheet. -/
def all : List Kind :=
  [tag, tagName, attributeName, attributeValue, comment, equalSign, text]

theorem mem_all (k : Kind) : k ∈ all := by
  cases k <;> decide

/-- The class by which a stylesheet addresses a kind. -/
def cssClass : Kind → String
  | tag => "highlight-tag"
  | tagName => "highlight-tag-name"
  | attributeName => "highlight-attribute-name"
  | attributeValue => "highlight-attribute-value"
  | comment => "highlight-comment"
  | equalSign => "highlight-equal-sign"
  | text => "highlight-text"

theorem cssClass_injective {k l : Kind} (h : k.cssClass = l.cssClass) : k = l := by
  revert h
  cases k <;> cases l <;> decide

end Kind

/-- A piece of text, shown as it is or styled. -/
inductive Token where
  | plain (content : Text)
  | styled (kind : Kind) (content : Text)
  deriving DecidableEq, Repr

namespace Token

/-- The characters of a token. -/
def content : Token → Text
  | plain s => s
  | styled _ s => s

/-- The characters of a list of tokens. -/
def contents (ts : List Token) : Text :=
  ts.flatMap content

@[simp] theorem contents_nil : contents [] = [] := rfl

@[simp] theorem contents_cons (t : Token) (ts : List Token) :
    contents (t :: ts) = t.content ++ contents ts := rfl

@[simp] theorem contents_append (ts us : List Token) : contents (ts ++ us) = contents ts ++ contents us :=
  List.flatMap_append

end Token

/-- The tokens of a piece of a searched text, given those of a match. -/
def Segment.tokens {α : Type} (tokens : α → List Token) : Segment α → List Token
  | gap c => [.plain [c]]
  | hit m => tokens m

namespace Pattern

variable {α : Type} (p : Pattern α)

/-- The tokens of a text, given those of a match; all between the matches is plain. -/
def tokenize (tokens : α → List Token) (s : Text) : List Token :=
  (p.segments s).flatMap (Segment.tokens tokens)

@[simp] theorem tokenize_nil (tokens : α → List Token) : p.tokenize tokens [] = [] := by
  simp [tokenize]

theorem tokenize_of_front? (tokens : α → List Token) {s : Text} {m : α} {rest : Text}
    (h : p.front? s = some (m, rest)) :
    p.tokenize tokens s = tokens m ++ p.tokenize tokens rest := by
  rw [tokenize, p.segments_of_front? h]
  rfl

theorem tokenize_of_front?_eq_none (tokens : α → List Token) {c : Char} {s : Text}
    (h : p.front? (c :: s) = none) :
    p.tokenize tokens (c :: s) = .plain [c] :: p.tokenize tokens s := by
  rw [tokenize, p.segments_of_front?_eq_none h]
  rfl

theorem contents_tokenize {tokens : α → List Token} (h : ∀ m, Token.contents (tokens m) = p.source m)
    (s : Text) : Token.contents (p.tokenize tokens s) = s := by
  induction s using p.segments_induction with
  | nil => simp
  | hit s m rest hf ih =>
    rw [p.tokenize_of_front? _ hf, Token.contents_append, h, ih]
    exact (p.eq_append hf).symm
  | gap c s hf ih => rw [p.tokenize_of_front?_eq_none _ hf, Token.contents_cons, ih]; rfl

end Pattern

end HtmlHighlight
