import HtmlHighlight.Markup.Attribute
import HtmlHighlight.Text.Entity

/-!
# Tags

A tag is an opening bracket, a slash if it is an end tag, a name, and all up to the first closing bracket
after the name, line breaks and opening brackets included. A slash right before that bracket is the mark
of a self-closing tag; the region between name and slash is searched for attributes.
`Tag.contents_tokenize` says that marking tags leaves the characters as they are.
-/

namespace HtmlHighlight

/-- The parts of a tag. -/
structure Tag where
  isEnd : Bool
  name : Text
  /-- What stands between the name and the self-closing slash or the closing bracket. -/
  region : Text
  isSelfClosing : Bool
  deriving DecidableEq, Repr

namespace Tag

/-- The characters in the name of a tag. -/
def isNameChar (c : Char) : Bool :=
  c.isAlphanum || c = '-'

/-- A slash, if `present`. -/
def slash (present : Bool) : Text :=
  if present then ['/'] else []

/-- The opening bracket of a tag, with the slash of an end tag. -/
def opening (t : Tag) : Text :=
  Entity.lt ++ slash t.isEnd

/-- The characters of a tag. -/
def source (t : Tag) : Text :=
  t.opening ++ t.name ++ t.region ++ slash t.isSelfClosing ++ Entity.gt

/-- Takes a slash off the front of a text. -/
def dropSlash : Text → Bool × Text
  | '/' :: s => (true, s)
  | s => (false, s)

theorem eq_append_of_dropSlash (s : Text) : s = slash (dropSlash s).1 ++ (dropSlash s).2 := by
  unfold dropSlash
  split <;> simp [slash]

/-- Takes a slash off the end of a text. -/
def dropLastSlash (s : Text) : Text × Bool :=
  if s.getLast? = some '/' then (s.dropLast, true) else (s, false)

theorem eq_append_of_dropLastSlash (s : Text) :
    s = (dropLastSlash s).1 ++ slash (dropLastSlash s).2 := by
  unfold dropLastSlash
  split
  next h =>
    obtain ⟨t, rfl⟩ := List.getLast?_eq_some_iff.1 h
    simp [slash]
  next => simp [slash]

/-- The tag that a text starts with and the text after it. -/
def front? (s : Text) : Option (Tag × Text) :=
  match Text.after? Entity.lt s with
  | none => none
  | some s =>
    let (isEnd, s) := dropSlash s
    let name := s.takeWhile isNameChar
    if name = [] then none
    else (Text.cutAt? Entity.gt (s.dropWhile isNameChar)).map fun (inner, rest) =>
      let (region, isSelfClosing) := dropLastSlash inner
      (⟨isEnd, name, region, isSelfClosing⟩, rest)

theorem eq_append_of_front? {s : Text} {t : Tag} {rest : Text} (h : front? s = some (t, rest)) :
    s = t.source ++ rest := by
  unfold front? at h
  split at h
  next => cases h
  next u hu =>
    dsimp only at h
    split at h
    next => cases h
    next =>
      obtain ⟨⟨inner, r⟩, hi, he⟩ := Option.map_eq_some_iff.1 h
      cases he
      have hs := eq_append_of_dropSlash u
      have hl := eq_append_of_dropLastSlash inner
      have hc := Text.eq_append_of_cutAt? hi
      generalize dropSlash u = p at *
      generalize dropLastSlash inner = q at *
      have hn : p.2 = p.2.takeWhile isNameChar ++ (q.1 ++ (slash q.2 ++ (Entity.gt ++ r))) := by
        rw [← List.append_assoc q.1, ← hl, ← List.append_assoc inner, ← hc,
          List.takeWhile_append_dropWhile]
      rw [Text.after?_eq_some_iff.1 hu, hs]
      simp only [source, opening, List.append_assoc]
      rw [← hn]

/-- Tags as a pattern. -/
def pattern : Pattern Tag where
  front? := front?
  source := source
  source_ne_nil t := by simp [source, opening, Entity.lt]
  eq_append := eq_append_of_front?

/-- The tokens of a tag, those of its attributes among them. -/
def tokens (t : Tag) : List Token :=
  [.styled .tag t.opening, .styled .tagName t.name] ++ Attribute.tokenize t.region ++
    (if t.isSelfClosing then [.styled .tag ['/']] else []) ++ [.styled .tag Entity.gt]

/-- A text with its tags as tokens. -/
def tokenize (s : Text) : List Token :=
  pattern.tokenize tokens s

/-- The number of tags in a text. -/
def count (s : Text) : Nat :=
  (pattern.hits s).length

@[simp] theorem contents_tokenize (s : Text) : Token.contents (tokenize s) = s := by
  refine pattern.contents_tokenize (fun t => ?_) s
  obtain ⟨isEnd, name, region, _ | _⟩ := t <;> simp [tokens, Token.content, pattern, source, slash]

end Tag

/-- Marks the tags of a text. -/
def Renderer.markTags (r : Renderer) (s : Text) : Text :=
  r.render (Tag.tokenize s)

end HtmlHighlight
