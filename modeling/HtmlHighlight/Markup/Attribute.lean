import HtmlHighlight.Renderer
import HtmlHighlight.Text.Blank

/-!
# Attributes

An attribute is a name after blank space and directly before an equal sign; a quoted value belongs to it
if one follows the equal sign at once. A name without an equal sign is no attribute here.
`Attribute.contents_tokenize` says that marking attributes leaves the characters as they are.
-/

namespace HtmlHighlight

/-- An attribute with the blank space before it and its value, quotes included. -/
structure Attribute where
  spacing : Text
  name : Text
  value? : Option Text
  deriving DecidableEq, Repr

namespace Attribute

/-- The characters in the name of an attribute. -/
def isNameChar (c : Char) : Bool :=
  c.isAlpha || c = ':' || c = '-'

/-- The characters of an attribute. -/
def source (a : Attribute) : Text :=
  a.spacing ++ a.name ++ '=' :: a.value?.getD []

/-- The quoted text that a text starts with, quotes included, and the text after it. The first quote
fixes which quote ends it. -/
def quoted? : Text → Option (Text × Text)
  | [] => none
  | q :: s =>
    if q = '"' ∨ q = '\'' then (Text.cutAt? [q] s).map fun (body, rest) => (q :: body ++ [q], rest)
    else none

theorem eq_append_of_quoted? {s value rest : Text} (h : quoted? s = some (value, rest)) :
    s = value ++ rest := by
  cases s with
  | nil => cases h
  | cons q s =>
    rw [quoted?] at h
    split at h
    next =>
      obtain ⟨⟨body, r⟩, hb, he⟩ := Option.map_eq_some_iff.1 h
      cases he
      simp [Text.eq_append_of_cutAt? hb]
    next => cases h

/-- The value that a text starts with, if it does, and the text after it. -/
def takeValue (s : Text) : Option Text × Text :=
  match quoted? s with
  | some (value, rest) => (some value, rest)
  | none => (none, s)

theorem eq_append_of_takeValue (s : Text) : s = (takeValue s).1.getD [] ++ (takeValue s).2 := by
  unfold takeValue
  split
  next h => exact eq_append_of_quoted? h
  next => rfl

/-- The attribute that a text starts with and the text after it. -/
def front? (s : Text) : Option (Attribute × Text) :=
  let spacing := s.takeWhile isBlank
  if spacing = [] then none
  else
    let s := s.dropWhile isBlank
    let name := s.takeWhile isNameChar
    if name = [] then none
    else match Text.after? ['='] (s.dropWhile isNameChar) with
      | none => none
      | some s => some (⟨spacing, name, (takeValue s).1⟩, (takeValue s).2)

theorem eq_append_of_front? {s : Text} {a : Attribute} {rest : Text}
    (h : front? s = some (a, rest)) : s = a.source ++ rest := by
  unfold front? at h
  dsimp only at h
  split at h
  next => cases h
  next =>
    split at h
    next => cases h
    next =>
      split at h
      next => cases h
      next t ht =>
        cases h
        rw [source, List.append_assoc, List.append_assoc, List.cons_append, ← eq_append_of_takeValue,
          ← List.singleton_append, ← Text.after?_eq_some_iff.1 ht, List.takeWhile_append_dropWhile,
          List.takeWhile_append_dropWhile]

/-- Attributes as a pattern. -/
def pattern : Pattern Attribute where
  front? := front?
  source := source
  source_ne_nil a := by simp [source]
  eq_append := eq_append_of_front?

/-- The tokens of an attribute. -/
def tokens (a : Attribute) : List Token :=
  [.plain a.spacing, .styled .attributeName a.name, .styled .equalSign ['=']] ++
    a.value?.toList.map (Token.styled .attributeValue)

/-- A text with its attributes as tokens. -/
def tokenize (s : Text) : List Token :=
  pattern.tokenize tokens s

@[simp] theorem contents_tokenize (s : Text) : Token.contents (tokenize s) = s := by
  refine pattern.contents_tokenize (fun a => ?_) s
  obtain ⟨spacing, name, _ | value⟩ := a <;> simp [tokens, Token.content, pattern, source]

end Attribute

/-- Marks the attributes of a text. -/
def Renderer.markAttributes (r : Renderer) (s : Text) : Text :=
  r.render (Attribute.tokenize s)

end HtmlHighlight
