import HtmlHighlight.Page
import HtmlHighlight.Page.TemplateError

/-!
# The template of a page

A page is filled in from a template: text with places for values, each named between braces and followed by a
formatter if it is not to be written in the default way. What fills templates in stands outside of this
project. `TemplateEngine` is what is used of it and `TemplateEngine.SubstitutesOnce` what is relied on;
`TemplateEngine.scanning` is an engine that reads a template from left to right.
-/

namespace HtmlHighlight

/-- How values are written: formatters by name, and one for places that name none. -/
structure Formatters where
  named : List (Text × (Text → Text))
  default : Text → Text

/-- A piece of a template: text, or the place of a value with the formatter that it names. -/
inductive TemplatePart where
  | literal (s : Text)
  | place (name : Text) (formatter? : Option Text)

namespace TemplatePart

/-- What stands between the name of a value and its formatter. -/
def separator : Text :=
  " | ".toList

/-- What stands between the braces of a place. -/
def placeSource (name : Text) : Option Text → Text
  | none => name
  | some formatter => name ++ (separator ++ formatter)

/-- A piece as it stands in a template. -/
def source : TemplatePart → Text
  | literal s => s
  | place name formatter? => '\x7b' :: (placeSource name formatter? ++ ['\x7d'])

example : (place "title".toList (some "escape".toList)).source = "\x7btitle | escape\x7d".toList := by
  decide

/-- The words that begin an instruction where a name could stand. -/
def keywords : List Text :=
  ["if", "else", "endif", "with", "endwith", "for", "endfor", "call"].map String.toList

/-- Whether a text names a value or a formatter and nothing else. -/
def isName (s : Text) : Bool :=
  !s.isEmpty && s.all Char.isLower && !keywords.contains s

/-- Whether a piece is read as it is meant, with no braces in its text and no instruction in its place. -/
def isPlain : TemplatePart → Bool
  | literal s => s.all (· ∉ ['\x7b', '\x7d', '\\'])
  | place name formatter? => isName name && formatter?.all isName

/-- What a piece becomes, if its value and its formatter are known. -/
def write? (fs : Formatters) (values : List (Text × Text)) : TemplatePart → Option Text
  | literal s => some s
  | place name none => (values.lookup name).map fs.default
  | place name (some formatter) =>
    (fs.named.lookup formatter).bind fun format => (values.lookup name).map format

end TemplatePart

/-- What fills in templates. -/
structure TemplateEngine where
  /-- Writes a value as text of a document. -/
  escape : Text → Text
  /-- Writes a value as markup. -/
  verbatim : Text → Text
  /-- Fills in a template, given how values are written and the values by name. -/
  render : Formatters → Text → List (Text × Text) → Except TemplateError Text

/-- An engine writes the pieces of a template one after the other and does not read what it has written again.
Markup is written as it is, and text with the characters that mean something to HTML as entities. -/
structure TemplateEngine.SubstitutesOnce (e : TemplateEngine) : Prop where
  escape_eq : ∀ s, e.escape s = Page.titleText s
  verbatim_eq : ∀ s, e.verbatim s = s
  render_eq : ∀ (fs : Formatters) (parts : List TemplatePart) (values : List (Text × Text)) (texts : List Text),
    (∀ part ∈ parts, part.isPlain = true) → parts.mapM (TemplatePart.write? fs values) = some texts →
      e.render fs (parts.flatMap TemplatePart.source) values = .ok texts.flatten

namespace Page

/-- The template of a page. -/
def template : List TemplatePart :=
  [.literal beforeTitle, .place "title".toList (some "escape".toList), .literal "</title>\n<style>\n".toList,
    .place "stylesheet".toList none, .literal "</style>\n</head>\n<body>\n".toList,
    .place "content".toList none, .literal afterContent]

/-- The values that go into a page. -/
def values (p : Page) : List (Text × Text) :=
  [("title".toList, p.title), ("stylesheet".toList, Stylesheet.text), ("content".toList, codeBlock p.content)]

/-- A page as an engine fills it in. Values are written as markup where nothing else is said. -/
def fillIn (e : TemplateEngine) (p : Page) : Except TemplateError Text :=
  e.render ⟨[("escape".toList, e.escape)], e.verbatim⟩ (template.flatMap TemplatePart.source) p.values

end Page

namespace TemplateEngine

/-- What a place becomes, given what stands between its braces. -/
def writePlace? (fs : Formatters) (values : List (Text × Text)) (inner : Text) : Option Text :=
  match Text.cutAt? TemplatePart.separator inner with
  | some (name, formatter) => (TemplatePart.place name (some formatter)).write? fs values
  | none => (TemplatePart.place inner none).write? fs values

/-- What a template becomes, given what its places do. `inner?` is what has been read of a place. -/
def scan (write? : Text → Option Text) : (inner? : Option Text) → (template : Text) → Option Text
  | none, [] => some []
  | none, c :: s => if c = '\x7b' then scan write? (some []) s else (scan write? none s).map (c :: ·)
  | some _, [] => none
  | some inner, c :: s =>
    if c = '\x7d' then (write? inner).bind fun text => (scan write? none s).map (text ++ ·)
    else scan write? (some (inner ++ [c])) s

/-- The engine that reads a template from left to right and writes each place as it comes to its end. -/
def scanning : TemplateEngine where
  escape := Page.titleText
  verbatim s := s
  render fs template values :=
    match scan (writePlace? fs values) none template with
    | some text => .ok text
    | none => .error (.other "A place cannot be filled in.".toList)

end TemplateEngine

end HtmlHighlight
