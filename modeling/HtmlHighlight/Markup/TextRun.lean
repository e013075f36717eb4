import HtmlHighlight.Markup.Comment
import HtmlHighlight.Text.Blank

/-!
# Text between tags

A run of text stands between a closing bracket and the next opening one and holds no ampersand, so no
entity either. Blank runs are left alone, and so are those before a comment. Whether a run stands before
a comment is judged at the first place in the whole text where the same run occurs, so equal runs are
always treated alike.
-/

namespace HtmlHighlight

/-- A run of text, without the brackets around it. -/
structure TextRun where
  content : Text
  deriving DecidableEq, Repr

namespace TextRun

/-- The characters of a run, the brackets around it included. -/
def source (run : TextRun) : Text :=
  Entity.gt ++ run.content ++ Entity.lt

/-- The run that a text starts with and the text after it. -/
def front? (s : Text) : Option (TextRun × Text) :=
  match Text.after? Entity.gt s with
  | none => none
  | some s =>
    let content := s.takeWhile (· ≠ '&')
    if content = [] then none
    else (Text.after? Entity.lt (s.dropWhile (· ≠ '&'))).map fun rest => (⟨content⟩, rest)

theorem eq_append_of_front? {s : Text} {run : TextRun} {rest : Text}
    (h : front? s = some (run, rest)) : s = run.source ++ rest := by
  unfold front? at h
  split at h
  next => cases h
  next t ht =>
    dsimp only at h
    split at h
    next => cases h
    next =>
      obtain ⟨r, hr, he⟩ := Option.map_eq_some_iff.1 h
      cases he
      rw [Text.after?_eq_some_iff.1 ht, source, List.append_assoc, List.append_assoc,
        ← Text.after?_eq_some_iff.1 hr, List.takeWhile_append_dropWhile]

/-- Runs of text as a pattern. -/
def pattern : Pattern TextRun where
  front? := front?
  source := source
  source_ne_nil run := by simp [source, Entity.gt]
  eq_append := eq_append_of_front?

/-- Whether the opening bracket after a run begins a comment, at the first place in `whole` where the run
occurs. -/
def beforeComment (whole : Text) (run : TextRun) : Bool :=
  match Text.cutAt? run.source whole with
  | some (_, rest) => (Text.after? Comment.opening (Entity.lt ++ rest)).isSome
  | none => false

/-- Whether a run found in `whole` is styled. -/
def isStyled (whole : Text) (run : TextRun) : Bool :=
  !run.content.allBlank && !run.beforeComment whole

/-- The tokens of a run found in `whole`. -/
def tokens (whole : Text) (run : TextRun) : List Token :=
  if run.isStyled whole then [.plain Entity.gt, .styled .text run.content, .plain Entity.lt]
  else [.plain run.source]

/-- A text with its runs of text as tokens. -/
def tokenize (s : Text) : List Token :=
  pattern.tokenize (tokens s) s

@[simp] theorem contents_tokenize (s : Text) : Token.contents (tokenize s) = s := by
  refine pattern.contents_tokenize (fun run => ?_) s
  unfold tokens
  split <;> simp [Token.content, pattern, source]

end TextRun

/-- Marks the runs of text between the tags of a text. -/
def Renderer.markText (r : Renderer) (s : Text) : Text :=
  r.render (TextRun.tokenize s)

end HtmlHighlight
