import HtmlHighlight.Proofs.CommentMarks
import HtmlHighlight.Proofs.Fusion
import HtmlHighlight.Proofs.TagInsertion

/-!
# The tags of a text with comments and runs marked

The pass over tags styles the same brackets, slashes and names in the same order whether or not comments and
runs have been marked before (`stylings_markBeforeTags`). A marked run stands between a closing bracket and the
next ampersand, where no tag begins or goes on (`hits_markText`). The marker after a comment stands there too,
and the one before it is an insertion before an opening bracket, so at most the region of the tag around it
differs, and that is styled as attributes only.
-/

namespace HtmlHighlight

namespace Token

/-- The kind and the content of a styled token. -/
def styling? : Token → Option (Kind × Text)
  | plain _ => none
  | styled k s => some (k, s)

/-- What is styled as one of the given kinds, in order. -/
def stylings (kinds : List Kind) (ts : List Token) : List (Kind × Text) :=
  (ts.filterMap styling?).filter (·.1 ∈ kinds)

@[simp] theorem stylings_nil (kinds : List Kind) : stylings kinds [] = [] := rfl

theorem stylings_append (kinds : List Kind) (ts us : List Token) :
    stylings kinds (ts ++ us) = stylings kinds ts ++ stylings kinds us := by
  rw [stylings, List.filterMap_append, List.filter_append]
  rfl

/-- What is styled of a text is styled of its matches. -/
theorem stylings_tokenize {α : Type} (p : Pattern α) (kinds : List Kind) (tokens : α → List Token)
    (s : Text) : stylings kinds (p.tokenize tokens s) = (p.hits s).flatMap (stylings kinds ∘ tokens) := by
  induction s using p.segments_induction with
  | nil => simp
  | hit s m rest hf ih =>
    rw [p.tokenize_of_front? tokens hf, stylings_append, ih, Pattern.hits_of_front? hf, List.flatMap_cons]
    rfl
  | gap c s hf ih =>
    rw [p.tokenize_of_front?_eq_none tokens hf, Pattern.hits_of_front?_eq_none hf, ← ih]
    rfl

end Token

namespace Tag

/-- The kinds of what makes a text a tag. -/
def ownKinds : List Kind :=
  [.tag, .tagName]

theorem stylings_attributes (s : Text) : Token.stylings ownKinds (Attribute.tokenize s) = [] := by
  rw [Attribute.tokenize, Token.stylings_tokenize, List.flatMap_eq_nil_iff]
  rintro ⟨spacing, name, _ | value⟩ - <;> rfl

/-- The region of a tag has no say in how its brackets, its slashes and its name are styled. -/
theorem stylings_tokens_region (t : Tag) (region : Text) :
    Token.stylings ownKinds { t with region := region }.tokens = Token.stylings ownKinds t.tokens := by
  rw [tokens, tokens]
  simp only [Token.stylings_append, stylings_attributes]
  rfl

/-- The search for tags goes on after the next ampersand as if nothing stood between it and the closing
bracket before it. -/
theorem hits_gt_append (a : Text) {x : Text} (hx : '&' ∉ x) (y : Text) :
    pattern.hits (a ++ Entity.gt ++ (x ++ y)) = pattern.hits (a ++ Entity.gt ++ y) := by
  rw [Pattern.hits_append (parts_gt a _), Pattern.hits_append (parts_gt a y),
    Pattern.hits_append_of_not_mem begins hx]

/-- The search for tags may be cut after a comment. -/
theorem parts_comment (before : Text) (c : Comment) (after : Text) :
    pattern.Parts (before ++ c.source) after := by
  have he : before ++ c.source = before ++ (Comment.opening ++ c.body ++ ['-', '-']) ++ Entity.gt := by
    rw [c.source_eq_append_gt]
    simp only [List.append_assoc]
  rw [he]
  exact parts_gt _ after

end Tag

namespace Renderer

variable {r : Renderer}

/-- Marking runs neither hides nor makes a tag, and leaves those that there are as they are. -/
theorem hits_markText (hr : r.KeepsAmpersands) (s : Text) :
    Tag.pattern.hits (r.markText s) = Tag.pattern.hits s := by
  refine Pattern.render_tokenize (motive := (Tag.pattern.hits · = Tag.pattern.hits s))
    (fun before run after hf h => ?_) rfl
  rw [TextRun.pattern_front?] at hf
  obtain ⟨-, -, hamp⟩ := TextRun.front?_eq_some_iff.1 hf
  rw [← h, TextRun.tokens, TextRun.pattern_source, TextRun.source]
  split
  next =>
    have hstyled := Tag.hits_gt_append before (hr _ hamp) (Entity.lt ++ after)
    have hbare := Tag.hits_gt_append before hamp (Entity.lt ++ after)
    simpa [renderToken] using hstyled.trans hbare.symm
  next => simp [renderToken]

/-- Marking comments writes a marker before each, which is no part of a tag's beginning, and one after it. -/
structure SurroundsComments (r : Renderer) (start stop : Text) : Prop where
  unobtrusive : Tag.Unobtrusive start
  not_mem : '&' ∉ stop
  style_eq : ∀ s, r.style .comment s = start ++ (s ++ stop)

theorem surroundsComments_html : html.SurroundsComments (spanStart .comment) spanEnd where
  unobtrusive := ⟨by decide, by rintro _ ⟨⟩; decide⟩
  not_mem := by decide
  style_eq := html_style .comment

theorem surroundsComments_terminal :
    terminal.SurroundsComments (Ansi.sgr [3] ++ Ansi.sgr (terminalColour .comment).renditions)
      (Ansi.sgr [39] ++ Ansi.sgr [0]) where
  unobtrusive := ⟨by decide, by rintro _ ⟨⟩; decide⟩
  not_mem := by decide
  style_eq s := by
    simp only [terminal, terminalEmphasis, Ansi.italic, Ansi.colour, Ansi.enclose, List.append_assoc]

section Comments

variable {start stop : Text}

/-- The tags of a text with a marked comment: those up to the end of the comment, and then those after it. -/
theorem SurroundsComments.hits_append (hr : r.SurroundsComments start stop) (before : Text) (c : Comment)
    (after : Text) : Tag.pattern.hits (before ++ (r.style .comment c.source ++ after)) =
      Tag.pattern.hits (before ++ (start ++ c.source)) ++ Tag.pattern.hits after := by
  have he : before ++ (r.style .comment c.source ++ after) =
      before ++ (start ++ (Comment.opening ++ c.body ++ ['-', '-'])) ++ Entity.gt ++ (stop ++ after) := by
    rw [hr.style_eq, c.source_eq_append_gt]
    simp only [List.append_assoc]
  have he' : before ++ (start ++ (Comment.opening ++ c.body ++ ['-', '-'])) ++ Entity.gt =
      before ++ start ++ c.source := by
    rw [c.source_eq_append_gt]
    simp only [List.append_assoc]
  rw [he, Tag.hits_gt_append _ hr.not_mem, he', Pattern.hits_append (Tag.parts_comment _ c after),
    List.append_assoc]

/-- Marking a comment changes the region of one tag at most. -/
theorem SurroundsComments.stylings_markComments (hr : r.SurroundsComments start stop) (s : Text) :
    Token.stylings Tag.ownKinds (Tag.tokenize (r.markComments s)) =
      Token.stylings Tag.ownKinds (Tag.tokenize s) := by
  simp only [Tag.tokenize, Token.stylings_tokenize]
  refine Pattern.render_tokenize (motive := fun u =>
    (Tag.pattern.hits u).flatMap (Token.stylings Tag.ownKinds ∘ Tag.tokens) =
      (Tag.pattern.hits s).flatMap (Token.stylings Tag.ownKinds ∘ Tag.tokens))
    (fun before c after _ h => ?_) rfl
  have hw : r.render c.tokens = r.style .comment c.source := by
    simp [Comment.tokens, renderToken]
  rw [← h, hw, hr.hits_append, Comment.pattern_source, ← List.append_assoc before c.source,
    Pattern.hits_append (Tag.parts_comment before c after), List.flatMap_append, List.flatMap_append]
  congr 1
  rw [c.source_eq_lt_append]
  rcases Tag.hits_insert hr.unobtrusive before ("!--".toList ++ c.body ++ Comment.closing) 0 with
    he | ⟨l, t, region, l', -, he, he', -⟩
  · rw [he]
  · rw [he, he']
    simp only [List.flatMap_append, List.flatMap_cons, Function.comp_apply, Tag.stylings_tokens_region]

end Comments

theorem stylings_tag_markBeforeTags {start stop : Text} (hr : r.SurroundsComments start stop)
    (hk : r.KeepsAmpersands) (s : Text) :
    Token.stylings Tag.ownKinds (Tag.tokenize (r.markBeforeTags s)) =
      Token.stylings Tag.ownKinds (Tag.tokenize s) := by
  rw [← hr.stylings_markComments s, Tag.tokenize, Tag.tokenize, Token.stylings_tokenize,
    Token.stylings_tokenize, markBeforeTags, hits_markText hk]

/-- For every source, the pass over tags styles the same brackets, slashes and names in the same order with
comments and runs marked, for web pages or for terminals, as in the prepared source itself. -/
theorem stylings_markBeforeTags (source : Text) :
    Token.stylings Tag.ownKinds (Tag.tokenize (html.markBeforeTags (prepare source))) =
      Token.stylings Tag.ownKinds (Tag.tokenize (prepare source)) ∧
    Token.stylings Tag.ownKinds (Tag.tokenize (terminal.markBeforeTags (prepare source))) =
      Token.stylings Tag.ownKinds (Tag.tokenize (prepare source)) :=
  ⟨stylings_tag_markBeforeTags surroundsComments_html keepsAmpersands_html _,
    stylings_tag_markBeforeTags surroundsComments_terminal keepsAmpersands_terminal _⟩

end Renderer

end HtmlHighlight
