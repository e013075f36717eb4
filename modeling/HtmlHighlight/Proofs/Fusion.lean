import HtmlHighlight.Highlight
import HtmlHighlight.Proofs.Boundaries
import HtmlHighlight.Renderer.Terminal

/-!
# The passes as one tokenization

In a text without comments, the search for tags never comes upon a marker: a run of text stands after a
closing bracket, where the search may be cut, and holds no ampersand, so no tag begins in it. The stretches
between the styled runs can be searched one by one (`Tag.tokenizeBetween`), before anything is written, and
the three passes write the tokens found then, whatever the renderer (`mark_eq_render`).
-/

namespace HtmlHighlight

namespace Tag

/-- Tokens with all between two styled ones searched for tags. `pending` is the text since the last styled
token. -/
def tokenizeBetween (pending : Text) : List Token → List Token
  | [] => tokenize pending
  | .plain s :: ts => tokenizeBetween (pending ++ s) ts
  | .styled k s :: ts => tokenize pending ++ .styled k s :: tokenizeBetween [] ts

theorem contents_tokenizeBetween (pending : Text) (ts : List Token) :
    Token.contents (tokenizeBetween pending ts) = pending ++ Token.contents ts := by
  induction ts generalizing pending with
  | nil => simp [tokenizeBetween]
  | cons t ts ih =>
    cases t with
    | plain s => rw [tokenizeBetween, ih, Token.contents_cons, Token.content, List.append_assoc]
    | styled k s =>
      rw [tokenizeBetween, Token.contents_append, contents_tokenize, Token.contents_cons, ih,
        Token.contents_cons, List.nil_append]

end Tag

namespace Renderer

/-- Styling a text without ampersands as a run adds none. -/
def KeepsAmpersands (r : Renderer) : Prop :=
  ∀ x, '&' ∉ x → '&' ∉ r.style .text x

theorem keepsAmpersands_html : html.KeepsAmpersands := by
  intro x hx
  have hs : '&' ∉ spanStart .text := by decide
  have he : '&' ∉ spanEnd := by decide
  simp [html, hs, he, hx]

theorem keepsAmpersands_terminal : terminal.KeepsAmpersands := by
  intro x hx
  have hs : '&' ∉ Ansi.sgr (terminalColour .text).renditions := by decide
  have he : '&' ∉ Ansi.sgr [39] := by decide
  simp [terminal, terminalEmphasis, Ansi.colour, Ansi.enclose, hs, he, hx]

variable {r : Renderer}

/-- The search for tags may go on after a closing bracket as if the text began there. -/
theorem markTags_append_gt (r : Renderer) (a b : Text) :
    r.markTags (a ++ Entity.gt ++ b) = r.markTags (a ++ Entity.gt) ++ r.markTags b := by
  rw [markTags, Tag.tokenize, Pattern.tokenize_append (Tag.parts_gt a b), render_append]
  rfl

theorem markTags_append_of_not_mem (r : Renderer) {a : Text} (h : '&' ∉ a) (b : Text) :
    r.markTags (a ++ b) = a ++ r.markTags b :=
  Pattern.render_tokenize_append_of_not_mem Tag.begins h b Tag.tokens

/-- The tags of a text with its runs written are those between the runs. -/
theorem markTags_render_runs (hr : r.KeepsAmpersands) (whole s pending : Text) :
    r.markTags (pending ++ r.render (TextRun.pattern.tokenize (TextRun.tokens whole) s)) =
      r.render (Tag.tokenizeBetween pending (TextRun.pattern.tokenize (TextRun.tokens whole) s)) := by
  induction s using TextRun.pattern.segments_induction generalizing pending with
  | nil =>
    rw [Pattern.tokenize_nil, render_nil, List.append_nil]
    rfl
  | hit s run rest hf ih =>
    obtain ⟨-, -, hamp⟩ := TextRun.front?_eq_some_iff.1 (show TextRun.front? s = some (run, rest) from hf)
    rw [Pattern.tokenize_of_front? _ _ hf, TextRun.tokens]
    split
    · have hlt := ih ([] ++ Entity.lt)
      simp only [render_append, render_cons, renderToken, List.cons_append, List.nil_append,
        Tag.tokenizeBetween] at hlt ⊢
      rw [← hlt, ← List.append_assoc pending, markTags_append_gt, markTags_append_of_not_mem r (hr _ hamp)]
      rfl
    · have hs := ih (pending ++ run.source)
      simpa only [render_append, render_cons, render_nil, renderToken, List.cons_append, List.nil_append,
        List.append_nil, Tag.tokenizeBetween, List.append_assoc] using hs
  | gap c s hf ih =>
    rw [Pattern.tokenize_of_front?_eq_none _ _ hf, Tag.tokenizeBetween, render_cons, ← ih (pending ++ [c]),
      List.append_assoc]
    rfl

/-- A text with no closing after an opening has no comments. -/
theorem markComments_eq_self {t : Text}
    (h : ∀ a b c, t ≠ a ++ Comment.opening ++ b ++ Comment.closing ++ c) : r.markComments t = t := by
  refine Pattern.render_of_segments (Pattern.segments_eq_map_gap fun s hs => ?_)
  rw [Comment.pattern_front?]
  cases hf : Comment.front? s with
  | none => rfl
  | some f =>
    obtain ⟨a, rfl⟩ := hs
    refine absurd ?_ (h a f.1.body f.2)
    have he := Comment.eq_append_of_front? hf
    rw [Comment.source] at he
    simpa using he

theorem mark_eq_render_tokenizeBetween (hr : r.KeepsAmpersands) {t : Text}
    (h : ∀ a b c, t ≠ a ++ Comment.opening ++ b ++ Comment.closing ++ c) :
    r.mark t = r.render (Tag.tokenizeBetween [] (TextRun.tokenize t)) := by
  rw [mark, markBeforeTags, markComments_eq_self h]
  exact markTags_render_runs hr t t []

/-- A source without a complete comment has one list of tokens, whose contents are the prepared source, and
every renderer that adds no ampersand to a run of text writes just these tokens, one after the other; those
for web pages and for terminals are among them. -/
theorem mark_eq_render (source : Text)
    (h : ∀ a b c, prepare source ≠ a ++ Comment.opening ++ b ++ Comment.closing ++ c) :
    ∃ ts : List Token, Token.contents ts = prepare source ∧
      (∀ r : Renderer, r.KeepsAmpersands → r.mark (prepare source) = r.render ts) ∧
      html.mark (prepare source) = html.render ts ∧ terminal.mark (prepare source) = terminal.render ts := by
  refine ⟨Tag.tokenizeBetween [] (TextRun.tokenize (prepare source)), ?_, ?_, ?_, ?_⟩
  · rw [Tag.contents_tokenizeBetween, TextRun.contents_tokenize, List.nil_append]
  · intro r hr
    exact mark_eq_render_tokenizeBetween hr h
  · exact mark_eq_render_tokenizeBetween keepsAmpersands_html h
  · exact mark_eq_render_tokenizeBetween keepsAmpersands_terminal h

theorem mark_eq_render_unclosed :
    (∀ a b c, prepare "<p id=x>a</p>b<!-- c".toList ≠
      a ++ Comment.opening ++ b ++ Comment.closing ++ c) ∧
    ∃ ts : List Token, Token.contents ts = prepare "<p id=x>a</p>b<!-- c".toList ∧
      (∀ r : Renderer, r.KeepsAmpersands →
        r.mark (prepare "<p id=x>a</p>b<!-- c".toList) = r.render ts) ∧
      html.mark (prepare "<p id=x>a</p>b<!-- c".toList) = html.render ts ∧
      terminal.mark (prepare "<p id=x>a</p>b<!-- c".toList) = terminal.render ts := by
  have h : ∀ a b c, prepare "<p id=x>a</p>b<!-- c".toList ≠
      a ++ Comment.opening ++ b ++ Comment.closing ++ c := by
    intro a b c he
    have hc : Text.cutAt? Comment.closing (prepare "<p id=x>a</p>b<!-- c".toList) = none := by decide
    exact Text.cutAt?_eq_none_iff.1 hc ⟨_, c, he.symm⟩
  exact ⟨h, mark_eq_render _ h⟩

end Renderer

end HtmlHighlight
