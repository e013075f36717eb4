import HtmlHighlight.Highlight

/-!
# What a pass writes

A pass copies what stands between the matches of its pattern and writes each match anew
(`Pattern.replace`). The four passes are given here in this form, with what each writes for a match spelled
out, and shown to write the tokens of the text (`Renderer.render_tokenize_eq_replace`). So they drop, repeat
and reorder nothing and add only what the renderer puts around a token (`Renderer.passes_onlyStyle`).
-/

namespace HtmlHighlight

/-- A piece of a searched text, given how a match is written; a character outside all matches is copied. -/
def Segment.write {α : Type} (write : α → Text) : Segment α → Text
  | gap c => [c]
  | hit m => write m

/-- A text with each match that a search from the left finds written anew. -/
def Pattern.replace {α : Type} (p : Pattern α) (write : α → Text) (s : Text) : Text :=
  (p.segments s).flatMap (Segment.write write)

namespace Pattern

variable {α : Type} (p : Pattern α) (write : α → Text)

theorem replace_nil : p.replace write [] = [] := by
  simp [replace]

theorem replace_of_front? {s : Text} {m : α} {rest : Text} (h : p.front? s = some (m, rest)) :
    p.replace write s = write m ++ p.replace write rest := by
  rw [replace, p.segments_of_front? h]
  rfl

theorem replace_of_front?_eq_none {c : Char} {s : Text} (h : p.front? (c :: s) = none) :
    p.replace write (c :: s) = c :: p.replace write s := by
  rw [replace, p.segments_of_front?_eq_none h]
  rfl

end Pattern

namespace Renderer

variable (r : Renderer)

/-- Writing the tokens of a text is writing each match by its tokens. -/
theorem render_tokenize_eq_replace {α : Type} (p : Pattern α) {tokens : α → List Token} {write : α → Text}
    (h : ∀ m, r.render (tokens m) = write m) (s : Text) :
    r.render (p.tokenize tokens s) = p.replace write s := by
  have hpiece : ∀ piece : Segment α, r.render (piece.tokens tokens) = piece.write write
    | .gap _ => rfl
    | .hit m => h m
  rw [Pattern.tokenize, Pattern.replace]
  induction p.segments s with
  | nil => rfl
  | cons piece l ih => rw [List.flatMap_cons, List.flatMap_cons, render_append, hpiece, ih]

/-- A comment as the renderer marks it. -/
def writeComment (c : Comment) : Text :=
  r.style .comment c.source

/-- A run found in `whole` as the renderer marks it. -/
def writeRun (whole : Text) (run : TextRun) : Text :=
  if run.content.allBlank || run.beforeComment whole then run.source
  else Entity.gt ++ r.style .text run.content ++ Entity.lt

/-- An attribute as the renderer marks it. -/
def writeAttribute (a : Attribute) : Text :=
  a.spacing ++ r.style .attributeName a.name ++ r.style .equalSign ['='] ++
    match a.value? with
    | some value => r.style .attributeValue value
    | none => []

/-- A tag as the renderer marks it, with the attributes in its region marked. -/
def writeTag (t : Tag) : Text :=
  r.style .tag t.opening ++ r.style .tagName t.name ++ r.markAttributes t.region ++
    (if t.isSelfClosing then r.style .tag ['/'] else []) ++ r.style .tag Entity.gt

theorem markComments_eq_replace (s : Text) :
    r.markComments s = Comment.pattern.replace r.writeComment s := by
  refine r.render_tokenize_eq_replace Comment.pattern (fun c => ?_) s
  simp [Comment.tokens, writeComment, renderToken]

theorem markText_eq_replace (s : Text) : r.markText s = TextRun.pattern.replace (r.writeRun s) s := by
  refine r.render_tokenize_eq_replace TextRun.pattern (fun run => ?_) s
  rw [TextRun.tokens, TextRun.isStyled, writeRun]
  cases run.content.allBlank <;> cases run.beforeComment s <;> simp [renderToken]

theorem markAttributes_eq_replace (s : Text) :
    r.markAttributes s = Attribute.pattern.replace r.writeAttribute s := by
  refine r.render_tokenize_eq_replace Attribute.pattern (fun a => ?_) s
  obtain ⟨spacing, name, _ | value⟩ := a <;> simp [Attribute.tokens, writeAttribute, renderToken]

theorem markTags_eq_replace (s : Text) : r.markTags s = Tag.pattern.replace r.writeTag s := by
  refine r.render_tokenize_eq_replace Tag.pattern (fun t => ?_) s
  obtain ⟨isEnd, name, region, _ | _⟩ := t <;> simp [Tag.tokens, writeTag, renderToken, markAttributes]

/-- `mark` writes texts as `rewrite` does, and for all renderers that is the writing of the same tokens, which
hold the characters of the text in order. -/
def OnlyStyles (mark rewrite : Renderer → Text → Text) : Prop :=
  ∀ s, ∃ ts, Token.contents ts = s ∧ ∀ r, mark r s = rewrite r s ∧ rewrite r s = r.render ts

theorem onlyStyles_of_tokenize {mark rewrite : Renderer → Text → Text} {tokenize : Text → List Token}
    (hcontents : ∀ s, Token.contents (tokenize s) = s) (hmark : ∀ r s, mark r s = r.render (tokenize s))
    (hrewrite : ∀ r s, mark r s = rewrite r s) : OnlyStyles mark rewrite :=
  fun s => ⟨tokenize s, hcontents s, fun r => ⟨hrewrite r s, (hrewrite r s).symm.trans (hmark r s)⟩⟩

/-- The renderer without marks writes what it reads. -/
theorem OnlyStyles.plain {mark rewrite : Renderer → Text → Text} (h : OnlyStyles mark rewrite) (s : Text) :
    mark plain s = s := by
  obtain ⟨ts, hts, hw⟩ := h s
  obtain ⟨hm, hr⟩ := hw Renderer.plain
  rw [hm, hr, render_plain, hts]

theorem onlyStyles_markComments : OnlyStyles markComments fun r => Comment.pattern.replace r.writeComment :=
  onlyStyles_of_tokenize Comment.contents_tokenize (fun _ _ => rfl) markComments_eq_replace

theorem onlyStyles_markText : OnlyStyles markText fun r s => TextRun.pattern.replace (r.writeRun s) s :=
  onlyStyles_of_tokenize TextRun.contents_tokenize (fun _ _ => rfl) markText_eq_replace

theorem onlyStyles_markAttributes :
    OnlyStyles markAttributes fun r => Attribute.pattern.replace r.writeAttribute :=
  onlyStyles_of_tokenize Attribute.contents_tokenize (fun _ _ => rfl) markAttributes_eq_replace

theorem onlyStyles_markTags : OnlyStyles markTags fun r => Tag.pattern.replace r.writeTag :=
  onlyStyles_of_tokenize Tag.contents_tokenize (fun _ _ => rfl) markTags_eq_replace

/-- With the renderer that marks nothing, highlighting a source prepares it and does no more. -/
theorem highlight_plain (source : Text) : plain.highlight source = prepare source := by
  calc plain.highlight source
      = plain.markTags (plain.markText (plain.markComments (prepare source))) := rfl
    _ = prepare source := by
        rw [onlyStyles_markComments.plain, onlyStyles_markText.plain, onlyStyles_markTags.plain]

/-- Each pass only adds what the renderer puts around a token, for every text and every renderer; so a source
that is highlighted without marks is the unindented source with entities for its brackets. -/
theorem passes_onlyStyle :
    (OnlyStyles markComments fun r => Comment.pattern.replace r.writeComment) ∧
    (OnlyStyles markText fun r s => TextRun.pattern.replace (r.writeRun s) s) ∧
    (OnlyStyles markTags fun r => Tag.pattern.replace r.writeTag) ∧
    (OnlyStyles markAttributes fun r => Attribute.pattern.replace r.writeAttribute) ∧
    ∀ source, plain.highlight source = Entity.encode source.unindent :=
  ⟨onlyStyles_markComments, onlyStyles_markText, onlyStyles_markTags, onlyStyles_markAttributes,
    highlight_plain⟩

end Renderer

end HtmlHighlight
