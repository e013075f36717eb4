import HtmlHighlight.Proofs.CommentMarks
import HtmlHighlight.Proofs.Decoding
import HtmlHighlight.Proofs.SequenceRemoval

/-!
# Places where the passes style

Each piece that a pass styles stands between two places where a text may be cut: no entity and no control sequence
goes on across them, by what stands before the place (`CutAfter`) or by what stands after it (`CutBefore`).

So what is kept wherever one piece is styled between two such places (`Renderer.StylesAtCuts`) is kept by the three
passes (`Renderer.StylesAtCuts.mark`). The argument goes match by match: what a pass writes for a comment, a run, an
attribute or a tag may stand for the match, whatever is before and after it (`Renderer.Anywhere`).
-/

namespace HtmlHighlight

open Ansi (Sgr)

/-- A character that neither an entity nor a control sequence goes on with. -/
def Breaks (c : Char) : Prop :=
  Entity.Starts c ∧ Sgr.Ends c

instance (c : Char) : Decidable (Breaks c) :=
  inferInstanceAs (Decidable (_ ∧ _))

theorem isBlank_eq_false_of_isDigit {c : Char} (h : c.isDigit = true) : isBlank c = false := by
  have hc : 48 ≤ c.toNat ∧ c.toNat ≤ 57 := by simpa [Char.isDigit, UInt32.le_iff_toNat_le] using h
  simp only [isBlank, blankRanges, List.any_cons, List.any_nil, Bool.or_false, Bool.or_eq_false_iff,
    Bool.and_eq_false_iff, decide_eq_false_iff_not]
  omega

/-- Nothing goes on with blank space. -/
theorem breaks_of_isBlank {c : Char} (h : isBlank c = true) : Breaks c := by
  have hne : ∀ d, isBlank d = false → c ≠ d := by
    rintro d hd rfl
    exact Bool.false_ne_true (hd.symm.trans h)
  have hdigit : c.isDigit = false := by
    cases hd : c.isDigit with
    | false => rfl
    | true => exact absurd (isBlank_eq_false_of_isDigit hd) (by simp [h])
  have htails : ∀ e ∈ Entity.tails, e.all (!isBlank ·) = true := by decide
  refine ⟨fun e he hc => ?_, ?_, hne '[' (by decide), hne 'm' (by decide)⟩
  · simpa [h] using List.all_eq_true.1 (htails e he) c hc
  · simp [Ansi.isParameter, hdigit, hne ';' (by decide)]

/-! ## Where a text may be cut -/

/-- A text may be cut before such a piece of it, whatever stands in front. -/
inductive CutBefore : Text → Prop
  | cons {c : Char} (h : Breaks c) (s : Text) : CutBefore (c :: s)

/-- A text may be cut after such a piece of it, whatever follows: the entity or character that ends what came before
has nothing behind it that an entity or a control sequence begins with. -/
inductive CutAfter : Text → Prop
  | lt : CutAfter Entity.lt
  | gt : CutAfter Entity.gt
  | singleton {c : Char} (h : Breaks c) (hamp : c ≠ '&') (hesc : c ≠ '\x1b') : CutAfter [c]
  | append_left {s : Text} (h : CutAfter s) (t : Text) : CutAfter (t ++ s)
  | append_of_not_mem {s t : Text} (h : CutAfter s) (hamp : '&' ∉ t) (hesc : '\x1b' ∉ t) : CutAfter (s ++ t)

theorem CutBefore.append {s : Text} (h : CutBefore s) (t : Text) : CutBefore (s ++ t) := by
  cases h with
  | cons hc s => exact .cons hc (s ++ t)

theorem cutBefore_lt : CutBefore Entity.lt :=
  .cons (by decide) _

theorem cutBefore_gt : CutBefore Entity.gt :=
  .cons (by decide) _

theorem cutAfter_of_forall_isBlank {s : Text} (hne : s ≠ []) (h : ∀ c ∈ s, isBlank c = true) : CutAfter s := by
  have hlast : isBlank (s.getLast hne) = true := h _ (List.getLast_mem hne)
  have hchar : ∀ c, isBlank c = true → CutAfter [c] := by
    intro c hc
    refine .singleton (breaks_of_isBlank hc) ?_ ?_
    · rintro rfl
      exact absurd hc (by decide)
    · rintro rfl
      exact absurd hc (by decide)
  rw [← List.dropLast_append_getLast hne]
  exact (hchar _ hlast).append_left _

theorem cutBefore_quoted {q : Char} (h : q = '"' ∨ q = '\'') (body : Text) : CutBefore (q :: (body ++ [q])) := by
  rcases h with rfl | rfl <;> exact .cons (by decide) _

theorem cutAfter_quoted {q : Char} (h : q = '"' ∨ q = '\'') (body : Text) : CutAfter (q :: (body ++ [q])) := by
  have hq : CutAfter [q] := by
    rcases h with rfl | rfl <;> exact .singleton (by decide) (by decide) (by decide)
  exact hq.append_left (q :: body)

namespace Renderer

/-! ## What is kept where a piece is styled -/

/-- The first text may stand for the second one, whatever is before and after it. -/
def Anywhere (R : Text → Text → Prop) (u s : Text) : Prop :=
  ∀ a b, R (a ++ (u ++ b)) (a ++ (s ++ b))

/-- A text with a piece styled that stands between two places where the text may be cut is related to the text. -/
structure StylesAtCuts (r : Renderer) (R : Text → Text → Prop) : Prop where
  refl : ∀ s, R s s
  trans : ∀ {u t s}, R u t → R t s → R u s
  style : ∀ k {x s y}, CutAfter x ∨ CutBefore s → CutAfter (x ++ s) ∨ CutBefore y →
    R (x ++ (r.style k s ++ y)) (x ++ (s ++ y))

namespace StylesAtCuts

variable {r : Renderer} {R : Text → Text → Prop} {s t u v : Text}

theorem anywhere_refl (hr : r.StylesAtCuts R) (s : Text) : Anywhere R s s :=
  fun _ _ => hr.refl _

theorem anywhere_trans (hr : r.StylesAtCuts R) (h : Anywhere R u t) (h' : Anywhere R t s) : Anywhere R u s :=
  fun a b => hr.trans (h a b) (h' a b)

theorem anywhere_append (hr : r.StylesAtCuts R) (h : Anywhere R u s) (h' : Anywhere R v t) :
    Anywhere R (u ++ v) (s ++ t) := by
  intro a b
  have hv := h' (a ++ u) b
  have hu := h a (t ++ b)
  simp only [List.append_assoc] at hv ⊢
  exact hr.trans hv hu

theorem anywhere_style_between (hr : r.StylesAtCuts R) {x y : Text} (k : Kind) (hx : CutAfter x ∨ CutBefore s)
    (hy : CutAfter (x ++ s) ∨ CutBefore y) : Anywhere R (x ++ (r.style k s ++ y)) (x ++ (s ++ y)) := by
  intro a b
  have hleft : CutAfter (a ++ x) ∨ CutBefore s := hx.imp_left (·.append_left a)
  have hright : CutAfter (a ++ x ++ s) ∨ CutBefore (y ++ b) := by
    rw [List.append_assoc]
    exact hy.imp (·.append_left a) (·.append b)
  simpa only [List.append_assoc] using hr.style k hleft hright

theorem anywhere_style (hr : r.StylesAtCuts R) (k : Kind) (hb : CutBefore s) (he : CutAfter s) :
    Anywhere R (r.style k s) s := by
  simpa using hr.anywhere_style_between (x := []) (y := []) k (.inr hb) (.inl he)

/-! ## The passes -/

/-- What is kept by each match that is marked is kept by the marking of all. -/
theorem render_tokenize (hr : r.StylesAtCuts R) {α : Type} {p : Pattern α} {tokens : α → List Token}
    (step : ∀ m rest, p.front? (p.source m ++ rest) = some (m, rest) →
      Anywhere R (r.render (tokens m)) (p.source m)) (s : Text) :
    Anywhere R (r.render (p.tokenize tokens s)) s :=
  Pattern.render_tokenize (motive := (Anywhere R · s))
    (fun before m after hf h => hr.anywhere_trans (hr.anywhere_append (hr.anywhere_refl before)
      (hr.anywhere_append (step m after hf) (hr.anywhere_refl after))) h)
    (hr.anywhere_refl s)

theorem anywhere_comment (hr : r.StylesAtCuts R) (c : Comment) : Anywhere R (r.render c.tokens) c.source := by
  have hbegins : CutBefore c.source := by
    rw [c.source_eq_lt_append]
    exact cutBefore_lt.append _
  have hends : CutAfter c.source := by
    rw [c.source_eq_append_gt]
    exact .append_left .gt _
  simpa [Comment.tokens, renderToken] using hr.anywhere_style .comment hbegins hends

theorem anywhere_run (hr : r.StylesAtCuts R) (whole : Text) (run : TextRun) :
    Anywhere R (r.render (run.tokens whole)) run.source := by
  rw [TextRun.tokens, TextRun.source]
  split
  · simpa [renderToken] using
      hr.anywhere_style_between .text (s := run.content) (.inl .gt) (.inr cutBefore_lt)
  · simpa [renderToken] using hr.anywhere_refl _

theorem anywhere_attribute (hr : r.StylesAtCuts R) {a : Attribute} {rest : Text}
    (h : Attribute.front? s = some (a, rest)) : Anywhere R (r.render a.tokens) a.source := by
  obtain ⟨hblank, hne, -, hquoted⟩ := Attribute.front?_eq_some h
  have hspacing : CutAfter a.spacing := cutAfter_of_forall_isBlank hne hblank
  have hequal : Anywhere R (r.style .equalSign ['=']) ['='] :=
    hr.anywhere_style .equalSign (.cons (by decide) _) (.singleton (by decide) (by decide) (by decide))
  have hvalue : Anywhere R (r.render (a.value?.toList.map (.styled .attributeValue))) (a.value?.getD []) := by
    cases hv : a.value? with
    | none => exact hr.anywhere_refl []
    | some v =>
      obtain ⟨q, body, hq, -, rfl⟩ := hquoted v hv
      simpa [renderToken] using
        hr.anywhere_style .attributeValue (cutBefore_quoted hq body) (cutAfter_quoted hq body)
  -- the name is the one part that need not begin or end apart by itself: its neighbours do
  have hname : Anywhere R (a.spacing ++ (r.style .attributeName a.name ++ (['='] ++ a.value?.getD [])))
      (a.spacing ++ (a.name ++ (['='] ++ a.value?.getD []))) :=
    hr.anywhere_style_between .attributeName (.inl hspacing) (.inr (.cons (by decide) _))
  have hrest := hr.anywhere_append (hr.anywhere_refl a.spacing)
    (hr.anywhere_append (hr.anywhere_refl (r.style .attributeName a.name)) (hr.anywhere_append hequal hvalue))
  simpa [Attribute.tokens, Attribute.source, renderToken] using hr.anywhere_trans hrest hname

theorem anywhere_markAttributes (hr : r.StylesAtCuts R) (s : Text) : Anywhere R (r.markAttributes s) s :=
  hr.render_tokenize (p := Attribute.pattern) (fun _ _ h => hr.anywhere_attribute h) s

theorem anywhere_tag (hr : r.StylesAtCuts R) {t : Tag} {rest : Text} (h : Tag.front? s = some (t, rest)) :
    Anywhere R (r.render t.tokens) t.source := by
  have hslash : ∀ present, Anywhere R (r.render (if present then [.styled .tag ['/']] else []))
      (Tag.slash present)
    | false => hr.anywhere_refl []
    | true => by
      simpa [renderToken, Tag.slash] using hr.anywhere_style .tag (s := ['/']) (.cons (by decide) [])
        (.singleton (by decide) (by decide) (by decide))
  have hopening : CutAfter t.opening :=
    .append_of_not_mem .lt (Tag.not_mem_slash (by decide) _) (Tag.not_mem_slash (by decide) _)
  have hbegin : Anywhere R (r.style .tag t.opening) t.opening :=
    hr.anywhere_style .tag (cutBefore_lt.append (Tag.slash t.isEnd)) hopening
  -- a name may end anywhere, but no entity and no sequence that begins in the tag reaches its end
  have hname : CutAfter (t.opening ++ t.name) :=
    hopening.append_of_not_mem (Tag.not_mem_name h (by decide)) (Tag.not_mem_name h (by decide))
  have hstyled : Anywhere R (t.opening ++ (r.style .tagName t.name ++
      (t.region ++ (Tag.slash t.isSelfClosing ++ Entity.gt)))) t.source := by
    simpa [Tag.source] using hr.anywhere_style_between .tagName (.inl hopening) (.inl hname)
  have hrest := hr.anywhere_append hbegin (hr.anywhere_append (hr.anywhere_refl (r.style .tagName t.name))
    (hr.anywhere_append (hr.anywhere_markAttributes t.region)
      (hr.anywhere_append (hslash t.isSelfClosing) (hr.anywhere_style .tag cutBefore_gt .gt))))
  simpa [Tag.tokens, renderToken, Renderer.markAttributes] using hr.anywhere_trans hrest hstyled

/-- What is kept where one piece is styled is kept by the three passes. -/
theorem mark (hr : r.StylesAtCuts R) (s : Text) : R (r.mark s) s := by
  have hcomments : Anywhere R (r.markComments s) s :=
    hr.render_tokenize (p := Comment.pattern) (fun c _ _ => hr.anywhere_comment c) s
  have htext : Anywhere R (r.markBeforeTags s) (r.markComments s) :=
    hr.render_tokenize (p := TextRun.pattern) (fun run _ _ => hr.anywhere_run _ run) _
  have htags : Anywhere R (r.mark s) (r.markBeforeTags s) :=
    hr.render_tokenize (p := Tag.pattern) (fun _ _ hf => hr.anywhere_tag (Tag.pattern_front? _ ▸ hf)) _
  simpa using hr.anywhere_trans htags (hr.anywhere_trans htext hcomments) [] []

end StylesAtCuts

end Renderer

end HtmlHighlight
