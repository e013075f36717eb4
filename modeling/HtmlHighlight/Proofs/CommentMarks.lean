import HtmlHighlight.Highlight
import HtmlHighlight.Proofs.Boundaries
import HtmlHighlight.Proofs.Nesting

/-!
# Marked comments

What a text without brackets looks like once its comments are marked for web pages: every bracket belongs to
the marker before a comment or to the marker after it (`exists_finds_of_markComments`), and what stands
elsewhere stands in the text too, at the same place of the search (`exists_of_markComments_eq_append`).
-/

namespace HtmlHighlight

namespace Comment

/-- A comment stands at an opening with a closing after it, and goes on to the first such closing. -/
theorem front?_opening (s : Text) :
    front? (opening ++ s) = (Text.cutAt? closing s).map fun (body, rest) => (⟨body⟩, rest) := by
  rw [front?, Text.after?_append]

theorem opening_prefix_of_front? {s rest : Text} {c : Comment} (h : front? s = some (c, rest)) :
    opening <+: s := by
  rw [eq_append_of_front? h, source, List.append_assoc, List.append_assoc]
  exact List.prefix_append ..

theorem source_eq_append_gt (c : Comment) : c.source = opening ++ c.body ++ ['-', '-'] ++ Entity.gt := by
  simp [source, closing]

theorem source_eq_lt_append (c : Comment) :
    c.source = Entity.lt ++ ("!--".toList ++ c.body ++ closing) := by
  simp [source, opening]

/-- After an opening without a closing, no comment is found. -/
theorem not_finds_of_front?_eq_none {x s before rest : Text} {c : Comment} (hx : '&' ∉ x)
    (h : front? (opening ++ s) = none) : ¬ pattern.Finds (x ++ (opening ++ s)) before c rest := by
  intro hf
  rw [front?_opening, Option.map_eq_none_iff, Text.cutAt?_eq_none_iff] at h
  have he := hf.eq_append
  rw [pattern_source, source] at he
  rw [opening_eq] at he
  simp only [List.cons_append, List.append_assoc] at he
  obtain ⟨a, -, ha⟩ := Text.exists_of_append_eq_append_cons hx he
  cases a with
  | nil =>
    have hs : s = c.body ++ (closing ++ rest) := by simpa using ha
    exact h ⟨c.body, rest, by simp [hs]⟩
  | cons d a =>
    obtain ⟨-, ha⟩ := List.cons_eq_cons.1 ha
    obtain ⟨a, -, hs⟩ := Text.exists_of_append_eq_append_cons (by decide) ha
    exact h ⟨a ++ opening ++ c.body, rest, by simp [hs, opening_eq]⟩

theorem finds_lt_append {s before rest : Text} {c : Comment} (h : front? (Entity.lt ++ s) = none) :
    pattern.Finds (Entity.lt ++ s) before c rest ↔
      ∃ b, before = Entity.lt ++ b ∧ pattern.Finds s b c rest := by
  rw [Entity.lt_eq, List.cons_append] at h ⊢
  constructor
  · intro hf
    obtain ⟨b, rfl, htail⟩ := hf.exists_of_cons h
    obtain ⟨b, rfl, hb⟩ := (Pattern.finds_append_of_not_mem begins (by decide)).1 htail
    exact ⟨b, rfl, hb⟩
  · rintro ⟨b, rfl, hb⟩
    exact .skip h ((Pattern.finds_append_of_not_mem begins (by decide)).2 ⟨b, rfl, hb⟩)

/-- What holds after each comment of a text holds after those that stand behind a bracket of its own. -/
theorem forall_finds_append_lt {x s : Text} {P : Text → Prop} (hx : '&' ∉ x)
    (h : front? (Entity.lt ++ s) = none) :
    (∀ before c rest, pattern.Finds (x ++ (Entity.lt ++ s)) before c rest → P rest) ↔
      ∀ before c rest, pattern.Finds s before c rest → P rest := by
  simp only [Pattern.finds_append_of_not_mem begins hx, finds_lt_append h]
  constructor
  · intro hall b c q hb
    exact hall _ c q ⟨_, rfl, _, rfl, hb⟩
  · rintro hall b c q ⟨_, -, b', -, hb⟩
    exact hall b' c q hb

end Comment

namespace Renderer

theorem markComments_nil : html.markComments [] = [] := by
  simp [markComments, Comment.tokenize]

theorem markComments_of_front? {s rest : Text} {c : Comment} (h : Comment.front? s = some (c, rest)) :
    html.markComments s = spanStart .comment ++ (c.source ++ (spanEnd ++ html.markComments rest)) := by
  rw [markComments, Comment.tokenize, Pattern.render_tokenize_of_front? (p := Comment.pattern) _ h]
  simp [Comment.tokens, renderToken, html_style, markComments, Comment.tokenize]

theorem markComments_of_front?_eq_none {c : Char} {s : Text} (h : Comment.front? (c :: s) = none) :
    html.markComments (c :: s) = c :: html.markComments s :=
  Pattern.render_tokenize_of_front?_eq_none (p := Comment.pattern) _ h

/-- Every bracket in a text with marked comments begins the marker before a comment or the one after it. -/
theorem exists_finds_of_markComments {s a y : Text} (hs : '<' ∉ s)
    (h : html.markComments s = a ++ '<' :: y) :
    ∃ before c rest, Comment.pattern.Finds s before c rest ∧
      ('<' :: y = spanStart .comment ++ (c.source ++ (spanEnd ++ html.markComments rest)) ∨
        ('<' :: y = spanEnd ++ html.markComments rest ∧ Entity.gt <:+ a)) := by
  induction s using Comment.pattern.segments_induction generalizing a with
  | nil => simp [markComments_nil] at h
  | hit s c rest hf ih =>
    have hsrc := Comment.pattern.eq_append hf
    rw [Comment.pattern_source] at hsrc
    have hcm : '<' ∉ c.source := fun hm => hs (hsrc ▸ List.mem_append_left _ hm)
    have hrm : '<' ∉ rest := fun hm => hs (hsrc ▸ List.mem_append_right _ hm)
    rw [markComments_of_front? hf] at h
    cases a with
    | nil => exact ⟨_, c, rest, .here hf, .inl h.symm⟩
    | cons d a =>
      -- within a marker and within a comment there is no other bracket
      rw [spanStart_eq, List.cons_append, List.cons_append] at h
      obtain ⟨-, h⟩ := List.cons_eq_cons.1 h
      rw [← List.append_assoc] at h
      obtain ⟨b, hb, h⟩ := Text.exists_of_append_eq_append_cons
        (by simp only [List.mem_append, not_or]; exact ⟨by decide, hcm⟩) h
      cases b with
      | nil =>
        refine ⟨_, c, rest, .here hf, .inr ⟨h.symm, ?_⟩⟩
        rw [hb, Comment.source_eq_append_gt, List.append_nil, ← List.append_assoc, ← List.cons_append]
        exact List.suffix_append ..
      | cons e b =>
        rw [spanEnd_eq, List.cons_append, List.cons_append] at h
        obtain ⟨-, h⟩ := List.cons_eq_cons.1 h
        obtain ⟨b', rfl, hr⟩ := Text.exists_of_append_eq_append_cons (by decide) h
        obtain ⟨before, c', rest', hf', hc'⟩ := ih hrm hr
        refine ⟨_, c', rest', .next hf hf', hc'.imp id fun ⟨he, ha⟩ => ⟨he, ha.trans ?_⟩⟩
        exact ⟨d :: ("span ".toList ++ ("class=\"".toList ++ (Kind.comment.cssClass.toList ++
          "\">".toList)) ++ c.source ++ e :: "/span>".toList), by simp [hb]⟩
  | gap c s hf ih =>
    simp only [List.mem_cons, not_or] at hs
    rw [markComments_of_front?_eq_none hf] at h
    cases a with
    | nil => exact absurd (List.cons_eq_cons.1 h).1 (Ne.symm hs.1)
    | cons d a =>
      obtain ⟨rfl, hr⟩ := List.cons_eq_cons.1 h
      obtain ⟨before, c', rest', hf', hc'⟩ := ih hs.2 hr
      exact ⟨_, c', rest', .skip hf hf', hc'.imp id fun ⟨he, ha⟩ => ⟨he, ha.trans (List.suffix_cons ..)⟩⟩

/-- What stands before the first bracket stands in the text itself. -/
theorem exists_of_markComments_eq_append {x s z : Text} (hx : '<' ∉ x)
    (h : html.markComments s = x ++ z) : ∃ s', s = x ++ s' ∧ z = html.markComments s' := by
  induction x generalizing s with
  | nil => exact ⟨s, rfl, h.symm⟩
  | cons c x ih =>
    simp only [List.mem_cons, not_or] at hx
    cases s with
    | nil => simp [markComments_nil] at h
    | cons d s =>
      cases hf : Comment.front? (d :: s) with
      | some f =>
        obtain ⟨c, rest⟩ := f
        rw [markComments_of_front? hf, spanStart_eq] at h
        exact absurd (List.cons_eq_cons.1 h).1 hx.1
      | none =>
        rw [markComments_of_front?_eq_none hf] at h
        obtain ⟨rfl, hr⟩ := List.cons_eq_cons.1 h
        obtain ⟨s', rfl, hz⟩ := ih hx.2 hr
        exact ⟨s', rfl, hz⟩

/-- No comment begins where an ampersand follows at once. -/
theorem front?_eq_none_of_markComments {s z : Text} (h : html.markComments s = '&' :: z) :
    Comment.front? s = none := by
  cases hf : Comment.front? s with
  | none => rfl
  | some f =>
    obtain ⟨c, rest⟩ := f
    rw [markComments_of_front? hf, spanStart_eq] at h
    exact absurd (List.cons_eq_cons.1 h).1 (by decide)

theorem markComments_append_of_not_mem {x : Text} (hx : '&' ∉ x) (s : Text) :
    html.markComments (x ++ s) = x ++ html.markComments s :=
  Pattern.render_tokenize_append_of_not_mem Comment.begins hx s Comment.tokens

theorem markComments_lt_append {s : Text} (h : Comment.front? (Entity.lt ++ s) = none) :
    html.markComments (Entity.lt ++ s) = Entity.lt ++ html.markComments s := by
  rw [Entity.lt_eq, List.cons_append] at h ⊢
  rw [markComments_of_front?_eq_none h, markComments_append_of_not_mem (by decide)]
  rfl

theorem markComments_of_segments {s before rest : Text} {c : Comment}
    (h : Comment.pattern.segments s = before.map .gap ++ .hit c :: Comment.pattern.segments rest) :
    html.markComments s =
      before ++ (spanStart .comment ++ (c.source ++ (spanEnd ++ html.markComments rest))) := by
  rw [markComments, Comment.tokenize, Pattern.tokenize, h, List.flatMap_append, render_append,
    Pattern.render_gaps, List.flatMap_cons, render_append]
  simp [Segment.tokens, Comment.tokens, renderToken, html_style, markComments, Comment.tokenize,
    Pattern.tokenize]

/-- A comment that is found is marked where it stands. -/
theorem markComments_of_finds {s before rest : Text} {c : Comment}
    (h : Comment.pattern.Finds s before c rest) :
    ∃ a, html.markComments s =
      a ++ (spanStart .comment ++ (c.source ++ (spanEnd ++ html.markComments rest))) := by
  induction h with
  | here hf => exact ⟨[], markComments_of_front? hf⟩
  | skip hf _ ih =>
    obtain ⟨a, ha⟩ := ih
    exact ⟨_ :: a, by rw [markComments_of_front?_eq_none hf, ha]; rfl⟩
  | next hf _ ih =>
    obtain ⟨a, ha⟩ := ih
    rw [markComments_of_front? hf, ha, ← List.append_assoc spanEnd, ← List.append_assoc (Comment.source _),
      ← List.append_assoc (spanStart .comment)]
    exact ⟨_, rfl⟩

/-- After a comment less is left than before it. -/
theorem length_markComments_lt {s before rest : Text} {c : Comment}
    (h : Comment.pattern.Finds s before c rest) :
    (html.markComments rest).length < (html.markComments s).length := by
  obtain ⟨a, ha⟩ := markComments_of_finds h
  have hE : 0 < spanEnd.length := by decide
  rw [ha]
  simp only [List.length_append]
  omega

end Renderer

end HtmlHighlight
