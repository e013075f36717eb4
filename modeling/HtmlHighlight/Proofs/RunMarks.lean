import HtmlHighlight.Proofs.CommentMarks

/-!
# Marked runs after marked comments

How the runs of a text with marked comments are written, piece by piece. `markRuns w s` is what becomes of
a piece `s` of the text `w`:

* `markRuns_gt_append`: what follows a closing bracket stays as it is unless a styled run begins there;
* `markRuns_append_spanStart`: the marker before a comment stays as it is, since a run that ends with it is
  a run before a comment wherever it occurs first (`isStyled_append_spanStart`).
-/

namespace HtmlHighlight.Renderer

/-- A piece of the text `whole` with its runs marked. -/
def markRuns (whole s : Text) : Text :=
  html.render (TextRun.pattern.tokenize (TextRun.tokens whole) s)

theorem markText_eq_markRuns (s : Text) : html.markText s = markRuns s s := rfl

variable {w : Text}

@[simp] theorem markRuns_nil (w : Text) : markRuns w [] = [] := by
  simp [markRuns]

theorem markRuns_append {a b : Text} (h : TextRun.pattern.Parts a b) :
    markRuns w (a ++ b) = markRuns w a ++ markRuns w b := by
  rw [markRuns, Pattern.tokenize_append h, render_append]
  rfl

theorem markRuns_append_of_not_mem {a : Text} (h : '&' ∉ a) (b : Text) :
    markRuns w (a ++ b) = a ++ markRuns w b :=
  Pattern.render_tokenize_append_of_not_mem TextRun.begins h b _

theorem markRuns_of_front? {s rest : Text} {run : TextRun} (h : TextRun.front? s = some (run, rest)) :
    markRuns w s = html.render (run.tokens w) ++ markRuns w rest :=
  Pattern.render_tokenize_of_front? (p := TextRun.pattern) _ h

theorem markRuns_of_front?_eq_none {c : Char} {s : Text} (h : TextRun.front? (c :: s) = none) :
    markRuns w (c :: s) = c :: markRuns w s :=
  Pattern.render_tokenize_of_front?_eq_none (p := TextRun.pattern) _ h

theorem markRuns_lt_append (s : Text) : markRuns w (Entity.lt ++ s) = Entity.lt ++ markRuns w s := by
  rw [Entity.lt_eq, List.cons_append, markRuns_of_front?_eq_none rfl, markRuns_append_of_not_mem (by decide)]
  rfl

theorem markRuns_of_isStyled {x : Text} (hn : x ≠ []) (hx : '&' ∉ x)
    (h : (⟨x⟩ : TextRun).isStyled w = true) (s : Text) :
    markRuns w (Entity.gt ++ (x ++ (Entity.lt ++ s))) =
      Entity.gt ++ (html.style .text x ++ (Entity.lt ++ markRuns w s)) := by
  rw [markRuns_of_front? (TextRun.front?_run hn hx s), TextRun.tokens, if_pos h]
  simp [renderToken]

/-- What follows a closing bracket stays as it is if no styled run begins there. -/
theorem markRuns_gt_append {x y : Text} (hx : '&' ∉ x)
    (h : ∀ v z, y = v ++ (Entity.lt ++ z) → '&' ∉ v → (⟨x ++ v⟩ : TextRun).isStyled w = false) :
    markRuns w (Entity.gt ++ (x ++ y)) = Entity.gt ++ (x ++ markRuns w y) := by
  cases hf : TextRun.front? (Entity.gt ++ (x ++ y)) with
  | none =>
    rw [Entity.gt_eq, List.cons_append] at hf ⊢
    rw [markRuns_of_front?_eq_none hf, markRuns_append_of_not_mem (by decide), markRuns_append_of_not_mem hx]
    rfl
  | some f =>
    obtain ⟨⟨content⟩, z⟩ := f
    obtain ⟨he, -, hamp⟩ := TextRun.front?_eq_some_iff.1 hf
    simp only [TextRun.source, List.append_assoc, List.append_cancel_left_eq] at he hamp
    obtain ⟨v, rfl, rfl⟩ := Text.exists_of_append_eq_append_cons hx
      (show x ++ y = content ++ '&' :: (['l', 't', ';'] ++ z) from he)
    have hv : '&' ∉ v := fun hm => hamp (List.mem_append_right _ hm)
    rw [markRuns_of_front? hf, TextRun.tokens, if_neg (by simp [h v z rfl hv]),
      markRuns_append_of_not_mem hv, show '&' :: (['l', 't', ';'] ++ z) = Entity.lt ++ z from rfl,
      markRuns_lt_append]
    simp [renderToken, TextRun.source]

/-- A run is marked as a run before a comment if it is one where it occurs first. -/
theorem isStyled_eq_false_of_first {run : TextRun} {a z : Text} (hw : w = a ++ (run.source ++ z))
    (h : ∀ b r, w = b ++ (run.source ++ r) → "!--".toList <+: r) : run.isStyled w = false := by
  obtain ⟨b, r, hc, -⟩ := Text.exists_cutAt? a run.source z
  rw [← hw] at hc
  obtain ⟨r', rfl⟩ := h b r (by simpa using Text.eq_append_of_cutAt? hc)
  have ha : (Text.after? Comment.opening (Entity.lt ++ ("!--".toList ++ r'))).isSome = true := by
    rw [show Entity.lt ++ ("!--".toList ++ r') = Comment.opening ++ r' from rfl, Text.after?_append]
    rfl
  rw [TextRun.isStyled, TextRun.beforeComment, hc]
  dsimp only
  rw [ha, Bool.not_true, Bool.and_false]

/-- A run that is not blank and not styled occurs before a comment, no later than where it is known to. -/
theorem exists_of_isStyled_eq_false {run : TextRun} {a z : Text} (hw : w = a ++ (run.source ++ z))
    (hb : run.content.allBlank = false) (h : run.isStyled w = false) :
    ∃ b r, w = b ++ (run.source ++ ("!--".toList ++ r)) ∧ z.length ≤ r.length + 3 := by
  obtain ⟨b, r, hc, hl⟩ := Text.exists_cutAt? a run.source z
  rw [← hw] at hc
  rw [TextRun.isStyled, TextRun.beforeComment, hc, hb] at h
  obtain ⟨q, hq⟩ : ∃ q, Text.after? Comment.opening (Entity.lt ++ r) = some q := by
    simpa [Option.isSome_iff_exists] using h
  rw [Text.after?_eq_some_iff, show Comment.opening ++ q = Entity.lt ++ ("!--".toList ++ q) from rfl,
    List.append_cancel_left_eq] at hq
  subst hq
  exact ⟨b, q, by simpa using Text.eq_append_of_cutAt? hc, by simpa using hl⟩

variable {t : Text}

/-- Where a marker before a comment stands, the comment and the marker after it follow. -/
theorem exists_finds_of_spanStart (ht : '<' ∉ t) {a z : Text}
    (h : html.markComments t = a ++ (spanStart .comment ++ z)) :
    ∃ before c rest, Comment.pattern.Finds t before c rest ∧
      z = c.source ++ (spanEnd ++ html.markComments rest) := by
  rw [spanStart_eq, List.cons_append] at h
  obtain ⟨before, c, rest, hc, he | ⟨he, -⟩⟩ := exists_finds_of_markComments ht h
  · rw [← List.cons_append, ← spanStart_eq, List.append_cancel_left_eq] at he
    exact ⟨before, c, rest, hc, he⟩
  · rw [← List.cons_append, ← spanStart_eq] at he
    exact absurd he (spanStart_append_ne _ _ _)

theorem opening_prefix_of_spanStart (ht : '<' ∉ t) {a z : Text}
    (h : html.markComments t = a ++ (spanStart .comment ++ z)) : Comment.opening <+: z := by
  obtain ⟨_, c, rest, -, rfl⟩ := exists_finds_of_spanStart ht h
  rw [Comment.source, List.append_assoc, List.append_assoc]
  exact List.prefix_append ..

theorem isStyled_append_spanStart (ht : '<' ∉ t) {x a z : Text}
    (h : html.markComments t = a ++ ((⟨x ++ spanStart .comment⟩ : TextRun).source ++ z)) :
    (⟨x ++ spanStart .comment⟩ : TextRun).isStyled (html.markComments t) = false := by
  refine isStyled_eq_false_of_first h fun b r hb => ?_
  have hp := opening_prefix_of_spanStart ht (a := b ++ (Entity.gt ++ x)) (z := Entity.lt ++ r)
    (by simpa [TextRun.source] using hb)
  exact (List.prefix_append_right_inj _).1 hp

theorem markRuns_gt_append_spanStart (ht : '<' ∉ t) {a x z : Text} (hx : '&' ∉ x)
    (h : html.markComments t = a ++ (Entity.gt ++ (x ++ (spanStart .comment ++ z)))) :
    markRuns (html.markComments t) (Entity.gt ++ (x ++ (spanStart .comment ++ z))) =
      Entity.gt ++ (x ++ (spanStart .comment ++ markRuns (html.markComments t) z)) := by
  have hxS : '&' ∉ x ++ spanStart .comment := by
    rw [List.mem_append, not_or]
    exact ⟨hx, by decide⟩
  have hp : Comment.opening <+: z :=
    opening_prefix_of_spanStart ht (a := a ++ (Entity.gt ++ x)) (by simpa using h)
  rw [← List.append_assoc x, markRuns_gt_append hxS, List.append_assoc]
  intro v z' hz hv
  subst hz
  cases v with
  | nil =>
    rw [List.append_nil]
    refine isStyled_append_spanStart ht (a := a) (z := z') ?_
    rw [h]
    simp [TextRun.source]
  | cons d v =>
    -- the comment follows at once
    obtain ⟨rfl, -⟩ := List.cons_prefix_cons.1 hp
    exact absurd List.mem_cons_self hv

/-- The marker before a comment stays as it is, and what stands before it is searched on its own. -/
theorem markRuns_append_spanStart (ht : '<' ∉ t) {a g z : Text} (hg : '<' ∉ g)
    (h : html.markComments t = a ++ (g ++ (spanStart .comment ++ z))) :
    markRuns (html.markComments t) (g ++ (spanStart .comment ++ z)) =
      markRuns (html.markComments t) g ++ (spanStart .comment ++ markRuns (html.markComments t) z) := by
  have hS : '&' ∉ spanStart .comment := by decide
  induction g using TextRun.pattern.segments_induction generalizing a with
  | nil => rw [List.nil_append, markRuns_append_of_not_mem hS, markRuns_nil, List.nil_append]
  | hit g run rest hf ih =>
    rw [TextRun.pattern_front?] at hf
    obtain ⟨rfl, hn, hamp⟩ := TextRun.front?_eq_some_iff.1 hf
    have hf' : TextRun.front? (run.source ++ rest ++ (spanStart .comment ++ z)) =
        some (run, rest ++ (spanStart .comment ++ z)) :=
      TextRun.front?_eq_some_iff.2 ⟨List.append_assoc .., hn, hamp⟩
    have hr := ih (a := a ++ run.source) (fun hm => hg (List.mem_append_right _ hm)) (by simpa using h)
    rw [markRuns_of_front? hf', hr, markRuns_of_front? hf, List.append_assoc]
  | gap c g hf ih =>
    simp only [List.mem_cons, not_or] at hg
    cases hf' : TextRun.front? (c :: (g ++ (spanStart .comment ++ z))) with
    | none =>
      rw [List.cons_append, markRuns_of_front?_eq_none hf', ih (a := a ++ [c]) hg.2 (by simpa using h),
        markRuns_of_front?_eq_none hf]
      rfl
    | some f =>
      -- the run that begins here ends with the marker
      obtain ⟨run, rest⟩ := f
      rw [← List.cons_append, spanStart_eq, List.cons_append] at hf'
      obtain ⟨x, hx, hxa⟩ := TextRun.exists_of_front?_append_cons hf hf' (by decide) (by decide)
      have hw : markRuns (html.markComments t) (c :: g) = c :: g := by
        rw [hx]
        simpa using markRuns_gt_append (w := html.markComments t) (x := x) (y := []) hxa
          (by simp [Entity.lt])
      rw [hw, hx, List.append_assoc, List.append_assoc]
      refine markRuns_gt_append_spanStart ht (a := a) hxa ?_
      rw [h, hx, List.append_assoc]

end HtmlHighlight.Renderer
