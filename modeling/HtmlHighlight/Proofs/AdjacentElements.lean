import HtmlHighlight.Proofs.Fusion

/-!
# Elements side by side

Two texts, the first ending with a closing bracket and the second beginning with an opening one, are marked
independently of each other if neither opens a comment (`Renderer.mark_append`). Nothing that a pass finds
reaches over the place where they meet:

* `Comment.not_opening_infix_append`: no comment is opened there;
* `TextRun.parts_gt_lt`: no run of text stands there, and where no comment is opened it does not matter in
  which text a run occurs first (`TextRun.tokens_eq_of_not_infix`);
* `Renderer.markText_append_gt`: marked or not, the first text ends with its bracket, and no tag reaches
  beyond that.
-/

namespace HtmlHighlight

/-- No comment is opened over a closing bracket. -/
theorem Comment.not_opening_infix_append {a b : Text} (ha : ¬ opening <:+: a) (hb : ¬ opening <:+: b) :
    ¬ opening <:+: a ++ (Entity.gt ++ b) := by
  rw [← Text.cutAt?_eq_none_iff] at ha hb ⊢
  have hgt : Text.cutAt? opening (Entity.gt ++ b) = none := by
    -- the bracket is no opening, and after its ampersand there is none in it
    have htail : Text.cutAt? opening (['g', 't', ';'] ++ b) = none := by
      rw [opening_eq] at hb ⊢
      rw [Text.cutAt?_append_of_not_mem (by decide), hb, Option.map_none]
    rw [Entity.gt_eq, List.cons_append, Text.cutAt?, htail]
    rfl
  rw [opening_eq] at ha hgt ⊢
  rw [Entity.gt_eq, List.cons_append] at hgt ⊢
  rw [Text.cutAt?_append_cons (by decide) ha, hgt, Option.map_none]

namespace TextRun

/-- The search for runs may be cut between a closing and an opening bracket. -/
theorem parts_gt_lt (a b : Text) : pattern.Parts (a ++ Entity.gt) (Entity.lt ++ b) := by
  refine begins.parts (by decide) fun s _ => ?_
  show front? (s ++ Entity.gt ++ (Entity.lt ++ b)) = (front? (s ++ Entity.gt)).map _
  by_cases hs : s = []
  · -- a run that begins with the closing bracket would be empty
    subst hs
    rfl
  · have hcut := fun c => parts_gt s c s (List.suffix_refl s) hs
    have hgt := hcut []
    rw [List.append_nil] at hgt
    simp only [pattern_front?] at hcut hgt
    rw [List.append_assoc, hcut, hgt, Option.map_map]
    simp [Function.comp_def]

/-- A closing bracket at the end of a text holds no run. -/
theorem segments_gt : pattern.segments Entity.gt = Entity.gt.map .gap := by
  rw [Entity.gt_eq, Pattern.segments_of_front?_eq_none _ rfl, Pattern.segments_of_not_mem begins (by decide)]
  rfl

/-- Where no comment is opened, no run stands before a comment. -/
theorem beforeComment_eq_false {whole : Text} (h : ¬ Comment.opening <:+: whole) (run : TextRun) :
    run.beforeComment whole = false := by
  rw [beforeComment]
  split
  next before rest hc =>
    have hw : whole = before ++ Entity.gt ++ run.content ++ (Entity.lt ++ rest) := by
      simpa [source] using Text.eq_append_of_cutAt? hc
    cases ha : Text.after? Comment.opening (Entity.lt ++ rest) with
    | none => rfl
    | some s =>
      refine absurd ?_ h
      rw [hw, Text.after?_eq_some_iff.1 ha, ← List.append_assoc]
      exact List.infix_append ..
  next => rfl

theorem tokens_eq_of_not_infix {v w : Text} (hv : ¬ Comment.opening <:+: v)
    (hw : ¬ Comment.opening <:+: w) : tokens v = tokens w := by
  funext run
  rw [tokens, tokens, isStyled, isStyled, beforeComment_eq_false hv, beforeComment_eq_false hw]

end TextRun

namespace Renderer

variable (r : Renderer)

theorem markComments_eq_self_of_not_infix {t : Text} (h : ¬ Comment.opening <:+: t) :
    r.markComments t = t := by
  refine markComments_eq_self fun a b c he => h ⟨a, b ++ (Comment.closing ++ c), ?_⟩
  rw [he]
  simp only [List.append_assoc]

/-- A closing bracket at the end of a text stays there when runs are marked. -/
theorem markText_append_gt (a : Text) : ∃ b, r.markText (a ++ Entity.gt) = b ++ Entity.gt := by
  have hcut := TextRun.parts_gt a []
  rw [List.append_nil] at hcut
  refine ⟨r.render (TextRun.pattern.tokenize (TextRun.tokens (a ++ Entity.gt)) a), ?_⟩
  rw [markText, TextRun.tokenize, Pattern.tokenize_append hcut, render_append,
    Pattern.render_of_segments TextRun.segments_gt]

/-- Runs are marked in each of two texts that meet between brackets as if it stood alone. -/
theorem markText_append {a b : Text} (ha : ¬ Comment.opening <:+: a ++ Entity.gt)
    (hb : ¬ Comment.opening <:+: Entity.lt ++ b)
    (hab : ¬ Comment.opening <:+: a ++ Entity.gt ++ (Entity.lt ++ b)) :
    r.markText (a ++ Entity.gt ++ (Entity.lt ++ b)) =
      r.markText (a ++ Entity.gt) ++ r.markText (Entity.lt ++ b) := by
  simp only [markText, TextRun.tokenize]
  rw [Pattern.tokenize_append (TextRun.parts_gt_lt a b), render_append]
  rw [TextRun.tokens_eq_of_not_infix hab ha]
  rw [TextRun.tokens_eq_of_not_infix ha hb]

/-- Two texts that open no comment are marked independently of each other if the first ends with a closing
bracket and the second begins with an opening one, whatever the renderer writes. -/
theorem mark_append {a b : Text} (ha : ¬ Comment.opening <:+: a) (hb : ¬ Comment.opening <:+: b)
    (hgt : Entity.gt <:+ a) (hlt : Entity.lt <+: b) : r.mark (a ++ b) = r.mark a ++ r.mark b := by
  obtain ⟨a, rfl⟩ := hgt
  obtain ⟨b, rfl⟩ := hlt
  have hab : ¬ Comment.opening <:+: a ++ Entity.gt ++ (Entity.lt ++ b) := by
    rw [List.append_assoc]
    exact Comment.not_opening_infix_append (fun h => ha (h.trans (List.prefix_append ..).isInfix)) hb
  obtain ⟨u, hu⟩ := r.markText_append_gt a
  calc r.mark (a ++ Entity.gt ++ (Entity.lt ++ b))
      = r.markTags (r.markText (a ++ Entity.gt) ++ r.markText (Entity.lt ++ b)) := by
        rw [mark, markBeforeTags, markComments_eq_self_of_not_infix r hab, markText_append r ha hb hab]
    _ = r.markTags (r.markText (a ++ Entity.gt)) ++ r.markTags (r.markText (Entity.lt ++ b)) := by
        rw [hu, markTags_append_gt]
    _ = r.mark (a ++ Entity.gt) ++ r.mark (Entity.lt ++ b) := by
        rw [mark, mark, markBeforeTags, markBeforeTags, markComments_eq_self_of_not_infix r ha,
          markComments_eq_self_of_not_infix r hb]

/-- A renderer whose markup reads as brackets itself. -/
def bracketing : Renderer where
  style _ s := Entity.lt ++ s ++ Entity.gt

/-- The same run of text stands in both texts. -/
theorem mark_append_same_run :
    ¬ Comment.opening <:+: "&lt;p&gt;x&lt;/p&gt;".toList ∧
    ¬ Comment.opening <:+: "&lt;p&gt;x&lt;a &lt;b&gt;y".toList ∧
    Entity.gt <:+ "&lt;p&gt;x&lt;/p&gt;".toList ∧ Entity.lt <+: "&lt;p&gt;x&lt;a &lt;b&gt;y".toList ∧
    bracketing.mark ("&lt;p&gt;x&lt;/p&gt;".toList ++ "&lt;p&gt;x&lt;a &lt;b&gt;y".toList) =
      bracketing.mark "&lt;p&gt;x&lt;/p&gt;".toList ++ bracketing.mark "&lt;p&gt;x&lt;a &lt;b&gt;y".toList := by
  have ha : ¬ Comment.opening <:+: "&lt;p&gt;x&lt;/p&gt;".toList := by decide
  have hb : ¬ Comment.opening <:+: "&lt;p&gt;x&lt;a &lt;b&gt;y".toList := by decide
  have hgt : Entity.gt <:+ "&lt;p&gt;x&lt;/p&gt;".toList := by decide
  have hlt : Entity.lt <+: "&lt;p&gt;x&lt;a &lt;b&gt;y".toList := by decide
  exact ⟨ha, hb, hgt, hlt, mark_append bracketing ha hb hgt hlt⟩

end Renderer

end HtmlHighlight
