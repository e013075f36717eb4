import HtmlHighlight.Proofs.RunMarks
import HtmlHighlight.Proofs.RunRecognition

/-!
# Runs before comments

Whether a run stands before a comment is judged where its string occurs first. In a text with comments marked for web
pages this is no loss, since the runs before comments are those that end with the marker of a comment
(`spanStart_suffix_iff`), which is part of their strings. So the string of such a run occurs only before comments
(`isStyled_append_spanStart`), and the string of another run occurs before `!--` only if an opening of a comment
stands in the text that begins no comment (`spanStart_suffix_of_opening`).
-/

namespace HtmlHighlight

namespace Text

/-- A text that does not hold a character stands before that character or after it. -/
theorem before_or_after {o x y a z : Text} {c : Char} (hn : o ≠ []) (hc : c ∉ o)
    (h : x ++ c :: y = a ++ (o ++ z)) :
    (∃ z', x = a ++ (o ++ z')) ∨ ∃ a', a = x ++ c :: a' ∧ y = a' ++ (o ++ z) := by
  rcases List.append_eq_append_iff.1 h with ⟨b, rfl, hb⟩ | ⟨b, rfl, hb⟩
  · rcases List.cons_eq_append_iff.1 hb with ⟨rfl, ho⟩ | ⟨a', rfl, hy⟩
    · obtain ⟨d, o, rfl⟩ := List.exists_cons_of_ne_nil hn
      obtain ⟨rfl, -⟩ := List.cons_eq_cons.1 ho
      exact absurd List.mem_cons_self hc
    · exact .inr ⟨a', rfl, hy⟩
  · obtain ⟨z', rfl, -⟩ := exists_of_append_eq_append_cons hc hb
    exact .inl ⟨z', rfl⟩

/-- A text that does not hold a character, at the end of one that does, stands after that character. -/
theorem suffix_of_append_cons {a x b s : Text} {c : Char} (hc : c ∉ s) (h : a ++ c :: x = b ++ s) : s <:+ x := by
  rcases List.append_eq_append_iff.1 h with ⟨e, -, he⟩ | ⟨e, -, rfl⟩
  · rcases List.cons_eq_append_iff.1 he with ⟨-, rfl⟩ | ⟨y, -, rfl⟩
    · exact absurd List.mem_cons_self hc
    · exact List.suffix_append y s
  · exact absurd (List.mem_append_right e List.mem_cons_self) hc

end Text

namespace Comment

/-- Each opening of a comment begins a comment that is found. -/
def OpeningsBegin (s : Text) : Prop :=
  ∀ a z, s = a ++ (opening ++ z) → ∃ c rest, pattern.Finds s a c rest

/-- In terms of places: each place where an opening stands is that of a comment. -/
theorem openingsBegin_iff {s : Text} :
    OpeningsBegin s ↔ ∀ k ≤ s.length, opening <+: s.drop k → k ∈ (pattern.placements 0 s).map Prod.fst := by
  simp only [List.mem_map, Prod.exists, Pattern.mem_placements_iff, Nat.zero_add]
  constructor
  · rintro h k hk ⟨z, hz⟩
    obtain ⟨c, rest, hc⟩ := h (s.take k) z (by rw [hz, List.take_append_drop])
    exact ⟨k, c, ⟨_, rest, hc, (List.length_take_of_le hk).symm⟩, rfl⟩
  · rintro h a z rfl
    obtain ⟨k, c, ⟨b, rest, hc, rfl⟩, hk⟩ := h a.length (by simp) (by simp)
    obtain rfl := (List.append_inj hc.eq_append.symm hk).1
    exact ⟨c, rest, hc⟩

instance (s : Text) : Decidable (OpeningsBegin s) :=
  decidable_of_iff _ openingsBegin_iff.symm

namespace OpeningsBegin

theorem of_front? {s rest : Text} {c : Comment} (h : OpeningsBegin s) (hf : pattern.front? s = some (c, rest)) :
    OpeningsBegin rest := by
  rintro a z rfl
  obtain ⟨d, q, hd⟩ := h (c.source ++ a) z (by rw [pattern.eq_append hf, pattern_source, List.append_assoc])
  rcases hd.eq_or_exists hf with ⟨he, -⟩ | ⟨b, hb, hd⟩
  · exact absurd (List.append_eq_nil_iff.1 he).1 (pattern.source_ne_nil c)
  · exact ⟨d, q, List.append_cancel_left hb ▸ hd⟩

theorem of_cons {e : Char} {s : Text} (h : OpeningsBegin (e :: s)) (hf : pattern.front? (e :: s) = none) :
    OpeningsBegin s := by
  rintro a z rfl
  obtain ⟨d, q, hd⟩ := h (e :: a) z rfl
  obtain ⟨b, hb, hd⟩ := hd.exists_of_cons hf
  exact ⟨d, q, (List.cons_eq_cons.1 hb).2 ▸ hd⟩

/-- No opening stands within a comment. -/
theorem eq_nil_of_source_eq {s rest a z : Text} {c : Comment} (h : OpeningsBegin s)
    (hf : pattern.front? s = some (c, rest)) (hc : c.source = a ++ (opening ++ z)) : a = [] := by
  obtain ⟨d, q, hd⟩ := h a (z ++ rest) (by
    rw [pattern.eq_append hf, pattern_source, hc]
    simp only [List.append_assoc])
  refine ((hd.eq_or_exists hf).resolve_right ?_).1
  rintro ⟨b, hb, -⟩
  have ho : 0 < opening.length := by decide
  have hl := congrArg List.length hc
  rw [hb, pattern_source] at hl
  simp only [List.length_append] at hl
  omega

end OpeningsBegin

end Comment

namespace Renderer

/-- If each opening begins a comment, the marker of a comment stands before each opening in the marked text. -/
theorem spanStart_suffix_of_opening {s w z : Text} (h : Comment.OpeningsBegin s)
    (hw : html.markComments s = w ++ (Comment.opening ++ z)) : spanStart .comment <:+ w := by
  have hlt : '<' ∉ Comment.opening := by decide
  have hne : Comment.opening ≠ [] := by decide
  induction s using Comment.pattern.segments_induction generalizing w with
  | nil => simp [markComments_nil, Comment.opening_eq] at hw
  | hit s c rest hf ih =>
    rw [markComments_of_front? (Comment.pattern_front? s ▸ hf), Comment.opening_eq, List.cons_append] at hw
    obtain ⟨a, rfl, ha⟩ := Text.exists_of_append_eq_append_cons (by decide) hw
    rw [← List.cons_append, ← Comment.opening_eq, spanEnd_eq, List.cons_append] at ha
    rcases Text.before_or_after hne hlt ha with ⟨z', hc⟩ | ⟨b, rfl, hb⟩
    · rw [h.eq_nil_of_source_eq hf hc, List.append_nil]
    · rw [Comment.opening_eq, List.cons_append] at hb
      obtain ⟨w', rfl, hrest⟩ := Text.exists_of_append_eq_append_cons (by decide) hb
      refine (ih (h.of_front? hf) hrest).trans ?_
      exact ⟨spanStart .comment ++ (c.source ++ spanEnd), by simp [spanEnd_eq]⟩
  | gap e s hf ih =>
    cases w with
    | nil =>
      -- the opening would begin a comment at the first character
      obtain ⟨s', hs, -⟩ := exists_of_markComments_eq_append hlt hw
      obtain ⟨c, rest, hc⟩ := h [] s' hs
      obtain ⟨b, hb, -⟩ := hc.exists_of_cons hf
      cases hb
    | cons d w =>
      rw [markComments_of_front?_eq_none (Comment.pattern_front? (e :: s) ▸ hf)] at hw
      exact (ih (h.of_cons hf) (List.cons_eq_cons.1 hw).2).trans (List.suffix_cons d w)

/-- The marker of a comment does not reach over a closing bracket. -/
theorem spanStart_suffix_of_gt_append {a x : Text} (h : spanStart .comment <:+ a ++ (Entity.gt ++ x)) :
    spanStart .comment <:+ x := by
  obtain ⟨b, hb⟩ := h
  refine Text.suffix_of_append_cons (a := a ++ ['&', 'g', 't']) (b := b) (c := ';') (by decide) ?_
  rw [hb]
  simp [Entity.gt]

/-- A run of the marked text, with `rest` after it, ends where a comment of the text `s` begins: its closing bracket is
the first character of the comment. -/
def BeginsComment (s rest : Text) : Prop :=
  ∃ before c after, Comment.pattern.Finds s before c after ∧
    Entity.lt ++ rest = c.source ++ (spanEnd ++ html.markComments after)

variable {t before rest : Text} {run : TextRun}

/-- The runs that end where a comment begins are those that end with the marker of a comment. -/
theorem spanStart_suffix_iff (ht : '<' ∉ t) (h : run.OccursIn (html.markComments t) before rest) :
    spanStart .comment <:+ run.content ↔ BeginsComment t rest := by
  constructor
  · rintro ⟨x, hx⟩
    refine exists_finds_of_spanStart ht (a := before ++ (Entity.gt ++ x)) ?_
    rw [h.eq_append, TextRun.source, ← hx]
    simp only [List.append_assoc]
  · rintro ⟨b, c, after, hc, he⟩
    obtain ⟨a, ha⟩ := markComments_of_finds hc
    rw [← he, h.eq_append, TextRun.source] at ha
    have hends : (before ++ (Entity.gt ++ run.content)) ++ (Entity.lt ++ rest) =
        (a ++ spanStart .comment) ++ (Entity.lt ++ rest) := by
      simpa only [List.append_assoc] using ha
    exact spanStart_suffix_of_gt_append ⟨a, (List.append_cancel_right hends).symm⟩

theorem isStyled_eq_false_of_beginsComment (ht : '<' ∉ t) (h : run.OccursIn (html.markComments t) before rest)
    (hc : BeginsComment t rest) : run.isStyled (html.markComments t) = false := by
  obtain ⟨x, hx⟩ := (spanStart_suffix_iff ht h).2 hc
  obtain ⟨content⟩ := run
  subst hx
  exact isStyled_append_spanStart ht h.eq_append

theorem isStyled_of_not_beginsComment (ht : '<' ∉ t) (hopen : Comment.OpeningsBegin t)
    (h : run.OccursIn (html.markComments t) before rest) (hc : ¬ BeginsComment t rest)
    (hb : ¬ run.Blank) : run.isStyled (html.markComments t) = true := by
  rw [← TextRun.allBlank_iff, Bool.not_eq_true] at hb
  by_contra hs
  rw [Bool.not_eq_true] at hs
  -- where the string of the run stands before an opening, the run ends with the marker of a comment
  obtain ⟨b, z, hw, -⟩ := exists_of_isStyled_eq_false h.eq_append hb hs
  have hmark : spanStart .comment <:+ b ++ (Entity.gt ++ run.content) := by
    refine spanStart_suffix_of_opening hopen (z := z) ?_
    rw [hw, TextRun.source]
    simp [Comment.opening]
  exact hc ((spanStart_suffix_iff ht h).1 (spanStart_suffix_of_gt_append hmark))

/-- What is written for a run of a text, between the pieces before and after it. -/
theorem markText_eq_markRuns_append {w : Text} (h : run.OccursIn w before rest) :
    html.markText w = markRuns w before ++ html.render (run.tokens w) ++ markRuns w rest := by
  have hf : TextRun.front? (run.source ++ rest) = some (run, rest) := h.front?
  calc html.markText w
      = markRuns w (before ++ (run.source ++ rest)) := by rw [markText_eq_markRuns, ← h.eq_append]
    _ = markRuns w before ++ markRuns w (run.source ++ rest) :=
        markRuns_append (TextRun.parts_source before run rest)
    _ = markRuns w before ++ html.render (run.tokens w) ++ markRuns w rest := by
        rw [markRuns_of_front? hf, List.append_assoc]

/-- In a prepared source with its comments marked for web pages, a run that ends where a comment begins is copied. If
each opening begins a comment, all other runs that are not blank are styled. -/
theorem markText_markComments_of_occursIn (source : Text) :
    (∀ (run : TextRun) (before rest : Text),
      run.OccursIn (html.markComments (prepare source)) before rest → BeginsComment (prepare source) rest →
      html.markText (html.markComments (prepare source)) =
        markRuns (html.markComments (prepare source)) before ++ run.source ++
          markRuns (html.markComments (prepare source)) rest) ∧
    (Comment.OpeningsBegin (prepare source) → ∀ (run : TextRun) (before rest : Text),
      run.OccursIn (html.markComments (prepare source)) before rest → ¬ BeginsComment (prepare source) rest →
      ¬ run.Blank →
      html.markText (html.markComments (prepare source)) =
        markRuns (html.markComments (prepare source)) before ++
          (Entity.gt ++ html.style .text run.content ++ Entity.lt) ++
          markRuns (html.markComments (prepare source)) rest) := by
  have ht : '<' ∉ prepare source := (Entity.not_mem_encode source.unindent).1
  refine ⟨fun run before rest h hc => ?_, fun hopen run before rest h hc hb => ?_⟩
  · rw [markText_eq_markRuns_append h, TextRun.tokens, isStyled_eq_false_of_beginsComment ht h hc]
    simp [renderToken]
  · rw [markText_eq_markRuns_append h, TextRun.tokens, isStyled_of_not_beginsComment ht hopen h hc hb]
    simp [renderToken]

/-- The same run stands by itself and before a comment. -/
theorem markText_markComments_of_occursIn_repeated :
    Comment.OpeningsBegin (prepare ">x<b>x<!--y-->".toList) ∧
    (⟨"x".toList⟩ : TextRun).OccursIn (html.markComments (prepare ">x<b>x<!--y-->".toList))
      [] "b&gt;x<span class=\"highlight-comment\">&lt;!--y--&gt;</span>".toList ∧
    ¬ BeginsComment (prepare ">x<b>x<!--y-->".toList)
      "b&gt;x<span class=\"highlight-comment\">&lt;!--y--&gt;</span>".toList ∧
    html.markText (html.markComments (prepare ">x<b>x<!--y-->".toList)) =
      markRuns (html.markComments (prepare ">x<b>x<!--y-->".toList)) [] ++
        (Entity.gt ++ html.style .text "x".toList ++ Entity.lt) ++
        markRuns (html.markComments (prepare ">x<b>x<!--y-->".toList))
          "b&gt;x<span class=\"highlight-comment\">&lt;!--y--&gt;</span>".toList ∧
    (⟨"x<span class=\"highlight-comment\">".toList⟩ : TextRun).OccursIn
      (html.markComments (prepare ">x<b>x<!--y-->".toList)) "&gt;x&lt;b".toList "!--y--&gt;</span>".toList ∧
    BeginsComment (prepare ">x<b>x<!--y-->".toList) "!--y--&gt;</span>".toList ∧
    html.markText (html.markComments (prepare ">x<b>x<!--y-->".toList)) =
      markRuns (html.markComments (prepare ">x<b>x<!--y-->".toList)) "&gt;x&lt;b".toList ++
        "&gt;x<span class=\"highlight-comment\">&lt;".toList ++
        markRuns (html.markComments (prepare ">x<b>x<!--y-->".toList)) "!--y--&gt;</span>".toList := by
  have ht : '<' ∉ prepare ">x<b>x<!--y-->".toList := (Entity.not_mem_encode _).1
  have hopen : Comment.OpeningsBegin (prepare ">x<b>x<!--y-->".toList) := by decide +kernel
  have hself : (⟨"x".toList⟩ : TextRun).OccursIn (html.markComments (prepare ">x<b>x<!--y-->".toList))
      [] "b&gt;x<span class=\"highlight-comment\">&lt;!--y--&gt;</span>".toList := by decide +kernel
  have hlast : (⟨"x<span class=\"highlight-comment\">".toList⟩ : TextRun).OccursIn
      (html.markComments (prepare ">x<b>x<!--y-->".toList)) "&gt;x&lt;b".toList
      "!--y--&gt;</span>".toList := by decide +kernel
  have hnot := mt (spanStart_suffix_iff ht hself).2 (by decide +kernel)
  have hc := (spanStart_suffix_iff ht hlast).1 (by decide +kernel)
  exact ⟨hopen, hself, hnot,
    (markText_markComments_of_occursIn _).2 hopen _ _ _ hself hnot (by decide), hlast, hc,
    (markText_markComments_of_occursIn _).1 _ _ _ hlast hc⟩

end Renderer

end HtmlHighlight
