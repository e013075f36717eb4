import HtmlHighlight.Proofs.CommentMarks

/-!
# Markers within tags

Before the pass over tags, a tag goes from an opening bracket to the first closing one, and what stands in
between may hold a marker: a comment may begin there. It holds no more than that one marker
(`tagsHoldOne_markBeforeTags`), since the marker before a comment is followed by the comment, and every other
marker follows a closing bracket with no ampersand in between.
-/

namespace HtmlHighlight

/-- A closing bracket cannot overlap what stands before an ampersand of its own. -/
theorem Entity.gt_infix_of_append {a b : Text} (ha : '&' ∉ a) (h : Entity.gt <:+: a ++ b) :
    Entity.gt <:+: b := by
  obtain ⟨p, q, he⟩ := h
  rw [Entity.gt_eq, List.append_assoc, List.cons_append] at he
  obtain ⟨p', rfl, hb⟩ := Text.exists_of_append_eq_append_cons ha he.symm
  exact ⟨p', q, by rw [hb, Entity.gt_eq]; simp⟩

theorem Entity.gt_infix_of_lt_append {b : Text} (h : Entity.gt <:+: Entity.lt ++ b) : Entity.gt <:+: b := by
  rw [Entity.lt_eq, List.cons_append, List.infix_cons_iff] at h
  rcases h with ⟨q, hq⟩ | h
  · simp [Entity.gt] at hq
  · exact Entity.gt_infix_of_append (by decide) h

namespace Renderer

/-- A text holds no brackets but those of one marker before a comment, if that. -/
def HoldsOne (s : Text) : Prop :=
  '<' ∉ s ∨ ∃ a b, s = a ++ (spanStart .comment ++ b) ∧ '<' ∉ a ∧ '<' ∉ b

/-- This holds of all that stands between an opening bracket and the first closing one after it. -/
def TagsHoldOne (s : Text) : Prop :=
  ∀ a i b, s = a ++ (Entity.lt ++ (i ++ (Entity.gt ++ b))) → ¬ Entity.gt <:+: i → HoldsOne i

theorem tagsHoldOne_markComments {t : Text} (ht : '<' ∉ t) : TagsHoldOne (html.markComments t) := by
  intro a i b he hi
  by_cases hm : '<' ∈ i
  · obtain ⟨i₁, i₂, rfl, hi₁⟩ := List.eq_append_cons_of_mem hm
    have h : html.markComments t = (a ++ (Entity.lt ++ i₁)) ++ '<' :: (i₂ ++ (Entity.gt ++ b)) := by
      rw [he]
      simp
    obtain ⟨before, c, rest, hf, hs | ⟨-, hs⟩⟩ := exists_finds_of_markComments ht h
    · -- the first bracket is that of the marker before a comment, and the comment holds a closing bracket
      obtain ⟨i₃, hi₃, hc⟩ := Text.exists_of_append_eq_append_cons (s := spanStart .comment) (by decide)
        (show spanStart .comment ++ _ = ('<' :: i₂) ++ '&' :: (['g', 't', ';'] ++ b) from hs.symm)
      refine .inr ⟨i₁, i₃, by rw [hi₃], hi₁, fun hm₃ => ?_⟩
      rcases List.append_eq_append_iff.1 hc with ⟨u, hu, -⟩ | ⟨u, hu, -⟩
      · refine hi ⟨i₁ ++ (spanStart .comment ++ (Comment.opening ++ c.body ++ ['-', '-'])), u, ?_⟩
        rw [hi₃, hu, Comment.source_eq_append_gt]
        simp
      · refine ht ?_
        rw [hf.eq_append, Comment.pattern_source, hu]
        simp [hm₃]
    · refine absurd (Entity.gt_infix_of_lt_append ?_) fun hg =>
        hi (hg.trans (List.prefix_append i₁ _).isInfix)
      rcases List.suffix_or_suffix_of_suffix hs (List.suffix_append a _) with hg | hg
      · exact hg.isInfix
      · rw [hg.eq_of_length_le (by simp [Entity.gt, Entity.lt])]
  · exact .inl hm

/-- Between a closing bracket and the next ampersand there may be anything. -/
theorem TagsHoldOne.replace {before x y after : Text} (hy : '&' ∉ y)
    (h : TagsHoldOne (before ++ (Entity.gt ++ (x ++ after)))) :
    TagsHoldOne (before ++ (Entity.gt ++ (y ++ after))) := by
  intro a i b he hi
  rcases List.append_eq_append_iff.1 he with ⟨a', rfl, hr⟩ | ⟨c, rfl, hr⟩
  · -- the opening bracket stands after the closing one
    cases a' with
    | nil => simp [Entity.gt, Entity.lt] at hr
    | cons d a' =>
      obtain ⟨-, hr₀⟩ := List.cons_eq_cons.1
        (show '&' :: (['g', 't', ';'] ++ (y ++ after)) = d :: (a' ++ _) from hr)
      obtain ⟨a₀, rfl, hr₁⟩ := Text.exists_of_append_eq_append_cons (by decide) hr₀
      obtain ⟨a₁, rfl, hr₂⟩ := Text.exists_of_append_eq_append_cons hy hr₁
      refine h (before ++ (Entity.gt ++ (x ++ a₁))) i b ?_ hi
      rw [hr₂, Entity.lt_eq]
      simp [Entity.gt]
  · -- it stands before it, so the interior ends there at the latest
    have hcut : Text.cutAt? Entity.gt (Entity.lt ++ i ++ (Entity.gt ++ b)) = some (Entity.lt ++ i, b) :=
      Text.cutAt?_append_of_not_infix (by decide) (fun hm => hi (Entity.gt_infix_of_lt_append hm)) b
    obtain ⟨p, q, hp, -⟩ := Text.exists_cutAt? c Entity.gt []
    have hq := Text.cutAt?_append hp (y ++ after)
    rw [List.append_nil, List.append_assoc, ← hr, ← List.append_assoc, hcut] at hq
    obtain ⟨rfl, -⟩ := Prod.mk.inj (Option.some.inj hq)
    have hc := Text.eq_append_of_cutAt? hp
    rw [List.append_nil] at hc
    refine h a i (q ++ (x ++ after)) ?_ hi
    rw [List.append_assoc a c, ← List.append_assoc c, hc]
    simp

theorem TagsHoldOne.markText {s : Text} (h : TagsHoldOne s) : TagsHoldOne (html.markText s) := by
  refine Pattern.render_tokenize (motive := TagsHoldOne) (fun before run after hf hn => ?_) h
  rw [TextRun.pattern_front?] at hf
  obtain ⟨-, -, hamp⟩ := TextRun.front?_eq_some_iff.1 hf
  rw [TextRun.pattern_source, TextRun.source, List.append_assoc, List.append_assoc] at hn
  rw [TextRun.tokens]
  split
  next =>
    have hs : '&' ∉ html.style .text run.content := by
      rw [html_style, List.mem_append, List.mem_append, not_or, not_or]
      exact ⟨by decide, hamp, by decide⟩
    simpa [renderToken] using hn.replace hs
  next => simpa [renderToken, TextRun.source] using hn

theorem tagsHoldOne_markBeforeTags {t : Text} (ht : '<' ∉ t) : TagsHoldOne (html.markBeforeTags t) :=
  (tagsHoldOne_markComments ht).markText

theorem HoldsOne.of_append {a b : Text} (ha : '<' ∉ a) (h : HoldsOne (a ++ b)) : HoldsOne b := by
  rcases h with hm | ⟨x, y, he, hx, hy⟩
  · exact .inl fun hb => hm (List.mem_append_right _ hb)
  · rw [spanStart_eq, List.cons_append] at he
    obtain ⟨x', rfl, rfl⟩ := Text.exists_of_append_eq_append_cons ha he
    refine .inr ⟨x', y, by rw [spanStart_eq, List.cons_append], fun hm => hx (List.mem_append_right _ hm), hy⟩

theorem HoldsOne.of_append_slash {a : Text} (isSelfClosing : Bool)
    (h : HoldsOne (a ++ Tag.slash isSelfClosing)) : HoldsOne a := by
  cases isSelfClosing with
  | false => simpa [Tag.slash] using h
  | true =>
    rcases h with hm | ⟨x, y, he, hx, hy⟩
    · exact .inl fun ha => hm (List.mem_append_left _ ha)
    · rcases List.eq_nil_or_concat y with rfl | ⟨z, d, rfl⟩
      · -- a marker does not end in a slash
        have hl := congrArg List.getLast? he
        rw [List.getLast?_append_of_ne_nil _ (by decide), List.append_nil,
          List.getLast?_append_of_ne_nil _ (by decide)] at hl
        exact absurd hl (by decide)
      · rw [List.concat_eq_append, ← List.append_assoc, ← List.append_assoc] at he
        obtain ⟨rfl, -⟩ := List.append_inj' he rfl
        exact .inr ⟨x, z, List.append_assoc .., hx, fun hm => hy (by simp [hm])⟩

/-- What is searched for attributes holds one marker at most. -/
theorem TagsHoldOne.region {s a b : Text} {t : Tag} (h : TagsHoldOne s) (hs : s = a ++ (t.source ++ b))
    (hf : Tag.front? (t.source ++ b) = some (t, b)) : HoldsOne t.region := by
  obtain ⟨-, -, hgt⟩ := Tag.front?_eq_some hf
  have hn : ∀ c, c ≠ '/' → Tag.isNameChar c = false → c ∉ Tag.slash t.isEnd ++ t.name := by
    intro c hc hname
    rw [List.mem_append, not_or]
    exact ⟨Tag.not_mem_slash hc _, Tag.not_mem_name hf hname⟩
  apply HoldsOne.of_append_slash t.isSelfClosing
  apply HoldsOne.of_append (hn '<' (by decide) (by decide))
  refine h a _ b ?_ fun hi => hgt (Entity.gt_infix_of_append (hn '&' (by decide) (by decide)) hi)
  rw [hs, Tag.source, Tag.opening]
  simp only [List.append_assoc]

end Renderer

end HtmlHighlight
