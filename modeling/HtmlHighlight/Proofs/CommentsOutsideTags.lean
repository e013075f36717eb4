import HtmlHighlight.Proofs.RoundTrip
import HtmlHighlight.Proofs.TagSequence

/-!
# Comments outside tags

Where no comment begins within a tag, the passes before that over tags leave all tags as they are
(`hits_markBeforeTags`), so the pass over tags comes upon no marker and cuts none: deleting the markers of the
output for web pages gives back what the passes read as it is, entities included (`withoutMarkers_highlightHtml`).
-/

namespace HtmlHighlight

/-- None of the comments begins within one of the tags. -/
def Outside (tags : List (Nat × Tag)) (comments : List (Nat × Comment)) : Prop :=
  ∀ t ∈ tags, ∀ c ∈ comments, ¬ (t.1 ≤ c.1 ∧ c.1 < t.1 + t.2.source.length)

instance (tags : List (Nat × Tag)) (comments : List (Nat × Comment)) : Decidable (Outside tags comments) :=
  inferInstanceAs (Decidable (∀ t ∈ tags, ∀ c ∈ comments, ¬ _))

/-- No tag that is found in a text holds the first character of a comment that is found in it. -/
def CommentsOutsideTags (s : Text) : Prop :=
  Outside (Tag.pattern.placements 0 s) (Comment.pattern.placements 0 s)

instance (s : Text) : Decidable (CommentsOutsideTags s) :=
  inferInstanceAs (Decidable (Outside _ _))

/-- In terms of what stands before a match: no comment begins at or after the beginning of a tag and before its
end. -/
theorem commentsOutsideTags_iff {s : Text} :
    CommentsOutsideTags s ↔ ∀ a t b c r q, Tag.pattern.Finds s a t r → Comment.pattern.Finds s b c q →
      ¬ (a.length ≤ b.length ∧ b.length < a.length + t.source.length) := by
  constructor
  · intro h a t b c r q ht hc
    exact h (a.length, t) (Pattern.mem_placements_iff.2 ⟨a, r, ht, (Nat.zero_add _).symm⟩)
      (b.length, c) (Pattern.mem_placements_iff.2 ⟨b, q, hc, (Nat.zero_add _).symm⟩)
  · rintro h ⟨k, t⟩ hk ⟨j, c⟩ hj
    obtain ⟨a, r, ht, rfl⟩ := Pattern.mem_placements_iff.1 hk
    obtain ⟨b, q, hc, rfl⟩ := Pattern.mem_placements_iff.1 hj
    simpa using h a t b c r q ht hc

theorem Outside.mono {tags tags' : List (Nat × Tag)} {comments comments' : List (Nat × Comment)}
    (h : Outside tags comments) (ht : tags' ⊆ tags) (hc : comments' ⊆ comments) : Outside tags' comments' :=
  fun t hm c hm' => h t (ht hm) c (hc hm')

namespace Renderer

/-- A marker before a comment that begins in no tag leaves the tags as they are. -/
theorem hits_spanStart_append {n : Nat} {g : Text} {c : Comment} {comments : List (Nat × Comment)}
    (h : Outside (Tag.pattern.placements n (g ++ c.source)) ((n + g.length, c) :: comments)) :
    Tag.pattern.hits (g ++ (spanStart .comment ++ c.source)) = Tag.pattern.hits (g ++ c.source) := by
  rw [c.source_eq_lt_append] at h ⊢
  rcases Tag.hits_insert surroundsComments_html.unobtrusive g ("!--".toList ++ c.body ++ Comment.closing)
    n with he | ⟨-, t, -, -, k, -, -, hk, hlt, hgt⟩
  · exact he
  · exact absurd ⟨Nat.le_of_lt hlt, hgt⟩ (h _ hk _ List.mem_cons_self)

/-- Marking the comments of `s`, which stands after `g` in a text that begins at the place `n`, leaves the
tags as they are. -/
theorem hits_markComments {n : Nat} {g s : Text}
    (h : Outside (Tag.pattern.placements n (g ++ s)) (Comment.pattern.placements (n + g.length) s)) :
    Tag.pattern.hits (g ++ html.markComments s) = Tag.pattern.hits (g ++ s) := by
  induction s using Comment.pattern.segments_induction generalizing n g with
  | nil => rw [markComments_nil]
  | hit s c rest hf ih =>
    rw [Comment.pattern.placements_of_front? hf] at h
    obtain rfl : s = c.source ++ rest := Comment.pattern.eq_append hf
    -- up to the end of the comment only the marker before it matters; what follows is searched by itself
    have hparts := Tag.parts_comment g c rest
    rw [← List.append_assoc, Pattern.placements_append hparts] at h
    have hfront := hits_spanStart_append (h.mono (List.subset_append_left _ _) (List.Subset.refl _))
    have hrest := ih (n := n + (g ++ c.source).length) (g := [])
      (h.mono (List.subset_append_right _ _) (by simp [Nat.add_assoc]))
    rw [Comment.pattern_front?] at hf
    calc Tag.pattern.hits (g ++ html.markComments (c.source ++ rest))
        = Tag.pattern.hits (g ++ (html.style .comment c.source ++ html.markComments rest)) := by
          rw [markComments_of_front? hf, html_style]
          simp only [List.append_assoc]
      _ = Tag.pattern.hits (g ++ (spanStart .comment ++ c.source)) ++
            Tag.pattern.hits (html.markComments rest) := surroundsComments_html.hits_append g c _
      _ = Tag.pattern.hits (g ++ c.source) ++ Tag.pattern.hits rest := by
          rw [hfront]
          exact congrArg _ hrest
      _ = Tag.pattern.hits (g ++ (c.source ++ rest)) := by
          rw [← Pattern.hits_append hparts, List.append_assoc]
  | gap c s hf ih =>
    rw [Pattern.placements_of_front?_eq_none hf] at h
    rw [markComments_of_front?_eq_none hf]
    have hs := ih (n := n) (g := g ++ [c]) (by simpa [Nat.add_assoc] using h)
    simpa using hs

theorem hits_markBeforeTags {s : Text} (h : CommentsOutsideTags s) :
    Tag.pattern.hits (html.markBeforeTags s) = Tag.pattern.hits s := by
  rw [markBeforeTags, hits_markText keepsAmpersands_html]
  exact hits_markComments (n := 0) (g := []) h

/-- A text without brackets has none in the regions of its tags. -/
theorem not_mem_region {s : Text} (hs : '<' ∉ s) {t : Tag} (ht : t ∈ Tag.pattern.hits s) : '<' ∉ t.region := by
  obtain ⟨before, rest, hf⟩ := Pattern.mem_hits_iff.1 ht
  rw [hf.eq_append, Tag.pattern_source, Tag.source] at hs
  simp only [List.mem_append, not_or] at hs
  exact hs.2.1.1.1.2

/-- For every source, entities and ampersands allowed, that has no comment beginning within a tag once it is unindented
and its brackets are written as entities, deleting the markers of the output for web pages gives back that text. -/
theorem withoutMarkers_highlightHtml (source : Text) (h : CommentsOutsideTags (Entity.encode source.unindent)) :
    withoutMarkers (highlightHtml source) = Entity.encode source.unindent := by
  rw [← prepare] at h ⊢
  have ht : '<' ∉ prepare source := (Entity.not_mem_encode source.unindent).1
  -- the tags are those of the source, so none holds a marker that the pass over tags could cut
  have hkeeps : ∀ t ∈ Tag.pattern.hits (html.markBeforeTags (prepare source)), t.KeepsMarker := by
    intro t hm hlt
    rw [hits_markBeforeTags h] at hm
    exact absurd hlt (not_mem_region ht hm)
  obtain ⟨k, hk, ⟨-, rfl⟩ | ⟨⟨t, hm, hnot⟩, -⟩⟩ := exists_leaves_markTags (tagsHoldOne_markBeforeTags ht)
    (List.suffix_refl _) (w := []) (leaves_markBeforeTags ht)
  · exact hk.withoutMarkers_eq (nests_mark ht).whole
  · exact absurd (hkeeps t hm) hnot

theorem withoutMarkers_highlightHtml_mixed :
    CommentsOutsideTags (Entity.encode (Text.unindent "<p>a &lt;&amp; b</p>x<!-- <b>c</b> -->\n<i/>".toList)) ∧
    withoutMarkers (highlightHtml "<p>a &lt;&amp; b</p>x<!-- <b>c</b> -->\n<i/>".toList) =
      Entity.encode (Text.unindent "<p>a &lt;&amp; b</p>x<!-- <b>c</b> -->\n<i/>".toList) := by
  have h : CommentsOutsideTags
      (Entity.encode (Text.unindent "<p>a &lt;&amp; b</p>x<!-- <b>c</b> -->\n<i/>".toList)) := by
    decide +kernel
  exact ⟨h, withoutMarkers_highlightHtml _ h⟩

end Renderer

end HtmlHighlight
