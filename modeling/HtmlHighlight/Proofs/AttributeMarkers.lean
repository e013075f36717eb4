import HtmlHighlight.Proofs.MarkerRemoval

/-!
# Attributes around a marker

What the pass over attributes leaves of a region that holds the marker before a comment. In a value in single
quotes the marker is kept whole. Anywhere else the class of the marker, or the quote before it, is read as
part of an attribute, the marker is cut, and a piece of it is left that the source does not have
(`leaves_markAttributes`).
-/

namespace HtmlHighlight

namespace Attribute

/-- A bracket of the text stands in a value in single quotes. -/
def QuotesBracket (s : Text) : Prop :=
  ∃ a ∈ pattern.hits s, ∃ v, a.value? = some ('\'' :: v) ∧ '<' ∈ v

theorem quotesBracket_of_front? {s rest : Text} {a : Attribute} (h : front? s = some (a, rest)) :
    QuotesBracket s ↔ (∃ v, a.value? = some ('\'' :: v) ∧ '<' ∈ v) ∨ QuotesBracket rest := by
  rw [← pattern_front?] at h
  simp [QuotesBracket, Pattern.hits_of_front? h]

theorem quotesBracket_of_front?_eq_none {c : Char} {s : Text} (h : front? (c :: s) = none) :
    QuotesBracket (c :: s) ↔ QuotesBracket s := by
  rw [← pattern_front?] at h
  simp [QuotesBracket, Pattern.hits_of_front?_eq_none h]

theorem not_quotesBracket {s : Text} (h : '<' ∉ s) : ¬ QuotesBracket s := by
  rintro ⟨a, ha, v, hv, hm⟩
  obtain ⟨before, rest, hf⟩ := pattern.mem_hits_iff.1 ha
  refine h ?_
  rw [hf.eq_append, pattern_source, source, hv]
  simp [hm]

/-- The part of an attribute before its value holds no bracket. -/
theorem not_mem_of_front? {s rest : Text} {a : Attribute} (h : front? s = some (a, rest)) :
    '<' ∉ a.spacing ++ (a.name ++ ['=']) := by
  obtain ⟨hs, -, hn, -⟩ := front?_eq_some h
  simp only [List.mem_append, not_or]
  exact ⟨fun hm => absurd (hs _ hm) (by decide), fun hm => absurd (hn _ hm) (by decide), by decide⟩

/-- The marker before a comment, cut at its class. -/
theorem spanStart_comment_eq (s : Text) :
    Renderer.spanStart .comment ++ s =
      '<' :: 's' :: 'p' :: 'a' :: 'n' :: (" class=\"highlight-comment\"".toList ++ '>' :: s) := rfl

theorem front?_class (s : Text) :
    front? (" class=\"highlight-comment\"".toList ++ '>' :: s) =
      some (⟨[' '], "class".toList, some "\"highlight-comment\"".toList⟩, '>' :: s) := rfl

end Attribute

namespace Renderer

theorem markAttributes_of_front? {s rest : Text} {a : Attribute} (h : Attribute.front? s = some (a, rest)) :
    html.markAttributes s = html.render a.tokens ++ html.markAttributes rest :=
  Pattern.render_tokenize_of_front? (p := Attribute.pattern) _ h

theorem markAttributes_of_front?_eq_none {c : Char} {s : Text} (h : Attribute.front? (c :: s) = none) :
    html.markAttributes (c :: s) = c :: html.markAttributes s :=
  Pattern.render_tokenize_of_front?_eq_none (p := Attribute.pattern) _ h

/-- The tokens of an attribute whose value leaves `k` leave the rest of the attribute as it is. -/
theorem leaves_attribute_tokens {s rest : Text} {a : Attribute} (hf : Attribute.front? s = some (a, rest))
    {k : Text} (h : Leaves (html.render (a.value?.toList.map (Token.styled .attributeValue)) ++
      html.markAttributes rest) k) :
    Leaves (html.markAttributes s) (a.spacing ++ (a.name ++ (['='] ++ k))) := by
  have hm := Attribute.not_mem_of_front? hf
  simp only [List.mem_append, not_or] at hm
  obtain ⟨hs, hn, he⟩ := hm
  have hname : Leaves (html.style .attributeName a.name) a.name := (Leaves.of_not_mem hn).style _
  have hsign : Leaves (html.style .equalSign ['=']) ['='] := (Leaves.of_not_mem he).style _
  rw [markAttributes_of_front? hf, Attribute.tokens, render_append, List.append_assoc]
  simpa [renderToken] using (Leaves.of_not_mem hs).append (hname.append (hsign.append h))

theorem leaves_markAttributes_of_not_mem {s : Text} (h : '<' ∉ s) : Leaves (html.markAttributes s) s := by
  have hr := Leaves.render (Attribute.tokenize s) (by rwa [Attribute.contents_tokenize])
  rwa [Attribute.contents_tokenize] at hr

/-- Where the region begins with the marker, its class is read as an attribute. -/
theorem leaves_markAttributes_spanStart {s : Text} (h : '<' ∉ s) :
    ¬ Attribute.QuotesBracket (spanStart .comment ++ s) ∧
      Leaves (html.markAttributes (spanStart .comment ++ s))
        ("class=\"highlight-comment\">".toList ++ s) := by
  have hgt : '<' ∉ '>' :: s := by simp [h]
  have hf := Attribute.front?_class s
  rw [Attribute.spanStart_comment_eq]
  constructor
  · rw [Attribute.quotesBracket_of_front?_eq_none rfl, Attribute.quotesBracket_of_front?_eq_none rfl,
      Attribute.quotesBracket_of_front?_eq_none rfl, Attribute.quotesBracket_of_front?_eq_none rfl,
      Attribute.quotesBracket_of_front?_eq_none rfl, Attribute.quotesBracket_of_front? hf]
    rintro (⟨v, hv, -⟩ | hq)
    · exact absurd hv (by simp)
    · exact Attribute.not_quotesBracket hgt hq
  · rw [markAttributes_of_front?_eq_none rfl, markAttributes_of_front?_eq_none rfl,
      markAttributes_of_front?_eq_none rfl, markAttributes_of_front?_eq_none rfl,
      markAttributes_of_front?_eq_none rfl, markAttributes_of_front? hf]
    have hvalue : Leaves (html.style .attributeValue "\"highlight-comment\"".toList)
        "\"highlight-comment\"".toList :=
      (Leaves.of_not_mem (by decide)).style _
    have hsign : Leaves (html.style .equalSign ['=']) ['='] := (Leaves.of_not_mem (by decide)).style _
    have hclass : Leaves ("class".toList ++ spanEnd) "class".toList :=
      (Leaves.of_not_mem (by decide)).append (Leaves.spanEnd_append .nil)
    -- the marker before the name ends where the one around it would have gone on
    exact Leaves.marker (m := "span <span class=\"highlight-attribute-name\"".toList) (by decide) (by decide)
      (hclass.append (hsign.append (hvalue.append (leaves_markAttributes_of_not_mem hgt))))

/-- In single quotes the marker is kept whole. -/
theorem leaves_single_quoted {b₁ b₂ x k : Text} (h₁ : '<' ∉ b₁) (h₂ : '<' ∉ b₂) (h : Leaves x k) :
    Leaves (html.style .attributeValue ('\'' :: (b₁ ++ (spanStart .comment ++ (b₂ ++ ['\''])))) ++ x)
      ('\'' :: (b₁ ++ (b₂ ++ '\'' :: k))) := by
  have hb : Leaves (b₂ ++ ['\'']) (b₂ ++ ['\'']) := .of_not_mem (by simp [h₂])
  have hv : Leaves ('\'' :: (b₁ ++ (spanStart .comment ++ (b₂ ++ ['\'']))))
      ('\'' :: (b₁ ++ (b₂ ++ ['\'']))) :=
    .char (by decide) ((Leaves.of_not_mem h₁).append (Leaves.spanStart_append .comment hb))
  simpa using (hv.style .attributeValue).append h

/-- In double quotes the marker is cut at the quote before its class, and the end of the marker around the
value completes it. -/
theorem leaves_double_quoted {b x k : Text} (hb : '<' ∉ b) (h : Leaves x k) :
    Leaves (html.style .attributeValue ('"' :: (b ++ ("<span class=".toList ++ ['"']))) ++ x)
      ('"' :: (b ++ k)) := by
  have hcut : Leaves ("<span class=".toList ++ ['"'] ++ (spanEnd ++ x)) k :=
    Leaves.marker (m := "span class=\"</span".toList) (by decide) (by decide) h
  have hv : Leaves ('"' :: (b ++ ("<span class=".toList ++ ['"'] ++ (spanEnd ++ x)))) ('"' :: (b ++ k)) :=
    .char (by decide) ((Leaves.of_not_mem hb).append hcut)
  rw [html_style, List.append_assoc, List.append_assoc]
  simpa using Leaves.spanStart_append .attributeValue hv

/-- What is left where the marker begins within a value. -/
theorem leaves_markAttributes_of_value {s rest i i₂ : Text} {a : Attribute}
    (hf : Attribute.front? s = some (a, rest)) (hi : '<' ∉ i) (h₂ : '<' ∉ i₂)
    (hv : a.value?.getD [] ++ rest = i ++ (spanStart .comment ++ i₂)) (hm : '<' ∈ a.value?.getD []) :
    (Attribute.QuotesBracket s ∧
      Leaves (html.markAttributes s) (a.spacing ++ (a.name ++ ['=']) ++ i ++ i₂)) ∨
    (¬ Attribute.QuotesBracket s ∧
      ∃ z, 'h' ∈ z ∧ Leaves (html.markAttributes s) (a.spacing ++ (a.name ++ ['=']) ++ i ++ (z ++ i₂))) := by
  obtain ⟨-, -, -, hquote⟩ := Attribute.front?_eq_some hf
  rw [Attribute.quotesBracket_of_front? hf]
  cases ha : a.value? with
  | none => simp [ha] at hm
  | some v =>
    obtain ⟨q, body, hq, hqb, rfl⟩ := hquote v ha
    rw [ha] at hv hm
    have hqne : '<' ≠ q := by rcases hq with rfl | rfl <;> decide
    -- the value begins before the marker
    obtain ⟨b, rfl⟩ : ∃ b, i = q :: b := by
      cases i with
      | nil => exact absurd (List.cons_eq_cons.1 hv).1.symm hqne
      | cons d b => exact ⟨b, by rw [(List.cons_eq_cons.1 hv).1]⟩
    simp only [List.mem_cons, not_or] at hi
    have hbody : '<' ∈ body := by simpa [hqne] using hm
    have hv' : body ++ q :: rest = b ++ (spanStart .comment ++ i₂) := by simpa using hv
    obtain ⟨u, rfl, hu⟩ : ∃ u, body = b ++ u ∧ spanStart .comment ++ i₂ = u ++ q :: rest := by
      rcases List.append_eq_append_iff.1 hv' with ⟨u, rfl, -⟩ | ⟨u, hb, hu⟩
      · exact absurd (List.mem_append_left u hbody) hi.2
      · exact ⟨u, hb, hu⟩
    rcases hq with rfl | rfl
    · -- the quote before the class ends the value
      have hqu : '"' ∉ u := fun h => hqb (List.mem_append_right _ h)
      obtain ⟨rfl, rfl⟩ := Text.eq_and_eq_of_append_cons (s := "<span class=".toList)
        (t := "highlight-comment\">".toList ++ i₂) (by decide) hqu hu
      have hrest : '<' ∉ "highlight-comment\">".toList ++ i₂ := by
        rw [List.mem_append, not_or]
        exact ⟨by decide, h₂⟩
      refine .inr ⟨?_, "highlight-comment\">".toList, by decide, ?_⟩
      · rintro (⟨w, hw, -⟩ | hq)
        · simp at hw
        · exact Attribute.not_quotesBracket hrest hq
      · have hl := leaves_double_quoted hi.2 (leaves_markAttributes_of_not_mem hrest)
        have ht := leaves_attribute_tokens hf (k := '"' :: (b ++ ("highlight-comment\">".toList ++ i₂)))
          (by rw [ha]; simpa [renderToken] using hl)
        simpa using ht
    · -- the value goes on after the marker
      obtain ⟨b₂, rfl, rfl⟩ := Text.exists_of_append_eq_append_cons (s := spanStart .comment) (by decide) hu
      simp only [List.mem_append, List.mem_cons, not_or] at h₂
      refine .inl ⟨.inl ⟨_, rfl, List.mem_append_left _ hbody⟩, ?_⟩
      have hl := leaves_single_quoted hi.2 h₂.1 (leaves_markAttributes_of_not_mem h₂.2.2)
      have ht := leaves_attribute_tokens hf (k := '\'' :: (b ++ (b₂ ++ '\'' :: rest)))
        (by rw [ha]; simpa [renderToken] using hl)
      simpa using ht

/-- What the pass over attributes leaves of a region with one marker: all of the region, and with it a piece
of the marker unless that stands in a value in single quotes. -/
theorem leaves_markAttributes {i₁ i₂ : Text} (h₁ : '<' ∉ i₁) (h₂ : '<' ∉ i₂) :
    (Attribute.QuotesBracket (i₁ ++ (spanStart .comment ++ i₂)) ∧
      Leaves (html.markAttributes (i₁ ++ (spanStart .comment ++ i₂))) (i₁ ++ i₂)) ∨
    (¬ Attribute.QuotesBracket (i₁ ++ (spanStart .comment ++ i₂)) ∧
      ∃ z, 'h' ∈ z ∧ Leaves (html.markAttributes (i₁ ++ (spanStart .comment ++ i₂))) (i₁ ++ (z ++ i₂))) := by
  generalize hr : i₁ ++ (spanStart .comment ++ i₂) = r
  induction r using Attribute.pattern.segments_induction generalizing i₁ with
  | nil => simp [spanStart_eq] at hr
  | hit s a rest hf ih =>
    rw [Attribute.pattern_front?] at hf
    have hs := Attribute.eq_append_of_front? hf
    obtain ⟨-, -, -, hquote⟩ := Attribute.front?_eq_some hf
    have hpre : a.spacing ++ (a.name ++ ['=']) ++ (a.value?.getD [] ++ rest) =
        i₁ ++ (spanStart .comment ++ i₂) := by
      rw [hr, hs, Attribute.source]
      simp
    rw [spanStart_eq, List.cons_append] at hpre
    obtain ⟨i, rfl, hi⟩ := Text.exists_of_append_eq_append_cons (Attribute.not_mem_of_front? hf) hpre
    rw [← List.cons_append, ← spanStart_eq] at hi
    simp only [List.mem_append, not_or] at h₁
    by_cases hm : '<' ∈ a.value?.getD []
    · exact leaves_markAttributes_of_value hf h₁.2 h₂ hi hm
    · -- the attribute stands before the marker
      rw [spanStart_eq, List.cons_append] at hi
      obtain ⟨i', rfl, hrest⟩ := Text.exists_of_append_eq_append_cons hm hi
      rw [← List.cons_append, ← spanStart_eq] at hrest
      have hvalue : Leaves (html.render (a.value?.toList.map (Token.styled .attributeValue)))
          (a.value?.getD []) := by
        cases hv : a.value? with
        | none => exact .nil
        | some v =>
          rw [hv] at hm
          simpa [renderToken] using (Leaves.of_not_mem (s := v) hm).style .attributeValue
      have hq : ¬ ∃ v, a.value? = some ('\'' :: v) ∧ '<' ∈ v := by
        rintro ⟨v, hv, hmv⟩
        simp [hv, hmv] at hm
      rw [Attribute.quotesBracket_of_front? hf, or_iff_right hq]
      rcases ih (fun h => h₁.2 (List.mem_append_right _ h)) hrest.symm with ⟨hr', hl⟩ | ⟨hr', z, hz, hl⟩
      · exact .inl ⟨hr', by simpa using leaves_attribute_tokens hf (hvalue.append hl)⟩
      · exact .inr ⟨hr', z, hz, by simpa using leaves_attribute_tokens hf (hvalue.append hl)⟩
  | gap c s hf ih =>
    rw [Attribute.pattern_front?] at hf
    cases i₁ with
    | nil =>
      obtain ⟨hq, hl⟩ := leaves_markAttributes_spanStart h₂
      rw [List.nil_append] at hr
      rw [hr] at hq hl
      exact .inr ⟨hq, "class=\"highlight-comment\">".toList, by decide, hl⟩
    | cons d i₁ =>
      obtain ⟨rfl, hr'⟩ := List.cons_eq_cons.1 hr
      simp only [List.mem_cons, not_or] at h₁
      rw [Attribute.quotesBracket_of_front?_eq_none hf, markAttributes_of_front?_eq_none hf]
      rcases ih h₁.2 hr' with ⟨hq, hl⟩ | ⟨hq, z, hz, hl⟩
      · exact .inl ⟨hq, .char (Ne.symm h₁.1) hl⟩
      · exact .inr ⟨hq, z, hz, .char (Ne.symm h₁.1) hl⟩

end Renderer

end HtmlHighlight
