import HtmlHighlight.Proofs.AttributeMarkers
import HtmlHighlight.Proofs.TagInteriors

/-!
# From the output back to the source

Deleting the markers of an output for web pages and reading the entities for brackets back gives the source
without its indentation, unless a later pass has cut a marker. `leaves_markBeforeTags` says that the passes
over comments and runs cut none, and `exists_leaves_markTags` what the pass over tags does:
a tag that a comment begins in keeps its marker if the marker stands in a value in single quotes, and a
piece of the marker stays behind otherwise. `decode_withoutMarkers_eq_unindent_iff` puts both together.
-/

namespace HtmlHighlight

/-- A marker within a tag, if there is one, stands in a value in single quotes. -/
def Tag.KeepsMarker (t : Tag) : Prop :=
  '<' ∈ t.region → Attribute.QuotesBracket t.region

namespace Renderer

/-! ## Comments and runs -/

theorem leaves_markComments {t : Text} (ht : '<' ∉ t) : Leaves (html.markComments t) t := by
  have h := Leaves.render (Comment.tokenize t) (by rwa [Comment.contents_tokenize])
  rwa [Comment.contents_tokenize] at h

/-- A run may be styled whatever markers it holds, since none of them is cut by the ampersands around it. -/
theorem leaves_markText {s k : Text} (h : Leaves s k) : Leaves (html.markText s) k := by
  refine Pattern.render_tokenize (motive := (Leaves · k)) (fun before run after _ hn => ?_) h
  rw [TextRun.pattern_source, TextRun.source, List.append_assoc, List.append_assoc] at hn
  obtain ⟨kb, k₁, rfl, hb, hn₁⟩ := Leaves.exists_of_append_cons hn
  obtain ⟨k₂, rfl, hn₂⟩ := Leaves.exists_of_append (a := Entity.gt) (by decide) hn₁
  obtain ⟨kc, k₃, rfl, hc, hn₃⟩ := Leaves.exists_of_append_cons hn₂
  have hg : Leaves Entity.gt Entity.gt := .of_not_mem (by decide)
  have hl : Leaves (Entity.lt ++ after) k₃ := hn₃
  rw [TextRun.tokens]
  split
  next =>
    simpa [renderToken] using hb.append (hg.append ((hc.style .text).append hl))
  next =>
    simpa [renderToken, TextRun.source] using hb.append (hg.append (hc.append hl))

theorem leaves_markBeforeTags {t : Text} (ht : '<' ∉ t) : Leaves (html.markBeforeTags t) t :=
  leaves_markText (leaves_markComments ht)

/-! ## Tags -/

/-- A tag is taken apart at its ampersands. -/
theorem exists_of_leaves_tag {t : Tag} {w rest k : Text} (hname : '<' ∉ t.name)
    (h : Leaves (w ++ (t.source ++ rest)) k) :
    ∃ kw kr k', k = kw ++ (t.opening ++ (t.name ++ (kr ++ (Entity.gt ++ k')))) ∧ Leaves w kw ∧
      Leaves (t.region ++ Tag.slash t.isSelfClosing) kr ∧ Leaves rest k' := by
  have he : t.source ++ rest = t.opening ++ (t.name ++ (t.region ++ Tag.slash t.isSelfClosing ++
      (Entity.gt ++ rest))) := by
    rw [Tag.source]
    simp only [List.append_assoc]
  rw [he] at h
  obtain ⟨kw, k₁, rfl, hw, h₁⟩ := Leaves.exists_of_append_cons h
  obtain ⟨k₂, rfl, h₂⟩ := Leaves.exists_of_append t.not_mem_opening h₁
  obtain ⟨k₃, rfl, h₃⟩ := Leaves.exists_of_append hname h₂
  obtain ⟨kr, k₄, rfl, hr, h₄⟩ := Leaves.exists_of_append_cons h₃
  obtain ⟨k', rfl, h'⟩ := Leaves.exists_of_append (a := Entity.gt) (by decide) h₄
  exact ⟨kw, kr, k', rfl, hw, hr, h'⟩

/-- What is left of a marked tag: what its attributes leave, with all around them. -/
theorem leaves_tokens {t : Tag} {w rest kw r k : Text} (hname : '<' ∉ t.name) (hw : Leaves w kw)
    (hr : Leaves (html.markAttributes t.region) r) (h : Leaves rest k) :
    Leaves (w ++ html.render t.tokens ++ rest)
      (kw ++ (t.opening ++ (t.name ++ (r ++ Tag.slash t.isSelfClosing ++ (Entity.gt ++ k))))) := by
  have ho : Leaves (html.style .tag t.opening) t.opening := (Leaves.of_not_mem t.not_mem_opening).style _
  have hn : Leaves (html.style .tagName t.name) t.name := (Leaves.of_not_mem hname).style _
  have hs : Leaves (html.render (if t.isSelfClosing then [.styled .tag ['/']] else []))
      (Tag.slash t.isSelfClosing) := by
    cases t.isSelfClosing with
    | false => exact .nil
    | true => simpa [renderToken, Tag.slash] using (Leaves.of_not_mem (s := ['/']) (by decide)).style .tag
  have hg : Leaves (html.style .tag Entity.gt) Entity.gt := (Leaves.of_not_mem (by decide)).style _
  have key := hw.append (ho.append (hn.append ((hr.append hs).append (hg.append h))))
  simpa [Tag.tokens, renderToken, markAttributes] using key

/-- Marking a tag, with `w` written before it, leaves what stood there before, and more if the tag does not
keep its marker. -/
theorem exists_leaves_tokens {t : Tag} {w rest k : Text} (hname : '<' ∉ t.name) (ht : HoldsOne t.region)
    (h : Leaves (w ++ (t.source ++ rest)) k) :
    ∃ k', Leaves (w ++ html.render t.tokens ++ rest) k' ∧
      ((t.KeepsMarker ∧ k' = k) ∨ (¬ t.KeepsMarker ∧ k.count 'h' < k'.count 'h')) := by
  have hslash : '<' ∉ Tag.slash t.isSelfClosing := Tag.not_mem_slash (by decide) _
  obtain ⟨kw, kr, k₁, rfl, hw, hr, h₁⟩ := exists_of_leaves_tag hname h
  rcases ht with hm | ⟨i₁, i₂, hi, hm₁, hm₂⟩
  · obtain rfl : kr = t.region ++ Tag.slash t.isSelfClosing :=
      hr.unique ((Leaves.of_not_mem hm).append (.of_not_mem hslash))
    refine ⟨_, leaves_tokens hname hw (leaves_markAttributes_of_not_mem hm) h₁, .inl ⟨?_, rfl⟩⟩
    exact fun hm' => absurd hm' hm
  · obtain rfl : kr = i₁ ++ i₂ ++ Tag.slash t.isSelfClosing := by
      rw [hi] at hr
      exact hr.unique (((Leaves.of_not_mem hm₁).append
        (Leaves.spanStart_append .comment (.of_not_mem hm₂))).append (.of_not_mem hslash))
    have hkeeps : t.KeepsMarker ↔ Attribute.QuotesBracket t.region := by
      have hmem : '<' ∈ t.region := by
        rw [hi, spanStart_eq]
        simp
      exact ⟨fun hk => hk hmem, fun hq _ => hq⟩
    rw [hkeeps]
    rcases leaves_markAttributes hm₁ hm₂ with ⟨hq, hl⟩ | ⟨hq, z, hz, hl⟩
    · rw [← hi] at hq hl
      exact ⟨_, leaves_tokens hname hw hl h₁, .inl ⟨hq, rfl⟩⟩
    · rw [← hi] at hq hl
      refine ⟨_, leaves_tokens hname hw hl h₁, .inr ⟨hq, ?_⟩⟩
      have hpos : 0 < z.count 'h' := List.count_pos_iff.2 hz
      simp only [List.count_append]
      omega

/-- The pass over tags, with `w` written before, leaves what was left before it, and more if a tag does not
keep its marker. -/
theorem exists_leaves_markTags {u v w k : Text} (hu : TagsHoldOne u) (hv : v <:+ u) (h : Leaves (w ++ v) k) :
    ∃ k', Leaves (w ++ html.markTags v) k' ∧
      (((∀ t ∈ Tag.pattern.hits v, t.KeepsMarker) ∧ k' = k) ∨
        ((∃ t ∈ Tag.pattern.hits v, ¬ t.KeepsMarker) ∧ k.count 'h' < k'.count 'h')) := by
  induction v using Tag.pattern.segments_induction generalizing w k with
  | nil => exact ⟨k, by simpa [markTags, Tag.tokenize] using h, .inl ⟨by simp [Pattern.hits], rfl⟩⟩
  | hit v t rest hf ih =>
    rw [Tag.pattern_front?] at hf
    have hs := Tag.eq_append_of_front? hf
    obtain ⟨a, ha⟩ := hv
    have hn : '<' ∉ t.name := Tag.not_mem_name hf (by decide)
    have hr : HoldsOne t.region := hu.region (a := a) (b := rest) (by rw [← ha, hs]) (hs ▸ hf)
    obtain ⟨k₁, hk₁, h₁⟩ := exists_leaves_tokens hn hr (hs ▸ h)
    obtain ⟨k₂, hk₂, h₂⟩ := ih ⟨a ++ t.source, by rw [← ha, hs, List.append_assoc]⟩ hk₁
    refine ⟨k₂, ?_, ?_⟩
    · rw [markTags, Tag.tokenize, Pattern.render_tokenize_of_front? (p := Tag.pattern) _ hf,
        ← List.append_assoc]
      exact hk₂
    · rw [Pattern.hits_of_front? hf, List.forall_mem_cons]
      rcases h₁ with ⟨ht, rfl⟩ | ⟨ht, hlt₁⟩ <;> rcases h₂ with ⟨hall, rfl⟩ | ⟨hex, hlt₂⟩
      · exact .inl ⟨⟨ht, hall⟩, rfl⟩
      · exact .inr ⟨hex.imp fun _ h => ⟨List.mem_cons_of_mem _ h.1, h.2⟩, hlt₂⟩
      · exact .inr ⟨⟨t, List.mem_cons_self, ht⟩, hlt₁⟩
      · exact .inr ⟨⟨t, List.mem_cons_self, ht⟩, hlt₁.trans hlt₂⟩
  | gap c v hf ih =>
    obtain ⟨k', hk, hor⟩ := ih ((List.suffix_cons ..).trans hv) (w := w ++ [c]) (by simpa using h)
    refine ⟨k', ?_, ?_⟩
    · rw [markTags, Tag.tokenize, Pattern.render_tokenize_of_front?_eq_none _ hf]
      simpa [markTags, Tag.tokenize] using hk
    · rw [Pattern.hits_of_front?_eq_none hf]
      exact hor

/-! ## The round trip -/

/-- For a source without ampersands, deleting the markers of the output for web pages and reading its entities
back gives the source without its indentation if and only if each tag that a marker stands in holds it in a
value in single quotes. -/
theorem decode_withoutMarkers_eq_unindent_iff (source : Text) (h : '&' ∉ source) :
    Entity.decode (withoutMarkers (highlightHtml source)) = source.unindent ↔
      ∀ t ∈ Tag.pattern.hits (html.markBeforeTags (prepare source)), t.KeepsMarker := by
  have ht : '<' ∉ prepare source := (Entity.not_mem_encode source.unindent).1
  have hd : Entity.decode (prepare source) = source.unindent :=
    Entity.decode_encode fun hm => h (Text.mem_of_mem_unindent (by decide) hm)
  obtain ⟨k, hk, hor⟩ := exists_leaves_markTags (tagsHoldOne_markBeforeTags ht) (List.suffix_refl _) (w := [])
    (leaves_markBeforeTags ht)
  have hw : withoutMarkers (highlightHtml source) = k := hk.withoutMarkers_eq (nests_mark ht).whole
  rw [hw]
  rcases hor with ⟨hall, rfl⟩ | ⟨⟨t, hmem, hnot⟩, hlt⟩
  · exact iff_of_true hd hall
  · -- a piece of a marker is left, and its `h` is one too many
    refine iff_of_false (fun he => ?_) fun hall => hnot (hall t hmem)
    have hc := congrArg (List.count 'h') (he.trans hd.symm)
    rw [Entity.count_decode (by decide), Entity.count_decode (by decide)] at hc
    omega

theorem decode_withoutMarkers_quoted :
    '&' ∉ "<a title='<!--'>b</a> <!-- c -->".toList ∧
    (Entity.decode (withoutMarkers (highlightHtml "<a title='<!--'>b</a> <!-- c -->".toList)) =
        Text.unindent "<a title='<!--'>b</a> <!-- c -->".toList ↔
      ∀ t ∈ Tag.pattern.hits (html.markBeforeTags (prepare "<a title='<!--'>b</a> <!-- c -->".toList)),
        t.KeepsMarker) :=
  ⟨by decide, decode_withoutMarkers_eq_unindent_iff _ (by decide)⟩

/-- A comment between the name of a tag and its closing bracket leaves a piece of its marker. -/
theorem decode_withoutMarkers_ne_unindent :
    '&' ∉ "<a <!-- x -->>".toList ∧
    Entity.decode (withoutMarkers (highlightHtml "<a <!-- x -->>".toList)) ≠
      Text.unindent "<a <!-- x -->>".toList := by
  decide +kernel

end Renderer

end HtmlHighlight
