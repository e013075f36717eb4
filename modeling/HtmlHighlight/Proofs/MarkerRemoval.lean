import HtmlHighlight.Proofs.Nesting

/-!
# Deleting markers

`withoutMarkers` deletes each `<span …>` and `</span>` of a text, up to the next `>`, as a search from the
left finds them. `Leaves s k` describes the same piece by piece, with pieces that begin and end outside
markers, so that it can be put together and taken apart: `Leaves.append`, and `Leaves.exists_of_append_cons`
for a cut before an ampersand, which no marker holds. `Leaves.withoutMarkers_eq` ties the two together.
-/

namespace HtmlHighlight

/-- A marker in an output: `<span` or `</span`, and all up to the next closing bracket. -/
structure Marker where
  isEnd : Bool
  inner : Text
  deriving DecidableEq, Repr

namespace Marker

/-- The characters of a marker. -/
def source (m : Marker) : Text :=
  '<' :: (Tag.slash m.isEnd ++ ("span".toList ++ (m.inner ++ ['>'])))

/-- The marker that a text starts with and the text after it. -/
def front? (s : Text) : Option (Marker × Text) :=
  match Text.after? ['<'] s with
  | none => none
  | some s =>
    let (isEnd, s) := Tag.dropSlash s
    match Text.after? "span".toList s with
    | none => none
    | some s => (Text.cutAt? ['>'] s).map fun (inner, rest) => (⟨isEnd, inner⟩, rest)

theorem eq_append_of_front? {s : Text} {m : Marker} {rest : Text} (h : front? s = some (m, rest)) :
    s = m.source ++ rest := by
  rw [front?] at h
  split at h
  next => cases h
  next u hu =>
    dsimp only at h
    split at h
    next => cases h
    next v hv =>
      obtain ⟨⟨inner, r⟩, hi, he⟩ := Option.map_eq_some_iff.1 h
      cases he
      have hs := Tag.eq_append_of_dropSlash u
      rw [Text.after?_eq_some_iff.1 hv, Text.eq_append_of_cutAt? hi] at hs
      generalize Tag.dropSlash u = p at *
      rw [Text.after?_eq_some_iff.1 hu, hs]
      simp only [source, List.append_assoc, List.cons_append, List.nil_append]

/-- Markers as a pattern. -/
def pattern : Pattern Marker where
  front? := front?
  source := source
  source_ne_nil _ := List.cons_ne_nil _ _
  eq_append := eq_append_of_front?

theorem begins : pattern.Begins '<' := by
  intro d s hd
  show front? (d :: s) = none
  rw [front?, Text.after?_cons_eq_none hd]

theorem front?_source_append {m : Marker} (h : '>' ∉ m.inner) (s : Text) :
    pattern.front? (m.source ++ s) = some (m, s) := by
  obtain ⟨isEnd, inner⟩ := m
  have hc : Text.cutAt? ['>'] (inner ++ (['>'] ++ s)) = some (inner, s) := by
    rw [Text.cutAt?_append_of_not_mem h, Text.cutAt?_self_append (by simp)]
    simp
  have hs : Tag.dropSlash (Tag.slash isEnd ++ ("span".toList ++ (inner ++ (['>'] ++ s)))) =
      (isEnd, "span".toList ++ (inner ++ (['>'] ++ s))) := by
    cases isEnd <;> rfl
  have hsrc : source ⟨isEnd, inner⟩ ++ s =
      ['<'] ++ (Tag.slash isEnd ++ ("span".toList ++ (inner ++ (['>'] ++ s)))) := by
    simp only [source, List.append_assoc, List.cons_append, List.nil_append]
  show front? (source ⟨isEnd, inner⟩ ++ s) = some (⟨isEnd, inner⟩, s)
  rw [front?, hsrc, Text.after?_append]
  simp only [hs, Text.after?_append, hc, Option.map_some]

end Marker

/-- The characters of a piece of a searched text that stand outside markers. -/
def outside : Segment Marker → Text
  | .gap c => [c]
  | .hit _ => []

/-- A text without its markers. -/
def withoutMarkers (s : Text) : Text :=
  (Marker.pattern.segments s).flatMap outside

/-- `s` is `k` with markers inserted, none of which holds an ampersand. -/
inductive Leaves : Text → Text → Prop
  | nil : Leaves [] []
  | char {c : Char} {s k : Text} : c ≠ '<' → Leaves s k → Leaves (c :: s) (c :: k)
  | marker {m s k : Text} : '>' ∉ m → '&' ∉ m → Leaves s k → Leaves ('<' :: (m ++ '>' :: s)) k

namespace Leaves

theorem of_not_mem {s : Text} (h : '<' ∉ s) : Leaves s s := by
  induction s with
  | nil => exact .nil
  | cons c s ih =>
    simp only [List.mem_cons, not_or] at h
    exact .char (Ne.symm h.1) (ih h.2)

theorem append {s t k l : Text} (h : Leaves s k) (h' : Leaves t l) : Leaves (s ++ t) (k ++ l) := by
  induction h with
  | nil => exact h'
  | char hc _ ih => exact .char hc ih
  | marker hm ha _ ih =>
    rw [List.cons_append, List.append_assoc, List.cons_append]
    exact .marker hm ha ih

/-- What is left is determined. -/
theorem unique {s k l : Text} (h : Leaves s k) (h' : Leaves s l) : k = l := by
  induction h generalizing l with
  | nil => cases h'; rfl
  | char hc _ ih =>
    cases h' with
    | char _ h' => rw [ih h']
    | marker _ _ _ => exact absurd rfl hc
  | @marker m s k hm _ _ ih =>
    generalize hu : '<' :: (m ++ '>' :: s) = u at h'
    cases h' with
    | nil => cases hu
    | char hc _ => exact absurd (List.cons_eq_cons.1 hu).1.symm hc
    | marker hm' _ h' =>
      obtain ⟨-, rfl⟩ := Text.eq_and_eq_of_append_cons hm hm' (List.cons_eq_cons.1 hu).2
      exact ih h'

/-- A text that leaves something may be cut before an ampersand. -/
theorem exists_of_append_cons {a b k : Text} (h : Leaves (a ++ '&' :: b) k) :
    ∃ ka kb, k = ka ++ kb ∧ Leaves a ka ∧ Leaves ('&' :: b) kb := by
  generalize hs : a ++ '&' :: b = s at h
  induction h generalizing a with
  | nil => simp at hs
  | @char c s k hc h ih =>
    cases a with
    | nil =>
      rw [List.nil_append] at hs
      exact ⟨[], c :: k, rfl, .nil, by rw [hs]; exact .char hc h⟩
    | cons d a =>
      obtain ⟨rfl, he⟩ := List.cons_eq_cons.1 hs
      obtain ⟨ka, kb, rfl, ha, hb⟩ := ih he
      exact ⟨d :: ka, kb, rfl, .char hc ha, hb⟩
  | @marker m s k hm hamp h ih =>
    cases a with
    | nil => exact absurd (List.cons_eq_cons.1 hs).1 (by decide)
    | cons d a =>
      obtain ⟨rfl, he⟩ := List.cons_eq_cons.1 hs
      obtain ⟨a', rfl, hu⟩ := Text.exists_of_append_eq_append_cons hamp he.symm
      cases a' with
      | nil => exact absurd (List.cons_eq_cons.1 hu).1 (by decide)
      | cons d a' =>
        obtain ⟨rfl, hv⟩ := List.cons_eq_cons.1 hu
        obtain ⟨ka, kb, rfl, ha, hb⟩ := ih hv.symm
        exact ⟨ka, kb, rfl, .marker hm hamp ha, hb⟩

/-- Characters outside markers stay. -/
theorem exists_of_append {a b k : Text} (ha : '<' ∉ a) (h : Leaves (a ++ b) k) :
    ∃ l, k = a ++ l ∧ Leaves b l := by
  induction a generalizing k with
  | nil => exact ⟨k, rfl, h⟩
  | cons c a ih =>
    simp only [List.mem_cons, not_or] at ha
    generalize hs : c :: a ++ b = s at h
    cases h with
    | nil => cases hs
    | char _ h =>
      obtain ⟨rfl, rfl⟩ := List.cons_eq_cons.1 hs
      obtain ⟨l, rfl, hl⟩ := ih ha.2 h
      exact ⟨l, rfl, hl⟩
    | marker _ _ _ => exact absurd (List.cons_eq_cons.1 hs).1.symm ha.1

theorem spanStart_append {s k : Text} (kind : Kind) (h : Leaves s k) :
    Leaves (Renderer.spanStart kind ++ s) k := by
  have he : Renderer.spanStart kind ++ s =
      '<' :: ("span class=\"".toList ++ (kind.cssClass.toList ++ ['"']) ++ '>' :: s) := by
    cases kind <;> rfl
  rw [he]
  exact .marker (by cases kind <;> decide) (by cases kind <;> decide) h

theorem spanEnd_append {s k : Text} (h : Leaves s k) : Leaves (Renderer.spanEnd ++ s) k :=
  .marker (m := "/span".toList) (by decide) (by decide) h

theorem style {s k : Text} (kind : Kind) (h : Leaves s k) : Leaves (Renderer.html.style kind s) k := by
  rw [Renderer.html_style]
  simpa using spanStart_append kind (h.append (spanEnd_append .nil))

/-- Styled tokens leave their characters. -/
theorem render (ts : List Token) (h : '<' ∉ Token.contents ts) :
    Leaves (Renderer.html.render ts) (Token.contents ts) := by
  induction ts with
  | nil => exact .nil
  | cons t ts ih =>
    rw [Token.contents_cons, List.mem_append, not_or] at h
    rw [Renderer.render_cons, Token.contents_cons]
    refine .append ?_ (ih h.2)
    cases t with
    | plain s => exact of_not_mem h.1
    | styled kind s => exact (of_not_mem (s := s) h.1).style kind

/-- What is left of a text in which each bracket begins a marker is the text without its markers. -/
theorem withoutMarkers_eq {s k : Text} (h : Leaves s k) (hw : Renderer.Whole s) : withoutMarkers s = k := by
  induction h with
  | nil => simp [withoutMarkers]
  | @char c s k hc _ ih =>
    rw [withoutMarkers, Marker.pattern.segments_of_front?_eq_none (Marker.begins c s hc), List.flatMap_cons]
    exact congrArg (c :: ·) (ih (hw.right (a := [c])))
  | @marker m s k hm _ _ ih =>
    obtain ⟨l, hl, hs⟩ : ∃ l : Marker, '>' ∉ l.inner ∧ '<' :: (m ++ '>' :: s) = l.source ++ s := by
      rcases hw [] _ rfl with ⟨t, ht⟩ | ⟨t, ht⟩
      · obtain ⟨u, rfl, -⟩ := Text.exists_of_append_eq_append_cons (by decide) ht
        refine ⟨⟨false, ' ' :: u⟩, ?_, ?_⟩
        · simp only [List.mem_append, not_or] at hm
          simpa using hm.2
        · simp [Marker.source, Tag.slash]
      · obtain ⟨rfl, -⟩ := Text.eq_and_eq_of_append_cons (s := "/span".toList) (by decide) hm ht
        exact ⟨⟨true, []⟩, by simp, rfl⟩
    rw [hs] at hw ⊢
    rw [withoutMarkers, Marker.pattern.segments_of_front? (Marker.front?_source_append hl s),
      List.flatMap_cons]
    exact ih hw.right

end Leaves

end HtmlHighlight
