import HtmlHighlight.Proofs.TrimmingPatterns

/-!
# The form of an unindented text

A text that is unindented and not empty begins with a line that is not blank, ends with a character that is not blank,
and has a line that is not blank and not indented (`Text.Unindented`). Every text of this form is left as it is
(`Text.Unindented.unindent_eq_self`), and what is left of a text that is not blank is of this form
(`Text.Core.unindented`). So these texts and the empty one are just the fixed points, and unindenting a text a second
time changes nothing.
-/

namespace HtmlHighlight

namespace Text

/-- The form of a text that is unindented and not empty. -/
structure Unindented (s : Text) : Prop where
  first_line_not_blank : ∃ l ∈ s.lines.head?, l.allBlank = false
  last_char_not_blank : ∃ c ∈ s.getLast?, isBlank c = false
  exists_flush_line : ∃ l ∈ s.lines, l.allBlank = false ∧ l.head? ≠ some ' ' ∧ l.head? ≠ some '\t'

theorem indentation_eq_zero_iff {l : Text} : l.indentation = 0 ↔ l.head? ≠ some ' ' ∧ l.head? ≠ some '\t' := by
  cases l with
  | nil => decide
  | cons c l => by_cases hs : c = ' ' <;> by_cases ht : c = '\t' <;> simp [indentation, isIndent, hs, ht]

theorem outdent_zero (line : Text) : outdent 0 line = line := by
  rw [outdent, Nat.zero_min, List.drop_zero]

theorem Unindented.unindent_eq_self {s : Text} (h : Unindented s) : s.unindent = s := by
  obtain ⟨first, hfirst, hfb⟩ := h.first_line_not_blank
  obtain ⟨d, hd, hdb⟩ := h.last_char_not_blank
  obtain ⟨l, hl, hlb, hflush⟩ := h.exists_flush_line
  have htrim : s.trimEnd = s := by
    refine trimEnd_eq_self fun c hc => ?_
    rwa [Option.mem_unique hc hd]
  have hdrop : s.lines.dropWhile allBlank = s.lines := by
    obtain ⟨ls, hls⟩ := List.head?_eq_some_iff.1 hfirst
    rw [hls, List.dropWhile_cons_of_neg (by simp [hfb])]
  have hshare : SharesIndentation s.lines 0 :=
    ⟨fun _ _ _ => Nat.zero_le _, l, hl, hlb, indentation_eq_zero_iff.2 hflush⟩
  have hout : s.lines.map (outdent 0) = s.lines := by
    rw [funext outdent_zero, List.map_id']
  rw [unindent, htrim, hdrop]
  simp only [commonIndentation?_eq_some_iff.2 hshare, hout, ofLines_lines]

/-- A line that is not blank ends without its indentation as it did before. -/
theorem getLast?_outdent (k : Nat) {line : Text} (h : line.allBlank = false) :
    (outdent k line).getLast? = line.getLast? := by
  obtain ⟨indent, -, -, hline⟩ := exists_eq_append_outdent k line
  have hne : outdent k line ≠ [] := ne_nil_of_not_allBlank (by rw [allBlank_outdent, h])
  conv_rhs => rw [hline, List.getLast?_append_of_ne_nil _ hne]

theorem Core.unindented {s : Text} {above inner : List Text} {last : Text} {below : List Text}
    (h : Core s above inner last below) : Unindented s.unindent := by
  obtain ⟨k, hk⟩ := h.exists_sharesIndentation
  have hlines := h.lines_unindent hk
  have hlast := h.last_not_blank_trimEnd
  refine ⟨?first_line, ?last_char, ?flush_line⟩
  case first_line =>
    obtain ⟨first, ls, hls⟩ := List.exists_cons_of_ne_nil (show inner ++ [last.trimEnd] ≠ [] by simp)
    refine ⟨outdent k first, by rw [hlines, hls]; rfl, ?_⟩
    rw [allBlank_outdent, h.first_not_blank_trimEnd first (by rw [hls]; rfl)]
  case last_char =>
    have hne : outdent k last.trimEnd ≠ [] := ne_nil_of_not_allBlank (by rw [allBlank_outdent, hlast])
    have hend : s.unindent.getLast? = last.trimEnd.getLast? := by
      rw [h.unindent_eq hk, List.map_append, List.map_singleton, ofLines_append_cons, List.flatMap_nil,
        List.append_nil, List.getLast?_append_of_ne_nil _ hne, getLast?_outdent k hlast]
    obtain ⟨c, hc⟩ : ∃ c, c ∈ last.trimEnd.getLast? := by
      rw [← getLast?_outdent k hlast]
      exact ⟨_, List.getLast_mem_getLast? hne⟩
    exact ⟨c, hend ▸ hc, isBlank_of_mem_getLast?_trimEnd hc⟩
  case flush_line =>
    obtain ⟨l, hl, hlb, hlk⟩ := (h.sharesIndentation_trimEnd.2 hk).exists_eq
    refine ⟨outdent k l, hlines ▸ List.mem_map_of_mem hl, by rw [allBlank_outdent, hlb], ?_⟩
    rw [← indentation_eq_zero_iff, indentation_outdent, hlk, Nat.sub_self]

theorem unindent_eq_nil_or_unindented (s : Text) : s.unindent = [] ∨ Unindented s.unindent := by
  cases hs : s.allBlank with
  | true => exact .inl (unindent_of_allBlank hs)
  | false =>
    obtain ⟨_, _, _, _, h⟩ := exists_core hs
    exact .inr h.unindented

theorem unindent_eq_self {s : Text} (h : s = [] ∨ Unindented s) : s.unindent = s := by
  rcases h with rfl | h
  · rfl
  · exact h.unindent_eq_self

/-- Unindenting a text, which is trimming it by the two patterns and stripping its lines, gives the empty text or one of
the form of unindented texts; those are the texts that it leaves as they are, so doing it twice is doing it once. -/
theorem unindent_form (s : Text) :
    s.unindent = s.unindentStepwise ∧
    (s.unindent = [] ∨ Unindented s.unindent) ∧
    (s.unindent = s ↔ s = [] ∨ Unindented s) ∧
    s.unindent.unindent = s.unindent := by
  have hform := unindent_eq_nil_or_unindented s
  refine ⟨unindent_eq_unindentStepwise s, hform, ⟨fun h => ?_, unindent_eq_self⟩, unindent_eq_self hform⟩
  rwa [h] at hform

-- a line of other blank space is blank, but has no indentation to lose
example : unindent "\u00a0\n \tx\n \r\n  y\u3000\n".toList = "x\n\r\ny".toList := by decide +kernel

end Text

end HtmlHighlight
